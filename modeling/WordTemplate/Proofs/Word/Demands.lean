import Mathlib.Data.List.Find
import WordTemplate.Proofs.Document.Rewiring
import WordTemplate.Proofs.Document.TextChanges
import WordTemplate.Proofs.Document.Trees

/-!
# Properties that are demanded

Setting a flag demands a path of elements below a node: its properties, perhaps the properties of its
mark, and the flag. An element of the path that is missing is added in its place, with nothing in it
but the rest of the path. What all demands together add depends on which demands there are and not on
the order in which they are met, so documents in which the same demands were met in different orders
have the same trees.
-/

namespace WordTemplate

/-- Where a new child goes among the children that are there. -/
inductive ChildPlace where
  /-- After the leading children whose names are given. -/
  | after (leading : List String)
  /-- Before a child with the first of the given names that a child has, or else at the end. -/
  | before (following : List String)

/-- A child that an element has to have. -/
structure Requirement where
  name : String
  place : ChildPlace

/-- The paths of children that are demanded of nodes. -/
abbrev Demands := NodeId → List Requirement → Prop

theorem takeWhile_congr {first second : NodeId → Bool} {ids : List NodeId}
    (same : ∀ id ∈ ids, first id = second id) : ids.takeWhile first = ids.takeWhile second := by
  induction ids with
  | nil => rfl
  | cons id ids inductionHypothesis =>
      simp only [List.takeWhile_cons, same id List.mem_cons_self,
        inductionHypothesis fun other isMember => same other (List.mem_cons_of_mem _ isMember)]

namespace Requirement

variable {document before after : Document} {children : List NodeId} {child id : NodeId}
  {holds : NodeId → Bool}

/-- The children that a new one is placed after. -/
def lead (requirement : Requirement) (document : Document) (children : List NodeId) : List NodeId :=
  match requirement.place with
  | .after leading => children.takeWhile fun child => leading.any (document.isNamed child ·)
  | .before following =>
      match following.findSome? fun name => children.find? (document.isNamed · name) with
      | some next => children.takeWhile (· != next)
      | none => children

/-- The children together with a new one. -/
def insert (requirement : Requirement) (document : Document) (children : List NodeId)
    (child : NodeId) : List NodeId :=
  requirement.lead document children ++
    child :: children.drop (requirement.lead document children).length

variable (requirement : Requirement)

theorem lead_append_drop (document : Document) (children : List NodeId) :
    requirement.lead document children ++
      children.drop (requirement.lead document children).length = children := by
  refine List.prefix_iff_eq_append.mp ?_
  rw [lead]
  split
  · exact List.takeWhile_prefix _
  · split
    · exact List.takeWhile_prefix _
    · exact List.prefix_refl _

/-- The place of a new child depends on the names of the other ones. -/
theorem insert_congr (named : ∀ child ∈ children, ∀ name,
    after.isNamed child name = before.isNamed child name) :
    requirement.insert after children child = requirement.insert before children child := by
  have lead_eq : requirement.lead after children = requirement.lead before children := by
    rw [lead, lead]
    split
    · exact takeWhile_congr fun child isChild => by simp only [named child isChild]
    · have sameFind : ∀ name, children.find? (after.isNamed · name) =
          children.find? (before.isNamed · name) := fun name =>
        List.find?_congr fun child isChild => named child isChild name
      simp only [sameFind]
  rw [insert, insert, lead_eq]

theorem mem_insert :
    id ∈ requirement.insert document children child ↔ id = child ∨ id ∈ children := by
  conv_rhs => rw [← requirement.lead_append_drop document children]
  simp only [insert, List.mem_append, List.mem_cons]
  exact or_left_comm

theorem filter_insert (dropped : holds child = false) (kept : ∀ id ∈ children, holds id = true) :
    (requirement.insert document children child).filter holds = children := by
  rw [insert, List.filter_append, List.filter_cons_of_neg (by simp [dropped]), ← List.filter_append,
    requirement.lead_append_drop]
  exact List.filter_eq_self.mpr kept

/-- Looking for something else, one finds what was there. -/
theorem find?_insert_of_not (passes : holds child = false) :
    (requirement.insert document children child).find? holds = children.find? holds := by
  conv_rhs => rw [← requirement.lead_append_drop document children]
  rw [insert, List.find?_append, List.find?_append, List.find?_cons_of_neg (by simp [passes])]

/-- The new child is found where there was none like it. -/
theorem find?_insert_self (found : holds child = true) (none : children.find? holds = none) :
    (requirement.insert document children child).find? holds = some child := by
  rw [← requirement.lead_append_drop document children, List.find?_append, Option.or_eq_none_iff]
    at none
  rw [insert, List.find?_append, none.1, Option.none_or, List.find?_cons_of_pos found]

end Requirement

namespace Document

variable {demands : Demands} {document before middle after other : Document}
  {id parent child : NodeId} {requirement : Requirement} {path path' rest : List Requirement}
  {name : String}

/-- The path that is demanded of a node is there. -/
def Meets (document : Document) : NodeId → List Requirement → Prop
  | _, [] => True
  | id, requirement :: rest =>
      ∃ child, document.childNamed? id requirement.name = some child ∧ document.Meets child rest

/-- A path that is demanded of a node, or what is left of it below. -/
inductive Owes (demands : Demands) (document : Document) : NodeId → List Requirement → Prop where
  | demanded {id : NodeId} {path : List Requirement} (isDemanded : demands id path) :
      Owes demands document id path
  | remaining {parent child : NodeId} {requirement : Requirement} {rest : List Requirement}
      (owes : Owes demands document parent (requirement :: rest))
      (found : document.childNamed? parent requirement.name = some child) :
      Owes demands document child rest

/-- No two demands meet in one place. -/
structure Admits (demands : Demands) (document : Document) : Prop where
  inStore : ∀ {id path}, demands id path → id.index < document.size
  unique : ∀ {id path path'}, demands id path → demands id path' → path = path'
  /-- Nothing is demanded of what is demanded. -/
  apart : ∀ {id path other path' requirement}, demands id path → demands other path' →
    requirement ∈ path' → document.isNamed id requirement.name = false

/-- A child that was missing was added in its place. -/
structure Gains (before after : Document) (requirement : Requirement) (id child : NodeId) : Prop where
  lacked : before.childNamed? id requirement.name = none
  isNew : before.size ≤ child.index
  content_eq : after.content child = .element { name := requirement.name }
  children_eq : after.children id =
    requirement.insert before (before.children id) child

/-- Nothing happened but that nodes got children that are demanded of them. -/
structure Grows (demands : Demands) (before after : Document) : Prop extends
    Rewires (fun _ => True) (fun _ => False) before after where
  root_eq : after.root = before.root
  grown : ∀ id, after.children id = before.children id ∨
    ∃ requirement rest child, after.Owes demands id (requirement :: rest) ∧
      Gains before after requirement id child
  added : ∀ id, before.size ≤ id.index → id.index < after.size →
    ∃ node path, demands node path ∧ ∃ requirement ∈ path,
      after.content id = .element { name := requirement.name }

theorem mem_children_of_childNamed? (found : document.childNamed? id name = some child) :
    child ∈ document.children id ∧ document.isNamed child name = true :=
  ⟨List.mem_of_find?_eq_some found, by simpa using List.find?_some found⟩

namespace Owes

/-- What is owed is the end of a path that is demanded of a node above. -/
theorem exists_above (owes : document.Owes demands id path) (wellFormed : document.WellFormed) :
    ∃ node whole, demands node whole ∧ path <:+ whole ∧ document.LiesIn node id := by
  induction owes with
  | demanded isDemanded => exact ⟨_, _, isDemanded, List.suffix_refl _, .refl⟩
  | remaining _ found inductionHypothesis =>
      rcases inductionHypothesis with ⟨node, whole, isDemanded, suffix, inside⟩
      exact ⟨node, whole, isDemanded, (List.suffix_cons _ _).trans suffix,
        .of_parent (parent_of_childNamed? wellFormed found).1 inside⟩

/-- Nothing is owed to a node of which something is demanded but that. -/
theorem demanded_of_not_below (owes : document.Owes demands id path)
    (wellFormed : document.WellFormed)
    (notBelow : ∀ node whole, demands node whole → ∀ requirement ∈ whole,
      document.isNamed id requirement.name = false) : demands id path := by
  cases owes with
  | demanded isDemanded => exact isDemanded
  | remaining owes found =>
      rcases owes.exists_above wellFormed with ⟨node, whole, isDemanded, suffix, -⟩
      have named := (mem_children_of_childNamed? found).2
      rw [notBelow node whole isDemanded _ (suffix.subset List.mem_cons_self)] at named
      cases named

/-- At most one path is owed to a node. -/
theorem unique (owes : document.Owes demands id path) (admits : document.Admits demands)
    (wellFormed : document.WellFormed) (owes' : document.Owes demands id path') : path = path' := by
  have only : ∀ {id path path'}, demands id path → document.Owes demands id path' →
      path = path' := fun isDemanded owes =>
    admits.unique isDemanded (owes.demanded_of_not_below wellFormed fun _ _ isDemanded' _ =>
      admits.apart isDemanded isDemanded')
  induction owes generalizing path' with
  | demanded isDemanded => exact only isDemanded owes'
  | remaining owes found inductionHypothesis =>
      cases owes' with
      | demanded isDemanded => exact (only isDemanded (.remaining owes found)).symm
      | remaining owes' found' =>
          have isParent := (parent_of_childNamed? wellFormed found).1
          rw [(parent_of_childNamed? wellFormed found').1, Option.some.injEq] at isParent
          subst isParent
          exact (List.cons.inj (inductionHypothesis owes')).2

/-- What is owed stays owed as long as children that are found are found again. -/
theorem mono (owes : before.Owes demands id path) (found_again : ∀ {parent child name},
    before.childNamed? parent name = some child → after.childNamed? parent name = some child) :
    after.Owes demands id path := by
  induction owes with
  | demanded isDemanded => exact .demanded isDemanded
  | remaining _ found inductionHypothesis =>
      exact .remaining inductionHypothesis (found_again found)

/-- What is owed is there if all demands are met. -/
theorem meets (owes : document.Owes demands id path)
    (met : ∀ node whole, demands node whole → document.Meets node whole) :
    document.Meets id path := by
  induction owes with
  | demanded isDemanded => exact met _ _ isDemanded
  | remaining _ found inductionHypothesis =>
      rcases inductionHypothesis with ⟨child, found', meets⟩
      rw [found, Option.some.injEq] at found'
      exact found' ▸ meets

end Owes

/-! ## Growing -/

section Growth

variable {part moved : NodeId → Prop}

theorem isNamed_of_element (carries : document.content id = .element { name }) (other : String) :
    document.isNamed id other = (name == other) := by
  simp [isNamed, name?, element?, carries, Content.element?]

/-- Names of children stay while contents do. -/
theorem Rewires.isNamed_child (rewires : Rewires part moved before after)
    (wellFormed : before.WellFormed) (isChild : child ∈ before.children id) (name : String) :
    after.isNamed child name = before.isNamed child name :=
  rewires.isNamed_eq (lt_size_of_parent ((wellFormed.mem_children_iff _ _).mp isChild)) name

theorem Rewires.childNamed?_eq (rewires : Rewires part moved before after)
    (wellFormed : before.WellFormed) (same : after.children id = before.children id) (name : String) :
    after.childNamed? id name = before.childNamed? id name := by
  rw [childNamed?, childNamed?, same]
  exact List.find?_congr fun child isChild => rewires.isNamed_child wellFormed isChild name

namespace Gains

variable (gains : Gains before after requirement id child)
  (rewires : Rewires part moved before after) (wellFormed : before.WellFormed)
include gains rewires wellFormed

theorem childNamed?_self : after.childNamed? id requirement.name = some child := by
  rw [childNamed?, gains.children_eq]
  refine requirement.find?_insert_self ?_ ?_
  · simp [isNamed_of_element gains.content_eq]
  · rw [← gains.lacked, childNamed?]
    exact List.find?_congr fun other isChild => rewires.isNamed_child wellFormed isChild _

theorem childNamed?_of_some {found : NodeId} (isFound : before.childNamed? id name = some found) :
    after.childNamed? id name = some found := by
  have differ : requirement.name ≠ name := by
    rintro rfl
    rw [gains.lacked] at isFound
    cases isFound
  rw [childNamed?, gains.children_eq, requirement.find?_insert_of_not, ← isFound, childNamed?]
  · exact List.find?_congr fun other isChild => rewires.isNamed_child wellFormed isChild _
  · simpa [isNamed_of_element gains.content_eq] using differ

end Gains

namespace Grows

theorem refl (wellFormed : document.WellFormed) : Grows demands document document where
  toRewires := Rewires.refl wellFormed
  root_eq := rfl
  grown _ := Or.inl rfl
  added _ isNew inStore := absurd inStore (Nat.not_lt_of_le isNew)

/-- A child was there before or was added, and then it is the one that was owed. -/
theorem cases_child (grows : Grows demands before after) (isChild : child ∈ after.children id) :
    child ∈ before.children id ∨ ∃ requirement rest, after.Owes demands id (requirement :: rest) ∧
      Gains before after requirement id child := by
  rcases grows.grown id with same | ⟨requirement, rest, gained, owes, gains⟩
  · exact Or.inl (same ▸ isChild)
  · rw [gains.children_eq, requirement.mem_insert] at isChild
    rcases isChild with rfl | isOld
    · exact Or.inr ⟨requirement, rest, owes, gains⟩
    · exact Or.inl isOld

section

variable (grows : Grows demands before after) (wellFormed : before.WellFormed)
include grows wellFormed

theorem childNamed?_of_some (found : before.childNamed? id name = some child) :
    after.childNamed? id name = some child := by
  rcases grows.grown id with same | ⟨requirement, rest, gained, -, gains⟩
  · rw [grows.childNamed?_eq wellFormed same, found]
  · exact gains.childNamed?_of_some grows.toRewires wellFormed found

theorem meets (meets : before.Meets id path) : after.Meets id path := by
  induction path generalizing id with
  | nil => trivial
  | cons requirement rest inductionHypothesis =>
      rcases meets with ⟨child, found, meets⟩
      exact ⟨child, grows.childNamed?_of_some wellFormed found, inductionHypothesis meets⟩

theorem owes (owes : before.Owes demands id path) : after.Owes demands id path :=
  owes.mono (grows.childNamed?_of_some wellFormed)

/-- The children that were there keep their order. -/
theorem filter_children (id : NodeId) :
    (after.children id).filter (·.index < before.size) = before.children id := by
  have isOld : ∀ child ∈ before.children id, decide (child.index < before.size) = true :=
    fun child isChild => by
      simpa using lt_size_of_parent ((wellFormed.mem_children_iff _ _).mp isChild)
  rcases grows.grown id with same | ⟨requirement, rest, gained, -, gains⟩
  · rw [same]
    exact List.filter_eq_self.mpr isOld
  · rw [gains.children_eq]
    exact requirement.filter_insert (by simpa using gains.isNew) isOld

/-- Nodes that were there are owed what they were owed before. -/
theorem owes_iff (isOld : id.index < before.size) :
    after.Owes demands id path ↔ before.Owes demands id path := by
  refine ⟨fun owes => ?_, grows.owes wellFormed⟩
  induction owes with
  | demanded isDemanded => exact .demanded isDemanded
  | @remaining parent child requirement rest _ found inductionHypothesis =>
      have isParent := (parent_of_childNamed? grows.wellFormed found).1
      rw [grows.parent_eq child isOld not_false] at isParent
      have isChild := (wellFormed.mem_children_iff _ _).mpr isParent
      rcases found' : before.childNamed? parent requirement.name with _ | other
      · have named := (mem_children_of_childNamed? found).2
        rw [grows.isNamed_eq isOld] at named
        rw [childNamed?, List.find?_eq_none] at found'
        exact absurd named (found' child isChild)
      · rw [grows.childNamed?_of_some wellFormed found', Option.some.injEq] at found
        exact found ▸ .remaining (inductionHypothesis (parent_lt_size wellFormed isParent)) found'

end

theorem admits (grows : Grows demands before after) (admits : before.Admits demands) :
    after.Admits demands where
  inStore isDemanded := Nat.lt_of_lt_of_le (admits.inStore isDemanded) grows.size_le
  unique := admits.unique
  apart isDemanded isDemanded' isMember :=
    (grows.isNamed_eq (admits.inStore isDemanded) _).trans
      (admits.apart isDemanded isDemanded' isMember)

/-- Growing goes on without another child where one was added. -/
theorem trans (first : Grows demands before middle) (second : Grows demands middle after)
    (wellFormed : before.WellFormed) (admits : before.Admits demands) :
    Grows demands before after where
  toRewires := first.toRewires.trans second.toRewires (fun _ => id) (fun _ => id)
    (fun _ _ => id) fun _ _ => id
  root_eq := second.root_eq.trans first.root_eq
  grown id := by
    rcases first.grown id with same | ⟨requirement, rest, child, owes, gains⟩
    · rcases second.grown id with same' | ⟨requirement, rest, child, owes, gains⟩
      · exact Or.inl (same'.trans same)
      · refine Or.inr ⟨requirement, rest, child, owes, ?_, ?_, gains.content_eq, ?_⟩
        · rw [← first.childNamed?_eq wellFormed same, gains.lacked]
        · exact Nat.le_trans first.size_le gains.isNew
        · rw [gains.children_eq, same]
          exact requirement.insert_congr fun other isChild =>
            first.isNamed_child wellFormed isChild
    · have owes' := second.owes first.wellFormed owes
      have found := gains.childNamed?_self first.toRewires wellFormed
      rcases second.grown id with same' | ⟨requirement', rest', child', owes'', gains'⟩
      · refine Or.inr ⟨requirement, rest, child, owes', gains.lacked, gains.isNew, ?_,
          same'.trans gains.children_eq⟩
        rw [second.content_eq child
          (lt_size_of_isNamed (mem_children_of_childNamed? found).2), gains.content_eq]
      · have same := (List.cons.inj (owes'.unique (second.admits (first.admits admits))
          second.wellFormed owes'')).1
        rw [← same] at gains'
        rw [gains'.lacked] at found
        cases found
  added id isNew inStore := by
    rcases Nat.lt_or_ge id.index middle.size with isMiddle | isLater
    · rw [second.content_eq id isMiddle]
      exact first.added id isNew isMiddle
    · exact second.added id isLater inStore

section

variable (grows : Grows demands before after) (wellFormed : before.WellFormed)
include grows wellFormed

end

end Grows

end Growth

/-! ## Meeting all demands -/

/-- All demands were met, and nothing else happened. -/
structure Fulfils (demands : Demands) (before after : Document) : Prop extends
    Grows demands before after where
  met : ∀ {node path}, demands node path → after.Meets node path

namespace Fulfils

/-- Where nothing was missing the children are those that were there. -/
theorem children_eq_of_complete (fulfils : Fulfils demands before after) (complete : ∀ requirement rest,
    after.Owes demands id (requirement :: rest) → before.childNamed? id requirement.name ≠ none) :
    after.children id = before.children id := by
  rcases fulfils.grown id with same | ⟨requirement, rest, child, owes, gains⟩
  · exact same
  · exact absurd gains.lacked (complete requirement rest owes)

variable (fulfils : Fulfils demands before after) (wellFormed : before.WellFormed)
  (admits : before.Admits demands)
include fulfils wellFormed

include admits

/-- What was owed to a node and was not there is there now. -/
theorem exists_gains (owes : after.Owes demands id (requirement :: rest))
    (lacked : before.childNamed? id requirement.name = none) :
    ∃ child, Gains before after requirement id child ∧ after.Owes demands child rest := by
  rcases owes.meets fun _ _ => fulfils.met with ⟨child, found, -⟩
  rcases fulfils.grown id with same | ⟨requirement', rest', gained, owes', gains⟩
  · rw [fulfils.childNamed?_eq wellFormed same, lacked] at found
    cases found
  · have admits := fulfils.admits admits
    rcases List.cons.inj (owes.unique admits fulfils.wellFormed owes') with ⟨rfl, rfl⟩
    exact ⟨gained, gains, .remaining owes (gains.childNamed?_self fulfils.toRewires wellFormed)⟩

end Fulfils

/-- The nodes that correspond to each other in two documents in which the same demands were met: the
old ones, and new ones of one name to which the same is owed. -/
def Twins (demands : Demands) (before after other : Document) (id twin : NodeId) : Prop :=
  (id = twin ∧ id.index < before.size) ∨
    before.size ≤ id.index ∧ before.size ≤ twin.index ∧
      other.content twin = after.content id ∧
        ∃ path, after.Owes demands id path ∧ other.Owes demands twin path

theorem Twins.refl_children (wellFormed : before.WellFormed) (id : NodeId) :
    List.Forall₂ (Twins demands before after other) (before.children id) (before.children id) :=
  List.forall₂_same.mpr fun _ isChild =>
    Or.inl ⟨rfl, lt_size_of_parent ((wellFormed.mem_children_iff _ _).mp isChild)⟩

section Twins

variable {twin : NodeId} (fulfils : Fulfils demands before after)
  (fulfils' : Fulfils demands before other)
include fulfils fulfils'

theorem Twins.content_eq (twins : Twins demands before after other id twin) :
    other.content twin = after.content id := by
  rcases twins with ⟨rfl, isOld⟩ | ⟨-, -, same, -⟩
  · rw [fulfils'.content_eq id isOld, fulfils.content_eq id isOld]
  · exact same

variable (wellFormed : before.WellFormed) (admits : before.Admits demands)
include wellFormed admits

/-- Nodes that correspond are owed the same. -/
theorem Twins.owes_iff (twins : Twins demands before after other id twin) :
    other.Owes demands twin path ↔ after.Owes demands id path := by
  rcases twins with ⟨rfl, isOld⟩ | ⟨-, -, -, owed, owes, owes'⟩
  · rw [fulfils.owes_iff wellFormed isOld, fulfils'.owes_iff wellFormed isOld]
  · constructor
    · intro owes''
      exact owes'.unique (fulfils'.admits admits) fulfils'.wellFormed owes'' ▸ owes
    · intro owes''
      exact owes.unique (fulfils.admits admits) fulfils.wellFormed owes'' ▸ owes'

/-- The children of nodes that correspond do so one by one. -/
theorem Twins.children (twins : Twins demands before after other id twin) :
    List.Forall₂ (Twins demands before after other) (after.children id) (other.children twin) := by
  have same : before.children twin = before.children id := by
    rcases twins with ⟨rfl, -⟩ | ⟨isNew, isNew', -⟩
    · rfl
    · rw [children_of_size_le isNew, children_of_size_le isNew']
  by_cases lacks : ∃ requirement rest, after.Owes demands id (requirement :: rest) ∧
      before.childNamed? id requirement.name = none
  · rcases lacks with ⟨requirement, rest, owes, lacked⟩
    have owes' := (twins.owes_iff fulfils fulfils' wellFormed admits).mpr owes
    have lacked' : before.childNamed? twin requirement.name = none := by
      rw [childNamed?, same, ← childNamed?, lacked]
    rcases fulfils.exists_gains wellFormed admits owes lacked with ⟨child, gains, owed⟩
    rcases fulfils'.exists_gains wellFormed admits owes' lacked' with ⟨child', gains', owed'⟩
    have old : List.Forall₂ (Twins demands before after other) _ _ :=
      Twins.refl_children wellFormed id
    rw [← requirement.lead_append_drop before (before.children id)] at old
    rw [gains.children_eq, gains'.children_eq, same, Requirement.insert]
    rw [List.forall₂_same] at old
    refine List.rel_append (List.forall₂_same.mpr fun other isMember =>
      old other (List.mem_append_left _ isMember)) (.cons (Or.inr ⟨gains.isNew, gains'.isNew, ?_,
        rest, owed, owed'⟩) (List.forall₂_same.mpr fun other isMember =>
      old other (List.mem_append_right _ isMember)))
    rw [gains.content_eq, gains'.content_eq]
  · have complete : ∀ requirement rest, after.Owes demands id (requirement :: rest) →
        before.childNamed? id requirement.name ≠ none :=
      fun requirement rest owes lacked => lacks ⟨requirement, rest, owes, lacked⟩
    rw [fulfils.children_eq_of_complete complete,
      fulfils'.children_eq_of_complete, same]
    · exact Twins.refl_children wellFormed id
    · intro requirement rest owes lacked
      refine complete requirement rest
        ((twins.owes_iff fulfils fulfils' wellFormed admits).mp owes) ?_
      rw [childNamed?, ← same, ← childNamed?, lacked]

/-- The trees do not depend on the way in which the demands were met. -/
theorem Fulfils.tree_eq (isOld : id.index < before.size) : other.tree id = after.tree id := by
  rcases Nat.le_total after.size other.size with fewer | fewer
  · exact tree_eq_of_related fulfils.wellFormed fewer
      (fun _ _ (twins : Twins demands before after other _ _) => twins.content_eq fulfils fulfils')
      (fun _ _ twins => twins.children fulfils fulfils' wellFormed admits) (Or.inl ⟨rfl, isOld⟩)
  · exact (tree_eq_of_related fulfils'.wellFormed fewer
      (fun _ _ (twins : Twins demands before other after _ _) => twins.content_eq fulfils' fulfils)
      (fun _ _ twins => twins.children fulfils' fulfils wellFormed admits)
      (Or.inl ⟨rfl, isOld⟩)).symm

end Twins

end Document

end WordTemplate
