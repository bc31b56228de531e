import WordTemplate.Proofs.Document.Copying
import WordTemplate.Proofs.Document.Local
import WordTemplate.Proofs.Document.Sparing
import WordTemplate.Proofs.Document.TextChanges

/-!
# The two sides of a node

A node that is kept divides the rest of the tree into what stands before it and what stands after it.
Each side is the zone of a shelter. So an edit on one side leaves the node, everything below it and
the other side as they are, and new nodes count to the side that the edit is on.
-/

namespace WordTemplate.Document

/-- A side of a node in document order. -/
inductive Side where
  | before
  | after
deriving DecidableEq

variable {document before middle after : Document} {core id child parent : NodeId}
  {above : NodeId → Prop} {part part' part'' : Side → NodeId → Prop} {side other : Side}

/-- The nodes above the core fall into what stands before the core and what stands after it. -/
structure Divided (document : Document) (core : NodeId) (above : NodeId → Prop)
    (part : Side → NodeId → Prop) : Prop where
  wellFormed : document.WellFormed
  coreInStore : core.index < document.size
  climb : ∀ {child parent}, child = core ∨ above child → document.parent child = some parent →
    above parent
  /-- Nothing below the core is above it or on one of its sides. -/
  inner : ∀ {id}, document.LiesIn core id → ¬above id ∧ ∀ side, ¬part side id
  outside : ∀ {side id}, above id → ¬part side id
  apart : ∀ {side other id}, part side id → part other id → side = other
  inStore : ∀ {side id}, part side id → id.index < document.size
  child : ∀ {side child parent}, document.parent child = some parent → part side parent →
    part side child
  parent : ∀ {side child parent}, document.parent child = some parent → part side child →
    part side parent ∨ above parent
  /-- What stands beside the core or beside a node above it. -/
  around : ∀ {id}, above id → ∃ earlier child later,
    document.children id = earlier ++ child :: later ∧ (child = core ∨ above child) ∧
      (∀ sibling ∈ earlier, part .before sibling) ∧ ∀ sibling ∈ later, part .after sibling
  names : ∀ {id name}, above id → name ∈ Word.Name.enclosing → document.isNamed id name = false
  notRun : ∀ {id}, id = core ∨ above id → document.isNamed id Word.Name.run = false
  notText : ∀ {id}, above id → document.isText id = false

/-! ## One side as a zone -/

/-- The shelter whose zone is one side of the core, together with the nodes still to come. -/
def beside (document : Document) (core : NodeId) (above : NodeId → Prop)
    (part : Side → NodeId → Prop) (side : Side) : Shelter where
  core
  above
  zone id := part side id ∨ document.size ≤ id.index
  ahead id :=
    match side with
    | .before => []
    | .after => document.children id
  behind id :=
    match side with
    | .before => document.children id
    | .after => []

namespace Divided

variable (divided : document.Divided core above part)
include divided

theorem stem_inStore (isStem : id = core ∨ above id) : id.index < document.size := by
  rcases isStem with rfl | isAbove
  · exact divided.coreInStore
  · rcases divided.around isAbove with ⟨earlier, child, later, children, -⟩
    refine parent_lt_size divided.wellFormed ((divided.wellFormed.mem_children_iff id child).mp ?_)
    simp [children]

theorem stem_outside (isStem : id = core ∨ above id) : ¬part side id := by
  rcases isStem with rfl | isAbove
  · exact (divided.inner LiesIn.refl).2 side
  · exact divided.outside isAbove

theorem not_zone_of_stem (isStem : id = core ∨ above id) :
    ¬(document.beside core above part side).zone id := by
  rintro (isPart | beyond)
  · exact divided.stem_outside isStem isPart
  · exact absurd (divided.stem_inStore isStem) (Nat.not_lt_of_le beyond)

theorem not_zone_of_below (inside : document.LiesIn core id) :
    ¬(document.beside core above part side).zone id := by
  rintro (isPart | beyond)
  · exact (divided.inner inside).2 side isPart
  · exact absurd (lt_size_below inside divided.coreInStore) (Nat.not_lt_of_le beyond)

theorem not_zone_of_part (differ : side ≠ other) (isPart : part other id) :
    ¬(document.beside core above part side).zone id := by
  rintro (isPart' | beyond)
  · exact differ (divided.apart isPart' isPart)
  · exact absurd (divided.inStore isPart) (Nat.not_lt_of_le beyond)

theorem frames (isAbove : above id) (side : Side) :
    (document.beside core above part side).Frames id (document.children id) := by
  rcases divided.around isAbove with ⟨earlier, child, later, children, isStem, isEarlier, isLater⟩
  have childOutside : ∀ side, ¬(document.beside core above part side).zone child :=
    fun _ => divided.not_zone_of_stem isStem
  cases side with
  | before =>
      refine ⟨[], earlier, child :: later, by simp [children], fun id isMember =>
        Or.inl (isEarlier id isMember), fun id isMember => ?_, List.Sublist.refl _, ?_⟩
      · rcases List.mem_cons.mp isMember with rfl | isMember
        · exact childOutside .before
        · exact divided.not_zone_of_part (by decide) (isLater id isMember)
      · show (child :: later).Sublist (document.children id)
        rw [children]
        exact List.sublist_append_right _ _
  | after =>
      refine ⟨earlier ++ [child], later, [], by simp [children], fun id isMember =>
        Or.inl (isLater id isMember), fun id isMember => ?_, ?_, List.Sublist.refl _⟩
      · rw [List.append_nil, List.mem_append, List.mem_singleton] at isMember
        rcases isMember with isMember | rfl
        · exact divided.not_zone_of_part (by decide) (isEarlier id isMember)
        · exact childOutside .after
      · have whole : document.children id = (earlier ++ [child]) ++ later := by simp [children]
        show (earlier ++ [child]).Sublist (document.children id)
        rw [whole]
        exact List.sublist_append_left _ _

/-- The core and what is above it are sheltered from edits on a side. -/
theorem holds (side : Side) : (document.beside core above part side).Holds document where
  wellFormed := divided.wellFormed
  fresh beyond := Or.inr beyond
  child isParent inZone := by
    rcases inZone with isPart | beyond
    · exact Or.inl (divided.child isParent isPart)
    · exact absurd (parent_lt_size divided.wellFormed isParent) (Nat.not_lt_of_le beyond)
  parent isParent inZone := by
    rcases inZone with isPart | beyond
    · exact (divided.parent isParent isPart).imp_left Or.inl
    · exact absurd (lt_size_of_parent isParent) (Nat.not_lt_of_le beyond)
  climb isStem isParent := divided.climb isStem isParent
  outside isStem := divided.not_zone_of_stem isStem
  descend isAbove := by
    rcases divided.around isAbove with ⟨earlier, child, later, children, isStem, -⟩
    refine ⟨child, isStem, (divided.wellFormed.mem_children_iff _ _).mp ?_⟩
    simp [children]
  frames isAbove := divided.frames isAbove side
  names := divided.names
  notRun := divided.notRun

theorem isOpen (isPart : part side id) : (document.beside core above part side).Open document id :=
  ⟨Or.inl isPart, divided.inStore isPart⟩

end Divided

/-! ## Edits on one side -/

/-- The sides after nodes were added on one side. -/
def grown (part : Side → NodeId → Prop) (side : Side) (size newSize : Nat) (other : Side)
    (id : NodeId) : Prop :=
  part other id ∨ other = side ∧ size ≤ id.index ∧ id.index < newSize

/-- Edits on the sides of the core left the core and everything below it alone. -/
structure Divides (before after : Document) (core : NodeId) (above : NodeId → Prop)
    (part part' : Side → NodeId → Prop) : Prop where
  divided : after.Divided core above part'
  grows : ∀ {side id}, part side id → part' side id
  size_le : before.size ≤ after.size
  root_eq : after.root = before.root
  parent_eq : ∀ {id}, id = core ∨ above id → after.parent id = before.parent id
  content_eq : ∀ {id}, before.LiesIn core id → after.content id = before.content id
  children_eq : ∀ {id}, before.LiesIn core id → after.children id = before.children id

namespace Divides

theorem refl (divided : document.Divided core above part) :
    Divides document document core above part part :=
  ⟨divided, id, Nat.le_refl _, rfl, fun _ => rfl, fun _ => rfl, fun _ => rfl⟩

/-- What was below the core is still there. -/
theorem liesIn (divides : Divides before after core above part part')
    (wellFormed : before.WellFormed) (inside : before.LiesIn core id) : after.LiesIn core id := by
  induction inside using Relation.ReflTransGen.head_induction_on with
  | refl => exact LiesIn.refl
  | @head id parent isParent inside inductionHypothesis =>
      have isChild := (wellFormed.mem_children_iff parent id).mpr isParent
      rw [← divides.children_eq inside, divides.divided.wellFormed.mem_children_iff] at isChild
      exact LiesIn.of_parent isChild inductionHypothesis

theorem trans (first : Divides before middle core above part part')
    (second : Divides middle after core above part' part'') (wellFormed : before.WellFormed) :
    Divides before after core above part part'' where
  divided := second.divided
  grows isPart := second.grows (first.grows isPart)
  size_le := Nat.le_trans first.size_le second.size_le
  root_eq := second.root_eq.trans first.root_eq
  parent_eq isStem := (second.parent_eq isStem).trans (first.parent_eq isStem)
  content_eq inside :=
    (second.content_eq (first.liesIn wellFormed inside)).trans (first.content_eq inside)
  children_eq inside :=
    (second.children_eq (first.liesIn wellFormed inside)).trans (first.children_eq inside)

end Divides

namespace Divided

variable (divided : document.Divided core above part)
  (spares : (document.beside core above part side).Spares document after)
include divided spares

/-- The children of a node above the core after edits on a side. -/
theorem exists_around (isAbove : above id) :
    ∃ earlier child later, after.children id = earlier ++ child :: later ∧
      (child = core ∨ above child) ∧
      (∀ sibling ∈ earlier, grown part side document.size after.size .before sibling) ∧
      ∀ sibling ∈ later, grown part side document.size after.size .after sibling := by
  rcases divided.around isAbove with ⟨earlier, child, later, children, isStem, isEarlier, isLater⟩
  have wellFormed := divided.wellFormed
  have nodup := wellFormed.nodup_children id
  rw [children, List.nodup_middle, List.nodup_cons] at nodup
  have isParent : document.parent child = some id := by
    rw [← wellFormed.mem_children_iff, children]
    simp
  have isChild : child ∈ after.children id := by
    rw [spares.holds.wellFormed.mem_children_iff, spares.parent_eq isStem, isParent]
  have childOutside : ¬(document.beside core above part side).zone child :=
    divided.not_zone_of_stem isStem
  have inStore : ∀ sibling ∈ after.children id, sibling.index < after.size := fun sibling isSibling =>
    lt_size_of_parent ((spares.holds.wellFormed.mem_children_iff _ _).mp isSibling)
  rcases spares.holds.frames isAbove with
    ⟨lead, inner, trail, children', inside, outside, isLead, isTrail⟩
  have newPart : ∀ sibling ∈ inner, grown part side document.size after.size side sibling := by
    intro sibling isSibling
    refine (inside sibling isSibling).imp_right fun beyond => ⟨rfl, beyond, inStore sibling ?_⟩
    simp [children', isSibling]
  have isAround : child ∈ lead ++ trail := by
    rw [children'] at isChild
    simp only [List.mem_append] at isChild ⊢
    rcases isChild with (isLead | isInner) | isTrail
    · exact Or.inl isLead
    · exact absurd (inside child isInner) childOutside
    · exact Or.inr isTrail
  cases side with
  | before =>
      obtain rfl := List.sublist_nil.mp isLead
      rw [List.nil_append] at children' isAround outside
      have isTrail : trail.Sublist (earlier ++ child :: later) := children ▸ isTrail
      rcases List.sublist_append_iff.mp isTrail with ⟨first, second, rfl, isFirst, isSecond⟩
      have isNone : first = [] := List.eq_nil_iff_forall_not_mem.mpr fun sibling isMember =>
        outside sibling (List.mem_append_left _ isMember)
          (Or.inl (isEarlier sibling (isFirst.subset isMember)))
      subst isNone
      rw [List.nil_append] at children' isAround
      rcases List.sublist_cons_iff.mp isSecond with isLater' | ⟨rest, rfl, isRest⟩
      · exact absurd (List.mem_append_right earlier (isLater'.subset isAround)) nodup.1
      · refine ⟨inner, child, rest, children', isStem, newPart, fun sibling isMember => ?_⟩
        exact Or.inl (isLater sibling (isRest.subset isMember))
  | after =>
      obtain rfl := List.sublist_nil.mp isTrail
      rw [List.append_nil] at children' isAround outside
      have isLead : lead.Sublist (earlier ++ child :: later) := children ▸ isLead
      rcases List.sublist_append_iff.mp isLead with ⟨first, second, rfl, isFirst, isSecond⟩
      have onlyChild : ∀ sibling ∈ second, sibling ∉ later := fun sibling isMember isMember' =>
        outside sibling (List.mem_append_right _ isMember) (Or.inl (isLater sibling isMember'))
      have isChild' : child ∈ second := (List.mem_append.mp isAround).resolve_left fun isMember =>
        nodup.1 (List.mem_append_left _ (isFirst.subset isMember))
      rcases List.sublist_cons_iff.mp isSecond with isLater' | ⟨rest, rfl, isRest⟩
      · exact absurd (isLater'.subset isChild') (onlyChild child isChild')
      · have isNone : rest = [] := List.eq_nil_iff_forall_not_mem.mpr fun sibling isMember =>
          onlyChild sibling (List.mem_cons_of_mem _ isMember) (isRest.subset isMember)
        subst isNone
        refine ⟨first, child, inner, by simp [children'], isStem, fun sibling isMember => ?_, newPart⟩
        exact Or.inl (isEarlier sibling (isFirst.subset isMember))

/-- Below the core there is what was below it. -/
theorem liesIn_of_spares (inside : after.LiesIn core id) : document.LiesIn core id := by
  induction inside using Relation.ReflTransGen.head_induction_on with
  | refl => exact LiesIn.refl
  | @head id parent isParent _ inside =>
      have isChild := (spares.holds.wellFormed.mem_children_iff parent id).mpr isParent
      rw [spares.children_eq (divided.not_zone_of_below inside) (divided.inner inside).1,
        divided.wellFormed.mem_children_iff] at isChild
      exact LiesIn.of_parent isChild inside

/-- A child of a node that is neither on the side nor above the core was its child before. -/
theorem parent_of_spares (isParent : after.parent child = some parent)
    (outside : ¬(document.beside core above part side).zone parent) (notAbove : ¬above parent) :
    document.parent child = some parent := by
  have isChild := (spares.holds.wellFormed.mem_children_iff _ _).mpr isParent
  rwa [spares.children_eq outside notAbove, divided.wellFormed.mem_children_iff] at isChild

omit divided spares in
/-- The nodes of a side after edits on it are those of its zone that are in the store. -/
theorem grown_self_iff (inStore : id.index < after.size) :
    grown part side document.size after.size side id ↔
      (document.beside core above part side).zone id :=
  or_congr_right ⟨fun isNew => isNew.2.1, fun beyond => ⟨rfl, beyond, inStore⟩⟩

/-- Edits on a side leave the document divided, with the new nodes on that side. -/
theorem of_spares :
    after.Divided core above (grown part side document.size after.size) where
  wellFormed := spares.holds.wellFormed
  coreInStore := spares.inStore divided.coreInStore
  climb := spares.holds.climb
  inner inside := by
    have inside := divided.liesIn_of_spares spares inside
    refine ⟨(divided.inner inside).1, fun other isPart => ?_⟩
    rcases isPart with isPart | ⟨-, beyond, -⟩
    · exact (divided.inner inside).2 other isPart
    · exact absurd (lt_size_below inside divided.coreInStore) (Nat.not_lt_of_le beyond)
  outside := by
    rintro other id isAbove (isPart | ⟨-, beyond, -⟩)
    · exact divided.outside isAbove isPart
    · exact absurd (divided.stem_inStore (Or.inr isAbove)) (Nat.not_lt_of_le beyond)
  apart := by
    rintro first second id (isFirst | ⟨rfl, beyond, -⟩) (isSecond | ⟨rfl, beyond', -⟩)
    · exact divided.apart isFirst isSecond
    · exact absurd (divided.inStore isFirst) (Nat.not_lt_of_le beyond')
    · exact absurd (divided.inStore isSecond) (Nat.not_lt_of_le beyond)
    · rfl
  inStore := by
    rintro other id (isPart | ⟨-, -, inStore⟩)
    · exact spares.inStore (divided.inStore isPart)
    · exact inStore
  child := by
    intro other child parent isParent isPart
    have child_lt := lt_size_of_parent isParent
    have parent_lt := parent_lt_size spares.holds.wellFormed isParent
    by_cases isSide : other = side
    · subst isSide
      exact (grown_self_iff child_lt).mpr
        (spares.holds.child isParent ((grown_self_iff parent_lt).mp isPart))
    · -- The child of a node of the other side was its child before.
      have isPart := isPart.resolve_right fun isNew => isSide isNew.1
      have isParent := divided.parent_of_spares spares isParent
        (divided.not_zone_of_part (Ne.symm isSide) isPart) fun isAbove => divided.outside isAbove isPart
      exact Or.inl (divided.child isParent isPart)
  parent := by
    intro other child parent isParent isPart
    have child_lt := lt_size_of_parent isParent
    have parent_lt := parent_lt_size spares.holds.wellFormed isParent
    by_cases isSide : other = side
    · subst isSide
      exact (spares.holds.parent isParent ((grown_self_iff child_lt).mp isPart)).imp_left
        (grown_self_iff parent_lt).mpr
    · have isPart := isPart.resolve_right fun isNew => isSide isNew.1
      by_cases isAbove : above parent
      · exact Or.inr isAbove
      · have outside : ¬(document.beside core above part side).zone parent := fun inZone =>
          divided.not_zone_of_part (Ne.symm isSide) isPart (spares.holds.child isParent inZone)
        exact (divided.parent (divided.parent_of_spares spares isParent outside isAbove) isPart).imp_left
          Or.inl
  around := divided.exists_around spares
  names := spares.holds.names
  notRun := spares.holds.notRun
  notText isAbove := by
    rw [isText, text?, spares.content_eq (divided.not_zone_of_stem (Or.inr isAbove))]
    exact divided.notText isAbove

/-- Edits on a side leave the core, everything below it and the other side alone. -/
theorem divides_of_spares :
    Divides document after core above part (grown part side document.size after.size) where
  divided := divided.of_spares spares
  grows := Or.inl
  size_le := spares.size_le
  root_eq := spares.root_eq
  parent_eq := spares.parent_eq
  content_eq inside := spares.content_eq (divided.not_zone_of_below inside)
  children_eq inside :=
    spares.children_eq (divided.not_zone_of_below inside) (divided.inner inside).1

omit spares in
/-- An edit that spares what is sheltered from a side. -/
theorem divides_of_keeps {ε α : Type} {edit : EStateM ε Document α} {value : α}
    {result : α → Document → Prop}
    (keeps : (document.beside core above part side).Keeps edit document result)
    (done : edit document = .ok value after) :
    Divides document after core above part (grown part side document.size after.size) ∧
      result value after := by
  rcases keeps (divided.holds side) value after done with ⟨spares, isResult⟩
  exact ⟨divided.divides_of_spares spares, isResult⟩

omit divided spares in
/-- What is open after edits on a side is on that side. -/
theorem part_of_open (isOpen : (document.beside core above part side).Open after id) :
    grown part side document.size after.size side id :=
  isOpen.inZone.imp_right fun beyond => ⟨rfl, beyond, isOpen.inStore⟩

end Divided

/-! ## Dividing a document -/

/-- The siblings on a side of a child. -/
def Side.siblings (side : Side) (earlier later : List NodeId) : List NodeId :=
  match side with
  | .before => earlier
  | .after => later

theorem Side.mem_append {earlier later : List NodeId} (isSibling : id ∈ side.siblings earlier later) :
    id ∈ earlier ++ later := by
  cases side with
  | before => exact List.mem_append_left _ isSibling
  | after => exact List.mem_append_right _ isSibling

/-- A node stands on a side of the core if it lies in a sibling on that side of the core or of a node
around the core. -/
def standsOn (document : Document) (core : NodeId) (side : Side) (id : NodeId) : Prop :=
  ∃ parent earlier child later, document.children parent = earlier ++ child :: later ∧
    document.LiesIn child core ∧ ∃ top ∈ side.siblings earlier later, document.LiesIn top id

section Dividing

variable {top : NodeId} {earlier later : List NodeId} (wellFormed : document.WellFormed)
include wellFormed

/-- A sibling of a node around the core. -/
theorem beside_core (children : document.children parent = earlier ++ child :: later)
    (inside : document.LiesIn child core) (isTop : top ∈ side.siblings earlier later) :
    document.parent top = some parent ∧ document.LiesIn parent core ∧ parent ≠ core ∧
      ¬document.LiesIn top core := by
  have nodup := wellFormed.nodup_children parent
  rw [children, List.nodup_middle, List.nodup_cons] at nodup
  have isSibling := Side.mem_append isTop
  have isChild : ∀ other ∈ earlier ++ child :: later, document.parent other = some parent := by
    intro other isMember
    rwa [← wellFormed.mem_children_iff, children]
  have topParent : document.parent top = some parent := by
    refine isChild top ?_
    simp only [List.mem_append, List.mem_cons] at isSibling ⊢
    exact isSibling.imp_right Or.inr
  have childParent := isChild child (by simp)
  have differ : child ≠ top := by
    rintro rfl
    exact nodup.1 isSibling
  refine ⟨topParent, inside.trans (LiesIn.parent childParent), ?_,
    not_liesIn_of_siblings wellFormed childParent topParent differ inside⟩
  rintro rfl
  exact not_liesIn_of_parent wellFormed childParent inside

theorem not_standsOn_of_above (inside : document.LiesIn id core) :
    ¬document.standsOn core side id := by
  rintro ⟨parent, earlier, child, later, children, around, top, isTop, below⟩
  exact (beside_core wellFormed children around isTop).2.2.2 (inside.trans below)

theorem not_standsOn_of_below (inside : document.LiesIn core id) :
    ¬document.standsOn core side id := by
  rintro ⟨parent, earlier, child, later, children, around, top, isTop, below⟩
  rcases beside_core wellFormed children around isTop with ⟨topParent, above, differ, apart⟩
  rcases inside.total below with within | within
  · rcases within.cases_above topParent with rfl | within
    · exact apart LiesIn.refl
    · exact differ (within.antisymm wellFormed above)
  · exact apart within

/-- No node stands on both sides. -/
theorem standsOn_apart (stands : document.standsOn core .before id) :
    ¬document.standsOn core .after id := by
  rcases stands with ⟨parent, earlier, child, later, children, inside, top, isTop, below⟩
  rintro ⟨parent', earlier', child', later', children', inside', top', isTop', below'⟩
  rcases beside_core wellFormed children inside isTop with ⟨topParent, around, -, apart⟩
  rcases beside_core wellFormed children' inside' isTop' with ⟨topParent', around', -, apart'⟩
  -- Neither sibling lies around the core, so they are the same.
  have same : top = top' := by
    rcases below.total below' with within | within
    · rcases within.cases_above topParent' with same | within
      · exact same.symm
      · exact absurd (around'.trans within) apart
    · rcases within.cases_above topParent with same | within
      · exact same
      · exact absurd (around.trans within) apart'
  subst same
  rw [topParent, Option.some.injEq] at topParent'
  subst topParent'
  have isChild : document.parent child = some parent := by
    rw [← wellFormed.mem_children_iff, children]
    simp
  have isChild' : document.parent child' = some parent := by
    rw [← wellFormed.mem_children_iff, children']
    simp
  have sameChild : child = child' := by
    by_contra differ
    exact not_liesIn_of_siblings wellFormed isChild isChild' differ inside inside'
  subst sameChild
  have nodup := wellFormed.nodup_children parent
  rw [children] at nodup children'
  rcases append_cons_inj nodup children' with ⟨rfl, rfl⟩
  rw [List.nodup_middle, List.nodup_cons] at nodup
  exact List.disjoint_of_nodup_append nodup.2 isTop isTop'

/-- A node in the store divides the document if the nodes around it carry no name that is looked for
around a tag. -/
theorem divided_of_names (inStore : core.index < document.size)
    (names : ∀ id name, document.LiesIn id core → id ≠ core → name ∈ Word.Name.enclosing →
      document.isNamed id name = false)
    (notRun : document.isNamed core Word.Name.run = false)
    (notText : ∀ id, document.LiesIn id core → id ≠ core → document.isText id = false) :
    document.Divided core (fun id => document.LiesIn id core ∧ id ≠ core)
      (document.standsOn core) where
  wellFormed := wellFormed
  coreInStore := inStore
  climb := by
    intro child parent isStem isParent
    have around : document.LiesIn child core := by
      rcases isStem with rfl | isAbove
      · exact LiesIn.refl
      · exact isAbove.1
    refine ⟨around.trans (LiesIn.parent isParent), ?_⟩
    rintro rfl
    exact not_liesIn_of_parent wellFormed isParent around
  inner := by
    intro id inside
    exact ⟨fun isAbove => isAbove.2 (inside.antisymm wellFormed isAbove.1), fun _ =>
      not_standsOn_of_below wellFormed inside⟩
  outside isAbove := not_standsOn_of_above wellFormed isAbove.1
  apart := by
    rintro (_ | _) (_ | _) id first second
    · rfl
    · exact absurd second (standsOn_apart wellFormed first)
    · exact absurd first (standsOn_apart wellFormed second)
    · rfl
  inStore := by
    rintro side id ⟨parent, earlier, child, later, children, inside, top, isTop, below⟩
    exact lt_size_below below
      (lt_size_of_parent (beside_core wellFormed children inside isTop).1)
  child := by
    rintro side child parent isParent
      ⟨outer, earlier, sibling, later, children, inside, top, isTop, below⟩
    exact ⟨outer, earlier, sibling, later, children, inside, top, isTop,
      LiesIn.of_parent isParent below⟩
  parent := by
    rintro side child parent isParent
      ⟨outer, earlier, sibling, later, children, inside, top, isTop, below⟩
    rcases below.cases_above isParent with rfl | below
    · rcases beside_core wellFormed children inside isTop with ⟨isOuter, around, differ, -⟩
      rw [isParent, Option.some.injEq] at isOuter
      exact Or.inr (isOuter ▸ ⟨around, differ⟩)
    · exact Or.inl ⟨outer, earlier, sibling, later, children, inside, top, isTop, below⟩
  around := by
    rintro id ⟨inside, differ⟩
    rcases inside.cases_child with same | ⟨child, isParent, below⟩
    · exact absurd same.symm differ
    · have isChild := (wellFormed.mem_children_iff _ _).mpr isParent
      rcases List.append_of_mem isChild with ⟨earlier, later, children⟩
      refine ⟨earlier, child, later, children, ?_, fun sibling isMember => ?_,
        fun sibling isMember => ?_⟩
      · by_cases same : child = core
        · exact Or.inl same
        · exact Or.inr ⟨below, same⟩
      · exact ⟨id, earlier, child, later, children, below, sibling, isMember, LiesIn.refl⟩
      · exact ⟨id, earlier, child, later, children, below, sibling, isMember, LiesIn.refl⟩
  names isAbove := names _ _ isAbove.1 isAbove.2
  notRun := by
    rintro id (rfl | isAbove)
    · exact notRun
    · exact names _ _ isAbove.1 isAbove.2 (by simp [Word.Name.enclosing])
  notText isAbove := notText _ isAbove.1 isAbove.2

end Dividing

/-! ## The order of the sides -/

namespace Divided

variable {top : NodeId} (divided : document.Divided core above part)
include divided

/-- What stands before the core precedes it, and what stands after it follows it. -/
theorem exists_subtree (inside : document.LiesIn top core) :
    ∃ earlier later, document.subtree top = earlier ++ document.subtree core ++ later ∧
      (∀ id ∈ earlier, part .before id ∨ above id) ∧ ∀ id ∈ later, part .after id := by
  have wellFormed := divided.wellFormed
  have below : ∀ {side} {ids : List NodeId}, (∀ id ∈ ids, part side id) →
      ∀ id ∈ ids.flatMap document.subtree, part side id := by
    intro side ids isPart id isMember
    rcases List.mem_flatMap.mp isMember with ⟨outer, isOuter, isBelow⟩
    have within := (mem_subtree_iff wellFormed).mp isBelow
    induction within using Relation.ReflTransGen.head_induction_on with
    | refl => exact isPart outer isOuter
    | @head id parent isParent within inductionHypothesis =>
        have isBelow' := (mem_subtree_iff wellFormed).mpr within
        exact divided.child isParent (inductionHypothesis
          (List.mem_flatMap.mpr ⟨outer, isOuter, isBelow'⟩) isBelow')
  have step : ∀ {top}, document.LiesIn top core → (top = core ∨ above top) ∧
      ∃ earlier later, document.subtree top = earlier ++ document.subtree core ++ later ∧
        (∀ id ∈ earlier, part .before id ∨ above id) ∧ ∀ id ∈ later, part .after id := by
    intro top inside
    induction inside with
    | refl => exact ⟨Or.inl rfl, [], [], by simp⟩
    | @tail child top inside isParent inductionHypothesis =>
        rcases inductionHypothesis with ⟨isStem, earlier, later, around, isEarlier, isLater⟩
        have isAbove := divided.climb isStem isParent
        rcases divided.around isAbove with ⟨left, middle, right, children, -, isLeft, isRight⟩
        have isChild := (wellFormed.mem_children_iff _ _).mpr isParent
        have same : middle = child := by
          rw [children, List.mem_append, List.mem_cons] at isChild
          rcases isChild with isMember | rfl | isMember
          · exact absurd (isLeft child isMember) (divided.stem_outside isStem)
          · rfl
          · exact absurd (isRight child isMember) (divided.stem_outside isStem)
        subst same
        refine ⟨Or.inr isAbove, top :: (left.flatMap document.subtree ++ earlier),
          later ++ right.flatMap document.subtree, ?_, fun id isMember => ?_, fun id isMember => ?_⟩
        · rw [subtree_eq wellFormed, children, List.flatMap_append, List.flatMap_cons, around]
          simp
        · simp only [List.mem_cons, List.mem_append] at isMember
          rcases isMember with rfl | isMember | isMember
          · exact Or.inr isAbove
          · exact Or.inl (below isLeft id isMember)
          · exact isEarlier id isMember
        · rcases List.mem_append.mp isMember with isMember | isMember
          · exact isLater id isMember
          · exact below isRight id isMember
  exact (step inside).2

/-- The core comes between a node before it and one after it. -/
theorem sublist_subtree {first last : NodeId} (inside : document.LiesIn top core)
    (isBefore : part .before first) (isAfter : part .after last)
    (firstMember : first ∈ document.subtree top) (lastMember : last ∈ document.subtree top) :
    [first, core, last].Sublist (document.subtree top) := by
  rcases divided.exists_subtree inside with ⟨earlier, later, around, isEarlier, isLater⟩
  have notBelow : ∀ {side node}, part side node → node ∉ document.subtree core :=
    fun isPart isBelow =>
      (divided.inner ((mem_subtree_iff divided.wellFormed).mp isBelow)).2 _ isPart
  have isFirst : first ∈ earlier := by
    rw [around, List.mem_append, List.mem_append] at firstMember
    rcases firstMember with (isMember | isBelow) | isMember
    · exact isMember
    · exact absurd isBelow (notBelow isBefore)
    · exact absurd (divided.apart isBefore (isLater first isMember)) (by decide)
  have isLast : last ∈ later := by
    rw [around, List.mem_append, List.mem_append] at lastMember
    rcases lastMember with (isMember | isBelow) | isMember
    · rcases isEarlier last isMember with isPart | isAbove
      · exact absurd (divided.apart isPart isAfter) (by decide)
      · exact absurd isAfter (divided.outside isAbove)
    · exact absurd isBelow (notBelow isAfter)
    · exact isMember
  rw [around]
  exact ((List.singleton_sublist.mpr isFirst).append
    (List.singleton_sublist.mpr (mem_subtree_self _ _))).append (List.singleton_sublist.mpr isLast)

/-- The text nodes fall into those before the core, those below it and those after it. -/
theorem exists_texts (inside : document.LiesIn top core) :
    ∃ earlier later, document.texts top = earlier ++ document.texts core ++ later ∧
      (∀ id ∈ earlier, part .before id) ∧ ∀ id ∈ later, part .after id := by
  rcases divided.exists_subtree inside with ⟨earlier, later, around, isEarlier, isLater⟩
  refine ⟨earlier.filter document.isText, later.filter document.isText, ?_, fun id isMember => ?_,
    fun id isMember => isLater id (List.mem_of_mem_filter isMember)⟩
  · rw [texts, around, List.filter_append, List.filter_append]
    rfl
  · rcases List.mem_filter.mp isMember with ⟨isMember, isText⟩
    refine (isEarlier id isMember).resolve_right fun isAbove => ?_
    rw [divided.notText isAbove] at isText
    cases isText

end Divided

/-- What was around the core still is. -/
theorem Divides.liesIn_core {top : NodeId} (divides : Divides before after core above part part')
    (divided : before.Divided core above part) (inside : before.LiesIn top core) :
    after.LiesIn top core := by
  have step : (top = core ∨ above top) ∧ after.LiesIn top core := by
    induction inside with
    | refl => exact ⟨Or.inl rfl, LiesIn.refl⟩
    | @tail child top _ isParent inductionHypothesis =>
        rcases inductionHypothesis with ⟨isStem, inside⟩
        have isParent' := (divides.parent_eq isStem).trans isParent
        exact ⟨Or.inr (divided.climb isStem isParent), inside.trans (LiesIn.parent isParent')⟩
  exact step.2

/-- Siblings after the core that keep their order stay behind it. -/
theorem Divides.cons_sublist_children {siblings : List NodeId}
    (divides : Divides before after core above part part') (divided : before.Divided core above part)
    (isParent : before.parent core = some parent) (isAfter : ∀ sibling ∈ siblings, part .after sibling)
    (sublist : siblings.Sublist (after.children parent)) :
    (core :: siblings).Sublist (after.children parent) := by
  have divided' := divides.divided
  rcases divided'.around (divided.climb (Or.inl rfl) isParent) with
    ⟨earlier, child, later, children, -, isEarlier, isLater⟩
  have coreOutside : ∀ {side}, ¬part' side core := (divided'.inner LiesIn.refl).2 _
  have isChild : core ∈ after.children parent := by
    rw [divided'.wellFormed.mem_children_iff, divides.parent_eq (Or.inl rfl), isParent]
  have same : core = child := by
    rw [children, List.mem_append, List.mem_cons] at isChild
    rcases isChild with isMember | same | isMember
    · exact absurd (isEarlier core isMember) coreOutside
    · exact same
    · exact absurd (isLater core isMember) coreOutside
  subst same
  have regrouped : after.children parent = (earlier ++ [core]) ++ later := by
    rw [children]
    simp
  rw [regrouped] at sublist
  rcases List.sublist_append_iff.mp sublist with ⟨former, latter, rfl, isFormer, isLatter⟩
  have isNone : former = [] := List.eq_nil_iff_forall_not_mem.mpr fun sibling isMember => by
    have isPart := divides.grows (isAfter sibling (List.mem_append_left _ isMember))
    rcases List.mem_append.mp (isFormer.subset isMember) with isMember | isMember
    · exact absurd (divided'.apart (isEarlier sibling isMember) isPart) (by decide)
    · exact coreOutside (List.mem_singleton.mp isMember ▸ isPart)
  rw [isNone, List.nil_append, children]
  exact (isLatter.cons_cons core).trans (List.sublist_append_right _ _)

/-- The core is written as before. -/
theorem Divides.tree_core (divides : Divides before after core above part part')
    (wellFormed : before.WellFormed) : after.tree core = before.tree core :=
  tree_congr wellFormed divides.size_le fun _ inside =>
    ⟨divides.content_eq inside, divides.children_eq inside⟩

/-- The text below the core is as it was. -/
theorem Divides.texts_core (divides : Divides before after core above part part')
    (wellFormed : before.WellFormed) : after.texts core = before.texts core :=
  texts_congr wellFormed divides.divided.wellFormed fun id inside =>
    ⟨divides.children_eq inside, by rw [isText, isText, text?, text?, divides.content_eq inside]⟩

end WordTemplate.Document
