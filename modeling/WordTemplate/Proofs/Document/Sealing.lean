import WordTemplate.Container.Repetition
import WordTemplate.Proofs.Document.Adding
import WordTemplate.Proofs.Document.Contents
import WordTemplate.Proofs.Document.Siblings

/-!
# Wrappers and what is parked below them

A wrapper stands below nothing. What edits do while wrappers are around is described by a relation
between the document before and after, which holds after every step, whether the next step fails or
not: no wrapper that was empty got a child, below the other ones there is nothing but what was there
and new nodes, and an old node that was detached or stood right below a wrapper is still there or is
detached now. Nodes count as old up to an address, and an edit may place the newer ones where it likes.
-/

namespace WordTemplate

namespace Document

variable {base base' : Nat} {document before middle after : Document}
  {id other node parent child : NodeId} {left right : List NodeId} {name : String} {content : Content}

/-- Whether a node is a wrapper. -/
def isWrapper (document : Document) (id : NodeId) : Bool := document.isNamed id Edit.wrapperName

/-- A node of the store that is no wrapper. -/
structure Ordinary (document : Document) (id : NodeId) : Prop where
  inStore : id.index < document.size
  notWrapper : document.isWrapper id = false

/-- An ordinary node that is newer than the old ones. -/
structure Recent (base : Nat) (document : Document) (id : NodeId) : Prop extends
    document.Ordinary id where
  isNew : base ≤ id.index

/-- An ordinary node was added, and the nodes that were there before keep their parents. -/
structure Introduced (base : Nat) (before after : Document) (id : NodeId) : Prop extends
    after.Recent base id where
  isAdded : before.size ≤ id.index
  parent_eq : ∀ other, other.index < before.size → after.parent other = before.parent other

/-- A text node of the store. -/
structure HoldsText (document : Document) (id : NodeId) : Prop where
  inStore : id.index < document.size
  isText : document.isText id = true

/-- No wrapper stands below a node, and the root is an old node that is no wrapper and does not stand
below one. -/
structure Sealed (base : Nat) (document : Document) : Prop where
  wellFormed : document.WellFormed
  base_le : base ≤ document.size
  root_lt : document.root.index < base
  root_free : ∀ parent, document.parent document.root = some parent →
    document.isWrapper parent = false
  root_ordinary : document.isWrapper document.root = false
  child_ordinary : ∀ child parent, document.parent child = some parent →
    document.isWrapper child = false

/-- A node that is detached or stands right below a wrapper. -/
def Parked (document : Document) (id : NodeId) : Prop :=
  ∀ parent, document.parent id = some parent → document.isWrapper parent = true

/-- A node that may be taken from its place: a new one, or one below an ordinary node. -/
def Loose (base : Nat) (document : Document) (id : NodeId) : Prop :=
  base ≤ id.index ∨ ∃ parent, document.parent id = some parent ∧ document.isWrapper parent = false

/-- What edits leave as it is while wrappers are around. -/
structure Seals (base : Nat) (before after : Document) : Prop extends after.Sealed base where
  size_le : before.size ≤ after.size
  root_eq : after.root = before.root
  isWrapper_eq : ∀ id, id.index < before.size → after.isWrapper id = before.isWrapper id
  isText_eq : ∀ id, id.index < before.size → after.isText id = before.isText id
  held : ∀ child wrapper, after.parent child = some wrapper → after.isWrapper wrapper = true →
    before.parent child = some wrapper ∨
      base ≤ child.index ∧ ∃ other, before.parent other = some wrapper
  parked : ∀ id, id.index < base → before.Parked id →
    after.parent id = before.parent id ∨ after.parent id = none

/-! ## Ordinary nodes -/

theorem isWrapper_eq_false_of_isNamed (named : document.isNamed id name = true)
    (differ : name ≠ Edit.wrapperName) : document.isWrapper id = false :=
  isNamed_eq_false named differ

theorem ordinary_of_isNamed (named : document.isNamed id name = true)
    (differ : name ≠ Edit.wrapperName) : document.Ordinary id :=
  ⟨lt_size_of_isNamed named, isWrapper_eq_false_of_isNamed named differ⟩

/-- Elements with other names are no wrappers. -/
theorem EachSince.isWrapper_eq_false {since : Nat}
    (plain : document.EachSince since (·.name ≠ Edit.wrapperName)) (isNew : since ≤ id.index) :
    document.isWrapper id = false := by
  rw [isWrapper, isNamed, name?]
  cases isElement : document.element? id with
  | none => rfl
  | some element => simpa using plain id isNew element isElement

theorem Sealed.ordinary_of_parent (isSealed : document.Sealed base)
    (isParent : document.parent child = some parent) : document.Ordinary child :=
  ⟨lt_size_of_parent isParent, isSealed.child_ordinary child parent isParent⟩

theorem Sealed.mono (isSealed : document.Sealed base') (base_le : base ≤ base')
    (root_lt : document.root.index < base) : document.Sealed base :=
  { isSealed with base_le := Nat.le_trans base_le isSealed.base_le, root_lt }

theorem Loose.of_ordinary_parent (isParent : document.parent id = some parent)
    (ordinary : document.Ordinary parent) : document.Loose base id :=
  Or.inr ⟨parent, isParent, ordinary.notWrapper⟩

theorem Recent.loose (recent : document.Recent base id) : document.Loose base id :=
  Or.inl recent.isNew

/-- A node that was there before is another one than the node that was added. -/
theorem Introduced.ne (introduced : Introduced base before after id)
    (isOld : other.index < before.size) : other ≠ id := by
  rintro rfl
  exact absurd isOld (Nat.not_lt_of_le introduced.isAdded)

/-! ## The relation -/

namespace Seals

theorem refl (isSealed : document.Sealed base) : Seals base document document where
  toSealed := isSealed
  size_le := Nat.le_refl _
  root_eq := rfl
  isWrapper_eq _ _ := rfl
  isText_eq _ _ := rfl
  held _ _ isParent _ := Or.inl isParent
  parked _ _ _ := Or.inl rfl

theorem trans (first : Seals base before middle) (second : Seals base middle after)
    (isSealed : before.Sealed base) : Seals base before after where
  toSealed := second.toSealed
  size_le := Nat.le_trans first.size_le second.size_le
  root_eq := second.root_eq.trans first.root_eq
  isWrapper_eq id isOld :=
    (second.isWrapper_eq id (Nat.lt_of_lt_of_le isOld first.size_le)).trans
      (first.isWrapper_eq id isOld)
  isText_eq id isOld :=
    (second.isText_eq id (Nat.lt_of_lt_of_le isOld first.size_le)).trans (first.isText_eq id isOld)
  held child wrapper isParent wraps := by
    have wrapsBetween : ∀ other, middle.parent other = some wrapper →
        middle.isWrapper wrapper = true := fun other isBelow =>
      (second.isWrapper_eq wrapper (parent_lt_size first.wellFormed isBelow)).symm.trans wraps
    rcases second.held child wrapper isParent wraps with isParent | ⟨isNew, other, isOther⟩
    · exact first.held child wrapper isParent (wrapsBetween child isParent)
    · refine Or.inr ⟨isNew, ?_⟩
      rcases first.held other wrapper isOther (wrapsBetween other isOther) with isOther | ⟨-, filled⟩
      · exact ⟨other, isOther⟩
      · exact filled
  parked id isOld isParked := by
    have stillParked : middle.Parked id := by
      intro parent isParent
      rcases first.parked id isOld isParked with same | gone
      · rw [same] at isParent
        rw [first.isWrapper_eq parent (parent_lt_size isSealed.wellFormed isParent)]
        exact isParked parent isParent
      · rw [gone] at isParent
        cases isParent
    rcases second.parked id isOld stillParked with same | gone
    · rw [same]
      exact first.parked id isOld isParked
    · exact Or.inr gone

/-- What is said of more old nodes is said of fewer. -/
theorem mono (seals : Seals base' before after) (base_le : base ≤ base')
    (root_lt : before.root.index < base) : Seals base before after :=
  { seals with
    toSealed := seals.toSealed.mono base_le (seals.root_eq ▸ root_lt)
    held := fun child wrapper isParent wraps =>
      (seals.held child wrapper isParent wraps).imp_right
        (And.imp_left (Nat.le_trans base_le))
    parked := fun id isOld => seals.parked id (Nat.lt_of_lt_of_le isOld base_le) }

section

variable (seals : Seals base before after)
include seals

/-- A node that stays below its parent may still be taken from there. -/
theorem loose (wellFormed : before.WellFormed) (loose : before.Loose base id)
    (same : after.parent id = before.parent id) : after.Loose base id := by
  rcases loose with isNew | ⟨parent, isParent, notWrapper⟩
  · exact Or.inl isNew
  · refine Or.inr ⟨parent, same.trans isParent, ?_⟩
    rw [seals.isWrapper_eq parent (parent_lt_size wellFormed isParent), notWrapper]

theorem ordinary (ordinary : before.Ordinary id) : after.Ordinary id :=
  ⟨Nat.lt_of_lt_of_le ordinary.inStore seals.size_le,
    (seals.isWrapper_eq id ordinary.inStore).trans ordinary.notWrapper⟩

theorem recent (recent : before.Recent base id) : after.Recent base id :=
  ⟨seals.ordinary recent.toOrdinary, recent.isNew⟩

theorem holdsText (holdsText : before.HoldsText id) : after.HoldsText id :=
  ⟨Nat.lt_of_lt_of_le holdsText.inStore seals.size_le,
    (seals.isText_eq id holdsText.inStore).trans holdsText.isText⟩

end

end Seals

/-- Changes after which no node stands below another one than before. -/
theorem ChangesWithin.seals {zone : NodeId → Prop} {rights : Rights}
    (changes : ChangesWithin zone rights before after) (isSealed : before.Sealed base)
    (parent_eq : ∀ id, after.parent id = before.parent id ∨ after.parent id = none) :
    Seals base before after := by
  have isWrapper_eq : ∀ id, id.index < before.size → after.isWrapper id = before.isWrapper id :=
    fun id isOld => changes.isNamed_eq isOld _
  have kept : ∀ {child parent}, after.parent child = some parent →
      before.parent child = some parent := by
    intro child parent isParent
    rcases parent_eq child with same | gone
    · rwa [← same]
    · rw [gone] at isParent
      cases isParent
  exact {
    wellFormed := changes.wellFormed
    base_le := Nat.le_trans isSealed.base_le changes.size_le
    root_lt := changes.root_eq ▸ isSealed.root_lt
    root_free := fun parent isParent => by
      rw [changes.root_eq] at isParent
      have isParent := kept isParent
      rw [isWrapper_eq parent (parent_lt_size isSealed.wellFormed isParent)]
      exact isSealed.root_free parent isParent
    root_ordinary := by
      rw [changes.root_eq, isWrapper_eq _ isSealed.wellFormed.root_lt, isSealed.root_ordinary]
    child_ordinary := fun child parent isParent => by
      rw [isWrapper_eq child (lt_size_of_parent (kept isParent))]
      exact isSealed.child_ordinary child parent (kept isParent)
    size_le := changes.size_le
    root_eq := changes.root_eq
    isWrapper_eq := isWrapper_eq
    isText_eq := fun _ isOld => changes.isText_eq isOld
    held := fun _ _ isParent _ => Or.inl (kept isParent)
    parked := fun id _ _ => parent_eq id }

/-- A loose node may move below an ordinary node, and a new one also to where another node is. -/
theorem Moves.seals (moves : Moves before after node parent left right)
    (isSealed : before.Sealed base) (ordinary : before.Ordinary node) (loose : before.Loose base node)
    (hosts : before.isWrapper parent = false ∨
      base ≤ node.index ∧ ∃ other, before.parent other = some parent) :
    Seals base before after := by
  have isWrapper_eq : ∀ id, after.isWrapper id = before.isWrapper id := fun id =>
    isNamed_of_content_eq (moves.content_eq id) _
  exact {
    wellFormed := moves.wellFormed
    base_le := moves.size_eq ▸ isSealed.base_le
    root_lt := moves.root_eq ▸ isSealed.root_lt
    root_free := fun host isHost => by
      rw [moves.root_eq, moves.parent_eq] at isHost
      rw [isWrapper_eq]
      split at isHost
      · next isNode =>
          rw [Option.some.injEq] at isHost
          subst isNode isHost
          exact hosts.resolve_right fun isNew =>
            absurd isSealed.root_lt (Nat.not_lt_of_le isNew.1)
      · exact isSealed.root_free host isHost
    root_ordinary := by rw [moves.root_eq, isWrapper_eq, isSealed.root_ordinary]
    child_ordinary := fun child parent isParent => by
      rw [isWrapper_eq]
      rw [moves.parent_eq] at isParent
      split at isParent
      · next isNode => exact isNode ▸ ordinary.notWrapper
      · exact isSealed.child_ordinary child parent isParent
    size_le := Nat.le_of_eq moves.size_eq.symm
    root_eq := moves.root_eq
    isWrapper_eq := fun id _ => isWrapper_eq id
    isText_eq := fun id _ => by simp only [Document.isText, text?, moves.content_eq]
    held := fun child wrapper isParent wraps => by
      rw [isWrapper_eq] at wraps
      rw [moves.parent_eq] at isParent
      split at isParent
      · next isNode =>
          rw [Option.some.injEq] at isParent
          subst isNode isParent
          rcases hosts with notWrapper | hosts
          · rw [notWrapper] at wraps
            cases wraps
          · exact Or.inr hosts
      · exact Or.inl isParent
    parked := fun id isOld isParked => by
      rw [moves.parent_eq]
      split
      · next isNode =>
          subst isNode
          rcases loose with isNew | ⟨parent, isParent, notWrapper⟩
          · exact absurd isOld (Nat.not_lt_of_le isNew)
          · rw [isParked parent isParent] at notWrapper
            cases notWrapper
      · exact Or.inl rfl }

/-- New nodes may be added as long as none of them is a wrapper. -/
theorem Adds.seals (adds : Adds before after) (isSealed : before.Sealed base)
    (plain : after.EachSince before.size (·.name ≠ Edit.wrapperName)) : Seals base before after := by
  have isWrapper_eq : ∀ id, id.index < before.size → after.isWrapper id = before.isWrapper id :=
    fun id isOld => isNamed_of_content_eq (adds.content_eq isOld) _
  have root_old := isSealed.wellFormed.root_lt
  exact {
    wellFormed := adds.wellFormed
    base_le := Nat.le_trans isSealed.base_le adds.size_le
    root_lt := adds.root_eq ▸ isSealed.root_lt
    root_free := fun parent isParent => by
      rw [adds.root_eq, adds.parent_eq root_old] at isParent
      rw [isWrapper_eq parent (parent_lt_size isSealed.wellFormed isParent)]
      exact isSealed.root_free parent isParent
    root_ordinary := by rw [adds.root_eq, isWrapper_eq _ root_old, isSealed.root_ordinary]
    child_ordinary := fun child parent isParent => by
      rcases Nat.lt_or_ge child.index before.size with isOld | isNew
      · rw [adds.parent_eq isOld] at isParent
        rw [isWrapper_eq child isOld]
        exact isSealed.child_ordinary child parent isParent
      · exact plain.isWrapper_eq_false isNew
    size_le := adds.size_le
    root_eq := adds.root_eq
    isWrapper_eq := isWrapper_eq
    isText_eq := fun id isOld => by simp only [Document.isText, text?, adds.content_eq isOld]
    held := fun child wrapper isParent wraps => by
      have wrapperOld : wrapper.index < before.size := by
        by_contra isNew
        rw [plain.isWrapper_eq_false (Nat.le_of_not_lt isNew)] at wraps
        cases wraps
      rw [← adds.wellFormed.mem_children_iff, adds.children_eq wrapperOld,
        isSealed.wellFormed.mem_children_iff] at isParent
      exact Or.inl isParent
    parked := fun id isOld _ =>
      Or.inl (adds.parent_eq (Nat.lt_of_lt_of_le isOld isSealed.base_le)) }

/-- A node that was added without being a wrapper. -/
theorem Sealed.recent_of_added (isSealed : before.Sealed base)
    (plain : after.EachSince before.size (·.name ≠ Edit.wrapperName))
    (isNew : before.size ≤ id.index) (inStore : id.index < after.size) : after.Recent base id :=
  ⟨⟨inStore, plain.isWrapper_eq_false isNew⟩, Nat.le_trans isSealed.base_le isNew⟩

/-! ## Detaching and writing -/

theorem seals_detach (isSealed : document.Sealed base) (id : NodeId) :
    Seals base document (document.detach id) := by
  have movable : document.Movable (fun _ => True) ⟨fun _ => True, fun _ => True⟩ id :=
    ⟨fun _ _ => trivial, fun _ _ => trivial⟩
  refine (changesWithin_detach isSealed.wellFormed (closed_everywhere document) movable).seals
    isSealed fun other => ?_
  rw [parent_detach isSealed.wellFormed]
  split
  · exact Or.inr rfl
  · exact Or.inl rfl

/-- Several nodes may be detached. -/
theorem Drops.seals {ids : List NodeId} (drops : Drops before after ids)
    (isSealed : before.Sealed base) : Seals base before after := by
  refine (drops.changesWithin isSealed.wellFormed (closed_everywhere before)
    fun _ _ => ⟨fun _ _ => trivial, fun _ _ => trivial⟩).seals isSealed fun id => ?_
  rw [drops.parent_eq]
  split
  · exact Or.inr rfl
  · exact Or.inl rfl

theorem seals_setText (isSealed : document.Sealed base) (isText : document.isText id = true)
    (characters : String) : Seals base document (document.setContent id (.text characters)) :=
  (changesWithin_setText isSealed.wellFormed (closed_everywhere document) trivial trivial isText
    characters).seals isSealed fun other => Or.inl (parent_setContent _ _ _ other)

theorem seals_setAttribute (isSealed : document.Sealed base) (id : NodeId) (key value : String) :
    Seals base document (document.setAttribute id key value) :=
  (changesWithin_setAttribute isSealed.wellFormed (closed_everywhere document) trivial key
    value).seals isSealed fun other => Or.inl (parent_setAttribute _ _ _ _ other)

end Document

end WordTemplate
