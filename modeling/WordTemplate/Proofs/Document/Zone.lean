import WordTemplate.Proofs.Document.RunningText
import WordTemplate.Word.Name

/-!
# Changes within a zone

What an edit does stays within a zone: nodes outside keep their children and what they carry. A zone
reaches down to everything below its nodes and takes in all nodes that are still to be added, so a
sequence of edits within a zone is a change within that zone.
-/

namespace WordTemplate.Document

variable {zone : NodeId → Prop} {rights : Rights} {document before middle after : Document}
  {id other top node parent child reference : NodeId} {left right : List NodeId}

/-- What an edit may do besides moving nodes around. -/
structure Rights where
  /-- The text nodes that may get other characters. -/
  writes : NodeId → Prop
  /-- The detached nodes that may get a parent. -/
  places : NodeId → Prop

/-- `rights` allow nothing to the nodes of a document that `rights'` do not allow. -/
structure Rights.Within (document : Document) (rights rights' : Rights) : Prop where
  writes : ∀ id, id.index < document.size → rights.writes id → rights'.writes id
  places : ∀ id, id.index < document.size → rights.places id → rights'.places id

theorem Rights.Within.refl (document : Document) (rights : Rights) :
    rights.Within document rights :=
  ⟨fun _ _ allowed => allowed, fun _ _ allowed => allowed⟩

/-- A zone holds what is below its nodes and every node that is still to be added. Nodes that are
still to be added may be placed anywhere. -/
structure Closed (document : Document) (zone : NodeId → Prop) (rights : Rights) : Prop where
  child : ∀ {child parent}, document.parent child = some parent → zone parent → zone child
  fresh : ∀ {id}, document.size ≤ id.index → zone id
  freshPlaces : ∀ {id}, document.size ≤ id.index → rights.places id

namespace Closed

theorem liesIn (closed : document.Closed zone rights) (inside : document.LiesIn top id)
    (inZone : zone top) : zone id := by
  induction inside using Relation.ReflTransGen.head_induction_on with
  | refl => exact inZone
  | head isParent _ aboveInZone => exact closed.child isParent aboveInZone

theorem lt_size (closed : document.Closed zone rights) (outside : ¬zone id) :
    id.index < document.size := by
  by_contra beyond
  exact outside (closed.fresh (Nat.le_of_not_lt beyond))

end Closed

/-- The zone of all nodes. -/
theorem closed_everywhere (document : Document) :
    document.Closed (fun _ => True) ⟨fun _ => True, fun _ => True⟩ where
  child _ _ := trivial
  fresh _ := trivial
  freshPlaces _ := trivial

/-- The zone of the nodes that are still to be added. -/
theorem closed_fresh (wellFormed : document.WellFormed)
    (freshPlaces : ∀ id, document.size ≤ id.index → rights.places id) :
    document.Closed (fun id => document.size ≤ id.index) rights where
  child isParent beyond := absurd (parent_lt_size wellFormed isParent) (Nat.not_lt_of_le beyond)
  fresh beyond := beyond
  freshPlaces := freshPlaces _

theorem lt_size_of_name? {name : String} (named : document.name? id = some name) :
    id.index < document.size := by
  by_contra beyond
  simp [name?, element?, Document.content, node_of_size_le (Nat.le_of_not_lt beyond),
    Content.element?] at named

theorem lt_size_of_isNamed {name : String} (named : document.isNamed id name = true) :
    id.index < document.size :=
  lt_size_of_name? (by simpa [isNamed] using named)

theorem isNamed_eq_false {name name' : String} (named : document.isNamed id name = true)
    (differ : name ≠ name') : document.isNamed id name' = false := by
  have isName : document.name? id = some name := by simpa [isNamed] using named
  simp [isNamed, isName, differ]

/-- A node may be taken from its place: the parent that lists it is in the zone, or else the node may
be placed. -/
structure Movable (document : Document) (zone : NodeId → Prop) (rights : Rights) (id : NodeId) :
    Prop where
  parent : ∀ parent, document.parent id = some parent → zone parent
  detached : document.parent id = none → document.isProperties id = false → rights.places id

theorem movable_of_parent_none (detached : document.parent id = none) (mayPlace : rights.places id) :
    document.Movable zone rights id where
  parent _ isParent := by simp [detached] at isParent
  detached _ _ := mayPlace

/-- A child of a node in the zone is movable. -/
theorem movable_of_parent (isParent : document.parent id = some parent) (inZone : zone parent) :
    document.Movable zone rights id where
  parent other isOther := by
    rw [isParent, Option.some.injEq] at isOther
    exact isOther ▸ inZone
  detached none _ := by simp [isParent] at none

/-- Properties are movable also where they are detached. -/
theorem movable_of_isProperties (parentInZone : ∀ parent, document.parent id = some parent →
      zone parent) (isProperties : document.isProperties id = true) :
    document.Movable zone rights id where
  parent := parentInZone
  detached _ shows := by simp [isProperties] at shows

/-- `after` differs from `before` by edits in `zone` that keep to `rights`. Nodes keep their names.
Detached properties may be placed without a right. -/
structure ChangesWithin (zone : NodeId → Prop) (rights : Rights) (before after : Document) :
    Prop where
  wellFormed : after.WellFormed
  closed : after.Closed zone rights
  size_le : before.size ≤ after.size
  root_eq : after.root = before.root
  children_eq : ∀ {id}, ¬zone id → after.children id = before.children id
  content_eq : ∀ {id}, ¬zone id → after.content id = before.content id
  name_eq : ∀ {id}, id.index < before.size → after.name? id = before.name? id
  isText_eq : ∀ {id}, id.index < before.size → after.isText id = before.isText id
  text_eq : ∀ {id}, id.index < before.size → ¬rights.writes id → after.text? id = before.text? id
  detached : ∀ {id}, ¬rights.places id → id.index < before.size → before.isProperties id = false →
    before.parent id = none → after.parent id = none

namespace ChangesWithin

theorem refl (wellFormed : document.WellFormed) (closed : document.Closed zone rights) :
    ChangesWithin zone rights document document where
  wellFormed := wellFormed
  closed := closed
  size_le := Nat.le_refl _
  root_eq := rfl
  children_eq _ := rfl
  content_eq _ := rfl
  name_eq _ := rfl
  isText_eq _ := rfl
  text_eq _ _ := rfl
  detached _ _ _ isDetached := isDetached

theorem trans (first : ChangesWithin zone rights before middle)
    (second : ChangesWithin zone rights middle after) :
    ChangesWithin zone rights before after where
  wellFormed := second.wellFormed
  closed := second.closed
  size_le := Nat.le_trans first.size_le second.size_le
  root_eq := second.root_eq.trans first.root_eq
  children_eq outside := (second.children_eq outside).trans (first.children_eq outside)
  content_eq outside := (second.content_eq outside).trans (first.content_eq outside)
  name_eq inStore :=
    (second.name_eq (Nat.lt_of_lt_of_le inStore first.size_le)).trans (first.name_eq inStore)
  isText_eq inStore :=
    (second.isText_eq (Nat.lt_of_lt_of_le inStore first.size_le)).trans (first.isText_eq inStore)
  text_eq inStore unwritten :=
    (second.text_eq (Nat.lt_of_lt_of_le inStore first.size_le) unwritten).trans
      (first.text_eq inStore unwritten)
  detached unallowed inStore notProperties isDetached :=
    second.detached unallowed (Nat.lt_of_lt_of_le inStore first.size_le)
      (by simpa only [isProperties, first.name_eq inStore] using notProperties)
      (first.detached unallowed inStore notProperties isDetached)

variable (changes : ChangesWithin zone rights before after)
include changes

theorem isNamed_eq (inStore : id.index < before.size) (name : String) :
    after.isNamed id name = before.isNamed id name := by
  rw [isNamed, isNamed, changes.name_eq inStore]

theorem isProperties_eq (inStore : id.index < before.size) :
    after.isProperties id = before.isProperties id := by
  rw [isProperties, isProperties, changes.name_eq inStore]

theorem showsChildren_eq (inStore : id.index < before.size) :
    after.showsChildren id = before.showsChildren id := by
  rw [showsChildren, showsChildren, changes.isText_eq inStore, changes.isProperties_eq inStore]

/-- Nodes outside the zone keep their parents. -/
theorem parent_eq (wellFormed : before.WellFormed) (closed : before.Closed zone rights)
    (outside : ¬zone id) : after.parent id = before.parent id := by
  have fixed : ∀ {parent}, ¬zone parent →
      (after.parent id = some parent ↔ before.parent id = some parent) := by
    intro parent parentOutside
    rw [← changes.wellFormed.mem_children_iff, ← wellFormed.mem_children_iff,
      changes.children_eq parentOutside]
  rcases isParent : after.parent id with _ | parent
  · rcases isParent' : before.parent id with _ | parent'
    · rfl
    · have parentOutside : ¬zone parent' := fun inZone => outside (closed.child isParent' inZone)
      simp [(fixed parentOutside).mpr isParent'] at isParent
  · have parentOutside : ¬zone parent := fun inZone =>
      outside (changes.closed.child isParent inZone)
    rw [(fixed parentOutside).mp isParent]

end ChangesWithin

/-- A node whose parent is in the zone gets no parent outside. -/
theorem ChangesWithin.parent_mem (changes : ChangesWithin zone rights before after)
    (wellFormed : before.WellFormed) (inZone : ∀ parent, before.parent id = some parent → zone parent)
    (parent : NodeId) (isParent : after.parent id = some parent) : zone parent := by
  by_contra outside
  rw [← changes.wellFormed.mem_children_iff, changes.children_eq outside,
    wellFormed.mem_children_iff] at isParent
  exact outside (inZone parent isParent)

/-! ## The basic changes -/

theorem changesWithin_add (wellFormed : document.WellFormed) (closed : document.Closed zone rights)
    (content : Content) : ChangesWithin zone rights document (document.add content) where
  wellFormed := wellFormed.add content
  closed := {
    child := by
      intro child parent isParent inZone
      exact closed.child (by simpa using isParent) inZone
    fresh := by
      intro id beyond
      rw [size_add] at beyond
      exact closed.fresh (by omega)
    freshPlaces := by
      intro id beyond
      rw [size_add] at beyond
      exact closed.freshPlaces (by omega) }
  size_le := by simp
  root_eq := rfl
  children_eq _ := children_add _ _ _
  content_eq outside := by
    rw [content_add, if_neg]
    rintro rfl
    exact outside (closed.fresh (Nat.le_refl _))
  name_eq inStore := by
    simp only [name?, element?, Document.content, node_add_of_lt inStore]
  isText_eq inStore := by
    simp only [isText, text?, Document.content, node_add_of_lt inStore]
  text_eq inStore _ := by
    simp only [text?, Document.content, node_add_of_lt inStore]
  detached _ _ _ isDetached := by rwa [parent_add]

/-- Another content that names the node alike and is text if the old one was. -/
theorem changesWithin_setContent {content : Content} (wellFormed : document.WellFormed)
    (closed : document.Closed zone rights) (inZone : zone id)
    (sameName : content.element?.map Element.name = document.name? id)
    (sameKind : content.text?.isSome = document.isText id)
    (sameText : rights.writes id ∨ content.text? = document.text? id) :
    ChangesWithin zone rights document (document.setContent id content) := by
  rcases Nat.lt_or_ge id.index document.size with inStore | beyond
  · have contentAt := content_setContent document inStore content
    have name_eq : ∀ {other : NodeId},
        (document.setContent id content).name? other = document.name? other := by
      intro other
      simp only [name?, element?, contentAt]
      split
      · subst other
        exact sameName
      · rfl
    exact {
      wellFormed := wellFormed.setContent id content
      closed := {
        child := by
          intro child parent isParent parentInZone
          exact closed.child (by simpa using isParent) parentInZone
        fresh := by
          intro other otherBeyond
          exact closed.fresh (by simpa using otherBeyond)
        freshPlaces := by
          intro other otherBeyond
          exact closed.freshPlaces (by simpa using otherBeyond) }
      size_le := by simp
      root_eq := rfl
      children_eq := fun _ => children_setContent _ _ _ _
      content_eq := by
        intro other outside
        rw [contentAt, if_neg]
        rintro rfl
        exact outside inZone
      name_eq := fun _ => name_eq
      isText_eq := by
        intro other _
        simp only [isText, text?, contentAt]
        split
        · subst other
          exact sameKind
        · rfl
      text_eq := by
        intro other _ unwritten
        simp only [text?, contentAt]
        split
        · subst other
          exact sameText.resolve_left unwritten
        · rfl
      detached := fun _ _ _ isDetached => by rwa [parent_setContent] }
  · rw [setContent, modifyNode_of_size_le beyond]
    exact ChangesWithin.refl wellFormed closed

theorem changesWithin_setText (wellFormed : document.WellFormed) (closed : document.Closed zone rights)
    (inZone : zone id) (isWritten : rights.writes id) (isText : document.isText id = true)
    (characters : String) :
    ChangesWithin zone rights document (document.setContent id (.text characters)) := by
  refine changesWithin_setContent wellFormed closed inZone ?_ ?_ (Or.inl isWritten)
  · rcases carried : document.content id with held | held | raw <;>
      simp_all [Document.name?, Document.element?, Content.element?, Document.isText,
        Document.text?, Content.text?]
  · simp [Content.text?, isText]

theorem changesWithin_setAttribute (wellFormed : document.WellFormed)
    (closed : document.Closed zone rights) (inZone : zone id) (key value : String) :
    ChangesWithin zone rights document (document.setAttribute id key value) := by
  unfold Document.setAttribute
  rcases held : document.element? id with _ | element
  · exact ChangesWithin.refl wellFormed closed
  · have notText : document.text? id = none := by
      rcases carried : document.content id with characters | held' | raw <;>
        simp_all [Document.element?, Content.element?, Document.text?, Content.text?]
    refine changesWithin_setContent wellFormed closed inZone ?_ ?_ (Or.inr ?_)
    · simp [Content.element?, Document.name?, held, Element.setAttribute]
    · simp [Content.text?, Document.isText, notText]
    · simp [Content.text?, notText]

theorem changesWithin_detach (wellFormed : document.WellFormed) (closed : document.Closed zone rights)
    (movable : document.Movable zone rights id) :
    ChangesWithin zone rights document (document.detach id) where
  wellFormed := wellFormed.detach id
  closed := {
    child := by
      intro child parent isParent inZone
      rw [parent_detach wellFormed] at isParent
      split at isParent
      · simp at isParent
      · exact closed.child isParent inZone
    fresh := by
      intro other beyond
      exact closed.fresh (by simpa [size_detach] using beyond)
    freshPlaces := by
      intro other beyond
      exact closed.freshPlaces (by simpa [size_detach] using beyond) }
  size_le := Nat.le_of_eq (size_detach _ _).symm
  root_eq := root_detach _ _
  children_eq := by
    intro other outside
    rw [children_detach wellFormed]
    exact filter_children_of_ne wellFormed fun isParent => outside (movable.parent other isParent)
  content_eq _ := content_detach wellFormed _ _
  name_eq _ := by simp only [name?, element?, content_detach wellFormed]
  isText_eq _ := by simp only [isText, text?, content_detach wellFormed]
  text_eq _ _ := by simp only [text?, content_detach wellFormed]
  detached _ _ _ isDetached := by
    rw [parent_detach wellFormed, isDetached, ite_self]

theorem Moves.changesWithin (moves : Moves before after node parent left right)
    (wellFormed : before.WellFormed) (closed : before.Closed zone rights) (inZone : zone parent)
    (nodeInZone : zone node) (movable : before.Movable zone rights node) :
    ChangesWithin zone rights before after where
  wellFormed := moves.wellFormed
  closed := {
    child := by
      intro child top isParent topInZone
      rw [moves.parent_eq] at isParent
      split at isParent
      · subst child
        exact nodeInZone
      · exact closed.child isParent topInZone
    fresh := by
      intro id beyond
      exact closed.fresh (by rwa [moves.size_eq] at beyond)
    freshPlaces := by
      intro id beyond
      exact closed.freshPlaces (by rwa [moves.size_eq] at beyond) }
  size_le := Nat.le_of_eq moves.size_eq.symm
  root_eq := moves.root_eq
  children_eq := by
    intro id outside
    have differ : id ≠ parent := by
      rintro rfl
      exact outside inZone
    rw [moves.children_eq, if_neg differ]
    exact filter_children_of_ne wellFormed fun isParent => outside (movable.parent id isParent)
  content_eq _ := moves.content_eq _
  name_eq _ := by simp only [name?, element?, moves.content_eq]
  isText_eq _ := by simp only [isText, text?, moves.content_eq]
  text_eq _ _ := by simp only [text?, moves.content_eq]
  detached unallowed _ notProperties isDetached := by
    rw [moves.parent_eq, if_neg, isDetached]
    rintro rfl
    exact unallowed (movable.detached isDetached notProperties)

end WordTemplate.Document
