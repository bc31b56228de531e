import WordTemplate.Document.Edit
import WordTemplate.Proofs.Document.Order

/-!
# Adding, changing, detaching and placing nodes

What the four basic changes of a document do to the contents, the parents and the child lists, and
that they keep a document well-formed. All edits are made of these.
-/

namespace WordTemplate.Document

variable {document : Document} {id other top parent child : NodeId}

/-! ## Adding a node -/

/-- The address of the next node is not in use. -/
@[simp]
theorem parent_nextId (document : Document) : document.parent document.nextId = none :=
  parent_of_size_le (Nat.le_refl document.size)

@[simp]
theorem children_nextId (document : Document) : document.children document.nextId = [] :=
  children_of_size_le (Nat.le_refl document.size)

theorem nextId_lt_size_add (document : Document) (content : Content) :
    document.nextId.index < (document.add content).size := by
  rw [size_add]
  exact Nat.lt_succ_self document.size

theorem nextId_ne (isOld : id.index < document.size) : document.nextId ≠ id := by
  rintro rfl
  exact Nat.lt_irrefl _ isOld

section Add

variable {content : Content}

theorem node_add (document : Document) (content : Content) (id : NodeId) :
    (document.add content).node id =
      if id = document.nextId then { content } else document.node id := by
  split
  · subst id
    exact node_add_nextId document content
  · rename_i differ
    rcases Nat.lt_or_ge id.index document.size with inStore | outside
    · exact node_add_of_lt inStore content
    · have beyond : id.index ≠ document.size := fun same => differ (by
        cases id; simp_all [nextId])
      rw [node_of_size_le outside, node_of_size_le (by simp; omega)]

theorem content_add (document : Document) (content : Content) (id : NodeId) :
    (document.add content).content id =
      if id = document.nextId then content else document.content id := by
  simp only [Document.content, node_add]
  split <;> rfl

@[simp]
theorem parent_add (document : Document) (content : Content) (id : NodeId) :
    (document.add content).parent id = document.parent id := by
  simp only [Document.parent, node_add]
  split
  · subst id
    exact (parent_of_size_le (Nat.le_refl _)).symm
  · rfl

@[simp]
theorem children_add (document : Document) (content : Content) (id : NodeId) :
    (document.add content).children id = document.children id := by
  simp only [Document.children, node_add]
  split
  · subst id
    exact (children_of_size_le (Nat.le_refl _)).symm
  · rfl

@[simp]
theorem root_add (document : Document) (content : Content) :
    (document.add content).root = document.root := rfl

theorem WellFormed.add (wellFormed : document.WellFormed) (content : Content) :
    (document.add content).WellFormed where
  mem_children_iff parent child := by simpa using wellFormed.mem_children_iff parent child
  nodup_children parent := by simpa using wellFormed.nodup_children parent
  layered := by simpa using wellFormed.layered
  root_lt := by
    have inStore := wellFormed.root_lt
    simp
    omega

end Add

/-! ## Changing what a node carries -/

section SetContent

variable {content : Content}

theorem node_modifyNode (document : Document) {id : NodeId} (change : Node → Node)
    (inStore : id.index < document.size) (other : NodeId) :
    (document.modifyNode id change).node other =
      if other = id then change (document.node other) else document.node other := by
  split
  · subst other
    exact node_modifyNode_self inStore change
  · rename_i differ
    exact node_modifyNode_of_ne differ change

theorem modifyNode_of_size_le (outside : document.size ≤ id.index) (change : Node → Node) :
    document.modifyNode id change = document := by
  simp only [size] at outside
  have unchanged : document.nodes.modify id.index change = document.nodes := by
    apply Array.ext'
    rw [Array.toList_modify]
    exact List.modify_eq_self (by simpa using outside)
  simp [modifyNode, unchanged]

@[simp]
theorem parent_setContent (document : Document) (id : NodeId) (content : Content)
    (other : NodeId) : (document.setContent id content).parent other = document.parent other := by
  rcases Nat.lt_or_ge id.index document.size with inStore | outside
  · simp only [setContent, Document.parent, node_modifyNode document _ inStore]
    split <;> rfl
  · rw [setContent, modifyNode_of_size_le outside]

@[simp]
theorem children_setContent (document : Document) (id : NodeId) (content : Content)
    (other : NodeId) :
    (document.setContent id content).children other = document.children other := by
  rcases Nat.lt_or_ge id.index document.size with inStore | outside
  · simp only [setContent, Document.children, node_modifyNode document _ inStore]
    split <;> rfl
  · rw [setContent, modifyNode_of_size_le outside]

theorem content_setContent (document : Document) (inStore : id.index < document.size)
    (content : Content) (other : NodeId) :
    (document.setContent id content).content other =
      if other = id then content else document.content other := by
  simp only [setContent, Document.content, node_modifyNode document _ inStore]
  split <;> rfl

theorem node_setContent_of_ne (differ : other ≠ id) (content : Content) :
    (document.setContent id content).node other = document.node other :=
  node_modifyNode_of_ne differ _

@[simp]
theorem size_setContent (document : Document) (id : NodeId) (content : Content) :
    (document.setContent id content).size = document.size := size_modifyNode _ _ _

@[simp]
theorem root_setContent (document : Document) (id : NodeId) (content : Content) :
    (document.setContent id content).root = document.root := rfl

@[simp]
theorem parent_setAttribute (document : Document) (id : NodeId) (key value : String)
    (other : NodeId) :
    (document.setAttribute id key value).parent other = document.parent other := by
  rw [setAttribute]
  split <;> simp

@[simp]
theorem size_setAttribute (document : Document) (id : NodeId) (key value : String) :
    (document.setAttribute id key value).size = document.size := by
  rw [setAttribute]
  split <;> simp

theorem WellFormed.setContent (wellFormed : document.WellFormed) (id : NodeId)
    (content : Content) : (document.setContent id content).WellFormed where
  mem_children_iff parent child := by simpa using wellFormed.mem_children_iff parent child
  nodup_children parent := by simpa using wellFormed.nodup_children parent
  layered := by simpa using wellFormed.layered
  root_lt := by simpa using wellFormed.root_lt

end SetContent

/-! ## Detaching a node -/

section Detach

theorem size_detach (document : Document) (id : NodeId) :
    (document.detach id).size = document.size := by
  unfold detach
  split <;> simp

theorem root_detach (document : Document) (id : NodeId) :
    (document.detach id).root = document.root := by
  unfold detach
  split <;> rfl

theorem detach_of_parent_none (detached : document.parent id = none) :
    document.detach id = document := by
  simp [detach, detached]

theorem node_detach_of_parent (wellFormed : document.WellFormed)
    (isParent : document.parent id = some parent) (other : NodeId) :
    (document.detach id).node other =
      if other = parent then
        { document.node other with children := (document.children other).filter (· != id) }
      else if other = id then { document.node other with parent := none }
      else document.node other := by
  have inStore := lt_size_of_parent isParent
  have parentInStore := parent_lt_size wellFormed isParent
  have differ := ne_of_parent wellFormed isParent
  simp only [detach, isParent]
  rw [node_modifyNode _ _ (by simpa using parentInStore), node_modifyNode _ _ inStore]
  by_cases isTop : other = parent
  · subst other
    simp [differ.symm, Document.children]
  · simp [isTop]

theorem content_detach (wellFormed : document.WellFormed) (id other : NodeId) :
    (document.detach id).content other = document.content other := by
  rcases isParent : document.parent id with _ | parent
  · rw [detach_of_parent_none isParent]
  · simp only [Document.content, node_detach_of_parent wellFormed isParent]
    split
    · rfl
    · split <;> rfl

theorem parent_detach (wellFormed : document.WellFormed) (id other : NodeId) :
    (document.detach id).parent other = if other = id then none else document.parent other := by
  rcases isParent : document.parent id with _ | parent
  · rw [detach_of_parent_none isParent]
    split
    · simp_all
    · rfl
  · have differ := ne_of_parent wellFormed isParent
    simp only [Document.parent, node_detach_of_parent wellFormed isParent]
    by_cases isTop : other = parent
    · subst other
      simp [differ.symm]
    · rw [if_neg isTop]
      split <;> rfl

theorem children_detach (wellFormed : document.WellFormed) (id other : NodeId) :
    (document.detach id).children other = (document.children other).filter (· != id) := by
  rcases isParent : document.parent id with _ | parent
  · rw [detach_of_parent_none isParent, eq_comm, List.filter_eq_self]
    intro child isChild
    have childParent := (wellFormed.mem_children_iff _ _).mp isChild
    rw [bne_iff_ne]
    rintro rfl
    simp [isParent] at childParent
  · simp only [Document.children, node_detach_of_parent wellFormed isParent]
    by_cases isTop : other = parent
    · simp [isTop]
    · have unlisted : (document.children other).filter (· != id) = document.children other := by
        refine List.filter_eq_self.mpr fun child isChild => ?_
        have childParent := (wellFormed.mem_children_iff _ _).mp isChild
        rw [bne_iff_ne]
        rintro rfl
        rw [isParent, Option.some.injEq] at childParent
        exact isTop childParent.symm
      simp only [Document.children] at unlisted
      simp only [isTop, if_false, unlisted]
      split <;> rfl

/-- What is left of the children of a node when one of them is detached. -/
theorem children_detach_of_around {id parent : NodeId} {left right : List NodeId}
    (wellFormed : document.WellFormed) (around : document.children parent = left ++ id :: right) :
    (document.detach id).children parent = left ++ right := by
  have nodup := wellFormed.nodup_children parent
  rw [around] at nodup
  rw [children_detach wellFormed, around, filter_ne_append_cons nodup]

theorem WellFormed.detach (wellFormed : document.WellFormed) (id : NodeId) :
    (document.detach id).WellFormed where
  mem_children_iff parent child := by
    rw [children_detach wellFormed, parent_detach wellFormed, List.mem_filter,
      wellFormed.mem_children_iff]
    by_cases isSelf : child = id <;> simp [isSelf]
  nodup_children parent := by
    rw [children_detach wellFormed]
    exact (wellFormed.nodup_children parent).filter _
  layered := by
    rcases wellFormed.layered with ⟨level, layers⟩
    refine ⟨level, fun child parent isParent => layers child parent ?_⟩
    rw [parent_detach wellFormed] at isParent
    split at isParent
    · simp at isParent
    · exact isParent
  root_lt := by
    rw [root_detach, size_detach]
    exact wellFormed.root_lt

end Detach

/-! ## Placing a detached node -/

section Place

variable {index : Nat}

@[simp]
theorem size_place (document : Document) (parent : NodeId) (index : Nat) (child : NodeId) :
    (document.place parent index child).size = document.size := by
  simp [place]

@[simp]
theorem root_place (document : Document) (parent : NodeId) (index : Nat) (child : NodeId) :
    (document.place parent index child).root = document.root := rfl

theorem node_place (parentInStore : parent.index < document.size)
    (inStore : child.index < document.size) (differ : child ≠ parent) (index : Nat)
    (other : NodeId) :
    (document.place parent index child).node other =
      if other = child then { document.node other with parent := some parent }
      else if other = parent then
        { document.node other with
          children := (document.children other).insertIdx
            (min index (document.children other).length) child }
      else document.node other := by
  simp only [place]
  rw [node_modifyNode _ _ (by simpa using inStore), node_modifyNode _ _ parentInStore]
  by_cases isChild : other = child
  · subst other
    simp [differ]
  · by_cases isTop : other = parent
    · subst other
      simp [isChild, Document.children]
    · simp [isChild, isTop]

theorem content_place (parentInStore : parent.index < document.size)
    (inStore : child.index < document.size) (differ : child ≠ parent) (index : Nat)
    (other : NodeId) :
    (document.place parent index child).content other = document.content other := by
  simp only [Document.content, node_place parentInStore inStore differ]
  split
  · rfl
  · split <;> rfl

theorem parent_place (parentInStore : parent.index < document.size)
    (inStore : child.index < document.size) (differ : child ≠ parent) (index : Nat)
    (other : NodeId) :
    (document.place parent index child).parent other =
      if other = child then some parent else document.parent other := by
  simp only [Document.parent, node_place parentInStore inStore differ]
  split
  · rfl
  · split <;> rfl

theorem children_place (parentInStore : parent.index < document.size)
    (inStore : child.index < document.size) (differ : child ≠ parent) (index : Nat)
    (other : NodeId) :
    (document.place parent index child).children other =
      if other = parent then
        (document.children other).insertIdx (min index (document.children other).length) child
      else document.children other := by
  simp only [Document.children, node_place parentInStore inStore differ]
  by_cases isChild : other = child
  · subst other
    simp [differ]
  · simp only [isChild, if_false]
    split <;> rfl

/-- A detached node can be placed anywhere but in its own subtree. -/
theorem WellFormed.place (wellFormed : document.WellFormed)
    (parentInStore : parent.index < document.size) (inStore : child.index < document.size)
    (detached : document.parent child = none) (outside : ¬document.LiesIn child parent)
    (index : Nat) : (document.place parent index child).WellFormed := by
  have differ : child ≠ parent := by
    rintro rfl
    exact outside LiesIn.refl
  have parents := parent_place parentInStore inStore differ index
  have lists := children_place parentInStore inStore differ index
  have position : min index (document.children parent).length ≤
      (document.children parent).length := Nat.min_le_right _ _
  have unlisted : ∀ other, child ∉ document.children other := by
    intro other isChild
    simp [(wellFormed.mem_children_iff _ _).mp isChild] at detached
  refine ⟨?_, ?_, ?_, ?_⟩
  · intro top other
    rw [parents, lists]
    by_cases isTop : top = parent
    · subst top
      rw [if_pos rfl, List.mem_insertIdx position, wellFormed.mem_children_iff]
      by_cases isChild : other = child <;> simp [isChild]
    · rw [if_neg isTop, wellFormed.mem_children_iff]
      by_cases isChild : other = child
      · subst other
        simp [detached, Ne.symm isTop]
      · simp [isChild]
  · intro top
    rw [lists]
    split
    · subst top
      rw [(List.perm_insertIdx child _ position).nodup_iff]
      exact List.nodup_cons.mpr ⟨unlisted parent, wellFormed.nodup_children parent⟩
    · exact wellFormed.nodup_children top
  · rcases wellFormed.layered with ⟨level, layers⟩
    classical
    refine ⟨fun other => if document.LiesIn child other then level other + level parent + 1
      else level other, fun other top isParent => ?_⟩
    rw [parents] at isParent
    split at isParent
    · rw [Option.some.injEq] at isParent
      subst isParent
      subst other
      simp only [outside, LiesIn.refl, if_true, if_false]
      omega
    · rename_i notChild
      have below := layers _ _ isParent
      by_cases topInside : document.LiesIn child top
      · simp only [topInside, LiesIn.of_parent isParent topInside, if_true]
        omega
      · have otherOutside : ¬document.LiesIn child other := by
          intro inside
          rcases inside.cases_above isParent with same | above
          · exact notChild same
          · exact topInside above
        simpa only [topInside, otherOutside, if_false] using below
  · simpa using wellFormed.root_lt

end Place

end WordTemplate.Document
