import WordTemplate.Proofs.Document.Copying

/-!
# Leaves

What a paragraph shows are the leaves below it, that is text, markup and elements without children,
except those inside elements of properties. An edit that cuts elements apart adds elements, so the
leaves are counted by what was a leaf before the edit: `Document.leaves` reads the order from one
document and takes the leaves from another.
-/

namespace WordTemplate.Document

/-- The nodes at most `levels` levels below a node that do not stand in properties. -/
def outerNodesWithin (document : Document) : Nat → NodeId → List NodeId
  | levels, id =>
      if document.isProperties id then []
      else
        match levels with
        | 0 => [id]
        | levels + 1 => id :: (document.children id).flatMap (outerNodesWithin document levels)

/-- The nodes of a subtree that do not stand in properties, in document order. -/
def outerNodes (document : Document) (id : NodeId) : List NodeId :=
  document.outerNodesWithin document.size id

/-- Whether a node of the store carries no other nodes: text, markup or an element without
children. -/
def isLeaf (document : Document) (id : NodeId) : Bool :=
  decide (id.index < document.size) &&
    ((document.element? id).isNone || (document.children id).isEmpty)

/-- The leaves of `source` that a subtree holds outside properties, in document order. -/
def leaves (source document : Document) (id : NodeId) : List NodeId :=
  (document.outerNodes id).filter source.isLeaf

/-- The leaves of `source` in a paragraph. Empty runs of the paragraph do not count. -/
def paragraphLeaves (source document : Document) (paragraph : NodeId) : List NodeId :=
  ((document.children paragraph).filter (!document.isEmptyRun ·)).flatMap (source.leaves document)

variable {source document before after : Document} {id child : NodeId}

theorem outerNodesWithin_eq (wellFormed : document.WellFormed) {few many : Nat}
    (enough : document.size ≤ few + document.depth id) (fewer : few ≤ many) :
    document.outerNodesWithin many id = document.outerNodesWithin few id := by
  induction few generalizing many id with
  | zero =>
      have outside : document.size ≤ id.index := by
        by_contra inStore
        have bounded := depth_lt_size wellFormed (Nat.lt_of_not_le inStore)
        omega
      cases many <;> simp [outerNodesWithin, children_of_size_le outside]
  | succ few inductionHypothesis =>
      rcases many with _ | many
      · omega
      · simp only [outerNodesWithin]
        congr 2
        refine List.flatMap_congr fun child isChild => ?_
        have deeper := depth_of_parent wellFormed ((wellFormed.mem_children_iff _ _).mp isChild)
        rw [inductionHypothesis (by omega) (Nat.le_of_succ_le_succ fewer)]

/-- The nodes of a subtree outside properties are its top and those of the children. -/
theorem outerNodes_eq (wellFormed : document.WellFormed) (id : NodeId) :
    document.outerNodes id =
      if document.isProperties id then []
      else id :: (document.children id).flatMap document.outerNodes := by
  rw [outerNodes]
  rcases sizeIs : document.size with _ | levels
  · have outside : document.size ≤ id.index := by omega
    simp [outerNodesWithin, children_of_size_le outside]
  · rw [outerNodesWithin]
    congr 2
    refine List.flatMap_congr fun child isChild => ?_
    have deeper := depth_of_parent wellFormed ((wellFormed.mem_children_iff _ _).mp isChild)
    have deepEnough : document.outerNodesWithin (levels + 1) child =
        document.outerNodesWithin levels child :=
      outerNodesWithin_eq wellFormed (by omega) (by omega)
    rw [outerNodes, sizeIs, deepEnough]

/-- The leaves of a subtree are its top, if that is a leaf, and the leaves of the children. -/
theorem leaves_eq (wellFormed : document.WellFormed) (id : NodeId) :
    source.leaves document id =
      if document.isProperties id then []
      else [id].filter source.isLeaf ++ (document.children id).flatMap (source.leaves document) := by
  rw [leaves, outerNodes_eq wellFormed]
  split
  · rfl
  · rw [← List.singleton_append, List.filter_append, List.filter_flatMap]
    rfl

theorem leaves_of_isProperties (wellFormed : document.WellFormed)
    (isProperties : document.isProperties id = true) : source.leaves document id = [] := by
  rw [leaves_eq wellFormed, if_pos isProperties]

theorem isLeaf_of_lt_size (notElement : document.element? id = none)
    (inStore : id.index < document.size) : document.isLeaf id = true := by
  simp [isLeaf, notElement, inStore]

/-- Elements with children are no leaves. -/
theorem isLeaf_eq_false_of_isNamed {name : String} (named : document.isNamed id name = true)
    (isChild : child ∈ document.children id) : document.isLeaf id = false := by
  have isElement : document.element? id ≠ none := by
    intro notElement
    simp [isNamed, name?, notElement] at named
  have notEmpty : (document.children id).isEmpty = false := by
    rw [List.isEmpty_eq_false_iff]
    exact List.ne_nil_of_mem isChild
  rw [isLeaf, notEmpty, Option.isNone_eq_false_iff.mpr (Option.isSome_iff_ne_none.mpr isElement)]
  simp

/-- New nodes are not among the leaves of the document before. -/
theorem isLeaf_eq_false_of_size_le (outside : document.size ≤ id.index) :
    document.isLeaf id = false := by
  simp [isLeaf, Nat.not_lt.mpr outside]

/-- The leaves stay the same below nodes whose children keep theirs. -/
theorem leaves_eq_of_children (part : NodeId → Prop) (wellFormed : before.WellFormed)
    (wellFormed' : after.WellFormed)
    (downward : ∀ id, part id → ∀ child ∈ before.children id, part child)
    (isProperties_eq : ∀ id, part id → after.isProperties id = before.isProperties id)
    (children_leaves : ∀ id, part id →
      (∀ child ∈ before.children id, source.leaves after child = source.leaves before child) →
      (after.children id).flatMap (source.leaves after) =
        (before.children id).flatMap (source.leaves before))
    (isPart : part id) : source.leaves after id = source.leaves before id := by
  induction id using wellFormed.induction_children with
  | step id inductionHypothesis =>
      rw [leaves_eq wellFormed, leaves_eq wellFormed', isProperties_eq id isPart]
      split
      · rfl
      · refine congrArg _ (children_leaves id isPart fun child isChild => ?_)
        exact inductionHypothesis child isChild (downward id isPart child isChild)

/-- The leaves of a subtree depend on nothing but what lies in it. -/
theorem leaves_congr (wellFormed : before.WellFormed) (wellFormed' : after.WellFormed)
    (same : ∀ other, before.LiesIn id other →
      after.content other = before.content other ∧ after.children other = before.children other) :
    source.leaves after id = source.leaves before id := by
  refine leaves_eq_of_children (before.LiesIn id) wellFormed wellFormed' ?_ ?_ ?_ LiesIn.refl
  · exact fun other inside child isChild =>
      LiesIn.of_parent ((wellFormed.mem_children_iff _ _).mp isChild) inside
  · exact fun other inside => isProperties_of_content_eq (same other inside).1
  · intro other inside sameBelow
    rw [(same other inside).2]
    exact List.flatMap_congr sameBelow

end WordTemplate.Document
