import Mathlib.Data.List.Nodup
import Mathlib.Data.List.Perm.Subperm
import Mathlib.Logic.Relation
import WordTemplate.Document.Navigation
import WordTemplate.Document.Tree

/-!
# Well-formed documents

A document stores its tree twice, in the parents and in the child lists. In a well-formed document
both agree and no node lies below itself. Then every climb and every descent ends within the bound
that the functions on documents are given, so that they can be unfolded one step at a time.
-/

namespace WordTemplate.Document

/-- Parents and child lists agree, no child is listed twice, and no node lies below itself. -/
structure WellFormed (document : Document) : Prop where
  mem_children_iff : ∀ parent child,
    child ∈ document.children parent ↔ document.parent child = some parent
  nodup_children : ∀ parent, (document.children parent).Nodup
  /-- Levels can be given to the nodes so that children are deeper than their parents. -/
  layered : ∃ level : NodeId → Nat, ∀ child parent,
    document.parent child = some parent → level parent < level child
  root_lt : document.root.index < document.size

/-- A node is `top` or lies below it. -/
def LiesIn (document : Document) (top id : NodeId) : Prop :=
  Relation.ReflTransGen (fun child parent => document.parent child = some parent) id top

section Store

variable {document : Document} {id other top : NodeId}

theorem node_of_size_le (outside : document.size ≤ id.index) :
    document.node id = { content := .text "" } := by
  simp only [size] at outside
  simp [node, outside]

theorem parent_of_size_le (outside : document.size ≤ id.index) : document.parent id = none := by
  simp [parent, node_of_size_le outside]

theorem children_of_size_le (outside : document.size ≤ id.index) : document.children id = [] := by
  simp [children, node_of_size_le outside]

/-- Only nodes of the store have a parent. -/
theorem lt_size_of_parent (isParent : document.parent id = some other) :
    id.index < document.size := by
  by_contra outside
  simp [parent_of_size_le (Nat.le_of_not_lt outside)] at isParent

end Store

namespace LiesIn

variable {document : Document} {id other top : NodeId}

@[refl]
theorem refl : document.LiesIn id id := Relation.ReflTransGen.refl

theorem of_parent (isParent : document.parent id = some other)
    (above : document.LiesIn top other) : document.LiesIn top id :=
  Relation.ReflTransGen.head isParent above

theorem parent (isParent : document.parent id = some other) : document.LiesIn other id :=
  of_parent isParent refl

theorem trans (inner : document.LiesIn other id) (outer : document.LiesIn top other) :
    document.LiesIn top id :=
  Relation.ReflTransGen.trans inner outer

/-- A node in a subtree is its top or its parent is in the subtree. -/
theorem cases_parent (inside : document.LiesIn top id) :
    id = top ∨ ∃ parent, document.parent id = some parent ∧ document.LiesIn top parent := by
  rcases Relation.ReflTransGen.cases_head inside with same | ⟨parent, isParent, above⟩
  · exact Or.inl same
  · exact Or.inr ⟨parent, isParent, above⟩

theorem cases_above (inside : document.LiesIn top id) (isParent : document.parent id = some other) :
    id = top ∨ document.LiesIn top other := by
  rcases inside.cases_parent with same | ⟨parent, isParent', above⟩
  · exact Or.inl same
  · rw [isParent, Option.some.injEq] at isParent'
    exact Or.inr (isParent' ▸ above)

/-- A node in a subtree is its top or lies in the subtree of a child of the top. -/
theorem cases_child (inside : document.LiesIn top id) :
    id = top ∨ ∃ child, document.parent child = some top ∧ document.LiesIn child id := by
  rcases Relation.ReflTransGen.cases_tail inside with same | ⟨child, below, isParent⟩
  · exact Or.inl same.symm
  · exact Or.inr ⟨child, isParent, below⟩

/-- Of two subtrees that share a node one contains the other. -/
theorem total (first : document.LiesIn top id) (second : document.LiesIn other id) :
    document.LiesIn top other ∨ document.LiesIn other top := by
  refine (Relation.ReflTransGen.total_of_right_unique ?_ first second).symm
  intro child parent parent' isParent isParent'
  simpa [isParent] using isParent'

theorem eq_of_parent_none (inside : document.LiesIn top id)
    (detached : document.parent id = none) : id = top := by
  rcases inside.cases_parent with same | ⟨parent, isParent, -⟩
  · exact same
  · simp [detached] at isParent

theorem level_le {level : NodeId → Nat}
    (layers : ∀ child parent, document.parent child = some parent → level parent < level child)
    (inside : document.LiesIn top id) : level top ≤ level id := by
  induction inside using Relation.ReflTransGen.head_induction_on with
  | refl => exact Nat.le_refl _
  | head isParent _ above => exact Nat.le_trans above (Nat.le_of_lt (layers _ _ isParent))

theorem antisymm (wellFormed : document.WellFormed) (inside : document.LiesIn top id)
    (around : document.LiesIn id top) : id = top := by
  rcases wellFormed.layered with ⟨level, layers⟩
  rcases inside.cases_parent with same | ⟨parent, isParent, above⟩
  · exact same
  · have shallower := layers _ _ isParent
    have outer := around.level_le layers
    have inner := above.level_le layers
    omega

end LiesIn

section Ancestors

variable {document : Document} {id other top : NodeId}

theorem take_ancestorsWithin {few many : Nat} (fewer : few ≤ many) :
    (document.ancestorsWithin many id).take few = document.ancestorsWithin few id := by
  induction few generalizing many id with
  | zero => simp [ancestorsWithin]
  | succ few inductionHypothesis =>
      rcases many with _ | many
      · omega
      · simp only [ancestorsWithin]
        split
        · simp [inductionHypothesis (Nat.le_of_succ_le_succ fewer)]
        · simp

theorem lt_size_of_mem_ancestorsWithin (wellFormed : document.WellFormed) {steps : Nat}
    (isAncestor : other ∈ document.ancestorsWithin steps id) : other.index < document.size := by
  induction steps generalizing id with
  | zero => simp [ancestorsWithin] at isAncestor
  | succ steps inductionHypothesis =>
      simp only [ancestorsWithin] at isAncestor
      split at isAncestor
      · rename_i parent isParent
        rcases List.mem_cons.mp isAncestor with rfl | further
        · by_contra outside
          have isChild := (wellFormed.mem_children_iff _ _).mpr isParent
          simp [children_of_size_le (Nat.le_of_not_lt outside)] at isChild
        · exact inductionHypothesis further
      · simp at isAncestor

theorem pairwise_ancestorsWithin {level : NodeId → Nat}
    (layers : ∀ child parent, document.parent child = some parent → level parent < level child)
    (steps : Nat) :
    (id :: document.ancestorsWithin steps id).Pairwise fun lower upper =>
      level upper < level lower := by
  induction steps generalizing id with
  | zero => simp [ancestorsWithin]
  | succ steps inductionHypothesis =>
      simp only [ancestorsWithin]
      split
      · rename_i parent isParent
        have above : (parent :: document.ancestorsWithin steps parent).Pairwise fun lower upper =>
            level upper < level lower := inductionHypothesis
        refine List.pairwise_cons.mpr ⟨?_, above⟩
        intro upper isUpper
        have parentLower := layers _ _ isParent
        rcases List.mem_cons.mp isUpper with rfl | further
        · exact parentLower
        · exact Nat.lt_trans ((List.pairwise_cons.mp above).1 upper further) parentLower
      · simp

/-- A list of different nodes of the store is no longer than the store. -/
theorem length_le_size_of_nodup {ids : List NodeId} (nodup : ids.Nodup)
    (inStore : ∀ id ∈ ids, id.index < document.size) : ids.length ≤ document.size := by
  have subset : ids ⊆ document.ids := by
    intro id isMember
    simp only [Document.ids, List.mem_map, List.mem_range]
    exact ⟨id.index, inStore id isMember, rfl⟩
  simpa [Document.ids] using (nodup.subperm subset).length_le

/-- A node of the store has fewer ancestors than the store has nodes. -/
theorem length_ancestorsWithin_lt (wellFormed : document.WellFormed)
    (inStore : id.index < document.size) (steps : Nat) :
    (document.ancestorsWithin steps id).length < document.size := by
  rcases wellFormed.layered with ⟨level, layers⟩
  have nodup : (id :: document.ancestorsWithin steps id).Nodup :=
    (pairwise_ancestorsWithin layers steps).imp fun lower same => by
      subst same
      exact Nat.lt_irrefl _ lower
  have allInStore : ∀ other ∈ id :: document.ancestorsWithin steps id,
      other.index < document.size := by
    intro other isMember
    rcases List.mem_cons.mp isMember with rfl | further
    · exact inStore
    · exact lt_size_of_mem_ancestorsWithin wellFormed further
  have bound := length_le_size_of_nodup nodup allInStore
  exact Nat.lt_of_succ_le (by simpa using bound)

theorem ancestorsWithin_eq_ancestors (wellFormed : document.WellFormed) {steps : Nat}
    (inStore : id.index < document.size) (enough : document.size ≤ steps + 1) :
    document.ancestorsWithin steps id = document.ancestors id := by
  have bound := length_ancestorsWithin_lt wellFormed inStore (steps + document.size)
  have full : ∀ {few : Nat}, few ≤ steps + document.size → document.size ≤ few + 1 →
      document.ancestorsWithin few id = document.ancestorsWithin (steps + document.size) id := by
    intro few fewer covers
    rw [← take_ancestorsWithin fewer]
    exact List.take_of_length_le (by omega)
  rw [ancestors, full (Nat.le_add_right _ _) enough, ← full (Nat.le_add_left _ _) (by omega)]

/-- The ancestors of a detached node. -/
theorem ancestors_of_parent_none (detached : document.parent id = none) :
    document.ancestors id = [] := by
  unfold ancestors
  cases document.size <;> simp [ancestorsWithin, detached]

theorem parent_lt_size (wellFormed : document.WellFormed)
    (isParent : document.parent id = some other) : other.index < document.size := by
  have isAncestor : other ∈ document.ancestorsWithin 1 id := by simp [ancestorsWithin, isParent]
  exact lt_size_of_mem_ancestorsWithin wellFormed isAncestor

theorem lt_size_of_liesIn (wellFormed : document.WellFormed) (inside : document.LiesIn top id)
    (inStore : id.index < document.size) : top.index < document.size := by
  rcases inside.cases_child with rfl | ⟨child, isParent, -⟩
  · exact inStore
  · exact parent_lt_size wellFormed isParent

theorem lt_size_below (inside : document.LiesIn top id) (inStore : top.index < document.size) :
    id.index < document.size := by
  rcases inside.cases_parent with rfl | ⟨parent, isParent, -⟩
  · exact inStore
  · exact lt_size_of_parent isParent

/-- The ancestors of a node are its parent and the ancestors of that. -/
theorem ancestors_of_parent (wellFormed : document.WellFormed)
    (isParent : document.parent id = some other) :
    document.ancestors id = other :: document.ancestors other := by
  have inStore := lt_size_of_parent isParent
  have parentInStore := parent_lt_size wellFormed isParent
  rcases sizeIs : document.size with _ | steps
  · omega
  · rw [ancestors, sizeIs, ancestorsWithin, isParent]
    simp only [List.cons.injEq, true_and]
    exact ancestorsWithin_eq_ancestors wellFormed parentInStore (by omega)

/-- Climbing from a node meets its subtree's tops and no other nodes. -/
theorem mem_ancestors_iff (wellFormed : document.WellFormed) :
    id = top ∨ top ∈ document.ancestors id ↔ document.LiesIn top id := by
  constructor
  · intro isAbove
    rcases wellFormed.layered with ⟨level, layers⟩
    induction id using (measure level).wf.induction with
    | _ id inductionHypothesis =>
        rcases isAbove with rfl | isAncestor
        · exact LiesIn.refl
        · rcases isParent : document.parent id with _ | parent
          · simp [ancestors_of_parent_none isParent] at isAncestor
          · rw [ancestors_of_parent wellFormed isParent] at isAncestor
            exact LiesIn.of_parent isParent <|
              inductionHypothesis parent (layers _ _ isParent)
                ((List.mem_cons.mp isAncestor).imp_left Eq.symm)
  · intro inside
    induction inside using Relation.ReflTransGen.head_induction_on with
    | refl => exact Or.inl rfl
    | head isParent _ above =>
        right
        rw [ancestors_of_parent wellFormed isParent]
        exact List.mem_cons.mpr (above.imp_left Eq.symm)

theorem mem_cons_ancestors_iff (wellFormed : document.WellFormed) :
    top ∈ id :: document.ancestors id ↔ document.LiesIn top id := by
  rw [← mem_ancestors_iff wellFormed, List.mem_cons, eq_comm]

theorem contains_iff (wellFormed : document.WellFormed) :
    document.contains top id = true ↔ document.LiesIn top id := by
  rw [← mem_ancestors_iff wellFormed]
  simp [contains]

theorem isAttached_iff (wellFormed : document.WellFormed) :
    document.isAttached id = true ↔ document.LiesIn document.root id :=
  contains_iff wellFormed

theorem depth_of_parent (wellFormed : document.WellFormed)
    (isParent : document.parent id = some other) :
    document.depth id = document.depth other + 1 := by
  simp [depth, ancestors_of_parent wellFormed isParent]

theorem depth_lt_size (wellFormed : document.WellFormed) (inStore : id.index < document.size) :
    document.depth id < document.size :=
  length_ancestorsWithin_lt wellFormed inStore document.size

end Ancestors

namespace WellFormed

variable {document : Document} {id : NodeId}

/-- Induction from the children of a node to the node. -/
theorem induction_children (wellFormed : document.WellFormed) {motive : NodeId → Prop}
    (step : ∀ id, (∀ child ∈ document.children id, motive child) → motive id) (id : NodeId) :
    motive id := by
  induction id using (measure fun id => document.size - document.depth id).wf.induction with
  | _ id inductionHypothesis =>
      refine step id fun child isChild => inductionHypothesis child ?_
      have isParent := (wellFormed.mem_children_iff _ _).mp isChild
      have deeper := depth_of_parent wellFormed isParent
      have bounded := depth_lt_size wellFormed (lt_size_of_parent isParent)
      change document.size - document.depth child < document.size - document.depth id
      omega

/-- Induction from the parent of a node to the node. -/
theorem induction_parent (wellFormed : document.WellFormed) {motive : NodeId → Prop}
    (step : ∀ id, (∀ parent, document.parent id = some parent → motive parent) → motive id)
    (id : NodeId) : motive id := by
  rcases wellFormed.layered with ⟨level, layers⟩
  induction id using (measure level).wf.induction with
  | _ id inductionHypothesis =>
      exact step id fun parent isParent => inductionHypothesis parent (layers _ _ isParent)

/-- Every node lies in one without a parent. -/
theorem exists_top (wellFormed : document.WellFormed) (id : NodeId) :
    ∃ top, document.LiesIn top id ∧ document.parent top = none := by
  induction id using wellFormed.induction_parent with
  | step id inductionHypothesis =>
      rcases isParent : document.parent id with _ | parent
      · exact ⟨id, LiesIn.refl, isParent⟩
      · rcases inductionHypothesis parent isParent with ⟨top, above, detached⟩
        exact ⟨top, LiesIn.of_parent isParent above, detached⟩

end WellFormed

section Descendants

variable {document : Document} {id : NodeId}

theorem descendantsWithin_eq (wellFormed : document.WellFormed) {few many : Nat}
    (enough : document.size ≤ few + document.depth id) (fewer : few ≤ many) :
    document.descendantsWithin many id = document.descendantsWithin few id := by
  induction few generalizing many id with
  | zero =>
      have outside : document.size ≤ id.index := by
        by_contra inStore
        have bounded := depth_lt_size wellFormed (Nat.lt_of_not_le inStore)
        omega
      cases many <;> simp [descendantsWithin, children_of_size_le outside]
  | succ few inductionHypothesis =>
      rcases many with _ | many
      · omega
      · simp only [descendantsWithin]
        refine List.flatMap_congr fun child isChild => ?_
        have deeper := depth_of_parent wellFormed ((wellFormed.mem_children_iff _ _).mp isChild)
        rw [inductionHypothesis (by omega) (Nat.le_of_succ_le_succ fewer)]

/-- A subtree is its top followed by the subtrees of the children. -/
theorem subtree_eq (wellFormed : document.WellFormed) (id : NodeId) :
    document.subtree id = id :: (document.children id).flatMap document.subtree := by
  simp only [subtree, descendants, List.cons.injEq, true_and]
  rcases sizeIs : document.size with _ | levels
  · have outside : document.size ≤ id.index := by omega
    simp [descendantsWithin, children_of_size_le outside]
  · simp only [descendantsWithin]
    refine List.flatMap_congr fun child isChild => ?_
    have deeper := depth_of_parent wellFormed ((wellFormed.mem_children_iff _ _).mp isChild)
    have deepEnough : document.descendantsWithin (levels + 1) child =
        document.descendantsWithin levels child :=
      descendantsWithin_eq wellFormed (by omega) (by omega)
    rw [subtree, descendants, sizeIs, deepEnough]

end Descendants

/-! ## The smallest document -/

theorem parent_withRoot (name : String) (id : NodeId) : (withRoot name).parent id = none := by
  rcases id with ⟨_ | index⟩ <;> rfl

theorem children_withRoot (name : String) (id : NodeId) : (withRoot name).children id = [] := by
  rcases id with ⟨_ | index⟩ <;> rfl

theorem wellFormed_withRoot (name : String) : (withRoot name).WellFormed where
  mem_children_iff parent child := by simp [parent_withRoot, children_withRoot]
  nodup_children parent := by simp [children_withRoot]
  layered := ⟨fun _ => 0, by simp [parent_withRoot]⟩
  root_lt := Nat.zero_lt_one

end WordTemplate.Document
