import WordTemplate.Proofs.Document.WellFormed

/-!
# Document order

`Document.subtree` lists the nodes of a subtree in document order. In a well-formed document it
lists every node that lies in the subtree exactly once, and the subtrees of consecutive children
stand side by side in the list of every subtree around them.
-/

namespace WordTemplate.Document

variable {document : Document} {id other top child parent : NodeId}

/-- A node stays below another one while the parents between them stay. -/
theorem LiesIn.of_parent_eq {document' : Document} (inside : document.LiesIn top id)
    (parent_eq : ∀ other, document.LiesIn other id → document.LiesIn top other → other ≠ top →
      document'.parent other = document.parent other) (wellFormed : document.WellFormed) :
    document'.LiesIn top id := by
  induction inside using Relation.ReflTransGen.head_induction_on with
  | refl => exact LiesIn.refl
  | @head id parent isParent above inductionHypothesis =>
      have isParent : document.parent id = some parent := isParent
      have above : document.LiesIn top parent := above
      have differ : id ≠ top := by
        rintro rfl
        rcases wellFormed.layered with ⟨level, layers⟩
        have deeper := layers _ _ isParent
        have shallower := above.level_le layers
        omega
      refine LiesIn.of_parent (parent_eq id LiesIn.refl (LiesIn.of_parent isParent above) differ ▸
        isParent) (inductionHypothesis fun other around below distinct => ?_)
      exact parent_eq other (LiesIn.of_parent isParent around) below distinct

/-- No node lies in the subtree of one of its children. -/
theorem not_liesIn_of_parent (wellFormed : document.WellFormed)
    (isParent : document.parent child = some parent) : ¬document.LiesIn child parent := by
  intro inside
  rcases wellFormed.layered with ⟨level, layers⟩
  have deeper := layers _ _ isParent
  have shallower := inside.level_le layers
  omega

theorem ne_of_parent (wellFormed : document.WellFormed)
    (isParent : document.parent child = some parent) : child ≠ parent := by
  rintro rfl
  exact not_liesIn_of_parent wellFormed isParent LiesIn.refl

/-- The subtrees of different children of a node share no node. -/
theorem not_liesIn_of_siblings (wellFormed : document.WellFormed)
    (isParent : document.parent child = some parent)
    (isSibling : document.parent other = some parent) (differ : child ≠ other)
    (inside : document.LiesIn child id) : ¬document.LiesIn other id := by
  intro insideOther
  have apart : ∀ {first second : NodeId}, document.parent first = some parent →
      document.parent second = some parent → first ≠ second →
      ¬document.LiesIn first second := by
    intro first second firstParent secondParent distinct secondInside
    rcases secondInside.cases_above secondParent with same | above
    · exact distinct same.symm
    · exact not_liesIn_of_parent wellFormed firstParent above
  rcases inside.total insideOther with below | below
  · exact apart isParent isSibling differ below
  · exact apart isSibling isParent differ.symm below

/-- The subtrees of two detached nodes share no node. -/
theorem eq_of_liesIn_detached (detached : document.parent top = none)
    (detachedOther : document.parent other = none) (inside : document.LiesIn top id)
    (insideOther : document.LiesIn other id) : top = other := by
  rcases inside.total insideOther with below | below
  · exact (below.eq_of_parent_none detachedOther).symm
  · exact below.eq_of_parent_none detached

theorem mem_subtree_iff (wellFormed : document.WellFormed) :
    id ∈ document.subtree top ↔ document.LiesIn top id := by
  induction top using wellFormed.induction_children with
  | step top inductionHypothesis =>
      rw [subtree_eq wellFormed, List.mem_cons, List.mem_flatMap]
      constructor
      · rintro (rfl | ⟨child, isChild, inside⟩)
        · exact LiesIn.refl
        · exact ((inductionHypothesis child isChild).mp inside).trans
            (LiesIn.parent ((wellFormed.mem_children_iff _ _).mp isChild))
      · intro inside
        rcases inside.cases_child with same | ⟨child, isParent, below⟩
        · exact Or.inl same
        · have isChild := (wellFormed.mem_children_iff _ _).mpr isParent
          exact Or.inr ⟨child, isChild, (inductionHypothesis child isChild).mpr below⟩

theorem mem_subtree_self (document : Document) (id : NodeId) : id ∈ document.subtree id :=
  List.mem_cons_self

/-- No node occurs twice in a subtree. -/
theorem nodup_subtree (wellFormed : document.WellFormed) (top : NodeId) :
    (document.subtree top).Nodup := by
  induction top using wellFormed.induction_children with
  | step top inductionHypothesis =>
      have parentOf : ∀ child ∈ document.children top, document.parent child = some top :=
        fun child => (wellFormed.mem_children_iff top child).mp
      rw [subtree_eq wellFormed, List.nodup_cons]
      constructor
      · intro repeated
        rcases List.mem_flatMap.mp repeated with ⟨child, isChild, inside⟩
        exact not_liesIn_of_parent wellFormed (parentOf child isChild)
          ((mem_subtree_iff wellFormed).mp inside)
      · refine List.nodup_flatMap.mpr ⟨inductionHypothesis, ?_⟩
        refine (wellFormed.nodup_children top).imp_of_mem ?_
        intro first second isFirst isSecond distinct id insideFirst insideSecond
        exact not_liesIn_of_siblings wellFormed (parentOf first isFirst)
          (parentOf second isSecond) distinct ((mem_subtree_iff wellFormed).mp insideFirst)
          ((mem_subtree_iff wellFormed).mp insideSecond)

/-- A subtree is a stretch of the document order of every subtree around it. -/
theorem subtree_split (wellFormed : document.WellFormed) (inside : document.LiesIn top id) :
    ∃ before after, document.subtree top = before ++ document.subtree id ++ after := by
  induction inside using Relation.ReflTransGen.head_induction_on with
  | refl => exact ⟨[], [], by simp⟩
  | @head id parent isParent _ inductionHypothesis =>
      rcases inductionHypothesis with ⟨before, after, around⟩
      have isChild := (wellFormed.mem_children_iff _ _).mpr isParent
      rcases List.append_of_mem isChild with ⟨left, right, siblings⟩
      refine ⟨before ++ parent :: left.flatMap document.subtree,
        right.flatMap document.subtree ++ after, ?_⟩
      rw [around, subtree_eq wellFormed parent, siblings]
      simp

/-- Consecutive children are a stretch of the document order of every subtree around them. -/
theorem subtree_split_children (wellFormed : document.WellFormed)
    (inside : document.LiesIn top parent) {left middle right : List NodeId}
    (siblings : document.children parent = left ++ middle ++ right) :
    ∃ before after,
      document.subtree top = before ++ middle.flatMap document.subtree ++ after := by
  rcases subtree_split wellFormed inside with ⟨before, after, around⟩
  refine ⟨before ++ parent :: left.flatMap document.subtree,
    right.flatMap document.subtree ++ after, ?_⟩
  rw [around, subtree_eq wellFormed parent, siblings]
  simp

/-- Detached nodes list no node twice in their subtrees taken together. -/
theorem nodup_flatMap_subtree (wellFormed : document.WellFormed) {tops : List NodeId}
    (nodup : tops.Nodup) (detached : ∀ top ∈ tops, document.parent top = none) :
    (tops.flatMap document.subtree).Nodup := by
  refine List.nodup_flatMap.mpr ⟨fun top _ => nodup_subtree wellFormed top, ?_⟩
  refine nodup.imp_of_mem ?_
  intro first second isFirst isSecond distinct id insideFirst insideSecond
  exact distinct <| eq_of_liesIn_detached (detached first isFirst) (detached second isSecond)
    ((mem_subtree_iff wellFormed).mp insideFirst) ((mem_subtree_iff wellFormed).mp insideSecond)

/-- Lists of lists are sublists of each other if their parts are. -/
theorem sublist_flatMap {ids ids' : List NodeId} {parts parts' : NodeId → List NodeId}
    (outer : ids.Sublist ids') (inner : ∀ id ∈ ids, (parts id).Sublist (parts' id)) :
    (ids.flatMap parts).Sublist (ids'.flatMap parts') := by
  induction outer with
  | slnil => simp
  | cons id _ inductionHypothesis =>
      exact (inductionHypothesis inner).trans (by simp [List.flatMap_cons])
  | cons_cons id _ inductionHypothesis =>
      simp only [List.flatMap_cons]
      exact (inner id List.mem_cons_self).append
        (inductionHypothesis fun other isMember => inner other (List.mem_cons_of_mem _ isMember))

/-- A list without repetitions falls apart at a node in one way only. -/
theorem append_cons_inj {text : NodeId} {left right left' right' : List NodeId}
    (nodup : (left ++ text :: right).Nodup) (same : left ++ text :: right = left' ++ text :: right') :
    left = left' ∧ right = right' := by
  have nodup' := nodup
  rw [List.nodup_middle, List.nodup_cons] at nodup'
  have equal := (List.append_cons_inj_of_notMem
    (fun isMember => nodup'.1 (List.mem_append_left _ isMember))
    (fun isMember => nodup'.1 (List.mem_append_right _ isMember))).mp same
  exact ⟨equal.1, equal.2.2⟩

theorem filter_ne_of_not_mem {text : NodeId} {ids : List NodeId} (notMember : text ∉ ids) :
    ids.filter (· != text) = ids :=
  List.filter_eq_self.mpr fun id isMember => by
    rw [bne_iff_ne]
    rintro rfl
    exact notMember isMember

/-- What is left of a list when a stretch of it is taken out of which nothing is beside it. -/
theorem filter_not_mem_append {left middle right : List NodeId} (leftApart : ∀ id ∈ left, id ∉ middle)
    (rightApart : ∀ id ∈ right, id ∉ middle) :
    (left ++ middle ++ right).filter (· ∉ middle) = left ++ right := by
  have keeps {ids : List NodeId} (apart : ∀ id ∈ ids, id ∉ middle) : ids.filter (· ∉ middle) = ids :=
    List.filter_eq_self.mpr fun id isMember => by simpa using apart id isMember
  have drops : middle.filter (· ∉ middle) = [] := List.filter_eq_nil_iff.mpr (by simp)
  rw [List.filter_append, List.filter_append, keeps leftApart, drops, keeps rightApart,
    List.append_nil]

/-- What is left of a list without repetitions when its middle is taken out. -/
theorem filter_not_mem_middle {left middle right : List NodeId} (nodup : (left ++ middle ++ right).Nodup) :
    (left ++ middle ++ right).filter (· ∉ middle) = left ++ right := by
  rw [List.append_assoc, List.nodup_append] at nodup
  rcases nodup with ⟨-, nodup, apart⟩
  have apart' := (List.nodup_append.mp nodup).2.2
  exact filter_not_mem_append
    (fun id isLeft isMiddle => apart id isLeft id (List.mem_append_left right isMiddle) rfl)
    fun id isRight isMiddle => apart' id isMiddle id isRight rfl

/-- A list without repetitions that ends with its first node has no other node. -/
theorem eq_nil_of_getLast? {first : NodeId} {rest : List NodeId} (nodup : (first :: rest).Nodup)
    (isLast : (first :: rest).getLast? = some first) : rest = [] := by
  rcases rest with _ | ⟨second, rest⟩
  · rfl
  · rw [List.getLast?_cons_cons] at isLast
    exact absurd (List.mem_of_getLast? isLast) (List.nodup_cons.mp nodup).1

theorem filter_ne_append_cons {text : NodeId} {left right : List NodeId}
    (nodup : (left ++ text :: right).Nodup) :
    (left ++ text :: right).filter (· != text) = left ++ right := by
  rw [List.nodup_middle, List.nodup_cons] at nodup
  rw [List.filter_append, filter_ne_of_not_mem fun isMember => nodup.1 (List.mem_append_left _ isMember),
    List.filter_cons_of_neg (by simp),
    filter_ne_of_not_mem fun isMember => nodup.1 (List.mem_append_right _ isMember)]

end WordTemplate.Document
