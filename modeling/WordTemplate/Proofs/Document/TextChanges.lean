import WordTemplate.Proofs.Document.Neutral
import WordTemplate.Proofs.Document.Steps
import WordTemplate.Proofs.Document.TextOrder

/-!
# Changes of the text below a node

The text nodes of a subtree are determined by its child lists and by which of its nodes are text.
Detaching a node takes its text out, and a detached node that is placed brings its text in at one
place.
-/

namespace WordTemplate.Document

variable {document before after : Document} {id top parent child node text : NodeId}
  {left right : List NodeId}

/-- Text below a node shows no change that happens elsewhere. -/
theorem texts_congr (wellFormed : before.WellFormed) (wellFormed' : after.WellFormed)
    (same : ∀ id, before.LiesIn top id →
      after.children id = before.children id ∧ after.isText id = before.isText id) :
    after.texts top = before.texts top := by
  induction top using wellFormed.induction_children with
  | step top inductionHypothesis =>
      rw [texts_eq wellFormed, texts_eq wellFormed', (same top LiesIn.refl).1,
        (same top LiesIn.refl).2]
      congr 1
      refine List.flatMap_congr fun child isChild => ?_
      have isParent := (wellFormed.mem_children_iff _ _).mp isChild
      exact inductionHypothesis child isChild fun id below =>
        same id (below.trans (LiesIn.parent isParent))

section Additions

variable (wellFormed : before.WellFormed) (wellFormed' : after.WellFormed)
  (content_eq : ∀ id, id.index < before.size → after.content id = before.content id)
  (children_eq : ∀ id,
    (after.children id).filter (fun child => child.index < before.size) = before.children id)
  (silent : ∀ id, before.size ≤ id.index → id.index < after.size → after.isText id = false)
include wellFormed wellFormed' content_eq children_eq silent

/-- Nodes that were added and are no text do not show in the text below the nodes around them. -/
theorem texts_of_additions (inStore : id.index < after.size) :
    after.texts id = if id.index < before.size then before.texts id else [] := by
  induction id using wellFormed'.induction_children with
  | step id inductionHypothesis =>
      have each : ∀ child ∈ after.children id, after.texts child =
          if child.index < before.size then before.texts child else [] := fun child isChild =>
        inductionHypothesis child isChild (lt_size_of_mem_children wellFormed' isChild)
      have below : (after.children id).flatMap after.texts =
          (before.children id).flatMap before.texts := by
        have dropped : ∀ child ∈ after.children id, decide (child.index < before.size) = false →
            after.texts child = [] :=
          fun child isChild isNew => (each child isChild).trans (if_neg (of_decide_eq_false isNew))
        rw [← flatMap_filter_of_silent dropped, children_eq]
        refine List.flatMap_congr fun child isChild => ?_
        have isOld := lt_size_of_mem_children wellFormed isChild
        rw [← children_eq id] at isChild
        rw [each child (List.mem_of_mem_filter isChild), if_pos isOld]
      rw [texts_eq wellFormed', below]
      by_cases isOld : id.index < before.size
      · have isText_eq : after.isText id = before.isText id := by
          simp only [isText, text?, content_eq id isOld]
        rw [if_pos isOld, texts_eq wellFormed, isText_eq]
      · rw [if_neg isOld, silent id (Nat.le_of_not_lt isOld) inStore,
          children_of_size_le (Nat.le_of_not_lt isOld)]
        rfl

theorem textContent_of_additions (size_le : before.size ≤ after.size) (isOld : id.index < before.size) :
    after.textContent id = before.textContent id := by
  rw [textContent_eq, textContent_eq, texts_of_additions wellFormed wellFormed' content_eq children_eq
    silent (Nat.lt_of_lt_of_le isOld size_le), if_pos isOld]
  congr 1
  refine List.map_congr_left fun text isText => ?_
  simp only [textOf, text?, content_eq text (lt_size_of_mem_texts wellFormed isOld isText)]

end Additions

/-- A change of the children of one node shows in the text of the nodes around it at one place. -/
theorem exists_texts_around_change (wellFormed : before.WellFormed) (wellFormed' : after.WellFormed)
    (same : ∀ id, before.LiesIn top id → id ≠ parent → after.children id = before.children id)
    (isText_eq : ∀ id, before.LiesIn top id → after.isText id = before.isText id)
    (inside : before.LiesIn top parent) :
    ∃ left right,
      before.texts top = left ++ (before.children parent).flatMap before.texts ++ right ∧
      after.texts top = left ++ (after.children parent).flatMap after.texts ++ right := by
  induction inside with
  | refl =>
      refine ⟨if before.isText parent then [parent] else [], [], ?_, ?_⟩
      · rw [texts_eq wellFormed, List.append_nil]
      · rw [texts_eq wellFormed', isText_eq parent LiesIn.refl, List.append_nil]
  | @tail child top inside isParent inductionHypothesis =>
      have isParent : before.parent child = some top := isParent
      have inside : before.LiesIn child parent := inside
      have below : ∀ {id}, before.LiesIn child id → before.LiesIn top id :=
        fun lies => lies.trans (LiesIn.parent isParent)
      rcases inductionHypothesis (fun id lies => same id (below lies))
        (fun id lies => isText_eq id (below lies)) with ⟨left, right, whole, whole'⟩
      have differ : top ≠ parent := by
        rintro rfl
        exact not_liesIn_of_parent wellFormed isParent inside
      have isChild := (wellFormed.mem_children_iff _ _).mpr isParent
      rcases List.append_of_mem isChild with ⟨earlier, later, children⟩
      have nodup := wellFormed.nodup_children top
      rw [children, List.nodup_middle, List.nodup_cons] at nodup
      have unchanged : ∀ sibling ∈ earlier ++ later, after.texts sibling = before.texts sibling := by
        intro sibling isSibling
        have isSiblingChild : sibling ∈ before.children top := by
          rw [children]
          rcases List.mem_append.mp isSibling with isEarlier | isLater
          · exact List.mem_append_left _ isEarlier
          · exact List.mem_append_right _ (List.mem_cons_of_mem _ isLater)
        have siblingParent := (wellFormed.mem_children_iff _ _).mp isSiblingChild
        have distinct : child ≠ sibling := by
          rintro rfl
          exact nodup.1 isSibling
        refine texts_congr wellFormed wellFormed' fun id lies => ?_
        have around := lies.trans (LiesIn.parent siblingParent)
        refine ⟨same id around ?_, isText_eq id around⟩
        rintro rfl
        exact not_liesIn_of_siblings wellFormed isParent siblingParent distinct inside lies
      refine ⟨(if before.isText top then [top] else []) ++ earlier.flatMap before.texts ++ left,
        right ++ later.flatMap before.texts, ?_, ?_⟩
      · rw [texts_eq wellFormed, children, List.flatMap_append, List.flatMap_cons, whole]
        simp
      · have earlierSame := List.flatMap_congr fun sibling isEarlier =>
          unchanged sibling (List.mem_append_left _ isEarlier)
        have laterSame := List.flatMap_congr fun sibling isLater =>
          unchanged sibling (List.mem_append_right _ isLater)
        rw [texts_eq wellFormed', same top LiesIn.refl differ, children, List.flatMap_append,
          List.flatMap_cons, whole', isText_eq top LiesIn.refl, earlierSame, laterSame]
        simp

/-! ## Detaching -/

theorem isText_detach (wellFormed : document.WellFormed) (node id : NodeId) :
    (document.detach node).isText id = document.isText id := by
  rw [isText, isText, text?, text?, content_detach wellFormed]

/-- Detaching a node takes out its text. -/
theorem texts_detach (wellFormed : document.WellFormed) (apart : ¬document.LiesIn node top) :
    (document.detach node).texts top =
      (document.texts top).filter fun text => !document.contains node text := by
  induction top using wellFormed.induction_children with
  | step top inductionHypothesis =>
      have top_kept : document.contains node top = false := by
        rw [← Bool.not_eq_true, contains_iff wellFormed]
        exact apart
      have children_kept : ∀ children : List NodeId, (∀ child ∈ children,
          document.parent child = some top) →
          (children.filter (· != node)).flatMap (document.detach node).texts =
            (children.flatMap document.texts).filter fun text => !document.contains node text := by
        intro children
        induction children with
        | nil => exact fun _ => rfl
        | cons child children laterChildren =>
            intro isParent
            have later := laterChildren fun other isMember =>
              isParent other (List.mem_cons_of_mem _ isMember)
            have childParent := isParent child List.mem_cons_self
            rw [List.flatMap_cons, List.filter_append, ← later]
            by_cases isNode : child = node
            · subst isNode
              have dropped : (document.texts child).filter
                  (fun text => !document.contains child text) = [] := by
                refine List.filter_eq_nil_iff.mpr fun text isMember => ?_
                have inside := ((mem_texts_iff wellFormed).mp isMember).1
                simp [(contains_iff wellFormed).mpr inside]
              rw [dropped, List.filter_cons_of_neg (by simp), List.nil_append]
            · have apartChild : ¬document.LiesIn node child := by
                intro inside
                rcases inside.cases_above childParent with same | above
                · exact isNode same
                · exact apart above
              rw [List.filter_cons_of_pos (by simpa using isNode), List.flatMap_cons,
                inductionHypothesis child ((wellFormed.mem_children_iff _ _).mpr childParent)
                  apartChild]
      rw [texts_eq (wellFormed.detach node), texts_eq wellFormed, isText_detach wellFormed,
        children_detach wellFormed, List.filter_append, children_kept _ fun child isChild =>
          (wellFormed.mem_children_iff _ _).mp isChild]
      split
      · simp [top_kept]
      · rfl

/-- Detaching never adds text. -/
theorem sublist_texts_detach (wellFormed : document.WellFormed) (node top : NodeId) :
    ((document.detach node).texts top).Sublist (document.texts top) := by
  by_cases apart : document.LiesIn node top
  · have same : (document.detach node).texts top = document.texts top := by
      refine texts_congr wellFormed (wellFormed.detach node) fun id inside =>
        ⟨?_, isText_detach wellFormed node id⟩
      rw [children_detach wellFormed]
      refine filter_children_of_ne wellFormed fun isParent => ?_
      exact not_liesIn_of_parent wellFormed isParent (inside.trans apart)
    rw [same]
  · rw [texts_detach wellFormed apart]
    exact List.filter_sublist

/-! ## Placing a detached node -/

section Place

variable (moves : Moves before after node parent left right) (wellFormed : before.WellFormed)
  (detached : before.parent node = none)
include moves wellFormed detached

omit wellFormed detached in
theorem Moves.isText_eq (id : NodeId) : after.isText id = before.isText id := by
  rw [isText, isText, text?, text?, moves.content_eq]

omit wellFormed detached in
theorem Moves.isNamed_eq (id : NodeId) (name : String) :
    after.isNamed id name = before.isNamed id name :=
  isNamed_of_content_eq (moves.content_eq _) name

omit wellFormed detached in
/-- What lies in a node after a move lay in it before or came in with the node that was moved. -/
theorem Moves.liesIn_cases (inside : after.LiesIn top id) :
    before.LiesIn top id ∨ before.LiesIn node id ∧ before.LiesIn top parent := by
  induction inside using Relation.ReflTransGen.head_induction_on with
  | refl => exact Or.inl LiesIn.refl
  | @head id upper isUpper _ inductionHypothesis =>
      rw [moves.parent_eq] at isUpper
      split at isUpper
      · next same =>
        cases isUpper
        refine Or.inr ⟨same ▸ LiesIn.refl, ?_⟩
        rcases inductionHypothesis with above | ⟨below, -⟩
        · exact above
        · exact absurd below moves.outside
      · rcases inductionHypothesis with above | ⟨below, above⟩
        · exact Or.inl (LiesIn.of_parent isUpper above)
        · exact Or.inr ⟨LiesIn.of_parent isUpper below, above⟩

omit detached in
theorem Moves.child_cases (isChild : child ∈ after.children id) :
    child = node ∧ id = parent ∨ child ∈ before.children id := by
  rw [moves.wellFormed.mem_children_iff, moves.parent_eq] at isChild
  split at isChild
  · next same =>
      rw [Option.some.injEq] at isChild
      exact Or.inl ⟨same, isChild.symm⟩
  · exact Or.inr ((wellFormed.mem_children_iff _ _).mpr isChild)

theorem Moves.children_of_ne (differ : id ≠ parent) : after.children id = before.children id := by
  rw [moves.children_eq, if_neg differ, filter_children_of_parent_none wellFormed detached]

theorem Moves.children_parent : before.children parent = left ++ right := by
  rw [← moves.others_eq, filter_children_of_parent_none wellFormed detached]

/-- The text of a placed node comes in behind that of the siblings before it. -/
theorem Moves.texts_around (inside : before.LiesIn top parent) :
    ∃ outerLeft outerRight,
      before.texts top = outerLeft ++ (left ++ right).flatMap before.texts ++ outerRight ∧
      after.texts top = outerLeft ++ (left ++ node :: right).flatMap before.texts ++ outerRight := by
  have isText_eq := moves.isText_eq
  rcases exists_texts_around_change wellFormed moves.wellFormed
    (fun id _ differ => moves.children_of_ne wellFormed detached differ)
    (fun id _ => isText_eq id) inside with ⟨outerLeft, outerRight, whole, whole'⟩
  refine ⟨outerLeft, outerRight, ?_, ?_⟩
  · rw [whole, moves.children_parent wellFormed detached]
  · rw [whole', moves.children_eq, if_pos rfl]
    congr 2
    refine List.flatMap_congr fun child isChild => ?_
    refine texts_congr wellFormed moves.wellFormed fun id below => ⟨?_, isText_eq id⟩
    refine moves.children_of_ne wellFormed detached ?_
    rintro rfl
    have childParent : child = node ∨ before.parent child = some id := by
      rw [← wellFormed.mem_children_iff, moves.children_parent wellFormed detached]
      simpa [or_left_comm] using isChild
    rcases childParent with rfl | isParent
    · exact moves.outside below
    · exact not_liesIn_of_parent wellFormed isParent below

theorem Moves.texts_outside (outside : ¬before.LiesIn top parent) :
    after.texts top = before.texts top := by
  refine texts_congr wellFormed moves.wellFormed fun id below =>
    ⟨moves.children_of_ne wellFormed detached ?_, moves.isText_eq id⟩
  rintro rfl
  exact outside below

end Place

/-! ## Adding nodes and changing what they carry -/

theorem texts_add (wellFormed : document.WellFormed) (content : Content)
    (inStore : top.index < document.size) : (document.add content).texts top = document.texts top := by
  refine texts_congr wellFormed (wellFormed.add content) fun id below => ⟨children_add _ _ _, ?_⟩
  have isOld : id ≠ document.nextId := by
    rintro rfl
    exact Nat.lt_irrefl _ (lt_size_below below inStore)
  rw [isText, isText, text?, text?, content_add, if_neg isOld]

end WordTemplate.Document
