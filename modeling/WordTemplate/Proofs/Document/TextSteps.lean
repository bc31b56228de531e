import Mathlib.Logic.Function.Iterate
import WordTemplate.Proofs.Operations
import WordTemplate.Proofs.Word.Leading

/-!
# Steps from text to text

The search for the next or the previous text node looks at one sibling after the other and climbs to
the parent where there is none left. It comes to an end in every well-formed document, and what it
finds is the neighbour in document order, so that the steps forward from the first text node of a
tree meet each of its text nodes once and the steps back undo them.
-/

namespace WordTemplate.Document

variable {document : Document} {id parent sibling text other top : NodeId} {ids stack : List NodeId}
  {beside? inside? : NodeId → Option NodeId} {beside : NodeId → List NodeId}
  {result result' : Option NodeId}

/-! ## The walk through a subtree -/

/-- A stack of nodes is emptied from its top, and each node that is taken off leaves its children on
it. The second list holds the nodes in the order in which they are taken off. -/
inductive Unstacks (document : Document) : List NodeId → List NodeId → Prop where
  | done : Unstacks document [] []
  | take {id : NodeId} {stack rest : List NodeId}
      (onwards : Unstacks document (document.children id ++ stack) rest) :
      Unstacks document (id :: stack) (id :: rest)

/-- Subtrees on the stack are walked through before what lies under them. -/
theorem Unstacks.subtrees
    (each : ∀ id ∈ ids, ∀ {stack rest}, document.Unstacks stack rest →
      document.Unstacks (id :: stack) (document.subtree id ++ rest))
    {rest : List NodeId} (later : document.Unstacks stack rest) :
    document.Unstacks (ids ++ stack) (ids.flatMap document.subtree ++ rest) := by
  induction ids with
  | nil => exact later
  | cons id ids inductionHypothesis =>
      rw [List.flatMap_cons, List.append_assoc]
      exact each id List.mem_cons_self
        (inductionHypothesis fun other isOther => each other (List.mem_cons_of_mem _ isOther))

theorem Unstacks.subtree (wellFormed : document.WellFormed) (id : NodeId) {rest : List NodeId}
    (later : document.Unstacks stack rest) :
    document.Unstacks (id :: stack) (document.subtree id ++ rest) := by
  induction id using wellFormed.induction_children generalizing stack rest with
  | step id inductionHypothesis =>
      rw [subtree_eq wellFormed, List.cons_append]
      exact .take (Unstacks.subtrees (fun child isChild _ _ => inductionHypothesis child isChild) later)

/-- The walk that starts with the children of a node lists what lies below the node. -/
theorem unstacks_descendants (wellFormed : document.WellFormed) (id : NodeId) :
    document.Unstacks (document.children id) (document.descendants id) := by
  have walk := Unstacks.subtrees (fun child (_ : child ∈ document.children id) _ _ later =>
    Unstacks.subtree wellFormed child later) .done
  have below : document.descendants id = (document.children id).flatMap document.subtree := by
    have whole := subtree_eq wellFormed id
    rw [Document.subtree, List.cons.injEq] at whole
    exact whole.2
  simpa [below] using walk

/-! ## The search beside a node -/

/-- A search that looks into the sibling beside a node, goes on beside that sibling if nothing is
found in it, and climbs to the parent if there is no sibling. The search is at its end at a node
without sibling and parent. -/
inductive Seeks (document : Document) (beside? inside? : NodeId → Option NodeId) :
    NodeId → Option NodeId → Prop where
  | finds {id sibling found : NodeId} (isBeside : beside? id = some sibling)
      (isInside : inside? sibling = some found) : Seeks document beside? inside? id (some found)
  | passes {id sibling : NodeId} {result : Option NodeId} (isBeside : beside? id = some sibling)
      (nothing : inside? sibling = none) (onwards : Seeks document beside? inside? sibling result) :
      Seeks document beside? inside? id result
  | climbs {id parent : NodeId} {result : Option NodeId} (alone : beside? id = none)
      (isParent : document.parent id = some parent)
      (onwards : Seeks document beside? inside? parent result) :
      Seeks document beside? inside? id result
  | ends {id : NodeId} (alone : beside? id = none) (atTop : document.parent id = none) :
      Seeks document beside? inside? id none

/-- A search has one result. -/
theorem Seeks.unique (seeks : document.Seeks beside? inside? id result)
    (seeks' : document.Seeks beside? inside? id result') : result = result' := by
  induction seeks with
  | finds isBeside isInside => cases seeks' <;> simp_all
  | passes isBeside nothing _ inductionHypothesis =>
      cases seeks' with
      | passes isBeside' _ onwards => exact inductionHypothesis (by simp_all)
      | _ => simp_all
  | climbs alone isParent _ inductionHypothesis =>
      cases seeks' with
      | climbs _ isParent' onwards => exact inductionHypothesis (by simp_all)
      | _ => simp_all
  | ends alone atTop => cases seeks' <;> simp_all

theorem ancestors_eq_of_parent_eq (wellFormed : document.WellFormed)
    (same : document.parent other = document.parent id) :
    document.ancestors other = document.ancestors id := by
  rcases isParent : document.parent id with _ | parent
  · rw [ancestors_of_parent_none isParent, ancestors_of_parent_none (same.trans isParent)]
  · rw [ancestors_of_parent wellFormed isParent, ancestors_of_parent wellFormed (same.trans isParent)]

/-- A search among the siblings of a node and of its ancestors is one that goes from sibling to
sibling, if the siblings of a sibling are those behind it. -/
theorem seeks_findSome? (wellFormed : document.WellFormed)
    (behind : ∀ id sibling rest, beside id = sibling :: rest →
      document.parent sibling = document.parent id ∧ beside sibling = rest) (id : NodeId) :
    document.Seeks (fun id => (beside id).head?) inside? id
      ((id :: document.ancestors id).findSome? fun level => (beside level).findSome? inside?) := by
  induction id using wellFormed.induction_parent with
  | step id inductionHypothesis =>
      -- The siblings have the same ancestors, so they are searched by induction on those that are left.
      suffices searched : ∀ siblings other, document.parent other = document.parent id →
          beside other = siblings → document.Seeks (fun id => (beside id).head?) inside? other
            ((other :: document.ancestors other).findSome? fun level =>
              (beside level).findSome? inside?) from searched _ id rfl rfl
      intro siblings
      induction siblings with
      | nil =>
          intro other same isBeside
          have alone : (beside other).head? = none := by rw [isBeside, List.head?_nil]
          rw [List.findSome?_cons, isBeside, List.findSome?_nil]
          rcases isParent : document.parent id with _ | parent
          · rw [ancestors_of_parent_none (same.trans isParent)]
            exact .ends alone (same.trans isParent)
          · rw [ancestors_of_parent wellFormed (same.trans isParent)]
            exact .climbs alone (same.trans isParent) (inductionHypothesis parent isParent)
      | cons sibling rest siblingsHypothesis =>
          intro other same isBeside
          have isNext : (beside other).head? = some sibling := by rw [isBeside, List.head?_cons]
          rcases behind other sibling rest isBeside with ⟨sameParent, areBehind⟩
          rw [List.findSome?_cons, isBeside, List.findSome?_cons]
          rcases isInside : inside? sibling with _ | found
          · have onwards := siblingsHypothesis sibling (sameParent.trans same) areBehind
            rw [List.findSome?_cons, areBehind, ancestors_eq_of_parent_eq wellFormed sameParent] at onwards
            exact .passes isNext isInside onwards
          · exact .finds isNext isInside

theorem laterSiblings_behind (wellFormed : document.WellFormed) {rest : List NodeId}
    (later : document.laterSiblings id = sibling :: rest) :
    document.parent sibling = document.parent id ∧ document.laterSiblings sibling = rest := by
  rcases isParent : document.parent id with _ | parent
  · simp [laterSiblings, siblings, isParent] at later
  · rcases siblings_around wellFormed isParent with ⟨left, right, around, -, isLater⟩
    obtain rfl : right = sibling :: rest := isLater.symm.trans later
    have isSibling : document.parent sibling = some parent := by
      refine (wellFormed.mem_children_iff _ _).mp ?_
      rw [around]
      simp
    rcases siblings_around wellFormed isSibling with ⟨left', right', around', -, isLater'⟩
    have nodup := wellFormed.nodup_children parent
    rw [around'] at nodup
    have same : left' ++ sibling :: right' = (left ++ [id]) ++ sibling :: rest := by
      rw [← around', around]
      simp
    exact ⟨isSibling, isLater'.trans (append_cons_inj nodup same).2⟩

theorem earlierSiblings_behind (wellFormed : document.WellFormed) {rest : List NodeId}
    (earlier : document.earlierSiblings id = sibling :: rest) :
    document.parent sibling = document.parent id ∧ document.earlierSiblings sibling = rest := by
  rcases isParent : document.parent id with _ | parent
  · simp [earlierSiblings, siblings, isParent] at earlier
  · rcases siblings_around wellFormed isParent with ⟨left, right, around, isEarlier, -⟩
    have isLeft : left = rest.reverse ++ [sibling] := by
      rw [← List.reverse_reverse left, ← isEarlier, earlier, List.reverse_cons]
    have isSibling : document.parent sibling = some parent := by
      refine (wellFormed.mem_children_iff _ _).mp ?_
      rw [around, isLeft]
      simp
    rcases siblings_around wellFormed isSibling with ⟨left', right', around', isEarlier', -⟩
    have nodup := wellFormed.nodup_children parent
    rw [around'] at nodup
    have same : left' ++ sibling :: right' = rest.reverse ++ sibling :: (id :: right) := by
      rw [← around', around, isLeft]
      simp
    rw [isEarlier', (append_cons_inj nodup same).1, List.reverse_reverse]
    exact ⟨isSibling, rfl⟩

/-- The next text node is what the search among the later siblings comes to. -/
theorem seeks_nextText? (wellFormed : document.WellFormed) (id : NodeId) :
    document.Seeks document.nextSibling? document.firstText? id (document.nextText? id) :=
  seeks_findSome? wellFormed (fun _ _ _ => laterSiblings_behind wellFormed) id

/-- The previous text node is what the search among the earlier siblings comes to. -/
theorem seeks_previousText? (wellFormed : document.WellFormed) (id : NodeId) :
    document.Seeks document.previousSibling? document.lastText? id (document.previousText? id) :=
  seeks_findSome? wellFormed (fun _ _ _ => earlierSiblings_behind wellFormed) id

/-! ## Neighbours -/

/-- Nothing precedes a node without a parent. -/
theorem precedingTexts_of_parent_none (detached : document.parent top = none) :
    document.precedingTexts top = [] := by
  have noSiblings : document.earlierSiblings top = [] := by
    rw [earlierSiblings, siblings, detached]
    rfl
  simp [precedingTexts, ancestors_of_parent_none detached, noSiblings]

section

variable {left right : List NodeId}

/-- The steps from a text node of a whole tree lead to its neighbours. -/
theorem neighbours_of_texts (wellFormed : document.WellFormed) (plain : document.PlainBelow top)
    (detached : document.parent top = none) (whole : document.texts top = left ++ text :: right) :
    document.nextText? text = right.head? ∧ document.previousText? text = left.getLast? := by
  rcases exists_beside_text wellFormed plain whole with ⟨following, preceding⟩
  rw [followingTexts_of_parent_none detached, List.append_nil] at following
  rw [precedingTexts_of_parent_none detached, List.append_nil] at preceding
  rw [nextText?_eq, previousText?_eq, following, preceding, List.head?_reverse]
  exact ⟨rfl, rfl⟩

/-- Steps forward from the first text node of a whole tree list its text nodes. -/
theorem iterate_nextText? (wellFormed : document.WellFormed) (plain : document.PlainBelow top)
    (detached : document.parent top = none) (count : Nat) :
    (fun found : Option NodeId => found.bind document.nextText?)^[count] (document.texts top).head? =
      (document.texts top)[count]? := by
  induction count with
  | zero => rw [Function.iterate_zero_apply, List.head?_eq_getElem?]
  | succ count inductionHypothesis =>
      rw [Function.iterate_succ_apply', inductionHypothesis]
      rcases reached : (document.texts top)[count]? with _ | text
      · rw [List.getElem?_eq_none_iff] at reached
        exact (List.getElem?_eq_none (Nat.le_succ_of_le reached)).symm
      · rcases List.getElem?_eq_some_iff.mp reached with ⟨inList, isText⟩
        have whole : document.texts top =
            (document.texts top).take count ++ text :: (document.texts top).drop (count + 1) := by
          rw [← isText, List.getElem_cons_drop, List.take_append_drop]
        rw [Option.bind_some, (neighbours_of_texts wellFormed plain detached whole).1, List.head?_drop]

/-- A step forward is undone by a step back. -/
theorem previousText?_of_nextText? (wellFormed : document.WellFormed)
    (childless : document.TextChildless) (isText : document.isText text = true)
    (isNext : document.nextText? text = some other) :
    document.isText other = true ∧ document.previousText? other = some text := by
  rcases wellFormed.exists_top text with ⟨top, inside, detached⟩
  have plain : document.PlainBelow top := childless.plainBelow wellFormed top
  rcases List.append_of_mem ((mem_texts_iff wellFormed).mpr ⟨inside, isText⟩) with ⟨left, right, whole⟩
  rw [(neighbours_of_texts wellFormed plain detached whole).1] at isNext
  rcases List.head?_eq_some_iff.mp isNext with ⟨rest, rfl⟩
  have whole' : document.texts top = (left ++ [text]) ++ other :: rest := by
    rw [whole]
    simp
  have isMember : other ∈ document.texts top := by
    rw [whole']
    simp
  refine ⟨((mem_texts_iff wellFormed).mp isMember).2, ?_⟩
  rw [(neighbours_of_texts wellFormed plain detached whole').2, List.getLast?_concat]

/-- A step back is undone by a step forward. -/
theorem nextText?_of_previousText? (wellFormed : document.WellFormed)
    (childless : document.TextChildless) (isText : document.isText text = true)
    (isPrevious : document.previousText? text = some other) :
    document.isText other = true ∧ document.nextText? other = some text := by
  rcases wellFormed.exists_top text with ⟨top, inside, detached⟩
  have plain : document.PlainBelow top := childless.plainBelow wellFormed top
  rcases List.append_of_mem ((mem_texts_iff wellFormed).mpr ⟨inside, isText⟩) with ⟨left, right, whole⟩
  rw [(neighbours_of_texts wellFormed plain detached whole).2] at isPrevious
  rcases List.getLast?_eq_some_iff.mp isPrevious with ⟨rest, rfl⟩
  have whole' : document.texts top = rest ++ other :: text :: right := by
    rw [whole]
    simp
  have isMember : other ∈ document.texts top := by
    rw [whole']
    simp
  refine ⟨((mem_texts_iff wellFormed).mp isMember).2, ?_⟩
  rw [(neighbours_of_texts wellFormed plain detached whole').1, List.head?_cons]

end

/-- The steps from text to text follow the document order of the whole tree: both searches come to
an end, a step leads to the neighbour in document order, steps forward and back undo each other, and
the steps forward from the first text node list every text node of the tree once. -/
theorem textSteps_followOrder (wellFormed : document.WellFormed) (childless : document.TextChildless)
    (isText : document.isText text = true) (isTop : top ∈ text :: document.ancestors text)
    (detached : document.parent top = none) :
    document.Unstacks (document.children top) (document.descendants top) ∧
      (∃ left right, document.texts top = left ++ text :: right ∧
        document.nextText? text = right.head? ∧ document.previousText? text = left.getLast?) ∧
      (∀ result, document.Seeks document.nextSibling? document.firstText? text result ↔
        result = document.nextText? text) ∧
      (∀ result, document.Seeks document.previousSibling? document.lastText? text result ↔
        result = document.previousText? text) ∧
      (∀ other, document.nextText? text = some other ↔
        document.isText other = true ∧ document.previousText? other = some text) ∧
      (∀ other, document.previousText? text = some other ↔
        document.isText other = true ∧ document.nextText? other = some text) ∧
      (document.texts top).Nodup ∧
      ∀ count, (fun found : Option NodeId => found.bind document.nextText?)^[count]
        (document.texts top).head? = (document.texts top)[count]? := by
  have inside : document.LiesIn top text := (mem_cons_ancestors_iff wellFormed).mp isTop
  have plain : document.PlainBelow top := childless.plainBelow wellFormed top
  have forward := seeks_nextText? wellFormed text
  have backward := seeks_previousText? wellFormed text
  refine ⟨unstacks_descendants wellFormed top, ?_, ?_, ?_, ?_, ?_, nodup_texts wellFormed top,
    iterate_nextText? wellFormed plain detached⟩
  · rcases List.append_of_mem ((mem_texts_iff wellFormed).mpr ⟨inside, isText⟩) with
      ⟨left, right, whole⟩
    exact ⟨left, right, whole, neighbours_of_texts wellFormed plain detached whole⟩
  · exact fun result => ⟨fun seeks => seeks.unique forward, fun isNext => isNext ▸ forward⟩
  · exact fun result => ⟨fun seeks => seeks.unique backward, fun isPrevious => isPrevious ▸ backward⟩
  · exact fun other => ⟨previousText?_of_nextText? wellFormed childless isText, fun ⟨isText', isPrevious⟩ =>
      (nextText?_of_previousText? wellFormed childless isText' isPrevious).2⟩
  · exact fun other => ⟨nextText?_of_previousText? wellFormed childless isText, fun ⟨isText', isNext⟩ =>
      (previousText?_of_nextText? wellFormed childless isText' isNext).2⟩

/-- A paragraph with text at different depths. -/
def textAtDepths : Document :=
  .ofTree (Tree.node "w:p" []
    [Tree.node "w:r" [] [Tree.node "w:t" [] [.text "a"]],
      Tree.node "w:ins" [] [Tree.node "w:r" [] [Tree.node "w:tab" [] [], Tree.node "w:t" [] [.text "b"]]],
      .text "c"])

/-- From the text in the insertion the steps lead out of it on both sides. -/
theorem textSteps_followOrder_acrossDepths :
    textAtDepths.WellFormed ∧ textAtDepths.TextChildless ∧ textAtDepths.isText ⟨9⟩ = true ∧
      ⟨1⟩ ∈ (⟨9⟩ : NodeId) :: textAtDepths.ancestors ⟨9⟩ ∧ textAtDepths.parent ⟨1⟩ = none ∧
      ∃ left right, textAtDepths.texts ⟨1⟩ = left ++ ⟨9⟩ :: right ∧
        textAtDepths.nextText? ⟨9⟩ = right.head? ∧ textAtDepths.previousText? ⟨9⟩ = left.getLast? := by
  have wellFormed : textAtDepths.WellFormed := wellFormed_ofTree _
  have childless : textAtDepths.TextChildless := textChildless_of_store (by decide +kernel)
  have isText : textAtDepths.isText ⟨9⟩ = true := by decide +kernel
  have isTop : ⟨1⟩ ∈ (⟨9⟩ : NodeId) :: textAtDepths.ancestors ⟨9⟩ := by decide +kernel
  have detached : textAtDepths.parent ⟨1⟩ = none := by decide +kernel
  exact ⟨wellFormed, childless, isText, isTop, detached,
    (textSteps_followOrder wellFormed childless isText isTop detached).2.1⟩

end WordTemplate.Document
