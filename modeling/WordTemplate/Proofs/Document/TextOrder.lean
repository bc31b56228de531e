import WordTemplate.Proofs.Document.Order
import WordTemplate.Tag.Extraction

/-!
# Text nodes in document order

The steps to the next and to the previous text node follow the document order. They climb out of
the subtree at hand, so what they meet is described level by level: first the rest of the subtree,
then what is beyond it.
-/

namespace WordTemplate.Document

variable {document : Document} {id top parent text next start stop : NodeId}

/-- The text nodes of a subtree, in document order. -/
def texts (document : Document) (id : NodeId) : List NodeId :=
  (document.subtree id).filter document.isText

theorem mem_texts_iff (wellFormed : document.WellFormed) :
    text ∈ document.texts top ↔ document.LiesIn top text ∧ document.isText text = true := by
  rw [texts, List.mem_filter, mem_subtree_iff wellFormed]

theorem nodup_texts (wellFormed : document.WellFormed) (top : NodeId) :
    (document.texts top).Nodup :=
  (nodup_subtree wellFormed top).filter _

theorem lt_size_of_mem_texts (wellFormed : document.WellFormed)
    (inStore : top.index < document.size) (isMember : text ∈ document.texts top) :
    text.index < document.size :=
  lt_size_below ((mem_texts_iff wellFormed).mp isMember).1 inStore

theorem length_texts_le (wellFormed : document.WellFormed) (inStore : top.index < document.size) :
    (document.texts top).length ≤ document.size :=
  length_le_size_of_nodup (nodup_texts wellFormed top) fun _ isMember =>
    lt_size_of_mem_texts wellFormed inStore isMember

theorem texts_eq (wellFormed : document.WellFormed) (id : NodeId) :
    document.texts id = (if document.isText id then [id] else []) ++
      (document.children id).flatMap document.texts := by
  rw [texts, subtree_eq wellFormed, List.filter_cons, List.filter_flatMap]
  split
  · rfl
  · rfl

/-- The text below a node is that of its text nodes. -/
theorem textContent_eq (document : Document) (id : NodeId) :
    document.textContent id = String.join ((document.texts id).map document.textOf) := by
  have silent : ∀ ids : List NodeId, String.join (ids.map document.textOf) =
      String.join ((ids.filter document.isText).map document.textOf) := by
    intro ids
    induction ids with
    | nil => rfl
    | cons id ids inductionHypothesis =>
        rw [List.filter_cons, List.map_cons, String.join_cons, inductionHypothesis]
        split
        · rw [List.map_cons, String.join_cons]
        · next notText =>
            have isNone : document.text? id = none := by simpa [isText] using notText
            rw [textOf, isNone, Option.getD_none, String.empty_append]
  rw [textContent, silent, texts]

/-- No text node of a subtree has text below it. -/
def PlainBelow (document : Document) (top : NodeId) : Prop :=
  ∀ text, document.LiesIn top text → document.isText text = true → document.texts text = [text]

/-! ## Beside a node -/

/-- The text nodes after a node and everything below it. -/
def followingTexts (document : Document) (id : NodeId) : List NodeId :=
  (id :: document.ancestors id).flatMap fun level =>
    (document.laterSiblings level).flatMap document.texts

/-- The text nodes of a subtree on the way back, where a text node hides what is below it. -/
def textsBack (document : Document) (id : NodeId) : List NodeId :=
  if document.isText id then [id] else (document.texts id).reverse

/-- The text nodes before a node, nearest first. -/
def precedingTexts (document : Document) (id : NodeId) : List NodeId :=
  (id :: document.ancestors id).flatMap fun level =>
    (document.earlierSiblings level).flatMap document.textsBack

theorem nextText?_eq (document : Document) (id : NodeId) :
    document.nextText? id = (document.followingTexts id).head? := by
  have first : document.firstText? = fun sibling => (document.texts sibling).head? := by
    funext sibling
    rw [firstText?, texts, List.head?_filter]
  simp only [nextText?, followingTexts, List.head?_flatMap, first]

theorem previousText?_eq (document : Document) (id : NodeId) :
    document.previousText? id = (document.precedingTexts id).head? := by
  have last : document.lastText? = fun sibling => (document.textsBack sibling).head? := by
    funext sibling
    rw [lastText?, textsBack]
    by_cases isText : document.isText sibling = true
    · simp [isText]
    · have below : document.texts sibling = (document.descendants sibling).filter document.isText := by
        rw [texts, subtree, List.filter_cons_of_neg isText]
      rw [if_neg isText, if_neg isText, below, ← List.filter_reverse, List.head?_filter]
  simp only [previousText?, precedingTexts, List.head?_flatMap, last]

theorem siblings_around (wellFormed : document.WellFormed)
    (isParent : document.parent id = some parent) :
    ∃ left right, document.children parent = left ++ id :: right ∧
      document.earlierSiblings id = left.reverse ∧ document.laterSiblings id = right := by
  have isChild := (wellFormed.mem_children_iff _ _).mpr isParent
  rcases List.append_of_mem isChild with ⟨left, right, around⟩
  have nodup := wellFormed.nodup_children parent
  rw [around, List.nodup_middle, List.nodup_cons] at nodup
  have notBefore : ∀ sibling ∈ left, (sibling != id) = true := by
    intro sibling isMember
    rw [bne_iff_ne]
    rintro rfl
    exact nodup.1 (List.mem_append_left _ isMember)
  refine ⟨left, right, around, ?_, ?_⟩
  · rw [earlierSiblings, siblings, isParent]
    dsimp only
    rw [around, List.takeWhile_append_of_pos notBefore]
    simp
  · rw [laterSiblings, siblings, isParent]
    dsimp only
    rw [around, List.dropWhile_append_of_pos notBefore]
    simp

/-- Text nodes with no text below them are listed in reverse on the way back. -/
theorem textsBack_eq (plain : document.isText id = true → document.texts id = [id]) :
    document.textsBack id = (document.texts id).reverse := by
  rw [textsBack]
  split
  · next isText => rw [plain isText, List.reverse_singleton]
  · rfl

/-- What follows a node is the rest of each subtree around it and then what follows that. -/
theorem exists_texts_around (wellFormed : document.WellFormed)
    (plain : document.PlainBelow top)
    (inside : document.LiesIn top id) (nonempty : document.texts id ≠ []) :
    ∃ left right, document.texts top = left ++ document.texts id ++ right ∧
      document.followingTexts id = right ++ document.followingTexts top ∧
      document.precedingTexts id = left.reverse ++ document.precedingTexts top := by
  induction inside using Relation.ReflTransGen.head_induction_on with
  | refl => exact ⟨[], [], by simp⟩
  | @head id parent isParent above inductionHypothesis =>
      have isParent : document.parent id = some parent := isParent
      have above : document.LiesIn top parent := above
      rcases siblings_around wellFormed isParent with
        ⟨before, after, children, isBefore, isAfter⟩
      have below : document.texts parent = before.flatMap document.texts ++ document.texts id ++
          after.flatMap document.texts := by
        have whole := texts_eq wellFormed parent
        rw [children, List.flatMap_append, List.flatMap_cons] at whole
        by_cases isText : document.isText parent = true
        · -- A text with text below it would not be plain.
          rw [plain parent above isText, if_pos isText] at whole
          simp [nonempty] at whole
        · rw [whole, if_neg isText]
          simp
      have nonempty' : document.texts parent ≠ [] := by
        rw [below]
        simp [nonempty]
      rcases inductionHypothesis nonempty' with ⟨left, right, whole, following, preceding⟩
      have backward : (document.earlierSiblings id).flatMap document.textsBack =
          (before.flatMap document.texts).reverse := by
        rw [isBefore, List.reverse_flatMap]
        refine List.flatMap_congr fun sibling isMember => textsBack_eq (plain sibling ?_)
        refine LiesIn.of_parent ((wellFormed.mem_children_iff _ _).mp ?_) above
        rw [children]
        exact List.mem_append_left _ (List.mem_reverse.mp isMember)
      refine ⟨left ++ before.flatMap document.texts, after.flatMap document.texts ++ right, ?_, ?_, ?_⟩
      · rw [whole, below]
        simp
      · rw [followingTexts, ancestors_of_parent wellFormed isParent, List.flatMap_cons, isAfter,
          ← followingTexts, following, List.append_assoc]
      · rw [precedingTexts, ancestors_of_parent wellFormed isParent, List.flatMap_cons, backward,
          ← precedingTexts, preceding, List.reverse_append, List.append_assoc]

/-! ## Steps from text to text -/

section Steps

variable {left right absorbed : List NodeId}

theorem exists_beside_text (wellFormed : document.WellFormed)
    (plain : document.PlainBelow top)
    (whole : document.texts top = left ++ text :: right) :
    document.followingTexts text = right ++ document.followingTexts top ∧
      document.precedingTexts text = left.reverse ++ document.precedingTexts top := by
  have isMember : text ∈ document.texts top := by
    rw [whole]
    exact List.mem_append_right _ List.mem_cons_self
  rcases (mem_texts_iff wellFormed).mp isMember with ⟨inside, isText⟩
  have single := plain text inside isText
  rcases exists_texts_around wellFormed plain inside (by simp [single]) with
    ⟨left', right', whole', following, preceding⟩
  have nodup := nodup_texts wellFormed top
  rw [whole] at nodup
  rw [single, whole, List.append_assoc, List.singleton_append] at whole'
  rcases append_cons_inj nodup whole' with ⟨rfl, rfl⟩
  exact ⟨following, preceding⟩

theorem nextText?_of_texts (wellFormed : document.WellFormed)
    (plain : document.PlainBelow top)
    (whole : document.texts top = left ++ text :: next :: right) :
    document.nextText? text = some next := by
  rw [nextText?_eq, (exists_beside_text wellFormed plain whole).1]
  rfl

/-- The range between two text nodes of a subtree are the text nodes between them. -/
theorem textRange?_of_texts (wellFormed : document.WellFormed)
    (plain : document.PlainBelow top) {steps : Nat}
    (whole : document.texts top = left ++ start :: absorbed ++ right)
    (isLast : (start :: absorbed).getLast? = some stop) (enough : absorbed.length < steps) :
    document.textRange? steps start stop = some absorbed := by
  induction absorbed generalizing left start steps with
  | nil =>
      rw [List.getLast?_singleton, Option.some.injEq] at isLast
      cases steps with
      | zero => exact absurd enough (Nat.not_lt_zero _)
      | succ steps => simp [textRange?, isLast]
  | cons next absorbed inductionHypothesis =>
      cases steps with
      | zero => exact absurd enough (Nat.not_lt_zero _)
      | succ steps =>
          rw [List.getLast?_cons_cons] at isLast
          have nodup := nodup_texts wellFormed top
          rw [whole, List.append_assoc, List.cons_append, List.nodup_middle, List.nodup_cons] at nodup
          have differ : start ≠ stop := by
            rintro rfl
            exact nodup.1 (List.mem_append_right _
              (List.mem_append_left _ (List.mem_of_getLast? isLast)))
          have found := nextText?_of_texts wellFormed plain
            (whole.trans (by simp : _ = left ++ start :: next :: (absorbed ++ right)))
          have whole' : document.texts top = (left ++ [start]) ++ next :: absorbed ++ right := by
            rw [whole]
            simp
          have rest := inductionHypothesis whole' isLast (Nat.lt_of_succ_lt_succ enough)
          rw [textRange?, if_neg differ, found, Option.bind_some, rest]
          rfl

/-- Nothing follows a node without a parent. -/
theorem followingTexts_of_parent_none (detached : document.parent top = none) :
    document.followingTexts top = [] := by
  have noSiblings : document.laterSiblings top = [] := by
    rw [laterSiblings, siblings, detached]
    rfl
  simp [followingTexts, ancestors_of_parent_none detached, noSiblings]

/-- A range that starts at a text node of a whole tree consists of the text nodes behind it. -/
theorem exists_of_textRange? (wellFormed : document.WellFormed) (plain : document.PlainBelow top)
    (detached : document.parent top = none) {steps : Nat}
    (whole : document.texts top = left ++ start :: right)
    (found : document.textRange? steps start stop = some absorbed) :
    ∃ rest, right = absorbed ++ rest ∧ (start :: absorbed).getLast? = some stop := by
  induction steps generalizing left start right absorbed with
  | zero => simp [textRange?] at found
  | succ steps inductionHypothesis =>
      rw [textRange?] at found
      split at found
      · next same =>
          rw [Option.some.injEq] at found
          subst found same
          exact ⟨right, rfl, rfl⟩
      · rcases Option.bind_eq_some_iff.mp found with ⟨next, isNext, onward⟩
        rcases Option.map_eq_some_iff.mp onward with ⟨others, reached, rfl⟩
        rw [nextText?_eq, (exists_beside_text wellFormed plain whole).1,
          followingTexts_of_parent_none detached, List.append_nil] at isNext
        rcases List.head?_eq_some_iff.mp isNext with ⟨right, rfl⟩
        have whole' : document.texts top = (left ++ [start]) ++ next :: right := by
          rw [whole]
          simp
        rcases inductionHypothesis whole' reached with ⟨rest, rfl, isLast⟩
        exact ⟨rest, rfl, by rwa [List.getLast?_cons_cons]⟩

/-- The text nodes before a text node of a subtree begin with those of the subtree. -/
theorem textsBefore_of_texts (wellFormed : document.WellFormed)
    (plain : document.PlainBelow top) {steps : Nat}
    (whole : document.texts top = left.reverse ++ text :: right) (enough : left.length ≤ steps) :
    ∃ beyond, document.textsBefore steps text = left ++ beyond := by
  induction left generalizing text right steps with
  | nil => exact ⟨_, rfl⟩
  | cons previous left inductionHypothesis =>
      cases steps with
      | zero => exact absurd enough (Nat.not_succ_le_zero _)
      | succ steps =>
          have found : document.previousText? text = some previous := by
            rw [previousText?_eq, (exists_beside_text wellFormed plain whole).2]
            rw [List.reverse_reverse]
            rfl
          have whole' : document.texts top = left.reverse ++ previous :: (text :: right) := by
            rw [whole]
            simp
          rcases inductionHypothesis whole' (Nat.le_of_succ_le_succ enough) with ⟨beyond, rest⟩
          refine ⟨beyond, ?_⟩
          rw [textsBefore, found]
          dsimp only
          rw [rest, List.cons_append]

end Steps

end WordTemplate.Document
