import WordTemplate.Proofs.Document.Steps
import WordTemplate.Word.Structure

/-!
# Running text

The running text below a node are its text nodes in document order, except those inside elements of
properties. Properties are copied and dropped as paragraphs are split and joined; the running text
is what these operations keep. It is determined from the children of each node, so that a change of
the document shows where children change.
-/

namespace WordTemplate.Document

/-- Whether the text below a node counts as running text. -/
def showsChildren (document : Document) (id : NodeId) : Bool :=
  !document.isText id && !document.isProperties id

/-- The running text at most `levels` levels below a node. -/
def runningTextsWithin (document : Document) : Nat → NodeId → List NodeId
  | levels, id =>
      if document.isText id then [id]
      else if document.isProperties id then []
      else
        match levels with
        | 0 => []
        | levels + 1 => (document.children id).flatMap (runningTextsWithin document levels)

/-- The text nodes of a subtree that do not stand in properties, in document order. -/
def runningTexts (document : Document) (id : NodeId) : List NodeId :=
  document.runningTextsWithin document.size id

variable {document document' : Document} {id other top node parent child : NodeId}

theorem runningTextsWithin_eq (wellFormed : document.WellFormed) {few many : Nat}
    (enough : document.size ≤ few + document.depth id) (fewer : few ≤ many) :
    document.runningTextsWithin many id = document.runningTextsWithin few id := by
  induction few generalizing many id with
  | zero =>
      have outside : document.size ≤ id.index := by
        by_contra inStore
        have bounded := depth_lt_size wellFormed (Nat.lt_of_not_le inStore)
        omega
      cases many <;> simp [runningTextsWithin, children_of_size_le outside]
  | succ few inductionHypothesis =>
      rcases many with _ | many
      · omega
      · simp only [runningTextsWithin]
        congr 2
        refine List.flatMap_congr fun child isChild => ?_
        have deeper := depth_of_parent wellFormed ((wellFormed.mem_children_iff _ _).mp isChild)
        rw [inductionHypothesis (by omega) (Nat.le_of_succ_le_succ fewer)]

/-- The running text below a node is that of its children one after the other. -/
theorem runningTexts_eq (wellFormed : document.WellFormed) (id : NodeId) :
    document.runningTexts id =
      if document.isText id then [id]
      else if document.isProperties id then []
      else (document.children id).flatMap document.runningTexts := by
  rw [runningTexts]
  rcases sizeIs : document.size with _ | levels
  · have outside : document.size ≤ id.index := by omega
    simp [runningTextsWithin, children_of_size_le outside]
  · rw [runningTextsWithin]
    congr 2
    refine List.flatMap_congr fun child isChild => ?_
    have deeper := depth_of_parent wellFormed ((wellFormed.mem_children_iff _ _).mp isChild)
    have deepEnough : document.runningTextsWithin (levels + 1) child =
        document.runningTextsWithin levels child :=
      runningTextsWithin_eq wellFormed (by omega) (by omega)
    rw [runningTexts, sizeIs, deepEnough]

theorem runningTexts_of_isText (isText : document.isText id = true) :
    document.runningTexts id = [id] := by
  rw [runningTexts]
  cases document.size <;> simp [runningTextsWithin, isText]

theorem runningTexts_of_isProperties (isProperties : document.isProperties id = true) :
    document.runningTexts id = [] := by
  have notText : document.isText id = false := by
    rcases carried : document.content id with characters | held | raw <;>
      simp_all [Document.isProperties, Document.isText, Document.text?, Document.name?,
        Document.element?, Content.element?, Content.text?]
  rw [runningTexts]
  cases document.size <;> simp [runningTextsWithin, isProperties, notText]

theorem runningTexts_of_showsChildren (wellFormed : document.WellFormed)
    (shows : document.showsChildren id = true) :
    document.runningTexts id = (document.children id).flatMap document.runningTexts := by
  simp only [showsChildren, Bool.and_eq_true, Bool.not_eq_true'] at shows
  rw [runningTexts_eq wellFormed, shows.1, shows.2]
  simp

theorem runningTexts_sublist_subtree (wellFormed : document.WellFormed) (id : NodeId) :
    (document.runningTexts id).Sublist (document.subtree id) := by
  induction id using wellFormed.induction_children with
  | step id inductionHypothesis =>
      rw [subtree_eq wellFormed, runningTexts_eq wellFormed]
      split
      · simp
      · split
        · simp
        · exact (sublist_flatMap (List.Sublist.refl _) inductionHypothesis).cons _

theorem nodup_runningTexts (wellFormed : document.WellFormed) (id : NodeId) :
    (document.runningTexts id).Nodup :=
  (nodup_subtree wellFormed id).sublist (runningTexts_sublist_subtree wellFormed id)

theorem liesIn_of_mem_runningTexts (wellFormed : document.WellFormed)
    (isMember : node ∈ document.runningTexts top) : document.LiesIn top node :=
  (mem_subtree_iff wellFormed).mp ((runningTexts_sublist_subtree wellFormed top).subset isMember)

/-- Running text consists of text nodes with no text node and no properties above them. -/
theorem mem_runningTexts_iff (wellFormed : document.WellFormed) :
    node ∈ document.runningTexts top ↔
      document.isText node = true ∧ document.LiesIn top node ∧
        ∀ id, document.LiesIn top id → document.LiesIn id node → id ≠ node →
          document.showsChildren id = true := by
  induction top using wellFormed.induction_children with
  | step top inductionHypothesis =>
      constructor
      · intro isMember
        have inside := liesIn_of_mem_runningTexts wellFormed isMember
        by_cases isText : document.isText top = true
        · rw [runningTexts_of_isText isText, List.mem_singleton] at isMember
          subst isMember
          refine ⟨isText, inside, fun id below above differ => ?_⟩
          exact absurd (below.antisymm wellFormed above) differ
        by_cases isProperties : document.isProperties top = true
        · simp [runningTexts_of_isProperties isProperties] at isMember
        have shows : document.showsChildren top = true := by simp [showsChildren, *]
        rw [runningTexts_of_showsChildren wellFormed shows, List.mem_flatMap] at isMember
        rcases isMember with ⟨child, isChild, isMember⟩
        rcases (inductionHypothesis child isChild).mp isMember with ⟨isText, insideChild, between⟩
        refine ⟨isText, inside, fun id below above differ => ?_⟩
        rcases below.cases_child with rfl | ⟨other, isParent, below⟩
        · exact shows
        · have same : other = child := by
            by_contra distinct
            exact not_liesIn_of_siblings wellFormed isParent
              ((wellFormed.mem_children_iff _ _).mp isChild) distinct (above.trans below)
              insideChild
          exact between id (same ▸ below) above differ
      · rintro ⟨isText, inside, between⟩
        rcases inside.cases_child with rfl | ⟨child, isParent, insideChild⟩
        · simp [runningTexts_of_isText isText]
        · have differ : top ≠ node := by
            rintro rfl
            exact not_liesIn_of_parent wellFormed isParent insideChild
          have isChild := (wellFormed.mem_children_iff _ _).mpr isParent
          rw [runningTexts_of_showsChildren wellFormed (between top LiesIn.refl inside differ),
            List.mem_flatMap]
          refine ⟨child, isChild, (inductionHypothesis child isChild).mpr ⟨isText, insideChild, ?_⟩⟩
          exact fun id below above distinct =>
            between id (below.trans (LiesIn.parent isParent)) above distinct

/-- Running text is running text of every subtree on the way to it. -/
theorem mem_runningTexts_of_liesIn (wellFormed : document.WellFormed)
    (isMember : node ∈ document.runningTexts top) (inside : document.LiesIn top id)
    (around : document.LiesIn id node) : node ∈ document.runningTexts id := by
  rcases (mem_runningTexts_iff wellFormed).mp isMember with ⟨isText, -, between⟩
  exact (mem_runningTexts_iff wellFormed).mpr
    ⟨isText, around, fun other below => between other (below.trans inside)⟩

theorem isText_of_mem_runningTexts (wellFormed : document.WellFormed)
    (isMember : node ∈ document.runningTexts top) : document.isText node = true :=
  ((mem_runningTexts_iff wellFormed).mp isMember).1

end WordTemplate.Document
