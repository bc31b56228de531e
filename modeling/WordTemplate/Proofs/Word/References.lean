import WordTemplate.Proofs.Document.References
import WordTemplate.Word.Paragraph

/-!
# References while texts and paragraphs are split and joined

Text nodes and paragraphs are split by copying what is around the cut and joined by moving what is
below them, so neither brings in a reference.
-/

namespace WordTemplate.Edit

open Document

variable {allowed : Reference → Prop}

theorem lasts_keepSpace (textElement : NodeId) : Lasts (CitesOnly allowed) (keepSpace textElement) :=
  lasts_setAttribute (by decide) (by decide)

theorem lasts_ensureProperties (parent : NodeId) (name : String) (leading : List String) :
    Lasts (CitesOnly allowed) (ensureProperties parent name leading) := by
  apply Lasts.of_get.bind
  intro document
  split
  · exact Lasts.of_pure _
  · apply (lasts_createElement name).bind
    intro properties
    apply (lasts_insertChild _ _ _).bind
    intro _
    exact Lasts.of_pure _

theorem lasts_setFlag (properties : NodeId) (flag : String) :
    Lasts (CitesOnly allowed) (setFlag properties flag) := by
  apply Lasts.of_get.bind
  intro document
  split
  · exact Lasts.of_pure _
  · apply (lasts_createElement flag).bind
    intro added
    apply (lasts_appendChild _ _).bind
    intro _
    exact Lasts.of_pure _

theorem lasts_removeEmptyRuns (container : NodeId) :
    Lasts (CitesOnly allowed) (removeEmptyRuns container) := by
  apply Lasts.of_get.bind
  intro document
  exact lasts_detachAll _

/-! ## Text nodes -/

theorem lasts_textAt (id : NodeId) : Lasts (CitesOnly allowed) (textAt id) := by
  apply Lasts.of_get.bind
  intro document
  split
  · exact Lasts.of_pure _
  · exact Lasts.of_throw _

theorem lasts_splitText (id : NodeId) (offset : Nat) :
    Lasts (CitesOnly allowed) (splitText id offset) := by
  apply (lasts_textAt id).bind
  intro characters
  split
  · exact Lasts.of_throw _
  · apply (lasts_setText _ _).bind
    intro _
    apply (lasts_createText _).bind
    intro tail
    apply Lasts.of_get.bind
    intro document
    split
    · apply (lasts_copyNode _).bind
      intro tailElement
      apply (lasts_appendChild _ _).bind
      intro _
      apply (lasts_insertAfter _ _).bind
      intro _
      apply (lasts_keepSpace _).bind
      intro _
      apply (lasts_keepSpace _).bind
      intro _
      exact Lasts.of_pure _
    · apply (lasts_insertAfter _ _).bind
      intro _
      exact Lasts.of_pure _

theorem lasts_pruneUpwards (kept : NodeId) (candidates : List NodeId) :
    Lasts (CitesOnly allowed) (pruneUpwards kept candidates) := by
  induction candidates with
  | nil => exact Lasts.of_pure _
  | cons candidate outer inductionHypothesis =>
      apply Lasts.of_get.bind
      intro document
      split
      · exact Lasts.of_pure _
      · exact (lasts_detach candidate).bind fun _ => inductionHypothesis

theorem lasts_removeAbsorbed (kept id : NodeId) :
    Lasts (CitesOnly allowed) (removeAbsorbed kept id) := by
  apply Lasts.of_get.bind
  intro document
  exact (lasts_detach id).bind fun _ => lasts_pruneUpwards kept _

theorem lasts_joinText (start stop : NodeId) : Lasts (CitesOnly allowed) (joinText start stop) := by
  rw [joinText]
  split
  · exact Lasts.of_pure _
  · apply (lasts_textAt start).bind
    intro first
    apply Lasts.of_get.bind
    intro document
    split
    · exact Lasts.of_throw _
    · apply (lasts_setText _ _).bind
      intro _
      apply (Lasts.of_forM fun id => lasts_removeAbsorbed start id).bind
      intro _
      apply Lasts.of_get.bind
      intro document
      split
      · exact lasts_keepSpace _
      · exact Lasts.of_pure _

/-! ## Paragraphs -/

theorem lasts_splitParent (child : NodeId) (movesChild : Bool) :
    Lasts (CitesOnly allowed) (splitParent child movesChild) := by
  apply (lasts_parentOf child).bind
  intro parent
  apply (lasts_indexOf child).bind
  intro index
  apply (lasts_copyNode parent).bind
  intro right
  apply Lasts.of_get.bind
  intro document
  have copies : ∀ sibling, Lasts (CitesOnly allowed) (do
      let copy ← copySubtree sibling
      appendChild right copy.root) := by
    intro sibling
    exact (lasts_copySubtree sibling).bind fun copy => lasts_appendChild right copy.root
  apply (Lasts.of_forM copies).bind
  intro _
  apply (Lasts.of_forM fun sibling => lasts_appendChild right sibling).bind
  intro _
  apply (lasts_insertAfter right parent).bind
  intro _
  exact Lasts.of_pure _

theorem lasts_splitUpTo (top : NodeId) (movesChild : Bool) (child : NodeId) (ancestors : List NodeId) :
    Lasts (CitesOnly allowed) (splitUpTo top movesChild child ancestors) := by
  induction ancestors generalizing movesChild child with
  | nil => exact Lasts.of_throw _
  | cons parent outer inductionHypothesis =>
      apply (lasts_splitParent child movesChild).bind
      intro right
      split
      · exact Lasts.of_pure _
      · exact inductionHypothesis false parent

theorem lasts_removeSectionBreak (paragraph : NodeId) :
    Lasts (CitesOnly allowed) (removeSectionBreak paragraph) := by
  apply Lasts.of_get.bind
  intro document
  split
  · exact lasts_detach _
  · exact Lasts.of_pure _

theorem lasts_splitParagraph (paragraph textNode : NodeId) (removesText : Bool) :
    Lasts (CitesOnly allowed) (splitParagraph paragraph textNode removesText) := by
  apply Lasts.of_get.bind
  intro document
  dsimp only
  split
  · exact Lasts.of_throw _
  · apply (lasts_splitUpTo _ _ _ _).bind
    intro tail
    have tidied : Lasts (CitesOnly allowed) (do
        removeSectionBreak paragraph
        removeEmptyRuns paragraph
        removeEmptyRuns tail
        return tail) := by
      apply (lasts_removeSectionBreak paragraph).bind
      intro _
      apply (lasts_removeEmptyRuns paragraph).bind
      intro _
      apply (lasts_removeEmptyRuns tail).bind
      intro _
      exact Lasts.of_pure _
    split
    · exact (lasts_detach _).bind fun _ => tidied
    · exact tidied

theorem lasts_placedBreak (properties sectionBreak : NodeId) :
    Lasts (CitesOnly allowed) (do
      match (← get).childNamed? properties Word.Name.paragraphPropertiesChange with
      | some change => insertBefore sectionBreak change
      | none => appendChild properties sectionBreak) := by
  apply Lasts.of_get.bind
  intro document
  split
  · exact lasts_insertBefore _ _
  · exact lasts_appendChild _ _

theorem lasts_adoptSectionBreak (paragraph sectionBreak : NodeId) :
    Lasts (CitesOnly allowed) (adoptSectionBreak paragraph sectionBreak) := by
  apply (lasts_ensureProperties _ _ _).bind
  intro properties
  apply Lasts.of_get.bind
  intro document
  dsimp only
  split
  · exact (lasts_detach _).bind fun _ => lasts_placedBreak properties sectionBreak
  · exact lasts_placedBreak properties sectionBreak

theorem lasts_joinParagraphs (first second : NodeId) :
    Lasts (CitesOnly allowed) (joinParagraphs first second) := by
  rw [joinParagraphs]
  split
  · exact Lasts.of_pure _
  · apply Lasts.of_get.bind
    intro document
    apply (Lasts.of_forM fun child => lasts_appendChild first child).bind
    intro _
    apply Lasts.of_get.bind
    intro document
    split
    · exact lasts_adoptSectionBreak _ _
    · exact Lasts.of_pure _

end WordTemplate.Edit
