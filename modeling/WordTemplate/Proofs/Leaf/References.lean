import WordTemplate.Leaf.Picture
import WordTemplate.Leaf.Text
import WordTemplate.Proofs.Leaf.Link
import WordTemplate.Proofs.Word.References

/-!
# References that leaves bring in

Text brings in no reference. A hyperlink refers to the relationship that it was given, and so does
the image of a picture; nothing else in either of them refers to anything.
-/

namespace WordTemplate

open Document

variable {allowed : Reference → Prop}

namespace Leaf

theorem lasts_addLines (textElement anchor : NodeId) (lines : List String) :
    Lasts (CitesOnly allowed) (addLines textElement anchor lines) := by
  induction lines generalizing anchor with
  | nil => exact Lasts.of_pure _
  | cons line rest inductionHypothesis =>
      apply (Edit.lasts_createElement _).bind
      intro lineBreak
      apply (Edit.lasts_insertAfter _ _).bind
      intro _
      apply (Edit.lasts_copyNode _).bind
      intro next
      apply (Edit.lasts_createText _).bind
      intro characters
      apply (Edit.lasts_appendChild _ _).bind
      intro _
      apply (Edit.lasts_insertAfter _ _).bind
      intro _
      exact inductionHypothesis next

theorem lasts_writeText (textNode : NodeId) (text : String) :
    Lasts (CitesOnly allowed) (writeText textNode text) := by
  apply (Edit.lasts_setText _ _).bind
  intro _
  apply Lasts.of_get.bind
  intro document
  split
  · exact Lasts.of_pure _
  · exact (Edit.lasts_keepSpace _).bind fun _ => lasts_addLines _ _ _

theorem lasts_setCheckbox (textNode checkbox : NodeId) (checked : Bool) :
    Lasts (CitesOnly allowed) (setCheckbox textNode checkbox checked) := by
  have written : ∀ state, Lasts (CitesOnly allowed) (do
      Edit.setAttribute state Word.Name.checkboxValue (if checked then "1" else "0")
      Edit.setText textNode (checkboxSymbol (← get) checkbox checked).toString) := by
    intro state
    apply (Edit.lasts_setAttribute (by decide) (by decide)).bind
    intro _
    apply Lasts.of_get.bind
    intro document
    exact Edit.lasts_setText _ _
  apply Lasts.of_get.bind
  intro document
  dsimp only
  split
  · exact (Lasts.of_pure _).bind written
  · apply (Edit.lasts_createElement _).bind
    intro created
    apply (Edit.lasts_insertChild _ _ _).bind
    intro _
    exact (Lasts.of_pure _).bind written

theorem lasts_splitRunAfter (run child : NodeId) :
    Lasts (CitesOnly allowed) (splitRunAfter run child) := by
  apply Lasts.of_get.bind
  intro document
  dsimp only
  split
  · exact Lasts.of_pure _
  · apply (Edit.lasts_copyNode run).bind
    intro tail
    have moved : Lasts (CitesOnly allowed) (do
        (((document.children run).dropWhile (· != child)).drop 1).forM (Edit.appendChild tail)
        Edit.insertAfter tail run) := by
      apply (Lasts.of_forM fun node => Edit.lasts_appendChild tail node).bind
      intro _
      exact Edit.lasts_insertAfter _ _
    split
    · apply (Edit.lasts_copySubtree _).bind
      intro copy
      exact (Edit.lasts_appendChild _ _).bind fun _ => moved
    · exact moved

theorem lasts_copyRunProperties (source : NodeId) :
    Lasts (CitesOnly allowed) (copyRunProperties source) := by
  apply Lasts.of_get.bind
  intro document
  split
  · exact (Edit.lasts_copySubtree _).bind fun _ => Lasts.of_pure _
  · exact Edit.lasts_createElement _

theorem lasts_createLinkRun (source : NodeId) (text : String) :
    Lasts (CitesOnly allowed) (createLinkRun source text) := by
  rw [createLinkRun_eq]
  apply (Edit.lasts_createElement _).bind
  intro run
  apply (lasts_copyRunProperties source).bind
  intro properties
  apply (Edit.lasts_appendChild _ _).bind
  intro _
  apply (Edit.lasts_ensureProperties _ _ _).bind
  intro style
  apply (Edit.lasts_setAttribute (by decide) (by decide)).bind
  intro _
  have planted : Lasts (CitesOnly allowed)
      (Edit.plant (.node Word.Name.text [(Word.Name.space, "preserve")] [.text text])) := by
    apply Edit.lasts_plant
    intro reference cites
    rw [Tree.cites_node_iff (by decide) (by decide)] at cites
    rcases cites with ⟨child, isChild, cites⟩
    rw [List.mem_singleton] at isChild
    exact absurd (isChild ▸ cites) (Tree.not_cites_text text)
  apply planted.bind
  intro textElement
  exact (Edit.lasts_appendChild _ _).bind fun _ => Lasts.of_pure _

/-- A hyperlink brings in one reference. -/
theorem lasts_insertHyperlink {relationshipId : String} (isAllowed : allowed ⟨.hyperlink, relationshipId⟩)
    (run carrier : NodeId) (text : String) :
    Lasts (CitesOnly allowed) (insertHyperlink run carrier relationshipId text) := by
  apply (lasts_splitRunAfter run carrier).bind
  intro _
  apply (Edit.lasts_createElement _).bind
  intro hyperlink
  apply (Edit.lasts_setRelationshipId isAllowed).bind
  intro _
  apply (lasts_createLinkRun _ _).bind
  intro linkRun
  apply (Edit.lasts_appendChild _ _).bind
  intro _
  apply (Edit.lasts_insertAfter _ _).bind
  intro _
  apply (Edit.lasts_detach _).bind
  intro _
  apply Lasts.of_get.bind
  intro document
  split
  · exact Edit.lasts_removeEmptyRuns _
  · exact Lasts.of_pure _

end Leaf

/-- The only reference of a drawing is the one of its image. -/
theorem Picture.reference_of_cites_drawing {picture : Picture} {relationshipId : String} {number : Nat}
    {reference : Reference} (cites : (picture.drawing relationshipId number).Cites reference) :
    reference = ⟨.image, relationshipId⟩ := by
  simp [Picture.drawing, Tree.cites_node, Element.reference?, Element.attribute?, Word.Name.drawing,
    Word.Name.drawingProperties, Word.Name.hyperlink, Word.Name.blip, Word.Name.embeddedId] at cites
  exact cites.symm

end WordTemplate
