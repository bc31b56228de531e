import WordTemplate.Document.Copy
import WordTemplate.Word.Properties

/-!
# Splitting and joining paragraphs

A paragraph is split at a text node by splitting every element from the text's carrier up to the
paragraph. Both halves keep the formatting, so properties are copied, and a section break stays
with the tail, which ends where the paragraph ended.
-/

namespace WordTemplate.Edit

/-- Splits the parent of `child` in two and returns the new right half. With `movesChild` the child
leads the right half, otherwise it ends the left one. Properties before the cut are copied. -/
def splitParent (child : NodeId) (movesChild : Bool) : Edit NodeId := do
  let parent ← parentOf child
  let index ← indexOf child
  let start := if movesChild then index else index + 1
  let right ← copyNode parent
  let document ← get
  let siblings := document.children parent
  ((siblings.take start).filter document.isProperties).forM fun sibling => do
    let copy ← copySubtree sibling
    appendChild right copy.root
  (siblings.drop start).forM fun sibling => appendChild right sibling
  insertAfter right parent
  return right

/-- Splits the given ancestors of `child`, nearest first, up to `top`, and returns the right half of
`top`. -/
def splitUpTo (top : NodeId) (movesChild : Bool) (child : NodeId) : List NodeId → Edit NodeId
  | [] => throw (.detached child)
  | parent :: outer => do
      let right ← splitParent child movesChild
      if parent = top then return right else splitUpTo top false parent outer

/-- Removes the section break of a paragraph. -/
def removeSectionBreak (paragraph : NodeId) : Edit Unit := do
  match (← get).paragraphProperty? paragraph Word.Name.sectionProperties with
  | some sectionBreak => detach sectionBreak
  | none => pure ()

/-- Splits a paragraph at a text node, whose carrier is removed or leads the tail. The head is the
paragraph itself; the tail, a new paragraph right after it, is returned. -/
def splitParagraph (paragraph textNode : NodeId) (removesText : Bool) : Edit NodeId := do
  let document ← get
  if document.paragraph? textNode ≠ some paragraph then
    throw (.notInParagraph textNode paragraph)
  let cut := document.textUnit textNode
  let tail ← splitUpTo paragraph (!removesText) cut (document.ancestors cut)
  if removesText then
    detach cut
  removeSectionBreak paragraph
  removeEmptyRuns paragraph
  removeEmptyRuns tail
  return tail

/-- Moves a section break into the properties of a paragraph, in place of its own one and before the
recorded change of its properties. -/
def adoptSectionBreak (paragraph sectionBreak : NodeId) : Edit Unit := do
  let properties ← ensureProperties paragraph Word.Name.paragraphProperties []
  match (← get).childNamed? properties Word.Name.sectionProperties with
  | some previous => detach previous
  | none => pure ()
  match (← get).childNamed? properties Word.Name.paragraphPropertiesChange with
  | some change => insertBefore sectionBreak change
  | none => appendChild properties sectionBreak

/-- Moves the content of `second` to the end of `first`. What is left of `second` are its
properties, without its section break. -/
def joinParagraphs (first second : NodeId) : Edit Unit := do
  if first = second then
    return
  let document ← get
  let moving := (document.children second).filter fun child =>
    !document.isNamed child Word.Name.paragraphProperties
  moving.forM (appendChild first)
  match (← get).paragraphProperty? second Word.Name.sectionProperties with
  | some sectionBreak => adoptSectionBreak first sectionBreak
  | none => pure ()

end WordTemplate.Edit
