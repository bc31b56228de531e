import WordTemplate.Filling.Workspace
import WordTemplate.Word.Paragraph

/-!
# Cutting a region out of its paragraphs

The paragraphs of the two tags of a container are split at the tags. What precedes the opening tag
stays as the head, what follows the closing tag as the tail, and what is between becomes a list of
nodes. On the way back the first node of each group joins the paragraph before it, and the tail
joins the last paragraph, so that text around the tags runs on as if the tags had not been there.
-/

namespace WordTemplate

/-- How the nodes of a region relate to the document after the cut. -/
inductive CutKind where
  /-- The region was cut out from between its first and its last node, which stayed. -/
  | fragments
  /-- The region consists of whole nodes that are still in place. -/
  | wholeNodes
deriving DecidableEq

/-- A region that is ready to be repeated. -/
structure CutRegion where
  kind : CutKind
  /-- The nodes to repeat. -/
  nodes : List NodeId
  first : NodeId
  last : NodeId

namespace Tag

/-- The fault of a tag that stands in the wrong place. -/
def misplaced (tag : Tag) (cause : PlacementError) : TemplateError :=
  .misplacedTag tag.rawText cause

/-- The paragraph around a tag. -/
def paragraph (tag : Tag) (cause : PlacementError) : Extraction NodeId := do
  match (← get).paragraph? tag.textNode with
  | some paragraph => return paragraph
  | none => throw (tag.misplaced cause)

end Tag

namespace Extraction

/-- Cuts the region between two tags out of the paragraphs of the tags. The head and the tail stay
in the document. -/
def cutFragments (openingTag closingTag : Tag) : Extraction CutRegion := do
  let first ← openingTag.paragraph .openOutsideParagraph
  let last ← closingTag.paragraph .closeOutsideParagraph
  let afterOpening ← (Edit.splitParagraph first openingTag.textNode true : Edit NodeId)
  if first = last then
    let tail ← (Edit.splitParagraph afterOpening closingTag.textNode true : Edit NodeId)
    Edit.detach afterOpening
    return { kind := .fragments, nodes := [afterOpening], first, last := tail }
  else
    let tail ← (Edit.splitParagraph last closingTag.textNode true : Edit NodeId)
    Edit.detach afterOpening
    Edit.detach last
    let between ← (Edit.removeBetween first tail : Edit (List NodeId))
    return {
      kind := .fragments
      nodes := afterOpening :: (between ++ [last])
      first
      last := tail }

end Extraction

namespace Edit

/-- Joins `fragment` into `target` if both are paragraphs, and tells whether it did. -/
def joinFragment (target fragment : NodeId) : Edit Bool := do
  let document ← get
  if document.isNamed target Word.Name.paragraph &&
      document.isNamed fragment Word.Name.paragraph then
    joinParagraphs target fragment
    detach fragment
    return true
  else
    return false

/-- Puts nodes before `tail` and returns the last of them, or `target` if there are none. -/
def placeFragments (tail target : NodeId) : List NodeId → Edit NodeId
  | [] => return target
  | node :: rest => do
      insertBefore node tail
      placeFragments tail node rest

/-- Puts a group of nodes before `tail`. The first node joins `target` if it can. The last node that
the group leads to is returned. -/
def mergeGroup (tail target : NodeId) : List NodeId → Edit NodeId
  | [] => return target
  | first :: rest => do
      if ← joinFragment target first then
        placeFragments tail target rest
      else
        placeFragments tail target (first :: rest)

/-- Merges groups one after the other and then `tail`, and returns the nodes that something was
joined to or could have been joined to. -/
def mergeGroups (tail : NodeId) : NodeId → List (List NodeId) → Edit (List NodeId)
  | target, [] => do
      if ← joinFragment target tail then return [target] else return [target, tail]
  | target, group :: rest => do
      let reached ← mergeGroup tail target group
      let junctions ← mergeGroups tail reached rest
      return if reached = target then junctions else target :: junctions

/-- Removes the empty runs of a paragraph and the paragraph itself if it is left empty. -/
def tidyJunction (paragraph : NodeId) : Edit Unit := do
  removeEmptyRuns paragraph
  if (← get).isRemovableParagraph paragraph then
    detach paragraph

/-- Puts groups of nodes back between `head` and `tail`. -/
def mergeFragments (groups : List (List NodeId)) (head tail : NodeId) : Edit Unit := do
  let junctions ← mergeGroups tail head groups
  junctions.forM tidyJunction

end Edit

end WordTemplate
