import WordTemplate.Container.Fragments
import WordTemplate.Filling.Plugin

/-!
# Placing a container

A container repeats table rows, list paragraphs or the content between its tags, depending on where
the tags stand. A strategy says when it applies, how it cuts the region out and how it puts the
compiled copies back.
-/

namespace WordTemplate

/-- What a container in a table repeats. -/
inductive LoopOver where
  | row
  | content
deriving DecidableEq

namespace LoopOver

/-- The option of a tag that says what to repeat. -/
def option : String := "loopOver"

/-- The name of a choice. -/
def name : LoopOver → String
  | row => "row"
  | content => "content"

/-- The name of a choice in the journal. -/
def title : LoopOver → String
  | row => "Row"
  | content => "Content"

/-- The choice with the given name, in any case. -/
def ofName? (name : String) : Option LoopOver :=
  let name := Text.lowerAscii name
  if name = "row" ∨ name = "rows" then some row
  else if name = "content" then some content
  else none

/-- What a tag asks to repeat. -/
def ofTag? (tag : Tag) : Option LoopOver :=
  (tag.optionString? option).bind ofName?

/-- The warning about a choice that has no meaning. -/
def warnings (tag : Tag) : List Note :=
  match tag.optionString? option with
  | none => []
  | some name =>
      if (ofName? name).isSome then []
      else
        [⟨.warn, "Ignoring unknown " ++ option ++ "='" ++ name ++ "' on tag '" ++ tag.rawText ++
          "'"⟩]

end LoopOver

/-- A way to cut out and repeat the region of a container. -/
inductive Strategy where
  /-- Repeats table rows or cell content, with a default instead of a choice by position. -/
  | table (standard : Option LoopOver)
  /-- Repeats whole list paragraphs. -/
  | list
  /-- Repeats the content between the tags. -/
  | paragraph
deriving DecidableEq

namespace Strategy

/-- The name of a strategy in the journal. -/
def name : Strategy → String
  | table _ => "table"
  | list => "list"
  | paragraph => "paragraph"

/-- Whether a tag stands in a paragraph of a table cell. -/
def inTableCell (document : Document) (tag : Tag) : Bool :=
  match (document.paragraph? tag.textNode).bind document.parent with
  | some parent => document.isNamed parent Word.Name.tableCell
  | none => false

/-- Whether a strategy suits the places of two tags. -/
def applies (document : Document) (openingTag closingTag : Tag) : Strategy → Bool
  | table _ => inTableCell document openingTag && inTableCell document closingTag
  | list =>
      match document.paragraph? openingTag.textNode with
      | some found => document.isListParagraph found
      | none => false
  | paragraph => true

/-- The first of several strategies that suits the places of two tags. -/
def choose? (document : Document) (openingTag closingTag : Tag) (strategies : List Strategy) :
    Option Strategy :=
  strategies.find? (applies document openingTag closingTag)

/-- What a container in a table repeats: what its tag asks for, or else the standard, or else the
content if both tags stand in one cell and the rows otherwise. -/
def loopOver (standard : Option LoopOver) (openingTag closingTag : Tag) : Work LoopOver := do
  let document := (← get).document
  let sameCell :=
    document.tableCell? openingTag.textNode = document.tableCell? closingTag.textNode
  Work.noteAll (LoopOver.warnings openingTag)
  match LoopOver.ofTag? openingTag with
  | some .row =>
      if sameCell then
        Work.note .warn
          ("Tag '" ++ openingTag.rawText ++ "' asks to loop over rows but opens and closes in " ++
            "the same cell; repeating the row")
      return .row
  | some .content => return .content
  | none => return standard.getD (if sameCell then .content else .row)

/-- The table row around a tag. -/
def rowOf (tag : Tag) (cause : PlacementError) : Extraction NodeId := do
  match (← get).tableRow? tag.textNode with
  | some row => return row
  | none => throw (tag.misplaced cause)

/-- Removes a tag together with its run if that is left empty. -/
def removeTagAndRun (tag : Tag) : Edit Unit := do
  let document ← get
  let carrier := document.textUnit tag.textNode
  Edit.detach carrier
  match document.run? carrier with
  | some run =>
      if (← get).isEmptyRun run then
        Edit.detach run
  | none => pure ()

/-- Takes the rows from the opening tag to the closing tag as the region. -/
def cutRows (openingTag closingTag : Tag) : Extraction CutRegion := do
  let first ← rowOf openingTag .openOutsideRow
  let last ← rowOf closingTag .closeOutsideRow
  removeTagAndRun openingTag
  removeTagAndRun closingTag
  let nodes ← (Edit.siblingRange first last : Edit (List NodeId))
  return { kind := .wholeNodes, nodes, first, last }

/-- Takes the paragraphs from the opening tag to the closing tag as the region. A paragraph at its
end that held nothing but a tag is left out. -/
def cutListItems (openingTag closingTag : Tag) : Extraction CutRegion := do
  let first ← openingTag.paragraph .openOutsideParagraph
  let last ← closingTag.paragraph .closeOutsideParagraph
  Edit.detach ((← get).textUnit openingTag.textNode)
  Edit.detach ((← get).textUnit closingTag.textNode)
  Edit.removeEmptyRuns first
  Edit.removeEmptyRuns last
  let range ← (Edit.siblingRange first last : Edit (List NodeId))
  let document ← get
  let heldOnlyTag (node : NodeId) : Bool :=
    first ≠ last && (node = first || node = last) && document.isEmptyParagraph node
  return { kind := .wholeNodes, nodes := range.filter (!heldOnlyTag ·), first, last }

/-- Cuts the region between two tags out of the document. -/
def cut (openingTag closingTag : Tag) : Strategy → Work CutRegion
  | table standard => do
      let repeated ← loopOver standard openingTag closingTag
      Work.note .debug ("Table loop '" ++ openingTag.name ++ "' repeats " ++ repeated.title)
      match repeated with
      | .content => Extraction.cutFragments openingTag closingTag
      | .row => cutRows openingTag closingTag
  | list => cutListItems openingTag closingTag
  | paragraph => Extraction.cutFragments openingTag closingTag

/-- Puts groups of nodes before the nodes from `first` to `last` and takes the latter out. -/
def replaceRange (groups : List (List NodeId)) (first last : NodeId) : Edit Unit := do
  let replaced ← Edit.siblingRange first last
  groups.flatten.forM fun node => Edit.insertBefore node first
  replaced.forM Edit.detach

/-- Puts the compiled copies of a region back into the document. -/
def putBack (region : CutRegion) (groups : List (List NodeId)) : Edit Unit :=
  match region.kind with
  | .fragments => Edit.mergeFragments groups region.first region.last
  | .wholeNodes => replaceRange groups region.first region.last

end Strategy

end WordTemplate
