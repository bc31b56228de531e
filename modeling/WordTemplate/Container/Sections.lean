import WordTemplate.Container.Hiding
import WordTemplate.Container.Placement
import WordTemplate.Container.Repetition

/-!
# Filling sections

The region of a section is compiled at most once, and the scope path inside is the one outside with
the section's name, without an index.
-/

namespace WordTemplate

/-- How a section that stays in the document is kept out of sight. -/
inductive HidingStyle where
  /-- Its runs, paragraph marks, rows and content controls are flagged. -/
  | vanishRuns
  /-- It is moved into a content control, which every section gets in this style. -/
  | contentControl
deriving DecidableEq

namespace Section

/-- The section that is bound to a tag. -/
def bound? (context : Context) (tag : Tag) : Work (Option Section) := do
  match ← context.boundValue? with
  | none => return none
  | some value =>
      match ofValue? value with
      | some part => return some part
      | none =>
          Work.note .warn
            ("Section '" ++ tag.name ++ "' has invalid data (...); removing its content")
          return none

/-- Hides and marks a section that went back into the document. -/
def finish (style : HidingStyle) (part : Section) (nodes : SectionNodes) (head : NodeId) :
    Edit Unit := do
  match style with
  | .contentControl =>
      let wrapped ← Edit.wrapInControl part nodes
      if !wrapped && part.isHidden then
        Edit.hideNodes nodes head
  | .vanishRuns =>
      if part.isHidden then
        Edit.hideNodes nodes head
      Edit.bookmarkSection part nodes

/-- The strategies for the regions of sections. -/
def strategies : List Strategy := [.table none, .paragraph]

/-- Keeps, hides or removes the region of a section. -/
def replaceRegion (style : HidingStyle) (context : Context) (region : Region)
    (compile : RegionCompiler region) : Work Unit := do
  let openingTag := region.openingTag
  let bound ← bound? context openingTag
  let times := (bound.map repetitions).getD 0
  match Strategy.choose? (← get).document openingTag region.closingTag strategies with
  | none => throw (openingTag.misplaced .noSectionStrategy)
  | some strategy =>
      Work.note .debug
        ("Section '" ++ openingTag.name ++ "' at '" ++ (← Work.pathText) ++ "': " ++
          Text.decimalText times ++ " cop(ies) using the " ++ strategy.name ++ " strategy")
      let cut ← strategy.cut openingTag region.closingTag
      let copies ← (Edit.repeatRegion cut.nodes times : Edit (List RegionCopy))
      let groups ← region.compileCopies compile .unchanged 0 copies
      let nodes := SectionNodes.collect (← get).document groups.flatten
      Strategy.putBack cut groups
      match bound with
      | some part =>
          if 0 < times then
            finish style part nodes cut.first
      | none => pure ()

end Section

/-- The plugin for sections. -/
def Plugin.sections (style : HidingStyle) : Plugin where
  contentType := .sections
  replaceRegion := Section.replaceRegion style

end WordTemplate
