import WordTemplate.Container.Placement
import WordTemplate.Container.Repetition

/-!
# Loops

A loop repeats its region for every item of an array. The index of the item is on the scope path
while its copy is compiled.
-/

namespace WordTemplate

namespace Loop

/-- The kind of a value as it is called in the journal. -/
def kindName : Data.Value → String
  | .null => "null"
  | .bool _ => "a boolean"
  | .number _ => "a number"
  | .string _ => "a string"
  | .array _ => "an array"
  | .object _ => "an object"

/-- How often a loop over a value repeats its region. -/
def repetitions : Option Data.Value → Nat
  | some (.array items) => items.length
  | _ => 0

/-- What the journal says about a value that is no array. -/
def remark? (tag : Tag) : Option Data.Value → Option Note
  | some (.array _) => none
  | none | some .null =>
      some ⟨.debug, "Loop '" ++ tag.name ++ "' has no data; repeating zero times"⟩
  | some other =>
      some ⟨.warn, "Loop '" ++ tag.name ++ "' expects an array but found " ++ kindName other ++
        "; repeating zero times"⟩

/-- Repeats a region for every item of the array bound to it. -/
def replaceRegion (strategies : List Strategy) (context : Context) (region : Region)
    (compile : RegionCompiler region) : Work Unit := do
  let openingTag := region.openingTag
  let value ← context.boundValue?
  let times := repetitions value
  Work.noteAll (remark? openingTag value).toList
  match Strategy.choose? (← get).document openingTag region.closingTag strategies with
  | none => throw (openingTag.misplaced .noLoopStrategy)
  | some strategy =>
      Work.note .debug
        ("Loop '" ++ openingTag.name ++ "' at '" ++ (← Work.pathText) ++ "': " ++
          Text.decimalText times ++ " repetition(s) using the " ++ strategy.name ++ " strategy")
      let cut ← strategy.cut openingTag region.closingTag
      let copies ← (Edit.repeatRegion cut.nodes times : Edit (List RegionCopy))
      let groups ← region.compileCopies compile .indexed 0 copies
      Strategy.putBack cut groups

end Loop

namespace Plugin

/-- A plugin that repeats regions by the first suitable one of several strategies. -/
def loopWith (contentType : ContentType) (strategies : List Strategy) : Plugin where
  contentType
  replaceRegion := Loop.replaceRegion strategies

/-- The plugin for loops. -/
def loop : Plugin := loopWith .loop [.table none, .list, .paragraph]

/-- The plugin for loops over table rows. Outside tables they repeat what is between the tags. -/
def tableLoop : Plugin := loopWith .tableLoop [.table (some .row), .paragraph]

end Plugin

end WordTemplate
