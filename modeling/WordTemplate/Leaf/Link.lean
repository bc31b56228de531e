import WordTemplate.Data.Record
import WordTemplate.Document.Copy
import WordTemplate.Document.Plant
import WordTemplate.Filling.Plugin

/-!
# Links

A tag is replaced by a hyperlink. The run around the tag is split, so that the hyperlink stands
between what precedes the tag and what follows it, and the text of the link is formatted like that
run.
-/

namespace WordTemplate

/-- A link to a target outside the package. -/
structure Link where
  target : String
  /-- The text that is shown, if it differs from the target. -/
  text : Option String

namespace Link

/-- Reads the record of a link. -/
def ofValue? (value : Data.Value) : Option Link := do
  let [target, text] ← Data.recordFields? ["target", "text"] value | none
  return {
    target := ← Data.required Data.Value.string? target
    text := ← Data.optional Data.Value.string? text }

/-- The text that a link is shown as. -/
def shownText (link : Link) : String := link.text.getD link.target

end Link

namespace Leaf

/-- Moves what follows `child` in a run into a run of the same formatting right after it. -/
def splitRunAfter (run child : NodeId) : Edit Unit := do
  let document ← get
  match ((document.children run).dropWhile (· != child)).drop 1 with
  | [] => pure ()
  | trailing => do
      let tail ← Edit.copyNode run
      match document.childNamed? run Word.Name.runProperties with
      | some properties =>
          let copy ← Edit.copySubtree properties
          Edit.appendChild tail copy.root
      | none => pure ()
      trailing.forM (Edit.appendChild tail)
      Edit.insertAfter tail run

/-- Adds a detached run that holds a text, formatted like `source` in the style of hyperlinks. -/
def createLinkRun (source : NodeId) (text : String) : Edit NodeId := do
  let run ← Edit.createElement Word.Name.run
  let properties ← do
    match (← get).childNamed? source Word.Name.runProperties with
    | some existing => pure (← Edit.copySubtree existing).root
    | none => Edit.createElement Word.Name.runProperties
  Edit.appendChild run properties
  let style ← do
    match (← get).childNamed? properties Word.Name.runStyle with
    | some existing => pure existing
    | none =>
        let created ← Edit.createElement Word.Name.runStyle
        Edit.insertChild properties 0 created
        pure created
  Edit.setAttribute style Word.Name.value "Hyperlink"
  let textElement ← Edit.plant
    (.node Word.Name.text [(Word.Name.space, "preserve")] [.text text])
  Edit.appendChild run textElement
  return run

/-- Puts a hyperlink in place of the carrier of a tag in a run. -/
def insertHyperlink (run carrier : NodeId) (relationshipId text : String) : Edit Unit := do
  splitRunAfter run carrier
  let hyperlink ← Edit.createElement Word.Name.hyperlink
  Edit.setAttribute hyperlink Word.Name.relationshipId relationshipId
  let linkRun ← createLinkRun run text
  Edit.appendChild hyperlink linkRun
  Edit.insertAfter hyperlink run
  Edit.detach carrier
  match (← get).parent run with
  | some parent => Edit.removeEmptyRuns parent
  | none => pure ()

/-- The link that is bound to a tag. -/
def boundLink? (context : Context) (tag : Tag) : Work (Option Link) := do
  match ← context.boundValue? with
  | none => return none
  | some value =>
      match Link.ofValue? value with
      | some link => return some link
      | none =>
          Work.note .warn ("Link '" ++ tag.name ++ "' has invalid data (...); removing the tag")
          return none

/-- Replaces a tag by a hyperlink. -/
def replaceByLink (context : Context) (tag : Tag) : Work Unit := do
  let bound ← boundLink? context tag
  let document := (← get).document
  let carrier := document.textUnit tag.textNode
  match bound, document.run? tag.textNode with
  | none, _ => Edit.detach carrier
  | some link, none =>
      Work.note .warn ("Link '" ++ tag.name ++ "' is not inside a run; writing its text only")
      Edit.setText tag.textNode link.shownText
  | some link, some run =>
      let relationshipId ←
        context.services.addRelationship context.part link.target .hyperlink true
      Work.note .debug
        ("Link '" ++ tag.name ++ "' -> " ++ link.target ++ " as " ++ relationshipId)
      insertHyperlink run carrier relationshipId link.shownText

end Leaf

/-- The plugin that inserts hyperlinks. -/
def Plugin.link : Plugin where
  contentType := .link
  replaceLeaf := Leaf.replaceByLink

end WordTemplate
