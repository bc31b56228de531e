import WordTemplate.Data.Record
import WordTemplate.Filling.Plugin

/-!
# Raw markup

A tag is replaced by markup that the data holds. The markup stands in place of the tag or of the
whole paragraph around the tag.
-/

namespace WordTemplate

/-- Markup that replaces a tag. -/
structure RawMarkup where
  source : Option String := none
  /-- Whether the paragraph around the tag is replaced as well. -/
  replacesParagraph : Bool := false

namespace RawMarkup

/-- Reads the record of a piece of markup. -/
def ofRecord? (value : Data.Value) : Option RawMarkup := do
  let [source, replacesParagraph] ← Data.recordFields? ["xml", "replaceParagraph"] value | none
  return {
    source := ← Data.optional Data.Value.string? source
    replacesParagraph := ← Data.withDefault false Data.Value.bool? replacesParagraph }

/-- The markup that a value holds. Strings are markup themselves, and values other than objects hold
none. -/
def ofValue (value : Data.Value) : Work RawMarkup :=
  match value with
  | .string source => return { source := some source }
  | .object _ =>
      match ofRecord? value with
      | some markup => return markup
      | none => do
          Work.note .warn "Ignoring invalid raw XML content: ..."
          return {}
  | _ => return {}

/-- The markup to insert, unless it is blank. -/
def inserted? (markup : RawMarkup) : Option String :=
  markup.source.filter fun source => Text.trim source ≠ ""

end RawMarkup

namespace Leaf

/-- Replaces a tag by markup. -/
def replaceByMarkup (context : Context) (tag : Tag) : Work Unit := do
  let markup ←
    match ← context.boundValue? with
    | some value => RawMarkup.ofValue value
    | none => pure {}
  let document := (← get).document
  let carrier := document.textUnit tag.textNode
  let target :=
    if markup.replacesParagraph then (document.paragraph? tag.textNode).getD carrier else carrier
  match markup.inserted? with
  | none => pure ()
  | some source =>
      let nodes ← Work.readFragment source
      Work.note .trace
        ("Inserting " ++ Text.decimalText nodes.length ++ " raw node(s) for '" ++ tag.name ++ "'")
      nodes.forM fun node => (Edit.insertBefore node target : Work Unit)
  Edit.detach target

end Leaf

/-- The plugin that inserts markup. -/
def Plugin.rawXml : Plugin where
  contentType := .rawXml
  replaceLeaf := Leaf.replaceByMarkup

end WordTemplate
