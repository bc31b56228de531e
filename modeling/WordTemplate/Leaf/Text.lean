import WordTemplate.ContentType
import WordTemplate.Filling.Plugin

/-!
# Text

A tag is replaced by the text of the value bound to it. Each line of the text has a text element of
its own. In a checkbox the tag shows whether the value counts as true.
-/

namespace WordTemplate

namespace Data

mutual

/-- The text that a value is shown as. An object that declares itself as text is shown as its field
`value`. -/
def Value.shownText : Value → String
  | .null => ""
  | .string characters => characters
  | .object fields =>
      if ContentType.declared? (.object fields) = some .text then shownField fields
      else (Value.object fields).text
  | .bool flag => (Value.bool flag).text
  | .number held => (Value.number held).text
  | .array items => (Value.array items).text

/-- The text of the field `value`, which is empty if there is none. -/
def shownField : List (String × Value) → String
  | [] => ""
  | (key, value) :: rest => if key = "value" then value.shownText else shownField rest

end

mutual

/-- Whether a value counts as true. An object that declares itself as text counts as its field
`value`. -/
def Value.isTrue : Value → Bool
  | .null => false
  | .bool flag => flag
  | .number held => held.isNonzero
  | .string characters => characters ≠ "" && characters ≠ "false" && characters ≠ "0"
  | .array items => !items.isEmpty
  | .object fields =>
      if ContentType.declared? (.object fields) = some .text then fieldIsTrue fields else true

/-- Whether there is a field `value` that counts as true. -/
def fieldIsTrue : List (String × Value) → Bool
  | [] => false
  | (key, value) :: rest => if key = "value" then value.isTrue else fieldIsTrue rest

end

end Data

/-- The lines of a text, without the carriage return at the end of a line. -/
def Text.lines (text : String) : List String :=
  (Text.pieces '\n' text.toList).map fun line =>
    String.ofList (((['\r'] : List Char).isSuffixOf? line).getD line)

namespace Leaf

/-- Adds lines after a text element, each with a line break before it and in a copy of that
element. -/
def addLines (textElement : NodeId) : NodeId → List String → Edit Unit
  | _, [] => pure ()
  | anchor, line :: rest => do
      let lineBreak ← Edit.createElement Word.Name.lineBreak
      Edit.insertAfter lineBreak anchor
      let next ← Edit.copyNode textElement
      let characters ← Edit.createText line
      Edit.appendChild next characters
      Edit.insertAfter next lineBreak
      addLines textElement next rest

/-- Writes a text into a text node. Outside a text element only the first line is written. -/
def writeText (textNode : NodeId) (text : String) : Edit Unit := do
  let lines := Text.lines text
  Edit.setText textNode (lines.headD "")
  match (← get).textElement? textNode with
  | none => pure ()
  | some textElement =>
      Edit.keepSpace textElement
      addLines textElement textElement (lines.drop 1)

/-- The checkbox of the content control around a node. -/
def checkbox? (document : Document) (id : NodeId) : Option NodeId := do
  let control ← document.ancestorNamed? id Word.Name.contentControl
  let properties ← document.childNamed? control Word.Name.contentControlProperties
  document.childNamed? properties Word.Name.checkbox

/-- The symbol that a checkbox shows in a state: the one that its definition names by a hexadecimal
code, or else a ballot box. -/
def checkboxSymbol (document : Document) (checkbox : NodeId) (checked : Bool) : Char :=
  let stateName := if checked then Word.Name.checkedState else Word.Name.uncheckedState
  let defined := do
    let state ← document.childNamed? checkbox stateName
    let code ← document.attribute? state Word.Name.checkboxValue
    let code ← Text.readUnsigned? 16 UInt32.size code.toList
    Text.charOfCode? code
  defined.getD (if checked then '\u2612' else '\u2610')

/-- Sets the state of a checkbox and shows its symbol in a text node. -/
def setCheckbox (textNode checkbox : NodeId) (checked : Bool) : Edit Unit := do
  let state ← do
    match (← get).childNamed? checkbox Word.Name.checked with
    | some existing => pure existing
    | none =>
        let created ← Edit.createElement Word.Name.checked
        Edit.insertChild checkbox 0 created
        pure created
  Edit.setAttribute state Word.Name.checkboxValue (if checked then "1" else "0")
  Edit.setText textNode (checkboxSymbol (← get) checkbox checked).toString

/-- Replaces a tag by the text of its value, or sets the checkbox around it. -/
def replaceByText (context : Context) (tag : Tag) : Work Unit := do
  let value ← context.boundValue?
  match checkbox? (← get).document tag.textNode with
  | some checkbox =>
      let checked := (value.map Data.Value.isTrue).getD false
      Work.note .trace ("Checkbox set to " ++ (if checked then "true" else "false"))
      setCheckbox tag.textNode checkbox checked
  | none => writeText tag.textNode ((value.map Data.Value.shownText).getD "")

end Leaf

/-- The plugin that writes text. -/
def Plugin.text : Plugin where
  contentType := .text
  replaceLeaf := Leaf.replaceByText

end WordTemplate
