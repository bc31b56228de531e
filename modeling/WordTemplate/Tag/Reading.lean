import WordTemplate.Error
import WordTemplate.Tag.Basic
import WordTemplate.Tag.Delimiters

/-!
# Reading the text of a tag

Between its delimiters a tag has a mark for its kind, a name and an option block; only the name is
always there. Blanks around the inner text and around the name do not count.
-/

namespace WordTemplate.Tag

/-- The text between the delimiters of a tag, or all of a text that lacks them. -/
def innerText (delimiters : Delimiters) (rawText : String) : String :=
  Text.trim <|
    ((Text.afterLead? delimiters.tagStart rawText).bind
      (Text.beforeTail? delimiters.tagEnd)).getD rawText

/-- Separates the option block, which starts with the first marker of options and ends the inner
text. -/
def splitOptions (delimiters : Delimiters) (inner : String) :
    Except OptionsError (String × TagOptions) :=
  match Text.splitText? delimiters.tagOptionsStart inner with
  | none => .ok (inner, [])
  | some (head, block) =>
      match Text.beforeTail? delimiters.tagOptionsEnd block with
      | none => .error (.unterminated delimiters.tagOptionsEnd)
      | some block => (TagOptions.read block).map fun options => (head, options)

/-- The marks that are tried in turn at the start of a tag, with the kinds they stand for. -/
def kindMarks (delimiters : Delimiters) : List (String × TagKind) :=
  [(delimiters.containerTagOpen, .opening .loop), (delimiters.tableTagOpen, .opening .tableLoop),
    (delimiters.sectionTagOpen, .opening .sections), (delimiters.containerTagClose, .closing)]

/-- The kind of a tag and the text after its mark. A tag without a mark is a leaf. -/
def splitKind (delimiters : Delimiters) (head : String) : TagKind × String :=
  ((kindMarks delimiters).findSome? fun (mark, kind) =>
    (Text.afterLead? mark head).map fun name => (kind, name)).getD (.leaf, head)

/-- Reads the text of a tag. -/
def read (delimiters : Delimiters) (textNode : NodeId) (rawText : String) :
    Except TemplateError Tag :=
  match splitOptions delimiters (innerText delimiters rawText) with
  | .error cause => .error (.invalidOptions rawText cause)
  | .ok (head, options) =>
      let (kind, name) := splitKind delimiters head
      .ok { name := Text.trim name, rawText, kind, options, textNode }

end WordTemplate.Tag
