import WordTemplate.Data.Record
import WordTemplate.Error
import WordTemplate.Text.Blank

/-!
# Delimiters

The markers that tags are written with. Each is a string of any length; `Delimiters.validate`
accepts those that are not empty, have no blanks at their ends, and tell the opening of a
container from its closing.
-/

namespace WordTemplate

/-- The markers of the tag grammar. -/
structure Delimiters where
  tagStart : String := "\x7b"
  tagEnd : String := "\x7d"
  containerTagOpen : String := "#"
  containerTagClose : String := "/"
  tableTagOpen : String := "%"
  sectionTagOpen : String := "^"
  tagOptionsStart : String := "["
  tagOptionsEnd : String := "]"
deriving DecidableEq

namespace Delimiters

/-- The markers used unless others are chosen. -/
def standard : Delimiters := {}

/-- The markers with their names, in declared order. -/
def fields (delimiters : Delimiters) : List (String × String) :=
  [("tagStart", delimiters.tagStart), ("tagEnd", delimiters.tagEnd),
    ("containerTagOpen", delimiters.containerTagOpen),
    ("containerTagClose", delimiters.containerTagClose),
    ("tableTagOpen", delimiters.tableTagOpen), ("sectionTagOpen", delimiters.sectionTagOpen),
    ("tagOptionsStart", delimiters.tagOptionsStart),
    ("tagOptionsEnd", delimiters.tagOptionsEnd)]

/-- Reads markers from data. Markers that are not given are the standard ones. -/
def ofValue? (value : Data.Value) : Option Delimiters := do
  let marker (standard : String) := Data.withDefault standard Data.Value.string?
  let [tagStart, tagEnd, containerTagOpen, containerTagClose, tableTagOpen, sectionTagOpen,
      tagOptionsStart, tagOptionsEnd] ←
    Data.recordFields? (standard.fields.map Prod.fst) value | none
  return {
    tagStart := ← marker standard.tagStart tagStart
    tagEnd := ← marker standard.tagEnd tagEnd
    containerTagOpen := ← marker standard.containerTagOpen containerTagOpen
    containerTagClose := ← marker standard.containerTagClose containerTagClose
    tableTagOpen := ← marker standard.tableTagOpen tableTagOpen
    sectionTagOpen := ← marker standard.sectionTagOpen sectionTagOpen
    tagOptionsStart := ← marker standard.tagOptionsStart tagOptionsStart
    tagOptionsEnd := ← marker standard.tagOptionsEnd tagOptionsEnd }

/-- The fault of a single marker. -/
def fieldError? (field : String × String) : Option ConfigError :=
  if field.2.isEmpty then some (.emptyDelimiter field.1)
  else if Text.trim field.2 ≠ field.2 then some (.paddedDelimiter field.1)
  else none

/-- The first fault of a set of markers. -/
def error? (delimiters : Delimiters) : Option ConfigError :=
  match delimiters.fields.findSome? fieldError? with
  | some cause => some cause
  | none =>
      if delimiters.containerTagOpen = delimiters.containerTagClose then
        some .equalContainerDelimiters
      else
        none

/-- Accepts markers that make up a usable grammar. -/
def validate (delimiters : Delimiters) : Except TemplateError Unit :=
  match delimiters.error? with
  | some cause => .error (.config cause)
  | none => .ok ()

end Delimiters

end WordTemplate
