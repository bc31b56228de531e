import WordTemplate.Data.Value

/-!
# Content types

What a tag is replaced by is decided by its content type. A data value may declare its type in a
field of its own; tags that open or close a container have the type of their container.
-/

namespace WordTemplate

/-- The kinds of content that a tag can stand for. -/
inductive ContentType where
  | text
  | image
  | link
  | rawXml
  | loop
  | tableLoop
  | sections
deriving DecidableEq

namespace ContentType

/-- All content types. -/
def all : List ContentType := [text, image, link, rawXml, loop, tableLoop, sections]

/-- The name under which data declares a content type. -/
def name : ContentType → String
  | text => "text"
  | image => "image"
  | link => "link"
  | rawXml => "rawXml"
  | loop => "loop"
  | tableLoop => "tableLoop"
  | sections => "sections"

/-- The content type with the given name. -/
def ofName? (name : String) : Option ContentType :=
  all.find? (·.name == name)

/-- The content type with the given name, or what to say about a name that no type has. -/
def read (name : String) : Except String ContentType :=
  match ofName? name with
  | some contentType => .ok contentType
  | none => .error ("unknown content type '" ++ name ++ "'")

/-- The field in which data declares its content type. -/
def declaringField : String := "_type"

/-- The content type that a value declares: nothing, a known type, or a name that no type has. -/
def declaredBy (value : Data.Value) : Option (Except String ContentType) :=
  ((value.field? declaringField).bind Data.Value.string?).map fun declared =>
    match ofName? declared with
    | some contentType => .ok contentType
    | none => .error declared

/-- The content type that a value declares, if it is a known one. -/
def declared? (value : Data.Value) : Option ContentType :=
  (declaredBy value).bind Except.toOption

end ContentType

end WordTemplate
