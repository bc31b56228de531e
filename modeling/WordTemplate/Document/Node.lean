import WordTemplate.Text.Numeral

/-!
# Nodes of a document

A document keeps its nodes in one store and addresses them by number. A node carries text, an
element or a piece of markup that is kept as written, and it knows its parent and its children.
-/

namespace WordTemplate

/-- The address of a node, its position in the order of creation. -/
structure NodeId where
  index : Nat
deriving DecidableEq, Repr, Inhabited

/-- How a node is named in messages. -/
def NodeId.label (id : NodeId) : String :=
  "#" ++ Text.decimalText id.index

/-- A named value of an element. -/
structure Attribute where
  key : String
  value : String
deriving DecidableEq

/-- A named element with its attributes in written order. -/
structure Element where
  name : String
  attributes : List Attribute := []
deriving DecidableEq

namespace Element

/-- The value of the first attribute with the given key. -/
def attribute? (element : Element) (key : String) : Option String :=
  (element.attributes.find? (·.key == key)).map Attribute.value

/-- Replaces the value of the first attribute named `key`, or adds the attribute at the end. -/
def replaceOrAdd (key value : String) : List Attribute → List Attribute
  | [] => [⟨key, value⟩]
  | first :: rest =>
      if first.key = key then ⟨key, value⟩ :: rest else first :: replaceOrAdd key value rest

/-- The element with an attribute set. -/
def setAttribute (element : Element) (key value : String) : Element :=
  { element with attributes := replaceOrAdd key value element.attributes }

end Element

/-- What a node carries. -/
inductive Content where
  /-- Character data, without escapes. -/
  | text (characters : String)
  | element (held : Element)
  /-- A comment, a processing instruction or a declaration, as written. -/
  | markup (raw : String)
deriving DecidableEq

namespace Content

/-- The element that a node carries. -/
def element? : Content → Option Element
  | .element held => some held
  | _ => none

/-- The character data that a node carries. -/
def text? : Content → Option String
  | .text characters => some characters
  | _ => none

end Content

/-- An entry of the node store. -/
structure Node where
  content : Content
  parent : Option NodeId := none
  children : List NodeId := []
deriving DecidableEq

end WordTemplate
