import WordTemplate.Document.Node
import WordTemplate.Tag.Options

/-!
# Tags

A tag stands for a single value, opens a container or closes one. Each tag is tied to a text node
of its own, into which its replacement is written.
-/

namespace WordTemplate

/-- What is done with the region of a container. -/
inductive Container where
  /-- The region is repeated for every item of an array. -/
  | loop
  /-- The table rows of the region are repeated for every item of an array. -/
  | tableLoop
  /-- The region is kept, hidden or removed. -/
  | sections
deriving DecidableEq

/-- The role of a tag. -/
inductive TagKind where
  | leaf
  | opening (container : Container)
  | closing
deriving DecidableEq

/-- A tag of a template. -/
structure Tag where
  name : String
  /-- The text of the tag with its delimiters. -/
  rawText : String
  kind : TagKind
  options : TagOptions
  /-- The text node that the tag stands in. -/
  textNode : NodeId

namespace Tag

/-- The same tag in another text node. -/
def relocated (tag : Tag) (textNode : NodeId) : Tag := { tag with textNode }

/-- The value of an option that is a string. -/
def optionString? (tag : Tag) (key : String) : Option String :=
  (Data.Fields.find? tag.options key).bind Data.Value.string?

end Tag

end WordTemplate
