import WordTemplate.Text.Numeral

/-!
# Resources of a package

A package holds, besides its parts, the media files that parts show and the relationships by which
a part refers to a target. Both are numbered from one in the order of their creation, relationships
for each part by itself.
-/

namespace WordTemplate

/-- What a relationship is for. -/
inductive RelationshipKind where
  | hyperlink
  | image
deriving DecidableEq

/-- The type that identifies a kind of relationship in a package. -/
def RelationshipKind.uri : RelationshipKind → String
  | hyperlink =>
      "http://schemas.openxmlformats.org/officeDocument/2006/relationships/hyperlink"
  | image => "http://schemas.openxmlformats.org/officeDocument/2006/relationships/image"

/-- A reference from a part to a target. -/
structure Relationship where
  id : String
  target : String
  kind : RelationshipKind
  /-- Whether the target lies outside the package. -/
  external : Bool
deriving DecidableEq

/-- A stored media file. -/
structure MediaFile where
  path : String
  bytes : List UInt8
deriving DecidableEq

/-- The relationships of all parts and the media files, in the order of their creation. -/
structure Resources where
  relationships : List (String × Relationship) := []
  media : List MediaFile := []
deriving DecidableEq

namespace Resources

/-- The relationships of a part. -/
def relationshipsOf (resources : Resources) (part : String) : List Relationship :=
  (resources.relationships.filter (·.1 == part)).map Prod.snd

/-- The bytes of the media file with the given path. -/
def mediaBytes? (resources : Resources) (path : String) : Option (List UInt8) :=
  (resources.media.find? (·.path == path)).map MediaFile.bytes

/-- The next free relationship of a part. -/
def newRelationship (resources : Resources) (part target : String) (kind : RelationshipKind)
    (external : Bool) : Relationship :=
  { id := "rId" ++ Text.decimalText ((resources.relationshipsOf part).length + 1)
    target, kind, external }

/-- Adds a relationship to a part. -/
def addRelationship (resources : Resources) (part : String) (relationship : Relationship) :
    Resources :=
  { resources with relationships := resources.relationships ++ [(part, relationship)] }

/-- The next free media file. -/
def newMedia (resources : Resources) (bytes : List UInt8) (extension : String) : MediaFile :=
  { path := "media/image" ++ Text.decimalText (resources.media.length + 1) ++ "." ++ extension
    bytes }

/-- Adds a media file. -/
def addMedia (resources : Resources) (file : MediaFile) : Resources :=
  { resources with media := resources.media ++ [file] }

end Resources

end WordTemplate
