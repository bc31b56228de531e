import WordTemplate.ContentType
import WordTemplate.Filling.Workspace

/-!
# Plugins

A plugin fills the tags of one content type. It sees the data and the services of the package
through its context, and the current scope path in the workspace. Of a container it is given the
region between the tags and a way to compile tags of that region.
-/

namespace WordTemplate

/-- The services of a package that plugins use. -/
structure Services where
  /-- Adds a relationship from a part to a target and returns its id. -/
  addRelationship : (part target : String) → RelationshipKind → (external : Bool) → Work String
  /-- Stores a media file with the given extension and returns its path. -/
  addMedia : List UInt8 → (extension : String) → Work String

namespace Services

/-- Adds a relationship to the resources of the workspace. -/
def recordRelationship (part target : String) (kind : RelationshipKind) (external : Bool) :
    Work String := do
  let relationship := (← get).resources.newRelationship part target kind external
  modify fun workspace =>
    { workspace with resources := workspace.resources.addRelationship part relationship }
  Work.note .trace
    ("Relationship " ++ relationship.id ++ " of '" ++ part ++ "' -> " ++ target)
  return relationship.id

/-- Adds a media file to the resources of the workspace. -/
def recordMedia (bytes : List UInt8) (extension : String) : Work String := do
  let file := (← get).resources.newMedia bytes extension
  Work.note .trace
    ("Stored " ++ Text.decimalText bytes.length ++ " byte(s) as " ++ file.path)
  modify fun workspace => { workspace with resources := workspace.resources.addMedia file }
  return file.path

/-- The services that keep everything in the resources of the workspace. -/
def recording : Services := ⟨recordRelationship, recordMedia⟩

/-- The services of a package that takes neither relationships nor media files. -/
def refusing (relationshipReason mediaReason : String) : Services where
  addRelationship _ _ _ _ := throw (.config (.refused relationshipReason))
  addMedia _ _ := throw (.config (.refused mediaReason))

end Services

/-- What stays the same while a part is filled. -/
structure Context where
  /-- The name of the part. -/
  part : String
  data : Data.Value
  resolver : Resolver := Resolver.lexical
  services : Services := Services.recording

/-- The value that the current scope path is bound to. -/
def Context.boundValue? (context : Context) : Work (Option Data.Value) := do
  return context.resolver (← get).path context.data

/-- A container with the tags inside it. -/
structure Region where
  openingTag : Tag
  innerTags : List Tag
  closingTag : Tag

/-- Compiles tags, of which there are at most as many as inside the region. -/
abbrev RegionCompiler (region : Region) :=
  (tags : List Tag) → tags.length ≤ region.innerTags.length → Work Unit

/-- A way to fill the tags of one content type. -/
structure Plugin where
  contentType : ContentType
  /-- Replaces a leaf. Its text node is empty already. -/
  replaceLeaf : Context → Tag → Work Unit := fun _ _ => pure ()
  /-- Replaces the region of a container. -/
  replaceRegion : Context → (region : Region) → RegionCompiler region → Work Unit :=
    fun _ _ _ => pure ()

end WordTemplate
