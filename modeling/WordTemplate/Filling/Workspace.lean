import WordTemplate.Journal
import WordTemplate.Markup.Build
import WordTemplate.Package.Resources
import WordTemplate.Scope
import WordTemplate.Tag.Extraction

/-!
# Workspaces

A template is filled inside a workspace, which holds the document that is being filled, the current
scope path, the resources of the package and a journal. A piece of work changes the workspace and
may fail; what it did before it failed stays done.
-/

namespace WordTemplate

/-- A leaf that a plugin is asked to replace, with the scope path at that moment. -/
structure Dispatch where
  name : String
  rawText : String
  path : ScopePath
deriving DecidableEq

/-- The state in which a template is filled. -/
structure Workspace where
  document : Document
  path : ScopePath := []
  resources : Resources := {}
  journal : Journal := #[]
  /-- The leaves that plugins were asked to replace so far. -/
  dispatches : Array Dispatch := #[]

/-- An operation on a workspace that may fail with a fault of the template. -/
abbrev Work := EStateM TemplateError Workspace

/-- Work that concerns the document only. -/
def Extraction.toWork {α : Type} (extraction : Extraction α) : Work α :=
  fun ⟨document, path, resources, journal, dispatches⟩ =>
    match extraction document with
    | .ok value document => .ok value ⟨document, path, resources, journal, dispatches⟩
    | .error cause document => .error cause ⟨document, path, resources, journal, dispatches⟩

instance : MonadLift Extraction Work := ⟨Extraction.toWork⟩

namespace Work

variable {α : Type}

/-- Makes a note in the journal. -/
def note (level : Level) (text : String) : Work Unit :=
  modify fun workspace => { workspace with journal := workspace.journal.push ⟨level, text⟩ }

/-- Makes several notes in the journal. -/
def noteAll (notes : List Note) : Work Unit :=
  notes.forM fun entry => note entry.level entry.text

/-- Records that a plugin is asked to replace a leaf. -/
def dispatch (tag : Tag) : Work Unit :=
  modify fun workspace =>
    { workspace with
      dispatches := workspace.dispatches.push ⟨tag.name, tag.rawText, workspace.path⟩ }

/-- The current scope path as it is written. -/
def pathText : Work String := do
  return (← get).path.text

/-- Works with one more step on the scope path and returns to the length of the path afterwards,
whether the work succeeds or fails. -/
def withPart (part : PathPart) (work : Work α) : Work α := fun workspace =>
  let outer := workspace.path
  match work { workspace with path := outer.enter part } with
  | .ok value workspace => .ok value { workspace with path := workspace.path.leave outer }
  | .error cause workspace => .error cause { workspace with path := workspace.path.leave outer }

/-- Works and then, whether that succeeds or fails, does `finish` with the outcome still open. -/
def thenAlways {β : Type} (work : Work α) (finish : Work β) : Work β := fun workspace =>
  match work workspace with
  | .ok _ workspace => finish workspace
  | .error cause workspace =>
      match finish workspace with
      | .ok _ workspace => .error cause workspace
      | .error _ workspace => .error cause workspace

/-- Reads markup into detached nodes of the document and notes the references that it keeps. -/
def readFragment (source : String) : Work (List NodeId) := do
  noteAll (Journal.keptReferences (Markup.keptReferences source))
  Edit.readFragment source

end Work

end WordTemplate
