import WordTemplate.Data.Printer
import WordTemplate.Data.Record

/-!
# Sections

A section is a named part of a document that may be hidden. What becomes of a hidden section depends
on its mode: it stays in the document without being shown, or it is left out.
-/

namespace WordTemplate

/-- What becomes of a hidden section. -/
inductive HideMode where
  /-- It stays without being shown. -/
  | hidable
  /-- It is left out. -/
  | excludable
deriving DecidableEq

namespace HideMode

/-- The name of a mode. -/
def name : HideMode → String
  | hidable => "hidable"
  | excludable => "excludable"

/-- The mode with the given name. -/
def ofName? : String → Option HideMode
  | "hidable" => some hidable
  | "excludable" | "ejectable" => some excludable
  | _ => none

end HideMode

/-- How the content control around a section is drawn. -/
inductive Appearance where
  | hidden
  | boundingBox
deriving DecidableEq

namespace Appearance

/-- The name of an appearance. -/
def name : Appearance → String
  | hidden => "hidden"
  | boundingBox => "boundingBox"

/-- The appearance with the given name. -/
def ofName? (name : String) : Option Appearance :=
  [hidden, boundingBox].find? (·.name == name)

end Appearance

/-- A named part of a document that may be hidden. -/
structure Section where
  id : Option String
  name : Option String
  hidden : Bool
  /-- A section that is not to be included is hidden. -/
  include? : Option Bool
  hideMode : HideMode
  /-- Whether the content control around the section cannot be deleted. -/
  lock : Bool
  appearance : Option Appearance
deriving DecidableEq

namespace Section

/-- The fields of the record of a section. -/
def fieldNames : List String :=
  ["id", "name", "hidden", "include", "hideMode", "mode", "lock", "appearance"]

/-- The id of a section, which may be written as a string or a number. Other values are no id. -/
def readId : Option Data.Value → Option String
  | some (.string id) => some id
  | some (.number held) => some held.text
  | _ => none

/-- Reads the record of a section. Of the two spellings of the mode the first one counts. -/
def ofRecord? (value : Data.Value) : Option Section := do
  let [id, name, hidden, includeField, hideMode, mode, lock, appearance] ←
    Data.recordFields? fieldNames value | none
  let readMode (value : Data.Value) := (Data.alternative? value).bind HideMode.ofName?
  let hideMode ← Data.optional readMode hideMode
  let mode ← Data.optional readMode mode
  return {
    id := readId id
    name := ← Data.optional Data.Value.string? name
    hidden := ← Data.withDefault false Data.Value.bool? hidden
    include? := ← Data.optional Data.Value.bool? includeField
    hideMode := (hideMode.or mode).getD .hidable
    lock := ← Data.withDefault false Data.Value.bool? lock
    appearance :=
      ← Data.optional (fun value => (Data.alternative? value).bind Appearance.ofName?) appearance }

/-- Reads the value bound to a section, a record with the section as its only field. -/
def ofValue? (value : Data.Value) : Option Section := do
  let [held] ← Data.recordFields? ["section"] value | none
  Data.required ofRecord? held

/-- Whether a section is hidden. -/
def isHidden (part : Section) : Bool := part.hidden || part.include? == some false

/-- How many copies of its region a section keeps. -/
def repetitions (part : Section) : Nat :=
  match part.hideMode with
  | .hidable => 1
  | .excludable => if part.isHidden then 0 else 1

/-- The name of the bookmark around a section. -/
def bookmarkName (part : Section) : Option String :=
  part.id.map fun id => part.name.getD ("sectionId_" ++ id)

end Section

end WordTemplate
