import WordTemplate.Error
import WordTemplate.Journal
import WordTemplate.Markup.Build
import WordTemplate.Markup.Printer
import WordTemplate.Package.Resources

/-!
# Packages

A package is a list of named parts, each the markup of a document, together with the resources that
the parts refer to. Parts are listed in the order in which they were added.
-/

namespace WordTemplate

/-- The parts of a document with their resources. -/
structure Package where
  parts : List (String × String) := []
  resources : Resources := {}

namespace Package

/-- The name of this kind of package in the journal. -/
def kindName : String := "InMemoryPartSource"

/-- The names of the parts. -/
def partNames (package : Package) : List String := package.parts.map Prod.fst

/-- The markup of a part. -/
def part? (package : Package) (name : String) : Option String := package.parts.lookup name

/-- Replaces the markup of the first part with the given name, or adds the part at the end. -/
def replaceOrAdd (name source : String) : List (String × String) → List (String × String)
  | [] => [(name, source)]
  | first :: rest =>
      if first.1 = name then (name, source) :: rest else first :: replaceOrAdd name source rest

/-- The package with the markup of a part set. -/
def setPart (package : Package) (name source : String) : Package :=
  { package with parts := replaceOrAdd name source package.parts }

/-- The document in a part. -/
def load (package : Package) (name : String) : Except PartError Document :=
  match package.part? name with
  | none => .error .missing
  | some source =>
      match Document.read source with
      | .ok document => .ok document
      | .error cause => .error (.unreadable cause)

/-- What is noted while the document in a part is read. -/
def loadNotes (package : Package) (name : String) : List Note :=
  Journal.keptReferences (((package.part? name).map Markup.keptReferences).getD [])

/-- The package with a document written into a part. -/
def save (package : Package) (name : String) (document : Document) : Package :=
  package.setPart name document.toMarkup

/-- The package with the document in a part written into another part. -/
def copyPart (package : Package) (source target : String) : Except PartError Package :=
  (package.load source).map (package.save target)

end Package

end WordTemplate
