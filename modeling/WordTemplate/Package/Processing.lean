import WordTemplate.Filling.Compiler
import WordTemplate.Filling.Standard
import WordTemplate.Package.Basic

/-!
# Processing packages

A processor fills the parts of a package with data. Parts are filled one after the other and written
back only when all of them are filled; relationships and media files are added to the package while
a part is being filled.
-/

namespace WordTemplate

/-- A package with the journal of what was done with it. -/
structure Session where
  package : Package := {}
  journal : Journal := #[]

/-- An operation on a package that may fail with a fault of a template. -/
abbrev Processing := EStateM TemplateError Session

/-- A step that is taken with a whole part before or after its tags are filled. -/
structure Extension where
  run : Context → Work Unit

namespace Extension

/-- Adds a paragraph with a text at the end of the body, or of the root if there is no body. -/
def appendParagraph (text : String) : Extension where
  run _ := do
    let document := (← get).document
    let body := (document.descendantsNamed document.root Word.Name.body).head?
    let paragraph ← Edit.plant
      (.node Word.Name.paragraph [] [
        .node Word.Name.run [] [.node Word.Name.text [] [.text text]]])
    Edit.appendChild (body.getD document.root) paragraph

/-- Enters a scope for the rest of the part. -/
def enterScope (key : String) : Extension where
  run _ := modify fun workspace => { workspace with path := workspace.path.enter (.key key) }

/-- Refuses every part. -/
def refuse (reason : String) : Extension where
  run _ := throw (.config (.refused reason))

end Extension

/-- A compiler with what it needs to fill whole packages. -/
structure Processor where
  compiler : Compiler
  resolver : Resolver
  before : List Extension
  after : List Extension

/-- The settings of a processor. -/
structure ProcessorSettings where
  delimiters : Delimiters := Delimiters.standard
  options : CompilerOptions := {}
  style : HidingStyle := .vanishRuns
  /-- Plugins that replace the standard ones of their content types. -/
  plugins : List Plugin := []
  resolver : Resolver := Resolver.lexical
  before : List Extension := []
  after : List Extension := []

namespace ProcessorSettings

/-- What is noted about the settings when a processor is made of them. -/
def notes (settings : ProcessorSettings) : List Note :=
  settings.plugins.map fun plugin =>
    ⟨.debug, "Using a custom plugin for " ++ plugin.contentType.name⟩

/-- The processor with these settings, if they are usable. -/
def build (settings : ProcessorSettings) : Except TemplateError Processor := do
  let plugins := Plugin.standard settings.style ++ settings.plugins
  let compiler ← Compiler.create settings.delimiters plugins settings.options
  return {
    compiler
    resolver := settings.resolver
    before := settings.before
    after := settings.after }

end ProcessorSettings

namespace Processing

variable {α : Type}

/-- Makes notes in the journal. -/
def noteAll (notes : List Note) : Processing Unit :=
  modify fun session => { session with journal := session.journal ++ notes.toArray }

/-- The document in a part. -/
def load (part : String) : Processing Document := do
  let package := (← get).package
  noteAll (package.loadNotes part)
  match package.load part with
  | .ok document => return document
  | .error cause => throw (.malformedPart part cause)

/-- Writes a document into a part. -/
def save (part : String) (document : Document) : Processing Unit :=
  modify fun session => { session with package := session.package.save part document }

/-- Works on a document with the resources of the package and the journal. -/
def workOn (document : Document) (work : Work α) : Processing (α × Document) := fun session =>
  match work ⟨document, [], session.package.resources, session.journal, #[]⟩ with
  | .ok value ⟨document, _, resources, journal, _⟩ =>
      .ok (value, document) { package := { session.package with resources }, journal }
  | .error cause ⟨_, _, resources, journal, _⟩ =>
      .error cause { package := { session.package with resources }, journal }

end Processing

namespace Processor

/-- Fills the document of a part and takes the steps before and after that. -/
def fill (processor : Processor) (context : Context) : Work Unit := do
  processor.before.forM (·.run context)
  processor.compiler.compile context (← get).document.root
  processor.after.forM (·.run context)
  Work.note .debug ("Part '" ++ context.part ++ "' compiled")

/-- The filled document of a part. -/
def compilePart (processor : Processor) (data : Data.Value) (part : String) :
    Processing Document := do
  let document ← Processing.load part
  let (_, filled) ← Processing.workOn document
    (processor.fill { part, data, resolver := processor.resolver })
  return filled

/-- Fills a single part. -/
def processPart (processor : Processor) (data : Data.Value) (part : String) :
    Processing Unit := do
  Processing.save part (← processor.compilePart data part)

/-- Fills all parts. None is written back unless all of them could be filled. -/
def process (processor : Processor) (data : Data.Value) : Processing Unit := do
  let parts := (← get).package.partNames
  Processing.noteAll [⟨.debug, "Processing " ++ Text.decimalText parts.length ++
    " part(s) from " ++ Package.kindName⟩]
  let documents ← parts.mapM (processor.compilePart data)
  (parts.zip documents).forM fun (part, document) => Processing.save part document

/-- The tags of a part, which stays as it is. -/
def tagsOf (processor : Processor) (part : String) : Processing (List Tag) := do
  let document ← Processing.load part
  let (tags, _) ← Processing.workOn document (processor.compiler.takeTags document.root)
  return tags

/-- The tags of all parts, in the order of the parts. -/
def allTags (processor : Processor) : Processing (List Tag) := do
  let tags ← (← get).package.partNames.mapM processor.tagsOf
  return tags.flatten

/-- The text of a part, its tags included. -/
def textOf (part : String) : Processing String := do
  let document ← Processing.load part
  return document.textContent document.root

end Processor

end WordTemplate
