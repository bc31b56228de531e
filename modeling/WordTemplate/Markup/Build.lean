import WordTemplate.Document.Edit
import WordTemplate.Markup.Event

/-!
# From events to trees

Events are added to a document one after the other. Elements that are open form a stack whose
top receives the next node; character data next to each other becomes one text node.
-/

namespace WordTemplate

namespace Document

/-- Adds character data at the end of `parent`, to its last child if that is text. -/
def addText (document : Document) (parent : NodeId) (characters : String) : Document :=
  match document.lastChild? parent with
  | some last =>
      match document.text? last with
      | some existing => document.setContent last (.text (existing ++ characters))
      | none => document.addChild parent (.text characters)
  | none => document.addChild parent (.text characters)

end Document

/-- A document that grows, with the elements that are open above the container, innermost first. -/
structure GrowingDocument where
  document : Document
  container : NodeId
  openElements : List NodeId

namespace GrowingDocument

/-- The node that receives the next child. -/
def top (growing : GrowingDocument) : NodeId :=
  growing.openElements.head?.getD growing.container

/-- Adds one event. -/
def add (growing : GrowingDocument) (event : Markup.Event) : GrowingDocument :=
  let document := growing.document
  match event with
  | .opening name attributes =>
      { growing with
        document := document.addChild growing.top (.element { name, attributes })
        openElements := document.nextId :: growing.openElements }
  | .empty name attributes =>
      { growing with document := document.addChild growing.top (.element { name, attributes }) }
  | .closing _ => { growing with openElements := growing.openElements.drop 1 }
  | .text characters => { growing with document := document.addText growing.top characters }
  | .reference name =>
      { growing with document := document.addText growing.top (Markup.referenceText name) }
  | .markup raw => { growing with document := document.addChild growing.top (.markup raw) }

end GrowingDocument

namespace Document

/-- Adds events below a container. -/
def addEvents (document : Document) (container : NodeId) (events : List Markup.Event) :
    Document :=
  (events.foldl GrowingDocument.add ⟨document, container, []⟩).document

/-- The name of the element that holds nodes while they are read. -/
def containerName : String := "#fragment"

/-- The markup among the first children up to the first element, and that element. -/
def splitProlog (document : Document) : List NodeId → String × Option NodeId
  | [] => ("", none)
  | child :: rest =>
      match document.content child with
      | .element _ => ("", some child)
      | .markup raw =>
          let (prolog, root) := document.splitProlog rest
          (raw ++ prolog, root)
      | .text _ => document.splitProlog rest

/-- Reads a whole document. Its root is the first element, and the markup before it its prolog. -/
def read (source : String) : Except DocumentError Document :=
  let reading := Markup.Reading.of source
  let empty := withRoot containerName
  let document := empty.addEvents empty.root reading.events
  match reading.failure with
  | some cause => .error (.unreadable cause)
  | none =>
      match document.splitProlog (document.children document.root) with
      | (_, none) => .error .missingRoot
      | (prolog, some root) =>
          .ok { document.withNewRoot root with
            prolog := if prolog.isEmpty then none else some prolog }

end Document

namespace Edit

/-- Reads markup into detached nodes of the document. Of markup with a fault the nodes before the
fault stay in the store, below a container of their own. -/
def readFragment (source : String) : Edit (List NodeId) := do
  let container ← createElement Document.containerName
  let reading := Markup.Reading.of source
  modify (·.addEvents container reading.events)
  match reading.failure with
  | some cause => throw (.unreadable cause)
  | none =>
      let nodes := (← get).children container
      nodes.forM detach
      return nodes

end Edit

/-- The names of the references in a text that denote no character and are kept as they stand, up to
the text's first fault. -/
def Markup.keptReferences (source : String) : List String :=
  Markup.unresolvedReferences (Markup.Reading.of source).events

end WordTemplate
