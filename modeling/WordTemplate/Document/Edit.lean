import WordTemplate.Document.Error
import WordTemplate.Document.Navigation

/-!
# Editing documents

An edit changes a document and may fail. What it did before it failed stays done, so a failing
edit has a resulting document as well. Every insertion takes the node out of its old place first,
and no insertion puts a node below itself, so parents and child lists agree after each operation.
-/

namespace WordTemplate

/-- An operation on a document that may fail and keeps what it did before it failed. -/
abbrev Edit := EStateM DocumentError Document

namespace Document

/-- Takes a node out of its parent, with everything below it. -/
def detach (document : Document) (id : NodeId) : Document :=
  match document.parent id with
  | some parent =>
      (document.modifyNode id fun node => { node with parent := none }).modifyNode parent
        fun node => { node with children := node.children.filter (· != id) }
  | none => document

/-- Puts a detached node among the children of `parent`, at position `index` or at the end. -/
def place (document : Document) (parent : NodeId) (index : Nat) (child : NodeId) : Document :=
  let position := min index (document.children parent).length
  (document.modifyNode parent fun node =>
    { node with children := node.children.insertIdx position child }).modifyNode child
      fun node => { node with parent := some parent }

/-- Puts a detached node after the last child of `parent`. -/
def placeLast (document : Document) (parent child : NodeId) : Document :=
  document.place parent (document.children parent).length child

/-- Adds a node as the last child of `parent`, at the address `nextId`. -/
def addChild (document : Document) (parent : NodeId) (content : Content) : Document :=
  (document.add content).placeLast parent document.nextId

/-- Makes a node the root of the document. -/
def withNewRoot (document : Document) (root : NodeId) : Document :=
  { document.detach root with root }

end Document

namespace Edit

/-- Adds a detached node. -/
def create (content : Content) : Edit NodeId := fun document =>
  .ok document.nextId (document.add content)

/-- Adds a detached element. -/
def createElement (name : String) : Edit NodeId := create (.element { name })

/-- Adds a detached text node. -/
def createText (characters : String) : Edit NodeId := create (.text characters)

/-- Adds a detached piece of markup. -/
def createMarkup (raw : String) : Edit NodeId := create (.markup raw)

/-- Replaces the characters of a text node. -/
def setText (id : NodeId) (characters : String) : Edit Unit := do
  if (← get).isText id then
    modify (·.setContent id (.text characters))
  else
    throw (.notText id)

/-- Sets an attribute of an element; other nodes keep what they carry. -/
def setAttribute (id : NodeId) (key value : String) : Edit Unit :=
  modify (·.setAttribute id key value)

/-- Replaces the markup before the root. -/
def setProlog (prolog : Option String) : Edit Unit :=
  modify ({ · with prolog })

/-- Takes a node out of its parent, with everything below it. -/
def detach (id : NodeId) : Edit Unit := modify (·.detach id)

/-- The parent of a node that has to have one. -/
def parentOf (id : NodeId) : Edit NodeId := do
  match (← get).parent id with
  | some parent => return parent
  | none => throw (.detached id)

/-- The position of a node among the children of the parent that it has to have. -/
def indexOf (id : NodeId) : Edit Nat := do
  match (← get).childIndex? id with
  | some index => return index
  | none => throw (.detached id)

/-- Fails if `parent` is `node` or lies below it. -/
def checkCycle (parent node : NodeId) : Edit Unit := do
  if (← get).contains node parent then
    throw (.cycle node parent)

/-- Makes a node the last child of `parent`. -/
def appendChild (parent child : NodeId) : Edit Unit := do
  checkCycle parent child
  modify fun document => (document.detach child).placeLast parent child

/-- Makes a node the child of `parent` at position `index`, counted without the node itself, or the
last child where there are fewer. -/
def insertChild (parent : NodeId) (index : Nat) (child : NodeId) : Edit Unit := do
  checkCycle parent child
  modify fun document => (document.detach child).place parent index child

/-- Moves a node to a place `offset` positions after that of `reference`. -/
def insertBeside (offset : Nat) (node reference : NodeId) : Edit Unit := do
  let parent ← parentOf reference
  checkCycle parent node
  detach node
  let index ← indexOf reference
  insertChild parent (index + offset) node

/-- Moves a node to the place right before `reference`. -/
def insertBefore (node reference : NodeId) : Edit Unit := insertBeside 0 node reference

/-- Moves a node to the place right after `reference`. -/
def insertAfter (node reference : NodeId) : Edit Unit := insertBeside 1 node reference

end Edit

/-- The siblings from `first` to `last`, both included. -/
def Document.siblingRange (document : Document) (first last : NodeId) :
    Except DocumentError (List NodeId) :=
  match document.parent first with
  | none => .error (.detached first)
  | some parent =>
      if document.parent last = some parent then
        let children := document.children parent
        match children.idxOf? first, children.idxOf? last with
        | some start, some stop =>
            if start ≤ stop then .ok ((children.drop start).take (stop - start + 1))
            else .error (.notSiblings first last)
        | _, _ => .error (.notSiblings first last)
      else
        .error (.notSiblings first last)

namespace Edit

/-- The siblings from `first` to `last`, both included. -/
def siblingRange (first last : NodeId) : Edit (List NodeId) := do
  match (← get).siblingRange first last with
  | .ok range => return range
  | .error cause => throw cause

/-- Detaches the siblings strictly between `first` and `last`. -/
def removeBetween (first last : NodeId) : Edit (List NodeId) := do
  let range ← siblingRange first last
  let inner := (range.drop 1).dropLast
  inner.forM detach
  return inner

end Edit

end WordTemplate
