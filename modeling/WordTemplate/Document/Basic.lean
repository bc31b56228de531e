import WordTemplate.Document.Node

/-!
# Documents

A document is a store of nodes with a root and the markup that precedes the root. Nodes taken
out of the tree stay in the store, so an address once given out stays valid.

The tree is stored twice, in the parent of each node and in the child lists; `Document.add` only
adds detached nodes, and the operations of `WordTemplate.Document.Edit` change both together.
-/

namespace WordTemplate

/-- A store of nodes with its root. -/
structure Document where
  nodes : Array Node
  root : NodeId
  prolog : Option String := none

namespace Document

/-- A document that consists of an empty root element. -/
def withRoot (name : String) : Document :=
  { nodes := #[{ content := .element { name } }], root := ⟨0⟩ }

/-- The number of nodes in the store, detached ones included. -/
def size (document : Document) : Nat := document.nodes.size

/-- All addresses in the order of creation. -/
def ids (document : Document) : List NodeId :=
  (List.range document.size).map NodeId.mk

/-- The entry at an address. Unused addresses stand for empty detached text. -/
def node (document : Document) (id : NodeId) : Node :=
  document.nodes[id.index]?.getD { content := .text "" }

/-- What a node carries. -/
def content (document : Document) (id : NodeId) : Content := (document.node id).content

/-- The node that a node is a child of. -/
def parent (document : Document) (id : NodeId) : Option NodeId := (document.node id).parent

/-- The children of a node, in order. -/
def children (document : Document) (id : NodeId) : List NodeId := (document.node id).children

/-- The element at a node. -/
def element? (document : Document) (id : NodeId) : Option Element :=
  (document.content id).element?

/-- The name of the element at a node. -/
def name? (document : Document) (id : NodeId) : Option String :=
  (document.element? id).map Element.name

/-- Whether a node is an element with the given name. -/
def isNamed (document : Document) (id : NodeId) (name : String) : Bool :=
  document.name? id == some name

/-- The character data at a node. -/
def text? (document : Document) (id : NodeId) : Option String :=
  (document.content id).text?

/-- Whether a node is character data. -/
def isText (document : Document) (id : NodeId) : Bool := (document.text? id).isSome

/-- The character data at a node, which is empty for other nodes. -/
def textOf (document : Document) (id : NodeId) : String := (document.text? id).getD ""

/-- The value of an attribute of the element at a node. -/
def attribute? (document : Document) (id : NodeId) (key : String) : Option String :=
  (document.element? id).bind (·.attribute? key)

/-- The last child of a node. -/
def lastChild? (document : Document) (id : NodeId) : Option NodeId :=
  (document.children id).getLast?

/-- The first child that is an element with the given name. -/
def childNamed? (document : Document) (id : NodeId) (name : String) : Option NodeId :=
  (document.children id).find? (document.isNamed · name)

/-- Changes the entry at an address. -/
def modifyNode (document : Document) (id : NodeId) (change : Node → Node) : Document :=
  { document with nodes := document.nodes.modify id.index change }

/-- The address of the next node to be added. -/
def nextId (document : Document) : NodeId := ⟨document.size⟩

/-- Adds a detached node without children, at the address `nextId`. -/
def add (document : Document) (content : Content) : Document :=
  { document with nodes := document.nodes.push { content } }

/-- Replaces what a node carries. -/
def setContent (document : Document) (id : NodeId) (content : Content) : Document :=
  document.modifyNode id fun node => { node with content }

/-- Sets an attribute of the element at a node. Other nodes keep what they carry. -/
def setAttribute (document : Document) (id : NodeId) (key value : String) : Document :=
  match document.element? id with
  | some element => document.setContent id (.element (element.setAttribute key value))
  | none => document

/-- Whether a node has a name depends on what it carries. -/
theorem isNamed_of_content_eq {before after : Document} {id id' : NodeId}
    (same : after.content id' = before.content id) (name : String) :
    after.isNamed id' name = before.isNamed id name := by
  rw [isNamed, isNamed, name?, name?, element?, element?, same]

@[simp]
theorem size_add (document : Document) (content : Content) :
    (document.add content).size = document.size + 1 := by
  simp [add, size]

@[simp]
theorem size_modifyNode (document : Document) (id : NodeId) (change : Node → Node) :
    (document.modifyNode id change).size = document.size := by
  simp [modifyNode, size]

/-- A new node is detached and carries what was added. -/
theorem node_add_nextId (document : Document) (content : Content) :
    (document.add content).node document.nextId = { content } := by
  simp [node, add, nextId, size]

/-- Adding a node changes no other entry. -/
theorem node_add_of_lt {document : Document} {id : NodeId} (inStore : id.index < document.size)
    (content : Content) : (document.add content).node id = document.node id := by
  simp only [size] at inStore
  simp [node, add, Array.getElem?_push, Nat.ne_of_lt inStore]

/-- An entry after it was changed. -/
theorem node_modifyNode_self {document : Document} {id : NodeId}
    (inStore : id.index < document.size) (change : Node → Node) :
    (document.modifyNode id change).node id = change (document.node id) := by
  simp only [size] at inStore
  simp [node, modifyNode, inStore, Array.getElem_modify]

/-- Changing an entry changes no other entry. -/
theorem node_modifyNode_of_ne {document : Document} {id other : NodeId} (differ : other ≠ id)
    (change : Node → Node) :
    (document.modifyNode id change).node other = document.node other := by
  have indexDiffers : id.index ≠ other.index := fun same => differ (by
    cases id; cases other; simp_all)
  simp [node, modifyNode, Array.getElem?_modify, indexDiffers]

end Document

end WordTemplate
