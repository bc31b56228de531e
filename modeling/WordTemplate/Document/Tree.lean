import WordTemplate.Document.Navigation

/-!
# Trees and document order

`Document.tree` is the value of the tree below a node, free of addresses. `Document.descendants`
lists the nodes below a node in document order, that is each node before its children, and the
text operations read the text nodes in this order. No path down from a node is longer than the
store, so the size of the store bounds every descent.
-/

namespace WordTemplate

/-- A node with everything below it. -/
inductive Tree where
  | text (characters : String)
  | element (held : Element) (children : List Tree)
  | markup (raw : String)

namespace Document

/-- The tree below a node, down to `levels` levels. -/
def treeWithin (document : Document) : Nat → NodeId → Tree
  | levels, id =>
      match document.content id with
      | .text characters => .text characters
      | .markup raw => .markup raw
      | .element held =>
          match levels with
          | 0 => .element held []
          | levels + 1 => .element held ((document.children id).map (treeWithin document levels))

/-- The tree below a node. -/
def tree (document : Document) (id : NodeId) : Tree :=
  document.treeWithin document.size id

/-- The nodes at most `levels` levels below a node, in document order. -/
def descendantsWithin (document : Document) : Nat → NodeId → List NodeId
  | 0, _ => []
  | levels + 1, id =>
      (document.children id).flatMap fun child =>
        child :: descendantsWithin document levels child

/-- The nodes below a node, in document order. -/
def descendants (document : Document) (id : NodeId) : List NodeId :=
  document.descendantsWithin document.size id

/-- A node and the nodes below it, in document order. -/
def subtree (document : Document) (id : NodeId) : List NodeId :=
  id :: document.descendants id

/-- The elements with the given name below a node, in document order. -/
def descendantsNamed (document : Document) (id : NodeId) (name : String) : List NodeId :=
  (document.descendants id).filter (document.isNamed · name)

/-- The character data of a node and all nodes below it. -/
def textContent (document : Document) (id : NodeId) : String :=
  String.join ((document.subtree id).map document.textOf)

/-- The first text node of a subtree. -/
def firstText? (document : Document) (id : NodeId) : Option NodeId :=
  (document.subtree id).find? document.isText

/-- The text node of a subtree that is met first on the way back: the node itself, or else the last
one below it. -/
def lastText? (document : Document) (id : NodeId) : Option NodeId :=
  if document.isText id then some id
  else (document.descendants id).reverse.find? document.isText

/-- The text node that follows a node and everything below it. -/
def nextText? (document : Document) (id : NodeId) : Option NodeId :=
  (id :: document.ancestors id).findSome? fun level =>
    (document.laterSiblings level).findSome? document.firstText?

/-- The text node that precedes a node. -/
def previousText? (document : Document) (id : NodeId) : Option NodeId :=
  (id :: document.ancestors id).findSome? fun level =>
    (document.earlierSiblings level).findSome? document.lastText?

end Document

end WordTemplate
