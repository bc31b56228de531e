import WordTemplate.Document.Basic

/-!
# Moving through a document

Steps from a node to its siblings and ancestors. No node of a tree has more ancestors than the
store has entries, so the size of the store bounds every climb.
-/

namespace WordTemplate.Document

/-- The children of a node's parent. -/
def siblings (document : Document) (id : NodeId) : List NodeId :=
  match document.parent id with
  | some parent => document.children parent
  | none => []

/-- The position of a node among the children of its parent. -/
def childIndex? (document : Document) (id : NodeId) : Option Nat :=
  (document.siblings id).idxOf? id

/-- The siblings after a node, nearest first. -/
def laterSiblings (document : Document) (id : NodeId) : List NodeId :=
  ((document.siblings id).dropWhile (· != id)).drop 1

/-- The siblings before a node, nearest first. -/
def earlierSiblings (document : Document) (id : NodeId) : List NodeId :=
  ((document.siblings id).takeWhile (· != id)).reverse

/-- The sibling right after a node. -/
def nextSibling? (document : Document) (id : NodeId) : Option NodeId :=
  (document.laterSiblings id).head?

/-- The sibling right before a node. -/
def previousSibling? (document : Document) (id : NodeId) : Option NodeId :=
  (document.earlierSiblings id).head?

/-- At most `steps` ancestors of a node, nearest first. -/
def ancestorsWithin (document : Document) : Nat → NodeId → List NodeId
  | 0, _ => []
  | steps + 1, id =>
      match document.parent id with
      | some parent => parent :: ancestorsWithin document steps parent
      | none => []

/-- The ancestors of a node, nearest first, without the node itself. -/
def ancestors (document : Document) (id : NodeId) : List NodeId :=
  document.ancestorsWithin document.size id

/-- The number of ancestors of a node. -/
def depth (document : Document) (id : NodeId) : Nat := (document.ancestors id).length

/-- Whether a node is `ancestor` or lies below it. -/
def contains (document : Document) (ancestor id : NodeId) : Bool :=
  id == ancestor || (document.ancestors id).contains ancestor

/-- Whether a node is part of the tree under the root. -/
def isAttached (document : Document) (id : NodeId) : Bool :=
  document.contains document.root id

/-- The nearest element with the given name among a node and its ancestors. -/
def ancestorNamed? (document : Document) (id : NodeId) (name : String) : Option NodeId :=
  (id :: document.ancestors id).find? (document.isNamed · name)

end WordTemplate.Document
