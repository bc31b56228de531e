import WordTemplate.Document.Edit
import WordTemplate.Document.Tree

/-!
# Copying subtrees

A copy consists of new nodes only. Copying reports which new node stands for which old one, in
document order, so that references into the copied subtree can be carried over.
-/

namespace WordTemplate

/-- A copied subtree: its topmost node, and pairs of a copied node and its copy. -/
structure SubtreeCopy where
  root : NodeId
  pairs : List (NodeId × NodeId)

namespace Document

/-- Copies nodes one after the other below `parent`, each by `copy`. -/
def copyEach (copy : NodeId → Document → Document × SubtreeCopy) (parent : NodeId) :
    List NodeId → Document → Document × List (NodeId × NodeId)
  | [], document => (document, [])
  | child :: rest, document =>
      let (document, first) := copy child document
      let (document, pairs) := copyEach copy parent rest (document.placeLast parent first.root)
      (document, first.pairs ++ pairs)

/-- Copies a node and at most `levels` levels below it. -/
def copyWithin : Nat → NodeId → Document → Document × SubtreeCopy
  | 0, id, document =>
      (document.add (document.content id), ⟨document.nextId, [(id, document.nextId)]⟩)
  | levels + 1, id, document =>
      let root := document.nextId
      let (copied, pairs) :=
        copyEach (copyWithin levels) root (document.children id)
          (document.add (document.content id))
      (copied, ⟨root, (id, root) :: pairs⟩)

/-- Copies a node with everything below it. -/
def copySubtree (document : Document) (id : NodeId) : Document × SubtreeCopy :=
  copyWithin document.size id document

end Document

namespace Edit

/-- Copies a node without what is below it. The copy is detached. -/
def copyNode (id : NodeId) : Edit NodeId := do
  create ((← get).content id)

/-- Copies a node with everything below it. The copy is detached. -/
def copySubtree (id : NodeId) : Edit SubtreeCopy := fun document =>
  let (document, copy) := document.copySubtree id
  .ok copy document

end Edit

end WordTemplate
