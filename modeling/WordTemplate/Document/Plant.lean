import WordTemplate.Document.Edit
import WordTemplate.Document.Tree

/-!
# Planting trees

Tree values turn into nodes of a document: the nodes of a tree are added in document order, each
under its parent.
-/

namespace WordTemplate

/-- An element given by its name, its attributes and its children. -/
def Tree.node (name : String) (attributes : List (String × String)) (children : List Tree) :
    Tree :=
  .element ⟨name, attributes.map fun (key, value) => ⟨key, value⟩⟩ children

namespace Document

mutual

/-- Adds a tree at the end of the children of `parent`. -/
def plantBelow (parent : NodeId) : Tree → Document → Document
  | .text characters, document => document.addChild parent (.text characters)
  | .markup raw, document => document.addChild parent (.markup raw)
  | .element held children, document =>
      plantAllBelow document.nextId children (document.addChild parent (.element held))

/-- Adds trees at the end of the children of `parent`. -/
def plantAllBelow (parent : NodeId) : List Tree → Document → Document
  | [], document => document
  | first :: rest, document => plantAllBelow parent rest (plantBelow parent first document)

end

/-- Adds a detached tree, whose topmost node gets the address `nextId`. -/
def plant (document : Document) : Tree → Document
  | .text characters => document.add (.text characters)
  | .markup raw => document.add (.markup raw)
  | .element held children =>
      plantAllBelow document.nextId children (document.add (.element held))

end Document

/-- Adds a detached tree and returns its topmost node. -/
def Edit.plant (tree : Tree) : Edit NodeId := fun document =>
  .ok document.nextId (document.plant tree)

end WordTemplate
