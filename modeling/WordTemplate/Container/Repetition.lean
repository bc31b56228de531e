import WordTemplate.Document.Copy
import WordTemplate.Filling.Plugin

/-!
# Repeating a region

The nodes of a region are copied once for each repetition, and the tags inside the region follow
their text nodes into every copy. A copy is compiled below a temporary wrapper, since filling its
tags may split or remove its topmost nodes; whatever is then below the wrapper is the compiled copy.
-/

namespace WordTemplate

/-- A copy of a list of nodes: the topmost new nodes, and pairs of a copied node and its copy. -/
structure RegionCopy where
  roots : List NodeId := []
  pairs : List (NodeId × NodeId) := []

namespace RegionCopy

/-- The tags whose text nodes were copied, each tied to the copy of its text node. -/
def tags (copy : RegionCopy) (copied : List Tag) : List Tag :=
  copied.filterMap fun tag => (copy.pairs.lookup tag.textNode).map tag.relocated

/-- A copy has at most as many tags as were copied. -/
theorem length_tags_le (copy : RegionCopy) (copied : List Tag) :
    (copy.tags copied).length ≤ copied.length :=
  List.length_filterMap_le _ _

end RegionCopy

namespace Edit

/-- Copies nodes with everything below them. -/
def copyRegion : List NodeId → Edit RegionCopy
  | [] => return {}
  | node :: rest => do
      let first ← copySubtree node
      let others ← copyRegion rest
      return { roots := first.root :: others.roots, pairs := first.pairs ++ others.pairs }

/-- Copies nodes a number of times. -/
def repeatRegion (nodes : List NodeId) : Nat → Edit (List RegionCopy)
  | 0 => return []
  | times + 1 => do
      let first ← copyRegion nodes
      let others ← repeatRegion nodes times
      return first :: others

/-- The name of the element that holds a copy while it is compiled. -/
def wrapperName : String := "stencil:wrapper"

/-- Puts nodes below a new wrapper. -/
def fillWrapper (nodes : List NodeId) : Edit NodeId := do
  let wrapper ← createElement wrapperName
  nodes.forM (appendChild wrapper)
  return wrapper

/-- Detaches the nodes below a wrapper and returns them. -/
def emptyWrapper (wrapper : NodeId) : Edit (List NodeId) := do
  let nodes := (← get).children wrapper
  nodes.forM detach
  return nodes

end Edit

namespace Region

/-- How copies of a region relate to the scope path. -/
inductive Scoping where
  /-- Every copy is compiled with its index on the path. -/
  | indexed
  /-- The path stays as it is. -/
  | unchanged
deriving DecidableEq

/-- Compiles a copy of the region and returns its topmost nodes. The wrapper is emptied even if
compiling fails. -/
def compileCopy (region : Region) (compile : RegionCompiler region) (scoping : Scoping)
    (index : Nat) (copy : RegionCopy) : Work (List NodeId) := do
  let wrapper ← Edit.fillWrapper copy.roots
  let work := compile (copy.tags region.innerTags) (copy.length_tags_le region.innerTags)
  let placed :=
    match scoping with
    | .indexed => Work.withPart (.index index) work
    | .unchanged => work
  Work.thenAlways placed (Edit.emptyWrapper wrapper : Work (List NodeId))

/-- Compiles copies of the region, numbered from `index` on. -/
def compileCopies (region : Region) (compile : RegionCompiler region) (scoping : Scoping) :
    Nat → List RegionCopy → Work (List (List NodeId))
  | _, [] => return []
  | index, copy :: rest => do
      let nodes ← region.compileCopy compile scoping index copy
      let others ← compileCopies region compile scoping (index + 1) rest
      return nodes :: others

end Region

end WordTemplate
