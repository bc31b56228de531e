import WordTemplate.Document.Edit
import WordTemplate.Word.Structure

/-!
# Setting properties

Properties stand at the start of their container, after the elements that the schema puts before
them, and each is written at most once.
-/

namespace WordTemplate.Edit

/-- Makes a text element keep the spacing at its ends. -/
def keepSpace (textElement : NodeId) : Edit Unit :=
  setAttribute textElement Word.Name.space "preserve"

/-- The child of `parent` named `name`. A new one is placed after the leading children whose names
are in `leading`. -/
def ensureProperties (parent : NodeId) (name : String) (leading : List String) : Edit NodeId := do
  let document ← get
  match document.childNamed? parent name with
  | some existing => return existing
  | none =>
      let index := ((document.children parent).takeWhile fun child =>
        leading.any (document.isNamed child ·)).length
      let properties ← createElement name
      insertChild parent index properties
      return properties

/-- The child of `properties` named `flag`, added at the end unless it is there. -/
def setFlag (properties : NodeId) (flag : String) : Edit NodeId := do
  match (← get).childNamed? properties flag with
  | some existing => return existing
  | none =>
      let added ← createElement flag
      appendChild properties added
      return added

/-- Removes the empty runs among the children of a node. -/
def removeEmptyRuns (container : NodeId) : Edit Unit := do
  let document ← get
  ((document.children container).filter document.isEmptyRun).forM detach

end WordTemplate.Edit
