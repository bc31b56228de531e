import WordTemplate.Document.Tree
import WordTemplate.Word.Name

/-!
# Structure of word-processing documents

Paragraphs hold runs, runs hold text elements, and every container may lead with an element of
properties, whose name ends in `Pr`.
-/

namespace WordTemplate.Document

/-- Whether a node is an element of properties. -/
def isProperties (document : Document) (id : NodeId) : Bool :=
  match document.name? id with
  | some name => "Pr".toList.isSuffixOf name.toList
  | none => false

/-- Whether a node is an element of properties depends on what it carries. -/
theorem isProperties_of_content_eq {before after : Document} {id id' : NodeId}
    (same : after.content id' = before.content id) :
    after.isProperties id' = before.isProperties id := by
  rw [isProperties, isProperties, name?, name?, element?, element?, same]

/-- The text element that a text node stands in. -/
def textElement? (document : Document) (id : NodeId) : Option NodeId :=
  (document.parent id).filter (document.isNamed · Word.Name.text)

/-- The node that carries a text node: its text element, or else the node itself. -/
def textUnit (document : Document) (id : NodeId) : NodeId :=
  (document.textElement? id).getD id

/-- The run around a node. -/
def run? (document : Document) (id : NodeId) : Option NodeId :=
  document.ancestorNamed? id Word.Name.run

/-- The paragraph around a node. -/
def paragraph? (document : Document) (id : NodeId) : Option NodeId :=
  document.ancestorNamed? id Word.Name.paragraph

/-- The table cell around a node. -/
def tableCell? (document : Document) (id : NodeId) : Option NodeId :=
  document.ancestorNamed? id Word.Name.tableCell

/-- The table row around a node. -/
def tableRow? (document : Document) (id : NodeId) : Option NodeId :=
  document.ancestorNamed? id Word.Name.tableRow

/-- The child of a paragraph's properties with the given name. -/
def paragraphProperty? (document : Document) (paragraph : NodeId) (name : String) :
    Option NodeId :=
  (document.childNamed? paragraph Word.Name.paragraphProperties).bind (document.childNamed? · name)

/-- Whether a paragraph is numbered. -/
def isListParagraph (document : Document) (paragraph : NodeId) : Bool :=
  (document.paragraphProperty? paragraph Word.Name.numberingProperties).isSome

/-- Whether a paragraph ends a section. -/
def hasSectionBreak (document : Document) (paragraph : NodeId) : Bool :=
  (document.paragraphProperty? paragraph Word.Name.sectionProperties).isSome

/-- Whether a node is a run with nothing besides its properties. -/
def isEmptyRun (document : Document) (id : NodeId) : Bool :=
  document.isNamed id Word.Name.run &&
    (document.children id).all (document.isNamed · Word.Name.runProperties)

/-- Whether a node is a paragraph of properties and empty runs only that ends no section. -/
def isEmptyParagraph (document : Document) (id : NodeId) : Bool :=
  document.isNamed id Word.Name.paragraph && !document.hasSectionBreak id &&
    (document.children id).all fun child =>
      document.isNamed child Word.Name.paragraphProperties || document.isEmptyRun child

/-- Whether a node is an empty paragraph that its parent can do without. A table cell has to keep
one of its paragraphs. -/
def isRemovableParagraph (document : Document) (id : NodeId) : Bool :=
  document.isEmptyParagraph id &&
    match document.parent id with
    | none => false
    | some parent =>
        if document.isNamed parent Word.Name.tableCell then
          1 < ((document.children parent).filter (document.isNamed · Word.Name.paragraph)).length
        else
          true

end WordTemplate.Document
