import WordTemplate.Container.Section
import WordTemplate.Document.Plant
import WordTemplate.Text.Numeral
import WordTemplate.Word.Properties

/-!
# Hiding a section

The nodes of a section are collected before they go back into the document. Afterwards the runs,
paragraph marks, rows and content controls among them are flagged as hidden, or the section is moved
into a content control. Bookmarks named after the section mark where it begins and ends.
-/

namespace WordTemplate

/-- The nodes of a section, in document order. -/
structure SectionNodes where
  /-- The topmost nodes. -/
  topmost : List NodeId
  runs : List NodeId
  paragraphs : List NodeId
  rows : List NodeId
  /-- The properties of content controls. -/
  controlProperties : List NodeId

namespace SectionNodes

/-- Collects the nodes below the topmost nodes of a section. -/
def collect (document : Document) (topmost : List NodeId) : SectionNodes :=
  let nodes := topmost.flatMap document.subtree
  let named (name : String) := nodes.filter (document.isNamed · name)
  { topmost
    runs := named Word.Name.run
    paragraphs := named Word.Name.paragraph
    rows := named Word.Name.tableRow
    controlProperties := named Word.Name.contentControlProperties }

/-- The names of the elements that can stand for a section as a whole. -/
def blockNames : List String :=
  [Word.Name.paragraph, Word.Name.table, Word.Name.tableRow, Word.Name.contentControl]

/-- The topmost nodes that are blocks of the document, provided that they all have one parent. -/
def attachedBlocks (nodes : SectionNodes) (document : Document) : List NodeId :=
  let blocks := nodes.topmost.filter fun node =>
    document.isAttached node && (document.parent node).isSome &&
      blockNames.any (document.isNamed node)
  match blocks with
  | [] => []
  | first :: _ =>
      if blocks.all fun node => document.parent node = document.parent first then blocks else []

/-- The first and the last block of the section. -/
def attachedRange? (nodes : SectionNodes) (document : Document) : Option (NodeId × NodeId) :=
  match nodes.attachedBlocks document with
  | [] => none
  | first :: rest => some (first, rest.getLast?.getD first)

end SectionNodes

namespace Edit

/-- Does an edit if a node is part of the tree under the root. -/
def whenAttached (id : NodeId) (edit : Edit Unit) : Edit Unit := do
  if (← get).isAttached id then
    edit

/-- Hides a run. -/
def hideRun (run : NodeId) : Edit Unit :=
  whenAttached run do
    let properties ← ensureProperties run Word.Name.runProperties []
    discard (setFlag properties Word.Name.vanish)

/-- The properties of the mark of a paragraph, given the properties of the paragraph. New ones are
placed before a section break and before the recorded change of the properties. -/
def ensureMarkProperties (paragraphProperties : NodeId) : Edit NodeId := do
  let document ← get
  match document.childNamed? paragraphProperties Word.Name.runProperties with
  | some existing => return existing
  | none =>
      let created ← createElement Word.Name.runProperties
      let trailing :=
        [Word.Name.sectionProperties, Word.Name.paragraphPropertiesChange].findSome?
          (document.childNamed? paragraphProperties)
      match trailing with
      | some next => insertBefore created next
      | none => appendChild paragraphProperties created
      return created

/-- Hides the mark of a paragraph whose runs are all among the given ones. -/
def hideParagraph (runs : List NodeId) (paragraph : NodeId) : Edit Unit :=
  whenAttached paragraph do
    let document ← get
    if document.isNamed paragraph Word.Name.paragraph &&
        (document.descendantsNamed paragraph Word.Name.run).all runs.contains then
      let properties ← ensureProperties paragraph Word.Name.paragraphProperties []
      let markProperties ← ensureMarkProperties properties
      discard (setFlag markProperties Word.Name.vanish)

/-- Hides a table row. -/
def hideRow (row : NodeId) : Edit Unit :=
  whenAttached row do
    let properties ←
      ensureProperties row Word.Name.tableRowProperties [Word.Name.tablePropertyExceptions]
    discard (setFlag properties Word.Name.hidden)

/-- Hides a content control, given its properties. -/
def hideControl (controlProperties : NodeId) : Edit Unit :=
  whenAttached controlProperties do
    let properties ← ensureProperties controlProperties Word.Name.runProperties []
    discard (setFlag properties Word.Name.vanish)

/-- Hides the nodes of a section that are part of the document, and the mark of the paragraph `head`
that the section was merged into if it holds no other run. -/
def hideNodes (nodes : SectionNodes) (head : NodeId) : Edit Unit := do
  nodes.runs.forM hideRun
  (nodes.paragraphs ++ [head]).forM (hideParagraph nodes.runs)
  nodes.rows.forM hideRow
  nodes.controlProperties.forM hideControl

/-- Puts bookmarks named after a section before `first` and after `last`. Only a section with an id
has a bookmark. -/
def addBookmarks (part : Section) (first last : NodeId) : Edit Unit := do
  match part.id, part.bookmarkName with
  | some id, some name =>
      let start ← plant
        (.node Word.Name.bookmarkStart
          [(Word.Name.bookmarkId, id), (Word.Name.bookmarkName, name)] [])
      let stop ← plant (.node Word.Name.bookmarkEnd [(Word.Name.bookmarkId, id)] [])
      insertBefore start first
      insertAfter stop last
  | _, _ => pure ()

/-- Puts bookmarks around the blocks of a section, if there are any. -/
def bookmarkSection (part : Section) (nodes : SectionNodes) : Edit Unit := do
  match nodes.attachedRange? (← get) with
  | some (first, last) => addBookmarks part first last
  | none => pure ()

end Edit

namespace Section

/-- The property of a content control that holds one value. -/
def valueProperty (name value : String) : Tree := .node name [(Word.Name.value, value)] []

/-- The properties of the content control around a section. -/
def controlProperties (part : Section) : Tree :=
  let vanishing :=
    if part.isHidden then
      [.node Word.Name.runProperties [] [.node Word.Name.vanish [] []]]
    else
      []
  let naming := part.name.toList.flatMap fun name =>
    [valueProperty "w:alias" name, valueProperty "w:tag" name]
  let numbering := (part.id.filter fun id => (Text.readInt64? id.toList).isSome).toList.map
    (valueProperty "w:id")
  let locking := if part.lock then [valueProperty "w:lock" "sdtLocked"] else []
  let appearance := part.appearance.or (if part.isHidden then some .hidden else none)
  let drawing := appearance.toList.map fun appearance =>
    .node "w15:appearance" [("w15:val", appearance.name)] []
  .node Word.Name.contentControlProperties []
    (vanishing ++ naming ++ numbering ++ locking ++ drawing)

end Section

/-- Moves the blocks of a section and what is between them into a content control, if there are any,
and tells whether there were. -/
def Edit.wrapInControl (part : Section) (nodes : SectionNodes) : Edit Bool := do
  match nodes.attachedRange? (← get) with
  | none => return false
  | some (first, last) =>
      let range ← Edit.siblingRange first last
      let control ← Edit.createElement Word.Name.contentControl
      let properties ← Edit.plant part.controlProperties
      let content ← Edit.createElement Word.Name.contentControlContent
      Edit.appendChild control properties
      Edit.appendChild control content
      Edit.insertBefore control first
      range.forM (Edit.appendChild content)
      Edit.addBookmarks part control control
      return true

end WordTemplate
