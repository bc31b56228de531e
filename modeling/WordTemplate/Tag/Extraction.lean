import WordTemplate.Tag.Reading
import WordTemplate.Tag.Scan
import WordTemplate.Word.TextNode

/-!
# Taking tags out of a document

The text of each tag is gathered in a text node of its own, which is emptied once the tag has been
read. Tags are gathered from the last to the first, so that the marks of the tags still to come
stay valid.
-/

namespace WordTemplate

/-- An operation on a document that may fail with a fault of the template. -/
abbrev Extraction := EStateM TemplateError Document

/-- An edit whose faults count as faults of the template. -/
def Edit.toExtraction {α : Type} (edit : Edit α) : Extraction α := fun document =>
  match edit document with
  | .ok value document => .ok value document
  | .error cause document => .error (.document cause) document

instance : MonadLift Edit Extraction := ⟨Edit.toExtraction⟩

/-- The marks of the start and the end of a tag. -/
structure TagMarks where
  start : DelimiterMark
  stop : DelimiterMark

namespace TagMarks

/-- Pairs each start with the end that follows it, where `pending` is a start without an end. -/
def pair (document : Document) :
    Option DelimiterMark → List DelimiterMark → Except TemplateError (List TagMarks)
  | none, [] => .ok []
  | some start, [] => .error (.missingClose (document.textOf start.node))
  | none, mark :: rest =>
      if mark.isStart then pair document (some mark) rest
      else .error (.missingStart (document.textOf mark.node))
  | some start, mark :: rest =>
      if mark.isStart then .error (.missingClose (document.textOf start.node))
      else (pair document none rest).map (⟨start, mark⟩ :: ·)

end TagMarks

namespace Document

/-- At most `steps` text nodes before a node, nearest first. -/
def textsBefore (document : Document) : Nat → NodeId → List NodeId
  | 0, _ => []
  | steps + 1, node =>
      match document.previousText? node with
      | some previous => previous :: textsBefore document steps previous
      | none => []

/-- The position `count` characters before the end of `before`, a leading part of the text of
`node`, which the texts of `earlier`, nearest first, precede. -/
def rewind (document : Document) (count : Nat) (node : NodeId) (before : List Char)
    (earlier : List NodeId) : Except TemplateError (NodeId × Nat) :=
  if count ≤ before.length then
    .ok (node, Text.byteLength (before.take (before.length - count)))
  else
    match earlier with
    | [] => .error (.missingStart (document.textOf node))
    | previous :: rest =>
        rewind document (count - before.length) previous (document.textOf previous).toList rest

/-- The characters of a text node before a byte offset. -/
def textBefore (document : Document) (node : NodeId) (offset : Nat) : List Char :=
  ((Text.splitAtByte? offset (document.textOf node).toList).map Prod.fst).getD []

/-- The byte offset after the character at a byte offset of a text node. -/
def offsetAfter (document : Document) (node : NodeId) (offset : Nat) : Nat :=
  let next := (Text.splitAtByte? offset (document.textOf node).toList).bind (·.2.head?)
  offset + (next.map Char.utf8Size).getD 0

/-- The text node and the byte offset at which the delimiter of a start mark begins. -/
def tagBegin (document : Document) (delimiters : Delimiters) (start : DelimiterMark) :
    Except TemplateError (NodeId × Nat) :=
  document.rewind (delimiters.tagStart.length - 1) start.node
    (document.textBefore start.node start.offset)
    (document.textsBefore document.size start.node)

end Document

namespace Extraction

/-- Gathers the text of a tag in a text node of its own. -/
def isolate (delimiters : Delimiters) (marks : TagMarks) : Extraction NodeId := do
  let document ← get
  let (startNode, startOffset) ← ofExcept (document.tagBegin delimiters marks.start)
  let cut := document.offsetAfter marks.stop.node marks.stop.offset
  if cut < (document.textOf marks.stop.node).utf8ByteSize then
    discard (Edit.splitText marks.stop.node cut)
  if startOffset = 0 then
    Edit.joinText startNode marks.stop.node
    return startNode
  else
    let tagNode ← (Edit.splitText startNode startOffset : Edit NodeId)
    Edit.joinText tagNode (if startNode = marks.stop.node then tagNode else marks.stop.node)
    return tagNode

/-- Gathers the texts of tags, the last one first. -/
def isolateAll (delimiters : Delimiters) : List TagMarks → Extraction (List NodeId)
  | [] => return []
  | marks :: later => do
      let laterNodes ← isolateAll delimiters later
      let node ← isolate delimiters marks
      return node :: laterNodes

/-- Reads the tag in a text node and empties the node. -/
def takeTag (delimiters : Delimiters) (node : NodeId) : Extraction Tag := do
  let tag ← ofExcept (Tag.read delimiters node ((← get).textOf node))
  Edit.setText node ""
  return tag

/-- Takes out the tags whose delimiters are marked. -/
def takeTags (delimiters : Delimiters) (marks : List DelimiterMark) : Extraction (List Tag) := do
  let pairs ← ofExcept (TagMarks.pair (← get) none marks)
  let nodes ← isolateAll delimiters pairs
  nodes.mapM (takeTag delimiters)

end Extraction

end WordTemplate
