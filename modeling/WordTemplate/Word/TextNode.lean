import WordTemplate.Document.Copy
import WordTemplate.Text.Offset
import WordTemplate.Word.Properties

/-!
# Splitting and joining text nodes

A text node in a text element is split together with that element, so that each half has an
element of its own. Joining removes the text nodes it absorbs together with the elements that
are left with nothing to carry.
-/

namespace WordTemplate

namespace Document

/-- The text nodes after `start` up to and including `stop`, at most `steps` nodes far. -/
def textRange? (document : Document) : Nat → NodeId → NodeId → Option (List NodeId)
  | 0, _, _ => none
  | steps + 1, start, stop =>
      if start = stop then some []
      else
        (document.nextText? start).bind fun next =>
          (textRange? document steps next stop).map (next :: ·)

/-- Whether an element has nothing left to carry. -/
def isPrunable (document : Document) (id : NodeId) : Bool :=
  (document.element? id).isSome && ((document.children id).isEmpty || document.isEmptyRun id)

end Document

namespace Edit

/-- The characters of a text node. -/
def textAt (id : NodeId) : Edit String := do
  match (← get).text? id with
  | some characters => return characters
  | none => throw (.notText id)

/-- Splits a text node at a byte offset. The node keeps what is before it, and a new text node right
after it receives the rest and is returned. -/
def splitText (id : NodeId) (offset : Nat) : Edit NodeId := do
  let characters ← textAt id
  match Text.splitAtByte? offset characters.toList with
  | none => throw (.invalidOffset id offset)
  | some (before, after) =>
      setText id (String.ofList before)
      let tail ← createText (String.ofList after)
      match (← get).textElement? id with
      | some element =>
          let tailElement ← copyNode element
          appendChild tailElement tail
          insertAfter tailElement element
          keepSpace element
          keepSpace tailElement
      | none => insertAfter tail id
      return tail

/-- Detaches the given elements, nearest first, up to the first one that `kept` lies in or that has
something to carry. -/
def pruneUpwards (kept : NodeId) : List NodeId → Edit Unit
  | [] => pure ()
  | candidate :: outer => do
      let document ← get
      if document.contains candidate kept || !document.isPrunable candidate then
        pure ()
      else
        detach candidate
        pruneUpwards kept outer

/-- Detaches a node and the ancestors that are left with nothing to carry, but none that `kept` lies
in. -/
def removeAbsorbed (kept id : NodeId) : Edit Unit := do
  let outer := (← get).ancestors id
  detach id
  pruneUpwards kept outer

/-- Moves the characters of all text nodes from `start` to `stop` into `start`. -/
def joinText (start stop : NodeId) : Edit Unit := do
  if start = stop then
    return
  let first ← textAt start
  let document ← get
  match document.textRange? (document.size + 1) start stop with
  | none => throw (.notInRange start stop)
  | some absorbed =>
      setText start (first ++ String.join (absorbed.map document.textOf))
      absorbed.forM (removeAbsorbed start)
      match (← get).textElement? start with
      | some element => keepSpace element
      | none => pure ()

end Edit

end WordTemplate
