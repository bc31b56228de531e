import WordTemplate.Document.Tree
import WordTemplate.Tag.Delimiters
import WordTemplate.Word.Name

/-!
# Finding delimiters

A word processor splits text into runs wherever it likes, so delimiters are matched against the
text of consecutive text nodes as if they were one. A delimiter never reaches across the border of
a paragraph, and two delimiters never share a character. Elements that are nested too deeply are
skipped.
-/

namespace WordTemplate

/-- A place where a delimiter ends. -/
structure DelimiterMark where
  /-- The text node that holds the last character of the delimiter. -/
  node : NodeId
  /-- The byte offset of that character in the text node. -/
  offset : Nat
  isStart : Bool
deriving DecidableEq

/-- Which delimiter ends with the latest character: `true` for a tag's start, `false` for its end.
The start is preferred, except that delimiters with the same spelling alternate. -/
def Delimiters.completed? (delimiters : Delimiters) (insideTag : Bool) (latestFirst : List Char) :
    Option Bool :=
  let ended (delimiter : String) := delimiter.toList.reverse.isPrefixOf latestFirst
  if !(insideTag && delimiters.tagStart == delimiters.tagEnd) && ended delimiters.tagStart then
    some true
  else if ended delimiters.tagEnd then some false
  else none

/-- The number of characters of the longer one of the delimiters of a tag. -/
def Delimiters.reach (delimiters : Delimiters) : Nat :=
  max delimiters.tagStart.length delimiters.tagEnd.length

/-- The progress of a scan. -/
structure Scan where
  /-- The characters since the last delimiter or paragraph border, latest first, as far back as a
  delimiter can reach. -/
  window : List Char := []
  /-- Whether the last delimiter since the last paragraph border started a tag. -/
  insideTag : Bool := false
  /-- The delimiters found so far, latest first. -/
  found : List DelimiterMark := []
  /-- The names of the elements skipped so far, latest first. -/
  skippedNames : List String := []

namespace Scan

/-- The delimiters in the order of their ends. -/
def marks (scan : Scan) : List DelimiterMark := scan.found.reverse

/-- The names of the skipped elements in the order of the document. -/
def skipped (scan : Scan) : List String := scan.skippedNames.reverse

/-- Forgets the characters before a paragraph border. -/
def cross (scan : Scan) : Scan := { scan with window := [], insideTag := false }

/-- Takes in the character at a byte offset of a text node. -/
def step (delimiters : Delimiters) (node : NodeId) (offset : Nat) (char : Char) (scan : Scan) :
    Scan :=
  let window := (char :: scan.window).take delimiters.reach
  match delimiters.completed? scan.insideTag window with
  | some isStart =>
      { scan with
        window := [], insideTag := isStart, found := ⟨node, offset, isStart⟩ :: scan.found }
  | none => { scan with window }

/-- Takes in the characters of a text node from a byte offset on. -/
def stepAll (delimiters : Delimiters) (node : NodeId) : Nat → List Char → Scan → Scan
  | _, [], scan => scan
  | offset, char :: rest, scan =>
      stepAll delimiters node (offset + char.utf8Size) rest
        (scan.step delimiters node offset char)

/-- Takes in a node and what is below it. Elements are entered down to `levels` levels. -/
def visit (delimiters : Delimiters) (document : Document) : Nat → NodeId → Scan → Scan
  | levels, node, scan =>
      match document.content node with
      | .text characters => scan.stepAll delimiters node 0 characters.toList
      | .markup _ => scan
      | .element held =>
          match levels with
          | 0 => { scan with skippedNames := held.name :: scan.skippedNames }
          | levels + 1 =>
              let inside (scan : Scan) :=
                (document.children node).foldl
                  (fun scan child => visit delimiters document levels child scan) scan
              if held.name = Word.Name.paragraph then (inside scan.cross).cross else inside scan

/-- Scans the subtree of `root` down to `levels` levels of elements. -/
def run (delimiters : Delimiters) (levels : Nat) (document : Document) (root : NodeId) : Scan :=
  visit delimiters document levels root {}

end Scan

end WordTemplate
