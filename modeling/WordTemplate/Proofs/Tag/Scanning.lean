import Mathlib.Data.List.Forall2
import WordTemplate.Tag.Scan
import WordTemplate.Text.Offset

/-!
# Scanning is independent of fragmentation

A scan keeps a bounded window of characters while it walks from text node to text node. This file
compares it with plain matching on strings, which knows neither nodes nor windows: at each point
the whole text since the last delimiter is asked whether it ends with a delimiter.

The text nodes that a scan meets are cut into segments at the borders of paragraphs. In every
segment the scan marks exactly the delimiters that plain matching finds in the concatenated text,
so the marks do not depend on how that text is spread over nodes.
-/

namespace WordTemplate

/-- The place of a delimiter in a text. -/
structure TextMark where
  /-- The position of the last character of the delimiter. -/
  position : Nat
  isStart : Bool
deriving DecidableEq

/-- The same place counted from a point `count` characters earlier. -/
def TextMark.shift (count : Nat) (mark : TextMark) : TextMark :=
  { mark with position := count + mark.position }

namespace Delimiters

/-- The delimiter that a text ends with, if any: `true` for the start of a tag. The start wins a
tie, except that identical delimiters close a tag that is open. -/
def ending? (delimiters : Delimiters) (insideTag : Bool) (text : List Char) : Option Bool :=
  if ¬(insideTag = true ∧ delimiters.tagStart = delimiters.tagEnd) ∧
      delimiters.tagStart.toList <:+ text then
    some true
  else if delimiters.tagEnd.toList <:+ text then some false
  else none

/-- The first place of a text where a delimiter ends. -/
def firstMark? (delimiters : Delimiters) (insideTag : Bool) (text : List Char) :
    Option TextMark :=
  (List.range text.length).findSome? fun position =>
    (delimiters.ending? insideTag (text.take (position + 1))).map (TextMark.mk position)

theorem position_lt_of_firstMark? {delimiters : Delimiters} {insideTag : Bool} {text : List Char}
    {mark : TextMark} (isFirst : delimiters.firstMark? insideTag text = some mark) :
    mark.position < text.length := by
  rcases List.exists_of_findSome?_eq_some isFirst with ⟨position, isPosition, found⟩
  rcases Option.map_eq_some_iff.mp found with ⟨isStart, _, rfl⟩
  exact List.mem_range.mp isPosition

/-- The delimiters that plain matching finds in a text, from left to right. The search goes on
behind each delimiter as if the text began there. -/
def plainMarks (delimiters : Delimiters) (insideTag : Bool) (text : List Char) : List TextMark :=
  match found : delimiters.firstMark? insideTag text with
  | none => []
  | some mark =>
      mark :: (plainMarks delimiters mark.isStart (text.drop (mark.position + 1))).map
        (TextMark.shift (mark.position + 1))
termination_by text.length
decreasing_by
  have inside := position_lt_of_firstMark? found
  simp only [List.length_drop]
  omega

/-- No delimiter ends anywhere in a text. -/
def Quiet (delimiters : Delimiters) (insideTag : Bool) (text : List Char) : Prop :=
  ∀ position < text.length, delimiters.ending? insideTag (text.take (position + 1)) = none

section

variable {delimiters : Delimiters} {insideTag isStart : Bool} {since rest : List Char} {char : Char}

theorem quiet_nil : delimiters.Quiet insideTag [] := by
  simp [Quiet]

/-- Text in which no delimiter ends stays so while the next character completes none. -/
theorem Quiet.concat (quiet : delimiters.Quiet insideTag since)
    (none_ends : delimiters.ending? insideTag (since ++ [char]) = none) :
    delimiters.Quiet insideTag (since ++ [char]) := by
  intro position inside
  simp only [List.length_append, List.length_singleton] at inside
  rcases Nat.lt_succ_iff_lt_or_eq.mp inside with before | rfl
  · rw [List.take_append_of_le_length before]
    exact quiet position before
  · rw [List.take_of_length_le (by simp)]
    exact none_ends

theorem plainMarks_of_quiet (quiet : delimiters.Quiet insideTag since) :
    delimiters.plainMarks insideTag since = [] := by
  have none_found : delimiters.firstMark? insideTag since = none := by
    simp only [firstMark?, List.findSome?_eq_none_iff, List.mem_range, Option.map_eq_none_iff]
    exact quiet
  rw [plainMarks]
  split
  · rfl
  · next mark found => simp [none_found] at found

/-- The first delimiter is the one that ends with the first character to complete one. -/
theorem plainMarks_of_ending (quiet : delimiters.Quiet insideTag since)
    (ends : delimiters.ending? insideTag (since ++ [char]) = some isStart) :
    delimiters.plainMarks insideTag (since ++ char :: rest) =
      ⟨since.length, isStart⟩ ::
        (delimiters.plainMarks isStart rest).map (TextMark.shift (since.length + 1)) := by
  have earlier : (List.range since.length).findSome? (fun position =>
      (delimiters.ending? insideTag ((since ++ char :: rest).take (position + 1))).map
        (TextMark.mk position)) = none := by
    simp only [List.findSome?_eq_none_iff, List.mem_range, Option.map_eq_none_iff]
    intro position before
    rw [List.take_append_of_le_length before]
    exact quiet position before
  have taken : (since ++ char :: rest).take (since.length + 1) = since ++ [char] := by
    rw [List.take_append, List.take_of_length_le (Nat.le_succ _)]
    simp
  have isFirst : delimiters.firstMark? insideTag (since ++ char :: rest) =
      some ⟨since.length, isStart⟩ := by
    rw [firstMark?, List.length_append, List.range_add, List.findSome?_append, earlier,
      List.length_cons, List.range_succ_eq_map]
    simp [taken, ends]
  rw [plainMarks]
  split
  · next found => simp [isFirst] at found
  · next mark found =>
      obtain rfl : ⟨since.length, isStart⟩ = mark := by simpa [isFirst] using found
      rw [List.drop_append, List.drop_of_length_le (Nat.le_succ _)]
      simp

end

/-- The next window shows as much of the end of the text as the last one. -/
theorem take_reach (delimiters : Delimiters) (since : List Char) (char : Char) :
    (char :: since.reverse.take delimiters.reach).take delimiters.reach =
      (since ++ [char]).reverse.take delimiters.reach := by
  rw [List.reverse_append, List.reverse_singleton, List.singleton_append]
  rcases delimiters.reach with _ | reach
  · simp
  · simp [List.take_take]

/-- The window of a scan shows the same delimiters as the whole text that it is the end of. -/
theorem completed?_eq_ending? (delimiters : Delimiters) (insideTag : Bool) (since : List Char)
    (char : Char) :
    delimiters.completed? insideTag
        ((char :: since.reverse.take delimiters.reach).take delimiters.reach) =
      delimiters.ending? insideTag (since ++ [char]) := by
  have seen : ∀ delimiter : String, delimiter.length ≤ delimiters.reach →
      (delimiter.toList.reverse.isPrefixOf ((since ++ [char]).reverse.take delimiters.reach) = true ↔
        delimiter.toList <:+ since ++ [char]) := by
    intro delimiter short
    rw [List.isPrefixOf_iff_prefix, List.prefix_take_iff, List.reverse_prefix, List.length_reverse,
      String.length_toList]
    exact and_iff_left short
  have startSeen := seen delimiters.tagStart (Nat.le_max_left _ _)
  have endSeen := seen delimiters.tagEnd (Nat.le_max_right _ _)
  simp only [completed?, ending?, take_reach, Bool.and_eq_true, Bool.not_eq_true', startSeen, endSeen,
    Bool.and_eq_false_iff, beq_eq_false_iff_ne, not_and_or, Bool.not_eq_true, ne_eq]

end Delimiters

/-- A character of a text node and the byte offset at which it stands there. -/
structure Place where
  node : NodeId
  offset : Nat
  char : Char

/-- The characters of a text node from a byte offset on. -/
def Place.allFrom (node : NodeId) : Nat → List Char → List Place
  | _, [] => []
  | offset, char :: rest => ⟨node, offset, char⟩ :: allFrom node (offset + char.utf8Size) rest

/-- What a scan meets on its way: text nodes, and the borders of paragraphs. -/
inductive Stop where
  | text (id : NodeId)
  | border

/-- The text nodes between two borders next to each other. -/
def Stop.segments : List Stop → List (List NodeId)
  | [] => [[]]
  | .border :: rest => [] :: segments rest
  | .text id :: rest => (segments rest).modifyHead (id :: ·)

theorem Stop.segments_ne_nil (stops : List Stop) : Stop.segments stops ≠ [] := by
  induction stops with
  | nil => simp [Stop.segments]
  | cons stop stops inductionHypothesis =>
      cases stop with
      | border => simp [Stop.segments]
      | text id => simpa [Stop.segments, List.modifyHead_eq_nil_iff] using inductionHypothesis

namespace Document

variable (document : Document)

/-- The text nodes and paragraph borders in a subtree, down to `levels` levels of elements. -/
def stops : Nat → NodeId → List Stop
  | levels, id =>
      match document.content id with
      | .text _ => [.text id]
      | .markup _ => []
      | .element held =>
          match levels with
          | 0 => []
          | levels + 1 =>
              let inside := (document.children id).flatMap (stops levels)
              if held.name = Word.Name.paragraph then .border :: (inside ++ [.border]) else inside

/-- The text nodes that are met down to `levels` levels, cut at the borders of paragraphs. -/
def segments (levels : Nat) (root : NodeId) : List (List NodeId) :=
  Stop.segments (document.stops levels root)

/-- The text of consecutive text nodes. -/
def segmentText (segment : List NodeId) : List Char :=
  segment.flatMap fun node => (document.textOf node).toList

/-- The characters of consecutive text nodes. -/
def places (segment : List NodeId) : List Place :=
  segment.flatMap fun node => Place.allFrom node 0 (document.textOf node).toList

/-- The character that ends a delimiter in a text node is the one at a position in the text of the
segment. -/
def MarkedAt (segment : List NodeId) (mark : DelimiterMark) (textMark : TextMark) : Prop :=
  mark.isStart = textMark.isStart ∧
    ∃ char, (document.places segment)[textMark.position]? = some ⟨mark.node, mark.offset, char⟩

/-- Marks stand one after the other at the given positions of the segments. -/
inductive Located : List (List NodeId) → List DelimiterMark → List (List TextMark) → Prop
  | nil : Located [] [] []
  | cons {segment : List NodeId} {marks others : List DelimiterMark} {textMarks : List TextMark}
      {segments : List (List NodeId)} {positions : List (List TextMark)}
      (here : List.Forall₂ (document.MarkedAt segment) marks textMarks)
      (later : Located segments others positions) :
      Located (segment :: segments) (marks ++ others) (textMarks :: positions)

end Document

namespace Scan

variable (delimiters : Delimiters) (document : Document)

/-- Takes in a character of a text node. -/
def stepAt (scan : Scan) (place : Place) : Scan :=
  scan.step delimiters place.node place.offset place.char

/-- Takes in the characters of consecutive text nodes. -/
def takeSegment (scan : Scan) (segment : List NodeId) : Scan :=
  (document.places segment).foldl (stepAt delimiters) scan

/-- Takes in what stands at a stop. -/
def meet (scan : Scan) : Stop → Scan
  | .text id => scan.stepAll delimiters id 0 (document.textOf id).toList
  | .border => scan.cross

/-- Two scans that differ at most in the elements they skipped. -/
structure Alike (scan other : Scan) : Prop where
  window : scan.window = other.window
  insideTag : scan.insideTag = other.insideTag
  found : scan.found = other.found

section

variable {delimiters : Delimiters} {document : Document} {scan other : Scan}

theorem Alike.step {node : NodeId} {offset : Nat} {char : Char} (alike : Alike scan other) :
    Alike (scan.step delimiters node offset char) (other.step delimiters node offset char) := by
  rcases alike with ⟨window, insideTag, found⟩
  simp only [Scan.step, window, insideTag, found]
  split
  · exact ⟨rfl, rfl, rfl⟩
  · exact ⟨rfl, rfl, rfl⟩

theorem Alike.stepAll {node : NodeId} {offset : Nat} {chars : List Char}
    (alike : Alike scan other) :
    Alike (scan.stepAll delimiters node offset chars)
      (other.stepAll delimiters node offset chars) := by
  induction chars generalizing offset scan other with
  | nil => exact alike
  | cons char rest inductionHypothesis => exact inductionHypothesis alike.step

theorem Alike.cross (alike : Alike scan other) : Alike scan.cross other.cross :=
  ⟨rfl, rfl, alike.found⟩

theorem alike_stepAll {node : NodeId} {characters : String}
    (isText : document.content node = .text characters) (alike : Alike scan other) :
    Alike (scan.stepAll delimiters node 0 characters.toList)
      ([Stop.text node].foldl (meet delimiters document) other) := by
  have text : document.textOf node = characters := by
    simp [Document.textOf, Document.text?, isText, Content.text?]
  simp only [List.foldl_cons, List.foldl_nil, meet, text]
  exact alike.stepAll

/-- Walking down a tree is going from stop to stop. -/
theorem alike_visit (levels : Nat) (node : NodeId) (alike : Alike scan other) :
    Alike (visit delimiters document levels node scan)
      ((document.stops levels node).foldl (meet delimiters document) other) := by
  induction levels generalizing node scan other with
  | zero =>
      unfold visit Document.stops
      cases isContent : document.content node with
      | text characters => exact alike_stepAll isContent alike
      | markup raw => exact alike
      | element held => exact ⟨alike.window, alike.insideTag, alike.found⟩
  | succ levels inductionHypothesis =>
      have below : ∀ (children : List NodeId) {scan other : Scan}, Alike scan other →
          Alike (children.foldl (fun scan child => visit delimiters document levels child scan) scan)
            ((children.flatMap (document.stops levels)).foldl (meet delimiters document) other) := by
        intro children
        induction children with
        | nil => exact id
        | cons child children laterChildren =>
            intro scan other alike
            rw [List.flatMap_cons, List.foldl_append]
            exact laterChildren (inductionHypothesis child alike)
      unfold visit Document.stops
      cases isContent : document.content node with
      | text characters => exact alike_stepAll isContent alike
      | markup raw => exact alike
      | element held =>
          by_cases isParagraph : held.name = Word.Name.paragraph
          · simpa [isParagraph, meet] using (below _ alike.cross).cross
          · simpa [isParagraph] using below _ alike

theorem stepAll_eq_foldl (node : NodeId) (offset : Nat) (chars : List Char) (scan : Scan) :
    scan.stepAll delimiters node offset chars =
      (Place.allFrom node offset chars).foldl (stepAt delimiters) scan := by
  induction chars generalizing offset scan with
  | nil => rfl
  | cons char rest inductionHypothesis => exact inductionHypothesis _ _

/-- Going from stop to stop is going from segment to segment, with a border before each but the
first one. -/
theorem foldl_meet {stops : List Stop} {first : List NodeId} {later : List (List NodeId)}
    (cut : Stop.segments stops = first :: later) :
    stops.foldl (meet delimiters document) scan =
      later.foldl (fun scan segment => scan.cross.takeSegment delimiters document segment)
        (scan.takeSegment delimiters document first) := by
  induction stops generalizing first later scan with
  | nil =>
      obtain ⟨rfl, rfl⟩ : [] = first ∧ [] = later := by simpa [Stop.segments] using cut
      rfl
  | cons stop stops inductionHypothesis =>
      rcases List.exists_cons_of_ne_nil (Stop.segments_ne_nil stops) with ⟨next, others, cutRest⟩
      cases stop with
      | border =>
          obtain ⟨rfl, rfl⟩ : [] = first ∧ next :: others = later := by
            simpa [Stop.segments, cutRest] using cut
          exact inductionHypothesis cutRest
      | text id =>
          obtain ⟨rfl, rfl⟩ : id :: next = first ∧ others = later := by
            simpa [Stop.segments, cutRest] using cut
          rw [List.foldl_cons, inductionHypothesis cutRest]
          simp [takeSegment, Document.places, meet, stepAll_eq_foldl]

/-- While no delimiter ends in the characters since the last one, going on over the characters of
a segment marks what plain matching finds in all of them together. -/
theorem forall₂_foldl_stepAt {since : List Place} {places : List Place}
    (window : scan.window = ((since.map Place.char).reverse).take delimiters.reach)
    (quiet : delimiters.Quiet scan.insideTag (since.map Place.char)) :
    ∃ marks, (places.foldl (stepAt delimiters) scan).marks = scan.marks ++ marks ∧
      List.Forall₂ (fun mark (textMark : TextMark) => mark.isStart = textMark.isStart ∧
          ∃ char, (since ++ places)[textMark.position]? = some ⟨mark.node, mark.offset, char⟩)
        marks (delimiters.plainMarks scan.insideTag ((since ++ places).map Place.char)) := by
  induction places generalizing since scan with
  | nil =>
      refine ⟨[], by simp, ?_⟩
      rw [List.append_nil, Delimiters.plainMarks_of_quiet quiet]
      exact List.Forall₂.nil
  | cons place places inductionHypothesis =>
      have seen := Delimiters.completed?_eq_ending? delimiters scan.insideTag
        (since.map Place.char) place.char
      rw [← window] at seen
      rw [List.foldl_cons, stepAt, step, seen]
      cases ends : delimiters.ending? scan.insideTag (since.map Place.char ++ [place.char]) with
      | none =>
          have regroup : since ++ place :: places = (since ++ [place]) ++ places := by simp
          rw [regroup]
          refine inductionHypothesis ?_ ?_
          · rw [window, Delimiters.take_reach, List.map_append, List.map_singleton]
          · simpa using quiet.concat ends
      | some isStart =>
          rcases @inductionHypothesis
              { scan with
                window := []
                insideTag := isStart
                found := ⟨place.node, place.offset, isStart⟩ :: scan.found }
              [] List.take_nil.symm Delimiters.quiet_nil with ⟨marks, found, located⟩
          refine ⟨⟨place.node, place.offset, isStart⟩ :: marks, ?_, ?_⟩
          · rw [found]
            simp [Scan.marks]
          · rw [List.map_append, List.map_cons, Delimiters.plainMarks_of_ending quiet ends]
            refine List.Forall₂.cons ⟨rfl, place.char, by simp⟩ ?_
            rw [List.forall₂_map_right_iff]
            refine located.imp fun later textMark standing => ?_
            rcases standing with ⟨same, char, isThere⟩
            refine ⟨same, char, ?_⟩
            have behind : (since ++ place :: places)[(textMark.shift
                ((since.map Place.char).length + 1)).position]? = places[textMark.position]? := by
              rw [TextMark.shift, List.length_map, List.getElem?_append_right (by dsimp only; omega)]
              have position : since.length + 1 + textMark.position - since.length =
                textMark.position + 1 := by omega
              simp [position]
            rw [behind]
            exact isThere

theorem map_char_places (document : Document) (segment : List NodeId) :
    (document.places segment).map Place.char = document.segmentText segment := by
  have allFrom : ∀ (node : NodeId) (chars : List Char) (offset : Nat),
      (Place.allFrom node offset chars).map Place.char = chars := by
    intro node chars
    induction chars with
    | nil => exact fun _ => rfl
    | cons char rest inductionHypothesis =>
        intro offset
        simp [Place.allFrom, inductionHypothesis]
  simp [Document.places, Document.segmentText, List.map_flatMap, allFrom]

/-- A segment that is entered across a border is marked like its text alone. -/
theorem marks_takeSegment (delimiters : Delimiters) (document : Document) (scan : Scan)
    (segment : List NodeId) (window : scan.window = []) (outside : scan.insideTag = false) :
    ∃ marks, (scan.takeSegment delimiters document segment).marks = scan.marks ++ marks ∧
      List.Forall₂ (document.MarkedAt segment) marks
        (delimiters.plainMarks false (document.segmentText segment)) := by
  have window' : scan.window =
      ((([] : List Place).map Place.char).reverse).take delimiters.reach := by
    rw [window]
    exact List.take_nil.symm
  rcases forall₂_foldl_stepAt window' Delimiters.quiet_nil with ⟨marks, found, located⟩
  rw [outside, List.nil_append, map_char_places] at located
  exact ⟨marks, found, located⟩

/-- Segments behind borders are marked one by one. -/
theorem located_foldl (delimiters : Delimiters) (document : Document)
    (segments : List (List NodeId)) (scan : Scan) :
    ∃ marks, (segments.foldl (fun scan segment =>
        scan.cross.takeSegment delimiters document segment) scan).marks = scan.marks ++ marks ∧
      document.Located segments marks
        (segments.map fun segment => delimiters.plainMarks false (document.segmentText segment)) := by
  induction segments generalizing scan with
  | nil => exact ⟨[], by simp, Document.Located.nil⟩
  | cons segment segments inductionHypothesis =>
      rcases marks_takeSegment delimiters document scan.cross segment rfl rfl with
        ⟨marks, found, here⟩
      rcases inductionHypothesis (scan.cross.takeSegment delimiters document segment) with
        ⟨others, foundLater, later⟩
      refine ⟨marks ++ others, ?_, Document.Located.cons here later⟩
      rw [List.foldl_cons, foundLater, found, List.append_assoc]
      rfl

/-- A scan marks the delimiters that plain matching finds in the segments. -/
theorem located_run (delimiters : Delimiters) (levels : Nat) (document : Document)
    (root : NodeId) :
    document.Located (document.segments levels root) (run delimiters levels document root).marks
      ((document.segments levels root).map fun segment =>
        delimiters.plainMarks false (document.segmentText segment)) := by
  rcases List.exists_cons_of_ne_nil (Stop.segments_ne_nil (document.stops levels root)) with
    ⟨first, later, cut⟩
  have alike : Alike ({} : Scan) {} := ⟨rfl, rfl, rfl⟩
  have visited : (visit delimiters document levels root {}).found =
      ((document.stops levels root).foldl (meet delimiters document) {}).found :=
    (alike_visit levels root alike).found
  rw [foldl_meet cut] at visited
  rcases marks_takeSegment delimiters document {} first rfl rfl with ⟨marks, found, here⟩
  rcases located_foldl delimiters document later
    (({} : Scan).takeSegment delimiters document first) with ⟨others, foundLater, isLater⟩
  have all : (run delimiters levels document root).marks = marks ++ others := by
    rw [Scan.marks, run, visited]
    rw [found] at foundLater
    exact foundLater
  rw [Document.segments, cut, all]
  exact Document.Located.cons here isLater

end

end Scan

namespace Document

variable {document : Document} {segment : List NodeId} {mark : DelimiterMark} {textMark : TextMark}

theorem exists_of_mem_allFrom {node : NodeId} {offset : Nat} {chars : List Char} {place : Place}
    (isMember : place ∈ Place.allFrom node offset chars) :
    place.node = node ∧ ∃ left right, chars = left ++ place.char :: right ∧
      place.offset = offset + Text.byteLength left := by
  induction chars generalizing offset with
  | nil => simp [Place.allFrom] at isMember
  | cons char rest inductionHypothesis =>
      rw [Place.allFrom, List.mem_cons] at isMember
      rcases isMember with rfl | isLater
      · exact ⟨rfl, [], rest, rfl, rfl⟩
      · rcases inductionHypothesis isLater with ⟨same, left, right, rfl, offset_eq⟩
        refine ⟨same, char :: left, right, rfl, ?_⟩
        rw [offset_eq, Text.byteLength_cons, Nat.add_assoc]

/-- The offset of a mark is the byte offset of a character of its text node. -/
theorem MarkedAt.exists_char (marked : document.MarkedAt segment mark textMark) :
    mark.node ∈ segment ∧ ∃ left char right,
      (document.textOf mark.node).toList = left ++ char :: right ∧
        mark.offset = Text.byteLength left := by
  rcases marked with ⟨-, char, isThere⟩
  rcases List.mem_flatMap.mp (List.mem_of_getElem? isThere) with ⟨node, isMember, inside⟩
  rcases exists_of_mem_allFrom inside with ⟨rfl, left, right, whole, offset_eq⟩
  refine ⟨isMember, left, char, right, whole, ?_⟩
  simpa using offset_eq

/-- Every mark stands at some position of one of the segments. -/
theorem Located.exists_markedAt {segments : List (List NodeId)} {marks : List DelimiterMark}
    {positions : List (List TextMark)} (located : document.Located segments marks positions)
    (isMember : mark ∈ marks) :
    ∃ segment ∈ segments, ∃ textMark, document.MarkedAt segment mark textMark := by
  induction located with
  | nil => simp at isMember
  | cons here later inductionHypothesis =>
      rcases List.mem_append.mp isMember with isHere | isLater
      · rcases List.getElem_of_mem isHere with ⟨index, inside, rfl⟩
        exact ⟨_, List.mem_cons_self, _, here.get inside (here.length_eq ▸ inside)⟩
      · rcases inductionHypothesis isLater with ⟨segment, isSegment, marked⟩
        exact ⟨segment, List.mem_cons_of_mem _ isSegment, marked⟩

end Document

/-- **A scan does not depend on fragmentation.** It marks in every segment what plain matching
finds in the text of the segment. The positions of the marks are therefore the same in every other
tree whose segments have the same texts, and each mark carries the byte offset of a character of
its text node. -/
theorem Scan.marks_independent_of_fragmentation (delimiters : Delimiters) (levels : Nat)
    (document : Document) (root : NodeId) :
    document.Located (document.segments levels root)
        (Scan.run delimiters levels document root).marks
        ((document.segments levels root).map fun segment =>
          delimiters.plainMarks false (document.segmentText segment)) ∧
      (∀ (levels' : Nat) (document' : Document) (root' : NodeId),
        (document'.segments levels' root').map document'.segmentText =
          (document.segments levels root).map document.segmentText →
        document'.Located (document'.segments levels' root')
          (Scan.run delimiters levels' document' root').marks
          ((document.segments levels root).map fun segment =>
            delimiters.plainMarks false (document.segmentText segment))) ∧
      ∀ mark ∈ (Scan.run delimiters levels document root).marks, ∃ left char right,
        (document.textOf mark.node).toList = left ++ char :: right ∧
          mark.offset = Text.byteLength left := by
  refine ⟨located_run delimiters levels document root, ?_, ?_⟩
  · intro levels' document' root' same
    have located := located_run delimiters levels' document' root'
    have positions := congrArg (List.map (delimiters.plainMarks false)) same
    simp only [List.map_map, Function.comp_def] at positions
    rwa [positions] at located
  · intro mark isMark
    rcases (located_run delimiters levels document root).exists_markedAt isMark with
      ⟨segment, -, textMark, marked⟩
    exact marked.exists_char.2

end WordTemplate
