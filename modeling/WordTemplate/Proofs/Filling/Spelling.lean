import WordTemplate.Proofs.Filling.Template
import WordTemplate.Proofs.Tag.Partition

/-!
# How templates are spelled

With the standard delimiters each brace is a delimiter, wherever it stands. Text in which the braces
come in pairs is read piece by piece: a character that is no brace stands for itself, and two braces
with what is between them are a tag. A scan of text nodes that spell such pieces finds the braces, and
they cut the characters of the nodes into the regions of the tags.
-/

namespace WordTemplate

/-- Whether a character is a standard delimiter of tags. -/
def isBrace (char : Char) : Bool := char = '\x7b' || char = '\x7d'

/-- The text of a tag with the standard delimiters around it. -/
def braced (inner : List Char) : String := String.ofList ('\x7b' :: (inner ++ ['\x7d']))

namespace Piece

/-- Reads the pieces that a text spells, given the inner text of the tag that it begins in. The text
node of the tags does not count. -/
def readFrom : Option (List Char) → List Char → Option (List Piece)
  | none, [] => some []
  | some _, [] => none
  | none, next :: rest =>
      if next = '\x7b' then readFrom (some []) rest
      else if next = '\x7d' then none
      else (readFrom none rest).map (char next :: ·)
  | some inner, next :: rest =>
      if next = '\x7b' then none
      else if next = '\x7d' then
        (Tag.read .standard ⟨0⟩ (braced inner)).toOption.bind fun held =>
          (readFrom none rest).map (tag held :: ·)
      else readFrom (some (inner ++ [next])) rest

/-- The pieces that a text spells. -/
def read (chars : List Char) : Option (List Piece) := readFrom none chars

end Piece

/-- A text spells pieces of a template. -/
inductive Spells : List Char → List Piece → Prop
  | nil : Spells [] []
  | char {char : Char} {chars : List Char} {pieces : List Piece} (plain : isBrace char = false)
      (rest : Spells chars pieces) : Spells (char :: chars) (.char char :: pieces)
  | tag {inner chars : List Char} {held : Tag} {pieces : List Piece}
      (plain : ∀ char ∈ inner, isBrace char = false)
      (reads : Tag.read .standard held.textNode (braced inner) = .ok held)
      (rest : Spells chars pieces) :
      Spells ('\x7b' :: (inner ++ '\x7d' :: chars)) (.tag held :: pieces)

namespace Spells

variable {chars others inner : List Char} {pieces more : List Piece}

theorem read_of_toOption {held : Tag} {node : NodeId} {rawText : String}
    (isTag : (Tag.read .standard node rawText).toOption = some held) :
    Tag.read .standard held.textNode rawText = .ok held := by
  rcases Extraction.read_cases .standard node rawText with ⟨cause, failed⟩ | ⟨other, done, isNode, -⟩
  · rw [failed] at isTag
    cases isTag
  · rw [done] at isTag
    cases isTag
    rw [isNode, done]

theorem of_readFrom {pending : Option (List Char)} (reads : Piece.readFrom pending chars = some pieces)
    (plain : ∀ inner ∈ pending, ∀ char ∈ inner, isBrace char = false) :
    Spells ((pending.elim [] ('\x7b' :: ·)) ++ chars) pieces := by
  induction chars generalizing pending pieces with
  | nil =>
      cases pending with
      | none =>
          cases reads
          exact .nil
      | some inner => cases reads
  | cons next rest inductionHypothesis =>
      cases pending with
      | none =>
          rw [Piece.readFrom] at reads
          split_ifs at reads with opens closes
          · subst opens
            exact inductionHypothesis reads (by simp)
          · rcases Option.map_eq_some_iff.mp reads with ⟨later, laterReads, rfl⟩
            exact .char (by simp [isBrace, opens, closes]) (inductionHypothesis laterReads (by simp))
      | some inner =>
          have innerPlain := plain inner rfl
          rw [Piece.readFrom] at reads
          split_ifs at reads with opens closes
          · subst closes
            rcases Option.bind_eq_some_iff.mp reads with ⟨held, isTag, others⟩
            rcases Option.map_eq_some_iff.mp others with ⟨later, laterReads, rfl⟩
            exact .tag innerPlain (read_of_toOption isTag) (inductionHypothesis laterReads (by simp))
          · have whole : inner ++ next :: rest = (inner ++ [next]) ++ rest := by simp
            rw [Option.elim_some, List.cons_append, whole]
            refine inductionHypothesis reads ?_
            rintro _ ⟨⟩ char isMember
            rw [List.mem_append, List.mem_singleton] at isMember
            rcases isMember with isMember | rfl
            · exact innerPlain char isMember
            · simp [isBrace, opens, closes]

/-- Reading gives pieces that the text spells. -/
theorem of_read (reads : Piece.read chars = some pieces) : Spells chars pieces :=
  of_readFrom reads (by simp)

end Spells

/-- The mark of a character that is a brace. -/
def Place.mark? (place : Place) : Option DelimiterMark :=
  if place.char = '\x7b' then some ⟨place.node, place.offset, true⟩
  else if place.char = '\x7d' then some ⟨place.node, place.offset, false⟩
  else none

theorem Place.mark?_eq_none {place : Place} (plain : isBrace place.char = false) :
    place.mark? = none := by
  rw [isBrace, Bool.or_eq_false_iff, decide_eq_false_iff_not, decide_eq_false_iff_not] at plain
  rw [mark?, if_neg plain.1, if_neg plain.2]

namespace Scan

variable {scan : Scan} {document : Document} {levels : Nat} {root : NodeId}

/-- A scan marks each brace. -/
theorem marks_stepAt (scan : Scan) (place : Place) :
    (scan.stepAt .standard place).marks = scan.marks ++ place.mark?.toList := by
  have window : (place.char :: scan.window).take Delimiters.standard.reach = [place.char] := rfl
  have completed : Delimiters.standard.completed? scan.insideTag [place.char] =
      place.mark?.map DelimiterMark.isStart := by
    have starts : Delimiters.standard.tagStart.toList.reverse = ['\x7b'] := rfl
    have ends : Delimiters.standard.tagEnd.toList.reverse = ['\x7d'] := rfl
    have differ : (Delimiters.standard.tagStart == Delimiters.standard.tagEnd) = false := rfl
    rw [Delimiters.completed?, Place.mark?]
    by_cases opens : place.char = '\x7b'
    · simp [starts, differ, opens]
    · by_cases closes : place.char = '\x7d'
      · simp [starts, ends, differ, closes]
      · simp [starts, ends, differ, opens, closes, Ne.symm opens, Ne.symm closes]
  rw [stepAt, step, window, completed, Place.mark?]
  split_ifs <;> simp [marks]

theorem marks_foldl_stepAt (places : List Place) (scan : Scan) :
    (places.foldl (stepAt .standard) scan).marks = scan.marks ++ places.filterMap Place.mark? := by
  induction places generalizing scan with
  | nil => simp
  | cons place places inductionHypothesis =>
      rw [List.foldl_cons, inductionHypothesis, marks_stepAt, List.filterMap_cons]
      cases place.mark? <;> simp

theorem marks_foldl_meet (stops : List Stop) (scan : Scan) :
    (stops.foldl (meet .standard document) scan).marks =
      scan.marks ++ (document.places (Stop.segments stops).flatten).filterMap Place.mark? := by
  rw [Document.flatten_segments]
  induction stops generalizing scan with
  | nil => simp [Document.places]
  | cons stop stops inductionHypothesis =>
      rw [List.foldl_cons, inductionHypothesis]
      cases stop with
      | border => rfl
      | text id =>
          rw [meet, stepAll_eq_foldl, marks_foldl_stepAt]
          simp [Document.places]

/-- The marks of a scan that meets all text are those of the braces. -/
theorem marks_run (wellFormed : document.WellFormed)
    (visited : ∀ text ∈ document.texts root, ∃ segment ∈ document.segments levels root,
      text ∈ segment) :
    (run .standard levels document root).marks =
      (document.places (document.texts root)).filterMap Place.mark? := by
  have alike : Alike ({} : Scan) {} := ⟨rfl, rfl, rfl⟩
  have found : (visit .standard document levels root {}).found =
      ((document.stops levels root).foldl (meet .standard document) {}).found :=
    (alike_visit levels root alike).found
  rw [marks, run, found, ← marks, marks_foldl_meet, ← Document.segments,
    Document.flatten_segments_eq_texts wellFormed visited]
  rfl

end Scan

namespace Spells

variable {places : List Place} {pieces : List Piece}

/-- The braces among characters that spell a template come in pairs, and these cut the characters into
the regions of the tags. -/
theorem exists_regions (document : Document) (spells : Spells (places.map Place.char) pieces) :
    ∃ (pairs : List TagMarks) (lead : List Place) (tagged : List (Tag × TagRegion)),
      TagMarks.pair document none (places.filterMap Place.mark?) = .ok pairs ∧
        places = lead ++ (tagged.map Prod.snd).flatMap TagRegion.places ∧
        List.Forall₂ (TagRegion.Fits .standard) pairs (tagged.map Prod.snd) ∧
        (∀ held ∈ tagged, Tag.read .standard held.1.textNode
          (String.ofList (held.2.tag.map Place.char)) = .ok held.1) ∧
        pieces = lead.map (.char ·.char) ++ tagged.flatMap fun held =>
          .tag held.1 :: held.2.following.map (.char ·.char) := by
  generalize whole : places.map Place.char = chars at spells
  induction spells generalizing places with
  | nil =>
      rw [List.map_eq_nil_iff] at whole
      subst whole
      exact ⟨[], [], [], rfl, rfl, .nil, by simp, rfl⟩
  | char plain _ inductionHypothesis =>
      rcases List.map_eq_cons_iff.mp whole with ⟨place, rest, rfl, rfl, restSpelled⟩
      rcases inductionHypothesis restSpelled with ⟨pairs, lead, tagged, paired, rfl, fits, reads, rfl⟩
      refine ⟨pairs, place :: lead, tagged, ?_, rfl, fits, reads, rfl⟩
      rw [List.filterMap_cons, Place.mark?_eq_none plain]
      exact paired
  | @tag inner chars held pieces plain reads _ inductionHypothesis =>
      rcases List.map_eq_cons_iff.mp whole with ⟨opening, rest, rfl, opens, restSpelled⟩
      rcases List.map_eq_append_iff.mp restSpelled with ⟨inside, behind, rfl, rfl, behindSpelled⟩
      rcases List.map_eq_cons_iff.mp behindSpelled with ⟨closing, after, rfl, closes, afterSpelled⟩
      rcases inductionHypothesis afterSpelled with
        ⟨pairs, lead, tagged, paired, rfl, fits, laterReads, rfl⟩
      have openMark : opening.mark? = some ⟨opening.node, opening.offset, true⟩ := by
        rw [Place.mark?, if_pos opens]
      have closeMark : closing.mark? = some ⟨closing.node, closing.offset, false⟩ := by
        rw [Place.mark?, closes]
        rfl
      have noMark : inside.filterMap Place.mark? = [] :=
        List.filterMap_eq_nil_iff.mpr fun place isMember =>
          Place.mark?_eq_none (plain place.char (List.mem_map_of_mem isMember))
      refine ⟨⟨⟨opening.node, opening.offset, true⟩, ⟨closing.node, closing.offset, false⟩⟩ :: pairs, [],
        (held, ⟨[opening], inside, [closing], lead⟩) :: tagged, ?_, ?_, ?_, ?_, ?_⟩
      · rw [List.filterMap_cons, openMark, List.filterMap_append, noMark, List.filterMap_cons, closeMark]
        change Except.map (_ :: ·) (TagMarks.pair document none _) = _
        rw [paired]
        rfl
      · simp [TagRegion.places, TagRegion.tag]
      · refine .cons ⟨?_, ?_, ⟨[], '\x7b', ?_⟩, ⟨[], '\x7d', ?_⟩⟩ fits
        · rw [List.map_singleton, opens]
          rfl
        · rw [List.map_singleton, closes]
          rfl
        · rw [← opens]
          rfl
        · rw [← closes]
          rfl
      · intro other isMember
        rcases List.mem_cons.mp isMember with rfl | isLater
        · simpa [TagRegion.tag, opens, closes, braced] using reads
        · exact laterReads other isLater
      · simp

end Spells

end WordTemplate
