import WordTemplate.Proofs.Document.TextOrder
import WordTemplate.Proofs.Tag.Scanning

/-!
# Regions of tags

A scan that meets every text node below its root leaves marks that cut the characters of these
nodes into the regions of the tags and the text between them. The region of a tag begins with a
start delimiter and ends with an end delimiter, and the two share no character.
-/

namespace WordTemplate

/-- The delimiter that starts or ends a tag. -/
def Delimiters.marker (delimiters : Delimiters) (isStart : Bool) : String :=
  if isStart then delimiters.tagStart else delimiters.tagEnd

/-- The character at a mark. -/
def DelimiterMark.place (mark : DelimiterMark) (char : Char) : Place :=
  ⟨mark.node, mark.offset, char⟩

/-- Delimiters stand one after the other among characters, and each has a mark at its end. -/
inductive Marked (delimiters : Delimiters) : List Place → List DelimiterMark → Prop
  | nil (places : List Place) : Marked delimiters places []
  | cons {before front rest : List Place} {mark : DelimiterMark} {marks : List DelimiterMark}
      {char : Char}
      (spelled : (front ++ [mark.place char]).map Place.char =
        (delimiters.marker mark.isStart).toList)
      (later : Marked delimiters rest marks) :
      Marked delimiters (before ++ (front ++ [mark.place char]) ++ rest)
        (mark :: marks)

namespace Marked

variable {delimiters : Delimiters} {places others : List Place} {marks more : List DelimiterMark}

theorem prepend (front : List Place) (marked : Marked delimiters places marks) :
    Marked delimiters (front ++ places) marks := by
  cases marked with
  | nil => exact Marked.nil _
  | @cons before delimiter rest mark marks char spelled later =>
      have regrouped : front ++ (before ++ (delimiter ++ [mark.place char]) ++ rest) =
          (front ++ before) ++ (delimiter ++ [mark.place char]) ++ rest := by
        simp
      rw [regrouped]
      exact Marked.cons spelled later

theorem append (first : Marked delimiters places marks) (second : Marked delimiters others more) :
    Marked delimiters (places ++ others) (marks ++ more) := by
  induction first with
  | nil places => exact second.prepend places
  | @cons before front rest mark marks char spelled later inductionHypothesis =>
      rw [List.append_assoc]
      exact Marked.cons spelled inductionHypothesis

/-- The marks that plain matching finds stand at the ends of delimiters. -/
theorem of_plainMarks (nonempty : ∀ isStart, (delimiters.marker isStart).toList ≠ [])
    {insideTag : Bool}
    (located : List.Forall₂ (fun mark (textMark : TextMark) => mark.isStart = textMark.isStart ∧
        ∃ char, places[textMark.position]? = some ⟨mark.node, mark.offset, char⟩) marks
      (delimiters.plainMarks insideTag (places.map Place.char))) :
    Marked delimiters places marks := by
  induction marks generalizing places insideTag with
  | nil => exact Marked.nil places
  | cons mark marks inductionHypothesis =>
      rw [Delimiters.plainMarks] at located
      split at located
      · cases located
      · next textMark isFirst =>
          rcases List.forall₂_cons.mp located with ⟨⟨isStart_eq, char, isThere⟩, behind⟩
          rw [List.forall₂_map_right_iff, ← List.map_drop] at behind
          have later : Marked delimiters (places.drop (textMark.position + 1)) marks := by
            refine inductionHypothesis (behind.imp fun other textMark' standing => ?_)
            rcases standing with ⟨same, char', isThere'⟩
            refine ⟨same, char', ?_⟩
            rw [List.getElem?_drop]
            exact isThere'
          -- The delimiter ends the characters up to the mark.
          rcases List.exists_of_findSome?_eq_some isFirst with ⟨position, -, found⟩
          rcases Option.map_eq_some_iff.mp found with ⟨isStart, ends, rfl⟩
          have isEnd : (delimiters.marker isStart).toList <:+
              (places.map Place.char).take (position + 1) := by
            unfold Delimiters.ending? at ends
            split at ends
            · next isTagStart =>
                cases ends
                exact isTagStart.2
            · split at ends
              · next isTagEnd =>
                  cases ends
                  exact isTagEnd
              · cases ends
          rcases isEnd with ⟨lead, whole⟩
          rw [← List.map_take, eq_comm, List.map_eq_append_iff] at whole
          rcases whole with ⟨before, delimiter, taken, -, spelled⟩
          have notNone : delimiter ≠ [] := by
            rintro rfl
            exact nonempty isStart spelled.symm
          have isThere : places[position]? = some (mark.place char) := isThere
          have isLast : delimiter.getLast? = some (mark.place char) := by
            have lastTaken : (places.take (position + 1)).getLast? = some (mark.place char) := by
              rw [List.take_add_one, isThere]
              exact List.getLast?_concat
            rw [taken, List.getLast?_append_of_ne_nil _ notNone] at lastTaken
            exact lastTaken
          rcases List.getLast?_eq_some_iff.mp isLast with ⟨front, isDelimiter⟩
          have regrouped : places = before ++ (front ++ [mark.place char]) ++
              places.drop (position + 1) := by
            rw [← isDelimiter, ← taken, List.take_append_drop]
          rw [regrouped]
          refine Marked.cons ?_ later
          rw [← isDelimiter, spelled, isStart_eq]

theorem of_located {document : Document} {segments : List (List NodeId)}
    (nonempty : ∀ isStart, (delimiters.marker isStart).toList ≠ [])
    (located : document.Located segments marks (segments.map fun segment =>
      delimiters.plainMarks false (document.segmentText segment))) :
    Marked delimiters (segments.flatMap document.places) marks := by
  induction segments generalizing marks with
  | nil =>
      cases located
      exact Marked.nil _
  | cons segment segments inductionHypothesis =>
      cases located with
      | cons here later =>
          rw [List.flatMap_cons]
          dsimp only at here
          rw [← Scan.map_char_places] at here
          exact (of_plainMarks nonempty here).append (inductionHypothesis later)

end Marked

/-! ## Text nodes that a scan meets -/

namespace Document

variable {document : Document} {id top text : NodeId} {levels : Nat} {root : NodeId}

/-- The text nodes among the stops of a scan. -/
def stopTexts (document : Document) (levels : Nat) (id : NodeId) : List NodeId :=
  (document.stops levels id).filterMap fun stop =>
    match stop with
    | .text id => some id
    | .border => none

theorem flatten_segments (stops : List Stop) :
    (Stop.segments stops).flatten = stops.filterMap fun stop =>
      match stop with
      | .text id => some id
      | .border => none := by
  induction stops with
  | nil => rfl
  | cons stop stops inductionHypothesis =>
      cases stop with
      | border => simpa [Stop.segments] using inductionHypothesis
      | text id =>
          rcases List.exists_cons_of_ne_nil (Stop.segments_ne_nil stops) with ⟨first, later, cut⟩
          rw [cut] at inductionHypothesis
          simpa [Stop.segments, cut] using inductionHypothesis

theorem flatten_segments_eq_stopTexts (document : Document) (levels : Nat) (root : NodeId) :
    (document.segments levels root).flatten = document.stopTexts levels root :=
  flatten_segments _

theorem stopTexts_of_element {held : Element} (isElement : document.content id = .element held) :
    document.stopTexts (levels + 1) id =
      (document.children id).flatMap (document.stopTexts levels) := by
  have inside : ((document.children id).flatMap (document.stops levels)).filterMap (fun stop =>
      match stop with
      | .text id => some id
      | .border => none) = (document.children id).flatMap (document.stopTexts levels) := by
    rw [List.filterMap_flatMap]
    rfl
  rw [stopTexts, stops, isElement]
  dsimp only
  split
  · simpa using inside
  · exact inside

theorem sublist_stopTexts (wellFormed : document.WellFormed) (levels : Nat) (id : NodeId) :
    (document.stopTexts levels id).Sublist (document.texts id) := by
  induction levels generalizing id with
  | zero =>
      cases isContent : document.content id with
      | text characters =>
          have isText : document.isText id = true := by
            rw [isText, text?, isContent]
            rfl
          rw [stopTexts, stops, isContent, texts_eq wellFormed, if_pos isText]
          exact List.sublist_append_left _ _
      | markup raw =>
          rw [stopTexts, stops, isContent]
          exact List.nil_sublist _
      | element held =>
          rw [stopTexts, stops, isContent]
          exact List.nil_sublist _
  | succ levels inductionHypothesis =>
      cases isContent : document.content id with
      | text characters =>
          have isText : document.isText id = true := by
            rw [isText, text?, isContent]
            rfl
          rw [stopTexts, stops, isContent, texts_eq wellFormed, if_pos isText]
          exact List.sublist_append_left _ _
      | markup raw =>
          rw [stopTexts, stops, isContent]
          exact List.nil_sublist _
      | element held =>
          rw [stopTexts_of_element isContent, texts_eq wellFormed]
          exact (sublist_flatMap (List.Sublist.refl _) fun child _ =>
            inductionHypothesis child).trans (List.sublist_append_right _ _)

/-- No text node lies above a text node that a scan meets. -/
theorem isText_eq_false_of_mem_stopTexts (wellFormed : document.WellFormed)
    (isStop : text ∈ document.stopTexts levels top) (inside : document.LiesIn top id)
    (around : document.LiesIn id text) (differ : id ≠ text) : document.isText id = false := by
  induction levels generalizing top with
  | zero =>
      cases isContent : document.content top with
      | text characters =>
          rw [stopTexts, stops, isContent] at isStop
          obtain rfl : text = top := by simpa using isStop
          exact absurd (inside.antisymm wellFormed around) differ
      | markup raw =>
          rw [stopTexts, stops, isContent] at isStop
          cases isStop
      | element held =>
          rw [stopTexts, stops, isContent] at isStop
          cases isStop
  | succ levels inductionHypothesis =>
      cases isContent : document.content top with
      | text characters =>
          rw [stopTexts, stops, isContent] at isStop
          obtain rfl : text = top := by simpa using isStop
          exact absurd (inside.antisymm wellFormed around) differ
      | markup raw =>
          rw [stopTexts, stops, isContent] at isStop
          cases isStop
      | element held =>
          rw [stopTexts_of_element isContent, List.mem_flatMap] at isStop
          rcases isStop with ⟨child, isChild, isStop⟩
          rcases inside.cases_child with rfl | ⟨other, isParent, below⟩
          · rw [isText, text?, isContent]
            rfl
          · have isMember := (sublist_stopTexts wellFormed levels child).subset isStop
            have insideChild := ((mem_texts_iff wellFormed).mp isMember).1
            have same : child = other := by
              by_contra distinct
              exact not_liesIn_of_siblings wellFormed
                ((wellFormed.mem_children_iff _ _).mp isChild) isParent distinct insideChild
                (around.trans below)
            exact inductionHypothesis isStop (same ▸ below)

/-- A scan that meets every text node of a subtree meets them in document order. -/
theorem flatten_segments_eq_texts (wellFormed : document.WellFormed)
    (visited : ∀ text ∈ document.texts root, ∃ segment ∈ document.segments levels root,
      text ∈ segment) :
    (document.segments levels root).flatten = document.texts root := by
  rw [flatten_segments_eq_stopTexts]
  refine (sublist_stopTexts wellFormed levels root).eq_of_length_le ?_
  refine ((nodup_texts wellFormed root).subperm fun text isMember => ?_).length_le
  rw [← flatten_segments_eq_stopTexts, List.mem_flatten]
  exact visited text isMember

/-- A text node has no text below it where a scan meets every text node. -/
theorem plainBelow_of_visited (wellFormed : document.WellFormed)
    (visited : ∀ text ∈ document.texts root, ∃ segment ∈ document.segments levels root,
      text ∈ segment) : document.PlainBelow root := by
  intro text inside isText
  have only : ∀ other ∈ document.texts text, other = text := by
    intro other isMember
    rcases (mem_texts_iff wellFormed).mp isMember with ⟨below, isText'⟩
    have isMember' := (mem_texts_iff wellFormed).mpr ⟨below.trans inside, isText'⟩
    by_contra distinct
    have isStop : other ∈ document.stopTexts levels root := by
      rw [← flatten_segments_eq_stopTexts, List.mem_flatten]
      exact visited other isMember'
    have notText := isText_eq_false_of_mem_stopTexts wellFormed isStop inside below
      (Ne.symm distinct)
    rw [isText] at notText
    cases notText
  rw [texts_eq wellFormed, if_pos isText] at only ⊢
  have nodup := nodup_texts wellFormed text
  rw [texts_eq wellFormed, if_pos isText, List.singleton_append, List.nodup_cons] at nodup
  rw [List.singleton_append, List.cons.injEq]
  refine ⟨rfl, List.eq_nil_iff_forall_not_mem.mpr fun other isBelow => ?_⟩
  have same := only other (List.mem_append_right _ isBelow)
  exact nodup.1 (same ▸ isBelow)

theorem flatMap_places_segments (document : Document) (segments : List (List NodeId)) :
    segments.flatMap document.places = document.places segments.flatten := by
  induction segments with
  | nil => rfl
  | cons segment segments inductionHypothesis =>
      rw [List.flatMap_cons, inductionHypothesis, List.flatten_cons, places, places, places,
        List.flatMap_append]

end Document

/-! ## Regions -/

/-- The characters of a tag in three parts, and the text up to the next tag. -/
structure TagRegion where
  opening : List Place
  inner : List Place
  closing : List Place
  following : List Place

namespace TagRegion

/-- The characters of the tag. -/
def tag (region : TagRegion) : List Place := region.opening ++ region.inner ++ region.closing

/-- The characters of the tag and of the text behind it. -/
def places (region : TagRegion) : List Place := region.tag ++ region.following

/-- The delimiters of a tag are the marked ones. -/
structure Fits (delimiters : Delimiters) (marks : TagMarks) (region : TagRegion) : Prop where
  opens : region.opening.map Place.char = delimiters.tagStart.toList
  closes : region.closing.map Place.char = delimiters.tagEnd.toList
  start_eq : ∃ front char,
    region.opening = front ++ [marks.start.place char]
  stop_eq : ∃ front char, region.closing = front ++ [marks.stop.place char]

end TagRegion

/-- Marks that come in pairs cut the characters into regions of tags. -/
theorem exists_regions {delimiters : Delimiters} {pairs : List TagMarks} {places : List Place}
    (paired : ∀ marks ∈ pairs, marks.start.isStart = true ∧ marks.stop.isStart = false)
    (marked : Marked delimiters places (pairs.flatMap fun marks => [marks.start, marks.stop])) :
    ∃ lead regions, places = lead ++ regions.flatMap TagRegion.places ∧
      List.Forall₂ (TagRegion.Fits delimiters) pairs regions := by
  induction pairs generalizing places with
  | nil => exact ⟨places, [], by simp, List.Forall₂.nil⟩
  | cons marks pairs inductionHypothesis =>
      rcases paired marks List.mem_cons_self with ⟨isStart, isStop⟩
      rw [List.flatMap_cons, List.cons_append] at marked
      cases marked with
      | @cons lead front behind _ _ char opens later =>
          cases later with
          | @cons inner front' rest _ _ char' closes later =>
              rcases inductionHypothesis
                (fun other isMember => paired other (List.mem_cons_of_mem _ isMember)) later with
                ⟨following, regions, rfl, fits⟩
              rw [isStart, Delimiters.marker, if_pos rfl] at opens
              rw [isStop, Delimiters.marker, if_neg (by decide)] at closes
              refine ⟨lead, ⟨_, inner, _, following⟩ :: regions, ?_,
                List.Forall₂.cons ⟨opens, closes, ⟨_, _, rfl⟩, ⟨_, _, rfl⟩⟩ fits⟩
              simp [TagRegion.places, TagRegion.tag]

namespace TagMarks

variable {document : Document} {pending : Option DelimiterMark} {marks : List DelimiterMark}

/-- Pairing keeps the marks and their order. -/
theorem pair_eq_ok {pairs : List TagMarks}
    (isPending : ∀ start ∈ pending, start.isStart = true)
    (paired : pair document pending marks = .ok pairs) :
    pending.toList ++ marks = pairs.flatMap (fun marks => [marks.start, marks.stop]) ∧
      ∀ marks ∈ pairs, marks.start.isStart = true ∧ marks.stop.isStart = false := by
  induction marks generalizing pending pairs with
  | nil =>
      cases pending with
      | none =>
          cases paired
          exact ⟨rfl, by simp⟩
      | some start => cases paired
  | cons mark marks inductionHypothesis =>
      cases pending with
      | none =>
          rw [pair] at paired
          split at paired
          · next isStart =>
              have whole := inductionHypothesis (by simpa using isStart) paired
              exact whole
          · cases paired
      | some start =>
          rw [pair] at paired
          split at paired
          · cases paired
          · next isStop =>
              cases rest : pair document none marks with
              | error cause =>
                  rw [rest] at paired
                  cases paired
              | ok others =>
                  rw [rest] at paired
                  cases paired
                  rcases inductionHypothesis (by simp) rest with ⟨whole, kinds⟩
                  refine ⟨?_, fun pair isMember => ?_⟩
                  · rw [List.flatMap_cons, ← whole]
                    rfl
                  · rcases List.mem_cons.mp isMember with rfl | isMember
                    · exact ⟨isPending start rfl, Bool.not_eq_true _ ▸ isStop⟩
                    · exact kinds pair isMember

/-- Marks that do not come in pairs lack a start or an end. -/
theorem pair_eq_error {cause : TemplateError} (failed : pair document pending marks = .error cause) :
    (∃ text, cause = .missingStart text) ∨ ∃ text, cause = .missingClose text := by
  induction marks generalizing pending with
  | nil =>
      cases pending with
      | none => cases failed
      | some start =>
          cases failed
          exact Or.inr ⟨_, rfl⟩
  | cons mark marks inductionHypothesis =>
      cases pending with
      | none =>
          rw [pair] at failed
          split at failed
          · exact inductionHypothesis failed
          · cases failed
            exact Or.inl ⟨_, rfl⟩
      | some start =>
          rw [pair] at failed
          split at failed
          · cases failed
            exact Or.inr ⟨_, rfl⟩
          · cases rest : pair document none marks with
            | error cause' =>
                rw [rest] at failed
                cases failed
                exact inductionHypothesis rest
            | ok others =>
                rw [rest] at failed
                cases failed

end TagMarks

end WordTemplate
