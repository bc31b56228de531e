import WordTemplate.Proofs.Tag.Regions
import WordTemplate.Proofs.Word.Absorbing

/-!
# Tag extraction partitions the text

Tags are taken out from the last to the first. Each step finds the characters of its tag untouched
behind a leading part of the text nodes, cuts them out into one node and leaves that leading part
as short as the text before the tag.
-/

namespace WordTemplate

open Document

/-! ## Places -/

namespace Place

variable {node : NodeId} {offset : Nat} {chars left right : List Char} {before after : List Place}
  {place : Place}

theorem allFrom_append (node : NodeId) (offset : Nat) (left right : List Char) :
    allFrom node offset (left ++ right) =
      allFrom node offset left ++ allFrom node (offset + Text.byteLength left) right := by
  induction left generalizing offset with
  | nil => rfl
  | cons char left inductionHypothesis =>
      rw [List.cons_append, allFrom, inductionHypothesis, allFrom, Text.byteLength_cons,
        Nat.add_assoc]
      rfl

theorem map_char_allFrom (node : NodeId) (offset : Nat) (chars : List Char) :
    (allFrom node offset chars).map Place.char = chars := by
  induction chars generalizing offset with
  | nil => rfl
  | cons char chars inductionHypothesis => rw [allFrom, List.map_cons, inductionHypothesis]

theorem length_allFrom (node : NodeId) (offset : Nat) (chars : List Char) :
    (allFrom node offset chars).length = chars.length := by
  rw [← List.length_map Place.char, map_char_allFrom]

/-- A place in a text node divides its characters. -/
theorem exists_of_allFrom_eq (split : allFrom node offset chars = before ++ place :: after) :
    ∃ left right, chars = left ++ place.char :: right ∧ place.node = node ∧
      place.offset = offset + Text.byteLength left ∧ before = allFrom node offset left ∧
      after = allFrom node (place.offset + place.char.utf8Size) right := by
  induction chars generalizing offset before with
  | nil => simp [allFrom] at split
  | cons char chars inductionHypothesis =>
      rw [allFrom] at split
      cases before with
      | nil =>
          rw [List.nil_append, List.cons.injEq] at split
          rcases split with ⟨rfl, rfl⟩
          exact ⟨[], chars, rfl, rfl, rfl, rfl, rfl⟩
      | cons first before =>
          rw [List.cons_append, List.cons.injEq] at split
          rcases split with ⟨rfl, rest⟩
          rcases inductionHypothesis rest with ⟨left, right, rfl, isNode, isOffset, rfl, isAfter⟩
          refine ⟨char :: left, right, rfl, isNode, ?_, rfl, isAfter⟩
          rw [isOffset, Text.byteLength_cons, Nat.add_assoc]

end Place

theorem Text.utf8ByteSize_eq (text : String) :
    text.utf8ByteSize = Text.byteLength text.toList := by
  have each : ∀ chars : List Char, (String.ofList chars).utf8ByteSize = Text.byteLength chars := by
    intro chars
    induction chars with
    | nil => rfl
    | cons char chars inductionHypothesis =>
        rw [String.ofList_cons, String.utf8ByteSize_append, inductionHypothesis,
          String.utf8ByteSize_singleton, Text.byteLength_cons]
  rw [← each, String.ofList_toList]

namespace Document

variable {document after : Document} {ids others : List NodeId} {root : NodeId}
  {lead rest : List Place} {place : Place}

theorem places_append (document : Document) (ids others : List NodeId) :
    document.places (ids ++ others) = document.places ids ++ document.places others := by
  rw [places, List.flatMap_append]
  rfl

theorem segmentText_append (document : Document) (ids others : List NodeId) :
    document.segmentText (ids ++ others) = document.segmentText ids ++ document.segmentText others := by
  rw [segmentText, List.flatMap_append]
  rfl

theorem places_singleton (document : Document) (id : NodeId) :
    document.places [id] = Place.allFrom id 0 (document.textOf id).toList := by
  rw [places, List.flatMap_singleton]

theorem segmentText_singleton (document : Document) (id : NodeId) :
    document.segmentText [id] = (document.textOf id).toList := by
  rw [segmentText, List.flatMap_singleton]

theorem places_congr (same : ∀ id ∈ ids, after.textOf id = document.textOf id) :
    after.places ids = document.places ids :=
  List.flatMap_congr fun id isMember => by rw [same id isMember]

theorem segmentText_congr (same : ∀ id ∈ ids, after.textOf id = document.textOf id) :
    after.segmentText ids = document.segmentText ids :=
  List.flatMap_congr fun id isMember => by rw [same id isMember]

/-- A place among the characters of text nodes divides the nodes and the text of one of them. -/
theorem exists_of_places_eq (split : document.places ids = lead ++ place :: rest) :
    ∃ earlier later left right, ids = earlier ++ place.node :: later ∧
      (document.textOf place.node).toList = left ++ place.char :: right ∧
      place.offset = Text.byteLength left ∧
      lead = document.places earlier ++ Place.allFrom place.node 0 left ∧
      rest = Place.allFrom place.node (place.offset + place.char.utf8Size) right ++
        document.places later := by
  induction ids generalizing lead with
  | nil => simp [places] at split
  | cons id ids inductionHypothesis =>
      have whole : document.places (id :: ids) =
          Place.allFrom id 0 (document.textOf id).toList ++ document.places ids := rfl
      rw [whole] at split
      rcases List.append_eq_append_iff.mp split with ⟨beyond, rfl, inner⟩ | ⟨inside, inner, outer⟩
      · rcases inductionHypothesis inner with
          ⟨earlier, later, left, right, rfl, text, offset, rfl, rfl⟩
        refine ⟨id :: earlier, later, left, right, rfl, text, offset, ?_, rfl⟩
        rw [← List.append_assoc]
        rfl
      · cases inside with
        | nil =>
            rw [List.append_nil] at inner
            rw [List.nil_append] at outer
            rcases inductionHypothesis (show document.places ids = [] ++ place :: rest from outer.symm)
              with ⟨earlier, later, left, right, rfl, text, offset, isLead, rfl⟩
            refine ⟨id :: earlier, later, left, right, rfl, text, offset, ?_, rfl⟩
            have regrouped : document.places (id :: earlier) ++ Place.allFrom place.node 0 left =
                Place.allFrom id 0 (document.textOf id).toList ++
                  (document.places earlier ++ Place.allFrom place.node 0 left) := by
              rw [← List.append_assoc]
              rfl
            rw [regrouped, ← isLead, List.append_nil, inner]
        | cons first inside =>
            rw [List.cons_append, List.cons.injEq] at outer
            rcases outer with ⟨rfl, rfl⟩
            rcases Place.exists_of_allFrom_eq inner with
              ⟨left, right, text, isNode, offset, rfl, rfl⟩
            rw [isNode]
            exact ⟨[], ids, left, right, rfl, text, by simpa using offset, rfl, rfl⟩

/-! ## The beginning of a tag -/

/-- A member of one list behind another stands in one of them. -/
theorem append_eq_append_cons {α : Type} {first second lead rest : List α} {item : α}
    (split : first ++ second = lead ++ item :: rest) :
    (∃ inside, second = inside ++ item :: rest) ∨
      ∃ between, first = lead ++ item :: between ∧ rest = between ++ second := by
  rcases List.append_eq_append_iff.mp split with ⟨inside, -, behind⟩ | ⟨inside, before, behind⟩
  · exact Or.inl ⟨inside, behind⟩
  · cases inside with
    | nil => exact Or.inl ⟨[], behind.symm⟩
    | cons head between =>
        rw [List.cons_append, List.cons.injEq] at behind
        rcases behind with ⟨rfl, rfl⟩
        exact Or.inr ⟨between, before, rfl⟩

theorem rewind_inside {node : NodeId} {before : List Char} {inside : List Place}
    (split : Place.allFrom node 0 before = inside ++ place :: rest) (earlier : List NodeId) :
    document.rewind (rest.length + 1) node before earlier = .ok (place.node, place.offset) := by
  rcases Place.exists_of_allFrom_eq split with ⟨left, right, rfl, rfl, offset, -, isRest⟩
  have length : rest.length = right.length := by rw [isRest, Place.length_allFrom]
  have enough : rest.length + 1 ≤ (left ++ place.char :: right).length := by
    rw [length, List.length_append, List.length_cons]
    omega
  have kept : (left ++ place.char :: right).length - (rest.length + 1) = left.length := by
    rw [length, List.length_append, List.length_cons]
    omega
  rw [rewind.eq_def, if_pos enough, kept, List.take_left, offset, Nat.zero_add]

/-- Walking back over a number of characters leads to the place where they begin. -/
theorem rewind_of_places {node : NodeId} {before : List Char} {earlier : List NodeId}
    (split : document.places earlier.reverse ++ Place.allFrom node 0 before =
      lead ++ place :: rest) :
    document.rewind (rest.length + 1) node before earlier = .ok (place.node, place.offset) := by
  induction earlier generalizing node before rest with
  | nil => exact rewind_inside split []
  | cons previous earlier inductionHypothesis =>
      rcases append_eq_append_cons split with ⟨inside, here⟩ | ⟨between, earlierSplit, rfl⟩
      · exact rewind_inside here _
      · have beyond : ¬(between ++ Place.allFrom node 0 before).length + 1 ≤ before.length := by
          rw [List.length_append, Place.length_allFrom]
          omega
        have remaining : (between ++ Place.allFrom node 0 before).length + 1 - before.length =
            between.length + 1 := by
          rw [List.length_append, Place.length_allFrom]
          omega
        have split' : document.places earlier.reverse ++
            Place.allFrom previous 0 (document.textOf previous).toList =
              lead ++ place :: between := by
          rw [← earlierSplit, List.reverse_cons, places_append, places_singleton]
        rw [rewind, if_neg beyond, remaining]
        exact inductionHypothesis split'

/-- The first character of a tag is found from the mark at the end of its start delimiter. -/
theorem tagBegin_of_places {delimiters : Delimiters} {start : DelimiterMark} {char : Char}
    {front back : List NodeId} {before opening behind : List Place}
    (wellFormed : document.WellFormed) (plain : document.PlainBelow root)
    (inStore : root.index < document.size) (whole : document.texts root = front ++ back)
    (split : document.places front = lead ++ opening ++ behind)
    (isOpening : opening = before ++ [start.place char])
    (opens : opening.map Place.char = delimiters.tagStart.toList)
    (isFirst : opening.head? = some place) :
    document.tagBegin delimiters start = .ok (place.node, place.offset) := by
  have around : document.places front = (lead ++ before) ++ start.place char :: behind := by
    rw [split, isOpening]
    simp
  rcases exists_of_places_eq around with ⟨earlier, later, left, right, rfl, text, offset, isLead, -⟩
  have text : (document.textOf start.node).toList = left ++ char :: right := text
  have offset : start.offset = Text.byteLength left := offset
  have isLead : lead ++ before = document.places earlier ++ Place.allFrom start.node 0 left := isLead
  have isBefore : document.textBefore start.node start.offset = left := by
    rw [textBefore, text, offset, Text.splitAtByte?_byteLength_append]
    rfl
  have count : delimiters.tagStart.length - 1 = before.length := by
    rw [← String.length_toList, ← opens, isOpening, List.length_map, List.length_append]
    rfl
  have whole' : document.texts root = earlier.reverse.reverse ++ start.node :: (later ++ back) := by
    rw [whole, List.reverse_reverse, List.append_assoc]
    rfl
  have enough : earlier.reverse.length ≤ document.size := by
    have bounded := length_texts_le wellFormed inStore
    rw [whole'] at bounded
    simp only [List.length_append, List.length_reverse] at bounded ⊢
    omega
  rcases textsBefore_of_texts wellFormed plain whole' enough with ⟨beyond, isEarlier⟩
  rw [tagBegin, isBefore, count, isEarlier]
  cases before with
  | nil =>
      rw [isOpening] at isFirst
      cases isFirst
      rw [List.length_nil, rewind.eq_def, if_pos (Nat.zero_le _), Nat.sub_zero, List.take_length]
      exact congrArg (fun offset => Except.ok (start.node, offset)) offset.symm
  | cons first before =>
      rw [isOpening, List.cons_append] at isFirst
      cases isFirst
      have split' : document.places (earlier.reverse ++ beyond).reverse ++
          Place.allFrom start.node 0 left =
            (document.places beyond.reverse ++ lead) ++ place :: before := by
        rw [List.reverse_append, List.reverse_reverse, places_append, List.append_assoc, ← isLead,
          List.append_assoc]
      rw [List.length_cons]
      exact rewind_of_places split'

end Document

/-! ## Cutting out one tag -/

namespace Extraction

open Outcome

variable {document : Document} {root id : NodeId} {front rest back : List NodeId}
  {left right : List Char} {delimiters : Delimiters} {aside : Aside}

/-- The part of a text node behind an offset is cut off, if there is one. -/
theorem exists_trim (splittable : document.Splittable aside root)
    (whole : document.texts root = front ++ id :: rest) (free : aside.Free id)
    (text : (document.textOf id).toList = left ++ right) :
    ∃ trimmed extra, (if Text.byteLength left < (document.textOf id).utf8ByteSize then
        ∃ tail, Edit.splitText id (Text.byteLength left) document = .ok tail trimmed
      else trimmed = document) ∧ trimmed.Splittable aside root ∧ trimmed.root = document.root ∧
      trimmed.texts root = front ++ id :: (extra ++ rest) ∧
      trimmed.textOf id = String.ofList left ∧ trimmed.segmentText extra = right ∧
      ∀ other ∈ front ++ rest, trimmed.textOf other = document.textOf other := by
  have size : (document.textOf id).utf8ByteSize = Text.byteLength left + Text.byteLength right := by
    rw [Text.utf8ByteSize_eq, text, Text.byteLength_append]
  cases right with
  | nil =>
      refine ⟨document, [], ?_, splittable, rfl, whole, ?_, rfl, fun _ _ => rfl⟩
      · rw [size, if_neg (by simp)]
      · rw [← String.ofList_toList (s := document.textOf id), text, List.append_nil]
  | cons char right =>
      have cut : Text.splitAtByte? (Text.byteLength left) (document.textOf id).toList =
          some (left, char :: right) := by
        rw [text, Text.splitAtByte?_byteLength_append]
      rcases Edit.exists_splitText splittable whole free cut with
        ⟨tail, trimmed, done, -, trimmedSplittable, root_eq, texts, isLeft, isRight, same⟩
      have positive := char.utf8Size_pos
      refine ⟨trimmed, [tail], ?_, trimmedSplittable, root_eq, texts, isLeft, ?_, same⟩
      · rw [size, Text.byteLength_cons, if_pos (by omega)]
        exact ⟨tail, done⟩
      · rw [segmentText_singleton, isRight, String.toList_ofList]

/-- Cuts off the part of a text node before an offset and joins the text nodes up to `last` to the
rest. -/
def gather (first last : NodeId) (offset : Nat) : Extraction NodeId :=
  if offset = 0 then do
    Edit.joinText first last
    return first
  else do
    let tagNode ← (Edit.splitText first offset : Edit NodeId)
    Edit.joinText tagNode (if first = last then tagNode else last)
    return tagNode

/-- A text node takes in the text of the ones up to `last`, and no other text node changes. -/
theorem exists_joined {first last : NodeId} {others : List NodeId}
    (splittable : document.Splittable aside root)
    (whole : document.texts root = front ++ (first :: others) ++ rest)
    (isLast : (first :: others).getLast? = some last) :
    ∃ after kept, Edit.joinText first last document = .ok ⟨⟩ after ∧
      after.Splittable aside root ∧ after.root = document.root ∧
      after.texts root = front ++ first :: kept ∧ aside.Thins rest kept ∧
      (after.textOf first).toList = (document.textOf first).toList ++ document.segmentText others ∧
      ∀ other ∈ front ++ rest, after.textOf other = document.textOf other := by
  rcases Edit.exists_joinText splittable whole isLast with
    ⟨after, kept, done, afterSplittable, root_eq, texts, thins, isJoined, same⟩
  refine ⟨after, kept, done, afterSplittable, root_eq, texts, thins, ?_, fun other isMember => ?_⟩
  · rw [isJoined, String.toList_append, String.toList_join, List.flatMap_map]
    rfl
  · refine same other ?_
    rintro rfl
    have nodup := nodup_texts splittable.wellFormed root
    rw [whole, List.append_assoc, List.cons_append, List.nodup_middle, List.nodup_cons] at nodup
    refine nodup.1 ?_
    simp only [List.mem_append] at isMember ⊢
    exact isMember.imp_right Or.inr

/-- When the first node is exchanged for another one, the last node is the same unless it was the
first. -/
theorem getLast?_exchange {first last tail : NodeId} {others : List NodeId}
    (isLast : (first :: others).getLast? = some last) (once : first ∉ others) :
    (tail :: others).getLast? = some (if first = last then tail else last) := by
  rcases others.eq_nil_or_concat with rfl | ⟨inner, final, rfl⟩
  · rw [List.getLast?_singleton, Option.some.injEq] at isLast
    rw [List.getLast?_singleton, if_pos isLast]
  · rw [List.concat_eq_append, ← List.cons_append, List.getLast?_concat, Option.some.injEq] at isLast
    subst isLast
    have differ : first ≠ final := by
      rintro rfl
      exact once (by simp)
    rw [List.concat_eq_append, ← List.cons_append, List.getLast?_concat, if_neg differ]

/-- The characters of a tag come together in one node, and those before it stay in place. -/
theorem exists_gather {first last : NodeId} {others : List NodeId}
    (splittable : document.Splittable aside root)
    (whole : document.texts root = front ++ (first :: others) ++ rest)
    (isLast : (first :: others).getLast? = some last) (free : aside.Free first)
    (text : (document.textOf first).toList = left ++ right) :
    ∃ node after before kept, gather first last (Text.byteLength left) document = .ok node after ∧
      after.Splittable aside root ∧ after.root = document.root ∧
      after.texts root = before ++ node :: kept ∧ aside.Thins rest kept ∧ aside.Free node ∧
      after.places before = document.places front ++ Place.allFrom first 0 left ∧
      (after.textOf node).toList = right ++ document.segmentText others ∧
      ∀ other ∈ rest, after.textOf other = document.textOf other := by
  cases left with
  | nil =>
      rcases exists_joined splittable whole isLast with
        ⟨after, kept, done, afterSplittable, root_eq, texts, thins, isJoined, stays⟩
      refine ⟨first, after, front, kept, ?_, afterSplittable, root_eq, texts, thins, free, ?_, ?_,
        fun other isMember => stays other (List.mem_append_right _ isMember)⟩
      · rw [Text.byteLength_nil, gather, if_pos rfl]
        exact bind_eq_ok.mpr ⟨⟨⟩, after, edit_eq_ok.mpr done, rfl⟩
      · rw [Place.allFrom, List.append_nil]
        exact places_congr fun other isMember => stays other (List.mem_append_left _ isMember)
      · rw [isJoined, text]
        rfl
  | cons char left =>
      have notZero : Text.byteLength (char :: left) ≠ 0 := by
        rw [Ne, Text.byteLength_eq_zero_iff]
        simp
      have cut : Text.splitAtByte? (Text.byteLength (char :: left))
          (document.textOf first).toList = some (char :: left, right) := by
        rw [text, Text.splitAtByte?_byteLength_append]
      have whole' : document.texts root = front ++ first :: (others ++ rest) := by
        rw [whole, List.append_assoc]
        rfl
      rcases Edit.exists_splitText splittable whole' free cut with
        ⟨tail, cutDocument, splitDone, tailFree, cutSplittable, cutRoot, cutTexts, isLeft, isRight,
          cutSame⟩
      have cutWhole : cutDocument.texts root = (front ++ [first]) ++ tail :: others ++ rest := by
        rw [cutTexts]
        simp
      have once : first ∉ others := fun isOther => by
        have nodup := nodup_texts splittable.wellFormed root
        rw [whole', List.nodup_middle, List.nodup_cons] at nodup
        exact nodup.1 (List.mem_append_right _ (List.mem_append_left _ isOther))
      rcases exists_joined cutSplittable cutWhole (getLast?_exchange isLast once) with
        ⟨after, kept, joinDone, afterSplittable, root_eq, texts, thins, isJoined, stays⟩
      have others_eq : cutDocument.segmentText others = document.segmentText others :=
        segmentText_congr fun other isMember => cutSame other
          (List.mem_append_right _ (List.mem_append_left _ isMember))
      refine ⟨tail, after, front ++ [first], kept, ?_, afterSplittable, root_eq.trans cutRoot, texts,
        thins, tailFree, ?_, ?_, fun other isMember => ?_⟩
      · rw [gather, if_neg notZero]
        exact bind_eq_ok.mpr ⟨tail, cutDocument, edit_eq_ok.mpr splitDone,
          bind_eq_ok.mpr ⟨⟨⟩, after, edit_eq_ok.mpr joinDone, rfl⟩⟩
      · rw [places_congr fun other isMember => stays other (List.mem_append_left _ isMember),
          places_append, places_congr fun other isMember => cutSame other
            (List.mem_append_left _ isMember), places_singleton, isLeft, String.toList_ofList]
      · rw [isJoined, isRight, String.toList_ofList, others_eq]
      · rw [stays other (List.mem_append_right _ isMember)]
        exact cutSame other (List.mem_append_right _ (List.mem_append_right _ isMember))

/-- Isolating a tag cuts off the text behind it and gathers the rest from its beginning on. -/
theorem isolate_eq_ok {marks : TagMarks} {node : NodeId} {after : Document} :
    isolate delimiters marks document = .ok node after ↔
      ∃ first offset trimmed, document.tagBegin delimiters marks.start = .ok (first, offset) ∧
        (if document.offsetAfter marks.stop.node marks.stop.offset <
            (document.textOf marks.stop.node).utf8ByteSize then
          ∃ tail, Edit.splitText marks.stop.node
            (document.offsetAfter marks.stop.node marks.stop.offset) document = .ok tail trimmed
        else trimmed = document) ∧
        gather first marks.stop.node offset trimmed = .ok node after := by
  simp only [isolate, bind_eq_ok, get_bind, ofExcept_eq_ok]
  constructor
  · rintro ⟨⟨first, offset⟩, middle, ⟨begins, rfl⟩, done⟩
    split at done
    · next isInside =>
        rcases bind_eq_ok.mp done with ⟨⟨⟩, trimmed, cutDone, gathers⟩
        rcases discard_eq_ok.mp cutDone with ⟨tail, cutDone⟩
        exact ⟨first, offset, trimmed, begins, by
          rw [if_pos isInside]
          exact ⟨tail, edit_eq_ok.mp cutDone⟩, gathers⟩
    · next isOutside => exact ⟨first, offset, document, begins, by rw [if_neg isOutside], done⟩
  · rintro ⟨first, offset, trimmed, begins, trims, gathers⟩
    refine ⟨(first, offset), document, ⟨begins, rfl⟩, ?_⟩
    split at trims
    · next isInside =>
        rcases trims with ⟨tail, splitDone⟩
        rw [if_pos isInside]
        exact bind_eq_ok.mpr ⟨⟨⟩, trimmed, discard_eq_ok.mpr ⟨tail, edit_eq_ok.mpr splitDone⟩,
          gathers⟩
    · next isOutside =>
        subst trims
        rw [if_neg isOutside]
        exact gathers

/-- The node in which the last tag of some text nodes ends has the rest of the tag, up to the offset
at which it is cut, and then what follows the tag. -/
theorem exists_of_stop {marks : TagMarks} {region : TagRegion} {lead : List Place}
    (fits : region.Fits delimiters marks) (split : document.places front = lead ++ region.places) :
    ∃ earlier later left right, front = earlier ++ marks.stop.node :: later ∧
      (document.textOf marks.stop.node).toList = left ++ right ∧
      document.offsetAfter marks.stop.node marks.stop.offset = Text.byteLength left ∧
      document.places earlier ++ Place.allFrom marks.stop.node 0 left = lead ++ region.tag ∧
      region.following.map Place.char = right ++ document.segmentText later := by
  rcases fits.stop_eq with ⟨inside, char, isClosing⟩
  have stopSplit : document.places front = (lead ++ region.opening ++ region.inner ++ inside) ++
      marks.stop.place char :: region.following := by
    rw [split, TagRegion.places, TagRegion.tag, isClosing]
    simp
  rcases exists_of_places_eq stopSplit with
    ⟨earlier, later, left, right, rfl, text, offset, isLead, isFollowing⟩
  have text : (document.textOf marks.stop.node).toList = (left ++ [char]) ++ right := by
    rw [List.append_assoc]
    exact text
  have offset : marks.stop.offset = Text.byteLength left := offset
  have isLead : lead ++ region.opening ++ region.inner ++ inside =
    document.places earlier ++ Place.allFrom marks.stop.node 0 left := isLead
  refine ⟨earlier, later, left ++ [char], right, rfl, text, ?_, ?_, ?_⟩
  · rw [offsetAfter, text, offset, List.append_assoc, Text.splitAtByte?_byteLength_append]
    simp
  · rw [Place.allFrom_append, ← List.append_assoc, ← isLead, TagRegion.tag, isClosing, Nat.zero_add,
      ← offset]
    simp [Place.allFrom, DelimiterMark.place]
  · rw [isFollowing, List.map_append, Place.map_char_allFrom, Scan.map_char_places]

/-- The text behind the last tag of a leading part of the text nodes is cut off. -/
theorem exists_trimmed {marks : TagMarks} {region : TagRegion} {lead : List Place}
    (splittable : document.Splittable aside root) (fits : region.Fits delimiters marks)
    (free : aside.Free marks.stop.node) (whole : document.texts root = front ++ back)
    (split : document.places front = lead ++ region.places) :
    ∃ trimmed shown literals,
      (if document.offsetAfter marks.stop.node marks.stop.offset <
            (document.textOf marks.stop.node).utf8ByteSize then
          ∃ tail, Edit.splitText marks.stop.node
            (document.offsetAfter marks.stop.node marks.stop.offset) document = .ok tail trimmed
        else trimmed = document) ∧
      trimmed.Splittable aside root ∧ trimmed.root = document.root ∧
      trimmed.texts root = shown ++ [marks.stop.node] ++ (literals ++ back) ∧
      trimmed.places (shown ++ [marks.stop.node]) = lead ++ region.tag ∧
      trimmed.segmentText literals = region.following.map Place.char ∧
      ∀ other ∈ back, trimmed.textOf other = document.textOf other := by
  rcases exists_of_stop fits split with ⟨earlier, later, left, right, rfl, text, isCut, isTag, isFollowing⟩
  have stopWhole : document.texts root = earlier ++ marks.stop.node :: (later ++ back) := by
    rw [whole, List.append_assoc]
    rfl
  rcases exists_trim splittable stopWhole free text with
    ⟨trimmed, extra, trims, trimmedSplittable, trimmedRoot, texts, isTrimmed, isExtra, same⟩
  refine ⟨trimmed, earlier, extra ++ later, isCut ▸ trims, trimmedSplittable, trimmedRoot, ?_, ?_, ?_,
    fun other isMember => same other (List.mem_append_right _ (List.mem_append_right _ isMember))⟩
  · rw [texts]
    simp
  · rw [places_append, places_congr fun other isMember => same other
      (List.mem_append_left _ isMember), places_singleton, isTrimmed, String.toList_ofList, isTag]
  · have isLater : trimmed.segmentText later = document.segmentText later :=
      segmentText_congr fun other isMember => same other
        (List.mem_append_right _ (List.mem_append_left _ isMember))
    rw [segmentText_append, isExtra, isLater, isFollowing]

/-- The last tag of a leading part of the text nodes is taken into a node of its own. -/
theorem exists_isolate {marks : TagMarks} {region : TagRegion} {lead : List Place}
    (splittable : document.Splittable aside root) (fits : region.Fits delimiters marks)
    (nonempty : delimiters.tagStart.toList ≠ [])
    (free : ∀ place ∈ region.tag, aside.Free place.node)
    (whole : document.texts root = front ++ back)
    (split : document.places front = lead ++ region.places) :
    ∃ node after before literals kept, isolate delimiters marks document = .ok node after ∧
      after.Splittable aside root ∧ after.root = document.root ∧
      after.texts root = before ++ node :: kept ∧ aside.Thins (literals ++ back) kept ∧
      aside.Free node ∧ after.places before = lead ∧
      (after.textOf node).toList = region.tag.map Place.char ∧
      after.segmentText literals = region.following.map Place.char ∧
      ∀ other ∈ back, after.textOf other = document.textOf other := by
  rcases fits.start_eq with ⟨ahead, startChar, isOpening⟩
  rcases isPlaces : region.opening with _ | ⟨place, opening⟩
  · have opens := fits.opens
    rw [isPlaces] at opens
    exact absurd opens.symm nonempty
  have isTagPlaces : region.tag = place :: (opening ++ region.inner ++ region.closing) := by
    rw [TagRegion.tag, isPlaces]
    rfl
  have split' : document.places front =
      lead ++ region.opening ++ (region.inner ++ region.closing ++ region.following) := by
    rw [split, TagRegion.places, TagRegion.tag]
    simp
  have begins := tagBegin_of_places splittable.wellFormed splittable.plain splittable.inStore whole
    split' isOpening fits.opens (by rw [isPlaces]; rfl : region.opening.head? = some place)
  have stopFree : aside.Free marks.stop.node := by
    rcases fits.stop_eq with ⟨inside, char, isClosing⟩
    refine free (marks.stop.place char) ?_
    rw [TagRegion.tag, isClosing]
    simp
  rcases exists_trimmed splittable fits stopFree whole split with
    ⟨trimmed, shown, literals, trims, trimmedSplittable, trimmedRoot, trimmedTexts, trimmedPlaces,
      literalText, trimmedSame⟩
  -- The nodes between the two ends of the tag are gathered.
  rw [isTagPlaces] at trimmedPlaces
  rcases exists_of_places_eq trimmedPlaces with
    ⟨before, others, ahead', right', whole', text', offset', isLead', isTag⟩
  have gatherWhole : trimmed.texts root = before ++ (place.node :: others) ++ (literals ++ back) := by
    rw [trimmedTexts, whole']
  have isLast : (place.node :: others).getLast? = some marks.stop.node := by
    have last := congrArg List.getLast? whole'
    rw [List.getLast?_concat, List.getLast?_append_of_ne_nil _ (List.cons_ne_nil _ _)] at last
    exact last.symm
  rcases exists_gather trimmedSplittable gatherWhole isLast
    (free place (isTagPlaces ▸ List.mem_cons_self)) text' with
    ⟨node, after, before', kept, gathers, afterSplittable, root_eq, texts, thins, nodeFree, isBefore,
      isTagText, same⟩
  have stays : ∀ other ∈ literals, after.textOf other = trimmed.textOf other :=
    fun other isMember => same other (List.mem_append_left _ isMember)
  refine ⟨node, after, before', literals, kept, isolate_eq_ok.mpr
    ⟨place.node, place.offset, trimmed, begins, trims, offset' ▸ gathers⟩, afterSplittable,
    root_eq.trans trimmedRoot, texts, thins, nodeFree, isBefore.trans isLead'.symm, ?_, ?_,
    fun other isMember => ?_⟩
  · rw [isTagText, isTagPlaces, isTag, List.map_cons, List.map_append, Place.map_char_allFrom,
      Scan.map_char_places]
    rfl
  · rw [segmentText_congr stays, literalText]
  · rw [same other (List.mem_append_right _ isMember), trimmedSame other isMember]

end Extraction

end WordTemplate
