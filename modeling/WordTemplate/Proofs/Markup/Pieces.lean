import Mathlib.Data.List.DropRight
import WordTemplate.Proofs.Markup.Escaping

/-!
# Character data and kept markup are read back

Escaped text is read as stretches of plain characters and references between them, which together
spell the text. A comment, a processing instruction or a document type that the reader once
produced is read as the same piece of markup again, whatever follows it.
-/

namespace WordTemplate.Markup

/-! ## Kept markup -/

/-- Where the closing bracket stands does not depend on what follows it. -/
theorem splitBalanced?_append {depth : Nat} {chars inside after : List Char}
    (found : splitBalanced? depth chars = some (inside, after)) (rest : List Char) :
    splitBalanced? depth (inside ++ '>' :: rest) = some (inside, rest) := by
  induction chars generalizing depth inside with
  | nil => simp [splitBalanced?] at found
  | cons char chars inductionHypothesis =>
      simp only [splitBalanced?] at found
      split at found
      · simp only [Option.some.injEq, Prod.mk.injEq] at found
        rcases found with ⟨rfl, -⟩
        next closes =>
          simp only [Bool.and_eq_true, beq_iff_eq] at closes
          simp [splitBalanced?, closes.2]
      · next notClosed =>
          simp only [Option.map_eq_some_iff, Prod.exists, Prod.mk.injEq] at found
          rcases found with ⟨inside', after', inner, rfl, rfl⟩
          rw [List.cons_append, splitBalanced?, if_neg notClosed]
          dsimp only
          rw [inductionHypothesis inner]
          rfl

/-- Characters other than angle brackets do not change the balance. -/
theorem splitBalanced?_of_plain {depth : Nat} {chars rest : List Char}
    (plain : ∀ char ∈ chars, char ≠ '<' ∧ char ≠ '>') :
    splitBalanced? depth (chars ++ rest) =
      (splitBalanced? depth rest).map fun (inside, after) => (chars ++ inside, after) := by
  induction chars with
  | nil => simp
  | cons char chars inductionHypothesis =>
      rcases plain char List.mem_cons_self with ⟨notOpening, notClosing⟩
      have later := inductionHypothesis fun other isMember =>
        plain other (List.mem_cons_of_mem _ isMember)
      simp [splitBalanced?, notClosing, notOpening, later, Function.comp_def]

/-- A piece of markup as the reader produces it, other than the declaration of a document. -/
def IsKept (raw : String) : Prop :=
  (∃ chars rest, nextEvent chars = .found (.markup raw) rest) ∧
    ¬"<?xml ".toList <+: raw.toList

/-- The three kinds of kept markup. -/
inductive KeptForm : String → Prop
  | comment (inside : List Char)
      (ends : ∀ rest, Text.splitAtFirst? "-->".toList (inside ++ ("-->".toList ++ rest)) =
        some (inside, rest)) :
      KeptForm ("<!--" ++ String.ofList inside ++ "-->")
  | instruction (inside : List Char)
      (ends : ∀ rest, Text.splitAtFirst? "?>".toList (inside ++ ("?>".toList ++ rest)) =
        some (inside, rest))
      (begun : inside.head? ≠ some '>') (notDeclaration : isDeclaration inside = false) :
      KeptForm ("<?" ++ String.ofList inside ++ "?>")
  | doctype (content : List Char)
      (ends : ∀ rest, splitBalanced? 0 (content ++ '>' :: rest) = some (content, rest))
      (nonempty : content ≠ []) (unspaced : content.dropWhile Text.isSpacing = content) :
      KeptForm ("<!DOCTYPE " ++ String.ofList content ++ ">")

theorem form_of_commentStep {chars rest : List Char} {raw : String}
    (read : commentStep chars = .found (.markup raw) rest) : KeptForm raw := by
  unfold commentStep at read
  split at read
  · split at read
    · next inside after cut =>
        split at read
        · simp only [Step.found.injEq, Event.markup.injEq] at read
          rw [← read.1]
          exact KeptForm.comment inside (Text.splitAtFirst?_append (by decide) cut)
        · simp [Step.malformed] at read
    · simp [Step.malformed] at read
  · simp [Step.malformed] at read

theorem ne_bracket_of_keyword {chars : List Char} (isKeyword : chars.map Char.toUpper = "DOCTYPE".toList) :
    ∀ char ∈ chars, char ≠ '<' ∧ char ≠ '>' := by
  intro char isMember
  have isLetter : char.toUpper ∈ "DOCTYPE".toList := isKeyword ▸ List.mem_map_of_mem isMember
  constructor
  · rintro rfl
    exact absurd isLetter (by decide)
  · rintro rfl
    exact absurd isLetter (by decide)

theorem ne_bracket_of_isSpacing {char : Char} (isSpacing : Text.isSpacing char = true) :
    char ≠ '<' ∧ char ≠ '>' := by
  constructor
  · rintro rfl
    exact absurd isSpacing (by decide)
  · rintro rfl
    exact absurd isSpacing (by decide)

theorem form_of_doctypeStep {chars rest : List Char} {raw : String}
    (read : doctypeStep chars = .found (.markup raw) rest) : KeptForm raw := by
  unfold doctypeStep at read
  split at read
  · next inside after cut =>
      unfold doctypeEvent at read
      dsimp only at read
      split at read
      · next isKeyword =>
          split at read
          · simp [Step.ofResult] at read
          · next notNil =>
              simp only [Step.ofResult, Step.found.injEq, Event.markup.injEq] at read
              rw [← read.1]
              let spaces := (inside.drop "DOCTYPE".length).takeWhile Text.isSpacing
              let lead := inside.take "DOCTYPE".length ++ spaces
              have whole : inside =
                  lead ++ (inside.drop "DOCTYPE".length).dropWhile Text.isSpacing := by
                rw [List.append_assoc, List.takeWhile_append_dropWhile, List.take_append_drop]
              have plain : ∀ char ∈ lead, char ≠ '<' ∧ char ≠ '>' := by
                intro char isMember
                rcases List.mem_append.mp isMember with inKeyword | inSpaces
                · exact ne_bracket_of_keyword isKeyword char inKeyword
                · exact ne_bracket_of_isSpacing (List.mem_takeWhile_imp inSpaces)
              refine KeptForm.doctype _ (fun rest => ?_) notNil (List.dropWhile_idempotent _ _)
              have ends := splitBalanced?_append cut rest
              rw [whole, List.append_assoc, splitBalanced?_of_plain plain,
                Option.map_eq_some_iff] at ends
              rcases ends with ⟨⟨found, left⟩, isFound, same⟩
              simp only [Prod.mk.injEq, List.append_cancel_left_eq] at same
              rw [isFound, same.1, same.2]
      · simp [Step.ofResult] at read
  · simp [Step.malformed] at read

theorem exists_of_bind_eq_ok {ε α β : Type} {first : Except ε α} {next : α → Except ε β} {value : β}
    (done : (first >>= next) = .ok value) : ∃ between, first = .ok between ∧ next between = .ok value := by
  cases first with
  | error cause => cases done
  | ok between => exact ⟨between, rfl, done⟩

/-- A declaration is kept in a form of its own. -/
theorem declaration_of_declarationEvent {inside : List Char} {raw : String}
    (isEvent : declarationEvent inside = .ok (.markup raw)) : "<?xml ".toList <+: raw.toList := by
  unfold declarationEvent at isEvent
  dsimp only at isEvent
  split at isEvent
  · cases isEvent
  · cases isEvent
  · split at isEvent
    · rcases exists_of_bind_eq_ok isEvent with ⟨version, -, isEvent⟩
      rcases exists_of_bind_eq_ok isEvent with ⟨encoding, -, isEvent⟩
      rcases exists_of_bind_eq_ok isEvent with ⟨standalone, -, isEvent⟩
      cases isEvent
      simp only [String.toList_append]
      exact ⟨_, rfl⟩
    · cases isEvent

theorem tagEvent_ne_markup {inside : List Char} {raw : String} :
    tagEvent inside ≠ .ok (.markup raw) := by
  intro isEvent
  unfold tagEvent at isEvent
  split at isEvent
  · cases isEvent
  · rcases exists_of_bind_eq_ok isEvent with ⟨attributes, -, isEvent⟩
    split at isEvent <;> cases isEvent

theorem form_of_instructionStep {chars rest : List Char} {raw : String}
    (read : instructionStep chars = .found (.markup raw) rest)
    (notDeclaration : ¬"<?xml ".toList <+: raw.toList) : KeptForm raw := by
  unfold instructionStep at read
  split at read
  · simp [Step.malformed] at read
  · next begun =>
      split at read
      · next inside after cut =>
          unfold instructionEvent at read
          split at read
          · cases isEvent : declarationEvent inside with
            | error cause => simp [isEvent, Step.ofResult] at read
            | ok event =>
                simp only [isEvent, Step.ofResult, Step.found.injEq] at read
                rw [read.1] at isEvent
                exact absurd (declaration_of_declarationEvent isEvent) notDeclaration
          · next notDeclared =>
              simp only [Step.ofResult, Step.found.injEq, Event.markup.injEq] at read
              rw [← read.1]
              refine KeptForm.instruction inside (Text.splitAtFirst?_append (by decide) cut) ?_
                (by simpa using notDeclared)
              intro isHead
              rcases inside with _ | ⟨first, inside⟩
              · cases isHead
              · cases isHead
                exact begun _ (Text.append_of_splitAtFirst? (by decide) cut)
      · simp [Step.malformed] at read

/-- Kept markup is a comment, a processing instruction or a document type. -/
theorem IsKept.form {raw : String} (isKept : IsKept raw) : KeptForm raw := by
  rcases isKept with ⟨⟨chars, rest, read⟩, notDeclaration⟩
  unfold nextEvent at read
  split at read
  · cases read
  · exact form_of_instructionStep read notDeclaration
  · exact form_of_commentStep read
  · unfold sectionStep at read
    split at read
    · split at read <;> simp [Step.malformed] at read
    · simp [Step.malformed] at read
  · exact form_of_doctypeStep read
  · exact form_of_doctypeStep read
  · simp [Step.malformed] at read
  · unfold tagStep at read
    split at read
    · next inside after cut =>
        cases isEvent : tagEvent inside with
        | error cause => simp [isEvent, Step.ofResult] at read
        | ok event =>
            simp only [isEvent, Step.ofResult, Step.found.injEq] at read
            exact absurd (read.1 ▸ isEvent) tagEvent_ne_markup
    · simp [Step.malformed] at read
  · unfold referenceStep at read
    split at read <;> simp [Step.malformed] at read
  · simp at read

/-- Kept markup is read back, whatever follows it. -/
theorem nextEvent_kept {raw : String} (isKept : IsKept raw) (rest : List Char) :
    nextEvent (raw.toList ++ rest) = .found (.markup raw) rest := by
  cases isKept.form with
  | comment inside ends =>
      have read : commentStep ('-' :: (inside ++ ("-->".toList ++ rest))) =
          .found (.markup ("<!--" ++ String.ofList inside ++ "-->")) rest := by
        rw [commentStep, ends]
        rfl
      have whole : ("<!--" ++ String.ofList inside ++ "-->").toList ++ rest =
          '<' :: '!' :: '-' :: '-' :: (inside ++ ("-->".toList ++ rest)) := by
        simp
      rw [whole]
      exact read
  | instruction inside ends begun notDeclaration =>
      have read : instructionStep (inside ++ ("?>".toList ++ rest)) =
          .found (.markup ("<?" ++ String.ofList inside ++ "?>")) rest := by
        unfold instructionStep
        split
        · next bracket =>
            rcases inside with _ | ⟨first, inside⟩
            · cases bracket
            · cases bracket
              exact absurd rfl begun
        · rw [ends]
          simp only [instructionEvent, notDeclaration, Bool.false_eq_true, if_false, Step.ofResult]
      have whole : ("<?" ++ String.ofList inside ++ "?>").toList ++ rest =
          '<' :: '?' :: (inside ++ ("?>".toList ++ rest)) := by
        simp
      rw [whole]
      exact read
  | doctype content ends nonempty unspaced =>
      have plain : ∀ char ∈ "DOCTYPE ".toList, char ≠ '<' ∧ char ≠ '>' := by simp
      have isEvent : doctypeEvent ("DOCTYPE ".toList ++ content) =
          .ok (.markup ("<!DOCTYPE " ++ String.ofList content ++ ">")) := by
        have isContent : (("DOCTYPE ".toList ++ content).drop "DOCTYPE".length).dropWhile
            Text.isSpacing = content := unspaced
        have isKeyword : (("DOCTYPE ".toList ++ content).take "DOCTYPE".length).map Char.toUpper =
            "DOCTYPE".toList := rfl
        unfold doctypeEvent
        dsimp only
        rw [if_pos isKeyword, isContent]
        rcases content with _ | ⟨first, content⟩
        · exact absurd rfl nonempty
        · rfl
      have read : doctypeStep ("DOCTYPE ".toList ++ (content ++ '>' :: rest)) =
          .found (.markup ("<!DOCTYPE " ++ String.ofList content ++ ">")) rest := by
        rw [doctypeStep, splitBalanced?_of_plain plain, ends]
        simp only [Option.map_some, isEvent, Step.ofResult]
      have whole : ("<!DOCTYPE " ++ String.ofList content ++ ">").toList ++ rest =
          '<' :: '!' :: ("DOCTYPE ".toList ++ (content ++ '>' :: rest)) := by
        simp
      rw [whole]
      exact read

/-! ## Character data -/

/-- A reading that has some events before its own. -/
def Reading.prepend (events : List Event) (reading : Reading) : Reading :=
  { reading with events := events ++ reading.events }

theorem readEvents_of_found {openNames openNames' : List String} {chars rest : List Char}
    {event : Event} (next : nextEvent chars = .found event rest)
    (opens : openAfter openNames event = .ok openNames') :
    readEvents openNames chars = (readEvents openNames' rest).prepend [event] := by
  rw [readEvents]
  split
  · next found => simp [next] at found
  · next cause found => simp [next] at found
  · next event' rest' found =>
      simp only [next, Step.found.injEq] at found
      rcases found with ⟨rfl, rfl⟩
      simp only [opens, Reading.prepend, List.singleton_append]

theorem Reading.prepend_append (first second : List Event) (reading : Reading) :
    (reading.prepend second).prepend first = reading.prepend (first ++ second) := by
  simp [prepend]

/-- Events of character data that spell a text. -/
inductive Spells : List Event → List Char → Prop
  | nil : Spells [] []
  | text {events : List Event} {chars stretch : List Char} (nonempty : stretch ≠ [])
      (later : Spells events chars) :
      Spells (.text (String.ofList stretch) :: events) (stretch ++ chars)
  | reference {events : List Event} {chars : List Char} {name : String} {char : Char}
      (denotes : referenceText name = char.toString) (later : Spells events chars) :
      Spells (.reference name :: events) (char :: chars)

/-- The text ends here: what follows is a tag, kept markup or nothing. -/
def EndsText (rest : List Char) : Prop := ∀ char, rest.head? = some char → char = '<'

theorem referenceText_of_names {name : List Char} {char : Char} (names : Names name char) :
    referenceText (String.ofList name) = char.toString := by
  have denoted : referencedChar? (String.ofList name) = some char := by
    unfold referencedChar?
    rw [String.toList_ofList]
    split
    · exact absurd rfl names.notNumber
    · exact absurd rfl names.notNumber
    · exact absurd rfl names.notNumber
    · exact names.named
  rw [referenceText, denoted]

theorem nextEvent_reference {name : List Char} {char : Char} (names : Names name char)
    (rest : List Char) :
    nextEvent ('&' :: (name ++ ';' :: rest)) = .found (.reference (String.ofList name)) rest := by
  have inside : ∀ char ∈ name, (!endsReference char) = true := fun char isMember => by
    simp [names.ofReference char isMember]
  have stops : ∀ char, (';' :: rest).head? = some char → (!endsReference char) = false := by
    rintro _ ⟨⟩
    rfl
  have read : referenceStep (name ++ ';' :: rest) = .found (.reference (String.ofList name)) rest := by
    rw [referenceStep, Text.dropWhile_append inside stops, Text.takeWhile_append inside stops]
    rfl
  exact read

/-- Whether a character of text is written as it stands. -/
def isPlain (char : Char) : Bool := char != '<' && char != '>' && char != '&'

theorem flatMap_escapeTextChar_of_plain {chars : List Char}
    (plain : ∀ char ∈ chars, isPlain char = true) : chars.flatMap escapeTextChar = chars := by
  induction chars with
  | nil => rfl
  | cons char chars inductionHypothesis =>
      have isSelf : escapeTextChar char = [char] := by
        have plainChar := plain char List.mem_cons_self
        simp only [isPlain, Bool.and_eq_true, bne_iff_ne] at plainChar
        simp [escapeTextChar, plainChar]
      rw [List.flatMap_cons, isSelf,
        inductionHypothesis fun other isMember => plain other (List.mem_cons_of_mem _ isMember)]
      rfl

theorem escapeTextChar_of_not_plain {char : Char} (notPlain : isPlain char = false) :
    ∃ name, escapeTextChar char = '&' :: (name ++ [';']) ∧ Names name char := by
  rcases escapeTextChar_cases char with ⟨isSelf, notLess, notAmpersand⟩ | named
  · have isGreater : char = '>' := by simpa [isPlain, notLess, notAmpersand] using notPlain
    subst isGreater
    cases isSelf
  · exact named

/-- A stretch of plain characters is one event. -/
theorem nextEvent_stretch {first : Char} {stretch written : List Char}
    (plain : ∀ char ∈ first :: stretch, isPlain char = true)
    (stops : ∀ char, written.head? = some char → endsText char = true) :
    nextEvent (first :: stretch ++ written) = .found (.text (String.ofList (first :: stretch))) written := by
  have inside : ∀ char ∈ first :: stretch, (!endsText char) = true := by
    intro char isMember
    have plainChar := plain char isMember
    simp only [isPlain, Bool.and_eq_true, bne_iff_ne] at plainChar
    simp [endsText, plainChar]
  have inside' : ∀ char ∈ stretch, (!endsText char) = true := fun char isMember =>
    inside char (List.mem_cons_of_mem _ isMember)
  have stops' : ∀ char, written.head? = some char → (!endsText char) = false := by
    simpa using stops
  have plainFirst := plain first List.mem_cons_self
  simp only [isPlain, Bool.and_eq_true, bne_iff_ne] at plainFirst
  rw [List.cons_append]
  unfold nextEvent
  split
  case h_10 other more _ _ _ _ _ _ _ _ same =>
    obtain ⟨rfl, rfl⟩ := List.cons.inj same
    rw [Text.takeWhile_append inside' stops', Text.dropWhile_append inside' stops']
  all_goals simp_all

/-- Escaped text is read as events that spell it. -/
theorem exists_spells (chars : List Char) {rest : List Char} (ends : EndsText rest) :
    ∃ events, Spells events chars ∧ ∀ openNames,
      readEvents openNames (chars.flatMap escapeTextChar ++ rest) =
        (readEvents openNames rest).prepend events := by
  induction isLength : chars.length using Nat.strongRecOn generalizing chars with
  | ind length inductionHypothesis =>
      rcases chars with _ | ⟨first, chars⟩
      · exact ⟨[], Spells.nil, fun openNames => rfl⟩
      by_cases plainFirst : isPlain first = true
      · have shorter : (chars.dropWhile isPlain).length < length := by
          have notLonger := Text.length_dropWhile_le isPlain chars
          rw [← isLength, List.length_cons]
          omega
        rcases inductionHypothesis _ shorter _ rfl with ⟨events, spells, read⟩
        have plain : ∀ char ∈ first :: chars.takeWhile isPlain, isPlain char = true := by
          intro char isMember
          rcases List.mem_cons.mp isMember with rfl | isMember
          · exact plainFirst
          · exact List.mem_takeWhile_imp isMember
        have whole : first :: chars = first :: chars.takeWhile isPlain ++ chars.dropWhile isPlain := by
          rw [List.cons_append, List.takeWhile_append_dropWhile]
        have stops : ∀ char, ((chars.dropWhile isPlain).flatMap escapeTextChar ++ rest).head? = some char →
            endsText char = true := by
          intro char isHead
          cases isRest : chars.dropWhile isPlain with
          | nil =>
              rw [isRest, List.flatMap_nil, List.nil_append] at isHead
              rw [ends char isHead]
              rfl
          | cons next others =>
              have notPlain : isPlain next = false := by
                have head := List.head?_dropWhile_not isPlain chars
                rw [isRest] at head
                simpa using head
              rcases escapeTextChar_of_not_plain notPlain with ⟨name, written, -⟩
              rw [isRest, List.flatMap_cons, written] at isHead
              cases isHead
              rfl
        refine ⟨.text (String.ofList (first :: chars.takeWhile isPlain)) :: events, ?_, ?_⟩
        · rw [whole]
          exact Spells.text (List.cons_ne_nil _ _) spells
        · intro openNames
          rw [whole, List.flatMap_append, flatMap_escapeTextChar_of_plain plain, List.append_assoc,
            readEvents_of_found (nextEvent_stretch plain stops) rfl, read, Reading.prepend_append]
          rfl
      · have shorter : chars.length < length := by
          rw [← isLength, List.length_cons]
          omega
        rcases inductionHypothesis _ shorter _ rfl with ⟨events, spells, read⟩
        rcases escapeTextChar_of_not_plain (by simpa using plainFirst) with ⟨name, written, names⟩
        refine ⟨.reference (String.ofList name) :: events,
          Spells.reference (referenceText_of_names names) spells, fun openNames => ?_⟩
        rw [List.flatMap_cons, written, List.append_assoc, List.cons_append, List.append_assoc,
          List.singleton_append, readEvents_of_found (nextEvent_reference names _) rfl, read,
          Reading.prepend_append]
        rfl

end WordTemplate.Markup
