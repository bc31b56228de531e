import Mathlib.Data.List.DropRight
import Mathlib.Data.List.TakeWhile
import WordTemplate.Proofs.Data.Fields
import WordTemplate.Proofs.Text.Numeral
import WordTemplate.Proofs.Text.Searching
import WordTemplate.Tag.Options

/-!
# The grammar of option blocks

`TagOptions.IsBlock` says, without reference to how a block is read, which texts are option blocks
and which pairs they list. The reader takes the first way that a key, a value or a separator can be
read and never comes back to it. It loses nothing by that: a key ends before the first character
that no key may hold, a bare value ends only before a comma or at the end, and a comma that no
pair follows is the one comma that may stand last. So exactly the blocks are read, with their pairs.
-/

namespace WordTemplate.TagOptions

/-! ## The grammar -/

/-- Spacing only. -/
def IsGap (chars : List Char) : Prop := ∀ char ∈ chars, Text.isSpacing char = true

/-- A text between two quotation marks of one kind that does not hold that mark. -/
inductive IsQuoted : List Char → List Char → Prop
  | between {mark : Char} {inside : List Char} (isMark : mark = '"' ∨ mark = '\'')
      (closed : mark ∉ inside) : IsQuoted (mark :: (inside ++ [mark])) inside

/-- A key as it is written, and the key. -/
inductive IsKey : List Char → String → Prop
  | quoted {source inside : List Char} (isQuoted : IsQuoted source inside) :
      IsKey source (String.ofList inside)
  | bare {word : List Char} (nonempty : word ≠ [])
      (allowed : ∀ char ∈ word, isKeyChar char = true) : IsKey word (String.ofList word)

/-- A word without blanks at its ends, and what it stands for: a truth value, null, a whole number
of 64 bits, any other finite number, or else itself. -/
inductive Denotes (word : List Char) : Data.Value → Prop
  | yes (isWord : word = "true".toList) : Denotes word (.bool true)
  | no (isWord : word = "false".toList) : Denotes word (.bool false)
  | null (isWord : word = "null".toList) : Denotes word .null
  | integer {value : Int} (isInteger : Text.IsInteger word value) (fits : Text.FitsInt64 value) :
      Denotes word (.number (.integer value))
  | float {value : Float} (notInteger : ∀ value, Text.IsInteger word value → ¬Text.FitsInt64 value)
      (isFloat : Decimal.readFloat? word = some value) (finite : value.isFinite = true) :
      Denotes word (.number (.float value))
  | string (notWord : word ∉ ["true".toList, "false".toList, "null".toList])
      (notInteger : ∀ value, Text.IsInteger word value → ¬Text.FitsInt64 value)
      (notFloat : ∀ value, Decimal.readFloat? word = some value → value.isFinite = false) :
      Denotes word (.string (String.ofList word))

/-- A value as it is written before `after`, and the value. A bare value starts with neither
spacing nor a quotation mark and reaches up to a comma or the end. -/
inductive IsValue (after : List Char) : List Char → Data.Value → Prop
  | quoted {source inside : List Char} (isQuoted : IsQuoted source inside) :
      IsValue after source (.string (String.ofList inside))
  | bare {first : Char} {word : List Char} {value : Data.Value}
      (unspaced : Text.isSpacing first = false) (unquoted : first ≠ '"' ∧ first ≠ '\'')
      (within : ',' ∉ first :: word) (maximal : ∀ char, after.head? = some char → char = ',')
      (denotes : Denotes (Text.trimChars (first :: word)) value) :
      IsValue after (first :: word) value

/-- A pair as it is written before `after`, and the pair. -/
inductive IsPair (after : List Char) : List Char → String × Data.Value → Prop
  | separated {keySource gap gap' valueSource : List Char} {key : String} {mark : Char}
      {value : Data.Value} (isKey : IsKey keySource key) (isGap : IsGap gap)
      (isMark : mark = '=' ∨ mark = ':') (isGap' : IsGap gap')
      (isValue : IsValue after valueSource value) :
      IsPair after (keySource ++ (gap ++ mark :: (gap' ++ valueSource))) (key, value)

/-- What may follow a pair, with the pairs in it: further pairs, each after a comma, and then a last
comma that need not be there. Spacing may stand around each comma and at the end. -/
inductive IsTail : List Char → List (String × Data.Value) → Prop
  | done {gap : List Char} (isGap : IsGap gap) : IsTail gap []
  | comma {gap gap' : List Char} (isGap : IsGap gap) (isGap' : IsGap gap') :
      IsTail (gap ++ ',' :: gap') []
  | pair {gap gap' source after : List Char} {pair : String × Data.Value}
      {pairs : List (String × Data.Value)} (isGap : IsGap gap) (isGap' : IsGap gap')
      (isPair : IsPair after source pair) (isTail : IsTail after pairs) :
      IsTail (gap ++ ',' :: (gap' ++ (source ++ after))) (pair :: pairs)

/-- An option block and the pairs it lists. A block without pairs may hold a comma as well. -/
inductive IsBlock : List Char → List (String × Data.Value) → Prop
  | empty {chars : List Char} (isTail : IsTail chars []) : IsBlock chars []
  | pairs {gap source after : List Char} {pair : String × Data.Value}
      {pairs : List (String × Data.Value)} (isGap : IsGap gap) (isPair : IsPair after source pair)
      (isTail : IsTail after pairs) : IsBlock (gap ++ (source ++ after)) (pair :: pairs)

variable {chars rest other gap source after inside : List Char} {text key : String} {mark : Char}
  {value : Data.Value} {pair : String × Data.Value} {pairs : List (String × Data.Value)}

/-! ## Spacing -/

theorem isGap_nil : IsGap [] := fun _ isMember => nomatch isMember

theorem IsGap.append (isGap : IsGap gap) (isGap' : IsGap other) : IsGap (gap ++ other) :=
  fun char isMember => (List.mem_append.mp isMember).elim (isGap char) (isGap' char)

theorem skip_append (isGap : IsGap gap) (rest : List Char) : skip (gap ++ rest) = skip rest :=
  List.dropWhile_append_of_pos isGap

theorem skip_cons (unspaced : Text.isSpacing mark = false) (rest : List Char) :
    skip (mark :: rest) = mark :: rest :=
  List.dropWhile_cons_of_neg (by simp [unspaced])

theorem skip_eq_self (unspaced : ∀ char, chars.head? = some char → Text.isSpacing char = false) :
    skip chars = chars :=
  Text.dropWhile_eq_self unspaced

theorem skip_skip (chars : List Char) : skip (skip chars) = skip chars :=
  List.dropWhile_idempotent _ _

theorem skip_eq_nil_iff : skip chars = [] ↔ IsGap chars := List.dropWhile_eq_nil_iff

theorem exists_gap (chars : List Char) : ∃ gap, IsGap gap ∧ chars = gap ++ skip chars :=
  ⟨chars.takeWhile Text.isSpacing, fun _ => List.mem_takeWhile_imp,
    List.takeWhile_append_dropWhile.symm⟩

theorem unspaced_skip (chars : List Char) :
    ∀ char, (skip chars).head? = some char → Text.isSpacing char = false := by
  intro char isFirst
  have stops := List.head?_dropWhile_not Text.isSpacing chars
  rw [skip] at isFirst
  rw [isFirst] at stops
  simpa using stops

/-! ## Quoted strings, keys and values -/

theorem readQuotedBy?_eq_some :
    readQuotedBy? mark chars = some (text, rest) ↔
      ∃ inside, mark ∉ inside ∧ chars = mark :: (inside ++ mark :: rest) ∧
        text = String.ofList inside := by
  constructor
  · intro read
    rcases chars with _ | ⟨first, chars⟩
    · simp [readQuotedBy?] at read
    · simp only [readQuotedBy?, beq_iff_eq] at read
      split at read
      · next isMark =>
          subst isMark
          split at read
          · next closing after found =>
              simp only [Option.some.injEq, Prod.mk.injEq] at read
              rcases read with ⟨rfl, rfl⟩
              have stops := List.head?_dropWhile_not (· != first) chars
              rw [found] at stops
              have isClosing : closing = first := by simpa using stops
              refine ⟨chars.takeWhile (· != first), fun isMember => ?_, ?_, rfl⟩
              · simpa using List.mem_takeWhile_imp isMember
              · rw [← isClosing, ← found, isClosing, List.takeWhile_append_dropWhile]
          · simp at read
      · simp at read
  · rintro ⟨inside, closed, rfl, rfl⟩
    have within : ∀ char ∈ inside, (char != mark) = true := by
      intro char isMember
      rw [bne_iff_ne]
      rintro rfl
      exact closed isMember
    have stops : ∀ char, (mark :: rest).head? = some char → (char != mark) = false := by simp
    rw [readQuotedBy?]
    simp only [beq_self_eq_true, if_true, Text.dropWhile_append within stops,
      Text.takeWhile_append within stops]

theorem readQuoted?_eq_some :
    readQuoted? chars = some (text, rest) ↔
      ∃ source inside, IsQuoted source inside ∧ chars = source ++ rest ∧
        text = String.ofList inside := by
  rw [readQuoted?, Option.or_eq_some_iff, readQuotedBy?_eq_some, readQuotedBy?_eq_some]
  constructor
  · rintro (⟨inside, closed, rfl, rfl⟩ | ⟨-, inside, closed, rfl, rfl⟩)
    · exact ⟨_, inside, .between (.inl rfl) closed, by simp, rfl⟩
    · exact ⟨_, inside, .between (.inr rfl) closed, by simp, rfl⟩
  · rintro ⟨_, _, ⟨rfl | rfl, closed⟩, rfl, rfl⟩
    · exact Or.inl ⟨_, closed, by simp, rfl⟩
    · exact Or.inr ⟨by simp [readQuotedBy?], _, closed, by simp, rfl⟩

theorem isKeyChar_separators :
    ∀ char ∈ ['=', ':', ',', '"', '\'', ' ', '\t', '\r', '\n'], isKeyChar char = false :=
  Text.forall_of_all (by decide +kernel)

theorem exists_of_readKey? (read : readKey? chars = some (key, rest)) :
    ∃ source, IsKey source key ∧ chars = source ++ rest := by
  rw [readKey?, Option.or_eq_some_iff] at read
  rcases read with quoted | ⟨-, bare⟩
  · rcases readQuoted?_eq_some.mp quoted with ⟨source, inside, isQuoted, rfl, rfl⟩
    exact ⟨source, .quoted isQuoted, rfl⟩
  · split at bare
    · simp at bare
    · next nonempty =>
        simp only [Option.some.injEq, Prod.mk.injEq] at bare
        rcases bare with ⟨rfl, rfl⟩
        exact ⟨_, .bare nonempty fun _ => List.mem_takeWhile_imp,
          List.takeWhile_append_dropWhile.symm⟩

theorem readQuoted?_append (isQuoted : IsQuoted source inside) (rest : List Char) :
    readQuoted? (source ++ rest) = some (String.ofList inside, rest) :=
  readQuoted?_eq_some.mpr ⟨source, inside, isQuoted, rfl, rfl⟩

theorem readQuoted?_cons (unquoted : mark ≠ '"' ∧ mark ≠ '\'') (rest : List Char) :
    readQuoted? (mark :: rest) = none := by
  simp [readQuoted?, readQuotedBy?, unquoted.1, unquoted.2]

theorem readKey?_append (isKey : IsKey source key)
    (stops : ∀ char, rest.head? = some char → isKeyChar char = false) :
    readKey? (source ++ rest) = some (key, rest) := by
  cases isKey with
  | quoted isQuoted => rw [readKey?, readQuoted?_append isQuoted, Option.some_or]
  | bare nonempty allowed =>
      rcases source with _ | ⟨first, word⟩
      · exact absurd rfl nonempty
      · have isKeyChar_first := allowed first List.mem_cons_self
        have unquoted : first ≠ '"' ∧ first ≠ '\'' := by
          constructor <;> rintro rfl <;>
            rw [isKeyChar_separators _ (by simp)] at isKeyChar_first <;> cases isKeyChar_first
        rw [readKey?, List.cons_append, readQuoted?_cons unquoted, Option.none_or,
          ← List.cons_append, Text.takeWhile_append allowed stops,
          Text.dropWhile_append allowed stops]

/-! ## Bare values -/

section Word

variable {word : List Char}

theorem readInt64?_eq_none :
    Text.readInt64? word = none ↔ ∀ value, Text.IsInteger word value → ¬Text.FitsInt64 value := by
  simp only [Option.eq_none_iff_forall_ne_some, ne_eq, Text.readInt64?_eq_some, not_and]

theorem not_word_of_readInt64? {value : Int} (isNumber : Text.readInt64? word = some value) :
    word ∉ ["true".toList, "false".toList, "null".toList] := by
  intro isWord
  simp only [List.mem_cons, List.not_mem_nil, or_false] at isWord
  rcases isWord with rfl | rfl | rfl <;> cases isNumber

theorem not_word_of_readFloat? {value : Float} (isNumber : Decimal.readFloat? word = some value) :
    word ∉ ["true".toList, "false".toList, "null".toList] := by
  intro isWord
  simp only [List.mem_cons, List.not_mem_nil, or_false] at isWord
  rcases isWord with rfl | rfl | rfl <;> cases isNumber

theorem bareValue_of_not_word
    (notWord : word ∉ ["true".toList, "false".toList, "null".toList]) :
    bareValue word =
      match Text.readInt64? word with
      | some value => .number (.integer value)
      | none =>
          match (Decimal.readFloat? word).filter Float.isFinite with
          | some value => .number (.float value)
          | none => .string (String.ofList word) := by
  simp only [List.mem_cons, List.not_mem_nil, or_false, not_or] at notWord
  unfold bareValue
  exact (if_neg notWord.1).trans ((if_neg notWord.2.1).trans (if_neg notWord.2.2))

theorem bareValue_of_denotes (denotes : Denotes word value) : bareValue word = value := by
  cases denotes with
  | yes isWord => subst isWord; rfl
  | no isWord => subst isWord; rfl
  | null isWord => subst isWord; rfl
  | integer isInteger fits =>
      have isNumber := Text.readInt64?_eq_some.mpr ⟨isInteger, fits⟩
      rw [bareValue_of_not_word (not_word_of_readInt64? isNumber), isNumber]
  | float notInteger isFloat finite =>
      rw [bareValue_of_not_word (not_word_of_readFloat? isFloat), readInt64?_eq_none.mpr notInteger,
        isFloat, Option.filter_some, if_pos finite]
  | string notWord notInteger notFloat =>
      have noFloat : (Decimal.readFloat? word).filter Float.isFinite = none := by
        rw [Option.filter_eq_none_iff]
        intro value isFloat
        simp [notFloat value isFloat]
      rw [bareValue_of_not_word notWord, readInt64?_eq_none.mpr notInteger, noFloat]

theorem denotes_bareValue (word : List Char) : Denotes word (bareValue word) := by
  by_cases isWord : word ∈ ["true".toList, "false".toList, "null".toList]
  · simp only [List.mem_cons, List.not_mem_nil, or_false] at isWord
    rcases isWord with rfl | rfl | rfl
    · exact .yes rfl
    · exact .no rfl
    · exact .null rfl
  · rw [bareValue_of_not_word isWord]
    split
    · next value isNumber =>
        rcases Text.readInt64?_eq_some.mp isNumber with ⟨isInteger, fits⟩
        exact .integer isInteger fits
    · next noNumber =>
        have notInteger := readInt64?_eq_none.mp noNumber
        split
        · next value isFloat =>
            rcases Option.filter_eq_some_iff.mp isFloat with ⟨isFloat, finite⟩
            exact .float notInteger isFloat finite
        · next noFloat =>
            refine .string isWord notInteger fun value isFloat => ?_
            simpa using Option.filter_eq_none_iff.mp noFloat value isFloat

/-- A bare value stands for what it denotes, and for nothing else. -/
theorem denotes_iff : Denotes word value ↔ bareValue word = value := by
  constructor
  · exact bareValue_of_denotes
  · rintro rfl
    exact denotes_bareValue word

end Word

theorem exists_of_readValue?
    (unspaced : ∀ char, chars.head? = some char → Text.isSpacing char = false)
    (read : readValue? chars = some (value, rest)) :
    ∃ source, IsValue rest source value ∧ chars = source ++ rest := by
  rw [readValue?] at read
  split at read
  · next text after quoted =>
      simp only [Option.some.injEq, Prod.mk.injEq] at read
      rcases read with ⟨rfl, rfl⟩
      rcases readQuoted?_eq_some.mp quoted with ⟨source, inside, isQuoted, rfl, rfl⟩
      exact ⟨source, .quoted isQuoted, rfl⟩
  · split at read
    · simp at read
    · next first word isWord =>
        split at read
        · simp at read
        · next unquoted =>
            simp only [Option.some.injEq, Prod.mk.injEq] at read
            rcases read with ⟨rfl, rfl⟩
            have whole : chars = first :: word ++ chars.dropWhile (· != ',') := by
              rw [← isWord, List.takeWhile_append_dropWhile]
            refine ⟨first :: word, .bare ?_ ?_ ?_ ?_ (denotes_bareValue _), whole⟩
            · exact unspaced first (by rw [whole]; rfl)
            · simpa using unquoted
            · intro isMember
              rw [← isWord] at isMember
              simpa using List.mem_takeWhile_imp isMember
            · intro char isNext
              have stops := List.head?_dropWhile_not (· != ',') chars
              rw [isNext] at stops
              simpa using stops

theorem readValue?_append (isValue : IsValue rest source value) :
    readValue? (source ++ rest) = some (value, rest) := by
  cases isValue with
  | quoted isQuoted => rw [readValue?, readQuoted?_append isQuoted]
  | @bare first word _ unspaced unquoted within maximal denotes =>
      have inside : ∀ char ∈ first :: word, (char != ',') = true := by
        intro char isMember
        rw [bne_iff_ne]
        rintro rfl
        exact within isMember
      have stops : ∀ char, rest.head? = some char → (char != ',') = false := by
        intro char isNext
        simp [maximal char isNext]
      rw [readValue?, List.cons_append, readQuoted?_cons unquoted, ← List.cons_append,
        Text.takeWhile_append inside stops, Text.dropWhile_append inside stops]
      simp [unquoted.1, unquoted.2, bareValue_of_denotes denotes]

/-! ## Pairs -/

theorem IsValue.unspaced (isValue : IsValue rest source value) :
    ∀ char, (source ++ rest).head? = some char → Text.isSpacing char = false := by
  cases isValue with
  | quoted isQuoted =>
      rcases isQuoted with ⟨rfl | rfl, -⟩ <;> simp <;> decide
  | bare unspaced => simpa using unspaced

theorem unspaced_of_isKeyChar {char : Char} (isKeyChar_char : isKeyChar char = true) :
    Text.isSpacing char = false := by
  rw [← Bool.not_eq_true]
  intro spacing
  simp only [Text.isSpacing, Bool.or_eq_true, beq_iff_eq] at spacing
  rw [isKeyChar_separators char (by rcases spacing with ((rfl | rfl) | rfl) | rfl <;> decide)]
    at isKeyChar_char
  cases isKeyChar_char

theorem IsKey.unspaced (isKey : IsKey source key) :
    ∀ char, (source ++ rest).head? = some char → Text.isSpacing char = false := by
  cases isKey with
  | quoted isQuoted =>
      rcases isQuoted with ⟨rfl | rfl, -⟩ <;> simp <;> decide
  | bare nonempty allowed =>
      rcases source with _ | ⟨first, word⟩
      · exact absurd rfl nonempty
      · simpa using unspaced_of_isKeyChar (allowed first List.mem_cons_self)

/-- A key ends before spacing and before the mark between key and value. -/
theorem isKeyChar_of_gap (isGap : IsGap gap) (isMark : mark = '=' ∨ mark = ':') :
    ∀ char, (gap ++ mark :: rest).head? = some char → isKeyChar char = false := by
  intro char isFirst
  apply isKeyChar_separators
  rcases gap with _ | ⟨first, gap⟩
  · simp only [List.nil_append, List.head?_cons, Option.some.injEq] at isFirst
    rcases isMark with rfl | rfl <;> simp [← isFirst]
  · simp only [List.cons_append, List.head?_cons, Option.some.injEq] at isFirst
    have spacing := isGap first List.mem_cons_self
    simp only [Text.isSpacing, Bool.or_eq_true, beq_iff_eq] at spacing
    rcases spacing with ((rfl | rfl) | rfl) | rfl <;> simp [← isFirst]

theorem readPair?_eq_some :
    readPair? chars = some (pair, rest) ↔
      ∃ gap source after, IsGap gap ∧ IsPair after source pair ∧ chars = gap ++ (source ++ after) ∧
        rest = skip after := by
  constructor
  · intro read
    simp only [readPair?, Option.bind_eq_bind, Option.bind_eq_some_iff, Prod.exists] at read
    rcases read with ⟨key, afterKey, readKey, read⟩
    split at read
    · next mark afterMark found =>
        split at read
        · next isMark =>
            simp only [Option.pure_def, Option.bind_eq_some_iff, Option.some.injEq, Prod.mk.injEq,
              Prod.exists] at read
            rcases read with ⟨value, after, readValue, rfl, rfl⟩
            rcases exists_gap chars with ⟨gap, isGap, lead⟩
            rcases exists_of_readKey? readKey with ⟨keySource, isKey, afterGap⟩
            rcases exists_gap afterKey with ⟨gap₁, isGap₁, beforeMark⟩
            rcases exists_gap afterMark with ⟨gap₂, isGap₂, beforeValue⟩
            rcases exists_of_readValue? (unspaced_skip afterMark) readValue with
              ⟨valueSource, isValue, afterGap₂⟩
            refine ⟨gap, _, after, isGap,
              .separated isKey isGap₁ (by simpa using isMark) isGap₂ isValue, ?_, rfl⟩
            rw [lead, afterGap, beforeMark, found, beforeValue, afterGap₂]
            simp
        · simp at read
    · simp at read
  · rintro ⟨gap, _, after, isGap, ⟨isKey, isGap₁, isMark, isGap₂, isValue⟩, rfl, rfl⟩
    rename_i keySource gap₁ gap₂ valueSource key mark value
    have unspacedMark : Text.isSpacing mark = false := by
      rcases isMark with rfl | rfl <;> decide
    have afterLead : skip (gap ++ (keySource ++ (gap₁ ++ mark :: (gap₂ ++ valueSource)) ++ after)) =
        keySource ++ (gap₁ ++ mark :: (gap₂ ++ (valueSource ++ after))) := by
      rw [skip_append isGap, List.append_assoc, skip_eq_self isKey.unspaced]
      simp
    have toMark : skip (gap₁ ++ mark :: (gap₂ ++ (valueSource ++ after))) =
        mark :: (gap₂ ++ (valueSource ++ after)) := by
      rw [skip_append isGap₁, skip_cons unspacedMark]
    have toValue : skip (gap₂ ++ (valueSource ++ after)) = valueSource ++ after := by
      rw [skip_append isGap₂, skip_eq_self isValue.unspaced]
    rw [readPair?, afterLead, readKey?_append isKey (isKeyChar_of_gap isGap₁ isMark)]
    simp [toMark, toValue, readValue?_append isValue, isMark]

theorem readPair?_skip : readPair? (skip chars) = readPair? chars := by
  simp only [readPair?, skip_skip]

/-! ## Lists of pairs -/

theorem IsTail.append (isGap : IsGap gap) (isTail : IsTail chars pairs) :
    IsTail (gap ++ chars) pairs := by
  cases isTail with
  | done isGap' => exact .done (isGap.append isGap')
  | comma isGap₁ isGap₂ =>
      rw [← List.append_assoc]
      exact .comma (isGap.append isGap₁) isGap₂
  | pair isGap₁ isGap₂ isPair isTail =>
      rw [← List.append_assoc]
      exact .pair (isGap.append isGap₁) isGap₂ isPair isTail

theorem isTail_of_skip (isTail : IsTail (skip chars) pairs) : IsTail chars pairs := by
  rcases exists_gap chars with ⟨gap, isGap, lead⟩
  rw [lead]
  exact isTail.append isGap

theorem IsBlock.append (isGap : IsGap gap) (isBlock : IsBlock chars pairs) :
    IsBlock (gap ++ chars) pairs := by
  cases isBlock with
  | empty isTail => exact .empty (isTail.append isGap)
  | pairs isGap' isPair isTail =>
      rw [← List.append_assoc]
      exact .pairs (isGap.append isGap') isPair isTail

/-- A text that no pair begins with is a tail without pairs if it holds a comma at most. -/
theorem isTail_nil_iff : IsTail chars [] ↔ skip (skipComma chars) = [] := by
  constructor
  · intro isTail
    cases isTail with
    | done isGap =>
        rw [skipComma, skip_eq_nil_iff.mpr isGap]
        exact skip_eq_nil_iff.mpr isGap
    | comma isGap isGap' =>
        rw [skipComma, skip_append isGap, skip_cons (by decide)]
        exact (skip_skip _).trans (skip_eq_nil_iff.mpr isGap')
  · intro used
    rcases exists_gap chars with ⟨gap, isGap, lead⟩
    rw [skipComma] at used
    split at used
    · next rest found =>
        rw [lead, found]
        rw [skip_skip] at used
        exact .comma isGap (skip_eq_nil_iff.mp used)
    · exact .done (skip_eq_nil_iff.mp used)

/-- No pair begins at the end or at a comma. -/
theorem readPair?_of_isTail (isTail : IsTail chars pairs) : readPair? chars = none := by
  have noKey : readKey? (skip chars) = none := by
    have atComma : ∀ rest, readKey? (skip (',' :: rest)) = none := by
      intro rest
      rw [skip_cons (by decide), readKey?, readQuoted?_cons (by decide), Option.none_or,
        List.takeWhile_cons_of_neg (by simp [isKeyChar_separators])]
    cases isTail with
    | done isGap => rw [skip_eq_nil_iff.mpr isGap]; rfl
    | comma isGap => rw [skip_append isGap, atComma]
    | pair isGap => rw [skip_append isGap, atComma]
  rw [readPair?, noKey]
  rfl

theorem readMore_of_pair (comma : skip chars = ',' :: rest)
    (read : readPair? rest = some (pair, other)) :
    readMore chars = (pair :: (readMore other).1, (readMore other).2) := by
  rw [readMore]
  split
  · next rest' found =>
      rw [comma, List.cons.injEq] at found
      rcases found with ⟨-, rfl⟩
      split
      · next found =>
          rw [read, Option.some.injEq, Prod.mk.injEq] at found
          rcases found with ⟨rfl, rfl⟩
          rfl
      · next none => simp [read] at none
  · next noComma => exact absurd comma (noComma _)

theorem readMore_of_no_pair (none : ∀ rest, skip chars = ',' :: rest → readPair? rest = none) :
    readMore chars = ([], chars) := by
  rw [readMore]
  split
  · next rest found =>
      split
      · next read => simp [none rest found] at read
      · rfl
  · rfl

/-- The pairs that were read are all of a text whose rest holds a comma at most. -/
def Used (result : List (String × Data.Value) × List Char) (pairs : List (String × Data.Value)) :
    Prop :=
  result.1 = pairs ∧ skip (skipComma result.2) = []

theorem isTail_of_used (used : Used (readMore chars) pairs) : IsTail chars pairs := by
  induction chars using readMore.induct generalizing pairs with
  | case1 chars rest comma pair other read _ _ _ inductionHypothesis =>
      rw [readMore_of_pair comma read] at used
      rcases used with ⟨rfl, used⟩
      rcases exists_gap chars with ⟨gap, isGap, lead⟩
      rcases readPair?_eq_some.mp read with ⟨gap', source, after, isGap', isPair, rfl, rfl⟩
      rw [lead, comma]
      exact .pair isGap isGap' isPair (isTail_of_skip (inductionHypothesis ⟨rfl, used⟩))
  | case2 chars rest comma noPair =>
      rw [readMore_of_no_pair fun rest' found => by
        rw [comma, List.cons.injEq] at found
        exact found.2 ▸ noPair] at used
      rcases used with ⟨rfl, used⟩
      exact isTail_nil_iff.mpr used
  | case3 chars noComma =>
      rw [readMore_of_no_pair fun rest found => absurd found (noComma rest)] at used
      rcases used with ⟨rfl, used⟩
      exact isTail_nil_iff.mpr used

/-- Spacing in front does not decide whether a comma at most is left. -/
theorem skip_skipComma_congr (same : skip other = skip chars) :
    skip (skipComma other) = skip (skipComma chars) := by
  rw [skipComma, skipComma, same]
  split
  · rfl
  · exact same

theorem used_of_no_pair (isTail : IsTail chars []) (same : skip other = skip chars)
    (none : ∀ rest, skip other = ',' :: rest → readPair? rest = none) :
    Used (readMore other) [] := by
  rw [readMore_of_no_pair none]
  exact ⟨rfl, (skip_skipComma_congr same).trans (isTail_nil_iff.mp isTail)⟩

/-- The reader goes on behind the spacing after a pair, hence not quite where the tail begins. -/
theorem used_of_isTail (isTail : IsTail chars pairs) (same : skip other = skip chars) :
    Used (readMore other) pairs := by
  induction isTail generalizing other with
  | done isGap =>
      refine used_of_no_pair (.done isGap) same fun rest found => ?_
      rw [same, skip_eq_nil_iff.mpr isGap] at found
      cases found
  | comma isGap isGap' =>
      refine used_of_no_pair (.comma isGap isGap') same fun rest found => ?_
      rw [same, skip_append isGap, skip_cons (by decide), List.cons.injEq] at found
      exact found.2 ▸ readPair?_of_isTail (.done isGap')
  | pair isGap isGap' isPair isTail inductionHypothesis =>
      rw [skip_append isGap, skip_cons (by decide)] at same
      have read := readPair?_eq_some.mpr ⟨_, _, _, isGap', isPair, rfl, rfl⟩
      have used := inductionHypothesis (skip_skip _)
      rw [readMore_of_pair same read, used.1]
      exact ⟨rfl, used.2⟩

/-- All pairs of a block are read, and nothing else is read as a block. -/
theorem used_readPairs_iff : Used (readPairs (skip chars)) pairs ↔ IsBlock chars pairs := by
  constructor
  · intro used
    rcases exists_gap chars with ⟨gap, isGap, lead⟩
    rw [lead]
    refine IsBlock.append isGap ?_
    rcases read : readPair? (skip chars) with _ | ⟨pair, rest⟩
    · rw [readPairs, read] at used
      rcases used with ⟨rfl, used⟩
      exact .empty (isTail_nil_iff.mpr used)
    · rw [readPairs, read] at used
      rcases used with ⟨rfl, used⟩
      rcases readPair?_eq_some.mp read with ⟨gap', source, after, isGap', isPair, whole, rfl⟩
      rw [whole]
      exact .pairs isGap' isPair (isTail_of_skip (isTail_of_used ⟨rfl, used⟩))
  · intro isBlock
    cases isBlock with
    | empty isTail =>
        rw [readPairs, readPair?_skip, readPair?_of_isTail isTail]
        exact ⟨rfl, (skip_skipComma_congr (skip_skip chars)).trans (isTail_nil_iff.mp isTail)⟩
    | pairs isGap isPair isTail =>
        have read := readPair?_eq_some.mpr ⟨_, _, _, isGap, isPair, rfl, rfl⟩
        have used := used_of_isTail isTail (skip_skip _)
        rw [readPairs, readPair?_skip, read]
        exact ⟨by rw [← used.1], used.2⟩

/-! ## Blocks -/

variable {block : String} {options : TagOptions}

theorem read_eq_ok :
    read block = .ok options ↔
      ∃ pairs, IsBlock (block.toList.map plainQuote) pairs ∧
        options = Data.Fields.ofPairs pairs := by
  simp only [← used_readPairs_iff]
  rw [read]
  split
  · next pairs rest result =>
      split
      · next used =>
          constructor
          · intro done
            cases done
            exact ⟨pairs, ⟨by rw [result], by rw [result]; exact used⟩, rfl⟩
          · rintro ⟨pairs', ⟨isPairs, -⟩, rfl⟩
            rw [result] at isPairs
            rw [← isPairs]
      · next unread =>
          constructor
          · intro done
            cases done
          · rintro ⟨pairs', ⟨-, used⟩, -⟩
            rw [result] at used
            exact absurd used unread

/-- With the typographic quotation marks replaced, exactly the texts of the grammar are read as
option blocks, and the options are the pairs of the block, the last one under each key. -/
theorem read_eq_ok_iff_isBlock (block : String) (options : TagOptions) :
    read block = .ok options ↔
      ∃ pairs, IsBlock (block.toList.map plainQuote) pairs ∧
        Data.Fields.Collects pairs options := by
  rw [read_eq_ok]
  simp only [Data.Fields.collects_iff]

end WordTemplate.TagOptions
