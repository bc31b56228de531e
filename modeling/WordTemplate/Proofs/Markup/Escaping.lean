import WordTemplate.Markup.Event
import WordTemplate.Proofs.Text.Searching

/-!
# Escapes are read back

Each escaped character is written as a reference that denotes it. In attribute values the
references are resolved in place, in text they are events of their own.
-/

namespace WordTemplate.Markup

/-- `name` is a predefined name of `char`. -/
structure Names (name : List Char) (char : Char) : Prop where
  named : namedChar? (String.ofList name) = some char
  notNumber : name.head? ≠ some '#'
  ofEscape : ∀ char ∈ name, endsEscape char = false
  ofReference : ∀ char ∈ name, endsReference char = false
  unquoted : ∀ char ∈ name, char ≠ '"' ∧ char ≠ '\''

/-- A character of text is written as it stands or as a reference that denotes it. -/
theorem escapeTextChar_cases (char : Char) :
    (escapeTextChar char = [char] ∧ char ≠ '<' ∧ char ≠ '&') ∨
      ∃ name, escapeTextChar char = '&' :: (name ++ [';']) ∧ Names name char := by
  by_cases isLess : char = '<'
  · subst isLess
    exact Or.inr ⟨"lt".toList, rfl, rfl, by decide, by simp [endsEscape],
      by simp [endsReference], by simp⟩
  by_cases isGreater : char = '>'
  · subst isGreater
    exact Or.inr ⟨"gt".toList, rfl, rfl, by decide, by simp [endsEscape],
      by simp [endsReference], by simp⟩
  by_cases isAmpersand : char = '&'
  · subst isAmpersand
    exact Or.inr ⟨"amp".toList, rfl, rfl, by decide, by simp [endsEscape],
      by simp [endsReference], by simp⟩
  · exact Or.inl ⟨by simp [escapeTextChar, isLess, isGreater, isAmpersand], isLess, isAmpersand⟩

/-- A character of an attribute value is never written as a quotation mark. -/
theorem escapeValueChar_cases (char : Char) :
    (escapeValueChar char = [char] ∧ char ≠ '&' ∧ char ≠ '"' ∧ char ≠ '\'') ∨
      ∃ name, escapeValueChar char = '&' :: (name ++ [';']) ∧ Names name char := by
  by_cases isApostrophe : char = '\''
  · subst isApostrophe
    exact Or.inr ⟨"apos".toList, rfl, rfl, by decide, by simp [endsEscape],
      by simp [endsReference], by simp⟩
  by_cases isQuote : char = '"'
  · subst isQuote
    exact Or.inr ⟨"quot".toList, rfl, rfl, by decide, by simp [endsEscape],
      by simp [endsReference], by simp⟩
  have asText : escapeValueChar char = escapeTextChar char := by
    simp [escapeValueChar, isApostrophe, isQuote]
  rw [asText]
  rcases escapeTextChar_cases char with ⟨plain, -, notAmpersand⟩ | named
  · exact Or.inl ⟨plain, notAmpersand, isQuote, isApostrophe⟩
  · exact Or.inr named

/-! ## Attribute values -/

/-- The characters of an escaped value other than its references are those of the value. -/
theorem ne_quote_of_mem_escapeValue {chars : List Char} {char : Char}
    (isMember : char ∈ chars.flatMap escapeValueChar) : char ≠ '"' ∧ char ≠ '\'' := by
  rcases List.mem_flatMap.mp isMember with ⟨original, -, isMember⟩
  rcases escapeValueChar_cases original with ⟨plain, -, unquoted⟩ | ⟨name, written, names⟩
  · rw [plain, List.mem_singleton] at isMember
    exact isMember ▸ unquoted
  · simp only [written, List.mem_cons, List.mem_append, List.not_mem_nil, or_false] at isMember
    rcases isMember with rfl | isMember | rfl
    · decide
    · exact names.unquoted char isMember
    · decide

theorem unescapeChars_reference {name : List Char} {char : Char} (names : Names name char)
    (length : Nat) (rest : List Char) :
    unescapeChars length ('&' :: (name ++ ';' :: rest)) =
      (unescapeChars length rest).map (char :: ·) := by
  have stops : ∀ char, (';' :: rest).head? = some char → (!endsEscape char) = false := by
    rintro _ ⟨⟩
    rfl
  have inside : ∀ char ∈ name, (!endsEscape char) = true := fun char isMember => by
    simp [names.ofEscape char isMember]
  have denoted : ∀ start, escapedChar start name = .ok char := by
    intro start
    unfold escapedChar
    split
    · next digits => exact absurd rfl names.notNumber
    · simp [names.named]
  rw [unescapeChars]
  split
  · next after found =>
      rw [Text.dropWhile_append inside stops, List.cons.injEq] at found
      obtain rfl := found.2
      rw [Text.takeWhile_append inside stops, denoted]
      cases unescapeChars length rest <;> rfl
  · next notFound =>
      rw [Text.dropWhile_append inside stops] at notFound
      exact absurd rfl (notFound rest)

/-- Attribute values are read as they were before they were escaped. -/
theorem unescapeChars_flatMap (length : Nat) (chars : List Char) :
    unescapeChars length (chars.flatMap escapeValueChar) = .ok chars := by
  induction chars with
  | nil => simp [unescapeChars]
  | cons char rest inductionHypothesis =>
      rw [List.flatMap_cons]
      rcases escapeValueChar_cases char with ⟨plain, notAmpersand, -⟩ | ⟨name, written, names⟩
      · rw [plain, List.singleton_append, unescapeChars, inductionHypothesis]
        · rfl
        · exact notAmpersand
      · rw [written, List.cons_append, List.append_assoc, List.singleton_append,
          unescapeChars_reference names, inductionHypothesis]
        rfl

theorem unescape_escapeValue (value : String) : unescape (escapeValue value) = .ok value := by
  rw [unescape, escapeValue, unescapeChars_flatMap]
  simp [Except.map]

end WordTemplate.Markup
