import Mathlib.Data.List.DropRight
import WordTemplate.Proofs.Text.Searching
import WordTemplate.Text.Blank

/-!
# Trimming

Trimming drops the blanks at both ends of a text and nothing else. What is left neither begins nor
ends with a blank, and blanks put around such a text are dropped again.
-/

namespace WordTemplate.Text

/-- The text neither begins nor ends with a blank. -/
structure IsTrimmed (chars : List Char) : Prop where
  first : ∀ char, chars.head? = some char → isBlank char = false
  last : ∀ char, chars.getLast? = some char → isBlank char = false

variable {chars before middle after : List Char}

theorem dropEndWhile_append {drops : Char → Bool} (dropped : ∀ char ∈ after, drops char = true) :
    dropEndWhile drops (chars ++ after) = dropEndWhile drops chars := by
  rw [dropEndWhile, List.reverse_append, List.dropWhile_append_of_pos (by simpa using dropped)]
  rfl

theorem dropEndWhile_eq_self {drops : Char → Bool}
    (stops : ∀ char, chars.getLast? = some char → drops char = false) :
    dropEndWhile drops chars = chars := by
  rw [dropEndWhile, dropWhile_eq_self (by simpa using stops), List.reverse_reverse]

/-- Blanks around a trimmed text are dropped. -/
theorem trimChars_around (isBlank_before : ∀ char ∈ before, isBlank char = true)
    (isBlank_after : ∀ char ∈ after, isBlank char = true) (isTrimmed : IsTrimmed middle) :
    trimChars (before ++ (middle ++ after)) = middle := by
  rw [trimChars, List.dropWhile_append_of_pos isBlank_before]
  cases middle with
  | nil =>
      have nothing : ([] ++ after).dropWhile isBlank = [] :=
        List.dropWhile_eq_nil_iff.mpr isBlank_after
      rw [nothing]
      rfl
  | cons char rest =>
      rw [dropWhile_eq_self (by simpa using isTrimmed.first), dropEndWhile_append isBlank_after,
        dropEndWhile_eq_self isTrimmed.last]

/-- Blanks around a trimmed string are dropped. -/
theorem trim_around {before middle after : String}
    (isBlank_before : ∀ char ∈ before.toList, isBlank char = true)
    (isBlank_after : ∀ char ∈ after.toList, isBlank char = true)
    (isTrimmed : IsTrimmed middle.toList) : trim (before ++ middle ++ after) = middle := by
  rw [trim, String.toList_append, String.toList_append, List.append_assoc,
    trimChars_around isBlank_before isBlank_after isTrimmed, String.ofList_toList]

theorem isPrefix_dropEndWhile (drops : Char → Bool) (chars : List Char) :
    dropEndWhile drops chars <+: chars := by
  rw [← List.reverse_suffix, dropEndWhile, List.reverse_reverse]
  exact List.dropWhile_suffix drops

theorem isTrimmed_trimChars (chars : List Char) : IsTrimmed (trimChars chars) where
  first char isFirst := by
    rcases isPrefix_dropEndWhile isBlank (chars.dropWhile isBlank) with ⟨dropped, whole⟩
    have stops := List.head?_dropWhile_not isBlank chars
    rw [← whole, List.head?_append, ← trimChars, isFirst] at stops
    simpa using stops
  last char isLast := by
    have stops := List.head?_dropWhile_not isBlank (chars.dropWhile isBlank).reverse
    rw [trimChars, dropEndWhile, List.getLast?_reverse] at isLast
    rw [isLast] at stops
    simpa using stops

theorem length_trimChars_le (chars : List Char) : (trimChars chars).length ≤ chars.length :=
  (isPrefix_dropEndWhile isBlank _).length_le.trans (length_dropWhile_le isBlank chars)

/-- Exactly the trimmed texts are left as they are. -/
theorem trimChars_eq_self : trimChars chars = chars ↔ IsTrimmed chars := by
  constructor
  · intro same
    rw [← same]
    exact isTrimmed_trimChars chars
  · intro isTrimmed
    have none : ∀ char ∈ ([] : List Char), isBlank char = true := fun _ isMember => nomatch isMember
    simpa using trimChars_around none none isTrimmed

theorem IsTrimmed.nil : IsTrimmed [] where
  first _ isFirst := by cases isFirst
  last _ isLast := by cases isLast

/-- Whether a text is trimmed is decided by its ends. -/
theorem IsTrimmed.around (begins : IsTrimmed before) (nonempty : before ≠ []) (middle : List Char)
    (ends : IsTrimmed after) (nonempty' : after ≠ []) :
    IsTrimmed (before ++ (middle ++ after)) where
  first char isFirst := by
    rw [List.head?_append_of_ne_nil before nonempty] at isFirst
    exact begins.first char isFirst
  last char isLast := by
    rw [← List.append_assoc, List.getLast?_append_of_ne_nil _ nonempty'] at isLast
    exact ends.last char isLast

theorem IsTrimmed.append (begins : IsTrimmed before) (ends : IsTrimmed after) :
    IsTrimmed (before ++ after) := by
  rcases eq_or_ne before [] with rfl | nonempty
  · exact ends
  rcases eq_or_ne after [] with rfl | nonempty'
  · rwa [List.append_nil]
  exact begins.around nonempty [] ends nonempty'

end WordTemplate.Text
