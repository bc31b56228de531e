/-!
# Finding and cutting text

Searches over lists of characters. `splitAtFirst?` cuts a text at the first occurrence of a
pattern; the empty pattern occurs at the very start.
-/

namespace WordTemplate.Text

/-- The text before and after the first occurrence of `pattern`. -/
def splitAtFirst? (pattern : List Char) : List Char → Option (List Char × List Char)
  | [] => if pattern.isEmpty then some ([], []) else none
  | char :: rest =>
      match pattern.isPrefixOf? (char :: rest) with
      | some after => some ([], after)
      | none => (splitAtFirst? pattern rest).map fun (before, after) => (char :: before, after)

/-- The rest of `text` after `lead`, if `text` starts with it. -/
def afterLead? (lead text : String) : Option String :=
  (lead.toList.isPrefixOf? text.toList).map String.ofList

/-- The part of `text` before `tail`, if `text` ends with it. -/
def beforeTail? (tail text : String) : Option String :=
  (tail.toList.isSuffixOf? text.toList).map String.ofList

/-- The texts before and after the first occurrence of `pattern`. -/
def splitText? (pattern text : String) : Option (String × String) :=
  (splitAtFirst? pattern.toList text.toList).map fun (before, after) =>
    (String.ofList before, String.ofList after)

/-- Drops `tail` from the end of `chars` as often as it stands there. -/
def dropTails (tail : List Char) (chars : List Char) : List Char :=
  (dropLeads chars.length tail.reverse chars.reverse).reverse
where
  /-- Drops `lead` from the start at most `count` times. -/
  dropLeads : Nat → List Char → List Char → List Char
    | 0, _, remaining => remaining
    | count + 1, lead, remaining =>
        match lead.isPrefixOf? remaining with
        | some rest => dropLeads count lead rest
        | none => remaining

/-- The pieces between occurrences of `separator`, of which there is one more than occurrences. -/
def pieces (separator : Char) : List Char → List (List Char)
  | [] => [[]]
  | char :: rest =>
      if char == separator then [] :: pieces separator rest
      else
        match pieces separator rest with
        | first :: more => (char :: first) :: more
        | [] => [[char]]

/-- The last of the pieces between occurrences of `separator`. -/
def lastPiece (separator : Char) (chars : List Char) : List Char :=
  (chars.reverse.takeWhile (· != separator)).reverse

/-- Lower case for the letters of ASCII only. -/
def lowerAscii (text : String) : String :=
  String.ofList (text.toList.map Char.toLower)

/-- What is left after dropping characters is no longer than before. -/
theorem length_dropWhile_le (drops : Char → Bool) (chars : List Char) :
    (chars.dropWhile drops).length ≤ chars.length :=
  (List.dropWhile_sublist drops).length_le

/-- A text starts with `lead` exactly if it is `lead` followed by the rest. -/
theorem isPrefixOf?_eq_some_iff {lead text rest : List Char} :
    lead.isPrefixOf? text = some rest ↔ lead ++ rest = text := by
  induction lead generalizing text with
  | nil =>
    change some text = some rest ↔ rest = text
    rw [Option.some.injEq, eq_comm]
  | cons char lead ih =>
    cases text with
    | nil =>
      change none = some rest ↔ _
      simp
    | cons first text =>
      change (if char == first then lead.isPrefixOf? text else none) = some rest ↔ _
      by_cases same : char = first
      · simp [same, ih]
      · simp [same]

/-- What follows an occurrence of a nonempty pattern is shorter than the text. -/
theorem length_lt_of_splitAtFirst? {pattern chars before after : List Char}
    (nonempty : pattern ≠ []) (found : splitAtFirst? pattern chars = some (before, after)) :
    after.length < chars.length := by
  induction chars generalizing before with
  | nil =>
    cases pattern with
    | nil => exact absurd rfl nonempty
    | cons char rest => simp [splitAtFirst?] at found
  | cons char rest ih =>
    simp only [splitAtFirst?] at found
    split at found
    · rename_i after' isLead
      simp only [Option.some.injEq, Prod.mk.injEq] at found
      rcases found with ⟨-, rfl⟩
      have lead := isPrefixOf?_eq_some_iff.mp isLead
      have lengths := congrArg List.length lead
      have positive := List.length_pos_iff.mpr nonempty
      simp only [List.length_append, List.length_cons] at lengths ⊢
      omega
    · simp only [Option.map_eq_some_iff, Prod.exists, Prod.mk.injEq] at found
      rcases found with ⟨before', after', inner, -, rfl⟩
      have shorter := ih inner
      simp only [List.length_cons]
      omega

end WordTemplate.Text
