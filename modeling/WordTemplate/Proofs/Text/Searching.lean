import WordTemplate.Text.Search

/-!
# Cutting text

What is left and right of a cut: by a property of characters, at a lead or a tail, or at the first
occurrence of a pattern. A cut at the first occurrence fails exactly if the pattern does not occur.
-/

namespace WordTemplate.Text

/-- What the characters of a given text have in common is decided along the text, without a search
among all characters there are. -/
theorem forall_of_all {holds : Char → Prop} [DecidablePred holds] {chars : List Char}
    (all : (chars.all fun char => decide (holds char)) = true) : ∀ char ∈ chars, holds char :=
  fun char isMember => of_decide_eq_true (List.all_eq_true.mp all char isMember)

/-! ## By a property of characters -/

section Stretch

variable {keeps : Char → Bool} {body rest : List Char}

theorem dropWhile_append (inside : ∀ char ∈ body, keeps char = true)
    (boundary : ∀ char, rest.head? = some char → keeps char = false) :
    (body ++ rest).dropWhile keeps = rest := by
  rw [List.dropWhile_append_of_pos inside]
  cases rest with
  | nil => rfl
  | cons char rest => simp [boundary char rfl]

theorem takeWhile_append (inside : ∀ char ∈ body, keeps char = true)
    (boundary : ∀ char, rest.head? = some char → keeps char = false) :
    (body ++ rest).takeWhile keeps = body := by
  rw [List.takeWhile_append_of_pos inside]
  cases rest with
  | nil => simp
  | cons char rest => simp [boundary char rfl]

theorem dropWhile_eq_self (boundary : ∀ char, rest.head? = some char → keeps char = false) :
    rest.dropWhile keeps = rest := by
  cases rest with
  | nil => rfl
  | cons char rest => exact List.dropWhile_cons_of_neg (by simp [boundary char rfl])

end Stretch

/-! ## At a lead and at a tail -/

theorem afterLead?_eq_some {lead text rest : String} :
    afterLead? lead text = some rest ↔ lead ++ rest = text := by
  rw [afterLead?, Option.map_eq_some_iff, ← String.toList_inj, String.toList_append]
  constructor
  · rintro ⟨after, isLead, rfl⟩
    rw [String.toList_ofList, isPrefixOf?_eq_some_iff.mp isLead]
  · intro isLead
    exact ⟨rest.toList, isPrefixOf?_eq_some_iff.mpr isLead, String.ofList_toList⟩

theorem afterLead?_eq_none {lead text : String} :
    afterLead? lead text = none ↔ ¬lead.toList <+: text.toList := by
  rw [afterLead?, Option.map_eq_none_iff, Option.eq_none_iff_forall_ne_some]
  simp only [ne_eq, isPrefixOf?_eq_some_iff, List.IsPrefix, not_exists]

theorem beforeTail?_append (tail before : String) :
    beforeTail? tail (before ++ tail) = some before := by
  have isLead : tail.toList.reverse.isPrefixOf? (before.toList ++ tail.toList).reverse =
      some before.toList.reverse := isPrefixOf?_eq_some_iff.mpr (by simp)
  rw [beforeTail?, String.toList_append]
  change ((tail.toList.reverse.isPrefixOf? (before.toList ++ tail.toList).reverse).map
    List.reverse).map String.ofList = some before
  rw [isLead]
  simp

/-! ## At the first occurrence of a pattern -/

theorem append_of_splitAtFirst? {pattern chars before after : List Char} (nonempty : pattern ≠ [])
    (found : splitAtFirst? pattern chars = some (before, after)) :
    chars = before ++ (pattern ++ after) := by
  induction chars generalizing before with
  | nil => simp [splitAtFirst?, nonempty] at found
  | cons char rest inductionHypothesis =>
      simp only [splitAtFirst?] at found
      split at found
      · next lead =>
          simp only [Option.some.injEq, Prod.mk.injEq] at found
          rcases found with ⟨rfl, rfl⟩
          exact (isPrefixOf?_eq_some_iff.mp lead).symm
      · simp only [Option.map_eq_some_iff, Prod.exists, Prod.mk.injEq] at found
        rcases found with ⟨before', after', inner, rfl, rfl⟩
        rw [List.cons_append, ← inductionHypothesis inner]

/-- Where a pattern occurs first does not depend on what follows the occurrence. -/
theorem splitAtFirst?_append {pattern chars before after : List Char} (nonempty : pattern ≠ [])
    (found : splitAtFirst? pattern chars = some (before, after)) (rest : List Char) :
    splitAtFirst? pattern (before ++ (pattern ++ rest)) = some (before, rest) := by
  induction chars generalizing before with
  | nil => simp [splitAtFirst?, nonempty] at found
  | cons char chars inductionHypothesis =>
      simp only [splitAtFirst?] at found
      split at found
      · simp only [Option.some.injEq, Prod.mk.injEq] at found
        rcases found with ⟨rfl, -⟩
        have lead : pattern.isPrefixOf? (pattern ++ rest) = some rest :=
          isPrefixOf?_eq_some_iff.mpr rfl
        rcases isPattern : pattern with _ | ⟨first, more⟩
        · exact absurd isPattern nonempty
        · rw [isPattern, List.cons_append] at lead
          simp [splitAtFirst?, lead]
      · next notLead =>
          simp only [Option.map_eq_some_iff, Prod.exists, Prod.mk.injEq] at found
          rcases found with ⟨before', after', inner, rfl, rfl⟩
          have whole := append_of_splitAtFirst? nonempty inner
          have notLead' : pattern.isPrefixOf? (char :: (before' ++ (pattern ++ rest))) = none := by
            rw [Option.eq_none_iff_forall_ne_some]
            intro tail lead
            -- An occurrence here would end before what follows the known one begins.
            have here : pattern <+: (char :: (before' ++ pattern)) ++ rest :=
              ⟨tail, by simpa using isPrefixOf?_eq_some_iff.mp lead⟩
            have short : pattern.length ≤ (char :: (before' ++ pattern)).length := by
              simp only [List.length_cons, List.length_append]
              omega
            rcases List.prefix_of_prefix_length_le here (List.prefix_append _ _) short with
              ⟨tail', same⟩
            have isLead : pattern.isPrefixOf? (char :: chars) = some (tail' ++ after') := by
              rw [isPrefixOf?_eq_some_iff, whole, ← List.append_assoc, same]
              simp
            rw [isLead] at notLead
            cases notLead
          simp [splitAtFirst?, notLead', inductionHypothesis inner]

/-- A cut fails exactly if there is nothing to cut at. -/
theorem splitAtFirst?_eq_none {pattern chars : List Char} (nonempty : pattern ≠ []) :
    splitAtFirst? pattern chars = none ↔ ¬pattern <:+: chars := by
  induction chars with
  | nil => simp [splitAtFirst?, nonempty]
  | cons char rest inductionHypothesis =>
      rw [splitAtFirst?, List.infix_cons_iff, not_or]
      split
      · next after isLead =>
          have here : pattern <+: char :: rest := ⟨after, isPrefixOf?_eq_some_iff.mp isLead⟩
          simp [here]
      · next notLead =>
          have notHere : ¬pattern <+: char :: rest := by
            rintro ⟨after, isLead⟩
            rw [isPrefixOf?_eq_some_iff.mpr isLead] at notLead
            cases notLead
          simp [notHere, inductionHypothesis]

/-- The first occurrence is the one after `lead` if none ends before that one. -/
theorem splitAtFirst?_of_first {pattern lead : List Char} (nonempty : pattern ≠ [])
    (first : ¬pattern <:+: (lead ++ pattern).dropLast) (rest : List Char) :
    splitAtFirst? pattern (lead ++ (pattern ++ rest)) = some (lead, rest) := by
  rcases found : splitAtFirst? pattern (lead ++ pattern) with _ | ⟨before, after⟩
  · have absent := (splitAtFirst?_eq_none nonempty).mp found
    exact absurd (List.suffix_append lead pattern).isInfix absent
  · have whole := append_of_splitAtFirst? nonempty found
    rcases List.eq_nil_or_concat after with rfl | ⟨init, last, rfl⟩
    · rw [List.append_nil, List.append_cancel_right_eq] at whole
      rw [whole]
      exact splitAtFirst?_append nonempty found rest
    · refine absurd ⟨before, init, ?_⟩ first
      rw [whole, ← List.append_assoc, List.concat_eq_append, ← List.append_assoc,
        List.dropLast_concat]

end WordTemplate.Text
