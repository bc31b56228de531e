import WordTemplate.Data.Printer
import WordTemplate.Text.Numeral

/-!
# Whole numbers are read back

A whole number is read from decimal digits and a sign, exactly if its value fits 64 bits. The
digits that a number is written with are such a numeral, so what is written is read back.
-/

namespace WordTemplate.Text

/-- Decimal digits, at least one, and their value. -/
structure IsNumeral (digits : List Char) (number : Nat) : Prop where
  nonempty : digits ≠ []
  areDigits : ∀ digit ∈ digits, digit.isDigit = true
  value_eq : Nat.ofDigitChars 10 digits 0 = number

/-- A numeral that may carry one sign, and its value. -/
inductive IsInteger : List Char → Int → Prop
  | unsigned {digits : List Char} {number : Nat} (numeral : IsNumeral digits number) :
      IsInteger digits number
  | positive {digits : List Char} {number : Nat} (numeral : IsNumeral digits number) :
      IsInteger ('+' :: digits) number
  | negative {digits : List Char} {number : Nat} (numeral : IsNumeral digits number) :
      IsInteger ('-' :: digits) (-number)

/-- The whole numbers of 64 bits. -/
def FitsInt64 (value : Int) : Prop := -0x8000000000000000 ≤ value ∧ value < 0x8000000000000000

instance (value : Int) : Decidable (FitsInt64 value) :=
  inferInstanceAs (Decidable (-0x8000000000000000 ≤ value ∧ value < 0x8000000000000000))

variable {digits word : List Char} {bound number value : Nat}

/-! ## Digits -/

theorem digitValue?_ten (char : Char) :
    digitValue? 10 char = if char.isDigit then some (char.toNat - '0'.toNat) else none := by
  have isDigit_iff : char.isDigit = ('0' ≤ char && char ≤ '9' : Bool) := rfl
  rw [isDigit_iff]
  simp only [digitValue?]
  split
  · next isDigit =>
      simp only [Bool.and_eq_true, decide_eq_true_eq] at isDigit
      have last : char.toNat ≤ '9'.toNat := isDigit.2
      have zero : '0'.toNat = 48 := rfl
      have nine : '9'.toNat = 57 := rfl
      rw [if_pos (by omega), zero]
  · split
    · exact if_neg (by omega)
    · split
      · exact if_neg (by omega)
      · exact if_neg (Nat.lt_irrefl 10)

theorem le_ofDigitChars (value : Nat) (digits : List Char) :
    value ≤ Nat.ofDigitChars 10 digits value := by
  induction digits generalizing value with
  | nil => simp
  | cons digit digits inductionHypothesis =>
      rw [Nat.ofDigitChars_cons]
      have further := inductionHypothesis (10 * value + (digit.toNat - '0'.toNat))
      omega

/-- No bound is reached on the way to a number below it, since digits only add. -/
theorem continueNumeral_ten_eq_ok (below : value < bound) :
    continueNumeral 10 bound value digits = .ok number ↔
      (∀ digit ∈ digits, digit.isDigit = true) ∧ Nat.ofDigitChars 10 digits value = number ∧
        number < bound := by
  induction digits generalizing value with
  | nil =>
      simp only [continueNumeral, Except.ok.injEq, List.not_mem_nil, false_implies, implies_true,
        true_and, Nat.ofDigitChars_nil]
      constructor
      · rintro rfl
        exact ⟨rfl, below⟩
      · exact And.left
  | cons digit digits inductionHypothesis =>
      rw [continueNumeral, digitValue?_ten, List.forall_mem_cons, Nat.ofDigitChars_cons]
      by_cases isDigit : digit.isDigit = true
      · simp only [isDigit, if_true, true_and, Nat.mul_comm value 10]
        by_cases less : 10 * value + (digit.toNat - '0'.toNat) < bound
        · rw [if_pos less, inductionHypothesis less]
        · rw [if_neg less]
          constructor
          · exact fun failed => nomatch failed
          · rintro ⟨-, rfl, small⟩
            have grown := le_ofDigitChars (10 * value + (digit.toNat - '0'.toNat)) digits
            omega
      · simp [isDigit]

theorem readNumeral_ten_eq_ok (positive : 0 < bound) :
    readNumeral 10 bound digits = .ok number ↔ IsNumeral digits number ∧ number < bound := by
  rcases digits with _ | ⟨digit, digits⟩
  · constructor
    · exact fun failed => nomatch failed
    · exact fun ⟨numeral, _⟩ => absurd rfl numeral.nonempty
  · rw [readNumeral, if_neg (by simp), continueNumeral_ten_eq_ok positive]
    constructor
    · exact fun ⟨areDigits, value_eq, small⟩ => ⟨⟨by simp, areDigits, value_eq⟩, small⟩
    · exact fun ⟨numeral, small⟩ => ⟨numeral.areDigits, numeral.value_eq, small⟩

/-! ## Signs -/

theorem IsNumeral.isDigit_head {first : Char} {rest : List Char}
    (numeral : IsNumeral (first :: rest) number) : first.isDigit = true :=
  numeral.areDigits first List.mem_cons_self

theorem toOption_readNumeral_ten (positive : 0 < bound) :
    (readNumeral 10 bound digits).toOption = some number ↔
      IsNumeral digits number ∧ number < bound := by
  rw [← readNumeral_ten_eq_ok positive]
  rcases readNumeral 10 bound digits with cause | found <;> simp [Except.toOption]

theorem map_ofNat_readNumeral {value : Int} :
    (readNumeral 10 (1 <<< 63) digits).toOption.map Int.ofNat = some value ↔
      ∃ number : Nat, IsNumeral digits number ∧ value = number ∧ FitsInt64 value := by
  simp only [Nat.one_shiftLeft, Option.map_eq_some_iff, FitsInt64,
    toOption_readNumeral_ten (show 0 < 2 ^ 63 by decide)]
  constructor
  · rintro ⟨number, ⟨numeral, small⟩, rfl⟩
    exact ⟨number, numeral, rfl, by simp only [Int.ofNat_eq_natCast]; omega⟩
  · rintro ⟨number, numeral, rfl, -, small⟩
    exact ⟨number, ⟨numeral, by omega⟩, rfl⟩

/-- There is one more negative number of 64 bits than there are positive ones. -/
theorem readInt64?_minus {value : Int} :
    readInt64? ('-' :: digits) = some value ↔
      ∃ number : Nat, IsNumeral digits number ∧ value = -number ∧ FitsInt64 value := by
  simp only [readInt64?, Nat.one_shiftLeft, Option.map_eq_some_iff, FitsInt64, Option.bind_eq_bind,
    Option.pure_def, Option.bind_eq_some_iff, Option.some.injEq,
    toOption_readNumeral_ten (show 0 < 2 ^ 63 + 1 by decide)]
  constructor
  · rintro ⟨_, ⟨number, ⟨numeral, small⟩, rfl⟩, rfl⟩
    exact ⟨number, numeral, rfl, by omega⟩
  · rintro ⟨number, numeral, rfl, small, -⟩
    exact ⟨number, ⟨number, ⟨numeral, by omega⟩, rfl⟩, rfl⟩

/-- Exactly the numerals whose value fits 64 bits are read, with that value. -/
theorem readInt64?_eq_some {value : Int} :
    readInt64? word = some value ↔ IsInteger word value ∧ FitsInt64 value := by
  unfold readInt64?
  split
  · next digits =>
      change readInt64? ('-' :: digits) = some value ↔ _
      rw [readInt64?_minus]
      constructor
      · rintro ⟨number, numeral, rfl, fits⟩
        exact ⟨.negative numeral, fits⟩
      · rintro ⟨integer, fits⟩
        cases integer with
        | unsigned numeral => exact absurd numeral.isDigit_head (by decide)
        | negative numeral => exact ⟨_, numeral, rfl, fits⟩
  · next digits =>
      rw [map_ofNat_readNumeral]
      constructor
      · rintro ⟨number, numeral, rfl, fits⟩
        exact ⟨.positive numeral, fits⟩
      · rintro ⟨integer, fits⟩
        cases integer with
        | unsigned numeral => exact absurd numeral.isDigit_head (by decide)
        | positive numeral => exact ⟨_, numeral, rfl, fits⟩
  · next notNegative notPositive =>
      rw [map_ofNat_readNumeral]
      constructor
      · rintro ⟨number, numeral, rfl, fits⟩
        exact ⟨.unsigned numeral, fits⟩
      · rintro ⟨integer, fits⟩
        cases integer with
        | unsigned numeral => exact ⟨_, numeral, rfl, fits⟩
        | positive numeral => exact absurd rfl (notPositive _)
        | negative numeral => exact absurd rfl (notNegative _)

/-! ## Written numbers -/

theorem isNumeral_toDigits (number : Nat) : IsNumeral (Nat.toDigits 10 number) number where
  nonempty := Nat.toDigits_ne_nil
  areDigits _ := Nat.isDigit_of_mem_toDigits (by decide) (by decide)
  value_eq := Nat.ofDigitChars_ten_toDigits

theorem isInteger_integerText (value : Int) : IsInteger (Data.integerText value).toList value := by
  have numeral := isNumeral_toDigits value.natAbs
  rw [Data.integerText, String.toList_ofList]
  split
  · next negative =>
      have written := IsInteger.negative numeral
      rwa [Int.ofNat_natAbs_of_nonpos (by omega), Int.neg_neg] at written
  · next notNegative =>
      have written := IsInteger.unsigned numeral
      rwa [Int.natAbs_of_nonneg (by omega)] at written

end WordTemplate.Text
