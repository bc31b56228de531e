/-!
# Whole numbers as text

A number is written in decimal digits. Numerals are read in a radix up to 36, with a
bound that the value has to stay below. The first fault from the left decides the error: a
character that is no digit, or a digit with which the value reaches the bound.
-/

namespace WordTemplate.Text

/-- Why a numeral denotes no number. -/
inductive NumeralError where
  | empty
  | invalidDigit
  | tooLarge
deriving DecidableEq

/-- The decimal digits of a number. -/
def decimalText (number : Nat) : String := String.ofList (Nat.toDigits 10 number)

/-- The value of a digit in the given radix; letters of either case follow the digits. -/
def digitValue? (radix : Nat) (char : Char) : Option Nat :=
  let code := char.toNat
  let value :=
    if '0' ≤ char && char ≤ '9' then code - '0'.toNat
    else if 'a' ≤ char && char ≤ 'z' then code - 'a'.toNat + 10
    else if 'A' ≤ char && char ≤ 'Z' then code - 'A'.toNat + 10
    else radix
  if value < radix then some value else none

/-- Continues a numeral whose digits so far have the value `value`. -/
def continueNumeral (radix bound : Nat) (value : Nat) : List Char → Except NumeralError Nat
  | [] => .ok value
  | char :: rest =>
      match digitValue? radix char with
      | none => .error .invalidDigit
      | some digit =>
          let next := value * radix + digit
          if next < bound then continueNumeral radix bound next rest else .error .tooLarge

/-- The value of a numeral without a sign, which has to be below `bound`. -/
def readNumeral (radix bound : Nat) (chars : List Char) : Except NumeralError Nat :=
  if chars.isEmpty then .error .empty else continueNumeral radix bound 0 chars

/-- The value of a numeral that may carry one plus sign. -/
def readUnsigned? (radix bound : Nat) (chars : List Char) : Option Nat :=
  match chars with
  | '+' :: rest => (readNumeral radix bound rest).toOption
  | _ => (readNumeral radix bound chars).toOption

/-- The value of a decimal numeral that may carry one sign, if it fits a 64-bit integer. -/
def readInt64? (chars : List Char) : Option Int :=
  match chars with
  | '-' :: rest => (readNumeral 10 ((1 <<< 63) + 1) rest).toOption.map fun value => -(value : Int)
  | '+' :: rest => (readNumeral 10 (1 <<< 63) rest).toOption.map Int.ofNat
  | _ => (readNumeral 10 (1 <<< 63) chars).toOption.map Int.ofNat

/-- The character with the given code point. Surrogates and values past the last code point
belong to no character. -/
def charOfCode? (code : Nat) : Option Char :=
  if code < 0xD800 || (0xDFFF < code && code < 0x110000) then some (Char.ofNat code) else none

end WordTemplate.Text
