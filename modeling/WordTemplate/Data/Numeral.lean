import WordTemplate.Data.Value
import WordTemplate.Decimal.Reading

/-!
# Numbers in data

A literal without point and exponent that fits 64 bits, signed or unsigned, is a whole number.
Every other literal is floating-point: the digits that fit an unsigned 64-bit number are kept, the
rest only count towards the exponent, and the number kept is multiplied or divided once by a power
of ten, both being doubles. Minus zero is floating-point, as no whole number carries its sign.
-/

namespace WordTemplate.Data

/-- The parts of a number literal. -/
structure Numeral where
  negative : Bool
  whole : List Char
  fraction : List Char
  exponent : Int
  isInteger : Bool

/-- Takes digits as long as the value stays below two to the 64th. -/
def absorbDigits (value : Nat) : List Char → Nat × List Char
  | [] => (value, [])
  | digit :: rest =>
      let next := value * 10 + (digit.toNat - '0'.toNat)
      if next < UInt64.size then absorbDigits next rest else (value, digit :: rest)

/-- Divides by ten to the `places`, by the largest power of ten at a time. -/
def divideByPower (value : Float) (places : Nat) : Float :=
  if places ≤ 308 then value / Decimal.nearest (Nat.pow 10 places) 1
  else if value == 0.0 then value
  else divideByPower (value / Decimal.nearest (Nat.pow 10 308) 1) (places - 308)
termination_by places

/-- The magnitude `significand * 10 ^ exponent`, if it is finite. -/
def scale? (significand : Nat) (exponent : Int) : Option Float :=
  let value := Decimal.nearest significand 1
  if exponent < 0 then some (divideByPower value exponent.natAbs)
  else if exponent ≤ 308 then
    let product := value * Decimal.nearest (Nat.pow 10 exponent.toNat) 1
    if product.isFinite then some product else none
  else if value == 0.0 then some value
  else none

/-- The number that a literal stands for, if it is finite. -/
def Numeral.number? (numeral : Numeral) : Option Number :=
  let (significand, dropped) := absorbDigits 0 numeral.whole
  let fits := dropped.isEmpty && numeral.isInteger
  if fits && !numeral.negative then
    some (.integer significand)
  else if fits && 0 < significand && significand ≤ 1 <<< 63 then
    some (.integer (-(significand : Int)))
  else
    let (significand, ignored) := absorbDigits significand numeral.fraction
    let kept : Int := (numeral.fraction.length : Int) - ignored.length
    (scale? significand (dropped.length - kept + numeral.exponent)).map fun magnitude =>
      .float (if numeral.negative then -magnitude else magnitude)

end WordTemplate.Data
