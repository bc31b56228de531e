import WordTemplate.Decimal.Binary

/-!
# Reading decimal numbers

A loose number is an optional sign, digits with at most one point among them or beside them, and
an optional exponent. It is read exactly: the result is the double nearest to the decimal value.
-/

namespace WordTemplate.Decimal

/-- The value of a run of decimal digits that continues the digits of `value`. -/
def digitsValue (value : Nat) (digits : List Char) : Nat :=
  digits.foldl (fun value digit => value * 10 + (digit.toNat - '0'.toNat)) value

/-- A sign, if there is one, and what follows it. -/
def readSign : List Char → Bool × List Char
  | '-' :: rest => (true, rest)
  | '+' :: rest => (false, rest)
  | chars => (false, chars)

/-- The exponent at the end of a number, which is zero when there is none. -/
def readExponent? (chars : List Char) : Option Int :=
  match chars with
  | [] => some 0
  | mark :: rest =>
      if mark == 'e' || mark == 'E' then
        let (negative, digits) := readSign rest
        if !digits.isEmpty && digits.all Char.isDigit then
          let value : Int := digitsValue 0 digits
          some (if negative then -value else value)
        else none
      else none

/-- The double that a loose number stands for, infinite where it is too large. -/
def readFloat? (chars : List Char) : Option Float := do
  let (negative, unsigned) := readSign chars
  let (whole, afterWhole) := unsigned.span Char.isDigit
  let (fraction, tail) :=
    match afterWhole with
    | '.' :: rest => rest.span Char.isDigit
    | _ => ([], afterWhole)
  let exponent ← readExponent? tail
  if whole.isEmpty && fraction.isEmpty then
    none
  else
    let significand := digitsValue (digitsValue 0 whole) fraction
    let magnitude := nearestDecimal significand (exponent - fraction.length)
    return if negative then -magnitude else magnitude

end WordTemplate.Decimal
