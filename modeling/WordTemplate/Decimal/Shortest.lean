import WordTemplate.Decimal.Binary

/-!
# Shortest decimal text of a double

Every double is the nearest one to all numbers of an interval around it, which includes its ends
where the significand is even. Among the decimals in this interval the text uses one on the
coarsest decimal grid, hence one with the fewest digits; of two such neighbours it takes the one
closer to the exact value, and the even one if both are equally close.
-/

namespace WordTemplate.Decimal

/-- The decimal number `significand * 10 ^ exponent`. -/
structure Decimal where
  significand : Nat
  exponent : Int
deriving DecidableEq

/-- The numbers that round to one double, as fractions over one denominator. -/
structure RoundingInterval where
  low : Nat
  value : Nat
  high : Nat
  denominator : Nat
  includesEnds : Bool

/-- The interval of the double `significand * 2 ^ exponent`. It reaches halfway to the next doubles;
the one below is nearer where the significand is a power of two. -/
def RoundingInterval.around (significand : Nat) (exponent : Int) : RoundingInterval :=
  let unit := positivePower 2 (exponent - 2)
  let below := if significand == 1 <<< 52 && leastExponent < exponent then 1 else 2
  { low := (4 * significand - below) * unit
    value := 4 * significand * unit
    high := (4 * significand + 2) * unit
    denominator := positivePower 2 (2 - exponent)
    includesEnds := significand % 2 == 0 }

/-- The same interval with `10 ^ exponent` as its unit. -/
def RoundingInterval.inUnits (interval : RoundingInterval) (exponent : Int) : RoundingInterval :=
  let factor := positivePower 10 (-exponent)
  { interval with
    low := interval.low * factor
    value := interval.value * factor
    high := interval.high * factor
    denominator := interval.denominator * positivePower 10 exponent }

/-- Whether a whole number lies in the interval. -/
def RoundingInterval.holds (interval : RoundingInterval) (whole : Nat) : Bool :=
  let point := whole * interval.denominator
  if interval.includesEnds then interval.low ≤ point && point ≤ interval.high
  else interval.low < point && point < interval.high

/-- The whole number in the interval that is nearest to its value, if there is one. -/
def RoundingInterval.nearestWhole? (interval : RoundingInterval) : Option Nat :=
  let below := interval.value / interval.denominator
  let above := below + 1
  match interval.holds below, interval.holds above with
  | true, true => some (roundHalfEven interval.value interval.denominator)
  | true, false => some below
  | false, true => some above
  | false, false => none

/-- Looks for a point of the interval on the grids `10 ^ exponent`, `10 ^ (exponent - 1)`, … -/
def RoundingInterval.firstOnGrid (interval : RoundingInterval) : Nat → Int → Decimal
  | 0, exponent => ⟨0, exponent⟩
  | steps + 1, exponent =>
      match (interval.inUnits exponent).nearestWhole? with
      | some whole => ⟨whole, exponent⟩
      | none => firstOnGrid interval steps (exponent - 1)

/-- The number of decimal digits of a number. -/
def digitCount (number : Nat) : Nat := (Nat.toDigits 10 number).length

/-- The shortest decimal that reads back as the positive double `significand * 2 ^ exponent`.
Seventeen digits always suffice, so twenty grids below the value's magnitude do. -/
def shortest (significand : Nat) (exponent : Int) : Decimal :=
  let interval := RoundingInterval.around significand exponent
  let top : Int := (digitCount interval.value : Int) - digitCount interval.denominator + 1
  interval.firstOnGrid 20 top

end WordTemplate.Decimal
