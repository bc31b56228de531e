/-!
# Binary floating point as exact numbers

A finite double is a whole significand times a power of two. `Binary.ofFloat` takes a double
apart, and `nearest` goes the other way: it rounds a positive fraction to the nearest double, a
fraction halfway between two doubles going to the one with the even significand.
-/

namespace WordTemplate.Decimal

/-- The magnitude `significand * 2 ^ exponent` of a finite double, with its sign. -/
structure Binary where
  negative : Bool
  significand : Nat
  exponent : Int

/-- The least exponent a double can have. -/
def leastExponent : Int := -1074

/-- The exact value of a finite double. -/
def Binary.ofFloat (value : Float) : Binary :=
  let bits : Nat := value.toBits.toNat
  let fraction : Nat := bits % (1 <<< 52)
  let biased : Nat := bits / (1 <<< 52) % 2048
  { negative := bits / (1 <<< 63) == 1
    significand := if biased == 0 then fraction else fraction + (1 <<< 52)
    exponent := if biased == 0 then leastExponent else (biased : Int) - 1075 }

/-- The quotient rounded to a whole number, a half going to the even neighbour. -/
def roundHalfEven (numerator denominator : Nat) : Nat :=
  let quotient := numerator / denominator
  let twice := 2 * (numerator % denominator)
  if twice < denominator then quotient
  else if denominator < twice then quotient + 1
  else quotient + quotient % 2

/-- The factor `base ^ exponent` where the exponent is positive, and one elsewhere. -/
def positivePower (base : Nat) (exponent : Int) : Nat :=
  Nat.pow base exponent.toNat

/-- The double nearest to a fraction with a positive denominator. -/
def nearest (numerator denominator : Nat) : Float :=
  let size : Int := (numerator.log2 : Int) - denominator.log2
  let scaledBy (exponent : Int) : Nat × Nat :=
    (numerator * positivePower 2 (-exponent), denominator * positivePower 2 exponent)
  let candidate := max (size - 53) leastExponent
  let (top, bottom) := scaledBy candidate
  let exponent := if (1 <<< 53) * bottom ≤ top then candidate + 1 else candidate
  let (top, bottom) := scaledBy exponent
  let bits := (exponent - leastExponent).toNat * (1 <<< 52) + roundHalfEven top bottom
  if numerator == 0 then 0.0 else Float.ofBits (UInt64.ofNat (min bits (2047 * (1 <<< 52))))

/-- The double nearest to `significand * 10 ^ exponent`. Past the largest double this is infinity,
and far below the least positive one it is zero. -/
def nearestDecimal (significand : Nat) (exponent : Int) : Float :=
  let digits : Int := (Nat.toDigits 10 significand).length
  if significand == 0 || digits + exponent < -330 then 0.0
  else if 310 < digits + exponent then nearest (Nat.pow 10 310) 1
  else nearest (significand * positivePower 10 exponent) (positivePower 10 (-exponent))

end WordTemplate.Decimal
