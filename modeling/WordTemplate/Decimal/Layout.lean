import WordTemplate.Decimal.Shortest

/-!
# Layout of decimal text

Where a number is written out and where in scientific form is decided by the position of its
decimal point, counted from before the first digit. Numbers written out have at least one digit
on either side of the point.
-/

namespace WordTemplate.Decimal

/-- The positions of the decimal point at which a number is written out. -/
structure Layout where
  firstPoint : Int
  lastPoint : Int

/-- Numbers from `0.00001` to below ten to the sixteenth are written out. -/
def Layout.standard : Layout := ⟨-4, 16⟩

/-- A number of zeros. -/
def zeros (count : Int) : List Char := List.replicate count.toNat '0'

/-- The digits with a decimal point `point` places after the first one's left edge. -/
def writtenOut (digits : List Char) (point : Int) : List Char :=
  if point ≤ 0 then
    '0' :: '.' :: (zeros (-point) ++ digits)
  else
    let whole := digits.take point.toNat ++ zeros (point - digits.length)
    let fraction := digits.drop point.toNat
    whole ++ '.' :: (if fraction.isEmpty then ['0'] else fraction)

/-- The digits with a point after the first one, and a signed exponent. -/
def scientific (digits : List Char) (point : Int) : List Char :=
  let exponent := point - 1
  let fraction := digits.drop 1
  digits.take 1 ++ (if fraction.isEmpty then [] else '.' :: fraction) ++
    'e' :: (if exponent < 0 then '-' else '+') :: (Nat.toDigits 10 exponent.natAbs)

/-- The text of a positive decimal. -/
def Decimal.layOut (decimal : Decimal) (layout : Layout) : List Char :=
  let digits := Nat.toDigits 10 decimal.significand
  let point := digits.length + decimal.exponent
  if layout.firstPoint ≤ point && point ≤ layout.lastPoint then
    writtenOut digits point
  else
    scientific digits point

/-- The text of a finite double. -/
def floatText (value : Float) : String :=
  let binary := Binary.ofFloat value
  let magnitude :=
    if binary.significand == 0 then ['0', '.', '0']
    else (shortest binary.significand binary.exponent).layOut .standard
  String.ofList (if binary.negative then '-' :: magnitude else magnitude)

end WordTemplate.Decimal
