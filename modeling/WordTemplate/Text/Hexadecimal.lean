import WordTemplate.Text.Numeral

/-!
# Bytes as hexadecimal text

Every byte is written as two lower-case digits.
-/

namespace WordTemplate.Text

/-- The lower-case hexadecimal digit of a value below sixteen. -/
def hexDigit (value : Nat) : Char :=
  if value < 10 then Char.ofNat ('0'.toNat + value) else Char.ofNat ('a'.toNat + (value - 10))

/-- The two digits of a byte. -/
def hexByte (byte : UInt8) : List Char :=
  [hexDigit (byte.toNat / 16), hexDigit (byte.toNat % 16)]

/-- The text of a list of bytes. -/
def hexText (bytes : List UInt8) : String :=
  String.ofList (bytes.flatMap hexByte)

/-- The bytes of a text of digit pairs, in either case. -/
def bytesOfHex? : List Char → Option (List UInt8)
  | [] => some []
  | [_] => none
  | high :: low :: rest => do
      let high ← digitValue? 16 high
      let low ← digitValue? 16 low
      let bytes ← bytesOfHex? rest
      return UInt8.ofNat (high * 16 + low) :: bytes

end WordTemplate.Text
