/-!
# Base64

Decoding in the standard alphabet. Text is read in groups of four characters, the last group
has to be filled up with `=` where it stands for fewer than three bytes, and the bits that the
padding leaves over have to be zero, so that each list of bytes has one written form.
-/

namespace WordTemplate.Text

/-- The six bits that a character of the alphabet stands for. -/
def sextet? (char : Char) : Option Nat :=
  let code := char.toNat
  if 'A' ≤ char && char ≤ 'Z' then some (code - 'A'.toNat)
  else if 'a' ≤ char && char ≤ 'z' then some (code - 'a'.toNat + 26)
  else if '0' ≤ char && char ≤ '9' then some (code - '0'.toNat + 52)
  else if char == '+' then some 62
  else if char == '/' then some 63
  else none

/-- The bytes that a base64 text stands for. -/
def decodeBase64? : List Char → Option (List UInt8)
  | [] => some []
  | [first, second, '=', '='] => do
      let first ← sextet? first
      let second ← sextet? second
      if second % 16 == 0 then
        return [UInt8.ofNat (first * 4 + second / 16)]
      else
        none
  | [first, second, third, '='] => do
      let first ← sextet? first
      let second ← sextet? second
      let third ← sextet? third
      if third % 4 == 0 then
        return [UInt8.ofNat (first * 4 + second / 16),
          UInt8.ofNat (second % 16 * 16 + third / 4)]
      else
        none
  | first :: second :: third :: fourth :: rest => do
      let first ← sextet? first
      let second ← sextet? second
      let third ← sextet? third
      let fourth ← sextet? fourth
      let bytes ← decodeBase64? rest
      return UInt8.ofNat (first * 4 + second / 16) ::
        UInt8.ofNat (second % 16 * 16 + third / 4) ::
        UInt8.ofNat (third % 4 * 64 + fourth) :: bytes
  | _ => none

end WordTemplate.Text
