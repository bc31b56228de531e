import WordTemplate.Data.Numeral
import WordTemplate.Text.Blank
import WordTemplate.Text.Numeral

/-!
# Reading data

JSON text to data. Of several fields with one key the last counts.
-/

namespace WordTemplate.Data

/-- Drops spacing at the start. -/
def skipSpacing (chars : List Char) : List Char :=
  chars.dropWhile Text.isSpacing

/-- A code unit of four hexadecimal digits. -/
def readCodeUnit? : List Char → Option (Nat × List Char)
  | first :: second :: third :: fourth :: rest => do
      let first ← Text.digitValue? 16 first
      let second ← Text.digitValue? 16 second
      let third ← Text.digitValue? 16 third
      let fourth ← Text.digitValue? 16 fourth
      return (((first * 16 + second) * 16 + third) * 16 + fourth, rest)
  | _ => none

/-- The character of an escape sequence, after its backslash. -/
def readEscape? : List Char → Option (Char × List Char)
  | '"' :: rest => some ('"', rest)
  | '\\' :: rest => some ('\\', rest)
  | '/' :: rest => some ('/', rest)
  | 'b' :: rest => some ('\x08', rest)
  | 'f' :: rest => some ('\x0c', rest)
  | 'n' :: rest => some ('\n', rest)
  | 'r' :: rest => some ('\r', rest)
  | 't' :: rest => some ('\t', rest)
  | 'u' :: rest => do
      let (unit, rest) ← readCodeUnit? rest
      if 0xD800 ≤ unit && unit < 0xDC00 then
        match rest with
        | '\\' :: 'u' :: rest =>
            let (low, rest) ← readCodeUnit? rest
            if 0xDC00 ≤ low && low < 0xE000 then
              return (Char.ofNat (0x10000 + (unit - 0xD800) * 0x400 + (low - 0xDC00)), rest)
            else none
        | _ => none
      else
        (Text.charOfCode? unit).map (·, rest)
  | _ => none

/-- The rest of a string after its opening quotation mark, and what follows it. -/
def readQuoted? : Nat → List Char → Option (List Char × List Char)
  | 0, _ => none
  | _ + 1, [] => none
  | steps + 1, char :: rest =>
      if char == '"' then some ([], rest)
      else if char == '\\' then do
        let (escaped, rest) ← readEscape? rest
        let (text, rest) ← readQuoted? steps rest
        return (escaped :: text, rest)
      else if char.toNat < 0x20 then none
      else do
        let (text, rest) ← readQuoted? steps rest
        return (char :: text, rest)

/-- A number and what follows it. -/
def readNumber? (chars : List Char) : Option (Number × List Char) := do
  let (negative, unsigned) :=
    match chars with
    | '-' :: rest => (true, rest)
    | _ => (false, chars)
  let (whole, rest) := unsigned.span Char.isDigit
  if whole.isEmpty || (1 < whole.length && whole.head? == some '0') then
    none
  else
    let (fraction, hasFraction, rest) :=
      match rest with
      | '.' :: rest =>
          let (fraction, rest) := rest.span Char.isDigit
          (fraction, true, rest)
      | _ => ([], false, rest)
    if hasFraction && fraction.isEmpty then
      none
    else
      let (exponentChars, hasExponent, rest) :=
        match rest with
        | mark :: rest =>
            if mark == 'e' || mark == 'E' then
              let (sign, unsigned) := rest.span fun char => char == '+' || char == '-'
              let (digits, rest) := unsigned.span Char.isDigit
              (mark :: (sign ++ digits), true, rest)
            else ([], false, mark :: rest)
        | [] => ([], false, [])
      let exponent ← Decimal.readExponent? exponentChars
      let number ← Numeral.number?
        { negative, whole, fraction, exponent, isInteger := !hasFraction && !hasExponent }
      return (number, rest)

mutual

/-- One value and what follows it. -/
def readValue? : Nat → List Char → Option (Value × List Char)
  | 0, _ => none
  | steps + 1, chars =>
      match skipSpacing chars with
      | 'n' :: 'u' :: 'l' :: 'l' :: rest => some (.null, rest)
      | 't' :: 'r' :: 'u' :: 'e' :: rest => some (.bool true, rest)
      | 'f' :: 'a' :: 'l' :: 's' :: 'e' :: rest => some (.bool false, rest)
      | '"' :: rest => do
          let (text, rest) ← readQuoted? (rest.length + 1) rest
          return (.string (String.ofList text), rest)
      | '[' :: rest =>
          match skipSpacing rest with
          | ']' :: rest => some (.array [], rest)
          | rest => do
              let (items, rest) ← readItems? steps rest
              return (.array items, rest)
      | '\x7b' :: rest =>
          match skipSpacing rest with
          | '\x7d' :: rest => some (.object [], rest)
          | rest => do
              let (pairs, rest) ← readFields? steps rest
              return (.object (Fields.ofPairs pairs), rest)
      | rest => (readNumber? rest).map fun (number, rest) => (.number number, rest)

/-- The items of an array up to its closing bracket. -/
def readItems? : Nat → List Char → Option (List Value × List Char)
  | 0, _ => none
  | steps + 1, chars => do
      let (item, rest) ← readValue? steps chars
      match skipSpacing rest with
      | ']' :: rest => return ([item], rest)
      | ',' :: rest =>
          let (items, rest) ← readItems? steps rest
          return (item :: items, rest)
      | _ => none

/-- The fields of an object up to its closing brace. -/
def readFields? : Nat → List Char → Option (List (String × Value) × List Char)
  | 0, _ => none
  | steps + 1, chars =>
      match skipSpacing chars with
      | '"' :: rest => do
          let (key, rest) ← readQuoted? (rest.length + 1) rest
          match skipSpacing rest with
          | ':' :: rest =>
              let (value, rest) ← readValue? steps rest
              match skipSpacing rest with
              | '\x7d' :: rest => return ([(String.ofList key, value)], rest)
              | ',' :: rest =>
                  let (fields, rest) ← readFields? steps rest
                  return ((String.ofList key, value) :: fields, rest)
              | _ => none
          | _ => none
      | _ => none

end

/-- The value that a JSON text stands for. Every step uses up a character, so twice the text's
length bounds the number of nested steps. -/
def Value.read? (text : String) : Option Value := do
  let chars := text.toList
  let (value, rest) ← readValue? (2 * chars.length + 2) chars
  if (skipSpacing rest).isEmpty then some value else none

end WordTemplate.Data
