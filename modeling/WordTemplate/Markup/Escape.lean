import WordTemplate.Markup.Error
import WordTemplate.Text.Offset
import WordTemplate.Text.Search

/-!
# Escapes

Characters that would be read as markup are written as references to named characters. Text
escapes the angle brackets and the ampersand, attribute values both quotation marks as well.

Reading is asymmetric. In text a reference that denotes nothing is kept as it stands. In an
attribute value it is an error, and so is the character with code zero.
-/

namespace WordTemplate.Markup

/-- The character with a predefined name. -/
def namedChar? (name : String) : Option Char :=
  if name = "lt" then some '<'
  else if name = "gt" then some '>'
  else if name = "amp" then some '&'
  else if name = "apos" then some '\''
  else if name = "quot" then some '"'
  else none

/-- A character of text as it is written. -/
def escapeTextChar (char : Char) : List Char :=
  if char == '<' then "&lt;".toList
  else if char == '>' then "&gt;".toList
  else if char == '&' then "&amp;".toList
  else [char]

/-- A character of an attribute value as it is written. -/
def escapeValueChar (char : Char) : List Char :=
  if char == '\'' then "&apos;".toList
  else if char == '"' then "&quot;".toList
  else escapeTextChar char

/-- Text as it is written. -/
def escapeText (text : String) : List Char := text.toList.flatMap escapeTextChar

/-- An attribute value as it is written between its quotation marks. -/
def escapeValue (value : String) : List Char := value.toList.flatMap escapeValueChar

/-- The character that a reference in text denotes. -/
def referencedChar? (name : String) : Option Char :=
  match name.toList with
  | '#' :: 'x' :: digits => (Text.readUnsigned? 16 UInt32.size digits).bind Text.charOfCode?
  | '#' :: 'X' :: digits => (Text.readUnsigned? 16 UInt32.size digits).bind Text.charOfCode?
  | '#' :: digits => (Text.readUnsigned? 10 UInt32.size digits).bind Text.charOfCode?
  | _ => namedChar? name

/-- The text that a reference stands for: the character it denotes, or the reference itself. -/
def referenceText (name : String) : String :=
  match referencedChar? name with
  | some char => char.toString
  | none => "&" ++ name ++ ";"

/-- The character of a numeric escape in an attribute value, given without its number sign. -/
def escapedCode (digits : List Char) : Except EscapeError Char := do
  let (radix, digits) :=
    match digits with
    | 'x' :: digits => (16, digits)
    | _ => (10, digits)
  if digits.head? == some '+' || digits.head? == some '-' then
    throw .signedNumber
  match Text.readNumeral radix UInt32.size digits with
  | .error cause => throw (.invalidNumber cause)
  | .ok code =>
      if code == 0 then
        throw .nullCharacter
      match Text.charOfCode? code with
      | some char => return char
      | none => throw (.noCharacter code)

/-- The character of an escape in an attribute value, whose name starts `start` bytes into it. -/
def escapedChar (start : Nat) (name : List Char) : Except EscapeError Char :=
  match name with
  | '#' :: digits => escapedCode digits
  | _ =>
      match namedChar? (String.ofList name) with
      | some char => .ok char
      | none =>
          .error (.unknownEntity start (start + Text.byteLength name) (String.ofList name))

/-- Whether a character ends the name of an escape, as its own end or as the start of another. -/
def endsEscape (char : Char) : Bool := char == '&' || char == ';'

/-- The characters of the rest of an attribute value of `length` bytes. -/
def unescapeChars (length : Nat) (chars : List Char) : Except EscapeError (List Char) :=
  match chars with
  | [] => .ok []
  | '&' :: rest =>
      let start := length - Text.byteLength rest
      match found : rest.dropWhile (!endsEscape ·) with
      | ';' :: after => do
          let char ← escapedChar start (rest.takeWhile (!endsEscape ·))
          let unescaped ← unescapeChars length after
          return char :: unescaped
      | _ => .error (.unterminated (start - 1) length)
  | char :: rest => do
      let unescaped ← unescapeChars length rest
      return char :: unescaped
termination_by chars.length
decreasing_by
  · have shorter := Text.length_dropWhile_le (!endsEscape ·) rest
    simp only [found, List.length_cons] at shorter ⊢
    omega
  · simp

/-- The text of an attribute value. -/
def unescape (value : List Char) : Except EscapeError String :=
  (unescapeChars (Text.byteLength value) value).map String.ofList

end WordTemplate.Markup
