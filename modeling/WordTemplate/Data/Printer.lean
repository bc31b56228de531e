import WordTemplate.Data.Value
import WordTemplate.Decimal.Layout
import WordTemplate.Text.Hexadecimal

/-!
# Compact text of data

Data is written as JSON without spaces. Strings escape the quotation mark, the backslash and the
control characters; all other characters stand for themselves.
-/

namespace WordTemplate.Data

/-- A character as it stands inside a quoted string. -/
def quotedChar (char : Char) : List Char :=
  match char with
  | '"' => ['\\', '"']
  | '\\' => ['\\', '\\']
  | '\x08' => ['\\', 'b']
  | '\x0c' => ['\\', 'f']
  | '\n' => ['\\', 'n']
  | '\r' => ['\\', 'r']
  | '\t' => ['\\', 't']
  | _ =>
      if char.toNat < 0x20 then
        ['\\', 'u', '0', '0', Text.hexDigit (char.toNat / 16), Text.hexDigit (char.toNat % 16)]
      else
        [char]

/-- A string in quotation marks. -/
def quoted (text : String) : String :=
  String.ofList ('"' :: (text.toList.flatMap quotedChar ++ ['"']))

/-- The text of a whole number. -/
def integerText (value : Int) : String :=
  String.ofList ((if value < 0 then ['-'] else []) ++ Nat.toDigits 10 value.natAbs)

/-- The text of a number. -/
def Number.text : Number → String
  | .integer value => integerText value
  | .float value => Decimal.floatText value

mutual

/-- The compact text of a piece of data. -/
def Value.text : Value → String
  | .null => "null"
  | .bool true => "true"
  | .bool false => "false"
  | .number held => held.text
  | .string content => quoted content
  | .array items => "[" ++ itemsText items ++ "]"
  | .object fields => "\x7b" ++ fieldsText fields ++ "\x7d"

/-- The texts of array items, separated by commas. -/
def itemsText : List Value → String
  | [] => ""
  | [item] => item.text
  | item :: rest => item.text ++ "," ++ itemsText rest

/-- The texts of object fields, separated by commas. -/
def fieldsText : List (String × Value) → String
  | [] => ""
  | [(key, value)] => quoted key ++ ":" ++ value.text
  | (key, value) :: rest => quoted key ++ ":" ++ value.text ++ "," ++ fieldsText rest

end

end WordTemplate.Data
