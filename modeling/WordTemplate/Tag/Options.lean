import WordTemplate.Data.Value
import WordTemplate.Decimal.Reading
import WordTemplate.Error
import WordTemplate.Text.Alphanumeric
import WordTemplate.Text.Numeral
import WordTemplate.Text.Blank
import WordTemplate.Text.Search

/-!
# Option blocks

An option block lists pairs of a key and a value, separated by commas; a comma after the last pair
is allowed. Key and value are separated by an equals sign or a colon. Either may be quoted; a bare
value reaches up to the next comma and is read as a truth value, null, a number or else a string.
Spacing may stand between any two of these pieces.
-/

namespace WordTemplate

/-- The options of a tag. -/
abbrev TagOptions := Data.Fields Data.Value

namespace TagOptions

/-- Plain quotation marks in place of the typographic ones that are substituted while typing. -/
def plainQuote (char : Char) : Char :=
  if char == '\u201c' || char == '\u201d' || char == '\u201e' then '"'
  else if char == '\u2018' || char == '\u2019' then '\''
  else char

/-- Drops spacing at the start. -/
def skip (chars : List Char) : List Char := chars.dropWhile Text.isSpacing

/-- Reads a string between two quotation marks of the given kind. -/
def readQuotedBy? (quote : Char) : List Char → Option (String × List Char)
  | [] => none
  | first :: rest =>
      if first == quote then
        match rest.dropWhile (· != quote) with
        | _ :: after => some (String.ofList (rest.takeWhile (· != quote)), after)
        | [] => none
      else
        none

/-- Reads a quoted string. -/
def readQuoted? (chars : List Char) : Option (String × List Char) :=
  (readQuotedBy? '"' chars).or (readQuotedBy? '\'' chars)

/-- Whether a character may stand in a bare key. -/
def isKeyChar (char : Char) : Bool :=
  Text.isAlphanumeric char || char == '_' || char == '-'

/-- Reads a key. -/
def readKey? (chars : List Char) : Option (String × List Char) :=
  (readQuoted? chars).or <|
    match chars.takeWhile isKeyChar with
    | [] => none
    | key => some (String.ofList key, chars.dropWhile isKeyChar)

/-- The value of a bare word without blanks at its ends. -/
def bareValue (word : List Char) : Data.Value :=
  if word = "true".toList then .bool true
  else if word = "false".toList then .bool false
  else if word = "null".toList then .null
  else
    match Text.readInt64? word with
    | some value => .number (.integer value)
    | none =>
        match (Decimal.readFloat? word).filter Float.isFinite with
        | some value => .number (.float value)
        | none => .string (String.ofList word)

/-- Reads a value. -/
def readValue? (chars : List Char) : Option (Data.Value × List Char) :=
  match readQuoted? chars with
  | some (text, rest) => some (.string text, rest)
  | none =>
      match chars.takeWhile (· != ',') with
      | [] => none
      | first :: word =>
          if first == '"' || first == '\'' then none
          else
            some (bareValue (Text.trimChars (first :: word)), chars.dropWhile (· != ','))

/-- Reads a pair and the spacing around its pieces. -/
def readPair? (chars : List Char) : Option ((String × Data.Value) × List Char) := do
  let (key, rest) ← readKey? (skip chars)
  match skip rest with
  | separator :: rest =>
      if separator == '=' || separator == ':' then
        let (value, rest) ← readValue? (skip rest)
        return ((key, value), skip rest)
      else
        none
  | [] => none

/-- Quoted strings use up characters. -/
theorem length_lt_of_readQuotedBy? {quote : Char} {chars rest : List Char} {text : String}
    (read : readQuotedBy? quote chars = some (text, rest)) : rest.length < chars.length := by
  cases chars with
  | nil => simp [readQuotedBy?] at read
  | cons first tail =>
    have shorter := Text.length_dropWhile_le (· != quote) tail
    simp only [readQuotedBy?] at read
    split at read
    · split at read
      · rename_i closing after closingIs
        simp only [Option.some.injEq, Prod.mk.injEq] at read
        rcases read with ⟨-, rfl⟩
        simp only [closingIs, List.length_cons] at shorter ⊢
        omega
      · simp at read
    · simp at read

/-- Keys use up characters. -/
theorem length_le_of_readKey? {chars rest : List Char} {key : String}
    (read : readKey? chars = some (key, rest)) : rest.length ≤ chars.length := by
  simp only [readKey?, readQuoted?, Option.or_eq_some_iff] at read
  rcases read with (quoted | ⟨-, quoted⟩) | ⟨-, bare⟩
  · exact Nat.le_of_lt (length_lt_of_readQuotedBy? quoted)
  · exact Nat.le_of_lt (length_lt_of_readQuotedBy? quoted)
  · split at bare
    · simp at bare
    · simp only [Option.some.injEq, Prod.mk.injEq] at bare
      rcases bare with ⟨-, rfl⟩
      exact Text.length_dropWhile_le isKeyChar chars

/-- Values do not lengthen the text. -/
theorem length_le_of_readValue? {chars rest : List Char} {value : Data.Value}
    (read : readValue? chars = some (value, rest)) : rest.length ≤ chars.length := by
  simp only [readValue?] at read
  split at read
  · rename_i text after quoted
    simp only [Option.some.injEq, Prod.mk.injEq] at read
    rcases read with ⟨-, rfl⟩
    simp only [readQuoted?, Option.or_eq_some_iff] at quoted
    rcases quoted with quoted | ⟨-, quoted⟩ <;>
      exact Nat.le_of_lt (length_lt_of_readQuotedBy? quoted)
  · split at read
    · simp at read
    · split at read
      · simp at read
      · simp only [Option.some.injEq, Prod.mk.injEq] at read
        rcases read with ⟨-, rfl⟩
        exact Text.length_dropWhile_le (· != ',') chars

/-- Pairs use up characters. -/
theorem length_lt_of_readPair? {chars rest : List Char} {pair : String × Data.Value}
    (read : readPair? chars = some (pair, rest)) : rest.length < chars.length := by
  simp only [readPair?, Option.bind_eq_bind, Option.bind_eq_some_iff, Prod.exists] at read
  rcases read with ⟨key, afterKey, readKey, afterSeparator⟩
  have start := Text.length_dropWhile_le Text.isSpacing chars
  have keyShorter := length_le_of_readKey? readKey
  have gap := Text.length_dropWhile_le Text.isSpacing afterKey
  split at afterSeparator
  · rename_i separator afterMark markIs
    split at afterSeparator
    · simp only [Option.pure_def, Option.bind_eq_some_iff, Option.some.injEq, Prod.mk.injEq,
        Prod.exists] at afterSeparator
      rcases afterSeparator with ⟨value, afterValue, readValue, -, rfl⟩
      have valueGap := Text.length_dropWhile_le Text.isSpacing afterMark
      have valueShorter := length_le_of_readValue? readValue
      have last := Text.length_dropWhile_le Text.isSpacing afterValue
      simp only [skip] at *
      simp only [markIs, List.length_cons] at gap
      omega
    · simp at afterSeparator
  · simp at afterSeparator

/-- Reads further pairs, each after a comma. A comma that no pair follows is left unread. -/
def readMore (chars : List Char) : List (String × Data.Value) × List Char :=
  match _comma : skip chars with
  | ',' :: rest =>
      match _pair : readPair? rest with
      | some (pair, rest) =>
          let (pairs, rest) := readMore rest
          (pair :: pairs, rest)
      | none => ([], chars)
  | _ => ([], chars)
termination_by chars.length
decreasing_by
  have gap := Text.length_dropWhile_le Text.isSpacing chars
  have shorter := length_lt_of_readPair? _pair
  simp only [skip] at _comma
  simp only [_comma, List.length_cons] at gap
  omega

/-- Reads all pairs. -/
def readPairs (chars : List Char) : List (String × Data.Value) × List Char :=
  match readPair? chars with
  | some (pair, rest) =>
      let (pairs, rest) := readMore rest
      (pair :: pairs, rest)
  | none => ([], chars)

/-- Drops a comma with the spacing around it. -/
def skipComma (chars : List Char) : List Char :=
  match skip chars with
  | ',' :: rest => skip rest
  | _ => chars

/-- Reads an option block. Of several options with one key the last counts. -/
def read (block : String) : Except OptionsError TagOptions :=
  let (pairs, rest) := readPairs (skip (block.toList.map plainQuote))
  match skip (skipComma rest) with
  | [] => .ok (Data.Fields.ofPairs pairs)
  | rest => .error (.unread (String.ofList rest))

end TagOptions

end WordTemplate
