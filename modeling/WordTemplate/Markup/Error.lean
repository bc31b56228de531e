import WordTemplate.Text.Numeral

/-!
# Faults in markup

Each fault is a value that says what is wrong and where; `message` gives its wording. Positions
are byte offsets, counted for attributes from the start of the tag's name and for escapes from
the start of the attribute value.
-/

namespace WordTemplate.Markup

/-- A fault in the attributes of a tag. -/
inductive AttributeError where
  | missingEquals (position : Nat)
  | duplicated (position previous : Nat)
  | missingValue (position : Nat)
  | unquotedValue (position : Nat)
  | unclosedQuote (position : Nat) (quote : Char)
deriving DecidableEq

/-- The wording of a fault in attributes. -/
def AttributeError.message : AttributeError → String
  | missingEquals position =>
      "position " ++ Text.decimalText position ++
        ": attribute key must be directly followed by `=` or space"
  | duplicated position previous =>
      "position " ++ Text.decimalText position ++
        ": duplicated attribute, previous declaration at position " ++ Text.decimalText previous
  | missingValue position =>
      "position " ++ Text.decimalText position ++ ": `=` must be followed by an attribute value"
  | unquotedValue position =>
      "position " ++ Text.decimalText position ++
        ": attribute value must be enclosed in `\"` or `'`"
  | unclosedQuote position quote =>
      "position " ++ Text.decimalText position ++ ": missing closing quote `" ++ quote.toString ++
        "` in attribute value"

/-- A fault in the escapes of an attribute value. -/
inductive EscapeError where
  | unterminated (start stop : Nat)
  | unknownEntity (start stop : Nat) (name : String)
  | signedNumber
  | invalidNumber (cause : Text.NumeralError)
  | nullCharacter
  | noCharacter (code : Nat)
deriving DecidableEq

/-- The wording of a fault in a numeral. -/
def numeralMessage : Text.NumeralError → String
  | .empty => "cannot parse integer from empty string"
  | .invalidDigit => "invalid digit found in string"
  | .tooLarge => "number too large to fit in target type"

/-- The text of a range of positions. -/
def rangeText (start stop : Nat) : String :=
  Text.decimalText start ++ ".." ++ Text.decimalText stop

/-- The wording of a fault in escapes. -/
def EscapeError.message : EscapeError → String
  | unterminated start stop =>
      "Error while escaping character at range " ++ rangeText start stop ++
        ": Cannot find ';' after '&'"
  | unknownEntity start stop name =>
      "at " ++ rangeText start stop ++ ": unrecognized entity `" ++ name ++ "`"
  | signedNumber => "invalid character reference: unexpected number sign"
  | invalidNumber cause => "invalid character reference: " ++ numeralMessage cause
  | nullCharacter => "invalid character reference: 0x0 character is not permitted in XML"
  | noCharacter code =>
      "invalid character reference: `" ++ Text.decimalText code ++ "` is not a valid codepoint"

/-- A construct of markup with an end of its own. -/
inductive Construct where
  | tag
  | comment
  | cdata
  | doctype
  | instruction
  | reference
deriving DecidableEq

/-- The wording for a construct whose end is missing. -/
def Construct.unclosedMessage : Construct → String
  | tag => "syntax error: tag not closed: `>` not found before end of input"
  | comment => "syntax error: comment not closed: `-->` not found before end of input"
  | cdata => "syntax error: CDATA not closed: `]]>` not found before end of input"
  | doctype => "syntax error: DOCTYPE not closed: `>` not found before end of input"
  | instruction =>
      "syntax error: processing instruction or xml declaration not closed: " ++
        "`?>` not found before end of input"
  | reference =>
      "ill-formed document: entity or character reference not closed: " ++
        "`;` not found before end of input"

/-- A fault in the structure of markup. -/
inductive Malformation where
  | unclosed (construct : Construct)
  | unknownDeclaration
  | unnamedDoctype
  | strayClosing (name : String)
  | mismatchedClosing (expected found : String)
  | missingVersion
  | misplacedVersion (first : String)
  | declaration (cause : AttributeError)
deriving DecidableEq

/-- The wording of a fault in structure. -/
def Malformation.message : Malformation → String
  | unclosed construct => construct.unclosedMessage
  | unknownDeclaration => "syntax error: unknown or missed symbol in markup"
  | unnamedDoctype =>
      "ill-formed document: `<!DOCTYPE>` declaration does not contain a name of a document type"
  | strayClosing name =>
      "ill-formed document: close tag `</" ++ name ++ ">` does not match any open tag"
  | mismatchedClosing expected found =>
      "ill-formed document: expected `</" ++ expected ++ ">`, but `</" ++ found ++ ">` was found"
  | missingVersion =>
      "ill-formed document: an XML declaration does not contain `version` attribute"
  | misplacedVersion first =>
      "ill-formed document: an XML declaration must start with `version` attribute, " ++
        "but in starts with `" ++ first ++ "`"
  | declaration cause => "error while parsing attribute: " ++ cause.message

/-- Why markup cannot be read. -/
inductive ReadError where
  | malformed (cause : Malformation)
  | invalidAttribute (cause : AttributeError)
  | invalidEscape (cause : EscapeError)
  /-- The input ends while elements are open. -/
  | unclosedElements (count : Nat)
deriving DecidableEq

/-- The wording of an error. -/
def ReadError.message : ReadError → String
  | malformed cause => "XML parse error: " ++ cause.message
  | invalidAttribute cause => "XML attribute error: " ++ cause.message
  | invalidEscape cause => "XML escape error: " ++ cause.message
  | unclosedElements count =>
      "Unbalanced markup: " ++ Text.decimalText count ++ " element(s) left open at end of input"

end WordTemplate.Markup
