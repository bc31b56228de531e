/-!
# Blank characters

Two classes of blank characters are in use. `isBlank` is the Unicode property
`White_Space`; names, delimiters and loose option values are trimmed by it.
`isSpacing` holds the four characters that separate the pieces of markup and of
an option block: space, tab, carriage return and line feed.
-/

namespace WordTemplate.Text

/-- The Unicode property `White_Space`. -/
def isBlank (char : Char) : Bool :=
  let code := char.toNat
  (0x9 ≤ code && code ≤ 0xD) || code == 0x20 || code == 0x85 || code == 0xA0 || code == 0x1680 ||
    (0x2000 ≤ code && code ≤ 0x200A) || code == 0x2028 || code == 0x2029 || code == 0x202F ||
    code == 0x205F || code == 0x3000

/-- The blanks that separate pieces of markup and of option blocks. -/
def isSpacing (char : Char) : Bool :=
  char == ' ' || char == '\t' || char == '\r' || char == '\n'

/-- The blanks of ASCII text: spacing and the form feed. -/
def isAsciiBlank (char : Char) : Bool :=
  isSpacing char || char == '\x0c'

/-- Drops the characters at the end of `chars` that satisfy `drops`. -/
def dropEndWhile (drops : Char → Bool) (chars : List Char) : List Char :=
  (chars.reverse.dropWhile drops).reverse

/-- Drops blank characters at both ends. -/
def trimChars (chars : List Char) : List Char :=
  dropEndWhile isBlank (chars.dropWhile isBlank)

/-- Drops blank characters at both ends of a string. -/
def trim (text : String) : String :=
  String.ofList (trimChars text.toList)

/-- Spacing is blank. -/
theorem isBlank_of_isSpacing {char : Char} (spacing : isSpacing char = true) :
    isBlank char = true := by
  simp only [isSpacing, Bool.or_eq_true, beq_iff_eq] at spacing
  rcases spacing with ((rfl | rfl) | rfl) | rfl <;> decide

end WordTemplate.Text
