import WordTemplate.Document.Node
import WordTemplate.Markup.Escape
import WordTemplate.Text.Blank

/-!
# Attributes of a tag

The attributes follow the name of a tag. A key reaches up to the next equals sign or spacing, and
its first character is never the end. A value stands in quotation marks of either kind and reaches
up to the next one of its kind, so attributes need no spacing between them.

Every position is a byte offset from the start of the tag's name. It is computed from what is
left to read, `length` being the number of bytes in the whole tag.
-/

namespace WordTemplate.Markup

/-- An attribute as written, and the characters after it. -/
structure WrittenAttribute where
  key : List Char
  position : Nat
  value : List Char
  rest : List Char

/-- Whether a character ends the key of an attribute. -/
def endsKey (char : Char) : Bool := char == '=' || Text.isSpacing char

/-- Reads the next attribute, if there is one. A key among `seen`, which lists keys with their
positions, is a fault. -/
def nextAttribute (length : Nat) (seen : List (List Char × Nat)) (chars : List Char) :
    Except AttributeError (Option WrittenAttribute) :=
  match chars.dropWhile Text.isSpacing with
  | [] => .ok none
  | first :: more =>
      let position := length - Text.byteLength (first :: more)
      let key := first :: more.takeWhile (!endsKey ·)
      match (more.dropWhile (!endsKey ·)).dropWhile Text.isSpacing with
      | '=' :: afterEquals =>
          match seen.lookup key with
          | some previous => .error (.duplicated position previous)
          | none =>
              match afterEquals.dropWhile Text.isSpacing with
              | [] => .error (.missingValue length)
              | quote :: quotedText =>
                  if quote == '"' || quote == '\'' then
                    match quotedText.dropWhile (· != quote) with
                    | [] => .error (.unclosedQuote length quote)
                    | _ :: rest =>
                        let value := quotedText.takeWhile (· != quote)
                        .ok (some { key, position, value, rest })
                  else
                    .error (.unquotedValue (length - Text.byteLength (quote :: quotedText)))
      | other => .error (.missingEquals (length - Text.byteLength other))

/-- Reading an attribute uses up characters. -/
theorem length_rest_lt_of_nextAttribute {length : Nat} {seen : List (List Char × Nat)}
    {chars : List Char} {found : WrittenAttribute}
    (read : nextAttribute length seen chars = .ok (some found)) :
    found.rest.length < chars.length := by
  have startShorter := Text.length_dropWhile_le Text.isSpacing chars
  simp only [nextAttribute] at read
  split at read
  · simp at read
  · rename_i first more startIs
    have keyShorter := Text.length_dropWhile_le (!endsKey ·) more
    have gapShorter := Text.length_dropWhile_le Text.isSpacing (more.dropWhile (!endsKey ·))
    split at read
    · rename_i afterEquals equalsIs
      split at read
      · simp at read
      · have valueShorter := Text.length_dropWhile_le Text.isSpacing afterEquals
        split at read
        · simp at read
        · rename_i quote quotedText quoteIs
          split at read
          · have closeShorter := Text.length_dropWhile_le (· != quote) quotedText
            split at read
            · simp at read
            · rename_i closing rest closingIs
              simp only [Except.ok.injEq, Option.some.injEq] at read
              subst read
              simp only [startIs, equalsIs, quoteIs, closingIs, List.length_cons] at *
              omega
          · simp at read
    · simp at read

/-- Reads all attributes of a tag and resolves the escapes of their values. Each value is resolved
before the next attribute is read. -/
def readAttributes (length : Nat) (seen : List (List Char × Nat)) (chars : List Char) :
    Except ReadError (List Attribute) :=
  match _found : nextAttribute length seen chars with
  | .error cause => .error (.invalidAttribute cause)
  | .ok none => .ok []
  | .ok (some written) =>
      match unescape written.value with
      | .error cause => .error (.invalidEscape cause)
      | .ok value => do
          let rest ← readAttributes length ((written.key, written.position) :: seen) written.rest
          return ⟨String.ofList written.key, value⟩ :: rest
termination_by chars.length
decreasing_by exact length_rest_lt_of_nextAttribute _found

/-- The value of the first attribute with the given key, as written. -/
def writtenValue? (length : Nat) (key : String) (chars : List Char) :
    Except AttributeError (Option (List Char)) :=
  match _found : nextAttribute length [] chars with
  | .error cause => .error cause
  | .ok none => .ok none
  | .ok (some written) =>
      if written.key = key.toList then .ok (some written.value)
      else writtenValue? length key written.rest
termination_by chars.length
decreasing_by exact length_rest_lt_of_nextAttribute _found

end WordTemplate.Markup
