import WordTemplate.Markup.Attributes

/-!
# Markup events

A source text is read as a sequence of events: tags, character data, references and pieces of
markup that are kept as written. `nextEvent` reads one event by what begins at the position, and
`Reading.of` reads a whole text, checking that closing tags match the open elements. It yields all
events before the first fault together with that fault, so whoever uses the events decides what
becomes of a faulty text.
-/

namespace WordTemplate.Markup

/-- A piece of markup. -/
inductive Event where
  | opening (name : String) (attributes : List Attribute)
  | empty (name : String) (attributes : List Attribute)
  | closing (name : String)
  /-- Character data, a marked section included. -/
  | text (characters : String)
  /-- A reference to a character, without its ampersand and semicolon. -/
  | reference (name : String)
  /-- A comment, a processing instruction or a declaration. -/
  | markup (raw : String)
deriving DecidableEq

/-- What a position holds. -/
inductive Step where
  | finished
  | failed (cause : ReadError)
  | found (event : Event) (rest : List Char)

namespace Step

/-- A structural fault. -/
def malformed (cause : Malformation) : Step := .failed (.malformed cause)

/-- An event whose content may be at fault. -/
def ofResult (event : Except ReadError Event) (rest : List Char) : Step :=
  match event with
  | .ok event => .found event rest
  | .error cause => .failed cause

end Step

/-- Cuts at the first closing angle bracket outside quotation marks. -/
def splitTag? : Option Char → List Char → Option (List Char × List Char)
  | _, [] => none
  | some quote, char :: rest =>
      (splitTag? (if char == quote then none else some quote) rest).map fun (inside, after) =>
        (char :: inside, after)
  | none, char :: rest =>
      if char == '>' then some ([], rest)
      else
        (splitTag? (if char == '"' || char == '\'' then some char else none) rest).map
          fun (inside, after) => (char :: inside, after)

/-- Cuts at the closing angle bracket that is not paired with an opening one. -/
def splitBalanced? : Nat → List Char → Option (List Char × List Char)
  | _, [] => none
  | depth, char :: rest =>
      if char == '>' && depth == 0 then some ([], rest)
      else
        let depth := if char == '<' then depth + 1 else if char == '>' then depth - 1 else depth
        (splitBalanced? depth rest).map fun (inside, after) => (char :: inside, after)

/-- The name of a closing tag: everything up to the spacing at its end. A name of nothing but
spacing is kept. -/
def closingName (inside : List Char) : List Char :=
  match Text.dropEndWhile Text.isSpacing inside with
  | [] => inside
  | name => name

/-- The event of a tag, given what stands between its angle brackets. -/
def tagEvent (inside : List Char) : Except ReadError Event :=
  match inside with
  | '/' :: name => .ok (.closing (String.ofList (closingName name)))
  | _ => do
      let isEmpty := inside.getLast? == some '/'
      let content := if isEmpty then inside.dropLast else inside
      let name := content.takeWhile (!Text.isSpacing ·)
      let attributes ← readAttributes (Text.byteLength content) []
        (content.dropWhile (!Text.isSpacing ·))
      if isEmpty then
        return .empty (String.ofList name) attributes
      else
        return .opening (String.ofList name) attributes

/-- An optional part of a declaration as it is kept. -/
def declarationPart (key : String) (value : Option (List Char)) : String :=
  match value with
  | some value => " " ++ key ++ "=\"" ++ String.ofList value ++ "\""
  | none => ""

/-- The event of a document's declaration, given what stands between its question marks. The version
has to come first, of the rest only encoding and standalone are kept. -/
def declarationEvent (inside : List Char) : Except ReadError Event := do
  let length := Text.byteLength inside
  let attributes := inside.drop "xml".length
  let version ←
    match nextAttribute length [] attributes with
    | .error cause => throw (.malformed (.declaration cause))
    | .ok none => throw (.malformed .missingVersion)
    | .ok (some written) =>
        if written.key = "version".toList then pure written.value
        else throw (.malformed (.misplacedVersion (String.ofList written.key)))
  let encoding ← (writtenValue? length "encoding" attributes).mapError .invalidAttribute
  let standalone ← (writtenValue? length "standalone" attributes).mapError .invalidAttribute
  return .markup ("<?xml version=\"" ++ String.ofList version ++ "\"" ++
    declarationPart "encoding" encoding ++ declarationPart "standalone" standalone ++ "?>")

/-- Whether a processing instruction is the declaration of the document. -/
def isDeclaration (inside : List Char) : Bool :=
  match "xml".toList.isPrefixOf? inside with
  | some [] => true
  | some (char :: _) => Text.isSpacing char
  | none => false

/-- The event of a processing instruction. -/
def instructionEvent (inside : List Char) : Except ReadError Event :=
  if isDeclaration inside then declarationEvent inside
  else .ok (.markup ("<?" ++ String.ofList inside ++ "?>"))

/-- The event of a document type, given what stands between the exclamation mark and the end. -/
def doctypeEvent (inside : List Char) : Except ReadError Event :=
  let keyword := "DOCTYPE"
  if (inside.take keyword.length).map Char.toUpper = keyword.toList then
    match (inside.drop keyword.length).dropWhile Text.isSpacing with
    | [] => .error (.malformed .unnamedDoctype)
    | content => .ok (.markup ("<!DOCTYPE " ++ String.ofList content ++ ">"))
  else
    .error (.malformed (.unclosed .doctype))

/-- Reads a processing instruction after its first question mark. -/
def instructionStep (chars : List Char) : Step :=
  match chars with
  | '>' :: _ => .malformed (.unclosed .instruction)
  | _ =>
      match Text.splitAtFirst? "?>".toList chars with
      | some (inside, rest) => .ofResult (instructionEvent inside) rest
      | none => .malformed (.unclosed .instruction)

/-- Reads a comment after its first hyphen. -/
def commentStep (chars : List Char) : Step :=
  match chars with
  | second :: content =>
      match Text.splitAtFirst? "-->".toList content with
      | some (inside, rest) =>
          if second == '-' then .found (.markup ("<!--" ++ String.ofList inside ++ "-->")) rest
          else .malformed (.unclosed .comment)
      | none => .malformed (.unclosed .comment)
  | [] => .malformed (.unclosed .comment)

/-- Reads a marked section after its first bracket. -/
def sectionStep (chars : List Char) : Step :=
  match Text.splitAtFirst? "]]>".toList chars with
  | some (inside, rest) =>
      match "CDATA[".toList.isPrefixOf? inside with
      | some characters => .found (.text (String.ofList characters)) rest
      | none => .malformed (.unclosed .cdata)
  | none => .malformed (.unclosed .cdata)

/-- Reads a document type after its exclamation mark. -/
def doctypeStep (chars : List Char) : Step :=
  match splitBalanced? 0 chars with
  | some (inside, rest) => .ofResult (doctypeEvent inside) rest
  | none => .malformed (.unclosed .doctype)

/-- Reads a tag after its opening angle bracket. -/
def tagStep (chars : List Char) : Step :=
  match splitTag? none chars with
  | some (inside, rest) => .ofResult (tagEvent inside) rest
  | none => .malformed (.unclosed .tag)

/-- Whether a character ends the name of a reference, as its own end or as the start of a
construct. -/
def endsReference (char : Char) : Bool := char == ';' || char == '&' || char == '<'

/-- Reads a reference after its ampersand. -/
def referenceStep (chars : List Char) : Step :=
  match chars.dropWhile (!endsReference ·) with
  | ';' :: rest => .found (.reference (String.ofList (chars.takeWhile (!endsReference ·)))) rest
  | _ => .malformed (.unclosed .reference)

/-- Whether a character ends character data. -/
def endsText (char : Char) : Bool := char == '<' || char == '&'

/-- Reads the event at a position. -/
def nextEvent (chars : List Char) : Step :=
  match chars with
  | [] => .finished
  | '<' :: '?' :: rest => instructionStep rest
  | '<' :: '!' :: '-' :: rest => commentStep rest
  | '<' :: '!' :: '[' :: rest => sectionStep rest
  | '<' :: '!' :: 'D' :: rest => doctypeStep ('D' :: rest)
  | '<' :: '!' :: 'd' :: rest => doctypeStep ('d' :: rest)
  | '<' :: '!' :: _ => .malformed .unknownDeclaration
  | '<' :: rest => tagStep rest
  | '&' :: rest => referenceStep rest
  | first :: rest =>
      .found (.text (String.ofList (first :: rest.takeWhile (!endsText ·))))
        (rest.dropWhile (!endsText ·))

/-- What follows a tag is shorter than the text. -/
theorem length_lt_of_splitTag? {quote : Option Char} {chars inside after : List Char}
    (cut : splitTag? quote chars = some (inside, after)) : after.length < chars.length := by
  induction chars generalizing quote inside with
  | nil => cases quote <;> simp [splitTag?] at cut
  | cons char rest ih =>
    cases quote with
    | some quote =>
      simp only [splitTag?, Option.map_eq_some_iff, Prod.exists, Prod.mk.injEq] at cut
      rcases cut with ⟨inside', after', inner, -, rfl⟩
      have shorter := ih inner
      simp only [List.length_cons]
      omega
    | none =>
      simp only [splitTag?] at cut
      split at cut
      · simp_all
      · simp only [Option.map_eq_some_iff, Prod.exists, Prod.mk.injEq] at cut
        rcases cut with ⟨inside', after', inner, -, rfl⟩
        have shorter := ih inner
        simp only [List.length_cons]
        omega

/-- What follows a document type is shorter than the text. -/
theorem length_lt_of_splitBalanced? {depth : Nat} {chars inside after : List Char}
    (cut : splitBalanced? depth chars = some (inside, after)) :
    after.length < chars.length := by
  induction chars generalizing depth inside with
  | nil => simp [splitBalanced?] at cut
  | cons char rest ih =>
    simp only [splitBalanced?] at cut
    split at cut
    · simp_all
    · simp only [Option.map_eq_some_iff, Prod.exists, Prod.mk.injEq] at cut
      rcases cut with ⟨inside', after', inner, -, rfl⟩
      have shorter := ih inner
      simp only [List.length_cons]
      omega

/-- A result is followed by exactly the rest it was given. -/
theorem Step.rest_of_ofResult {result : Except ReadError Event} {rest after : List Char}
    {event : Event} (isFound : Step.ofResult result rest = .found event after) : after = rest := by
  cases result <;> simp_all [Step.ofResult]

section

variable {chars after : List Char} {event : Event}

theorem length_lt_of_instructionStep (read : instructionStep chars = .found event after) :
    after.length < chars.length := by
  unfold instructionStep at read
  split at read
  · simp [Step.malformed] at read
  · split at read
    · rename_i inside rest cut
      cases Step.rest_of_ofResult read
      exact Text.length_lt_of_splitAtFirst? (by decide) cut
    · simp [Step.malformed] at read

theorem length_lt_of_commentStep (read : commentStep chars = .found event after) :
    after.length < chars.length := by
  unfold commentStep at read
  split at read
  · split at read
    · rename_i inside rest cut
      have shorter := Text.length_lt_of_splitAtFirst? (by decide) cut
      split at read
      · simp only [Step.found.injEq] at read
        rcases read with ⟨-, rfl⟩
        simp only [List.length_cons]
        omega
      · simp [Step.malformed] at read
    · simp [Step.malformed] at read
  · simp [Step.malformed] at read

theorem length_lt_of_sectionStep (read : sectionStep chars = .found event after) :
    after.length < chars.length := by
  unfold sectionStep at read
  split at read
  · rename_i inside rest cut
    split at read
    · simp only [Step.found.injEq] at read
      rcases read with ⟨-, rfl⟩
      exact Text.length_lt_of_splitAtFirst? (by decide) cut
    · simp [Step.malformed] at read
  · simp [Step.malformed] at read

theorem length_lt_of_doctypeStep (read : doctypeStep chars = .found event after) :
    after.length < chars.length := by
  unfold doctypeStep at read
  split at read
  · rename_i inside rest cut
    cases Step.rest_of_ofResult read
    exact length_lt_of_splitBalanced? cut
  · simp [Step.malformed] at read

theorem length_lt_of_tagStep (read : tagStep chars = .found event after) :
    after.length < chars.length := by
  unfold tagStep at read
  split at read
  · rename_i inside rest cut
    cases Step.rest_of_ofResult read
    exact length_lt_of_splitTag? cut
  · simp [Step.malformed] at read

theorem length_lt_of_referenceStep (read : referenceStep chars = .found event after) :
    after.length < chars.length := by
  unfold referenceStep at read
  have shorter := Text.length_dropWhile_le (!endsReference ·) chars
  split at read
  · rename_i rest found
    simp only [Step.found.injEq] at read
    rcases read with ⟨-, rfl⟩
    simp only [found, List.length_cons] at shorter
    omega
  · simp [Step.malformed] at read

/-- Reading an event uses up characters. -/
theorem length_lt_of_nextEvent (read : nextEvent chars = .found event after) :
    after.length < chars.length := by
  unfold nextEvent at read
  split at read
  · simp at read
  · exact Nat.lt_add_right 2 (length_lt_of_instructionStep read)
  · exact Nat.lt_add_right 3 (length_lt_of_commentStep read)
  · exact Nat.lt_add_right 3 (length_lt_of_sectionStep read)
  · exact Nat.lt_add_right 2 (length_lt_of_doctypeStep read)
  · exact Nat.lt_add_right 2 (length_lt_of_doctypeStep read)
  · simp [Step.malformed] at read
  · exact Nat.lt_add_right 1 (length_lt_of_tagStep read)
  · exact Nat.lt_add_right 1 (length_lt_of_referenceStep read)
  · rename_i first rest _ _ _ _ _ _ _ _
    simp only [Step.found.injEq] at read
    rcases read with ⟨-, rfl⟩
    exact Nat.lt_succ_of_le (Text.length_dropWhile_le (!endsText ·) rest)

end

/-- The names of the open elements after an event, innermost first. -/
def openAfter (openNames : List String) : Event → Except Malformation (List String)
  | .opening name _ => .ok (name :: openNames)
  | .closing name =>
      match openNames with
      | [] => .error (.strayClosing name)
      | expected :: outer =>
          if name = expected then .ok outer else .error (.mismatchedClosing expected name)
  | _ => .ok openNames

/-- The events of a text up to its end or its first fault. -/
structure Reading where
  events : List Event
  failure : Option ReadError
deriving DecidableEq

/-- Reads the rest of a text while the given elements are open. -/
def readEvents (openNames : List String) (chars : List Char) : Reading :=
  match _read : nextEvent chars with
  | .finished =>
      ⟨[], if openNames.isEmpty then none else some (.unclosedElements openNames.length)⟩
  | .failed cause => ⟨[], some cause⟩
  | .found event rest =>
      match openAfter openNames event with
      | .error cause => ⟨[], some (.malformed cause)⟩
      | .ok openNames =>
          let reading := readEvents openNames rest
          { reading with events := event :: reading.events }
termination_by chars.length
decreasing_by exact length_lt_of_nextEvent _read

/-- Reads a text. A byte order mark at its start is no part of it. -/
def Reading.of (source : String) : Reading :=
  match source.toList with
  | '\ufeff' :: rest => readEvents [] rest
  | chars => readEvents [] chars

/-- The names of the references among events that denote no character. -/
def unresolvedReferences (events : List Event) : List String :=
  events.filterMap fun event =>
    match event with
    | .reference name => if (referencedChar? name).isNone then some name else none
    | _ => none

end WordTemplate.Markup
