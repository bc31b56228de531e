import WordTemplate.Data.Printer
import WordTemplate.Text.Numeral

/-!
# Scopes

A scope path leads into the data by keys and indices, outermost first. What a path is bound to is
decided by a resolver. The lexical resolver looks for the last part of the path in the innermost
scope first and then in each enclosing one; the exact resolver follows the path and nothing else.
-/

namespace WordTemplate

/-- A step into the data. -/
inductive PathPart where
  | key (name : String)
  | index (position : Nat)
deriving DecidableEq

/-- How a step is written. -/
def PathPart.text : PathPart → String
  | key name => name
  | index position => Text.decimalText position

/-- Steps into the data, outermost first. -/
abbrev ScopePath := List PathPart

namespace ScopePath

/-- The steps of a path with points between them. -/
def text (path : ScopePath) : String :=
  String.intercalate "." (path.map PathPart.text)

/-- The path with one more step. -/
def enter (path : ScopePath) (part : PathPart) : ScopePath := path ++ [part]

/-- What is left of `path` after returning to the length of `outer`. -/
def leave (path outer : ScopePath) : ScopePath := path.take outer.length

end ScopePath

namespace Data.Value

/-- The value that a step leads to. A key that is a numeral also leads to an array item. -/
def step? : Value → PathPart → Option Value
  | .object fields, .key name => Fields.find? fields name
  | .array items, .index position => items[position]?
  | .array items, .key name =>
      (Text.readUnsigned? 10 UInt64.size name.toList).bind fun position => items[position]?
  | _, _ => none

/-- The value that a path leads to. -/
def walk? (value : Value) (path : ScopePath) : Option Value := path.foldlM step? value

/-- The value that a step leads to, where keys lead into objects and indices into arrays. -/
def exactStep? : Value → PathPart → Option Value
  | .object fields, .key name => Fields.find? fields name
  | .array items, .index position => items[position]?
  | _, _ => none

end Data.Value

/-- Decides which part of the data a path is bound to. -/
abbrev Resolver := ScopePath → Data.Value → Option Data.Value

namespace Resolver

/-- Looks for the last part of the path in the scopes of the path, innermost first. -/
def lexical : Resolver := fun path data =>
  match path.getLast? with
  | none => some data
  | some last =>
      (List.range path.length).reverse.findSome? fun depth =>
        (data.walk? (path.take depth)).bind (·.step? last)

/-- Follows the path from the outermost scope. -/
def exact : Resolver := fun path data => path.foldlM Data.Value.exactStep? data

end Resolver

end WordTemplate
