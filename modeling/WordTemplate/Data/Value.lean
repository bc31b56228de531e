import WordTemplate.Decimal.Binary

/-!
# Data values

The data that fills a template: scalars, arrays, and objects whose fields stand in ascending
order of their keys. Whole numbers and floating-point numbers are kept apart, because they are
written differently.
-/

namespace WordTemplate.Data

/-- Named entries in ascending order of their keys, each key at most once. -/
abbrev Fields (α : Type) := List (String × α)

namespace Fields

variable {α : Type}

/-- The entry named `key`. -/
def find? (fields : Fields α) (key : String) : Option α :=
  fields.lookup key

/-- Sets the entry named `key`, replacing an earlier one. -/
def insert (fields : Fields α) (key : String) (value : α) : Fields α :=
  match fields with
  | [] => [(key, value)]
  | (first, held) :: rest =>
      if key < first then (key, value) :: (first, held) :: rest
      else if key = first then (key, value) :: rest
      else (first, held) :: insert rest key value

/-- The entries of a list of pairs; of pairs with one key the last counts. -/
def ofPairs (pairs : List (String × α)) : Fields α :=
  pairs.foldl (fun fields (key, value) => fields.insert key value) []

end Fields

/-- A number, whole or floating-point. -/
inductive Number where
  | integer (value : Int)
  | float (value : Float)

/-- The nearest floating-point number. -/
def Number.toFloat : Number → Float
  | .integer value =>
      let magnitude := Decimal.nearest value.natAbs 1
      if value < 0 then -magnitude else magnitude
  | .float value => value

/-- Whether a number differs from zero. -/
def Number.isNonzero : Number → Bool
  | .integer value => value != 0
  | .float value => value != 0.0

/-- A piece of data. -/
inductive Value where
  | null
  | bool (flag : Bool)
  | number (number : Number)
  | string (text : String)
  | array (items : List Value)
  | object (fields : List (String × Value))

instance : Inhabited Value := ⟨.null⟩

/-- The field named `key` of an object. -/
def Value.field? (value : Value) (key : String) : Option Value :=
  match value with
  | .object fields => Fields.find? fields key
  | _ => none

/-- The text of a string. -/
def Value.string? : Value → Option String
  | .string text => some text
  | _ => none

/-- The truth value of a boolean. -/
def Value.bool? : Value → Option Bool
  | .bool flag => some flag
  | _ => none

/-- Any number, as floating-point. -/
def Value.float? : Value → Option Float
  | .number held => some held.toFloat
  | _ => none

end WordTemplate.Data
