import WordTemplate.Data.Value

/-!
# Records in data

A record is written as an object with named fields, of which unknown ones are ignored, or as an
array with the fields in their declared order, of which the last may be missing. A missing field
reaches its reader as `none`.
-/

namespace WordTemplate.Data

/-- The fields of a record, in the order of `names`. -/
def recordFields? (names : List String) : Value → Option (List (Option Value))
  | .object fields => some (names.map (Fields.find? fields))
  | .array items =>
      if items.length ≤ names.length then
        some (items.map some ++ List.replicate (names.length - items.length) none)
      else
        none
  | _ => none

variable {α : Type}

/-- A field that has to be there. -/
def required (read : Value → Option α) (field : Option Value) : Option α :=
  field.bind read

/-- A field with a default for when it is missing. -/
def withDefault (standard : α) (read : Value → Option α) : Option Value → Option α
  | none => some standard
  | some value => read value

/-- A field that may be missing or null. -/
def optional (read : Value → Option α) : Option Value → Option (Option α)
  | none => some none
  | some .null => some none
  | some value => (read value).map some

/-- The name of an alternative, written as a string or as an object with one null field. -/
def alternative? : Value → Option String
  | .string name => some name
  | .object [(name, .null)] => some name
  | _ => none

end WordTemplate.Data
