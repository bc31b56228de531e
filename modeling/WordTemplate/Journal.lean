/-!
# Journal

What happens while a template is filled is noted in a journal, with a level that says how much the
note matters.
-/

namespace WordTemplate

/-- How much a note matters. -/
inductive Level where
  | warn
  | debug
  | trace
deriving DecidableEq

namespace Level

/-- The name of a level. -/
def name : Level → String
  | warn => "warn"
  | debug => "debug"
  | trace => "trace"

/-- The level with the given name. -/
def ofName? (name : String) : Option Level :=
  [warn, debug, trace].find? (·.name == name)

/-- The position of a level, from the most severe on. -/
def rank : Level → Nat
  | warn => 0
  | debug => 1
  | trace => 2

end Level

/-- An entry of a journal. -/
structure Note where
  level : Level
  text : String
deriving DecidableEq

/-- Notes in the order in which they were made. -/
abbrev Journal := Array Note

namespace Journal

/-- The notes that matter at least as much as those of the given level. -/
def upTo (journal : Journal) (level : Level) : List Note :=
  journal.toList.filter (·.level.rank ≤ level.rank)

/-- The warnings about references in a text that denote no character. -/
def keptReferences (names : List String) : List Note :=
  names.map fun name =>
    ⟨.warn, "Keeping unknown entity reference '&" ++ name ++ ";' as literal text"⟩

end Journal

end WordTemplate
