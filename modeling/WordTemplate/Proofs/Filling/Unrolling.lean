import Mathlib.Data.List.Basic
import WordTemplate.Container.Loop
import WordTemplate.Container.Sections
import WordTemplate.Proofs.Filling.Working

/-!
# Unrolled templates

Unrolling a list of tags lists the leaves in the order in which they are to be replaced, each with
its scope path. Nothing but the tags, the data and the settings counts here; how the tags lie in a
document does not. The inside of a container is unrolled once for each repetition.
-/

namespace WordTemplate

/-- Whether a tag closes the containers with the given name. -/
def Tag.closes (name : String) (tag : Tag) : Bool := tag.kind = .closing && tag.name = name

/-- How often a section bound to a value keeps its region. -/
def Section.repetitionsOf (value : Option Data.Value) : Nat :=
  ((value.bind ofValue?).map repetitions).getD 0

/-- A section is kept at most once. -/
theorem Section.repetitionsOf_le_one (value : Option Data.Value) : repetitionsOf value ≤ 1 := by
  rw [repetitionsOf]
  rcases value.bind ofValue? with _ | part
  · exact Nat.zero_le 1
  · rw [Option.map_some, Option.getD_some, repetitions]
    split
    · exact Nat.le_refl 1
    · split <;> omega

namespace Compiler

variable {compiler : Compiler} {context : Context} {name : String} {path : ScopePath}
  {tags inner after : List Tag} {closing : Tag}

/-- The scope paths at which the inside of a container is filled, in order. The path of the container
itself ends in its name. -/
def innerPaths (compiler : Compiler) (context : Context) (container : Container)
    (path : ScopePath) : List ScopePath :=
  match containerType compiler.options container with
  | .loop | .tableLoop =>
      (List.range (Loop.repetitions (context.valueAt path))).map (path.enter <| .index ·)
  | .sections => List.replicate (Section.repetitionsOf (context.valueAt path)) path
  | _ => []

/-- The leaves among tags in the order in which they are to be replaced. An opening tag takes the
tags up to the first later closing tag of the same name with it, and a closing tag on its own stands
for nothing. -/
def unroll (compiler : Compiler) (context : Context) (path : ScopePath) :
    List Tag → List Dispatch
  | [] => []
  | tag :: rest =>
      match tag.kind with
      | .leaf =>
          ⟨tag.name, tag.rawText, path.enter (.key tag.name)⟩ :: unroll compiler context path rest
      | .closing => unroll compiler context path rest
      | .opening container =>
          ((compiler.innerPaths context container (path.enter (.key tag.name))).flatMap
            fun inside => unroll compiler context inside (rest.takeWhile (!·.closes tag.name))) ++
          unroll compiler context path ((rest.dropWhile (!·.closes tag.name)).drop 1)
termination_by tags => tags.length
decreasing_by
  all_goals simp_wf
  · have shorter := (List.takeWhile_sublist (!·.closes tag.name) (l := rest)).length_le
    omega
  · have shorter := (List.dropWhile_sublist (!·.closes tag.name) (l := rest)).length_le
    omega

/-- What is inside a container and what is after it. -/
theorem around_of_splitAtClosing? (split : splitAtClosing? name tags = some (inner, closing, after)) :
    tags.takeWhile (!·.closes name) = inner ∧ (tags.dropWhile (!·.closes name)).drop 1 = after := by
  induction tags generalizing inner with
  | nil => simp [splitAtClosing?] at split
  | cons tag rest inductionHypothesis =>
      rw [splitAtClosing?] at split
      split at split
      case isTrue closes =>
          simp_all [Tag.closes]
      case isFalse opens =>
          simp only [Option.map_eq_some_iff, Prod.exists, Prod.mk.injEq] at split
          rcases split with ⟨inner', closing', after', found, rfl, rfl, rfl⟩
          have notClosing : tag.closes name = false := by simpa [Tag.closes] using opens
          simp [notClosing, inductionHypothesis found]

/-- The tags of a container are those up to the first closing tag of its name. -/
theorem splitAtClosing?_of_not_closes
    (none : ∀ tag ∈ inner, tag.closes name = false) (closes : closing.closes name = true) :
    splitAtClosing? name (inner ++ closing :: after) = some (inner, closing, after) := by
  induction inner with
  | nil =>
      rw [List.nil_append, splitAtClosing?, if_pos (by simpa [Tag.closes] using closes)]
  | cons tag inner inductionHypothesis =>
      have open' : ¬(tag.kind = .closing ∧ tag.name = name) := by
        simpa [Tag.closes] using none tag List.mem_cons_self
      rw [List.cons_append, splitAtClosing?, if_neg open',
        inductionHypothesis fun tag isMember => none tag (List.mem_cons_of_mem _ isMember)]
      rfl

/-- The closing tag of a container is the first one of its name. -/
theorem closes_of_splitAtClosing? (split : splitAtClosing? name tags = some (inner, closing, after)) :
    (∀ tag ∈ inner, tag.closes name = false) ∧ closing.closes name = true := by
  induction tags generalizing inner with
  | nil => simp [splitAtClosing?] at split
  | cons tag rest inductionHypothesis =>
      rw [splitAtClosing?] at split
      split at split
      case isTrue closes =>
          simp only [Option.some.injEq, Prod.mk.injEq] at split
          rcases split with ⟨rfl, rfl, rfl⟩
          simpa [Tag.closes] using closes
      case isFalse opens =>
          simp only [Option.map_eq_some_iff, Prod.exists, Prod.mk.injEq] at split
          rcases split with ⟨inner', closing', after', found, rfl, rfl, rfl⟩
          rcases inductionHypothesis found with ⟨others, closes⟩
          exact ⟨List.forall_mem_cons.mpr ⟨by simpa [Tag.closes] using opens, others⟩, closes⟩

theorem not_closes_of_splitAtClosing? (unclosed : splitAtClosing? name tags = none) :
    ∀ tag ∈ tags, tag.closes name = false := by
  induction tags with
  | nil => simp
  | cons tag rest inductionHypothesis =>
      rw [splitAtClosing?] at unclosed
      split at unclosed
      case isTrue closes => cases unclosed
      case isFalse opens =>
          rw [Option.map_eq_none_iff] at unclosed
          exact List.forall_mem_cons.mpr
            ⟨by simpa [Tag.closes] using opens, inductionHypothesis unclosed⟩

/-- A tag that is not closed in either of two parts is not closed. -/
theorem splitAtClosing?_append_eq_none {name : String} {first second : List Tag}
    (unclosed : splitAtClosing? name first = none) (unclosed' : splitAtClosing? name second = none) :
    splitAtClosing? name (first ++ second) = none := by
  rw [Option.eq_none_iff_forall_ne_some]
  rintro ⟨inner, closing, rest⟩ split
  have isMember : closing ∈ first ++ second := by
    rw [← append_eq_of_splitAtClosing? split]
    simp
  have closes := (closes_of_splitAtClosing? split).2
  rw [(List.mem_append.mp isMember).elim (not_closes_of_splitAtClosing? unclosed closing)
    (not_closes_of_splitAtClosing? unclosed' closing)] at closes
  cases closes

/-- A tag that is closed in the first of two parts is closed there in the whole. -/
theorem splitAtClosing?_append {name : String} {first second inner rest : List Tag} {closing : Tag}
    (split : splitAtClosing? name first = some (inner, closing, rest)) :
    splitAtClosing? name (first ++ second) = some (inner, closing, rest ++ second) := by
  rcases closes_of_splitAtClosing? split with ⟨none, closes⟩
  rw [← append_eq_of_splitAtClosing? split, List.append_assoc, List.cons_append,
    splitAtClosing?_of_not_closes none closes]

/-- Unrolling does not depend on the text nodes of the tags. -/
theorem unroll_map {moved : Tag → Tag} (relocates : ∀ tag, ∃ node, moved tag = tag.relocated node)
    (path : ScopePath) (tags : List Tag) :
    compiler.unroll context path (tags.map moved) = compiler.unroll context path tags := by
  have name_eq : ∀ tag, (moved tag).name = tag.name := fun tag => by
    rcases relocates tag with ⟨node, same⟩
    rw [same, Tag.relocated]
  have kind_eq : ∀ tag, (moved tag).kind = tag.kind := fun tag => by
    rcases relocates tag with ⟨node, same⟩
    rw [same, Tag.relocated]
  have rawText_eq : ∀ tag, (moved tag).rawText = tag.rawText := fun tag => by
    rcases relocates tag with ⟨node, same⟩
    rw [same, Tag.relocated]
  have closes_eq : ∀ name, (fun tag : Tag => !tag.closes name) ∘ moved =
      fun tag => !tag.closes name := fun name => by
    funext tag
    simp [Tag.closes, name_eq, kind_eq]
  induction path, tags using unroll.induct with
  | case1 => simp [unroll]
  | case2 path tag rest isLeaf inductionHypothesis =>
      simp [unroll, kind_eq, name_eq, rawText_eq, isLeaf, inductionHypothesis]
  | case3 path tag rest isClosing inductionHypothesis =>
      simp [unroll, kind_eq, isClosing, inductionHypothesis]
  | case4 path tag rest container isOpening inside outside =>
      rw [List.map_cons, unroll, unroll, kind_eq, isOpening]
      simp only [name_eq, List.takeWhile_map, List.dropWhile_map, ← List.map_drop, closes_eq]
      rw [outside]
      congr 1
      exact List.flatMap_congr fun path _ => inside path

end Compiler

end WordTemplate
