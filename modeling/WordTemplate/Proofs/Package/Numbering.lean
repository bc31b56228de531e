import Mathlib.Data.List.Basic
import Mathlib.Data.List.Nodup
import Mathlib.Data.List.Range
import WordTemplate.Package.Resources

/-!
# Numbered resources

The resources of a package are only ever added to. Every id and every path holds the position at
which it was given out, so no two relationships of a part have the same id, and no two media files
the same path, whatever their extensions are. A media file that was once found by its path is
therefore found by it from then on.
-/

namespace WordTemplate

/-- Different numbers are written differently. -/
theorem Text.toDigits_injective {first second : Nat}
    (same : Nat.toDigits 10 first = Nat.toDigits 10 second) : first = second := by
  rw [← Nat.ofDigitChars_ten_toDigits (n := first), same, Nat.ofDigitChars_ten_toDigits]

namespace Resources

variable {resources middle after : Resources} {part other target extension path : String}
  {kind : RelationshipKind} {external : Bool} {bytes : List UInt8} {relationship : Relationship}

/-! ## Ids and paths -/

/-- The id of the relationship with the given number. -/
def numberedId (number : Nat) : String := "rId" ++ Text.decimalText number

/-- The path of the media file with the given number. -/
def numberedPath (number : Nat) (extension : String) : String :=
  "media/image" ++ Text.decimalText number ++ "." ++ extension

private theorem takeWhile_digits (number : Nat) (rest : List Char) :
    (Nat.toDigits 10 number ++ '.' :: rest).takeWhile Char.isDigit = Nat.toDigits 10 number := by
  have allDigits : ∀ digit ∈ Nat.toDigits 10 number, digit.isDigit = true :=
    fun digit => Nat.isDigit_of_mem_toDigits (by decide) (by decide)
  rw [List.takeWhile_append_of_pos allDigits, List.takeWhile_cons_of_neg (by decide), List.append_nil]

/-- The number in a path ends at the point, whatever the extension is. -/
theorem numberedPath_injective {first second : Nat} {extension extension' : String}
    (same : numberedPath first extension = numberedPath second extension') : first = second := by
  apply Text.toDigits_injective
  have chars := congrArg String.toList same
  simp only [numberedPath, Text.decimalText, String.toList_append, String.toList_ofList,
    List.append_assoc, List.append_cancel_left_eq] at chars
  have digits := congrArg (List.takeWhile Char.isDigit) chars
  simpa [takeWhile_digits] using digits

/-- The id of the next relationship of a part. -/
def nextId (resources : Resources) (part : String) : String :=
  numberedId ((resources.relationshipsOf part).length + 1)

/-- The resources with one more media file. -/
def stored (resources : Resources) (bytes : List UInt8) (extension : String) : Resources :=
  resources.addMedia (resources.newMedia bytes extension)

/-- The resources with one more relationship of a part. -/
def related (resources : Resources) (part target : String) (kind : RelationshipKind)
    (external : Bool) : Resources :=
  resources.addRelationship part (resources.newRelationship part target kind external)

/-! ## The relationships of a part -/

theorem relationshipsOf_related :
    (resources.related part target kind external).relationshipsOf part =
      resources.relationshipsOf part ++ [resources.newRelationship part target kind external] := by
  simp [related, relationshipsOf, addRelationship, List.filter_append]

/-- A relationship of a part is none of another part. -/
theorem relationshipsOf_related_of_ne (differ : other ≠ part) :
    (resources.related part target kind external).relationshipsOf other =
      resources.relationshipsOf other := by
  simp [related, relationshipsOf, addRelationship, List.filter_append, Ne.symm differ]

/-- A new relationship belongs to its part. -/
theorem mem_relationshipsOf_related :
    relationship ∈ (resources.related part target kind external).relationshipsOf other ↔
      relationship ∈ resources.relationshipsOf other ∨
        other = part ∧ relationship = resources.newRelationship part target kind external := by
  by_cases same : other = part
  · subst same
    simp [relationshipsOf_related]
  · simp [relationshipsOf_related_of_ne same, same]

/-! ## Growing -/

/-- Resources were added to. -/
structure Grows (resources after : Resources) : Prop where
  relationships : resources.relationships <+: after.relationships
  media : resources.media <+: after.media

namespace Grows

theorem refl (resources : Resources) : resources.Grows resources :=
  ⟨List.prefix_rfl, List.prefix_rfl⟩

theorem trans (first : resources.Grows middle) (second : middle.Grows after) : resources.Grows after :=
  ⟨first.relationships.trans second.relationships, first.media.trans second.media⟩

theorem of_related : resources.Grows (resources.related part target kind external) :=
  ⟨List.prefix_append _ _, List.prefix_rfl⟩

theorem of_stored : resources.Grows (resources.stored bytes extension) :=
  ⟨List.prefix_rfl, List.prefix_append _ _⟩

theorem relationshipsOf (grows : resources.Grows after) (part : String) :
    resources.relationshipsOf part <+: after.relationshipsOf part :=
  (grows.relationships.filter _).map _

/-- A file that was found is found again. -/
theorem mediaBytes? (grows : resources.Grows after) (found : resources.mediaBytes? path = some bytes) :
    after.mediaBytes? path = some bytes := by
  rcases grows.media with ⟨added, isMedia⟩
  simp only [Resources.mediaBytes?, Option.map_eq_some_iff] at found ⊢
  rcases found with ⟨file, isFile, rfl⟩
  exact ⟨file, by rw [← isMedia, List.find?_append, isFile]; rfl, rfl⟩

end Grows

/-! ## Resources of a package -/

/-- Resources that were made by adding to empty ones. -/
inductive Made : Resources → Prop where
  | empty : Made {}
  | related {resources : Resources} (made : Made resources) (part target : String)
      (kind : RelationshipKind) (external : Bool) : Made (resources.related part target kind external)
  | stored {resources : Resources} (made : Made resources) (bytes : List UInt8) (extension : String) :
      Made (resources.stored bytes extension)

namespace Made

/-- The paths of media files are numbered in order. -/
theorem paths_eq (made : Made resources) :
    ∃ extensions : List String, resources.media.map MediaFile.path =
      extensions.zipIdx.map fun (extension, index) => numberedPath (index + 1) extension := by
  induction made with
  | empty => exact ⟨[], rfl⟩
  | related made owner target kind external inductionHypothesis => exact inductionHypothesis
  | @stored resources made bytes extension inductionHypothesis =>
      rcases inductionHypothesis with ⟨extensions, isPaths⟩
      have lengths := congrArg List.length isPaths
      simp only [List.length_map, List.length_zipIdx] at lengths
      refine ⟨extensions ++ [extension], ?_⟩
      rw [Resources.stored, addMedia, List.map_append, isPaths, List.zipIdx_append, List.map_append]
      simp [newMedia, numberedPath, lengths]

/-- No two media files have the same path. -/
theorem nodup_paths (made : Made resources) : (resources.media.map MediaFile.path).Nodup := by
  rcases made.paths_eq with ⟨extensions, isPaths⟩
  rw [isPaths, List.Nodup, List.pairwise_map, List.pairwise_iff_getElem]
  intro first second isFirst isSecond before same
  simp only [List.getElem_zipIdx] at same
  have numbers := numberedPath_injective same
  omega

/-- No file has the path of the next one yet. -/
theorem mediaBytes?_stored (made : Made resources) :
    (resources.stored bytes extension).mediaBytes? (resources.newMedia bytes extension).path =
      some bytes := by
  have distinct := (made.stored bytes extension).nodup_paths
  rw [Resources.stored, addMedia, List.map_append, List.map_singleton, List.nodup_append] at distinct
  have isNone : resources.media.find?
      (fun file => file.path == (resources.newMedia bytes extension).path) = none := by
    rw [List.find?_eq_none]
    intro file isFile
    simpa using distinct.2.2 file.path (List.mem_map_of_mem isFile) _ (List.mem_singleton_self _)
  rw [mediaBytes?, Resources.stored, addMedia, List.find?_append, isNone]
  simp [newMedia]

end Made

end Resources

end WordTemplate
