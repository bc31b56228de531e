import Mathlib.Data.List.Forall2
import WordTemplate.Proofs.Package.Visiting

/-!
# The order of parts

The parts of a package share its resources, but a part sees of them only how many relationships it has
itself, and those are added while it is filled. Media files are numbered through the whole package, so
their paths depend on the order in which the parts are filled; what the paths lead to does not, unless
an image was related to a path before any file was stored there.
-/

namespace WordTemplate

open Outcome

variable {context : Context} {path : ScopePath} {part : String}
  {start resources after first second first' second' : Resources}

/-! ## Corresponding relationships -/

/-- Two relationships of a part serve alike in two packages that were filled from the same start. Images
may stand at different paths with the same bytes. An image whose file was missing at the start is
related to the same path still, and nothing is said of what stands there. -/
inductive Relationship.Corresponds (start first second : Resources) (part : String) :
    Relationship → Relationship → Prop where
  | link {id target : String} {external : Bool} : Corresponds start first second part
      ⟨id, target, .hyperlink, external⟩ ⟨id, target, .hyperlink, external⟩
  | image {id target target' : String} {external : Bool} {bytes : List UInt8}
      (isStored : first.mediaBytes? target = some bytes)
      (isStored' : second.mediaBytes? target' = some bytes) : Corresponds start first second part
      ⟨id, target, .image, external⟩ ⟨id, target', .image, external⟩
  | missing {id target : String} {external : Bool}
      (isOld : ⟨id, target, .image, external⟩ ∈ start.relationshipsOf part)
      (isMissing : start.mediaBytes? target = none) : Corresponds start first second part
      ⟨id, target, .image, external⟩ ⟨id, target, .image, external⟩

namespace Relationship.Corresponds

variable {relationship relationship' : Relationship}

theorem grows (corresponds : Corresponds start first second part relationship relationship')
    (grows : first.Grows first') (grows' : second.Grows second') :
    Corresponds start first' second' part relationship relationship' := by
  cases corresponds with
  | link => exact .link
  | image isStored isStored' => exact .image (grows.mediaBytes? isStored) (grows'.mediaBytes? isStored')
  | missing isOld isMissing => exact .missing isOld isMissing

end Relationship.Corresponds

namespace Resources

/-- The relationships of a part serve alike in two packages that were filled from the same start. -/
def Match (start first second : Resources) (part : String) : Prop :=
  List.Forall₂ (Relationship.Corresponds start first second part) (first.relationshipsOf part)
    (second.relationshipsOf part)

/-- Relationships that match go on matching while other parts are filled. -/
theorem Match.grows (isMatch : Match start first second part)
    (grows : first.Grows first') (grows' : second.Grows second')
    (relationships_eq : first'.relationshipsOf part = first.relationshipsOf part)
    (relationships_eq' : second'.relationshipsOf part = second.relationshipsOf part) :
    Match start first' second' part := by
  rw [Match, relationships_eq, relationships_eq']
  exact isMatch.imp fun _ _ corresponds => corresponds.grows grows grows'

theorem Match.nextId_eq (isMatch : Match start first second part) :
    first.nextId part = second.nextId part := by
  rw [nextId, nextId, isMatch.length_eq]

/-- Two relationships that are added at once match if they correspond. -/
theorem Match.related (isMatch : Match start first second part) {target target' : String}
    {kind : RelationshipKind} {external : Bool}
    (corresponds : Relationship.Corresponds start (first.related part target kind external)
      (second.related part target' kind external) part
      ⟨first.nextId part, target, kind, external⟩ ⟨first.nextId part, target', kind, external⟩) :
    Match start (first.related part target kind external) (second.related part target' kind external)
      part := by
  have old : List.Forall₂ (Relationship.Corresponds start (first.related part target kind external)
      (second.related part target' kind external) part) (first.relationshipsOf part)
      (second.relationshipsOf part) :=
    isMatch.imp fun _ _ corresponds => corresponds.grows .of_related .of_related
  have added : second.newRelationship part target' kind external =
      ⟨first.nextId part, target', kind, external⟩ := by
    rw [isMatch.nextId_eq]
    rfl
  rw [Match, relationshipsOf_related, relationshipsOf_related, added]
  exact List.rel_append old (.cons corresponds .nil)

/-- What is done while a part is filled adds no relationship to any other part. -/
structure GrowsBeside (part : String) (start after : Resources) : Prop where
  made : after.Made
  grows : start.Grows after
  relationships_eq : after.relationshipsOf part = start.relationshipsOf part

end Resources

/-! ## Ledgers -/

/-- The ledger of a run that fills one part, as seen by another part. -/
def Ledger.beside (part : String) (start : Resources) : Ledger where
  related first second := first = second ∧ start.GrowsBeside part first
  allowed _ _ _ := True

namespace Package

variable {package package' : Package}

/-- A package has the parts of an earlier one, and its resources grew beside a part. -/
structure Passes (part : String) (package start : Package) : Prop where
  parts_eq : package.parts = start.parts
  beside : start.resources.GrowsBeside part package.resources

end Package

namespace Processor

variable {processor : Processor} {data : Data.Value} {session after after' : Session}

/-- Two pictures. -/
def pictures : Data.Value := .object [("x", Picture.value "AQ=="), ("y", Picture.value "Ag==")]

end Processor

end WordTemplate
