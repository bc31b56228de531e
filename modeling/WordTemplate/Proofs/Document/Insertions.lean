import WordTemplate.Proofs.Document.Order
import WordTemplate.Proofs.Document.Steps

/-!
# Insertions

An insertion that succeeds moves one node to the place that was asked for. An insertion that fails
leaves the document as it is, with one exception: a node that is to be put beside itself is taken
out of its place before the insertion fails, since the place is only looked up afterwards.
-/

namespace WordTemplate

namespace Edit

open Outcome

variable {document document' : Document} {node reference : NodeId} {offset : Nat}
  {cause : DocumentError}

/-- A move beside another node that fails leaves the document as it is. -/
theorem insertBeside_failed_of_ne (wellFormed : document.WellFormed) (differ : node ≠ reference)
    (failed : insertBeside offset node reference document = .error cause document') :
    document' = document := by
  rcases bind_eq_error.mp failed with notFound | ⟨parent, found, isFound, notPlaced⟩
  · exact parentOf_failed notFound
  rcases parentOf_eq_ok.mp isFound with ⟨isParent, rfl⟩
  rcases bind_eq_error.mp notPlaced with isCycle | ⟨_, checked, isChecked, -⟩
  · exact checkCycle_failed isCycle
  -- Past these two checks the move succeeds.
  rcases (checkCycle_eq_ok wellFormed).mp isChecked with ⟨outside, rfl⟩
  have done : insertBeside offset node reference document = .ok ⟨⟩ _ :=
    (insertBeside_eq_ok wellFormed).mpr ⟨parent, isParent, differ, outside, rfl⟩
  rw [done] at failed
  cases failed

/-- A node cannot be put beside itself, and the attempt takes it out of its place. -/
theorem insertBeside_self (wellFormed : document.WellFormed) (offset : Nat) (node : NodeId) :
    insertBeside offset node node document = .error (.detached node) (document.detach node) := by
  rw [insertBeside]
  rcases isParent : document.parent node with _ | parent
  · have notFound : parentOf node document = .error (.detached node) document := by
      simp only [parentOf, get_bind, isParent]
      rfl
    rw [Document.detach_of_parent_none isParent]
    exact bind_eq_error.mpr (.inl notFound)
  · have found : parentOf node document = .ok parent document := parentOf_eq_ok.mpr ⟨isParent, rfl⟩
    have checked : checkCycle parent node document = .ok ⟨⟩ document :=
      (checkCycle_eq_ok wellFormed).mpr ⟨Document.not_liesIn_of_parent wellFormed isParent, rfl⟩
    have taken : detach node document = .ok ⟨⟩ (document.detach node) := rfl
    have isDetached : (document.detach node).parent node = none := by
      simp [Document.parent_detach wellFormed]
    have unplaced : indexOf node (document.detach node) =
        .error (.detached node) (document.detach node) := by
      simp only [indexOf, get_bind, Document.childIndex?_of_parent_none isDetached]
      rfl
    rw [bind_of_ok found, bind_of_ok checked, bind_of_ok taken]
    exact bind_eq_error.mpr (.inl unplaced)

/-- A failed move beside a reference changes the document only if the reference is the node. -/
theorem insertBeside_failed_cases (wellFormed : document.WellFormed)
    (failed : insertBeside offset node reference document = .error cause document') :
    (reference ≠ node → document' = document) ∧
      (reference = node → document' = document.detach node) := by
  refine ⟨fun differ => insertBeside_failed_of_ne wellFormed differ.symm failed, ?_⟩
  rintro rfl
  rw [insertBeside_self wellFormed] at failed
  cases failed
  rfl

end Edit

/-- A place that a node can be put at. -/
inductive Insertion where
  | last (parent : NodeId)
  | nth (parent : NodeId) (index : Nat)
  | before (reference : NodeId)
  | after (reference : NodeId)

namespace Insertion

/-- Puts a node at the place. -/
def run (node : NodeId) : Insertion → Edit Unit
  | last parent => Edit.appendChild parent node
  | nth parent index => Edit.insertChild parent index node
  | before reference => Edit.insertBefore node reference
  | after reference => Edit.insertAfter node reference

/-- The node that the place is told by. -/
def target : Insertion → NodeId
  | last parent | nth parent _ => parent
  | before reference | after reference => reference

/-- The place lies beside the node. -/
def IsBeside (node : NodeId) : Insertion → Prop
  | last _ | nth _ _ => False
  | before reference | after reference => reference = node

/-- The place lies between `left` and `right` below `parent`. -/
def IsAt (document : Document) (parent : NodeId) (left right : List NodeId) : Insertion → Prop
  | last target => parent = target ∧ right = []
  | nth target index => parent = target ∧ left.length = min index (left ++ right).length
  | before reference => document.parent reference = some parent ∧ right.head? = some reference
  | after reference => document.parent reference = some parent ∧ left.getLast? = some reference

variable {document document' : Document} {node : NodeId} {insertion : Insertion}
  {cause : DocumentError}

/-- A successful insertion moves the node to the place asked for and changes nothing else. -/
theorem moves_of_run (wellFormed : document.WellFormed)
    (targetInStore : insertion.target.index < document.size)
    (inStore : node.index < document.size)
    (done : insertion.run node document = .ok ⟨⟩ document') :
    ∃ parent left right, insertion.IsAt document parent left right ∧
      Document.Moves document document' node parent left right := by
  cases insertion with
  | last parent =>
      exact ⟨_, _, _, ⟨rfl, rfl⟩, Edit.moves_of_appendChild wellFormed targetInStore inStore done⟩
  | nth parent index =>
      refine ⟨_, _, _, ⟨rfl, ?_⟩, Edit.moves_of_insertChild wellFormed targetInStore inStore done⟩
      rw [List.take_append_drop, List.length_take]
  | before reference =>
      rcases Edit.moves_of_insertBefore wellFormed inStore done with
        ⟨parent, left, right, isParent, -, moves⟩
      exact ⟨parent, left, _, ⟨isParent, rfl⟩, moves⟩
  | after reference =>
      rcases Edit.moves_of_insertAfter wellFormed inStore done with
        ⟨parent, left, right, isParent, -, moves⟩
      exact ⟨parent, _, right, ⟨isParent, List.getLast?_concat⟩, moves⟩

/-- A failed insertion changes the document exactly by taking out a node that was to be put beside
itself. -/
theorem run_failed (wellFormed : document.WellFormed)
    (failed : insertion.run node document = .error cause document') :
    (¬insertion.IsBeside node → document' = document) ∧
      (insertion.IsBeside node → document' = document.detach node) := by
  cases insertion with
  | last parent => exact ⟨fun _ => Edit.appendChild_failed failed, nofun⟩
  | nth parent index => exact ⟨fun _ => Edit.insertChild_failed failed, nofun⟩
  | before reference => exact Edit.insertBeside_failed_cases wellFormed failed
  | after reference => exact Edit.insertBeside_failed_cases wellFormed failed

end Insertion

end WordTemplate
