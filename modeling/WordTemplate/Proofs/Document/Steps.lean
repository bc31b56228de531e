import WordTemplate.Document.Copy
import WordTemplate.Proofs.Document.Moves
import WordTemplate.Proofs.Outcome

/-!
# Steps of edits

Every insertion moves one node to a place between two stretches of the children of a node;
`Document.Moves` describes the document afterwards. The lemmas on the insertions of `Edit` say when
they succeed and which move they make.
-/

namespace WordTemplate

namespace Document

variable {document document' : Document} {id other top parent child node : NodeId}
  {left right : List NodeId}

/-- `after` is `before` with `node` moved below `parent`, to the place between `left` and `right`. -/
structure Moves (before after : Document) (node parent : NodeId) (left right : List NodeId) :
    Prop where
  wellFormed : after.WellFormed
  outside : ¬before.LiesIn node parent
  size_eq : after.size = before.size
  root_eq : after.root = before.root
  content_eq : ∀ id, after.content id = before.content id
  parent_eq : ∀ id, after.parent id = if id = node then some parent else before.parent id
  children_eq : ∀ id, after.children id =
    if id = parent then left ++ node :: right else (before.children id).filter (· != node)
  others_eq : (before.children parent).filter (· != node) = left ++ right

theorem filter_children_of_parent_none (wellFormed : document.WellFormed)
    (detached : document.parent node = none) (id : NodeId) :
    (document.children id).filter (· != node) = document.children id := by
  rw [← children_detach wellFormed, detach_of_parent_none detached]

/-- Only the parent of a node lists it among its children. -/
theorem filter_children_of_ne (wellFormed : document.WellFormed)
    (notParent : document.parent node ≠ some id) :
    (document.children id).filter (· != node) = document.children id := by
  refine List.filter_eq_self.mpr fun child isChild => ?_
  rw [bne_iff_ne]
  rintro rfl
  exact notParent ((wellFormed.mem_children_iff _ _).mp isChild)

theorem liesIn_of_liesIn_detach (wellFormed : document.WellFormed)
    (inside : (document.detach node).LiesIn top id) : document.LiesIn top id := by
  induction inside using Relation.ReflTransGen.head_induction_on with
  | refl => exact LiesIn.refl
  | head isParent _ above =>
      rw [parent_detach wellFormed] at isParent
      split at isParent
      · simp at isParent
      · exact LiesIn.of_parent isParent above

theorem insertIdx_min_length (nodes : List NodeId) (index : Nat) (node : NodeId) :
    nodes.insertIdx (min index nodes.length) node =
      nodes.take index ++ node :: nodes.drop index := by
  induction nodes generalizing index with
  | nil => simp
  | cons first rest inductionHypothesis =>
      rcases index with _ | index
      · simp
      · simp only [List.length_cons, Nat.add_min_add_right, List.insertIdx_succ_cons,
          inductionHypothesis, List.take_succ_cons, List.drop_succ_cons, List.cons_append]

/-- Detaching a node and placing it elsewhere is a move. -/
theorem moves_place (wellFormed : document.WellFormed)
    (parentInStore : parent.index < document.size) (inStore : node.index < document.size)
    (outside : ¬document.LiesIn node parent) (index : Nat) :
    Moves document ((document.detach node).place parent index node) node parent
      (((document.children parent).filter (· != node)).take index)
      (((document.children parent).filter (· != node)).drop index) := by
  have differ : node ≠ parent := by
    rintro rfl
    exact outside LiesIn.refl
  have detachedFormed := wellFormed.detach node
  have parentInStore' : parent.index < (document.detach node).size := by
    rwa [size_detach]
  have inStore' : node.index < (document.detach node).size := by rwa [size_detach]
  refine ⟨?_, outside, ?_, ?_, ?_, ?_, ?_, by simp⟩
  · refine detachedFormed.place parentInStore' inStore' ?_ ?_ index
    · simp [parent_detach wellFormed]
    · exact fun inside => outside (liesIn_of_liesIn_detach wellFormed inside)
  · simp [size_detach]
  · simp [root_detach]
  · intro id
    rw [content_place parentInStore' inStore' differ, content_detach wellFormed]
  · intro id
    rw [parent_place parentInStore' inStore' differ, parent_detach wellFormed]
    split <;> rfl
  · intro id
    rw [children_place parentInStore' inStore' differ, children_detach wellFormed,
      insertIdx_min_length]
    split
    · subst id
      rfl
    · rfl

theorem childIndex?_of_parent (wellFormed : document.WellFormed)
    (isParent : document.parent id = some parent) :
    document.childIndex? id = some ((document.children parent).idxOf id) := by
  have isChild := (wellFormed.mem_children_iff _ _).mpr isParent
  have position := List.idxOf_lt_length_of_mem isChild
  rw [childIndex?, siblings, isParent]
  simp only [List.idxOf?_eq_some_iff]
  refine ⟨position, by simp, fun earlier isEarlier => ?_⟩
  simpa using List.not_of_lt_findIdx (p := (· == id)) isEarlier

theorem childIndex?_of_parent_none (detached : document.parent id = none) :
    document.childIndex? id = none := by
  simp [childIndex?, siblings, detached]

end Document

namespace Edit

open Outcome

variable {document document' : Document} {id other parent child node reference : NodeId}
  {result : Unit} {index offset : Nat}

theorem create_eq_ok {content : Content} :
    create content document = .ok id document' ↔
      id = document.nextId ∧ document' = document.add content := by
  simp [create, eq_comm]

theorem createElement_eq_ok {name : String} :
    createElement name document = .ok id document' ↔
      id = document.nextId ∧ document' = document.add (.element { name }) :=
  create_eq_ok

theorem createText_eq_ok {characters : String} :
    createText characters document = .ok id document' ↔
      id = document.nextId ∧ document' = document.add (.text characters) :=
  create_eq_ok

theorem copyNode_eq_ok :
    copyNode id document = .ok other document' ↔
      other = document.nextId ∧ document' = document.add (document.content id) := by
  simp [copyNode, create_eq_ok]

theorem setText_eq_ok {characters : String} :
    setText id characters document = .ok result document' ↔
      document.isText id = true ∧ document' = document.setContent id (.text characters) := by
  simp only [setText, get_bind]
  by_cases isText : document.isText id = true
  · simp [isText, eq_comm (a := document')]
  · simp [isText]

theorem setAttribute_eq_ok {key value : String} :
    setAttribute id key value document = .ok result document' ↔
      document' = document.setAttribute id key value := by
  rw [setAttribute, modify_eq_ok, eq_comm]

theorem detach_eq_ok :
    detach id document = .ok result document' ↔ document' = document.detach id := by
  rw [detach, modify_eq_ok, eq_comm]

theorem parentOf_eq_ok :
    parentOf id document = .ok parent document' ↔
      document.parent id = some parent ∧ document = document' := by
  simp only [parentOf, get_bind]
  rcases document.parent id with _ | found
  · simp
  · simp

theorem indexOf_eq_ok :
    indexOf id document = .ok index document' ↔
      document.childIndex? id = some index ∧ document = document' := by
  simp only [indexOf, get_bind]
  rcases document.childIndex? id with _ | found
  · simp
  · simp

theorem checkCycle_eq_ok (wellFormed : document.WellFormed) :
    checkCycle parent node document = .ok result document' ↔
      ¬document.LiesIn node parent ∧ document = document' := by
  rw [← Document.contains_iff wellFormed]
  simp only [checkCycle, get_bind]
  by_cases inside : document.contains node parent = true
  · simp [inside]
  · simp [inside]

theorem appendChild_eq_ok (wellFormed : document.WellFormed) :
    appendChild parent child document = .ok result document' ↔
      ¬document.LiesIn child parent ∧
        document' = (document.detach child).placeLast parent child := by
  simp only [appendChild, bind_eq_ok, modify_eq_ok, checkCycle_eq_ok wellFormed]
  constructor
  · rintro ⟨_, _, ⟨outside, rfl⟩, rfl⟩
    exact ⟨outside, rfl⟩
  · rintro ⟨outside, rfl⟩
    exact ⟨⟨⟩, document, ⟨outside, rfl⟩, rfl⟩

theorem insertChild_eq_ok (wellFormed : document.WellFormed) :
    insertChild parent index child document = .ok result document' ↔
      ¬document.LiesIn child parent ∧
        document' = (document.detach child).place parent index child := by
  simp only [insertChild, bind_eq_ok, modify_eq_ok, checkCycle_eq_ok wellFormed]
  constructor
  · rintro ⟨_, _, ⟨outside, rfl⟩, rfl⟩
    exact ⟨outside, rfl⟩
  · rintro ⟨outside, rfl⟩
    exact ⟨⟨⟩, document, ⟨outside, rfl⟩, rfl⟩

/-- Appending succeeds outside the subtree of the child and moves the child to the end. -/
theorem moves_of_appendChild (wellFormed : document.WellFormed)
    (parentInStore : parent.index < document.size) (inStore : child.index < document.size)
    (done : appendChild parent child document = .ok result document') :
    Document.Moves document document' child parent
      ((document.children parent).filter (· != child)) [] := by
  rcases (appendChild_eq_ok wellFormed).mp done with ⟨outside, rfl⟩
  have moved := Document.moves_place wellFormed parentInStore inStore outside
    (((document.detach child).children parent).length)
  rwa [Document.children_detach wellFormed, List.take_length, List.drop_length,
    ← Document.children_detach wellFormed, ← Document.placeLast,
    Document.children_detach wellFormed] at moved

theorem moves_of_insertChild (wellFormed : document.WellFormed)
    (parentInStore : parent.index < document.size) (inStore : child.index < document.size)
    (done : insertChild parent index child document = .ok result document') :
    Document.Moves document document' child parent
      (((document.children parent).filter (· != child)).take index)
      (((document.children parent).filter (· != child)).drop index) := by
  rcases (insertChild_eq_ok wellFormed).mp done with ⟨outside, rfl⟩
  exact Document.moves_place wellFormed parentInStore inStore outside index

/-- A node is moved beside a reference that has a parent, is another node and does not lie in it. -/
theorem insertBeside_eq_ok (wellFormed : document.WellFormed) :
    insertBeside offset node reference document = .ok result document' ↔
      ∃ parent, document.parent reference = some parent ∧ node ≠ reference ∧
        ¬document.LiesIn node parent ∧
        document' = (document.detach node).place parent
          (((document.children parent).filter (· != node)).idxOf reference + offset) node := by
  have detachedFormed := wellFormed.detach node
  simp only [insertBeside, bind_eq_ok, parentOf_eq_ok, detach_eq_ok, indexOf_eq_ok]
  constructor
  · rintro ⟨parent, _, ⟨isParent, rfl⟩, _, _, checked, _, _, rfl, index, _, ⟨isIndex, rfl⟩, done⟩
    rcases (checkCycle_eq_ok wellFormed).mp checked with ⟨outside, rfl⟩
    rcases (insertChild_eq_ok detachedFormed).mp done with ⟨-, rfl⟩
    have differ : node ≠ reference := by
      rintro rfl
      rw [Document.childIndex?_of_parent_none (by simp [Document.parent_detach wellFormed])]
        at isIndex
      simp at isIndex
    refine ⟨parent, isParent, differ, outside, ?_⟩
    have isParent' : (document.detach node).parent reference = some parent := by
      simp [Document.parent_detach wellFormed, differ.symm, isParent]
    rw [Document.childIndex?_of_parent detachedFormed isParent', Document.children_detach wellFormed,
      Option.some.injEq] at isIndex
    have isDetached : (document.detach node).parent node = none := by
      simp [Document.parent_detach wellFormed]
    rw [Document.detach_of_parent_none isDetached, isIndex]
  · rintro ⟨parent, isParent, differ, outside, rfl⟩
    have isParent' : (document.detach node).parent reference = some parent := by
      simp [Document.parent_detach wellFormed, differ.symm, isParent]
    have isDetached : (document.detach node).parent node = none := by
      simp [Document.parent_detach wellFormed]
    refine ⟨parent, document, ⟨isParent, rfl⟩, ⟨⟩, document,
      (checkCycle_eq_ok wellFormed).mpr ⟨outside, rfl⟩, ⟨⟩, _, rfl, _, _,
      ⟨Document.childIndex?_of_parent detachedFormed isParent', rfl⟩, ?_⟩
    refine (insertChild_eq_ok detachedFormed).mpr ⟨?_, ?_⟩
    · exact fun inside => outside (Document.liesIn_of_liesIn_detach wellFormed inside)
    · rw [Document.detach_of_parent_none isDetached, Document.children_detach wellFormed]

theorem parentOf_failed {cause : DocumentError}
    (failed : parentOf id document = .error cause document') : document' = document := by
  simp only [parentOf, get_bind] at failed
  cases isFound : document.parent id <;> rw [isFound] at failed <;> cases failed
  rfl

theorem indexOf_failed {cause : DocumentError}
    (failed : indexOf id document = .error cause document') : document' = document := by
  simp only [indexOf, get_bind] at failed
  cases isFound : document.childIndex? id <;> rw [isFound] at failed <;> cases failed
  rfl

theorem checkCycle_failed {cause : DocumentError}
    (failed : checkCycle parent node document = .error cause document') :
    document' = document := by
  simp only [checkCycle, get_bind] at failed
  split at failed <;> cases failed
  rfl

theorem appendChild_failed {cause : DocumentError}
    (failed : appendChild parent child document = .error cause document') :
    document' = document := by
  rcases bind_eq_error.mp failed with failed | ⟨_, _, -, ⟨⟩⟩
  exact checkCycle_failed failed

theorem insertChild_failed {cause : DocumentError}
    (failed : insertChild parent index child document = .error cause document') :
    document' = document := by
  rcases bind_eq_error.mp failed with failed | ⟨_, _, -, ⟨⟩⟩
  exact checkCycle_failed failed

/-- A move beside a reference that fails has at most taken the node out of its old place. -/
theorem insertBeside_failed {cause : DocumentError}
    (failed : insertBeside offset node reference document = .error cause document') :
    document' = document ∨ document' = document.detach node := by
  rcases bind_eq_error.mp failed with failed | ⟨parent, _, isParent, failed⟩
  · exact Or.inl (parentOf_failed failed)
  rcases parentOf_eq_ok.mp isParent with ⟨-, rfl⟩
  rcases bind_eq_error.mp failed with failed | ⟨_, checked, isOutside, failed⟩
  · exact Or.inl (checkCycle_failed failed)
  have same : document = checked := by
    simp only [checkCycle, get_bind] at isOutside
    split at isOutside <;> cases isOutside
    rfl
  subst same
  rcases bind_eq_error.mp failed with ⟨⟨⟩⟩ | ⟨_, _, detached, failed⟩
  rw [detach_eq_ok] at detached
  subst detached
  rcases bind_eq_error.mp failed with failed | ⟨position, _, isIndex, failed⟩
  · exact Or.inr (indexOf_failed failed)
  rcases indexOf_eq_ok.mp isIndex with ⟨-, rfl⟩
  exact Or.inr (insertChild_failed failed)

/-- The children of a node around one of them, without another node. -/
theorem exists_around_reference (wellFormed : document.WellFormed)
    (isParent : document.parent reference = some parent) (differ : node ≠ reference) :
    ∃ left right, (document.children parent).filter (· != node) = left ++ reference :: right ∧
      ((document.children parent).filter (· != node)).idxOf reference = left.length := by
  have isChild : reference ∈ (document.children parent).filter (· != node) := by
    simp [wellFormed.mem_children_iff, isParent, differ.symm]
  rcases List.append_of_mem isChild with ⟨left, right, around⟩
  refine ⟨left, right, around, ?_⟩
  have nodup := (wellFormed.nodup_children parent).filter (· != node)
  rw [around] at nodup ⊢
  have notBefore : reference ∉ left := by
    intro isBefore
    exact List.nodup_append.mp nodup |>.2.2 reference isBefore reference List.mem_cons_self rfl
  rw [List.idxOf_append]
  simp [notBefore]

theorem moves_of_insertBefore (wellFormed : document.WellFormed)
    (inStore : node.index < document.size)
    (done : insertBefore node reference document = .ok result document') :
    ∃ parent left right, document.parent reference = some parent ∧ node ≠ reference ∧
      Document.Moves document document' node parent left (reference :: right) := by
  rcases (insertBeside_eq_ok wellFormed).mp done with
    ⟨parent, isParent, differ, outside, rfl⟩
  rcases exists_around_reference wellFormed isParent differ with ⟨left, right, around, position⟩
  refine ⟨parent, left, right, isParent, differ, ?_⟩
  have moved := Document.moves_place wellFormed (Document.parent_lt_size wellFormed isParent)
    inStore outside left.length
  rw [Nat.add_zero, position]
  rwa [around, List.take_left, List.drop_left] at moved

theorem moves_of_insertAfter (wellFormed : document.WellFormed)
    (inStore : node.index < document.size)
    (done : insertAfter node reference document = .ok result document') :
    ∃ parent left right, document.parent reference = some parent ∧ node ≠ reference ∧
      Document.Moves document document' node parent (left ++ [reference]) right := by
  rcases (insertBeside_eq_ok wellFormed).mp done with
    ⟨parent, isParent, differ, outside, rfl⟩
  rcases exists_around_reference wellFormed isParent differ with ⟨left, right, around, position⟩
  refine ⟨parent, left, right, isParent, differ, ?_⟩
  have moved := Document.moves_place wellFormed (Document.parent_lt_size wellFormed isParent)
    inStore outside (left.length + 1)
  rw [position]
  have split : left ++ reference :: right = (left ++ [reference]) ++ right := by simp
  have length : left.length + 1 = (left ++ [reference]).length := by simp
  rwa [around, split, length, List.take_left, List.drop_left, ← length] at moved

end Edit

end WordTemplate
