import WordTemplate.Proofs.Word.Intact

/-!
# Sequences of operations

The store of a document is consistent after every sequence of operations on it, whether they
succeed or fail: parents and child lists agree, addresses stay inside the store, and no node lies
below itself.
-/

namespace WordTemplate

/-! ## Operations -/

/-- An operation that a document offers. -/
inductive Operation where
  | createElement (name : String)
  | createElementWith (element : Element)
  | createText (characters : String)
  | createMarkup (raw : String)
  | setText (id : NodeId) (characters : String)
  | setAttribute (id : NodeId) (key value : String)
  | detach (id : NodeId)
  | appendChild (parent child : NodeId)
  | insertChild (parent : NodeId) (index : Nat) (child : NodeId)
  | insertBefore (node reference : NodeId)
  | insertAfter (node reference : NodeId)
  | copyNode (id : NodeId)
  | copySubtree (id : NodeId)
  | removeBetween (first last : NodeId)
  | readFragment (source : String)
  | splitText (id : NodeId) (offset : Nat)
  | joinText (start stop : NodeId)
  | splitParagraph (paragraph textNode : NodeId) (removesText : Bool)
  | joinParagraphs (first second : NodeId)

namespace Operation

/-- What an operation does, without its result. -/
def edit : Operation → Edit Unit
  | createElement name => discard (Edit.createElement name)
  | createElementWith element => discard (Edit.create (.element element))
  | createText characters => discard (Edit.createText characters)
  | createMarkup raw => discard (Edit.createMarkup raw)
  | setText id characters => Edit.setText id characters
  | setAttribute id key value => Edit.setAttribute id key value
  | detach id => Edit.detach id
  | appendChild parent child => Edit.appendChild parent child
  | insertChild parent index child => Edit.insertChild parent index child
  | insertBefore node reference => Edit.insertBefore node reference
  | insertAfter node reference => Edit.insertAfter node reference
  | copyNode id => discard (Edit.copyNode id)
  | copySubtree id => discard (Edit.copySubtree id)
  | removeBetween first last => discard (Edit.removeBetween first last)
  | readFragment source => discard (Edit.readFragment source)
  | splitText id offset => discard (Edit.splitText id offset)
  | joinText start stop => Edit.joinText start stop
  | splitParagraph paragraph textNode removesText =>
      discard (Edit.splitParagraph paragraph textNode removesText)
  | joinParagraphs first second => Edit.joinParagraphs first second

/-- The addresses that an operation is given. -/
def ids : Operation → List NodeId
  | createElement _ | createElementWith _ | createText _ | createMarkup _ | readFragment _ => []
  | setText id _ | setAttribute id _ _ | detach id | copyNode id | copySubtree id
  | splitText id _ => [id]
  | appendChild parent child | insertChild parent _ child => [parent, child]
  | insertBefore node reference | insertAfter node reference => [node, reference]
  | removeBetween first last | joinText first last | joinParagraphs first last => [first, last]
  | splitParagraph paragraph textNode _ => [paragraph, textNode]

/-- The node that an operation is asked to put below another one. -/
def inserted? : Operation → Option NodeId
  | appendChild _ child | insertChild _ _ child => some child
  | insertBefore node _ | insertAfter node _ => some node
  | _ => none

/-- The document after an operation that succeeded or failed. -/
def perform (operation : Operation) (document : Document) : Document :=
  match operation.edit document with
  | .ok _ after => after
  | .error _ after => after

/-- Whether an operation succeeds. -/
def succeeds (operation : Operation) (document : Document) : Bool :=
  match operation.edit document with
  | .ok _ _ => true
  | .error _ _ => false

/-- The operation puts the root of the document below another node. -/
def InsertsRoot (operation : Operation) (document : Document) : Prop :=
  operation.inserted? = some document.root ∧ operation.succeeds document = true

/-- The document after several operations. -/
def performAll : List Operation → Document → Document
  | [], document => document
  | operation :: later, document => performAll later (operation.perform document)

/-- Every operation is given addresses of nodes that are in the store by then. -/
def AllValid : List Operation → Document → Prop
  | [], _ => True
  | operation :: later, document =>
      (∀ id ∈ operation.ids, id.index < document.size) ∧
        AllValid later (operation.perform document)

/-- Some operation puts the root of the document below another node. -/
def RootInserted : List Operation → Document → Prop
  | [], _ => False
  | operation :: later, document =>
      operation.InsertsRoot document ∨ RootInserted later (operation.perform document)

end Operation

/-! ## Consistency -/

/-- The tree stored in a document makes sense. -/
structure Document.Consistent (document : Document) : Prop where
  root_lt : document.root.index < document.size
  parent_lt : ∀ id parent, document.parent id = some parent → parent.index < document.size
  child_lt : ∀ id, ∀ child ∈ document.children id, child.index < document.size
  count_children : ∀ parent child,
    (document.children parent).count child =
      if document.parent child = some parent then 1 else 0
  acyclic : ∀ id,
    ¬Relation.TransGen (fun child parent => document.parent child = some parent) id id

namespace Document

variable {document : Document}

theorem WellFormed.consistent (wellFormed : document.WellFormed) : document.Consistent where
  root_lt := wellFormed.root_lt
  parent_lt _ _ isParent := parent_lt_size wellFormed isParent
  child_lt id child isChild := lt_size_of_parent ((wellFormed.mem_children_iff id child).mp isChild)
  count_children parent child := by
    rw [(wellFormed.nodup_children parent).count]
    exact if_congr (wellFormed.mem_children_iff parent child) rfl rfl
  acyclic id around := by
    rcases Relation.TransGen.head'_iff.mp around with ⟨parent, isParent, above⟩
    exact not_liesIn_of_parent wellFormed isParent above

theorem WellFormed.withNewRoot (wellFormed : document.WellFormed) {root : NodeId}
    (inStore : root.index < document.size) (prolog : Option String) :
    ({ document.withNewRoot root with prolog } : Document).WellFormed where
  mem_children_iff := (wellFormed.detach root).mem_children_iff
  nodup_children := (wellFormed.detach root).nodup_children
  layered := (wellFormed.detach root).layered
  root_lt := by
    have inStore' : root.index < (document.detach root).size := by rwa [size_detach]
    exact inStore'

/-- A document whose root is the topmost node of a tree. -/
def ofTree (tree : Tree) : Document :=
  ((withRoot containerName).plant tree).withNewRoot (withRoot containerName).nextId

theorem wellFormed_ofTree (tree : Tree) : (ofTree tree).WellFormed := by
  have planted := fresh_plant tree (wellFormed_withRoot containerName)
  exact planted.wellFormed.withNewRoot planted.inStore (ofTree tree).prolog

theorem mem_of_splitProlog {children : List NodeId} {prolog : String} {root : NodeId}
    (found : document.splitProlog children = (prolog, some root)) : root ∈ children := by
  induction children generalizing prolog with
  | nil => simp [splitProlog] at found
  | cons child rest inductionHypothesis =>
      rw [splitProlog] at found
      split at found
      · simp only [Prod.mk.injEq, Option.some.injEq] at found
        exact found.2 ▸ List.mem_cons_self
      · simp only [Prod.mk.injEq] at found
        exact List.mem_cons_of_mem _ (inductionHypothesis (Prod.ext rfl found.2))
      · exact List.mem_cons_of_mem _ (inductionHypothesis found)

/-- A document that was read is well-formed, and its root has no parent. -/
theorem wellFormed_of_read {source : String} (isRead : read source = .ok document) :
    document.WellFormed ∧ document.parent document.root = none := by
  -- Seen from a store without nodes, the container itself is new.
  let nothing : Document := { nodes := #[], root := ⟨0⟩ }
  have container : Adds nothing (withRoot containerName) :=
    ⟨⟨Nat.zero_le _, fun _ outside => absurd outside (Nat.not_lt_zero _)⟩,
      wellFormed_withRoot containerName, rfl⟩
  have inside : ∀ child parent, nothing.parent child = some parent →
      parent.index < nothing.size := by
    intro child parent isParent
    simp [nothing, Document.parent, Document.node] at isParent
  have grown := addsTo_addEvents container inside (Nat.zero_le _) Nat.zero_lt_one
    (Markup.Reading.of source).events
  simp only [read] at isRead
  split at isRead
  · cases isRead
  · split at isRead
    · cases isRead
    · next prolog root found =>
        have isChild := mem_of_splitProlog found
        have isParent := (grown.wellFormed.mem_children_iff _ _).mp isChild
        cases isRead
        refine ⟨grown.wellFormed.withNewRoot (lt_size_of_parent isParent) _, ?_⟩
        have detached := parent_detach grown.wellFormed root root
        rwa [if_pos rfl] at detached

end Document

namespace Operation

variable {document : Document}

/-- Every operation on nodes of the store keeps the document intact. A root without a parent is
spared unless it is the node to be inserted. -/
theorem keepsIntact_edit (operation : Operation) (wellFormed : document.WellFormed)
    (valid : ∀ id ∈ operation.ids, id.index < document.size) :
    Edit.KeepsIntact (document.parent document.root = none ∧
        operation.inserted? ≠ some document.root)
      operation.edit document fun _ _ => True := by
  cases operation with
  | createElement name => exact (Edit.keepsIntact_create wellFormed _).discard
  | createElementWith element => exact (Edit.keepsIntact_create wellFormed _).discard
  | createText characters => exact (Edit.keepsIntact_create wellFormed _).discard
  | createMarkup raw => exact (Edit.keepsIntact_create wellFormed _).discard
  | setText id characters => exact Edit.keepsIntact_setText wellFormed id characters
  | setAttribute id key value => exact Edit.keepsIntact_setAttribute wellFormed id key value
  | detach id => exact Edit.keepsIntact_detach wellFormed id
  | appendChild parent child =>
      exact Edit.keepsIntact_appendChild wellFormed (valid parent (by simp [ids]))
        (valid child (by simp [ids])) fun spared same => spared.2 (congrArg some same)
  | insertChild parent index child =>
      exact Edit.keepsIntact_insertChild wellFormed (valid parent (by simp [ids]))
        (valid child (by simp [ids])) (fun spared same => spared.2 (congrArg some same)) index
  | insertBefore node reference =>
      exact Edit.keepsIntact_insertBeside wellFormed (valid node (by simp [ids]))
        (fun spared same => spared.2 (congrArg some same)) 0 reference
  | insertAfter node reference =>
      exact Edit.keepsIntact_insertBeside wellFormed (valid node (by simp [ids]))
        (fun spared same => spared.2 (congrArg some same)) 1 reference
  | copyNode id => exact (Edit.keepsIntact_copyNode wellFormed id).discard
  | copySubtree id =>
      exact (Edit.keepsIntact_copySubtree wellFormed (valid id (by simp [ids]))).discard
  | removeBetween first last => exact (Edit.keepsIntact_removeBetween wellFormed first last).discard
  | readFragment source => exact (Edit.keepsIntact_readFragment wellFormed source).discard
  | splitText id offset => exact (Edit.keepsIntact_splitText wellFormed id offset).discard
  | joinText start stop => exact Edit.keepsIntact_joinText wellFormed start stop
  | splitParagraph paragraph textNode removesText =>
      exact (Edit.keepsIntact_splitParagraph wellFormed And.left paragraph textNode
        removesText).discard
  | joinParagraphs first second =>
      exact Edit.keepsIntact_joinParagraphs wellFormed And.left (valid first (by simp [ids]))

theorem intact_perform (operation : Operation) (wellFormed : document.WellFormed)
    (valid : ∀ id ∈ operation.ids, id.index < document.size) :
    document.Intact (document.parent document.root = none ∧
      operation.inserted? ≠ some document.root) (operation.perform document) := by
  have keeps := operation.keepsIntact_edit wellFormed valid
  unfold Edit.KeepsIntact at keeps
  unfold perform
  cases done : operation.edit document with
  | ok value after =>
      rw [done] at keeps
      exact keeps.1
  | error cause after =>
      rw [done] at keeps
      exact keeps

/-- An insertion that fails has at most taken the node out of its old place. -/
theorem eq_or_eq_detach_of_failed {operation : Operation} {node : NodeId} {cause : DocumentError}
    {after : Document} (isInserted : operation.inserted? = some node)
    (failed : operation.edit document = .error cause after) :
    after = document ∨ after = document.detach node := by
  cases operation with
  | appendChild parent child => exact Or.inl (Edit.appendChild_failed failed)
  | insertChild parent index child => exact Or.inl (Edit.insertChild_failed failed)
  | insertBefore inserted reference =>
      cases isInserted
      exact Edit.insertBeside_failed failed
  | insertAfter inserted reference =>
      cases isInserted
      exact Edit.insertBeside_failed failed
  | _ => cases isInserted

/-- A root without a parent has none after an operation that did not put it below a node. -/
theorem detached_perform {operation : Operation} (wellFormed : document.WellFormed)
    (valid : ∀ id ∈ operation.ids, id.index < document.size)
    (detached : document.parent document.root = none)
    (notInserted : ¬operation.InsertsRoot document) :
    (operation.perform document).parent (operation.perform document).root = none := by
  by_cases isInserted : operation.inserted? = some document.root
  · unfold perform
    cases done : operation.edit document with
    | ok value after =>
        have succeeds : operation.succeeds document = true := by rw [succeeds, done]
        exact absurd ⟨isInserted, succeeds⟩ notInserted
    | error cause after =>
        rcases eq_or_eq_detach_of_failed isInserted done with rfl | rfl
        · exact detached
        · rw [Document.root_detach, Document.parent_detach wellFormed, if_pos rfl]
  · exact (operation.intact_perform wellFormed valid).still_detached And.left
      ⟨detached, isInserted⟩

/-- What one operation keeps, a sequence of operations keeps. -/
theorem wellFormed_performAll {operations : List Operation} (wellFormed : document.WellFormed)
    (valid : AllValid operations document) :
    (performAll operations document).WellFormed ∧
      (document.parent document.root = none → ¬RootInserted operations document →
        (performAll operations document).parent (performAll operations document).root = none) := by
  induction operations generalizing document with
  | nil => exact ⟨wellFormed, fun detached _ => detached⟩
  | cons operation later inductionHypothesis =>
      rcases valid with ⟨valid, laterValid⟩
      have intact := operation.intact_perform wellFormed valid
      rcases inductionHypothesis intact.wellFormed laterValid with ⟨formed, stillDetached⟩
      refine ⟨formed, fun detached notInserted => ?_⟩
      rw [RootInserted, not_or] at notInserted
      exact stillDetached (detached_perform wellFormed valid detached notInserted.1) notInserted.2

end Operation

/-- **Every sequence of operations leaves a consistent document**, whichever of them fail. The root
has no parent unless one of them put it below a node. -/
theorem Document.consistent_after_operations {start : Document} {operations : List Operation}
    (isStart : (∃ name, start = Document.withRoot name) ∨ ∃ source, Document.read source = .ok start)
    (valid : Operation.AllValid operations start) :
    (Operation.performAll operations start).Consistent ∧
      (¬Operation.RootInserted operations start →
        (Operation.performAll operations start).parent
          (Operation.performAll operations start).root = none) := by
  have startFormed : start.WellFormed ∧ start.parent start.root = none := by
    rcases isStart with ⟨name, rfl⟩ | ⟨source, isRead⟩
    · exact ⟨wellFormed_withRoot name, parent_withRoot name _⟩
    · exact wellFormed_of_read isRead
  rcases Operation.wellFormed_performAll startFormed.1 valid with ⟨formed, stillDetached⟩
  exact ⟨formed.consistent, stillDetached startFormed.2⟩

/-- A body is put below the root, then the root below the body, which fails, and then the body is
split off again. -/
theorem Document.consistent_after_failed_cycle :
    let operations : List Operation :=
      [.createElement "w:body", .appendChild ⟨0⟩ ⟨1⟩, .appendChild ⟨1⟩ ⟨0⟩, .copySubtree ⟨0⟩,
        .detach ⟨1⟩]
    let after := Operation.performAll operations (Document.withRoot "w:document")
    after.Consistent ∧ after.size = 4 ∧ after.parent after.root = none := by
  intro operations after
  have valid : Operation.AllValid operations (Document.withRoot "w:document") := by
    simp only [operations, Operation.AllValid]
    decide +kernel
  have consistent := Document.consistent_after_operations (Or.inl ⟨"w:document", rfl⟩) valid
  refine ⟨consistent.1, by decide +kernel, consistent.2 ?_⟩
  simp only [operations, Operation.RootInserted, Operation.InsertsRoot]
  decide +kernel

end WordTemplate
