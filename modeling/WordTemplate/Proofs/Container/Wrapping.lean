import WordTemplate.Container.Repetition
import WordTemplate.Proofs.Document.Securing
import WordTemplate.Proofs.Document.Succeeding

/-!
# Wrappers of copies

Filling and emptying a wrapper cannot fail, and a copy is compiled in between. So as long as compiling
is secure, the wrapper has no children afterwards, on every way out, and what was returned stands below
nothing. Compiling a later copy does not put it below anything either.
-/

namespace WordTemplate

open Document Outcome

/-! ## Filling and emptying -/

/-- Nodes went below a new wrapper. -/
structure Document.Wraps (before after : Document) (nodes : List NodeId) : Prop where
  wellFormed : after.WellFormed
  size_eq : after.size = before.size + 1
  root_eq : after.root = before.root
  wraps : after.isWrapper before.nextId = true
  isWrapper_eq : ∀ id, id ≠ before.nextId → after.isWrapper id = before.isWrapper id
  isText_eq : ∀ id, id ≠ before.nextId → after.isText id = before.isText id
  parent_eq : ∀ id, after.parent id = if id ∈ nodes then some before.nextId else before.parent id

/-- A node that compiling a copy may return: an ordinary one without a parent, which is new or was at
the top of the copy. -/
structure Document.Returned (base : Nat) (document : Document) (roots : List NodeId) (id : NodeId) :
    Prop extends document.Ordinary id where
  isDetached : document.parent id = none
  origin : base ≤ id.index ∨ id ∈ roots

namespace Document.Wraps

variable {base : Nat} {before middle wrapped filled after : Document} {node : NodeId}
  {nodes : List NodeId}

/-- A new wrapper is empty. -/
theorem add (wellFormed : before.WellFormed) :
    Wraps before (before.add (.element { name := Edit.wrapperName })) [] where
  wellFormed := wellFormed.add _
  size_eq := size_add _ _
  root_eq := rfl
  wraps := by simp [isWrapper, isNamed, name?, element?, content_add, Content.element?]
  isWrapper_eq id differ := by
    simp only [isWrapper, isNamed, name?, element?, content_add, if_neg differ]
  isText_eq id differ := by simp only [Document.isText, text?, content_add, if_neg differ]
  parent_eq id := by simp

/-- One more node goes below the wrapper. -/
theorem append (wraps : Wraps before middle nodes) (inStore : ∀ node ∈ nodes, node.index < before.size)
    (node_lt : node.index < before.size) :
    ∃ after, Edit.appendChild before.nextId node middle = .ok ⟨⟩ after ∧
      Wraps before after (nodes ++ [node]) := by
  have detached : middle.parent before.nextId = none := by
    rw [wraps.parent_eq, if_neg, parent_nextId]
    exact fun isNode => absurd (inStore _ isNode) (Nat.lt_irrefl _)
  have outside : ¬middle.LiesIn node before.nextId := fun above =>
    nextId_ne node_lt (above.eq_of_parent_none detached)
  rcases Edit.exists_moves_appendChild wraps.wellFormed
    (wraps.size_eq ▸ Nat.lt_succ_self before.size)
    (wraps.size_eq ▸ Nat.lt_succ_of_lt node_lt) outside with ⟨after, done, moves⟩
  have isNamed_eq : ∀ id, after.isWrapper id = middle.isWrapper id := fun id =>
    isNamed_of_content_eq (moves.content_eq id) _
  exact ⟨after, done, {
    wellFormed := moves.wellFormed
    size_eq := moves.size_eq.trans wraps.size_eq
    root_eq := moves.root_eq.trans wraps.root_eq
    wraps := (isNamed_eq _).trans wraps.wraps
    isWrapper_eq := fun id differ => (isNamed_eq id).trans (wraps.isWrapper_eq id differ)
    isText_eq := fun id differ => by
      rw [← wraps.isText_eq id differ, Document.isText, Document.isText, text?, text?,
        moves.content_eq]
    parent_eq := fun id => by
      rw [moves.parent_eq, wraps.parent_eq]
      by_cases same : id = node <;> simp [same] }⟩

/-- Filling a wrapper does not fail. -/
theorem exists_of_fillWrapper (wellFormed : before.WellFormed)
    (inStore : ∀ node ∈ nodes, node.index < before.size) :
    ∃ after, Edit.fillWrapper nodes before = .ok before.nextId after ∧ Wraps before after nodes := by
  suffices gathered : ∀ rest done middle, Wraps before middle done →
      (∀ node ∈ done ++ rest, node.index < before.size) →
      ∃ after, (rest.forM (Edit.appendChild before.nextId)) middle = .ok ⟨⟩ after ∧
        Wraps before after (done ++ rest) by
    rcases gathered nodes [] _ (add wellFormed) inStore with ⟨after, isDone, wraps⟩
    refine ⟨after, ?_, wraps⟩
    simp only [Edit.fillWrapper, bind_eq_ok, pure_eq_ok]
    exact ⟨before.nextId, _, rfl, ⟨⟩, after, isDone, rfl, rfl⟩
  intro rest
  induction rest with
  | nil =>
      intro done middle wraps _
      exact ⟨middle, rfl, by rwa [List.append_nil]⟩
  | cons node rest inductionHypothesis =>
      intro done middle wraps inStore
      rcases wraps.append (fun other isOther => inStore other (List.mem_append_left _ isOther))
        (inStore node (by simp)) with ⟨next, appended, wraps⟩
      rcases inductionHypothesis (done ++ [node]) next wraps (by simpa using inStore) with
        ⟨after, isDone, wraps⟩
      exact ⟨after, forM_cons_eq_ok.mpr ⟨next, appended, isDone⟩, by simpa using wraps⟩

section

variable (wraps : Wraps before wrapped nodes)
include wraps

theorem parent_of_ne {child parent : NodeId} (differ : parent ≠ before.nextId)
    (isParent : wrapped.parent child = some parent) : before.parent child = some parent := by
  rw [wraps.parent_eq] at isParent
  split at isParent
  · rw [Option.some.injEq] at isParent
    exact absurd isParent.symm differ
  · exact isParent

/-- Nodes that are no wrappers may go below a new one, except for the root. -/
theorem isSealed (isSealed : before.Sealed base) (ordinary : ∀ node ∈ nodes, before.Ordinary node)
    (notRoot : before.root ∉ nodes) : wrapped.Sealed base where
  wellFormed := wraps.wellFormed
  base_le := wraps.size_eq ▸ Nat.le_succ_of_le isSealed.base_le
  root_lt := wraps.root_eq ▸ isSealed.root_lt
  root_free parent isParent := by
    rw [wraps.root_eq, wraps.parent_eq, if_neg notRoot] at isParent
    rw [wraps.isWrapper_eq parent (nextId_ne (parent_lt_size isSealed.wellFormed isParent)).symm]
    exact isSealed.root_free parent isParent
  root_ordinary := by
    rw [wraps.root_eq, wraps.isWrapper_eq _ (nextId_ne isSealed.wellFormed.root_lt).symm]
    exact isSealed.root_ordinary
  child_ordinary child parent isParent := by
    have childIs : before.Ordinary child := by
      rw [wraps.parent_eq] at isParent
      split at isParent
      · next isNode => exact ordinary child isNode
      · exact isSealed.ordinary_of_parent isParent
    rw [wraps.isWrapper_eq child (nextId_ne childIs.inStore).symm]
    exact childIs.notWrapper

/-- Text nodes stay text nodes when a wrapper is filled. -/
theorem holdsText (holdsText : before.HoldsText node) : wrapped.HoldsText node :=
  ⟨wraps.size_eq ▸ Nat.lt_succ_of_lt holdsText.inStore,
    (wraps.isText_eq node (nextId_ne holdsText.inStore).symm).trans holdsText.isText⟩

/-- Once the wrapper has no children any more, it is as if there had been none. -/
theorem seals (work : Seals base wrapped after)
    (isEmpty : ∀ child, after.parent child ≠ some before.nextId) : Seals base before after where
  toSealed := work.toSealed
  size_le := Nat.le_trans (wraps.size_eq ▸ Nat.le_succ _) work.size_le
  root_eq := work.root_eq.trans wraps.root_eq
  isWrapper_eq id isOld := by
    rw [← wraps.isWrapper_eq id (nextId_ne isOld).symm]
    exact work.isWrapper_eq id (wraps.size_eq ▸ Nat.lt_succ_of_lt isOld)
  isText_eq id isOld := by
    rw [← wraps.isText_eq id (nextId_ne isOld).symm]
    exact work.isText_eq id (wraps.size_eq ▸ Nat.lt_succ_of_lt isOld)
  held child wrapper isParent isWrapper := by
    have differ : wrapper ≠ before.nextId := by
      rintro rfl
      exact isEmpty child isParent
    rcases work.held child wrapper isParent isWrapper with isParent | ⟨isNew, other, isParent⟩
    · exact Or.inl (wraps.parent_of_ne differ isParent)
    · exact Or.inr ⟨isNew, other, wraps.parent_of_ne differ isParent⟩
  parked id isOld isParked := by
    have stillParked : wrapped.Parked id := by
      intro parent isParent
      by_cases differ : parent = before.nextId
      · exact differ ▸ wraps.wraps
      · rw [wraps.isWrapper_eq parent differ]
        exact isParked parent (wraps.parent_of_ne differ isParent)
    refine (work.parked id isOld stillParked).imp_left fun same => ?_
    rw [wraps.parent_eq] at same
    split at same
    · exact absurd same (isEmpty id)
    · exact same

/-- Below the wrapper there is nothing but what went there and new nodes. -/
theorem held (isSealed : before.Sealed base) (work : Seals base wrapped filled)
    (isParent : filled.parent node = some before.nextId) : base ≤ node.index ∨ node ∈ nodes := by
  have isWrapper : filled.isWrapper before.nextId = true :=
    (work.isWrapper_eq _ (wraps.size_eq ▸ Nat.lt_succ_self before.size)).trans wraps.wraps
  rcases work.held node _ isParent isWrapper with wasParent | ⟨isNew, -⟩
  · refine Or.inr ?_
    rw [wraps.parent_eq] at wasParent
    split at wasParent
    · assumption
    · exact absurd (parent_lt_size isSealed.wellFormed wasParent) (Nat.lt_irrefl _)
  · exact Or.inl isNew

end

end Document.Wraps

/-- Emptying a wrapper does not fail. -/
theorem Edit.exists_of_emptyWrapper {document : Document} (wellFormed : document.WellFormed)
    (wrapper : NodeId) : ∃ after,
      Edit.emptyWrapper wrapper document = .ok (document.children wrapper) after ∧
        Drops document after (document.children wrapper) := by
  rcases Edit.exists_drops wellFormed (document.children wrapper) with ⟨after, done, drops⟩
  refine ⟨after, ?_, drops⟩
  simp only [emptyWrapper, get_bind, bind_eq_ok, pure_eq_ok]
  exact ⟨⟨⟩, after, done, trivial, rfl⟩

/-- Whatever was done while nodes were below a wrapper, it can be emptied, and then it is as if there
had been none. -/
theorem Document.Wraps.exists_release {base : Nat} {before wrapped filled : Document}
    {nodes : List NodeId} (wraps : Wraps before wrapped nodes) (isSealed : before.Sealed base)
    (wrappedSealed : wrapped.Sealed base) (work : Seals base wrapped filled) : ∃ after,
      Edit.emptyWrapper before.nextId filled = .ok (filled.children before.nextId) after ∧
        Seals base before after ∧
        ∀ node ∈ filled.children before.nextId, after.Returned base nodes node := by
  rcases Edit.exists_of_emptyWrapper work.wellFormed before.nextId with ⟨after, done, drops⟩
  have isChild := fun node => (work.wellFormed.mem_children_iff before.nextId node)
  have toAfter := drops.seals work.toSealed
  have isEmpty : ∀ child, after.parent child ≠ some before.nextId := by
    intro child isParent
    have wasParent := drops.parent_of_some isParent
    rw [drops.parent_eq, if_pos ((isChild child).mpr wasParent)] at isParent
    cases isParent
  refine ⟨after, done, wraps.seals (work.trans toAfter wrappedSealed) isEmpty, fun node isNode => ?_⟩
  have isParent := (isChild node).mp isNode
  exact ⟨toAfter.ordinary (work.toSealed.ordinary_of_parent isParent),
    by rw [drops.parent_eq, if_pos isNode], wraps.held isSealed work isParent⟩

/-! ## Compiling copies -/

/-- Compiling tags of a region is secure in every document without wrappers below other nodes, as long
as the tags stand at text nodes. -/
def RegionCompiler.Secures {region : Region} (compile : RegionCompiler region) : Prop :=
  ∀ base tags fits workspace, workspace.document.Sealed base →
    (∀ tag ∈ tags, workspace.document.HoldsText tag.textNode) →
    Work.Secures base (compile tags fits) workspace fun _ _ => True

/-- Some work at the scope path of a copy. -/
def Region.Scoping.place {α : Type} (scoping : Region.Scoping) (index : Nat) (work : Work α) : Work α :=
  match scoping with
  | .indexed => Work.withPart (.index index) work
  | .unchanged => work

/-- A copy whose topmost nodes are no wrappers and whose tags stand at text nodes. -/
structure RegionCopy.IsReady (copy : RegionCopy) (document : Document) (inner : List Tag) : Prop where
  roots : ∀ root ∈ copy.roots, document.Ordinary root
  notRoot : document.root ∉ copy.roots
  texts : ∀ tag ∈ copy.tags inner, document.HoldsText tag.textNode

/-- What was returned stays without a parent while it counts as old. -/
theorem Document.Returned.seals {base : Nat} {before after : Document} {roots : List NodeId}
    {id : NodeId} (returned : before.Returned base roots id)
    (seals : Seals before.size before after) : after.Returned base roots id where
  toOrdinary := seals.ordinary returned.toOrdinary
  isDetached := by
    have isParked : before.Parked id := by
      intro parent isParent
      rw [returned.isDetached] at isParent
      cases isParent
    rcases seals.parked id returned.inStore isParked with same | gone
    · exact same.trans returned.isDetached
    · exact gone
  origin := returned.origin

/-- What is ready to be compiled stays so. -/
theorem RegionCopy.IsReady.seals {base : Nat} {copy : RegionCopy} {before after : Document}
    {inner : List Tag} (isReady : copy.IsReady before inner) (seals : Seals base before after) :
    copy.IsReady after inner where
  roots root isRoot := seals.ordinary (isReady.roots root isRoot)
  notRoot := seals.root_eq ▸ isReady.notRoot
  texts tag isTag := seals.holdsText (isReady.texts tag isTag)

namespace Region

variable {base : Nat} {region : Region} {compile : RegionCompiler region} {scoping : Scoping}
  {index : Nat} {copy : RegionCopy} {copies : List RegionCopy} {before : Workspace}

theorem Scoping.secures_place {work : Work Unit} (secures : ∀ path,
      Work.Secures base work { before with path } fun _ _ => True) (scoping : Scoping) (index : Nat) :
    Work.Secures base (scoping.place index work) before fun _ _ => True := by
  cases scoping with
  | indexed => exact Secures.withPart (secures _)
  | unchanged => exact secures before.path

/-- Whether compiling a copy succeeds or fails, its wrapper is empty afterwards. -/
theorem secures_compileCopy (compiles : compile.Secures) (isSealed : before.document.Sealed base)
    (isReady : copy.IsReady before.document region.innerTags) :
    Work.Secures base (region.compileCopy compile scoping index copy) before fun nodes after =>
      ∀ node ∈ nodes, after.document.Returned base copy.roots node := by
  rcases Wraps.exists_of_fillWrapper isSealed.wellFormed
    (fun root isRoot => (isReady.roots root isRoot).inStore) with ⟨wrapped, wrapDone, wraps⟩
  have wrappedSealed := wraps.isSealed isSealed isReady.roots isReady.notRoot
  have compiled : Work.Secures base (scoping.place index
      (compile (copy.tags region.innerTags) (copy.length_tags_le region.innerTags)))
      { before with document := wrapped } fun _ _ => True :=
    Scoping.secures_place (fun path => compiles base _ _ _ wrappedSealed
      fun tag isTag => wraps.holdsText (isReady.texts tag isTag)) scoping index
  have compileCopy_eq : region.compileCopy compile scoping index copy before =
      Work.thenAlways (scoping.place index
        (compile (copy.tags region.innerTags) (copy.length_tags_le region.innerTags)))
        (Edit.emptyWrapper before.document.nextId : Work (List NodeId))
        { before with document := wrapped } :=
    bind_of_ok (edit_work_eq_ok.mpr ⟨wrapped, wrapDone, rfl⟩)
  unfold Work.Secures WordTemplate.Secures at compiled ⊢
  rw [compileCopy_eq, Work.thenAlways]
  cases done : scoping.place index (compile (copy.tags region.innerTags)
    (copy.length_tags_le region.innerTags)) { before with document := wrapped } with
  | error cause filled =>
      rw [done] at compiled
      rcases wraps.exists_release isSealed wrappedSealed compiled with
        ⟨after, emptied, toAfter, -⟩
      simpa only [edit_work_eq_ok.mpr ⟨after, emptied, rfl⟩] using toAfter
  | ok value filled =>
      rw [done] at compiled
      rcases wraps.exists_release isSealed wrappedSealed compiled.1 with
        ⟨after, emptied, toAfter, returned⟩
      simpa only [edit_work_eq_ok.mpr ⟨after, emptied, rfl⟩] using ⟨toAfter, returned⟩

/-- Whether compiling copies succeeds or fails, their wrappers are empty afterwards. Nothing that was
returned for a copy has a parent when the later ones are compiled, or at the end. -/
theorem secures_compileCopies (compiles : compile.Secures) (isSealed : before.document.Sealed base)
    (areReady : ∀ copy ∈ copies, copy.IsReady before.document region.innerTags) :
    Work.Secures base (region.compileCopies compile scoping index copies) before fun groups after =>
      ∀ node ∈ groups.flatten,
        after.document.Returned base (copies.flatMap RegionCopy.roots) node := by
  induction copies generalizing before base index with
  | nil => exact Secures.of_pure isSealed (by simp)
  | cons copy rest inductionHypothesis =>
      refine Secures.bind isSealed
        (secures_compileCopy compiles isSealed (areReady copy List.mem_cons_self)) ?_
      intro nodes middle _ toMiddle areReturned
      have root_lt := toMiddle.root_lt
      -- From here on what was returned counts as old, so nothing takes it below a node.
      have renewed : middle.document.Sealed middle.document.size :=
        { toMiddle.toSealed with
          base_le := Nat.le_refl _
          root_lt := toMiddle.wellFormed.root_lt }
      have later : Work.Secures middle.document.size
          (region.compileCopies compile scoping (index + 1) rest) middle _ :=
        inductionHypothesis renewed fun other isOther =>
          (areReady other (List.mem_cons_of_mem _ isOther)).seals toMiddle
      have joined := (later.imp fun groups after _ seals returned =>
        (⟨fun node isNode => (areReturned node isNode).seals seals, returned⟩ :
          (∀ node ∈ nodes, after.document.Returned base copy.roots node) ∧ _)).mono
        toMiddle.base_le root_lt
      refine Secures.bind toMiddle.toSealed joined ?_
      rintro groups after - toAfter ⟨first, others⟩
      refine Secures.of_pure toAfter.toSealed fun node isNode => ?_
      rw [List.flatMap_cons]
      rcases List.mem_append.mp isNode with isFirst | isOther
      · exact { first node isFirst with
          origin := (first node isFirst).origin.imp_right (List.mem_append_left _) }
      · exact { others node isOther with
          origin := (others node isOther).origin.imp (Nat.le_trans toMiddle.base_le)
            (List.mem_append_right _) }

end Region

end WordTemplate
