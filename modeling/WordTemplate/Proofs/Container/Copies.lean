import WordTemplate.Proofs.Container.Repetition
import WordTemplate.Proofs.Filling.Unrolling

/-!
# Filling the copies of a region

The copies of a region are filled one by one, each below a wrapper of its own. All that changes are
nodes that are newer than the cut, so what was left of the document at the cut stays as it is.
-/

namespace WordTemplate

namespace Document

variable {zone : NodeId → Prop} {rights : Rights} {base document before middle after : Document}
  {id root : NodeId} {roots roots' nodes nodes' : List NodeId}

/-- The nodes newer than a document are closed under taking children. -/
theorem Adds.closed_new (adds : Adds base document) (wellFormed : base.WellFormed) :
    document.Closed (fun id => base.size ≤ id.index) (newRights base.size) where
  child isParent isNew :=
    adds.isNew_of_parent (fun _ _ => parent_lt_size wellFormed) isParent isNew
  fresh := Nat.le_trans adds.size_le
  freshPlaces := Nat.le_trans adds.size_le

theorem Adds.belowRoots_new (adds : Adds base document) (wellFormed : base.WellFormed)
    (isNew : ∀ root ∈ roots, base.size ≤ root.index) (inZone : document.BelowRoots roots id) :
    base.size ≤ id.index := by
  rcases inZone with ⟨root, isRoot, inside⟩ | beyond
  · exact (adds.closed_new wellFormed).liesIn inside (isNew root isRoot)
  · exact Nat.le_trans adds.size_le beyond

/-- What changes new nodes only retains all old ones. -/
theorem Adds.changes (adds : Adds base document)
    (changes : ChangesWithin zone rights document after) (wellFormed : document.WellFormed)
    (closed : document.Closed zone rights) (isNew : ∀ id, zone id → base.size ≤ id.index) :
    Adds base after where
  size_le := Nat.le_trans adds.size_le changes.size_le
  node_eq id isOld := by
    have outside : ¬zone id := fun inZone => Nat.not_le_of_lt isOld (isNew id inZone)
    rw [← adds.node_eq id isOld]
    have content_eq := changes.content_eq outside
    have children_eq := changes.children_eq outside
    have parent_eq := changes.parent_eq wellFormed closed outside
    simp only [Document.content, Document.children, Document.parent] at content_eq children_eq parent_eq
    cases same : after.node id
    cases same' : document.node id
    simp_all
  wellFormed := changes.wellFormed
  root_eq := changes.root_eq.trans adds.root_eq

end Document

/-- Work replaced leaves, changed the document within a zone and returned to the same scope path. -/
structure Workspace.Advances (zone : NodeId → Prop) (base : Nat) (dispatched : List Dispatch)
    (before after : Workspace) : Prop where
  path_eq : after.path = before.path
  dispatches_eq : after.dispatches.toList = before.dispatches.toList ++ dispatched
  changes : Document.ChangesWithin zone (.since base before.document) before.document
    after.document

/-- Compiling tags of a region replaces the leaves that the unrolled tags list. -/
def RegionCompiler.Unrolls {region : Region} (compile : RegionCompiler region)
    (compiler : Compiler) (context : Context) : Prop :=
  ∀ {tags fits zone base before after result},
    Document.Ready zone base before.document (tags.map Tag.textNode) →
    compile tags fits before = .ok result after →
    before.Advances zone base (compiler.unroll context before.path tags) after

/-- The scope path at which a copy is compiled. -/
def Region.Scoping.innerPath (scoping : Region.Scoping) (path : ScopePath) (index : Nat) :
    ScopePath :=
  match scoping with
  | .indexed => path.enter (.index index)
  | .unchanged => path

namespace Document

variable {source document before middle after : Document} {nodes nodes' roots roots' : List NodeId}
  {copy : RegionCopy} {inner : List Tag} {wrapper : NodeId} {base : Nat}

/-- A copy below its wrapper is ready to be compiled. -/
theorem ready_of_wrapped (copied : Copied source before nodes copy) (adds : Adds source before)
    (sourceFormed : source.WellFormed)
    (wrapped : Edit.Wrapped (before.BelowRoots copy.roots) (newRights source.size) before after
      wrapper copy.roots)
    (ordered : (inner.map Tag.textNode).Sublist (nodes.flatMap source.runningTexts))
    (solitary : ∀ tag ∈ inner, source.Solitary tag.textNode) :
    Ready (after.Below wrapper) source.size after ((copy.tags inner).map Tag.textNode) where
  toChangesWithin := ChangesWithin.refl wrapped.wellFormed
    (closed_below wrapped.wellFormed (fun _ => id) wrapper)
  fresh _ := Or.inr
  low id inZone := by
    have adds' : Adds source after := adds.changes wrapped.toChangesWithin adds.wellFormed
      (closed_belowRoots adds.wellFormed (fun _ => Nat.le_trans adds.size_le) copy.roots)
      fun _ => adds.belowRoots_new sourceFormed copied.isNew
    rcases inZone with inside | beyond
    · exact (adds'.closed_new sourceFormed).liesIn inside
        (Nat.le_trans adds.size_le wrapped.isNew)
    · exact Nat.le_trans adds'.size_le beyond
  pending := by
    refine ⟨[wrapper], ?_, Edit.pending_of_wrapped copied wrapped adds.wellFormed ordered solitary⟩
    intro top isTop
    rw [List.mem_singleton.mp isTop]
    exact ⟨Or.inl LiesIn.refl, lt_size_of_isNamed wrapped.wrapper_named⟩

/-- Copies of a region lie apart. -/
theorem Copied.not_belowRoots {other : RegionCopy} {root id : NodeId}
    (copied : Copied source document nodes copy) (otherCopied : Copied source document nodes other)
    (disjoint : ∀ root ∈ copy.roots, ∀ root' ∈ other.roots, root ≠ root') (isRoot : root ∈ other.roots)
    (inside : document.LiesIn root id) : ¬document.BelowRoots copy.roots id := by
  rintro (⟨root', isRoot', inside'⟩ | beyond)
  · exact disjoint root' isRoot' root isRoot (eq_of_liesIn_detached (copied.detached root' isRoot')
      (otherCopied.detached root isRoot) inside' inside)
  · exact Nat.not_lt_of_le beyond (lt_size_below inside (otherCopied.inStore root isRoot))

/-- The topmost nodes of copies are detached nodes of the document. -/
theorem Copied.waiting_roots {copies : List RegionCopy}
    (copied : ∀ copy ∈ copies, Copied source document nodes copy) :
    ∀ root ∈ copies.flatMap RegionCopy.roots,
      document.parent root = none ∧ root.index < document.size := by
  intro root isRoot
  rcases List.mem_flatMap.mp isRoot with ⟨copy, isCopy, isRoot⟩
  exact ⟨(copied copy isCopy).detached root isRoot, (copied copy isCopy).inStore root isRoot⟩

end Document

namespace Edit.Filled

open Document

variable {before middle after : Document} {nodes nodes' roots roots' : List NodeId} {base : Nat}

theorem nil (wellFormed : before.WellFormed) (base_le : base ≤ before.size) :
    Filled base before before [] [] where
  toChangesWithin := ChangesWithin.refl wellFormed
    (closed_belowRoots wellFormed (fun _ => Nat.le_trans base_le) [])
  nodup := List.nodup_nil
  node_parent := by simp
  inStore := by simp
  inZone := by simp

/-- What a copy became does not lie below the roots of the later copies. -/
theorem not_belowRoots (first : Filled base before middle roots nodes) (wellFormed : before.WellFormed)
    (base_le : base ≤ before.size)
    (detached : ∀ root ∈ roots ++ roots', before.parent root = none)
    (inStore : ∀ root ∈ roots ++ roots', root.index < before.size)
    (nodup : (roots ++ roots').Nodup) {node id : NodeId} (isNode : node ∈ nodes)
    (below : middle.LiesIn node id) : ¬middle.BelowRoots roots' id := by
  have closed : before.Closed (before.BelowRoots roots) (newRights base) :=
    closed_belowRoots wellFormed (fun _ => Nat.le_trans base_le) _
  have notBelow : ∀ root ∈ roots', ¬before.BelowRoots roots root := by
    rintro root isRoot (⟨other, isOther, inside⟩ | beyond)
    · have same := inside.eq_of_parent_none (detached root (List.mem_append_right _ isRoot))
      subst same
      exact (List.nodup_append.mp nodup).2.2 _ isOther _ isRoot rfl
    · exact Nat.not_lt_of_le beyond (inStore root (List.mem_append_right _ isRoot))
  rintro (⟨root, isRoot, inside⟩ | beyond)
  · have rootDetached : middle.parent root = none := by
      rw [first.parent_eq wellFormed closed (notBelow root isRoot),
        detached root (List.mem_append_right _ isRoot)]
    have same := eq_of_liesIn_detached (first.node_parent node isNode) rootDetached below inside
    subst same
    exact notBelow _ isRoot (first.inZone _ isNode)
  · exact Nat.not_lt_of_le beyond (lt_size_below below (first.inStore node isNode))

/-- What is older than a copy stays while the copy is filled. -/
theorem adds {source : Document} {copy : RegionCopy}
    (filled : Filled source.size before after copy.roots nodes') (adds : Adds source before)
    (sourceFormed : source.WellFormed) (copied : Copied source before nodes copy) :
    Adds source after :=
  adds.changes filled.toChangesWithin adds.wellFormed
    (closed_belowRoots adds.wellFormed (fun _ => Nat.le_trans adds.size_le) _)
    fun _ => adds.belowRoots_new sourceFormed copied.isNew

/-- What lies below the other copies of a region is not touched while one of them is filled. -/
theorem outside {source : Document} {copy other : RegionCopy} {rest : List RegionCopy}
    (copied : ∀ copy' ∈ copy :: rest, Copied source before nodes copy')
    (nodup : ((copy :: rest).flatMap RegionCopy.roots).Nodup) (isOther : other ∈ rest) {root id : NodeId}
    (isRoot : root ∈ other.roots) (inside : before.LiesIn root id) :
    ¬before.BelowRoots copy.roots id := by
  rw [List.flatMap_cons, List.nodup_append] at nodup
  exact (copied copy List.mem_cons_self).not_belowRoots (copied other (List.mem_cons_of_mem _ isOther))
    (fun root' isRoot' root isRoot => nodup.2.2 root' isRoot' root
      (List.mem_flatMap.mpr ⟨other, isOther, isRoot⟩)) isRoot inside

/-- The copies that come later stay as they are. -/
theorem copied {source : Document} {copy other : RegionCopy} {rest : List RegionCopy}
    (filled : Filled source.size before after copy.roots nodes') (adds : Adds source before)
    (copied : ∀ copy' ∈ copy :: rest, Copied source before nodes copy')
    (nodup : ((copy :: rest).flatMap RegionCopy.roots).Nodup) (isOther : other ∈ rest) :
    Copied source after nodes other :=
  (copied other (List.mem_cons_of_mem _ isOther)).of_changes filled.toChangesWithin adds.wellFormed
    (closed_belowRoots adds.wellFormed (fun _ => Nat.le_trans adds.size_le) _)
    fun _ isRoot _ => outside copied nodup isOther isRoot

/-- What the first copy was filled to lies outside of the later copies. -/
theorem not_belowRoots_rest {source : Document} {copy : RegionCopy} {rest : List RegionCopy}
    (filled : Filled source.size before after copy.roots nodes') (adds : Adds source before)
    (copied : ∀ copy' ∈ copy :: rest, Copied source before nodes copy')
    (nodup : ((copy :: rest).flatMap RegionCopy.roots).Nodup) {node id : NodeId}
    (isNode : node ∈ nodes') (below : after.LiesIn node id) :
    ¬after.BelowRoots (rest.flatMap RegionCopy.roots) id := by
  have waiting := Copied.waiting_roots copied
  rw [List.flatMap_cons] at nodup waiting
  exact filled.not_belowRoots adds.wellFormed adds.size_le (fun root isRoot => (waiting root isRoot).1)
    (fun root isRoot => (waiting root isRoot).2) nodup isNode below

/-- One copy is filled after the other. -/
theorem append (first : Filled base before middle roots nodes)
    (second : Filled base middle after roots' nodes') (wellFormed : before.WellFormed)
    (base_le : base ≤ before.size)
    (detached : ∀ root ∈ roots ++ roots', before.parent root = none)
    (inStore : ∀ root ∈ roots ++ roots', root.index < before.size)
    (nodup : (roots ++ roots').Nodup) :
    Filled base before after (roots ++ roots') (nodes ++ nodes') := by
  have closed : before.Closed (before.BelowRoots (roots ++ roots')) (newRights base) :=
    closed_belowRoots wellFormed (fun _ => Nat.le_trans base_le) _
  have zone_le : ∀ id, before.BelowRoots roots id → before.BelowRoots (roots ++ roots') id := by
    rintro id (⟨root, isRoot, inside⟩ | beyond)
    · exact Or.inl ⟨root, List.mem_append_left _ isRoot, inside⟩
    · exact Or.inr beyond
  have firstChanges := first.toChangesWithin.mono wellFormed closed zone_le (.refl _ _)
  have zone_le' : ∀ id, middle.BelowRoots roots' id → before.BelowRoots (roots ++ roots') id := by
    rintro id (⟨root, isRoot, inside⟩ | beyond)
    · exact firstChanges.closed.liesIn inside
        (Or.inl ⟨root, List.mem_append_right _ isRoot, LiesIn.refl⟩)
    · exact firstChanges.closed.fresh beyond
  have secondChanges := second.toChangesWithin.mono firstChanges.wellFormed firstChanges.closed
    zone_le' (.refl _ _)
  have apart : ∀ node ∈ nodes, ¬middle.BelowRoots roots' node := fun node isNode =>
    first.not_belowRoots wellFormed base_le detached inStore nodup isNode LiesIn.refl
  refine ⟨firstChanges.trans secondChanges, ?_, ?_, ?_, ?_⟩
  · refine List.nodup_append.mpr ⟨first.nodup, second.nodup, ?_⟩
    rintro node isNode _ isNode' rfl
    exact apart node isNode (second.inZone node isNode')
  · intro node isNode
    rcases List.mem_append.mp isNode with isNode | isNode
    · rw [second.parent_eq first.wellFormed (closed_belowRoots first.wellFormed
        (fun _ => Nat.le_trans (Nat.le_trans base_le first.size_le)) roots') (apart node isNode),
        first.node_parent node isNode]
    · exact second.node_parent node isNode
  · intro node isNode
    rcases List.mem_append.mp isNode with isNode | isNode
    · exact Nat.lt_of_lt_of_le (first.inStore node isNode) second.size_le
    · exact second.inStore node isNode
  · intro node isNode
    rcases List.mem_append.mp isNode with isNode | isNode
    · exact zone_le node (first.inZone node isNode)
    · exact zone_le' node (second.inZone node isNode)

end Edit.Filled

namespace Region

open Outcome Document

variable {region : Region} {compile : RegionCompiler region} {compiler : Compiler}
  {context : Context} {scoping : Scoping} {index : Nat} {copy : RegionCopy}
  {copies : List RegionCopy} {source : Document} {nodes group : List NodeId}
  {groups : List (List NodeId)} {before after : Workspace}

/-- A copy is compiled below its wrapper. -/
theorem filled_of_compileCopy (unrolls : compile.Unrolls compiler context)
    (copied : Copied source before.document nodes copy) (adds : Adds source before.document)
    (sourceFormed : source.WellFormed)
    (ordered : (region.innerTags.map Tag.textNode).Sublist (nodes.flatMap source.runningTexts))
    (solitary : ∀ tag ∈ region.innerTags, source.Solitary tag.textNode)
    (done : region.compileCopy compile scoping index copy before = .ok group after) :
    after.path = before.path ∧
      after.dispatches.toList = before.dispatches.toList ++
        compiler.unroll context (scoping.innerPath before.path index) region.innerTags ∧
      Edit.Filled source.size before.document after.document copy.roots group := by
  simp only [compileCopy, bind_eq_ok, edit_work_eq_ok, Work.thenAlways_eq_ok] at done
  rcases done with ⟨wrapper, _, ⟨filled, wrapDone, rfl⟩, ⟨⟩, middle, placed, emptied, emptyDone, rfl⟩
  have formed := adds.wellFormed
  have closed : before.document.Closed (before.document.BelowRoots copy.roots)
      (newRights source.size) := closed_belowRoots formed (fun _ => Nat.le_trans adds.size_le) _
  have wrapped := Edit.wrapped_of_fillWrapper formed closed copied.nodup copied.detached
    copied.inStore (fun root isRoot => Or.inl ⟨root, isRoot, LiesIn.refl⟩) copied.isNew wrapDone
  have ready := ready_of_wrapped copied adds sourceFormed wrapped ordered solitary
  have tagsAre : copy.tags region.innerTags = region.innerTags.map copy.carried :=
    copied.tags_eq fun tag isInner => ordered.subset (List.mem_map_of_mem isInner)
  have relocates : ∀ tag, ∃ node, copy.carried tag = tag.relocated node := fun tag => ⟨_, rfl⟩
  have advances : middle.path = before.path ∧
      middle.dispatches.toList = before.dispatches.toList ++
        compiler.unroll context (scoping.innerPath before.path index) region.innerTags ∧
      ChangesWithin (filled.Below wrapper) (.since source.size filled) filled middle.document := by
    cases scoping with
    | indexed =>
        rw [Work.withPart_eq_ok] at placed
        rcases placed with ⟨compiled, compileDone, rfl⟩
        have advances := unrolls ready compileDone
        refine ⟨?_, ?_, advances.changes⟩
        · rw [advances.path_eq, ScopePath.leave_enter]
        · rw [advances.dispatches_eq, tagsAre, Compiler.unroll_map relocates]
          rfl
    | unchanged =>
        have advances := unrolls ready placed
        refine ⟨advances.path_eq, ?_, advances.changes⟩
        rw [advances.dispatches_eq, tagsAre, Compiler.unroll_map relocates]
        rfl
  exact ⟨advances.1, advances.2.1, (Edit.filled_of_wrapper copied formed adds.size_le copied.isNew
    wrapDone advances.2.2 emptyDone).1⟩

/-- The copies of a region are compiled one after the other. -/
theorem filled_of_compileCopies (unrolls : compile.Unrolls compiler context)
    (adds : Adds source before.document) (sourceFormed : source.WellFormed)
    (copied : ∀ copy ∈ copies, Copied source before.document nodes copy)
    (nodup : (copies.flatMap RegionCopy.roots).Nodup)
    (ordered : (region.innerTags.map Tag.textNode).Sublist (nodes.flatMap source.runningTexts))
    (solitary : ∀ tag ∈ region.innerTags, source.Solitary tag.textNode)
    (done : region.compileCopies compile scoping index copies before = .ok groups after) :
    after.path = before.path ∧
      after.dispatches.toList = before.dispatches.toList ++
        ((List.range' index copies.length).flatMap fun index =>
          compiler.unroll context (scoping.innerPath before.path index) region.innerTags) ∧
      Edit.Filled source.size before.document after.document (copies.flatMap RegionCopy.roots)
        groups.flatten := by
  induction copies generalizing index before groups with
  | nil =>
      rw [compileCopies, pure_eq_ok] at done
      rcases done with ⟨rfl, rfl⟩
      exact ⟨rfl, by simp, Edit.Filled.nil adds.wellFormed adds.size_le⟩
  | cons copy rest inductionHypothesis =>
      simp only [compileCopies, bind_eq_ok, pure_eq_ok] at done
      rcases done with ⟨group, middle, firstDone, others, last, restDone, rfl, rfl⟩
      have firstCopied := copied copy List.mem_cons_self
      rcases filled_of_compileCopy unrolls firstCopied adds sourceFormed ordered solitary
        firstDone with ⟨firstPath, firstDispatches, firstFilled⟩
      have restCopied : ∀ other ∈ rest, Copied source middle.document nodes other :=
        fun _ => firstFilled.copied adds copied nodup
      have waiting := Copied.waiting_roots copied
      rcases inductionHypothesis (firstFilled.adds adds sourceFormed firstCopied) restCopied
        (by
          rw [List.flatMap_cons] at nodup
          exact (List.nodup_append.mp nodup).2.1) restDone with
        ⟨restPath, restDispatches, restFilled⟩
      refine ⟨restPath.trans firstPath, ?_, ?_⟩
      · rw [restDispatches, firstDispatches, firstPath]
        simp [List.range'_succ]
      · rw [List.flatMap_cons] at nodup waiting ⊢
        rw [List.flatten_cons]
        exact firstFilled.append restFilled adds.wellFormed adds.size_le
          (fun root isRoot => (waiting root isRoot).1) (fun root isRoot => (waiting root isRoot).2)
          nodup

end Region

end WordTemplate
