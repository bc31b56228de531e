import WordTemplate.Proofs.Container.Copies
import WordTemplate.Proofs.Filling.Template
import WordTemplate.Proofs.Total.Splitting

/-!
# Filling the copies of a region succeeds

Copying never fails, and a copy consists of blocks if what is copied does, so that its nodes fit below a
wrapper, which is a host in place of the body. A region shows a part of a template, and so does each of
its copies. If compiling a copy below its wrapper gives the text that this part stands for, then
compiling all copies gives these texts one after the other, in blocks that fit where the region was.
-/

namespace WordTemplate.Edit

open Document Outcome

variable {document before after : Document} {nodes roots : List NodeId} {wrapper : NodeId}
  {stray : NodeId → Prop}

/-- Copying keeps blocks, and the copies of blocks are blocks. -/
theorem succeeds_copyRegion (tiered : document.Tiered stray)
    (inStore : ∀ node ∈ nodes, node.index < document.size)
    (blocks : ∀ node ∈ nodes, document.IsBlock stray node) :
    Succeeds (copyRegion nodes) document fun copy after => after.Tiered stray ∧
      document.size ≤ after.size ∧
      (∀ id, id.index < document.size → document.IsBlock stray id → after.IsBlock stray id) ∧
      ∀ root ∈ copy.roots, after.IsBlock stray root := by
  induction nodes generalizing document with
  | nil => exact Succeeds.of_pure ⟨tiered, Nat.le_refl _, fun _ _ => id, by simp⟩
  | cons node nodes inductionHypothesis =>
      have node_lt := inStore node List.mem_cons_self
      have counts : ∀ id ∈ [node], ¬stray id := by simpa using (blocks node List.mem_cons_self).1
      refine (succeeds_copySubtree tiered node_lt (blocks node List.mem_cons_self).1).bind ?_
      rintro first middle - ⟨copied, middleTiered⟩
      have size_le := copied.retains.size_le
      have isPair : (node, first.root) ∈ first.pairs := (List.forall₂_cons.mp copied.tops).1
      have root_lt := (copied.le_index isPair).2
      have stays : ∀ id, id.index < document.size → document.IsBlock stray id → middle.IsBlock stray id :=
        fun id isOld => copied.isBlock tiered counts (Or.inl ⟨isOld, rfl⟩) (Nat.lt_of_lt_of_le isOld size_le)
      refine (inductionHypothesis middleTiered
        (fun other isOther => Nat.lt_of_lt_of_le (inStore other (List.mem_cons_of_mem _ isOther)) size_le)
        fun other isOther => stays other (inStore other (List.mem_cons_of_mem _ isOther))
          (blocks other (List.mem_cons_of_mem _ isOther))).bind ?_
      rintro others after - ⟨afterTiered, size_le', stays', areBlocks⟩
      refine Succeeds.of_pure ⟨afterTiered, Nat.le_trans size_le size_le', fun id isOld isBlock =>
        stays' id (Nat.lt_of_lt_of_le isOld size_le) (stays id isOld isBlock), ?_⟩
      intro root isRoot
      rcases List.mem_cons.mp isRoot with rfl | isRoot
      · exact stays' _ root_lt (copied.isBlock tiered counts (Or.inr isPair) root_lt
          (blocks node List.mem_cons_self))
      · exact areBlocks root isRoot

theorem succeeds_repeatRegion (tiered : document.Tiered stray)
    (inStore : ∀ node ∈ nodes, node.index < document.size)
    (blocks : ∀ node ∈ nodes, document.IsBlock stray node) (times : Nat) :
    Succeeds (repeatRegion nodes times) document fun copies after => after.Tiered stray ∧
      document.size ≤ after.size ∧
      (∀ id, id.index < document.size → document.IsBlock stray id → after.IsBlock stray id) ∧
      ∀ copy ∈ copies, ∀ root ∈ copy.roots, after.IsBlock stray root := by
  induction times generalizing document with
  | zero => exact Succeeds.of_pure ⟨tiered, Nat.le_refl _, fun _ _ => id, by simp⟩
  | succ times inductionHypothesis =>
      refine (succeeds_copyRegion tiered inStore blocks).bind ?_
      rintro first middle done ⟨middleTiered, size_le, stays, areBlocks⟩
      have copied := copies_of_copyRegion tiered.toWellFormed tiered.toWellFormed
        (Retains.refl document) inStore done
      refine (inductionHypothesis middleTiered
        (fun node isNode => Nat.lt_of_lt_of_le (inStore node isNode) size_le)
        fun node isNode => stays node (inStore node isNode) (blocks node isNode)).bind ?_
      rintro others after - ⟨afterTiered, size_le', stays', othersBlocks⟩
      refine Succeeds.of_pure ⟨afterTiered, Nat.le_trans size_le size_le', fun id isOld isBlock =>
        stays' id (Nat.lt_of_lt_of_le isOld size_le) (stays id isOld isBlock), ?_⟩
      intro copy isCopy root isRoot
      rcases List.mem_cons.mp isCopy with rfl | isCopy
      · rcases exists_of_forall₂ copied.tops isRoot with ⟨node, -, isPair⟩
        exact stays' root (copied.le_index isPair).2 (areBlocks root isRoot)
      · exact othersBlocks copy isCopy root isRoot

/-- Detached blocks can be put below a wrapper, which is a host then. -/
theorem succeeds_fillWrapper (tiered : document.Tiered stray) (nodup : roots.Nodup)
    (detached : ∀ root ∈ roots, document.parent root = none)
    (inStore : ∀ root ∈ roots, root.index < document.size)
    (blocks : ∀ root ∈ roots, document.IsBlock stray root) :
    Succeeds (fillWrapper roots) document fun wrapper after => after.Housed stray wrapper := by
  have wellFormed := tiered.toWellFormed
  have filling : Succeeds (fillWrapper roots) document fun _ after => after.Tiered stray := by
    refine (succeeds_create tiered (.element { name := wrapperName })).bind ?_
    rintro _ _ - ⟨rfl, rfl, addedTiered⟩
    have wrapperNew : ∀ root ∈ roots, root ≠ document.nextId := by
      rintro root isRoot rfl
      exact Nat.lt_irrefl _ (inStore _ isRoot)
    have closed : document.Closed (fun id => document.size ≤ id.index)
        ⟨fun _ => False, fun id => document.size ≤ id.index⟩ := closed_fresh wellFormed fun _ => id
    have neutral := neutral_add wellFormed closed (.element { name := wrapperName })
    have wrapperDetached : (document.add (.element { name := wrapperName })).parent document.nextId =
        none := by
      rw [parent_add]
      exact parent_of_size_le (Nat.le_refl document.size)
    have named : (document.add (.element { name := wrapperName })).isNamed document.nextId
        wrapperName = true := by
      rw [isNamed, name?, element?, content_add, if_pos rfl]
      rfl
    refine (succeeds_forM_appendChild addedTiered (by simp [nextId]) fun root isRoot => ?_).bind
      fun _ _ _ holds => Succeeds.of_pure holds
    have root_lt := inStore root isRoot
    refine ⟨by rw [size_add]; omega, fun inside => wrapperNew root isRoot
      (inside.eq_of_parent_none wrapperDetached).symm, (blocks root isRoot).1, fun hasText =>
      ⟨stands_of_detached wrapperDetached, 3, ?_, ?_⟩, fun named' => ?_, fun named' => ?_⟩
    · have counts := (blocks root isRoot).1
      refine (tier?_congr (neutral.name_eq root_lt) (neutral.isText_eq root_lt)).trans
        ((blocks root isRoot).2 ?_)
      rwa [tiered.hasText_iff counts, ← neutral.runningTexts_eq root_lt,
        ← addedTiered.hasText_iff counts]
    · rw [tier?_of_isNamed named]
      decide
    · rw [isNamed_eq_false named (by decide)] at named'
      cases named'
    · rw [isNamed_eq_false named (by decide)] at named'
      cases named'
  refine filling.imp fun wrapper after done afterTiered => ?_
  have wrapped := wrapped_of_fillWrapper wellFormed document.closed_everywhere nodup detached inStore
    (fun _ _ => trivial) (fun _ _ => trivial) done
  refine ⟨afterTiered, tiered.not_stray_new wrapped.isNew, ?_,
    stands_of_detached wrapped.wrapper_parent⟩
  rw [tier?_of_isNamed wrapped.wrapper_named]
  decide

/-- A wrapper can be emptied again, which leaves blocks and all text. -/
theorem succeeds_emptyWrapper {host : NodeId} (housed : document.Housed stray host) :
    Succeeds (emptyWrapper host) document fun nodes after => after.Tiered stray ∧
      (∀ node ∈ nodes, after.IsBlock stray node) ∧ ∀ id, after.textOf id = document.textOf id := by
  refine Succeeds.of_get ((succeeds_forM_detach housed).bind ?_)
  rintro ⟨⟩ after done housed'
  have drops := drops_of_forM_detach housed.toWellFormed done
  refine Succeeds.of_pure ⟨housed'.toTiered, fun node isNode => ?_, fun id => ?_⟩
  · exact (housed.isBlock ((housed.toWellFormed.mem_children_iff _ _).mp isNode)).drops drops
  · rw [textOf, text?, drops.content_eq, ← text?, ← textOf]

end WordTemplate.Edit

namespace WordTemplate

open Document Outcome

variable {compiler : Compiler} {context : Context} {region : Region} {compile : RegionCompiler region}
  {source : Document} {nodes : List NodeId} {pieces : List Piece} {copy : RegionCopy}
  {copies : List RegionCopy} {scoping : Region.Scoping} {index : Nat} {before : Workspace}
  {stray : NodeId → Prop}

namespace Succeeds

theorem of_withPart {part : PathPart} {work : Work Unit} {P : Document → Prop}
    (succeeds : Succeeds work { before with path := before.path.enter part }
      fun _ after => P after.document) :
    Succeeds (Work.withPart part work) before fun _ after => P after.document := by
  rcases succeeds with ⟨⟨⟩, inner, done, holds⟩
  exact ⟨⟨⟩, _, Work.withPart_eq_ok.mpr ⟨inner, done, rfl⟩, holds⟩

theorem of_thenAlways {α β : Type} {work : Work α} {finish : Work β} {P : α → Workspace → Prop}
    {result : β → Workspace → Prop} (succeeds : Succeeds work before P)
    (later : ∀ a middle, work before = .ok a middle → P a middle →
      Succeeds finish middle result) :
    Succeeds (Work.thenAlways work finish) before result := by
  rcases succeeds with ⟨a, middle, done, holds⟩
  rcases later a middle done holds with ⟨b, after, done', holds'⟩
  exact ⟨b, after, Work.thenAlways_eq_ok.mpr ⟨a, middle, done, done'⟩, holds'⟩

end Succeeds

/-- The leaves among tags stand for texts. -/
def Compiler.PlainAt (compiler : Compiler) (context : Context) (path : ScopePath) (tags : List Tag) :
    Prop :=
  ∀ dispatch ∈ compiler.unroll context path tags, context.PlainAt dispatch.path

namespace Document

/-- The running text of a host shows a template with nested tags that wait to be filled. -/
structure Prepared (stray zone : NodeId → Prop) (base : Nat) (document : Document) (host : NodeId)
    (pieces : List Piece) : Prop where
  ready : Ready zone base document ((Piece.tags pieces).map Tag.textNode)
  housed : document.Housed stray host
  shows : document.Shows (document.runningTexts host) pieces
  nested : Nested (Piece.tags pieces)

end Document

/-- Compiling tags of a region gives the text that the template stands for. -/
def RegionCompiler.Renders (compile : RegionCompiler region) (stray : NodeId → Prop)
    (compiler : Compiler) (context : Context) : Prop :=
  ∀ {tags fits zone base host pieces} {before : Workspace}, Piece.tags pieces = tags →
    Prepared stray zone base before.document host pieces →
    compiler.PlainAt context before.path tags →
    Succeeds (compile tags fits) before fun _ after => after.document.Housed stray host ∧
      after.document.segmentText (after.document.runningTexts host) =
        compiler.expand context before.path pieces

namespace Region

/-- The nodes of a region show a template with the tags of the region. -/
structure ShownBy (region : Region) (source : Document) (nodes : List NodeId) (pieces : List Piece) :
    Prop where
  ordered : (region.innerTags.map Tag.textNode).Sublist (nodes.flatMap source.runningTexts)
  solitary : ∀ tag ∈ region.innerTags, source.Solitary tag.textNode
  shows : source.Shows (nodes.flatMap source.runningTexts) pieces
  tags_eq : Piece.tags pieces = region.innerTags
  nested : Nested region.innerTags

/-- A copy below its wrapper is prepared to be filled. -/
theorem ShownBy.prepared {document wrapped : Document} {wrapper : NodeId}
    (shown : region.ShownBy source nodes pieces) (copied : Copied source document nodes copy)
    (adds : Adds source document) (sourceFormed : source.WellFormed) (housed : wrapped.Housed stray wrapper)
    (done : Edit.fillWrapper copy.roots document = .ok wrapper wrapped) :
    Prepared stray (wrapped.Below wrapper) source.size wrapped wrapper
      (pieces.map (Piece.relocated copy.carried)) := by
  have formed := adds.wellFormed
  have inZone : ∀ root ∈ copy.roots, document.BelowRoots copy.roots root :=
    fun root isRoot => Or.inl ⟨root, isRoot, LiesIn.refl⟩
  have fresh : ∀ id : NodeId, document.size ≤ id.index → source.size ≤ id.index :=
    fun _ => Nat.le_trans adds.size_le
  have closed : document.Closed (document.BelowRoots copy.roots) (newRights source.size) :=
    closed_belowRoots formed fresh copy.roots
  have wraps := Edit.wrapped_of_fillWrapper formed closed copied.nodup copied.detached copied.inStore inZone
    copied.isNew done
  -- No text is written, which the rights of a compiled copy would allow.
  have closed' : document.Closed (document.BelowRoots copy.roots)
      ⟨fun _ => False, (source.size ≤ ·.index)⟩ := closed_belowRoots formed fresh copy.roots
  have keeps := Edit.wrapped_of_fillWrapper formed closed' copied.nodup copied.detached copied.inStore inZone
    copied.isNew done
  have tags_eq : copy.tags region.innerTags = region.innerTags.map copy.carried :=
    copied.tags_eq fun tag isInner => shown.ordered.subset (List.mem_map_of_mem isInner)
  refine ⟨?_, housed, ?_, ?_⟩
  · rw [Piece.tags_relocated, shown.tags_eq, ← tags_eq]
    exact ready_of_wrapped copied adds sourceFormed wraps shown.ordered shown.solitary
  · rw [wraps.runningTexts copied.inStore, copied.texts_eq]
    refine shown.shows.image fun id isMember => ?_
    have isImage : copy.image id ∈ copy.roots.flatMap document.runningTexts := by
      rw [copied.texts_eq]
      exact List.mem_map_of_mem isMember
    have isOld : (copy.image id).index < document.size := by
      rcases List.mem_flatMap.mp isImage with ⟨root, isRoot, isText⟩
      exact lt_size_below (liesIn_of_mem_runningTexts formed isText) (copied.inStore root isRoot)
    rw [textOf, keeps.text_eq isOld not_false,
      copied.text_eq _ _ (copied.lookup_eq isMember).2 isImage, ← textOf]
  · rw [Piece.tags_relocated, shown.tags_eq]
    exact shown.nested.map fun tag => ⟨_, rfl⟩

/-- A copy was compiled below its wrapper, which now has the given running text. -/
structure Compiled (stray : NodeId → Prop) (base : Nat) (document : Document) (wrapper : NodeId)
    (text : List Char) (after : Document) : Prop where
  housed : after.Housed stray wrapper
  text_eq : after.segmentText (after.runningTexts wrapper) = text
  changes : ChangesWithin (document.Below wrapper) (.since base document) document after

/-- The tags of a copy can be compiled below its wrapper. -/
theorem succeeds_compile {document wrapped : Document} {wrapper : NodeId} {inside : Workspace}
    (renders : compile.Renders stray compiler context) (unrolls : compile.Unrolls compiler context)
    (shown : region.ShownBy source nodes pieces) (copied : Copied source document nodes copy)
    (adds : Adds source document) (sourceFormed : source.WellFormed) (housed : wrapped.Housed stray wrapper)
    (done : Edit.fillWrapper copy.roots document = .ok wrapper wrapped)
    (isWrapped : inside.document = wrapped)
    (plain : compiler.PlainAt context inside.path region.innerTags) :
    Succeeds (compile (copy.tags region.innerTags) (copy.length_tags_le region.innerTags)) inside
      fun _ after => Compiled stray source.size wrapped wrapper
        (compiler.expand context inside.path pieces) after.document := by
  subst isWrapped
  have relocates : ∀ tag, ∃ node, copy.carried tag = tag.relocated node := fun tag => ⟨_, rfl⟩
  have tagsAre : Piece.tags (pieces.map (Piece.relocated copy.carried)) = copy.tags region.innerTags := by
    rw [Piece.tags_relocated, shown.tags_eq,
      copied.tags_eq fun tag isInner => shown.ordered.subset (List.mem_map_of_mem isInner)]
  have prepared := shown.prepared copied adds sourceFormed housed done
  have plain' : compiler.PlainAt context inside.path (copy.tags region.innerTags) := by
    rw [Compiler.PlainAt, ← tagsAre, Piece.tags_relocated, shown.tags_eq,
      Compiler.unroll_map relocates]
    exact plain
  refine (renders tagsAre prepared plain').imp ?_
  rintro ⟨⟩ after compileDone ⟨housed', text⟩
  rw [Compiler.expand_relocated relocates] at text
  exact ⟨housed', text, (unrolls (tagsAre ▸ prepared.ready) compileDone).changes⟩

/-- A copy is compiled to blocks with the text that the region stands for. -/
theorem succeeds_compileCopy (renders : compile.Renders stray compiler context)
    (unrolls : compile.Unrolls compiler context) (shown : region.ShownBy source nodes pieces)
    (copied : Copied source before.document nodes copy) (adds : Adds source before.document)
    (sourceFormed : source.WellFormed) (tiered : before.document.Tiered stray)
    (blocks : ∀ root ∈ copy.roots, before.document.IsBlock stray root)
    (plain : compiler.PlainAt context (scoping.innerPath before.path index) region.innerTags) :
    Succeeds (region.compileCopy compile scoping index copy) before fun group after =>
      after.document.Tiered stray ∧ (∀ node ∈ group, after.document.IsBlock stray node) ∧
        after.document.segmentText (group.flatMap after.document.runningTexts) =
          compiler.expand context (scoping.innerPath before.path index) pieces := by
  refine (Succeeds.of_edit_work (Edit.succeeds_fillWrapper tiered copied.nodup copied.detached
    copied.inStore blocks)).bind ?_
  rintro wrapper wrapped wrapDone ⟨housed, path_eq⟩
  rw [edit_work_eq_ok] at wrapDone
  rcases wrapDone with ⟨document, wrapDone, rfl⟩
  refine Succeeds.of_thenAlways (P := fun _ after => Compiled stray source.size document wrapper
    (compiler.expand context (scoping.innerPath before.path index) pieces) after.document) ?_ ?_
  · cases scoping with
    | indexed =>
        exact Succeeds.of_withPart (succeeds_compile renders unrolls shown copied adds sourceFormed
          housed wrapDone rfl plain)
    | unchanged =>
        exact succeeds_compile renders unrolls shown copied adds sourceFormed housed wrapDone rfl plain
  · rintro ⟨⟩ filled - compiled
    refine (Succeeds.of_edit_work (Edit.succeeds_emptyWrapper compiled.housed)).imp ?_
    rintro group after emptyDone ⟨⟨tiered', blocks', textOf_eq⟩, -⟩
    rw [edit_work_eq_ok] at emptyDone
    rcases emptyDone with ⟨emptied, emptyDone, rfl⟩
    refine ⟨tiered', blocks', ?_⟩
    rw [(Edit.filled_of_wrapper copied adds.wellFormed adds.size_le copied.isNew wrapDone
      compiled.changes emptyDone).2, segmentText_congr fun id _ => textOf_eq id, compiled.text_eq]

/-- The copies of a region are compiled to blocks with the texts that the region stands for. -/
theorem succeeds_compileCopies (renders : compile.Renders stray compiler context)
    (unrolls : compile.Unrolls compiler context) (shown : region.ShownBy source nodes pieces)
    (adds : Adds source before.document) (sourceFormed : source.WellFormed)
    (copied : ∀ copy ∈ copies, Copied source before.document nodes copy)
    (nodup : (copies.flatMap RegionCopy.roots).Nodup) (tiered : before.document.Tiered stray)
    (blocks : ∀ copy ∈ copies, ∀ root ∈ copy.roots, before.document.IsBlock stray root)
    (plain : ∀ place ∈ List.range' index copies.length,
      compiler.PlainAt context (scoping.innerPath before.path place) region.innerTags) :
    Succeeds (region.compileCopies compile scoping index copies) before fun groups after =>
      after.document.Tiered stray ∧ (∀ node ∈ groups.flatten, after.document.IsBlock stray node) ∧
        after.document.segmentText (groups.flatten.flatMap after.document.runningTexts) =
          (List.range' index copies.length).flatMap fun place =>
            compiler.expand context (scoping.innerPath before.path place) pieces := by
  induction copies generalizing before index with
  | nil => exact Succeeds.of_pure ⟨tiered, by simp, rfl⟩
  | cons copy rest inductionHypothesis =>
      have firstCopied := copied copy List.mem_cons_self
      have nodupRest : (rest.flatMap RegionCopy.roots).Nodup := by
        rw [List.flatMap_cons] at nodup
        exact (List.nodup_append.mp nodup).2.1
      rw [List.length_cons, List.range'_succ] at plain
      refine (succeeds_compileCopy renders unrolls shown firstCopied adds sourceFormed tiered
        (blocks copy List.mem_cons_self) (plain index List.mem_cons_self)).bind ?_
      rintro group middle firstDone ⟨middleTiered, groupBlocks, groupText⟩
      rcases filled_of_compileCopy unrolls firstCopied adds sourceFormed shown.ordered shown.solitary
        firstDone with ⟨path_eq, -, filled⟩
      -- The copies that come later stay as they are.
      have adds' := filled.adds adds sourceFormed firstCopied
      have copied' : ∀ other ∈ rest, Copied source middle.document nodes other :=
        fun _ => filled.copied adds copied nodup
      have blocks' : ∀ other ∈ rest, ∀ root ∈ other.roots, middle.document.IsBlock stray root :=
        fun other isOther root isRoot => (blocks other (List.mem_cons_of_mem _ isOther) root isRoot).changes
          filled.toChangesWithin tiered middleTiered
          ((copied other (List.mem_cons_of_mem _ isOther)).inStore root isRoot)
          fun _ => Edit.Filled.outside copied nodup isOther isRoot
      have plain' : ∀ place ∈ List.range' (index + 1) rest.length,
          compiler.PlainAt context (scoping.innerPath middle.path place) region.innerTags := by
        rw [path_eq]
        exact fun place isPlace => plain place (List.mem_cons_of_mem _ isPlace)
      refine (inductionHypothesis adds' copied' nodupRest middleTiered blocks' plain').bind ?_
      rintro groups after restDone ⟨afterTiered, restBlocks, restText⟩
      have restFilled := (filled_of_compileCopies unrolls adds' sourceFormed copied' nodupRest
        shown.ordered shown.solitary restDone).2.2
      -- What the first copy became stays as it is while the later ones are compiled.
      have notBelow : ∀ node ∈ group, ∀ id, middle.document.LiesIn node id →
          ¬middle.document.BelowRoots (rest.flatMap RegionCopy.roots) id :=
        fun _ isNode _ => filled.not_belowRoots_rest adds copied nodup isNode
      refine Succeeds.of_pure ⟨afterTiered, fun node isNode => ?_, ?_⟩
      · rw [List.flatten_cons, List.mem_append] at isNode
        rcases isNode with isFirst | isLater
        · exact (groupBlocks node isFirst).changes restFilled.toChangesWithin middleTiered afterTiered
            (filled.inStore node isFirst) (notBelow node isFirst)
        · exact restBlocks node isLater
      · have texts_eq : group.flatMap after.document.runningTexts =
            group.flatMap middle.document.runningTexts := List.flatMap_congr fun node isNode =>
          restFilled.runningTexts_eq_of_outside middleTiered.toWellFormed (notBelow node isNode)
        have same : ∀ id ∈ group.flatMap middle.document.runningTexts,
            after.document.textOf id = middle.document.textOf id := by
          intro id isMember
          rcases List.mem_flatMap.mp isMember with ⟨node, isNode, isText⟩
          rw [textOf, text?, restFilled.content_eq (notBelow node isNode id
            (liesIn_of_mem_runningTexts middleTiered.toWellFormed isText)), ← text?, ← textOf]
        rw [List.flatten_cons, List.flatMap_append, segmentText_append, texts_eq, segmentText_congr same,
          groupText, restText, path_eq, List.length_cons, List.range'_succ, List.flatMap_cons]

end Region

end WordTemplate
