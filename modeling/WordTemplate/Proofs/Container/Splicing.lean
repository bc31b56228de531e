import WordTemplate.Proofs.Container.Regions
import WordTemplate.Proofs.Document.Rewiring

/-!
# Splicing whole nodes

A loop over rows or list paragraphs replaces the siblings from the one around its opening tag to the
one around its closing tag. Before it copies them it takes the carriers of both tags out of them,
together with runs that are empty then. The compiled copies take the place of the siblings in the
order in which they were made. The siblings to the left and to the right are the nodes that they were,
and nothing below them has changed.
-/

namespace WordTemplate

namespace Document

variable {before middle after document cut : Document} {id parent : NodeId}
  {ids roots left range right nodes : List NodeId} {pairs : List (NodeId × NodeId)}

/-- The children `range` of `parent` were replaced by new nodes. Among the older nodes only `parent`
and nodes in the range have other children, and only nodes in the range have another parent. -/
structure Spliced (before after : Document) (parent : NodeId) (left range right nodes : List NodeId) :
    Prop extends
    Rewires (fun id => id = parent ∨ ∃ node ∈ range, before.LiesIn node id)
      (fun id => ∃ node ∈ range, before.LiesIn node id) before after where
  were : before.children parent = left ++ range ++ right
  are : after.children parent = left ++ nodes ++ right
  detached : ∀ id ∈ range, after.parent id = none
  isNew : ∀ node ∈ nodes, before.size ≤ node.index

/-- The siblings around the range keep their trees. -/
theorem Spliced.tree_eq (spliced : Spliced before after parent left range right nodes)
    (wellFormed : before.WellFormed) (isOther : id ∈ left ++ right) : after.tree id = before.tree id := by
  have nodup := wellFormed.nodup_children parent
  rw [spliced.were] at nodup
  have isParent : ∀ child ∈ left ++ range ++ right, before.parent child = some parent := by
    intro child isChild
    rwa [← wellFormed.mem_children_iff, spliced.were]
  have isSibling := isParent id (by
    simp only [List.mem_append] at isOther ⊢
    tauto)
  refine spliced.toRewires.tree_eq wellFormed (lt_size_of_parent isSibling) ?_
  rintro other inside (rfl | ⟨node, isReplaced, above⟩)
  · exact not_liesIn_of_parent wellFormed isSibling inside
  · refine not_liesIn_of_siblings wellFormed isSibling (isParent node (by simp [isReplaced])) ?_
      inside above
    rintro rfl
    simp only [List.nodup_append, List.mem_append] at nodup isOther
    grind

/-- Copies have the trees of the nodes they were made of. -/
theorem Copies.trees_eq {source : Document} {holder : Option NodeId}
    (copied : Copies source before after holder ids roots pairs) (sourceFormed : source.WellFormed)
    (retains : Retains source before) : roots.map after.tree = ids.map source.tree := by
  have size_le : source.size ≤ after.size := by
    rw [copied.size_eq]
    exact Nat.le_trans retains.size_le (Nat.le_add_right _ _)
  exact map_eq_of_forall₂ copied.tops fun id _ copy isPair =>
    tree_eq_of_related sourceFormed size_le (fun id copy => copied.content_eq (id, copy))
      (fun id copy => copied.children_eq (id, copy)) isPair

end Document

namespace Edit

open Outcome Document

variable {source before after document document' : Document} {tail parent : NodeId}
  {nodes : List NodeId} {copy : RegionCopy} {copies : List RegionCopy} {times : Nat} {result : Unit}

/-- Every copy of a region has the trees of the region. -/
theorem trees_of_repeatRegion (sourceFormed : source.WellFormed) (wellFormed : before.WellFormed)
    (retains : Retains source before) (inStore : ∀ node ∈ nodes, node.index < source.size)
    (done : repeatRegion nodes times before = .ok copies after) :
    after.WellFormed ∧ Retains before after ∧
      ∀ copy ∈ copies, copy.roots.map after.tree = nodes.map source.tree := by
  induction times generalizing before copies with
  | zero =>
      simp only [repeatRegion, pure_eq_ok] at done
      rcases done with ⟨rfl, rfl⟩
      exact ⟨wellFormed, .refl before, by simp⟩
  | succ times inductionHypothesis =>
      simp only [repeatRegion, bind_eq_ok, pure_eq_ok] at done
      rcases done with ⟨copy, middle, copyDone, others, _, done, rfl, rfl⟩
      have first := copies_of_copyRegion sourceFormed wellFormed retains inStore copyDone
      rcases inductionHypothesis first.wellFormed (retains.trans first.retains) done with
        ⟨formed, retains', trees⟩
      refine ⟨formed, first.retains.trans retains', fun other isOther => ?_⟩
      rcases List.mem_cons.mp isOther with rfl | isOther
      · rw [← first.trees_eq sourceFormed retains]
        refine List.map_congr_left fun root isRoot => ?_
        rcases exists_of_forall₂ first.tops isRoot with ⟨original, -, isPair⟩
        exact (retains'.rewires formed).tree_eq first.wellFormed (first.le_index isPair).2
          fun _ _ => id
      · exact trees other isOther

/-- Detached nodes that are placed beside a node leave all other nodes where they are. -/
theorem rewires_of_forM_insertBefore (wellFormed : document.WellFormed)
    (isParent : document.parent tail = some parent)
    (detached : ∀ node ∈ nodes, document.parent node = none) (nodup : nodes.Nodup)
    (inStore : ∀ node ∈ nodes, node.index < document.size)
    (done : (forM nodes fun node => insertBefore node tail) document = .ok result document') :
    Rewires (· = parent) (· ∈ nodes) document document' := by
  induction nodes generalizing document with
  | nil =>
      rw [forM_nil_eq_ok] at done
      exact done ▸ .refl wellFormed
  | cons node rest inductionHypothesis =>
      rw [forM_cons_eq_ok] at done
      rcases done with ⟨middle, inserted, done⟩
      rcases moves_of_insertBefore wellFormed (inStore node List.mem_cons_self) inserted with
        ⟨parent', left, right, isParent', differ, moves⟩
      rcases isParent.symm.trans isParent' with ⟨⟩
      have nodeDetached := detached node List.mem_cons_self
      rw [List.nodup_cons] at nodup
      have others := inductionHypothesis moves.wellFormed
        (by rw [moves.parent_eq, if_neg differ.symm, isParent])
        (fun other isOther => by
          have notMoved : other ≠ node := by
            rintro rfl
            exact nodup.1 isOther
          rw [moves.parent_eq, if_neg notMoved]
          exact detached other (List.mem_cons_of_mem _ isOther))
        nodup.2
        (fun other isOther => by
          rw [moves.size_eq]
          exact inStore other (List.mem_cons_of_mem _ isOther)) done
      refine (moves.rewires wellFormed).trans others ?_ ?_ (fun _ _ => id)
        fun _ _ isOther => List.mem_cons_of_mem _ isOther
      · rintro id (isTarget | wasParent)
        · exact isTarget
        · simp [nodeDetached] at wasParent
      · rintro id rfl
        exact List.mem_cons_self

end Edit

namespace Strategy

open Outcome Document

variable {zone : NodeId → Prop} {rights : Rights} {base : Nat} {before cut document after : Document}
  {tops inner later left range right : List NodeId} {opening closing parent first last : NodeId}
  {name : String} {region : CutRegion} {groups : List (List NodeId)} {result : Unit}

/-- Waiting nodes that replace siblings leave everything as it is but their new parent. -/
theorem rewires_of_replaceRange (wellFormed : document.WellFormed)
    (stretch : document.Stretch parent first last left range right)
    (detached : ∀ node ∈ groups.flatten, document.parent node = none)
    (nodup : groups.flatten.Nodup) (inStore : ∀ node ∈ groups.flatten, node.index < document.size)
    (done : replaceRange groups first last document = .ok result after) :
    Rewires (· = parent) (fun id => id ∈ range ∨ id ∈ groups.flatten) document after := by
  simp only [replaceRange, bind_eq_ok, Edit.siblingRange_eq_ok] at done
  rcases done with ⟨replaced, _, ⟨isRange, rfl⟩, ⟨⟩, middle, inserted, dropped⟩
  rcases stretch_of_siblingRange isRange with ⟨parent', left', right', stretch'⟩
  rcases stretch.unique wellFormed stretch' with ⟨rfl, rfl, rfl, rfl⟩
  have inserts := Edit.rewires_of_forM_insertBefore wellFormed stretch.isParent detached nodup inStore
    inserted
  have drops := drops_of_forM_detach inserts.wellFormed dropped
  refine inserts.trans (drops.rewires inserts.wellFormed) (fun _ => id) (fun _ => Or.inr) ?_
    fun _ _ => Or.inl
  rintro id - ⟨child, isReplaced, isParent⟩
  have wasParent := stretch.parent_eq wellFormed isReplaced
  rw [inserts.parent_eq child (lt_size_of_parent wasParent) fun isNode => by
    simp [detached child isNode] at wasParent, wasParent] at isParent
  exact (Option.some.inj isParent).symm

/-- The siblings `range` are to be replaced. Both tags were taken out of the first and the last one of
them, and all siblings are to be repeated, but for paragraphs at the ends that held nothing but a
tag. -/
structure Excised (before after : Document) (opening closing : NodeId) (region : CutRegion)
    (parent : NodeId) (left range right : List NodeId) : Prop where
  kind : region.kind = .wholeNodes
  was : before.Stretch parent region.first region.last left range right
  stretch : after.Stretch parent region.first region.last left range right
  strips : ∃ dropped,
    Strips before after [opening, closing] [region.first, region.last] dropped
  shows : after.showsChildren parent = true
  fewer : region.nodes.Sublist range
  left_out : ∀ node ∈ range, node ∉ region.nodes →
    (node = region.first ∨ node = region.last) ∧ after.isEmptyParagraph node = true

theorem TagsTaken.excised
    (tags : TagsTaken zone rights before after tops opening closing inner later name region.first
      region.last range)
    (whole : WholeCut zone rights before after tops opening closing inner later region)
    (wellFormed : before.WellFormed)
    (pending : before.Pending tops (opening :: (inner ++ closing :: later)))
    (left_out : ∀ node ∈ range, node ∉ region.nodes →
      (node = region.first ∨ node = region.last) ∧ after.isEmptyParagraph node = true) :
    ∃ parent left right, Excised before after opening closing region parent left range right := by
  rcases whole.enclosed with ⟨parent, left, range', right, enclosed, fewer, -⟩
  rcases stretch_of_siblingRange tags.isRange with ⟨parent', left', right', stretch⟩
  rcases enclosed.stretch.unique whole.wellFormed stretch with ⟨rfl, rfl, rfl, rfl⟩
  rcases tags.strips wellFormed pending with ⟨dropped, strips⟩
  exact ⟨parent, left, right, {
    kind := whole.kind
    was := (strips.toDrops.stretch wellFormed (by simpa using strips.inside) stretch).1
    stretch
    strips := ⟨dropped, strips⟩
    shows := (enclosed.above parent LiesIn.refl).2
    fewer
    left_out }⟩

/-- Compiled copies take the place of the siblings that a cut went through. -/
theorem Excised.spliced (excised : Excised before cut opening closing region parent left range right)
    (wellFormed : before.WellFormed) (waiting : Waiting cut document groups.flatten)
    (done : putBack region groups document = .ok result after) :
    Spliced before after parent left range right groups.flatten := by
  rcases excised.strips with ⟨dropped, strips⟩
  rw [putBack, excised.kind] at done
  rcases replaced_of_waiting waiting strips.wellFormed excised.shows excised.stretch done with
    ⟨stretch, replaced, -⟩
  have isNew : ∀ node ∈ groups.flatten, before.size ≤ node.index := fun node isNode =>
    strips.size_eq ▸ waiting.isNew node isNode
  have inRange : ∀ {pivot}, pivot ∈ [region.first, region.last] → pivot ∈ range := by
    intro pivot isPivot
    simp only [List.mem_cons, List.not_mem_nil, or_false] at isPivot
    rcases isPivot with rfl | rfl
    · exact List.mem_of_head? excised.was.head_eq
    · exact excised.was.last_mem
  -- The cut changes nodes of the range, and putting the copies back changes their new parent.
  have stripped : Rewires (fun id => id = parent ∨ ∃ node ∈ range, before.LiesIn node id)
      (fun id => ∃ node ∈ range, before.LiesIn node id) before cut := by
    refine (strips.toDrops.rewires wellFormed).mono ?_ fun id isDropped => ?_
    · rintro id ⟨child, isDropped, isParent⟩
      rcases strips.inside child isDropped with ⟨holder, isHolder, pivot, isPivot, above⟩
      rcases isParent.symm.trans isHolder with ⟨⟩
      exact Or.inr ⟨pivot, inRange isPivot, above⟩
    · rcases strips.inside id isDropped with ⟨holder, isHolder, pivot, isPivot, above⟩
      exact ⟨pivot, inRange isPivot, LiesIn.of_parent isHolder above⟩
  have copied := stripped.trans (waiting.toRetains.rewires waiting.wellFormed) (fun _ => id)
    (fun _ => id) (fun _ _ => False.elim) fun _ _ => False.elim
  refine ⟨copied.trans (rewires_of_replaceRange waiting.wellFormed stretch waiting.detached
    waiting.nodup waiting.inStore done) (fun _ => id) (fun _ => id) (fun _ _ => Or.inl) ?_,
    excised.was.children_eq, replaced.children_eq, replaced.detached, isNew⟩
  rintro id isOld (isReplaced | isNode)
  · exact ⟨id, isReplaced, LiesIn.refl⟩
  · exact absurd isOld (Nat.not_lt_of_le (isNew id isNode))

/-- The compiled copies are put into their place as they are. -/
theorem Excised.trees_eq (excised : Excised before cut opening closing region parent left range right)
    (waiting : Waiting cut document groups.flatten)
    (done : putBack region groups document = .ok result after) {node : NodeId}
    (isNode : node ∈ groups.flatten) : after.tree node = document.tree node := by
  rcases excised.strips with ⟨dropped, strips⟩
  rw [putBack, excised.kind] at done
  rcases replaced_of_waiting waiting strips.wellFormed excised.shows excised.stretch done with
    ⟨stretch, -, -⟩
  refine (rewires_of_replaceRange waiting.wellFormed stretch waiting.detached waiting.nodup
    waiting.inStore done).tree_eq waiting.wellFormed (waiting.inStore node isNode) ?_
  rintro other inside rfl
  exact waiting.not_liesIn_new strips.wellFormed
    (parent_lt_size strips.wellFormed excised.stretch.isParent) (waiting.isNew node isNode) inside

/-- The row or the paragraph around a tag, whichever a strategy repeats. -/
def unit? (document : Document) (tag : Tag) : Strategy → Option NodeId
  | table _ => document.tableRow? tag.textNode
  | list | paragraph => document.paragraph? tag.textNode

/-- Whether a strategy repeats whole rows or whole list paragraphs. -/
def repeatsWhole (document : Document) (openingTag closingTag : Tag) : Strategy → Bool
  | table standard => chosenLoopOver document standard openingTag closingTag = .row
  | list => true
  | paragraph => false

/-- A strategy that repeats whole nodes takes the siblings between the ones around the tags. -/
theorem excised_of_cut {strategy : Strategy} {start cutOut : Workspace} {openingTag closingTag : Tag}
    (ready : Ready zone base start.document
      (openingTag.textNode :: (inner ++ closingTag.textNode :: later)))
    (whole : strategy.repeatsWhole start.document openingTag closingTag = true)
    (done : strategy.cut openingTag closingTag start = .ok region cutOut) :
    strategy.unit? start.document openingTag = some region.first ∧
      strategy.unit? start.document closingTag = some region.last ∧
      ∃ parent left range right, Excised start.document cutOut.document openingTag.textNode
        closingTag.textNode region parent left range right := by
  have reached : Reached zone base start.document start.document _ := ready
  have wellFormed := reached.wellFormed
  rcases reached.pending with ⟨tops, known, pending⟩
  rcases inZone_and_unplaced ready known with ⟨inZone, unplaced⟩
  have cutDone := (extraction_of_cut done).2
  rcases strategy with standard | _ | _
  · rw [repeatsWhole, decide_eq_true_eq] at whole
    rw [extraction, whole] at cutDone
    rcases tagsTaken_of_cutRows wellFormed reached.closed unplaced pending inZone cutDone with
      ⟨tags, -, isFirst, isLast⟩
    rcases tags.excised (wholeCut_of_cutRows wellFormed reached.closed unplaced pending inZone cutDone)
      wellFormed pending (fun node isMember isLeftOut => absurd isMember isLeftOut) with
      ⟨parent, left, right, excised⟩
    exact ⟨isFirst, isLast, parent, left, _, right, excised⟩
  · rcases tagsTaken_of_cutListItems wellFormed reached.closed unplaced pending inZone cutDone with
      ⟨range, tags, -, isFirst, isLast, nodesAre⟩
    rcases tags.excised
      (wholeCut_of_cutListItems wellFormed reached.closed unplaced pending inZone cutDone)
      wellFormed pending (fun node isMember isLeftOut => by
        rw [nodesAre, List.mem_filter, not_and, Bool.not_eq_true, Bool.not_eq_false'] at isLeftOut
        have heldOnlyTag := isLeftOut isMember
        simp only [Bool.and_eq_true, Bool.or_eq_true, decide_eq_true_eq] at heldOnlyTag
        exact ⟨heldOnlyTag.1.2, heldOnlyTag.2⟩) with
      ⟨parent, left, right, excised⟩
    exact ⟨isFirst, isLast, parent, left, range, right, excised⟩
  · simp [repeatsWhole] at whole

end Strategy

namespace Region

open Outcome Document

variable {zone : NodeId → Prop} {base times index : Nat} {source copied document final : Document}
  {region : Region} {compile : RegionCompiler region} {compiler : Compiler} {context : Context}
  {scoping : Scoping} {strategy : Strategy} {cutRegion : CutRegion} {path : ScopePath}
  {nodes group later : List NodeId} {copies : List RegionCopy} {groups : List (List NodeId)}
  {start cut before after compiled : Workspace} {result : Unit}

/-- `group` is what a copy of `nodes` became when it was compiled as the copy with the number `index`,
and it still is what it was then. -/
def CompiledAt (region : Region) (compile : RegionCompiler region) (scoping : Scoping)
    (path : ScopePath) (source : Document) (nodes : List NodeId) (final : Document) (index : Nat)
    (group : List NodeId) : Prop :=
  ∃ (copy : RegionCopy) (before after : Workspace), before.path = path ∧
    copy.roots.map before.document.tree = nodes.map source.tree ∧
    region.compileCopy compile scoping index copy before = .ok group after ∧
    group.map final.tree = group.map after.document.tree

theorem CompiledAt.of_trees_eq
    (compiledAt : region.CompiledAt compile scoping path source nodes document index group)
    (trees_eq : ∀ node ∈ group, final.tree node = document.tree node) :
    region.CompiledAt compile scoping path source nodes final index group := by
  rcases compiledAt with ⟨copy, before, after, path_eq, trees, done, same⟩
  exact ⟨copy, before, after, path_eq, trees, done, (List.map_congr_left trees_eq).trans same⟩

/-- Each group is a compiled copy, and compiling the later copies leaves it as it is. -/
theorem compiledAt_of_compileCopies (unrolls : compile.Unrolls compiler context)
    (adds : Adds source before.document) (sourceFormed : source.WellFormed)
    (copied : ∀ copy ∈ copies, Copied source before.document nodes copy)
    (trees : ∀ copy ∈ copies, copy.roots.map before.document.tree = nodes.map source.tree)
    (nodup : (copies.flatMap RegionCopy.roots).Nodup)
    (ordered : (region.innerTags.map Tag.textNode).Sublist (nodes.flatMap source.runningTexts))
    (solitary : ∀ tag ∈ region.innerTags, source.Solitary tag.textNode)
    (done : region.compileCopies compile scoping index copies before = .ok groups after) :
    groups.length = copies.length ∧ ∀ offset group, groups[offset]? = some group →
      region.CompiledAt compile scoping before.path source nodes after.document (index + offset)
        group := by
  induction copies generalizing index before groups with
  | nil =>
      rw [compileCopies, pure_eq_ok] at done
      rcases done with ⟨rfl, rfl⟩
      simp
  | cons copy rest inductionHypothesis =>
      simp only [compileCopies, bind_eq_ok, pure_eq_ok] at done
      rcases done with ⟨group, middle, firstDone, others, last, restDone, rfl, rfl⟩
      have firstCopied := copied copy List.mem_cons_self
      rcases filled_of_compileCopy unrolls firstCopied adds sourceFormed ordered solitary
        firstDone with ⟨firstPath, -, firstFilled⟩
      have restAdds := firstFilled.adds adds sourceFormed firstCopied
      have restCopied : ∀ other ∈ rest, Copied source middle.document nodes other :=
        fun _ => firstFilled.copied adds copied nodup
      have restTrees : ∀ other ∈ rest,
          other.roots.map middle.document.tree = nodes.map source.tree := by
        intro other isOther
        rw [← trees other (List.mem_cons_of_mem _ isOther)]
        exact List.map_congr_left fun root isRoot => firstFilled.toChangesWithin.tree_eq adds.wellFormed
          fun _ => Edit.Filled.outside copied nodup isOther isRoot
      have nodupRest : (rest.flatMap RegionCopy.roots).Nodup := by
        rw [List.flatMap_cons] at nodup
        exact (List.nodup_append.mp nodup).2.1
      rcases inductionHypothesis restAdds restCopied restTrees nodupRest restDone with
        ⟨length_eq, compiledAt⟩
      have restFilled := (filled_of_compileCopies unrolls restAdds sourceFormed restCopied nodupRest
        ordered solitary restDone).2.2
      refine ⟨by rw [List.length_cons, length_eq, List.length_cons], fun offset found isFound => ?_⟩
      cases offset with
      | zero =>
          rw [List.getElem?_cons_zero, Option.some.injEq] at isFound
          subst isFound
          refine ⟨copy, before, middle, rfl, trees copy List.mem_cons_self, firstDone, ?_⟩
          exact List.map_congr_left fun node isNode => restFilled.toChangesWithin.tree_eq
            restAdds.wellFormed fun _ => firstFilled.not_belowRoots_rest adds copied nodup isNode
      | succ offset =>
          rw [List.getElem?_cons_succ] at isFound
          have later := compiledAt offset found isFound
          rwa [firstPath, Nat.add_assoc, Nat.add_comm 1] at later

/-- The compiled copies of a region that consists of whole nodes replace the siblings from the one
around the opening tag to the one around the closing tag, in the order of their numbers. -/
theorem spliced_of_putBack (unrolls : compile.Unrolls compiler context)
    (ready : Ready zone base start.document (region.textNodes later))
    (whole : strategy.repeatsWhole start.document region.openingTag region.closingTag = true)
    (cutDone : strategy.cut region.openingTag region.closingTag start = .ok cutRegion cut)
    (repeatDone : Edit.repeatRegion cutRegion.nodes times cut.document = .ok copies copied)
    (compileDone : region.compileCopies compile scoping 0 copies { cut with document := copied } =
      .ok groups compiled)
    (putBackDone : Strategy.putBack cutRegion groups compiled.document = .ok result document) :
    ∃ parent left range right,
      Strategy.Excised start.document cut.document region.openingTag.textNode
        region.closingTag.textNode cutRegion parent left range right ∧
      Spliced start.document document parent left range right groups.flatten ∧
      groups.length = times ∧
      ∀ index group, groups[index]? = some group →
        region.CompiledAt compile scoping start.path cut.document cutRegion.nodes document index
          group := by
  have reached : Reached zone base start.document start.document _ := ready
  rcases Strategy.severed_of_cut ready cutDone with ⟨resumes, severed⟩
  rcases (Strategy.excised_of_cut ready whole cutDone).2.2 with ⟨parent, left, range, right, excised⟩
  have waiting := (waiting_of_compileCopies unrolls severed repeatDone compileDone).2.2
  have formed := severed.wellFormed
  rcases Edit.repeated_of_repeatRegion formed formed (.refl _) severed.inStore severed.nodup
    repeatDone with ⟨rfl, repeated⟩
  have trees := (Edit.trees_of_repeatRegion formed formed (.refl _) severed.inStore repeatDone).2.2
  rcases compiledAt_of_compileCopies unrolls
    ⟨repeated.retains, repeated.wellFormed, repeated.root_eq⟩ formed repeated.copied trees
    repeated.nodup severed.ordered
    (fun tag isInner => severed.solitary _ (List.mem_map_of_mem isInner)) compileDone with
    ⟨length_eq, compiledAt⟩
  refine ⟨parent, left, range, right, excised, excised.spliced reached.wellFormed waiting putBackDone,
    length_eq, fun index group isGroup => ?_⟩
  have found := compiledAt index group isGroup
  rw [Nat.zero_add, resumes.path_eq] at found
  exact found.of_trees_eq fun node isNode => excised.trees_eq waiting putBackDone
    (List.mem_flatten.mpr ⟨group, List.mem_of_getElem? isGroup, isNode⟩)

end Region

/-- A loop over rows or list paragraphs replaces the siblings from the one around its opening tag to
the one around its closing tag with one compiled copy for each item, in the order of the items. -/
theorem Loop.spliced_of_replaceRegion {zone : NodeId → Prop} {base : Nat} {region : Region}
    {compile : RegionCompiler region} {compiler : Compiler} {context : Context}
    {later : List NodeId} {before after : Workspace} {strategies : List Strategy}
    {strategy : Strategy} {result : Unit} (unrolls : compile.Unrolls compiler context)
    (ready : Document.Ready zone base before.document (region.textNodes later))
    (chosen : Strategy.choose? before.document region.openingTag region.closingTag strategies =
      some strategy)
    (whole : strategy.repeatsWhole before.document region.openingTag region.closingTag = true)
    (done : replaceRegion strategies context region compile before = .ok result after) :
    ∃ cutRegion cut groups parent left range right,
      strategy.unit? before.document region.openingTag = some cutRegion.first ∧
      strategy.unit? before.document region.closingTag = some cutRegion.last ∧
      Strategy.Excised before.document cut region.openingTag.textNode region.closingTag.textNode
        cutRegion parent left range right ∧
      Document.Spliced before.document after.document parent left range right
        (List.flatten groups) ∧
      groups.length = repetitions (context.valueAt before.path) ∧
      ∀ index group, groups[index]? = some group →
        region.CompiledAt compile .indexed before.path cut cutRegion.nodes after.document index
          group := by
  simp only [replaceRegion, Outcome.bind_eq_ok, Context.boundValue?_eq_ok, Outcome.get_eq_ok] at done
  rcases done with ⟨_, _, ⟨rfl, rfl⟩, ⟨⟩, noted, noteDone, _, _, ⟨rfl, rfl⟩, done⟩
  have idles := Work.idles_of_noteAll noteDone
  simp only [idles.document_eq, chosen, Outcome.bind_eq_ok, Work.pathText_eq_ok,
    Outcome.edit_work_eq_ok] at done
  rcases done with ⟨_, _, ⟨rfl, rfl⟩, ⟨⟩, start, startDone, cutRegion, cut, cutDone, copies, _,
    ⟨copied, repeatDone, rfl⟩, groups, compiled, compileDone, document, putBackDone, rfl⟩
  have idles := idles.trans (Work.idles_of_note startDone)
  rw [← idles.document_eq] at ready whole
  rcases Strategy.excised_of_cut ready whole cutDone with ⟨isFirst, isLast, -⟩
  have spliced := Region.spliced_of_putBack unrolls ready whole cutDone repeatDone compileDone
    putBackDone
  rw [idles.document_eq] at isFirst isLast
  rw [idles.document_eq, idles.path_eq] at spliced
  rcases spliced with ⟨parent, left, range, right, spliced⟩
  exact ⟨cutRegion, cut.document, groups, parent, left, range, right, isFirst, isLast, spliced⟩

end WordTemplate
