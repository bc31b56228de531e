import WordTemplate.Proofs.Container.Returning
import WordTemplate.Proofs.Filling.Working

/-!
# Regions on their way

Whatever strategy cuts a region out, its nodes can be copied with all tags that are inside the region,
and once the compiled copies are put back, the tags after the region are pending.
-/

namespace WordTemplate

namespace Document

variable {zone : NodeId → Prop} {base : Nat} {before cut document after : Document}
  {openingTag closingTag : Tag} {inner later : List NodeId} {region : CutRegion}

/-- A region was cut out, and its place is where compiled copies can go. -/
structure Severed (zone : NodeId → Prop) (base : Nat) (before cut : Document) (region : CutRegion)
    (inner later : List NodeId) : Prop extends
    ChangesWithin zone (.since base before) before cut where
  firstInZone : zone region.first
  firstInStore : region.first.index < cut.size
  inStore : ∀ node ∈ region.nodes, node.index < cut.size
  nodup : (region.nodes.flatMap cut.subtree).Nodup
  ordered : inner.Sublist (region.nodes.flatMap cut.runningTexts)
  solitary : ∀ text ∈ inner, cut.Solitary text
  back : ∀ {groups document after result}, Waiting cut document groups.flatten →
    Strategy.putBack region groups document = .ok result after →
    ∃ parent, zone parent ∧
      ChangesWithin (document.BelowRoots (parent :: groups.flatten))
        (.placing document groups.flatten) document after ∧
      ∃ tops, (∀ top ∈ tops, zone top ∧ top.index < before.size) ∧ after.Pending tops later

/-- What is above the tags of a region may be changed, and trees that are known are not placed. -/
theorem inZone_and_unplaced {opening closing : NodeId} {tops : List NodeId}
    (ready : Ready zone base before (opening :: (inner ++ closing :: later)))
    (known : ∀ top ∈ tops, zone top ∧ top.index < before.size) :
    (∀ id, before.LiesIn id opening ∨ before.LiesIn id closing → zone id) ∧
      ∀ top ∈ tops, ¬(Rights.since base before).places top := by
  have reached : Reached zone base before before _ := ready
  refine ⟨?_, fun top isTop => Nat.not_le_of_lt (known top isTop).2⟩
  rintro id (above | above)
  · exact reached.inZone List.mem_cons_self above
  · exact reached.inZone (by simp) above

theorem severed_of_cutFragments
    (ready : Ready zone base before
      (openingTag.textNode :: (inner ++ closingTag.textNode :: later)))
    (done : Extraction.cutFragments openingTag closingTag before = .ok region cut) :
    Severed zone base before cut region inner later := by
  have reached : Reached zone base before before _ := ready
  have wellFormed := reached.wellFormed
  rcases reached.pending with ⟨tops, known, pending⟩
  rcases inZone_and_unplaced ready known with ⟨inZone, unplaced⟩
  rcases Extraction.cutOut_of_cutFragments wellFormed reached.closed unplaced pending inZone done
    with ⟨kind, ⟨parent, left, right, cutOut⟩, rearranges⟩
  have formed := rearranges.wellFormed
  have parentInZone := inZone parent (Or.inl cutOut.parentAbove)
  exact {
    toChangesWithin := rearranges.toChangesWithin
    firstInZone := rearranges.closed.child (cutOut.parent_of_mem formed (by simp)) parentInZone
    firstInStore := lt_size_of_isNamed cutOut.firstNamed
    inStore := cutOut.inStore
    nodup := nodup_flatMap_subtree formed cutOut.nodup cutOut.detached
    ordered := cutOut.sublist wellFormed formed pending
    solitary := fun text isInner =>
      CutOut.solitary wellFormed rearranges pending (List.mem_append_left _ isInner)
    back := by
      intro groups document after result waiting done
      rw [Strategy.putBack, kind] at done
      rcases Edit.pending_of_mergeFragments pending wellFormed unplaced rearranges cutOut waiting
        done with ⟨changes, -, pending'⟩
      exact ⟨parent, parentInZone, changes, tops, known, pending'⟩ }

theorem severed_of_wholeCut {tops : List NodeId} {opening closing : NodeId}
    (ready : Ready zone base before (opening :: (inner ++ closing :: later)))
    (known : ∀ top ∈ tops, zone top ∧ top.index < before.size)
    (pending : before.Pending tops (opening :: (inner ++ closing :: later)))
    (whole : Strategy.WholeCut zone (.since base before) before cut tops opening closing inner later
      region) :
    Severed zone base before cut region inner later := by
  have reached : Reached zone base before before _ := ready
  have wellFormed := reached.wellFormed
  have formed := whole.wellFormed
  rcases whole.enclosed with ⟨parent, left, range, right, enclosed, fewer, sameTexts⟩
  have stretch := enclosed.stretch
  have parentAbove := (enclosed.above parent LiesIn.refl).1
  have parentInZone : zone parent := reached.inZone List.mem_cons_self parentAbove
  have last_lt : region.last.index < before.size :=
    lt_size_of_liesIn wellFormed whole.lastAbove (reached.lt_size (by simp))
  exact {
    toChangesWithin := whole.toChangesWithin
    firstInZone := whole.closed.child stretch.isParent parentInZone
    firstInStore := lt_size_of_parent stretch.isParent
    inStore := fun node isNode => lt_size_of_parent (stretch.parent_eq formed (fewer.subset isNode))
    nodup := by
      rcases subtree_split_children formed LiesIn.refl stretch.children_eq with ⟨lead, trail, subtree⟩
      have nodup := nodup_subtree formed parent
      rw [subtree, List.append_assoc] at nodup
      exact (List.nodup_append.mp (List.nodup_append.mp nodup).2.1).1.sublist
        (sublist_flatMap fewer fun _ _ => List.Sublist.refl _)
    ordered := by
      rcases pending.exists_top List.mem_cons_self with ⟨top, isTop, running⟩
      rcases enclosed.texts (pending.liesIn_top wellFormed isTop running parentAbove) with
        ⟨front, start, within, rest, ahead, lead, trail, topTexts, -, rangeTexts, -⟩
      rcases List.append_of_mem isTop with ⟨earlier, others, rfl⟩
      rw [sameTexts, rangeTexts, List.append_assoc]
      exact (pending.sublists wellFormed topTexts).1.trans
        ((List.sublist_append_left _ _).trans (List.sublist_append_right _ _))
    solitary := fun text isInner =>
      whole.pending.solitary text (List.mem_append_left _ isInner)
    back := by
      intro groups document after result waiting done
      rw [Strategy.putBack, whole.kind] at done
      rcases Strategy.pending_of_replaceRange pending wellFormed
        (fun top isTop => Nat.not_le_of_lt (known top isTop).2) whole enclosed waiting done with
        ⟨changes, earlier, top, others, rfl, pending'⟩
      refine ⟨parent, parentInZone, changes, _, fun tree isTree => ?_, pending'⟩
      simp only [List.mem_append, List.mem_cons] at isTree
      rcases isTree with isTree | rfl | rfl | isTree
      · exact known tree (by simp [isTree])
      · exact ⟨reached.inZone (by simp) whole.lastAbove, last_lt⟩
      · exact known _ (by simp)
      · exact known tree (by simp [isTree]) }

/-- Once the compiled copies are back, the tags after the region can be filled. -/
theorem Severed.reached {groups : List (List NodeId)} {texts : List NodeId} {result : Unit}
    (severed : Severed zone base before cut region inner later)
    (ready : Ready zone base before texts) (waiting : Waiting cut document groups.flatten)
    (done : Strategy.putBack region groups document = .ok result after) :
    document.Closed zone (.since base before) ∧ (∀ node ∈ groups.flatten, zone node) ∧
      ChangesWithin zone (.since base before) document after ∧
      Reached zone base before after later := by
  have reached : Reached zone base before before texts := ready
  rcases severed.back waiting done with ⟨parent, parentInZone, changes, tops, known, pending⟩
  have toDocument := severed.toChangesWithin.trans
    (waiting.neutral severed.wellFormed severed.closed).toChangesWithin
  have isNew : ∀ node ∈ groups.flatten, before.size ≤ node.index := fun node isNode =>
    Nat.le_trans severed.size_le (waiting.isNew node isNode)
  have inZone : ∀ node ∈ groups.flatten, zone node := fun node isNode =>
    reached.fresh node (isNew node isNode)
  have changes' : ChangesWithin zone (.since base before) document after := by
    refine changes.mono toDocument.wellFormed toDocument.closed ?_ ⟨fun _ _ => False.elim, ?_⟩
    · rintro id (⟨root, isRoot, inside⟩ | beyond)
      · refine toDocument.closed.liesIn inside ?_
        rcases List.mem_cons.mp isRoot with rfl | isNode
        · exact parentInZone
        · exact inZone root isNode
      · exact toDocument.closed.fresh beyond
    · rintro id isOld (isNode | beyond)
      · exact isNew id isNode
      · exact absurd isOld (Nat.not_lt_of_le beyond)
  exact ⟨toDocument.closed, inZone, changes',
    toDocument.trans changes', reached.fresh, reached.low, tops, known, pending⟩

end Document

namespace Strategy

open Outcome Document

variable {zone : NodeId → Prop} {base : Nat} {before after : Workspace} {standard : Option LoopOver}
  {openingTag closingTag : Tag} {inner later : List NodeId} {cutRegion : CutRegion}

/-- What a loop in a table repeats. -/
def chosenLoopOver (document : Document) (standard : Option LoopOver)
    (openingTag closingTag : Tag) : LoopOver :=
  (LoopOver.ofTag? openingTag).getD (standard.getD
    (if document.tableCell? openingTag.textNode = document.tableCell? closingTag.textNode then
      .content
    else .row))

theorem idles_of_loopOver {repeated : LoopOver}
    (done : loopOver standard openingTag closingTag before = .ok repeated after) :
    before.Idles after ∧ repeated = chosenLoopOver before.document standard openingTag closingTag := by
  simp only [loopOver, get_bind, bind_eq_ok] at done
  rcases done with ⟨⟨⟩, noted, noteDone, done⟩
  have idles := Work.idles_of_noteAll noteDone
  rw [chosenLoopOver]
  rcases asked : LoopOver.ofTag? openingTag with _ | _ | _
  · simp only [asked, pure_eq_ok] at done
    exact ⟨done.2 ▸ idles, by simp [← done.1]⟩
  · simp only [asked] at done
    split at done
    case isTrue =>
      simp only [bind_eq_ok, pure_eq_ok] at done
      rcases done with ⟨⟨⟩, warned, warnDone, rfl, rfl⟩
      exact ⟨idles.trans (Work.idles_of_note warnDone), rfl⟩
    case isFalse =>
      rw [pure_eq_ok] at done
      exact ⟨done.2 ▸ idles, done.1.symm⟩
  · simp only [asked, pure_eq_ok] at done
    exact ⟨done.2 ▸ idles, done.1.symm⟩

/-- How a strategy takes the region between two tags out of a document. -/
def extraction (document : Document) (openingTag closingTag : Tag) :
    Strategy → Extraction CutRegion
  | table standard =>
      match chosenLoopOver document standard openingTag closingTag with
      | .row => cutRows openingTag closingTag
      | .content => Extraction.cutFragments openingTag closingTag
  | list => cutListItems openingTag closingTag
  | paragraph => Extraction.cutFragments openingTag closingTag

/-- A cut is an edit of the document. Besides that it only writes to the journal. -/
theorem extraction_of_cut {strategy : Strategy}
    (done : strategy.cut openingTag closingTag before = .ok cutRegion after) :
    before.Resumes after ∧
      strategy.extraction before.document openingTag closingTag before.document =
        .ok cutRegion after.document := by
  have lifted : ∀ {extraction : Extraction CutRegion} {middle : Workspace}, before.Idles middle →
      (liftM extraction : Work CutRegion) middle = .ok cutRegion after →
      before.Resumes after ∧ extraction before.document = .ok cutRegion after.document := by
    intro extraction middle idles done
    rw [extraction_eq_ok, idles.document_eq] at done
    rcases done with ⟨edited, cutDone, rfl⟩
    exact ⟨idles.toResumes.trans (middle.resumes_of_edit edited), cutDone⟩
  rcases strategy with standard | _ | _
  · simp only [cut, bind_eq_ok] at done
    rcases done with ⟨repeated, chosen, chooseDone, ⟨⟩, noted, noteDone, done⟩
    rcases idles_of_loopOver chooseDone with ⟨idles, isChosen⟩
    have idles := idles.trans (Work.idles_of_note noteDone)
    rw [extraction, ← isChosen]
    cases repeated <;> exact lifted idles done
  · exact lifted (.refl before) done
  · exact lifted (.refl before) done

/-- Whichever strategy cuts a region out, it can be repeated and put back. -/
theorem severed_of_cut {strategy : Strategy}
    (ready : Ready zone base before.document
      (openingTag.textNode :: (inner ++ closingTag.textNode :: later)))
    (done : strategy.cut openingTag closingTag before = .ok cutRegion after) :
    before.Resumes after ∧
      Severed zone base before.document after.document cutRegion inner later := by
  have reached : Reached zone base before.document before.document _ := ready
  rcases reached.pending with ⟨tops, known, pending⟩
  rcases inZone_and_unplaced ready known with ⟨inZone, unplaced⟩
  refine (extraction_of_cut done).imp_right fun cutDone => ?_
  rcases strategy with standard | _ | _
  · rcases chosen : chosenLoopOver before.document standard openingTag closingTag with _ | _
    · rw [extraction, chosen] at cutDone
      exact severed_of_wholeCut ready known pending
        (wholeCut_of_cutRows reached.wellFormed reached.closed unplaced pending inZone cutDone)
    · rw [extraction, chosen] at cutDone
      exact severed_of_cutFragments ready cutDone
  · exact severed_of_wholeCut ready known pending
      (wholeCut_of_cutListItems reached.wellFormed reached.closed unplaced pending inZone cutDone)
  · exact severed_of_cutFragments ready cutDone

end Strategy

namespace Region

open Outcome Document

variable {zone : NodeId → Prop} {base times : Nat} {start copied : Document}
  {region : Region} {compile : RegionCompiler region} {compiler : Compiler} {context : Context}
  {scoping : Scoping} {cutRegion : CutRegion} {later : List NodeId} {copies : List RegionCopy}
  {groups : List (List NodeId)} {cut after : Workspace}

/-- The compiled copies of a region wait to be put back. -/
theorem waiting_of_compileCopies (unrolls : compile.Unrolls compiler context)
    (severed : Severed zone base start cut.document cutRegion
      (region.innerTags.map Tag.textNode) later)
    (repeatDone : Edit.repeatRegion cutRegion.nodes times cut.document = .ok copies copied)
    (compileDone : region.compileCopies compile scoping 0 copies { cut with document := copied } =
      .ok groups after) :
    after.path = cut.path ∧
      after.dispatches.toList = cut.dispatches.toList ++
        ((List.range times).flatMap fun index =>
          compiler.unroll context (scoping.innerPath cut.path index) region.innerTags) ∧
      Waiting cut.document after.document groups.flatten := by
  have formed := severed.wellFormed
  rcases Edit.repeated_of_repeatRegion formed formed (.refl _) severed.inStore severed.nodup
    repeatDone with ⟨rfl, repeated⟩
  have adds : Adds cut.document copied :=
    ⟨repeated.retains, repeated.wellFormed, repeated.root_eq⟩
  rcases filled_of_compileCopies unrolls adds formed repeated.copied repeated.nodup severed.ordered
    (fun tag isInner => severed.solitary _ (List.mem_map_of_mem isInner)) compileDone with
    ⟨path_eq, dispatches_eq, filled⟩
  have isNew : ∀ id, copied.BelowRoots (copies.flatMap RegionCopy.roots) id →
      cut.document.size ≤ id.index := by
    refine fun id => adds.belowRoots_new formed fun root isRoot => ?_
    rcases List.mem_flatMap.mp isRoot with ⟨copy, isCopy, isRoot⟩
    exact repeated.isNew copy isCopy root isRoot
  have closed : copied.Closed (copied.BelowRoots (copies.flatMap RegionCopy.roots))
      (newRights cut.document.size) :=
    closed_belowRoots repeated.wellFormed (fun _ => Nat.le_trans adds.size_le) _
  refine ⟨path_eq, by rw [dispatches_eq, List.range_eq_range'], ?_⟩
  exact ⟨adds.changes filled.toChangesWithin repeated.wellFormed closed isNew, filled.nodup,
    filled.node_parent, filled.inStore, fun node isNode => isNew node (filled.inZone node isNode)⟩

end Region

end WordTemplate
