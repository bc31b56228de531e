import WordTemplate.Proofs.Container.Hiding
import WordTemplate.Proofs.Container.Severing

/-!
# Filling the region of a container

Loops and sections treat their region alike: it is cut out, copied, compiled copy by copy and put
back. What a section adds to hide or mark its nodes leaves all running text as it is. In the end the
tags of the region were dispatched once for each copy, and the tags after it can be filled.
-/

namespace WordTemplate

open Outcome Document

variable {zone : NodeId → Prop} {base : Nat} {region : Region} {compile : RegionCompiler region}
  {compiler : Compiler} {context : Context} {later : List NodeId} {before after : Workspace}
  {result : Unit}

/-- Some tags were filled, and the tags that stand in `later` wait to be filled. -/
structure Workspace.Fills (zone : NodeId → Prop) (base : Nat) (dispatched : List Dispatch)
    (later : List NodeId) (before after : Workspace) : Prop where
  path_eq : after.path = before.path
  dispatches_eq : after.dispatches.toList = before.dispatches.toList ++ dispatched
  reached : Reached zone base before.document after.document later

theorem Workspace.Fills.of_idles {start : Workspace} {dispatched : List Dispatch}
    (idles : before.Idles start) (fills : start.Fills zone base dispatched later after) :
    before.Fills zone base dispatched later after where
  path_eq := fills.path_eq.trans idles.path_eq
  dispatches_eq := by rw [fills.dispatches_eq, idles.dispatches_eq]
  reached := idles.document_eq ▸ fills.reached

/-- What unrolling a region at each of several scope paths gives. -/
def Region.dispatches (region : Region) (compiler : Compiler) (context : Context)
    (paths : List ScopePath) : List Dispatch :=
  paths.flatMap fun path => compiler.unroll context path region.innerTags

/-- The copies of a section are filled at the scope path of the section. -/
theorem Region.Scoping.map_innerPath_unchanged (path : ScopePath) (times : Nat) :
    (List.range times).map (unchanged.innerPath path) = List.replicate times path := by
  rw [List.eq_replicate_iff]
  simp [innerPath]

/-- The nodes of a container, from its opening to its closing tag, and those of the tags after it. -/
def Region.textNodes (region : Region) (later : List NodeId) : List NodeId :=
  region.openingTag.textNode ::
    (region.innerTags.map Tag.textNode ++ region.closingTag.textNode :: later)

namespace Region

variable {start cut compiled : Workspace} {copied document : Document} {strategy : Strategy}
  {scoping : Scoping} {cutRegion : CutRegion} {copies : List RegionCopy}
  {groups : List (List NodeId)} {times : Nat}

theorem fills_of_putBack (unrolls : compile.Unrolls compiler context)
    (ready : Ready zone base start.document (region.textNodes later))
    (cutDone : strategy.cut region.openingTag region.closingTag start = .ok cutRegion cut)
    (repeatDone : Edit.repeatRegion cutRegion.nodes times cut.document = .ok copies copied)
    (compileDone : region.compileCopies compile scoping 0 copies { cut with document := copied } =
      .ok groups compiled)
    (putBackDone : Strategy.putBack cutRegion groups compiled.document = .ok result document) :
    start.Fills zone base
        (region.dispatches compiler context ((List.range times).map (scoping.innerPath start.path)))
        later { compiled with document } ∧
      (SectionNodes.collect compiled.document groups.flatten).Known zone document ∧
      zone cutRegion.first ∧ cutRegion.first.index < document.size := by
  rcases Strategy.severed_of_cut ready cutDone with ⟨resumes, severed⟩
  rcases waiting_of_compileCopies unrolls severed repeatDone compileDone with
    ⟨path_eq, dispatches_eq, waiting⟩
  rcases severed.reached ready waiting putBackDone with ⟨closed, inZone, changes, reached⟩
  refine ⟨⟨path_eq.trans resumes.path_eq, ?_, reached⟩, ?_, severed.firstInZone, ?_⟩
  · rw [dispatches_eq, resumes.dispatches_eq, resumes.path_eq, dispatches, List.flatMap_map]
  · exact (SectionNodes.known_collect waiting.wellFormed closed inZone waiting.detached
      waiting.inStore).of_changes changes waiting.wellFormed
  · exact Nat.lt_of_lt_of_le severed.firstInStore (Nat.le_trans waiting.size_le changes.size_le)

end Region

theorem Loop.fills_of_replaceRegion {strategies : List Strategy}
    (unrolls : compile.Unrolls compiler context)
    (ready : Ready zone base before.document (region.textNodes later))
    (done : replaceRegion strategies context region compile before = .ok result after) :
    before.Fills zone base
      (region.dispatches compiler context
        ((List.range (repetitions (context.valueAt before.path))).map
          (before.path.enter <| .index ·))) later after := by
  simp only [replaceRegion, bind_eq_ok, Context.boundValue?_eq_ok, get_eq_ok] at done
  rcases done with ⟨_, _, ⟨rfl, rfl⟩, ⟨⟩, noted, noteDone, _, _, ⟨rfl, rfl⟩, done⟩
  have idles := Work.idles_of_noteAll noteDone
  rcases chosen : Strategy.choose? noted.document region.openingTag region.closingTag strategies with
    _ | strategy
  · simp [chosen] at done
  · simp only [chosen, bind_eq_ok, Work.pathText_eq_ok, edit_work_eq_ok] at done
    rcases done with ⟨_, _, ⟨rfl, rfl⟩, ⟨⟩, start, startDone, cutRegion, cut, cutDone, copies, _,
      ⟨copied, repeatDone, rfl⟩, groups, compiled, compileDone, document, putBackDone, rfl⟩
    have idles := idles.trans (Work.idles_of_note startDone)
    have fills := (Region.fills_of_putBack unrolls (idles.document_eq ▸ ready) cutDone repeatDone
      compileDone putBackDone).1
    rw [idles.path_eq] at fills
    exact fills.of_idles idles

/-- A section that is not bound has no repetitions. -/
theorem Section.bound?_eq_ok {tag : Tag} {bound : Option Section}
    (done : bound? context tag before = .ok bound after) :
    before.Idles after ∧ (bound.map repetitions).getD 0 = repetitionsOf (context.valueAt before.path) := by
  simp only [bound?, bind_eq_ok, Context.boundValue?_eq_ok] at done
  rcases done with ⟨_, _, ⟨rfl, rfl⟩, done⟩
  rw [repetitionsOf]
  rcases isBound : context.valueAt before.path with _ | value
  · simp only [isBound, pure_eq_ok] at done
    rcases done with ⟨rfl, rfl⟩
    exact ⟨.refl before, rfl⟩
  · rcases isSection : ofValue? value with _ | part
    · simp only [isBound, isSection, bind_eq_ok, pure_eq_ok] at done
      rcases done with ⟨⟨⟩, _, noteDone, rfl, rfl⟩
      exact ⟨Work.idles_of_note noteDone, by simp [isSection]⟩
    · simp only [isBound, isSection, pure_eq_ok] at done
      rcases done with ⟨rfl, rfl⟩
      exact ⟨.refl before, by simp [isSection]⟩

theorem Section.fills_of_replaceRegion {style : HidingStyle}
    (unrolls : compile.Unrolls compiler context)
    (ready : Ready zone base before.document (region.textNodes later))
    (done : replaceRegion style context region compile before = .ok result after) :
    before.Fills zone base
      (region.dispatches compiler context
        (List.replicate (repetitionsOf (context.valueAt before.path)) before.path)) later after := by
  simp only [replaceRegion, bind_eq_ok, get_eq_ok] at done
  rcases done with ⟨bound, middle, boundDone, _, _, ⟨rfl, rfl⟩, done⟩
  rcases Section.bound?_eq_ok boundDone with ⟨idles, times_eq⟩
  rcases chosen : Strategy.choose? middle.document region.openingTag region.closingTag strategies
    with _ | strategy
  · simp [chosen] at done
  · simp only [chosen, bind_eq_ok, get_eq_ok, Work.pathText_eq_ok, edit_work_eq_ok] at done
    rcases done with ⟨_, _, ⟨rfl, rfl⟩, ⟨⟩, start, startDone, cutRegion, cut, cutDone, copies, _,
      ⟨copied, repeatDone, rfl⟩, groups, compiled, compileDone, _, _, ⟨rfl, rfl⟩, ⟨⟩, _,
      ⟨document, putBackDone, rfl⟩, done⟩
    have idles := idles.trans (Work.idles_of_note startDone)
    rcases Region.fills_of_putBack unrolls (idles.document_eq ▸ ready) cutDone repeatDone
      compileDone putBackDone with ⟨fills, known, inZone, inStore⟩
    rw [Region.Scoping.map_innerPath_unchanged, times_eq, idles.path_eq] at fills
    refine Workspace.Fills.of_idles idles ?_
    rcases bound with _ | part
    · rw [pure_eq_ok] at done
      exact done.2 ▸ fills
    · simp only at done
      split at done
      case isTrue =>
        rw [edit_work_eq_ok] at done
        rcases done with ⟨finished, finishDone, rfl⟩
        exact ⟨fills.path_eq, fills.dispatches_eq, fills.reached.neutral (neutral_of_finish
          fills.reached.wellFormed fills.reached.closed known inZone inStore finishDone)⟩
      case isFalse =>
        rw [pure_eq_ok] at done
        exact done.2 ▸ fills

end WordTemplate
