import WordTemplate.Container.Sections
import WordTemplate.Proofs.Filling.Working
import WordTemplate.Proofs.Word.Sparing

/-!
# Containers spare sheltered nodes

Cutting a region out, copying it, putting the copies back and hiding them spares what is sheltered if
both tags of the region are in the zone. What a region consists of is then in the zone as well, and
copies are in the zone because they are new.
-/

namespace WordTemplate

open Document Outcome Shelter

namespace Shelter

variable {α β : Type} {shelter : Shelter} {workspace : Workspace}

/-! ## Work -/

/-- If the work succeeds, it spares what is sheltered, and its value and the document after it are as
stated. -/
def KeepsIn (shelter : Shelter) (work : Work α) (workspace : Workspace)
    (result : α → Document → Prop) : Prop :=
  shelter.Holds workspace.document → ∀ value after, work workspace = .ok value after →
    shelter.Spares workspace.document after.document ∧ result value after.document

namespace KeepsIn

variable {work first : Work α} {next : α → Work β} {between : α → Document → Prop}
  {result : β → Document → Prop}

theorem of_pure {value : α} {result : α → Document → Prop}
    (isResult : result value workspace.document) :
    shelter.KeepsIn (pure value) workspace result := by
  intro holds other after done
  rw [pure_eq_ok] at done
  rcases done with ⟨rfl, rfl⟩
  exact ⟨Spares.refl holds, isResult⟩

theorem of_throw {cause : TemplateError} {result : α → Document → Prop} :
    shelter.KeepsIn (throw cause) workspace result := by
  intro _ value after done
  exact absurd done throw_ne_ok

theorem of_get {next : Workspace → Work β}
    (keeps : shelter.Holds workspace.document → shelter.KeepsIn (next workspace) workspace result) :
    shelter.KeepsIn (get >>= next) workspace result := by
  intro holds value after done
  exact keeps holds holds value after (by rwa [get_bind] at done)

theorem of_holds {result : α → Document → Prop}
    (keeps : shelter.Holds workspace.document → shelter.KeepsIn work workspace result) :
    shelter.KeepsIn work workspace result :=
  fun holds => keeps holds holds

theorem bind (firstKeeps : shelter.KeepsIn first workspace between)
    (nextKeeps : ∀ value middle, shelter.Spares workspace.document middle.document →
      between value middle.document → shelter.KeepsIn (next value) middle result) :
    shelter.KeepsIn (first >>= next) workspace result := by
  intro holds value after done
  rw [bind_eq_ok] at done
  rcases done with ⟨found, middle, firstDone, nextDone⟩
  rcases firstKeeps holds found middle firstDone with ⟨spares, isBetween⟩
  rcases nextKeeps found middle spares isBetween spares.holds value after nextDone with
    ⟨sparesNext, isResult⟩
  exact ⟨spares.trans sparesNext, isResult⟩

theorem imp {result : α → Document → Prop} (keeps : shelter.KeepsIn work workspace result)
    {weaker : α → Document → Prop} (weaken : ∀ value after,
      shelter.Spares workspace.document after → result value after → weaker value after) :
    shelter.KeepsIn work workspace weaker := by
  intro holds value after done
  rcases keeps holds value after done with ⟨spares, isResult⟩
  exact ⟨spares, weaken value after.document spares isResult⟩

theorem discard {result : α → Document → Prop} (keeps : shelter.KeepsIn work workspace result) :
    shelter.KeepsIn (discard work) workspace fun _ _ => True := by
  intro holds value after done
  rw [discard_eq_ok] at done
  rcases done with ⟨found, done⟩
  exact ⟨(keeps holds found after done).1, trivial⟩

/-- A loop spares what is sheltered if each of its steps does, wherever it starts. -/
theorem of_forM {items : List α} {step : α → Work PUnit}
    (each : ∀ item ∈ items, ∀ middle, shelter.Spares workspace.document middle.document →
      shelter.KeepsIn (step item) middle fun _ _ => True) :
    shelter.KeepsIn (items.forM step) workspace fun _ _ => True := by
  induction items generalizing workspace with
  | nil => exact of_pure trivial
  | cons item items inductionHypothesis =>
      refine of_holds fun holds =>
        (each item List.mem_cons_self workspace (Spares.refl holds)).bind ?_
      intro _ middle spares _
      exact inductionHypothesis fun other isMember later sparesLater =>
        each other (List.mem_cons_of_mem _ isMember) later (spares.trans sparesLater)

/-- An edit as a part of some work. -/
theorem of_edit {edit : Edit α} {result : α → Document → Prop}
    (keeps : shelter.Keeps edit workspace.document result) :
    shelter.KeepsIn (liftM edit) workspace result := by
  intro holds value after done
  rcases edit_work_eq_ok.mp done with ⟨edited, editDone, rfl⟩
  exact keeps holds value edited editDone

/-- An extraction as a part of some work. -/
theorem of_extraction {extraction : Extraction α} {result : α → Document → Prop}
    (keeps : shelter.Keeps extraction workspace.document result) :
    shelter.KeepsIn (liftM extraction) workspace result := by
  intro holds value after done
  rcases extraction_eq_ok.mp done with ⟨edited, extractionDone, rfl⟩
  exact keeps holds value edited extractionDone

/-- Work that leaves the document alone. -/
theorem of_idles (idles : ∀ value after, work workspace = .ok value after →
      workspace.Idles after) :
    shelter.KeepsIn work workspace fun _ after => after = workspace.document := by
  intro holds value after done
  have document_eq := (idles value after done).document_eq
  refine ⟨?_, document_eq⟩
  rw [document_eq]
  exact Spares.refl holds

theorem of_note (level : Level) (text : String) :
    shelter.KeepsIn (Work.note level text) workspace fun _ after => after = workspace.document :=
  of_idles fun _ _ done => Work.idles_of_note done

theorem of_noteAll (notes : List Note) :
    shelter.KeepsIn (Work.noteAll notes) workspace fun _ after => after = workspace.document :=
  of_idles fun _ _ done => Work.idles_of_noteAll done

theorem of_boundValue? (context : Context) :
    shelter.KeepsIn context.boundValue? workspace fun _ after => after = workspace.document :=
  of_idles fun _ _ done => (Context.boundValue?_eq_ok.mp done).2 ▸ Workspace.Idles.refl _

theorem of_pathText :
    shelter.KeepsIn Work.pathText workspace fun _ after => after = workspace.document :=
  of_idles fun _ _ done => (Work.pathText_eq_ok.mp done).2 ▸ Workspace.Idles.refl _

theorem of_dispatch (tag : Tag) :
    shelter.KeepsIn (Work.dispatch tag) workspace fun _ after => after = workspace.document := by
  intro holds value after done
  rw [Work.dispatch, modify_eq_ok] at done
  subst done
  exact ⟨Spares.refl holds, rfl⟩

theorem of_announce (context : Context) (tags : List Tag) :
    shelter.KeepsIn (Compiler.announce context tags) workspace fun _ after =>
      after = workspace.document :=
  of_idles fun _ _ done => Compiler.idles_of_announce done

/-- Work with one more step on the scope path. -/
theorem withPart {part : PathPart}
    (keeps : shelter.KeepsIn work { workspace with path := workspace.path.enter part } between) :
    shelter.KeepsIn (Work.withPart part work) workspace between := by
  intro holds value after done
  rcases Work.withPart_eq_ok.mp done with ⟨inner, innerDone, rfl⟩
  exact keeps holds value inner innerDone

theorem thenAlways {finish : Work β} (keeps : shelter.KeepsIn work workspace between)
    (finishes : ∀ middle, shelter.Spares workspace.document middle.document →
      shelter.KeepsIn finish middle result) :
    shelter.KeepsIn (Work.thenAlways work finish) workspace result := by
  intro holds value after done
  rcases Work.thenAlways_eq_ok.mp done with ⟨found, middle, workDone, finishDone⟩
  rcases keeps holds found middle workDone with ⟨spares, -⟩
  rcases finishes middle spares spares.holds value after finishDone with ⟨sparesLast, isResult⟩
  exact ⟨spares.trans sparesLast, isResult⟩

end KeepsIn

/-- What a region consists of and what is around it is open. -/
structure OpenRegion (shelter : Shelter) (document : Document) (region : CutRegion) : Prop where
  nodes : ∀ node ∈ region.nodes, shelter.Open document node
  first : shelter.Open document region.first
  last : shelter.Open document region.last

/-- The nodes of all groups are open. -/
def OpenGroups (shelter : Shelter) (document : Document) (groups : List (List NodeId)) : Prop :=
  ∀ group ∈ groups, ∀ node ∈ group, shelter.Open document node

theorem OpenRegion.spares {region : CutRegion} {before after : Document}
    (isOpen : shelter.OpenRegion before region) (spares : shelter.Spares before after) :
    shelter.OpenRegion after region where
  nodes node isMember := spares.isOpen (isOpen.nodes node isMember)
  first := spares.isOpen isOpen.first
  last := spares.isOpen isOpen.last

theorem OpenGroups.spares {groups : List (List NodeId)} {before after : Document}
    (areOpen : shelter.OpenGroups before groups) (spares : shelter.Spares before after) :
    shelter.OpenGroups after groups :=
  fun group isGroup node isMember => spares.isOpen (areOpen group isGroup node isMember)

end Shelter

variable {shelter : Shelter} {document : Document} {openingTag closingTag tag : Tag}

theorem Tag.keeps_paragraph (textOpen : shelter.Open document tag.textNode)
    (cause : PlacementError) :
    shelter.Keeps (tag.paragraph cause) document fun paragraph after =>
      after = document ∧ shelter.Open document paragraph := by
  refine Keeps.of_get fun holds => ?_
  split
  · next paragraph found =>
      exact Keeps.of_pure ⟨rfl, holds.open_of_ancestorNamed? textOpen.inZone found
        (by simp [Word.Name.enclosing])⟩
  · exact Keeps.of_throw

/-! ## Cutting fragments out -/

theorem Extraction.keeps_cutFragments (opensIn : shelter.Open document openingTag.textNode)
    (closesIn : shelter.Open document closingTag.textNode) :
    shelter.Keeps (cutFragments openingTag closingTag) document fun region after =>
      shelter.OpenRegion after region := by
  refine (Tag.keeps_paragraph opensIn _).bind ?_
  rintro first _ - ⟨rfl, firstOpen⟩
  refine (Tag.keeps_paragraph closesIn _).bind ?_
  rintro last _ - ⟨rfl, lastOpen⟩
  refine (Keeps.lift (Edit.keeps_splitParagraph opensIn true)).bind ?_
  intro afterOpening divided toDivided afterOpen
  split
  · refine (Keeps.lift (Edit.keeps_splitParagraph (toDivided.isOpen closesIn) true)).bind ?_
    intro tail closed toClosed tailOpen
    refine (Keeps.lift (Edit.keeps_detach afterOpen.inZone)).bind ?_
    intro _ after toAfter _
    have toEnd := toClosed.trans toAfter
    refine Keeps.of_pure ⟨?_, (toDivided.trans toEnd).isOpen firstOpen, toAfter.isOpen tailOpen⟩
    intro node isMember
    rw [List.mem_singleton.mp isMember]
    exact toEnd.isOpen afterOpen
  · refine (Keeps.lift (Edit.keeps_splitParagraph (toDivided.isOpen closesIn) true)).bind ?_
    intro tail closed toClosed tailOpen
    refine (Keeps.lift (Edit.keeps_detach afterOpen.inZone)).bind ?_
    intro _ bare toBare _
    refine (Keeps.lift (Edit.keeps_detach lastOpen.inZone)).bind ?_
    intro _ barer toBarer _
    refine (Keeps.lift (Edit.keeps_removeBetween firstOpen.inZone tailOpen.inZone)).bind ?_
    intro between after toAfter betweenOpen
    have toEnd := toClosed.trans (toBare.trans (toBarer.trans toAfter))
    refine Keeps.of_pure ⟨?_, (toDivided.trans toEnd).isOpen firstOpen,
      (toBare.trans (toBarer.trans toAfter)).isOpen tailOpen⟩
    intro node isMember
    simp only [List.mem_cons, List.mem_append, List.not_mem_nil, or_false] at isMember
    rcases isMember with rfl | isBetween | rfl
    · exact toEnd.isOpen afterOpen
    · exact betweenOpen node isBetween
    · exact (toDivided.trans toEnd).isOpen lastOpen

namespace Edit

variable {target tail head fragment first last wrapper : NodeId} {nodes : List NodeId}
  {groups : List (List NodeId)}

/-! ## Merging fragments -/

theorem keeps_joinFragment (targetOpen : shelter.Open document target)
    (fragmentOpen : shelter.Open document fragment) :
    shelter.Keeps (joinFragment target fragment) document fun _ _ => True := by
  refine Keeps.of_get fun _ => ?_
  split
  · refine (keeps_joinParagraphs targetOpen fragmentOpen).bind ?_
    intro _ joined _ _
    refine (keeps_detach fragmentOpen.inZone).bind ?_
    intro _ after _ _
    exact Keeps.of_pure trivial
  · exact Keeps.of_pure trivial

theorem keeps_placeFragments (tailInZone : shelter.zone tail)
    (targetOpen : shelter.Open document target)
    (nodesOpen : ∀ node ∈ nodes, shelter.Open document node) :
    shelter.Keeps (placeFragments tail target nodes) document fun reached after =>
      shelter.Open after reached := by
  induction nodes generalizing document target with
  | nil => exact Keeps.of_pure targetOpen
  | cons node rest inductionHypothesis =>
      have nodeOpen := nodesOpen node List.mem_cons_self
      refine (keeps_insertBefore nodeOpen tailInZone).bind ?_
      intro _ placed toPlaced _
      exact inductionHypothesis (toPlaced.isOpen nodeOpen) fun other isMember =>
        toPlaced.isOpen (nodesOpen other (List.mem_cons_of_mem _ isMember))

theorem keeps_mergeGroup (tailInZone : shelter.zone tail)
    (targetOpen : shelter.Open document target)
    (nodesOpen : ∀ node ∈ nodes, shelter.Open document node) :
    shelter.Keeps (mergeGroup tail target nodes) document fun reached after =>
      shelter.Open after reached := by
  cases nodes with
  | nil => exact Keeps.of_pure targetOpen
  | cons first rest =>
      refine (keeps_joinFragment targetOpen (nodesOpen first List.mem_cons_self)).bind ?_
      intro isJoined joined toJoined _
      have nodesOpen := fun node isMember => toJoined.isOpen (nodesOpen node isMember)
      split
      · exact keeps_placeFragments tailInZone (toJoined.isOpen targetOpen) fun node isMember =>
          nodesOpen node (List.mem_cons_of_mem _ isMember)
      · exact keeps_placeFragments tailInZone (toJoined.isOpen targetOpen) nodesOpen

theorem keeps_mergeGroups (tailOpen : shelter.Open document tail)
    (targetOpen : shelter.Open document target) (groupsOpen : shelter.OpenGroups document groups) :
    shelter.Keeps (mergeGroups tail target groups) document fun junctions after =>
      ∀ junction ∈ junctions, shelter.Open after junction := by
  induction groups generalizing document target with
  | nil =>
      refine (keeps_joinFragment targetOpen tailOpen).bind ?_
      intro isJoined joined toJoined _
      split
      · exact Keeps.of_pure fun junction isMember => by
          rw [List.mem_singleton.mp isMember]
          exact toJoined.isOpen targetOpen
      · refine Keeps.of_pure fun junction isMember => ?_
        simp only [List.mem_cons, List.not_mem_nil, or_false] at isMember
        rcases isMember with rfl | rfl
        · exact toJoined.isOpen targetOpen
        · exact toJoined.isOpen tailOpen
  | cons group rest inductionHypothesis =>
      refine (keeps_mergeGroup tailOpen.inZone targetOpen
        (groupsOpen group List.mem_cons_self)).bind ?_
      intro reached merged toMerged reachedOpen
      have restOpen : shelter.OpenGroups document rest := fun other isMember =>
        groupsOpen other (List.mem_cons_of_mem _ isMember)
      refine (inductionHypothesis (toMerged.isOpen tailOpen) reachedOpen
        (restOpen.spares toMerged)).bind ?_
      intro junctions after toAfter junctionsOpen
      split
      · exact Keeps.of_pure junctionsOpen
      · refine Keeps.of_pure fun junction isMember => ?_
        rcases List.mem_cons.mp isMember with rfl | isMember
        · exact (toMerged.trans toAfter).isOpen targetOpen
        · exact junctionsOpen junction isMember

theorem keeps_tidyJunction (inZone : shelter.zone target) :
    shelter.Keeps (tidyJunction target) document fun _ _ => True := by
  refine (keeps_removeEmptyRuns (Or.inl inZone)).bind ?_
  intro _ tidied _ _
  refine Keeps.of_get fun _ => ?_
  split
  · exact keeps_detach inZone
  · exact Keeps.of_pure trivial

theorem keeps_mergeFragments (groupsOpen : shelter.OpenGroups document groups)
    (headOpen : shelter.Open document head) (tailOpen : shelter.Open document tail) :
    shelter.Keeps (mergeFragments groups head tail) document fun _ _ => True := by
  refine (keeps_mergeGroups tailOpen headOpen groupsOpen).bind ?_
  intro junctions merged _ junctionsOpen
  exact Keeps.of_forM fun junction isMember _ _ =>
    keeps_tidyJunction (junctionsOpen junction isMember).inZone

/-! ## Copies of a region -/

/-- The topmost nodes of a copy and all copied nodes are open. -/
structure OpenCopy (shelter : Shelter) (document : Document) (copy : RegionCopy) : Prop where
  roots : ∀ root ∈ copy.roots, shelter.Open document root
  pairs : ∀ pair ∈ copy.pairs, shelter.Open document pair.2

theorem OpenCopy.spares {copy : RegionCopy} {before after : Document}
    (isOpen : OpenCopy shelter before copy) (spares : shelter.Spares before after) :
    OpenCopy shelter after copy where
  roots root isRoot := spares.isOpen (isOpen.roots root isRoot)
  pairs pair isPair := spares.isOpen (isOpen.pairs pair isPair)

theorem keeps_copyRegion (inStore : ∀ node ∈ nodes, node.index < document.size) :
    shelter.Keeps (copyRegion nodes) document fun copy after => OpenCopy shelter after copy := by
  induction nodes generalizing document with
  | nil => exact Keeps.of_pure ⟨by simp, by simp⟩
  | cons node rest inductionHypothesis =>
      refine (keeps_copySubtree (inStore node List.mem_cons_self)).bind ?_
      intro first copied toCopied firstOpen
      refine (inductionHypothesis fun other isMember =>
        toCopied.inStore (inStore other (List.mem_cons_of_mem _ isMember))).bind ?_
      intro others after toAfter othersOpen
      refine Keeps.of_pure ⟨fun root isRoot => ?_, fun pair isPair => ?_⟩
      · rcases List.mem_cons.mp isRoot with rfl | isRoot
        · exact toAfter.isOpen firstOpen.1
        · exact othersOpen.roots root isRoot
      · rcases List.mem_append.mp isPair with isPair | isPair
        · exact toAfter.isOpen (firstOpen.2 pair isPair)
        · exact othersOpen.pairs pair isPair

theorem keeps_repeatRegion {times : Nat} (inStore : ∀ node ∈ nodes, node.index < document.size) :
    shelter.Keeps (repeatRegion nodes times) document fun copies after =>
      ∀ copy ∈ copies, OpenCopy shelter after copy := by
  induction times generalizing document with
  | zero => exact Keeps.of_pure (by simp)
  | succ times inductionHypothesis =>
      refine (keeps_copyRegion inStore).bind ?_
      intro first copied toCopied firstOpen
      refine (inductionHypothesis fun node isMember => toCopied.inStore (inStore node isMember)).bind ?_
      intro others after toAfter othersOpen
      refine Keeps.of_pure fun copy isCopy => ?_
      rcases List.mem_cons.mp isCopy with rfl | isCopy
      · exact firstOpen.spares toAfter
      · exact othersOpen copy isCopy

theorem keeps_fillWrapper (nodesOpen : ∀ node ∈ nodes, shelter.Open document node) :
    shelter.Keeps (fillWrapper nodes) document fun wrapper after => shelter.Open after wrapper := by
  refine (keeps_createElement _).bind ?_
  intro wrapper created toCreated wrapperOpen
  refine (keeps_forM_appendChild wrapperOpen fun node isMember =>
    toCreated.isOpen (nodesOpen node isMember)).bind ?_
  intro _ after toAfter _
  exact Keeps.of_pure (toAfter.isOpen wrapperOpen)

theorem keeps_emptyWrapper (inZone : shelter.zone wrapper) :
    shelter.Keeps (emptyWrapper wrapper) document fun nodes after =>
      ∀ node ∈ nodes, shelter.Open after node := by
  refine Keeps.of_get fun holds => ?_
  have childrenOpen : ∀ node ∈ document.children wrapper, shelter.Open document node :=
    fun node isChild => holds.open_of_mem_children isChild inZone
  refine (keeps_forM_detach fun node isChild => (childrenOpen node isChild).inZone).bind ?_
  intro _ after toAfter _
  exact Keeps.of_pure fun node isChild => toAfter.isOpen (childrenOpen node isChild)

end Edit

/-! ## Strategies -/

namespace Strategy

variable {groups : List (List NodeId)} {first last : NodeId} {region : CutRegion}

theorem keeps_rowOf (textOpen : shelter.Open document tag.textNode) (cause : PlacementError) :
    shelter.Keeps (rowOf tag cause) document fun row after =>
      after = document ∧ shelter.Open document row := by
  refine Keeps.of_get fun holds => ?_
  split
  · next row found =>
      exact Keeps.of_pure ⟨rfl, holds.open_of_ancestorNamed? textOpen.inZone found
        (by simp [Word.Name.enclosing])⟩
  · exact Keeps.of_throw

theorem keeps_removeTagAndRun (textOpen : shelter.Open document tag.textNode) :
    shelter.Keeps (removeTagAndRun tag) document fun _ _ => True := by
  refine Keeps.of_get fun holds => ?_
  dsimp only
  have carrierInZone := (holds.open_textUnit textOpen).inZone
  refine (Edit.keeps_detach carrierInZone).bind ?_
  intro _ bare _ _
  split
  · next run found =>
      have runOpen := holds.open_of_ancestorNamed? carrierInZone found (by simp [Word.Name.enclosing])
      refine Keeps.of_get fun _ => ?_
      split
      · exact Edit.keeps_detach runOpen.inZone
      · exact Keeps.of_pure trivial
  · exact Keeps.of_pure trivial

theorem keeps_cutRows (opensIn : shelter.Open document openingTag.textNode)
    (closesIn : shelter.Open document closingTag.textNode) :
    shelter.Keeps (cutRows openingTag closingTag) document fun region after =>
      shelter.OpenRegion after region := by
  refine (keeps_rowOf opensIn _).bind ?_
  rintro first _ - ⟨rfl, firstOpen⟩
  refine (keeps_rowOf closesIn _).bind ?_
  rintro last _ - ⟨rfl, lastOpen⟩
  refine (Keeps.lift (keeps_removeTagAndRun opensIn)).bind ?_
  intro _ bare toBare _
  refine (Keeps.lift (keeps_removeTagAndRun (toBare.isOpen closesIn))).bind ?_
  intro _ barer toBarer _
  refine (Keeps.lift (Edit.keeps_siblingRange firstOpen.inZone lastOpen.inZone)).bind ?_
  intro nodes after toAfter nodesOpen
  have toEnd := toBare.trans (toBarer.trans toAfter)
  exact Keeps.of_pure ⟨nodesOpen, toEnd.isOpen firstOpen, toEnd.isOpen lastOpen⟩

theorem keeps_cutListItems (opensIn : shelter.Open document openingTag.textNode)
    (closesIn : shelter.Open document closingTag.textNode) :
    shelter.Keeps (cutListItems openingTag closingTag) document fun region after =>
      shelter.OpenRegion after region := by
  refine (Tag.keeps_paragraph opensIn _).bind ?_
  rintro first _ - ⟨rfl, firstOpen⟩
  refine (Tag.keeps_paragraph closesIn _).bind ?_
  rintro last _ - ⟨rfl, lastOpen⟩
  refine Keeps.of_get fun holds => ?_
  refine (Keeps.lift (Edit.keeps_detach (holds.open_textUnit opensIn).inZone)).bind ?_
  intro _ bare toBare _
  refine Keeps.of_get fun holdsBare => ?_
  refine (Keeps.lift (Edit.keeps_detach
    (holdsBare.open_textUnit (toBare.isOpen closesIn)).inZone)).bind ?_
  intro _ barer toBarer _
  refine (Keeps.lift (Edit.keeps_removeEmptyRuns (Or.inl firstOpen.inZone))).bind ?_
  intro _ tidied toTidied _
  refine (Keeps.lift (Edit.keeps_removeEmptyRuns (Or.inl lastOpen.inZone))).bind ?_
  intro _ tidier toTidier _
  refine (Keeps.lift (Edit.keeps_siblingRange firstOpen.inZone lastOpen.inZone)).bind ?_
  intro range ranged toRanged rangeOpen
  refine Keeps.of_get fun _ => ?_
  have toEnd := toBare.trans (toBarer.trans (toTidied.trans (toTidier.trans toRanged)))
  exact Keeps.of_pure ⟨fun node isMember => rangeOpen node (List.mem_of_mem_filter isMember),
    toEnd.isOpen firstOpen, toEnd.isOpen lastOpen⟩

theorem keepsIn_loopOver {workspace : Workspace} (standard : Option LoopOver)
    (openingTag closingTag : Tag) :
    shelter.KeepsIn (loopOver standard openingTag closingTag) workspace fun _ _ => True := by
  refine KeepsIn.of_get fun _ => ?_
  dsimp only
  refine (KeepsIn.of_noteAll _).bind ?_
  intro _ noted _ _
  split
  · split
    · refine (KeepsIn.of_note _ _).bind ?_
      intro _ after _ _
      exact KeepsIn.of_pure trivial
    · exact KeepsIn.of_pure trivial
  · exact KeepsIn.of_pure trivial
  · exact KeepsIn.of_pure trivial

theorem keepsIn_cut {workspace : Workspace} {strategy : Strategy}
    (opensIn : shelter.Open workspace.document openingTag.textNode)
    (closesIn : shelter.Open workspace.document closingTag.textNode) :
    shelter.KeepsIn (strategy.cut openingTag closingTag) workspace fun region after =>
      shelter.OpenRegion after region := by
  cases strategy with
  | table standard =>
      refine (keepsIn_loopOver standard openingTag closingTag).bind ?_
      intro repeated looped toLooped _
      refine (KeepsIn.of_note _ _).bind ?_
      intro _ noted toNoted _
      have toNoted := toLooped.trans toNoted
      cases repeated with
      | content =>
          exact KeepsIn.of_extraction (Extraction.keeps_cutFragments (toNoted.isOpen opensIn)
            (toNoted.isOpen closesIn))
      | row =>
          exact KeepsIn.of_extraction (keeps_cutRows (toNoted.isOpen opensIn)
            (toNoted.isOpen closesIn))
  | list => exact KeepsIn.of_extraction (keeps_cutListItems opensIn closesIn)
  | paragraph => exact KeepsIn.of_extraction (Extraction.keeps_cutFragments opensIn closesIn)

theorem keeps_replaceRange (groupsOpen : shelter.OpenGroups document groups)
    (firstInZone : shelter.zone first) (lastInZone : shelter.zone last) :
    shelter.Keeps (replaceRange groups first last) document fun _ _ => True := by
  refine (Edit.keeps_siblingRange firstInZone lastInZone).bind ?_
  intro replaced ranged toRanged replacedOpen
  have nodesOpen : ∀ node ∈ groups.flatten, shelter.Open ranged node := by
    intro node isMember
    rcases List.mem_flatten.mp isMember with ⟨group, isGroup, isMember⟩
    exact toRanged.isOpen (groupsOpen group isGroup node isMember)
  refine (Edit.keeps_forM_insertBefore nodesOpen firstInZone).bind ?_
  intro _ placed _ _
  exact Edit.keeps_forM_detach fun node isMember => (replacedOpen node isMember).inZone

theorem keeps_putBack (regionOpen : shelter.OpenRegion document region)
    (groupsOpen : shelter.OpenGroups document groups) :
    shelter.Keeps (putBack region groups) document fun _ _ => True := by
  rw [putBack]
  split
  · exact Edit.keeps_mergeFragments groupsOpen regionOpen.first regionOpen.last
  · exact keeps_replaceRange groupsOpen regionOpen.first.inZone regionOpen.last.inZone

end Strategy

end WordTemplate
