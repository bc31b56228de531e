import WordTemplate.Container.Loop
import WordTemplate.Container.Sections
import WordTemplate.Proofs.Container.Hiding
import WordTemplate.Proofs.Container.References
import WordTemplate.Proofs.Container.Severing
import WordTemplate.Proofs.Container.Wrapping
import WordTemplate.Proofs.Word.Securing

/-!
# Regions around wrappers

A region that is cut out between text nodes consists of ordinary nodes, its copies are new, are
compiled below wrappers of their own, and what is put back is new. So replacing a region is secure
wherever its tags stand, as long as compiling the tags inside is. So are hiding a section and enclosing
it in a content control: a range of siblings that is part of the tree does not stand right below a
wrapper.
-/

namespace WordTemplate

open Document

variable {base : Nat} {document before : Document} {openingTag closingTag tag : Tag}

/-- The nodes of a region and the nodes that it is put back between are ordinary. -/
structure CutRegion.IsOrdinary (region : CutRegion) (document : Document) : Prop where
  first : document.Ordinary region.first
  last : document.Ordinary region.last
  nodes : ∀ node ∈ region.nodes, document.Ordinary node

/-- The topmost nodes of a copy are new, and copies of text nodes are text nodes. -/
structure RegionCopy.IsRecent (copy : RegionCopy) (base : Nat) (before after : Document) : Prop where
  roots : ∀ root ∈ copy.roots, after.Recent base root
  texts : ∀ pair ∈ copy.pairs, before.HoldsText pair.1 → after.HoldsText pair.2

/-! ## Cutting -/

theorem Tag.secures_paragraph (isSealed : document.Sealed base) (cause : PlacementError) :
    Edit.Secures base (tag.paragraph cause) document fun paragraph after =>
      document = after ∧ document.Ordinary paragraph := by
  refine Secures.of_get ?_
  split
  · next paragraph found =>
      exact Secures.of_pure isSealed ⟨rfl, isSealed.ordinary_of_ancestorNamed? found (by decide)⟩
  · exact Secures.of_throw isSealed

theorem Extraction.secures_cutFragments (isSealed : document.Sealed base)
    (opening : document.HoldsText openingTag.textNode)
    (closing : document.HoldsText closingTag.textNode) :
    Edit.Secures base (cutFragments openingTag closingTag) document fun region after =>
      region.IsOrdinary after := by
  refine Secures.bind isSealed (openingTag.secures_paragraph isSealed _) ?_
  rintro first _ - - ⟨rfl, firstOrdinary⟩
  refine Secures.bind isSealed (closingTag.secures_paragraph isSealed _) ?_
  rintro last _ - - ⟨rfl, lastOrdinary⟩
  refine Secures.bind isSealed
    (Secures.of_edit (Edit.secures_splitParagraph isSealed opening first true)) ?_
  intro afterOpening opened _ toOpened headNew
  have closing := toOpened.holdsText closing
  split
  · refine Secures.bind toOpened.toSealed
      (Secures.of_edit (Edit.secures_splitParagraph toOpened.toSealed closing afterOpening true)) ?_
    intro tail closed _ toClosed tailNew
    refine Secures.bind toClosed.toSealed
      (Secures.of_edit (Edit.secures_detach toClosed.toSealed afterOpening)) ?_
    intro _ after _ toAfter _
    have whole := (toOpened.trans toClosed isSealed).trans toAfter isSealed
    refine Secures.of_pure toAfter.toSealed ⟨whole.ordinary firstOrdinary,
      toAfter.ordinary tailNew.toOrdinary, ?_⟩
    simpa using toAfter.ordinary (toClosed.ordinary headNew.toOrdinary)
  · refine Secures.bind toOpened.toSealed
      (Secures.of_edit (Edit.secures_splitParagraph toOpened.toSealed closing last true)) ?_
    intro tail closed _ toClosed tailNew
    refine Secures.bind toClosed.toSealed
      (Secures.of_edit (Edit.secures_detach toClosed.toSealed afterOpening)) ?_
    intro _ headOut _ toHeadOut _
    refine Secures.bind toHeadOut.toSealed
      (Secures.of_edit (Edit.secures_detach toHeadOut.toSealed last)) ?_
    intro _ lastOut _ toLastOut _
    refine Secures.bind toLastOut.toSealed
      (Secures.of_edit (Edit.secures_removeBetween toLastOut.toSealed first tail)) ?_
    intro between after _ toAfter areOrdinary
    have toEnd := (toHeadOut.trans toLastOut toClosed.toSealed).trans toAfter toClosed.toSealed
    have whole := (toOpened.trans toClosed isSealed).trans toEnd isSealed
    refine Secures.of_pure toAfter.toSealed ⟨whole.ordinary firstOrdinary,
      toEnd.ordinary tailNew.toOrdinary, fun node isNode => ?_⟩
    simp only [List.mem_cons, List.mem_append, List.not_mem_nil, or_false] at isNode
    rcases isNode with rfl | isBetween | rfl
    · exact toEnd.ordinary (toClosed.ordinary headNew.toOrdinary)
    · exact areOrdinary node isBetween
    · exact whole.ordinary lastOrdinary

namespace Strategy

theorem secures_rowOf (isSealed : document.Sealed base) (cause : PlacementError) :
    Edit.Secures base (rowOf tag cause) document fun row after =>
      document = after ∧ document.Ordinary row := by
  refine Secures.of_get ?_
  split
  · next row found =>
      exact Secures.of_pure isSealed ⟨rfl, isSealed.ordinary_of_ancestorNamed? found (by decide)⟩
  · exact Secures.of_throw isSealed

theorem secures_removeTagAndRun (isSealed : document.Sealed base) (tag : Tag) :
    Edit.Secures base (removeTagAndRun tag) document fun _ _ => True := by
  refine Secures.of_get ?_
  refine Secures.bind isSealed (Edit.secures_detach isSealed _) ?_
  intro _ bare _ toBare _
  split
  · refine Secures.of_get ?_
    split
    · exact (Edit.secures_detach toBare.toSealed _).forget
    · exact Secures.of_pure toBare.toSealed trivial
  · exact Secures.of_pure toBare.toSealed trivial

theorem secures_cutRows (isSealed : document.Sealed base) :
    Edit.Secures base (cutRows openingTag closingTag) document fun region after =>
      region.IsOrdinary after := by
  refine Secures.bind isSealed (secures_rowOf isSealed _) ?_
  rintro first _ - - ⟨rfl, firstOrdinary⟩
  refine Secures.bind isSealed (secures_rowOf isSealed _) ?_
  rintro last _ - - ⟨rfl, lastOrdinary⟩
  refine Secures.bind isSealed (Secures.of_edit (secures_removeTagAndRun isSealed openingTag)) ?_
  intro _ opened _ toOpened _
  refine Secures.bind toOpened.toSealed
    (Secures.of_edit (secures_removeTagAndRun toOpened.toSealed closingTag)) ?_
  intro _ closed _ toClosed _
  have whole := toOpened.trans toClosed isSealed
  refine Secures.bind toClosed.toSealed
    (Secures.of_edit (Edit.secures_siblingRange toClosed.toSealed first last)) ?_
  rintro nodes _ - - ⟨rfl, parent, -, areSiblings⟩
  exact Secures.of_pure toClosed.toSealed ⟨whole.ordinary firstOrdinary, whole.ordinary lastOrdinary,
    fun node isNode => toClosed.toSealed.ordinary_of_parent (areSiblings node isNode)⟩

theorem secures_cutListItems (isSealed : document.Sealed base) :
    Edit.Secures base (cutListItems openingTag closingTag) document fun region after =>
      region.IsOrdinary after := by
  refine Secures.bind isSealed (openingTag.secures_paragraph isSealed _) ?_
  rintro first _ - - ⟨rfl, firstOrdinary⟩
  refine Secures.bind isSealed (closingTag.secures_paragraph isSealed _) ?_
  rintro last _ - - ⟨rfl, lastOrdinary⟩
  refine Secures.of_get (Secures.bind isSealed (Secures.of_edit (Edit.secures_detach isSealed _)) ?_)
  intro _ opened _ toOpened _
  refine Secures.of_get (Secures.bind toOpened.toSealed
    (Secures.of_edit (Edit.secures_detach toOpened.toSealed _)) ?_)
  intro _ closed _ toClosed _
  refine Secures.bind toClosed.toSealed
    (Secures.of_edit (Edit.secures_removeEmptyRuns toClosed.toSealed first)) ?_
  intro _ firstTidied _ toFirst _
  refine Secures.bind toFirst.toSealed
    (Secures.of_edit (Edit.secures_removeEmptyRuns toFirst.toSealed last)) ?_
  intro _ tidied _ toTidied _
  have whole := ((toOpened.trans toClosed isSealed).trans toFirst isSealed).trans toTidied isSealed
  refine Secures.bind toTidied.toSealed
    (Secures.of_edit (Edit.secures_siblingRange toTidied.toSealed first last)) ?_
  rintro range _ - - ⟨rfl, parent, -, areSiblings⟩
  refine Secures.of_get (Secures.of_pure toTidied.toSealed ⟨whole.ordinary firstOrdinary,
    whole.ordinary lastOrdinary, fun node isNode => ?_⟩)
  exact toTidied.toSealed.ordinary_of_parent (areSiblings node (List.mem_of_mem_filter isNode))

theorem secures_loopOver {workspace : Workspace} (isSealed : workspace.document.Sealed base)
    (standard : Option LoopOver) :
    Work.Secures base (loopOver standard openingTag closingTag) workspace fun _ after =>
      after.document = workspace.document := by
  refine Secures.of_get ?_
  refine Secures.bind isSealed (Secures.of_noteAll isSealed _) ?_
  intro _ noted _ seals same
  split
  · split
    · refine Secures.bind seals.toSealed (Secures.of_note seals.toSealed _ _) ?_
      intro _ warned _ seals' same'
      exact Secures.of_pure seals'.toSealed (same'.trans same)
    · exact Secures.of_pure seals.toSealed same
  · exact Secures.of_pure seals.toSealed same
  · exact Secures.of_pure seals.toSealed same

/-- Whichever strategy cuts a region out between text nodes, its nodes are ordinary. -/
theorem secures_cut {workspace : Workspace} (isSealed : workspace.document.Sealed base)
    (opening : workspace.document.HoldsText openingTag.textNode)
    (closing : workspace.document.HoldsText closingTag.textNode) (strategy : Strategy) :
    Work.Secures base (strategy.cut openingTag closingTag) workspace fun region after =>
      region.IsOrdinary after.document := by
  cases strategy with
  | list => exact Secures.of_extraction (secures_cutListItems isSealed)
  | paragraph => exact Secures.of_extraction (Extraction.secures_cutFragments isSealed opening closing)
  | table standard =>
      refine Secures.bind isSealed (secures_loopOver isSealed standard) ?_
      intro repeated chosen _ toChosen _
      refine Secures.bind toChosen.toSealed (Secures.of_note toChosen.toSealed _ _) ?_
      intro _ noted _ toNoted _
      have toNoted := toChosen.trans toNoted isSealed
      cases repeated with
      | row => exact Secures.of_extraction (secures_cutRows toNoted.toSealed)
      | content =>
          exact Secures.of_extraction (Extraction.secures_cutFragments toNoted.toSealed
            (toNoted.holdsText opening) (toNoted.holdsText closing))

end Strategy

/-! ## Copies -/

namespace Edit

theorem secures_copyRegion {nodes : List NodeId} (isSealed : document.Sealed base)
    (ordinary : ∀ node ∈ nodes, document.Ordinary node) :
    Secures base (copyRegion nodes) document fun copy after => copy.IsRecent base document after := by
  induction nodes generalizing document with
  | nil => exact Secures.of_pure isSealed ⟨by simp, by simp⟩
  | cons node rest inductionHypothesis =>
      refine Secures.bind isSealed
        (secures_copySubtree isSealed (ordinary node List.mem_cons_self)) ?_
      rintro first middle - toMiddle ⟨isFirst, texts⟩
      refine Secures.bind toMiddle.toSealed (inductionHypothesis toMiddle.toSealed fun other isOther =>
        toMiddle.ordinary (ordinary other (List.mem_cons_of_mem _ isOther))) ?_
      intro others after _ toAfter areRecent
      refine Secures.of_pure toAfter.toSealed ⟨fun root isRoot => ?_, fun pair isPair holdsText => ?_⟩
      · rcases List.mem_cons.mp isRoot with rfl | isRoot
        · exact toAfter.recent isFirst.toRecent
        · exact areRecent.roots root isRoot
      · rcases List.mem_append.mp isPair with isPair | isPair
        · exact toAfter.holdsText (texts pair isPair holdsText)
        · exact areRecent.texts pair isPair (toMiddle.holdsText holdsText)

theorem secures_repeatRegion {nodes : List NodeId} (isSealed : document.Sealed base)
    (ordinary : ∀ node ∈ nodes, document.Ordinary node) (times : Nat) :
    Secures base (repeatRegion nodes times) document fun copies after =>
      ∀ copy ∈ copies, copy.IsRecent base document after := by
  induction times generalizing document with
  | zero => exact Secures.of_pure isSealed (by simp)
  | succ times inductionHypothesis =>
      refine Secures.bind isSealed (secures_copyRegion isSealed ordinary) ?_
      intro first middle _ toMiddle isRecent
      refine Secures.bind toMiddle.toSealed (inductionHypothesis toMiddle.toSealed fun node isNode =>
        toMiddle.ordinary (ordinary node isNode)) ?_
      intro others after _ toAfter areRecent
      refine Secures.of_pure toAfter.toSealed fun copy isCopy => ?_
      rcases List.mem_cons.mp isCopy with rfl | isCopy
      · exact ⟨fun root isRoot => toAfter.recent (isRecent.roots root isRoot),
          fun pair isPair holdsText => toAfter.holdsText (isRecent.texts pair isPair holdsText)⟩
      · exact ⟨(areRecent copy isCopy).roots, fun pair isPair holdsText =>
          (areRecent copy isCopy).texts pair isPair (toMiddle.holdsText holdsText)⟩

end Edit

/-- The tags in a copy stand at text nodes if the copied ones did. -/
theorem RegionCopy.IsRecent.holdsText {copy : RegionCopy} {after : Document} {inner : List Tag}
    (isRecent : copy.IsRecent base before after)
    (texts : ∀ tag ∈ inner, before.HoldsText tag.textNode) :
    ∀ tag ∈ copy.tags inner, after.HoldsText tag.textNode := by
  intro moved isMoved
  rcases List.mem_filterMap.mp isMoved with ⟨tag, isTag, isMoved⟩
  rcases Option.map_eq_some_iff.mp isMoved with ⟨image, found, rfl⟩
  rcases List.lookup_eq_some_iff.mp found with ⟨before, behind, isPair, -⟩
  exact isRecent.texts (tag.textNode, image) (by simp [isPair]) (texts tag isTag)

/-! ## Putting copies back -/

namespace Edit

variable {target tail fragment : NodeId} {nodes group : List NodeId} {groups : List (List NodeId)}

theorem secures_joinFragment (isSealed : document.Sealed base) (target fragment : NodeId) :
    Secures base (joinFragment target fragment) document fun _ _ => True := by
  refine Secures.of_get ?_
  split
  · next named =>
      rw [Bool.and_eq_true] at named
      refine Secures.bind isSealed (secures_joinParagraphs isSealed
        (ordinary_of_isNamed named.1 (by decide)) (ordinary_of_isNamed named.2 (by decide))) ?_
      intro _ joined _ toJoined _
      refine Secures.bind toJoined.toSealed (secures_detach toJoined.toSealed fragment) ?_
      intro _ after _ toAfter _
      exact Secures.of_pure toAfter.toSealed trivial
  · exact Secures.of_pure isSealed trivial

theorem secures_placeFragments (isSealed : document.Sealed base) (tail target : NodeId)
    (areRecent : ∀ node ∈ nodes, document.Recent base node) :
    Secures base (placeFragments tail target nodes) document fun _ _ => True := by
  induction nodes generalizing document target with
  | nil => exact Secures.of_pure isSealed trivial
  | cons node rest inductionHypothesis =>
      refine Secures.bind isSealed
        (secures_insertRecent isSealed (areRecent node List.mem_cons_self) 0 tail) ?_
      intro _ middle _ toMiddle _
      exact inductionHypothesis toMiddle.toSealed node fun other isOther =>
        toMiddle.recent (areRecent other (List.mem_cons_of_mem _ isOther))

theorem secures_mergeGroup (isSealed : document.Sealed base) (tail target : NodeId)
    (areRecent : ∀ node ∈ group, document.Recent base node) :
    Secures base (mergeGroup tail target group) document fun _ _ => True := by
  cases group with
  | nil => exact Secures.of_pure isSealed trivial
  | cons first rest =>
      refine Secures.bind isSealed (secures_joinFragment isSealed target first) ?_
      intro joined middle _ toMiddle _
      split
      · exact secures_placeFragments toMiddle.toSealed tail target fun other isOther =>
          toMiddle.recent (areRecent other (List.mem_cons_of_mem _ isOther))
      · exact secures_placeFragments toMiddle.toSealed tail target fun other isOther =>
          toMiddle.recent (areRecent other isOther)

theorem secures_mergeGroups (isSealed : document.Sealed base) (tail target : NodeId)
    (areRecent : ∀ node ∈ groups.flatten, document.Recent base node) :
    Secures base (mergeGroups tail target groups) document fun _ _ => True := by
  induction groups generalizing document target with
  | nil =>
      refine Secures.bind isSealed (secures_joinFragment isSealed target tail) ?_
      intro joined middle _ toMiddle _
      split <;> exact Secures.of_pure toMiddle.toSealed trivial
  | cons group rest inductionHypothesis =>
      rw [List.flatten_cons] at areRecent
      refine Secures.bind isSealed (secures_mergeGroup isSealed tail target fun node isNode =>
        areRecent node (List.mem_append_left _ isNode)) ?_
      intro reached middle _ toMiddle _
      refine Secures.bind toMiddle.toSealed (inductionHypothesis toMiddle.toSealed reached
        fun node isNode =>
        toMiddle.recent (areRecent node (List.mem_append_right _ isNode))) ?_
      intro junctions after _ toAfter _
      exact Secures.of_pure toAfter.toSealed trivial

theorem secures_tidyJunction (isSealed : document.Sealed base) (paragraph : NodeId) :
    Secures base (tidyJunction paragraph) document fun _ _ => True := by
  refine Secures.bind isSealed (secures_removeEmptyRuns isSealed paragraph) ?_
  intro _ tidied _ toTidied _
  refine Secures.of_get ?_
  split
  · exact (secures_detach toTidied.toSealed paragraph).forget
  · exact Secures.of_pure toTidied.toSealed trivial

theorem secures_mergeFragments (isSealed : document.Sealed base) (head tail : NodeId)
    (areRecent : ∀ node ∈ groups.flatten, document.Recent base node) :
    Secures base (mergeFragments groups head tail) document fun _ _ => True := by
  refine Secures.bind isSealed (secures_mergeGroups isSealed tail head areRecent) ?_
  intro junctions merged _ toMerged _
  exact secures_forM (fun _ => True) toMerged.toSealed trivial fun paragraph _ _ seals _ =>
    secures_tidyJunction seals.toSealed paragraph

end Edit

theorem Strategy.secures_replaceRange {groups : List (List NodeId)} (isSealed : document.Sealed base)
    (first last : NodeId) (areRecent : ∀ node ∈ groups.flatten, document.Recent base node) :
    Edit.Secures base (replaceRange groups first last) document fun _ _ => True := by
  refine Secures.bind isSealed (Edit.secures_siblingRange isSealed first last) ?_
  rintro replaced _ - - ⟨rfl, -⟩
  have placed : Edit.Secures base (groups.flatten.forM fun node => Edit.insertBefore node first)
      document fun _ _ => True :=
    Edit.secures_forM (fun _ => True) isSealed trivial fun node isNode middle toMiddle _ =>
      (Edit.secures_insertRecent toMiddle.toSealed (toMiddle.recent (areRecent node isNode)) 0
        first).forget
  refine Secures.bind isSealed placed ?_
  intro _ filled _ toFilled _
  exact Edit.secures_detachAll toFilled.toSealed replaced

/-- New nodes may be put back whatever kind of region they come from. -/
theorem Strategy.secures_putBack {groups : List (List NodeId)} (isSealed : document.Sealed base)
    (region : CutRegion) (areRecent : ∀ node ∈ groups.flatten, document.Recent base node) :
    Edit.Secures base (putBack region groups) document fun _ _ => True := by
  rw [putBack]
  split
  · exact Edit.secures_mergeFragments isSealed region.first region.last areRecent
  · exact secures_replaceRange isSealed region.first region.last areRecent

/-! ## Regions -/

/-- The tags of a region stand at text nodes. -/
structure Region.HoldsText (region : Region) (document : Document) : Prop where
  opening : document.HoldsText region.openingTag.textNode
  inner : ∀ tag ∈ region.innerTags, document.HoldsText tag.textNode
  closing : document.HoldsText region.closingTag.textNode

/-- The tags of a region stay at text nodes. -/
theorem Region.HoldsText.seals {region : Region} {before after : Document}
    (texts : region.HoldsText before) (seals : Seals base before after) : region.HoldsText after where
  opening := seals.holdsText texts.opening
  inner tag isInner := seals.holdsText (texts.inner tag isInner)
  closing := seals.holdsText texts.closing

/-- A new copy is ready to be compiled if the tags of the region stand at text nodes. -/
theorem RegionCopy.IsRecent.isReady {copy : RegionCopy} {before after : Document} {inner : List Tag}
    (isRecent : copy.IsRecent base before after) (isSealed : after.Sealed base)
    (texts : ∀ tag ∈ inner, before.HoldsText tag.textNode) : copy.IsReady after inner where
  roots root isRoot := (isRecent.roots root isRoot).toOrdinary
  notRoot isRoot := absurd isSealed.root_lt
    (Nat.not_lt_of_le (isRecent.roots after.root isRoot).isNew)
  texts := isRecent.holdsText texts

/-- A region is cut out and compiled, and what comes next finds only new nodes among the compiled
ones. -/
theorem Region.secures_compiled {region : Region} {compile : RegionCompiler region}
    {scoping : Scoping} {workspace : Workspace} {next : CutRegion → List (List NodeId) → Work Unit}
    (compiles : compile.Secures) (isSealed : workspace.document.Sealed base)
    (texts : region.HoldsText workspace.document) (strategy : Strategy) (times : Nat)
    (nextSecures : ∀ cut groups after, after.document.Sealed base → cut.IsOrdinary after.document →
      (∀ node ∈ groups.flatten, after.document.Recent base node) →
      Work.Secures base (next cut groups) after fun _ _ => True) :
    Work.Secures base (do
      let cut ← strategy.cut region.openingTag region.closingTag
      let copies ← (Edit.repeatRegion cut.nodes times : Edit (List RegionCopy))
      let groups ← region.compileCopies compile scoping 0 copies
      next cut groups) workspace fun _ _ => True := by
  refine Secures.bind isSealed (Strategy.secures_cut isSealed texts.opening texts.closing strategy) ?_
  intro cut cutOut _ toCutOut isOrdinary
  refine Secures.bind toCutOut.toSealed
    (Secures.of_edit_work (Edit.secures_repeatRegion toCutOut.toSealed isOrdinary.nodes times)) ?_
  intro copies copied _ toCopied areRecent
  have areReady : ∀ copy ∈ copies, copy.IsReady copied.document region.innerTags := fun copy isCopy =>
    (areRecent copy isCopy).isReady toCopied.toSealed (texts.seals toCutOut).inner
  refine Secures.bind toCopied.toSealed
    (secures_compileCopies compiles toCopied.toSealed areReady) ?_
  intro groups compiled _ toCompiled areReturned
  have toEnd := toCopied.trans toCompiled toCutOut.toSealed
  refine nextSecures cut groups compiled toCompiled.toSealed
    ⟨toEnd.ordinary isOrdinary.first, toEnd.ordinary isOrdinary.last, fun node isNode =>
      toEnd.ordinary (isOrdinary.nodes node isNode)⟩ fun node isNode => ?_
  have returned := areReturned node isNode
  refine ⟨returned.toOrdinary, returned.origin.elim id fun isRoot => ?_⟩
  rcases List.mem_flatMap.mp isRoot with ⟨copy, isCopy, isRoot⟩
  exact ((areRecent copy isCopy).roots node isRoot).isNew

/-! ## Hiding -/

namespace Edit

variable {node first last properties : NodeId} {name flag : String} {leading : List String}
  {nodes : SectionNodes}

theorem secures_whenAttached {edit : Edit Unit} (isSealed : document.Sealed base)
    (secures : Secures base edit document fun _ _ => True) :
    Secures base (whenAttached node edit) document fun _ _ => True := by
  refine Secures.of_get ?_
  split
  · exact secures
  · exact Secures.of_pure isSealed trivial

/-- A flag goes into the properties of a node. -/
theorem secures_flagged (isSealed : document.Sealed base) (ordinary : document.Ordinary node)
    (differ : name ≠ wrapperName) (differ' : flag ≠ wrapperName) (leading : List String) :
    Secures base (whenAttached node do
      let properties ← ensureProperties node name leading
      discard (setFlag properties flag)) document fun _ _ => True := by
  refine secures_whenAttached isSealed ?_
  refine Secures.bind isSealed (secures_ensureProperties isSealed ordinary differ leading) ?_
  rintro properties ensured - toEnsured ⟨isParent, -⟩
  exact (secures_setFlag toEnsured.toSealed (toEnsured.toSealed.ordinary_of_parent isParent)
    differ').discard

theorem secures_ensureMarkProperties (isSealed : document.Sealed base)
    (ordinary : document.Ordinary properties) :
    Secures base (ensureMarkProperties properties) document fun mark after => after.Ordinary mark := by
  refine Secures.of_get ?_
  dsimp only
  split
  · next existing found => exact Secures.of_pure isSealed (isSealed.ordinary_of_childNamed? found)
  · refine Secures.bind isSealed (secures_createElement isSealed (by decide)) ?_
    intro mark created _ toCreated introduced
    split
    · refine Secures.bind toCreated.toSealed
        (secures_insertRecent toCreated.toSealed introduced.toRecent 0 _) ?_
      intro _ placed _ toPlaced _
      exact Secures.of_pure toPlaced.toSealed (toPlaced.ordinary introduced.toOrdinary)
    · refine Secures.bind toCreated.toSealed (secures_appendChild toCreated.toSealed
        (toCreated.ordinary ordinary) introduced.toOrdinary introduced.loose) ?_
      intro _ placed _ toPlaced _
      exact Secures.of_pure toPlaced.toSealed (toPlaced.ordinary introduced.toOrdinary)

theorem secures_hideParagraph (isSealed : document.Sealed base) (runs : List NodeId)
    (paragraph : NodeId) : Secures base (hideParagraph runs paragraph) document fun _ _ => True := by
  refine secures_whenAttached isSealed (Secures.of_get ?_)
  split
  · next isHidden =>
      rw [Bool.and_eq_true] at isHidden
      refine Secures.bind isSealed (secures_ensureProperties isSealed
        (ordinary_of_isNamed isHidden.1 (by decide)) (by decide) _) ?_
      rintro properties ensured - toEnsured ⟨isParent, -⟩
      refine Secures.bind toEnsured.toSealed (secures_ensureMarkProperties toEnsured.toSealed
        (toEnsured.toSealed.ordinary_of_parent isParent)) ?_
      intro mark marked _ toMarked markOrdinary
      exact (secures_setFlag toMarked.toSealed markOrdinary (by decide)).discard
  · exact Secures.of_pure isSealed trivial

/-- Edits of ordinary nodes are secure if each of them is. -/
theorem secures_forM_ordinary {nodes : List NodeId} {edit : NodeId → Edit Unit}
    (isSealed : document.Sealed base) (ordinary : ∀ node ∈ nodes, document.Ordinary node)
    (secures : ∀ node middle, middle.Sealed base → middle.Ordinary node →
      Secures base (edit node) middle fun _ _ => True) :
    Secures base (nodes.forM edit) document fun _ _ => True :=
  secures_forM (fun _ => True) isSealed trivial fun node isNode middle toMiddle _ =>
    secures node middle toMiddle.toSealed (toMiddle.ordinary (ordinary node isNode))

/-- The nodes of a section that may be hidden are ordinary. -/
structure OrdinarySection (document : Document) (nodes : SectionNodes) : Prop where
  runs : ∀ node ∈ nodes.runs, document.Ordinary node
  rows : ∀ node ∈ nodes.rows, document.Ordinary node
  controlProperties : ∀ node ∈ nodes.controlProperties, document.Ordinary node

theorem OrdinarySection.seals {before after : Document} (ordinary : OrdinarySection before nodes)
    (seals : Seals base before after) : OrdinarySection after nodes where
  runs node isNode := seals.ordinary (ordinary.runs node isNode)
  rows node isNode := seals.ordinary (ordinary.rows node isNode)
  controlProperties node isNode := seals.ordinary (ordinary.controlProperties node isNode)

/-- What is collected has another name than wrappers have. -/
theorem ordinarySection_collect (document : Document) (topmost : List NodeId) :
    OrdinarySection document (SectionNodes.collect document topmost) where
  runs _ isNode := ordinary_of_isNamed (List.mem_filter.mp isNode).2 (by decide)
  rows _ isNode := ordinary_of_isNamed (List.mem_filter.mp isNode).2 (by decide)
  controlProperties _ isNode := ordinary_of_isNamed (List.mem_filter.mp isNode).2 (by decide)

theorem secures_hideNodes (isSealed : document.Sealed base) (ordinary : OrdinarySection document nodes)
    (head : NodeId) : Secures base (hideNodes nodes head) document fun _ _ => True := by
  refine Secures.bind isSealed (secures_forM_ordinary isSealed ordinary.runs fun run _ isSealed ordinary =>
    secures_flagged isSealed ordinary (by decide) (by decide) _) ?_
  intro _ hidden _ toHidden _
  refine Secures.bind toHidden.toSealed (secures_forM (fun _ => True) toHidden.toSealed trivial
    fun paragraph _ middle toMiddle _ => secures_hideParagraph toMiddle.toSealed _ paragraph) ?_
  intro _ marked _ toMarked _
  have ordinary := (ordinary.seals toHidden).seals toMarked
  refine Secures.bind toMarked.toSealed (secures_forM_ordinary toMarked.toSealed ordinary.rows
    fun row _ isSealed ordinary => secures_flagged isSealed ordinary (by decide) (by decide) _) ?_
  intro _ rowsHidden _ toRows _
  exact secures_forM_ordinary toRows.toSealed (ordinary.seals toRows).controlProperties
    fun control _ isSealed ordinary => secures_flagged isSealed ordinary (by decide) (by decide) _

/-! ## Enclosing -/

theorem secures_addBookmarks (isSealed : document.Sealed base) (part : Section)
    (first last : NodeId) : Secures base (addBookmarks part first last) document fun _ _ => True := by
  unfold addBookmarks
  split
  · refine Secures.bind isSealed (secures_plant isSealed ?_) ?_
    · simp [Tree.eachElement_node, Word.Name.bookmarkStart, wrapperName]
    intro start begun _ toBegun startIntroduced
    refine Secures.bind toBegun.toSealed (secures_plant toBegun.toSealed ?_) ?_
    · simp [Tree.eachElement_node, Word.Name.bookmarkEnd, wrapperName]
    intro stop ended _ toEnded stopIntroduced
    refine Secures.bind toEnded.toSealed (secures_insertRecent toEnded.toSealed
      (toEnded.recent startIntroduced.toRecent) 0 first) ?_
    intro _ placed _ toPlaced _
    exact (secures_insertRecent toPlaced.toSealed (toPlaced.recent stopIntroduced.toRecent) 1
      last).forget
  · exact Secures.of_pure isSealed trivial

theorem secures_bookmarkSection (isSealed : document.Sealed base) (part : Section)
    (nodes : SectionNodes) : Secures base (bookmarkSection part nodes) document fun _ _ => True := by
  refine Secures.of_get ?_
  split
  · exact secures_addBookmarks isSealed part _ _
  · exact Secures.of_pure isSealed trivial

end Edit

/-- A node that is part of the tree does not stand right below a wrapper. -/
theorem Document.Sealed.ordinary_of_attached {id parent : NodeId} (isSealed : document.Sealed base)
    (isAttached : document.isAttached id = true) (isParent : document.parent id = some parent) :
    document.Ordinary parent := by
  refine ⟨parent_lt_size isSealed.wellFormed isParent, ?_⟩
  rcases ((isAttached_iff isSealed.wellFormed).mp isAttached).cases_above isParent with rfl | above
  · exact isSealed.root_free parent isParent
  · rcases above.cases_parent with rfl | ⟨grandparent, isGrandparent, -⟩
    · exact isSealed.root_ordinary
    · exact isSealed.child_ordinary parent grandparent isGrandparent

namespace SectionNodes

variable {nodes : SectionNodes} {first last : NodeId}

/-- The blocks of a section are part of the tree. -/
theorem isAttached_of_attachedRange? (found : nodes.attachedRange? document = some (first, last)) :
    document.isAttached first = true := by
  have areAttached : ∀ node ∈ nodes.attachedBlocks document, document.isAttached node = true := by
    intro node isBlock
    rw [attachedBlocks] at isBlock
    split at isBlock
    · cases isBlock
    · split at isBlock
      · have isCandidate := (List.mem_filter.mp isBlock).2
        rw [Bool.and_eq_true, Bool.and_eq_true] at isCandidate
        exact isCandidate.1.1
      · cases isBlock
  rw [attachedRange?] at found
  split at found
  · cases found
  · next blocks =>
      rw [Option.some.injEq, Prod.mk.injEq] at found
      rw [blocks, found.1] at areAttached
      exact areAttached first List.mem_cons_self

end SectionNodes

/-- The properties of a content control hold no wrapper. -/
theorem Section.controlProperties_plain (part : Section) :
    part.controlProperties.EachElement (·.name ≠ Edit.wrapperName) := by
  have apart : ∀ name ∈ propertyNames, name ≠ Edit.wrapperName := by decide
  exact part.eachElement_controlProperties fun name isName _ => apart name isName

namespace Edit

variable {nodes : SectionNodes}

theorem secures_wrapInControl (isSealed : document.Sealed base) (part : Section)
    (nodes : SectionNodes) : Secures base (wrapInControl part nodes) document fun _ _ => True := by
  refine Secures.of_get ?_
  split
  · exact Secures.of_pure isSealed trivial
  next first last found =>
    refine Secures.bind isSealed (secures_siblingRange isSealed first last) ?_
    rintro range _ - - ⟨rfl, parent, isParent, areSiblings⟩
    have parentOrdinary := isSealed.ordinary_of_attached
      (SectionNodes.isAttached_of_attachedRange? found) isParent
    refine Secures.bind isSealed (secures_createElement isSealed (by decide)) ?_
    intro control begun _ toBegun controlIs
    refine Secures.bind toBegun.toSealed
      (secures_plant toBegun.toSealed part.controlProperties_plain) ?_
    intro properties planted _ toPlanted propertiesIs
    refine Secures.bind toPlanted.toSealed (secures_createElement toPlanted.toSealed (by decide)) ?_
    intro content created _ toCreated contentIs
    have controlOrdinary := toCreated.ordinary (toPlanted.ordinary controlIs.toOrdinary)
    refine Secures.bind toCreated.toSealed (secures_appendChild toCreated.toSealed controlOrdinary
      (toCreated.ordinary propertiesIs.toOrdinary) (toCreated.recent propertiesIs.toRecent).loose) ?_
    intro _ described _ toDescribed parent_eq
    refine Secures.bind toDescribed.toSealed (secures_appendChild toDescribed.toSealed
      (toDescribed.ordinary controlOrdinary) (toDescribed.ordinary contentIs.toOrdinary)
      (toDescribed.recent contentIs.toRecent).loose) ?_
    intro _ filled _ toFilled parent_eq'
    have toFilled' := toDescribed.trans toFilled toCreated.toSealed
    refine Secures.bind toFilled.toSealed (secures_insertRecent toFilled.toSealed
      (toFilled'.recent (toCreated.recent (toPlanted.recent controlIs.toRecent))) 0 first) ?_
    intro _ placed _ toPlaced parent_eq''
    have toPlaced' := toFilled'.trans toPlaced toCreated.toSealed
    have whole := ((toBegun.trans toPlanted isSealed).trans toCreated isSealed).trans toPlaced' isSealed
    have stays : ∀ node ∈ range, placed.parent node = some parent := by
      intro node isNode
      have isOld := lt_size_of_parent (areSiblings node isNode)
      have isOld' := Nat.lt_of_lt_of_le isOld toBegun.size_le
      have isOld'' := Nat.lt_of_lt_of_le isOld' toPlanted.size_le
      rw [parent_eq'' node (controlIs.ne isOld), parent_eq', if_neg (contentIs.ne isOld''),
        parent_eq, if_neg (propertiesIs.ne isOld'), contentIs.parent_eq node isOld'',
        propertiesIs.parent_eq node isOld',
        controlIs.parent_eq node isOld, areSiblings node isNode]
    have parentOrdinary := whole.ordinary parentOrdinary
    refine Secures.bind toPlaced.toSealed (secures_forM_appendChild toPlaced.toSealed
      (toPlaced'.ordinary contentIs.toOrdinary)
      (fun node isNode => toPlaced.toSealed.ordinary_of_parent (stays node isNode))
      (fun node isNode => .of_ordinary_parent (stays node isNode) parentOrdinary)) ?_
    intro _ moved _ toMoved _
    refine Secures.bind toMoved.toSealed (secures_addBookmarks toMoved.toSealed part control control) ?_
    intro _ after _ toAfter _
    exact Secures.of_pure toAfter.toSealed trivial

end Edit

/-! ## Containers -/

/-- A loop is secure as long as compiling its tags is. -/
theorem Loop.secures_replaceRegion {strategies : List Strategy} {context : Context} {region : Region}
    {compile : RegionCompiler region} {workspace : Workspace} (compiles : compile.Secures)
    (isSealed : workspace.document.Sealed base) (texts : region.HoldsText workspace.document) :
    Work.Secures base (replaceRegion strategies context region compile) workspace fun _ _ => True := by
  refine Secures.bind isSealed (Secures.of_boundValue? isSealed context) ?_
  rintro value _ - - ⟨-, rfl⟩
  refine Secures.bind isSealed (Secures.of_noteAll isSealed _) ?_
  intro _ noted _ toNoted _
  refine Secures.of_get ?_
  split
  · exact Secures.of_throw toNoted.toSealed
  · next strategy _ =>
      refine Secures.of_get (Secures.bind toNoted.toSealed (Secures.of_note toNoted.toSealed _ _) ?_)
      intro _ announced _ toAnnounced _
      refine Region.secures_compiled compiles toAnnounced.toSealed
        ((texts.seals toNoted).seals toAnnounced) strategy _ ?_
      intro cut groups after isSealed _ areRecent
      exact Secures.of_edit_work (Strategy.secures_putBack isSealed cut areRecent)

namespace Section

theorem secures_bound? {workspace : Workspace} (isSealed : workspace.document.Sealed base)
    (context : Context) (tag : Tag) :
    Work.Secures base (bound? context tag) workspace fun _ _ => True := by
  refine Secures.bind isSealed (Secures.of_boundValue? isSealed context) ?_
  rintro value _ - - ⟨-, rfl⟩
  split
  · exact Secures.of_pure isSealed trivial
  · split
    · exact Secures.of_pure isSealed trivial
    · exact Secures.of_note_pure isSealed _ _ fun _ => trivial

variable {nodes : SectionNodes}

theorem secures_finish (isSealed : document.Sealed base)
    (ordinary : Edit.OrdinarySection document nodes) (style : HidingStyle) (part : Section)
    (head : NodeId) : Edit.Secures base (finish style part nodes head) document fun _ _ => True := by
  cases style with
  | contentControl =>
      refine Secures.bind isSealed (Edit.secures_wrapInControl isSealed part nodes) ?_
      intro wrapped middle _ toMiddle _
      split
      · exact Edit.secures_hideNodes toMiddle.toSealed (ordinary.seals toMiddle) head
      · exact Secures.of_pure toMiddle.toSealed trivial
  | vanishRuns =>
      change Edit.Secures base (do
        if part.isHidden then
          Edit.hideNodes nodes head
        Edit.bookmarkSection part nodes) document fun _ _ => True
      split
      · refine Secures.bind isSealed (Edit.secures_hideNodes isSealed ordinary head) ?_
        intro _ hidden _ toHidden _
        exact Edit.secures_bookmarkSection toHidden.toSealed part nodes
      · exact Edit.secures_bookmarkSection isSealed part nodes

/-- A section is secure as long as compiling its tags is. -/
theorem secures_replaceRegion {style : HidingStyle} {context : Context} {region : Region}
    {compile : RegionCompiler region} {workspace : Workspace} (compiles : compile.Secures)
    (isSealed : workspace.document.Sealed base) (texts : region.HoldsText workspace.document) :
    Work.Secures base (replaceRegion style context region compile) workspace fun _ _ => True := by
  refine Secures.bind isSealed (secures_bound? isSealed context region.openingTag) ?_
  intro bound started _ toStarted _
  refine Secures.of_get ?_
  split
  · exact Secures.of_throw toStarted.toSealed
  · next strategy _ =>
      refine Secures.of_get
        (Secures.bind toStarted.toSealed (Secures.of_note toStarted.toSealed _ _) ?_)
      intro _ announced _ toAnnounced _
      refine Region.secures_compiled compiles toAnnounced.toSealed
        ((texts.seals toStarted).seals toAnnounced) strategy _ ?_
      intro cut groups compiled isSealed _ areRecent
      refine Secures.of_get ?_
      have ordinary := Edit.ordinarySection_collect compiled.document groups.flatten
      refine Secures.bind isSealed
        (Secures.of_edit_work (Strategy.secures_putBack isSealed cut areRecent)) ?_
      intro _ returned _ toReturned _
      split
      · split
        · exact Secures.of_edit_work (secures_finish toReturned.toSealed (ordinary.seals toReturned)
            style _ cut.first)
        · exact Secures.of_pure toReturned.toSealed trivial
      · exact Secures.of_pure toReturned.toSealed trivial

end Section

end WordTemplate
