import WordTemplate.Proofs.Total.Steps
import WordTemplate.Proofs.Word.Splitting

/-!
# Splitting succeeds

In a document with tiers every node around a text can be split. The right half takes the place of
the tier above, so both halves stand as the whole did.
-/

namespace WordTemplate

open Document Outcome

namespace Document

variable {document before after : Document} {id whole half : NodeId} {kept moved : List NodeId}
  {stray : NodeId → Prop}

theorem Halves.parent_kept (halves : Halves before after whole half kept moved) (isMember : id ∈ kept) :
    after.parent id = some whole := by
  rwa [← halves.wellFormed.mem_children_iff, halves.children_kept]

theorem Halves.tier_eq (halves : Halves before after whole half kept moved)
    (isOld : id.index < before.size) : after.tier? id = before.tier? id :=
  tier?_of_content_eq (halves.content_eq id isOld)

/-- Both halves of a node stay in the parent of the whole. -/
theorem Halves.parent_whole (halves : Halves before after whole half kept moved) :
    after.parent whole = before.parent whole := by
  rcases halves.beside with ⟨outer, -, -, isOuter, isOuter', -⟩
  rw [isOuter, isOuter']

end Document

namespace Edit

variable {document base : Document} {child parent outer right target : NodeId} {ids : List NodeId}
  {stray : NodeId → Prop}

/-- Nodes that fit below another one can be appended to it in turn. -/
theorem succeeds_forM_appendChild (tiered : document.Tiered stray) (target_lt : target.index < document.size)
    (each : ∀ id ∈ ids, id.index < document.size ∧ ¬document.LiesIn id target ∧
      document.Fits stray id target) :
    Succeeds (forM ids (appendChild target)) document fun _ after => after.Tiered stray := by
  refine (Succeeds.of_forM (fun rest s => s.Tiered stray ∧ target.index < s.size ∧
    ∀ id ∈ rest, id.index < s.size ∧ ¬s.LiesIn id target ∧ s.Fits stray id target) ?_
    ⟨tiered, target_lt, each⟩).imp fun _ _ _ holds => holds.1
  rintro id rest s ⟨tiered, target_lt, each⟩
  rcases each id List.mem_cons_self with ⟨inStore, outside, fits⟩
  refine (succeeds_appendChild tiered target_lt inStore outside fits).imp ?_
  rintro - after - ⟨moves, tiered⟩
  refine ⟨tiered, by rwa [moves.size_eq], fun other isMember => ?_⟩
  rcases each other (List.mem_cons_of_mem _ isMember) with ⟨inStore, outside, fits⟩
  have still := fits.moves moves outside
  exact ⟨by rwa [moves.size_eq], still.2, still.1⟩

/-- The properties of a node around text can be copied below its right half. -/
theorem succeeds_copyProperties (baseTiered : base.Tiered stray) (counts : ¬stray parent)
    (hasText : base.HasText stray parent) (tiered : document.Tiered stray)
    (begun : HalfBegun base document parent right)
    (areProperties : ∀ sibling ∈ ids,
      base.parent sibling = some parent ∧ base.isProperties sibling = true) :
    Succeeds (forM ids fun sibling => do
        let copy ← copySubtree sibling
        appendChild right copy.root) document fun _ after =>
      after.Tiered stray ∧ HalfBegun base after parent right := by
  refine (Succeeds.of_forM (fun rest s => s.Tiered stray ∧ HalfBegun base s parent right ∧
    ∀ sibling ∈ rest, base.parent sibling = some parent ∧ base.isProperties sibling = true) ?_
    ⟨tiered, begun, areProperties⟩).imp fun _ _ _ holds => ⟨holds.1, holds.2.1⟩
  rintro sibling rest s ⟨tiered, begun, areProperties⟩
  rcases areProperties sibling List.mem_cons_self with ⟨isParent, isProperties⟩
  have sibling_lt := lt_size_of_parent isParent
  have parent_lt := parent_lt_size baseTiered.toWellFormed isParent
  have siblingCounts : ¬stray sibling := baseTiered.not_stray counts (LiesIn.parent isParent)
  refine (succeeds_copySubtree tiered (Nat.lt_of_lt_of_le sibling_lt begun.retains.size_le)
    siblingCounts).bind ?_
  rintro copy copiedDocument copyDone ⟨copied, copiedTiered⟩
  have isPair : (sibling, copy.root) ∈ copy.pairs := (List.forall₂_cons.mp copied.tops).1
  have copyNew := copied.le_index isPair
  have rightDetached : copiedDocument.parent right = none := by
    rw [copied.retains.parent_eq begun.right_lt, begun.detached]
  have outside : ¬copiedDocument.LiesIn copy.root right := by
    intro inside
    have same := inside.eq_of_parent_none rightDetached
    exact Nat.not_le_of_lt begun.right_lt (same ▸ copyNew.1)
  have copyProperties : copiedDocument.isProperties copy.root = true := by
    rw [isProperties_of_content_eq (copied.content_eq _ isPair),
      isProperties_of_content_eq (begun.retains.content_eq sibling_lt), isProperties]
  have named_eq : ∀ name, copiedDocument.isNamed right name = base.isNamed parent name := by
    intro name
    rw [isNamed_of_content_eq (copied.retains.content_eq begun.right_lt),
      isNamed_of_content_eq begun.content_eq]
  have fits : copiedDocument.Fits stray copy.root right := by
    refine ⟨tiered.not_stray_new copyNew.1, fun hasText => ?_, fun named numbers => ?_,
      fun named => ?_⟩
    · rw [copiedTiered.isProperties_eq_false hasText] at copyProperties
      cases copyProperties
    · have isParent' : s.parent sibling = some parent := by
        rw [begun.retains.parent_eq sibling_lt, isParent]
      have named' := tiered.unnumbered isParent' counts
        (copied.numbers_of_pair tiered.toWellFormed isPair numbers)
      rw [isNamed_of_content_eq (begun.retains.content_eq parent_lt), ← named_eq, named] at named'
      cases named'
    · rw [named_eq, baseTiered.isNamed_eq_false hasText (by decide)] at named
      cases named
  refine (succeeds_appendChild copiedTiered
    (Nat.lt_of_lt_of_le begun.right_lt copied.retains.size_le) copyNew.2 outside fits).imp ?_
  rintro ⟨⟩ after appendDone ⟨-, afterTiered⟩
  exact ⟨afterTiered, begun.copyBelow sibling_lt isProperties copyDone appendDone,
    fun other isMember => areProperties other (List.mem_cons_of_mem _ isMember)⟩

section Placing

variable {copied gathered : Document} {moved : List NodeId} (tiered : document.Tiered stray)
  (counts : ¬stray parent) (hasText : document.HasText stray parent)
  (begun : HalfBegun document copied parent right)
  (movedParent : ∀ id ∈ moved, document.parent id = some parent)
include tiered begun movedParent

include counts hasText in
/-- The children after the cut can be gathered below the right half. -/
theorem succeeds_gather (copiedTiered : copied.Tiered stray) (nodup : moved.Nodup)
    (parent_lt : parent.index < document.size) :
    Succeeds (forM moved (appendChild right)) copied fun _ after =>
      after.Tiered stray ∧ Gathers copied after right moved := by
  have named_eq : ∀ name, copied.isNamed right name = document.isNamed parent name := fun name =>
    isNamed_of_content_eq begun.content_eq name
  have tier_eq : copied.tier? right = copied.tier? parent := by
    rw [tier?_of_content_eq begun.content_eq,
      tier?_of_content_eq (begun.retains.content_eq parent_lt)]
  have inStore : ∀ id ∈ moved, id.index < copied.size := fun id isMember =>
    Nat.lt_of_lt_of_le (lt_size_of_parent (movedParent id isMember)) begun.retains.size_le
  refine (succeeds_forM_appendChild copiedTiered begun.right_lt fun id isMember =>
    ⟨inStore id isMember, ?_, ?_⟩).imp fun _ after done afterTiered => ⟨afterTiered,
      gathers_of_forM_appendChild begun.wellFormed begun.right_lt inStore nodup done⟩
  · exact fun inside => begun.ne_right (lt_size_of_parent (movedParent id isMember))
      (inside.eq_of_parent_none begun.detached).symm
  · have isParent : copied.parent id = some parent := by
      rw [begun.retains.parent_eq (lt_size_of_parent (movedParent id isMember)),
        movedParent id isMember]
    refine ⟨tiered.not_stray counts (LiesIn.parent (movedParent id isMember)), fun hasText => ?_,
      fun named numbers => ?_, fun named => ?_⟩
    · exact ⟨stands_of_detached begun.detached,
        (copiedTiered.supports isParent hasText).congr rfl tier_eq⟩
    · rw [named_eq, ← isNamed_of_content_eq (begun.retains.content_eq parent_lt),
        copiedTiered.unnumbered isParent counts numbers] at named
      cases named
    · rw [named_eq, tiered.isNamed_eq_false hasText (by decide)] at named
      cases named

include hasText in
/-- The right half can be placed beside the node that is split. -/
theorem succeeds_placeHalf (gatheredTiered : gathered.Tiered stray)
    (gathers : Gathers copied gathered right moved) (isOuter : document.parent parent = some outer) :
    Succeeds (insertAfter right parent) gathered fun _ after => after.Tiered stray := by
  have wellFormed := tiered.toWellFormed
  have parent_lt := lt_size_of_parent isOuter
  have outer_lt := parent_lt_size wellFormed isOuter
  have outerHasText := hasText.above (LiesIn.parent isOuter)
  have above_lt : ∀ id, document.LiesIn id parent → id.index < document.size := fun id inside =>
    lt_size_of_liesIn wellFormed inside parent_lt
  -- Nothing at or above the node that is split is one of its children.
  have parent_eq : ∀ id, document.LiesIn id parent → gathered.parent id = document.parent id :=
    fun id inside => begun.parent_gathered gathers (above_lt id inside) fun isMember =>
      not_liesIn_of_parent wellFormed (movedParent id isMember) inside
  have outerAbove : ∀ {id}, document.LiesIn id outer → document.LiesIn id parent :=
    fun inside => LiesIn.of_parent isOuter inside
  have tier_kept : ∀ id, id.index < document.size → gathered.tier? id = document.tier? id :=
    fun id isOld => tier?_of_content_eq (begun.content_gathered gathers isOld)
  have content_right : gathered.content right = document.content parent := by
    rw [gathers.content_eq, begun.content_eq]
  have outside : ¬gathered.LiesIn right outer := fun inside => by
    rw [liesIn_iff_of_parent_eq fun id above => parent_eq id (outerAbove above)] at inside
    exact begun.ne_right (above_lt _ (outerAbove inside)) rfl
  have fits : gathered.Fits stray right outer := by
    refine ⟨tiered.not_stray_new begun.right_new, fun _ => ⟨?_, ?_⟩, fun _ numbers => ?_,
      fun named => ?_⟩
    · exact (tiered.stands outerHasText).congr (fun id above => parent_eq id (outerAbove above))
        fun id above => tier_kept id (above_lt id (outerAbove above))
    · exact (tiered.supports isOuter hasText).congr (tier?_of_content_eq content_right)
        (tier_kept outer outer_lt)
    · have named := numbers.1
      rw [isNamed_of_content_eq content_right, tiered.isNamed_eq_false hasText (by decide)] at named
      cases named
    · rw [isNamed_of_content_eq (begun.content_gathered gathers outer_lt),
        tiered.isNamed_eq_false outerHasText (by decide)] at named
      cases named
  exact (succeeds_insertBeside gatheredTiered (by rw [gathers.size_eq]; exact begun.right_lt)
    (by rw [parent_eq parent LiesIn.refl, isOuter]) (begun.ne_right parent_lt).symm outside fits
    1).imp fun _ _ _ placed => placed.1

end Placing

/-- A node around text that has a parent can be split after one of its children. -/
theorem succeeds_splitParent (tiered : document.Tiered stray) (counts : ¬stray parent)
    (isParent : document.parent child = some parent) (isOuter : document.parent parent = some outer)
    (hasText : document.HasText stray child) :
    Succeeds (splitParent child false) document fun right after => after.Tiered stray ∧
      after.HasText stray child ∧
        ∃ kept moved, Halves document after parent right (kept ++ [child]) moved := by
  have wellFormed := tiered.toWellFormed
  have parentHasText := hasText.above (LiesIn.parent isParent)
  have parent_lt := parent_lt_size wellFormed isParent
  rcases exists_around wellFormed isParent with ⟨kept, moved, around, position⟩
  have children_eq : document.children parent = (kept ++ [child]) ++ moved := by simp [around]
  have nodup := wellFormed.nodup_children parent
  rw [children_eq] at nodup
  have isSibling : ∀ id ∈ (kept ++ [child]) ++ moved, document.parent id = some parent := by
    intro id isMember
    rwa [← children_eq, wellFormed.mem_children_iff] at isMember
  have movedParent : ∀ id ∈ moved, document.parent id = some parent := fun id isMember =>
    isSibling id (List.mem_append_right _ isMember)
  have split : Succeeds (splitParent child false) document fun _ after => after.Tiered stray := by
    refine Succeeds.of_step (parentOf_eq_ok.mpr ⟨isParent, rfl⟩) ?_
    refine Succeeds.of_step (a := kept.length) (indexOf_eq_ok.mpr
      ⟨by rw [childIndex?_of_parent wellFormed isParent, position], rfl⟩) ?_
    refine (succeeds_copyNode tiered parent).bind ?_
    rintro _ _ - ⟨rfl, rfl, addedTiered⟩
    have length : kept.length + 1 = (kept ++ [child]).length := by simp
    refine Succeeds.of_get ?_
    simp only [Bool.false_eq_true, if_false, children_add, children_eq, length, List.take_left,
      List.drop_left]
    refine (succeeds_copyProperties tiered counts parentHasText addedTiered
      (HalfBegun.add wellFormed parent) fun sibling isMember => ?_).bind ?_
    · rcases List.mem_filter.mp isMember with ⟨isKept, isProperties⟩
      have isSibling := isSibling sibling (List.mem_append_left _ isKept)
      refine ⟨isSibling, ?_⟩
      rwa [isProperties_of_content_eq
        ((retains_add document _).content_eq (lt_size_of_parent isSibling))] at isProperties
    rintro ⟨⟩ copied - ⟨copiedTiered, begun⟩
    refine (succeeds_gather tiered counts parentHasText begun movedParent copiedTiered
      (List.nodup_append.mp nodup).2.1 parent_lt).bind ?_
    rintro ⟨⟩ gathered - ⟨gatheredTiered, gathers⟩
    refine (succeeds_placeHalf tiered parentHasText begun movedParent gatheredTiered gathers
      isOuter).bind ?_
    rintro ⟨⟩ final - finalTiered
    exact Succeeds.of_pure finalTiered
  refine split.imp ?_
  rintro right after done afterTiered
  rcases halves_of_splitParent wellFormed document.closed_everywhere isParent trivial
    (fun _ _ => trivial) done with ⟨kept', moved', -, halves, -⟩
  refine ⟨afterTiered, ?_, kept', moved', by simpa using halves⟩
  have childCounts : ¬stray child := tiered.not_stray counts (LiesIn.parent isParent)
  rw [afterTiered.hasText_iff childCounts, halves.runningTexts_below wellFormed isParent LiesIn.refl,
    ← tiered.hasText_iff childCounts]
  exact hasText

theorem succeeds_forM_detach {host : NodeId} (housed : document.Housed stray host) :
    Succeeds (forM ids detach) document fun _ after => after.Housed stray host :=
  Succeeds.of_forM (fun _ (s : Document) => s.Housed stray host)
    (fun id _ _ housed => Succeeds.of_done (a := ⟨⟩) rfl (housed.detach id)) housed

theorem succeeds_removeEmptyRuns {host : NodeId} (housed : document.Housed stray host) (container : NodeId) :
    Succeeds (removeEmptyRuns container) document fun _ after => after.Housed stray host :=
  Succeeds.of_get (succeeds_forM_detach housed)

theorem succeeds_removeSectionBreak {host : NodeId} (housed : document.Housed stray host)
    (paragraph : NodeId) :
    Succeeds (removeSectionBreak paragraph) document fun _ after => after.Housed stray host := by
  refine Succeeds.of_done (a := ⟨⟩) (removeSectionBreak_eq_ok.mpr rfl) ?_
  split
  · exact housed.detach _
  · exact housed

/-- A paragraph can be split at any text in it. -/
theorem succeeds_splitParagraph {host paragraph run unit text : NodeId} (tiered : document.Tiered stray)
    (counts : ¬stray host) (isText : document.isText text = true)
    (sits : document.Sits host paragraph run unit text) :
    Succeeds (splitParagraph paragraph text true) document fun _ after => after.Housed stray host := by
  have wellFormed := tiered.toWellFormed
  have paragraph_lt := lt_size_of_parent sits.hostIs
  have paragraphCounts : ¬stray paragraph := tiered.not_stray counts (LiesIn.parent sits.hostIs)
  have textCounts : ¬stray text := tiered.not_stray paragraphCounts sits.paragraph_lies
  have unitHasText : document.HasText stray unit :=
    ⟨text, isText, textCounts, LiesIn.parent sits.unitIs⟩
  refine Succeeds.of_get ?_
  rw [if_neg (by simp [sits.paragraph?_eq wellFormed isText])]
  simp only [sits.textUnit_eq, Bool.not_true, if_true]
  rw [ancestors_of_parent wellFormed sits.runIs, ancestors_of_parent wellFormed sits.paragraphIs]
  have splitting : Succeeds (splitUpTo paragraph false unit
      (run :: paragraph :: document.ancestors paragraph)) document fun _ after =>
        after.Housed stray host := by
    have runCounts := tiered.not_stray paragraphCounts (LiesIn.parent sits.paragraphIs)
    refine (succeeds_splitParent tiered runCounts sits.runIs sits.paragraphIs unitHasText).bind ?_
    rintro right middle - ⟨middleTiered, hasText, kept, moved, halves⟩
    have runParent : middle.parent run = some paragraph := by
      rw [halves.parent_whole, sits.paragraphIs]
    have paragraphParent : middle.parent paragraph = some host := by
      rw [halves.parent_eq paragraph paragraph_lt, sits.hostIs]
      intro isMember
      have isChild : paragraph ∈ document.children run := by
        rw [halves.children_before]
        exact List.mem_append_right _ isMember
      exact not_liesIn_of_parent wellFormed sits.paragraphIs
        (LiesIn.parent ((wellFormed.mem_children_iff _ _).mp isChild))
    have runHasText : middle.HasText stray run := hasText.above (LiesIn.parent (halves.parent_kept (by simp)))
    rw [if_neg (fun same => ne_of_parent wellFormed sits.paragraphIs same)]
    refine (succeeds_splitParent middleTiered paragraphCounts runParent paragraphParent runHasText).bind ?_
    rintro tail after - ⟨afterTiered, hasText, kept, moved, halves'⟩
    rw [if_pos rfl]
    have hostParent : after.parent paragraph = some host := by
      rw [halves'.parent_whole, paragraphParent]
    refine Succeeds.of_pure ⟨afterTiered, counts, ?_, ?_⟩
    · have host_lt := parent_lt_size wellFormed sits.hostIs
      rw [halves'.tier_eq (parent_lt_size halves.wellFormed paragraphParent), halves.tier_eq host_lt]
      exact sits.isHost tiered isText textCounts
    · exact afterTiered.stands (hasText.above ((LiesIn.parent (halves'.parent_kept (by simp))).trans
        (LiesIn.parent hostParent)))
  refine splitting.bind fun tail split _ housed => ?_
  refine Succeeds.bind (P := fun _ after => after.Housed stray host)
    (Succeeds.of_done (a := ⟨⟩) rfl (housed.detach unit)) ?_
  intro _ detached _ housed
  refine (succeeds_removeSectionBreak housed paragraph).bind fun _ broken _ housed => ?_
  refine (succeeds_removeEmptyRuns housed paragraph).bind fun _ tidied _ housed => ?_
  refine (succeeds_removeEmptyRuns housed tail).bind fun _ final _ housed => ?_
  exact Succeeds.of_pure housed

end Edit

end WordTemplate
