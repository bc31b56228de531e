import WordTemplate.Proofs.Container.Merging
import WordTemplate.Proofs.Total.Properties

/-!
# Putting copies back succeeds

Blocks can be placed between the children of a host, and two paragraphs can be joined unless the
second one lies around the first one. The host stays a host.
-/

namespace WordTemplate

open Document Outcome

namespace Document

variable {document before after : Document} {zone touched : NodeId → Prop} {rights : Rights}
  {host node parent id : NodeId} {stray : NodeId → Prop}

theorem Housed.congr (housed : before.Housed stray host) (tiered : after.Tiered stray)
    (parent_eq : ∀ above, before.LiesIn above host → after.parent above = before.parent above)
    (tier_eq : ∀ above, before.LiesIn above host → after.tier? above = before.tier? above) :
    after.Housed stray host :=
  ⟨tiered, housed.counts, (tier_eq host LiesIn.refl).trans housed.isHost,
    housed.stands.congr parent_eq tier_eq⟩

theorem Housed.isNamed_eq_false (housed : document.Housed stray host) {name : String}
    (other : Word.tier? name ≠ some 4) : document.isNamed host name = false := by
  by_contra named
  rw [Bool.not_eq_false] at named
  exact other ((tier?_of_isNamed named).symm.trans housed.isHost)

/-- Blocks fit below a host. -/
theorem Housed.fits (housed : document.Housed stray host) (isBlock : document.IsBlock stray node) :
    document.Fits stray node host where
  counts := isBlock.1
  stands hasText := ⟨housed.stands, 3, isBlock.2 hasText, housed.isHost⟩
  numbers named := by
    rw [housed.isNamed_eq_false (by decide)] at named
    cases named
  number named := by
    rw [housed.isNamed_eq_false (by decide)] at named
    cases named

/-- Blocks stay blocks as long as their running text stays. -/
theorem IsBlock.rearranges (isBlock : before.IsBlock stray id)
    (rearranges : Rearranges zone rights touched before after) (tiered : before.Tiered stray)
    (tiered' : after.Tiered stray) (inStore : id.index < before.size) (untouched : ¬touched id) :
    after.IsBlock stray id := by
  refine ⟨isBlock.1, fun hasText => ?_⟩
  rw [tiered'.hasText_iff isBlock.1, rearranges.runningTexts_eq inStore untouched,
    ← tiered.hasText_iff isBlock.1] at hasText
  rw [← isBlock.2 hasText]
  exact tier?_congr (rearranges.name_eq inStore) (rearranges.isText_eq inStore)

end Document

namespace Edit

variable {document : Document} {host first second sectionBreak : NodeId} {stray : NodeId → Prop}

/-- A section break fits below the properties of a paragraph. -/
theorem fits_sectionBreak {properties : NodeId} (tiered : document.Tiered stray)
    (counts : ¬stray sectionBreak)
    (named : document.isNamed sectionBreak Word.Name.sectionProperties = true)
    (propertiesNamed : document.isNamed properties Word.Name.paragraphProperties = true) :
    document.Fits stray sectionBreak properties where
  counts := counts
  stands hasText := by
    have isProperties := isProperties_of_isNamed named
    rw [tiered.isProperties_eq_false hasText] at isProperties
    exact absurd isProperties (by decide)
  numbers named' := by
    rw [isNamed_eq_false propertiesNamed (by decide)] at named'
    cases named'
  number _ := isNamed_eq_false named (by decide)

/-- A section break that is not above a paragraph can be placed in its properties. -/
theorem succeeds_placedBreak {properties : NodeId} (housed : document.Housed stray host)
    (counts : ¬stray sectionBreak)
    (isParent : document.parent first = some host)
    (propertiesParent : document.parent properties = some first)
    (propertiesNamed : document.isNamed properties Word.Name.paragraphProperties = true)
    (named : document.isNamed sectionBreak Word.Name.sectionProperties = true)
    (outside : ¬document.LiesIn sectionBreak first) :
    Succeeds (match document.childNamed? properties Word.Name.paragraphPropertiesChange with
      | some change => insertBefore sectionBreak change
      | none => appendChild properties sectionBreak) document fun _ after => after.Housed stray host := by
  have fits := fits_sectionBreak housed.toTiered counts named propertiesNamed
  have break_lt := lt_size_of_isNamed named
  have notHost : ¬document.LiesIn sectionBreak host := fun inside =>
    outside ((LiesIn.parent isParent).trans inside)
  have notProperties : ¬document.LiesIn sectionBreak properties := fun inside => by
    rcases inside.cases_above propertiesParent with rfl | above
    · rw [isNamed_eq_false named (by decide)] at propertiesNamed
      cases propertiesNamed
    · exact outside above
  rcases found : document.childNamed? properties Word.Name.paragraphPropertiesChange with _ | change
  · refine (succeeds_appendChild housed.toTiered (lt_size_of_parent propertiesParent) break_lt
      notProperties fits).imp ?_
    rintro - after - ⟨moves, tiered⟩
    exact housed.of_moves moves tiered notHost
  · rcases parent_of_childNamed? housed.toWellFormed found with ⟨changeParent, changeNamed⟩
    have differ : sectionBreak ≠ change := by
      rintro rfl
      rw [isNamed_eq_false named (by decide)] at changeNamed
      cases changeNamed
    refine (succeeds_insertBeside housed.toTiered break_lt changeParent differ notProperties fits
      0).imp ?_
    rintro - after - ⟨tiered, left, right, moves⟩
    exact housed.of_moves moves tiered notHost

/-- A section break that is not above a paragraph can be moved into its properties. -/
theorem succeeds_adoptSectionBreak (housed : document.Housed stray host)
    (counts : ¬stray sectionBreak) (isParent : document.parent first = some host)
    (named : document.isNamed sectionBreak Word.Name.sectionProperties = true)
    (outside : ¬document.LiesIn sectionBreak first) :
    Succeeds (adoptSectionBreak first sectionBreak) document fun _ after => after.Housed stray host := by
  have wellFormed := housed.toWellFormed
  have first_lt := lt_size_of_parent isParent
  refine (succeeds_ensureProperties housed first_lt (by decide) []).bind ?_
  rintro properties ensured done ⟨housed', propertiesParent, propertiesNamed, size_le, parent_eq⟩
  have neutral := (neutral_of_ensureProperties wellFormed document.closed_everywhere trivial first_lt
    done).1
  have above_lt : ∀ above, document.LiesIn above first → above.index < document.size :=
    fun above inside => lt_size_of_liesIn wellFormed inside first_lt
  have named' : ensured.isNamed sectionBreak Word.Name.sectionProperties = true := by
    rw [neutral.isNamed_eq (lt_size_of_isNamed named), named]
  have isParent' : ensured.parent first = some host := by rw [parent_eq first first_lt, isParent]
  have outside' : ¬ensured.LiesIn sectionBreak first := by
    rwa [liesIn_iff_of_parent_eq fun above inside => parent_eq above (above_lt above inside)]
  refine Succeeds.of_get ?_
  rcases found : ensured.childNamed? properties Word.Name.sectionProperties with _ | previous
  · exact Succeeds.of_get (succeeds_placedBreak housed' counts isParent' propertiesParent propertiesNamed
      named' outside')
  · rcases parent_of_childNamed? housed'.toWellFormed found with ⟨previousParent, previousNamed⟩
    have formed := housed'.toWellFormed
    have firstKept : (ensured.detach previous).parent first = some host := by
      rw [parent_detach formed, if_neg, isParent']
      rintro rfl
      exact not_liesIn_of_parent formed propertiesParent (LiesIn.parent previousParent)
    have propertiesKept : (ensured.detach previous).parent properties = some first := by
      rw [parent_detach formed, if_neg (ne_of_parent formed previousParent).symm, propertiesParent]
    refine Succeeds.bind (P := fun _ s => ensured.detach previous = s)
      (Succeeds.of_done (a := ⟨⟩) rfl rfl) ?_
    rintro ⟨⟩ _ - rfl
    exact Succeeds.of_get (succeeds_placedBreak (housed'.detach previous) counts firstKept propertiesKept
      (by rw [isNamed_detach formed, propertiesNamed]) (by rw [isNamed_detach formed, named'])
      fun inside => outside' (liesIn_of_liesIn_detach formed inside))

/-- Paragraphs can be joined if the second one is not above the first one. -/
theorem succeeds_joinParagraphs (housed : document.Housed stray host) (counts : ¬stray second)
    (isParent : document.parent first = some host)
    (firstNamed : document.isNamed first Word.Name.paragraph = true)
    (secondNamed : document.isNamed second Word.Name.paragraph = true)
    (outside : ¬document.LiesIn second first) :
    Succeeds (joinParagraphs first second) document fun _ after => after.Housed stray host := by
  have wellFormed := housed.toWellFormed
  have first_lt := lt_size_of_parent isParent
  have differ : first ≠ second := by
    rintro rfl
    exact outside LiesIn.refl
  rw [joinParagraphs, if_neg differ]
  refine Succeeds.of_get ?_
  have tier_eq : document.tier? first = document.tier? second := by
    rw [tier?_of_isNamed firstNamed, tier?_of_isNamed secondNamed]
  have stands : document.Stands first := housed.stands.of_parent isParent
    ⟨3, tier?_of_isNamed firstNamed, housed.isHost⟩
  have moving : ∀ child ∈ (document.children second).filter fun child =>
      !document.isNamed child Word.Name.paragraphProperties,
      document.parent child = some second ∧ ¬document.LiesIn child first := by
    intro child isMember
    have isChild := (wellFormed.mem_children_iff _ _).mp (List.mem_of_mem_filter isMember)
    exact ⟨isChild, fun inside => outside (inside.trans (LiesIn.parent isChild))⟩
  refine (succeeds_forM_appendChild housed.toTiered first_lt fun child isMember => ?_).bind ?_
  · rcases moving child isMember with ⟨isChild, notAbove⟩
    refine ⟨lt_size_of_parent isChild, notAbove, housed.not_stray counts (LiesIn.parent isChild),
      fun hasText => ⟨stands, (housed.supports isChild hasText).congr rfl tier_eq⟩,
      fun _ numbers => ?_, fun named => ?_⟩
    · rw [housed.unnumbered isChild counts numbers] at secondNamed
      cases secondNamed
    · rw [isNamed_eq_false firstNamed (by decide)] at named
      cases named
  rintro ⟨⟩ gathered gatherDone tiered
  have gathers := gathers_of_forM_appendChild wellFormed first_lt
    (fun child isMember => lt_size_of_parent (moving child isMember).1)
    ((wellFormed.nodup_children second).filter _) gatherDone
  have parent_eq : ∀ above, document.LiesIn above first →
      gathered.parent above = document.parent above := fun above inside => by
    rw [gathers.parent_eq, if_neg fun isMember => (moving above isMember).2 inside]
  have housed' : gathered.Housed stray host := housed.congr tiered
    (fun above inside => parent_eq above ((LiesIn.parent isParent).trans inside)) fun above _ =>
      tier?_congr (by rw [name?, element?, gathers.content_eq, ← element?, ← name?])
        (by rw [Document.isText, text?, gathers.content_eq, ← text?, ← Document.isText])
  refine Succeeds.of_get ?_
  rcases found : gathered.paragraphProperty? second Word.Name.sectionProperties with _ | sectionBreak
  · exact Succeeds.of_pure housed'
  · rcases parent_of_paragraphProperty? tiered.toWellFormed found with
      ⟨properties, propertiesParent, -, breakParent, breakNamed⟩
    have breakCounts := tiered.not_stray counts
      ((LiesIn.parent breakParent).trans (LiesIn.parent propertiesParent))
    refine succeeds_adoptSectionBreak housed' breakCounts
      ((parent_eq first LiesIn.refl).trans isParent) breakNamed
      fun inside => outside ?_
    rw [← liesIn_iff_of_parent_eq parent_eq]
    exact inside.trans ((LiesIn.parent breakParent).trans (LiesIn.parent propertiesParent))

/-- A fragment can be joined to a child of the host unless it lies around it. -/
theorem succeeds_joinFragment (housed : document.Housed stray host) (counts : ¬stray second)
    (isParent : document.parent first = some host) (outside : ¬document.LiesIn second first) :
    Succeeds (joinFragment first second) document fun _ after => after.Housed stray host := by
  refine Succeeds.of_get ?_
  split
  · next named =>
      rw [Bool.and_eq_true] at named
      refine (succeeds_joinParagraphs housed counts isParent named.1 named.2 outside).bind ?_
      rintro ⟨⟩ joined - housed'
      refine Succeeds.bind (P := fun _ s => s.Housed stray host)
        (Succeeds.of_done (a := ⟨⟩) rfl (housed'.detach second)) fun _ _ _ housed'' =>
          Succeeds.of_pure housed''
  · exact Succeeds.of_pure housed

section Merging

variable {zone : NodeId → Prop} {rights : Rights} {tail target reached : NodeId}
  {placed rest nodes waiting : List NodeId} {groups : List (List NodeId)} {stray : NodeId → Prop}

/-- Blocks that wait to be placed can be placed before the tail. -/
theorem succeeds_placeFragments (housed : document.Housed stray host)
    (seam : Seam zone rights document host tail (placed ++ [target]) rest (nodes ++ waiting))
    (blocks : ∀ node ∈ nodes ++ waiting, document.IsBlock stray node) :
    Succeeds (placeFragments tail target nodes) document fun _ after => after.Housed stray host := by
  induction nodes generalizing document placed target with
  | nil => exact Succeeds.of_pure housed
  | cons node nodes inductionHypothesis =>
      have isWaiting : node ∈ node :: nodes ++ waiting := by simp
      have notAbove := seam.not_above isWaiting
      have differ : node ≠ tail := by
        rintro rfl
        have detached := seam.detached node isWaiting
        rw [seam.tailParent] at detached
        cases detached
      have placing : Succeeds (insertBefore node tail) document fun _ after => after.Housed stray host := by
        refine (succeeds_insertBeside housed.toTiered (seam.inStore node isWaiting) seam.tailParent
          differ notAbove (housed.fits (blocks node isWaiting)) 0).imp ?_
        rintro - after - ⟨tiered, left, right, moves⟩
        exact housed.of_moves moves tiered notAbove
      refine placing.bind ?_
      rintro ⟨⟩ after done housed'
      rcases seam_of_insertBefore seam done with ⟨seam', -, rearranges⟩
      refine inductionHypothesis housed' seam' fun other isOther => ?_
      have isWaiting' : other ∈ node :: nodes ++ waiting := List.mem_cons_of_mem _ isOther
      refine (blocks other isWaiting').rearranges rearranges housed.toTiered housed'.toTiered
        (seam.inStore other isWaiting') ?_
      rintro (above | rfl)
      · exact seam.not_above isWaiting' above
      · exact (List.nodup_cons.mp seam.nodup).1 isOther

/-- A group of blocks that wait to be placed can be merged before the tail. -/
theorem succeeds_mergeGroup (housed : document.Housed stray host)
    (seam : Seam zone rights document host tail (placed ++ [target]) rest (nodes ++ waiting))
    (blocks : ∀ node ∈ nodes ++ waiting, document.IsBlock stray node) :
    Succeeds (mergeGroup tail target nodes) document fun _ after => after.Housed stray host := by
  rcases nodes with _ | ⟨first, nodes⟩
  · exact Succeeds.of_pure housed
  have isWaiting : first ∈ first :: nodes ++ waiting := by simp
  have targetParent : document.parent target = some host := seam.parent_of_mem (by simp)
  have apart := seam.apart isWaiting targetParent
  refine (succeeds_joinFragment housed (blocks first isWaiting).1 targetParent apart.1).bind ?_
  intro joins middle done housed'
  rcases seam_of_joinFragment seam done with ⟨rfl, rfl⟩ | ⟨rfl, seam', -, rearranges⟩
  · rw [if_neg (by simp)]
    exact succeeds_placeFragments housed' seam blocks
  · rw [if_pos rfl]
    refine succeeds_placeFragments housed' seam' fun other isOther => ?_
    have isWaiting' : other ∈ first :: nodes ++ waiting := List.mem_cons_of_mem _ isOther
    refine (blocks other isWaiting').rearranges rearranges housed.toTiered housed'.toTiered
      (seam.inStore other isWaiting') ?_
    rintro (above | above)
    · exact (seam.apart isWaiting' targetParent).1 above
    · refine seam.apart_waiting isWaiting ?_ above
      rintro rfl
      exact (List.nodup_cons.mp seam.nodup).1 isOther

/-- Groups of blocks and the tail can be merged one after the other. -/
theorem succeeds_mergeGroups (housed : document.Housed stray host)
    (seam : Seam zone rights document host tail (placed ++ [target]) rest groups.flatten)
    (blocks : ∀ node ∈ groups.flatten, document.IsBlock stray node) :
    Succeeds (mergeGroups tail target groups) document fun _ after => after.Housed stray host := by
  induction groups generalizing document placed target with
  | nil =>
      have nodup := seam.nodup_children
      have differ : tail ≠ target := by
        rintro rfl
        exact (List.nodup_append.mp nodup).2.2 tail (by simp) tail (by simp) rfl
      have counts := housed.not_stray housed.counts (LiesIn.parent seam.tailParent)
      refine (succeeds_joinFragment housed counts (seam.parent_of_mem (by simp))
        (seam.apart_children (by simp) (by simp) differ)).bind ?_
      intro joins after _ housed'
      split
      · exact Succeeds.of_pure housed'
      · exact Succeeds.of_pure housed'
  | cons group groups inductionHypothesis =>
      have seam₀ : Seam zone rights document host tail (placed ++ [target]) rest
          (group ++ groups.flatten) := seam
      refine (succeeds_mergeGroup housed seam₀ blocks).bind ?_
      intro reached middle done housed'
      rcases seam_of_mergeGroup seam₀ done with ⟨placed', seam', -, -, rearranges⟩
      have blocks' : ∀ node ∈ groups.flatten, middle.IsBlock stray node := by
        intro node isNode
        have isWaiting : node ∈ group ++ groups.flatten := List.mem_append_right _ isNode
        refine (blocks node isWaiting).rearranges rearranges housed.toTiered housed'.toTiered
          (seam₀.inStore node isWaiting) ?_
        rintro (above | isDone)
        · exact seam₀.not_above isWaiting above
        · rcases List.mem_cons.mp isDone with rfl | isGroup
          · have detached := seam₀.detached node isWaiting
            rw [seam₀.parent_of_mem (by simp)] at detached
            cases detached
          · exact (List.nodup_append.mp seam₀.nodup).2.2 node isGroup node isNode rfl
      refine (inductionHypothesis housed' seam' blocks').bind fun junctions after _ housed'' => ?_
      exact Succeeds.of_pure housed''

theorem succeeds_tidyJunction (housed : document.Housed stray host) (paragraph : NodeId) :
    Succeeds (tidyJunction paragraph) document fun _ after => after.Housed stray host := by
  refine (succeeds_removeEmptyRuns housed paragraph).bind fun _ tidied _ housed' => ?_
  refine Succeeds.of_get ?_
  split
  · exact Succeeds.of_done (a := ⟨⟩) rfl (housed'.detach paragraph)
  · exact Succeeds.of_pure housed'

/-- Groups of blocks can be put back between a child of the host and the tail. -/
theorem succeeds_mergeFragments (housed : document.Housed stray host)
    (seam : Seam zone rights document host tail (placed ++ [target]) rest groups.flatten)
    (blocks : ∀ node ∈ groups.flatten, document.IsBlock stray node) :
    Succeeds (mergeFragments groups target tail) document fun _ after => after.Housed stray host := by
  refine (succeeds_mergeGroups housed seam blocks).bind fun junctions merged _ housed' => ?_
  exact Succeeds.of_forM (fun _ (s : Document) => s.Housed stray host)
    (fun junction _ _ housed => succeeds_tidyJunction housed junction) housed'

end Merging

end Edit

end WordTemplate
