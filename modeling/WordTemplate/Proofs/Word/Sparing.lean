import WordTemplate.Proofs.Document.Local
import WordTemplate.Proofs.Document.Sparing
import WordTemplate.Proofs.Word.Splitting
import WordTemplate.Word.Paragraph
import WordTemplate.Word.TextNode

/-!
# Splitting and joining spare sheltered nodes

What is split or joined around a text node of the zone is in the zone as well, since the elements that
are looked for around a text node do not stand above the core.
-/

namespace WordTemplate.Edit

open Document Outcome Shelter

variable {shelter : Shelter} {document : Document}
  {id child parent paragraph container first second textNode top : NodeId} {movesChild : Bool}

/-! ## Text nodes -/

theorem keeps_textAt (id : NodeId) :
    shelter.Keeps (textAt id) document fun _ after => after = document := by
  refine Keeps.of_get fun _ => ?_
  split
  · exact Keeps.of_pure rfl
  · exact Keeps.of_throw

/-- The new half of a text node is in the zone. -/
theorem keeps_splitText (inZone : shelter.zone id) (offset : Nat) :
    shelter.Keeps (splitText id offset) document fun tail after => shelter.Open after tail := by
  refine (keeps_textAt id).bind ?_
  rintro characters _ - rfl
  split
  · exact Keeps.of_throw
  · refine (keeps_setText inZone _).bind ?_
    intro _ shortened _ _
    refine (keeps_createText _).bind ?_
    intro tail extended _ tailOpen
    refine Keeps.of_get fun holds => ?_
    dsimp only
    split
    · next element isElement =>
        have elementInZone := (holds.open_of_textElement? inZone isElement).inZone
        refine (keeps_copyNode element).bind ?_
        intro tailElement copied toCopied elementOpen
        refine (keeps_appendChild elementOpen (toCopied.isOpen tailOpen)).bind ?_
        intro _ filled toFilled _
        refine (keeps_insertAfter (toFilled.isOpen elementOpen) elementInZone).bind ?_
        intro _ placed toPlaced _
        refine (keeps_keepSpace elementInZone).bind ?_
        intro _ spaced toSpaced _
        refine (keeps_keepSpace elementOpen.inZone).bind ?_
        intro _ after toAfter _
        have toEnd := toCopied.trans (toFilled.trans (toPlaced.trans (toSpaced.trans toAfter)))
        exact Keeps.of_pure (toEnd.isOpen tailOpen)
    · refine (keeps_insertAfter tailOpen inZone).bind ?_
      intro _ after toAfter _
      exact Keeps.of_pure (toAfter.isOpen tailOpen)

/-- Pruning stops below the core at the latest. -/
theorem keeps_pruneUpwards {candidates : List NodeId} (kept : NodeId)
    (inside : ∀ id ∈ candidates, shelter.zone id ∨ shelter.above id) :
    shelter.Keeps (pruneUpwards kept candidates) document fun _ _ => True := by
  induction candidates generalizing document with
  | nil => exact Keeps.of_pure trivial
  | cons candidate outer inductionHypothesis =>
      refine Keeps.of_get fun holds => ?_
      split
      · exact Keeps.of_pure trivial
      · next goesOn =>
          have inZone : shelter.zone candidate := by
            refine (inside candidate List.mem_cons_self).resolve_right fun isAbove => ?_
            simp [holds.not_isPrunable isAbove] at goesOn
          refine (keeps_detach inZone).bind ?_
          intro _ _ _ _
          exact inductionHypothesis fun id isMember => inside id (List.mem_cons_of_mem _ isMember)

theorem keeps_removeAbsorbed (kept : NodeId) (inZone : shelter.zone id) :
    shelter.Keeps (removeAbsorbed kept id) document fun _ _ => True := by
  refine Keeps.of_get fun holds => ?_
  refine (keeps_detach inZone).bind ?_
  intro _ _ _ _
  refine keeps_pruneUpwards kept fun candidate isMember => holds.zone_or_above ?_ inZone
  exact (mem_ancestors_iff holds.wellFormed).mp (Or.inr isMember)

/-! ## Properties -/

theorem keeps_ensureProperties (parentOpen : shelter.Open document parent) (name : String)
    (leading : List String) :
    shelter.Keeps (ensureProperties parent name leading) document fun properties after =>
      shelter.Open after properties := by
  refine Keeps.of_get fun holds => ?_
  split
  · next existing found => exact Keeps.of_pure (holds.open_of_childNamed? found parentOpen.inZone)
  · refine (keeps_createElement name).bind ?_
    intro properties created toCreated propertiesOpen
    refine (keeps_insertChild (toCreated.isOpen parentOpen) propertiesOpen _).bind ?_
    intro _ after toAfter _
    exact Keeps.of_pure (toAfter.isOpen propertiesOpen)

theorem keeps_setFlag (propertiesOpen : shelter.Open document parent) (flag : String) :
    shelter.Keeps (setFlag parent flag) document fun added after => shelter.Open after added := by
  refine Keeps.of_get fun holds => ?_
  split
  · next existing found =>
      exact Keeps.of_pure (holds.open_of_childNamed? found propertiesOpen.inZone)
  · refine (keeps_createElement flag).bind ?_
    intro added created toCreated addedOpen
    refine (keeps_appendChild (toCreated.isOpen propertiesOpen) addedOpen).bind ?_
    intro _ after toAfter _
    exact Keeps.of_pure (toAfter.isOpen addedOpen)

/-- Of the children of a node above the core the empty runs may go away, wherever they are. -/
theorem keeps_removeEmptyRuns (inside : shelter.zone container ∨ shelter.above container) :
    shelter.Keeps (removeEmptyRuns container) document fun _ _ => True := by
  refine Keeps.of_get fun holds => ?_
  refine Keeps.of_forM fun run isMember middle spares => ?_
  rcases List.mem_filter.mp isMember with ⟨isChild, isEmpty⟩
  have isParent := (holds.wellFormed.mem_children_iff _ _).mp isChild
  rw [isEmptyRun, Bool.and_eq_true] at isEmpty
  refine Keeps.of_modify (fun holds' => spares_detach holds' (fun isStem => ?_) ?_) trivial
  · rw [holds.notRun isStem] at isEmpty
    cases isEmpty.1
  · intro other isOther
    by_contra elsewhere
    rw [not_or] at elsewhere
    rw [← holds'.wellFormed.mem_children_iff, spares.children_eq elsewhere.1 elsewhere.2,
      holds.wellFormed.mem_children_iff, isParent, Option.some.injEq] at isOther
    subst isOther
    exact inside.elim elsewhere.1 elsewhere.2

theorem open_of_paragraphProperty? {name : String} (holds : shelter.Holds document)
    (inZone : shelter.zone paragraph) (found : document.paragraphProperty? paragraph name = some id) :
    shelter.Open document id := by
  rcases Option.bind_eq_some_iff.mp found with ⟨properties, areProperties, isProperty⟩
  exact holds.open_of_childNamed? isProperty (holds.open_of_childNamed? areProperties inZone).inZone

theorem keeps_removeSectionBreak (inZone : shelter.zone paragraph) :
    shelter.Keeps (removeSectionBreak paragraph) document fun _ _ => True := by
  refine Keeps.of_get fun holds => ?_
  split
  · next sectionBreak found =>
      exact keeps_detach (open_of_paragraphProperty? holds inZone found).inZone
  · exact Keeps.of_pure trivial

/-! ## Splitting paragraphs -/

theorem keeps_splitParent (inZone : ∀ parent, document.parent child = some parent →
      shelter.zone parent) :
    shelter.Keeps (splitParent child movesChild) document fun right after =>
      shelter.Open after right := by
  refine (keeps_parentOf child).bind ?_
  rintro parent _ - ⟨rfl, isParent⟩
  have parentInZone := inZone parent isParent
  refine (keeps_indexOf child).bind ?_
  rintro index _ - rfl
  dsimp only
  refine (keeps_copyNode parent).bind ?_
  intro right created _ rightOpen
  refine Keeps.of_get fun holds => ?_
  have siblingOpen : ∀ sibling ∈ created.children parent, shelter.Open created sibling :=
    fun sibling isChild => holds.open_of_mem_children isChild parentInZone
  refine (Keeps.of_forM fun sibling isSibling middle toMiddle => ?_).bind ?_
  · have isOpen := siblingOpen sibling (List.mem_of_mem_take (List.mem_of_mem_filter isSibling))
    refine (keeps_copySubtree (toMiddle.isOpen isOpen).inStore).bind ?_
    intro copy copied toCopied areOpen
    exact keeps_appendChild ((toMiddle.trans toCopied).isOpen rightOpen) areOpen.1
  · intro _ copied toCopied _
    refine (keeps_forM_appendChild (toCopied.isOpen rightOpen) fun sibling isSibling =>
      toCopied.isOpen (siblingOpen sibling (List.mem_of_mem_drop isSibling))).bind ?_
    intro _ moved toMoved _
    have toMoved := toCopied.trans toMoved
    refine (keeps_insertAfter (toMoved.isOpen rightOpen) parentInZone).bind ?_
    intro _ after toAfter _
    exact Keeps.of_pure ((toMoved.trans toAfter).isOpen rightOpen)

/-- Splitting ends at one of the given ancestors. -/
theorem mem_of_splitUpTo {ids : List NodeId} {right : NodeId} {after : Document}
    (done : splitUpTo top movesChild child ids document = .ok right after) : top ∈ ids := by
  induction ids generalizing document movesChild child with
  | nil => simp [splitUpTo] at done
  | cons parent outer inductionHypothesis =>
      rw [splitUpTo, bind_eq_ok] at done
      rcases done with ⟨half, middle, -, done⟩
      split at done
      · next isTop => exact isTop ▸ List.mem_cons_self
      · exact List.mem_cons_of_mem _ (inductionHypothesis done)

theorem keeps_splitUpTo {ids : List NodeId} (climbs : document.ClimbsFrom child ids)
    (inZone : shelter.zone child) (topInZone : shelter.zone top) :
    shelter.Keeps (splitUpTo top movesChild child ids) document fun right after =>
      shelter.Open after right := by
  induction ids generalizing document movesChild child with
  | nil => exact Keeps.of_throw
  | cons parent outer inductionHypothesis =>
      intro holds right after done
      have isMember := mem_of_splitUpTo done
      rcases climbs with ⟨isParent, climbs⟩
      have parentInZone : shelter.zone parent := by
        refine (holds.parent isParent inZone).resolve_right fun isAbove => ?_
        rcases List.mem_cons.mp isMember with rfl | isOuter
        · exact holds.outside (Or.inr isAbove) topInZone
        · -- What stands above a node above the core is not in the zone.
          have topAbove : ∀ id, document.LiesIn id parent → shelter.above id := by
            intro id inside
            induction inside with
            | refl => exact isAbove
            | tail _ isParent isAbove => exact holds.climb (Or.inr isAbove) isParent
          exact holds.outside (Or.inr (topAbove top (climbs.liesIn isOuter))) topInZone
      rw [splitUpTo, bind_eq_ok] at done
      rcases done with ⟨half, middle, splitDone, done⟩
      have onlyParent : ∀ other, document.parent child = some other → shelter.zone other := by
        intro other isOther
        rw [isParent, Option.some.injEq] at isOther
        exact isOther ▸ parentInZone
      rcases keeps_splitParent onlyParent holds half middle splitDone with ⟨spares, halfOpen⟩
      split at done
      · rw [pure_eq_ok] at done
        rcases done with ⟨rfl, rfl⟩
        exact ⟨spares, halfOpen⟩
      · rcases halves_of_splitParent holds.wellFormed document.closed_everywhere isParent trivial
          (fun _ _ => trivial) splitDone with ⟨lead, trail, around, halves, -⟩
        -- The nodes from the parent on upwards stay where they are.
        have parent_eq : ∀ id, document.LiesIn id parent → middle.parent id = document.parent id := by
          intro id inside
          refine halves.parent_eq id ?_ fun isMoved => ?_
          · exact lt_size_of_liesIn holds.wellFormed inside (parent_lt_size holds.wellFormed isParent)
          · have isChild : id ∈ document.children parent := by
              rw [halves.children_before]
              exact List.mem_append_right _ isMoved
            exact not_liesIn_of_parent holds.wellFormed
              ((holds.wellFormed.mem_children_iff _ _).mp isChild) inside
        have climbs' : middle.ClimbsFrom parent outer := by
          refine climbs.of_parent_eq fun other isMember => parent_eq other ?_
          rcases isMember with rfl | isMember
          · exact LiesIn.refl
          · exact climbs.liesIn isMember
        rcases inductionHypothesis climbs' parentInZone spares.holds right after done with
          ⟨sparesOuter, rightOpen⟩
        exact ⟨spares.trans sparesOuter, rightOpen⟩

theorem keeps_splitParagraph (textOpen : shelter.Open document textNode) (removesText : Bool) :
    shelter.Keeps (splitParagraph paragraph textNode removesText) document fun tail after =>
      shelter.Open after tail := by
  refine Keeps.of_get fun holds => ?_
  dsimp only
  split
  · exact Keeps.of_throw
  · next isParagraph =>
      have paragraphInZone := (holds.open_of_ancestorNamed? textOpen.inZone
        (not_not.mp isParagraph) (by simp [Word.Name.enclosing])).inZone
      have cutInZone := (holds.open_textUnit textOpen).inZone
      refine (keeps_splitUpTo (climbsFrom_ancestors holds.wellFormed _) cutInZone
        paragraphInZone).bind ?_
      intro tail divided _ tailOpen
      have tidied : ∀ {start : Document}, shelter.Open start tail →
          shelter.Keeps (do
            removeSectionBreak paragraph
            removeEmptyRuns paragraph
            removeEmptyRuns tail
            return tail) start fun tail after => shelter.Open after tail := by
        intro start tailOpen
        refine (keeps_removeSectionBreak paragraphInZone).bind ?_
        intro _ unbroken toUnbroken _
        refine (keeps_removeEmptyRuns (Or.inl paragraphInZone)).bind ?_
        intro _ headTidied toHead _
        refine (keeps_removeEmptyRuns (Or.inl tailOpen.inZone)).bind ?_
        intro _ after toAfter _
        exact Keeps.of_pure ((toUnbroken.trans (toHead.trans toAfter)).isOpen tailOpen)
      split
      · refine (keeps_detach cutInZone).bind ?_
        intro _ bare toBare _
        exact tidied (toBare.isOpen tailOpen)
      · exact tidied tailOpen

/-! ## Joining paragraphs -/

theorem keeps_placedBreak {properties sectionBreak : NodeId}
    (propertiesOpen : shelter.Open document properties)
    (breakOpen : shelter.Open document sectionBreak) :
    shelter.Keeps (do
      match (← get).childNamed? properties Word.Name.paragraphPropertiesChange with
      | some change => insertBefore sectionBreak change
      | none => appendChild properties sectionBreak) document fun _ _ => True := by
  refine Keeps.of_get fun holds => ?_
  split
  · next change found =>
      exact keeps_insertBefore breakOpen
        (holds.open_of_childNamed? found propertiesOpen.inZone).inZone
  · exact keeps_appendChild propertiesOpen breakOpen

theorem keeps_adoptSectionBreak {sectionBreak : NodeId}
    (paragraphOpen : shelter.Open document paragraph)
    (breakOpen : shelter.Open document sectionBreak) :
    shelter.Keeps (adoptSectionBreak paragraph sectionBreak) document fun _ _ => True := by
  refine (keeps_ensureProperties paragraphOpen _ _).bind ?_
  intro properties ensured toEnsured propertiesOpen
  have breakOpen := toEnsured.isOpen breakOpen
  refine Keeps.of_get fun holds => ?_
  dsimp only
  split
  · next previous found =>
      refine (keeps_detach (holds.open_of_childNamed? found propertiesOpen.inZone).inZone).bind ?_
      intro _ bare toBare _
      exact keeps_placedBreak (toBare.isOpen propertiesOpen) (toBare.isOpen breakOpen)
  · exact keeps_placedBreak propertiesOpen breakOpen

theorem keeps_joinParagraphs (firstOpen : shelter.Open document first)
    (secondOpen : shelter.Open document second) :
    shelter.Keeps (joinParagraphs first second) document fun _ _ => True := by
  unfold joinParagraphs
  split
  · exact Keeps.of_pure trivial
  · refine Keeps.of_get fun holds => ?_
    dsimp only
    refine (keeps_forM_appendChild firstOpen fun child isChild =>
      holds.open_of_mem_children (List.mem_of_mem_filter isChild) secondOpen.inZone).bind ?_
    intro _ moved toMoved _
    refine Keeps.of_get fun holds' => ?_
    split
    · next sectionBreak found =>
        exact keeps_adoptSectionBreak (toMoved.isOpen firstOpen)
          (open_of_paragraphProperty? holds' secondOpen.inZone found)
    · exact Keeps.of_pure trivial

end WordTemplate.Edit
