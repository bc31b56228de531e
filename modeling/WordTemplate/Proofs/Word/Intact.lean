import WordTemplate.Proofs.Document.Intact
import WordTemplate.Proofs.Word.Properties
import WordTemplate.Word.Paragraph
import WordTemplate.Word.TextNode

/-!
# Splitting and joining keep documents intact

Splitting and joining take several steps each and may fail after any of them. All they put below
another node is new or had a parent before, so a root without a parent is never moved.
-/

namespace WordTemplate.Edit

open Document

variable {spared : Prop} {document before : Document} {id child parent paragraph : NodeId}

/-! ## Text nodes -/

theorem keepsIntact_textAt (wellFormed : document.WellFormed) (id : NodeId) :
    KeepsIntact spared (textAt id) document fun _ after => after = document := by
  refine KeepsIntact.of_get ?_
  split
  · exact KeepsIntact.of_pure wellFormed rfl
  · exact KeepsIntact.of_throw wellFormed

theorem keepsIntact_keepSpace (wellFormed : document.WellFormed) (id : NodeId) :
    KeepsIntact spared (keepSpace id) document fun _ _ => True :=
  keepsIntact_setAttribute wellFormed id _ _

theorem keepsIntact_splitText (wellFormed : document.WellFormed) (id : NodeId) (offset : Nat) :
    KeepsIntact spared (splitText id offset) document fun _ _ => True := by
  refine (keepsIntact_textAt wellFormed id).bind ?_
  rintro characters _ - rfl
  split
  · exact KeepsIntact.of_throw wellFormed
  · refine (keepsIntact_setText wellFormed id _).bind ?_
    intro _ shortened toShortened _
    refine (keepsIntact_create toShortened.wellFormed _).bind ?_
    intro tail withTail toTail isTail
    refine KeepsIntact.of_get ?_
    dsimp only
    split
    · next element _ =>
        refine (keepsIntact_copyNode toTail.wellFormed element).bind ?_
        intro tailElement withElement toElement isCopy
        have tailNew := fun (_ : spared) =>
          (isTail.later toElement).ne_root toShortened.wellFormed (toTail.trans toElement)
        refine (keepsIntact_appendChild toElement.wellFormed isCopy.inStore
          (toElement.inStore isTail.inStore) tailNew).bind ?_
        intro _ filled toFilled _
        refine (keepsIntact_insertBeside toFilled.wellFormed (toFilled.inStore isCopy.inStore)
          (fun _ => (isCopy.later toFilled).ne_root toTail.wellFormed (toElement.trans toFilled)) 1
          element).bind ?_
        intro _ placed toPlaced _
        refine (keepsIntact_keepSpace toPlaced.wellFormed element).bind ?_
        intro _ spaced toSpaced _
        refine (keepsIntact_keepSpace toSpaced.wellFormed tailElement).bind ?_
        intro _ after toAfter _
        exact KeepsIntact.of_pure toAfter.wellFormed trivial
    · refine (keepsIntact_insertBeside toTail.wellFormed isTail.inStore
        (fun _ => isTail.ne_root toShortened.wellFormed toTail) 1 id).bind ?_
      intro _ after intact _
      exact KeepsIntact.of_pure intact.wellFormed trivial

theorem keepsIntact_pruneUpwards (wellFormed : document.WellFormed) (kept : NodeId)
    (candidates : List NodeId) :
    KeepsIntact spared (pruneUpwards kept candidates) document fun _ _ => True := by
  induction candidates generalizing document with
  | nil => exact KeepsIntact.of_pure wellFormed trivial
  | cons candidate outer inductionHypothesis =>
      refine KeepsIntact.of_get ?_
      split
      · exact KeepsIntact.of_pure wellFormed trivial
      · refine (keepsIntact_detach wellFormed candidate).bind ?_
        intro _ after intact _
        exact inductionHypothesis intact.wellFormed

theorem keepsIntact_removeAbsorbed (wellFormed : document.WellFormed) (kept id : NodeId) :
    KeepsIntact spared (removeAbsorbed kept id) document fun _ _ => True := by
  refine KeepsIntact.of_get ?_
  refine (keepsIntact_detach wellFormed id).bind ?_
  intro _ after intact _
  exact keepsIntact_pruneUpwards intact.wellFormed kept _

theorem keepsIntact_joinText (wellFormed : document.WellFormed) (start stop : NodeId) :
    KeepsIntact spared (joinText start stop) document fun _ _ => True := by
  unfold joinText
  split
  · exact KeepsIntact.of_pure wellFormed trivial
  · refine (keepsIntact_textAt wellFormed start).bind ?_
    rintro first _ - rfl
    refine KeepsIntact.of_get ?_
    split
    · exact KeepsIntact.of_throw wellFormed
    · refine (keepsIntact_setText wellFormed start _).bind ?_
      intro _ extended toExtended _
      refine (KeepsIntact.of_forM toExtended.wellFormed fun id _ middle intact =>
        keepsIntact_removeAbsorbed intact.wellFormed start id).bind ?_
      intro _ after intact _
      refine KeepsIntact.of_get ?_
      split
      · exact keepsIntact_keepSpace intact.wellFormed _
      · exact KeepsIntact.of_pure intact.wellFormed trivial

/-! ## Paragraphs -/

theorem keepsIntact_removeEmptyRuns (wellFormed : document.WellFormed) (container : NodeId) :
    KeepsIntact spared (removeEmptyRuns container) document fun _ _ => True :=
  KeepsIntact.of_get (KeepsIntact.of_forM wellFormed fun id _ _ intact =>
    keepsIntact_detach intact.wellFormed id)

theorem keepsIntact_removeSectionBreak (wellFormed : document.WellFormed) (paragraph : NodeId) :
    KeepsIntact spared (removeSectionBreak paragraph) document fun _ _ => True := by
  refine KeepsIntact.of_get ?_
  split
  · exact keepsIntact_detach wellFormed _
  · exact KeepsIntact.of_pure wellFormed trivial

/-- Splitting a parent moves only its children, and new nodes. -/
theorem keepsIntact_splitParent (wellFormed : document.WellFormed)
    (detached : spared → document.parent document.root = none) (child : NodeId)
    (movesChild : Bool) :
    KeepsIntact spared (splitParent child movesChild) document fun right after =>
      right.index < after.size := by
  refine (keepsIntact_parentOf wellFormed child).bind ?_
  rintro parent _ - ⟨rfl, isParent⟩
  refine (keepsIntact_indexOf wellFormed child).bind ?_
  rintro index _ - rfl
  dsimp only
  refine (keepsIntact_copyNode wellFormed parent).bind ?_
  intro right withRight toRight isRight
  refine KeepsIntact.of_get ?_
  have siblings : ∀ sibling ∈ withRight.children parent,
      withRight.parent sibling = some parent := fun sibling =>
    (toRight.wellFormed.mem_children_iff _ _).mp
  have detached' := toRight.still_detached detached
  refine (KeepsIntact.of_forM toRight.wellFormed ?_).bind ?_
  · intro sibling isSibling middle toMiddle
    have inStore := lt_size_of_parent (siblings sibling
      (List.mem_of_mem_take (List.mem_of_mem_filter isSibling)))
    refine (keepsIntact_copySubtree toMiddle.wellFormed (toMiddle.inStore inStore)).bind ?_
    intro copy withCopy toCopy isCopy
    exact keepsIntact_appendChild toCopy.wellFormed
      (toCopy.inStore (toMiddle.inStore isRight.inStore)) isCopy.inStore
      fun _ => isCopy.ne_root toMiddle.wellFormed toCopy
  · intro _ copied toCopied _
    refine (KeepsIntact.of_forM toCopied.wellFormed ?_).bind ?_
    · intro sibling isSibling middle toMiddle
      have isParent' := siblings sibling (List.mem_of_mem_drop isSibling)
      have toMiddle' := toCopied.trans toMiddle
      exact keepsIntact_appendChild toMiddle.wellFormed (toMiddle'.inStore isRight.inStore)
        (toMiddle'.inStore (lt_size_of_parent isParent')) (toMiddle'.ne_root detached' isParent')
    · intro _ moved toMoved _
      have toMoved' := toCopied.trans toMoved
      refine (keepsIntact_insertBeside toMoved.wellFormed (toMoved'.inStore isRight.inStore)
        (fun _ => (isRight.later toMoved').ne_root wellFormed (toRight.trans toMoved')) 1
        parent).bind ?_
      intro _ after intact _
      exact KeepsIntact.of_pure intact.wellFormed (intact.inStore (toMoved'.inStore isRight.inStore))

theorem keepsIntact_splitUpTo (wellFormed : document.WellFormed)
    (detached : spared → document.parent document.root = none) (top : NodeId) (movesChild : Bool)
    (child : NodeId) (ancestors : List NodeId) :
    KeepsIntact spared (splitUpTo top movesChild child ancestors) document fun right after =>
      right.index < after.size := by
  induction ancestors generalizing document movesChild child with
  | nil => exact KeepsIntact.of_throw wellFormed
  | cons parent outer inductionHypothesis =>
      refine (keepsIntact_splitParent wellFormed detached child movesChild).bind ?_
      intro right after intact inStore
      split
      · exact KeepsIntact.of_pure intact.wellFormed inStore
      · exact inductionHypothesis intact.wellFormed (intact.still_detached detached) false parent

theorem keepsIntact_splitParagraph (wellFormed : document.WellFormed)
    (detached : spared → document.parent document.root = none) (paragraph textNode : NodeId)
    (removesText : Bool) :
    KeepsIntact spared (splitParagraph paragraph textNode removesText) document fun tail after =>
      tail.index < after.size := by
  refine KeepsIntact.of_get ?_
  dsimp only
  split
  · exact KeepsIntact.of_throw wellFormed
  · refine (keepsIntact_splitUpTo wellFormed detached _ _ _ _).bind ?_
    intro tail split toSplit inStore
    have tidied : ∀ {document : Document}, document.WellFormed → tail.index < document.size →
        KeepsIntact spared (do
          removeSectionBreak paragraph
          removeEmptyRuns paragraph
          removeEmptyRuns tail
          return tail) document fun tail after => tail.index < after.size := by
      intro document wellFormed inStore
      refine (keepsIntact_removeSectionBreak wellFormed paragraph).bind ?_
      intro _ unbroken toUnbroken _
      refine (keepsIntact_removeEmptyRuns toUnbroken.wellFormed paragraph).bind ?_
      intro _ headTidied toHead _
      refine (keepsIntact_removeEmptyRuns toHead.wellFormed tail).bind ?_
      intro _ after toAfter _
      exact KeepsIntact.of_pure toAfter.wellFormed
        (((toUnbroken.trans toHead).trans toAfter).inStore inStore)
    split
    · refine (keepsIntact_detach toSplit.wellFormed _).bind ?_
      intro _ bare toBare _
      exact tidied toBare.wellFormed (toBare.inStore inStore)
    · exact tidied toSplit.wellFormed inStore

theorem keepsIntact_ensureProperties (wellFormed : document.WellFormed)
    (inStore : parent.index < document.size) (name : String) (leading : List String) :
    KeepsIntact spared (ensureProperties parent name leading) document fun properties after =>
      properties.index < after.size := by
  refine KeepsIntact.of_get ?_
  split
  · next existing found =>
      have isParent := (parent_of_childNamed? wellFormed found).1
      exact KeepsIntact.of_pure wellFormed (lt_size_of_parent isParent)
  · refine (keepsIntact_create wellFormed _).bind ?_
    intro properties withProperties toProperties isProperties
    refine (keepsIntact_insertChild toProperties.wellFormed (toProperties.inStore inStore)
      isProperties.inStore (fun _ => isProperties.ne_root wellFormed toProperties) _).bind ?_
    intro _ after toAfter _
    exact KeepsIntact.of_pure toAfter.wellFormed (toAfter.inStore isProperties.inStore)

theorem keepsIntact_placedBreak {properties sectionBreak : NodeId}
    (wellFormed : document.WellFormed) (inStore : properties.index < document.size)
    (breakInStore : sectionBreak.index < document.size)
    (spares : spared → sectionBreak ≠ document.root) :
    KeepsIntact spared (do
      match (← get).childNamed? properties Word.Name.paragraphPropertiesChange with
      | some change => insertBefore sectionBreak change
      | none => appendChild properties sectionBreak) document fun _ _ => True := by
  refine KeepsIntact.of_get ?_
  split
  · exact keepsIntact_insertBeside wellFormed breakInStore spares 0 _
  · exact keepsIntact_appendChild wellFormed inStore breakInStore spares

theorem keepsIntact_adoptSectionBreak {sectionBreak : NodeId} (wellFormed : document.WellFormed)
    (inStore : paragraph.index < document.size) (breakInStore : sectionBreak.index < document.size)
    (spares : spared → sectionBreak ≠ document.root) :
    KeepsIntact spared (adoptSectionBreak paragraph sectionBreak) document fun _ _ => True := by
  refine (keepsIntact_ensureProperties wellFormed inStore _ _).bind ?_
  intro properties withProperties toProperties propertiesInStore
  have breakInStore' := toProperties.inStore breakInStore
  have spares' : spared → sectionBreak ≠ withProperties.root := by
    rw [toProperties.root_eq]
    exact spares
  refine KeepsIntact.of_get ?_
  dsimp only
  split
  · refine (keepsIntact_detach toProperties.wellFormed _).bind ?_
    intro _ bare toBare _
    refine keepsIntact_placedBreak toBare.wellFormed (toBare.inStore propertiesInStore)
      (toBare.inStore breakInStore') ?_
    rw [toBare.root_eq]
    exact spares'
  · exact keepsIntact_placedBreak toProperties.wellFormed propertiesInStore breakInStore' spares'

/-- Joining paragraphs moves only children of the second one and its section break. -/
theorem keepsIntact_joinParagraphs {first second : NodeId} (wellFormed : document.WellFormed)
    (detached : spared → document.parent document.root = none)
    (inStore : first.index < document.size) :
    KeepsIntact spared (joinParagraphs first second) document fun _ _ => True := by
  unfold joinParagraphs
  split
  · exact KeepsIntact.of_pure wellFormed trivial
  · refine KeepsIntact.of_get ?_
    dsimp only
    refine (KeepsIntact.of_forM wellFormed ?_).bind ?_
    · intro child isChild middle toMiddle
      have isParent := (wellFormed.mem_children_iff _ _).mp (List.mem_of_mem_filter isChild)
      exact keepsIntact_appendChild toMiddle.wellFormed (toMiddle.inStore inStore)
        (toMiddle.inStore (lt_size_of_parent isParent)) (toMiddle.ne_root detached isParent)
    · intro _ moved toMoved _
      refine KeepsIntact.of_get ?_
      split
      · next sectionBreak found =>
          rcases Option.bind_eq_some_iff.mp found with ⟨properties, -, isBreak⟩
          have isParent := (parent_of_childNamed? toMoved.wellFormed isBreak).1
          exact keepsIntact_adoptSectionBreak toMoved.wellFormed (toMoved.inStore inStore)
            (lt_size_of_parent isParent)
            ((Intact.refl toMoved.wellFormed).ne_root (toMoved.still_detached detached) isParent)
      · exact KeepsIntact.of_pure toMoved.wellFormed trivial

end WordTemplate.Edit
