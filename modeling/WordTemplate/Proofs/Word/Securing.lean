import WordTemplate.Proofs.Document.Securing
import WordTemplate.Proofs.Word.Levels

/-!
# Splitting and joining around wrappers

A wrapper is never split, since what is split lies in a paragraph or is one, and what moves to the new
half was a child of the old one. Paragraphs are joined by moving the children of one to the other.
-/

namespace WordTemplate

namespace Document

variable {base : Nat} {document before after : Document} {id child parent : NodeId}
  {name : String}

/-- A node with the same parents above it has the same ancestors. -/
theorem ancestors_congr (wellFormed : before.WellFormed) (wellFormed' : after.WellFormed)
    (same : ∀ other, before.LiesIn other id → after.parent other = before.parent other) :
    after.ancestors id = before.ancestors id := by
  induction id using wellFormed.induction_parent with
  | step id inductionHypothesis =>
      have parent_eq := same id LiesIn.refl
      rcases isParent : before.parent id with _ | parent
      · rw [ancestors_of_parent_none isParent, ancestors_of_parent_none (parent_eq.trans isParent)]
      · rw [ancestors_of_parent wellFormed isParent,
          ancestors_of_parent wellFormed' (parent_eq.trans isParent),
          inductionHypothesis parent isParent fun other above =>
            same other (LiesIn.of_parent isParent above)]

/-- A child with a name is ordinary. -/
theorem Sealed.ordinary_of_childNamed? (isSealed : document.Sealed base)
    (found : document.childNamed? parent name = some child) : document.Ordinary child :=
  isSealed.ordinary_of_parent (parent_of_childNamed? isSealed.wellFormed found).1

/-- The nearest element with a name that is not that of wrappers is ordinary. -/
theorem Sealed.ordinary_of_ancestorNamed? (isSealed : document.Sealed base)
    (found : document.ancestorNamed? id name = some parent) (differ : name ≠ Edit.wrapperName) :
    document.Ordinary parent :=
  ordinary_of_isNamed (liesIn_of_ancestorNamed? isSealed.wellFormed found).2 differ

end Document

namespace Edit

open Document

variable {base : Nat} {document : Document} {child parent paragraph properties top textNode : NodeId}
  {name : String}

/-! ## Properties -/

theorem secures_keepSpace (isSealed : document.Sealed base) (id : NodeId) :
    Secures base (keepSpace id) document fun _ _ => True :=
  (secures_setAttribute isSealed id _ _).forget

/-- Properties are there or are added, and no older node moves. -/
theorem secures_ensureProperties (isSealed : document.Sealed base) (ordinary : document.Ordinary parent)
    (differ : name ≠ wrapperName) (leading : List String) :
    Secures base (ensureProperties parent name leading) document fun properties after =>
      after.parent properties = some parent ∧
        ∀ id, id.index < document.size → after.parent id = document.parent id := by
  refine Secures.of_get ?_
  split
  · next existing found =>
      exact Secures.of_pure isSealed
        ⟨(parent_of_childNamed? isSealed.wellFormed found).1, fun _ _ => rfl⟩
  · refine Secures.bind isSealed (secures_createElement isSealed differ) ?_
    intro properties created _ seals introduced
    refine Secures.bind seals.toSealed (secures_insertChild seals.toSealed (seals.ordinary ordinary)
      introduced.toOrdinary introduced.loose _) ?_
    intro _ after _ seals' parent_eq
    refine Secures.of_pure seals'.toSealed ⟨by rw [parent_eq, if_pos rfl], fun id isOld => ?_⟩
    rw [parent_eq, if_neg (introduced.ne isOld), introduced.parent_eq id isOld]

theorem secures_setFlag (isSealed : document.Sealed base) (ordinary : document.Ordinary properties)
    {flag : String} (differ : flag ≠ wrapperName) :
    Secures base (setFlag properties flag) document fun _ _ => True := by
  refine Secures.of_get ?_
  split
  · exact Secures.of_pure isSealed trivial
  · refine Secures.bind isSealed (secures_createElement isSealed differ) ?_
    intro added created _ seals introduced
    refine Secures.bind seals.toSealed (secures_appendChild seals.toSealed (seals.ordinary ordinary)
      introduced.toOrdinary introduced.loose) ?_
    intro _ after _ seals' _
    exact Secures.of_pure seals'.toSealed trivial

theorem secures_removeEmptyRuns (isSealed : document.Sealed base) (container : NodeId) :
    Secures base (removeEmptyRuns container) document fun _ _ => True :=
  Secures.of_get (secures_detachAll isSealed _)

theorem secures_removeSectionBreak (isSealed : document.Sealed base) (paragraph : NodeId) :
    Secures base (removeSectionBreak paragraph) document fun _ _ => True := by
  refine Secures.of_get ?_
  split
  · exact (secures_detach isSealed _).forget
  · exact Secures.of_pure isSealed trivial

/-! ## Splitting -/

/-- Copies of ordinary nodes may be gathered below an ordinary one, and no older node moves. -/
theorem secures_forM_copySubtree {ids : List NodeId} (isSealed : document.Sealed base)
    (hosts : document.Ordinary parent) (ordinary : ∀ id ∈ ids, document.Ordinary id) :
    Secures base (ids.forM fun id => do
      let copy ← copySubtree id
      appendChild parent copy.root) document fun _ after =>
        ∀ id, id.index < document.size → after.parent id = document.parent id := by
  refine secures_forM (fun after => ∀ id, id.index < document.size →
    after.parent id = document.parent id) isSealed (fun _ _ => rfl) ?_
  intro id isMember middle toMiddle kept
  refine Secures.bind toMiddle.toSealed (secures_copySubtree toMiddle.toSealed
    (toMiddle.ordinary (ordinary id isMember))) ?_
  rintro copy copied - toCopied ⟨isCopy, -⟩
  refine (secures_appendChild toCopied.toSealed (toCopied.ordinary (toMiddle.ordinary hosts))
    isCopy.toOrdinary isCopy.loose).imp ?_
  intro _ after _ _ parent_eq other isOld
  have stillOld := Nat.lt_of_lt_of_le isOld toMiddle.size_le
  rw [parent_eq, if_neg (isCopy.ne stillOld), isCopy.parent_eq other stillOld, kept other isOld]

/-- A parent that is no wrapper is split, and of the older nodes only its children move. -/
theorem secures_splitParent (isSealed : document.Sealed base)
    (ordinary : ∀ parent, document.parent child = some parent → document.Ordinary parent)
    (movesChild : Bool) :
    Secures base (splitParent child movesChild) document fun right after => after.Recent base right ∧
      ∀ id, id.index < document.size → document.parent id ≠ document.parent child →
        after.parent id = document.parent id := by
  refine Secures.bind isSealed (secures_parentOf isSealed child) ?_
  rintro parent _ - - ⟨rfl, isParent⟩
  refine Secures.bind isSealed (secures_indexOf isSealed child) ?_
  rintro index _ - - rfl
  have ordinary := ordinary parent isParent
  refine Secures.bind isSealed (secures_copyNode isSealed ordinary) ?_
  intro right withRight _ seals introduced
  refine Secures.of_get ?_
  have siblings : ∀ sibling ∈ withRight.children parent,
      withRight.parent sibling = some parent := fun sibling =>
    (seals.wellFormed.mem_children_iff _ _).mp
  refine Secures.bind seals.toSealed (secures_forM_copySubtree seals.toSealed introduced.toOrdinary
    fun sibling isSibling => seals.toSealed.ordinary_of_parent
      (siblings sibling (List.mem_of_mem_take (List.mem_of_mem_filter isSibling)))) ?_
  intro _ copied _ toCopied kept
  have ordinaryParent := toCopied.ordinary (seals.ordinary ordinary)
  have moving : ∀ sibling ∈ (withRight.children parent).drop (if movesChild then index else index + 1),
      copied.parent sibling = some parent := by
    intro sibling isSibling
    have isChild := siblings sibling (List.mem_of_mem_drop isSibling)
    rw [kept sibling (lt_size_of_parent isChild), isChild]
  refine Secures.bind toCopied.toSealed (secures_forM_appendChild toCopied.toSealed
    (toCopied.ordinary introduced.toOrdinary)
    (fun sibling isSibling => toCopied.toSealed.ordinary_of_parent (moving sibling isSibling))
    (fun sibling isSibling => .of_ordinary_parent (moving sibling isSibling) ordinaryParent)) ?_
  intro _ moved _ toMoved stays
  refine Secures.bind toMoved.toSealed (secures_insertRecent toMoved.toSealed
    (toMoved.recent (toCopied.recent introduced.toRecent)) 1 parent) ?_
  intro _ after _ toAfter placed
  refine Secures.of_pure toAfter.toSealed
    ⟨toAfter.recent (toMoved.recent (toCopied.recent introduced.toRecent)), ?_⟩
  intro id isOld differ
  rw [isParent] at differ
  have parent_eq := introduced.parent_eq id isOld
  have notMoving : id ∉ (withRight.children parent).drop (if movesChild then index else index + 1) := by
    intro isSibling
    rw [siblings id (List.mem_of_mem_drop isSibling)] at parent_eq
    exact differ parent_eq.symm
  rw [placed id (introduced.ne isOld), stays id notMoving, kept id (Nat.lt_of_lt_of_le isOld seals.size_le),
    parent_eq]

/-- Below an ordinary node every ancestor is ordinary, so it can be split. -/
theorem secures_splitUpTo (isSealed : document.Sealed base) (ordinary : document.Ordinary top)
    (isAbove : top ∈ document.ancestors child) (movesChild : Bool) :
    Secures base (splitUpTo top movesChild child (document.ancestors child)) document
      fun right after => after.Recent base right := by
  generalize levels : document.ancestors child = ancestors at isAbove ⊢
  induction ancestors generalizing document movesChild child with
  | nil => cases isAbove
  | cons parent outer inductionHypothesis =>
      have isParent : document.parent child = some parent ∧ document.ancestors parent = outer := by
        rcases isFound : document.parent child with _ | found
        · rw [ancestors_of_parent_none isFound] at levels
          cases levels
        · rw [ancestors_of_parent isSealed.wellFormed isFound, List.cons.injEq] at levels
          exact ⟨congrArg some levels.1, levels.1 ▸ levels.2⟩
      have ordinaryParent : document.Ordinary parent := by
        rcases List.mem_cons.mp isAbove with rfl | isHigher
        · exact ordinary
        · rcases isFound : document.parent parent with _ | found
          · rw [← isParent.2, ancestors_of_parent_none isFound] at isHigher
            cases isHigher
          · exact isSealed.ordinary_of_parent isFound
      have hosts : ∀ other, document.parent child = some other → document.Ordinary other := by
        intro other isOther
        rw [isParent.1, Option.some.injEq] at isOther
        exact isOther ▸ ordinaryParent
      refine Secures.bind isSealed (secures_splitParent isSealed hosts movesChild) ?_
      rintro right after - seals ⟨isRecent, stays⟩
      split
      · exact Secures.of_pure seals.toSealed isRecent
      · next differ =>
          have isHigher := (List.mem_cons.mp isAbove).resolve_left (Ne.symm differ)
          refine inductionHypothesis seals.toSealed (seals.ordinary ordinary) false ?_ isHigher
          rw [← isParent.2]
          refine ancestors_congr isSealed.wellFormed seals.wellFormed fun other above => ?_
          refine stays other (lt_size_of_liesIn isSealed.wellFormed above ordinaryParent.inStore) ?_
          rw [isParent.1]
          exact fun isBelow => not_liesIn_of_parent isSealed.wellFormed isBelow above

/-- The tail of a split paragraph is new. -/
theorem secures_splitParagraph (isSealed : document.Sealed base)
    (holdsText : document.HoldsText textNode)
    (paragraph : NodeId) (removesText : Bool) :
    Secures base (splitParagraph paragraph textNode removesText) document fun tail after =>
      after.Recent base tail := by
  refine Secures.of_get ?_
  dsimp only
  split
  · exact Secures.of_throw isSealed
  next inParagraph =>
    rw [not_not] at inParagraph
    rcases textUnit_of_paragraph? isSealed.wellFormed holdsText.isText inParagraph with
      ⟨named, above, differ, -⟩
    have isAbove := ((mem_ancestors_iff isSealed.wellFormed).mpr above).resolve_left differ.symm
    refine Secures.bind isSealed (secures_splitUpTo isSealed (ordinary_of_isNamed named (by decide))
      isAbove _) ?_
    intro tail split _ toSplit isRecent
    have tidied : ∀ {document : Document}, document.Sealed base → document.Recent base tail →
        Secures base (do
          removeSectionBreak paragraph
          removeEmptyRuns paragraph
          removeEmptyRuns tail
          return tail) document fun tail after => after.Recent base tail := by
      intro document isSealed isRecent
      refine Secures.bind isSealed (secures_removeSectionBreak isSealed paragraph) ?_
      intro _ unbroken _ toUnbroken _
      refine Secures.bind toUnbroken.toSealed (secures_removeEmptyRuns toUnbroken.toSealed paragraph) ?_
      intro _ headTidied _ toHead _
      refine Secures.bind toHead.toSealed (secures_removeEmptyRuns toHead.toSealed tail) ?_
      intro _ after _ toAfter _
      exact Secures.of_pure toAfter.toSealed
        (toAfter.recent (toHead.recent (toUnbroken.recent isRecent)))
    split
    · refine Secures.bind toSplit.toSealed (secures_detach toSplit.toSealed _) ?_
      intro _ bare _ toBare _
      exact tidied toBare.toSealed (toBare.recent isRecent)
    · exact tidied toSplit.toSealed isRecent

/-! ## Joining -/

/-- A section break that is loose moves into properties. -/
theorem secures_placedBreak {sectionBreak : NodeId} (isSealed : document.Sealed base)
    (hosts : document.Ordinary properties) (ordinary : document.Ordinary sectionBreak)
    (loose : document.Loose base sectionBreak) :
    Secures base (do
      match (← get).childNamed? properties Word.Name.paragraphPropertiesChange with
      | some change => insertBefore sectionBreak change
      | none => appendChild properties sectionBreak) document fun _ _ => True := by
  refine Secures.of_get ?_
  split
  · next change found =>
      have isParent := (parent_of_childNamed? isSealed.wellFormed found).1
      refine (secures_insertBeside isSealed ordinary loose (Or.inr fun parent isParent' => ?_) 0).forget
      rw [isParent, Option.some.injEq] at isParent'
      exact isParent' ▸ hosts.notWrapper
  · exact (secures_appendChild isSealed hosts ordinary loose).forget

/-- The section break of other properties moves into those of a paragraph. -/
theorem secures_adoptSectionBreak {sectionBreak other : NodeId} (isSealed : document.Sealed base)
    (ordinary : document.Ordinary paragraph) (isParent : document.parent sectionBreak = some other)
    (isForeign : document.parent other ≠ some paragraph) (otherOrdinary : document.Ordinary other) :
    Secures base (adoptSectionBreak paragraph sectionBreak) document fun _ _ => True := by
  have breakOrdinary := isSealed.ordinary_of_parent isParent
  refine Secures.bind isSealed (secures_ensureProperties isSealed ordinary (by decide) []) ?_
  rintro properties ensured - seals ⟨isProperties, kept⟩
  have differ : properties ≠ other := by
    rintro rfl
    rw [← kept properties otherOrdinary.inStore] at isForeign
    exact isForeign isProperties
  have stillParent : ensured.parent sectionBreak = some other := by
    rw [kept sectionBreak breakOrdinary.inStore, isParent]
  have hosts := seals.toSealed.ordinary_of_parent isProperties
  have breakOrdinary' := seals.ordinary breakOrdinary
  refine Secures.of_get ?_
  dsimp only
  split
  · next previous found =>
      have previousIs := (parent_of_childNamed? seals.wellFormed found).1
      refine Secures.bind seals.toSealed (secures_detach seals.toSealed previous) ?_
      intro _ bare _ toBare parent_eq
      have isOther : sectionBreak ≠ previous := by
        rintro rfl
        rw [stillParent, Option.some.injEq] at previousIs
        exact differ previousIs.symm
      refine secures_placedBreak toBare.toSealed (toBare.ordinary hosts)
        (toBare.ordinary breakOrdinary')
        (.of_ordinary_parent ?_ (toBare.ordinary (seals.ordinary otherOrdinary)))
      rw [parent_eq, if_neg isOther, stillParent]
  · exact secures_placedBreak seals.toSealed hosts breakOrdinary'
      (.of_ordinary_parent stillParent (seals.ordinary otherOrdinary))

/-- The content of an ordinary node joins another one. -/
theorem secures_joinParagraphs {first second : NodeId} (isSealed : document.Sealed base)
    (firstOrdinary : document.Ordinary first) (secondOrdinary : document.Ordinary second) :
    Secures base (joinParagraphs first second) document fun _ _ => True := by
  unfold joinParagraphs
  split
  · exact Secures.of_pure isSealed trivial
  next differ =>
    refine Secures.of_get ?_
    dsimp only
    have isChild : ∀ child ∈ (document.children second).filter (fun child =>
        !document.isNamed child Word.Name.paragraphProperties), document.parent child = some second :=
      fun child isMoving =>
        (isSealed.wellFormed.mem_children_iff _ _).mp (List.mem_of_mem_filter isMoving)
    refine Secures.bind isSealed (secures_forM_appendChild isSealed firstOrdinary
      (fun child isMoving => isSealed.ordinary_of_parent (isChild child isMoving))
      (fun child isMoving => .of_ordinary_parent (isChild child isMoving) secondOrdinary)) ?_
    intro _ moved _ toMoved _
    refine Secures.of_get ?_
    split
    · next sectionBreak found =>
        rcases Option.bind_eq_some_iff.mp found with ⟨properties, isProperties, isBreak⟩
        have isBelow := (parent_of_childNamed? toMoved.wellFormed isProperties).1
        refine secures_adoptSectionBreak toMoved.toSealed (toMoved.ordinary firstOrdinary)
          (parent_of_childNamed? toMoved.wellFormed isBreak).1 ?_
          (toMoved.toSealed.ordinary_of_parent isBelow)
        rw [isBelow, ne_eq, Option.some.injEq]
        exact Ne.symm differ
    · exact Secures.of_pure toMoved.toSealed trivial

end Edit

end WordTemplate
