import WordTemplate.Proofs.Document.Leaves
import WordTemplate.Proofs.Word.Halving

/-!
# Leaves on the two sides of a cut

A node that is cleaved at a cut has the leaves before the cut in its left half and those after the
cut in its right half, in their order. This goes up a path level by level: what holds of the halves
of a node holds of the halves of its parent, so it holds of the topmost node.
-/

namespace WordTemplate.Document

variable {before middle after : Document}
  {id node child cut parent half whole top paragraph tail holder : NodeId}
  {leading trailing lefts rights path halves unit kept runs : List NodeId}

/-! ## Empty runs -/

/-- An empty run shows nothing besides itself. -/
theorem leaves_of_isEmptyRun {source : Document} (wellFormed : before.WellFormed)
    (isEmpty : before.isEmptyRun id = true) :
    source.leaves before id = [id].filter source.isLeaf := by
  have notProperties : before.isProperties id = false :=
    (isProperties_of_isNamed (Edit.isNamed_of_isEmptyRun isEmpty)).trans (by decide)
  have silent : (before.children id).flatMap (source.leaves before) = [] :=
    List.flatMap_eq_nil_iff.mpr fun child isChild =>
      leaves_of_isProperties wellFormed (isProperties_of_isEmptyRun isEmpty isChild)
  rw [leaves_eq wellFormed, notProperties, silent]
  simp

/-! ## The levels of a path -/

/-- Each half on a path stands in the half of the node above. -/
theorem CleavedAlong.climbs (wellFormed : after.WellFormed)
    (along : CleavedAlong before after child [child] [half] path halves) :
    after.ClimbsFrom child path ∧ after.ClimbsFrom half halves := by
  induction path generalizing child half halves with
  | nil =>
      cases along
      exact ⟨trivial, trivial⟩
  | cons parent path inductionHypothesis =>
      rcases along with _ | ⟨cleaved, further⟩
      rcases cleaved.parts with ⟨leading, trailing, copies, -, children_whole, children_half, -⟩
      rcases inductionHypothesis further with ⟨climbs, climbs'⟩
      refine ⟨⟨?_, climbs⟩, ⟨?_, climbs'⟩⟩
      · rw [← wellFormed.mem_children_iff, children_whole]
        simp
      · rw [← wellFormed.mem_children_iff, children_half]
        simp

/-- Taking the cut out of the left half leaves the levels of a path cleaved. -/
theorem CleavedAlong.detach_cut
    (along : CleavedAlong before middle child lefts rights path halves)
    (wellFormed : before.WellFormed) (middleFormed : middle.WellFormed)
    (climbs : before.ClimbsFrom child path) (above : before.LiesIn child cut)
    (isHolder : before.parent cut = some holder) (isHolder' : middle.parent cut = some holder)
    (parentsAbove : ∀ id, before.LiesIn id holder → middle.parent id = before.parent id) :
    CleavedAlong before (middle.detach cut) child (lefts.filter (· != cut)) rights path halves := by
  have holder_lt := parent_lt_size wellFormed isHolder
  -- Only the child list of the holder changes.
  have children_eq : ∀ id, id ≠ holder →
      (middle.detach cut).children id = middle.children id := by
    intro id notHolder
    rw [children_detach middleFormed, filter_children_of_ne middleFormed]
    rw [isHolder']
    simpa using notHolder.symm
  induction along with
  | nil => exact .nil
  | @cons child parent half lefts rights path halves cleaved further inductionHypothesis =>
      rcases climbs with ⟨isParent, climbs⟩
      have apart : ∀ sibling ∈ before.children parent, sibling ≠ child →
          ¬before.LiesIn sibling cut := fun sibling isSibling differ inside =>
        not_liesIn_of_siblings wellFormed isParent ((wellFormed.mem_children_iff _ _).mp isSibling)
          differ.symm above inside
      have notCut : parent ≠ cut := by
        rintro rfl
        exact not_liesIn_of_parent wellFormed isParent above
      have cleaved' := cleaved.later middleFormed (Nat.le_of_eq (size_detach _ _).symm)
        (fun id _ => content_detach middleFormed cut id) (· != cut)
        (children_detach middleFormed cut parent)
        (fun id isChild differ => by
          rw [bne_iff_ne]
          rintro rfl
          exact apart id isChild differ LiesIn.refl)
        (fun id inside => by
          refine children_eq id ?_
          rintro rfl
          rw [liesIn_iff_of_parent_eq parentsAbove] at inside
          have isOld := lt_size_of_liesIn wellFormed inside holder_lt
          exact absurd cleaved.half_new (Nat.not_le_of_lt isOld))
        wellFormed
        (fun sibling isSibling differ id inside => by
          refine children_eq id ?_
          rintro rfl
          exact apart sibling isSibling differ (LiesIn.of_parent isHolder inside))
      refine .cons cleaved' ?_
      have further' := inductionHypothesis climbs (above.trans (LiesIn.parent isParent))
      rwa [List.filter_cons_of_pos (by simpa using notCut), List.filter_nil] at further'

/-! ## Leaves -/

/-- The leaves of `child` fall apart: `lefts` have those before `unit`, and `rights` have `kept`
followed by those after `unit`. -/
structure Parted (before after : Document) (child : NodeId) (lefts rights unit kept : List NodeId) :
    Prop where
  leaves : ∃ first last, before.leaves before child = first ++ unit ++ last ∧
    lefts.flatMap (before.leaves after) = first ∧
    rights.flatMap (before.leaves after) = kept ++ last
  /-- What may be left empty has nothing to show. -/
  silent : ∀ id ∈ lefts ++ rights, after.isEmptyRun id = true → before.leaves after id = []
  shown : before.isProperties child = false
  notEmpty : before.isEmptyRun child = false

/-- The children of a cleaved node other than the one at the cut show what they showed. -/
theorem Cleaved.leaves_sibling (cleaved : Cleaved before after child whole half lefts rights)
    (wellFormed : before.WellFormed) (wellFormed' : after.WellFormed)
    (content_eq : ∀ id, id.index < before.size → after.content id = before.content id)
    {sibling : NodeId} (isSibling : sibling ∈ before.children whole) (differ : sibling ≠ child) :
    before.leaves after sibling = before.leaves before sibling :=
  leaves_congr wellFormed wellFormed' fun id inside =>
    ⟨content_eq id (lt_size_below inside (lt_size_of_mem_children wellFormed isSibling)),
      cleaved.siblings_kept sibling isSibling differ id inside⟩

/-- The halves of a node show what the halves of its child at the cut show, between what the other
children show. -/
theorem Cleaved.parted (cleaved : Cleaved before after child whole half lefts rights)
    (parted : Parted before after child lefts rights unit kept) (wellFormed : before.WellFormed)
    (wellFormed' : after.WellFormed)
    (content_eq : ∀ id, id.index < before.size → after.content id = before.content id)
    (shown : before.isProperties whole = false) :
    Parted before after whole [whole] [half] unit kept := by
  rcases cleaved.parts with
    ⟨leading, trailing, copies, around, children_whole, children_half, copiesNew, -⟩
  have isChild : child ∈ before.children whole := by simp [around]
  have whole_lt := parent_lt_size wellFormed ((wellFormed.mem_children_iff _ _).mp isChild)
  have siblings : ∀ {ids : List NodeId}, ids ⊆ leading ++ trailing →
      ids.flatMap (before.leaves after) = ids.flatMap (before.leaves before) := by
    intro ids subset
    refine List.flatMap_congr fun sibling isMember => ?_
    rcases isSibling_of_around wellFormed around (subset isMember) with ⟨isSibling, differ⟩
    exact cleaved.leaves_sibling wellFormed wellFormed' content_eq isSibling differ
  have shown' : after.isProperties whole = false := by
    rw [← shown]
    exact isProperties_of_content_eq (content_eq whole whole_lt)
  have halfShown : after.isProperties half = false := by
    rw [← shown]
    exact isProperties_of_content_eq cleaved.half_content
  have copiesSilent : copies.flatMap (before.leaves after) = [] :=
    List.flatMap_eq_nil_iff.mpr fun copy isCopy =>
      leaves_of_isProperties wellFormed' (copiesNew copy isCopy).2
  have halfNew : before.isLeaf half = false := isLeaf_eq_false_of_size_le cleaved.half_new
  refine ⟨?_, ?_, shown, isEmptyRun_eq_false isChild parted.shown⟩
  · rcases parted.leaves with ⟨first, last, all, onLeft, onRight⟩
    refine ⟨[whole].filter before.isLeaf ++ leading.flatMap (before.leaves before) ++ first,
      last ++ trailing.flatMap (before.leaves before), ?_, ?_, ?_⟩
    · rw [leaves_eq wellFormed whole, if_neg (by simp [shown]), around, List.flatMap_append,
        List.flatMap_cons, all]
      simp
    · rw [List.flatMap_singleton, leaves_eq wellFormed' whole, if_neg (by simp [shown']),
        children_whole, List.flatMap_append, onLeft,
        siblings (List.subset_append_left _ _), List.append_assoc]
    · rw [List.flatMap_singleton, leaves_eq wellFormed' half, if_neg (by simp [halfShown]),
        children_half, List.flatMap_append, List.flatMap_append, copiesSilent, onRight,
        siblings (List.subset_append_right _ _)]
      simp [halfNew]
  · intro id isHalf isEmpty
    rw [leaves_of_isEmptyRun wellFormed' isEmpty]
    have noLeaf : before.isLeaf id = false := by
      rcases List.mem_cons.mp isHalf with rfl | isHalf
      · have named := Edit.isNamed_of_isEmptyRun isEmpty
        rw [isNamed_of_content_eq (content_eq id whole_lt)] at named
        exact isLeaf_eq_false_of_isNamed named isChild
      · rw [List.mem_singleton.mp isHalf]
        exact halfNew
    simp [noLeaf]

/-- The topmost node of a path is cleaved between nodes with the leaves before and after the cut. -/
theorem CleavedAlong.parted
    (along : CleavedAlong before after child lefts rights (path ++ [top]) (halves ++ [tail]))
    (parted : Parted before after child lefts rights unit kept) (wellFormed : before.WellFormed)
    (wellFormed' : after.WellFormed)
    (content_eq : ∀ id, id.index < before.size → after.content id = before.content id)
    (shown : ∀ id ∈ path, before.isProperties id = false) :
    ∃ child lefts rights, Cleaved before after child top tail lefts rights ∧
      Parted before after child lefts rights unit kept := by
  induction path generalizing child lefts rights halves with
  | nil =>
      rcases halves with _ | ⟨half, halves⟩
      · rcases along with _ | ⟨cleaved, -⟩
        exact ⟨child, lefts, rights, cleaved, parted⟩
      · rcases along with _ | ⟨-, further⟩
        rcases halves with _ | ⟨half', halves⟩ <;> cases further
  | cons parent path inductionHypothesis =>
      rcases halves with _ | ⟨half, halves⟩
      · rcases along with _ | ⟨-, further⟩
        rcases path with _ | ⟨parent', path⟩ <;> cases further
      · rcases along with _ | ⟨cleaved, further⟩
        exact inductionHypothesis further
          (cleaved.parted parted wellFormed wellFormed' content_eq (shown parent List.mem_cons_self))
          fun id isMember => shown id (List.mem_cons_of_mem _ isMember)

/-- The halves of a paragraph have the leaves before and after the cut. -/
theorem Cleaved.paragraphLeaves (cleaved : Cleaved before after child whole half lefts rights)
    (parted : Parted before after child lefts rights unit kept) (wellFormed : before.WellFormed)
    (wellFormed' : after.WellFormed)
    (content_eq : ∀ id, id.index < before.size → after.content id = before.content id) :
    ∃ first last, before.paragraphLeaves before whole = first ++ unit ++ last ∧
      before.paragraphLeaves after whole = first ∧
      before.paragraphLeaves after half = kept ++ last := by
  rcases cleaved.parts with
    ⟨leading, trailing, copies, around, children_whole, children_half, copiesNew, -⟩
  have isSibling : ∀ sibling ∈ leading ++ trailing,
      sibling ∈ before.children whole ∧ sibling ≠ child := fun _ =>
    isSibling_of_around wellFormed around
  have siblings : ∀ {ids : List NodeId}, ids ⊆ leading ++ trailing →
      (ids.filter (!after.isEmptyRun ·)).flatMap (before.leaves after) =
        (ids.filter (!before.isEmptyRun ·)).flatMap (before.leaves before) := by
    intro ids subset
    have sameFilter : ids.filter (!after.isEmptyRun ·) = ids.filter (!before.isEmptyRun ·) := by
      refine List.filter_congr fun sibling isMember => ?_
      rcases isSibling sibling (subset isMember) with ⟨isChild, differ⟩
      have sibling_lt := lt_size_of_mem_children wellFormed isChild
      rw [isEmptyRun_congr (content_eq sibling sibling_lt)
        (cleaved.siblings_kept sibling isChild differ sibling LiesIn.refl)
        fun other isOther => content_eq other (lt_size_of_mem_children wellFormed isOther)]
    rw [sameFilter]
    refine List.flatMap_congr fun sibling isMember => ?_
    rcases isSibling sibling (subset (List.mem_of_mem_filter isMember)) with ⟨isChild, differ⟩
    exact cleaved.leaves_sibling wellFormed wellFormed' content_eq isChild differ
  have shownParts : ∀ {ids : List NodeId}, ids ⊆ lefts ++ rights →
      (ids.filter (!after.isEmptyRun ·)).flatMap (before.leaves after) =
        ids.flatMap (before.leaves after) := fun subset =>
    flatMap_filter_of_silent fun id isMember isEmpty =>
      parted.silent id (subset isMember) (by simpa using isEmpty)
  have copiesSilent : (copies.filter (!after.isEmptyRun ·)).flatMap (before.leaves after) = [] :=
    List.flatMap_eq_nil_iff.mpr fun copy isCopy =>
      leaves_of_isProperties wellFormed' (copiesNew copy (List.mem_of_mem_filter isCopy)).2
  rcases parted.leaves with ⟨first, last, all, onLeft, onRight⟩
  refine ⟨(leading.filter (!before.isEmptyRun ·)).flatMap (before.leaves before) ++ first,
    last ++ (trailing.filter (!before.isEmptyRun ·)).flatMap (before.leaves before), ?_, ?_, ?_⟩
  · rw [Document.paragraphLeaves, around, List.filter_append,
      List.filter_cons_of_pos (by simp [parted.notEmpty]), List.flatMap_append, List.flatMap_cons,
      all]
    simp
  · rw [Document.paragraphLeaves, children_whole, List.filter_append, List.flatMap_append,
      siblings (List.subset_append_left _ _), shownParts (List.subset_append_left _ _), onLeft]
  · rw [Document.paragraphLeaves, children_half, List.filter_append, List.filter_append,
      List.flatMap_append, List.flatMap_append, copiesSilent,
      shownParts (List.subset_append_right _ _), onRight, siblings (List.subset_append_right _ _)]
    simp

/-! ## Tidying up -/

/-- A paragraph keeps its leaves if it loses runs of its own only. -/
theorem Tidied.paragraphLeaves_eq (tidied : Tidied middle after paragraph tail runs)
    (own : ∀ run, middle.parent run = some paragraph ∨ middle.parent run = some tail →
      middle.LiesIn node run → middle.parent run = some node)
    (wellFormed : middle.WellFormed) (source : Document)
    (shown : middle.isProperties node = false) :
    source.paragraphLeaves after node = source.paragraphLeaves middle node := by
  have notOwn : ∀ child ∈ middle.children node, ∀ other, middle.LiesIn child other →
      ∀ run ∈ runs, middle.parent run ≠ some other := by
    intro child isChild other inside run isRun isParent
    rw [wellFormed.mem_children_iff] at isChild
    have isOwn := own run (tidied.areRuns run isRun).2
      (LiesIn.of_parent isParent (inside.trans (LiesIn.parent isChild)))
    rw [isParent, Option.some.injEq] at isOwn
    exact not_liesIn_of_parent wellFormed isChild (isOwn ▸ inside)
  have isEmptyRun_eq : ∀ child ∈ middle.children node,
      after.isEmptyRun child = middle.isEmptyRun child := fun child isChild =>
    tidied.isEmptyRun_eq own wellFormed ((wellFormed.mem_children_iff _ _).mp isChild)
  have leaves_same : ∀ child ∈ middle.children node,
      source.leaves after child = source.leaves middle child := by
    intro child isChild
    refine leaves_eq_of_children (middle.LiesIn child) wellFormed tidied.drops.wellFormed ?_ ?_ ?_
      LiesIn.refl
    · exact fun other inside lower isLower =>
        LiesIn.of_parent ((wellFormed.mem_children_iff _ _).mp isLower) inside
    · exact fun other _ => isProperties_of_content_eq (tidied.drops.content_eq _)
    · intro other inside sameBelow
      have silent : ∀ lower ∈ middle.children other, decide (lower ∉
          (middle.paragraphProperty? paragraph Word.Name.sectionProperties).toList ++ runs) = false →
          source.leaves middle lower = [] := by
        intro lower isLower isDropped
        rw [decide_eq_false_iff_not, Decidable.not_not] at isDropped
        rcases List.mem_append.mp isDropped with isBreak | isRun
        · rw [Option.mem_toList] at isBreak
          rcases Edit.parent_of_paragraphProperty? wellFormed isBreak with ⟨-, -, -, -, named⟩
          exact leaves_of_isProperties wellFormed ((isProperties_of_isNamed named).trans (by decide))
        · exact absurd ((wellFormed.mem_children_iff _ _).mp isLower)
            (notOwn child isChild other inside lower isRun)
      rw [tidied.drops.children_eq, ← flatMap_filter_of_silent silent]
      exact List.flatMap_congr fun lower isLower => sameBelow lower (List.mem_of_mem_filter isLower)
  have sameShown : (after.children node).filter (!after.isEmptyRun ·) =
      (middle.children node).filter (!middle.isEmptyRun ·) := by
    rw [tidied.drops.children_eq, List.filter_filter]
    refine List.filter_congr fun child isChild => ?_
    rw [isEmptyRun_eq child isChild]
    rcases isEmpty : middle.isEmptyRun child with _ | _
    · rw [Bool.not_false, Bool.true_and, decide_eq_true_eq]
      intro isDropped
      rcases tidied.dropped wellFormed isDropped with
        ⟨-, -, properties, -, areProperties, isParent, -⟩ | ⟨isEmpty', -⟩
      · rw [(wellFormed.mem_children_iff _ _).mp isChild, Option.some.injEq] at isParent
        rw [← isParent, shown] at areProperties
        cases areProperties
      · rw [isEmpty] at isEmpty'
        cases isEmpty'
    · rfl
  rw [paragraphLeaves, paragraphLeaves, sameShown]
  exact List.flatMap_congr fun child isChild => leaves_same child (List.mem_of_mem_filter isChild)

end WordTemplate.Document
