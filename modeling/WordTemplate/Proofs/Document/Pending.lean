import WordTemplate.Proofs.Document.Rearranging

/-!
# Pending text nodes

The text nodes of the tags that are still to be filled stand in the running text of a few detached
trees, in document order, each alone in its text element. This is what filling one tag after the
other preserves. The trees are the one that is being filled and what was taken out of it as a whole.
-/

namespace WordTemplate.Document

variable {zone touched : NodeId → Prop} {rights : Rights} {document before after : Document}
  {id other top text holder : NodeId} {tops texts kept left right : List NodeId}

/-- Text nodes that stand in the running text of detached trees, in document order. -/
structure Pending (document : Document) (tops texts : List NodeId) : Prop where
  detached : ∀ top ∈ tops, document.parent top = none
  inStore : ∀ top ∈ tops, top.index < document.size
  notProperties : ∀ top ∈ tops, document.isProperties top = false
  nodup_tops : tops.Nodup
  ordered : texts.Sublist (tops.flatMap document.runningTexts)
  solitary : ∀ text ∈ texts, document.Solitary text

/-- `text` has left the running text below `top`. -/
def TakesOut (before after : Document) (top text : NodeId) : Prop :=
  ∃ left right, before.runningTexts top = left ++ text :: right ∧
    after.runningTexts top = left ++ right

theorem nodup_flatMap_runningTexts (wellFormed : document.WellFormed) (nodup : tops.Nodup)
    (detached : ∀ top ∈ tops, document.parent top = none) :
    (tops.flatMap document.runningTexts).Nodup :=
  (nodup_flatMap_subtree wellFormed nodup detached).sublist
    (sublist_flatMap (List.Sublist.refl _) fun top _ =>
      runningTexts_sublist_subtree wellFormed top)

/-- A part of a list without repetitions falls apart where the list does. -/
theorem sublist_of_append_cons {ids ids' : List NodeId}
    (sublist : (left ++ text :: right).Sublist (ids ++ text :: ids'))
    (nodup : (ids ++ text :: ids').Nodup) : left.Sublist ids ∧ right.Sublist ids' := by
  induction ids generalizing left with
  | nil =>
      rcases left with _ | ⟨first, left⟩
      · exact ⟨List.Sublist.refl _, List.cons_sublist_cons.mp sublist⟩
      · have notLater := (List.nodup_cons.mp nodup).1
        have isLater := (sublist.tail).subset (List.mem_append_right left List.mem_cons_self)
        exact absurd isLater notLater
  | cons first ids inductionHypothesis =>
      rcases List.nodup_cons.mp nodup with ⟨notLater, nodupRest⟩
      rcases left with _ | ⟨head, left⟩
      · have differ : text ≠ first := by
          rintro rfl
          exact notLater (by simp)
        cases sublist with
        | cons _ shorter => exact ⟨List.nil_sublist _, (inductionHypothesis shorter nodupRest).2⟩
        | cons_cons => exact absurd rfl differ
      · cases sublist with
        | cons _ shorter =>
            rcases inductionHypothesis shorter nodupRest with ⟨before, after⟩
            exact ⟨before.cons first, after⟩
        | cons_cons _ longer =>
            rcases inductionHypothesis longer nodupRest with ⟨before, after⟩
            exact ⟨before.cons_cons first, after⟩

theorem sublist_right_of_cons {ids ids' : List NodeId}
    (sublist : (text :: right).Sublist (ids ++ text :: ids'))
    (nodup : (ids ++ text :: ids').Nodup) : right.Sublist ids' :=
  have sublist' : ([] ++ text :: right).Sublist (ids ++ text :: ids') := sublist
  (sublist_of_append_cons sublist' nodup).2

namespace Pending

variable (pending : document.Pending tops texts)
include pending

theorem exists_top (isMember : text ∈ texts) :
    ∃ top ∈ tops, text ∈ document.runningTexts top := by
  simpa using pending.ordered.subset isMember

theorem nodup_texts (wellFormed : document.WellFormed) : texts.Nodup :=
  (nodup_flatMap_runningTexts wellFormed pending.nodup_tops pending.detached).sublist
    pending.ordered

theorem isText (isMember : text ∈ texts) : document.isText text = true :=
  (pending.solitary text isMember).1

/-- A pending text node is running text of every node above it. -/
theorem mem_runningTexts (wellFormed : document.WellFormed) (isMember : text ∈ texts)
    (inside : document.LiesIn id text) : text ∈ document.runningTexts id := by
  rcases pending.exists_top isMember with ⟨top, isTop, running⟩
  have below := liesIn_of_mem_runningTexts wellFormed running
  rcases below.total inside with above | above
  · exact mem_runningTexts_of_liesIn wellFormed running above inside
  · rw [← above.eq_of_parent_none (pending.detached top isTop)]
    exact running

/-- Whatever stands above a pending text node shows its children. -/
theorem showsChildren (wellFormed : document.WellFormed) (isMember : text ∈ texts)
    (inside : document.LiesIn id text) (differ : id ≠ text) : document.showsChildren id = true :=
  ((mem_runningTexts_iff wellFormed).mp
    (pending.mem_runningTexts wellFormed isMember inside)).2.2 id LiesIn.refl inside differ

theorem lt_size (wellFormed : document.WellFormed) (isMember : text ∈ texts) :
    text.index < document.size := by
  rcases pending.exists_top isMember with ⟨top, isTop, running⟩
  exact lt_size_below (liesIn_of_mem_runningTexts wellFormed running) (pending.inStore top isTop)

/-- No pending text node stands below another one. -/
theorem not_liesIn_text (wellFormed : document.WellFormed) (isMember : text ∈ texts)
    (isOther : other ∈ texts) (differ : other ≠ text) : ¬document.LiesIn other text := by
  intro inside
  have running := pending.mem_runningTexts wellFormed isMember inside
  rw [runningTexts_of_isText (pending.isText isOther), List.mem_singleton] at running
  exact differ running.symm

/-- No pending text node stands in the text element of another one. -/
theorem not_liesIn_holder (wellFormed : document.WellFormed) (isMember : text ∈ texts)
    (isOther : other ∈ texts) (differ : other ≠ text) (isHolder : document.parent other = some holder)
    (named : document.isNamed holder Word.Name.text = true) : ¬document.LiesIn holder text := by
  intro inside
  have running := pending.mem_runningTexts wellFormed isMember inside
  have alone := (solitary_iff (pending.isText isOther)).mp (pending.solitary other isOther) holder
    isHolder named
  rw [alone, List.mem_singleton] at running
  exact differ running.symm

/-- Whatever stands above a pending text node is in a zone that holds the trees. -/
theorem inZone (wellFormed : document.WellFormed) (closed : document.Closed zone rights)
    (topsInZone : ∀ top ∈ tops, zone top) (isMember : text ∈ texts)
    (inside : document.LiesIn id text) : zone id := by
  rcases pending.exists_top isMember with ⟨top, isTop, running⟩
  rcases (liesIn_of_mem_runningTexts wellFormed running).total inside with above | above
  · exact closed.liesIn above (topsInZone top isTop)
  · rw [← above.eq_of_parent_none (pending.detached top isTop)]
    exact topsInZone top isTop

/-- The tree around a pending text node is around whatever stands above the node. -/
theorem liesIn_top (wellFormed : document.WellFormed) (isTop : top ∈ tops)
    (running : text ∈ document.runningTexts top) (inside : document.LiesIn id text) :
    document.LiesIn top id := by
  rcases (liesIn_of_mem_runningTexts wellFormed running).total inside with above | above
  · exact above
  · rw [← above.eq_of_parent_none (pending.detached top isTop)]

/-- A node below one of the trees lies below no other one. -/
theorem not_liesIn_other_top (isTop : top ∈ tops) (isOther : other ∈ tops) (differ : other ≠ top)
    (inside : document.LiesIn top id) : ¬document.LiesIn other id := fun insideOther =>
  differ (eq_of_liesIn_detached (pending.detached other isOther) (pending.detached top isTop)
    insideOther inside)

omit pending in
/-- A detached node becomes one of the trees. -/
theorem insert_top {node : NodeId} {earlier later : List NodeId}
    (trees : document.Pending (earlier ++ later) [])
    (notTop : node ∉ earlier ++ later) (detached : document.parent node = none)
    (inStore : node.index < document.size) (notProperties : document.isProperties node = false)
    (ordered : texts.Sublist ((earlier ++ node :: later).flatMap document.runningTexts))
    (solitary : ∀ text ∈ texts, document.Solitary text) :
    document.Pending (earlier ++ node :: later) texts := by
  have cases_top : ∀ top ∈ earlier ++ node :: later, top = node ∨ top ∈ earlier ++ later := by
    intro top isTop
    rwa [List.mem_append, List.mem_cons, or_left_comm, ← List.mem_append] at isTop
  refine ⟨fun top isTop => ?_, fun top isTop => ?_, fun top isTop => ?_, ?_, ordered, solitary⟩
  · rcases cases_top top isTop with rfl | isTop
    · exact detached
    · exact trees.detached top isTop
  · rcases cases_top top isTop with rfl | isTop
    · exact inStore
    · exact trees.inStore top isTop
  · rcases cases_top top isTop with rfl | isTop
    · exact notProperties
    · exact trees.notProperties top isTop
  · rw [List.nodup_middle, List.nodup_cons]
    exact ⟨notTop, trees.nodup_tops⟩

theorem sublist (fewer : kept.Sublist texts) : document.Pending tops kept where
  detached := pending.detached
  inStore := pending.inStore
  notProperties := pending.notProperties
  nodup_tops := pending.nodup_tops
  ordered := fewer.trans pending.ordered
  solitary text isMember := pending.solitary text (fewer.subset isMember)

/-- Text nodes stay pending in a rearrangement that does not touch what they depend on. -/
theorem of_rearranges (rearranges : Rearranges zone rights touched document after)
    (wellFormed : document.WellFormed) (unplaced : ∀ top ∈ tops, ¬rights.places top)
    (subset : kept ⊆ texts)
    (untouched : ∀ text ∈ kept, ¬touched text ∧ ∀ holder, document.parent text = some holder →
      document.isNamed holder Word.Name.text = true → ¬touched holder)
    (ordered : kept.Sublist (tops.flatMap after.runningTexts)) : after.Pending tops kept where
  detached top isTop := rearranges.detached (unplaced top isTop) (pending.inStore top isTop)
    (pending.notProperties top isTop) (pending.detached top isTop)
  inStore top isTop := Nat.lt_of_lt_of_le (pending.inStore top isTop) rearranges.size_le
  notProperties top isTop := by
    rw [rearranges.isProperties_eq (pending.inStore top isTop)]
    exact pending.notProperties top isTop
  nodup_tops := pending.nodup_tops
  ordered := ordered
  solitary text isMember := rearranges.solitary wellFormed
    (pending.lt_size wellFormed (subset isMember)) (pending.solitary text (subset isMember))
    (untouched text isMember).1 (untouched text isMember).2

/-- Text nodes stay pending in an edit that keeps all running text. -/
theorem neutral (neutral : Neutral zone rights document after) (wellFormed : document.WellFormed)
    (unplaced : ∀ top ∈ tops, ¬rights.places top) : after.Pending tops texts := by
  have rearranges : Rearranges zone rights (fun _ => False) document after := neutral.rearranges
  refine pending.of_rearranges rearranges wellFormed unplaced (List.Subset.refl _)
    (fun _ _ => ⟨id, fun _ _ _ => id⟩) ?_
  rw [rearranges.flatMap_eq pending.inStore fun _ _ => id]
  exact pending.ordered

omit pending in
/-- Trees that an edit does not touch keep their running text. -/
theorem flatMap_other_tops {earlier later : List NodeId}
    (pending : document.Pending (earlier ++ top :: later) texts)
    (rearranges : Rearranges zone rights touched document after)
    (untouched : ∀ other ∈ earlier ++ top :: later, other ≠ top → ¬touched other) :
    earlier.flatMap after.runningTexts = earlier.flatMap document.runningTexts ∧
      later.flatMap after.runningTexts = later.flatMap document.runningTexts := by
  have nodup := pending.nodup_tops
  rw [List.nodup_middle, List.nodup_cons] at nodup
  have isOther : ∀ other ∈ earlier ++ later, other ∈ earlier ++ top :: later ∧ other ≠ top := by
    intro other isOther
    refine ⟨?_, fun same => nodup.1 (same ▸ isOther)⟩
    rcases List.mem_append.mp isOther with isOther | isOther <;> simp [isOther]
  have same : ∀ {ids : List NodeId}, ids ⊆ earlier ++ later →
      ids.flatMap after.runningTexts = ids.flatMap document.runningTexts := fun subset =>
    rearranges.flatMap_eq (fun id isMember => pending.inStore id (isOther id (subset isMember)).1)
      fun id isMember => untouched id (isOther id (subset isMember)).1 (isOther id (subset isMember)).2
  exact ⟨same (List.subset_append_left _ _), same (List.subset_append_right _ _)⟩

end Pending

/-- A text node is taken out of a tree while the others stay pending. -/
theorem Pending.of_takesOut (pending : before.Pending tops (left ++ text :: right))
    (rearranges : Rearranges zone rights (before.LiesIn · text) before after)
    (wellFormed : before.WellFormed) (unplaced : ∀ top ∈ tops, ¬rights.places top)
    (takesOut : ∀ top ∈ tops, text ∈ before.runningTexts top → TakesOut before after top text) :
    after.Pending tops (left ++ right) := by
  have isMember : text ∈ left ++ text :: right := by simp
  have nodup := pending.nodup_texts wellFormed
  have differ : ∀ other ∈ left ++ right, other ≠ text := by
    rintro other isOther rfl
    rw [List.nodup_middle] at nodup
    exact (List.nodup_cons.mp nodup).1 isOther
  have subset : left ++ right ⊆ left ++ text :: right := by
    intro other isOther
    rcases List.mem_append.mp isOther with isOther | isOther <;> simp [isOther]
  refine pending.of_rearranges rearranges wellFormed unplaced subset ?_ ?_
  · intro other isOther
    exact ⟨pending.not_liesIn_text wellFormed isMember (subset isOther) (differ other isOther),
      fun holder => pending.not_liesIn_holder wellFormed isMember (subset isOther)
        (differ other isOther)⟩
  · rcases pending.exists_top isMember with ⟨top, isTop, running⟩
    rcases takesOut top isTop running with ⟨ids, ids', whole, whole'⟩
    rcases List.append_of_mem isTop with ⟨earlier, later, rfl⟩
    rcases pending.flatMap_other_tops rearranges fun other isOther differ =>
      pending.not_liesIn_other_top isTop isOther differ
        (liesIn_of_mem_runningTexts wellFormed running) with ⟨sameEarlier, sameLater⟩
    have nodupAll := nodup_flatMap_runningTexts wellFormed pending.nodup_tops pending.detached
    have ordered := pending.ordered
    simp only [List.flatMap_append, List.flatMap_cons, whole, List.append_assoc,
      List.cons_append] at nodupAll ordered
    rw [← List.append_assoc] at nodupAll ordered
    rcases sublist_of_append_cons ordered nodupAll with ⟨leftPart, rightPart⟩
    simp only [List.flatMap_append, List.flatMap_cons, whole', sameEarlier, sameLater]
    rw [List.append_assoc, ← List.append_assoc]
    exact leftPart.append rightPart

end WordTemplate.Document
