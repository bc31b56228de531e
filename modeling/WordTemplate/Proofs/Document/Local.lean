import WordTemplate.Proofs.Document.Pending

/-!
# Changes below one node

What an edit does below one node shows in the running text of a tree around it at one place. The
zone of such an edit consists of that node, what is below it and the nodes that are still to be
added.
-/

namespace WordTemplate.Document

variable {zone : NodeId → Prop} {rights : Rights} {document before after : Document}
  {id top pivot : NodeId}

/-- The zone of a node: the node, what is below it and what is still to be added. -/
def Below (document : Document) (pivot id : NodeId) : Prop :=
  document.LiesIn pivot id ∨ document.size ≤ id.index

theorem closed_below (wellFormed : document.WellFormed)
    (freshPlaces : ∀ id, document.size ≤ id.index → rights.places id) (pivot : NodeId) :
    document.Closed (document.Below pivot) rights where
  child := by
    intro child parent isParent below
    rcases below with inside | beyond
    · exact Or.inl (LiesIn.of_parent isParent inside)
    · exact absurd (parent_lt_size wellFormed isParent) (Nat.not_lt_of_le beyond)
  fresh beyond := Or.inr beyond
  freshPlaces := freshPlaces _

theorem closed_two (wellFormed : document.WellFormed)
    (freshPlaces : ∀ id, document.size ≤ id.index → rights.places id) (first second : NodeId) :
    document.Closed (fun id => document.LiesIn first id ∨ document.Below second id) rights where
  child isParent inPart := inPart.imp (LiesIn.of_parent isParent)
    ((closed_below wellFormed freshPlaces second).child isParent)
  fresh beyond := Or.inr (Or.inr beyond)
  freshPlaces := freshPlaces _

/-- Whatever is strictly above a node is outside its zone. -/
theorem not_below_of_liesIn (wellFormed : document.WellFormed)
    (inStore : pivot.index < document.size) (above : document.LiesIn id pivot) (differ : id ≠ pivot) :
    ¬document.Below pivot id := by
  rintro (inside | beyond)
  · exact differ (inside.antisymm wellFormed above)
  · exact absurd (lt_size_of_liesIn wellFormed above inStore) (Nat.not_lt_of_le beyond)

/-- A change below one node shows in a tree around it at one place. -/
theorem ChangesWithin.runningTexts_below
    (changes : ChangesWithin (before.Below pivot) rights before after)
    (wellFormed : before.WellFormed) (inStore : top.index < before.size)
    (inside : before.LiesIn top pivot)
    (shown : ∀ id, before.LiesIn top id → before.LiesIn id pivot → id ≠ pivot →
      before.showsChildren id = true) :
    ∃ left right, before.runningTexts top = left ++ before.runningTexts pivot ++ right ∧
      after.runningTexts top = left ++ after.runningTexts pivot ++ right := by
  refine changes.runningTexts_around wellFormed inside shown fun id below inZone => ?_
  exact inZone.resolve_right (Nat.not_le_of_lt (lt_size_below below inStore))

/-- The running text below a node stands in that of a tree around it at one place. -/
theorem runningTexts_split (wellFormed : document.WellFormed) (inStore : top.index < document.size)
    (inside : document.LiesIn top pivot)
    (shown : ∀ id, document.LiesIn top id → document.LiesIn id pivot → id ≠ pivot →
      document.showsChildren id = true) :
    ∃ left right, document.runningTexts top = left ++ document.runningTexts pivot ++ right := by
  have closed : document.Closed (document.Below pivot)
      ⟨fun _ => False, fun _ => True⟩ := closed_below wellFormed (by simp) pivot
  rcases (ChangesWithin.refl wellFormed closed).runningTexts_below wellFormed inStore inside shown
    with ⟨left, right, whole, -⟩
  exact ⟨left, right, whole⟩

/-- The nodes above a node depend on nothing but the parents of these nodes. -/
theorem liesIn_iff_of_parent_eq
    (parent_eq : ∀ node, before.LiesIn node pivot → after.parent node = before.parent node) :
    after.LiesIn id pivot ↔ before.LiesIn id pivot := by
  constructor
  · intro above
    induction above with
    | refl => exact LiesIn.refl
    | @tail node parent _ isParent inductionHypothesis =>
        have isParent : after.parent node = some parent := isParent
        rw [parent_eq node inductionHypothesis] at isParent
        exact inductionHypothesis.trans (LiesIn.parent isParent)
  · intro above
    induction above with
    | refl => exact LiesIn.refl
    | @tail node parent aboveNode isParent inductionHypothesis =>
        have isParent : before.parent node = some parent := isParent
        rw [← parent_eq node aboveNode] at isParent
        exact inductionHypothesis.trans (LiesIn.parent isParent)

/-- A change that spares what is strictly above a node moves nothing above the node. -/
theorem ChangesWithin.liesIn_iff (changes : ChangesWithin zone rights before after)
    (wellFormed : before.WellFormed) (closed : before.Closed zone rights)
    (spared : ∀ id, before.LiesIn id pivot → id ≠ pivot → ¬zone id)
    (detached : before.parent pivot = none → after.parent pivot = none) :
    after.LiesIn id pivot ↔ before.LiesIn id pivot := by
  refine liesIn_iff_of_parent_eq fun node aboveNode => ?_
  by_cases same : node = pivot
  · subst same
    rcases isParent : before.parent node with _ | parent
    · exact detached isParent
    · have outside := spared parent (LiesIn.parent isParent)
        (ne_of_parent wellFormed isParent).symm
      rw [← changes.wellFormed.mem_children_iff, changes.children_eq outside,
        wellFormed.mem_children_iff, isParent]
  · exact changes.parent_eq wellFormed closed (spared node aboveNode same)

end WordTemplate.Document
