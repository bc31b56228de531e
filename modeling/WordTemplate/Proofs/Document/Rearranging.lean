import WordTemplate.Proofs.Document.Neutral
import WordTemplate.Word.Structure

/-!
# Rearrangements

Splitting, joining and merging change the running text below some nodes and leave that of all others
as it is. The nodes that an edit touches in this way are a parameter, like the zone it stays in.
-/

namespace WordTemplate.Document

variable {zone zone' touched touched' : NodeId → Prop} {rights rights' : Rights}
  {document before middle after : Document} {id holder : NodeId}

/-- A change within a zone is a change within every larger one. -/
theorem ChangesWithin.mono (changes : ChangesWithin zone rights before after)
    (wellFormed : before.WellFormed) (closed : before.Closed zone' rights')
    (zone_le : ∀ id, zone id → zone' id)
    (rights_le : rights.Within before rights') :
    ChangesWithin zone' rights' before after where
  wellFormed := changes.wellFormed
  closed := {
    child := by
      intro child parent isParent inZone
      by_cases inSmaller : zone parent
      · exact zone_le child (changes.closed.child isParent inSmaller)
      · rw [← changes.wellFormed.mem_children_iff, changes.children_eq inSmaller,
          wellFormed.mem_children_iff] at isParent
        exact closed.child isParent inZone
    fresh := fun beyond => closed.fresh (Nat.le_trans changes.size_le beyond)
    freshPlaces := fun beyond => closed.freshPlaces (Nat.le_trans changes.size_le beyond) }
  size_le := changes.size_le
  root_eq := changes.root_eq
  children_eq outside := changes.children_eq fun inZone => outside (zone_le _ inZone)
  content_eq outside := changes.content_eq fun inZone => outside (zone_le _ inZone)
  name_eq := changes.name_eq
  isText_eq := changes.isText_eq
  text_eq inStore unallowed :=
    changes.text_eq inStore fun allowed => unallowed (rights_le.writes _ inStore allowed)
  detached unallowed inStore :=
    changes.detached (fun allowed => unallowed (rights_le.places _ inStore allowed)) inStore

/-- An edit within `zone` that keeps the running text below every node that is not among `touched`,
and brings no text node into another text element unless the node or its own element is touched. -/
structure Rearranges (zone : NodeId → Prop) (rights : Rights) (touched : NodeId → Prop)
    (before after : Document) :
    Prop extends ChangesWithin zone rights before after where
  runningTexts_eq : ∀ {id}, id.index < before.size → ¬touched id →
    after.runningTexts id = before.runningTexts id
  holder_eq : ∀ {id holder}, id.index < before.size → ¬touched id → before.isText id = true →
    after.parent id = some holder → after.isNamed holder Word.Name.text = true →
    before.parent id = some holder ∨
      ∃ old, touched old ∧ before.parent id = some old ∧ before.isNamed old Word.Name.text = true

theorem Neutral.rearranges (neutral : Neutral zone rights before after) :
    Rearranges zone rights touched before after where
  toChangesWithin := neutral.toChangesWithin
  runningTexts_eq inStore _ := neutral.runningTexts_eq inStore
  holder_eq inStore _ isText isParent isHolder :=
    Or.inl (neutral.holder_eq inStore isText isParent isHolder)

namespace Rearranges

theorem refl (wellFormed : document.WellFormed) (closed : document.Closed zone rights) :
    Rearranges zone rights touched document document :=
  (Neutral.refl wellFormed closed).rearranges

theorem trans (first : Rearranges zone rights touched before middle)
    (second : Rearranges zone rights touched middle after) (wellFormed : before.WellFormed) :
    Rearranges zone rights touched before after where
  toChangesWithin := first.toChangesWithin.trans second.toChangesWithin
  runningTexts_eq inStore untouched :=
    (second.runningTexts_eq (Nat.lt_of_lt_of_le inStore first.size_le) untouched).trans
      (first.runningTexts_eq inStore untouched)
  holder_eq := by
    intro id holder inStore untouched isText isParent isHolder
    have inStore' := Nat.lt_of_lt_of_le inStore first.size_le
    have isText' : middle.isText id = true := by rw [first.isText_eq inStore, isText]
    rcases second.holder_eq inStore' untouched isText' isParent isHolder with
      isParent' | ⟨old, isTouched, isParent', isOld⟩
    · refine first.holder_eq inStore untouched isText isParent' ?_
      rwa [← second.isNamed_eq (parent_lt_size first.wellFormed isParent')]
    · rcases first.holder_eq inStore untouched isText isParent' isOld with isParent'' | older
      · rw [first.isNamed_eq (parent_lt_size wellFormed isParent'')] at isOld
        exact Or.inr ⟨old, isTouched, isParent'', isOld⟩
      · exact Or.inr older

/-- What touches some nodes touches no others. -/
theorem touching (rearranges : Rearranges zone rights touched before after)
    (wellFormed : before.WellFormed) (touched' : NodeId → Prop)
    (touched_le : ∀ id, id.index < before.size → touched id → touched' id) :
    Rearranges zone rights touched' before after where
  toChangesWithin := rearranges.toChangesWithin
  runningTexts_eq inStore untouched :=
    rearranges.runningTexts_eq inStore fun isTouched => untouched (touched_le _ inStore isTouched)
  holder_eq inStore untouched isText isParent isHolder := by
    rcases rearranges.holder_eq inStore
      (fun isTouched => untouched (touched_le _ inStore isTouched)) isText isParent isHolder with
      same | ⟨old, isTouched, isParent', isOld⟩
    · exact Or.inl same
    · exact Or.inr ⟨old, touched_le old (parent_lt_size wellFormed isParent') isTouched, isParent',
        isOld⟩

theorem flatMap_eq (rearranges : Rearranges zone rights touched before after) {ids : List NodeId}
    (inStore : ∀ id ∈ ids, id.index < before.size) (untouched : ∀ id ∈ ids, ¬touched id) :
    ids.flatMap after.runningTexts = ids.flatMap before.runningTexts :=
  List.flatMap_congr fun id isMember =>
    rearranges.runningTexts_eq (inStore id isMember) (untouched id isMember)

end Rearranges

/-- Dropping nodes touches what is above them. -/
theorem Drops.rearranges {ids : List NodeId} (drops : Drops before after ids)
    (wellFormed : before.WellFormed) (closed : before.Closed zone rights)
    (movable : ∀ id ∈ ids, before.Movable zone rights id)
    (above : ∀ id, ∀ child ∈ ids, before.LiesIn id child → id ≠ child → touched id) :
    Rearranges zone rights touched before after where
  toChangesWithin := drops.changesWithin wellFormed closed movable
  runningTexts_eq _ untouched := drops.runningTexts_eq wellFormed fun child isMember inside => by
    by_contra differ
    exact untouched (above _ child isMember inside differ)
  holder_eq _ _ _ isParent _ := Or.inl (drops.parent_of_some isParent)

/-- A change within a zone touches what is above the zone at most. -/
theorem ChangesWithin.rearranges (changes : ChangesWithin zone rights before after)
    (wellFormed : before.WellFormed) (closed : before.Closed zone rights)
    (above : ∀ id other, before.LiesIn id other → zone other → touched id) :
    Rearranges zone rights touched before after where
  toChangesWithin := changes
  runningTexts_eq _ untouched := changes.runningTexts_eq_of_outside wellFormed
    fun other inside inZone => untouched (above _ other inside inZone)
  holder_eq := by
    intro id holder _ untouched _ isParent _
    refine Or.inl ?_
    rwa [changes.parent_eq wellFormed closed fun inZone => untouched (above id id LiesIn.refl inZone)]
      at isParent

/-! ## Text nodes and their carriers -/

/-- A text node whose carrier has no other running text. -/
def Solitary (document : Document) (id : NodeId) : Prop :=
  document.isText id = true ∧ document.runningTexts (document.textUnit id) = [id]

/-- The carrier of a text node is the text element around it or the node itself. -/
theorem textUnit_cases (document : Document) (id : NodeId) :
    (document.textUnit id = id ∧
        ∀ holder, document.parent id = some holder →
          document.isNamed holder Word.Name.text = false) ∨
      (document.parent id = some (document.textUnit id) ∧
        document.isNamed (document.textUnit id) Word.Name.text = true) := by
  rcases isParent : document.parent id with _ | holder
  · simp [textUnit, textElement?, isParent]
  · by_cases named : document.isNamed holder Word.Name.text = true
    · simp [textUnit, textElement?, isParent, named, Option.filter]
    · simp [textUnit, textElement?, isParent, named, Option.filter]

theorem liesIn_textUnit (document : Document) (id : NodeId) :
    document.LiesIn (document.textUnit id) id := by
  rcases textUnit_cases document id with ⟨same, -⟩ | ⟨isParent, -⟩
  · rw [same]
  · exact LiesIn.parent isParent

theorem solitary_iff (isText : document.isText id = true) :
    document.Solitary id ↔ ∀ holder, document.parent id = some holder →
      document.isNamed holder Word.Name.text = true → document.runningTexts holder = [id] := by
  rw [Solitary, and_iff_right isText]
  rcases textUnit_cases document id with ⟨same, notHolder⟩ | ⟨isParent, named⟩
  · rw [same, runningTexts_of_isText isText]
    refine iff_of_true rfl fun holder isHolder isNamed => ?_
    simp [notHolder holder isHolder] at isNamed
  · constructor
    · intro texts holder isHolder _
      rw [isParent, Option.some.injEq] at isHolder
      exact isHolder ▸ texts
    · exact fun solitary => solitary _ isParent named

/-- A text node stays alone in its text element if that is not touched. -/
theorem Rearranges.solitary (rearranges : Rearranges zone rights touched before after)
    (wellFormed : before.WellFormed) (isOld : id.index < before.size)
    (solitary : before.Solitary id) (textUntouched : ¬touched id)
    (untouched : ∀ holder, before.parent id = some holder →
      before.isNamed holder Word.Name.text = true → ¬touched holder) :
    after.Solitary id := by
  rw [solitary_iff (by rw [rearranges.isText_eq isOld, solitary.1])]
  intro holder isHolder named
  rcases rearranges.holder_eq isOld textUntouched solitary.1 isHolder named with
    isHolder | ⟨old, isTouched, isParent, isOldHolder⟩
  · have holder_lt := parent_lt_size wellFormed isHolder
    rw [rearranges.isNamed_eq holder_lt] at named
    rw [rearranges.runningTexts_eq holder_lt (untouched holder isHolder named)]
    exact (solitary_iff solitary.1).mp solitary holder isHolder named
  · exact absurd isTouched (untouched old isParent isOldHolder)

/-- A text node stays alone in its text element if nothing around is in the zone. -/
theorem ChangesWithin.solitary_of_outside (changes : ChangesWithin zone rights before after)
    (wellFormed : before.WellFormed) (closed : before.Closed zone rights) {top : NodeId}
    (detached : before.parent top = none) (outside : ∀ id, before.LiesIn top id → ¬zone id)
    (inside : before.LiesIn top id) (solitary : before.Solitary id) : after.Solitary id := by
  have rearranges : Rearranges zone rights (fun id => ∃ other, before.LiesIn id other ∧ zone other)
      before after :=
    changes.rearranges wellFormed closed fun id other below inZone => ⟨other, below, inZone⟩
  refine rearranges.solitary wellFormed (closed.lt_size (outside id inside)) solitary ?_ ?_
  · rintro ⟨other, below, inZone⟩
    exact outside other (below.trans inside) inZone
  · rintro holder isHolder - ⟨other, below, inZone⟩
    rcases inside.cases_above isHolder with rfl | inside
    · simp [detached] at isHolder
    · exact outside other (below.trans inside) inZone

section Moves

variable {node parent : NodeId} {left right : List NodeId}
  (moves : Moves before after node parent left right) (wellFormed : before.WellFormed)
  (detached : before.parent node = none)
include moves wellFormed detached

/-- A move of a detached node touches what is above its new place. -/
theorem Moves.runningTexts_eq (notAbove : ¬before.LiesIn id parent) :
    after.runningTexts id = before.runningTexts id := by
  refine runningTexts_eq_of_children (before.LiesIn id) wellFormed moves.wellFormed
    ?_ ?_ ?_ ?_ LiesIn.refl
  · exact fun id inside child isChild =>
      LiesIn.of_parent ((wellFormed.mem_children_iff _ _).mp isChild) inside
  · exact fun id _ => by simp only [isText, text?, moves.content_eq]
  · exact fun id _ => isProperties_of_content_eq (moves.content_eq _)
  · intro other inside _ sameBelow
    have notParent : other ≠ parent := by
      rintro rfl
      exact notAbove inside
    rw [moves.children_eq, if_neg notParent, filter_children_of_parent_none wellFormed detached]
    exact List.flatMap_congr sameBelow

/-- A detached node that is moved adds running text and removes none. -/
theorem Moves.sublist_runningTexts (id : NodeId) :
    (before.runningTexts id).Sublist (after.runningTexts id) := by
  induction id using wellFormed.induction_children with
  | step id inductionHypothesis =>
      have isText_eq : after.isText id = before.isText id := by
        simp only [isText, text?, moves.content_eq]
      have isProperties_eq : after.isProperties id = before.isProperties id := by
        exact isProperties_of_content_eq (moves.content_eq _)
      have children : (before.children id).Sublist (after.children id) := by
        rw [moves.children_eq]
        split
        case isTrue same =>
            subst same
            rw [← filter_children_of_parent_none wellFormed detached, moves.others_eq]
            exact (List.sublist_cons_self node right).append_left left
        case isFalse => rw [filter_children_of_parent_none wellFormed detached]
      rw [Document.runningTexts_eq wellFormed, Document.runningTexts_eq moves.wellFormed, isText_eq,
        isProperties_eq]
      split
      · exact List.Sublist.refl _
      · split
        · exact List.Sublist.refl _
        · exact sublist_flatMap children inductionHypothesis

end Moves

end WordTemplate.Document
