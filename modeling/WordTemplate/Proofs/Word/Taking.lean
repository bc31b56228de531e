import WordTemplate.Proofs.Document.Local
import WordTemplate.Proofs.Word.Properties

/-!
# Taking a tag out

Detaching the carrier of a text node takes that text node out of the running text and nothing else,
provided that the carrier holds no other running text.
-/

namespace WordTemplate.Document

variable {zone : NodeId → Prop} {rights : Rights} {document before middle after : Document}
  {id text pivot parent holder : NodeId} {tops left right : List NodeId}

/-- The carrier of a text node lies below every element above the text node that is no text
element. -/
theorem liesIn_textUnit_of_isNamed {name : String} (above : document.LiesIn pivot text)
    (named : document.isNamed pivot name = true) (notText : name ≠ Word.Name.text)
    (isText : document.isText text = true) :
    document.LiesIn pivot (document.textUnit text) ∧ pivot ≠ document.textUnit text := by
  have differ : pivot ≠ text := by
    rintro rfl
    rw [isText_eq_false_of_isNamed named] at isText
    simp at isText
  rcases textUnit_cases document text with ⟨same, -⟩ | ⟨isParent, isHolder⟩
  · rw [same]
    exact ⟨above, differ⟩
  · constructor
    · exact (above.cases_above isParent).resolve_left (Ne.symm differ)
    · rintro same
      rw [← same, isNamed_eq_false named notText] at isHolder
      simp at isHolder

/-- `text` left the running text with its carrier, and the others stay pending. -/
structure Taken (zone : NodeId → Prop) (rights : Rights) (before after : Document)
    (tops left right : List NodeId) (text : NodeId) : Prop extends
    Rearranges zone rights (before.LiesIn · text) before after where
  pending : after.Pending tops (left ++ right)
  texts : ∀ id, id.index < before.size → ¬before.LiesIn (before.textUnit text) id →
    after.runningTexts id = (before.runningTexts id).filter (· != text)

theorem Taken.neutral (taken : Taken zone rights before middle tops left right text)
    (neutral : Neutral zone rights middle after) (wellFormed : before.WellFormed)
    (unplaced : ∀ top ∈ tops, ¬rights.places top) :
    Taken zone rights before after tops left right text where
  toRearranges := taken.toRearranges.trans neutral.rearranges wellFormed
  pending := taken.pending.neutral neutral taken.wellFormed unplaced
  texts id isOld outside := by
    rw [neutral.runningTexts_eq (Nat.lt_of_lt_of_le isOld taken.size_le), taken.texts id isOld outside]

/-- What is above another pending text node stays there. -/
theorem Taken.liesIn {other : NodeId} (taken : Taken zone rights before after tops left right text)
    (wellFormed : before.WellFormed) (pending : before.Pending tops (left ++ text :: right))
    (isOther : other ∈ left ++ right) (above : before.LiesIn id other) :
    after.LiesIn id other := by
  have isMember : text ∈ left ++ text :: right := by simp
  have isOther' : other ∈ left ++ text :: right := by
    simp only [List.mem_append, List.mem_cons] at isOther ⊢
    tauto
  have differ : other ≠ text := by
    rintro rfl
    have nodup := pending.nodup_texts wellFormed
    rw [List.nodup_middle, List.nodup_cons] at nodup
    exact nodup.1 isOther
  -- The carrier has no other running text.
  have outside : ¬before.LiesIn (before.textUnit text) id := by
    intro inside
    have running := pending.mem_runningTexts wellFormed isOther' (above.trans inside)
    rw [(pending.solitary text isMember).2, List.mem_singleton] at running
    exact differ running
  have running : other ∈ after.runningTexts id := by
    rw [taken.texts id (lt_size_of_liesIn wellFormed above (pending.lt_size wellFormed isOther'))
      outside, List.mem_filter]
    exact ⟨pending.mem_runningTexts wellFormed isOther' above, by simpa using differ⟩
  exact liesIn_of_mem_runningTexts taken.wellFormed running

/-- Detaching the carrier of a pending text node takes that text node out. -/
theorem taken_of_detach (wellFormed : document.WellFormed) (closed : document.Closed zone rights)
    (unplaced : ∀ top ∈ tops, ¬rights.places top)
    (pending : document.Pending tops (left ++ text :: right))
    (isParent : document.parent (document.textUnit text) = some parent) (inZone : zone parent) :
    Taken zone rights document (document.detach (document.textUnit text)) tops left right text := by
  have isMember : text ∈ left ++ text :: right := by simp
  rcases pending.solitary text isMember with ⟨isText, alone⟩
  have movable : document.Movable zone rights (document.textUnit text) :=
    movable_of_parent isParent inZone
  have drops := drops_detach wellFormed (document.textUnit text)
  have rearranges : Rearranges zone rights (document.LiesIn · text) document
      (document.detach (document.textUnit text)) := by
    refine drops.rearranges wellFormed closed (by simpa using movable) ?_
    intro id child isChild inside _
    rw [List.mem_singleton] at isChild
    subst isChild
    exact (liesIn_textUnit document text).trans inside
  have texts : ∀ id, ¬document.LiesIn (document.textUnit text) id →
      (document.detach (document.textUnit text)).runningTexts id =
        (document.runningTexts id).filter (· != text) := fun id =>
    runningTexts_detach_of_single wellFormed alone
  refine ⟨rearranges, pending.of_takesOut rearranges wellFormed unplaced ?_, fun id _ => texts id⟩
  intro top isTop running
  rcases List.append_of_mem running with ⟨before, after, whole⟩
  refine ⟨before, after, whole, ?_⟩
  have nodup := nodup_runningTexts wellFormed top
  rw [whole] at nodup
  rw [texts top, whole, filter_ne_append_cons nodup]
  intro inside
  have same := inside.eq_of_parent_none (pending.detached top isTop)
  rw [← same, pending.detached top isTop] at isParent
  simp at isParent

end WordTemplate.Document
