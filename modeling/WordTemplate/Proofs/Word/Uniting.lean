import WordTemplate.Proofs.Document.Rewiring
import WordTemplate.Proofs.Total.Steps

/-!
# Uniting paragraphs

Joining a paragraph to another one succeeds unless the other one stands in it. What the paragraph
holds besides its properties goes to the end of the first one, in order and with everything below it.
A section break moves between the properties of the two, and nothing else changes.
-/

namespace WordTemplate

namespace Document

variable {document before middle after : Document} {id child paragraph first second : NodeId}
  {part moved : NodeId → Prop}

/-- What a node holds: its children besides the properties of a paragraph and empty runs. -/
def substance (document : Document) (id : NodeId) : List NodeId :=
  (document.body id).filter (!document.isEmptyRun ·)

/-- Whether a run is empty can be read off its tree. -/
theorem isEmptyRun_tree (wellFormed : document.WellFormed) (id : NodeId) :
    ((document.tree id).isNamed Word.Name.run &&
        (document.tree id).children.all (Tree.isNamed Word.Name.runProperties)) =
      document.isEmptyRun id := by
  rw [isNamed_tree, isEmptyRun]
  rcases named : document.isNamed id Word.Name.run with _ | _
  · rfl
  · rw [children_tree wellFormed named, List.all_map]
    congr 2
    funext child
    exact isNamed_tree document child Word.Name.runProperties

theorem isEmptyRun_eq_of_tree_eq (wellFormed : before.WellFormed) (wellFormed' : after.WellFormed)
    (same : after.tree id = before.tree id) : after.isEmptyRun id = before.isEmptyRun id := by
  rw [← isEmptyRun_tree wellFormed, ← isEmptyRun_tree wellFormed', same]

/-- A node whose children stay has the same body. -/
theorem Rewires.body_eq (rewires : Rewires part moved before after) (wellFormed : before.WellFormed)
    (isOld : id.index < before.size) (untouched : ¬part id) : after.body id = before.body id := by
  rw [body, body, rewires.children_eq id isOld untouched]
  refine List.filter_congr fun child isChild => ?_
  rw [rewires.isNamed_eq (lt_size_of_mem_children wellFormed isChild)]

/-- The properties of a paragraph. -/
def OwnsProperties (document : Document) (paragraph id : NodeId) : Prop :=
  document.parent id = some paragraph ∧
    document.isNamed id Word.Name.paragraphProperties = true

/-- `paragraph` has got properties, unless it had some. -/
structure Equips (before after : Document) (paragraph properties : NodeId) : Prop extends
    Rewires (· = paragraph) (fun _ => False) before after where
  owns : after.OwnsProperties paragraph properties
  body_eq : after.body paragraph = before.body paragraph

theorem Equips.owns_of_old {properties : NodeId}
    (equips : Equips before after paragraph properties)
    (isOld : properties.index < before.size) : before.OwnsProperties paragraph properties := by
  refine ⟨?_, ?_⟩
  · rw [← equips.parent_eq properties isOld not_false, equips.owns.1]
  · rw [← equips.isNamed_eq isOld, equips.owns.2]

/-- The nodes whose child lists may change when a section break goes to `paragraph`. -/
def AdoptionPart (document : Document) (paragraph sectionBreak id : NodeId) : Prop :=
  id = paragraph ∨ document.OwnsProperties paragraph id ∨ document.parent sectionBreak = some id

/-- The nodes that move when a section break goes to `paragraph`. -/
def AdoptionMoved (document : Document) (paragraph sectionBreak id : NodeId) : Prop :=
  id = sectionBreak ∨
    ∃ properties, document.OwnsProperties paragraph properties ∧ document.parent id = some properties

/-- A section break that is placed in the properties of a paragraph, after children of the properties
were dropped, goes to the paragraph. -/
theorem Equips.adopts {ensured dropped : Document} {properties sectionBreak : NodeId}
    {ids : List NodeId} (equips : Equips document ensured paragraph properties)
    (wellFormed : document.WellFormed) (inStore : paragraph.index < document.size)
    (break_lt : sectionBreak.index < document.size)
    (notChild : document.parent sectionBreak ≠ some paragraph)
    (drops : Drops ensured dropped ids) (areOwned : ∀ child ∈ ids, ensured.parent child = some properties)
    (placed : Rewires (fun id => id = properties ∨ dropped.parent sectionBreak = some id)
      (· = sectionBreak) dropped after) :
    Rewires (document.AdoptionPart paragraph sectionBreak)
      (document.AdoptionMoved paragraph sectionBreak) document after ∧
    after.body paragraph = document.body paragraph := by
  have formed := equips.wellFormed
  have breakParent := equips.parent_eq sectionBreak break_lt not_false
  have replaced : Rewires (fun id => id = properties ∨ ensured.parent sectionBreak = some id)
      (fun id => id = sectionBreak ∨ ensured.parent id = some properties) ensured after := by
    refine (drops.rewires formed).trans placed ?_ ?_ ?_ fun id _ => Or.inl
    · rintro id ⟨child, isMember, isParent⟩
      rw [areOwned child isMember, Option.some.injEq] at isParent
      exact Or.inl isParent.symm
    · exact fun id isMember => Or.inr (areOwned id isMember)
    · exact fun id _ => Or.imp_right drops.parent_of_some
  refine ⟨equips.toRewires.trans replaced (fun id => Or.inl) (fun id => False.elim) ?_ ?_, ?_⟩
  · rintro id isOld (rfl | isParent)
    · exact Or.inr (Or.inl (equips.owns_of_old isOld))
    · exact Or.inr (Or.inr (breakParent ▸ isParent))
  · rintro id isOld (same | isParent)
    · exact Or.inl same
    · rw [equips.parent_eq id isOld not_false] at isParent
      exact Or.inr ⟨properties, equips.owns_of_old (parent_lt_size wellFormed isParent), isParent⟩
  · rw [replaced.body_eq formed (Nat.lt_of_lt_of_le inStore equips.size_le), equips.body_eq]
    rintro (same | isParent)
    · exact ne_of_parent formed equips.owns.1 same.symm
    · exact notChild (breakParent ▸ isParent)

/-- The nodes whose child lists may change when `second` is joined to `first`. -/
def JoinPart (document : Document) (first second id : NodeId) : Prop :=
  id = first ∨ id = second ∨ document.OwnsProperties first id ∨ document.OwnsProperties second id

/-- The nodes that may move when `second` is joined to `first`. -/
def JoinMoved (document : Document) (first second id : NodeId) : Prop :=
  document.parent id = some second ∨ ∃ properties,
    (document.OwnsProperties first properties ∨ document.OwnsProperties second properties) ∧
      document.parent id = some properties

section Gathering

variable (gathers : Gathers before after first (before.body second))
include gathers

theorem Gathers.parent_of_ne {parent : NodeId} (isParent : after.parent id = some parent)
    (differ : parent ≠ first) : before.parent id = some parent := by
  rw [gathers.parent_eq] at isParent
  split at isParent
  · rw [Option.some.injEq] at isParent
    exact absurd isParent.symm differ
  · exact isParent

variable (wellFormed : before.WellFormed)
include wellFormed

/-- Properties of paragraphs do not move with a body. -/
theorem Gathers.owns (owns : after.OwnsProperties paragraph id) :
    before.OwnsProperties paragraph id := by
  rcases owns with ⟨isParent, named⟩
  rw [isNamed_of_content_eq (gathers.content_eq id)] at named
  rw [gathers.parent_eq, if_neg] at isParent
  · exact ⟨isParent, named⟩
  · intro isMember
    rw [(mem_body wellFormed isMember).2] at named
    cases named

/-- Gathering the body of `second` is the first part of joining it to `first`. -/
theorem Gathers.rewires_join :
    Rewires (before.JoinPart first second) (before.JoinMoved first second) before after := by
  refine (gathers.rewires wellFormed).mono (fun id isPart => ?_)
    fun id isMember => Or.inl (mem_body wellFormed isMember).1
  rcases isPart with same | ⟨child, isMember, isParent⟩
  · exact Or.inl same
  · rw [(mem_body wellFormed isMember).1, Option.some.injEq] at isParent
    exact Or.inr (Or.inl isParent.symm)

/-- Moving a section break of `second` is the second part. -/
theorem Gathers.rewires_adopt {final : Document} {properties sectionBreak : NodeId}
    (adopting : Rewires (after.AdoptionPart first sectionBreak)
      (after.AdoptionMoved first sectionBreak) after final)
    (owned : before.OwnsProperties second properties)
    (isParent : after.parent sectionBreak = some properties) (differ : properties ≠ first) :
    Rewires (before.JoinPart first second) (before.JoinMoved first second) before final := by
  refine (gathers.rewires_join wellFormed).trans adopting (fun _ => id) (fun _ => id) ?_ ?_
  · rintro id - (same | isOwned | isBreakParent)
    · exact Or.inl same
    · exact Or.inr (Or.inr (Or.inl (gathers.owns wellFormed isOwned)))
    · rw [isParent, Option.some.injEq] at isBreakParent
      exact Or.inr (Or.inr (Or.inr (isBreakParent ▸ owned)))
  · rintro id - (rfl | ⟨own, isOwned, isOwnedParent⟩)
    · exact Or.inr ⟨properties, Or.inr owned, gathers.parent_of_ne isParent differ⟩
    · exact Or.inr ⟨own, Or.inl (gathers.owns wellFormed isOwned),
        gathers.parent_of_ne isOwnedParent (ne_of_parent gathers.wellFormed isOwned.1)⟩

/-- The body of `second` has been gathered at the end of `first`. -/
theorem Gathers.body_eq (differ : first ≠ second) :
    after.body first = before.body first ++ before.body second := by
  have sameName : (!after.isNamed · Word.Name.paragraphProperties) =
      (!before.isNamed · Word.Name.paragraphProperties) := by
    funext id
    rw [isNamed_of_content_eq (gathers.content_eq id)]
  have kept : (before.children first).filter (· ∉ before.body second) = before.children first := by
    refine List.filter_eq_self.mpr fun child isChild => ?_
    rw [decide_eq_true_eq]
    intro isMember
    have isParent := (mem_body wellFormed isMember).1
    rw [(wellFormed.mem_children_iff _ _).mp isChild, Option.some.injEq] at isParent
    exact differ isParent
  rw [body, sameName, gathers.children_eq, if_pos rfl, kept, List.filter_append, ← body, body,
    body, List.filter_filter]
  simp only [Bool.and_self]

end Gathering

end Document

namespace Edit

open Outcome Document

variable {document : Document} {paragraph properties sectionBreak first second : NodeId}

/-- A new element of properties can be placed in a paragraph. -/
theorem insertChild_equips (wellFormed : document.WellFormed)
    (inStore : paragraph.index < document.size) (index : Nat) :
    Succeeds (do
        insertChild paragraph index document.nextId
        return document.nextId)
      (document.add (.element { name := Word.Name.paragraphProperties }))
      fun properties after => Equips document after paragraph properties := by
  have added := rewires_add wellFormed (.element { name := Word.Name.paragraphProperties })
  have named := content_add document (.element { name := Word.Name.paragraphProperties })
    document.nextId
  have detached := parent_add document (.element { name := Word.Name.paragraphProperties })
    document.nextId
  have children_eq := children_add document (.element { name := Word.Name.paragraphProperties })
    paragraph
  have created_lt := nextId_lt_size_add document (.element { name := Word.Name.paragraphProperties })
  rw [if_pos rfl] at named
  rw [parent_nextId] at detached
  generalize document.add (.element { name := Word.Name.paragraphProperties }) = created at *
  have outside : ¬created.LiesIn document.nextId paragraph := by
    rw [added.liesIn_iff wellFormed inStore fun _ _ => not_false]
    exact fun inside => Nat.lt_irrefl _ (lt_size_of_liesIn wellFormed inside inStore)
  rcases exists_moves_insertChild added.wellFormed (Nat.lt_of_lt_of_le inStore added.size_le)
    created_lt outside index with ⟨after, left, right, done, moves⟩
  have inserted := moves.rewires added.wellFormed
  have rewires : Rewires (· = paragraph) (fun _ => False) document after := by
    refine added.trans inserted (fun _ => False.elim) (fun _ => False.elim) ?_ ?_
    · rintro id - (isParagraph | isParent)
      · exact isParagraph
      · rw [detached] at isParent
        cases isParent
    · rintro id isOld rfl
      exact Nat.lt_irrefl _ isOld
  have named' : after.isNamed document.nextId Word.Name.paragraphProperties = true := by
    rw [moves.isNamed_eq, isNamed, name?, element?, named]
    rfl
  have others := moves.others_eq
  rw [filter_children_of_parent_none added.wellFormed detached, children_eq] at others
  refine Succeeds.of_step done (Succeeds.of_pure ⟨rewires, ⟨?_, named'⟩, ?_⟩)
  · rw [moves.parent_eq, if_pos rfl]
  · rw [body, body, moves.children_eq, if_pos rfl, List.filter_append,
      List.filter_cons_of_neg (by simp [named']), ← List.filter_append, ← others]
    refine List.filter_congr fun child isChild => ?_
    rw [rewires.isNamed_eq (lt_size_of_mem_children wellFormed isChild)]

theorem ensureProperties_equips (wellFormed : document.WellFormed)
    (inStore : paragraph.index < document.size) :
    Succeeds (ensureProperties paragraph Word.Name.paragraphProperties []) document
      fun properties after => Equips document after paragraph properties := by
  refine Succeeds.of_get ?_
  rcases found : document.childNamed? paragraph Word.Name.paragraphProperties with _ | existing
  · refine Succeeds.of_step rfl (Edit.insertChild_equips wellFormed inStore _)
  · exact Succeeds.of_pure ⟨Rewires.refl wellFormed, parent_of_childNamed? wellFormed found, rfl⟩

/-- A section break can be placed in properties that do not stand in it. -/
theorem placedBreak_rewires (wellFormed : document.WellFormed)
    (named : document.isNamed sectionBreak Word.Name.sectionProperties = true)
    (inStore : properties.index < document.size) (outside : ¬document.LiesIn sectionBreak properties) :
    Succeeds (match document.childNamed? properties Word.Name.paragraphPropertiesChange with
      | some change => insertBefore sectionBreak change
      | none => appendChild properties sectionBreak) document fun _ after =>
        Rewires (fun id => id = properties ∨ document.parent sectionBreak = some id)
          (· = sectionBreak) document after := by
  have break_lt := lt_size_of_isNamed named
  rcases found : document.childNamed? properties Word.Name.paragraphPropertiesChange with _ | change
  · rcases exists_moves_appendChild wellFormed inStore break_lt outside with ⟨after, done, moves⟩
    exact Succeeds.of_done done (moves.rewires wellFormed)
  · rcases parent_of_childNamed? wellFormed found with ⟨isParent, changeNamed⟩
    have differ : sectionBreak ≠ change := by
      rintro rfl
      rw [isNamed_eq_false named (by decide)] at changeNamed
      cases changeNamed
    rcases exists_moves_insertBefore wellFormed isParent break_lt differ outside with
      ⟨after, left, right, done, moves⟩
    exact Succeeds.of_done done (moves.rewires wellFormed)

/-- A paragraph can take over a section break that it neither stands in nor has as a child. -/
theorem adoptSectionBreak_rewires (wellFormed : document.WellFormed)
    (inStore : paragraph.index < document.size)
    (named : document.isNamed sectionBreak Word.Name.sectionProperties = true)
    (outside : ¬document.LiesIn sectionBreak paragraph)
    (notChild : document.parent sectionBreak ≠ some paragraph) :
    Succeeds (adoptSectionBreak paragraph sectionBreak) document fun _ after =>
      Rewires (document.AdoptionPart paragraph sectionBreak)
        (document.AdoptionMoved paragraph sectionBreak) document after ∧
      after.body paragraph = document.body paragraph := by
  have break_lt := lt_size_of_isNamed named
  refine (ensureProperties_equips wellFormed inStore).bind fun properties ensured _ equips => ?_
  have formed := equips.wellFormed
  have properties_lt := lt_size_of_parent equips.owns.1
  have named' : ensured.isNamed sectionBreak Word.Name.sectionProperties = true := by
    rw [equips.isNamed_eq break_lt, named]
  have notAbove : ¬ensured.LiesIn sectionBreak properties := by
    intro inside
    rcases inside.cases_above equips.owns.1 with rfl | inside
    · have named'' := equips.owns.2
      rw [isNamed_eq_false named' (by decide)] at named''
      cases named''
    · exact outside ((equips.liesIn_iff wellFormed inStore fun _ _ => not_false).mp inside)
  -- The section break that the paragraph had, if any, is dropped before the new one is placed.
  have placing : ∀ dropped ids, Drops ensured dropped ids →
      (∀ child ∈ ids, ensured.parent child = some properties) →
      Succeeds (match dropped.childNamed? properties Word.Name.paragraphPropertiesChange with
        | some change => insertBefore sectionBreak change
        | none => appendChild properties sectionBreak) dropped fun _ after =>
          Rewires (document.AdoptionPart paragraph sectionBreak)
            (document.AdoptionMoved paragraph sectionBreak) document after ∧
          after.body paragraph = document.body paragraph := by
    intro dropped ids drops areOwned
    have dropping := drops.rewires formed
    refine (placedBreak_rewires drops.wellFormed (by rw [dropping.isNamed_eq
      (Nat.lt_of_lt_of_le break_lt equips.size_le), named']) (by rwa [drops.size_eq])
      fun inside => notAbove (drops.liesIn inside)).imp fun _ after _ placed => ?_
    exact equips.adopts wellFormed inStore break_lt notChild drops areOwned placed
  refine Succeeds.of_get ?_
  rcases found : ensured.childNamed? properties Word.Name.sectionProperties with _ | previous
  · exact Succeeds.of_get (placing ensured [] ⟨formed, rfl, rfl, fun _ => rfl, by simp, by simp⟩ (by simp))
  · have isParent := (parent_of_childNamed? formed found).1
    exact Succeeds.of_step (a := ⟨⟩) (detach_eq_ok.mpr rfl) (Succeeds.of_get (placing _ [previous]
      (drops_detach formed previous) (by simpa using isParent)))

/-- A paragraph can be joined to another one that does not stand in it. -/
theorem joinParagraphs_rewires (wellFormed : document.WellFormed)
    (inStore : first.index < document.size) (outside : ¬document.LiesIn second first) :
    Succeeds (joinParagraphs first second) document fun _ after =>
      Rewires (document.JoinPart first second) (document.JoinMoved first second) document after ∧
        after.body first = document.body first ++ document.body second := by
  have differ : first ≠ second := by
    rintro rfl
    exact outside LiesIn.refl
  rw [joinParagraphs, if_neg differ]
  refine Succeeds.of_get ?_
  have isOfSecond : ∀ child ∈ document.body second, document.parent child = some second :=
    fun child isMember => (mem_body wellFormed isMember).1
  have notAbove : ∀ child ∈ document.body second, ¬document.LiesIn child first :=
    fun child isMember inside => outside (inside.trans (LiesIn.parent (isOfSecond child isMember)))
  rcases exists_gathers wellFormed inStore
    (fun child isMember => lt_size_of_parent (isOfSecond child isMember))
    ((wellFormed.nodup_children second).filter _) notAbove with ⟨gathered, gatherDone, gathers⟩
  have united := gathers.body_eq wellFormed differ
  refine Succeeds.of_step gatherDone (Succeeds.of_get ?_)
  rcases found : gathered.paragraphProperty? second Word.Name.sectionProperties with
    _ | sectionBreak
  · exact Succeeds.of_pure ⟨gathers.rewires_join wellFormed, united⟩
  rcases parent_of_paragraphProperty? gathers.wellFormed found with
    ⟨properties, isParent, propertiesNamed, breakParent, named⟩
  have owned := gathers.owns wellFormed ⟨isParent, propertiesNamed⟩
  have properties_ne : properties ≠ first := by
    rintro rfl
    exact outside (LiesIn.parent owned.1)
  have breakElsewhere : gathered.parent sectionBreak ≠ some first := by
    rw [breakParent, ne_eq, Option.some.injEq]
    exact properties_ne
  -- The section break lies in the second paragraph, so the first one does not stand in it.
  have breakOutside : ¬gathered.LiesIn sectionBreak first := by
    have parentsAbove : ∀ other, document.LiesIn other first →
        gathered.parent other = document.parent other := fun other above => by
      rw [gathers.parent_eq, if_neg fun isMember => notAbove other isMember above]
    rw [liesIn_iff_of_parent_eq parentsAbove]
    exact fun inside => outside (inside.trans
      ((LiesIn.parent (gathers.parent_of_ne breakParent properties_ne)).trans (LiesIn.parent owned.1)))
  refine (adoptSectionBreak_rewires gathers.wellFormed (by rwa [gathers.size_eq]) named breakOutside
    breakElsewhere).imp fun _ after _ adopted => ?_
  exact ⟨gathers.rewires_adopt wellFormed adopted.1 owned breakParent properties_ne,
    adopted.2.trans united⟩

end Edit

end WordTemplate
