import WordTemplate.Proofs.Total.Hiding
import WordTemplate.Proofs.Word.Demands

/-!
# Edits that meet demands

Each of the edits that look for properties or for a flag ensures one child: it is there, or it is
added in its place. One after the other they meet a demanded path, and the document grows by what was
missing.
-/

namespace WordTemplate

namespace Document

variable {demands : Demands} {document before middle after : Document} {id parent child : NodeId}
  {requirement : Requirement} {path rest : List Requirement} {content : Content}
  {left right : List NodeId}

theorem not_liesIn_nextId (wellFormed : document.WellFormed) (isOld : id.index < document.size) :
    ¬(document.add content).LiesIn document.nextId id := by
  intro inside
  rcases inside.cases_child with same | ⟨child, isParent, -⟩
  · exact nextId_ne isOld same.symm
  · rw [parent_add] at isParent
    exact absurd (parent_lt_size wellFormed isParent) (Nat.lt_irrefl _)

/-- A required child was found, or a new one was placed. -/
inductive Ensures (requirement : Requirement) (before : Document) (id : NodeId) :
    NodeId → Document → Prop where
  | found {child : NodeId} (isThere : before.childNamed? id requirement.name = some child) :
      Ensures requirement before id child before
  | placed {after : Document} {right : List NodeId}
      (lacked : before.childNamed? id requirement.name = none)
      (moves : Moves (before.add (.element { name := requirement.name })) after before.nextId id
        (requirement.lead before (before.children id)) right) :
      Ensures requirement before id before.nextId after

namespace Ensures

/-- The new child stands in its place. -/
theorem gains_of_placed (wellFormed : before.WellFormed)
    (lacked : before.childNamed? id requirement.name = none)
    (moves : Moves (before.add (.element { name := requirement.name })) after before.nextId id
      (requirement.lead before (before.children id)) right) :
    Gains before after requirement id before.nextId where
  lacked := lacked
  isNew := Nat.le_refl _
  content_eq := by rw [moves.content_eq, content_add, if_pos rfl]
  children_eq := by
    have rest := moves.others_eq
    rw [filter_children_of_parent_none (wellFormed.add _) (by simp), children_add] at rest
    have isRest := List.append_cancel_left
      (rest.symm.trans (requirement.lead_append_drop before (before.children id)).symm)
    rw [moves.children_eq, if_pos rfl, Requirement.insert, ← isRest]

/-- A document grows when a child is ensured that is owed. -/
theorem grows (ensures : Ensures requirement before id child after)
    (wellFormed : before.WellFormed) (owes : before.Owes demands id (requirement :: rest)) :
    Grows demands before after ∧ after.childNamed? id requirement.name = some child := by
  cases ensures with
  | found isThere => exact ⟨Grows.refl wellFormed, isThere⟩
  | placed lacked moves =>
      have gains := gains_of_placed wellFormed lacked moves
      have detached : (before.add (.element { name := requirement.name })).parent before.nextId =
          none := by simp
      have rewires : Rewires (fun _ => True) (fun _ => False) before after :=
        { wellFormed := moves.wellFormed
          size_le := by rw [moves.size_eq, size_add]; exact Nat.le_succ _
          content_eq := fun other isOld => by
            rw [moves.content_eq, content_add, if_neg (nextId_ne isOld).symm]
          children_eq := fun _ _ untouched => absurd trivial untouched
          parent_eq := fun other isOld _ => by
            rw [moves.parent_eq, if_neg (nextId_ne isOld).symm, parent_add] }
      have others_eq : ∀ other, other ≠ id → after.children other = before.children other := by
        intro other differ
        rw [moves.children_eq, if_neg differ,
          filter_children_of_parent_none (wellFormed.add _) detached, children_add]
      have found := gains.childNamed?_self rewires wellFormed
      have owes' : after.Owes demands id (requirement :: rest) := by
        refine owes.mono fun {parent found name} isFound => ?_
        by_cases same : parent = id
        · exact same ▸ gains.childNamed?_of_some rewires wellFormed (same ▸ isFound)
        · rw [rewires.childNamed?_eq wellFormed (others_eq parent same), isFound]
      refine ⟨{ rewires with root_eq := moves.root_eq, grown := fun other => ?_, added := ?_ }, found⟩
      · by_cases same : other = id
        · subst same
          exact Or.inr ⟨requirement, rest, _, owes', gains⟩
        · exact Or.inl (others_eq other same)
      · intro other isNew inStore
        rcases owes.exists_above wellFormed with ⟨node, whole, isDemanded, suffix, -⟩
        refine ⟨node, whole, isDemanded, requirement, suffix.subset List.mem_cons_self, ?_⟩
        have isNext : other = before.nextId := by
          rw [moves.size_eq, size_add] at inStore
          have same : other.index = before.size := by omega
          cases other
          simpa [nextId] using same
        rw [isNext, gains.content_eq]

end Ensures

end Document

namespace Edit

open Document Outcome

variable {demands : Demands} {document before : Document} {id parent properties : NodeId}
  {requirement : Requirement} {path rest : List Requirement} {name flag : String}
  {leading : List String}

/-- An edit that ensures a required child of a node. -/
def EnsuresChild (requirement : Requirement) (id : NodeId) (edit : Edit NodeId) : Prop :=
  ∀ document : Document, document.WellFormed → id.index < document.size →
    Succeeds edit document fun child after => Ensures requirement document id child after

theorem ensuresChild_ensureProperties (parent : NodeId) (name : String) (leading : List String) :
    EnsuresChild ⟨name, .after leading⟩ parent (ensureProperties parent name leading) := by
  intro document wellFormed inStore
  refine Succeeds.of_get ?_
  rcases lacked : document.childNamed? parent name with _ | existing
  · have formed := wellFormed.add (.element { name })
    have parent_lt : parent.index < (document.add (.element { name })).size :=
      Nat.lt_of_lt_of_le inStore (retains_add document _).size_le
    have done : insertChild parent
        ((document.children parent).takeWhile fun child =>
          leading.any (document.isNamed child ·)).length document.nextId
        (document.add (.element { name })) = .ok ⟨⟩ _ :=
      (insertChild_eq_ok formed).mpr ⟨not_liesIn_nextId wellFormed inStore, rfl⟩
    have moves := moves_of_insertChild formed parent_lt (nextId_lt_size_add document _) done
    rw [filter_children_of_parent_none formed (by simp), children_add,
      ← List.prefix_iff_eq_take.mp (List.takeWhile_prefix _)] at moves
    exact Succeeds.of_step rfl (Succeeds.of_step done (Succeeds.of_pure (.placed lacked moves)))
  · exact Succeeds.of_pure (.found lacked)

end Edit

end WordTemplate
