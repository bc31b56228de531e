import WordTemplate.Proofs.Document.Local

/-!
# Edits that succeed

An insertion fails only when it would put a node below itself or beside a node without a parent. The
lemmas of this module give, from where nodes stand in a well-formed document, that a step succeeds
and which move, gathering or drop it makes.
-/

namespace WordTemplate.Edit

open Outcome Document

variable {document : Document} {node parent child reference target : NodeId} {ids : List NodeId}

theorem exists_moves_appendChild (wellFormed : document.WellFormed)
    (parent_lt : parent.index < document.size) (child_lt : child.index < document.size)
    (outside : ¬document.LiesIn child parent) :
    ∃ after, appendChild parent child document = .ok ⟨⟩ after ∧
      Moves document after child parent ((document.children parent).filter (· != child)) [] := by
  have done : appendChild parent child document =
      .ok ⟨⟩ ((document.detach child).placeLast parent child) :=
    (appendChild_eq_ok wellFormed).mpr ⟨outside, rfl⟩
  exact ⟨_, done, moves_of_appendChild wellFormed parent_lt child_lt done⟩

theorem exists_moves_insertChild (wellFormed : document.WellFormed)
    (parent_lt : parent.index < document.size) (child_lt : child.index < document.size)
    (outside : ¬document.LiesIn child parent) (index : Nat) :
    ∃ after left right, insertChild parent index child document = .ok ⟨⟩ after ∧
      Moves document after child parent left right := by
  have done : insertChild parent index child document =
      .ok ⟨⟩ ((document.detach child).place parent index child) :=
    (insertChild_eq_ok wellFormed).mpr ⟨outside, rfl⟩
  exact ⟨_, _, _, done, moves_of_insertChild wellFormed parent_lt child_lt done⟩

theorem exists_moves_insertBefore (wellFormed : document.WellFormed)
    (isParent : document.parent reference = some parent) (node_lt : node.index < document.size)
    (differ : node ≠ reference) (outside : ¬document.LiesIn node parent) :
    ∃ after left right, insertBefore node reference document = .ok ⟨⟩ after ∧
      Moves document after node parent left (reference :: right) := by
  obtain ⟨after, done⟩ : ∃ after, insertBefore node reference document = .ok ⟨⟩ after :=
    ⟨_, (insertBeside_eq_ok wellFormed).mpr ⟨parent, isParent, differ, outside, rfl⟩⟩
  rcases moves_of_insertBefore wellFormed node_lt done with ⟨parent', left, right, isParent', -, moves⟩
  rw [isParent, Option.some.injEq] at isParent'
  exact ⟨_, left, right, done, isParent' ▸ moves⟩

theorem exists_moves_insertAfter (wellFormed : document.WellFormed)
    (isParent : document.parent reference = some parent) (node_lt : node.index < document.size)
    (differ : node ≠ reference) (outside : ¬document.LiesIn node parent) :
    ∃ after left right, insertAfter node reference document = .ok ⟨⟩ after ∧
      Moves document after node parent (left ++ [reference]) right := by
  obtain ⟨after, done⟩ : ∃ after, insertAfter node reference document = .ok ⟨⟩ after :=
    ⟨_, (insertBeside_eq_ok wellFormed).mpr ⟨parent, isParent, differ, outside, rfl⟩⟩
  rcases moves_of_insertAfter wellFormed node_lt done with ⟨parent', left, right, isParent', -, moves⟩
  rw [isParent, Option.some.injEq] at isParent'
  exact ⟨_, left, right, done, isParent' ▸ moves⟩

/-- Nodes that `target` does not lie in can be gathered below it. -/
theorem exists_gathers (wellFormed : document.WellFormed) (target_lt : target.index < document.size)
    (inStore : ∀ id ∈ ids, id.index < document.size) (nodup : ids.Nodup)
    (outside : ∀ id ∈ ids, ¬document.LiesIn id target) :
    ∃ after, (forM ids (appendChild target)) document = .ok ⟨⟩ after ∧
      Gathers document after target ids := by
  have succeeds : ∃ after, (forM ids (appendChild target)) document = .ok ⟨⟩ after := by
    clear nodup
    induction ids generalizing document with
    | nil => exact ⟨document, rfl⟩
    | cons first rest inductionHypothesis =>
        have outsideFirst := outside first List.mem_cons_self
        rcases exists_moves_appendChild wellFormed target_lt (inStore first List.mem_cons_self)
          outsideFirst with ⟨middle, done, moves⟩
        have parentsAbove : ∀ node, document.LiesIn node target →
            middle.parent node = document.parent node := by
          intro node above
          rw [moves.parent_eq, if_neg]
          rintro rfl
          exact outsideFirst above
        rcases inductionHypothesis moves.wellFormed (by rwa [moves.size_eq])
          (fun id isMember => by
            rw [moves.size_eq]
            exact inStore id (List.mem_cons_of_mem _ isMember))
          (fun id isMember => by
            rw [liesIn_iff_of_parent_eq parentsAbove]
            exact outside id (List.mem_cons_of_mem _ isMember)) with ⟨after, restDone⟩
        exact ⟨after, forM_cons_eq_ok.mpr ⟨middle, done, restDone⟩⟩
  rcases succeeds with ⟨after, done⟩
  exact ⟨after, done, gathers_of_forM_appendChild wellFormed target_lt inStore nodup done⟩

/-- Nodes can always be detached. -/
theorem exists_drops (wellFormed : document.WellFormed) (ids : List NodeId) :
    ∃ after, (forM ids detach) document = .ok ⟨⟩ after ∧ Drops document after ids := by
  have succeeds : ∃ after, (forM ids detach) document = .ok ⟨⟩ after := by
    induction ids generalizing document with
    | nil => exact ⟨document, rfl⟩
    | cons first rest inductionHypothesis =>
        rcases inductionHypothesis (wellFormed.detach first) with ⟨after, restDone⟩
        exact ⟨after, forM_cons_eq_ok.mpr ⟨_, detach_eq_ok.mpr rfl, restDone⟩⟩
  rcases succeeds with ⟨after, done⟩
  exact ⟨after, done, drops_of_forM_detach wellFormed done⟩

end WordTemplate.Edit
