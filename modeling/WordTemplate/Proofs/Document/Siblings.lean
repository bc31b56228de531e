import WordTemplate.Proofs.Document.Neutral

/-!
# Ranges of siblings

A range of siblings is a stretch of the children of one node. It is found between its first and its
last node, and its inner part is what an edit takes out from between them.
-/

namespace WordTemplate

namespace Document

variable {document : Document} {first last parent : NodeId} {range before after : List NodeId}

/-- A range is a stretch of the children of a node from `first` to `last`. -/
structure Stretch (document : Document) (parent first last : NodeId) (before range after : List NodeId) :
    Prop where
  isParent : document.parent first = some parent
  children_eq : document.children parent = before ++ range ++ after
  head_eq : range.head? = some first
  getLast_eq : range.getLast? = some last

theorem getElem?_idxOf_of_idxOf? {ids : List NodeId} {id : NodeId} {index : Nat}
    (found : ids.idxOf? id = some index) : ids[index]? = some id := by
  rw [List.idxOf?_eq_some_iff] at found
  rcases found with ⟨inside, same, -⟩
  simpa [List.getElem?_eq_getElem inside] using same

theorem stretch_of_siblingRange (done : document.siblingRange first last = .ok range) :
    ∃ parent before after, document.Stretch parent first last before range after := by
  unfold siblingRange at done
  rcases isParent : document.parent first with _ | parent
  · simp [isParent] at done
  simp only [isParent] at done
  split at done
  swap
  · simp at done
  split at done
  case h_2 => simp at done
  rename_i start stop foundStart foundStop
  split at done
  swap
  · simp at done
  rename_i ordered
  simp only [Except.ok.injEq] at done
  subst done
  have atStart := getElem?_idxOf_of_idxOf? foundStart
  have atStop := getElem?_idxOf_of_idxOf? foundStop
  have stop_lt : stop < (document.children parent).length :=
    (List.getElem?_eq_some_iff.mp atStop).1
  refine ⟨parent, (document.children parent).take start,
    (document.children parent).drop (stop + 1), isParent, ?_, ?_, ?_⟩
  · have rest : (document.children parent).drop (stop + 1) =
        ((document.children parent).drop start).drop (stop - start + 1) := by
      rw [List.drop_drop]
      congr 1
      omega
    rw [List.append_assoc, rest, List.take_append_drop, List.take_append_drop]
  · rw [List.head?_eq_getElem?, List.getElem?_take_of_lt (by omega), List.getElem?_drop]
    simpa using atStart
  · rw [List.getLast?_eq_getElem?, List.length_take, List.length_drop,
      List.getElem?_take_of_lt (by omega), List.getElem?_drop, ← atStop]
    congr 1
    omega

namespace Stretch

variable (stretch : document.Stretch parent first last before range after)
include stretch

theorem last_mem : last ∈ range := List.mem_of_getLast? stretch.getLast_eq

theorem parent_eq (wellFormed : document.WellFormed) {id : NodeId} (isMember : id ∈ range) :
    document.parent id = some parent := by
  rw [← wellFormed.mem_children_iff, stretch.children_eq]
  exact List.mem_append_left _ (List.mem_append_right _ isMember)

theorem nodup (wellFormed : document.WellFormed) : range.Nodup := by
  have nodup := wellFormed.nodup_children parent
  rw [stretch.children_eq] at nodup
  exact (List.nodup_append.mp (List.nodup_append.mp nodup).1).2.1

/-- Nodes before the range stand in its place when the range has moved away. -/
theorem filter_children (wellFormed : document.WellFormed) {ids : List NodeId}
    (apart : ∀ id ∈ ids, id ∉ range) :
    (before ++ ids ++ (range ++ after)).filter (· ∉ range) = before ++ ids ++ after := by
  have nodup : (before ++ range ++ after).Nodup :=
    stretch.children_eq ▸ wellFormed.nodup_children parent
  simp only [List.nodup_append, List.mem_append] at nodup
  rcases nodup with ⟨⟨-, -, beforeApart⟩, -, afterApart⟩
  rw [← List.append_assoc]
  refine filter_not_mem_append (fun id isOther isMember => ?_) fun id isAfter isMember =>
    afterApart id (Or.inr isMember) id isAfter rfl
  rcases List.mem_append.mp isOther with isBefore | isOther
  · exact beforeApart id isBefore id isMember rfl
  · exact apart id isOther isMember

/-- Between two nodes there is one stretch of siblings only. -/
theorem unique (wellFormed : document.WellFormed) {parent' : NodeId}
    {before' range' after' : List NodeId}
    (other : document.Stretch parent' first last before' range' after') :
    parent = parent' ∧ before = before' ∧ range = range' ∧ after = after' := by
  have sameParent : parent = parent' := by
    have isParent := other.isParent
    rw [stretch.isParent, Option.some.injEq] at isParent
    exact isParent
  subst sameParent
  have nodup := wellFormed.nodup_children parent
  have same := other.children_eq
  rw [stretch.children_eq] at nodup same
  rcases List.head?_eq_some_iff.mp stretch.head_eq with ⟨rest, headIs⟩
  rcases List.head?_eq_some_iff.mp other.head_eq with ⟨rest', headIs'⟩
  rcases List.getLast?_eq_some_iff.mp stretch.getLast_eq with ⟨init, lastIs⟩
  rcases List.getLast?_eq_some_iff.mp other.getLast_eq with ⟨init', lastIs'⟩
  have atFirst : before ++ first :: (rest ++ after) = before' ++ first :: (rest' ++ after') := by
    simpa [headIs, headIs'] using same
  have atLast : (before ++ init) ++ last :: after = (before' ++ init') ++ last :: after' := by
    simpa [lastIs, lastIs'] using same
  have nodupFirst : (before ++ first :: (rest ++ after)).Nodup := by simpa [headIs] using nodup
  have nodupLast : ((before ++ init) ++ last :: after).Nodup := by simpa [lastIs] using nodup
  rcases append_cons_inj nodupFirst atFirst with ⟨rfl, -⟩
  rcases append_cons_inj nodupLast atLast with ⟨sameInit, rfl⟩
  refine ⟨rfl, rfl, ?_, rfl⟩
  rw [lastIs, lastIs', List.append_cancel_left sameInit]

/-- From a node to itself there is only that node. -/
theorem range_of_eq (wellFormed : document.WellFormed) (same : first = last) : range = [first] := by
  have nodup := stretch.nodup wellFormed
  have head_eq := stretch.head_eq
  have getLast_eq := same ▸ stretch.getLast_eq
  rcases range with _ | ⟨head, tail⟩
  · simp at head_eq
  rw [List.head?_cons, Option.some.injEq] at head_eq
  subst head_eq
  rw [eq_nil_of_getLast? nodup getLast_eq]

/-- A range of more than one node is its first node, its inner nodes and its last node. -/
theorem eq_append (differ : first ≠ last) :
    range = first :: ((range.drop 1).dropLast ++ [last]) := by
  rcases range with _ | ⟨head, rest⟩
  · simpa using stretch.head_eq
  have sameHead : head = first := by simpa using stretch.head_eq
  have lastIs : (head :: rest).getLast? = some last := stretch.getLast_eq
  rcases rest.eq_nil_or_concat with rfl | ⟨inner, final, rfl⟩
  · simp only [List.getLast?_singleton, Option.some.injEq] at lastIs
    exact absurd (sameHead.symm.trans lastIs) differ
  · rw [List.concat_eq_append, ← List.cons_append, List.getLast?_concat, Option.some.injEq] at lastIs
    simp [sameHead, lastIs]

end Stretch

end Document

namespace Edit

open Outcome Document

variable {document document' : Document} {first last : NodeId} {range inner : List NodeId}

theorem siblingRange_eq_ok :
    siblingRange first last document = .ok range document' ↔
      document.siblingRange first last = .ok range ∧ document = document' := by
  simp only [siblingRange, get_bind]
  rcases document.siblingRange first last with cause | found
  · simp
  · simp

/-- What is between two siblings is taken out. -/
theorem drops_of_removeBetween (wellFormed : document.WellFormed)
    (done : removeBetween first last document = .ok inner document') :
    ∃ parent before after range, document.Stretch parent first last before range after ∧
      inner = (range.drop 1).dropLast ∧ Drops document document' inner := by
  simp only [removeBetween, bind_eq_ok, siblingRange_eq_ok, pure_eq_ok] at done
  rcases done with ⟨range, _, ⟨found, rfl⟩, ⟨⟩, final, dropDone, rfl, rfl⟩
  rcases stretch_of_siblingRange found with ⟨parent, before, after, stretch⟩
  exact ⟨parent, before, after, range, stretch, rfl, drops_of_forM_detach wellFormed dropDone⟩

end Edit

end WordTemplate
