import WordTemplate.Proofs.Container.Assembling
import WordTemplate.Proofs.Operations
import WordTemplate.Proofs.Word.Tidying

/-!
# Merging fragments loses nothing

After all groups are merged the junctions are cleared: their empty runs are dropped, and a junction
that is left without content is dropped itself. Neither takes away anything that a paragraph holds.
So the nodes between the head and the tail hold what the head, the nodes of the groups and the tail
held, in this order, and besides the joined paragraphs only empty junctions are missing.
-/

namespace WordTemplate

namespace Document

variable {document before after : Document} {id node child other parent : NodeId}
  {junctions dropped : List NodeId}

/-- Junctions among the children of `parent` were cleared: `dropped` are empty runs of junctions, and
junctions that were empty. -/
structure Clears (before after : Document) (parent : NodeId) (junctions dropped : List NodeId) :
    Prop where
  drops : Drops before after dropped
  areSiblings : ∀ junction ∈ junctions, before.parent junction = some parent
  wasEmpty : ∀ id ∈ dropped,
    (before.isEmptyRun id = true ∧ ∃ junction ∈ junctions, before.parent id = some junction) ∨
      id ∈ junctions ∧ before.isEmptyParagraph id = true

namespace Clears

variable (clears : Clears before after parent junctions dropped) (wellFormed : before.WellFormed)
  (isSibling : before.parent node = some parent)
include clears wellFormed isSibling

/-- What a child of `parent` loses are empty runs. -/
theorem isEmptyRun_of_dropped (isParent : before.parent id = some node) (isDropped : id ∈ dropped) :
    before.isEmptyRun id = true := by
  rcases clears.wasEmpty id isDropped with ⟨isEmpty, -⟩ | ⟨isJunction, -⟩
  · exact isEmpty
  · have isSibling' := clears.areSiblings id isJunction
    rw [isParent, Option.some.injEq] at isSibling'
    exact absurd isSibling' (ne_of_parent wellFormed isSibling)

/-- Nothing is dropped below the children of a child of `parent`. -/
theorem not_parent_below (isParent : before.parent child = some node)
    (inside : before.LiesIn child other) (isDropped : id ∈ dropped) :
    before.parent id ≠ some other := by
  have notAbove : ¬before.LiesIn child parent := fun above =>
    not_liesIn_of_parent wellFormed isSibling (above.trans (LiesIn.parent isParent))
  intro isOuter
  rcases clears.wasEmpty id isDropped with ⟨-, junction, isJunction, isRunOf⟩ | ⟨isJunction, -⟩
  · rw [isOuter, Option.some.injEq] at isRunOf
    subst isRunOf
    have isSibling' := clears.areSiblings _ isJunction
    rcases inside.cases_above isSibling' with rfl | above
    · rw [isParent, Option.some.injEq] at isSibling'
      exact ne_of_parent wellFormed isSibling isSibling'
    · exact notAbove above
  · rw [clears.areSiblings id isJunction, Option.some.injEq] at isOuter
    exact notAbove (isOuter ▸ inside)

theorem isEmptyRun_eq (isParent : before.parent child = some node) :
    after.isEmptyRun child = before.isEmptyRun child :=
  clears.drops.isEmptyRun_eq wellFormed fun _ =>
    clears.not_parent_below wellFormed isSibling isParent LiesIn.refl

theorem tree_eq (isParent : before.parent child = some node) :
    after.tree child = before.tree child :=
  (clears.drops.rewires wellFormed).tree_eq wellFormed (lt_size_of_parent isParent)
    fun _ inside ⟨_, isDropped, isOuter⟩ =>
      clears.not_parent_below wellFormed isSibling isParent inside isDropped isOuter

/-- The children of `parent` still hold what they held. -/
theorem substance_eq : after.substance node = before.substance node := by
  have sameName : (!after.isNamed · Word.Name.paragraphProperties) =
      (!before.isNamed · Word.Name.paragraphProperties) := by
    funext id
    rw [isNamed_of_content_eq (clears.drops.content_eq id)]
  rw [substance, substance, body, body, sameName, clears.drops.children_eq, List.filter_filter,
    List.filter_filter, List.filter_filter]
  refine List.filter_congr fun child isChild => ?_
  rw [wellFormed.mem_children_iff] at isChild
  rw [clears.isEmptyRun_eq wellFormed isSibling isChild]
  by_cases isDropped : child ∈ dropped
  · simp [clears.isEmptyRun_of_dropped wellFormed isSibling isChild isDropped]
  · simp [isDropped]

/-- Clearing leaves a paragraph empty if it was so. -/
theorem isEmptyParagraph_eq : after.isEmptyParagraph node = before.isEmptyParagraph node := by
  have isNamed_eq : ∀ id name, after.isNamed id name = before.isNamed id name := fun id name => by
    exact isNamed_of_content_eq (clears.drops.content_eq _) _
  have sameProperties : after.childNamed? node Word.Name.paragraphProperties =
      before.childNamed? node Word.Name.paragraphProperties := by
    refine clears.drops.childNamed?_eq fun child isChild isDropped => ?_
    rw [wellFormed.mem_children_iff] at isChild
    have isEmpty := clears.isEmptyRun_of_dropped wellFormed isSibling isChild isDropped
    exact isNamed_eq_false (Edit.isNamed_of_isEmptyRun isEmpty) (by decide)
  have sameBreak : after.hasSectionBreak node = before.hasSectionBreak node := by
    rw [hasSectionBreak, hasSectionBreak, paragraphProperty?, paragraphProperty?, sameProperties]
    rcases isFirst : before.childNamed? node Word.Name.paragraphProperties with _ | properties
    · rfl
    · have isParent := (parent_of_childNamed? wellFormed isFirst).1
      rw [Option.bind_some, Option.bind_some, clears.drops.childNamed?_eq]
      intro child isChild isDropped
      exact absurd ((wellFormed.mem_children_iff _ _).mp isChild)
        (clears.not_parent_below wellFormed isSibling isParent LiesIn.refl isDropped)
  rw [isEmptyParagraph, isEmptyParagraph, isNamed_eq, sameBreak, clears.drops.children_eq]
  congr 1
  rw [Bool.eq_iff_iff, List.all_eq_true, List.all_eq_true]
  constructor
  · intro shown child isChild
    have isParent := (wellFormed.mem_children_iff _ _).mp isChild
    by_cases isDropped : child ∈ dropped
    · rw [clears.isEmptyRun_of_dropped wellFormed isSibling isParent isDropped, Bool.or_true]
    · rw [← isNamed_eq, ← clears.isEmptyRun_eq wellFormed isSibling isParent]
      exact shown child (List.mem_filter.mpr ⟨isChild, by simpa using isDropped⟩)
  · intro shown child isChild
    have isChild := List.mem_of_mem_filter isChild
    rw [isNamed_eq, clears.isEmptyRun_eq wellFormed isSibling ((wellFormed.mem_children_iff _ _).mp isChild)]
    exact shown child isChild

/-- Among the children of `parent` only empty junctions are dropped. -/
theorem isEmpty_of_dropped (isDropped : node ∈ dropped) :
    node ∈ junctions ∧ before.isEmptyParagraph node = true := by
  rcases clears.wasEmpty node isDropped with ⟨-, junction, isJunction, isParent⟩ | isEmpty
  · rw [isSibling, Option.some.injEq] at isParent
    exact absurd rfl (ne_of_parent wellFormed (clears.areSiblings parent (isParent ▸ isJunction)))
  · exact isEmpty

omit isSibling in
/-- Around the junctions the children of `parent` stay. -/
theorem children_parent {left placed right : List NodeId}
    (around : before.children parent = left ++ placed ++ right) (arePlaced : junctions ⊆ placed) :
    after.children parent = left ++ placed.filter (· ∉ dropped) ++ right := by
  have nodup := wellFormed.nodup_children parent
  rw [around] at nodup
  simp only [List.nodup_append, List.mem_append] at nodup
  have kept : ∀ ids : List NodeId, (∀ id ∈ ids, id ∈ left ++ placed ++ right ∧ id ∉ placed) →
      ids.filter (· ∉ dropped) = ids := by
    intro ids others
    refine List.filter_eq_self.mpr fun id isMember => ?_
    rcases others id isMember with ⟨isChild, notPlaced⟩
    rw [← around, wellFormed.mem_children_iff] at isChild
    have notDropped : id ∉ dropped := fun isDropped =>
      notPlaced (arePlaced (clears.isEmpty_of_dropped wellFormed isChild isDropped).1)
    simpa using notDropped
  rw [clears.drops.children_eq, around, List.filter_append, List.filter_append, kept left, kept right]
  · exact fun id isRight => ⟨by simp [isRight], fun isPlaced =>
      nodup.2.2 id (Or.inr isPlaced) id isRight rfl⟩
  · exact fun id isLeft => ⟨by simp [isLeft], fun isPlaced =>
      nodup.1.2.2 id isLeft id isPlaced rfl⟩

end Clears

/-- An empty paragraph holds nothing. -/
theorem substance_of_isEmptyParagraph (isEmpty : document.isEmptyParagraph id = true) :
    document.substance id = [] := by
  rw [isEmptyParagraph, Bool.and_eq_true, List.all_eq_true] at isEmpty
  rw [substance, body, List.filter_filter, List.filter_eq_nil_iff]
  intro child isChild
  rcases Bool.or_eq_true_iff.mp (isEmpty.2 child isChild) with named | isRun
  · simp [named]
  · simp [isRun]

/-- Groups of nodes were merged between the adjacent siblings `head` and `tail`, and `between` stand
there now. -/
structure Reassembled (before after : Document) (parent head tail : NodeId)
    (groups : List (List NodeId)) (left between right : List NodeId) : Prop where
  wellFormed : after.WellFormed
  content_eq : ∀ id, id.index < before.size → after.content id = before.content id
  children_eq : after.children parent = left ++ between ++ right
  /-- Nothing is lost and nothing is reordered. -/
  substance_eq : between.flatMap after.substance =
    (head :: groups.flatten ++ [tail]).flatMap before.substance
  tree_eq : ∀ child ∈ (head :: groups.flatten ++ [tail]).flatMap before.substance,
    after.tree child = before.tree child
  /-- All nodes are still there besides the ones that were joined and empty junctions. -/
  ordered : between.Sublist (head :: before.standing head (groups ++ [[tail]]))
  missing : ∀ node ∈ head :: before.standing head (groups ++ [[tail]]), node ∉ between →
    after.isEmptyParagraph node = true ∧
      (node = head ∨ node = tail ∨ ∃ group ∈ groups, group.getLast? = some node)

/-- The place between `head` and `tail` before anything is placed there. -/
theorem slot_of_adjacent {head tail : NodeId} {left right waiting : List NodeId}
    (wellFormed : document.WellFormed)
    (adjacent : document.children parent = left ++ head :: tail :: right) (nodup : waiting.Nodup)
    (inStore : ∀ node ∈ waiting, node.index < document.size)
    (detached : ∀ node ∈ waiting, document.parent node = none ∧ ¬document.LiesIn node head) :
    Slot document parent tail left ([] ++ [head]) right waiting where
  wellFormed := wellFormed
  children_eq := by rw [adjacent, List.nil_append, List.append_assoc, List.singleton_append]
  nodup := nodup
  detached node isWaiting := (detached node isWaiting).1
  inStore := inStore
  outside node isWaiting above := by
    have isParent : document.parent head = some parent := by
      rw [← wellFormed.mem_children_iff, adjacent]
      simp
    exact (detached node isWaiting).2 ((LiesIn.parent isParent).trans above)

/-- After a merge the junctions can be cleared. -/
theorem Merges.reassembled {merged : Document} {head tail : NodeId} {left placed right : List NodeId}
    {groups : List (List NodeId)} (wellFormed : before.WellFormed)
    (merges : Merges before merged parent left (head :: groups.flatten ++ [tail]) placed right)
    (isPlaced : placed = head :: before.standing head (groups ++ [[tail]]))
    (areJunctions : ∀ junction ∈ junctions,
      junction = head ∨ ∃ group ∈ groups ++ [[tail]], group.getLast? = some junction)
    (arePlaced : junctions ⊆ placed) (clears : Clears merged after parent junctions dropped) :
    Reassembled before after parent head tail groups left (placed.filter (· ∉ dropped)) right := by
  have formed := merges.rewires.wellFormed
  have ofPlaced : ∀ node ∈ placed, merged.parent node = some parent := by
    intro node isMember
    rw [← formed.mem_children_iff, merges.children_eq]
    exact List.mem_append_left _ (List.mem_append_right _ isMember)
  refine ⟨clears.drops.wellFormed, fun id isOld => ?_,
    clears.children_parent formed merges.children_eq arePlaced, ?_, fun child isMember => ?_,
    isPlaced ▸ List.filter_sublist, fun node isMember notBetween => ?_⟩
  · rw [clears.drops.content_eq, merges.rewires.content_eq id isOld]
  · rw [flatMap_filter_of_silent, ← merges.flows.substance_eq wellFormed formed]
    · exact List.flatMap_congr fun node isMember =>
        clears.substance_eq formed (ofPlaced node isMember)
    · intro node isMember isDropped
      have isSibling := ofPlaced node isMember
      have wasEmpty := clears.isEmpty_of_dropped formed isSibling (by simpa using isDropped)
      rw [← clears.isEmptyParagraph_eq formed isSibling] at wasEmpty
      exact substance_of_isEmptyParagraph wasEmpty.2
  · have inBody : child ∈ (head :: groups.flatten ++ [tail]).flatMap before.body := by
      rcases List.mem_flatMap.mp isMember with ⟨node, isNode, isChild⟩
      exact List.mem_flatMap.mpr ⟨node, isNode, List.mem_of_mem_filter isChild⟩
    rw [← merges.flows.tree_eq child inBody]
    rw [← merges.flows.body_eq] at inBody
    rcases List.mem_flatMap.mp inBody with ⟨node, isNode, isChild⟩
    exact clears.tree_eq formed (ofPlaced node isNode) (mem_body formed isChild).1
  · rw [← isPlaced] at isMember
    have isDropped : node ∈ dropped := by
      by_contra notDropped
      exact notBetween (List.mem_filter.mpr ⟨isMember, by simpa using notDropped⟩)
    have isSibling := ofPlaced node isMember
    rcases clears.isEmpty_of_dropped formed isSibling isDropped with ⟨isJunction, wasEmpty⟩
    refine ⟨by rw [clears.isEmptyParagraph_eq formed isSibling, wasEmpty], ?_⟩
    rcases areJunctions node isJunction with isHead | ⟨group, isGroup, isLast⟩
    · exact Or.inl isHead
    · rcases List.mem_append.mp isGroup with isGroup | isTail
      · exact Or.inr (Or.inr ⟨group, isGroup, isLast⟩)
      · rw [List.mem_singleton.mp isTail, List.getLast?_singleton, Option.some.injEq] at isLast
        exact Or.inr (Or.inl isLast.symm)

end Document

namespace Edit

open Outcome Document

variable {document merged : Document} {parent head tail junction : NodeId}
  {left right junctions dropped : List NodeId} {groups : List (List NodeId)}

/-- A junction can always be cleared. -/
theorem tidyJunction_clears (wellFormed : merged.WellFormed)
    (clears : Clears merged document parent junctions dropped) (isJunction : junction ∈ junctions) :
    Succeeds (tidyJunction junction) document fun _ after =>
      ∃ dropped, Clears merged after parent junctions dropped := by
  have isSibling := clears.areSiblings junction isJunction
  rcases exists_drops clears.drops.wellFormed
    ((document.children junction).filter document.isEmptyRun) with ⟨tidied, done, drops⟩
  have clears' : Clears merged tidied parent junctions
      (dropped ++ (document.children junction).filter document.isEmptyRun) := by
    refine ⟨clears.drops.append drops, clears.areSiblings, fun id isMember => ?_⟩
    rcases List.mem_append.mp isMember with isDropped | isRun
    · exact clears.wasEmpty id isDropped
    · rcases List.mem_filter.mp isRun with ⟨isChild, isEmpty⟩
      rw [clears.drops.wellFormed.mem_children_iff] at isChild
      have isParent := clears.drops.parent_of_some isChild
      rw [clears.isEmptyRun_eq wellFormed isSibling isParent] at isEmpty
      exact Or.inl ⟨isEmpty, junction, isJunction, isParent⟩
  refine Succeeds.of_step (a := ⟨⟩) done (Succeeds.of_get ?_)
  split
  · rename_i isRemovable
    rw [isRemovableParagraph, Bool.and_eq_true] at isRemovable
    have wasEmpty := isRemovable.1
    rw [clears'.isEmptyParagraph_eq wellFormed isSibling] at wasEmpty
    refine Succeeds.of_done (a := ⟨⟩) (detach_eq_ok.mpr rfl) ⟨_, clears'.drops.append
      (drops_detach clears'.drops.wellFormed junction), clears.areSiblings, fun id isMember => ?_⟩
    rcases List.mem_append.mp isMember with isDropped | same
    · exact clears'.wasEmpty id isDropped
    · rw [List.mem_singleton.mp same]
      exact Or.inr ⟨isJunction, wasEmpty⟩
  · exact Succeeds.of_pure ⟨_, clears'⟩

/-- All junctions can be cleared. -/
theorem tidyJunctions_clears (wellFormed : merged.WellFormed)
    (areSiblings : ∀ junction ∈ junctions, merged.parent junction = some parent) :
    Succeeds (junctions.forM tidyJunction) merged fun _ after =>
      ∃ dropped, Clears merged after parent junctions dropped := by
  refine (Succeeds.of_forM (fun rest document => rest ⊆ junctions ∧
    ∃ dropped, Clears merged document parent junctions dropped) ?_ ?_).imp fun _ _ _ => And.right
  · rintro junction rest document ⟨subset, dropped, clears⟩
    refine (tidyJunction_clears wellFormed clears (subset List.mem_cons_self)).imp
      fun _ _ _ cleared => ⟨fun _ isMember => subset (List.mem_cons_of_mem _ isMember), cleared⟩
  · have done : (forM [] detach : Edit Unit) merged = .ok ⟨⟩ merged := rfl
    exact ⟨List.Subset.refl _, [], drops_of_forM_detach wellFormed done, areSiblings, fun _ => nofun⟩

/-- Groups of detached nodes can be merged between adjacent siblings, and this neither loses nor
reorders what they hold. -/
theorem mergeFragments_reassembles (wellFormed : document.WellFormed)
    (adjacent : document.children parent = left ++ head :: tail :: right)
    (nodup : groups.flatten.Nodup) (inStore : ∀ node ∈ groups.flatten, node.index < document.size)
    (detached : ∀ node ∈ groups.flatten,
      document.parent node = none ∧ ¬document.LiesIn node head) :
    ∃ after between, mergeFragments groups head tail document = .ok ⟨⟩ after ∧
      Reassembled document after parent head tail groups left between right := by
  have merging : Succeeds (mergeFragments groups head tail) document fun _ after =>
      ∃ between, Reassembled document after parent head tail groups left between right := by
    refine (mergeGroups_merges (slot_of_adjacent wellFormed adjacent nodup inStore detached)).bind
      fun junctions merged _ ⟨merges, areJunctions⟩ => ?_
    have arePlaced : ∀ junction ∈ junctions, merged.parent junction = some parent := by
      intro junction isJunction
      rw [← merges.rewires.wellFormed.mem_children_iff, merges.children_eq]
      have isPlaced := (areJunctions junction isJunction).1
      simp only [List.mem_append] at isPlaced ⊢
      tauto
    refine (tidyJunctions_clears merges.rewires.wellFormed arePlaced).imp
      fun _ after _ ⟨dropped, clears⟩ => ⟨_, Merges.reassembled wellFormed ?_ rfl
        (fun junction isJunction => (areJunctions junction isJunction).2)
        (fun junction isJunction => (areJunctions junction isJunction).1) clears⟩
    rw [List.flatten_append, List.flatten_singleton] at merges
    simpa using merges
  rcases merging with ⟨⟨⟩, after, done, between, reassembled⟩
  exact ⟨after, between, done, reassembled⟩

/-- Two paragraphs in a body, and a paragraph, a table and a paragraph that were taken out of it. -/
def detachedBlocks : Document :=
  ((Document.ofTree (Tree.node "w:body" []
    [Tree.node "w:p" [] [Tree.node "w:r" [] [Tree.node "w:t" [] [.text "a"]]],
      Tree.node "w:p" [] [Tree.node "w:r" [] [Tree.node "w:t" [] [.text "b"]]],
      Tree.node "w:p" [] [Tree.node "w:r" [] [Tree.node "w:t" [] [.text "x"]]],
      Tree.node "w:tbl" [] [Tree.node "w:tr" [] []],
      Tree.node "w:p" [] [Tree.node "w:r" [] [Tree.node "w:t" [] [.text "y"]]]])
    |>.detach ⟨10⟩).detach ⟨14⟩).detach ⟨16⟩

theorem mergeFragments_reassembles_detachedBlocks :
    detachedBlocks.standing ⟨2⟩ [[⟨10⟩], [], [⟨14⟩, ⟨16⟩], [⟨6⟩]] = [⟨14⟩, ⟨16⟩] ∧
      ∃ after between, mergeFragments [[⟨10⟩], [], [⟨14⟩, ⟨16⟩]] ⟨2⟩ ⟨6⟩ detachedBlocks = .ok ⟨⟩ after ∧
        Reassembled detachedBlocks after ⟨1⟩ ⟨2⟩ ⟨6⟩ [[⟨10⟩], [], [⟨14⟩, ⟨16⟩]] [] between [] := by
  have wellFormed : detachedBlocks.WellFormed :=
    (((wellFormed_ofTree _).detach _).detach _).detach _
  have detached : ∀ node ∈ [[⟨10⟩], [], [⟨14⟩, ⟨16⟩]].flatten, detachedBlocks.parent node = none ∧
      ¬(⟨2⟩ = node ∨ node ∈ detachedBlocks.ancestors ⟨2⟩) := by decide +kernel
  refine ⟨by decide +kernel, mergeFragments_reassembles wellFormed (by decide +kernel)
    (by decide +kernel) (by decide +kernel) fun node isMember => ?_⟩
  rw [← mem_ancestors_iff wellFormed]
  exact detached node isMember

end Edit

end WordTemplate
