import WordTemplate.Container.Fragments
import WordTemplate.Proofs.Word.Uniting

/-!
# Assembling fragments

Groups of nodes go back between a head and a tail. Each step either places a waiting node before the
tail or joins a fragment to the paragraph before it; either way the nodes that have a place and those
that wait hold together, in order, what they held before. This is carried along the groups by
`Slot`, the state of the place, and `Flows`, which says what went where.
-/

namespace WordTemplate

namespace Document

variable {document before middle after : Document} {id node other child parent target tail fragment
  : NodeId} {pool ids sources targets left placed right waiting : List NodeId}

/-! ## What flows from nodes to nodes -/

/-- What the nodes `sources` held before is what the nodes `targets` hold after, in order and with the
same trees. -/
structure Flows (before after : Document) (sources targets : List NodeId) : Prop where
  body_eq : targets.flatMap after.body = sources.flatMap before.body
  tree_eq : ∀ child ∈ sources.flatMap before.body, after.tree child = before.tree child

namespace Flows

theorem refl : Flows document document ids ids := ⟨rfl, fun _ _ => rfl⟩

theorem trans {final : List NodeId} (first : Flows before middle sources targets)
    (second : Flows middle after targets final) : Flows before after sources final where
  body_eq := second.body_eq.trans first.body_eq
  tree_eq child isMember := by
    rw [second.tree_eq child (first.body_eq ▸ isMember), first.tree_eq child isMember]

theorem append {sources' targets' : List NodeId} (first : Flows before after sources targets)
    (second : Flows before after sources' targets') :
    Flows before after (sources ++ sources') (targets ++ targets') where
  body_eq := by rw [List.flatMap_append, List.flatMap_append, first.body_eq, second.body_eq]
  tree_eq child isMember := by
    rw [List.flatMap_append, List.mem_append] at isMember
    exact isMember.elim (first.tree_eq child) (second.tree_eq child)

/-- Nodes that keep what they hold. -/
theorem of_forall (bodies : ∀ node ∈ ids, after.body node = before.body node)
    (trees : ∀ node ∈ ids, ∀ child ∈ before.body node, after.tree child = before.tree child) :
    Flows before after ids ids where
  body_eq := List.flatMap_congr bodies
  tree_eq child isMember := by
    rcases List.mem_flatMap.mp isMember with ⟨node, isNode, isChild⟩
    exact trees node isNode child isChild

/-- What goes from nodes to nodes goes there without the empty runs. -/
theorem substance_eq (flows : Flows before after sources targets) (wellFormed : before.WellFormed)
    (wellFormed' : after.WellFormed) :
    targets.flatMap after.substance = sources.flatMap before.substance := by
  have filtered : ∀ (document : Document) (ids : List NodeId), ids.flatMap document.substance =
      (ids.flatMap document.body).filter (!document.isEmptyRun ·) := fun document ids => by
    rw [List.filter_flatMap]
    rfl
  rw [filtered, filtered, flows.body_eq]
  refine List.filter_congr fun child isMember => ?_
  rw [isEmptyRun_eq_of_tree_eq wellFormed wellFormed' (flows.tree_eq child isMember)]

end Flows

/-! ## Nodes that stand apart -/

/-- None of the nodes stands in another one. -/
def Apart (document : Document) (pool : List NodeId) : Prop :=
  ∀ node ∈ pool, ∀ other ∈ pool, document.LiesIn node other → node = other

/-- A child of a node stands above none of the nodes. -/
theorem Apart.not_liesIn (apart : document.Apart pool) (wellFormed : document.WellFormed)
    (isNode : node ∈ pool) (isOther : other ∈ pool) (isParent : document.parent child = some node) :
    ¬document.LiesIn child other := by
  intro inside
  have same := apart node isNode other isOther (inside.trans (LiesIn.parent isParent))
  exact not_liesIn_of_parent wellFormed isParent (same ▸ inside)

/-- `fragment` has given its body to `target` and has been taken out. -/
structure Absorbs (before after : Document) (target fragment : NodeId) : Prop extends
    Rewires (fun id => before.JoinPart target fragment id ∨ before.parent fragment = some id)
      (fun id => id = fragment ∨ before.JoinMoved target fragment id) before after where
  body_eq : after.body target = before.body target ++ before.body fragment
  siblings_eq : ∀ id, id.index < before.size → ¬before.JoinPart target fragment id →
    after.children id = (before.children id).filter (· != fragment)

section Joining

variable (apart : before.Apart pool) (isTarget : target ∈ pool) (isFragment : fragment ∈ pool)
include apart isTarget isFragment

/-- A join rewires none of the other nodes. -/
theorem Apart.not_part (isNode : node ∈ pool) (notTarget : node ≠ target)
    (notFragment : node ≠ fragment) :
    ¬(before.JoinPart target fragment node ∨ before.parent fragment = some node) := by
  rintro ((same | same | isOwned | isOwned) | isParent)
  · exact notTarget same
  · exact notFragment same
  · exact notTarget (apart target isTarget node isNode (LiesIn.parent isOwned.1)).symm
  · exact notFragment (apart fragment isFragment node isNode (LiesIn.parent isOwned.1)).symm
  · exact notFragment (apart node isNode fragment isFragment (LiesIn.parent isParent))

/-- A join rewires nothing below the bodies of the nodes. -/
theorem Apart.not_part_below (wellFormed : before.WellFormed) (isNode : node ∈ pool)
    (isChild : child ∈ before.body node) (inside : before.LiesIn child other) :
    ¬(before.JoinPart target fragment other ∨ before.parent fragment = some other) := by
  rcases mem_body wellFormed isChild with ⟨isParent, notProperties⟩
  have notAbove : ∀ id ∈ pool, ¬before.LiesIn child id := fun id isMember =>
    apart.not_liesIn wellFormed isNode isMember isParent
  have notOwned : ∀ id ∈ pool, ¬before.OwnsProperties id other := by
    rintro id isMember ⟨isOwner, named⟩
    rcases inside.cases_above isOwner with rfl | inside
    · rw [notProperties] at named
      cases named
    · exact notAbove id isMember inside
  rintro ((rfl | rfl | isOwned | isOwned) | isOuter)
  · exact notAbove _ isTarget inside
  · exact notAbove _ isFragment inside
  · exact notOwned _ isTarget isOwned
  · exact notOwned _ isFragment isOwned
  · exact notAbove _ isFragment (LiesIn.of_parent isOuter inside)

variable (absorbs : Absorbs before after target fragment) (wellFormed : before.WellFormed)
include absorbs wellFormed

theorem Absorbs.tree_eq (isNode : node ∈ pool) (isChild : child ∈ before.body node) :
    after.tree child = before.tree child :=
  absorbs.toRewires.tree_eq wellFormed (lt_size_of_parent (mem_body wellFormed isChild).1)
    fun _ inside => apart.not_part_below isTarget isFragment wellFormed isNode isChild inside

/-- The other nodes keep what they hold. -/
theorem Absorbs.flows_of_others (inStore : ∀ id ∈ pool, id.index < before.size)
    (others : ∀ id ∈ ids, id ∈ pool ∧ id ≠ target ∧ id ≠ fragment) : Flows before after ids ids :=
  Flows.of_forall
    (fun id isMember => absorbs.toRewires.body_eq wellFormed (inStore id (others id isMember).1)
      (apart.not_part isTarget isFragment (others id isMember).1 (others id isMember).2.1
        (others id isMember).2.2))
    fun id isMember _ isChild =>
      absorbs.tree_eq apart isTarget isFragment wellFormed (others id isMember).1 isChild

/-- What the two held goes to the target. -/
theorem Absorbs.flows : Flows before after [target, fragment] [target] where
  body_eq := by simp [absorbs.body_eq]
  tree_eq child isMember := by
    rw [List.flatMap_cons, List.flatMap_singleton, List.mem_append] at isMember
    exact isMember.elim (absorbs.tree_eq apart isTarget isFragment wellFormed isTarget)
      (absorbs.tree_eq apart isTarget isFragment wellFormed isFragment)

end Joining

/-! ## The nodes with a place of their own -/

/-- Whether the first node of a group goes into the node before the group. -/
def continues (document : Document) (previous : NodeId) (group : List NodeId) : Bool :=
  document.isNamed previous Word.Name.paragraph &&
    group.head?.any (document.isNamed · Word.Name.paragraph)

/-- The nodes of the groups that get a place of their own after `previous`: all but a paragraph that
starts a group right after another paragraph. -/
def standing (document : Document) : NodeId → List (List NodeId) → List NodeId
  | _, [] => []
  | previous, group :: groups =>
      group.drop (if document.continues previous group then 1 else 0) ++
        standing document (group.getLast?.getD previous) groups

/-- Which nodes get a place depends on which nodes are paragraphs. -/
theorem standing_congr {previous previous' : NodeId} {groups : List (List NodeId)}
    (same : after.isNamed previous' Word.Name.paragraph =
      before.isNamed previous Word.Name.paragraph)
    (names : ∀ node ∈ groups.flatten, after.isNamed node Word.Name.paragraph =
      before.isNamed node Word.Name.paragraph) :
    after.standing previous' groups = before.standing previous groups := by
  induction groups generalizing previous previous' with
  | nil => rfl
  | cons group groups inductionHypothesis =>
      have ofGroup : ∀ node ∈ group, after.isNamed node Word.Name.paragraph =
          before.isNamed node Word.Name.paragraph := fun node isMember =>
        names node (by simp [isMember])
      have later := fun node isMember => names node (List.mem_append_right group isMember)
      have sameStart : after.continues previous' group = before.continues previous group := by
        rcases group with _ | ⟨first, rest⟩
        · simp [continues]
        · simp [continues, same, ofGroup first List.mem_cons_self]
      rw [standing, standing, sameStart]
      congr 1
      refine inductionHypothesis ?_ later
      rcases isLast : group.getLast? with _ | last
      · exact same
      · exact ofGroup last (List.mem_of_getLast? isLast)

/-- The last node of a group that gets a place is the last one of the group, unless the group is one
paragraph that goes into the node before it. -/
theorem getLast?_drop_continues (document : Document) (previous : NodeId) (group : List NodeId) :
    (group.drop (if document.continues previous group then 1 else 0)).getLast?.getD previous =
        group.getLast?.getD previous ∨
      (∃ fragment, group = [fragment] ∧
          document.isNamed fragment Word.Name.paragraph = true) ∧
        document.isNamed previous Word.Name.paragraph = true ∧
        (group.drop (if document.continues previous group then 1 else 0)).getLast?.getD previous =
          previous := by
  rcases group with _ | ⟨first, _ | ⟨second, rest⟩⟩
  · exact Or.inl (by rw [List.drop_nil])
  · rcases starts : document.continues previous [first] with _ | _
    · exact Or.inl rfl
    · rw [continues, List.head?_cons, Option.any_some, Bool.and_eq_true] at starts
      exact Or.inr ⟨⟨first, rfl, starts.2⟩, starts.1, rfl⟩
  · left
    split <;> simp

/-! ## The place between head and tail -/

/-- `parent` has the children `placed` before `tail`, between `left` and `right`, and the nodes
`waiting` are detached and can be placed there. -/
structure Slot (document : Document) (parent tail : NodeId) (left placed right waiting : List NodeId) :
    Prop where
  wellFormed : document.WellFormed
  children_eq : document.children parent = left ++ placed ++ tail :: right
  nodup : waiting.Nodup
  detached : ∀ node ∈ waiting, document.parent node = none
  inStore : ∀ node ∈ waiting, node.index < document.size
  outside : ∀ node ∈ waiting, ¬document.LiesIn node parent

/-- Children of one node stand apart. -/
theorem apart_of_siblings (wellFormed : document.WellFormed)
    (siblings : ∀ node ∈ pool, document.parent node = some parent) : document.Apart pool := by
  intro node isNode other isOther inside
  by_contra differ
  exact not_liesIn_of_siblings wellFormed (siblings node isNode) (siblings other isOther) differ inside
    LiesIn.refl

namespace Slot

variable (slot : Slot document parent tail left placed right waiting)
include slot

theorem parent_of_mem (isMember : node ∈ placed ++ [tail]) : document.parent node = some parent := by
  rw [← slot.wellFormed.mem_children_iff, slot.children_eq]
  simp only [List.mem_append, List.mem_cons, List.not_mem_nil, or_false] at isMember ⊢
  tauto

/-- The nodes that have a place and those that wait stand apart. -/
theorem apart : document.Apart (placed ++ [tail] ++ waiting) := by
  have siblings := apart_of_siblings slot.wellFormed fun node => slot.parent_of_mem
  intro node isNode other isOther inside
  rcases List.mem_append.mp isOther with isOther | isOther
  · rcases List.mem_append.mp isNode with isNode | isNode
    · exact siblings node isNode other isOther inside
    · rcases inside.cases_above (slot.parent_of_mem isOther) with rfl | inside
      · rfl
      · exact absurd inside (slot.outside node isNode)
  · exact (inside.eq_of_parent_none (slot.detached other isOther)).symm

theorem lt_size (isMember : node ∈ placed ++ [tail] ++ waiting) : node.index < document.size := by
  rcases List.mem_append.mp isMember with isChild | isWaiting
  · exact lt_size_of_parent (slot.parent_of_mem isChild)
  · exact slot.inStore node isWaiting

theorem nodup_all : (placed ++ [tail] ++ waiting).Nodup := by
  have nodup := slot.wellFormed.nodup_children parent
  have isSublist : (placed ++ [tail]).Sublist (left ++ placed ++ tail :: right) := by
    rw [List.append_assoc]
    exact List.sublist_append_of_sublist_right
      (List.Sublist.append (List.Sublist.refl _) (List.singleton_sublist.mpr List.mem_cons_self))
  rw [slot.children_eq] at nodup
  rw [List.nodup_append]
  refine ⟨nodup.sublist isSublist, slot.nodup, ?_⟩
  rintro node isChild _ isWaiting rfl
  have isParent := slot.parent_of_mem isChild
  rw [slot.detached node isWaiting] at isParent
  cases isParent

/-- A join below `parent` rewires neither `parent` nor what stands above it. -/
theorem not_joinPart (isTarget : document.parent target = some parent)
    (outside : ¬document.LiesIn fragment parent) : ¬document.JoinPart target fragment parent := by
  rintro (rfl | rfl | isOwned | isOwned)
  · exact ne_of_parent slot.wellFormed isTarget rfl
  · exact outside LiesIn.refl
  · exact not_liesIn_of_parent slot.wellFormed isTarget (LiesIn.parent isOwned.1)
  · exact outside (LiesIn.parent isOwned.1)

theorem not_joinMoved (isTarget : document.parent target = some parent)
    (outside : ¬document.LiesIn fragment parent) (above : document.LiesIn id parent) :
    ¬(id = fragment ∨ document.JoinMoved target fragment id) := by
  have notTarget : ¬document.LiesIn target id := fun inside =>
    not_liesIn_of_parent slot.wellFormed isTarget (above.trans inside)
  have notFragment : ¬document.LiesIn fragment id := fun inside => outside (above.trans inside)
  rintro (rfl | isChild | ⟨properties, isOwned | isOwned, isChild⟩)
  · exact notFragment LiesIn.refl
  · exact notFragment (LiesIn.parent isChild)
  · exact notTarget (LiesIn.of_parent isChild (LiesIn.parent isOwned.1))
  · exact notFragment (LiesIn.of_parent isChild (LiesIn.parent isOwned.1))

end Slot

/-- The place has moved on: `sources` have what `placed` has now, and the nodes `waiting` still wait. -/
structure Advances (before after : Document) (parent tail : NodeId)
    (left sources placed right waiting : List NodeId) : Prop where
  rewires : Rewires (fun _ => True) (fun _ => True) before after
  slot : Slot after parent tail left placed right waiting
  flows : Flows before after sources placed
  others : ∀ ids ⊆ tail :: waiting, Flows before after ids ids

theorem Advances.trans {nodes placed' : List NodeId}
    (first : Advances before middle parent tail left sources placed right (nodes ++ waiting))
    (second : Advances middle after parent tail left (placed ++ nodes) placed' right waiting) :
    Advances before after parent tail left (sources ++ nodes) placed' right waiting where
  rewires := first.rewires.trans second.rewires (fun _ _ => trivial) (fun _ _ => trivial)
    (fun _ _ _ => trivial) fun _ _ _ => trivial
  slot := second.slot
  flows := (first.flows.append (first.others nodes (by simp))).trans second.flows
  others ids subset := (first.others ids fun id isMember => by
    rcases List.mem_cons.mp (subset isMember) with same | isWaiting
    · simp [same]
    · simp [isWaiting]).trans (second.others ids subset)

/-- The tail has been merged as well: `sources` have what `placed` has now. -/
structure Merges (before after : Document) (parent : NodeId) (left sources placed right : List NodeId) :
    Prop where
  rewires : Rewires (fun _ => True) (fun _ => True) before after
  children_eq : after.children parent = left ++ placed ++ right
  flows : Flows before after sources placed

/-- A waiting fragment that was absorbed leaves the place as it is. -/
theorem Absorbs.slot (absorbs : Absorbs before after target fragment)
    (slot : Slot before parent tail left placed right (fragment :: waiting))
    (isTarget : target ∈ placed) : Slot after parent tail left placed right waiting := by
  have isParent := slot.parent_of_mem (List.mem_append_left [tail] isTarget)
  have outside := slot.outside fragment List.mem_cons_self
  have parent_lt := parent_lt_size slot.wellFormed isParent
  have isDetached := slot.detached fragment List.mem_cons_self
  refine ⟨absorbs.wellFormed, ?_, (List.nodup_cons.mp slot.nodup).2, ?_, ?_, ?_⟩
  · rw [absorbs.siblings_eq parent parent_lt (slot.not_joinPart isParent outside),
      filter_children_of_parent_none slot.wellFormed isDetached, slot.children_eq]
  · intro node isWaiting
    have detached := slot.detached node (List.mem_cons_of_mem _ isWaiting)
    rw [absorbs.parent_eq node (slot.inStore node (List.mem_cons_of_mem _ isWaiting)), detached]
    rintro (rfl | isChild | ⟨_, -, isChild⟩)
    · exact (List.nodup_cons.mp slot.nodup).1 isWaiting
    · rw [detached] at isChild
      cases isChild
    · rw [detached] at isChild
      cases isChild
  · exact fun node isWaiting => Nat.lt_of_lt_of_le
      (slot.inStore node (List.mem_cons_of_mem _ isWaiting)) absorbs.size_le
  · intro node isWaiting
    rw [absorbs.liesIn_iff slot.wellFormed parent_lt fun _ => slot.not_joinMoved isParent outside]
    exact slot.outside node (List.mem_cons_of_mem _ isWaiting)

end Document

namespace Edit

open Outcome Document

variable {document : Document} {parent target tail fragment : NodeId} {pool : List NodeId}

/-- A fragment is joined to a target if both are paragraphs. -/
theorem joinFragment_absorbs (wellFormed : document.WellFormed)
    (inStore : target.index < document.size) (outside : ¬document.LiesIn fragment target)
    (apart : ¬document.LiesIn target fragment) :
    Succeeds (joinFragment target fragment) document fun joins after =>
      joins = (document.isNamed target Word.Name.paragraph &&
        document.isNamed fragment Word.Name.paragraph) ∧
      if joins then Absorbs document after target fragment else after = document := by
  refine Succeeds.of_get ?_
  split
  · rename_i named
    refine (joinParagraphs_rewires wellFormed inStore outside).bind
      fun _ joined _ ⟨joining, body_eq⟩ => ?_
    refine Succeeds.of_step (a := ⟨⟩) (detach_eq_ok.mpr rfl) (Succeeds.of_pure ⟨named.symm, ?_⟩)
    rw [Bool.and_eq_true] at named
    have fragment_lt := lt_size_of_isNamed named.2
    have dropping := (drops_detach joining.wellFormed fragment).rewires joining.wellFormed
    -- The fragment itself does not move before it is taken out.
    have isParent_eq : joined.parent fragment = document.parent fragment := by
      refine joining.parent_eq fragment fragment_lt ?_
      rintro (isOwn | ⟨properties, isOwned | isOwned, isParent⟩)
      · exact ne_of_parent wellFormed isOwn rfl
      · exact apart (LiesIn.of_parent isParent (LiesIn.parent isOwned.1))
      · exact not_liesIn_of_parent wellFormed isParent (LiesIn.parent isOwned.1)
    rw [if_pos rfl]
    refine ⟨joining.trans dropping (fun _ => Or.inl) (fun _ => Or.inr) ?_ ?_, ?_, ?_⟩
    · rintro id - ⟨child, isMember, isParent⟩
      rw [List.mem_singleton.mp isMember, isParent_eq] at isParent
      exact Or.inr isParent
    · exact fun id _ isMember => Or.inl (List.mem_singleton.mp isMember)
    · rw [dropping.body_eq joining.wellFormed (Nat.lt_of_lt_of_le inStore joining.size_le), body_eq]
      rintro ⟨child, isMember, isParent⟩
      rw [List.mem_singleton.mp isMember, isParent_eq] at isParent
      exact apart (LiesIn.parent isParent)
    · intro id isOld untouched
      rw [children_detach joining.wellFormed, joining.children_eq id isOld untouched]
  · rename_i notNamed
    exact Succeeds.of_pure ⟨(Bool.eq_false_iff.mpr notNamed).symm, rfl⟩

variable {node : NodeId} {left placed right waiting nodes : List NodeId}

/-- A waiting node gets a place before the tail, and all nodes keep what they hold. -/
theorem insertBefore_advances
    (slot : Slot document parent tail left placed right (node :: waiting)) :
    Succeeds (insertBefore node tail) document fun _ after =>
      Advances document after parent tail left (placed ++ [node]) (placed ++ [node]) right waiting := by
  have isDetached := slot.detached node List.mem_cons_self
  have notAbove := slot.outside node List.mem_cons_self
  have isTail : tail ∈ placed ++ [tail] := by simp
  have tailParent := slot.parent_of_mem isTail
  have differ : node ≠ tail := by
    rintro rfl
    rw [isDetached] at tailParent
    cases tailParent
  rcases exists_moves_insertBefore slot.wellFormed tailParent (slot.inStore node List.mem_cons_self)
    differ notAbove with ⟨after, left', right', done, moves⟩
  have rewires : Rewires (· = parent) (· = node) document after :=
    (moves.rewires slot.wellFormed).mono
      (fun id isPart => isPart.resolve_right (by rw [isDetached]; exact nofun)) fun _ => id
  have others := moves.others_eq
  have nodup := slot.wellFormed.nodup_children parent
  rw [filter_children_of_parent_none slot.wellFormed isDetached, slot.children_eq] at others
  rw [slot.children_eq] at nodup
  rcases append_cons_inj nodup others with ⟨rfl, rfl⟩
  -- The parent lies neither in the nodes nor is it one of them.
  have isTail' : tail ∈ placed ++ [tail] ++ (node :: waiting) := List.mem_append_left _ isTail
  have keeps : ∀ ids ⊆ placed ++ [tail] ++ (node :: waiting), Flows document after ids ids := by
    intro ids subset
    refine Flows.of_forall (fun id isMember => ?_) fun id isMember child isChild => ?_
    · refine rewires.body_eq slot.wellFormed (slot.lt_size (subset isMember)) ?_
      rintro rfl
      have same := slot.apart _ (subset isMember) tail isTail' (LiesIn.parent tailParent)
      exact ne_of_parent slot.wellFormed tailParent same.symm
    · have isParent := (mem_body slot.wellFormed isChild).1
      refine rewires.tree_eq slot.wellFormed (lt_size_of_parent isParent) ?_
      rintro other inside rfl
      exact slot.apart.not_liesIn slot.wellFormed (subset isMember) isTail' isParent
        (LiesIn.of_parent tailParent inside)
  refine Succeeds.of_done done ⟨rewires.mono (fun _ _ => trivial) fun _ _ => trivial,
    ⟨rewires.wellFormed, ?_, (List.nodup_cons.mp slot.nodup).2, ?_, ?_, ?_⟩,
    keeps _ fun id isMember => ?_, fun ids subset => keeps ids fun id isMember => ?_⟩
  · rw [moves.children_eq, if_pos rfl]
    simp
  · intro other isWaiting
    rw [moves.parent_eq, if_neg, slot.detached other (List.mem_cons_of_mem _ isWaiting)]
    rintro rfl
    exact (List.nodup_cons.mp slot.nodup).1 isWaiting
  · intro other isWaiting
    rw [moves.size_eq]
    exact slot.inStore other (List.mem_cons_of_mem _ isWaiting)
  · intro other isWaiting
    rw [rewires.liesIn_iff slot.wellFormed (parent_lt_size slot.wellFormed tailParent)]
    · exact slot.outside other (List.mem_cons_of_mem _ isWaiting)
    · rintro id above rfl
      exact notAbove above
  · simp only [List.mem_append, List.mem_cons, List.not_mem_nil, or_false] at isMember ⊢
    tauto
  · have isMember := subset isMember
    simp only [List.mem_append, List.mem_cons] at isMember ⊢
    tauto

/-- Waiting nodes get places before the tail, one after the other. -/
theorem placeFragments_advances (target : NodeId)
    (slot : Slot document parent tail left placed right (nodes ++ waiting)) :
    Succeeds (placeFragments tail target nodes) document fun reached after =>
      reached = nodes.getLast?.getD target ∧
        Advances document after parent tail left (placed ++ nodes) (placed ++ nodes) right waiting := by
  induction nodes generalizing document placed target with
  | nil =>
      rw [List.append_nil]
      exact Succeeds.of_pure ⟨rfl, Rewires.refl slot.wellFormed, slot, Flows.refl, fun _ _ => Flows.refl⟩
  | cons node nodes inductionHypothesis =>
      refine (insertBefore_advances slot).bind fun _ middle _ first => ?_
      refine (inductionHypothesis node first.slot).imp fun reached after _ ⟨isLast, second⟩ => ⟨?_, ?_⟩
      · rw [isLast, List.getLast?_cons, Option.getD_some]
      · rw [List.append_cons]
        exact first.trans second

variable {earlier group : List NodeId} {groups : List (List NodeId)}

/-- The tail or a fragment that waits goes into the target if both are paragraphs. -/
theorem joinFragment_flows
    (slot : Slot document parent tail left (earlier ++ [target]) right waiting)
    (isFragment : fragment ∈ tail :: waiting) :
    Succeeds (joinFragment target fragment) document fun joins after =>
      joins = (document.isNamed target Word.Name.paragraph &&
        document.isNamed fragment Word.Name.paragraph) ∧
      if joins then
        Absorbs document after target fragment ∧
          Flows document after (earlier ++ [target, fragment]) (earlier ++ [target]) ∧
          ∀ ids ⊆ tail :: waiting, fragment ∉ ids → Flows document after ids ids
      else after = document := by
  have nodup := slot.nodup_all
  have isTarget : target ∈ earlier ++ [target] ++ [tail] ++ waiting := by simp
  have ofRest : ∀ id ∈ tail :: waiting, id ∈ earlier ++ [target] ++ [tail] ++ waiting ∧ id ≠ target := by
    simp only [List.nodup_append, List.nodup_cons, List.mem_append, List.mem_cons] at nodup ⊢
    grind
  have ofEarlier : ∀ id ∈ earlier, id ∈ earlier ++ [target] ++ [tail] ++ waiting ∧ id ≠ target ∧
      id ≠ fragment := by
    simp only [List.nodup_append, List.nodup_cons, List.mem_append, List.mem_cons] at nodup isFragment ⊢
    grind
  rcases ofRest fragment isFragment with ⟨isFragment', differ⟩
  refine (joinFragment_absorbs slot.wellFormed (slot.lt_size isTarget)
    (fun inside => differ (slot.apart fragment isFragment' target isTarget inside))
    fun inside => differ (slot.apart target isTarget fragment isFragment' inside).symm).imp
    fun joins after _ ⟨joinsIs, joined⟩ => ⟨joinsIs, ?_⟩
  rcases joins with _ | _
  · exact joined
  have absorbs : Absorbs document after target fragment := joined
  have others : ∀ ids, (∀ id ∈ ids, id ∈ earlier ++ [target] ++ [tail] ++ waiting ∧ id ≠ target ∧
      id ≠ fragment) → Flows document after ids ids :=
    fun _ => absorbs.flows_of_others slot.apart isTarget isFragment' slot.wellFormed
      fun _ => slot.lt_size
  rw [if_pos rfl]
  refine ⟨absorbs, (others earlier ofEarlier).append
    (absorbs.flows slot.apart isTarget isFragment' slot.wellFormed), fun ids subset notMember => ?_⟩
  refine others ids fun id isMember => ?_
  rcases ofRest id (subset isMember) with ⟨inPool, notTarget⟩
  exact ⟨inPool, notTarget, fun same => notMember (same ▸ isMember)⟩

/-- A fragment that waits goes into the target if both are paragraphs. -/
theorem joinFragment_advances
    (slot : Slot document parent tail left (earlier ++ [target]) right (fragment :: waiting)) :
    Succeeds (joinFragment target fragment) document fun joins after =>
      joins = (document.isNamed target Word.Name.paragraph &&
        document.isNamed fragment Word.Name.paragraph) ∧
      if joins then
        Advances document after parent tail left (earlier ++ [target, fragment]) (earlier ++ [target])
          right waiting
      else after = document := by
  refine (joinFragment_flows slot (by simp)).imp fun joins after _ ⟨joinsIs, joined⟩ => ⟨joinsIs, ?_⟩
  rcases joins with _ | _
  · exact joined
  rcases joined with ⟨absorbs, flows, others⟩
  rw [if_pos rfl]
  refine ⟨absorbs.toRewires.mono (fun _ _ => trivial) fun _ _ => trivial,
    absorbs.slot slot (by simp), flows, fun ids subset => others ids (List.Subset.trans subset (by simp)) ?_⟩
  have nodup := slot.nodup_all
  intro isMember
  have isMember := subset isMember
  simp only [List.nodup_append, List.nodup_cons, List.mem_append, List.mem_cons] at nodup isMember
  grind

/-- A group is merged: its first node goes into the target or gets a place, the others get places. -/
theorem mergeGroup_advances
    (slot : Slot document parent tail left (earlier ++ [target]) right (group ++ waiting)) :
    Succeeds (mergeGroup tail target group) document fun reached after =>
      reached = (group.drop
          (if document.continues target group then 1 else 0)).getLast?.getD target ∧
        Advances document after parent tail left (earlier ++ [target] ++ group)
          (earlier ++ [target] ++ group.drop (if document.continues target group then 1 else 0))
          right waiting := by
  rcases group with _ | ⟨first, rest⟩
  · rw [List.drop_nil, List.append_nil]
    exact Succeeds.of_pure ⟨rfl, Rewires.refl slot.wellFormed, slot, Flows.refl, fun _ _ => Flows.refl⟩
  have firstSlot : Slot document parent tail left (earlier ++ [target]) right
      (first :: (rest ++ waiting)) := slot
  refine (joinFragment_advances firstSlot).bind fun joins middle _ ⟨joinsIs, joined⟩ => ?_
  have starts : document.continues target (first :: rest) = joins := by
    rw [joinsIs, continues, List.head?_cons, Option.any_some]
  rw [starts]
  rcases joins with _ | _
  · have same : middle = document := joined
    rw [same]
    exact placeFragments_advances target slot
  · have joined : Advances document middle parent tail left (earlier ++ [target, first])
        (earlier ++ [target]) right (rest ++ waiting) := joined
    refine (placeFragments_advances target joined.slot).imp
      fun reached after _ ⟨isLast, placed⟩ => ⟨isLast, ?_⟩
    have regroup : earlier ++ [target] ++ first :: rest = earlier ++ [target, first] ++ rest := by simp
    rw [regroup]
    exact joined.trans placed

/-- The merge of a group leads to the last node of the group or stays at the target, and what follows
is a paragraph's successor if it follows a paragraph. -/
theorem mergeGroup_reaches
    (slot : Slot document parent tail left (earlier ++ [target]) right (group ++ waiting)) :
    Succeeds (mergeGroup tail target group) document fun reached after =>
      (∃ earlier', earlier' ++ [reached] =
          earlier ++ [target] ++ group.drop (if document.continues target group then 1 else 0) ∧
        Advances document after parent tail left (earlier ++ [target] ++ group)
          (earlier' ++ [reached]) right waiting) ∧
      (reached = target ∨ group.getLast? = some reached) ∧
      after.isNamed reached Word.Name.paragraph =
        document.isNamed (group.getLast?.getD target) Word.Name.paragraph := by
  refine (mergeGroup_advances slot).imp fun reached after _ ⟨isReached, merged⟩ => ?_
  have isLast : (earlier ++ [target] ++
      group.drop (if document.continues target group then 1 else 0)).getLast? = some reached := by
    rw [List.append_assoc, List.getLast?_append, List.singleton_append, List.getLast?_cons,
      ← isReached, Option.some_or]
  have placedIs := List.dropLast_append_getLast? reached isLast
  have inPool : reached ∈ earlier ++ [target] ++ [tail] ++ (group ++ waiting) := by
    have isMember := List.mem_of_getLast? isLast
    simp only [List.mem_append] at isMember ⊢
    exact isMember.imp Or.inl fun isOfGroup => Or.inl (List.mem_of_mem_drop isOfGroup)
  rw [merged.rewires.isNamed_eq (slot.lt_size inPool)]
  refine ⟨⟨_, placedIs, placedIs.symm ▸ merged⟩, ?_⟩
  rw [isReached]
  rcases getLast?_drop_continues document target group with
    same | ⟨⟨fragment, rfl, fragmentNamed⟩, targetNamed, same⟩
  · rw [same]
    refine ⟨?_, rfl⟩
    rcases group.getLast? with _ | last
    · exact Or.inl rfl
    · exact Or.inr rfl
  · rw [same]
    exact ⟨Or.inl rfl, targetNamed.trans fragmentNamed.symm⟩

/-- After the last group the tail goes into the target or keeps its place. -/
theorem mergeTail_merges (slot : Slot document parent tail left (earlier ++ [target]) right []) :
    Succeeds (mergeGroups tail target []) document fun junctions after =>
      Merges document after parent left (earlier ++ [target, tail])
        (earlier ++ [target] ++ document.standing target [[tail]]) right ∧
      ∀ junction ∈ junctions, junction ∈ earlier ++ [target] ++ document.standing target [[tail]] ∧
        (junction = target ∨ junction = tail) := by
  refine (joinFragment_flows slot List.mem_cons_self).bind fun joins middle _ ⟨joinsIs, joined⟩ => ?_
  have starts : document.continues target [tail] = joins := by
    rw [joinsIs, continues, List.head?_cons, Option.any_some]
  rw [standing, standing, starts]
  rcases joins with _ | _
  · have same : middle = document := joined
    rw [same]
    refine Succeeds.of_pure ⟨⟨Rewires.refl slot.wellFormed, ?_, ?_⟩, by simp⟩
    · rw [slot.children_eq]
      simp
    · simpa using Flows.refl
  · rcases joined with ⟨absorbs, flows, -⟩
    refine Succeeds.of_pure ⟨⟨?_, ?_, by simpa using flows⟩, by simp⟩
    · exact absorbs.toRewires.mono (fun _ _ => trivial) fun _ _ => trivial
    · have isTarget : target ∈ earlier ++ [target] ++ [tail] := by simp
      have isTail : tail ∈ earlier ++ [target] ++ [tail] := by simp
      have targetParent := slot.parent_of_mem isTarget
      have tailParent := slot.parent_of_mem isTail
      have nodup := slot.wellFormed.nodup_children parent
      rw [slot.children_eq] at nodup
      rw [absorbs.siblings_eq parent (parent_lt_size slot.wellFormed targetParent)
        (slot.not_joinPart targetParent (not_liesIn_of_parent slot.wellFormed tailParent)),
        slot.children_eq, filter_ne_append_cons nodup]
      simp

/-- All groups are merged, and then the tail. The junctions are among the nodes that have a place. -/
theorem mergeGroups_merges
    (slot : Slot document parent tail left (earlier ++ [target]) right groups.flatten) :
    Succeeds (mergeGroups tail target groups) document fun junctions after =>
      Merges document after parent left (earlier ++ [target] ++ (groups ++ [[tail]]).flatten)
        (earlier ++ [target] ++ document.standing target (groups ++ [[tail]])) right ∧
      ∀ junction ∈ junctions,
        junction ∈ earlier ++ [target] ++ document.standing target (groups ++ [[tail]]) ∧
        (junction = target ∨ ∃ group ∈ groups ++ [[tail]], group.getLast? = some junction) := by
  induction groups generalizing document earlier target with
  | nil =>
      refine (mergeTail_merges slot).imp fun junctions after _ ⟨merges, areJunctions⟩ =>
        ⟨by simpa using merges, fun junction isJunction => ?_⟩
      rcases areJunctions junction isJunction with ⟨isPlaced, same⟩
      exact ⟨isPlaced, same.imp_right fun isTail => ⟨[tail], by simp, by simp [isTail]⟩⟩
  | cons group groups inductionHypothesis =>
      have groupSlot : Slot document parent tail left (earlier ++ [target]) right
          (group ++ groups.flatten) := slot
      refine (mergeGroup_reaches groupSlot).bind
        fun reached middle _ ⟨⟨earlier', placedIs, merged⟩, isLast, sameName⟩ => ?_
      have sameStanding : middle.standing reached (groups ++ [[tail]]) =
          document.standing (group.getLast?.getD target) (groups ++ [[tail]]) := by
        refine standing_congr sameName fun node isMember => merged.rewires.isNamed_eq ?_ _
        refine groupSlot.lt_size ?_
        simp only [List.flatten_append, List.flatten_singleton, List.mem_append,
          List.mem_singleton] at isMember ⊢
        tauto
      refine (inductionHypothesis merged.slot).bind fun junctions after _ ⟨merges, areJunctions⟩ => ?_
      have standingIs : earlier' ++ [reached] ++ middle.standing reached (groups ++ [[tail]]) =
          earlier ++ [target] ++ document.standing target (group :: groups ++ [[tail]]) := by
        rw [placedIs, sameStanding, List.append_assoc]
        rfl
      rw [standingIs] at merges areJunctions
      have restFlows := merged.others (groups ++ [[tail]]).flatten (by simp)
      refine Succeeds.of_pure ⟨⟨?_, merges.children_eq, ?_⟩, ?_⟩
      · exact merged.rewires.trans merges.rewires (fun _ _ => trivial) (fun _ _ => trivial)
          (fun _ _ _ => trivial) fun _ _ _ => trivial
      · have flows := (merged.flows.append restFlows).trans merges.flows
        rwa [List.append_assoc _ group, ← List.flatten_cons] at flows
      · intro junction isJunction
        have isLater : junction = target ∨ junction ∈ junctions := by
          split at isJunction
          · exact Or.inr isJunction
          · exact List.mem_cons.mp isJunction
        rcases isLater with rfl | isLater
        · exact ⟨by simp, Or.inl rfl⟩
        · rcases areJunctions junction isLater with ⟨isPlaced, rfl | ⟨group', isGroup, isLast'⟩⟩
          · exact ⟨isPlaced, isLast.imp_right fun isLast => ⟨group, by simp, isLast⟩⟩
          · exact ⟨isPlaced, Or.inr ⟨group', List.mem_cons_of_mem _ isGroup, isLast'⟩⟩

end Edit

end WordTemplate
