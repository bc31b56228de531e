import WordTemplate.Container.Fragments
import WordTemplate.Proofs.Document.Local
import WordTemplate.Proofs.Word.Joining

/-!
# Merging fragments

Groups of nodes go back to the place that a region was cut out from. While that happens everything
before the place has its final running text, and the nodes that still wait are detached.
-/

namespace WordTemplate

namespace Document

variable {zone touched : NodeId → Prop} {rights : Rights} {document before middle after : Document}
  {id node parent target tail fragment : NodeId} {placed rest waiting left right : List NodeId}

/-- There is room for the waiting nodes before `tail`, a child of `parent`. Nothing above `parent` is
in the zone. -/
structure Seam (zone : NodeId → Prop) (rights : Rights) (document : Document)
    (parent tail : NodeId) (placed rest waiting : List NodeId) : Prop where
  wellFormed : document.WellFormed
  closed : document.Closed zone rights
  inZone : zone parent
  unplaced : ¬rights.places parent
  spared : ∀ id, document.LiesIn id parent → id ≠ parent → ¬zone id
  shows : document.showsChildren parent = true
  children_eq : document.children parent = placed ++ tail :: rest
  nodup : waiting.Nodup
  detached : ∀ node ∈ waiting, document.parent node = none
  inStore : ∀ node ∈ waiting, node.index < document.size
  waitingInZone : ∀ node ∈ waiting, zone node
  places : ∀ node ∈ waiting, rights.places node

namespace Seam

variable (seam : Seam zone rights document parent tail placed rest waiting)
include seam

theorem parent_of_mem (isChild : id ∈ placed ++ tail :: rest) :
    document.parent id = some parent := by
  rwa [← seam.wellFormed.mem_children_iff, seam.children_eq]

theorem tailParent : document.parent tail = some parent := seam.parent_of_mem (by simp)

/-- A waiting node is not above the place. -/
theorem not_above (isWaiting : node ∈ waiting) : ¬document.LiesIn node parent := by
  intro above
  by_cases same : node = parent
  · exact seam.unplaced (same ▸ seam.places node isWaiting)
  · exact seam.spared node above same (seam.waitingInZone node isWaiting)

/-- A waiting node and a child of `parent` lie apart. -/
theorem apart (isWaiting : node ∈ waiting) (isChild : document.parent id = some parent) :
    ¬document.LiesIn node id ∧ ¬document.LiesIn id node := by
  have isDetached := seam.detached node isWaiting
  have differ : id ≠ node := by
    rintro rfl
    simp [isDetached] at isChild
  constructor
  · intro inside
    rcases inside.cases_above isChild with same | above
    · exact differ same
    · exact seam.not_above isWaiting above
  · exact fun inside => differ (inside.eq_of_parent_none isDetached).symm

/-- Waiting nodes lie apart. -/
theorem apart_waiting {other : NodeId} (isWaiting : node ∈ waiting) (differ : other ≠ node) :
    ¬document.LiesIn other node := fun inside =>
  differ (inside.eq_of_parent_none (seam.detached node isWaiting)).symm

/-- Different children of `parent` lie apart. -/
theorem apart_children {other : NodeId} (isChild : id ∈ placed ++ tail :: rest)
    (isOther : other ∈ placed ++ tail :: rest) (differ : id ≠ other) :
    ¬document.LiesIn id other :=
  not_liesIn_of_siblings seam.wellFormed (seam.parent_of_mem isOther) (seam.parent_of_mem isChild)
    differ.symm LiesIn.refl

theorem nodup_children : (placed ++ tail :: rest).Nodup := by
  rw [← seam.children_eq]
  exact seam.wellFormed.nodup_children parent

/-- No change within the zone moves anything above the place. -/
theorem liesIn_iff (changes : ChangesWithin zone rights document after) :
    after.LiesIn id parent ↔ document.LiesIn id parent := by
  refine changes.liesIn_iff seam.wellFormed seam.closed seam.spared fun isDetached => ?_
  have shows := seam.shows
  rw [showsChildren, Bool.and_eq_true, Bool.not_eq_true', Bool.not_eq_true'] at shows
  exact changes.detached seam.unplaced (parent_lt_size seam.wellFormed seam.tailParent) shows.2
    isDetached

/-- What a change within the zone has to keep for the place to stay. -/
theorem of_changes {placed' waiting' : List NodeId}
    (changes : ChangesWithin zone rights document after)
    (children_eq : after.children parent = placed' ++ tail :: rest)
    (fewer : waiting'.Sublist waiting)
    (detached : ∀ node ∈ waiting', after.parent node = none) :
    Seam zone rights after parent tail placed' rest waiting' where
  wellFormed := changes.wellFormed
  closed := changes.closed
  inZone := seam.inZone
  unplaced := seam.unplaced
  spared id above differ := seam.spared id ((seam.liesIn_iff changes).mp above) differ
  shows := by
    rw [changes.showsChildren_eq (parent_lt_size seam.wellFormed seam.tailParent), seam.shows]
  children_eq := children_eq
  nodup := seam.nodup.sublist fewer
  detached := detached
  inStore node isWaiting :=
    Nat.lt_of_lt_of_le (seam.inStore node (fewer.subset isWaiting)) changes.size_le
  waitingInZone node isWaiting := seam.waitingInZone node (fewer.subset isWaiting)
  places node isWaiting := seam.places node (fewer.subset isWaiting)

/-- The children of `parent` and the waiting nodes are in the store, below or beside `parent`. -/
theorem spared_of_mem (isMember : id ∈ placed ++ tail :: rest ∨ id ∈ waiting) :
    id.index < document.size ∧ ¬document.LiesIn id parent := by
  rcases isMember with isChild | isWaiting
  · have isParent := seam.parent_of_mem isChild
    exact ⟨lt_size_of_parent isParent, not_liesIn_of_parent seam.wellFormed isParent⟩
  · exact ⟨seam.inStore id isWaiting, seam.not_above isWaiting⟩

omit seam in
/-- While the target and the tail are joined, the other children keep their running text. -/
theorem flatMap_of_joinedTail {ids : List NodeId}
    (seam : Seam zone rights document parent tail (placed ++ [target]) rest waiting)
    (rearranges : Rearranges zone rights
      (fun id => document.LiesIn id target ∨ document.LiesIn id tail) document middle)
    (subset : ids ⊆ placed ++ rest) :
    ids.flatMap middle.runningTexts = ids.flatMap document.runningTexts := by
  have nodup := seam.nodup_children
  have isOther : ∀ id ∈ ids, id ∈ placed ++ [target] ++ tail :: rest ∧ id ≠ target ∧ id ≠ tail := by
    intro id isMember
    have isMember := subset isMember
    simp only [List.nodup_append, List.nodup_cons, List.mem_cons] at nodup
    simp only [List.mem_append, List.mem_cons] at isMember ⊢
    grind
  refine rearranges.flatMap_eq (fun id isMember => ?_) fun id isMember => ?_
  · exact (seam.spared_of_mem (Or.inl (isOther id isMember).1)).1
  · rcases isOther id isMember with ⟨isChild, notTarget, notTail⟩
    rintro (above | above)
    · exact seam.apart_children isChild (by simp) notTarget above
    · exact seam.apart_children isChild (by simp) notTail above

omit seam in
/-- While a waiting node is joined to the target, the other nodes keep their running text. -/
theorem flatMap_of_joinedWaiting {first : NodeId} {ids : List NodeId}
    (seam : Seam zone rights document parent tail (placed ++ [target]) rest (first :: waiting))
    (rearranges : Rearranges zone rights
      (fun id => document.LiesIn id target ∨ document.LiesIn id first) document middle)
    (subset : ids ⊆ placed ++ waiting) :
    ids.flatMap middle.runningTexts = ids.flatMap document.runningTexts := by
  have isWaiting : first ∈ first :: waiting := List.mem_cons_self
  have place : ∀ id ∈ ids, id ∈ placed ∨ id ∈ waiting := fun id isMember =>
    List.mem_append.mp (subset isMember)
  refine rearranges.flatMap_eq (fun id isMember => ?_) fun id isMember => ?_
  · refine (seam.spared_of_mem ((place id isMember).imp (fun isPlaced => ?_) fun isLater => ?_)).1
    · simp [isPlaced]
    · exact List.mem_cons_of_mem _ isLater
  · rcases place id isMember with isPlaced | isLater
    · have isChild : id ∈ placed ++ [target] ++ tail :: rest := by simp [isPlaced]
      have notTarget : id ≠ target := by
        rintro rfl
        have nodup := (List.nodup_append.mp seam.nodup_children).1
        exact (List.nodup_append.mp nodup).2.2 id isPlaced id List.mem_cons_self rfl
      rintro (above | above)
      · exact seam.apart_children isChild (by simp) notTarget above
      · exact (seam.apart isWaiting (seam.parent_of_mem isChild)).2 above
    · have notFirst : id ≠ first := by
        rintro rfl
        exact (List.nodup_cons.mp seam.nodup).1 isLater
      rintro (above | above)
      · exact (seam.apart (List.mem_cons_of_mem _ isLater) (seam.parent_of_mem (by simp))).1 above
      · exact seam.apart_waiting isWaiting notFirst above

omit seam in
/-- While a group is merged, what is still to be merged and what follows keep their running text. -/
theorem flatMap_of_mergedGroup {group later : List NodeId}
    (seam : Seam zone rights document parent tail (placed ++ [target]) rest (group ++ later))
    (rearranges : Rearranges zone rights
      (fun id => document.LiesIn id parent ∨ id ∈ target :: group) document middle) :
    (later ++ tail :: rest).flatMap middle.runningTexts =
      (later ++ tail :: rest).flatMap document.runningTexts := by
  have isSpared : ∀ id ∈ later ++ tail :: rest,
      id.index < document.size ∧ ¬document.LiesIn id parent := by
    intro id isMember
    refine seam.spared_of_mem ((List.mem_append.mp isMember).symm.imp (fun isChild => ?_) fun isLater => ?_)
    · exact List.mem_append_right _ isChild
    · exact List.mem_append_right _ isLater
  have targetParent : document.parent target = some parent := seam.parent_of_mem (by simp)
  refine rearranges.flatMap_eq (fun id isMember => (isSpared id isMember).1) fun id isMember => ?_
  rintro (above | isDone)
  · exact (isSpared id isMember).2 above
  rcases List.mem_append.mp isMember with isLater | isChild
  · rcases List.mem_cons.mp isDone with rfl | isGroup
    · rw [seam.detached id (List.mem_append_right _ isLater)] at targetParent
      cases targetParent
    · exact (List.nodup_append.mp seam.nodup).2.2 id isGroup id isLater rfl
  · rcases List.mem_cons.mp isDone with rfl | isGroup
    · exact (List.nodup_append.mp seam.nodup_children).2.2 id (by simp) id isChild rfl
    · have isParent := seam.parent_of_mem (List.mem_append_right _ isChild)
      rw [seam.detached id (List.mem_append_left _ isGroup)] at isParent
      cases isParent

end Seam

end Document

namespace Edit

open Outcome Document

variable {zone : NodeId → Prop} {rights : Rights} {document document' : Document}
  {node parent target tail fragment reached : NodeId} {placed rest waiting nodes : List NodeId}
  {result : Unit} {joins : Bool}

/-- A waiting node is placed before `tail`. -/
theorem seam_of_insertBefore
    (seam : Seam zone rights document parent tail placed rest (node :: waiting))
    (done : insertBefore node tail document = .ok result document') :
    Seam zone rights document' parent tail (placed ++ [node]) rest waiting ∧
      (∀ id, ¬document.LiesIn id parent →
        document'.runningTexts id = document.runningTexts id) ∧
      Rearranges zone rights (fun id => document.LiesIn id parent ∨ id = node)
        document document' := by
  have isDetached := seam.detached node List.mem_cons_self
  rcases moves_of_insertBefore seam.wellFormed (seam.inStore node List.mem_cons_self) done with
    ⟨parent', left, right, isParent, -, moves⟩
  rw [seam.tailParent, Option.some.injEq] at isParent
  subst isParent
  have nodup := seam.wellFormed.nodup_children parent
  have others := moves.others_eq
  rw [filter_children_of_parent_none seam.wellFormed isDetached, seam.children_eq] at others
  rw [seam.children_eq] at nodup
  rcases append_cons_inj nodup others with ⟨rfl, rfl⟩
  have changes := moves.changesWithin seam.wellFormed seam.closed seam.inZone
    (seam.waitingInZone node List.mem_cons_self)
    (movable_of_parent_none isDetached (seam.places node List.mem_cons_self))
  refine ⟨seam.of_changes changes (by simp [moves.children_eq]) (List.sublist_cons_self _ _) ?_,
    fun _ => moves.runningTexts_eq seam.wellFormed isDetached, changes, ?_, ?_⟩
  · intro other isWaiting
    have differ : other ≠ node := by
      rintro rfl
      exact (List.nodup_cons.mp seam.nodup).1 isWaiting
    rw [moves.parent_eq, if_neg differ, seam.detached other (List.mem_cons_of_mem _ isWaiting)]
  · exact fun _ untouched =>
      moves.runningTexts_eq seam.wellFormed isDetached fun above => untouched (Or.inl above)
  · intro id holder _ untouched _ isHolder _
    rw [moves.parent_eq, if_neg fun same => untouched (Or.inr same)] at isHolder
    exact Or.inl isHolder

/-- Waiting nodes are placed before `tail`, one after the other. -/
theorem seam_of_forM_insertBefore
    (seam : Seam zone rights document parent tail placed rest (nodes ++ waiting))
    (done : (forM nodes fun node => insertBefore node tail) document = .ok result document') :
    Seam zone rights document' parent tail (placed ++ nodes) rest waiting ∧
      (∀ id, id.index < document.size → ¬document.LiesIn id parent →
        document'.runningTexts id = document.runningTexts id) ∧
      Rearranges zone rights (fun id => document.LiesIn id parent ∨ id ∈ nodes)
        document document' := by
  induction nodes generalizing document placed with
  | nil =>
      rw [forM_nil_eq_ok] at done
      subst done
      simpa using ⟨seam, Rearranges.refl seam.wellFormed seam.closed⟩
  | cons node nodes inductionHypothesis =>
      rw [forM_cons_eq_ok] at done
      rcases done with ⟨middle, inserted, done⟩
      rcases seam_of_insertBefore seam inserted with ⟨seam', firstTexts, first⟩
      rcases inductionHypothesis seam' done with ⟨seam'', texts, others⟩
      refine ⟨by simpa using seam'', ?_, ?_⟩
      · intro id isOld notAbove
        rw [texts id (Nat.lt_of_lt_of_le isOld first.size_le) fun above =>
          notAbove ((seam.liesIn_iff first.toChangesWithin).mp above), firstTexts id notAbove]
      · refine (first.touching seam.wellFormed _ ?_).trans
          (others.touching first.wellFormed _ ?_) seam.wellFormed
        · rintro id - (above | rfl)
          · exact Or.inl above
          · exact Or.inr List.mem_cons_self
        · rintro id - (above | isMember)
          · exact Or.inl ((seam.liesIn_iff first.toChangesWithin).mp above)
          · exact Or.inr (List.mem_cons_of_mem _ isMember)

/-- Placing fragments inserts them in turn, and the last node that it leads to is reached. -/
theorem forM_of_placeFragments
    (done : placeFragments tail target nodes document = .ok reached document') :
    (forM nodes fun node => insertBefore node tail) document = .ok ⟨⟩ document' ∧
      ∃ earlier, target :: nodes = earlier ++ [reached] := by
  induction nodes generalizing document target with
  | nil =>
      simp only [placeFragments, pure_eq_ok] at done
      rw [forM_nil_eq_ok]
      exact ⟨done.2, [], by rw [done.1, List.nil_append]⟩
  | cons node nodes inductionHypothesis =>
      simp only [placeFragments, bind_eq_ok] at done
      rcases done with ⟨⟨⟩, middle, inserted, done⟩
      rcases inductionHypothesis done with ⟨placed, earlier, whole⟩
      rw [forM_cons_eq_ok]
      exact ⟨⟨middle, inserted, placed⟩, target :: earlier, by rw [whole, List.cons_append]⟩

theorem seam_of_placeFragments
    (seam : Seam zone rights document parent tail (placed ++ [target]) rest (nodes ++ waiting))
    (done : placeFragments tail target nodes document = .ok reached document') :
    ∃ placed', Seam zone rights document' parent tail (placed' ++ [reached]) rest waiting ∧
      placed' ++ [reached] = placed ++ target :: nodes ∧ reached ∈ target :: nodes ∧
      (∀ id, id.index < document.size → ¬document.LiesIn id parent →
        document'.runningTexts id = document.runningTexts id) ∧
      Rearranges zone rights (fun id => document.LiesIn id parent ∨ id ∈ nodes)
        document document' := by
  rcases forM_of_placeFragments done with ⟨placedAll, earlier, whole⟩
  rcases seam_of_forM_insertBefore seam placedAll with ⟨seam', texts, rearranges⟩
  have regroup : placed ++ [target] ++ nodes = placed ++ earlier ++ [reached] := by
    rw [List.append_assoc, List.singleton_append, whole, List.append_assoc]
  rw [regroup] at seam'
  exact ⟨placed ++ earlier, seam', by rw [whole, List.append_assoc], by simp [whole], texts,
    rearranges⟩

/-- A fragment that could be joined into a target has given it all of its running text. -/
theorem joined_of_joinFragment (wellFormed : document.WellFormed)
    (closed : document.Closed zone rights) (differ : target ≠ fragment)
    (apart : ¬document.LiesIn fragment target) (apart' : ¬document.LiesIn target fragment)
    (inZone : zone target) (fragmentInZone : zone fragment)
    (parentInZone : ∀ parent, document.parent fragment = some parent → zone parent)
    (mayPlace : document.parent fragment = none → rights.places fragment)
    (done : joinFragment target fragment document = .ok joins document') :
    (joins = false ∧ document' = document) ∨
      (joins = true ∧
        document'.runningTexts target =
          document.runningTexts target ++ document.runningTexts fragment ∧
        (∀ id, id.index < document.size → ¬document.LiesIn target id →
          ¬document.LiesIn fragment id →
          document'.children id = (document.children id).filter (· != fragment) ∧
            document'.parent id = document.parent id) ∧
        Rearranges zone rights
          (fun id => document.LiesIn id target ∨ document.LiesIn id fragment)
          document document') := by
  simp only [joinFragment, get_bind] at done
  by_cases named : document.isNamed target Word.Name.paragraph &&
    document.isNamed fragment Word.Name.paragraph
  · simp only [named, if_true, bind_eq_ok, detach_eq_ok, pure_eq_ok] at done
    rcases done with ⟨⟨⟩, joined, joinDone, _, _, rfl, rfl, rfl⟩
    rw [Bool.and_eq_true] at named
    rcases joined_of_joinParagraphs wellFormed closed differ named.1 named.2 apart apart' inZone
      fragmentInZone joinDone with ⟨⟨texts, emptied⟩, rearranges⟩
    -- Joining changes nothing outside the two paragraphs.
    have closedPart : document.Closed (fun id => document.LiesIn target id ∨
        document.Below fragment id) rights :=
      closed_two wellFormed (fun _ => closed.freshPlaces) target fragment
    have partChanges := (joined_of_joinParagraphs wellFormed closedPart differ named.1 named.2 apart
      apart' (Or.inl LiesIn.refl) (Or.inr (Or.inl LiesIn.refl)) joinDone).2.toChangesWithin
    have outside : ∀ {id}, id.index < document.size → ¬document.LiesIn target id →
        ¬document.LiesIn fragment id →
        ¬(document.LiesIn target id ∨ document.Below fragment id) := by
      rintro id isOld notTarget notFragment (inside | inside | isNew)
      · exact notTarget inside
      · exact notFragment inside
      · exact absurd isOld (Nat.not_lt_of_le isNew)
    have stays : ∀ parent, document.parent fragment = some parent →
        joined.parent fragment = some parent := by
      intro parent isParent
      rw [← rearranges.wellFormed.mem_children_iff, partChanges.children_eq
        (outside (parent_lt_size wellFormed isParent)
          (fun inside => apart' (LiesIn.of_parent isParent inside))
          (not_liesIn_of_parent wellFormed isParent)), wellFormed.mem_children_iff, isParent]
    have movable : joined.Movable zone rights fragment := {
      parent := rearranges.parent_mem wellFormed parentInZone
      detached := by
        intro isDetached _
        rcases isParent : document.parent fragment with _ | parent
        · exact mayPlace isParent
        · simp [stays parent isParent] at isDetached }
    have detached := neutral_detach rearranges.wellFormed rearranges.closed movable emptied
    have joined_lt : ∀ {id : NodeId}, id.index < document.size → id.index < joined.size :=
      fun isOld => Nat.lt_of_lt_of_le isOld rearranges.size_le
    refine Or.inr ⟨rfl, ?_, ?_, rearranges.trans detached.rearranges wellFormed⟩
    · rw [detached.runningTexts_eq (joined_lt (lt_size_of_isNamed named.1)), texts]
    · intro id isOld notTarget notFragment
      have isOutside := outside isOld notTarget notFragment
      have notSame : id ≠ fragment := by
        rintro rfl
        exact notFragment LiesIn.refl
      rw [children_detach rearranges.wellFormed, parent_detach rearranges.wellFormed,
        partChanges.children_eq isOutside, if_neg notSame,
        partChanges.parent_eq wellFormed closedPart isOutside]
      exact ⟨rfl, rfl⟩
  · simp only [named, Bool.false_eq_true, if_false, pure_eq_ok] at done
    exact Or.inl ⟨done.1.symm, done.2.symm⟩

/-- A seam stays one when the first waiting node joins the target or is left for later. -/
theorem seam_of_joinFragment {joins : Bool}
    (seam : Seam zone rights document parent tail (placed ++ [target]) rest (first :: waiting))
    (done : joinFragment target first document = .ok joins document') :
    (joins = false ∧ document' = document) ∨
      (joins = true ∧
        Seam zone rights document' parent tail (placed ++ [target]) rest waiting ∧
        document'.runningTexts target =
          document.runningTexts target ++ document.runningTexts first ∧
        Rearranges zone rights
          (fun id => document.LiesIn id target ∨ document.LiesIn id first) document document') := by
  have isWaiting : first ∈ first :: waiting := List.mem_cons_self
  have isDetached := seam.detached first isWaiting
  have targetParent : document.parent target = some parent := seam.parent_of_mem (by simp)
  have apart := seam.apart isWaiting targetParent
  have differ : target ≠ first := fun same => apart.1 (same ▸ LiesIn.refl)
  rcases joined_of_joinFragment seam.wellFormed seam.closed differ apart.1 apart.2
    (seam.closed.child targetParent seam.inZone) (seam.waitingInZone first isWaiting)
    (fun outer isOuter => by simp [isDetached] at isOuter) (fun _ => seam.places first isWaiting)
    done with unchanged | ⟨joined, texts, outside, rearranges⟩
  · exact Or.inl unchanged
  refine Or.inr ⟨joined, ?_, texts, rearranges⟩
  refine seam.of_changes rearranges.toChangesWithin ?_ (List.sublist_cons_self _ _) ?_
  · rw [(outside parent (parent_lt_size seam.wellFormed targetParent)
      (not_liesIn_of_parent seam.wellFormed targetParent)
      (seam.not_above isWaiting)).1, filter_children_of_parent_none seam.wellFormed isDetached,
      seam.children_eq]
  · intro id isMember
    have isWaiting' : id ∈ first :: waiting := List.mem_cons_of_mem _ isMember
    have notFirst : first ≠ id := by
      rintro rfl
      exact (List.nodup_cons.mp seam.nodup).1 isMember
    rw [(outside id (seam.inStore id isWaiting') (seam.apart isWaiting' targetParent).2
      (seam.apart_waiting isWaiting' notFirst)).2, seam.detached id isWaiting']

/-- A group is merged: its running text follows what was placed before. -/
theorem seam_of_mergeGroup
    (seam : Seam zone rights document parent tail (placed ++ [target]) rest (nodes ++ waiting))
    (done : mergeGroup tail target nodes document = .ok reached document') :
    ∃ placed', Seam zone rights document' parent tail (placed' ++ [reached]) rest waiting ∧
      (placed' ++ [reached]).flatMap document'.runningTexts =
        (placed ++ target :: nodes).flatMap document.runningTexts ∧
      reached ∈ target :: nodes ∧
      Rearranges zone rights (fun id => document.LiesIn id parent ∨ id ∈ target :: nodes)
        document document' := by
  rcases nodes with _ | ⟨first, others⟩
  · simp only [mergeGroup, pure_eq_ok] at done
    rcases done with ⟨rfl, rfl⟩
    exact ⟨placed, seam, by simp, by simp, Rearranges.refl seam.wellFormed seam.closed⟩
  simp only [mergeGroup, bind_eq_ok] at done
  rcases done with ⟨joins, middle, joined, done⟩
  have isDetached := seam.detached first (by simp)
  have targetParent : document.parent target = some parent := seam.parent_of_mem (by simp)
  have spared : ∀ id ∈ placed ++ target :: first :: others,
      id.index < document.size ∧ ¬document.LiesIn id parent := by
    intro id isMember
    refine seam.spared_of_mem ?_
    simp only [List.mem_append, List.mem_cons] at isMember ⊢
    tauto
  rcases seam_of_joinFragment seam joined with ⟨rfl, rfl⟩ | ⟨rfl, seam', texts, rearranges⟩
  · simp only [Bool.false_eq_true, if_false] at done
    rcases seam_of_placeFragments seam done with
      ⟨placed', seam', placedIs, isReached, texts, rearranges⟩
    refine ⟨placed', seam', ?_, ?_, rearranges.touching seam.wellFormed _ ?_⟩
    · rw [placedIs]
      exact List.flatMap_congr fun id isMember => texts id (spared id isMember).1 (spared id isMember).2
    · rcases List.mem_cons.mp isReached with same | isMember
      · exact List.mem_cons.mpr (Or.inl same)
      · exact List.mem_cons_of_mem _ isMember
    · rintro id - (above | isMember)
      · exact Or.inl above
      · exact Or.inr (List.mem_cons_of_mem _ isMember)
  · simp only [if_true] at done
    rcases seam_of_placeFragments seam' done with
      ⟨placed', seam'', placedIs, isReached, texts', rearranges'⟩
    have kept : ∀ {ids : List NodeId}, ids ⊆ placed ++ (others ++ waiting) →
        ids.flatMap middle.runningTexts = ids.flatMap document.runningTexts :=
      seam.flatMap_of_joinedWaiting rearranges
    refine ⟨placed', seam'', ?_, ?_, (rearranges.touching seam.wellFormed _ ?_).trans
      (rearranges'.touching rearranges.wellFormed _ ?_) seam.wellFormed⟩
    · have same : (placed ++ target :: others).flatMap document'.runningTexts =
          (placed ++ target :: others).flatMap middle.runningTexts := by
        refine List.flatMap_congr fun id isMember => ?_
        have isSpared := spared id (by
          simp only [List.mem_append, List.mem_cons] at isMember ⊢
          tauto)
        exact texts' id (Nat.lt_of_lt_of_le isSpared.1 rearranges.size_le) fun above =>
          isSpared.2 ((seam.liesIn_iff rearranges.toChangesWithin).mp above)
      rw [placedIs, same, List.flatMap_append, List.flatMap_cons, texts,
        kept (List.subset_append_left _ _),
        kept fun id isMember => List.mem_append_right _ (List.mem_append_left _ isMember)]
      simp
    · simp only [List.mem_cons] at isReached ⊢
      tauto
    · rintro id - (above | above)
      · rcases above.cases_above targetParent with same | above
        · exact Or.inr (same ▸ List.mem_cons_self)
        · exact Or.inl above
      · exact Or.inr (above.eq_of_parent_none isDetached ▸ by simp)
    · rintro id - (above | isMember)
      · exact Or.inl ((seam.liesIn_iff rearranges.toChangesWithin).mp above)
      · exact Or.inr (List.mem_cons_of_mem _ (List.mem_cons_of_mem _ isMember))

/-- Whether or not the tail can be joined into the target, its running text follows. -/
theorem runningTexts_of_joinedTail
    (seam : Seam zone rights document parent tail (placed ++ [target]) rest waiting)
    (joined : joinFragment target tail document = .ok joins document') :
    document'.runningTexts parent =
        (placed ++ target :: tail :: rest).flatMap document.runningTexts ∧
      Rearranges zone rights (fun id => document.LiesIn id parent ∨ id ∈ [target, tail])
        document document' := by
  have targetParent : document.parent target = some parent := seam.parent_of_mem (by simp)
  have nodup := seam.nodup_children
  have differ : target ≠ tail := by
    rintro rfl
    exact (List.nodup_append.mp nodup).2.2 target (by simp) target (by simp) rfl
  rcases joined_of_joinFragment seam.wellFormed seam.closed differ
    (seam.apart_children (by simp) (by simp) differ.symm)
    (seam.apart_children (by simp) (by simp) differ)
    (seam.closed.child targetParent seam.inZone) (seam.closed.child seam.tailParent seam.inZone)
    (fun outer isOuter => by
      rw [seam.tailParent, Option.some.injEq] at isOuter
      exact isOuter ▸ seam.inZone)
    (fun isDetached => by simp [seam.tailParent] at isDetached) joined with
    ⟨-, rfl⟩ | ⟨-, texts, outside, rearranges⟩
  · refine ⟨?_, Rearranges.refl seam.wellFormed seam.closed⟩
    rw [runningTexts_of_showsChildren seam.wellFormed seam.shows, seam.children_eq]
    simp
  have parent_lt := parent_lt_size seam.wellFormed targetParent
  have children_eq : document'.children parent = placed ++ target :: rest := by
    rw [(outside parent parent_lt (not_liesIn_of_parent seam.wellFormed targetParent)
      (not_liesIn_of_parent seam.wellFormed seam.tailParent)).1, seam.children_eq,
      filter_ne_append_cons nodup]
    simp
  have shows : document'.showsChildren parent = true := by
    rw [rearranges.showsChildren_eq parent_lt, seam.shows]
  refine ⟨?_, rearranges.touching seam.wellFormed _ ?_⟩
  · rw [runningTexts_of_showsChildren rearranges.wellFormed shows, children_eq, List.flatMap_append,
      List.flatMap_cons, texts,
      seam.flatMap_of_joinedTail rearranges (List.subset_append_left _ _),
      seam.flatMap_of_joinedTail rearranges (List.subset_append_right _ _)]
    simp
  · rintro id - (above | above)
    · exact (above.cases_above targetParent).symm.imp_right fun same => by simp [same]
    · exact (above.cases_above seam.tailParent).symm.imp_right fun same => by simp [same]

/-- Once all groups and the tail are merged, their running text stands between what was before and
what was after the place. -/
theorem runningTexts_of_mergeGroups {groups : List (List NodeId)} {junctions : List NodeId}
    (seam : Seam zone rights document parent tail (placed ++ [target]) rest groups.flatten)
    (done : mergeGroups tail target groups document = .ok junctions document') :
    document'.runningTexts parent =
        (placed ++ target :: groups.flatten ++ tail :: rest).flatMap document.runningTexts ∧
      (∀ id ∈ junctions, id ∈ target :: tail :: groups.flatten) ∧
      Rearranges zone rights
        (fun id => document.LiesIn id parent ∨ id ∈ target :: tail :: groups.flatten)
        document document' := by
  induction groups generalizing document target placed junctions with
  | nil =>
      simp only [mergeGroups, bind_eq_ok] at done
      rcases done with ⟨joins, middle, joined, done⟩
      rcases runningTexts_of_joinedTail seam joined with ⟨texts, rearranges⟩
      split at done <;> rcases pure_eq_ok.mp done with ⟨rfl, rfl⟩
      · exact ⟨by simpa using texts, by simp, rearranges⟩
      · exact ⟨by simpa using texts, by simp, rearranges⟩
  | cons group groups inductionHypothesis =>
      simp only [mergeGroups, bind_eq_ok, pure_eq_ok] at done
      rcases done with ⟨reached, middle, merged, further, after, done, rfl, rfl⟩
      have seam₀ : Seam zone rights document parent tail (placed ++ [target]) rest
          (group ++ groups.flatten) := seam
      rcases seam_of_mergeGroup seam₀ merged with ⟨placed', seam', texts, isReached, rearranges⟩
      rcases inductionHypothesis seam' done with ⟨texts', inside, rearranges'⟩
      have kept := seam₀.flatMap_of_mergedGroup rearranges
      refine ⟨?_, ?_, (rearranges.touching seam.wellFormed _ ?_).trans
        (rearranges'.touching rearranges.wellFormed _ ?_) seam.wellFormed⟩
      · have regroup : placed' ++ reached :: groups.flatten ++ tail :: rest =
            (placed' ++ [reached]) ++ (groups.flatten ++ tail :: rest) := by simp
        rw [texts', regroup, List.flatMap_append, texts, kept, ← List.flatMap_append]
        simp
      · intro id isJunction
        have isLater : id ∈ target :: further := by
          split at isJunction
          · exact List.mem_cons_of_mem _ isJunction
          · exact isJunction
        rcases List.mem_cons.mp isLater with same | isFurther
        · simp [same]
        · have isFurther' := inside id isFurther
          simp only [List.mem_cons, List.flatten_cons, List.mem_append] at isFurther' isReached ⊢
          grind
      · rintro id - (above | isMember)
        · exact Or.inl above
        · simp only [List.mem_cons, List.flatten_cons, List.mem_append] at isMember ⊢
          grind
      · rintro id - (above | isMember)
        · exact Or.inl ((seam.liesIn_iff rearranges.toChangesWithin).mp above)
        · simp only [List.mem_cons, List.flatten_cons, List.mem_append] at isMember isReached ⊢
          grind

theorem neutral_of_tidyJunction (wellFormed : document.WellFormed)
    (closed : document.Closed zone rights) (inZone : zone node)
    (parentInZone : ∀ parent, document.parent node = some parent → zone parent)
    (done : tidyJunction node document = .ok result document') :
    Neutral zone rights document document' := by
  simp only [tidyJunction, bind_eq_ok, get_eq_ok] at done
  rcases done with ⟨⟨⟩, tidied, removed, _, _, ⟨rfl, rfl⟩, done⟩
  have neutral := neutral_of_removeEmptyRuns wellFormed closed inZone removed
  split at done
  case isFalse =>
    rw [pure_eq_ok] at done
    exact done.2 ▸ neutral
  case isTrue isRemovable =>
    rw [detach_eq_ok] at done
    subst done
    rw [isRemovableParagraph, Bool.and_eq_true] at isRemovable
    rcases isParent : tidied.parent node with _ | parent
    · simp [isParent] at isRemovable
    · refine neutral.trans (neutral_detach neutral.wellFormed neutral.closed
        (movable_of_parent isParent ?_)
        (runningTexts_of_isEmptyParagraph neutral.wellFormed isRemovable.1))
      exact neutral.toChangesWithin.parent_mem wellFormed parentInZone parent isParent

/-- Merging groups puts their running text between what was before and what was after the place. -/
theorem runningTexts_of_mergeFragments {groups : List (List NodeId)}
    (seam : Seam zone rights document parent tail (placed ++ [target]) rest groups.flatten)
    (done : mergeFragments groups target tail document = .ok result document') :
    document'.runningTexts parent =
        (placed ++ target :: groups.flatten ++ tail :: rest).flatMap document.runningTexts ∧
      Rearranges zone rights
        (fun id => document.LiesIn id parent ∨ id ∈ target :: tail :: groups.flatten)
        document document' := by
  simp only [mergeFragments, bind_eq_ok] at done
  rcases done with ⟨junctions, merged, done, tidied⟩
  rcases runningTexts_of_mergeGroups seam done with ⟨texts, junctionsIn, rearranges⟩
  have targetParent : document.parent target = some parent := seam.parent_of_mem (by simp)
  have inZone : ∀ id ∈ junctions, zone id ∧ ∀ outer, document.parent id = some outer → zone outer := by
    intro id isJunction
    have isMember := junctionsIn id isJunction
    simp only [List.mem_cons] at isMember
    rcases isMember with rfl | rfl | isWaiting
    · have isParent := targetParent
      refine ⟨seam.closed.child isParent seam.inZone, fun outer isOuter => ?_⟩
      rw [isParent, Option.some.injEq] at isOuter
      exact isOuter ▸ seam.inZone
    · have isParent := seam.tailParent
      refine ⟨seam.closed.child isParent seam.inZone, fun outer isOuter => ?_⟩
      rw [isParent, Option.some.injEq] at isOuter
      exact isOuter ▸ seam.inZone
    · exact ⟨seam.waitingInZone id isWaiting, fun outer isOuter => by
        simp [seam.detached id isWaiting] at isOuter⟩
  have neutral : Neutral zone rights merged document' := by
    refine forM_invariant (fun current => Neutral zone rights merged current) ?_
      (Neutral.refl rearranges.wellFormed rearranges.closed) tidied
    intro junction isJunction current next sofar tidiedOne
    refine sofar.trans (neutral_of_tidyJunction sofar.wellFormed sofar.closed
      (inZone junction isJunction).1 ?_ tidiedOne)
    exact (rearranges.toChangesWithin.trans sofar.toChangesWithin).parent_mem seam.wellFormed
      (inZone junction isJunction).2
  refine ⟨?_, rearranges.trans neutral.rearranges seam.wellFormed⟩
  rw [neutral.runningTexts_eq (Nat.lt_of_lt_of_le
    (parent_lt_size seam.wellFormed targetParent) rearranges.size_le), texts]

end Edit

end WordTemplate
