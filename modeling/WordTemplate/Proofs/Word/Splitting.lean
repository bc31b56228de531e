import WordTemplate.Proofs.Document.Rearranging
import WordTemplate.Proofs.Word.Taking
import WordTemplate.Proofs.Word.Tidying

/-!
# Splitting paragraphs

Splitting a node leaves its running text on the two halves: the left half keeps what is before the
cut, the right half, placed right after it, receives the rest. A paragraph is split by splitting
every node from the cut up to the paragraph, so its running text falls apart at the cut, and the
running text elsewhere stays.
-/

namespace WordTemplate

namespace Document

variable {zone : NodeId → Prop} {rights : Rights} {document base before middle after : Document}
  {id node parent child whole right : NodeId} {kept moved : List NodeId}

/-- `whole` was split in `before`: it keeps the children `kept`, and the new node `right` beside it
has taken the children `moved` after some copies of properties. -/
structure Halves (before after : Document) (whole right : NodeId) (kept moved : List NodeId) :
    Prop where
  wellFormed : after.WellFormed
  children_before : before.children whole = kept ++ moved
  right_new : before.size ≤ right.index
  right_lt : right.index < after.size
  right_content : after.content right = before.content whole
  content_eq : ∀ id, id.index < before.size → after.content id = before.content id
  children_kept : after.children whole = kept
  children_moved : ∃ properties, after.children right = properties ++ moved ∧
    ∀ id ∈ properties, after.isProperties id = true
  beside : ∃ outer left rest, before.parent whole = some outer ∧
    after.parent whole = some outer ∧ after.parent right = some outer ∧
    before.children outer = left ++ whole :: rest ∧
    after.children outer = left ++ whole :: right :: rest
  parent_eq : ∀ id, id.index < before.size → id ∉ moved → after.parent id = before.parent id
  parent_moved : ∀ id ∈ moved, after.parent id = some right
  children_eq : ∀ id, id.index < before.size → id ≠ whole → before.parent whole ≠ some id →
    after.children id = before.children id

namespace Halves

theorem isText_eq (halves : Halves before after whole right kept moved)
    (isOld : id.index < before.size) : after.isText id = before.isText id := by
  simp only [isText, text?, halves.content_eq id isOld]

theorem isProperties_eq (halves : Halves before after whole right kept moved)
    (isOld : id.index < before.size) : after.isProperties id = before.isProperties id := by
  exact isProperties_of_content_eq (halves.content_eq id isOld)

/-- What is below a child of the split node keeps its running text. -/
theorem runningTexts_below (halves : Halves before after whole right kept moved)
    (wellFormed : before.WellFormed) (isParent : before.parent child = some whole)
    (inside : before.LiesIn child id) : after.runningTexts id = before.runningTexts id := by
  have isOld : ∀ id, before.LiesIn child id → id.index < before.size := by
    intro id inside
    rcases inside.cases_parent with rfl | ⟨parent, isParent', -⟩
    · exact lt_size_of_parent isParent
    · exact lt_size_of_parent isParent'
  refine runningTexts_eq_of_children (before.LiesIn child) wellFormed halves.wellFormed
    ?_ ?_ ?_ ?_ inside
  · exact fun id inside other isChild =>
      LiesIn.of_parent ((wellFormed.mem_children_iff _ _).mp isChild) inside
  · exact fun id inside => halves.isText_eq (isOld id inside)
  · exact fun id inside => halves.isProperties_eq (isOld id inside)
  · intro id inside _ sameBelow
    have notWhole : id ≠ whole := by
      rintro rfl
      exact not_liesIn_of_parent wellFormed isParent inside
    have notOuter : before.parent whole ≠ some id := fun isOuter =>
      not_liesIn_of_parent wellFormed isParent ((LiesIn.parent isOuter).trans inside)
    rw [halves.children_eq id (isOld id inside) notWhole notOuter]
    exact List.flatMap_congr sameBelow

theorem flatMap_runningTexts (halves : Halves before after whole right kept moved)
    (wellFormed : before.WellFormed) {ids : List NodeId} (subset : ids ⊆ kept ++ moved) :
    ids.flatMap after.runningTexts = ids.flatMap before.runningTexts := by
  refine List.flatMap_congr fun id isMember => ?_
  have isChild := subset isMember
  rw [← halves.children_before, wellFormed.mem_children_iff] at isChild
  exact halves.runningTexts_below wellFormed isChild LiesIn.refl

/-- The left half keeps the running text of the children it keeps. -/
theorem runningTexts_whole (halves : Halves before after whole right kept moved)
    (wellFormed : before.WellFormed) (shows : before.showsChildren whole = true)
    (isOld : whole.index < before.size) :
    after.runningTexts whole = kept.flatMap before.runningTexts := by
  have shows' : after.showsChildren whole = true := by
    rw [showsChildren, halves.isText_eq isOld, halves.isProperties_eq isOld]
    exact shows
  rw [runningTexts_of_showsChildren halves.wellFormed shows', halves.children_kept]
  exact halves.flatMap_runningTexts wellFormed (List.subset_append_left _ _)

/-- The right half has the running text of the children it took. -/
theorem runningTexts_right (halves : Halves before after whole right kept moved)
    (wellFormed : before.WellFormed) (shows : before.showsChildren whole = true) :
    after.runningTexts right = moved.flatMap before.runningTexts := by
  have shows' : after.showsChildren right = true := by
    simp only [showsChildren, isText, text?, isProperties, name?, element?, halves.right_content]
    exact shows
  rcases halves.children_moved with ⟨properties, children, areProperties⟩
  have silent : properties.flatMap after.runningTexts = [] :=
    List.flatMap_eq_nil_iff.mpr fun id isMember =>
      runningTexts_of_isProperties (areProperties id isMember)
  rw [runningTexts_of_showsChildren halves.wellFormed shows', children, List.flatMap_append,
    silent, List.nil_append]
  exact halves.flatMap_runningTexts wellFormed (List.subset_append_right _ _)

/-- The halves together have the running text of the node that was split. -/
theorem runningTexts_append (halves : Halves before after whole right kept moved)
    (wellFormed : before.WellFormed) (shows : before.showsChildren whole = true)
    (isOld : whole.index < before.size) :
    after.runningTexts whole ++ after.runningTexts right = before.runningTexts whole := by
  rw [halves.runningTexts_whole wellFormed shows isOld, halves.runningTexts_right wellFormed shows,
    ← List.flatMap_append, ← halves.children_before,
    ← runningTexts_of_showsChildren wellFormed shows]

/-- Every other node keeps its running text. -/
theorem runningTexts_eq (halves : Halves before after whole right kept moved)
    (wellFormed : before.WellFormed) (shows : before.showsChildren whole = true)
    (isOld : id.index < before.size) (differ : id ≠ whole) :
    after.runningTexts id = before.runningTexts id := by
  rcases halves.beside with ⟨outer, left, rest, isParent, -, -, siblings, siblings'⟩
  have whole_lt := lt_size_of_parent isParent
  induction id using wellFormed.induction_children with
  | step id inductionHypothesis =>
      have below : ∀ child ∈ before.children id, child ≠ whole →
          after.runningTexts child = before.runningTexts child := fun child isChild =>
        inductionHypothesis child isChild (lt_size_of_mem_children wellFormed isChild)
      rw [Document.runningTexts_eq wellFormed, Document.runningTexts_eq halves.wellFormed,
        halves.isText_eq isOld, halves.isProperties_eq isOld]
      split
      · rfl
      · split
        · rfl
        · by_cases isOuter : id = outer
          · subst id
            have nodup := wellFormed.nodup_children outer
            rw [siblings, List.nodup_middle, List.nodup_cons] at nodup
            have sameBeside : ∀ ids : List NodeId, ids ⊆ left ++ rest →
                ids.flatMap after.runningTexts = ids.flatMap before.runningTexts := by
              intro ids subset
              refine List.flatMap_congr fun child isMember => below child ?_ ?_
              · rw [siblings]
                rcases List.mem_append.mp (subset isMember) with isBefore | isAfter
                · exact List.mem_append_left _ isBefore
                · exact List.mem_append_right _ (List.mem_cons_of_mem _ isAfter)
              · rintro rfl
                exact nodup.1 (subset isMember)
            rw [siblings, siblings', List.flatMap_append, List.flatMap_cons, List.flatMap_cons,
              List.flatMap_append, List.flatMap_cons,
              sameBeside left (List.subset_append_left _ _),
              sameBeside rest (List.subset_append_right _ _),
              ← halves.runningTexts_append wellFormed shows whole_lt]
            simp
          · have notOuter : before.parent whole ≠ some id := by
              rw [isParent]
              simpa using Ne.symm isOuter
            rw [halves.children_eq id isOld differ notOuter]
            refine List.flatMap_congr fun child isChild => below child isChild ?_
            rintro rfl
            exact notOuter ((wellFormed.mem_children_iff _ _).mp isChild)

end Halves

/-- The right half of `whole` before it is placed: a detached new node that carries what `whole`
carries, with copies of properties below it. -/
structure HalfBegun (base document : Document) (whole right : NodeId) : Prop where
  wellFormed : document.WellFormed
  retains : Retains base document
  root_eq : document.root = base.root
  right_new : base.size ≤ right.index
  right_lt : right.index < document.size
  detached : document.parent right = none
  content_eq : document.content right = base.content whole
  onlyCopies : ∀ id ∈ document.children right,
    base.size ≤ id.index ∧ document.isProperties id = true

namespace HalfBegun

theorem add (wellFormed : base.WellFormed) (whole : NodeId) :
    HalfBegun base (base.add (base.content whole)) whole base.nextId where
  wellFormed := wellFormed.add _
  retains := retains_add base _
  root_eq := root_add _ _
  right_new := Nat.le_refl _
  right_lt := by simp [nextId]
  detached := by rw [parent_add, parent_nextId]
  content_eq := by rw [content_add, if_pos rfl]
  onlyCopies := by simp [children_add]

/-- Old nodes are not the half. -/
theorem ne_right (begun : HalfBegun base document whole right) (isOld : id.index < base.size) :
    id ≠ right := by
  rintro rfl
  exact Nat.lt_irrefl _ (Nat.lt_of_lt_of_le isOld begun.right_new)

/-- A copy of properties is added below the half. -/
theorem copyBelow {sibling : NodeId} {copy : SubtreeCopy} {result : Unit}
    (begun : HalfBegun base document whole right) (inStore : sibling.index < base.size)
    (isProperties : base.isProperties sibling = true)
    (copyDone : Edit.copySubtree sibling document = .ok copy middle)
    (appendDone : Edit.appendChild right copy.root middle = .ok result after) :
    HalfBegun base after whole right := by
  have copied := Edit.copies_of_copySubtree begun.wellFormed
    (Nat.lt_of_lt_of_le inStore begun.retains.size_le) copyDone
  have isTop : (sibling, copy.root) ∈ copy.pairs := (List.forall₂_cons.mp copied.tops).1
  have bounds := copied.le_index isTop
  have copyNew := Nat.le_trans begun.retains.size_le bounds.1
  have copyDetached := copied.parent_eq _ List.mem_cons_self
  have right_lt := Nat.lt_of_lt_of_le begun.right_lt copied.retains.size_le
  have moves := Edit.moves_of_appendChild copied.wellFormed right_lt bounds.2 appendDone
  have differ : right ≠ copy.root := by
    intro same
    rw [← same] at bounds
    exact Nat.not_le_of_lt begun.right_lt bounds.1
  refine ⟨moves.wellFormed, moves.retains (begun.retains.trans copied.retains) copied.wellFormed
    copyNew begun.right_new copyDetached, ?_, begun.right_new, by rwa [moves.size_eq], ?_, ?_, ?_⟩
  · rw [moves.root_eq, copied.root_eq, begun.root_eq]
  · rw [moves.parent_eq, if_neg differ, copied.retains.parent_eq begun.right_lt, begun.detached]
  · rw [moves.content_eq, copied.retains.content_eq begun.right_lt, begun.content_eq]
  · intro id isChild
    rw [moves.children_eq, if_pos rfl, filter_children_of_parent_none copied.wellFormed copyDetached,
      copied.retains.children_eq begun.right_lt] at isChild
    rcases List.mem_append.mp isChild with isOld | isNew
    · refine ⟨(begun.onlyCopies id isOld).1, ?_⟩
      rw [isProperties_of_content_eq (moves.content_eq id), isProperties_of_content_eq
        (copied.retains.content_eq (lt_size_of_mem_children begun.wellFormed isOld))]
      exact (begun.onlyCopies id isOld).2
    · rw [List.mem_singleton.mp isNew]
      refine ⟨copyNew, ?_⟩
      rw [isProperties_of_content_eq ((moves.content_eq _).trans (copied.content_eq _ isTop)),
        isProperties_of_content_eq (begun.retains.content_eq inStore), isProperties]

section Gathering

variable {copied gathered final : Document} {outer : NodeId} {left rest : List NodeId}
  (begun : HalfBegun document copied whole right)
  (movedParent : ∀ id ∈ moved, document.parent id = some whole)
  (gathers : Gathers copied gathered right moved)
include begun movedParent gathers

theorem detached_gathered : gathered.parent right = none := by
  rw [gathers.parent_eq, if_neg, begun.detached]
  exact fun isMember => begun.ne_right (lt_size_of_parent (movedParent right isMember)) rfl

omit movedParent in
theorem content_gathered (isOld : id.index < document.size) :
    gathered.content id = document.content id := by
  rw [gathers.content_eq, begun.retains.content_eq isOld]

omit movedParent in
theorem parent_gathered (isOld : id.index < document.size) (notMoved : id ∉ moved) :
    gathered.parent id = document.parent id := by
  rw [gathers.parent_eq, if_neg notMoved, begun.retains.parent_eq isOld]

omit movedParent in
/-- Only the children that move are missing anywhere. -/
theorem children_gathered (isOld : id.index < document.size) :
    gathered.children id = (document.children id).filter (· ∉ moved) := by
  rw [gathers.children_eq, if_neg (begun.ne_right isOld), List.append_nil,
    begun.retains.children_eq isOld]

theorem children_unmoved (wellFormed : document.WellFormed) (isOld : id.index < document.size)
    (differ : id ≠ whole) : gathered.children id = document.children id := by
  rw [begun.children_gathered gathers isOld]
  refine List.filter_eq_self.mpr fun child isChild => ?_
  rw [decide_eq_true_eq]
  intro isMoved
  rw [wellFormed.mem_children_iff, movedParent child isMoved, Option.some.injEq] at isChild
  exact differ isChild.symm

theorem changesWithin (wellFormed : document.WellFormed) (closed : document.Closed zone rights)
    (inZone : zone whole) : ChangesWithin zone rights document gathered := by
  have added : Neutral zone rights document copied :=
    begun.retains.neutral wellFormed begun.wellFormed closed begun.root_eq
  refine added.toChangesWithin.trans (gathers.changesWithin begun.wellFormed added.closed
    (closed.fresh begun.right_new) (fun id isMember => closed.child (movedParent id isMember) inZone)
    fun id isMember => movable_of_parent ?_ inZone)
  have isParent := movedParent id isMember
  rw [begun.retains.parent_eq (lt_size_of_parent isParent), isParent]

/-- Once the half is placed beside it, the node is split. -/
theorem halves (wellFormed : document.WellFormed)
    (children_before : document.children whole = kept ++ moved)
    (isOuter : document.parent whole = some outer)
    (moves : Moves gathered final right outer (left ++ [whole]) rest) :
    Halves document final whole right kept moved := by
  have nodup := wellFormed.nodup_children whole
  rw [children_before] at nodup
  have whole_lt := lt_size_of_parent isOuter
  have outer_lt := parent_lt_size wellFormed isOuter
  have outer_ne : outer ≠ whole := (ne_of_parent wellFormed isOuter).symm
  have wholeNotMoved : whole ∉ moved := fun isMember =>
    ne_of_parent wellFormed (movedParent whole isMember) rfl
  have children_other : ∀ {id : NodeId}, id ≠ outer → final.children id = gathered.children id := by
    intro id notOuter
    rw [moves.children_eq, if_neg notOuter, filter_children_of_parent_none gathers.wellFormed
      (begun.detached_gathered movedParent gathers)]
  have parent_old : ∀ {id : NodeId}, id.index < document.size →
      final.parent id = gathered.parent id := by
    intro id isOld
    rw [moves.parent_eq, if_neg (begun.ne_right isOld)]
  have whole_parent : final.parent whole = some outer := by
    rw [parent_old whole_lt, begun.parent_gathered gathers whole_lt wholeNotMoved, isOuter]
  have outer_before : document.children outer = left ++ whole :: rest := by
    rw [← begun.children_unmoved movedParent gathers wellFormed outer_lt outer_ne,
      ← filter_children_of_parent_none gathers.wellFormed
        (begun.detached_gathered movedParent gathers), moves.others_eq]
    simp
  have outer_after : final.children outer = left ++ whole :: right :: rest := by
    rw [moves.children_eq, if_pos rfl]
    simp
  exact {
    wellFormed := moves.wellFormed
    children_before := children_before
    right_new := begun.right_new
    right_lt := by
      rw [moves.size_eq, gathers.size_eq]
      exact begun.right_lt
    right_content := by rw [moves.content_eq, gathers.content_eq, begun.content_eq]
    content_eq := by
      intro id isOld
      rw [moves.content_eq, begun.content_gathered gathers isOld]
    children_kept := by
      rw [children_other outer_ne.symm, begun.children_gathered gathers whole_lt, children_before,
        ← List.append_nil (kept ++ moved), filter_not_mem_middle (by simpa using nodup),
        List.append_nil]
    children_moved := by
      refine ⟨(copied.children right).filter (· ∉ moved), ?_, ?_⟩
      · rw [children_other (begun.ne_right outer_lt).symm, gathers.children_eq, if_pos rfl]
      · intro id isMember
        rw [isProperties_of_content_eq ((moves.content_eq id).trans (gathers.content_eq id))]
        exact (begun.onlyCopies id (List.mem_of_mem_filter isMember)).2
    beside := ⟨outer, left, rest, isOuter, whole_parent, by rw [moves.parent_eq, if_pos rfl],
      outer_before, outer_after⟩
    parent_eq := by
      intro id isOld notMoved
      rw [parent_old isOld, begun.parent_gathered gathers isOld notMoved]
    parent_moved := by
      intro id isMember
      rw [parent_old (lt_size_of_parent (movedParent id isMember)), gathers.parent_eq,
        if_pos isMember]
    children_eq := by
      intro id isOld notWhole notOuter
      have notOuter : id ≠ outer := by
        rintro rfl
        exact notOuter isOuter
      rw [children_other notOuter,
        begun.children_unmoved movedParent gathers wellFormed isOld notWhole] }

end Gathering

end HalfBegun

/-- The first nodes of a list up to `top`. -/
def pathTo (top : NodeId) : List NodeId → List NodeId
  | [] => []
  | first :: rest => if first = top then [first] else first :: pathTo top rest

theorem pathTo_subset {top : NodeId} (ids : List NodeId) : pathTo top ids ⊆ ids := by
  induction ids with
  | nil => simp [pathTo]
  | cons first rest inductionHypothesis =>
      rw [pathTo]
      split
      · simp
      · exact List.cons_subset_cons first inductionHypothesis

/-- A list climbs from a node if each of its nodes is the parent of the one before. -/
def ClimbsFrom (document : Document) : NodeId → List NodeId → Prop
  | _, [] => True
  | id, first :: rest => document.parent id = some first ∧ ClimbsFrom document first rest

theorem climbsFrom_ancestors (wellFormed : document.WellFormed) (id : NodeId) :
    document.ClimbsFrom id (document.ancestors id) := by
  induction id using wellFormed.induction_parent with
  | step id inductionHypothesis =>
      rcases isParent : document.parent id with _ | parent
      · simp [ancestors_of_parent_none isParent, ClimbsFrom]
      · rw [ancestors_of_parent wellFormed isParent]
        exact ⟨isParent, inductionHypothesis parent isParent⟩

namespace ClimbsFrom

variable {ids : List NodeId}

theorem liesIn (climbs : document.ClimbsFrom id ids) (isMember : node ∈ ids) :
    document.LiesIn node id := by
  induction ids generalizing id with
  | nil => simp at isMember
  | cons first rest inductionHypothesis =>
      rcases climbs with ⟨isParent, climbs⟩
      rcases List.mem_cons.mp isMember with rfl | further
      · exact LiesIn.parent isParent
      · exact LiesIn.of_parent isParent (inductionHypothesis climbs further)

theorem ne (climbs : document.ClimbsFrom id ids) (wellFormed : document.WellFormed)
    (isMember : node ∈ ids) : node ≠ id := by
  rcases ids with _ | ⟨first, rest⟩
  · simp at isMember
  · rcases climbs with ⟨isParent, climbs⟩
    rcases List.mem_cons.mp isMember with rfl | further
    · exact (ne_of_parent wellFormed isParent).symm
    · rintro rfl
      exact not_liesIn_of_parent wellFormed isParent (climbs.liesIn further)

theorem pathTo (climbs : document.ClimbsFrom id ids) (top : NodeId) :
    document.ClimbsFrom id (pathTo top ids) := by
  induction ids generalizing id with
  | nil => trivial
  | cons first rest inductionHypothesis =>
      rw [Document.pathTo]
      split
      · exact ⟨climbs.1, trivial⟩
      · exact ⟨climbs.1, inductionHypothesis climbs.2⟩

/-- The path to a node consists of nodes below it. -/
theorem liesIn_of_mem_pathTo {top : NodeId} (climbs : document.ClimbsFrom id ids)
    (isMember : top ∈ ids) (onPath : node ∈ Document.pathTo top ids) :
    document.LiesIn top node := by
  induction ids generalizing id with
  | nil => simp at isMember
  | cons first rest inductionHypothesis =>
      rw [Document.pathTo] at onPath
      split at onPath
      · subst top
        rw [List.mem_singleton.mp onPath]
      · rename_i notTop
        have isFurther := (List.mem_cons.mp isMember).resolve_left (Ne.symm notTop)
        rcases List.mem_cons.mp onPath with rfl | further
        · exact climbs.2.liesIn isFurther
        · exact inductionHypothesis climbs.2 isFurther further

theorem of_parent_eq (climbs : before.ClimbsFrom id ids)
    (parent_eq : ∀ other, other = id ∨ other ∈ ids → after.parent other = before.parent other) :
    after.ClimbsFrom id ids := by
  induction ids generalizing id with
  | nil => trivial
  | cons first rest inductionHypothesis =>
      rcases climbs with ⟨isParent, climbs⟩
      refine ⟨by rw [parent_eq id (Or.inl rfl), isParent], inductionHypothesis climbs ?_⟩
      intro other isMember
      exact parent_eq other (Or.inr (List.mem_cons.mpr isMember))

end ClimbsFrom

/-- `top` was split in `before` after the node `cut`: what follows the cut is in the new node `right`
beside `top`. The nodes on `path`, which climbs from the cut to `top`, have been split. -/
structure SplitOff (before after : Document) (top right cut : NodeId) (path : List NodeId) :
    Prop where
  right_new : before.size ≤ right.index
  right_lt : right.index < after.size
  right_name : after.name? right = before.name? top
  beside : ∃ outer left rest, before.parent top = some outer ∧
    after.parent top = some outer ∧ after.parent right = some outer ∧
    before.children outer = left ++ top :: rest ∧
    after.children outer = left ++ top :: right :: rest
  texts : ∃ start rest, before.runningTexts top = start ++ before.runningTexts cut ++ rest ∧
    after.runningTexts top = start ++ before.runningTexts cut ∧ after.runningTexts right = rest
  texts_eq : ∀ id, id.index < before.size → id ∉ path →
    after.runningTexts id = before.runningTexts id
  children_eq : ∀ id, id.index < before.size → id ∉ path → before.parent top ≠ some id →
    after.children id = before.children id
  parent_eq : ∀ id, before.LiesIn id cut → after.parent id = before.parent id
  holder_eq : ∀ id holder, id.index < before.size → after.parent id = some holder →
    after.isNamed holder Word.Name.text = true →
    before.parent id = some holder ∨
      ∃ old ∈ path, before.parent id = some old ∧ before.isNamed old Word.Name.text = true

theorem Halves.splitOff {cut : NodeId} {left rest : List NodeId}
    (halves : Halves before after whole right (left ++ [cut]) rest)
    (wellFormed : before.WellFormed) (shows : before.showsChildren whole = true)
    (isParent : before.parent cut = some whole) : SplitOff before after whole right cut [whole] := by
  have whole_lt := parent_lt_size wellFormed isParent
  have nodup := wellFormed.nodup_children whole
  rw [halves.children_before] at nodup
  refine ⟨halves.right_new, halves.right_lt, ?_, halves.beside, ?_, ?_, ?_, ?_, ?_⟩
  · simp only [name?, element?, halves.right_content]
  · refine ⟨left.flatMap before.runningTexts, rest.flatMap before.runningTexts, ?_, ?_, ?_⟩
    · rw [runningTexts_of_showsChildren wellFormed shows, halves.children_before]
      simp
    · rw [halves.runningTexts_whole wellFormed shows whole_lt]
      simp
    · exact halves.runningTexts_right wellFormed shows
  · intro id isOld notOnPath
    exact halves.runningTexts_eq wellFormed shows isOld (by simpa using notOnPath)
  · intro id isOld notOnPath notOuter
    exact halves.children_eq id isOld (by simpa using notOnPath) notOuter
  · have isOld : cut.index < before.size := lt_size_of_parent isParent
    have childOf : ∀ id ∈ rest, before.parent id = some whole := by
      intro id isMember
      rw [← wellFormed.mem_children_iff, halves.children_before]
      exact List.mem_append_right _ isMember
    intro id isAbove
    rcases isAbove.cases_above isParent with same | above
    · subst same
      refine halves.parent_eq cut isOld fun isMoved => ?_
      exact (List.nodup_append.mp nodup).2.2 cut (by simp) cut isMoved rfl
    · have id_lt : id.index < before.size := by
        rcases above.cases_child with same | ⟨child, isChild, -⟩
        · exact same ▸ whole_lt
        · exact parent_lt_size wellFormed isChild
      exact halves.parent_eq id id_lt fun isMoved =>
        not_liesIn_of_parent wellFormed (childOf id isMoved) above
  · intro id holder isOld isHolder named
    by_cases isMoved : id ∈ rest
    · right
      rw [halves.parent_moved id isMoved, Option.some.injEq] at isHolder
      subst isHolder
      refine ⟨whole, List.mem_singleton_self _, ?_, ?_⟩
      · rw [← wellFormed.mem_children_iff, halves.children_before]
        exact List.mem_append_right _ isMoved
      · simpa only [isNamed, name?, element?, halves.right_content] using named
    · left
      rwa [halves.parent_eq id isOld isMoved] at isHolder

/-- What holds a node of a path does not hold the node that the path starts from. -/
theorem ClimbsFrom.outer_apart {top outer : NodeId} {path : List NodeId}
    (climbs : document.ClimbsFrom id path) (wellFormed : document.WellFormed) (onPath : top ∈ path)
    (isOuter : document.parent top = some outer) :
    outer ≠ id ∧ document.parent id ≠ some outer := by
  have topAbove := climbs.liesIn onPath
  constructor
  · rintro rfl
    exact not_liesIn_of_parent wellFormed isOuter topAbove
  · intro isOuter'
    rcases topAbove.cases_above isOuter' with same | above
    · exact climbs.ne wellFormed onPath same.symm
    · exact not_liesIn_of_parent wellFormed isOuter above

namespace SplitOff

section Climbing

variable {cut top tail next : NodeId} {path : List NodeId}
  (lower : SplitOff before middle parent right cut [parent])
  (upper : SplitOff middle after top tail parent path)
  (changes : ChangesWithin zone rights before middle)
  (changes' : ChangesWithin zone rights middle after)
  (wellFormed : before.WellFormed) (isParent : before.parent cut = some parent)
  (climbs : before.ClimbsFrom parent path) (onPath : top ∈ path)

include lower isParent in
/-- The split of the parent of the cut moves nothing that is above the cut. -/
theorem parent_above (above : before.LiesIn id parent) : middle.parent id = before.parent id :=
  lower.parent_eq id (LiesIn.of_parent isParent above)

include lower upper changes changes' wellFormed isParent climbs onPath in
/-- The splits further up move nothing that is above the cut either. -/
theorem parent_cons (above : before.LiesIn id cut) : after.parent id = before.parent id := by
  have isOuterAbove : ∀ {outer}, middle.parent top = some outer → before.parent top = some outer :=
    fun isOuter => by rwa [← lower.parent_above isParent (climbs.liesIn onPath)]
  rcases above.cases_above isParent with rfl | above
  · have notOnPath : parent ∉ path := fun isMember => climbs.ne wellFormed isMember rfl
    have notOuter : middle.parent top ≠ some parent := fun isOuter =>
      (climbs.outer_apart wellFormed onPath (isOuterAbove isOuter)).1 rfl
    have isChild : cut ∈ middle.children parent := by
      rw [changes.wellFormed.mem_children_iff, lower.parent_eq cut LiesIn.refl, isParent]
    have parent_lt := Nat.lt_of_lt_of_le (parent_lt_size wellFormed isParent) changes.size_le
    rw [← upper.children_eq parent parent_lt notOnPath notOuter, changes'.wellFormed.mem_children_iff]
      at isChild
    rw [isChild, isParent]
  · have stays : middle.LiesIn id parent := above.of_parent_eq
      (fun _ around _ _ => lower.parent_above isParent around) wellFormed
    rw [upper.parent_eq id stays, lower.parent_above isParent above]

include lower upper changes changes' wellFormed in
/-- Whoever comes into another text element was in one that was split. -/
theorem holder_cons {holder : NodeId} (isOld : id.index < before.size)
    (isHolder : after.parent id = some holder) (named : after.isNamed holder Word.Name.text = true) :
    before.parent id = some holder ∨ ∃ old ∈ parent :: path,
      before.parent id = some old ∧ before.isNamed old Word.Name.text = true := by
  have isFirst : ∀ {old}, old ∈ [parent] → old ∈ parent :: path := fun isOn =>
    List.mem_cons.mpr (Or.inl (List.mem_singleton.mp isOn))
  rcases upper.holder_eq id holder (Nat.lt_of_lt_of_le isOld changes.size_le) isHolder named with
    isHolder' | ⟨old, isOn, isOldHolder, oldNamed⟩
  · rw [changes'.isNamed_eq (parent_lt_size changes.wellFormed isHolder')] at named
    rcases lower.holder_eq id holder isOld isHolder' named with same | ⟨old, isOn, found⟩
    · exact Or.inl same
    · exact Or.inr ⟨old, isFirst isOn, found⟩
  · rcases lower.holder_eq id old isOld isOldHolder oldNamed with same | ⟨old', isOn', found⟩
    · rw [changes.isNamed_eq (parent_lt_size wellFormed same)] at oldNamed
      exact Or.inr ⟨old, List.mem_cons_of_mem _ isOn, same, oldNamed⟩
    · exact Or.inr ⟨old', isFirst isOn', found⟩

include lower upper changes changes' wellFormed isParent climbs onPath in
/-- Splitting the parent of the cut and then the nodes further up. -/
theorem cons (nextOnPath : next ∈ path) (isNext : before.parent parent = some next) :
    SplitOff before after top tail cut (parent :: path) := by
  have topAbove := climbs.liesIn onPath
  have top_lt := lt_size_of_liesIn wellFormed topAbove (parent_lt_size wellFormed isParent)
  have later_lt : ∀ {id : NodeId}, id.index < before.size → id.index < middle.size := fun isOld =>
    Nat.lt_of_lt_of_le isOld changes.size_le
  refine ⟨Nat.le_trans changes.size_le upper.right_new, upper.right_lt,
    by rw [upper.right_name, changes.name_eq top_lt], ?_, ?_, ?_, ?_,
    fun id => lower.parent_cons upper changes changes' wellFormed isParent climbs onPath,
    fun id holder => lower.holder_cons upper changes changes' wellFormed⟩
  · rcases upper.beside with ⟨outer, left, rest, isOuter, isOuter', isOuter'', siblings, siblings'⟩
    rw [lower.parent_above isParent topAbove] at isOuter
    rcases climbs.outer_apart wellFormed onPath isOuter with ⟨notParent, notNext⟩
    refine ⟨outer, left, rest, isOuter, isOuter', isOuter'', ?_, siblings'⟩
    rw [← siblings, lower.children_eq outer (parent_lt_size wellFormed isOuter)
      (by simpa using notParent) notNext]
  · rcases lower.texts with ⟨start, rest, whole, whole', -⟩
    rcases upper.texts with ⟨start', rest', around, around', tailTexts⟩
    rw [lower.texts_eq top top_lt (by simpa using climbs.ne wellFormed onPath), whole'] at around
    exact ⟨start' ++ start, rest', by rw [around]; simp, by rw [around', whole']; simp, tailTexts⟩
  · intro id isOld notOnPath
    rw [List.mem_cons, not_or] at notOnPath
    rw [upper.texts_eq id (later_lt isOld) notOnPath.2,
      lower.texts_eq id isOld (by simpa using notOnPath.1)]
  · intro id isOld notOnPath notOuter
    rw [List.mem_cons, not_or] at notOnPath
    rw [← lower.parent_above isParent topAbove] at notOuter
    rw [upper.children_eq id (later_lt isOld) notOnPath.2 notOuter]
    refine lower.children_eq id isOld (by simpa using notOnPath.1) fun isNext' => notOnPath.2 ?_
    rw [isNext, Option.some.injEq] at isNext'
    exact isNext' ▸ nextOnPath

end Climbing

end SplitOff

/-- A paragraph of `before` was cut apart at a text node, whose carrier was taken out: the paragraph
keeps what precedes it, and the new paragraph `tail` right after it has what follows. -/
structure CutApart (before after : Document) (paragraph tail text : NodeId) : Prop where
  tail_new : before.size ≤ tail.index
  tail_lt : tail.index < after.size
  tail_name : after.name? tail = before.name? paragraph
  beside : ∃ outer left rest, before.parent paragraph = some outer ∧
    after.parent paragraph = some outer ∧ after.parent tail = some outer ∧
    before.children outer = left ++ paragraph :: rest ∧
    after.children outer = left ++ paragraph :: tail :: rest
  texts : ∃ start rest, before.runningTexts paragraph = start ++ text :: rest ∧
    after.runningTexts paragraph = start ∧ after.runningTexts tail = rest

/-- Tidying up the halves of a paragraph leaves it cut apart. -/
theorem CutApart.tidied {paragraph tail text : NodeId} {runs : List NodeId}
    (cutApart : CutApart before middle paragraph tail text)
    (tidied : Tidied middle after paragraph tail runs) (wellFormed : middle.WellFormed)
    (neutral : Neutral zone rights middle after)
    (named : before.isNamed paragraph Word.Name.paragraph = true)
    (named' : middle.isNamed paragraph Word.Name.paragraph = true) :
    CutApart before after paragraph tail text := by
  rcases cutApart with ⟨tail_new, tail_lt, tail_name, beside, start, rest, whole, left, right⟩
  have tailNamed : middle.isNamed tail Word.Name.paragraph = true := by
    rwa [isNamed, tail_name]
  refine ⟨tail_new, Nat.lt_of_lt_of_le tail_lt neutral.size_le,
    by rw [neutral.name_eq tail_lt, tail_name], ?_, start, rest, whole,
    by rw [neutral.runningTexts_eq (lt_size_of_isNamed named'), left],
    by rw [neutral.runningTexts_eq tail_lt, right]⟩
  rcases beside with ⟨outer, left, rest, isOuter, isOuter', tailOuter, siblings, siblings'⟩
  refine ⟨outer, left, rest, isOuter, ?_, ?_, siblings, ?_⟩
  · rw [tidied.parent_eq_of_isNamed wellFormed named', isOuter']
  · rw [tidied.parent_eq_of_isNamed wellFormed tailNamed, tailOuter]
  · rw [tidied.children_outer wellFormed isOuter' tailOuter, siblings']

namespace SplitOff

variable {top cut text : NodeId} {path : List NodeId}
  (off : SplitOff before after top right cut path)
include off

/-- A split touches the nodes that are split. -/
theorem rearranges (changes : ChangesWithin zone rights before after)
    (aboveText : before.LiesIn cut text) (pathAbove : ∀ id ∈ path, before.LiesIn id cut) :
    Rearranges zone rights (before.LiesIn · text) before after where
  toChangesWithin := changes
  runningTexts_eq isOld untouched := off.texts_eq _ isOld fun onPath =>
    untouched (aboveText.trans (pathAbove _ onPath))
  holder_eq isOld _ _ isHolder named := by
    rcases off.holder_eq _ _ isOld isHolder named with same | ⟨old, onPath, isOldHolder, oldNamed⟩
    · exact Or.inl same
    · exact Or.inr ⟨old, aboveText.trans (pathAbove old onPath), isOldHolder, oldNamed⟩

/-- Taking the cut out touches what is above it. -/
theorem rearranges_detach (wellFormed : after.WellFormed) (closed : after.Closed zone rights)
    (aboveText : before.LiesIn cut text) (isParent : before.parent cut = some parent)
    (inZone : zone parent) :
    Rearranges zone rights (before.LiesIn · text) after (after.detach cut) := by
  refine (drops_detach wellFormed cut).rearranges wellFormed closed ?_ ?_
  · intro id isCut
    rw [List.mem_singleton.mp isCut]
    refine movable_of_parent ?_ inZone
    rw [off.parent_eq cut LiesIn.refl, isParent]
  · intro id child isCut inside _
    rw [List.mem_singleton.mp isCut] at inside
    exact aboveText.trans ((liesIn_iff_of_parent_eq off.parent_eq).mp inside)

/-- Once the cut is taken out, the node that was split is cut apart. -/
theorem cutApart (wellFormed : before.WellFormed) (changes : ChangesWithin zone rights before after)
    (detaches : Rearranges zone rights (before.LiesIn · text) after (after.detach cut))
    (above : before.LiesIn top cut) (differ : top ≠ cut) (notOnPath : cut ∉ path)
    (unitTexts : before.runningTexts cut = [text]) :
    CutApart before (after.detach cut) top right text := by
  rcases off.beside with ⟨outer, left, rest, isOuter, isOuter', rightOuter, siblings, siblings'⟩
  have cut_lt := lt_size_below above (lt_size_of_parent isOuter)
  have rightNew : ∀ {id : NodeId}, id.index < before.size → right ≠ id := by
    rintro id isOld rfl
    exact absurd off.right_new (Nat.not_le_of_lt isOld)
  have isCutText : text ∈ before.runningTexts cut := by rw [unitTexts]; exact List.mem_cons_self
  have text_lt := lt_size_below (liesIn_of_mem_runningTexts wellFormed isCutText) cut_lt
  refine ⟨off.right_new, by rw [size_detach]; exact off.right_lt, ?_, ?_, ?_⟩
  · rw [detaches.name_eq off.right_lt, off.right_name]
  · refine ⟨outer, left, rest, isOuter, ?_, ?_, siblings, ?_⟩
    · rw [parent_detach changes.wellFormed, if_neg differ, isOuter']
    · rw [parent_detach changes.wellFormed, if_neg (rightNew cut_lt), rightOuter]
    · rw [children_detach changes.wellFormed, filter_children_of_ne changes.wellFormed, siblings']
      rw [off.parent_eq cut LiesIn.refl]
      intro isCutOuter
      rcases above.cases_above isCutOuter with same | below
      · exact differ same.symm
      · exact not_liesIn_of_parent wellFormed isOuter below
  · rcases off.texts with ⟨start, rest, whole, whole', rightTexts⟩
    have nodup := nodup_runningTexts wellFormed top
    rw [unitTexts] at whole whole'
    refine ⟨start, rest, by rw [whole]; simp, ?_, ?_⟩
    · have notAbove : ¬after.LiesIn cut top := fun inside => differ <| inside.antisymm
        changes.wellFormed ((liesIn_iff_of_parent_eq off.parent_eq).mpr above)
      have alone : after.runningTexts cut = [text] := by
        rw [off.texts_eq cut cut_lt notOnPath, unitTexts]
      rw [whole, List.nodup_append] at nodup
      rw [runningTexts_detach_of_single changes.wellFormed alone notAbove, whole',
        filter_ne_append_cons nodup.1, List.append_nil]
    · rw [detaches.runningTexts_eq off.right_lt fun inside => ?_, rightTexts]
      exact rightNew (lt_size_of_liesIn wellFormed inside text_lt) rfl

end SplitOff

end Document

namespace Edit

open Outcome Document

variable {zone : NodeId → Prop} {rights : Rights} {document base document' : Document}
  {child parent outer right : NodeId} {result : Unit} {movesChild : Bool}

/-- Copying properties below the right half. -/
theorem halfBegun_of_copyProperties {siblings : List NodeId}
    (begun : HalfBegun base document parent right)
    (inStore : ∀ sibling ∈ siblings, sibling.index < base.size)
    (areProperties : ∀ sibling ∈ siblings, base.isProperties sibling = true)
    (done : (forM siblings fun sibling => do
      let copy ← copySubtree sibling
      appendChild right copy.root) document = .ok result document') :
    HalfBegun base document' parent right := by
  refine forM_invariant (fun middle => HalfBegun base middle parent right) ?_ begun done
  intro sibling isMember start after started stepDone
  rw [bind_eq_ok] at stepDone
  rcases stepDone with ⟨copy, middle, copyDone, appendDone⟩
  exact started.copyBelow (inStore sibling isMember) (areProperties sibling isMember) copyDone
    appendDone

/-- The children of a node around one of them. -/
theorem exists_around (wellFormed : document.WellFormed)
    (isParent : document.parent child = some parent) :
    ∃ before after, document.children parent = before ++ child :: after ∧
      (document.children parent).idxOf child = before.length := by
  have isChild := (wellFormed.mem_children_iff _ _).mpr isParent
  rcases List.append_of_mem isChild with ⟨before, after, around⟩
  refine ⟨before, after, around, ?_⟩
  have nodup := wellFormed.nodup_children parent
  rw [around, List.nodup_middle, List.nodup_cons] at nodup
  have notBefore : child ∉ before := fun isBefore => nodup.1 (List.mem_append_left _ isBefore)
  rw [around, List.idxOf_append]
  simp [notBefore]

/-- A new right half takes copies of some properties and the later children of an element. -/
theorem halves_of_copied {kept moved siblings : List NodeId} {copied gathered final : Document}
    (wellFormed : document.WellFormed) (closed : document.Closed zone rights)
    (children_before : document.children parent = kept ++ moved)
    (parent_lt : parent.index < document.size) (inZone : zone parent)
    (outerInZone : ∀ outer, document.parent parent = some outer → zone outer)
    (areProperties : ∀ sibling ∈ siblings,
      document.parent sibling = some parent ∧ document.isProperties sibling = true)
    (propertiesDone : (forM siblings fun sibling => do
      let copy ← copySubtree sibling
      appendChild document.nextId copy.root) (document.add (document.content parent)) =
        .ok ⟨⟩ copied)
    (gatherDone : (forM moved (appendChild document.nextId)) copied = .ok ⟨⟩ gathered)
    (insertDone : insertAfter document.nextId parent gathered = .ok ⟨⟩ final) :
    Halves document final parent document.nextId kept moved ∧
      ChangesWithin zone rights document final := by
  have nodup := wellFormed.nodup_children parent
  rw [children_before] at nodup
  have movedParent : ∀ id ∈ moved, document.parent id = some parent := by
    intro id isMember
    rw [← wellFormed.mem_children_iff, children_before]
    exact List.mem_append_right _ isMember
  have begun := halfBegun_of_copyProperties (HalfBegun.add wellFormed parent)
    (fun sibling isMember => lt_size_of_parent (areProperties sibling isMember).1)
    (fun sibling isMember => (areProperties sibling isMember).2) propertiesDone
  have gathers := gathers_of_forM_appendChild begun.wellFormed begun.right_lt
    (fun id isMember => Nat.lt_of_lt_of_le (lt_size_of_parent (movedParent id isMember))
      begun.retains.size_le) (List.nodup_append.mp nodup).2.1 gatherDone
  have gatherChanges : ChangesWithin zone rights document gathered :=
    begun.changesWithin movedParent gathers wellFormed closed inZone
  rcases moves_of_insertAfter gathers.wellFormed (by rw [gathers.size_eq]; exact begun.right_lt)
    insertDone with ⟨outer, left, rest, isOuter, -, moves⟩
  rw [begun.parent_gathered gathers parent_lt fun isMember =>
    ne_of_parent wellFormed (movedParent parent isMember) rfl] at isOuter
  have moveChanges : ChangesWithin zone rights gathered final :=
    moves.changesWithin gathers.wellFormed gatherChanges.closed (outerInZone outer isOuter)
      (closed.fresh begun.right_new)
      (movable_of_parent_none (begun.detached_gathered movedParent gathers)
        (closed.freshPlaces begun.right_new))
  exact ⟨begun.halves movedParent gathers wellFormed children_before isOuter moves,
    gatherChanges.trans moveChanges⟩

theorem halves_of_splitParent (wellFormed : document.WellFormed)
    (closed : document.Closed zone rights) (isParent : document.parent child = some parent)
    (inZone : zone parent) (outerInZone : ∀ outer, document.parent parent = some outer → zone outer)
    (done : splitParent child movesChild document = .ok right document') :
    ∃ before after, document.children parent = before ++ child :: after ∧
      Halves document document' parent right
        (before ++ if movesChild then [] else [child])
        ((if movesChild then [child] else []) ++ after) ∧
      ChangesWithin zone rights document document' := by
  rcases exists_around wellFormed isParent with ⟨before, after, around, position⟩
  refine ⟨before, after, around, ?_⟩
  simp only [splitParent, bind_eq_ok, parentOf_eq_ok, indexOf_eq_ok, copyNode_eq_ok, get_bind,
    pure_eq_ok] at done
  rcases done with ⟨parent', _, ⟨isParent', rfl⟩, index, _, ⟨isIndex, rfl⟩, _, added,
    ⟨rfl, rfl⟩, ⟨⟩, copied, propertiesDone, ⟨⟩, gathered, gatherDone, ⟨⟩, final, insertDone, rfl, rfl⟩
  rw [isParent, Option.some.injEq] at isParent'
  subst isParent'
  rw [childIndex?_of_parent wellFormed isParent, Option.some.injEq, position] at isIndex
  subst isIndex
  have keptIs : (document.children parent).take
      (if movesChild then before.length else before.length + 1) =
        before ++ if movesChild then [] else [child] := by
    rw [around]
    cases movesChild
    · simp [List.take_append, List.take_of_length_le]
    · simp
  have movedIs : (document.children parent).drop
      (if movesChild then before.length else before.length + 1) =
        (if movesChild then [child] else []) ++ after := by
    rw [around]
    cases movesChild
    · simp [List.drop_append, List.drop_eq_nil_of_le]
    · simp
  simp only [children_add, keptIs, movedIs] at propertiesDone gatherDone
  generalize (before ++ if movesChild then [] else [child]) = kept at *
  generalize ((if movesChild then [child] else []) ++ after) = moved at *
  have children_before : document.children parent = kept ++ moved := by
    rw [← keptIs, ← movedIs, List.take_append_drop]
  refine halves_of_copied wellFormed closed children_before (parent_lt_size wellFormed isParent)
    inZone outerInZone ?_ propertiesDone gatherDone insertDone
  intro sibling isMember
  rcases List.mem_filter.mp isMember with ⟨isKept, isProperties⟩
  have isChild : document.parent sibling = some parent := by
    rw [← wellFormed.mem_children_iff, children_before]
    exact List.mem_append_left moved isKept
  refine ⟨isChild, ?_⟩
  simpa only [Document.isProperties, name?, element?, Document.content,
    node_add_of_lt (lt_size_of_parent isChild)] using isProperties

theorem splitOff_of_splitUpTo {top cut : NodeId} {ids : List NodeId}
    (wellFormed : document.WellFormed) (closed : document.Closed zone rights)
    (climbs : document.ClimbsFrom cut ids) (isMember : top ∈ ids)
    (shown : ∀ id ∈ pathTo top ids, document.showsChildren id = true)
    (inZone : ∀ id ∈ pathTo top ids, zone id)
    (outerInZone : ∀ outer, document.parent top = some outer → zone outer)
    (done : splitUpTo top false cut ids document = .ok right document') :
    top ∈ pathTo top ids ∧ SplitOff document document' top right cut (pathTo top ids) ∧
      ChangesWithin zone rights document document' := by
  induction ids generalizing cut document with
  | nil => simp [splitUpTo] at done
  | cons first rest inductionHypothesis =>
      rcases climbs with ⟨isParent, climbs⟩
      rw [splitUpTo, bind_eq_ok] at done
      rcases done with ⟨half, middle, splitDone, done⟩
      have firstOnPath : first ∈ pathTo top (first :: rest) := by
        rw [pathTo]
        split <;> simp
      have showsFirst := shown first firstOnPath
      by_cases isTop : first = top
      · subst isTop
        rw [if_pos rfl, pure_eq_ok] at done
        rcases done with ⟨rfl, rfl⟩
        rcases halves_of_splitParent wellFormed closed isParent (inZone first firstOnPath)
          outerInZone splitDone with
          ⟨before, after, -, halves, changes⟩
        have path_eq : pathTo first (first :: rest) = [first] := by simp [pathTo]
        rw [path_eq]
        exact ⟨List.mem_singleton_self _, halves.splitOff wellFormed showsFirst isParent, changes⟩
      · rw [if_neg isTop] at done
        have path_eq : pathTo top (first :: rest) = first :: pathTo top rest := by
          simp [pathTo, isTop]
        rw [path_eq] at shown inZone ⊢
        rcases rest with _ | ⟨next, rest⟩
        · simp [splitUpTo] at done
        have isNext := climbs.1
        have nextOnPath : next ∈ pathTo top (next :: rest) := by
          rw [pathTo]
          split <;> simp
        rcases halves_of_splitParent wellFormed closed isParent (inZone first List.mem_cons_self)
          (by
            intro outer isOuter
            rw [isNext, Option.some.injEq] at isOuter
            exact isOuter ▸ inZone next (List.mem_cons_of_mem _ nextOnPath))
          splitDone with
          ⟨before, after, -, halves, changes⟩
        have lower := halves.splitOff wellFormed showsFirst isParent
        have first_lt := parent_lt_size wellFormed isParent
        have climbs' : middle.ClimbsFrom first (next :: rest) := by
          refine climbs.of_parent_eq fun other isMember => lower.parent_eq other ?_
          rcases isMember with rfl | isMember
          · exact LiesIn.parent isParent
          · exact LiesIn.of_parent isParent (climbs.liesIn isMember)
        have above_lt : ∀ id ∈ pathTo top (next :: rest), id.index < document.size := by
          intro id isMember
          rcases (climbs.liesIn (pathTo_subset _ isMember)).cases_child with rfl | ⟨child, isChild, -⟩
          · exact first_lt
          · exact parent_lt_size wellFormed isChild
        have isMember : top ∈ next :: rest :=
          (List.mem_cons.mp isMember).resolve_left (Ne.symm isTop)
        have topParent : middle.parent top = document.parent top :=
          lower.parent_eq top (LiesIn.of_parent isParent (climbs.liesIn isMember))
        rcases inductionHypothesis changes.wellFormed changes.closed climbs' isMember
          (fun id onPath => by
            rw [changes.showsChildren_eq (above_lt id onPath)]
            exact shown id (List.mem_cons_of_mem _ onPath))
          (fun id onPath => inZone id (List.mem_cons_of_mem _ onPath))
          (by rwa [topParent]) done with
          ⟨topOnPath, upper, changes'⟩
        exact ⟨List.mem_cons_of_mem _ topOnPath,
          lower.cons upper changes changes' wellFormed isParent (climbs.pathTo top) topOnPath
            nextOnPath isNext, changes.trans changes'⟩

/-- What splitting a paragraph at a text node does, when the carrier of the text is dropped. -/
theorem tidied_of_splitParagraph {paragraph text tail : NodeId} {final : Document}
    (isParagraph : document.paragraph? text = some paragraph)
    (done : splitParagraph paragraph text true document = .ok tail final) :
    ∃ split, splitUpTo paragraph false (document.textUnit text)
        (document.ancestors (document.textUnit text)) document = .ok tail split ∧
      (split.WellFormed →
        (split.detach (document.textUnit text)).isNamed paragraph Word.Name.paragraph = true →
        ∃ runs, Tidied (split.detach (document.textUnit text)) final paragraph tail runs) := by
  simp only [splitParagraph, get_bind, Bool.not_true, if_true, isParagraph, ne_eq,
    not_true_eq_false, if_false, bind_eq_ok, pure_eq_ok, detach_eq_ok] at done
  rcases done with ⟨tail', split, splitDone, ⟨⟩, _, rfl, ⟨⟩, unbroken, breakDone, ⟨⟩, tidied,
    tidyDone, ⟨⟩, final', tidyTailDone, rfl, rfl⟩
  exact ⟨split, splitDone, fun wellFormed named =>
    tidied_of_done (wellFormed.detach _) named breakDone tidyDone tidyTailDone⟩

/-- Splitting a paragraph at a text node and dropping the carrier of the text cuts the paragraph
apart, and touches nothing that is not above the text. -/
theorem cutApart_of_splitParagraph {paragraph text tail : NodeId}
    (wellFormed : document.WellFormed) (closed : document.Closed zone rights)
    (solitary : document.Solitary text)
    (shown : ∀ id, document.LiesIn paragraph id → document.LiesIn id text → id ≠ text →
      document.showsChildren id = true)
    (inZone : zone paragraph)
    (outerInZone : ∀ outer, document.parent paragraph = some outer → zone outer)
    (done : splitParagraph paragraph text true document = .ok tail document') :
    CutApart document document' paragraph tail text ∧
      Rearranges zone rights (document.LiesIn · text) document document' := by
  have isParagraph : document.paragraph? text = some paragraph := by
    by_contra notParagraph
    simp [splitParagraph, get_bind, notParagraph] at done
  rcases tidied_of_splitParagraph isParagraph done with ⟨split, splitDone, tidies⟩
  rcases liesIn_of_ancestorNamed? wellFormed isParagraph with ⟨around, named⟩
  rcases liesIn_textUnit_of_isNamed around named (by decide) solitary.1 with ⟨above, differ⟩
  have unitAbove := liesIn_textUnit document text
  have climbs := climbsFrom_ancestors wellFormed (document.textUnit text)
  have isAncestor : paragraph ∈ document.ancestors (document.textUnit text) :=
    ((mem_ancestors_iff wellFormed).mpr above).resolve_left differ.symm
  have pathAbove : ∀ id ∈ pathTo paragraph (document.ancestors (document.textUnit text)),
      document.LiesIn id (document.textUnit text) ∧ id ≠ document.textUnit text ∧
        document.LiesIn paragraph id := fun id onPath =>
    have isMember := pathTo_subset _ onPath
    ⟨climbs.liesIn isMember, climbs.ne wellFormed isMember,
      climbs.liesIn_of_mem_pathTo isAncestor onPath⟩
  rcases splitOff_of_splitUpTo wellFormed closed climbs isAncestor
    (fun id onPath => by
      rcases pathAbove id onPath with ⟨aboveUnit, notUnit, below⟩
      refine shown id below (unitAbove.trans aboveUnit) ?_
      rintro rfl
      exact notUnit (unitAbove.antisymm wellFormed aboveUnit))
    (fun id onPath => closed.liesIn (pathAbove id onPath).2.2 inZone) outerInZone splitDone with
    ⟨-, off, changes⟩
  have notOnPath : document.textUnit text ∉
      pathTo paragraph (document.ancestors (document.textUnit text)) := fun onPath =>
    (pathAbove _ onPath).2.1 rfl
  rcases above.cases_parent with same | ⟨holder, isHolder, below⟩
  · exact absurd same.symm differ
  have detaches := off.rearranges_detach changes.wellFormed changes.closed unitAbove isHolder
    (closed.liesIn below inZone)
  have rearranges := (off.rearranges changes unitAbove fun id onPath => (pathAbove id onPath).1).trans
    detaches wellFormed
  have named' : (split.detach (document.textUnit text)).isNamed paragraph Word.Name.paragraph = true := by
    rw [rearranges.isNamed_eq (lt_size_of_isNamed named), named]
  rcases tidies changes.wellFormed named' with ⟨runs, tidied⟩
  have neutral : Neutral zone rights _ document' :=
    tidied.neutral rearranges.wellFormed rearranges.closed inZone (closed.fresh off.right_new)
  have cutApart := off.cutApart wellFormed changes detaches above differ notOnPath solitary.2
  exact ⟨cutApart.tidied tidied rearranges.wellFormed neutral named named',
    rearranges.trans neutral.rearranges wellFormed⟩

end Edit

end WordTemplate
