import WordTemplate.Proofs.Document.Zone

/-!
# Changes that keep the running text

Most edits of a document keep the running text below every node: they add, move or take out nodes
without running text. This module has the lemmas for the basic changes, and two for others: what
detaching a node takes out of the running text, and how a change below one node shows in the running
text of the nodes around it.
-/

namespace WordTemplate.Document

variable {zone : NodeId → Prop} {rights : Rights} {document before middle after : Document}
  {id other top node parent child reference : NodeId} {left right : List NodeId}

theorem lt_size_of_mem_children (wellFormed : document.WellFormed)
    (isChild : child ∈ document.children parent) : child.index < document.size :=
  lt_size_of_parent ((wellFormed.mem_children_iff _ _).mp isChild)

/-- The running text stays the same below nodes whose children keep theirs. -/
theorem runningTexts_eq_of_children (part : NodeId → Prop) (wellFormed : before.WellFormed)
    (wellFormed' : after.WellFormed)
    (downward : ∀ id, part id → ∀ child ∈ before.children id, part child)
    (isText_eq : ∀ id, part id → after.isText id = before.isText id)
    (isProperties_eq : ∀ id, part id → after.isProperties id = before.isProperties id)
    (children_texts : ∀ id, part id → before.showsChildren id = true →
      (∀ child ∈ before.children id, after.runningTexts child = before.runningTexts child) →
      (after.children id).flatMap after.runningTexts =
        (before.children id).flatMap before.runningTexts)
    (isPart : part id) : after.runningTexts id = before.runningTexts id := by
  induction id using wellFormed.induction_children with
  | step id inductionHypothesis =>
      rw [runningTexts_eq wellFormed, runningTexts_eq wellFormed', isText_eq id isPart,
        isProperties_eq id isPart]
      split
      · rfl
      · rename_i notText
        split
        · rfl
        · rename_i notProperties
          refine children_texts id isPart (by simp [showsChildren, notText, notProperties]) ?_
          exact fun child isChild =>
            inductionHypothesis child isChild (downward id isPart child isChild)

/-- An edit within `zone` that keeps the running text below every node and brings no text node into
another text element. -/
structure Neutral (zone : NodeId → Prop) (rights : Rights) (before after : Document) : Prop extends
    ChangesWithin zone rights before after where
  runningTexts_eq : ∀ {id}, id.index < before.size →
    after.runningTexts id = before.runningTexts id
  holder_eq : ∀ {id parent}, id.index < before.size → before.isText id = true →
    after.parent id = some parent → after.isNamed parent Word.Name.text = true →
    before.parent id = some parent

namespace Neutral

theorem refl (wellFormed : document.WellFormed) (closed : document.Closed zone rights) :
    Neutral zone rights document document where
  toChangesWithin := ChangesWithin.refl wellFormed closed
  runningTexts_eq _ := rfl
  holder_eq _ _ isParent _ := isParent

theorem trans (first : Neutral zone rights before middle)
    (second : Neutral zone rights middle after) : Neutral zone rights before after where
  toChangesWithin := first.toChangesWithin.trans second.toChangesWithin
  runningTexts_eq inStore :=
    (second.runningTexts_eq (Nat.lt_of_lt_of_le inStore first.size_le)).trans
      (first.runningTexts_eq inStore)
  holder_eq := by
    intro id parent inStore isText isParent isHolder
    have inStore' := Nat.lt_of_lt_of_le inStore first.size_le
    have isParent' := second.holder_eq inStore' (by rw [first.isText_eq inStore, isText]) isParent
      isHolder
    refine first.holder_eq inStore isText isParent' ?_
    rwa [← second.isNamed_eq (parent_lt_size first.wellFormed isParent')]

end Neutral

/-- A change of contents keeps the running text if it keeps names and texts. -/
theorem ChangesWithin.neutral_of_parent_eq (changes : ChangesWithin zone rights before after)
    (wellFormed : before.WellFormed)
    (children_eq : ∀ id, id.index < before.size → after.children id = before.children id)
    (parent_eq : ∀ id, after.parent id = before.parent id) :
    Neutral zone rights before after where
  toChangesWithin := changes
  runningTexts_eq inStore := by
    refine runningTexts_eq_of_children (fun id => id.index < before.size) wellFormed
      changes.wellFormed ?_ ?_ ?_ ?_ inStore
    · exact fun id _ child isChild => lt_size_of_mem_children wellFormed isChild
    · exact fun id isOld => changes.isText_eq isOld
    · exact fun id isOld => changes.isProperties_eq isOld
    · intro id isOld _ sameBelow
      rw [children_eq id isOld]
      exact List.flatMap_congr sameBelow
  holder_eq _ _ isParent _ := by rwa [← parent_eq]

theorem neutral_add (wellFormed : document.WellFormed) (closed : document.Closed zone rights)
    (content : Content) : Neutral zone rights document (document.add content) :=
  (changesWithin_add wellFormed closed content).neutral_of_parent_eq wellFormed
    (fun _ _ => children_add _ _ _) (parent_add _ _)

theorem neutral_setText (wellFormed : document.WellFormed) (closed : document.Closed zone rights)
    (inZone : zone id) (isWritten : rights.writes id) (isText : document.isText id = true)
    (characters : String) :
    Neutral zone rights document (document.setContent id (.text characters)) :=
  (changesWithin_setText wellFormed closed inZone isWritten isText
    characters).neutral_of_parent_eq wellFormed (fun _ _ => children_setContent _ _ _ _)
    (parent_setContent _ _ _)

theorem neutral_setAttribute (wellFormed : document.WellFormed) (closed : document.Closed zone rights)
    (inZone : zone id) (key value : String) :
    Neutral zone rights document (document.setAttribute id key value) := by
  refine (changesWithin_setAttribute wellFormed closed inZone key value).neutral_of_parent_eq
    wellFormed (fun other _ => ?_) (parent_setAttribute _ _ _ _)
  unfold Document.setAttribute
  split
  · exact children_setContent _ _ _ _
  · rfl

/-- Leaving out nodes without running text changes no running text. -/
theorem flatMap_filter_of_silent {texts : NodeId → List NodeId} {kept : NodeId → Bool}
    {ids : List NodeId} (silent : ∀ id ∈ ids, kept id = false → texts id = []) :
    (ids.filter kept).flatMap texts = ids.flatMap texts := by
  induction ids with
  | nil => rfl
  | cons first rest inductionHypothesis =>
      have restSilent := inductionHypothesis fun id isMember =>
        silent id (List.mem_cons_of_mem _ isMember)
      by_cases isKept : kept first = true
      · simp [isKept, restSilent]
      · simp [isKept, restSilent, silent first List.mem_cons_self (by simpa using isKept)]

theorem flatMap_filter_of_eq_nil {texts : NodeId → List NodeId} (empty : texts node = [])
    (ids : List NodeId) : (ids.filter (· != node)).flatMap texts = ids.flatMap texts :=
  flatMap_filter_of_silent fun id _ same => by
    rw [bne_eq_false_iff_eq.mp same, empty]

theorem flatMap_filter_not_mem {texts : NodeId → List NodeId} {silent : List NodeId}
    (empty : ∀ id ∈ silent, texts id = []) (ids : List NodeId) :
    (ids.filter (· ∉ silent)).flatMap texts = ids.flatMap texts :=
  flatMap_filter_of_silent fun id _ isMember => empty id (by simpa using isMember)

/-- Text nodes have running text, namely themselves. -/
theorem ne_of_runningTexts_eq_nil (empty : document.runningTexts node = [])
    (isText : document.isText id = true) : id ≠ node := by
  rintro rfl
  simp [runningTexts_of_isText isText] at empty

theorem neutral_detach (wellFormed : document.WellFormed) (closed : document.Closed zone rights)
    (movable : document.Movable zone rights node) (empty : document.runningTexts node = []) :
    Neutral zone rights document (document.detach node) := by
  have changes : ChangesWithin zone rights document (document.detach node) :=
    changesWithin_detach wellFormed closed movable
  refine ⟨changes, ?_, ?_⟩
  · intro id inStore
    refine runningTexts_eq_of_children (fun id => id.index < document.size) wellFormed
      changes.wellFormed ?_ ?_ ?_ ?_ inStore
    · exact fun id _ child isChild => lt_size_of_mem_children wellFormed isChild
    · exact fun id isOld => changes.isText_eq isOld
    · exact fun id isOld => changes.isProperties_eq isOld
    · intro id isOld _ sameBelow
      rw [children_detach wellFormed, ← flatMap_filter_of_eq_nil empty (document.children id)]
      exact List.flatMap_congr fun child isChild =>
        sameBelow child (List.mem_filter.mp isChild).1
  · intro id parent inStore isText isParent _
    rw [parent_detach wellFormed] at isParent
    split at isParent
    · simp at isParent
    · exact isParent

theorem Moves.neutral (moves : Moves before after node parent left right)
    (wellFormed : before.WellFormed) (closed : before.Closed zone rights) (inZone : zone parent)
    (nodeInZone : zone node) (movable : before.Movable zone rights node)
    (empty : before.runningTexts node = []) : Neutral zone rights before after := by
  have changes : ChangesWithin zone rights before after :=
    moves.changesWithin wellFormed closed inZone nodeInZone movable
  have sameNode : after.runningTexts node = before.runningTexts node := by
    refine runningTexts_eq_of_children (before.LiesIn node) wellFormed
      changes.wellFormed ?_ ?_ ?_ ?_ LiesIn.refl
    · exact fun id inside child isChild =>
        LiesIn.of_parent ((wellFormed.mem_children_iff _ _).mp isChild) inside
    · exact fun id _ => by simp only [isText, text?, moves.content_eq]
    · exact fun id _ => isProperties_of_content_eq (moves.content_eq _)
    · intro id inside _ sameBelow
      have differ : id ≠ parent := by
        rintro rfl
        exact moves.outside inside
      have notAbove : before.parent node ≠ some id := fun isParent =>
        not_liesIn_of_parent wellFormed isParent inside
      rw [moves.children_eq, if_neg differ, filter_children_of_ne wellFormed notAbove]
      exact List.flatMap_congr sameBelow
  refine ⟨changes, ?_, ?_⟩
  · intro id isOld
    refine runningTexts_eq_of_children (fun id => id.index < before.size) wellFormed
      changes.wellFormed ?_ ?_ ?_ ?_ isOld
    · exact fun id _ child isChild => lt_size_of_mem_children wellFormed isChild
    · exact fun id isOld => changes.isText_eq isOld
    · exact fun id isOld => changes.isProperties_eq isOld
    · intro id _ _ sameBelow
      have others : ((before.children id).filter (· != node)).flatMap after.runningTexts =
          (before.children id).flatMap before.runningTexts := by
        rw [← flatMap_filter_of_eq_nil empty (before.children id)]
        exact List.flatMap_congr fun child isChild =>
          sameBelow child (List.mem_filter.mp isChild).1
      rw [moves.children_eq]
      split
      · subst id
        rw [← others, moves.others_eq]
        simp [sameNode, empty]
      · exact others
  · intro id holder isOld isText isParent _
    rw [moves.parent_eq] at isParent
    split at isParent
    · exact absurd ‹id = node› (ne_of_runningTexts_eq_nil empty isText)
    · exact isParent

/-! ## Gathering nodes -/

/-- `after` is `before` with `ids` moved to the end of the children of `target`, in this order. -/
structure Gathers (before after : Document) (target : NodeId) (ids : List NodeId) : Prop where
  wellFormed : after.WellFormed
  size_eq : after.size = before.size
  root_eq : after.root = before.root
  content_eq : ∀ id, after.content id = before.content id
  parent_eq : ∀ id, after.parent id = if id ∈ ids then some target else before.parent id
  children_eq : ∀ id, after.children id =
    (before.children id).filter (· ∉ ids) ++ if id = target then ids else []

theorem gathers_of_forM_appendChild {target : NodeId} {ids : List NodeId} {result : Unit}
    (wellFormed : before.WellFormed) (target_lt : target.index < before.size)
    (inStore : ∀ id ∈ ids, id.index < before.size) (nodup : ids.Nodup)
    (done : (forM ids (Edit.appendChild target)) before = .ok result after) :
    Gathers before after target ids := by
  induction ids generalizing before with
  | nil =>
      rw [Outcome.forM_nil_eq_ok] at done
      subst done
      exact ⟨wellFormed, rfl, rfl, fun _ => rfl, by simp, by simp⟩
  | cons first rest inductionHypothesis =>
      rw [Outcome.forM_cons_eq_ok] at done
      rcases done with ⟨middle, firstDone, restDone⟩
      rcases List.nodup_cons.mp nodup with ⟨firstOnce, restNodup⟩
      have moves := Edit.moves_of_appendChild wellFormed target_lt
        (inStore first List.mem_cons_self) firstDone
      have gathers := inductionHypothesis moves.wellFormed (by rwa [moves.size_eq])
        (fun id isMember => by
          rw [moves.size_eq]
          exact inStore id (List.mem_cons_of_mem _ isMember)) restNodup restDone
      refine ⟨gathers.wellFormed, by rw [gathers.size_eq, moves.size_eq],
        by rw [gathers.root_eq, moves.root_eq],
        fun id => by rw [gathers.content_eq, moves.content_eq], ?_, ?_⟩
      · intro id
        rw [gathers.parent_eq, moves.parent_eq]
        by_cases isFirst : id = first
        · simp [isFirst]
        · simp [isFirst]
      · intro id
        have merged : ((before.children id).filter (· != first)).filter (· ∉ rest) =
            (before.children id).filter (· ∉ first :: rest) := by
          rw [List.filter_filter]
          refine List.filter_congr fun child _ => ?_
          by_cases isFirst : child = first <;> simp [isFirst, firstOnce]
        rw [gathers.children_eq, moves.children_eq]
        by_cases isTarget : id = target
        · subst id
          rw [if_pos rfl, if_pos rfl, if_pos rfl, List.filter_append, merged]
          simp [firstOnce]
        · simp only [isTarget, if_false, List.append_nil]
          exact merged

theorem Gathers.changesWithin {target : NodeId} {ids : List NodeId}
    (gathers : Gathers before after target ids) (wellFormed : before.WellFormed)
    (closed : before.Closed zone rights) (inZone : zone target) (idsInZone : ∀ id ∈ ids, zone id)
    (movable : ∀ id ∈ ids, before.Movable zone rights id) :
    ChangesWithin zone rights before after where
  wellFormed := gathers.wellFormed
  closed := {
    child := by
      intro child parent isParent parentInZone
      rw [gathers.parent_eq] at isParent
      split at isParent
      · exact idsInZone child ‹_›
      · exact closed.child isParent parentInZone
    fresh := by
      intro id beyond
      rw [gathers.size_eq] at beyond
      exact closed.fresh beyond
    freshPlaces := by
      intro id beyond
      rw [gathers.size_eq] at beyond
      exact closed.freshPlaces beyond }
  size_le := Nat.le_of_eq gathers.size_eq.symm
  root_eq := gathers.root_eq
  children_eq := by
    intro id outside
    have differ : id ≠ target := by
      rintro rfl
      exact outside inZone
    rw [gathers.children_eq, if_neg differ, List.append_nil]
    refine List.filter_eq_self.mpr fun child isChild => ?_
    rw [decide_eq_true_eq]
    exact fun isMember => outside
      ((movable child isMember).parent id ((wellFormed.mem_children_iff _ _).mp isChild))
  content_eq _ := gathers.content_eq _
  name_eq _ := by simp only [name?, element?, gathers.content_eq]
  isText_eq _ := by simp only [isText, text?, gathers.content_eq]
  text_eq _ _ := by simp only [text?, gathers.content_eq]
  detached unallowed _ notProperties isDetached := by
    rw [gathers.parent_eq, if_neg, isDetached]
    exact fun isMember => unallowed ((movable _ isMember).detached isDetached notProperties)

/-- Gathering keeps the running text of every subtree that loses and gains no node. -/
theorem Gathers.runningTexts_eq {target : NodeId} {ids : List NodeId}
    (gathers : Gathers before after target ids) (wellFormed : before.WellFormed)
    (notAbove : ¬before.LiesIn id target)
    (keeps : ∀ child ∈ ids, before.LiesIn id child → id = child) :
    after.runningTexts id = before.runningTexts id := by
  refine runningTexts_eq_of_children (before.LiesIn id) wellFormed gathers.wellFormed
    ?_ ?_ ?_ ?_ LiesIn.refl
  · exact fun id inside child isChild =>
      LiesIn.of_parent ((wellFormed.mem_children_iff _ _).mp isChild) inside
  · exact fun id _ => by simp only [isText, text?, gathers.content_eq]
  · exact fun id _ => isProperties_of_content_eq (gathers.content_eq _)
  · intro other inside _ sameBelow
    have notTarget : other ≠ target := by
      rintro rfl
      exact notAbove inside
    have unmoved : (before.children other).filter (· ∉ ids) = before.children other := by
      refine List.filter_eq_self.mpr fun child isChild => ?_
      rw [decide_eq_true_eq]
      intro isMember
      have isParent := (wellFormed.mem_children_iff _ _).mp isChild
      have same := keeps child isMember (LiesIn.of_parent isParent inside)
      subst same
      exact not_liesIn_of_parent wellFormed isParent inside
    rw [gathers.children_eq, if_neg notTarget, List.append_nil, unmoved]
    exact List.flatMap_congr sameBelow

/-- Children of `source` are gathered below `target`. What holds neither of the two keeps its running
text. -/
theorem Gathers.runningTexts_of_apart {source target : NodeId} {ids : List NodeId}
    (gathers : Gathers before after target ids) (wellFormed : before.WellFormed)
    (areChildren : ∀ child ∈ ids, before.parent child = some source)
    (notAbove : ¬before.LiesIn id target) (apart : ¬before.LiesIn id source) :
    after.runningTexts id = before.runningTexts id := by
  refine gathers.runningTexts_eq wellFormed notAbove fun child isMember inside => ?_
  exact ((inside.cases_above (areChildren child isMember)).resolve_right apart).symm

/-! ## Dropping nodes -/

/-- `after` is `before` with `ids` detached. -/
structure Drops (before after : Document) (ids : List NodeId) : Prop where
  wellFormed : after.WellFormed
  size_eq : after.size = before.size
  root_eq : after.root = before.root
  content_eq : ∀ id, after.content id = before.content id
  parent_eq : ∀ id, after.parent id = if id ∈ ids then none else before.parent id
  children_eq : ∀ id, after.children id = (before.children id).filter (· ∉ ids)

theorem drops_of_forM_detach {ids : List NodeId} {result : Unit} (wellFormed : before.WellFormed)
    (done : (forM ids Edit.detach) before = .ok result after) : Drops before after ids := by
  induction ids generalizing before with
  | nil =>
      rw [Outcome.forM_nil_eq_ok] at done
      subst done
      exact ⟨wellFormed, rfl, rfl, fun _ => rfl, by simp, by simp⟩
  | cons first rest inductionHypothesis =>
      rw [Outcome.forM_cons_eq_ok] at done
      rcases done with ⟨middle, firstDone, restDone⟩
      rw [Edit.detach_eq_ok] at firstDone
      subst firstDone
      have drops := inductionHypothesis (wellFormed.detach first) restDone
      refine ⟨drops.wellFormed, by rw [drops.size_eq, size_detach],
        by rw [drops.root_eq, root_detach],
        fun id => by rw [drops.content_eq, content_detach wellFormed], ?_, ?_⟩
      · intro id
        rw [drops.parent_eq, parent_detach wellFormed]
        by_cases isFirst : id = first <;> simp [isFirst]
      · intro id
        rw [drops.children_eq, children_detach wellFormed, List.filter_filter]
        refine List.filter_congr fun child _ => ?_
        by_cases isFirst : child = first <;> simp [isFirst]

namespace Drops

variable {ids : List NodeId}

theorem parent_of_some (drops : Drops before after ids) (isParent : after.parent id = some parent) :
    before.parent id = some parent := by
  rw [drops.parent_eq] at isParent
  split at isParent
  · simp at isParent
  · exact isParent

theorem liesIn (drops : Drops before after ids) (inside : after.LiesIn id other) :
    before.LiesIn id other := by
  induction inside with
  | refl => exact LiesIn.refl
  | tail _ isParent inductionHypothesis =>
      exact inductionHypothesis.trans (LiesIn.parent (drops.parent_of_some isParent))

theorem children_of_not_parent (drops : Drops before after ids) (wellFormed : before.WellFormed)
    (notParent : ∀ child ∈ ids, before.parent child ≠ some id) :
    after.children id = before.children id := by
  rw [drops.children_eq]
  refine List.filter_eq_self.mpr fun child isChild => ?_
  rw [decide_eq_true_eq]
  exact fun isMember => notParent child isMember ((wellFormed.mem_children_iff _ _).mp isChild)

theorem changesWithin (drops : Drops before after ids) (wellFormed : before.WellFormed)
    (closed : before.Closed zone rights) (movable : ∀ id ∈ ids, before.Movable zone rights id) :
    ChangesWithin zone rights before after where
  wellFormed := drops.wellFormed
  closed := {
    child := fun isParent parentInZone => closed.child (drops.parent_of_some isParent) parentInZone
    fresh := by
      intro id beyond
      rw [drops.size_eq] at beyond
      exact closed.fresh beyond
    freshPlaces := by
      intro id beyond
      rw [drops.size_eq] at beyond
      exact closed.freshPlaces beyond }
  size_le := Nat.le_of_eq drops.size_eq.symm
  root_eq := drops.root_eq
  children_eq outside := drops.children_of_not_parent wellFormed fun child isMember isParent =>
    outside ((movable child isMember).parent _ isParent)
  content_eq _ := drops.content_eq _
  name_eq _ := by simp only [name?, element?, drops.content_eq]
  isText_eq _ := by simp only [isText, text?, drops.content_eq]
  text_eq _ _ := by simp only [text?, drops.content_eq]
  detached _ _ _ isDetached := by rw [drops.parent_eq, isDetached, ite_self]

theorem neutral (drops : Drops before after ids) (wellFormed : before.WellFormed)
    (closed : before.Closed zone rights) (movable : ∀ id ∈ ids, before.Movable zone rights id)
    (empty : ∀ id ∈ ids, before.runningTexts id = []) :
    Neutral zone rights before after := by
  have changes : ChangesWithin zone rights before after :=
    drops.changesWithin wellFormed closed movable
  refine ⟨changes, ?_, ?_⟩
  · intro id inStore
    refine runningTexts_eq_of_children (fun id => id.index < before.size) wellFormed
      changes.wellFormed ?_ ?_ ?_ ?_ inStore
    · exact fun id _ child isChild => lt_size_of_mem_children wellFormed isChild
    · exact fun id isOld => changes.isText_eq isOld
    · exact fun id isOld => changes.isProperties_eq isOld
    · intro id _ _ sameBelow
      rw [drops.children_eq, ← flatMap_filter_not_mem empty]
      exact List.flatMap_congr fun child isChild => sameBelow child (List.mem_filter.mp isChild).1
  · exact fun _ _ isParent _ => drops.parent_of_some isParent

/-- Dropping keeps the running text of every subtree that loses no node. -/
theorem runningTexts_eq (drops : Drops before after ids) (wellFormed : before.WellFormed)
    (keeps : ∀ child ∈ ids, before.LiesIn id child → id = child) :
    after.runningTexts id = before.runningTexts id := by
  refine runningTexts_eq_of_children (before.LiesIn id) wellFormed drops.wellFormed
    ?_ ?_ ?_ ?_ LiesIn.refl
  · exact fun id inside child isChild =>
      LiesIn.of_parent ((wellFormed.mem_children_iff _ _).mp isChild) inside
  · exact fun id _ => by simp only [isText, text?, drops.content_eq]
  · exact fun id _ => isProperties_of_content_eq (drops.content_eq _)
  · intro other inside _ sameBelow
    rw [drops.children_of_not_parent wellFormed]
    · exact List.flatMap_congr sameBelow
    · intro child isMember isParent
      have same := keeps child isMember (LiesIn.of_parent isParent inside)
      subst same
      exact not_liesIn_of_parent wellFormed isParent inside

/-- Dropping children of one node keeps the running text of each of its children. -/
theorem runningTexts_of_sibling {parent : NodeId} (drops : Drops before after ids)
    (wellFormed : before.WellFormed) (isParent : before.parent id = some parent)
    (areChildren : ∀ child ∈ ids, before.parent child = some parent) :
    after.runningTexts id = before.runningTexts id :=
  drops.runningTexts_eq wellFormed fun child isDropped inside =>
    ((inside.cases_above (areChildren child isDropped)).resolve_right
      (not_liesIn_of_parent wellFormed isParent)).symm

/-- Dropping one list of nodes after the other. -/
theorem append {ids' : List NodeId} (first : Drops before middle ids)
    (second : Drops middle after ids') : Drops before after (ids ++ ids') where
  wellFormed := second.wellFormed
  size_eq := second.size_eq.trans first.size_eq
  root_eq := second.root_eq.trans first.root_eq
  content_eq id := (second.content_eq id).trans (first.content_eq id)
  parent_eq id := by
    rw [second.parent_eq, first.parent_eq]
    by_cases isFirst : id ∈ ids <;> by_cases isSecond : id ∈ ids' <;> simp [isFirst, isSecond]
  children_eq id := by
    rw [second.children_eq, first.children_eq, List.filter_filter]
    refine List.filter_congr fun child _ => ?_
    by_cases isFirst : child ∈ ids <;> by_cases isSecond : child ∈ ids' <;>
      simp [isFirst, isSecond]

end Drops

theorem drops_detach (wellFormed : document.WellFormed) (node : NodeId) :
    Drops document (document.detach node) [node] where
  wellFormed := wellFormed.detach node
  size_eq := size_detach _ _
  root_eq := root_detach _ _
  content_eq := content_detach wellFormed node
  parent_eq id := by simp [parent_detach wellFormed]
  children_eq id := by
    rw [children_detach wellFormed]
    refine List.filter_congr fun child _ => ?_
    by_cases same : child = node <;> simp [same]

/-! ## Other changes -/

theorem runningTexts_detach_inside (wellFormed : document.WellFormed)
    (inside : document.LiesIn node id) :
    (document.detach node).runningTexts id = document.runningTexts id := by
  refine runningTexts_eq_of_children (document.LiesIn node) wellFormed
    (wellFormed.detach node) ?_ ?_ ?_ ?_ inside
  · exact fun id inside child isChild =>
      LiesIn.of_parent ((wellFormed.mem_children_iff _ _).mp isChild) inside
  · exact fun id _ => by simp only [isText, text?, content_detach wellFormed]
  · exact fun id _ => isProperties_of_content_eq (content_detach wellFormed _ _)
  · intro id inside _ sameBelow
    have notAbove : document.parent node ≠ some id := fun isParent =>
      not_liesIn_of_parent wellFormed isParent inside
    rw [children_detach wellFormed, filter_children_of_ne wellFormed notAbove]
    exact List.flatMap_congr sameBelow

/-- Detaching a node takes its running text out of that of the other nodes. -/
theorem runningTexts_detach (wellFormed : document.WellFormed)
    (outside : ¬document.LiesIn node id) :
    (document.detach node).runningTexts id =
      (document.runningTexts id).filter (· ∉ document.runningTexts node) := by
  induction id using wellFormed.induction_children with
  | step id inductionHypothesis =>
      have isText_eq : (document.detach node).isText id = document.isText id := by
        simp only [isText, text?, content_detach wellFormed]
      have isProperties_eq : (document.detach node).isProperties id = document.isProperties id := by
        exact isProperties_of_content_eq (content_detach wellFormed _ _)
      have notTaken : id ∉ document.runningTexts node := fun isMember =>
        outside (liesIn_of_mem_runningTexts wellFormed isMember)
      rw [runningTexts_eq wellFormed id, runningTexts_eq (wellFormed.detach node) id, isText_eq,
        isProperties_eq, children_detach wellFormed]
      split
      · simp [notTaken]
      · split
        · rfl
        · have childOutside : ∀ child ∈ document.children id, child ≠ node →
              ¬document.LiesIn node child := by
            intro child isChild differ inside
            have isParent := (wellFormed.mem_children_iff _ _).mp isChild
            rcases inside.cases_above isParent with same | above
            · exact differ same
            · exact outside above
          rw [List.filter_flatMap]
          have emptied : ((document.runningTexts node).filter
              (· ∉ document.runningTexts node)) = [] := by simp
          rw [← flatMap_filter_of_eq_nil emptied (document.children id)]
          refine List.flatMap_congr fun child isChild => ?_
          rcases List.mem_filter.mp isChild with ⟨isChild, differ⟩
          have differ : child ≠ node := by simpa using differ
          exact inductionHypothesis child isChild (childOutside child isChild differ)

theorem runningTexts_detach_of_apart (wellFormed : document.WellFormed)
    (outside : ¬document.LiesIn node id) (notAbove : ¬document.LiesIn id node) :
    (document.detach node).runningTexts id = document.runningTexts id := by
  rw [runningTexts_detach wellFormed outside, List.filter_eq_self]
  intro text isMember
  rw [decide_eq_true_eq]
  intro isPart
  rcases (liesIn_of_mem_runningTexts wellFormed isPart).total
    (liesIn_of_mem_runningTexts wellFormed isMember) with within | around
  · exact outside within
  · exact notAbove around

/-- Detaching a node with one running text takes that out of the other nodes. -/
theorem runningTexts_detach_of_single {text : NodeId} (wellFormed : document.WellFormed)
    (alone : document.runningTexts node = [text]) (outside : ¬document.LiesIn node id) :
    (document.detach node).runningTexts id = (document.runningTexts id).filter (· != text) := by
  rw [runningTexts_detach wellFormed outside, alone]
  refine List.filter_congr fun other _ => ?_
  by_cases same : other = text <;> simp [same]

namespace ChangesWithin

/-- Changes elsewhere keep the running text of a subtree. -/
theorem runningTexts_eq_of_outside (changes : ChangesWithin zone rights before after)
    (wellFormed : before.WellFormed) (outside : ∀ id, before.LiesIn top id → ¬zone id) :
    after.runningTexts top = before.runningTexts top := by
  refine runningTexts_eq_of_children (before.LiesIn top) wellFormed
    changes.wellFormed ?_ ?_ ?_ ?_ LiesIn.refl
  · exact fun id inside child isChild =>
      LiesIn.of_parent ((wellFormed.mem_children_iff _ _).mp isChild) inside
  · exact fun id inside => by simp only [isText, text?, changes.content_eq (outside id inside)]
  · exact fun id inside => by
      exact isProperties_of_content_eq (changes.content_eq (outside id inside))
  · intro id inside _ sameBelow
    rw [changes.children_eq (outside id inside)]
    exact List.flatMap_congr sameBelow

/-- Changes below one node show in the running text of the nodes around it at one place. -/
theorem runningTexts_around (changes : ChangesWithin zone rights before after)
    (wellFormed : before.WellFormed) {pivot : NodeId} (inside : before.LiesIn top pivot)
    (shown : ∀ id, before.LiesIn top id → before.LiesIn id pivot → id ≠ pivot →
      before.showsChildren id = true)
    (within : ∀ id, before.LiesIn top id → zone id → before.LiesIn pivot id) :
    ∃ left right, before.runningTexts top = left ++ before.runningTexts pivot ++ right ∧
      after.runningTexts top = left ++ after.runningTexts pivot ++ right := by
  induction inside with
  | refl => exact ⟨[], [], by simp⟩
  | @tail child top insideChild isParent inductionHypothesis =>
      have isParent : before.parent child = some top := isParent
      have insideChild : before.LiesIn child pivot := insideChild
      have childInside : before.LiesIn top child := LiesIn.parent isParent
      rcases inductionHypothesis
        (fun id below => shown id (below.trans childInside))
        (fun id below => within id (below.trans childInside)) with ⟨left, right, whole, whole'⟩
      have topNotBelow : ¬before.LiesIn child top := not_liesIn_of_parent wellFormed isParent
      have topOutside : ¬zone top := fun inZone =>
        topNotBelow ((within top LiesIn.refl inZone).trans insideChild)
      have differ : top ≠ pivot := by
        rintro rfl
        exact topNotBelow insideChild
      have shows : before.showsChildren top = true :=
        shown top LiesIn.refl (insideChild.trans childInside) differ
      have shows' : after.showsChildren top = true := by
        simp only [showsChildren, isText, text?, isProperties, name?, element?,
          changes.content_eq topOutside]
        simpa only [showsChildren, isText, text?, isProperties, name?, element?] using shows
      have isChild := (wellFormed.mem_children_iff _ _).mpr isParent
      rcases List.append_of_mem isChild with ⟨before', after', siblings⟩
      have nodup := wellFormed.nodup_children top
      rw [siblings] at nodup
      have sameBeside : ∀ sibling ∈ before' ++ after',
          after.runningTexts sibling = before.runningTexts sibling := by
        intro sibling isSibling
        have isSiblingChild : sibling ∈ before.children top := by
          rw [siblings]
          rcases List.mem_append.mp isSibling with isBefore | isAfter
          · exact List.mem_append_left _ isBefore
          · exact List.mem_append_right _ (List.mem_cons_of_mem _ isAfter)
        have siblingParent := (wellFormed.mem_children_iff _ _).mp isSiblingChild
        have distinct : child ≠ sibling := by
          rintro rfl
          rw [List.nodup_middle] at nodup
          exact (List.nodup_cons.mp nodup).1 isSibling
        refine changes.runningTexts_eq_of_outside wellFormed fun id below inZone => ?_
        have belowPivot := within id (below.trans (LiesIn.parent siblingParent)) inZone
        exact not_liesIn_of_siblings wellFormed isParent siblingParent distinct
          (belowPivot.trans insideChild) below
      refine ⟨before'.flatMap before.runningTexts ++ left,
        right ++ after'.flatMap before.runningTexts, ?_, ?_⟩
      · rw [runningTexts_of_showsChildren wellFormed shows, siblings]
        simp [whole]
      · rw [runningTexts_of_showsChildren changes.wellFormed shows',
          changes.children_eq topOutside, siblings]
        have sameLeft : before'.flatMap after.runningTexts = before'.flatMap before.runningTexts :=
          List.flatMap_congr fun sibling isSibling =>
            sameBeside sibling (List.mem_append_left _ isSibling)
        have sameRight : after'.flatMap after.runningTexts = after'.flatMap before.runningTexts :=
          List.flatMap_congr fun sibling isSibling =>
            sameBeside sibling (List.mem_append_right _ isSibling)
        simp [whole', sameLeft, sameRight]

end ChangesWithin

/-- Whatever stands above a node with running text shows its children. -/
theorem showsChildren_of_mem_runningTexts (wellFormed : document.WellFormed) {pivot : NodeId}
    (isMember : node ∈ document.runningTexts top) (around : document.LiesIn pivot node)
    (below : document.LiesIn top id) (above : document.LiesIn id pivot) (differ : id ≠ pivot) :
    document.showsChildren id = true := by
  rcases (mem_runningTexts_iff wellFormed).mp isMember with ⟨-, -, between⟩
  refine between id below (around.trans above) ?_
  rintro rfl
  exact differ (above.antisymm wellFormed around).symm

end WordTemplate.Document
