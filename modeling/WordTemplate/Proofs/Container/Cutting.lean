import WordTemplate.Container.Fragments
import WordTemplate.Proofs.Document.Local
import WordTemplate.Proofs.Document.Siblings
import WordTemplate.Proofs.Word.Splitting

/-!
# Cutting a region out

The region between two tags is what is left between two cuts. The cuts take the texts of the two
tags out of the running text, and the running text of the region is what stood between them.
-/

namespace WordTemplate

namespace Document

variable {zone : NodeId → Prop} {rights : Rights} {document before middle after : Document}
  {opening closing parent paragraph other first last text tail : NodeId}
  {left region right : List NodeId}

/-- The siblings of a node keep their running text while something is rearranged around a node below
it. -/
theorem Rearranges.runningTexts_sibling
    (rearranges : Rearranges zone rights (before.LiesIn · text) before after)
    (wellFormed : before.WellFormed) (isParent : before.parent paragraph = some parent)
    (above : before.LiesIn paragraph text) (isSibling : before.parent other = some parent)
    (differ : other ≠ paragraph) : after.runningTexts other = before.runningTexts other :=
  rearranges.runningTexts_eq (lt_size_of_parent isSibling)
    (not_liesIn_of_siblings wellFormed isParent isSibling differ.symm above)

theorem Rearranges.flatMap_siblings
    (rearranges : Rearranges zone rights (before.LiesIn · text) before after)
    (wellFormed : before.WellFormed) (isParent : before.parent paragraph = some parent)
    (above : before.LiesIn paragraph text)
    (siblings : before.children parent = left ++ paragraph :: right) {ids : List NodeId}
    (subset : ids ⊆ left ++ right) :
    ids.flatMap after.runningTexts = ids.flatMap before.runningTexts := by
  have nodup := wellFormed.nodup_children parent
  rw [siblings, List.nodup_middle, List.nodup_cons] at nodup
  refine List.flatMap_congr fun other isMember => ?_
  have isOther := subset isMember
  refine rearranges.runningTexts_sibling wellFormed isParent above ?_ ?_
  · rw [← wellFormed.mem_children_iff, siblings]
    rcases List.mem_append.mp isOther with isOther | isOther <;> simp [isOther]
  · rintro rfl
    exact nodup.1 isOther

/-- The nodes of `region` stand between `first` and `last` in `after`, and in `before` their running
text stood between the text nodes `opening` and `closing`. -/
structure Isolated (before after : Document) (opening closing parent first last : NodeId)
    (left region right : List NodeId) : Prop where
  isParent : before.parent first = some parent
  above : before.LiesIn first opening
  children_eq : after.children parent = left ++ first :: (region ++ last :: right)
  texts : before.runningTexts parent =
    left.flatMap after.runningTexts ++ after.runningTexts first ++
      opening :: (region.flatMap after.runningTexts ++
        closing :: (after.runningTexts last ++ right.flatMap after.runningTexts))
  firstNamed : after.isNamed first Word.Name.paragraph = true
  lastNamed : after.isNamed last Word.Name.paragraph = true

theorem CutApart.tail_ne {id : NodeId} (cut : CutApart before after paragraph tail text)
    (isOld : id.index < before.size) : tail ≠ id := by
  rintro rfl
  exact Nat.not_lt_of_le cut.tail_new isOld

/-- Both tags stand in one paragraph: the second cut goes through the tail of the first one. -/
theorem isolated_of_same {zone' : NodeId → Prop} {rights' : Rights}
    (wellFormed : before.WellFormed)
    (firstCut : CutApart before middle paragraph tail opening)
    (firstRearranges : Rearranges zone rights (before.LiesIn · opening) before middle)
    (secondCut : CutApart middle after tail last closing)
    (secondRearranges : Rearranges zone' rights' (middle.LiesIn · closing) middle after)
    (named : before.isNamed paragraph Word.Name.paragraph = true)
    (above : before.LiesIn paragraph opening) (tailAbove : middle.LiesIn tail closing)
    (shows : ∀ outer, before.parent paragraph = some outer → before.showsChildren outer = true) :
    ∃ parent left right,
      Isolated before after opening closing parent paragraph last left [tail] right := by
  have paragraph_lt := lt_size_of_isNamed named
  rcases firstCut.beside with
    ⟨outer, left, right, isOuter, isOuter', isTailOuter, siblings, siblings'⟩
  rcases secondCut.beside with
    ⟨outer', left', right', isOuter'', -, -, tailSiblings, tailSiblings'⟩
  rw [isTailOuter, Option.some.injEq] at isOuter''
  subst isOuter''
  have nodup := firstRearranges.wellFormed.nodup_children outer
  rw [List.append_cons left paragraph] at siblings'
  rw [siblings'] at tailSiblings nodup
  rcases append_cons_inj nodup tailSiblings with ⟨rfl, rfl⟩
  have same : ∀ {ids : List NodeId}, ids ⊆ left ++ right →
      ids.flatMap after.runningTexts = ids.flatMap before.runningTexts := by
    intro ids subset
    rw [secondRearranges.flatMap_siblings firstRearranges.wellFormed isTailOuter tailAbove
      siblings' (fun id isMember => by
        rcases List.mem_append.mp (subset isMember) with isMember | isMember <;> simp [isMember]),
      firstRearranges.flatMap_siblings wellFormed isOuter above siblings subset]
  have startSame : after.runningTexts paragraph = middle.runningTexts paragraph :=
    secondRearranges.runningTexts_sibling firstRearranges.wellFormed isTailOuter tailAbove
      isOuter' (firstCut.tail_ne paragraph_lt).symm
  rcases firstCut.texts with ⟨start, rest, texts, startTexts, tailTexts⟩
  rcases secondCut.texts with ⟨start', rest', texts', startTexts', lastTexts⟩
  refine ⟨outer, left, right, isOuter, above, by simpa using tailSiblings', ?_, ?_, ?_⟩
  · rw [runningTexts_of_showsChildren wellFormed (shows outer isOuter), siblings,
      same (List.subset_append_left _ _), same (List.subset_append_right _ _), startSame]
    simp [texts, startTexts, ← tailTexts, texts', startTexts', lastTexts]
  · rw [secondRearranges.isNamed_eq (Nat.lt_of_lt_of_le paragraph_lt firstRearranges.size_le),
      firstRearranges.isNamed_eq paragraph_lt, named]
  · rw [isNamed, secondCut.tail_name, firstCut.tail_name, ← isNamed, named]

/-- Where a list is cut at two nodes and a range goes from the first cut to the second one, the
second node follows the first one and the inner range is between them. -/
theorem eq_append_of_range {left' right' leading inner trailing : List NodeId}
    (nodup : (left ++ paragraph :: tail :: right).Nodup)
    (same : left ++ paragraph :: tail :: right = left' ++ other :: right')
    (nodupDropped : (leading ++ paragraph :: (inner ++ last :: trailing)).Nodup)
    (dropped : ((left' ++ other :: last :: right').filter (· != tail)).filter (· != other) =
      leading ++ paragraph :: (inner ++ last :: trailing))
    (differ : tail ≠ other) (lastNe : last ≠ tail) (lastNe' : last ≠ other) :
    left' = left ++ paragraph :: tail :: inner ∧ right = inner ++ other :: right' := by
  simp only [List.filter_append, List.filter_cons, bne_self_eq_false, differ.symm, lastNe, lastNe',
    ne_eq, not_false_eq_true, bne_iff_ne, if_true, Bool.false_eq_true, if_false] at dropped
  have regroup : leading ++ paragraph :: (inner ++ last :: trailing) =
      (leading ++ paragraph :: inner) ++ last :: trailing := by simp
  rw [regroup] at dropped nodupDropped
  have leftIs := (append_cons_inj nodupDropped dropped.symm).1.symm
  have isMember : paragraph ∈ left' := by
    have isFiltered : paragraph ∈ (left'.filter (· != tail)).filter (· != other) := by
      rw [leftIs]
      simp
    exact (List.mem_filter.mp (List.mem_filter.mp isFiltered).1).1
  rcases List.append_of_mem isMember with ⟨first, second, rfl⟩
  rw [List.append_assoc, List.cons_append] at same
  rcases append_cons_inj nodup same with ⟨rfl, rest⟩
  rcases second with _ | ⟨head, second⟩
  · rw [List.nil_append, List.cons.injEq] at rest
    exact absurd rest.1 differ
  rw [List.cons_append, List.cons.injEq] at rest
  rcases rest with ⟨rfl, rfl⟩
  have notTail : tail ∉ left ++ paragraph :: second := by
    intro isHead
    have moved : left ++ paragraph :: tail :: (second ++ other :: right') =
        (left ++ [paragraph]) ++ tail :: (second ++ other :: right') := by simp
    rw [moved, List.nodup_middle, List.nodup_cons] at nodup
    refine nodup.1 ?_
    simp only [List.mem_append, List.mem_cons, List.not_mem_nil] at isHead ⊢
    rcases isHead with isFirst | same | isSecond
    · exact Or.inl (Or.inl isFirst)
    · exact Or.inl (Or.inr (Or.inl same))
    · exact Or.inr (Or.inl isSecond)
  have notOther : other ∉ left ++ paragraph :: second := by
    intro isOther
    have moved : left ++ paragraph :: tail :: (second ++ other :: right') =
        (left ++ paragraph :: tail :: second) ++ other :: right' := by simp
    rw [moved, List.nodup_middle, List.nodup_cons] at nodup
    refine nodup.1 ?_
    simp only [List.mem_append, List.mem_cons] at isOther ⊢
    rcases isOther with isFirst | same | isSecond
    · exact Or.inl (Or.inl isFirst)
    · exact Or.inl (Or.inr (Or.inl same))
    · exact Or.inl (Or.inr (Or.inr (Or.inr isSecond)))
  have kept : ((left ++ paragraph :: tail :: second).filter (· != tail)).filter (· != other) =
      left ++ paragraph :: second := by
    have withoutTail : (left ++ paragraph :: tail :: second).filter (· != tail) =
        left ++ paragraph :: second := by
      rw [← filter_ne_of_not_mem notTail]
      simp [List.filter_cons]
    rw [withoutTail, filter_ne_of_not_mem notOther]
  rw [kept] at leftIs
  have nodupLeft : (left ++ paragraph :: second).Nodup := by
    rw [leftIs]
    exact (List.nodup_append.mp nodupDropped).1
  rcases append_cons_inj nodupLeft leftIs with ⟨-, rfl⟩
  exact ⟨rfl, rfl⟩

/-- The siblings around two cuts: `tail` was placed after `paragraph`, then `last` after `other`. -/
structure CutSiblings (before middle after : Document) (parent paragraph tail other last : NodeId)
    (left inner right : List NodeId) : Prop where
  isParent : before.parent paragraph = some parent
  children_before : before.children parent = left ++ paragraph :: (inner ++ other :: right)
  children_middle : middle.children parent =
    left ++ paragraph :: tail :: (inner ++ other :: right)
  children_after : after.children parent =
    left ++ paragraph :: tail :: (inner ++ other :: last :: right)

/-- Two paragraphs that were cut apart are siblings if a range goes from the first one to what the
second one was cut into, and what is inside the range is between them. -/
theorem exists_cutSiblings {dropped : Document} {leading range trailing : List NodeId}
    (middleFormed : middle.WellFormed)
    (firstCut : CutApart before middle paragraph tail opening)
    (secondCut : CutApart middle after other last closing)
    (paragraph_lt : paragraph.index < before.size) (other_lt : other.index < before.size)
    (size_le : before.size ≤ middle.size) (differ : paragraph ≠ other)
    (droppedFormed : dropped.WellFormed)
    (children_dropped : ∀ id, dropped.children id =
      ((after.children id).filter (· != tail)).filter (· != other))
    (stretch : dropped.Stretch parent paragraph last leading range trailing) :
    ∃ left right, CutSiblings before middle after parent paragraph tail other last left
      ((range.drop 1).dropLast) right := by
  have tail_ne_other := firstCut.tail_ne other_lt
  have last_ne := secondCut.tail_ne (Nat.lt_of_lt_of_le paragraph_lt size_le)
  have last_ne_other := secondCut.tail_ne (Nat.lt_of_lt_of_le other_lt size_le)
  have last_ne_tail := secondCut.tail_ne firstCut.tail_lt
  rcases firstCut.beside with ⟨outer, left, right, isOuter, isOuter', -, siblings, siblings'⟩
  rcases secondCut.beside with ⟨outer', left', right', -, -, -, otherSiblings, otherSiblings'⟩
  have rangeIs := stretch.eq_append last_ne.symm
  generalize (range.drop 1).dropLast = inner at *
  -- The cuts happened below the parent of the range.
  have sameOuter' : outer' = parent := by
    have isMember : last ∈ dropped.children outer' := by
      rw [children_dropped, otherSiblings']
      simp [last_ne_tail, last_ne_other]
    rw [droppedFormed.mem_children_iff,
      stretch.parent_eq droppedFormed stretch.last_mem, Option.some.injEq] at isMember
    exact isMember.symm
  subst sameOuter'
  have paragraphMember : paragraph ∈ dropped.children outer' :=
    (droppedFormed.mem_children_iff _ _).mpr stretch.isParent
  have sameOuter : outer = outer' := by
    rw [children_dropped, otherSiblings', List.mem_filter, List.mem_filter] at paragraphMember
    have isMember : paragraph ∈ middle.children outer' := by
      rw [otherSiblings]
      simpa [differ, last_ne.symm] using paragraphMember.1.1
    rw [middleFormed.mem_children_iff, isOuter', Option.some.injEq] at isMember
    exact isMember
  subst sameOuter
  -- The other paragraph stands after the first one.
  have nodup := middleFormed.nodup_children outer
  have nodupDropped := droppedFormed.nodup_children outer
  have dropped_eq := children_dropped outer
  rw [otherSiblings', stretch.children_eq, rangeIs] at dropped_eq
  rw [stretch.children_eq, rangeIs] at nodupDropped
  rw [siblings'] at otherSiblings nodup
  rcases eq_append_of_range nodup otherSiblings (by simpa using nodupDropped)
    (by simpa using dropped_eq.symm) tail_ne_other last_ne_tail last_ne_other with ⟨rfl, rfl⟩
  exact ⟨left, right', isOuter, siblings, siblings', by simp [otherSiblings']⟩

/-- The tags stand in different paragraphs: what is between these paragraphs belongs to the region. -/
theorem isolated_of_differ {zone' : NodeId → Prop} {rights' : Rights} {inner : List NodeId}
    (wellFormed : before.WellFormed)
    (firstCut : CutApart before middle paragraph tail opening)
    (firstRearranges : Rearranges zone rights (before.LiesIn · opening) before middle)
    (secondCut : CutApart middle after other last closing)
    (secondRearranges : Rearranges zone' rights' (middle.LiesIn · closing) middle after)
    (named : before.isNamed paragraph Word.Name.paragraph = true)
    (otherNamed : before.isNamed other Word.Name.paragraph = true) (differ : paragraph ≠ other)
    (above : before.LiesIn paragraph opening) (otherAbove : middle.LiesIn other closing)
    (shows : ∀ outer, before.parent paragraph = some outer → before.showsChildren outer = true)
    (cutSiblings : CutSiblings before middle after parent paragraph tail other last left inner
      right) :
    Isolated before after opening closing parent paragraph last left (tail :: (inner ++ [other]))
      right := by
  have paragraph_lt := lt_size_of_isNamed named
  have other_lt := lt_size_of_isNamed otherNamed
  rcases cutSiblings with ⟨isParent, siblings, middleSiblings, afterSiblings⟩
  have isSibling : ∀ {id}, id ∈ left ++ paragraph :: tail :: (inner ++ other :: right) →
      middle.parent id = some parent := fun isMember => by
    rwa [← middleSiblings, firstRearranges.wellFormed.mem_children_iff] at isMember
  have otherParent : middle.parent other = some parent := isSibling (by simp)
  have middleAround : middle.children parent =
      (left ++ paragraph :: tail :: inner) ++ other :: right := by simp [middleSiblings]
  have same : ∀ {ids : List NodeId}, ids ⊆ left ++ (inner ++ right) →
      ids.flatMap after.runningTexts = ids.flatMap before.runningTexts := by
    intro ids subset
    rw [secondRearranges.flatMap_siblings firstRearranges.wellFormed otherParent otherAbove
        middleAround,
      firstRearranges.flatMap_siblings wellFormed isParent above siblings] <;>
    · intro id isMember
      have isMember := subset isMember
      simp only [List.mem_append, List.mem_cons] at isMember ⊢
      tauto
  have sameSecond : ∀ {id}, middle.parent id = some parent → id ≠ other →
      after.runningTexts id = middle.runningTexts id :=
    secondRearranges.runningTexts_sibling firstRearranges.wellFormed otherParent otherAbove
  have otherTexts : middle.runningTexts other = before.runningTexts other := by
    refine firstRearranges.runningTexts_sibling wellFormed isParent above ?_ differ.symm
    rw [← wellFormed.mem_children_iff, siblings]
    simp
  rcases firstCut.texts with ⟨start, rest, texts, startTexts, tailTexts⟩
  rcases secondCut.texts with ⟨start', rest', texts', startTexts', lastTexts⟩
  refine ⟨isParent, above, by simp [afterSiblings], ?_, ?_, ?_⟩
  · rw [runningTexts_of_showsChildren wellFormed (shows parent isParent), siblings]
    simp only [List.flatMap_append, List.flatMap_cons, List.flatMap_nil, List.append_nil]
    rw [same (List.subset_append_left _ _),
      same (List.Subset.trans (List.subset_append_left _ _) (List.subset_append_right _ _)),
      same (List.Subset.trans (List.subset_append_right _ _) (List.subset_append_right _ _)),
      sameSecond (isSibling (by simp)) differ,
      sameSecond (isSibling (by simp)) (firstCut.tail_ne other_lt)]
    simp [texts, startTexts, tailTexts, ← otherTexts, texts', startTexts', lastTexts]
  · rw [secondRearranges.isNamed_eq (Nat.lt_of_lt_of_le paragraph_lt firstRearranges.size_le),
      firstRearranges.isNamed_eq paragraph_lt, named]
  · rw [isNamed, secondCut.tail_name, firstRearranges.name_eq other_lt, ← isNamed, otherNamed]

/-- A paragraph was cut apart at a text node that was pending, and the others still are. -/
structure PendingCut (zone : NodeId → Prop) (rights : Rights) (before after : Document)
    (tops left right : List NodeId) (paragraph tail text : NodeId) : Prop extends
    CutApart before after paragraph tail text,
    Rearranges zone rights (before.LiesIn · text) before after where
  named : before.isNamed paragraph Word.Name.paragraph = true
  above : before.LiesIn paragraph text
  shows : ∀ outer, before.parent paragraph = some outer → before.showsChildren outer = true
  pending : after.Pending tops (left ++ right)
  localChanges : ∀ outer, before.parent paragraph = some outer →
    ChangesWithin (before.Below outer) rights before after

/-- What is above another pending text node after a cut was above it before, or above the text node
at the cut, or is new. -/
theorem PendingCut.above_cases {tops earlier later : List NodeId}
    (cut : PendingCut zone rights before after tops earlier later paragraph tail text)
    (wellFormed : before.WellFormed) {id : NodeId} (isMember : other ∈ earlier ++ later)
    (above : after.LiesIn id other) :
    before.LiesIn id text ∨ before.LiesIn id other ∨ before.size ≤ id.index := by
  by_cases isOld : id.index < before.size
  · by_cases aboveText : before.LiesIn id text
    · exact Or.inl aboveText
    · have running := cut.pending.mem_runningTexts cut.wellFormed isMember above
      rw [cut.runningTexts_eq isOld aboveText] at running
      exact Or.inr (Or.inl (liesIn_of_mem_runningTexts wellFormed running))
  · exact Or.inr (Or.inr (Nat.le_of_not_lt isOld))

/-- The nodes of `region` were cut out from between `first` and `last`. Their running text is what
stood between the text nodes `opening` and `closing`, which are gone. -/
structure CutOut (before after : Document) (tops : List NodeId)
    (opening closing parent first last : NodeId) (left region right : List NodeId) : Prop where
  nodup : region.Nodup
  detached : ∀ node ∈ region, after.parent node = none
  inStore : ∀ node ∈ region, node.index < after.size
  notTop : ∀ node ∈ region, node ∉ tops
  firstNamed : after.isNamed first Word.Name.paragraph = true
  lastNamed : after.isNamed last Word.Name.paragraph = true
  children_eq : after.children parent = left ++ first :: last :: right
  liesIn_iff : ∀ id, after.LiesIn id parent ↔ before.LiesIn id parent
  above : ∀ id, before.LiesIn id parent → before.LiesIn id opening ∧ after.showsChildren id = true
  parent_texts : before.runningTexts parent = (left ++ [first]).flatMap after.runningTexts ++
    opening :: (region.flatMap after.runningTexts ++
      closing :: (last :: right).flatMap after.runningTexts)
  around : ∀ top, before.LiesIn top parent → ∃ lead trail,
    before.runningTexts top = lead ++ before.runningTexts parent ++ trail ∧
    after.runningTexts top = lead ++ after.runningTexts parent ++ trail

/-- Pending text nodes on the two sides of a pair of them, in the tree around the pair. -/
theorem Pending.sublists {inner later within earlierTops laterTops : List NodeId} {top : NodeId}
    (pending : before.Pending (earlierTops ++ top :: laterTops)
      (opening :: (inner ++ closing :: later))) (wellFormed : before.WellFormed)
    (whole : before.runningTexts top = left ++ opening :: (within ++ closing :: right)) :
    inner.Sublist within ∧ later.Sublist (right ++ laterTops.flatMap before.runningTexts) := by
  have nodup := nodup_flatMap_runningTexts wellFormed pending.nodup_tops pending.detached
  have ordered := pending.ordered
  simp only [List.flatMap_append, List.flatMap_cons, whole, List.append_assoc,
    List.cons_append] at nodup ordered
  rw [← List.append_assoc] at nodup ordered
  have afterOpening := sublist_right_of_cons ordered nodup
  have nodupAfter := (List.nodup_cons.mp (List.nodup_append.mp nodup).2.1).2
  exact sublist_of_append_cons afterOpening nodupAfter

namespace CutOut

variable {tops inner later left region right : List NodeId}
  (cutOut : CutOut before after tops opening closing parent first last left region right)
  (wellFormed : before.WellFormed)
include cutOut

theorem parentAbove : before.LiesIn parent opening := (cutOut.above parent LiesIn.refl).1

theorem shows {id : NodeId} (inside : after.LiesIn id parent) : after.showsChildren id = true :=
  (cutOut.above id ((cutOut.liesIn_iff id).mp inside)).2

theorem parent_of_mem {id : NodeId} (formed : after.WellFormed)
    (isChild : id ∈ left ++ first :: last :: right) :
    after.parent id = some parent := by
  rwa [← formed.mem_children_iff, cutOut.children_eq]

/-- What is left of the running text of the parent of the cut. -/
theorem texts_left (formed : after.WellFormed) : after.runningTexts parent =
    (left ++ [first]).flatMap after.runningTexts ++
      (last :: right).flatMap after.runningTexts := by
  rw [runningTexts_of_showsChildren formed (cutOut.shows LiesIn.refl), cutOut.children_eq]
  simp

/-- What a tree around the cut loses of its running text. -/
theorem texts (formed : after.WellFormed) {top : NodeId} (inside : before.LiesIn top parent) :
    ∃ lead trail,
      before.runningTexts top = lead ++ opening ::
        (region.flatMap after.runningTexts ++ closing :: trail) ∧
      after.runningTexts top = lead ++ trail := by
  rcases cutOut.around top inside with ⟨lead, trail, whole, whole'⟩
  rw [cutOut.parent_texts] at whole
  rw [cutOut.texts_left formed] at whole'
  refine ⟨lead ++ (left ++ [first]).flatMap after.runningTexts,
    (last :: right).flatMap after.runningTexts ++ trail, ?_, ?_⟩
  · simp [whole]
  · simp [whole']

include wellFormed

/-- The tags inside a region are in the running text of what was cut out. -/
theorem sublist (formed : after.WellFormed)
    (pending : before.Pending tops (opening :: (inner ++ closing :: later))) :
    inner.Sublist (region.flatMap after.runningTexts) := by
  rcases pending.exists_top List.mem_cons_self with ⟨top, isTop, running⟩
  rcases cutOut.texts formed (pending.liesIn_top wellFormed isTop running cutOut.parentAbove) with
    ⟨lead, trail, whole, -⟩
  rcases List.append_of_mem isTop with ⟨earlierTops, laterTops, rfl⟩
  exact (pending.sublists wellFormed whole).1

omit cutOut in
/-- A cut does not touch what the other pending text nodes depend on. -/
theorem untouched {other : NodeId}
    (pending : before.Pending tops (opening :: (inner ++ closing :: later)))
    (isOther : other ∈ inner ++ later) :
    ¬(before.LiesIn other opening ∨ before.LiesIn other closing) ∧
      ∀ holder, before.parent other = some holder →
        before.isNamed holder Word.Name.text = true →
        ¬(before.LiesIn holder opening ∨ before.LiesIn holder closing) := by
  have isOpening : opening ∈ opening :: (inner ++ closing :: later) := List.mem_cons_self
  have isClosing : closing ∈ opening :: (inner ++ closing :: later) := by simp
  have isMember : other ∈ opening :: (inner ++ closing :: later) := by
    rcases List.mem_append.mp isOther with isOther | isOther <;> simp [isOther]
  have nodup := pending.nodup_texts wellFormed
  rw [← List.cons_append, List.nodup_middle, List.cons_append, List.nodup_cons,
    List.nodup_cons] at nodup
  have notOpening : other ≠ opening := fun same => nodup.2.1 (same ▸ isOther)
  have notClosing : other ≠ closing := fun same =>
    nodup.1 (List.mem_cons_of_mem _ (same ▸ isOther))
  constructor
  · rintro (above | above)
    · exact pending.not_liesIn_text wellFormed isOpening isMember notOpening above
    · exact pending.not_liesIn_text wellFormed isClosing isMember notClosing above
  · rintro holder isHolder named (above | above)
    · exact pending.not_liesIn_holder wellFormed isOpening isMember notOpening isHolder named above
    · exact pending.not_liesIn_holder wellFormed isClosing isMember notClosing isHolder named above

omit cutOut in
/-- The other pending text nodes stay alone in their text elements. -/
theorem solitary {other : NodeId}
    (rearranges : Rearranges zone rights
      (fun id => before.LiesIn id opening ∨ before.LiesIn id closing) before after)
    (pending : before.Pending tops (opening :: (inner ++ closing :: later)))
    (isOther : other ∈ inner ++ later) : after.Solitary other := by
  have isMember : other ∈ opening :: (inner ++ closing :: later) := by
    rcases List.mem_append.mp isOther with isOther | isOther <;> simp [isOther]
  rcases CutOut.untouched wellFormed pending isOther with ⟨textUntouched, holderUntouched⟩
  exact rearranges.solitary wellFormed (pending.lt_size wellFormed isMember)
    (pending.solitary other isMember) textUntouched holderUntouched

/-- The tags after a region stay pending. -/
theorem pending
    (rearranges : Rearranges zone rights
      (fun id => before.LiesIn id opening ∨ before.LiesIn id closing) before after)
    (unplaced : ∀ top ∈ tops, ¬rights.places top)
    (pending : before.Pending tops (opening :: (inner ++ closing :: later))) :
    after.Pending tops later := by
  have subset : later ⊆ opening :: (inner ++ closing :: later) := by
    intro other isLater
    simp [isLater]
  refine pending.of_rearranges rearranges wellFormed unplaced subset
    (fun other isLater => CutOut.untouched wellFormed pending (List.mem_append_right _ isLater)) ?_
  rcases pending.exists_top List.mem_cons_self with ⟨top, isTop, running⟩
  rcases cutOut.texts rearranges.wellFormed
    (pending.liesIn_top wellFormed isTop running cutOut.parentAbove) with ⟨lead, trail, whole, whole'⟩
  have runningClosing : closing ∈ before.runningTexts top := by simp [whole]
  rcases List.append_of_mem isTop with ⟨earlierTops, laterTops, rfl⟩
  rcases pending.flatMap_other_tops rearranges fun other isOther notTop above => by
    rcases above with above | above
    · exact pending.not_liesIn_other_top isTop isOther notTop
        (liesIn_of_mem_runningTexts wellFormed running) above
    · exact pending.not_liesIn_other_top isTop isOther notTop
        (liesIn_of_mem_runningTexts wellFormed runningClosing) above with ⟨-, sameLater⟩
  have kept := (pending.sublists wellFormed whole).2
  simp only [List.flatMap_append, List.flatMap_cons, whole', sameLater, List.append_assoc]
  exact kept.trans ((List.sublist_append_right _ _).trans (List.sublist_append_right _ _))

end CutOut

namespace Isolated

variable {dropped : List NodeId} {final : Document}
  (isolated : Isolated before after opening closing parent first last left region right)
  (formed : after.WellFormed)
include isolated formed

theorem parent_of_mem {id : NodeId} (isMember : id ∈ left ++ first :: (region ++ last :: right)) :
    after.parent id = some parent := by
  rwa [← formed.mem_children_iff, isolated.children_eq]

theorem parent_of_region {id : NodeId} (isRegion : id ∈ region) : after.parent id = some parent :=
  isolated.parent_of_mem formed (by simp [isRegion])

variable (drops : Drops after final dropped) (same : ∀ id, id ∈ dropped ↔ id ∈ region)
include drops same

/-- What stays when the region is dropped. -/
theorem children_dropped : final.children parent = left ++ first :: last :: right := by
  have nodup := formed.nodup_children parent
  have around : after.children parent = (left ++ [first]) ++ region ++ last :: right := by
    simp [isolated.children_eq]
  have sameFilter : (fun id => decide (id ∉ dropped)) = fun id => decide (id ∉ region) := by
    funext id
    rw [decide_eq_decide, same]
  rw [around] at nodup
  rw [drops.children_eq, sameFilter, around, filter_not_mem_middle nodup]
  simp

/-- Neither the region nor its siblings lose any text. -/
theorem flatMap_dropped {ids : List NodeId}
    (subset : ids ⊆ left ++ first :: (region ++ last :: right)) :
    ids.flatMap final.runningTexts = ids.flatMap after.runningTexts := by
  refine List.flatMap_congr fun id isMember => ?_
  have isChild := isolated.parent_of_mem formed (subset isMember)
  refine drops.runningTexts_eq formed fun child isDropped inside => ?_
  by_contra differ
  exact not_liesIn_of_siblings formed isChild
    (isolated.parent_of_region formed ((same child).mp isDropped)) differ inside LiesIn.refl

end Isolated

section Cuts

variable {inner later dropped : List NodeId} {final : Document} (wellFormed : before.WellFormed)
  (firstCut : PendingCut zone rights before middle tops [] (inner ++ closing :: later) first tail
    opening)
  (secondCut : PendingCut zone rights middle after tops inner later other last closing)
  (isolated : Isolated before after opening closing parent first last left region right)
  (isParent : middle.parent other = some parent)

include firstCut secondCut isolated isParent in
/-- Two cuts below a node change nothing elsewhere. -/
theorem changesBelow_of_cuts : ChangesWithin (before.Below parent) rights before after := by
  have firstLocal := firstCut.localChanges parent isolated.isParent
  refine firstLocal.trans ((secondCut.localChanges parent isParent).mono firstLocal.wellFormed
    firstLocal.closed (fun id below => ?_) (Rights.Within.refl _ _))
  rcases below with inside | beyond
  · exact firstLocal.closed.liesIn inside (Or.inl LiesIn.refl)
  · exact firstLocal.closed.fresh beyond

include wellFormed in
/-- Changes below a node around a pending text node keep what is above it. -/
theorem Pending.liesIn_parent_iff {texts : List NodeId} {id : NodeId}
    (pending : before.Pending tops texts) (closed : before.Closed zone rights)
    (unplaced : ∀ top ∈ tops, ¬rights.places top) (isMember : text ∈ texts)
    (parentAbove : before.LiesIn parent text) (notProperties : before.isProperties parent = false)
    (parent_lt : parent.index < before.size)
    (changes : ChangesWithin (before.Below parent) rights before after) :
    after.LiesIn id parent ↔ before.LiesIn id parent := by
  refine changes.liesIn_iff wellFormed (closed_below wellFormed (fun _ => closed.freshPlaces) parent)
    (fun id => not_below_of_liesIn wellFormed parent_lt) fun isDetached =>
      changes.detached ?_ parent_lt notProperties isDetached
  rcases pending.exists_top isMember with ⟨top, isTop, running⟩
  have inside := pending.liesIn_top wellFormed isTop running parentAbove
  rw [inside.eq_of_parent_none isDetached]
  exact unplaced top isTop

include wellFormed firstCut secondCut in
/-- Two cuts touch what is above one of the tags. New nodes are touched on the way, which does not
matter in the end. -/
theorem rearranges_of_cuts
    (drops : Rearranges zone rights (after.LiesIn · parent) after final)
    (aboveParent : ∀ id, after.LiesIn id parent → before.LiesIn id opening) :
    Rearranges zone rights (fun id => before.LiesIn id opening ∨ before.LiesIn id closing)
      before final := by
  let touched : NodeId → Prop := fun id =>
    before.LiesIn id opening ∨ before.LiesIn id closing ∨ before.size ≤ id.index
  have firstChanges := firstCut.toRearranges.touching wellFormed touched fun id _ above =>
    Or.inl above
  have secondChanges := secondCut.toRearranges.touching firstChanges.wellFormed touched
    fun id _ above => firstCut.above_cases wellFormed (by simp) above
  have dropChanges := drops.touching secondChanges.wellFormed touched fun id _ above =>
    Or.inl (aboveParent id above)
  refine ((firstChanges.trans secondChanges wellFormed).trans dropChanges wellFormed).touching
    wellFormed _ fun id isOld isTouched => ?_
  rcases isTouched with above | above | beyond
  · exact Or.inl above
  · exact Or.inr above
  · exact absurd isOld (Nat.not_lt_of_le beyond)

include wellFormed firstCut secondCut isolated isParent in
/-- Two cuts around a region, whose nodes are dropped afterwards. -/
theorem cutOut_of_isolated (closed : before.Closed zone rights)
    (unplaced : ∀ top ∈ tops, ¬rights.places top)
    (pending : before.Pending tops (opening :: (inner ++ closing :: later)))
    (inZone : ∀ id, before.LiesIn id opening → zone id)
    (drops : Drops after final dropped) (same : ∀ id, id ∈ dropped ↔ id ∈ region) :
    CutOut before final tops opening closing parent first last left region right ∧
      Rearranges zone rights (fun id => before.LiesIn id opening ∨ before.LiesIn id closing)
        before final := by
  have isMember : opening ∈ opening :: (inner ++ closing :: later) := List.mem_cons_self
  have parent_lt := parent_lt_size wellFormed isolated.isParent
  have parentAbove : before.LiesIn parent opening :=
    isolated.above.trans (LiesIn.parent isolated.isParent)
  have notProperties : before.isProperties parent = false := by
    have shows := firstCut.shows parent isolated.isParent
    rw [showsChildren, Bool.and_eq_true, Bool.not_eq_true', Bool.not_eq_true'] at shows
    exact shows.2
  have toAfter := changesBelow_of_cuts firstCut secondCut isolated isParent
  have movable : ∀ {part : NodeId → Prop}, part parent →
      ∀ id ∈ dropped, after.Movable part rights id := by
    intro part inPart id isDropped
    exact movable_of_parent (isolated.parent_of_region toAfter.wellFormed ((same id).mp isDropped))
      inPart
  have toFinal := toAfter.trans
    (drops.changesWithin toAfter.wellFormed toAfter.closed (movable (Or.inl LiesIn.refl)))
  have liesIn_iff : ∀ {final : Document},
      ChangesWithin (before.Below parent) rights before final →
      ∀ id, final.LiesIn id parent ↔ before.LiesIn id parent := fun changes _ =>
    pending.liesIn_parent_iff wellFormed closed unplaced isMember parentAbove notProperties parent_lt
      changes
  -- Everything above the parent of the region shows what is below it.
  have showsAbove : ∀ id, before.LiesIn id parent → before.showsChildren id = true := by
    intro id inside
    refine pending.showsChildren wellFormed isMember (parentAbove.trans inside) ?_
    rintro rfl
    exact not_liesIn_of_parent wellFormed isolated.isParent (inside.trans isolated.above)
  have keeps : ∀ ids : List NodeId, ids ⊆ left ++ first :: (region ++ last :: right) →
      ids.flatMap final.runningTexts = ids.flatMap after.runningTexts := fun _ =>
    isolated.flatMap_dropped toAfter.wellFormed drops same
  have nodup := toAfter.wellFormed.nodup_children parent
  rw [isolated.children_eq] at nodup
  constructor
  · exact {
      nodup := by
        simp only [List.nodup_append, List.nodup_cons] at nodup
        exact nodup.2.1.2.1
      detached := by
        intro id isRegion
        rw [drops.parent_eq, if_pos ((same id).mpr isRegion)]
      inStore := by
        intro id isRegion
        rw [drops.size_eq]
        exact lt_size_of_parent (isolated.parent_of_region toAfter.wellFormed isRegion)
      notTop := by
        intro id isRegion isTop
        have isDetached := secondCut.pending.detached id isTop
        rw [isolated.parent_of_region toAfter.wellFormed isRegion] at isDetached
        cases isDetached
      firstNamed := by
        rw [isNamed_of_content_eq (drops.content_eq _)]
        exact isolated.firstNamed
      lastNamed := by
        rw [isNamed_of_content_eq (drops.content_eq _)]
        exact isolated.lastNamed
      children_eq := isolated.children_dropped toAfter.wellFormed drops same
      liesIn_iff := liesIn_iff toFinal
      above := by
        intro id inside
        refine ⟨parentAbove.trans inside, ?_⟩
        rw [toFinal.showsChildren_eq (lt_size_of_liesIn wellFormed inside parent_lt),
          showsAbove id inside]
      parent_texts := by
        rw [isolated.texts, keeps region (fun id isRegion => by simp [isRegion]),
          keeps (left ++ [first]) (fun id isLeft => by
            simp only [List.mem_append, List.mem_singleton] at isLeft
            rcases isLeft with isLeft | rfl <;> simp [*]),
          keeps (last :: right) (fun id isRight => by
            rcases List.mem_cons.mp isRight with rfl | isRight <;> simp [*])]
        simp
      around := by
        intro top inside
        exact toFinal.runningTexts_below wellFormed
          (lt_size_of_liesIn wellFormed inside parent_lt) inside
          fun id _ above _ => showsAbove id above }
  · refine rearranges_of_cuts wellFormed firstCut secondCut (drops.rearranges toAfter.wellFormed
      secondCut.closed (movable (inZone parent parentAbove))
      fun id child isDropped inside differ => ?_) fun id above =>
        parentAbove.trans ((liesIn_iff toAfter id).mp above)
    have isParent := isolated.parent_of_region toAfter.wellFormed ((same child).mp isDropped)
    exact (inside.cases_above isParent).resolve_left (Ne.symm differ)

end Cuts

end Document

namespace Edit

open Outcome Document

variable {zone : NodeId → Prop} {rights : Rights} {document document' : Document}
  {paragraph tail text : NodeId} {tops left right : List NodeId}

/-- Splitting a paragraph at a pending text node takes that node out. -/
theorem pendingCut_of_splitParagraph (wellFormed : document.WellFormed)
    (closed : document.Closed zone rights) (unplaced : ∀ top ∈ tops, ¬rights.places top)
    (pending : document.Pending tops (left ++ text :: right))
    (inZone : ∀ id, document.LiesIn id text → zone id)
    (done : splitParagraph paragraph text true document = .ok tail document') :
    PendingCut zone rights document document' tops left right paragraph tail text := by
  have isMember : text ∈ left ++ text :: right := by simp
  have solitary := pending.solitary text isMember
  have around : document.paragraph? text = some paragraph := by
    by_contra elsewhere
    simp [splitParagraph, elsewhere] at done
  rcases liesIn_of_ancestorNamed? wellFormed around with ⟨above, named⟩
  have shown : ∀ id, document.LiesIn paragraph id → document.LiesIn id text → id ≠ text →
      document.showsChildren id = true := fun id _ => pending.showsChildren wellFormed isMember
  have outerAbove : ∀ outer, document.parent paragraph = some outer → document.LiesIn outer text :=
    fun outer isOuter => above.trans (LiesIn.parent isOuter)
  have shows : ∀ outer, document.parent paragraph = some outer →
      document.showsChildren outer = true := by
    intro outer isOuter
    refine pending.showsChildren wellFormed isMember (outerAbove outer isOuter) ?_
    rintro rfl
    exact not_liesIn_of_parent wellFormed isOuter above
  rcases cutApart_of_splitParagraph wellFormed closed solitary shown
    (inZone paragraph above) (fun outer isOuter => inZone outer (outerAbove outer isOuter)) done with
    ⟨cut, rearranges⟩
  -- The split is a change below the parent of the paragraph.
  have localChanges : ∀ outer, document.parent paragraph = some outer →
      ChangesWithin (document.Below outer) rights document document' := by
    intro outer isOuter
    refine (cutApart_of_splitParagraph wellFormed
      (closed_below wellFormed (fun _ => closed.freshPlaces) outer) solitary shown
      (Or.inl (LiesIn.parent isOuter)) (fun other isOther => ?_) done).2.toChangesWithin
    rw [isOuter, Option.some.injEq] at isOther
    exact Or.inl (isOther ▸ LiesIn.refl)
  refine ⟨cut, rearranges, named, above, shows,
    pending.of_takesOut rearranges wellFormed unplaced ?_, localChanges⟩
  intro top isTop running
  rcases cut.beside with ⟨outer, before, after, isOuter, -, -, siblings, siblings'⟩
  have changes := localChanges outer isOuter
  have outerText := outerAbove outer isOuter
  have outer_lt := parent_lt_size wellFormed isOuter
  rcases changes.runningTexts_below wellFormed (pending.inStore top isTop)
    (pending.liesIn_top wellFormed isTop running outerText)
    (fun id _ aboveOuter differ => by
      refine pending.showsChildren wellFormed isMember (outerText.trans aboveOuter) ?_
      rintro rfl
      exact differ (aboveOuter.antisymm wellFormed outerText).symm) with
    ⟨lead, trail, whole, whole'⟩
  have sameBefore := rearranges.flatMap_siblings wellFormed isOuter above siblings
    (List.subset_append_left before after)
  have sameAfter := rearranges.flatMap_siblings wellFormed isOuter above siblings
    (List.subset_append_right before after)
  rcases cut.texts with ⟨start, rest, texts, texts', tailTexts⟩
  refine ⟨lead ++ before.flatMap document.runningTexts ++ start,
    rest ++ after.flatMap document.runningTexts ++ trail, ?_, ?_⟩
  · rw [whole, runningTexts_of_showsChildren wellFormed (shows outer isOuter), siblings]
    simp [texts]
  · rw [whole', runningTexts_of_showsChildren changes.wellFormed
      (by rw [changes.showsChildren_eq outer_lt, shows outer isOuter]), siblings']
    simp [texts', tailTexts, sameBefore, sameAfter]

end Edit

namespace Extraction

open Outcome Document

variable {zone : NodeId → Prop} {rights : Rights} {document document' : Document}
  {openingTag closingTag tag : Tag} {cause : PlacementError} {paragraph : NodeId}
  {region : CutRegion} {tops inner later : List NodeId}

theorem paragraph_eq_ok :
    tag.paragraph cause document = .ok paragraph document' ↔
      document.paragraph? tag.textNode = some paragraph ∧ document = document' := by
  rw [Tag.paragraph, get_bind]
  cases document.paragraph? tag.textNode <;> simp

/-- The region between two tags is cut out from between their paragraphs. -/
theorem cutOut_of_cutFragments (wellFormed : document.WellFormed)
    (closed : document.Closed zone rights) (unplaced : ∀ top ∈ tops, ¬rights.places top)
    (pending : document.Pending tops
      (openingTag.textNode :: (inner ++ closingTag.textNode :: later)))
    (inZone : ∀ id, document.LiesIn id openingTag.textNode ∨
      document.LiesIn id closingTag.textNode → zone id)
    (done : cutFragments openingTag closingTag document = .ok region document') :
    region.kind = .fragments ∧
      (∃ parent left right, CutOut document document' tops openingTag.textNode
        closingTag.textNode parent region.first region.last left region.nodes right) ∧
      Rearranges zone rights (fun id => document.LiesIn id openingTag.textNode ∨
        document.LiesIn id closingTag.textNode) document document' := by
  simp only [cutFragments, bind_eq_ok, paragraph_eq_ok, edit_eq_ok] at done
  rcases done with ⟨first, _, ⟨isFirst, rfl⟩, last, _, ⟨isLast, rfl⟩, tail, middle, split, done⟩
  have firstCut := Edit.pendingCut_of_splitParagraph wellFormed closed unplaced
    (show document.Pending tops ([] ++ openingTag.textNode :: _) from pending)
    (fun id above => inZone id (Or.inl above)) split
  have firstAbove := liesIn_of_ancestorNamed? wellFormed isFirst
  have lastAbove := liesIn_of_ancestorNamed? wellFormed isLast
  have closingPending : closingTag.textNode ∈ [] ++ (inner ++ closingTag.textNode :: later) := by
    simp
  have inZone' : ∀ id, middle.LiesIn id closingTag.textNode → zone id := by
    intro id above
    rcases firstCut.above_cases wellFormed closingPending above with above | above | isNew
    · exact inZone id (Or.inl above)
    · exact inZone id (Or.inr above)
    · exact closed.fresh isNew
  by_cases same : first = last
  · -- Both tags stand in one paragraph, so the second cut goes through the tail of the first one.
    subst same
    simp only [if_true, bind_eq_ok, edit_eq_ok, pure_eq_ok, Edit.detach_eq_ok] at done
    rcases done with ⟨last, after, split', _, final, rfl, rfl, rfl⟩
    have secondCut := Edit.pendingCut_of_splitParagraph firstCut.wellFormed firstCut.closed
      unplaced firstCut.pending inZone' split'
    rcases isolated_of_same wellFormed firstCut.toCutApart firstCut.toRearranges
      secondCut.toCutApart secondCut.toRearranges firstAbove.2 firstAbove.1 secondCut.above
      firstCut.shows with ⟨parent, left, right, isolated⟩
    have isTail : middle.parent tail = some parent := by
      rcases firstCut.beside with ⟨outer, -, -, isOuter, -, isTailOuter, -, -⟩
      rw [isolated.isParent] at isOuter
      rwa [isOuter]
    rcases cutOut_of_isolated wellFormed firstCut secondCut isolated isTail closed unplaced pending
      (fun id above => inZone id (Or.inl above)) (drops_detach secondCut.wellFormed tail) (by simp)
      with ⟨cutOut, rearranges⟩
    exact ⟨rfl, ⟨parent, left, right, cutOut⟩, rearranges⟩
  · simp only [same, if_false, bind_eq_ok, edit_eq_ok, pure_eq_ok, Edit.detach_eq_ok] at done
    rcases done with ⟨end', after, split', _, _, rfl, _, _, rfl, between, final, removed, rfl, rfl⟩
    have secondCut := Edit.pendingCut_of_splitParagraph firstCut.wellFormed firstCut.closed
      unplaced firstCut.pending inZone' split'
    have tailDrops := drops_detach secondCut.wellFormed tail
    have bothDrop := tailDrops.append (drops_detach tailDrops.wellFormed last)
    rcases Edit.drops_of_removeBetween bothDrop.wellFormed removed with
      ⟨parent, leading, trailing, range, stretch, rfl, innerDrops⟩
    rcases exists_cutSiblings firstCut.wellFormed firstCut.toCutApart secondCut.toCutApart
      (lt_size_of_isNamed firstAbove.2) (lt_size_of_isNamed lastAbove.2) firstCut.size_le same
      bothDrop.wellFormed
      (fun id => by
        rw [children_detach tailDrops.wellFormed, children_detach secondCut.wellFormed]) stretch with
      ⟨left, right, cutSiblings⟩
    have isolated := isolated_of_differ wellFormed firstCut.toCutApart firstCut.toRearranges
      secondCut.toCutApart secondCut.toRearranges firstAbove.2 lastAbove.2 same firstAbove.1
      secondCut.above firstCut.shows cutSiblings
    have isParent : middle.parent last = some parent := by
      rcases secondCut.beside with ⟨outer, -, -, isOuter, isOuter', -⟩
      have isMember : last ∈ after.children parent := by simp [isolated.children_eq]
      rw [secondCut.wellFormed.mem_children_iff, isOuter'] at isMember
      rw [isOuter, isMember]
    rcases cutOut_of_isolated wellFormed firstCut secondCut isolated isParent closed unplaced pending
      (fun id above => inZone id (Or.inl above)) (bothDrop.append innerDrops) (by simp; tauto) with
      ⟨cutOut, rearranges⟩
    exact ⟨rfl, ⟨parent, left, right, cutOut⟩, rearranges⟩

end Extraction

end WordTemplate
