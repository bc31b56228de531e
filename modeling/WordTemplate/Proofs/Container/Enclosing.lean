import WordTemplate.Container.Placement
import WordTemplate.Proofs.Document.Local
import WordTemplate.Proofs.Document.Siblings
import WordTemplate.Proofs.Container.Cutting
import WordTemplate.Proofs.Word.Taking

/-!
# Repeating whole nodes

Where whole rows or list paragraphs are repeated, the two tags are taken out and the siblings from
the one around the opening tag to the one around the closing tag are the region.
-/

namespace WordTemplate

namespace Document

variable {zone : NodeId → Prop} {rights : Rights} {document before middle after : Document}
  {id text pivot parent holder first last opening closing : NodeId}
  {tops inner later left range right dropped : List NodeId}

/-- Dropping nodes from below the ends of a stretch leaves the stretch in place. -/
theorem Drops.stretch (drops : Drops before after dropped) (wellFormed : before.WellFormed)
    (inside : ∀ id ∈ dropped, ∃ holder, before.parent id = some holder ∧
      (before.LiesIn first holder ∨ before.LiesIn last holder))
    (stretch : after.Stretch parent first last left range right) :
    before.Stretch parent first last left range right ∧
      ∀ id, after.LiesIn id parent ↔ before.LiesIn id parent := by
  have firstParent := drops.parent_of_some stretch.isParent
  have lastParent :=
    drops.parent_of_some (stretch.parent_eq drops.wellFormed stretch.last_mem)
  refine ⟨⟨firstParent, ?_, stretch.head_eq, stretch.getLast_eq⟩, fun id => ?_⟩
  · rw [← stretch.children_eq, drops.children_of_not_parent wellFormed]
    intro child isDropped isChild
    rcases inside child isDropped with ⟨holder, isHolder, above⟩
    rw [isChild, Option.some.injEq] at isHolder
    subst isHolder
    rcases above with above | above
    · exact not_liesIn_of_parent wellFormed firstParent above
    · exact not_liesIn_of_parent wellFormed lastParent above
  · refine liesIn_iff_of_parent_eq fun node aboveParent => ?_
    rw [drops.parent_eq, if_neg]
    intro isDropped
    rcases inside node isDropped with ⟨holder, isHolder, above⟩
    refine not_liesIn_of_parent wellFormed isHolder ?_
    rcases above with above | above
    · exact above.trans ((LiesIn.parent firstParent).trans aboveParent)
    · exact above.trans ((LiesIn.parent lastParent).trans aboveParent)

namespace Stretch

variable (stretch : document.Stretch parent first last left range right)
include stretch

/-- Two text nodes below the ends of a stretch, in document order, cut its running text in three. -/
theorem flatMap_runningTexts (wellFormed : document.WellFormed)
    (running : opening ∈ document.runningTexts first) (running' : closing ∈ document.runningTexts last)
    (ordered : ∀ start rest, document.runningTexts first = start ++ opening :: rest →
      closing ∈ document.runningTexts first → closing ∈ rest) :
    ∃ start within rest ahead,
      range.flatMap document.runningTexts = start ++ opening :: (within ++ closing :: rest) ∧
        document.runningTexts last = ahead ++ closing :: rest := by
  rcases List.append_of_mem running with ⟨start, afterOpening, texts⟩
  by_cases same : first = last
  · subst same
    have isRange : range = [first] := stretch.range_of_eq wellFormed rfl
    rcases List.append_of_mem (ordered start afterOpening texts running') with
      ⟨within, rest, rfl⟩
    refine ⟨start, within, rest, start ++ opening :: within, ?_, ?_⟩
    · simp [isRange, texts]
    · simp [texts]
  · rcases List.append_of_mem running' with ⟨ahead, rest, texts'⟩
    refine ⟨start, afterOpening ++ ((range.drop 1).dropLast).flatMap document.runningTexts ++ ahead,
      rest, ahead, ?_, texts'⟩
    rw [stretch.eq_append same]
    simp [texts, texts']

end Stretch

/-- The siblings from `first` to `last` below `parent` hold what stood between the text nodes
`opening` and `closing`, which are gone, and what stood beside them in `first` and `last`. -/
structure Enclosed (before after : Document) (opening closing parent first last : NodeId)
    (left range right : List NodeId) : Prop where
  stretch : after.Stretch parent first last left range right
  liesIn_iff : ∀ id, after.LiesIn id parent ↔ before.LiesIn id parent
  above : ∀ id, before.LiesIn id parent → before.LiesIn id opening ∧ after.showsChildren id = true
  parent_texts : ∃ start within rest ahead,
    before.runningTexts parent = left.flatMap after.runningTexts ++ start ++
        opening :: (within ++ closing :: (rest ++ right.flatMap after.runningTexts)) ∧
      range.flatMap after.runningTexts = start ++ within ++ rest ∧
      after.runningTexts last = ahead ++ rest
  around : ∀ top, before.LiesIn top parent → ∃ lead trail,
    before.runningTexts top = lead ++ before.runningTexts parent ++ trail ∧
    after.runningTexts top = lead ++ after.runningTexts parent ++ trail

/-- The parts of the running text of a tree around the stretch. -/
theorem Enclosed.texts {top : NodeId}
    (enclosed : Enclosed before after opening closing parent first last left range right)
    (inside : before.LiesIn top parent) :
    ∃ front start within rest ahead lead trail,
      before.runningTexts top = front ++ opening :: (within ++ closing ::
        (rest ++ (right.flatMap after.runningTexts ++ trail))) ∧
      after.runningTexts top = lead ++ after.runningTexts parent ++ trail ∧
      range.flatMap after.runningTexts = start ++ within ++ rest ∧
      after.runningTexts last = ahead ++ rest := by
  rcases enclosed.parent_texts with ⟨start, within, rest, ahead, texts, rangeTexts, lastTexts⟩
  rcases enclosed.around top inside with ⟨lead, trail, whole, whole'⟩
  refine ⟨lead ++ left.flatMap after.runningTexts ++ start, start, within, rest, ahead, lead, trail,
    ?_, whole', rangeTexts, lastTexts⟩
  simp [whole, texts]

/-- Of two pending text nodes in the tree below a node the second one does not precede the first
one there. -/
theorem Pending.mem_of_append_cons {top : NodeId} {start rest : List NodeId}
    (pending : document.Pending tops (opening :: (inner ++ closing :: later)))
    (wellFormed : document.WellFormed) (isTop : top ∈ tops)
    (inside : document.LiesIn top pivot) (running : opening ∈ document.runningTexts pivot)
    (texts : document.runningTexts pivot = start ++ opening :: rest)
    (running' : closing ∈ document.runningTexts pivot) : closing ∈ rest := by
  have isMember : opening ∈ opening :: (inner ++ closing :: later) := List.mem_cons_self
  have above := liesIn_of_mem_runningTexts wellFormed running
  rcases runningTexts_split wellFormed (pending.inStore top isTop) inside
    (fun id _ aboveText differ => pending.showsChildren wellFormed isMember
      (above.trans aboveText) fun same => differ (by
        subst same
        exact (aboveText.antisymm wellFormed above).symm)) with ⟨lead, trail, whole⟩
  rcases List.append_of_mem isTop with ⟨earlierTops, laterTops, rfl⟩
  have nodup := nodup_flatMap_runningTexts wellFormed pending.nodup_tops pending.detached
  have ordered := pending.ordered
  have regroup : (earlierTops ++ top :: laterTops).flatMap document.runningTexts =
      (earlierTops.flatMap document.runningTexts ++ lead ++ start) ++ opening ::
        (rest ++ trail ++ laterTops.flatMap document.runningTexts) := by
    simp [whole, texts]
  rw [regroup] at nodup ordered
  have isLater : closing ∈ rest ++ trail ++ laterTops.flatMap document.runningTexts :=
    (sublist_right_of_cons ordered nodup).subset (by simp)
  rw [List.nodup_append] at nodup
  rw [texts, List.mem_append, List.mem_cons] at running'
  rcases running' with isStart | same | isRest
  · exact absurd rfl (nodup.2.2 closing (List.mem_append_right _ isStart) closing
      (List.mem_cons_of_mem _ isLater))
  · exact absurd (same ▸ isLater) (List.nodup_cons.mp nodup.2.1).1
  · exact isRest

theorem filter_ne_pair {start within rest : List NodeId}
    (nodup : (start ++ opening :: (within ++ closing :: rest)).Nodup) :
    ((start ++ opening :: (within ++ closing :: rest)).filter (· != opening)).filter
      (· != closing) = start ++ within ++ rest := by
  rw [filter_ne_append_cons nodup, ← List.append_assoc]
  refine filter_ne_append_cons (nodup.sublist ?_)
  rw [List.append_assoc]
  exact (List.sublist_cons_self _ _).append_left start

/-- What stands beside a pair of text nodes is kept when they are filtered out. -/
theorem filter_ne_pair_of_subset {ids start within rest : List NodeId}
    (nodup : (start ++ opening :: (within ++ closing :: rest)).Nodup)
    (subset : ids ⊆ start ++ within ++ rest) :
    (ids.filter (· != opening)).filter (· != closing) = ids := by
  rw [List.filter_filter]
  refine List.filter_eq_self.mpr fun id isMember => ?_
  have isKept := subset isMember
  rw [← filter_ne_pair nodup, List.filter_filter, List.mem_filter] at isKept
  exact isKept.2

/-- What lies in the carrier of a text node below `pivot` is neither above the parent of `pivot` nor
a sibling of `pivot`. -/
theorem not_liesIn_textUnit (wellFormed : document.WellFormed)
    (isParent : document.parent pivot = some parent)
    (above : document.LiesIn pivot (document.textUnit text))
    (differ : pivot ≠ document.textUnit text)
    (beside : document.LiesIn id parent ∨ document.parent id = some parent) :
    ¬document.LiesIn (document.textUnit text) id := by
  intro inside
  have notParent : ¬document.LiesIn (document.textUnit text) parent := fun inside =>
    not_liesIn_of_parent wellFormed isParent (inside.trans above)
  rcases beside with aboveParent | isSibling
  · exact notParent (aboveParent.trans inside)
  · rcases inside.cases_above isSibling with same | inside
    · subst same
      rcases above.cases_above isSibling with same | above
      · exact differ same.symm
      · exact not_liesIn_of_parent wellFormed isParent above
    · exact notParent inside

/-- A text node that is taken out below `pivot` leaves the running text of what is around or beside
`pivot`. -/
theorem Taken.texts_beside {earlier : List NodeId} {name : String}
    (taken : Taken zone rights before after tops earlier later text) (wellFormed : before.WellFormed)
    (isText : before.isText text = true) (isParent : before.parent pivot = some parent)
    (above : before.LiesIn pivot text) (named : before.isNamed pivot name = true)
    (notText : name ≠ Word.Name.text)
    (beside : before.LiesIn id parent ∨ before.parent id = some parent) :
    after.runningTexts id = (before.runningTexts id).filter (· != text) := by
  rcases liesIn_textUnit_of_isNamed above named notText isText with ⟨aboveCarrier, notCarrier⟩
  refine taken.texts id ?_ (not_liesIn_textUnit wellFormed isParent aboveCarrier notCarrier beside)
  rcases beside with aboveParent | isSibling
  · exact lt_size_of_liesIn wellFormed aboveParent (parent_lt_size wellFormed isParent)
  · exact lt_size_of_parent isSibling

section Pair

variable {start within rest ahead : List NodeId} (wellFormed : before.WellFormed)
  (stretch : before.Stretch parent first last left range right)
  (shows : ∀ id, before.LiesIn id parent → before.showsChildren id = true)
  (texts : ∀ id, before.LiesIn id parent ∨ before.parent id = some parent →
    after.runningTexts id =
      ((before.runningTexts id).filter (· != opening)).filter (· != closing))
  (rangeTexts : range.flatMap before.runningTexts = start ++ opening :: (within ++ closing :: rest))

include wellFormed stretch shows rangeTexts in
/-- The running text around a pair of text nodes in a stretch. -/
theorem Stretch.parent_texts : before.runningTexts parent = left.flatMap before.runningTexts ++ start ++
    opening :: (within ++ closing :: (rest ++ right.flatMap before.runningTexts)) := by
  rw [runningTexts_of_showsChildren wellFormed (shows parent LiesIn.refl), stretch.children_eq,
    List.flatMap_append, List.flatMap_append, rangeTexts]
  simp

include wellFormed stretch texts in
theorem Stretch.flatMap_filtered {ids : List NodeId} (subset : ids ⊆ left ++ range ++ right) :
    ids.flatMap after.runningTexts =
      ((ids.flatMap before.runningTexts).filter (· != opening)).filter (· != closing) := by
  rw [List.filter_flatMap, List.filter_flatMap]
  refine List.flatMap_congr fun id isMember => texts id (Or.inr ?_)
  rw [← wellFormed.mem_children_iff, stretch.children_eq]
  exact subset isMember

include wellFormed stretch shows texts rangeTexts

/-- The pair is gone from the stretch, and what is beside it is kept. -/
theorem Stretch.parent_texts_of_pair (differ : closing ≠ opening)
    (lastTexts : before.runningTexts last = ahead ++ closing :: rest) :
    ∃ start within rest ahead,
      before.runningTexts parent = left.flatMap after.runningTexts ++ start ++
          opening :: (within ++ closing :: (rest ++ right.flatMap after.runningTexts)) ∧
        range.flatMap after.runningTexts = start ++ within ++ rest ∧
        after.runningTexts last = ahead ++ rest := by
  have parentTexts := stretch.parent_texts wellFormed shows rangeTexts
  have filtered : ∀ {ids : List NodeId}, ids ⊆ left ++ range ++ right → ids.flatMap after.runningTexts =
      ((ids.flatMap before.runningTexts).filter (· != opening)).filter (· != closing) :=
    stretch.flatMap_filtered wellFormed texts
  have nodup : ((left.flatMap before.runningTexts ++ start) ++ opening ::
      (within ++ closing :: (rest ++ right.flatMap before.runningTexts))).Nodup :=
    parentTexts ▸ nodup_runningTexts wellFormed parent
  have leftTexts : left.flatMap after.runningTexts = left.flatMap before.runningTexts := by
    rw [filtered (by simp), filter_ne_pair_of_subset nodup (by simp)]
  have rightTexts : right.flatMap after.runningTexts = right.flatMap before.runningTexts := by
    rw [filtered (by simp), filter_ne_pair_of_subset nodup (fun id isRight => by
      simp only [List.mem_append]
      tauto)]
  refine ⟨start, within, rest, (ahead.filter (· != opening)).filter (· != closing), ?_, ?_, ?_⟩
  · rw [leftTexts, rightTexts, parentTexts]
  · rw [filtered (by simp), rangeTexts, filter_ne_pair (nodup.sublist _)]
    rw [List.append_assoc]
    refine List.Sublist.trans ?_ (List.sublist_append_right _ _)
    simp
  · rw [texts last (Or.inr (stretch.parent_eq wellFormed stretch.last_mem)), lastTexts,
      List.filter_append, List.filter_cons_of_pos (by simpa using differ), List.filter_append,
      List.filter_cons_of_neg (by simp),
      filter_ne_pair_of_subset nodup (fun id (isRest : id ∈ rest) => by simp [isRest])]

/-- In the trees around the stretch nothing else changes. -/
theorem Stretch.around_of_pair {top : NodeId} (inside : before.LiesIn top parent) : ∃ lead trail,
    before.runningTexts top = lead ++ before.runningTexts parent ++ trail ∧
      after.runningTexts top = lead ++ after.runningTexts parent ++ trail := by
  have parent_lt := parent_lt_size wellFormed stretch.isParent
  rcases runningTexts_split wellFormed (lt_size_of_liesIn wellFormed inside parent_lt) inside
    (fun id _ aboveParent _ => shows id aboveParent) with ⟨lead, trail, whole⟩
  refine ⟨lead, trail, whole, ?_⟩
  have nodup := nodup_runningTexts wellFormed top
  have regroup : before.runningTexts top =
      (lead ++ (left.flatMap before.runningTexts ++ start)) ++ opening ::
        (within ++ closing :: (rest ++ right.flatMap before.runningTexts ++ trail)) := by
    simp [whole, stretch.parent_texts wellFormed shows rangeTexts]
  rw [regroup] at nodup
  rw [texts top (Or.inl inside), texts parent (Or.inl LiesIn.refl), whole]
  simp only [List.filter_append]
  rw [filter_ne_pair_of_subset nodup (show lead ⊆ _ by simp),
    filter_ne_pair_of_subset nodup (fun id (isTrail : id ∈ trail) => by
      simp only [List.mem_append]
      tauto)]

end Pair

/-- Once both tags are taken out of the ends of a stretch, it encloses what was between them. -/
theorem enclosed_of_taken {name : String} (wellFormed : before.WellFormed)
    (pending : before.Pending tops (opening :: (inner ++ closing :: later)))
    (firstTaken : Taken zone rights before middle tops [] (inner ++ closing :: later) opening)
    (lastTaken : Taken zone rights middle after tops inner later closing)
    (stretchBefore : before.Stretch parent first last left range right)
    (stretchMiddle : middle.Stretch parent first last left range right)
    (stretchAfter : after.Stretch parent first last left range right)
    (liesInMiddle : ∀ id, middle.LiesIn id parent ↔ before.LiesIn id parent)
    (liesInAfter : ∀ id, after.LiesIn id parent ↔ before.LiesIn id parent)
    (firstAbove : before.LiesIn first opening) (firstNamed : before.isNamed first name = true)
    (lastAbove : before.LiesIn last closing) (lastNamed : before.isNamed last name = true)
    (notText : name ≠ Word.Name.text) :
    Enclosed before after opening closing parent first last left range right := by
  have isOpening : opening ∈ opening :: (inner ++ closing :: later) := List.mem_cons_self
  have isClosing : closing ∈ opening :: (inner ++ closing :: later) := by simp
  have isClosing' : closing ∈ [] ++ (inner ++ closing :: later) := by simp
  have differ : closing ≠ opening := by
    rintro rfl
    exact (List.nodup_cons.mp (pending.nodup_texts wellFormed)).1 (by simp)
  have parent_lt := parent_lt_size wellFormed stretchBefore.isParent
  have lastParent := stretchBefore.parent_eq wellFormed stretchBefore.last_mem
  have parentAbove := firstAbove.trans (LiesIn.parent stretchBefore.isParent)
  have parentShows : ∀ id, before.LiesIn id parent → before.showsChildren id = true := by
    intro id inside
    refine pending.showsChildren wellFormed isOpening (parentAbove.trans inside) ?_
    rintro rfl
    exact not_liesIn_of_parent wellFormed stretchBefore.isParent (inside.trans firstAbove)
  -- The first step takes the opening text out of everything around, the second the closing text.
  have texts₁ : ∀ id, before.LiesIn id parent ∨ before.parent id = some parent →
      middle.runningTexts id = (before.runningTexts id).filter (· != opening) := fun id =>
    firstTaken.texts_beside wellFormed (pending.isText isOpening) stretchBefore.isParent firstAbove
      firstNamed notText
  have runningFirst := pending.mem_runningTexts wellFormed isOpening firstAbove
  have runningLast := pending.mem_runningTexts wellFormed isClosing lastAbove
  have runningLast' : closing ∈ middle.runningTexts last := by
    rw [texts₁ last (Or.inr lastParent), List.mem_filter]
    exact ⟨runningLast, by simpa using differ⟩
  have lastNamed' : middle.isNamed last name = true := by
    rw [firstTaken.isNamed_eq (lt_size_of_isNamed lastNamed), lastNamed]
  have texts : ∀ id, before.LiesIn id parent ∨ before.parent id = some parent →
      after.runningTexts id =
        ((before.runningTexts id).filter (· != opening)).filter (· != closing) := by
    intro id beside
    rw [← texts₁ id beside]
    refine lastTaken.texts_beside firstTaken.wellFormed (firstTaken.pending.isText isClosing')
      (stretchMiddle.parent_eq firstTaken.wellFormed stretchMiddle.last_mem)
      (liesIn_of_mem_runningTexts firstTaken.wellFormed runningLast') lastNamed' notText ?_
    refine beside.imp (liesInMiddle id).mpr fun isSibling => ?_
    rwa [← firstTaken.wellFormed.mem_children_iff, stretchMiddle.children_eq,
      ← stretchBefore.children_eq, wellFormed.mem_children_iff]
  rcases pending.exists_top isOpening with ⟨top, isTop, running⟩
  have topAbove := LiesIn.of_parent stretchBefore.isParent
    (pending.liesIn_top wellFormed isTop running parentAbove)
  rcases stretchBefore.flatMap_runningTexts wellFormed runningFirst runningLast
    (fun start rest whole running' => pending.mem_of_append_cons wellFormed isTop topAbove
      runningFirst whole running') with
    ⟨start, within, rest, ahead, rangeTexts, lastTexts⟩
  refine ⟨stretchAfter, liesInAfter, fun id inside => ⟨parentAbove.trans inside, ?_⟩,
    stretchBefore.parent_texts_of_pair wellFormed parentShows texts rangeTexts differ lastTexts,
    fun top inside => stretchBefore.around_of_pair wellFormed parentShows texts rangeTexts inside⟩
  have id_lt := lt_size_of_liesIn wellFormed inside parent_lt
  rw [lastTaken.showsChildren_eq (Nat.lt_of_lt_of_le id_lt firstTaken.size_le),
    firstTaken.showsChildren_eq id_lt, parentShows id inside]

/-- A run that is empty stays empty while nodes are dropped. -/
theorem Drops.isEmptyRun_of (drops : Drops before after dropped)
    (isEmpty : before.isEmptyRun id = true) : after.isEmptyRun id = true := by
  rw [isEmptyRun, Bool.and_eq_true, List.all_eq_true] at isEmpty ⊢
  refine ⟨by rw [isNamed_of_content_eq (drops.content_eq id), isEmpty.1], fun child isChild => ?_⟩
  rw [drops.children_eq] at isChild
  rw [isNamed_of_content_eq (drops.content_eq child), isEmpty.2 child (List.mem_filter.mp isChild).1]

/-- The carriers of the text nodes `texts` were dropped from below the nodes `pivots`, together with
runs that hold nothing but their properties any more. -/
structure Strips (before after : Document) (texts pivots dropped : List NodeId) : Prop extends
    Drops before after dropped where
  inside : ∀ id ∈ dropped, ∃ holder, before.parent id = some holder ∧
    ∃ pivot ∈ pivots, before.LiesIn pivot holder
  carrier_mem : ∀ text ∈ texts, before.textUnit text ∈ dropped
  carrier_or_run : ∀ id ∈ dropped,
    (∃ text ∈ texts, id = before.textUnit text) ∨ after.isEmptyRun id = true

namespace Strips

variable {texts texts' pivots pivots' dropped' : List NodeId}

theorem mono (strips : Strips before after texts pivots dropped) (subset : pivots ⊆ pivots') :
    Strips before after texts pivots' dropped where
  toDrops := strips.toDrops
  inside id isDropped := by
    rcases strips.inside id isDropped with ⟨holder, isHolder, pivot, isPivot, above⟩
    exact ⟨holder, isHolder, pivot, subset isPivot, above⟩
  carrier_mem := strips.carrier_mem
  carrier_or_run := strips.carrier_or_run

/-- The carrier of a text node is dropped from below a node. -/
theorem single (wellFormed : document.WellFormed)
    (isHolder : document.parent (document.textUnit text) = some holder)
    (above : document.LiesIn pivot holder) :
    Strips document (document.detach (document.textUnit text)) [text] [pivot]
      [document.textUnit text] where
  toDrops := drops_detach wellFormed _
  inside := by simp [isHolder, above]
  carrier_mem := by simp
  carrier_or_run := by simp

/-- Empty runs are dropped as well. -/
theorem runs (strips : Strips before middle texts pivots dropped)
    (drops : Drops middle after dropped')
    (areRuns : ∀ run ∈ dropped', after.isEmptyRun run = true ∧
      ∃ holder, middle.parent run = some holder ∧ ∃ pivot ∈ pivots, before.LiesIn pivot holder) :
    Strips before after texts pivots (dropped ++ dropped') where
  toDrops := strips.toDrops.append drops
  inside id isDropped := by
    rcases List.mem_append.mp isDropped with isDropped | isRun
    · exact strips.inside id isDropped
    · rcases (areRuns id isRun).2 with ⟨holder, isHolder, above⟩
      exact ⟨holder, strips.parent_of_some isHolder, above⟩
  carrier_mem text isText := List.mem_append_left _ (strips.carrier_mem text isText)
  carrier_or_run id isDropped := by
    rcases List.mem_append.mp isDropped with isDropped | isRun
    · exact (strips.carrier_or_run id isDropped).imp_right drops.isEmptyRun_of
    · exact Or.inr (areRuns id isRun).1

/-- Other text nodes keep their carriers. -/
theorem textUnit_eq (strips : Strips before after texts pivots dropped)
    (isText : before.isText text = true) (isOther : text ∉ texts) :
    after.textUnit text = before.textUnit text := by
  have isKept : text ∉ dropped := by
    intro isDropped
    rcases strips.carrier_or_run text isDropped with ⟨other, isMember, isCarrier⟩ | isEmpty
    · rcases textUnit_cases before other with ⟨same, -⟩ | ⟨-, named⟩
      · exact isOther (isCarrier.trans same ▸ isMember)
      · rw [← isCarrier] at named
        rw [isText_eq_false_of_isNamed named] at isText
        simp at isText
    · have named := Edit.isNamed_of_isEmptyRun isEmpty
      rw [isNamed_of_content_eq (strips.content_eq text)] at named
      rw [isText_eq_false_of_isNamed named] at isText
      simp at isText
  have sameName : (after.isNamed · Word.Name.text) = (before.isNamed · Word.Name.text) := by
    funext id
    exact isNamed_of_content_eq (strips.content_eq id) _
  rw [textUnit, textUnit, textElement?, textElement?, sameName, strips.parent_eq, if_neg isKept]

/-- Stripping one after the other. -/
theorem append (first : Strips before middle texts pivots dropped)
    (second : Strips middle after texts' pivots dropped')
    (areTexts : ∀ text ∈ texts', before.isText text = true) (others : ∀ text ∈ texts', text ∉ texts) :
    Strips before after (texts ++ texts') pivots (dropped ++ dropped') where
  toDrops := first.toDrops.append second.toDrops
  inside id isDropped := by
    rcases List.mem_append.mp isDropped with isDropped | isDropped
    · exact first.inside id isDropped
    · rcases second.inside id isDropped with ⟨holder, isHolder, pivot, isPivot, above⟩
      exact ⟨holder, first.parent_of_some isHolder, pivot, isPivot, first.toDrops.liesIn above⟩
  carrier_mem text isMember := by
    rcases List.mem_append.mp isMember with isMember | isMember
    · exact List.mem_append_left _ (first.carrier_mem text isMember)
    · rw [← first.textUnit_eq (areTexts text isMember) (others text isMember)]
      exact List.mem_append_right _ (second.carrier_mem text isMember)
  carrier_or_run id isDropped := by
    rcases List.mem_append.mp isDropped with isDropped | isDropped
    · rcases first.carrier_or_run id isDropped with ⟨text, isMember, isCarrier⟩ | isEmpty
      · exact Or.inl ⟨text, List.mem_append_left _ isMember, isCarrier⟩
      · exact Or.inr (second.toDrops.isEmptyRun_of isEmpty)
    · rcases second.carrier_or_run id isDropped with ⟨text, isMember, isCarrier⟩ | isEmpty
      · rw [first.textUnit_eq (areTexts text isMember) (others text isMember)] at isCarrier
        exact Or.inl ⟨text, List.mem_append_right _ isMember, isCarrier⟩
      · exact Or.inr isEmpty

end Strips

/-- A run that is empty without a text does not hold a pivot around that text. -/
theorem Pending.not_liesIn_of_isEmptyRun {text run pivot : NodeId} {tops texts : List NodeId}
    {name : String} (pending : document.Pending tops texts) (wellFormed : document.WellFormed)
    (isMember : text ∈ texts) (above : document.LiesIn pivot text)
    (named : document.isNamed pivot name = true) (notText : name ≠ Word.Name.text)
    (notRun : name ≠ Word.Name.run)
    (isEmpty : (document.detach (document.textUnit text)).isEmptyRun run = true) :
    ¬document.LiesIn run pivot := by
  intro inside
  have isText := pending.isText isMember
  rcases liesIn_textUnit_of_isNamed above named notText isText with ⟨aboveCarrier, notCarrier⟩
  rw [isEmptyRun, Bool.and_eq_true, List.all_eq_true] at isEmpty
  rcases isEmpty with ⟨isRun, onlyProperties⟩
  rw [isNamed_of_content_eq (content_detach wellFormed ..)] at isRun
  rcases inside.cases_child with rfl | ⟨child, isChild, below⟩
  · rw [isNamed_eq_false named notRun] at isRun
    simp at isRun
  have childNotText : child ≠ text := by
    rintro rfl
    have same := below.antisymm wellFormed above
    subst same
    rw [isText_eq_false_of_isNamed named] at isText
    simp at isText
  have childNotCarrier : child ≠ document.textUnit text := by
    rintro rfl
    exact notCarrier (below.antisymm wellFormed aboveCarrier)
  have isChild' : child ∈ (document.detach (document.textUnit text)).children run := by
    rw [(wellFormed.detach _).mem_children_iff, parent_detach wellFormed, if_neg childNotCarrier,
      isChild]
  have isProperties := onlyProperties child isChild'
  rw [isNamed_of_content_eq (content_detach wellFormed ..), isNamed_eq_false_of_showsChildren
    (pending.showsChildren wellFormed isMember (above.trans below) childNotText) (by decide)]
    at isProperties
  simp at isProperties

end Document

namespace Strategy

open Outcome Document

variable {zone : NodeId → Prop} {rights : Rights} {document document' : Document}
  {pivot : NodeId} {tag openingTag closingTag : Tag} {tops left right inner later : List NodeId}
  {name : String} {result : Unit}

/-- A tag is removed together with its run if nothing else is in the run. -/
theorem taken_of_removeTagAndRun (wellFormed : document.WellFormed)
    (closed : document.Closed zone rights) (unplaced : ∀ top ∈ tops, ¬rights.places top)
    (pending : document.Pending tops (left ++ tag.textNode :: right))
    (inZone : ∀ id, document.LiesIn id tag.textNode → zone id)
    (above : document.LiesIn pivot tag.textNode) (named : document.isNamed pivot name = true)
    (notText : name ≠ Word.Name.text) (notRun : name ≠ Word.Name.run)
    (done : removeTagAndRun tag document = .ok result document') :
    Taken zone rights document document' tops left right tag.textNode ∧
      ∃ dropped, Strips document document' [tag.textNode] [pivot] dropped := by
  have isMember : tag.textNode ∈ left ++ tag.textNode :: right := by simp
  have isText := pending.isText isMember
  rcases liesIn_textUnit_of_isNamed above named notText isText with ⟨aboveCarrier, notCarrier⟩
  rcases aboveCarrier.cases_parent with same | ⟨holder, isHolder, aboveHolder⟩
  · exact absurd same.symm notCarrier
  have holderAbove : document.LiesIn holder tag.textNode :=
    (liesIn_textUnit document tag.textNode).trans (LiesIn.parent isHolder)
  have taken := taken_of_detach wellFormed closed unplaced pending isHolder
    (inZone holder holderAbove)
  simp only [removeTagAndRun, get_bind, bind_eq_ok, Edit.detach_eq_ok] at done
  rcases done with ⟨⟨⟩, middle, rfl, done⟩
  have strips := Strips.single wellFormed isHolder aboveHolder
  have onlyCarrier := Exists.intro _ strips
  rcases found : document.run? (document.textUnit tag.textNode) with _ | run
  · simp only [found, pure_eq_ok] at done
    exact done.2 ▸ ⟨taken, onlyCarrier⟩
  simp only [found, get_bind] at done
  rcases liesIn_of_ancestorNamed? wellFormed found with ⟨runAbove, isRun⟩
  split at done
  case isFalse =>
    rw [pure_eq_ok] at done
    exact done.2 ▸ ⟨taken, onlyCarrier⟩
  case isTrue isEmpty =>
    rw [Edit.detach_eq_ok] at done
    subst done
    have runText : document.LiesIn run tag.textNode :=
      (liesIn_textUnit document tag.textNode).trans runAbove
    have runNotText : run ≠ tag.textNode := by
      rintro rfl
      rw [isText_eq_false_of_isNamed isRun] at isText
      simp at isText
    rcases isOuter : document.parent run with _ | outer
    · have isOuter' : (document.detach (document.textUnit tag.textNode)).parent run = none := by
        rw [parent_detach wellFormed, isOuter, ite_self]
      rw [detach_of_parent_none isOuter']
      exact ⟨taken, onlyCarrier⟩
    have runNotCarrier : run ≠ document.textUnit tag.textNode := by
      rcases textUnit_cases document tag.textNode with ⟨same, -⟩ | ⟨-, isHolder⟩
      · rw [same]
        exact runNotText
      · rintro same
        rw [← same, isNamed_eq_false isRun (by decide)] at isHolder
        simp at isHolder
    have isOuter' : (document.detach (document.textUnit tag.textNode)).parent run = some outer := by
      rw [parent_detach wellFormed, if_neg runNotCarrier, isOuter]
    have outerInZone := inZone outer (runText.trans (LiesIn.parent isOuter))
    refine ⟨taken.neutral (neutral_detach taken.wellFormed taken.closed
      (movable_of_parent isOuter' outerInZone)
      (runningTexts_of_isEmptyRun taken.wellFormed isEmpty)) wellFormed unplaced,
      _, strips.runs (drops_detach taken.wellFormed run) fun id isDropped => ?_⟩
    rcases List.mem_singleton.mp isDropped with rfl
    refine ⟨(drops_detach taken.wellFormed id).isEmptyRun_of isEmpty, outer, isOuter', pivot,
      List.mem_singleton_self pivot, ?_⟩
    have runNotPivot : id ≠ pivot := by
      rintro rfl
      rw [isNamed_eq_false named notRun] at isRun
      simp at isRun
    have apart := pending.not_liesIn_of_isEmptyRun wellFormed isMember above named notText notRun isEmpty
    exact (((runAbove.total aboveCarrier).resolve_left apart).cases_above isOuter).resolve_left
      runNotPivot

theorem rowOf_eq_ok {cause : PlacementError} {row : NodeId} :
    rowOf tag cause document = .ok row document' ↔
      document.tableRow? tag.textNode = some row ∧ document = document' := by
  rw [rowOf, get_bind]
  cases document.tableRow? tag.textNode <;> simp

/-- What a cut of whole nodes leaves: the siblings that it goes through, which are to be replaced,
and the nodes to repeat, which have all of their running text. -/
structure WholeCut (zone : NodeId → Prop) (rights : Rights) (before after : Document)
    (tops : List NodeId) (opening closing : NodeId) (inner later : List NodeId) (region : CutRegion) :
    Prop extends Rearranges zone rights
      (fun id => before.LiesIn id opening ∨ before.LiesIn id closing) before after where
  kind : region.kind = .wholeNodes
  pending : after.Pending tops (inner ++ later)
  lastAbove : before.LiesIn region.last closing
  lastNamed : after.isNamed region.last Word.Name.tableRow = true ∨
    after.isNamed region.last Word.Name.paragraph = true
  enclosed : ∃ parent left range right,
    Enclosed before after opening closing parent region.first region.last left range right ∧
      region.nodes.Sublist range ∧
      region.nodes.flatMap after.runningTexts = range.flatMap after.runningTexts

/-- Both tags were taken out, each from below one of the nodes `first` and `last` around them, before
the siblings from `first` to `last` were listed. -/
structure TagsTaken (zone : NodeId → Prop) (rights : Rights) (before after : Document)
    (tops : List NodeId) (opening closing : NodeId) (inner later : List NodeId) (name : String)
    (first last : NodeId) (range : List NodeId) : Prop where
  firstAbove : before.LiesIn first opening
  firstNamed : before.isNamed first name = true
  lastAbove : before.LiesIn last closing
  lastNamed : before.isNamed last name = true
  taken : ∃ middle dropped dropped',
    Taken zone rights before middle tops [] (inner ++ closing :: later) opening ∧
      Taken zone rights middle after tops inner later closing ∧
      Strips before middle [opening] [first, last] dropped ∧
      Strips middle after [closing] [first, last] dropped'
  isRange : after.siblingRange first last = .ok range

variable {before after : Document} {opening closing first last : NodeId} {range : List NodeId}

/-- Only the carriers of both tags and empty runs are gone. -/
theorem TagsTaken.strips
    (tags : TagsTaken zone rights before after tops opening closing inner later name first last range)
    (wellFormed : before.WellFormed)
    (pending : before.Pending tops (opening :: (inner ++ closing :: later))) :
    ∃ dropped, Strips before after [opening, closing] [first, last] dropped := by
  rcases tags.taken with ⟨middle, dropped, dropped', -, -, firstStrips, lastStrips⟩
  have nodup := pending.nodup_texts wellFormed
  have isClosing : closing ∈ inner ++ closing :: later := by simp
  refine ⟨_, firstStrips.append lastStrips (fun text isMember => ?_) fun text isMember => ?_⟩
  · rw [List.mem_singleton.mp isMember]
    exact pending.isText (List.mem_cons_of_mem _ isClosing)
  · rw [List.mem_singleton.mp isMember, List.mem_singleton]
    rintro rfl
    exact (List.nodup_cons.mp nodup).1 isClosing

/-- Where both tags were taken out, the nodes from the first to the last sibling are cut out whole,
but for nodes without running text. -/
theorem TagsTaken.wholeCut {region : CutRegion}
    (tags : TagsTaken zone rights before after tops opening closing inner later name region.first
      region.last range)
    (wellFormed : before.WellFormed)
    (pending : before.Pending tops (opening :: (inner ++ closing :: later)))
    (isName : name = Word.Name.tableRow ∨ name = Word.Name.paragraph)
    (kind : region.kind = .wholeNodes) (fewer : region.nodes.Sublist range)
    (sameTexts : region.nodes.flatMap after.runningTexts = range.flatMap after.runningTexts) :
    WholeCut zone rights before after tops opening closing inner later region := by
  rcases tags.taken with ⟨middle, dropped, dropped', firstTaken, lastTaken, firstStrips, lastStrips⟩
  rcases stretch_of_siblingRange tags.isRange with ⟨parent, left, right, stretch⟩
  rcases lastStrips.toDrops.stretch firstTaken.wellFormed
    (by simpa using lastStrips.inside) stretch with ⟨stretchMiddle, liesInMiddle⟩
  rcases firstStrips.toDrops.stretch wellFormed
    (by simpa using firstStrips.inside) stretchMiddle with ⟨stretchBefore, liesInBefore⟩
  have touches : Rearranges zone rights
      (fun id => before.LiesIn id opening ∨ before.LiesIn id closing) before after :=
    (firstTaken.toRearranges.touching wellFormed _ fun _ _ => Or.inl).trans
      (lastTaken.toRearranges.touching firstTaken.wellFormed _ fun id _ above =>
        Or.inr (firstStrips.toDrops.liesIn above)) wellFormed
  have enclosed := enclosed_of_taken wellFormed pending firstTaken lastTaken stretchBefore
    stretchMiddle stretch liesInBefore (fun id => (liesInMiddle id).trans (liesInBefore id))
    tags.firstAbove tags.firstNamed tags.lastAbove tags.lastNamed
    (by rcases isName with rfl | rfl <;> decide)
  have lastNamed : after.isNamed region.last name = true := by
    rw [touches.isNamed_eq (lt_size_of_isNamed tags.lastNamed), tags.lastNamed]
  exact {
    toRearranges := touches
    kind := kind
    pending := lastTaken.pending
    lastAbove := tags.lastAbove
    lastNamed := by
      rcases isName with rfl | rfl
      · exact Or.inl lastNamed
      · exact Or.inr lastNamed
    enclosed := ⟨parent, left, range, right, enclosed, fewer, sameTexts⟩ }

/-- Rows are cut out whole. -/
theorem tagsTaken_of_cutRows {region : CutRegion} (wellFormed : document.WellFormed)
    (closed : document.Closed zone rights) (unplaced : ∀ top ∈ tops, ¬rights.places top)
    (pending : document.Pending tops
      (openingTag.textNode :: (inner ++ closingTag.textNode :: later)))
    (inZone : ∀ id, document.LiesIn id openingTag.textNode ∨
      document.LiesIn id closingTag.textNode → zone id)
    (done : cutRows openingTag closingTag document = .ok region document') :
    TagsTaken zone rights document document' tops openingTag.textNode closingTag.textNode inner later
        Word.Name.tableRow region.first region.last region.nodes ∧
      region.kind = .wholeNodes ∧
      document.tableRow? openingTag.textNode = some region.first ∧
      document.tableRow? closingTag.textNode = some region.last := by
  simp only [cutRows, bind_eq_ok, rowOf_eq_ok, edit_eq_ok, pure_eq_ok,
    Edit.siblingRange_eq_ok] at done
  rcases done with ⟨first, _, ⟨isFirst, rfl⟩, last, _, ⟨isLast, rfl⟩, ⟨⟩, middle, firstDone, ⟨⟩,
    after, lastDone, range, _, ⟨isRange, rfl⟩, rfl, rfl⟩
  rcases liesIn_of_ancestorNamed? wellFormed isFirst with ⟨firstAbove, firstNamed⟩
  rcases liesIn_of_ancestorNamed? wellFormed isLast with ⟨lastAbove, lastNamed⟩
  rcases taken_of_removeTagAndRun wellFormed closed unplaced
    (show document.Pending tops ([] ++ openingTag.textNode :: _) from pending)
    (fun id above => inZone id (Or.inl above)) firstAbove firstNamed (by decide) (by decide)
    firstDone with ⟨firstTaken, dropped, firstStrips⟩
  have lastAbove' := firstTaken.liesIn wellFormed pending (by simp) lastAbove
  have lastNamed' : middle.isNamed last Word.Name.tableRow = true := by
    rw [firstTaken.isNamed_eq (lt_size_of_isNamed lastNamed), lastNamed]
  rcases taken_of_removeTagAndRun firstTaken.wellFormed firstTaken.closed unplaced
    firstTaken.pending (fun id above => inZone id (Or.inr (firstStrips.toDrops.liesIn above)))
    lastAbove' lastNamed' (by decide) (by decide) lastDone with ⟨lastTaken, dropped', lastStrips⟩
  exact ⟨⟨firstAbove, firstNamed, lastAbove, lastNamed, ⟨middle, _, _, firstTaken, lastTaken,
    firstStrips.mono (by simp), lastStrips.mono (by simp)⟩, isRange⟩, rfl, isFirst, isLast⟩

/-- The carrier of a tag is detached from below a paragraph around the tag. -/
theorem taken_of_detach_below {paragraph : NodeId} (wellFormed : document.WellFormed)
    (closed : document.Closed zone rights) (unplaced : ∀ top ∈ tops, ¬rights.places top)
    (pending : document.Pending tops (left ++ tag.textNode :: right))
    (inZone : ∀ id, document.LiesIn id tag.textNode → zone id)
    (above : document.LiesIn paragraph tag.textNode)
    (named : document.isNamed paragraph Word.Name.paragraph = true) :
    Taken zone rights document (document.detach (document.textUnit tag.textNode)) tops left right
        tag.textNode ∧
      ∃ holder, document.parent (document.textUnit tag.textNode) = some holder ∧
        document.LiesIn paragraph holder := by
  have isText := pending.isText (show tag.textNode ∈ left ++ tag.textNode :: right by simp)
  rcases liesIn_textUnit_of_isNamed above named (by decide) isText with ⟨aboveCarrier, notCarrier⟩
  rcases aboveCarrier.cases_parent with same | ⟨holder, isHolder, aboveHolder⟩
  · exact absurd same.symm notCarrier
  · exact ⟨taken_of_detach wellFormed closed unplaced pending isHolder (inZone holder
      ((liesIn_textUnit document tag.textNode).trans (LiesIn.parent isHolder))),
      holder, isHolder, aboveHolder⟩

/-- List paragraphs are cut out whole, but for paragraphs at the ends that held nothing but a tag. -/
theorem tagsTaken_of_cutListItems {region : CutRegion} (wellFormed : document.WellFormed)
    (closed : document.Closed zone rights) (unplaced : ∀ top ∈ tops, ¬rights.places top)
    (pending : document.Pending tops
      (openingTag.textNode :: (inner ++ closingTag.textNode :: later)))
    (inZone : ∀ id, document.LiesIn id openingTag.textNode ∨
      document.LiesIn id closingTag.textNode → zone id)
    (done : cutListItems openingTag closingTag document = .ok region document') :
    ∃ range, TagsTaken zone rights document document' tops openingTag.textNode closingTag.textNode
        inner later Word.Name.paragraph region.first region.last range ∧
      region.kind = .wholeNodes ∧
      document.paragraph? openingTag.textNode = some region.first ∧
      document.paragraph? closingTag.textNode = some region.last ∧
      region.nodes = range.filter fun node => !(region.first ≠ region.last &&
        (node = region.first || node = region.last) && document'.isEmptyParagraph node) := by
  simp only [cutListItems, bind_eq_ok, Extraction.paragraph_eq_ok, edit_eq_ok, pure_eq_ok,
    Edit.siblingRange_eq_ok, Edit.detach_eq_ok, get_eq_ok] at done
  rcases done with ⟨first, _, ⟨isFirst, rfl⟩, last, _, ⟨isLast, rfl⟩, _, _, ⟨rfl, rfl⟩, _, middle,
    middleIs, _, _, ⟨rfl, rfl⟩, _, bare, bareIs, ⟨⟩, tidied, firstDone, ⟨⟩, after, lastDone, range, _,
    ⟨isRange, rfl⟩, _, _, ⟨rfl, rfl⟩, rfl, rfl⟩
  rcases liesIn_of_ancestorNamed? wellFormed isFirst with ⟨firstAbove, firstNamed⟩
  rcases liesIn_of_ancestorNamed? wellFormed isLast with ⟨lastAbove, lastNamed⟩
  rcases taken_of_detach_below wellFormed closed unplaced
    (show document.Pending tops ([] ++ openingTag.textNode :: _) from pending)
    (fun id above => inZone id (Or.inl above)) firstAbove firstNamed with
    ⟨firstTaken, holder, isHolder, aboveHolder⟩
  have firstStrips := (Strips.single wellFormed isHolder aboveHolder).mono
    (show [first] ⊆ [first, last] by simp)
  rw [← middleIs] at firstTaken firstStrips
  have lastAbove' := firstTaken.liesIn wellFormed pending (by simp) lastAbove
  have lastNamed' : middle.isNamed last Word.Name.paragraph = true := by
    rw [firstTaken.isNamed_eq (lt_size_of_isNamed lastNamed), lastNamed]
  rcases taken_of_detach_below firstTaken.wellFormed firstTaken.closed unplaced firstTaken.pending
    (fun id above => inZone id (Or.inr (firstStrips.toDrops.liesIn above))) lastAbove' lastNamed' with
    ⟨bareTaken, holder', isHolder', aboveHolder'⟩
  have bareStrips := (Strips.single firstTaken.wellFormed isHolder' aboveHolder').mono
    (show [last] ⊆ [first, last] by simp)
  rw [← bareIs] at bareTaken bareStrips
  -- The runs that are left empty in the two paragraphs go as well.
  rcases Edit.drops_of_removeEmptyRuns bareTaken.wellFormed firstDone with
    ⟨firstRuns, firstDrops, firstEmpty⟩
  have firstNeutral := Edit.neutral_of_removeEmptyRuns bareTaken.wellFormed bareTaken.closed
    (inZone first (Or.inl firstAbove)) firstDone
  rcases Edit.drops_of_removeEmptyRuns firstNeutral.wellFormed lastDone with
    ⟨lastRuns, lastDrops, lastEmpty⟩
  have lastNeutral := Edit.neutral_of_removeEmptyRuns firstNeutral.wellFormed firstNeutral.closed
    (inZone last (Or.inr lastAbove)) lastDone
  have lastTaken := bareTaken.neutral (firstNeutral.trans lastNeutral) firstTaken.wellFormed unplaced
  have lastStrips := (bareStrips.runs firstDrops fun run isRun =>
    ⟨firstDrops.isEmptyRun_of (firstEmpty run isRun).2, first, (firstEmpty run isRun).1, first,
      by simp, LiesIn.refl⟩).runs lastDrops fun run isRun =>
    ⟨lastDrops.isEmptyRun_of (lastEmpty run isRun).2, last, (lastEmpty run isRun).1, last,
      by simp, LiesIn.refl⟩
  exact ⟨range, ⟨firstAbove, firstNamed, lastAbove, lastNamed, ⟨middle, _, _, firstTaken, lastTaken,
    firstStrips, lastStrips⟩, isRange⟩, rfl, isFirst, isLast, rfl⟩

/-- Rows are cut out whole. -/
theorem wholeCut_of_cutRows {region : CutRegion} (wellFormed : document.WellFormed)
    (closed : document.Closed zone rights) (unplaced : ∀ top ∈ tops, ¬rights.places top)
    (pending : document.Pending tops
      (openingTag.textNode :: (inner ++ closingTag.textNode :: later)))
    (inZone : ∀ id, document.LiesIn id openingTag.textNode ∨
      document.LiesIn id closingTag.textNode → zone id)
    (done : cutRows openingTag closingTag document = .ok region document') :
    WholeCut zone rights document document' tops openingTag.textNode closingTag.textNode inner later
      region := by
  rcases tagsTaken_of_cutRows wellFormed closed unplaced pending inZone done with ⟨tags, kind, -, -⟩
  exact tags.wholeCut wellFormed pending (Or.inl rfl) kind (List.Sublist.refl _) rfl

/-- List paragraphs are cut out whole. -/
theorem wholeCut_of_cutListItems {region : CutRegion} (wellFormed : document.WellFormed)
    (closed : document.Closed zone rights) (unplaced : ∀ top ∈ tops, ¬rights.places top)
    (pending : document.Pending tops
      (openingTag.textNode :: (inner ++ closingTag.textNode :: later)))
    (inZone : ∀ id, document.LiesIn id openingTag.textNode ∨
      document.LiesIn id closingTag.textNode → zone id)
    (done : cutListItems openingTag closingTag document = .ok region document') :
    WholeCut zone rights document document' tops openingTag.textNode closingTag.textNode inner later
      region := by
  rcases tagsTaken_of_cutListItems wellFormed closed unplaced pending inZone done with
    ⟨range, tags, kind, -, -, nodesAre⟩
  rcases tags.taken with ⟨_, _, _, -, lastTaken, -, -⟩
  refine tags.wholeCut wellFormed pending (Or.inr rfl) kind (nodesAre ▸ List.filter_sublist) ?_
  rw [nodesAre]
  refine flatMap_filter_of_silent fun id _ isLeftOut => ?_
  simp only [Bool.not_eq_false', Bool.and_eq_true] at isLeftOut
  exact runningTexts_of_isEmptyParagraph lastTaken.wellFormed isLeftOut.2

end Strategy

end WordTemplate
