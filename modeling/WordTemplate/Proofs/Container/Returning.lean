import WordTemplate.Proofs.Container.Copies
import WordTemplate.Proofs.Container.Enclosing
import WordTemplate.Proofs.Container.Merging

/-!
# Putting a region back

The compiled copies of a region wait as new detached nodes until they are put in the place of the
cut. The tags after the region stay pending, also those in a row or a paragraph that is taken out as
a whole together with the closing tag. The compiled copies of whole nodes are placed before them, and
then the nodes are taken out with what else stands in them.
-/

namespace WordTemplate.Strategy

open Outcome Document

variable {zone : NodeId → Prop} {rights : Rights} {document document' : Document}
  {parent first last : NodeId} {left range right : List NodeId} {groups : List (List NodeId)}
  {result : Unit}

/-- A stretch of siblings is replaced by waiting nodes. -/
structure Replaced (before after : Document) (parent : NodeId)
    (left range right nodes : List NodeId) : Prop where
  children_eq : after.children parent = left ++ nodes ++ right
  runningTexts_eq : after.runningTexts parent =
    (left ++ nodes ++ right).flatMap before.runningTexts
  detached : ∀ id ∈ range, after.parent id = none
  range_texts : ∀ id ∈ range, after.runningTexts id = before.runningTexts id

theorem replaced_of_replaceRange {rest : List NodeId}
    (seam : Seam zone rights document parent first left rest groups.flatten)
    (stretch : document.Stretch parent first last left range right)
    (done : replaceRange groups first last document = .ok result document') :
    Replaced document document' parent left range right groups.flatten ∧
      Rearranges zone rights (fun id => document.LiesIn id parent ∨ id ∈ groups.flatten)
        document document' := by
  simp only [replaceRange, bind_eq_ok, Edit.siblingRange_eq_ok] at done
  rcases done with ⟨replaced, _, ⟨isRange, rfl⟩, ⟨⟩, middle, inserted, dropped⟩
  rcases stretch_of_siblingRange isRange with ⟨parent', left', right', stretch'⟩
  rcases stretch.unique seam.wellFormed stretch' with ⟨rfl, rfl, rfl, rfl⟩
  have seam₀ : Seam zone rights document parent first left rest (groups.flatten ++ []) := by
    simpa using seam
  rcases Edit.seam_of_forM_insertBefore seam₀ inserted with ⟨seam', texts, rearranges⟩
  have drops := drops_of_forM_detach seam'.wellFormed dropped
  have sameRange : range ++ right = first :: rest := by
    have children_eq := seam.children_eq
    rw [stretch.children_eq, List.append_assoc] at children_eq
    exact List.append_cancel_left children_eq
  have children_middle : middle.children parent = left ++ groups.flatten ++ (range ++ right) := by
    rw [seam'.children_eq, sameRange]
  have isParent : ∀ id ∈ left ++ groups.flatten ++ (range ++ right),
      middle.parent id = some parent := by
    intro id isMember
    rwa [← seam'.wellFormed.mem_children_iff, children_middle]
  have rangeParent : ∀ id ∈ range, middle.parent id = some parent := fun id isRange =>
    isParent id (by simp [isRange])
  have apart : ∀ id ∈ groups.flatten, id ∉ range := by
    intro id isWaiting isRange
    have isChild := stretch.parent_eq seam.wellFormed isRange
    rw [seam.detached id isWaiting] at isChild
    simp at isChild
  have children_eq : document'.children parent = left ++ groups.flatten ++ right := by
    rw [drops.children_eq, children_middle, stretch.filter_children seam.wellFormed apart]
  -- The children of `parent` keep their running text throughout.
  have spared : ∀ id ∈ left ++ groups.flatten ++ (range ++ right),
      document'.runningTexts id = document.runningTexts id := by
    intro id isMember
    have place : id ∈ left ++ first :: rest ∨ id ∈ groups.flatten := by
      rw [← sameRange]
      simp only [List.mem_append] at isMember ⊢
      tauto
    rcases seam.spared_of_mem place with ⟨inStore, notAbove⟩
    rw [drops.runningTexts_of_sibling seam'.wellFormed (isParent id isMember) rangeParent,
      texts id inStore notAbove]
  have dropRearranges := drops.rearranges seam'.wellFormed seam'.closed
    (fun id isRange => movable_of_parent (rangeParent id isRange) seam'.inZone)
    (fun id child isRange inside differ => by
      rcases inside.cases_above (rangeParent child isRange) with same | above
      · exact absurd same.symm differ
      · exact Or.inl ((seam.liesIn_iff rearranges.toChangesWithin).mp above) :
      ∀ id, ∀ child ∈ range, _ → _ → document.LiesIn id parent ∨ id ∈ groups.flatten)
  refine ⟨⟨children_eq, ?_, ?_, ?_⟩, rearranges.trans dropRearranges seam.wellFormed⟩
  · rw [runningTexts_of_showsChildren drops.wellFormed (by
      rw [dropRearranges.showsChildren_eq (parent_lt_size seam'.wellFormed seam'.tailParent),
        seam'.shows]), children_eq]
    refine List.flatMap_congr fun id isMember => spared id ?_
    simp only [List.mem_append] at isMember ⊢
    tauto
  · intro id isRange
    rw [drops.parent_eq, if_pos isRange]
  · exact fun id isRange => spared id (by simp [isRange])

end WordTemplate.Strategy

namespace WordTemplate

namespace Document

variable {zone : NodeId → Prop} {rights : Rights} {base before cut document after : Document}
  {opening closing parent first last tail text holder id : NodeId}
  {tops inner later left range region right placed rest nodes : List NodeId}

theorem Adds.neutral_new (adds : Adds base document) (wellFormed : base.WellFormed) :
    Neutral (fun id => base.size ≤ id.index) (newRights base.size) base document :=
  adds.neutral wellFormed (closed_fresh wellFormed fun _ => id)

/-- Old nodes have nothing but old nodes around them. -/
theorem Adds.liesIn_iff (adds : Adds base document) (wellFormed : base.WellFormed)
    (isOld : parent.index < base.size) :
    document.LiesIn id parent ↔ base.LiesIn id parent :=
  liesIn_iff_of_parent_eq fun _ inside =>
    adds.parent_eq (lt_size_of_liesIn wellFormed inside isOld)

theorem Adds.not_liesIn_new (adds : Adds base document) (wellFormed : base.WellFormed)
    (isOld : id.index < base.size) (isNew : base.size ≤ parent.index) :
    ¬document.LiesIn parent id := fun inside =>
  Nat.not_lt_of_le ((adds.closed_new wellFormed).liesIn inside isNew) isOld

/-- New nodes that are about to be placed in a document. -/
structure Waiting (base document : Document) (nodes : List NodeId) : Prop extends
    Adds base document where
  nodup : nodes.Nodup
  detached : ∀ node ∈ nodes, document.parent node = none
  inStore : ∀ node ∈ nodes, node.index < document.size
  isNew : ∀ node ∈ nodes, base.size ≤ node.index

/-- The rights to place some nodes. -/
def Rights.placing (document : Document) (nodes : List NodeId) : Rights where
  writes _ := False
  places id := id ∈ nodes ∨ document.size ≤ id.index

theorem Waiting.not_places (waiting : Waiting base document nodes) (isOld : id.index < base.size) :
    ¬(Rights.placing document nodes).places id := by
  rintro (isNode | beyond)
  · exact Nat.not_lt_of_le (waiting.isNew id isNode) isOld
  · exact Nat.not_lt_of_le (Nat.le_trans waiting.size_le beyond) isOld

/-- A place among the children of an old node is where waiting nodes can go. -/
theorem Waiting.seam (waiting : Waiting base document nodes) (wellFormed : base.WellFormed)
    (shows : base.showsChildren parent = true)
    (children_eq : base.children parent = placed ++ tail :: rest) :
    Seam (document.BelowRoots (parent :: nodes)) (.placing document nodes) document parent tail
      placed rest nodes := by
  have isParent : base.parent tail = some parent := by
    rw [← wellFormed.mem_children_iff, children_eq]
    simp
  have isOld := parent_lt_size wellFormed isParent
  exact {
    wellFormed := waiting.wellFormed
    closed := closed_belowRoots waiting.wellFormed (fun _ => Or.inr) _
    inZone := Or.inl ⟨parent, List.mem_cons_self, LiesIn.refl⟩
    unplaced := waiting.not_places isOld
    spared := by
      rintro id above differ (⟨root, isRoot, inside⟩ | beyond)
      · rcases List.mem_cons.mp isRoot with rfl | isNode
        · exact differ (inside.antisymm waiting.wellFormed above)
        · exact waiting.not_liesIn_new wellFormed isOld (waiting.isNew root isNode)
            (above.trans inside)
      · exact Nat.not_lt_of_le beyond (lt_size_of_liesIn waiting.wellFormed above
          (Nat.lt_of_lt_of_le isOld waiting.size_le))
    shows := by rw [(waiting.neutral_new wellFormed).showsChildren_eq isOld, shows]
    children_eq := by rw [waiting.children_eq isOld, children_eq]
    nodup := waiting.nodup
    detached := waiting.detached
    inStore := waiting.inStore
    waitingInZone := fun node isNode =>
      Or.inl ⟨node, List.mem_cons_of_mem _ isNode, LiesIn.refl⟩
    places := fun _ => Or.inl }

/-- What is put in the place of a cut does not touch what the tags after the region depend on. -/
theorem Pending.untouched_seam
    (pending : before.Pending tops (opening :: (inner ++ closing :: later)))
    (wellFormed : before.WellFormed)
    (cutting : Rearranges zone rights
      (fun id => before.LiesIn id opening ∨ before.LiesIn id closing) before cut)
    (above : ∀ id, cut.LiesIn id parent → before.LiesIn id opening)
    (isOld : parent.index < cut.size) (waiting : Waiting cut document nodes)
    (isLater : text ∈ later) :
    (¬document.LiesIn text parent ∧ text ∉ nodes) ∧
      ∀ holder, document.parent text = some holder →
        document.isNamed holder Word.Name.text = true →
        ¬document.LiesIn holder parent ∧ holder ∉ nodes := by
  have isMember : text ∈ opening :: (inner ++ closing :: later) := by simp [isLater]
  have text_lt := pending.lt_size wellFormed isMember
  have text_lt' := Nat.lt_of_lt_of_le text_lt cutting.size_le
  rcases CutOut.untouched wellFormed pending (List.mem_append_right inner isLater) with
    ⟨textSpared, holderSpared⟩
  have aboveOpening : ∀ {id}, document.LiesIn id parent → before.LiesIn id opening := fun inside =>
    above _ ((waiting.liesIn_iff cutting.wellFormed isOld).mp inside)
  refine ⟨⟨fun inside => textSpared (Or.inl (aboveOpening inside)), fun isNode =>
    Nat.not_lt_of_le (waiting.isNew text isNode) text_lt'⟩, ?_⟩
  intro holder isHolder named
  rw [waiting.parent_eq text_lt'] at isHolder
  have holder_lt := parent_lt_size cutting.wellFormed isHolder
  rw [(waiting.neutral_new cutting.wellFormed).isNamed_eq holder_lt] at named
  refine ⟨fun inside => ?_, fun isNode => Nat.not_lt_of_le (waiting.isNew holder isNode) holder_lt⟩
  rcases cutting.holder_eq text_lt textSpared (pending.isText isMember) isHolder named with
    isHolder' | ⟨old, isTouched, isOldHolder, isOldNamed⟩
  · refine holderSpared holder isHolder' ?_ (Or.inl (aboveOpening inside))
    rwa [← cutting.isNamed_eq (parent_lt_size wellFormed isHolder')]
  · exact holderSpared old isOldHolder isOldNamed isTouched

/-- Trees around the cut change at the cut only when the waiting nodes are placed. -/
theorem Waiting.around {top : NodeId} (waiting : Waiting cut document nodes)
    (wellFormed : cut.WellFormed) (shows : ∀ id, cut.LiesIn id parent → cut.showsChildren id = true)
    (changes : ChangesWithin (document.BelowRoots (parent :: nodes)) rights document after)
    (isOld : parent.index < cut.size) (detached : cut.parent top = none)
    (inside : cut.LiesIn top parent) : ∃ lead trail,
      document.runningTexts top = lead ++ document.runningTexts parent ++ trail ∧
      after.runningTexts top = lead ++ after.runningTexts parent ++ trail := by
  have top_lt := lt_size_of_liesIn wellFormed inside isOld
  refine changes.runningTexts_around waiting.wellFormed
    ((waiting.liesIn_iff wellFormed isOld).mpr inside) ?_ ?_
  · intro id _ above _
    have above := (waiting.liesIn_iff wellFormed isOld).mp above
    rw [(waiting.neutral_new wellFormed).showsChildren_eq
      (lt_size_of_liesIn wellFormed above isOld), shows id above]
  · rintro id below (⟨root, isRoot, belowRoot⟩ | beyond)
    · rcases List.mem_cons.mp isRoot with rfl | isNode
      · exact belowRoot
      · have same := eq_of_liesIn_detached (waiting.detached root isNode)
          (by rw [waiting.parent_eq top_lt, detached]) belowRoot below
        exact absurd top_lt (Nat.not_lt_of_le (same ▸ waiting.isNew root isNode))
    · exact absurd (lt_size_below below (Nat.lt_of_lt_of_le top_lt waiting.size_le))
        (Nat.not_lt_of_le beyond)

/-- A detached tree keeps what it shows when waiting nodes are placed among the children of one of
its nodes, between paragraphs that stand there. -/
theorem Waiting.sublist_runningTexts {top : NodeId} (waiting : Waiting cut document nodes)
    (wellFormed : cut.WellFormed) (shows : ∀ id, cut.LiesIn id parent → cut.showsChildren id = true)
    (rearranges : Rearranges (document.BelowRoots (parent :: nodes)) rights
      (fun id => document.LiesIn id parent ∨ id ∈ first :: last :: nodes) document after)
    (firstParent : cut.parent first = some parent) (lastParent : cut.parent last = some parent)
    (kept : (document.runningTexts parent).Sublist (after.runningTexts parent))
    (top_lt : top.index < cut.size) (detached : cut.parent top = none) :
    (document.runningTexts top).Sublist (after.runningTexts top) := by
  have isOld := parent_lt_size wellFormed firstParent
  by_cases inside : cut.LiesIn top parent
  · rcases waiting.around wellFormed shows rearranges.toChangesWithin isOld detached inside with
      ⟨lead, trail, texts, texts'⟩
    rw [texts, texts']
    exact (kept.append_left lead).append_right trail
  · have untouched : ¬(document.LiesIn top parent ∨ top ∈ first :: last :: nodes) := by
      rintro (above | isMember)
      · exact inside ((waiting.liesIn_iff wellFormed isOld).mp above)
      · simp only [List.mem_cons] at isMember
        rcases isMember with rfl | rfl | isNode
        · simp [firstParent] at detached
        · simp [lastParent] at detached
        · exact Nat.not_lt_of_le (waiting.isNew top isNode) top_lt
    rw [rearranges.runningTexts_eq (Nat.lt_of_lt_of_le top_lt waiting.size_le) untouched]

theorem Pending.adds {texts : List NodeId} (pending : base.Pending tops texts)
    (adds : Adds base document) (wellFormed : base.WellFormed) : document.Pending tops texts :=
  pending.neutral (adds.neutral_new wellFormed) wellFormed fun top isTop =>
    Nat.not_le_of_lt (pending.inStore top isTop)

end Document

namespace Edit

open Outcome Document

variable {zone : NodeId → Prop} {rights : Rights} {before cut document after : Document}
  {opening closing parent first last : NodeId} {tops inner later left region right : List NodeId}
  {groups : List (List NodeId)} {result : Unit}

/-- The tags after a region stay pending when its copies are merged into the place of the cut. -/
theorem pending_of_mergeFragments
    (pending : before.Pending tops (opening :: (inner ++ closing :: later)))
    (wellFormed : before.WellFormed) (unplaced : ∀ top ∈ tops, ¬rights.places top)
    (cutting : Rearranges zone rights
      (fun id => before.LiesIn id opening ∨ before.LiesIn id closing) before cut)
    (cutOut : CutOut before cut tops opening closing parent first last left region right)
    (waiting : Waiting cut document groups.flatten)
    (done : mergeFragments groups first last document = .ok result after) :
    ChangesWithin (document.BelowRoots (parent :: groups.flatten))
        (.placing document groups.flatten) document after ∧
      after.runningTexts parent = (left ++ [first]).flatMap cut.runningTexts ++
        groups.flatten.flatMap document.runningTexts ++
          (last :: right).flatMap cut.runningTexts ∧
      after.Pending tops later := by
  have cutFormed := cutting.wellFormed
  have isChild : ∀ id ∈ left ++ first :: last :: right, cut.parent id = some parent :=
    fun id => cutOut.parent_of_mem cutFormed
  have isOld : parent.index < cut.size := parent_lt_size cutFormed (isChild first (by simp))
  have seam : Seam (document.BelowRoots (parent :: groups.flatten))
      (.placing document groups.flatten) document parent last (left ++ [first]) right
      groups.flatten :=
    waiting.seam cutFormed (cutOut.shows LiesIn.refl) (by simp [cutOut.children_eq])
  rcases runningTexts_of_mergeFragments seam done with ⟨texts, rearranges⟩
  have neutral := waiting.neutral_new cutFormed
  have pending' := (cutOut.pending wellFormed cutting unplaced pending).adds waiting.toAdds cutFormed
  have oldTexts : ∀ ids : List NodeId, ids ⊆ left ++ first :: last :: right →
      ids.flatMap document.runningTexts = ids.flatMap cut.runningTexts := fun ids subset =>
    List.flatMap_congr fun id isMember =>
      neutral.runningTexts_eq (lt_size_of_parent (isChild id (subset isMember)))
  have whole : after.runningTexts parent = (left ++ [first]).flatMap cut.runningTexts ++
      groups.flatten.flatMap document.runningTexts ++
        (last :: right).flatMap cut.runningTexts := by
    rw [texts, ← oldTexts (left ++ [first]) (by simp), ← oldTexts (last :: right) (by simp)]
    simp
  have kept : (document.runningTexts parent).Sublist (after.runningTexts parent) := by
    rw [neutral.runningTexts_eq isOld, cutOut.texts_left cutFormed, whole]
    exact (List.sublist_append_left _ _).append_right _
  have firstNamed : document.isNamed first Word.Name.paragraph = true := by
    rw [neutral.isNamed_eq (lt_size_of_isNamed cutOut.firstNamed), cutOut.firstNamed]
  have lastNamed : document.isNamed last Word.Name.paragraph = true := by
    rw [neutral.isNamed_eq (lt_size_of_isNamed cutOut.lastNamed), cutOut.lastNamed]
  have tops_lt : ∀ top ∈ tops, top.index < cut.size := fun top isTop =>
    (cutOut.pending wellFormed cutting unplaced pending).inStore top isTop
  refine ⟨rearranges.toChangesWithin, whole, pending'.of_rearranges rearranges waiting.wellFormed
    (fun top isTop => waiting.not_places (tops_lt top isTop)) (List.Subset.refl _)
    (fun text isLater => ?_) ?_⟩
  · rcases pending.untouched_seam wellFormed cutting
      (fun id inside => (cutOut.above id ((cutOut.liesIn_iff id).mp inside)).1) isOld waiting isLater
      with ⟨⟨notAbove, notNode⟩, holders⟩
    have isText := pending'.isText isLater
    have notNamed : ∀ {node}, document.isNamed node Word.Name.paragraph = true → text ≠ node := by
      rintro node named rfl
      rw [isText_eq_false_of_isNamed named] at isText
      simp at isText
    simp only [List.mem_cons, not_or]
    refine ⟨⟨notAbove, notNamed firstNamed, notNamed lastNamed, notNode⟩, ?_⟩
    intro holder isHolder named
    have notParagraph : ∀ {node}, document.isNamed node Word.Name.paragraph = true →
        holder ≠ node := by
      rintro node named' rfl
      rw [isNamed_eq_false named' (by decide)] at named
      simp at named
    rcases holders holder isHolder named with ⟨notAbove, notNode⟩
    exact ⟨notAbove, notParagraph firstNamed, notParagraph lastNamed, notNode⟩
  · refine pending'.ordered.trans (sublist_flatMap (List.Sublist.refl _) fun top isTop => ?_)
    have detached : cut.parent top = none := by
      rw [← waiting.parent_eq (tops_lt top isTop), pending'.detached top isTop]
    exact waiting.sublist_runningTexts cutFormed (fun id => cutOut.shows) rearranges
      (isChild first (by simp)) (isChild last (by simp)) kept (tops_lt top isTop) detached

end Edit

namespace Strategy

open Outcome Document

variable {zone : NodeId → Prop} {rights : Rights} {before cut document after : Document}
  {opening closing parent : NodeId} {tops inner later left range right : List NodeId}
  {region : CutRegion} {groups : List (List NodeId)} {result : Unit}

/-- The end of a list stays where something in its middle is replaced by something that keeps the end
of the middle. -/
theorem sublist_of_around {lead trail lead' trail' middle ending larger : List NodeId}
    (same : lead ++ middle ++ trail = lead' ++ middle ++ trail')
    (nodup : (lead ++ middle ++ trail).Nodup) (kept : ending.Sublist larger)
    (empty : middle = [] → ending = []) :
    (ending ++ trail).Sublist (lead' ++ larger ++ trail') := by
  rcases middle with _ | ⟨first, rest⟩
  · rw [empty rfl, List.nil_append]
    have isEnd : trail.Sublist (lead' ++ trail') := by
      rw [List.append_nil, List.append_nil] at same
      exact same ▸ List.sublist_append_right lead trail
    exact isEnd.trans ((List.sublist_append_left _ _).append_right _)
  · simp only [List.append_assoc, List.cons_append] at same nodup
    rw [List.append_cancel_left (append_cons_inj nodup same).2, List.append_assoc]
    exact (kept.append_right _).trans (List.sublist_append_right _ _)

/-- Waiting nodes replace a stretch of old siblings. -/
theorem replaced_of_waiting {first last : NodeId} (waiting : Waiting cut document groups.flatten)
    (wellFormed : cut.WellFormed) (shows : cut.showsChildren parent = true)
    (stretch : cut.Stretch parent first last left range right)
    (done : replaceRange groups first last document = .ok result after) :
    document.Stretch parent first last left range right ∧
      Replaced document after parent left range right groups.flatten ∧
      Rearranges (document.BelowRoots (parent :: groups.flatten))
        (.placing document groups.flatten)
        (fun id => document.LiesIn id parent ∨ id ∈ groups.flatten) document after := by
  have isOld : parent.index < cut.size := parent_lt_size wellFormed stretch.isParent
  have stretch' : document.Stretch parent first last left range right :=
    ⟨by rw [waiting.parent_eq (lt_size_of_parent stretch.isParent), stretch.isParent],
      by rw [waiting.children_eq isOld, stretch.children_eq], stretch.head_eq, stretch.getLast_eq⟩
  rcases List.head?_eq_some_iff.mp stretch.head_eq with ⟨rest, rangeIs⟩
  have seam : Seam (document.BelowRoots (parent :: groups.flatten))
      (.placing document groups.flatten) document parent first left (rest ++ right)
      groups.flatten :=
    waiting.seam wellFormed shows (by simp [stretch.children_eq, rangeIs])
  exact ⟨stretch', replaced_of_replaceRange seam stretch' done⟩

section Replacing

variable (pending : before.Pending tops (opening :: (inner ++ closing :: later)))
  (whole : WholeCut zone rights before cut tops opening closing inner later region)
  (enclosed : Enclosed before cut opening closing parent region.first region.last left range right)
  (waiting : Waiting cut document groups.flatten)
  (replaced : Replaced document after parent left range right groups.flatten)
  (rearranges : Rearranges (document.BelowRoots (parent :: groups.flatten))
    (.placing document groups.flatten)
    (fun id => document.LiesIn id parent ∨ id ∈ groups.flatten) document after)

include enclosed in
theorem showsChildren_of_enclosed {id : NodeId} (inside : cut.LiesIn id parent) :
    cut.showsChildren id = true :=
  (enclosed.above id ((enclosed.liesIn_iff id).mp inside)).2

include enclosed waiting replaced rearranges in
/-- What was after the closing tag in the tree around the region is still there, in the last one of the
nodes that are replaced or behind them. -/
theorem sublist_of_replaced {top : NodeId} {rest ahead lead trail : List NodeId}
    (cutFormed : cut.WellFormed) (detached : cut.parent top = none)
    (inside : cut.LiesIn top parent)
    (topTexts : cut.runningTexts top = lead ++ cut.runningTexts parent ++ trail)
    (lastTexts : cut.runningTexts region.last = ahead ++ rest) :
    (rest ++ (right.flatMap cut.runningTexts ++ trail)).Sublist
      (after.runningTexts region.last ++ after.runningTexts top) := by
  have neutral := waiting.neutral_new cutFormed
  have stretch := enclosed.stretch
  have shows : ∀ id, cut.LiesIn id parent → cut.showsChildren id = true := fun id =>
    showsChildren_of_enclosed enclosed
  have isOld : parent.index < cut.size := parent_lt_size cutFormed stretch.isParent
  have isChild : ∀ id ∈ left ++ range ++ right, cut.parent id = some parent := by
    intro id isMember
    rwa [← cutFormed.mem_children_iff, stretch.children_eq]
  rcases waiting.around cutFormed shows rearranges.toChangesWithin isOld detached inside with
    ⟨lead', trail', placedTexts, afterTexts⟩
  refine List.Sublist.append ?_ ?_
  · rw [replaced.range_texts _ stretch.last_mem,
      neutral.runningTexts_eq (lt_size_of_parent (stretch.parent_eq cutFormed stretch.last_mem)),
      lastTexts]
    exact List.sublist_append_right _ _
  · have same : lead ++ cut.runningTexts parent ++ trail =
        lead' ++ cut.runningTexts parent ++ trail' := by
      rw [← topTexts, ← neutral.runningTexts_eq (lt_size_of_liesIn cutFormed inside isOld), placedTexts,
        neutral.runningTexts_eq isOld]
    rw [afterTexts]
    refine sublist_of_around same (topTexts ▸ nodup_runningTexts cutFormed top) ?_ ?_
    · have rightTexts : right.flatMap document.runningTexts = right.flatMap cut.runningTexts :=
        List.flatMap_congr fun id isRight =>
          neutral.runningTexts_eq (lt_size_of_parent (isChild id (by simp [isRight])))
      rw [replaced.runningTexts_eq, List.flatMap_append, rightTexts]
      exact List.sublist_append_right _ _
    · intro empty
      rw [runningTexts_of_showsChildren cutFormed (shows parent LiesIn.refl), stretch.children_eq,
        List.flatMap_append] at empty
      exact (List.append_eq_nil_iff.mp empty).2

include pending whole enclosed waiting rearranges in
/-- The trees behind the one around the region stay as they are. -/
theorem flatMap_later_tops {top : NodeId} {earlier others : List NodeId}
    (isTops : tops = earlier ++ top :: others) (opened : before.LiesIn top opening)
    (closed : before.LiesIn top closing) :
    others.flatMap after.runningTexts = others.flatMap before.runningTexts := by
  subst isTops
  have cutFormed := whole.wellFormed
  have isOld : parent.index < cut.size := parent_lt_size cutFormed enclosed.stretch.isParent
  have isTop : top ∈ earlier ++ top :: others := by simp
  have tops_lt : ∀ tree ∈ earlier ++ top :: others, tree.index < cut.size := whole.pending.inStore
  have pending' : document.Pending (earlier ++ top :: others) later :=
    (whole.pending.sublist (List.sublist_append_right inner later)).adds waiting.toAdds cutFormed
  have above := (enclosed.above parent LiesIn.refl).1
  have inside : document.LiesIn top parent := by
    rw [waiting.liesIn_iff cutFormed isOld, enclosed.liesIn_iff]
    rcases opened.total above with inside | inside
    · exact inside
    · have same := inside.eq_of_parent_none (pending.detached top isTop)
      exact same ▸ LiesIn.refl
  have cutPart := (pending.flatMap_other_tops whole.toRearranges fun other isOther notTop above =>
    above.elim (pending.not_liesIn_other_top isTop isOther notTop opened)
      (pending.not_liesIn_other_top isTop isOther notTop closed)).2
  have placedPart := (pending'.flatMap_other_tops rearranges fun other isOther notTop touched =>
    touched.elim (pending'.not_liesIn_other_top isTop isOther notTop inside)
      fun isNode => Nat.not_lt_of_le (waiting.isNew other isNode) (tops_lt other isOther)).2
  rw [placedPart, ← cutPart]
  exact List.flatMap_congr fun other isOther =>
    (waiting.neutral_new cutFormed).runningTexts_eq (tops_lt other (by simp [isOther]))

end Replacing

/-- The tags after a region stay pending when its copies replace the nodes around the tags. The last
one of these nodes, which may hold further tags, becomes a tree of its own. -/
theorem pending_of_replaceRange
    (pending : before.Pending tops (opening :: (inner ++ closing :: later)))
    (wellFormed : before.WellFormed) (unplaced : ∀ top ∈ tops, ¬rights.places top)
    (whole : WholeCut zone rights before cut tops opening closing inner later region)
    (enclosed : Enclosed before cut opening closing parent region.first region.last left range right)
    (waiting : Waiting cut document groups.flatten)
    (done : replaceRange groups region.first region.last document = .ok result after) :
    ChangesWithin (document.BelowRoots (parent :: groups.flatten))
        (.placing document groups.flatten) document after ∧
      ∃ earlier top others, tops = earlier ++ top :: others ∧
        after.Pending (earlier ++ region.last :: top :: others) later := by
  have cutFormed := whole.wellFormed
  have stretch := enclosed.stretch
  have isOld : parent.index < cut.size := parent_lt_size cutFormed stretch.isParent
  have lastParent := stretch.parent_eq cutFormed stretch.last_mem
  have last_lt := lt_size_of_parent lastParent
  rcases replaced_of_waiting waiting cutFormed (showsChildren_of_enclosed enclosed LiesIn.refl) stretch
    done with ⟨-, replaced, rearranges⟩
  refine ⟨rearranges.toChangesWithin, ?_⟩
  rcases pending.exists_top List.mem_cons_self with ⟨top, isTop, running⟩
  have inside := pending.liesIn_top wellFormed isTop running (enclosed.above parent LiesIn.refl).1
  rcases List.append_of_mem isTop with ⟨earlier, others, rfl⟩
  refine ⟨earlier, top, others, rfl, ?_⟩
  have pending' : document.Pending (earlier ++ top :: others) later :=
    (whole.pending.sublist (List.sublist_append_right inner later)).adds waiting.toAdds cutFormed
  have trees : after.Pending (earlier ++ top :: others) [] :=
    pending'.of_rearranges rearranges waiting.wellFormed
      (fun tree isTree => waiting.not_places (whole.pending.inStore tree isTree)) (by simp) (by simp)
      (by simp)
  have notTop : region.last ∉ earlier ++ top :: others := by
    intro isTree
    simp [whole.pending.detached _ isTree] at lastParent
  refine trees.insert_top notTop (replaced.detached _ stretch.last_mem)
    (Nat.lt_of_lt_of_le last_lt (Nat.le_trans waiting.size_le rearranges.size_le)) ?_ ?_ ?_
  · rw [rearranges.isProperties_eq (Nat.lt_of_lt_of_le last_lt waiting.size_le),
      (waiting.neutral_new cutFormed).isProperties_eq last_lt]
    rcases whole.lastNamed with named | named <;>
    · rw [isProperties_of_isNamed named]
      decide
  · rcases enclosed.texts inside with
      ⟨front, -, within, rest, ahead, lead, trail, topTexts, topTexts', -, lastTexts⟩
    have aroundPart := sublist_of_replaced enclosed waiting replaced rearranges cutFormed
      (whole.pending.detached top isTop) ((enclosed.liesIn_iff top).mpr inside) topTexts' lastTexts
    have othersPart := flatMap_later_tops pending whole enclosed waiting rearranges rfl
      (liesIn_of_mem_runningTexts wellFormed running)
      (liesIn_of_mem_runningTexts wellFormed (by simp [topTexts]))
    have sublist := (pending.sublists wellFormed topTexts).2
    refine sublist.trans ?_
    rw [← othersPart, List.flatMap_append, List.flatMap_cons, List.flatMap_cons,
      ← List.append_assoc (after.runningTexts _)]
    exact (aroundPart.append_right _).trans (List.sublist_append_right _ _)
  · intro text isLater
    rcases pending.untouched_seam wellFormed whole.toRearranges
      (fun id inside => (enclosed.above id ((enclosed.liesIn_iff id).mp inside)).1) isOld waiting
      isLater with ⟨⟨notAbove, notNode⟩, holders⟩
    refine rearranges.solitary waiting.wellFormed (pending'.lt_size waiting.wellFormed isLater)
      (pending'.solitary text isLater) (by simp [notAbove, notNode]) fun holder isHolder named => ?_
    simpa [not_or] using holders holder isHolder named

end Strategy

end WordTemplate
