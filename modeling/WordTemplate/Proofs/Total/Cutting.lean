import WordTemplate.Proofs.Container.Cutting
import WordTemplate.Proofs.Total.Splitting

/-!
# Cutting regions out succeeds

Two text nodes below one host, the opening one first, stand in paragraphs that are children of the
host. Splitting these paragraphs leaves a stretch of children between them, which is taken out.
-/

namespace WordTemplate

open Document Outcome

namespace Document

variable {document before middle after : Document} {zone : NodeId → Prop} {rights : Rights}
  {host paragraph tail opening closing parent first last id text : NodeId}
  {left right between lead mid trail inner later tops : List NodeId} {stray : NodeId → Prop}

theorem idxOf?_append_cons (notMember : id ∉ left) : (left ++ id :: right).idxOf? id = some left.length := by
  induction left with
  | nil => simp [List.idxOf?_cons]
  | cons head rest inductionHypothesis =>
      rw [List.mem_cons, not_or] at notMember
      rw [List.cons_append, List.idxOf?_cons, inductionHypothesis notMember.2]
      simp [Ne.symm notMember.1]

theorem closed_all (document : Document) :
    document.Closed (fun _ => True) ⟨fun _ => False, fun id => document.size ≤ id.index⟩ where
  child _ _ := trivial
  fresh _ := trivial
  freshPlaces := id

/-- Two children of a node and what is between them are a range of siblings. -/
theorem siblingRange_of_children (wellFormed : document.WellFormed)
    (children_eq : document.children parent = left ++ first :: (between ++ last :: right)) :
    document.siblingRange first last = .ok (first :: (between ++ [last])) := by
  have isParent : ∀ id ∈ left ++ first :: (between ++ last :: right),
      document.parent id = some parent := fun id isMember => by
    rwa [← wellFormed.mem_children_iff, children_eq]
  have nodup := wellFormed.nodup_children parent
  rw [children_eq] at nodup
  have start : (document.children parent).idxOf? first = some left.length := by
    rw [children_eq, idxOf?_append_cons fun isMember =>
      (List.nodup_append.mp nodup).2.2 first isMember first List.mem_cons_self rfl]
  have regrouped : left ++ first :: (between ++ last :: right) =
      (left ++ first :: between) ++ last :: right := by simp
  have stop : (document.children parent).idxOf? last = some (left ++ first :: between).length := by
    rw [children_eq, regrouped]
    rw [regrouped] at nodup
    exact idxOf?_append_cons fun isMember =>
      (List.nodup_append.mp nodup).2.2 last isMember last List.mem_cons_self rfl
  rw [siblingRange, isParent first (by simp)]
  simp only [isParent last (by simp), if_true, start, stop]
  rw [if_pos (by simp), children_eq, List.drop_left]
  congr 1
  have length : (left ++ first :: between).length - left.length + 1 =
      (first :: (between ++ [last])).length := by simp
  have regrouped' : first :: (between ++ last :: right) = (first :: (between ++ [last])) ++ right := by
    simp
  rw [length, regrouped', List.take_left]

/-- Of two texts below a host the earlier one is in the earlier child, or in the same child and
earlier there. -/
theorem children_around (wellFormed : document.WellFormed) (shows : document.showsChildren host = true)
    (isParent : document.parent first = some host) (isParent' : document.parent last = some host)
    (isOpening : opening ∈ document.runningTexts first) (isClosing : closing ∈ document.runningTexts last)
    (whole : document.runningTexts host = lead ++ opening :: (mid ++ closing :: trail)) :
    (first = last ∧ ∀ start rest, document.runningTexts first = start ++ opening :: rest →
        closing ∈ rest) ∨
      ∃ left between right, document.children host = left ++ first :: (between ++ last :: right) := by
  have nodup := nodup_runningTexts wellFormed host
  rw [← wellFormed.mem_children_iff] at isParent isParent'
  rcases List.append_of_mem isParent with ⟨left, right, children_eq⟩
  rcases List.append_of_mem isOpening with ⟨start, rest, texts_eq⟩
  have parts := runningTexts_of_showsChildren wellFormed shows
  rw [children_eq, List.flatMap_append, List.flatMap_cons, texts_eq] at parts
  -- What precedes the opening text is found twice, so both ways of splitting agree.
  have same : (left.flatMap document.runningTexts ++ start) ++ opening ::
      (rest ++ right.flatMap document.runningTexts) = lead ++ opening :: (mid ++ closing :: trail) := by
    rw [← whole, parts]
    simp
  have nodup' := nodup
  rw [whole, ← same] at nodup'
  rw [whole] at nodup
  rcases append_cons_inj nodup' same with ⟨leadEq, behindEq⟩
  have notLead : closing ∉ lead := fun isMember =>
    (List.nodup_append.mp nodup).2.2 closing isMember closing (by simp) rfl
  have differ : closing ≠ opening := by
    rintro rfl
    exact (List.nodup_cons.mp (List.nodup_append.mp nodup).2.1).1 (by simp)
  rw [children_eq, List.mem_append, List.mem_cons] at isParent'
  rcases isParent' with isLeft | rfl | isRight
  · refine absurd ?_ notLead
    rw [← leadEq, List.mem_append]
    exact Or.inl (List.mem_flatMap.mpr ⟨last, isLeft, isClosing⟩)
  · refine Or.inl ⟨rfl, fun start' rest' texts_eq' => ?_⟩
    have nodupFirst := nodup_runningTexts wellFormed last
    rw [texts_eq'] at nodupFirst
    rcases append_cons_inj nodupFirst (texts_eq'.symm.trans texts_eq) with ⟨rfl, rfl⟩
    rw [texts_eq, List.mem_append, List.mem_cons] at isClosing
    rcases isClosing with isStart | same | isRest
    · exact absurd (leadEq ▸ List.mem_append_right _ isStart) notLead
    · exact absurd same differ
    · exact isRest
  · rcases List.append_of_mem isRight with ⟨between, right', rfl⟩
    exact Or.inr ⟨left, between, right', children_eq⟩

end Document

namespace Extraction

variable {document : Document} {openingTag closingTag : Tag} {host : NodeId}
  {lead mid trail inner later tops : List NodeId} {stray : NodeId → Prop}

section Removing

variable {after : Document} {left between right : List NodeId} {first last tail tail' : NodeId}
  (housed : after.Housed stray host)
include housed

/-- The tail of the first cut can be taken out if the second cut went through it. -/
theorem succeeds_takeTail (around : after.children host = left ++ tail :: tail' :: right)
    (isFirst : first ∈ left) :
    Succeeds (do
        (Edit.detach tail : Edit Unit)
        return { kind := .fragments, nodes := [tail], first, last := tail' } : Extraction CutRegion)
      after fun region final => final.Housed stray host ∧ final.parent region.first = some host ∧
        ∀ node ∈ region.nodes, final.IsBlock stray node := by
  have wellFormed := housed.toWellFormed
  have isChild : after.parent tail = some host := by
    rw [← wellFormed.mem_children_iff, around]
    simp
  refine Succeeds.bind (P := fun _ s => after.detach tail = s) (Succeeds.of_done (a := ⟨⟩) rfl rfl) ?_
  rintro ⟨⟩ _ - rfl
  refine Succeeds.of_pure ⟨housed.detach tail, ?_, fun node isNode => ?_⟩
  · rw [← (wellFormed.detach tail).mem_children_iff, children_detach_of_around wellFormed around]
    exact List.mem_append_left _ isFirst
  · rw [List.mem_singleton] at isNode
    subst isNode
    exact (housed.isBlock isChild).drops (drops_detach wellFormed node)

/-- What is between two cuts can be taken out if they went through different children. -/
theorem succeeds_takeBetween
    (around : after.children host = left ++ first :: tail :: (between ++ last :: tail' :: right)) :
    Succeeds (do
        (Edit.detach tail : Edit Unit)
        (Edit.detach last : Edit Unit)
        let between ← (Edit.removeBetween first tail' : Edit (List NodeId))
        return {
          kind := .fragments
          nodes := tail :: (between ++ [last])
          first
          last := tail' } : Extraction CutRegion)
      after fun region final => final.Housed stray host ∧ final.parent region.first = some host ∧
        ∀ node ∈ region.nodes, final.IsBlock stray node := by
  have wellFormed := housed.toWellFormed
  have aroundTail : after.children host =
      (left ++ [first]) ++ tail :: (between ++ last :: tail' :: right) := by simp [around]
  have aroundLast : (after.detach tail).children host =
      (left ++ first :: between) ++ last :: tail' :: right := by
    simp [children_detach_of_around wellFormed aroundTail]
  have children_dropped : ((after.detach tail).detach last).children host =
      left ++ first :: (between ++ tail' :: right) := by
    simp [children_detach_of_around (wellFormed.detach tail) aroundLast]
  have dropped := (drops_detach wellFormed tail).append (drops_detach (wellFormed.detach tail) last)
  have droppedHoused := (housed.detach tail).detach last
  refine Succeeds.bind (P := fun _ s => after.detach tail = s) (Succeeds.of_done (a := ⟨⟩) rfl rfl) ?_
  rintro ⟨⟩ _ - rfl
  refine Succeeds.bind (P := fun _ s => (after.detach tail).detach last = s)
    (Succeeds.of_done (a := ⟨⟩) rfl rfl) ?_
  rintro ⟨⟩ _ - rfl
  refine Succeeds.bind (P := fun removed s => between = removed ∧ s.Housed stray host ∧
    Drops ((after.detach tail).detach last) s between) (Succeeds.of_edit ?_) ?_
  · refine Succeeds.of_step (Edit.siblingRange_eq_ok.mpr
      ⟨siblingRange_of_children droppedHoused.toWellFormed children_dropped, rfl⟩) ?_
    rw [List.drop_one, List.tail_cons, List.dropLast_concat]
    refine (Edit.succeeds_forM_detach droppedHoused).bind ?_
    rintro ⟨⟩ final removed finalHoused
    exact Succeeds.of_pure
      ⟨rfl, finalHoused, drops_of_forM_detach droppedHoused.toWellFormed removed⟩
  rintro _ final - ⟨rfl, finalHoused, drops⟩
  refine Succeeds.of_pure ⟨finalHoused, ?_, fun node isNode => ?_⟩
  · have nodup := droppedHoused.toWellFormed.nodup_children host
    rw [children_dropped] at nodup
    rw [drops.parent_eq, if_neg, ← droppedHoused.toWellFormed.mem_children_iff, children_dropped]
    · simp
    · exact fun isMember =>
        (List.nodup_cons.mp (List.nodup_append.mp nodup).2.1).1 (List.mem_append_left _ isMember)
  · have isChild : after.parent node = some host := by
      rw [← wellFormed.mem_children_iff, around]
      simp only [List.mem_append, List.mem_cons, List.not_mem_nil, or_false] at isNode ⊢
      tauto
    exact (housed.isBlock isChild).drops (dropped.append drops)

end Removing

/-- The child of the host that a tag stands in can be split at the tag. -/
theorem succeeds_splitChild {paragraph text : NodeId} {left right : List NodeId}
    (housed : document.Housed stray host) (pending : document.Pending tops (left ++ text :: right))
    (isParent : document.parent paragraph = some host)
    (isMember : text ∈ document.runningTexts paragraph) :
    Succeeds (Edit.splitParagraph paragraph text true) document fun tail after =>
      after.Housed stray host ∧ PendingCut (fun _ => True)
          ⟨fun _ => False, fun id => document.size ≤ id.index⟩ document after tops left right
          paragraph tail text ∧
        ∃ left right, document.children host = left ++ paragraph :: right ∧
          after.children host = left ++ paragraph :: tail :: right := by
  have wellFormed := housed.toWellFormed
  have isText := isText_of_mem_runningTexts wellFormed isMember
  have inside := liesIn_of_mem_runningTexts wellFormed isMember
  rcases housed.exists_sits isText housed.counts (inside.trans (LiesIn.parent isParent))
    housed.isHost with ⟨other, run, unit, sits⟩
  obtain rfl : other = paragraph := by
    by_contra differ
    exact not_liesIn_of_siblings wellFormed sits.hostIs isParent differ sits.paragraph_lies inside
  refine (Edit.succeeds_splitParagraph housed.toTiered housed.counts isText sits).imp ?_
  intro tail after done afterHoused
  have cut := Edit.pendingCut_of_splitParagraph wellFormed (closed_all document)
    (fun top isTop => Nat.not_le_of_lt (pending.inStore top isTop)) pending (fun _ _ => trivial) done
  rcases cut.beside with ⟨outer, before, behind, isOuter, -, -, children_eq, children_eq'⟩
  obtain rfl : host = outer := by rwa [isParent, Option.some.injEq] at isOuter
  exact ⟨afterHoused, cut, before, behind, children_eq, children_eq'⟩

/-- Two tags below a host, the opening one first, can be cut apart. What is between them are
paragraphs as far as it bears text. -/
theorem succeeds_cutFragments (housed : document.Housed stray host)
    (pending : document.Pending tops
      (openingTag.textNode :: (inner ++ closingTag.textNode :: later)))
    (whole : document.runningTexts host =
      lead ++ openingTag.textNode :: (mid ++ closingTag.textNode :: trail)) :
    Succeeds (cutFragments openingTag closingTag) document fun region after =>
      after.Housed stray host ∧ after.parent region.first = some host ∧
        ∀ node ∈ region.nodes, after.IsBlock stray node := by
  have tiered := housed.toTiered
  have wellFormed := housed.toWellFormed
  have isOpening : openingTag.textNode ∈ document.runningTexts host := by simp [whole]
  have isClosing : closingTag.textNode ∈ document.runningTexts host := by simp [whole]
  have openingText := isText_of_mem_runningTexts wellFormed isOpening
  have closingText := isText_of_mem_runningTexts wellFormed isClosing
  rcases tiered.exists_sits openingText housed.counts
    (liesIn_of_mem_runningTexts wellFormed isOpening) housed.isHost with ⟨first, run, unit, sits⟩
  rcases tiered.exists_sits closingText housed.counts
    (liesIn_of_mem_runningTexts wellFormed isClosing) housed.isHost with ⟨last, run', unit', sits'⟩
  have inFirst := mem_runningTexts_of_liesIn wellFormed isOpening (LiesIn.parent sits.hostIs)
    sits.paragraph_lies
  have inLast := mem_runningTexts_of_liesIn wellFormed isClosing (LiesIn.parent sits'.hostIs)
    sits'.paragraph_lies
  refine Succeeds.of_step
    (paragraph_eq_ok.mpr ⟨sits.paragraph?_eq wellFormed openingText, rfl⟩) ?_
  refine Succeeds.of_step
    (paragraph_eq_ok.mpr ⟨sits'.paragraph?_eq wellFormed closingText, rfl⟩) ?_
  refine (succeeds_splitChild housed
    (show document.Pending tops ([] ++ openingTag.textNode :: _) from pending) sits.hostIs
    inFirst).of_edit.bind ?_
  rintro tail middle - ⟨middleHoused, firstCut, left, right, children_before, children_eq⟩
  have tailParent : middle.parent tail = some host := by
    rw [← middleHoused.toWellFormed.mem_children_iff, children_eq]
    simp
  rcases children_around wellFormed housed.shows sits.hostIs sits'.hostIs inFirst inLast whole with
    ⟨rfl, later⟩ | ⟨left', between, right', children_before'⟩
  · -- Both tags stand in one paragraph, so the second cut goes through the tail of the first one.
    rw [if_pos rfl]
    rcases firstCut.texts with ⟨start, rest, texts_eq, -, tail_texts⟩
    refine (succeeds_splitChild middleHoused firstCut.pending tailParent
      (tail_texts ▸ later start rest texts_eq)).of_edit.bind ?_
    rintro tail' after - ⟨afterHoused, -, left', right', children_middle, children_after⟩
    have regrouped : middle.children host = (left ++ [first]) ++ tail :: right := by
      simp [children_eq]
    rcases append_cons_inj (regrouped ▸ middleHoused.toWellFormed.nodup_children host)
      (regrouped.symm.trans children_middle) with ⟨rfl, rfl⟩
    exact succeeds_takeTail afterHoused children_after (by simp)
  · have nodup := wellFormed.nodup_children host
    rcases append_cons_inj (children_before ▸ nodup) (children_before.symm.trans children_before') with
      ⟨rfl, rfl⟩
    have differ : first ≠ last := by
      rintro rfl
      rw [children_before] at nodup
      exact (List.nodup_cons.mp (List.nodup_append.mp nodup).2.1).1 (by simp)
    rw [if_neg differ]
    have lastParent : middle.parent last = some host := by
      rw [← middleHoused.toWellFormed.mem_children_iff, children_eq]
      simp
    have stays := firstCut.runningTexts_sibling wellFormed sits.hostIs sits.paragraph_lies sits'.hostIs
      differ.symm
    refine (succeeds_splitChild middleHoused firstCut.pending lastParent
      (stays ▸ inLast)).of_edit.bind ?_
    rintro tail' after - ⟨afterHoused, -, left', right'', children_middle, children_after⟩
    have regrouped : middle.children host = (left ++ first :: tail :: between) ++ last :: right' := by
      simp [children_eq]
    rcases append_cons_inj (regrouped ▸ middleHoused.toWellFormed.nodup_children host)
      (regrouped.symm.trans children_middle) with ⟨rfl, rfl⟩
    have around : after.children host =
        left ++ first :: tail :: (between ++ last :: tail' :: right') := by simp [children_after]
    exact succeeds_takeBetween afterHoused around

end Extraction

end WordTemplate
