import WordTemplate.Proofs.Filling.Spelling
import WordTemplate.Proofs.Total.Writing

/-!
# Taking the tags of a template out

Text nodes below a host that spell a template are cut at the tags, and each tag is gathered in a text
node of its own and read. The host stays a host, and its text nodes then show the template.
-/

namespace WordTemplate

open Document Outcome

variable {document after : Document} {host top text : NodeId} {stray : NodeId → Prop}

namespace Edit

/-! ## Cutting and gathering text keeps a host -/

theorem housed_of_setText {characters : String} {result : Unit} (housed : document.Housed stray host)
    (done : setText text characters document = .ok result after) :
    after.Housed stray host ∧ after.isText text = true := by
  rcases setText_eq_ok.mp done with ⟨isText, rfl⟩
  rcases Nat.lt_or_ge text.index document.size with inStore | beyond
  · have same := sameShape_setText housed.toWellFormed isText inStore characters
    exact ⟨same.housed housed, (same.isText_eq text).trans isText⟩
  · rw [setContent, modifyNode_of_size_le beyond]
    exact ⟨housed, isText⟩

theorem succeeds_pruneUpwards (housed : document.Housed stray host) (kept : NodeId)
    (candidates : List NodeId) :
    Succeeds (pruneUpwards kept candidates) document fun _ after => after.Housed stray host := by
  induction candidates generalizing document with
  | nil => exact Succeeds.of_pure housed
  | cons candidate outer inductionHypothesis =>
      refine Succeeds.of_get ?_
      split
      · exact Succeeds.of_pure housed
      · exact Succeeds.of_step (a := ⟨⟩) rfl (inductionHypothesis (housed.detach candidate))

theorem succeeds_removeAbsorbed (housed : document.Housed stray host) (kept id : NodeId) :
    Succeeds (removeAbsorbed kept id) document fun _ after => after.Housed stray host :=
  Succeeds.of_get (Succeeds.of_step (a := ⟨⟩) rfl (succeeds_pruneUpwards (housed.detach id) kept _))

theorem housed_of_joinText {start stop : NodeId} {result : Unit} (housed : document.Housed stray host)
    (done : joinText start stop document = .ok result after) : after.Housed stray host := by
  rcases joinText_eq_ok.mp done with
    ⟨-, rfl⟩ | ⟨-, absorbed, extended, pruned, -, setDone, pruneDone, rfl⟩
  · exact housed
  have housed' : pruned.Housed stray host := by
    refine forM_invariant (·.Housed stray host) (fun id _ before after housed done => ?_)
      (housed_of_setText housed setDone).1 pruneDone
    rcases succeeds_removeAbsorbed housed start id with ⟨⟨⟩, after', done', housed'⟩
    rw [done', EStateM.Result.ok.injEq] at done
    exact done.2 ▸ housed'
  exact (sameShape_keepingSpace housed'.toWellFormed start).1.housed housed'

/-- A copy of the text element of a text node, filled with a new text node, is placed behind it. -/
theorem housed_of_secondHalf {tailed filled : Document} {tail unit : NodeId} {result : Unit}
    (housed : document.Housed stray host) (retains : Retains document tailed)
    (tiered : tailed.Tiered stray) (isNew : document.size ≤ tail.index)
    (tailIsText : tailed.isText tail = true) (counts : ¬stray text)
    (text_lt : text.index < document.size) (isText : tailed.isText text = true)
    (isUnit : tailed.textElement? text = some unit) (fills : FillsCopy tailed filled unit tail)
    (placeDone : insertAfter tailed.nextId unit filled = .ok result after) :
    after.Housed stray host := by
  rcases Option.filter_eq_some_iff.mp isUnit with ⟨unitIs, unitNamed⟩
  have tailed_lt := Nat.lt_of_lt_of_le text_lt retains.size_le
  have unit_lt := parent_lt_size tiered.toWellFormed unitIs
  have copiedTiered := tiered.add (tailed.content unit)
  have copyNamed : filled.isNamed tailed.nextId Word.Name.text = true := by
    rw [fills.isNamed_copy, unitNamed]
  -- The new text goes into the copy of the text element.
  have copiedNamed := (fills.moves.isNamed_eq tailed.nextId Word.Name.text).symm.trans copyNamed
  have tailFits : (tailed.add (tailed.content unit)).Fits stray tail tailed.nextId := by
    refine .of_isNamed (housed.not_stray_new isNew) (fun _ =>
      ⟨stands_of_detached (by rw [parent_add, parent_nextId]), 0, tier?_of_isText ?_,
        tier?_of_isNamed copiedNamed⟩) copiedNamed (by decide) (by decide)
    rw [← fills.moves.isText_eq, fills.isText_eq fills.inStore, tailIsText]
  have filledTiered := copiedTiered.moves fills.moves tailFits
  -- The copy goes behind the text element.
  rcases moves_of_insertAfter fills.wellFormed fills.nextId_lt placeDone with
    ⟨run, left, right, runIs, -, placeMoves⟩
  have text_ne : text ≠ tail := fun same => Nat.not_lt_of_le isNew (same ▸ text_lt)
  have unitHasText : filled.HasText stray unit := by
    refine ⟨text, ?_, counts, LiesIn.parent ?_⟩
    · rw [fills.isText_eq tailed_lt, isText]
    · rw [fills.parent_eq text_ne, unitIs]
  have unitTier : filled.tier? unit = some 1 :=
    tier?_of_isNamed ((fills.isNamed_eq unit_lt _).trans unitNamed)
  have supports := filledTiered.supports runIs unitHasText
  have runNamed : filled.isNamed run Word.Name.run = true := by
    rcases supports with ⟨tier, isUnit, isRun⟩
    rw [unitTier] at isUnit
    cases isUnit
    exact isNamed_run_of_tier? isRun
  have copyFits : filled.Fits stray tailed.nextId run := by
    refine .of_isNamed (housed.not_stray_new retains.size_le) (fun _ =>
      ⟨filledTiered.stands (unitHasText.above (LiesIn.parent runIs)), supports.congr ?_ rfl⟩)
      runNamed (by decide) (by decide)
    rw [unitTier]
    exact tier?_of_isNamed copyNamed
  have extended : Extends document filled run :=
    (Extends.of_retains (retains.trans (retains_add tailed _))).moves fills.moves
      copiedTiered.toWellFormed isNew (Or.inr retains.size_le) fills.detached_copied
  exact (extended.moves placeMoves fills.wellFormed retains.size_le (Or.inl rfl)
    fills.parent_copy).housed housed (filledTiered.moves placeMoves copyFits)

/-- Splitting a text node that is not stray keeps a host. -/
theorem housed_of_splitText {offset : Nat} {tail : NodeId} (housed : document.Housed stray host)
    (counts : ¬stray text) (done : splitText text offset document = .ok tail after) :
    after.Housed stray host ∧ ¬stray tail := by
  have wellFormed := housed.toWellFormed
  rcases splitText_eq_ok.mp done with ⟨first, second, -, isText, rfl, placed⟩
  have setDone : setText text (String.ofList first) document = .ok ⟨⟩ _ :=
    setText_eq_ok.mpr ⟨isText, rfl⟩
  have housed' := (housed_of_setText housed setDone).1
  have shortenedSize := size_setContent document text (.text (String.ofList first))
  refine ⟨?_, housed.not_stray_new (Nat.le_refl _)⟩
  rcases placed with ⟨noUnit, placeDone⟩ | ⟨unit, copy, copied, filled, placed, isUnit, copyDone,
    fillDone, placeDone, rfl⟩
  · -- Text that has a parent is in a text element, and nothing can be placed beside other text.
    rcases moves_of_insertAfter wellFormed.snip (by simp [nextId]) placeDone with
      ⟨outer, -, -, isOuter, -⟩
    rw [parent_snip] at isOuter
    rw [textElement?_snip wellFormed isText (lt_size_of_parent isOuter)] at noUnit
    rcases housed.supports isOuter ⟨text, isText, counts, LiesIn.refl⟩ with ⟨tier, isTier, isUpper⟩
    rw [tier?_of_isText isText] at isTier
    cases isTier
    rw [textElement?, isOuter, Option.filter_some, if_pos (isNamed_text_of_tier? isUpper)] at noUnit
    cases noUnit
  · rcases copyNode_eq_ok.mp copyDone with ⟨rfl, rfl⟩
    have text_lt : text.index < document.size := by
      have unitIs := (Option.filter_eq_some_iff.mp isUnit).1
      rw [parent_snip] at unitIs
      exact lt_size_of_parent unitIs
    have fills := FillsCopy.of_done wellFormed.snip (by rw [parent_snip, parent_nextId])
      (by simp [nextId]) fillDone
    have half := housed_of_secondHalf housed' (retains_add _ _) (housed'.toTiered.add _)
      (Nat.le_of_eq shortenedSize) isText_snip_nextId counts (shortenedSize ▸ text_lt)
      ((isText_snip wellFormed isText text_lt text_lt).trans isText) isUnit fills placeDone
    have spaced :=
      (sameShape_setAttribute half.toWellFormed unit Word.Name.space "preserve").1.housed half
    exact (sameShape_setAttribute spaced.toWellFormed _ Word.Name.space "preserve").1.housed spaced

end Edit

namespace Extraction

variable {delimiters : Delimiters} {node : NodeId} {marks : TagMarks} {aside : Aside}

theorem housed_of_isolate {first : NodeId} {offset : Nat} (housed : document.Housed stray host)
    (begins : document.tagBegin delimiters marks.start = .ok (first, offset))
    (firstCounts : ¬stray first) (stopCounts : ¬stray marks.stop.node)
    (done : isolate delimiters marks document = .ok node after) : after.Housed stray host := by
  rcases isolate_eq_ok.mp done with ⟨first', offset', trimmed, begins', trims, gathers⟩
  rw [begins, Except.ok.injEq, Prod.mk.injEq] at begins'
  rcases begins' with ⟨rfl, rfl⟩
  have trimmedHoused : trimmed.Housed stray host := by
    split at trims
    · rcases trims with ⟨tail, splitDone⟩
      exact (Edit.housed_of_splitText housed stopCounts splitDone).1
    · exact trims ▸ housed
  rw [gather] at gathers
  split at gathers
  · simp only [bind_eq_ok, edit_eq_ok, pure_eq_ok] at gathers
    rcases gathers with ⟨⟨⟩, joined, joinDone, -, rfl⟩
    exact Edit.housed_of_joinText trimmedHoused joinDone
  · simp only [bind_eq_ok, edit_eq_ok, pure_eq_ok] at gathers
    rcases gathers with ⟨tail, cut, splitDone, ⟨⟩, joined, joinDone, -, rfl⟩
    exact Edit.housed_of_joinText
      (Edit.housed_of_splitText trimmedHoused firstCounts splitDone).1 joinDone

/-- Gathering the texts of tags keeps a host. -/
theorem housed_of_isolateAll {pairs : List TagMarks} {regions : List TagRegion} {lead : List Place}
    {nodes : List NodeId} (housed : document.Housed stray host)
    (counts : ¬stray top) (splittable : document.Splittable aside top)
    (fits : List.Forall₂ (TagRegion.Fits delimiters) pairs regions)
    (nonempty : delimiters.tagStart.toList ≠ [])
    (free : ∀ region ∈ regions, ∀ place ∈ region.tag, aside.Free place.node)
    (split : document.places (document.texts top) = lead ++ regions.flatMap TagRegion.places)
    (done : isolateAll delimiters pairs document = .ok nodes after) : after.Housed stray host := by
  induction fits generalizing lead nodes after with
  | nil =>
      rw [isolateAll, pure_eq_ok] at done
      exact done.2 ▸ housed
  | @cons marks region pairs regions here laterFits inductionHypothesis =>
      simp only [isolateAll, bind_eq_ok, pure_eq_ok] at done
      rcases done with ⟨laterNodes, middle, laterDone, node, _, isolateDone, rfl, rfl⟩
      have split' : document.places (document.texts top) =
          (lead ++ region.places) ++ regions.flatMap TagRegion.places := by
        rw [split, List.flatMap_cons, List.append_assoc]
      have free' : ∀ region ∈ regions, ∀ place ∈ region.tag, aside.Free place.node :=
        fun other isMember => free other (List.mem_cons_of_mem _ isMember)
      have middleHoused := inductionHypothesis free' split' laterDone
      rcases exists_isolateAll splittable laterFits nonempty free' split' with
        ⟨parts, middle', laterDone', isolated⟩
      obtain rfl : middle = middle' := by
        rw [laterDone, EStateM.Result.ok.injEq] at laterDone'
        exact laterDone'.2
      rcases isolated.texts_eq with ⟨front, kept, texts, isFront, -, -⟩
      have placeCounts : ∀ place ∈ region.places, ¬stray place.node := by
        intro place isMember
        have isThere : place ∈ middle.places front := by
          rw [isFront]
          exact List.mem_append_right _ isMember
        rcases List.append_of_mem isThere with ⟨earlier, later, around⟩
        rcases exists_of_places_eq around with ⟨earlierIds, laterIds, -, -, rfl, -⟩
        refine middleHoused.not_stray counts ((mem_texts_iff middleHoused.toWellFormed).mp ?_).1
        rw [texts]
        simp
      rcases isOpening : region.opening with _ | ⟨place, opening⟩
      · have opens := here.opens
        rw [isOpening] at opens
        exact absurd opens.symm nonempty
      rcases here.start_eq with ⟨ahead, startChar, opening_eq⟩
      rcases here.stop_eq with ⟨inside, stopChar, closing_eq⟩
      have around : middle.places front = lead ++ region.opening ++
          (region.inner ++ region.closing ++ region.following) := by
        rw [isFront, TagRegion.places, TagRegion.tag]
        simp
      have begins := tagBegin_of_places isolated.splittable.wellFormed isolated.splittable.plain
        isolated.splittable.inStore texts around opening_eq here.opens
        (by rw [isOpening]; rfl : region.opening.head? = some place)
      refine housed_of_isolate middleHoused begins (placeCounts place ?_)
        (placeCounts (marks.stop.place stopChar) ?_) isolateDone
      · rw [TagRegion.places, TagRegion.tag, isOpening]
        simp
      · rw [TagRegion.places, TagRegion.tag, closing_eq]
        simp

/-! ## The tags of a text that spells a template can be read -/

theorem read_relocated {tag : Tag} {rawText : String} (reads : Tag.read delimiters node rawText = .ok tag)
    (other : NodeId) : Tag.read delimiters other rawText = .ok (tag.relocated other) := by
  unfold Tag.read at reads ⊢
  rcases splits : Tag.splitOptions delimiters (Tag.innerText delimiters rawText) with
    cause | ⟨head, options⟩
  · simp only [splits, reduceCtorEq] at reads
  · simp only [splits, Except.ok.injEq] at reads ⊢
    rw [← reads]
    rfl

/-- Tags that can be read can be taken. -/
theorem exists_takeAll {nodes : List NodeId} {tags : List Tag} (wellFormed : document.WellFormed)
    (areTexts : ∀ node ∈ nodes, document.isText node = true)
    (inStore : ∀ node ∈ nodes, node.index < document.size) (distinct : nodes.Nodup)
    (reads : List.Forall₂ (fun node tag => Tag.read delimiters node (document.textOf node) = .ok tag)
      nodes tags) :
    ∃ after, nodes.mapM (takeTag delimiters) document = .ok tags after := by
  induction nodes generalizing document tags with
  | nil =>
      cases reads
      exact ⟨document, rfl⟩
  | cons node nodes inductionHypothesis =>
      rcases List.forall₂_cons_left_iff.mp reads with ⟨tag, tags, read, laterReads, rfl⟩
      have isText := areTexts node List.mem_cons_self
      have isOld := inStore node List.mem_cons_self
      have same := sameShape_setText wellFormed isText isOld ""
      rw [List.nodup_cons] at distinct
      have taken : takeTag delimiters node document = .ok tag (document.setContent node (.text "")) := by
        rw [takeTag, get_bind]
        exact bind_eq_ok.mpr ⟨tag, document, ofExcept_eq_ok.mpr ⟨read, rfl⟩,
          bind_eq_ok.mpr ⟨⟨⟩, _, edit_eq_ok.mpr (Edit.setText_eq_ok.mpr ⟨isText, rfl⟩), rfl⟩⟩
      have reads : List.Forall₂ (fun other tag => Tag.read delimiters other
          ((document.setContent node (.text "")).textOf other) = .ok tag) nodes tags := by
        rw [List.forall₂_iff_zip] at laterReads ⊢
        refine ⟨laterReads.1, fun {other tag} isMember => ?_⟩
        rw [textOf_setText isOld, if_neg]
        · exact laterReads.2 isMember
        · rintro rfl
          exact distinct.1 (List.of_mem_zip isMember).1
      rcases inductionHypothesis same.wellFormed
        (fun other isMember => (same.isText_eq other).trans
          (areTexts other (List.mem_cons_of_mem _ isMember)))
        (fun other isMember => same.size_eq ▸ inStore other (List.mem_cons_of_mem _ isMember))
        distinct.2 reads with ⟨after, done⟩
      refine ⟨after, ?_⟩
      rw [List.mapM_cons]
      exact bind_eq_ok.mpr ⟨tag, _, taken, bind_eq_ok.mpr ⟨tags, after, done, rfl⟩⟩

/-- What the text nodes of tags and of the literals between them show once the tags are taken. -/
theorem exists_shown {parts : List TagPart} {tagged : List (Tag × TagRegion)}
    (carries : List.Forall₂ (TagPart.Carries document) parts (tagged.map Prod.snd))
    (reads : ∀ held ∈ tagged, Tag.read delimiters held.1.textNode
      (String.ofList (held.2.tag.map Place.char)) = .ok held.1) :
    ∃ tags pieces, List.Forall₂ (fun node tag =>
        Tag.read delimiters node (document.textOf node) = .ok tag) (parts.map TagPart.node) tags ∧
      Piece.tags pieces = tags ∧
      pieces.map Piece.bare = (tagged.flatMap fun held =>
        .tag held.1 :: held.2.following.map (.char ·.char)).map Piece.bare ∧
      ∀ after : Document, (∀ part ∈ parts, ∀ id ∈ part.literals, after.textOf id = document.textOf id) →
        after.Shows (parts.flatMap TagPart.texts) pieces := by
  induction tagged generalizing parts with
  | nil =>
      cases carries
      exact ⟨[], [], .nil, rfl, rfl, fun _ _ => .nil⟩
  | cons held tagged inductionHypothesis =>
      rw [List.map_cons] at carries
      rcases List.forall₂_cons_right_iff.mp carries with ⟨part, parts, here, later, rfl⟩
      rcases inductionHypothesis later fun held isMember => reads held (List.mem_cons_of_mem _ isMember) with
        ⟨tags, pieces, areRead, areTags, alike, shows⟩
      have read := read_relocated (reads held List.mem_cons_self) part.node
      rw [← here.tag, String.ofList_toList] at read
      refine ⟨held.1.relocated part.node :: tags,
        .tag (held.1.relocated part.node) :: (held.2.following.map (.char ·.char) ++ pieces),
        .cons read areRead, ?_, ?_, fun after same => ?_⟩
      · simp [areTags]
      · simp [alike]
      · have literals : after.Shows part.literals (held.2.following.map (.char ·.char)) := by
          have shown := Shows.of_texts after part.literals
          rwa [segmentText_congr (same part List.mem_cons_self), here.following, List.map_map] at shown
        exact @Shows.tag after (held.1.relocated part.node) _ _
          (literals.append (shows after fun part isMember => same part (List.mem_cons_of_mem _ isMember)))

/-- The tags below a node whose text spells a template can be taken, and the node shows the template
then. -/
theorem succeeds_takeTags {marks : List DelimiterMark} {pieces : List Piece}
    (housed : document.Housed stray host) (counts : ¬stray top)
    (splittable : document.Splittable Aside.none top)
    (areMarks : marks = (document.places (document.texts top)).filterMap Place.mark?)
    (spells : Spells (document.segmentText (document.texts top)) pieces) :
    Succeeds (takeTags .standard marks) document fun tags after => after.Housed stray host ∧
      after.Splittable Aside.none top ∧ ∃ shown, Piece.tags shown = tags ∧
        shown.map Piece.bare = pieces.map Piece.bare ∧ after.Shows (after.texts top) shown := by
  rw [← Scan.map_char_places] at spells
  rcases spells.exists_regions document with
    ⟨pairs, lead, tagged, paired, split, fits, reads, rfl⟩
  have nonempty : Delimiters.standard.tagStart.toList ≠ [] := by decide
  have free : ∀ region ∈ tagged.map Prod.snd, ∀ place ∈ region.tag, Aside.none.Free place.node :=
    fun _ _ place _ => Aside.free_none place.node
  rcases exists_isolateAll splittable fits nonempty free split with
    ⟨parts, middle, isolateDone, isolated⟩
  have middleHoused := housed_of_isolateAll housed counts splittable fits nonempty free split isolateDone
  rcases isolated.texts_eq with ⟨front, kept, texts, isLead, thins, carries⟩
  have carries := carries fun _ => not_false
  obtain rfl := thins.eq fun _ => not_false
  rcases exists_shown carries reads with ⟨tags, shown, areRead, rfl, alike, shows⟩
  have wellFormed := middleHoused.toWellFormed
  have ordered := isolated.ordered
  have areTexts : ∀ node ∈ parts.map TagPart.node, middle.isText node = true := fun node isNode =>
    ((mem_texts_iff wellFormed).mp (ordered.subset isNode)).2
  have inStore : ∀ node ∈ parts.map TagPart.node, node.index < middle.size := fun node isNode =>
    lt_size_of_mem_texts wellFormed isolated.splittable.inStore (ordered.subset isNode)
  have distinct := (nodup_texts wellFormed top).sublist ordered
  rcases exists_takeAll wellFormed areTexts inStore distinct areRead with ⟨after, takeDone⟩
  rcases takeAll_cases wellFormed areTexts inStore distinct with
    ⟨_, _, _, failed⟩ | ⟨tags, after', takeDone', same, -, -, emptied⟩
  · rw [takeDone] at failed
    cases failed
  rw [takeDone, EStateM.Result.ok.injEq] at takeDone'
  rcases takeDone' with ⟨rfl, rfl⟩
  have done : takeTags .standard marks document = .ok (Piece.tags shown) after := by
    rw [takeTags, get_bind]
    exact bind_eq_ok.mpr ⟨pairs, document, ofExcept_eq_ok.mpr ⟨areMarks ▸ paired, rfl⟩,
      bind_eq_ok.mpr ⟨_, middle, isolateDone, takeDone⟩⟩
  refine Succeeds.of_done done ⟨same.housed middleHoused,
    same.splittable isolated.splittable, lead.map (.char ·.char) ++ shown, by simp, ?_, ?_⟩
  · rw [List.map_append, List.map_append, alike]
  have nodup := nodup_texts wellFormed top
  rw [texts] at nodup
  have unchanged := TagPart.textOf_emptied nodup emptied
  have leadShown : after.Shows front (lead.map (.char ·.char)) := by
    have shown := Shows.of_texts after front
    rwa [segmentText_congr fun id isMember => unchanged id (List.mem_append_left _ isMember),
      ← Scan.map_char_places, isLead, List.map_map] at shown
  rw [same.texts_eq wellFormed, texts]
  refine leadShown.append (shows after fun part isPart id isMember => unchanged id ?_)
  exact List.mem_append_right _ (List.mem_flatMap.mpr ⟨part, isPart, isMember⟩)

end Extraction

end WordTemplate
