import WordTemplate.Proofs.Document.Local
import WordTemplate.Proofs.Word.TextNode

/-!
# Joining text nodes

Joining a stretch of text nodes takes all but the first out of the document, and with them the
elements that are left with nothing to carry. A run that is left with its properties only goes away
with the text that stands in them, which is lossy; no text before the stretch is lost that way.
-/

namespace WordTemplate

namespace Document

/-- The second list is the first one without some lossy nodes. -/
inductive Aside.Thins (aside : Aside) : List NodeId → List NodeId → Prop
  | nil : Thins aside [] []
  | keep {ids kept : List NodeId} (id : NodeId) (rest : Thins aside ids kept) :
      Thins aside (id :: ids) (id :: kept)
  | drop {ids kept : List NodeId} {id : NodeId} (lossy : aside.lossy id)
      (rest : Thins aside ids kept) : Thins aside (id :: ids) kept

namespace Aside.Thins

variable {aside : Aside} {ids ids' kept kept' fewer : List NodeId}

theorem refl (aside : Aside) : ∀ ids : List NodeId, aside.Thins ids ids
  | [] => .nil
  | id :: ids => .keep id (refl aside ids)

theorem trans (first : aside.Thins ids kept) (second : aside.Thins kept fewer) :
    aside.Thins ids fewer := by
  induction first generalizing fewer with
  | nil => exact second
  | keep id _ inductionHypothesis =>
      cases second with
      | keep _ rest => exact .keep id (inductionHypothesis rest)
      | drop lossy rest => exact .drop lossy (inductionHypothesis rest)
  | drop lossy _ inductionHypothesis => exact .drop lossy (inductionHypothesis second)

theorem append (first : aside.Thins ids kept) (second : aside.Thins ids' kept') :
    aside.Thins (ids ++ ids') (kept ++ kept') := by
  induction first with
  | nil => exact second
  | keep id _ inductionHypothesis => exact .keep id inductionHypothesis
  | drop lossy _ inductionHypothesis => exact .drop lossy inductionHypothesis

theorem filter (thins : aside.Thins ids kept) (keep : NodeId → Bool) :
    aside.Thins (ids.filter keep) (kept.filter keep) := by
  induction thins with
  | nil => exact .nil
  | keep id _ inductionHypothesis =>
      by_cases isKept : keep id = true
      · simpa [isKept] using inductionHypothesis.keep id
      · simpa [isKept] using inductionHypothesis
  | @drop _ _ id lossy _ inductionHypothesis =>
      by_cases isKept : keep id = true
      · simpa [isKept] using inductionHypothesis.drop lossy
      · simpa [isKept] using inductionHypothesis

/-- Lossy nodes may be left out. -/
theorem of_filter {keep : NodeId → Bool} (lossy : ∀ id ∈ ids, keep id = false → aside.lossy id) :
    aside.Thins ids (ids.filter keep) := by
  induction ids with
  | nil => exact .nil
  | cons id ids inductionHypothesis =>
      have rest := inductionHypothesis fun other isMember =>
        lossy other (List.mem_cons_of_mem _ isMember)
      by_cases isKept : keep id = true
      · simpa [isKept] using rest.keep id
      · simpa [isKept] using rest.drop (lossy id List.mem_cons_self (by simpa using isKept))

/-- Nodes that are not lossy stay. -/
theorem sublist_of_not_lossy (thins : aside.Thins ids kept) (sublist : fewer.Sublist ids)
    (notLossy : ∀ id ∈ fewer, ¬aside.lossy id) : fewer.Sublist kept := by
  induction thins generalizing fewer with
  | nil => exact sublist
  | keep id _ inductionHypothesis =>
      rcases List.sublist_cons_iff.mp sublist with inside | ⟨others, rfl, inside⟩
      · exact (inductionHypothesis inside notLossy).cons id
      · exact (inductionHypothesis inside fun other isMember =>
          notLossy other (List.mem_cons_of_mem _ isMember)).cons_cons id
  | @drop _ _ id lossy _ inductionHypothesis =>
      rcases List.sublist_cons_iff.mp sublist with inside | ⟨others, rfl, inside⟩
      · exact inductionHypothesis inside notLossy
      · exact absurd lossy (notLossy id List.mem_cons_self)

/-- Nothing is left out where no node is lossy. -/
theorem eq (thins : aside.Thins ids kept) (none : ∀ id, ¬aside.lossy id) : kept = ids := by
  induction thins with
  | nil => rfl
  | keep id _ inductionHypothesis => rw [inductionHypothesis]
  | drop lossy _ _ => exact absurd lossy (none _)

end Aside.Thins

variable {document : Document} {root kept candidate id text : NodeId} {left right rest : List NodeId}
  {aside : Aside}

/-- A node above an earlier and a later text node is above those between them. -/
theorem liesIn_between (wellFormed : document.WellFormed) (plain : document.PlainBelow root)
    (whole : document.texts root = left ++ kept :: rest) (isLeft : text ∈ left) (isRest : id ∈ rest)
    (aboveText : document.LiesIn candidate text) (above : document.LiesIn candidate id) :
    document.LiesIn candidate kept := by
  have below : ∀ other ∈ left ++ kept :: rest,
      document.LiesIn root other ∧ document.isText other = true := fun other isMember =>
    (mem_texts_iff wellFormed).mp (whole ▸ isMember)
  have idBelow := below id (by simp [isRest])
  have textBelow := below text (by simp [isLeft])
  rcases above.total idBelow.1 with inside | inside
  · exact (below kept (by simp)).1.trans inside
  have isText : text ∈ document.texts candidate := (mem_texts_iff wellFormed).mpr ⟨aboveText, textBelow.2⟩
  have isId : id ∈ document.texts candidate := (mem_texts_iff wellFormed).mpr ⟨above, idBelow.2⟩
  rcases exists_texts_around wellFormed plain inside (List.ne_nil_of_mem isId) with
    ⟨lead, trail, around, -, -⟩
  have nodup := nodup_texts wellFormed root
  have isKept : kept ∈ lead ++ document.texts candidate ++ trail := by
    rw [← around, whole]
    simp
  simp only [List.mem_append] at isKept
  rcases isKept with (isLead | isKept) | isTrail
  · -- An earlier text node stands before the candidate.
    rcases List.append_of_mem isLead with ⟨first, second, rfl⟩
    have same : left ++ kept :: rest =
        first ++ kept :: (second ++ document.texts candidate ++ trail) := by
      rw [← whole, around]
      simp
    rcases append_cons_inj (whole ▸ nodup) same with ⟨rfl, rfl⟩
    rw [around] at nodup
    simp only [List.nodup_append, List.mem_append] at nodup
    exact absurd rfl (nodup.1.2.2 text (Or.inl isLeft) text isText)
  · exact ((mem_texts_iff wellFormed).mp isKept).1
  · -- A later text node stands behind the candidate.
    rcases List.append_of_mem isTrail with ⟨first, second, rfl⟩
    have same : left ++ kept :: rest =
        (lead ++ document.texts candidate ++ first) ++ kept :: second := by
      rw [← whole, around]
      simp
    rcases append_cons_inj (whole ▸ nodup) same with ⟨rfl, rfl⟩
    rw [around] at nodup
    simp only [List.nodup_append, List.mem_append, List.mem_cons] at nodup
    exact absurd rfl (nodup.2.2 id (Or.inr isId) id (Or.inr (Or.inr isRest)))

/-- Detaching a node keeps what stands above the nodes that are not below it. -/
theorem liesIn_detach_iff (wellFormed : document.WellFormed) (apart : ¬document.LiesIn id text) :
    (document.detach id).LiesIn candidate text ↔ document.LiesIn candidate text := by
  refine liesIn_iff_of_parent_eq fun node inside => ?_
  rw [parent_detach wellFormed, if_neg]
  rintro rfl
  exact apart inside

theorem isText_eq_false_of_isPrunable (prunable : document.isPrunable id = true) :
    document.isText id = false := by
  rw [isPrunable, Bool.and_eq_true, element?] at prunable
  rw [isText, text?]
  cases held : document.content id with
  | element _ => rfl
  | text _ | markup _ =>
      rw [held] at prunable
      cases prunable.1

end Document

namespace Edit

open Document Outcome

variable {document : Document} {id root kept : NodeId} {left right rest : List NodeId} {aside : Aside}

/-- The text of an element with nothing left to carry is lossy. -/
theorem lossy_of_isPrunable (splittable : document.Splittable aside root)
    (inside : document.LiesIn root id) (prunable : document.isPrunable id = true) :
    ∀ text ∈ document.texts id, aside.lossy text := by
  have wellFormed := splittable.wellFormed
  have notText := isText_eq_false_of_isPrunable prunable
  simp only [isPrunable, Bool.and_eq_true, Bool.or_eq_true, List.isEmpty_iff] at prunable
  rcases prunable.2 with childless | isEmpty
  · rw [texts_eq wellFormed, notText, childless]
    simp
  · simp only [isEmptyRun, Bool.and_eq_true, List.all_eq_true] at isEmpty
    rcases isEmpty with ⟨named, styled⟩
    rw [texts_eq wellFormed, notText]
    simp only [Bool.false_eq_true, if_false, List.nil_append, List.mem_flatMap]
    rintro text ⟨properties, isChild, isMember⟩
    exact splittable.lossy id properties text inside named isChild (styled properties isChild) isMember

/-- The root is still there, and nothing that a node carries has changed. -/
structure Prunes (before after : Document) (aside : Aside) (root : NodeId) : Prop where
  splittable : after.Splittable aside root
  root_eq : after.root = before.root
  content_eq : ∀ id, after.content id = before.content id
  above : ∀ id, after.LiesIn id root → before.LiesIn id root

theorem Prunes.refl (splittable : document.Splittable aside root) :
    Prunes document document aside root :=
  ⟨splittable, rfl, fun _ => rfl, fun _ => id⟩

theorem Prunes.trans {before middle after : Document} (first : Prunes before middle aside root)
    (second : Prunes middle after aside root) : Prunes before after aside root where
  splittable := second.splittable
  root_eq := second.root_eq.trans first.root_eq
  content_eq id := (second.content_eq id).trans (first.content_eq id)
  above id inside := first.above id (second.above id inside)

theorem prunes_detach (splittable : document.Splittable aside root) (id : NodeId) :
    Prunes document (document.detach id) aside root where
  splittable := splittable.detach id
  root_eq := root_detach _ _
  content_eq := content_detach splittable.wellFormed id
  above _ := liesIn_of_liesIn_detach splittable.wellFormed

theorem Prunes.textOf_eq {before after : Document} (prunes : Prunes before after aside root)
    (id : NodeId) : after.textOf id = before.textOf id := by
  rw [textOf, textOf, text?, text?, prunes.content_eq]

/-- Pruning takes no text away but lossy text behind the node that is kept. -/
theorem exists_pruneUpwards (splittable : document.Splittable aside root)
    (whole : document.texts root = left ++ kept :: rest) (candidates : List NodeId)
    (behind : ∀ candidate ∈ candidates, document.LiesIn candidate kept ∨
      ∀ text ∈ left, ¬document.LiesIn candidate text) :
    ∃ after rest', pruneUpwards kept candidates document = .ok ⟨⟩ after ∧
      Prunes document after aside root ∧ after.texts root = left ++ kept :: rest' ∧
      aside.Thins rest rest' := by
  induction candidates generalizing document rest with
  | nil => exact ⟨document, rest, rfl, .refl splittable, whole, .refl aside rest⟩
  | cons candidate outer inductionHypothesis =>
      have wellFormed := splittable.wellFormed
      by_cases stops : (document.contains candidate kept || !document.isPrunable candidate) = true
      · refine ⟨document, rest, ?_, .refl splittable, whole, .refl aside rest⟩
        simp only [pruneUpwards, get_bind, stops, if_true]
        rfl
      · have goesOn := stops
        simp only [Bool.or_eq_true, Bool.not_eq_true', not_or, contains_iff wellFormed,
          Bool.not_eq_false] at goesOn
        rcases goesOn with ⟨apart, prunable⟩
        have below : ∀ text ∈ left ++ kept :: rest, document.LiesIn root text ∧
            document.isText text = true := fun text isMember =>
          (mem_texts_iff wellFormed).mp (whole ▸ isMember)
        have rootApart : ¬document.LiesIn candidate root := fun above =>
          apart ((below kept (by simp)).1.trans above)
        have leftApart := (behind candidate List.mem_cons_self).resolve_left apart
        let rest' := rest.filter fun text => !document.contains candidate text
        have thins : aside.Thins rest rest' := by
          refine .of_filter fun text isRest isGone => ?_
          rw [Bool.not_eq_false', contains_iff wellFormed] at isGone
          have isBelow := below text (by simp [isRest])
          rcases isGone.total isBelow.1 with above | above
          · exact absurd above rootApart
          · exact lossy_of_isPrunable splittable above prunable text
              ((mem_texts_iff wellFormed).mpr ⟨isGone, isBelow.2⟩)
        have whole' : (document.detach candidate).texts root = left ++ kept :: rest' := by
          have leftKept : left.filter (fun text => !document.contains candidate text) = left :=
            List.filter_eq_self.mpr fun text isLeft => by
              rw [Bool.not_eq_true', ← Bool.not_eq_true, contains_iff wellFormed]
              exact leftApart text isLeft
          rw [texts_detach wellFormed rootApart, whole, List.filter_append, leftKept,
            List.filter_cons_of_pos]
          rw [Bool.not_eq_true', ← Bool.not_eq_true, contains_iff wellFormed]
          exact apart
        have behind' : ∀ other ∈ outer, (document.detach candidate).LiesIn other kept ∨
            ∀ text ∈ left, ¬(document.detach candidate).LiesIn other text := by
          intro other isOuter
          refine (behind other (List.mem_cons_of_mem _ isOuter)).imp
            (liesIn_detach_iff wellFormed apart).mpr fun outside text isLeft inside => ?_
          exact outside text isLeft (liesIn_of_liesIn_detach wellFormed inside)
        rcases inductionHypothesis (splittable.detach candidate) whole' behind' with
          ⟨after, fewer, done, prunes, texts, thins'⟩
        refine ⟨after, fewer, ?_, (prunes_detach splittable candidate).trans prunes, texts,
          thins.trans thins'⟩
        simp only [pruneUpwards, get_bind, stops]
        exact bind_eq_ok.mpr ⟨⟨⟩, _, detach_eq_ok.mpr rfl, done⟩

/-- A text node that is absorbed goes away, and no other text with it but lossy text behind the node
that is kept. -/
theorem exists_removeAbsorbed (splittable : document.Splittable aside root)
    (whole : document.texts root = left ++ kept :: rest) (isText : document.isText id = true)
    (rootApart : ¬document.LiesIn id root) (notKept : id ≠ kept) (notLeft : id ∉ left) :
    ∃ after rest', removeAbsorbed kept id document = .ok ⟨⟩ after ∧
      Prunes document after aside root ∧ after.texts root = left ++ kept :: rest' ∧
      aside.Thins (rest.filter (· != id)) rest' := by
  have wellFormed := splittable.wellFormed
  have below : ∀ text ∈ left ++ kept :: rest, document.LiesIn root text ∧
      document.isText text = true := fun text isMember =>
    (mem_texts_iff wellFormed).mp (whole ▸ isMember)
  have only : ∀ text ∈ left ++ kept :: rest, document.LiesIn id text → text = id := by
    intro text isMember inside
    rcases inside.total (below text isMember).1 with above | above
    · exact absurd above rootApart
    · have isBelow := (mem_texts_iff wellFormed).mpr ⟨inside, (below text isMember).2⟩
      rwa [splittable.plain id above isText, List.mem_singleton] at isBelow
  have removed : (document.detach id).texts root = left ++ kept :: rest.filter (· != id) := by
    have same : (left ++ kept :: rest).filter (fun text => !document.contains id text) =
        (left ++ kept :: rest).filter (· != id) := by
      refine List.filter_congr fun text isMember => ?_
      rw [Bool.eq_iff_iff, Bool.not_eq_true', ← Bool.not_eq_true, contains_iff wellFormed,
        bne_iff_ne]
      refine not_congr ⟨only text isMember, ?_⟩
      rintro rfl
      exact LiesIn.refl
    rw [texts_detach wellFormed rootApart, whole, same, List.filter_append,
      filter_ne_of_not_mem notLeft, List.filter_cons_of_pos (by simpa using notKept.symm)]
  have behind : ∀ candidate ∈ document.ancestors id,
      (document.detach id).LiesIn candidate kept ∨
        ∀ text ∈ left, ¬(document.detach id).LiesIn candidate text := by
    intro candidate isAbove
    by_cases aboveKept : document.LiesIn candidate kept
    · refine Or.inl ((liesIn_detach_iff wellFormed fun inside => ?_).mpr aboveKept)
      exact notKept (only kept (by simp) inside).symm
    · refine Or.inr fun text isLeft inside => aboveKept ?_
      have inside := liesIn_of_liesIn_detach wellFormed inside
      have above := (mem_ancestors_iff wellFormed).mp (Or.inr isAbove)
      rcases inside.total (below text (by simp [isLeft])).1 with up | down
      · exact (below kept (by simp)).1.trans up
      · have isMember := (mem_texts_iff wellFormed).mpr ⟨above.trans down, isText⟩
        rw [whole, List.mem_append, List.mem_cons] at isMember
        have isRest := (isMember.resolve_left notLeft).resolve_left notKept
        exact liesIn_between wellFormed splittable.plain whole isLeft isRest inside above
  rcases exists_pruneUpwards (splittable.detach id) removed _ behind with
    ⟨after, rest', done, prunes, texts, thins⟩
  refine ⟨after, rest', ?_, (prunes_detach splittable id).trans prunes, texts, thins⟩
  simp only [removeAbsorbed, get_bind]
  exact bind_eq_ok.mpr ⟨⟨⟩, _, detach_eq_ok.mpr rfl, done⟩

/-- The absorbed text nodes go away one after the other. -/
theorem exists_removeAll {absorbed : List NodeId} (splittable : document.Splittable aside root)
    (whole : document.texts root = left ++ kept :: rest)
    (isText : ∀ id ∈ absorbed, document.isText id = true)
    (rootApart : ∀ id ∈ absorbed, ¬document.LiesIn id root) (notKept : kept ∉ absorbed)
    (notLeft : ∀ id ∈ absorbed, id ∉ left) :
    ∃ after rest', absorbed.forM (removeAbsorbed kept) document = .ok ⟨⟩ after ∧
      Prunes document after aside root ∧ after.texts root = left ++ kept :: rest' ∧
      aside.Thins (rest.filter (· ∉ absorbed)) rest' := by
  induction absorbed generalizing document rest with
  | nil => exact ⟨document, rest, rfl, .refl splittable, whole, by simpa using .refl aside rest⟩
  | cons first absorbed inductionHypothesis =>
      rcases exists_removeAbsorbed splittable whole (isText first List.mem_cons_self)
        (rootApart first List.mem_cons_self)
        (fun same => notKept (same ▸ List.mem_cons_self)) (notLeft first List.mem_cons_self) with
        ⟨middle, fewer, removeDone, prunes, texts, thins⟩
      have isText' : ∀ id ∈ absorbed, middle.isText id = true := by
        intro id isAbsorbed
        rw [Document.isText, text?, prunes.content_eq]
        exact isText id (List.mem_cons_of_mem _ isAbsorbed)
      rcases inductionHypothesis prunes.splittable texts isText'
        (fun id isAbsorbed inside =>
          rootApart id (List.mem_cons_of_mem _ isAbsorbed) (prunes.above id inside))
        (fun isAbsorbed => notKept (List.mem_cons_of_mem _ isAbsorbed))
        (fun id isAbsorbed => notLeft id (List.mem_cons_of_mem _ isAbsorbed)) with
        ⟨after, rest', restDone, prunesRest, texts', thins'⟩
      have together : (rest.filter (· != first)).filter (· ∉ absorbed) =
          rest.filter (· ∉ first :: absorbed) := by
        rw [List.filter_filter]
        refine List.filter_congr fun id _ => ?_
        by_cases same : id = first <;> simp [same]
      refine ⟨after, rest', forM_cons_eq_ok.mpr ⟨middle, removeDone, restDone⟩,
        prunes.trans prunesRest, texts', ?_⟩
      rw [← together]
      exact (thins.filter _).trans thins'

/-- The text nodes right after one whose text is replaced are taken out. -/
theorem exists_removeFollowing {start : NodeId} {absorbed : List NodeId} {joined : String}
    (splittable : document.Splittable aside root)
    (whole : document.texts root = left ++ start :: absorbed ++ right)
    (extended : SameShape document (document.setContent start (.text joined))) :
    ∃ after right', absorbed.forM (removeAbsorbed start) (document.setContent start (.text joined)) =
        .ok ⟨⟩ after ∧
      Prunes (document.setContent start (.text joined)) after aside root ∧
      after.texts root = left ++ start :: right' ∧ aside.Thins right right' := by
  have whole' : (document.setContent start (.text joined)).texts root =
      left ++ start :: (absorbed ++ right) := by
    rw [extended.texts_eq splittable.wellFormed, whole, List.append_assoc]
    rfl
  have isAbsorbed : ∀ id ∈ absorbed,
      (document.setContent start (.text joined)).isText id = true ∧
        ¬(document.setContent start (.text joined)).LiesIn id root := by
    intro id isMember
    have isBelow : id ∈ (document.setContent start (.text joined)).texts root := by
      rw [whole']
      simp [isMember]
    rcases (mem_texts_iff extended.wellFormed).mp isBelow with ⟨below, isText⟩
    refine ⟨isText, fun above => ?_⟩
    rw [below.antisymm extended.wellFormed above, extended.isText_eq, splittable.notText] at isText
    cases isText
  have nodup := nodup_texts splittable.wellFormed root
  rw [whole] at nodup
  simp only [List.nodup_append, List.nodup_cons, List.mem_append, List.mem_cons] at nodup
  rcases nodup with ⟨⟨-, ⟨notKept, -⟩, leftApart⟩, -, rightApart⟩
  rcases exists_removeAll (extended.splittable splittable) whole'
    (fun id isMember => (isAbsorbed id isMember).1) (fun id isMember => (isAbsorbed id isMember).2)
    notKept (fun id isMember isLeft => leftApart id isLeft id (Or.inr isMember) rfl) with
    ⟨pruned, right', removeDone, prunes, texts, thins⟩
  have rightKept : (absorbed ++ right).filter (· ∉ absorbed) = right := by
    refine (filter_not_mem_append ?_ ?_ : ([] ++ absorbed ++ right).filter (· ∉ absorbed) = [] ++ right)
    · simp
    · exact fun id isRight isMember => rightApart id (Or.inr (Or.inr isMember)) id isRight rfl
  rw [rightKept] at thins
  exact ⟨pruned, right', removeDone, prunes, texts, thins⟩

/-- A stretch of text nodes is joined into the first of them. -/
theorem exists_joinText {start stop : NodeId} {absorbed : List NodeId}
    (splittable : document.Splittable aside root)
    (whole : document.texts root = left ++ start :: absorbed ++ right)
    (isLast : (start :: absorbed).getLast? = some stop) :
    ∃ after right', joinText start stop document = .ok ⟨⟩ after ∧ after.Splittable aside root ∧
      after.root = document.root ∧ after.texts root = left ++ start :: right' ∧
      aside.Thins right right' ∧
      after.textOf start = document.textOf start ++ String.join (absorbed.map document.textOf) ∧
      ∀ other, other ≠ start → after.textOf other = document.textOf other := by
  have wellFormed := splittable.wellFormed
  by_cases isSame : start = stop
  · subst isSame
    have isNone : absorbed = [] := by
      have nodup := nodup_texts wellFormed root
      rw [whole] at nodup
      exact eq_nil_of_getLast? (List.nodup_append.mp (List.nodup_append.mp nodup).1).2.1 isLast
    subst isNone
    exact ⟨document, right, joinText_eq_ok.mpr (Or.inl ⟨rfl, rfl⟩), splittable, rfl,
      by simpa using whole, .refl aside right, by simp [String.join], fun _ _ => rfl⟩
  · have isMember : start ∈ document.texts root := by
      rw [whole]
      simp
    rcases (mem_texts_iff wellFormed).mp isMember with ⟨inside, isText⟩
    have inStore := lt_size_below inside splittable.inStore
    have enough : absorbed.length < document.size + 1 := by
      have bounded := length_texts_le wellFormed splittable.inStore
      rw [whole] at bounded
      simp only [List.length_append, List.length_cons] at bounded
      omega
    have range := textRange?_of_texts wellFormed splittable.plain whole isLast enough
    let joined := document.textOf start ++ String.join (absorbed.map document.textOf)
    let extended := document.setContent start (.text joined)
    rcases exists_removeFollowing splittable whole (sameShape_setText wellFormed isText inStore joined)
      with ⟨pruned, right', removeDone, prunes, texts, thins⟩
    have setDone : setText start joined document = .ok ⟨⟩ extended :=
      setText_eq_ok.mpr ⟨isText, rfl⟩
    have textOf_pruned : ∀ other, pruned.textOf other =
        if other = start then joined else document.textOf other := fun other => by
      rw [prunes.textOf_eq, textOf_setText inStore]
    rcases sameShape_keepingSpace prunes.splittable.wellFormed start with ⟨toAfter, textOf_after⟩
    refine ⟨_, right', joinText_eq_ok.mpr (Or.inr
        ⟨isSame, absorbed, extended, pruned, range, setDone, removeDone, rfl⟩),
      toAfter.splittable prunes.splittable, toAfter.root_eq.trans prunes.root_eq,
      (toAfter.texts_eq prunes.splittable.wellFormed root).trans texts, thins, ?_,
      fun other differ => ?_⟩
    · rw [textOf_after, textOf_pruned, if_pos rfl]
    · rw [textOf_after, textOf_pruned, if_neg differ]

end Edit

end WordTemplate
