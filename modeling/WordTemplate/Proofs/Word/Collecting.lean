import WordTemplate.Proofs.Operations
import WordTemplate.Proofs.Word.Clearing

/-!
# Joining a stretch of text nodes

Joining moves the characters of a stretch of text nodes into the first of them. Where the second node
comes after the first one, this is all that happens to the text, but for text in the properties of a
run that goes away; where it does not, the document stays as it is. Both are read off the order of
the text nodes, whatever elements stand around them.
-/

namespace WordTemplate

namespace Document

variable {document before after : Document} {top start stop : NodeId} {absorbed : List NodeId}

/-! ## Changes that keep the shape -/

namespace SameShape

variable (same : SameShape before after)
include same

theorem isPrunable_eq (id : NodeId) : after.isPrunable id = before.isPrunable id := by
  have isElement_eq : (after.element? id).isSome = (before.element? id).isSome := by
    have names := congrArg Option.isSome (same.name?_eq id)
    rwa [name?, name?, Option.isSome_map, Option.isSome_map] at names
  simp only [isPrunable, isEmptyRun, isElement_eq, same.children_eq, same.isNamed_eq]

theorem liesIn_iff (id other : NodeId) : after.LiesIn id other ↔ before.LiesIn id other :=
  liesIn_iff_of_parent_eq fun node _ => same.parent_eq node

theorem textElement?_eq (id : NodeId) : after.textElement? id = before.textElement? id := by
  simp only [textElement?, same.parent_eq, same.isNamed_eq]

end SameShape

/-- What is taken out does not depend on the characters of text nodes and on attributes. -/
theorem Sheds.congr {first last : Document} (sheds : before.Sheds after start absorbed)
    (wellFormed : first.WellFormed) (wellFormed' : after.WellFormed)
    (atFirst : SameShape first before) (atLast : SameShape after last) :
    first.Sheds last start absorbed := by
  have loses_iff : ∀ id, first.Loses last id ↔ before.Loses after id := fun id => by
    rw [Loses, Loses, atFirst.parent_eq, atLast.parent_eq]
  have carriedOff_iff : ∀ text, first.CarriedOff last text ↔ before.CarriedOff after text := by
    intro text
    simp only [CarriedOff, loses_iff, atFirst.isNamed_eq, atFirst.parent_eq, atFirst.liesIn_iff,
      mem_cons_ancestors_iff wellFormed, mem_cons_ancestors_iff atFirst.wellFormed]
  refine ⟨fun id => ?_, fun id stays => ?_, fun id => ?_, fun top left right whole => ?_⟩
  · rw [loses_iff, sheds.loses_iff, Emptied, Emptied, atLast.isPrunable_eq, atLast.children_eq,
      atFirst.children_eq]
    simp only [atFirst.liesIn_iff]
  · rw [atLast.parent_eq, sheds.parent_eq id (mt (loses_iff id).mpr stays), atFirst.parent_eq]
  · rw [atLast.children_eq, sheds.children_eq, atFirst.children_eq]
    simp only [loses_iff]
  · rw [← atFirst.texts_eq wellFormed] at whole
    rw [atLast.texts_eq wellFormed', sheds.texts_eq top left right whole]
    simp only [carriedOff_iff]

/-! ## Stretches of text nodes -/

/-- `stop` comes after `start` in document order, with the text nodes `inner` between them. -/
def TextSpan (document : Document) (start : NodeId) (inner : List NodeId) (stop : NodeId) : Prop :=
  ∃ top left right, document.texts top = left ++ start :: (inner ++ [stop]) ++ right

theorem lt_size_of_length_texts (wellFormed : document.WellFormed)
    (several : 1 < (document.texts top).length) : top.index < document.size := by
  by_contra beyond
  rw [texts_eq wellFormed, children_of_size_le (Nat.le_of_not_lt beyond)] at several
  split at several
  · simp at several
  · simp at several

/-- The search for a text node finds it exactly if it comes later. -/
theorem textRange?_eq_some_iff (wellFormed : document.WellFormed) (childless : document.TextChildless)
    (isText : document.isText start = true) (differ : start ≠ stop) :
    document.textRange? (document.size + 1) start stop = some absorbed ↔
      ∃ inner, absorbed = inner ++ [stop] ∧ document.TextSpan start inner stop := by
  constructor
  · intro found
    rcases wellFormed.exists_top start with ⟨top, above, detached⟩
    rcases List.append_of_mem ((mem_texts_iff wellFormed).mpr ⟨above, isText⟩) with
      ⟨left, right, whole⟩
    rcases exists_of_textRange? wellFormed (childless.plainBelow wellFormed top) detached whole
      found with ⟨rest, rfl, isLast⟩
    rcases absorbed.eq_nil_or_concat with rfl | ⟨inner, last, rfl⟩
    · rw [List.getLast?_singleton, Option.some.injEq] at isLast
      exact absurd isLast differ
    · rw [List.concat_eq_append, ← List.cons_append, List.getLast?_concat,
        Option.some.injEq] at isLast
      subst isLast
      rw [List.concat_eq_append] at whole ⊢
      exact ⟨inner, rfl, top, left, rest, by rw [whole, List.append_assoc left, List.cons_append]⟩
  · rintro ⟨inner, rfl, top, left, right, whole⟩
    have inStore : top.index < document.size :=
      lt_size_of_length_texts wellFormed (by simp [whole]; omega)
    have enough : (inner ++ [stop]).length < document.size + 1 := by
      have bounded := length_texts_le wellFormed inStore
      rw [whole] at bounded
      simp only [List.length_append, List.length_cons] at bounded ⊢
      omega
    refine textRange?_of_texts wellFormed (childless.plainBelow wellFormed top) whole ?_ enough
    rw [← List.cons_append, List.getLast?_concat]

/-- The text of a tree is the same where the first text node of a stretch receives the text of those
that go. -/
theorem textContent_of_moved {left right spared : List NodeId} (wellFormed : before.WellFormed)
    (whole : before.texts top = left ++ start :: absorbed ++ right)
    (texts : after.texts top = left ++ start :: spared) (isSublist : spared.Sublist right)
    (textOf_eq : ∀ id, after.textOf id =
      if id = start then before.textOf start ++ String.join (absorbed.map before.textOf)
      else before.textOf id) :
    after.textContent top =
      String.join ((left ++ start :: absorbed ++ spared).map before.textOf) := by
  have nodup := nodup_texts wellFormed top
  rw [whole, List.append_assoc, List.cons_append, List.nodup_middle, List.nodup_cons] at nodup
  have same : ∀ ids : List NodeId, ids ⊆ left ++ (absorbed ++ right) →
      ids.map after.textOf = ids.map before.textOf := by
    intro ids among
    refine List.map_congr_left fun id isMember => ?_
    rw [textOf_eq, if_neg fun isStart : id = start => nodup.1 (among (isStart ▸ isMember))]
  have sameLeft := same left (List.subset_append_left _ _)
  have sameSpared := same spared fun id isMember => by simp [isSublist.subset isMember]
  rw [textContent_eq, texts, List.map_append, List.map_cons, textOf_eq, if_pos rfl, sameLeft,
    sameSpared]
  simp [String.join_append, String.append_assoc]

/-- The characters of the `absorbed` text nodes are in `start`, and these text nodes are taken out
with the elements that are left with nothing to carry. Only the text element of `start` receives
attributes, and no other text is lost than what is carried off behind the absorbed nodes. -/
structure Collects (before after : Document) (start : NodeId) (absorbed : List NodeId) : Prop extends
    before.Sheds after start absorbed where
  wellFormed : after.WellFormed
  size_eq : after.size = before.size
  root_eq : after.root = before.root
  textOf_start : after.textOf start =
    before.textOf start ++ String.join (absorbed.map before.textOf)
  content_eq : ∀ id, id ≠ start → before.textElement? start ≠ some id →
    after.content id = before.content id
  textContent_eq : ∀ top left right, before.texts top = left ++ start :: absorbed ++ right →
    after.textContent top = String.join ((left ++ start :: absorbed ++
      right.filter fun text => ¬before.CarriedOff after text).map before.textOf)

end Document

namespace Edit

open Document Outcome

variable {document : Document} {start stop : NodeId} {inner : List NodeId}

theorem exists_collects_joinText (wellFormed : document.WellFormed)
    (childless : document.TextChildless) (span : document.TextSpan start inner stop) :
    ∃ after, joinText start stop document = .ok ⟨⟩ after ∧
      document.Collects after start (inner ++ [stop]) := by
  rcases span with ⟨top, left, right, whole⟩
  have nodup := nodup_texts wellFormed top
  have isMember : start ∈ document.texts top := by
    rw [whole]
    simp
  have isText := ((mem_texts_iff wellFormed).mp isMember).2
  have differ : start ≠ stop := by
    rintro rfl
    rw [whole, List.append_assoc, List.cons_append, List.nodup_middle, List.nodup_cons] at nodup
    exact nodup.1 (by simp)
  have range := (textRange?_eq_some_iff wellFormed childless isText differ).mpr
    ⟨inner, rfl, top, left, right, whole⟩
  have inStore : start.index < document.size :=
    lt_size_of_mem_texts wellFormed (lt_size_of_length_texts wellFormed (by simp [whole]; omega))
      isMember
  let joined := document.textOf start ++ String.join ((inner ++ [stop]).map document.textOf)
  let extended := document.setContent start (.text joined)
  have toExtended : SameShape document extended := sameShape_setText wellFormed isText inStore joined
  have extendedFormed := toExtended.wellFormed
  have childless' := toExtended.textChildless childless
  have setDone : setText start joined document = .ok ⟨⟩ extended := setText_eq_ok.mpr ⟨isText, rfl⟩
  have whole' : extended.texts top = left ++ start :: (inner ++ [stop]) ++ right := by
    rw [toExtended.texts_eq wellFormed, whole]
  rcases exists_sweeps_removeAll extendedFormed (Sweeps.refl extendedFormed start)
    (Sweeps.absorbed_apart extendedFormed childless' whole') with ⟨pruned, gone, removeDone, sweeps⟩
  have prunedFormed := sweeps.drops.wellFormed
  rcases sameShape_keepingSpace prunedFormed start with ⟨toAfter, textOf_after⟩
  have textOf_eq : ∀ id, (pruned.keepingSpace start).textOf id =
      if id = start then joined else document.textOf id := fun id => by
    rw [textOf_after, textOf, text?, sweeps.drops.content_eq, ← text?, ← textOf,
      textOf_setText inStore]
  have sheds := (sweeps.sheds extendedFormed childless' whole').congr wellFormed prunedFormed
    toExtended toAfter
  refine ⟨pruned.keepingSpace start, joinText_eq_ok.mpr (Or.inr
    ⟨differ, inner ++ [stop], extended, pruned, range, setDone, removeDone, rfl⟩), {
      toSheds := sheds
      wellFormed := toAfter.wellFormed
      size_eq := by rw [toAfter.size_eq, sweeps.drops.size_eq, toExtended.size_eq]
      root_eq := by rw [toAfter.root_eq, sweeps.drops.root_eq, toExtended.root_eq]
      textOf_start := by rw [textOf_eq, if_pos rfl]
      content_eq := fun id other otherElement => ?_
      textContent_eq := fun top left right whole => ?_ }⟩
  · have stays : start ∉ gone := fun isGone => sweeps.not_liesIn
      (Sweeps.absorbed_apart extendedFormed childless' whole') isGone LiesIn.refl
    have element_eq : pruned.textElement? start = document.textElement? start := by
      rw [textElement?, sweeps.drops.parent_eq, if_neg stays, ← toExtended.textElement?_eq,
        textElement?]
      simp only [fun id => isNamed_of_content_eq (sweeps.drops.content_eq id)]
    rw [content_keepingSpace (element_eq ▸ otherElement), sweeps.drops.content_eq,
      content_setContent document inStore, if_neg other]
  · exact textContent_of_moved wellFormed whole (sheds.texts_eq top left right whole)
      List.filter_sublist textOf_eq

/-- Joining collects the text from one text node to a later one, and fails without a change if the
second node does not come later. -/
theorem joinText_collects (wellFormed : document.WellFormed) (childless : document.TextChildless)
    (isText : document.isText start = true) :
    (∀ inner, document.TextSpan start inner stop →
      ∃ after, joinText start stop document = .ok ⟨⟩ after ∧
        document.Collects after start (inner ++ [stop])) ∧
    (start ≠ stop → (¬∃ inner, document.TextSpan start inner stop) →
      joinText start stop document = .error (.notInRange start stop) document) := by
  refine ⟨fun inner span => exists_collects_joinText wellFormed childless span,
    fun differ notLater => ?_⟩
  rcases Option.isSome_iff_exists.mp isText with ⟨characters, isCharacters⟩
  have notFound : document.textRange? (document.size + 1) start stop = none := by
    by_contra found
    rcases Option.ne_none_iff_exists'.mp found with ⟨absorbed, found⟩
    rcases (textRange?_eq_some_iff wellFormed childless isText differ).mp found with
      ⟨inner, -, span⟩
    exact notLater ⟨inner, span⟩
  rw [joinText, if_neg differ]
  refine bind_eq_error.mpr (Or.inr ⟨characters, document, textAt_eq_ok.mpr ⟨isCharacters, rfl⟩, ?_⟩)
  rw [get_bind, notFound]
  rfl

/-- A paragraph with text in four runs. The second one is inserted, and the third one has properties
and a tabulator. -/
def textAcrossInsertion : Document :=
  .ofTree (Tree.node "w:p" []
    [Tree.node "w:r" [] [Tree.node "w:t" [] [.text "a"]],
      Tree.node "w:ins" [] [Tree.node "w:r" [] [Tree.node "w:t" [] [.text "b"]]],
      Tree.node "w:r" [] [Tree.node "w:rPr" [] [], Tree.node "w:t" [] [.text "c"],
        Tree.node "w:tab" [] []],
      Tree.node "w:r" [] [Tree.node "w:t" [] [.text "d"]]])

/-- Joining in the order of the text, and against it. -/
theorem joinText_collects_acrossInsertion :
    textAcrossInsertion.TextSpan ⟨4⟩ [⟨8⟩] ⟨12⟩ ∧
      (∃ after, joinText ⟨4⟩ ⟨12⟩ textAcrossInsertion = .ok ⟨⟩ after ∧
        textAcrossInsertion.Collects after ⟨4⟩ [⟨8⟩, ⟨12⟩]) ∧
      (¬∃ inner, textAcrossInsertion.TextSpan ⟨12⟩ inner ⟨4⟩) ∧
      joinText ⟨12⟩ ⟨4⟩ textAcrossInsertion =
        .error (.notInRange ⟨12⟩ ⟨4⟩) textAcrossInsertion := by
  have wellFormed : textAcrossInsertion.WellFormed := wellFormed_ofTree _
  have childless : textAcrossInsertion.TextChildless := textChildless_of_store (by decide +kernel)
  have span : textAcrossInsertion.TextSpan ⟨4⟩ [⟨8⟩] ⟨12⟩ :=
    ⟨⟨1⟩, [], [⟨16⟩], by decide +kernel⟩
  have notLater : ¬∃ inner, textAcrossInsertion.TextSpan ⟨12⟩ inner ⟨4⟩ := by
    rintro ⟨inner, span⟩
    have found := (textRange?_eq_some_iff wellFormed childless (by decide +kernel)
      (by decide)).mpr ⟨inner, rfl, span⟩
    have notFound : textAcrossInsertion.textRange? (textAcrossInsertion.size + 1) ⟨12⟩ ⟨4⟩ = none := by
      decide +kernel
    rw [notFound] at found
    cases found
  exact ⟨span, (joinText_collects wellFormed childless (by decide +kernel)).1 [⟨8⟩] span, notLater,
    (joinText_collects wellFormed childless (by decide +kernel)).2 (by decide) notLater⟩

/-- The text of a document in which text nodes were joined. -/
def joinedText? (document : Document) (start stop : NodeId) : Option String :=
  match joinText start stop document with
  | .ok _ after => some (after.textContent after.root)
  | .error _ _ => none

/-- A paragraph with text in the properties of its second run. -/
def textInRunProperties : Document :=
  .ofTree (Tree.node "w:p" []
    [Tree.node "w:r" [] [Tree.node "w:t" [] [.text "a"]],
      Tree.node "w:r" [] [Tree.node "w:t" [] [.text "b"], Tree.node "w:rPr" [] [.text "zz"]]])

/-- A run that is left with its properties goes away with the text in them, also where that text
stands behind the text nodes that are joined. -/
theorem joinText_carriesOff :
    textInRunProperties.WellFormed ∧ textInRunProperties.TextChildless ∧
      textInRunProperties.TextSpan ⟨4⟩ [] ⟨7⟩ ∧
      textInRunProperties.textContent textInRunProperties.root = "abzz" ∧
      joinedText? textInRunProperties ⟨4⟩ ⟨7⟩ = some "ab" :=
  ⟨wellFormed_ofTree _, textChildless_of_store (by decide +kernel),
    ⟨⟨1⟩, [], [⟨9⟩], by decide +kernel⟩, by decide +kernel, by decide +kernel⟩

end Edit

end WordTemplate
