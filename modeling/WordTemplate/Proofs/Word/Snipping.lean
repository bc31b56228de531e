import WordTemplate.Proofs.Document.Succeeding
import WordTemplate.Proofs.Operations
import WordTemplate.Proofs.Word.Leading

/-!
# Where the tail of a text node stands

A text node is cut together with its carrier, the text element around it, so the tail comes behind
everything that the carrier holds. It is the next text node after the head unless more text follows in
the text element. In that case the characters of the document change their order.
-/

namespace WordTemplate

namespace Document

variable {document before middle after : Document}
  {id other top node parent reference holder tail element : NodeId} {head rest : List Char}
  {left right earlier later : List NodeId}

/-- What is put behind a node comes behind all its text. -/
theorem Moves.texts_behind (moves : Moves before after node parent (earlier ++ [reference]) later)
    (wellFormed : before.WellFormed) (detached : before.parent node = none)
    (inside : before.LiesIn top parent) (isBelow : id ∈ before.texts reference)
    (whole : before.texts top = left ++ before.texts reference ++ right) :
    after.texts top = left ++ before.texts reference ++ (before.texts node ++ right) := by
  rcases moves.texts_around wellFormed detached inside with ⟨outer, beyond, old, new⟩
  rcases List.append_of_mem isBelow with ⟨lead, trail, isReference⟩
  have nodup := nodup_texts wellFormed top
  have place : (left ++ lead) ++ id :: (trail ++ right) =
      (outer ++ (earlier.flatMap before.texts ++ lead)) ++
        id :: (trail ++ (later.flatMap before.texts ++ beyond)) := by
    have same := whole.symm.trans old
    simpa [isReference] using same
  have whole' : before.texts top = (left ++ lead) ++ id :: (trail ++ right) := by
    rw [whole, isReference]
    simp
  rcases append_cons_inj (whole' ▸ nodup) place with ⟨isLeft, isRight⟩
  rw [← List.append_assoc, List.append_cancel_right_eq] at isLeft
  rw [List.append_cancel_left_eq] at isRight
  rw [new, isLeft, isRight]
  simp

/-! ## The tail before it is placed -/

/-- The text node `id` keeps `head`, and a new node that is not placed yet holds nothing but the new
text node `tail` with `rest`. -/
structure Snipped (before after : Document) (id tail node : NodeId) (head rest : List Char) :
    Prop where
  wellFormed : after.WellFormed
  childless : after.TextChildless
  size_le : before.size ≤ after.size
  root_eq : after.root = before.root
  isNew : before.size ≤ tail.index
  nodeIsNew : before.size ≤ node.index
  node_lt : node.index < after.size
  detached : after.parent node = none
  texts_node : after.texts node = [tail]
  textOf_tail : after.textOf tail = String.ofList rest
  textOf_eq : ∀ other, other.index < before.size →
    after.textOf other = if other = id then String.ofList head else before.textOf other
  texts_eq : ∀ top, top.index < before.size → after.texts top = before.texts top
  parent_eq : ∀ other, other.index < before.size → after.parent other = before.parent other
  isNamed_eq : ∀ other name, other.index < before.size →
    after.isNamed other name = before.isNamed other name

namespace Snipped

/-- The tail is added on its own. -/
theorem of_snip (wellFormed : document.WellFormed) (childless : document.TextChildless)
    (isText : document.isText id = true) (inStore : id.index < document.size)
    (head rest : List Char) :
    Snipped document (document.snip id head rest) id document.nextId document.nextId head rest where
  wellFormed := wellFormed.snip
  childless := ((sameShape_setText wellFormed isText inStore _).textChildless childless).add _
  size_le := by
    rw [size_snip]
    exact Nat.le_succ _
  root_eq := root_snip
  isNew := Nat.le_refl _
  nodeIsNew := Nat.le_refl _
  node_lt := by
    rw [size_snip]
    exact Nat.lt_succ_self _
  detached := by rw [parent_snip, parent_nextId]
  texts_node := texts_of_childless wellFormed.snip isText_snip_nextId (by simp)
  textOf_tail := textOf_snip_nextId
  textOf_eq _ isOld := textOf_snip inStore isOld
  texts_eq _ isOld := texts_snip wellFormed isText inStore isOld
  parent_eq _ _ := parent_snip
  isNamed_eq _ name isOld := isNamed_snip wellFormed isText inStore isOld name

/-- The tail is hung into a copy of the text element. -/
theorem of_fillsCopy {middle : Document} (snipped : Snipped before middle id tail tail head rest)
    (isOld : element.index < before.size)
    (named : before.isNamed element Word.Name.text = true)
    (fills : FillsCopy middle after element tail) :
    Snipped before after id tail middle.nextId head rest := by
  have known : ∀ {other : NodeId}, other.index < before.size → other.index < middle.size :=
    fun isOld => Nat.lt_of_lt_of_le isOld snipped.size_le
  have copyNamed : after.isNamed middle.nextId Word.Name.text = true := by
    rw [fills.isNamed_copy, snipped.isNamed_eq _ _ isOld, named]
  have copyNotText := isText_eq_false_of_isNamed copyNamed
  have childless := (snipped.childless.add (middle.content element)).moves fills.moves
    (fills.moves.isText_eq _ ▸ copyNotText)
  have tailIsText : middle.isText tail = true := ((mem_texts_iff snipped.wellFormed).mp
    (snipped.texts_node ▸ List.mem_singleton_self tail)).2
  exact {
    wellFormed := fills.wellFormed
    childless := childless
    size_le := by
      rw [fills.size_eq]
      exact Nat.le_succ_of_le snipped.size_le
    root_eq := fills.root_eq.trans snipped.root_eq
    isNew := snipped.isNew
    nodeIsNew := snipped.size_le
    node_lt := fills.nextId_lt
    detached := fills.parent_copy
    texts_node := by
      rw [Document.texts_eq fills.wellFormed, copyNotText, fills.children_copy]
      simpa using childless.texts_eq fills.wellFormed
        ((fills.isText_eq fills.inStore).trans tailIsText)
    textOf_tail := by rw [fills.textOf_eq fills.inStore, snipped.textOf_tail]
    textOf_eq := fun other isOld => by
      rw [fills.textOf_eq (known isOld), snipped.textOf_eq other isOld]
    texts_eq := fun top isOld => by
      rw [fills.texts_eq (known isOld), snipped.texts_eq top isOld]
    parent_eq := fun other isOld => by
      have differ : other ≠ tail := by
        rintro rfl
        exact Nat.not_lt_of_le snipped.isNew isOld
      rw [fills.parent_eq differ, snipped.parent_eq other isOld]
    isNamed_eq := fun other name isOld => by
      rw [fills.isNamed_eq (known isOld), snipped.isNamed_eq other name isOld] }

variable (snipped : Snipped before after id tail node head rest) (wellFormed : before.WellFormed)
include snipped wellFormed

theorem liesIn_iff (isOld : other.index < before.size) :
    after.LiesIn top other ↔ before.LiesIn top other :=
  liesIn_iff_of_parent_eq fun above around =>
    snipped.parent_eq above (lt_size_of_liesIn wellFormed around isOld)

theorem textElement?_eq (isOld : other.index < before.size) :
    after.textElement? other = before.textElement? other := by
  rw [textElement?, textElement?, snipped.parent_eq other isOld]
  rcases isParent : before.parent other with _ | parent
  · rfl
  · rw [Option.filter_some, Option.filter_some,
      snipped.isNamed_eq _ _ (parent_lt_size wellFormed isParent)]

/-- What is not placed yet can be put behind any node with a parent. -/
theorem exists_moves (isOld : reference.index < before.size)
    (isHolder : before.parent reference = some holder) :
    ∃ placed earlier later, Edit.insertAfter node reference after = .ok ⟨⟩ placed ∧
      Moves after placed node holder (earlier ++ [reference]) later := by
  have isHolder' : after.parent reference = some holder := by
    rw [snipped.parent_eq reference isOld, isHolder]
  have holder_lt := parent_lt_size wellFormed isHolder
  have differ : node ≠ reference := by
    rintro rfl
    exact Nat.not_lt_of_le snipped.nodeIsNew isOld
  refine Edit.exists_moves_insertAfter snipped.wellFormed isHolder' snipped.node_lt differ
    fun above => ?_
  have node_lt := lt_size_of_liesIn wellFormed ((snipped.liesIn_iff wellFormed holder_lt).mp above)
    holder_lt
  exact Nat.not_lt_of_le snipped.nodeIsNew node_lt

end Snipped

/-! ## The tail in its place -/

/-- The text node `id` keeps `head`, and the new text node `tail` carries `rest`. In document order
the tail comes behind all text that the carrier of `id` holds, and the other text nodes are as before. -/
structure Snips (before after : Document) (id tail : NodeId) (head rest : List Char) : Prop where
  wellFormed : after.WellFormed
  childless : after.TextChildless
  root_eq : after.root = before.root
  isNew : before.size ≤ tail.index
  textOf_id : after.textOf id = String.ofList head
  textOf_tail : after.textOf tail = String.ofList rest
  textOf_eq : ∀ other, other.index < before.size → other ≠ id →
    after.textOf other = before.textOf other
  texts_eq : ∀ holder top left right, before.parent (before.textUnit id) = some holder →
    before.LiesIn top holder → before.texts top = left ++ before.texts (before.textUnit id) ++ right →
    after.texts top = left ++ before.texts (before.textUnit id) ++ tail :: right

theorem Snipped.snips (snipped : Snipped before middle id tail node head rest)
    (wellFormed : before.WellFormed) (isText : before.isText id = true)
    (inStore : id.index < before.size)
    (isHolder : before.parent (before.textUnit id) = some holder)
    (moves : Moves middle after node holder (earlier ++ [before.textUnit id]) later) :
    Snips before after id tail head rest := by
  have holder_lt := parent_lt_size wellFormed isHolder
  have unit_lt := lt_size_of_parent isHolder
  have isHolder' : middle.parent (before.textUnit id) = some holder := by
    rw [snipped.parent_eq _ unit_lt, isHolder]
  have isBelow : id ∈ before.texts (before.textUnit id) :=
    (mem_texts_iff wellFormed).mpr ⟨liesIn_textUnit before id, isText⟩
  have textOf_placed : ∀ other, after.textOf other = middle.textOf other := fun other => by
    rw [textOf, textOf, text?, text?, moves.content_eq]
  refine {
    wellFormed := moves.wellFormed
    childless := snipped.childless.moves moves
      (snipped.childless.notText snipped.wellFormed isHolder')
    root_eq := moves.root_eq.trans snipped.root_eq
    isNew := snipped.isNew
    textOf_id := by rw [textOf_placed, snipped.textOf_eq id inStore, if_pos rfl]
    textOf_tail := by rw [textOf_placed, snipped.textOf_tail]
    textOf_eq := fun other isOld differ => by
      rw [textOf_placed, snipped.textOf_eq other isOld, if_neg differ]
    texts_eq := fun holder' top left right isHolder' inside whole => ?_ }
  rw [isHolder, Option.some.injEq] at isHolder'
  subst isHolder'
  have top_lt := lt_size_of_liesIn wellFormed inside holder_lt
  rw [← snipped.texts_eq _ unit_lt] at isBelow whole ⊢
  rw [← snipped.texts_eq _ top_lt] at whole
  rw [moves.texts_behind snipped.wellFormed snipped.detached
    ((snipped.liesIn_iff wellFormed holder_lt).mpr inside) isBelow whole, snipped.texts_node]
  rfl

theorem Snips.sameShape (snips : Snips before middle id tail head rest)
    (same : SameShape middle after) (textOf_same : ∀ other, after.textOf other = middle.textOf other) :
    Snips before after id tail head rest where
  wellFormed := same.wellFormed
  childless := same.textChildless snips.childless
  root_eq := same.root_eq.trans snips.root_eq
  isNew := snips.isNew
  textOf_id := (textOf_same id).trans snips.textOf_id
  textOf_tail := (textOf_same tail).trans snips.textOf_tail
  textOf_eq other isOld differ := (textOf_same other).trans (snips.textOf_eq other isOld differ)
  texts_eq holder top left right isHolder inside whole :=
    (same.texts_eq snips.wellFormed top).trans
      (snips.texts_eq holder top left right isHolder inside whole)

namespace Snips

variable {lead trail : List NodeId} (snips : Snips before after id tail head rest)
  (wellFormed : before.WellFormed) (childless : before.TextChildless)
  (isHolder : before.parent (before.textUnit id) = some holder) (inside : before.LiesIn top holder)
  (isUnit : before.texts (before.textUnit id) = lead ++ id :: trail)
include snips wellFormed childless isHolder inside isUnit

/-- The text nodes that follow in the carrier stand between the head and the tail. -/
theorem exists_texts : ∃ left right, before.texts top = left ++ id :: trail ++ right ∧
    after.texts top = left ++ id :: trail ++ tail :: right := by
  have nonempty : before.texts (before.textUnit id) ≠ [] := by simp [isUnit]
  rcases exists_texts_around wellFormed (childless.plainBelow wellFormed top)
    (LiesIn.of_parent isHolder inside) nonempty with ⟨left, right, whole, -⟩
  have whole' := snips.texts_eq holder top left right isHolder inside whole
  exact ⟨left ++ lead, right, by simp [whole, isUnit], by simp [whole', isUnit]⟩

/-- The text that follows in the carrier changes places with the tail. -/
theorem exists_textContent (cut : head ++ rest = (before.textOf id).toList) : ∃ first last,
    before.textContent top = first ++ (String.ofList head ++ String.ofList rest) ++
      String.join (trail.map before.textOf) ++ last ∧
    after.textContent top = first ++ String.ofList head ++
      String.join (trail.map before.textOf) ++ String.ofList rest ++ last := by
  rcases snips.exists_texts wellFormed childless isHolder inside isUnit with ⟨left, right, whole, whole'⟩
  have nodup := nodup_texts wellFormed top
  rw [whole, List.append_assoc, List.cons_append, List.nodup_middle, List.nodup_cons] at nodup
  have top_lt := lt_size_of_liesIn wellFormed inside (parent_lt_size wellFormed isHolder)
  have same : ∀ ids : List NodeId, ids ⊆ left ++ (trail ++ right) →
      ids.map after.textOf = ids.map before.textOf := by
    intro ids among
    refine List.map_congr_left fun other isMember => snips.textOf_eq other ?_ ?_
    · refine lt_size_of_mem_texts wellFormed top_lt ?_
      have isAmong := among isMember
      rw [whole]
      simp only [List.mem_append, List.mem_cons] at isAmong ⊢
      tauto
    · exact fun isId => nodup.1 (isId ▸ among isMember)
  have text : before.textOf id = String.ofList head ++ String.ofList rest := by
    rw [← String.ofList_append, cut, String.ofList_toList]
  refine ⟨String.join (left.map before.textOf), String.join (right.map before.textOf), ?_, ?_⟩
  · rw [textContent_eq, whole]
    simp [text, String.join_append, String.append_assoc]
  · have sameLeft := same left (List.subset_append_left _ _)
    have sameTrail := same trail (List.subset_append_of_subset_right _ (List.subset_append_left _ _))
    have sameRight := same right (List.subset_append_of_subset_right _ (List.subset_append_right _ _))
    rw [textContent_eq, whole']
    simp [sameLeft, sameTrail, sameRight, snips.textOf_id, snips.textOf_tail, String.join_append,
      String.append_assoc]

end Snips

end Document

namespace Edit

open Document Outcome

variable {document : Document} {id holder : NodeId} {offset : Nat} {head rest : List Char}

/-- A text node whose carrier has a parent can be cut between any two of its characters. -/
theorem exists_snips_splitText (wellFormed : document.WellFormed) (childless : document.TextChildless)
    (isText : document.isText id = true)
    (isHolder : document.parent (document.textUnit id) = some holder)
    (cut : Text.splitAtByte? offset (document.textOf id).toList = some (head, rest)) :
    ∃ tail after, splitText id offset document = .ok tail after ∧
      Snips document after id tail head rest := by
  have inStore : id.index < document.size :=
    lt_size_below (liesIn_textUnit document id) (lt_size_of_parent isHolder)
  have snipped := Snipped.of_snip wellFormed childless isText inStore head rest
  have element_eq := snipped.textElement?_eq wellFormed inStore
  rcases isElement : document.textElement? id with _ | element
  · have isUnit : document.textUnit id = id := by rw [textUnit, isElement, Option.getD_none]
    rcases snipped.exists_moves wellFormed inStore (isUnit ▸ isHolder) with
      ⟨placed, earlier, later, placeDone, moves⟩
    refine ⟨_, placed, splitText_eq_ok.mpr ⟨head, rest, cut, isText, rfl,
      Or.inl ⟨element_eq.trans isElement, placeDone⟩⟩, ?_⟩
    exact snipped.snips wellFormed isText inStore isHolder (by rwa [isUnit])
  · have isUnit : document.textUnit id = element := by rw [textUnit, isElement, Option.getD_some]
    have named := (Option.filter_eq_some_iff.mp isElement).2
    have element_lt : element.index < document.size := isUnit ▸ lt_size_of_parent isHolder
    rcases FillsCopy.exists_done snipped.wellFormed snipped.detached snipped.node_lt element with
      ⟨filled, fillDone, fills⟩
    have filledSnipped := snipped.of_fillsCopy element_lt named fills
    rcases filledSnipped.exists_moves wellFormed element_lt (isUnit ▸ isHolder) with
      ⟨placed, earlier, later, placeDone, moves⟩
    have snips := filledSnipped.snips wellFormed isText inStore isHolder (isUnit.symm ▸ moves)
    rcases sameShape_setAttribute snips.wellFormed element Word.Name.space "preserve" with
      ⟨toSpaced, textOf_spaced⟩
    rcases sameShape_setAttribute toSpaced.wellFormed (document.snip id head rest).nextId
      Word.Name.space "preserve" with ⟨toLast, textOf_last⟩
    refine ⟨_, _, splitText_eq_ok.mpr ⟨head, rest, cut, isText, rfl, Or.inr ⟨element, _, _, filled,
      placed, element_eq.trans isElement, copyNode_eq_ok.mpr ⟨rfl, rfl⟩, fillDone, placeDone, rfl⟩⟩,
      ?_⟩
    exact (snips.sameShape toSpaced textOf_spaced).sameShape toLast textOf_last

/-- A text node is cut between two of its characters. At any other offset nothing is changed. -/
theorem splitText_snips (wellFormed : document.WellFormed) (childless : document.TextChildless)
    (isText : document.isText id = true)
    (isHolder : document.parent (document.textUnit id) = some holder) (offset : Nat) :
    (∀ head rest, Text.splitAtByte? offset (document.textOf id).toList = some (head, rest) →
      ∃ tail after, splitText id offset document = .ok tail after ∧
        Snips document after id tail head rest) ∧
    (Text.splitAtByte? offset (document.textOf id).toList = none →
      splitText id offset document = .error (.invalidOffset id offset) document) := by
  refine ⟨fun head rest => exists_snips_splitText wellFormed childless isText isHolder,
    fun uncut => ?_⟩
  rcases Option.isSome_iff_exists.mp isText with ⟨characters, isCharacters⟩
  rw [textOf, isCharacters, Option.getD_some] at uncut
  refine bind_eq_error.mpr (Or.inr ⟨characters, document, textAt_eq_ok.mpr ⟨isCharacters, rfl⟩, ?_⟩)
  rw [uncut]
  rfl

/-- Where no text follows in the text element, cutting a text node keeps the order of the text: the
tail is the next text node after the head, and the text around them is the same. -/
theorem splitText_keepsOrder (wellFormed : document.WellFormed) (childless : document.TextChildless)
    (isText : document.isText id = true)
    (isHolder : document.parent (document.textUnit id) = some holder)
    (isLast : (document.texts (document.textUnit id)).getLast? = some id)
    (cut : Text.splitAtByte? offset (document.textOf id).toList = some (head, rest)) :
    ∃ tail after, splitText id offset document = .ok tail after ∧ after.nextText? id = some tail ∧
      ∀ top, document.LiesIn top holder → after.textContent top = document.textContent top := by
  rcases exists_snips_splitText wellFormed childless isText isHolder cut with
    ⟨tail, after, done, snips⟩
  rcases List.getLast?_eq_some_iff.mp isLast with ⟨lead, isUnit⟩
  refine ⟨tail, after, done, ?_, fun top inside => ?_⟩
  · rcases snips.exists_texts wellFormed childless isHolder LiesIn.refl isUnit with
      ⟨left, right, -, whole⟩
    have whole : after.texts holder = left ++ id :: tail :: right := by simpa using whole
    exact nextText?_of_texts snips.wellFormed (snips.childless.plainBelow snips.wellFormed holder) whole
  · rcases snips.exists_textContent wellFormed childless isHolder inside isUnit
      (Text.append_eq_of_splitAtByte? cut).1 with ⟨first, last, before, after⟩
    rw [before, after]
    simp [String.append_assoc]

/-- A text element with a comment between two text nodes. -/
def textAroundComment : Document :=
  .ofTree (Tree.node "w:p" []
    [Tree.node "w:r" [] [Tree.node "w:t" [] [.text "ab", .markup "<!--c-->", .text "cd"]]])

/-- Text that follows in the text element comes before the tail. -/
example : textAroundComment.textContent ⟨1⟩ = "abcd" ∧
    (match splitText ⟨4⟩ 1 textAroundComment with
      | .ok _ after => some (after.textContent ⟨1⟩)
      | .error _ _ => none) = some "acdb" := by
  decide +kernel

end Edit

end WordTemplate
