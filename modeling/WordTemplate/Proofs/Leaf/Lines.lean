import WordTemplate.Leaf.Text
import WordTemplate.Proofs.Document.Rewiring
import WordTemplate.Proofs.Document.TextChanges
import WordTemplate.Proofs.Filling.Working
import WordTemplate.Proofs.Total.Steps
import WordTemplate.Proofs.Word.TextNode

/-!
# A text is written line by line

The first line of a text goes into the text node of the tag. Each further line stands in a copy of
the text element around it, behind a line break, and nothing else changes. So all lines follow each
other in the text of the document, and the other text around them stays as it was.
-/

namespace WordTemplate.Leaf

open Outcome Document

/-- The nodes of a line: a line break, and a text element with a text node. -/
structure LineNodes where
  lineBreak : NodeId
  element : NodeId
  characters : NodeId

/-- The nodes of a line that stand beside each other. -/
def LineNodes.siblings (nodes : LineNodes) : List NodeId := [nodes.lineBreak, nodes.element]

variable {document before middle after : Document} {outer unit anchor text top id : NodeId}
  {left right : List NodeId} {held : Element} {nodes : LineNodes} {added : List LineNodes}
  {line : String} {lines : List String}

/-- New nodes show a line in an element that carries `held`. -/
structure ShowsLine (before after : Document) (held : Element) (nodes : LineNodes) (line : String) :
    Prop where
  isNew : ∀ id ∈ [nodes.lineBreak, nodes.element, nodes.characters], before.size ≤ id.index
  content_break : after.content nodes.lineBreak = .element { name := Word.Name.lineBreak }
  children_break : after.children nodes.lineBreak = []
  content_element : after.content nodes.element = .element held
  children_element : after.children nodes.element = [nodes.characters]
  content_characters : after.content nodes.characters = .text line
  children_characters : after.children nodes.characters = []

namespace ShowsLine

variable (shows : ShowsLine before after held nodes line)
include shows

theorem parent_characters (wellFormed : after.WellFormed) :
    after.parent nodes.characters = some nodes.element := by
  rw [← wellFormed.mem_children_iff, shows.children_element]
  exact List.mem_cons_self

theorem texts_break (wellFormed : after.WellFormed) : after.texts nodes.lineBreak = [] := by
  rw [texts_eq wellFormed, shows.children_break, isText, text?, shows.content_break]
  rfl

theorem texts_characters (wellFormed : after.WellFormed) :
    after.texts nodes.characters = [nodes.characters] := by
  rw [texts_eq wellFormed, shows.children_characters, isText, text?, shows.content_characters]
  rfl

theorem texts_element (wellFormed : after.WellFormed) :
    after.texts nodes.element = [nodes.characters] := by
  rw [texts_eq wellFormed, shows.children_element, List.flatMap_singleton,
    shows.texts_characters wellFormed, isText, text?, shows.content_element]
  rfl

theorem textOf_characters : after.textOf nodes.characters = line := by
  rw [textOf, text?, shows.content_characters]
  rfl

end ShowsLine

/-! ## Adding lines -/

theorem lt_size_of_children (children : document.children outer = left ++ anchor :: right) :
    outer.index < document.size := by
  by_contra beyond
  rw [children_of_size_le (Nat.le_of_not_lt beyond)] at children
  simp at children

/-- Lines were added behind a child of a node, in their order. -/
structure LinesAdded (before after : Document) (outer anchor : NodeId) (left right : List NodeId)
    (held : Element) (added : List LineNodes) (lines : List String) : Prop extends
    Rewires (· = outer) (fun _ => False) before after where
  root_eq : after.root = before.root
  children_outer :
    after.children outer = left ++ anchor :: (added.flatMap LineNodes.siblings ++ right)
  shows : List.Forall₂ (ShowsLine before after held) added lines

/-- Creates a detached copy of a text element with a line in it. -/
def createLine (unit : NodeId) (line : String) : Edit NodeId := do
  let element ← Edit.copyNode unit
  let characters ← Edit.createText line
  Edit.appendChild element characters
  return element

/-- Adds one line behind a node and returns its text element. -/
def addLine (unit anchor : NodeId) (line : String) : Edit NodeId := do
  let lineBreak ← Edit.createElement Word.Name.lineBreak
  Edit.insertAfter lineBreak anchor
  let element ← createLine unit line
  Edit.insertAfter element lineBreak
  return element

theorem addLines_cons (unit anchor : NodeId) (line : String) (rest : List String) :
    addLines unit anchor (line :: rest) =
      addLine unit anchor line >>= fun element => addLines unit element rest := by
  simp only [addLines, addLine, createLine, bind_assoc, pure_bind]

theorem succeeds_createLine (wellFormed : document.WellFormed) (unit : NodeId) (line : String) :
    Succeeds (createLine unit line) document fun element after => Fresh document after element ∧
      ∃ characters, document.size ≤ characters.index ∧
        after.content element = document.content unit ∧ after.children element = [characters] ∧
        after.content characters = .text line ∧ after.children characters = [] := by
  have element := fresh_add wellFormed (document.content unit)
  have characters := fresh_add element.wellFormed (.text line)
  have grown := element.adds characters.toAdds
  have differ := element.ne_of_later characters
  have outside : ¬((document.add (document.content unit)).add (.text line)).LiesIn
      (document.add (document.content unit)).nextId document.nextId := fun inside =>
    differ (inside.eq_of_parent_none grown.detached)
  rcases Edit.exists_moves_appendChild grown.wellFormed grown.inStore characters.inStore outside with
    ⟨after, done, moves⟩
  refine Succeeds.of_step rfl (Succeeds.of_step rfl (Succeeds.of_step done (Succeeds.of_pure
    ⟨grown.moves (characters.since element.toAdds) differ moves grown.isNew, _,
      (characters.since element.toAdds).isNew, ?_, ?_, ?_, ?_⟩)))
  · rw [moves.content_eq, content_add, if_neg differ, content_add, if_pos rfl]
  · rw [moves.children_eq, if_pos rfl, children_add, children_add, children_nextId]
    rfl
  · rw [moves.content_eq, content_add, if_pos rfl]
  · rw [moves.children_eq, if_neg differ.symm, children_add, children_nextId, List.filter_nil]

theorem succeeds_lineAdded (wellFormed : document.WellFormed)
    (isElement : document.content unit = .element held)
    (children : document.children outer = left ++ anchor :: right) (line : String) :
    Succeeds (addLine unit anchor line) document fun element after => ∃ nodes : LineNodes,
      nodes.element = element ∧
        LinesAdded document after outer anchor left right held [nodes] [line] := by
  have break_fresh := fresh_add wellFormed (.element { name := Word.Name.lineBreak })
  rcases break_fresh.exists_placed_insertAfter wellFormed children with ⟨broken, breakDone, breaks⟩
  refine Succeeds.of_step rfl (Succeeds.of_step breakDone ?_)
  have break_lt : document.nextId.index < broken.size := by
    rw [breaks.size_eq]
    exact break_fresh.inStore
  refine (succeeds_createLine breaks.wellFormed unit line).bind ?_
  rintro element created - ⟨fresh, characters, charactersNew, isCopy, holds, isLine, childless⟩
  rcases fresh.exists_placed_insertAfter breaks.wellFormed breaks.children_outer with
    ⟨after, done, placed⟩
  have outer_lt := lt_size_of_children children
  have notOuter : document.nextId ≠ outer := (break_fresh.ne_of_old outer_lt).symm
  refine Succeeds.of_step done (Succeeds.of_pure ⟨⟨document.nextId, element, characters⟩, rfl,
    breaks.toRewires.trans placed.toRewires (fun _ => id) (fun _ => id) (fun _ _ => id)
      fun _ _ => id, placed.root_eq.trans breaks.root_eq, ?_, .cons ⟨?_, ?_, ?_, ?_, ?_, ?_, ?_⟩ .nil⟩)
  · simp [placed.children_outer, LineNodes.siblings]
  · have isNew := breaks.size_le
    simp only [List.forall_mem_cons, List.not_mem_nil, false_implies, implies_true, and_true]
    exact ⟨break_fresh.isNew, Nat.le_trans isNew fresh.isNew, Nat.le_trans isNew charactersNew⟩
  · rw [placed.content_eq _ break_lt, breaks.content_new _ break_fresh.isNew, content_add, if_pos rfl]
  · rw [placed.children_eq _ break_lt notOuter, breaks.children_new _ break_fresh.isNew, children_add,
      children_nextId]
  · rw [placed.content_new _ fresh.isNew, isCopy, breaks.content_eq _ (lt_size_of_element isElement),
      isElement]
  · rw [placed.children_new _ fresh.isNew, holds]
  · rw [placed.content_new _ charactersNew, isLine]
  · rw [placed.children_new _ charactersNew, childless]

/-- A line that was added stays while others are added behind it. -/
theorem ShowsLine.rewires (shows : ShowsLine before middle held nodes line)
    (rewires : Rewires (· = outer) (fun _ => False) middle after) (wellFormed : middle.WellFormed)
    (outer_lt : outer.index < before.size) : ShowsLine before after held nodes line := by
  have notOuter : ∀ id ∈ [nodes.lineBreak, nodes.element, nodes.characters], id ≠ outer := by
    rintro id isMember rfl
    exact Nat.not_lt_of_le (shows.isNew id isMember) outer_lt
  have isParent := shows.parent_characters wellFormed
  have isBreak : middle.isNamed nodes.lineBreak Word.Name.lineBreak = true := by
    rw [isNamed, name?, element?, shows.content_break]
    rfl
  have break_lt := lt_size_of_isNamed isBreak
  have element_lt := parent_lt_size wellFormed isParent
  have characters_lt := lt_size_of_parent isParent
  simp only [List.forall_mem_cons, List.not_mem_nil, false_implies, implies_true, and_true]
    at notOuter
  rcases notOuter with ⟨break_ne, element_ne, characters_ne⟩
  refine ⟨shows.isNew, ?_, ?_, ?_, ?_, ?_, ?_⟩
  · rw [rewires.content_eq _ break_lt, shows.content_break]
  · rw [rewires.children_eq _ break_lt break_ne, shows.children_break]
  · rw [rewires.content_eq _ element_lt, shows.content_element]
  · rw [rewires.children_eq _ element_lt element_ne, shows.children_element]
  · rw [rewires.content_eq _ characters_lt, shows.content_characters]
  · rw [rewires.children_eq _ characters_lt characters_ne, shows.children_characters]

/-- Lines are added behind the last line that was added. -/
theorem LinesAdded.cons (first : LinesAdded before middle outer anchor left right held [nodes] [line])
    (later : LinesAdded middle after outer nodes.element (left ++ [anchor, nodes.lineBreak]) right held
      added lines) (outer_lt : outer.index < before.size) :
    LinesAdded before after outer anchor left right held (nodes :: added) (line :: lines) where
  toRewires := first.toRewires.trans later.toRewires (fun _ => id) (fun _ => id) (fun _ _ => id)
    fun _ _ => id
  root_eq := later.root_eq.trans first.root_eq
  children_outer := by simp [later.children_outer, LineNodes.siblings]
  shows := by
    rcases first.shows with _ | ⟨shows, -⟩
    refine .cons (shows.rewires later.toRewires first.wellFormed outer_lt) (later.shows.imp ?_)
    exact fun _ _ shows => { shows with
      isNew := fun id isMember => Nat.le_trans first.size_le (shows.isNew id isMember) }

/-- Any number of lines can be added behind any child of a node. -/
theorem succeeds_linesAdded (wellFormed : document.WellFormed)
    (isElement : document.content unit = .element held)
    (children : document.children outer = left ++ anchor :: right) (lines : List String) :
    Succeeds (addLines unit anchor lines) document fun _ after => ∃ added,
      LinesAdded document after outer anchor left right held added lines := by
  induction lines generalizing document anchor left with
  | nil => exact Succeeds.of_pure ⟨[], .refl wellFormed, rfl, children, .nil⟩
  | cons line lines inductionHypothesis =>
      have outer_lt := lt_size_of_children children
      rw [addLines_cons]
      refine (succeeds_lineAdded wellFormed isElement children line).bind ?_
      rintro _ middle - ⟨nodes, rfl, first⟩
      have children' : middle.children outer =
          (left ++ [anchor, nodes.lineBreak]) ++ nodes.element :: right := by
        simp [first.children_outer, LineNodes.siblings]
      have isElement' : middle.content unit = .element held := by
        rw [first.content_eq _ (lt_size_of_element isElement), isElement]
      refine (inductionHypothesis first.wellFormed isElement' children').imp ?_
      rintro - after - ⟨added, later⟩
      exact ⟨nodes :: added, first.cons later outer_lt⟩

namespace LinesAdded

variable (linesAdded : LinesAdded before after outer anchor left right held added lines)
include linesAdded

/-- The text nodes of the lines follow each other. -/
theorem texts_siblings :
    (added.flatMap LineNodes.siblings).flatMap after.texts = added.map LineNodes.characters := by
  have wellFormed := linesAdded.wellFormed
  have shows := linesAdded.shows
  clear linesAdded
  induction shows with
  | nil => rfl
  | @cons nodes line added lines shows _ inductionHypothesis =>
      rw [List.flatMap_cons, List.flatMap_append, inductionHypothesis, LineNodes.siblings,
        List.flatMap_cons, List.flatMap_singleton, shows.texts_break wellFormed,
        shows.texts_element wellFormed]
      rfl

/-- The text nodes of the lines hold the lines. -/
theorem map_textOf : (added.map LineNodes.characters).map after.textOf = lines := by
  have shows := linesAdded.shows
  clear linesAdded
  induction shows with
  | nil => rfl
  | cons shows _ inductionHypothesis =>
      rw [List.map_cons, List.map_cons, shows.textOf_characters, inductionHypothesis]

/-- The lines come right behind the text of the child that they were added behind. -/
theorem exists_texts (wellFormed : before.WellFormed)
    (children : before.children outer = left ++ anchor :: right) (top_lt : top.index < before.size)
    (inside : before.LiesIn top outer) : ∃ lead later,
      before.texts top = lead ++ before.texts anchor ++ later ∧
      after.texts top = lead ++ before.texts anchor ++ added.map LineNodes.characters ++ later := by
  have isText_eq : ∀ id, before.LiesIn top id → after.isText id = before.isText id := by
    intro id below
    simp only [isText, text?, linesAdded.content_eq id (lt_size_below below top_lt)]
  rcases exists_texts_around_change wellFormed linesAdded.wellFormed
    (fun id below differ => linesAdded.children_eq id (lt_size_below below top_lt) differ) isText_eq
    inside with ⟨lead, later, whole, whole'⟩
  have child_texts : ∀ child ∈ before.children outer, after.texts child = before.texts child := by
    intro child isChild
    have isParent := (wellFormed.mem_children_iff _ _).mp isChild
    have child_lt := lt_size_of_parent isParent
    refine texts_congr wellFormed linesAdded.wellFormed fun id below => ⟨?_, ?_⟩
    · refine linesAdded.children_eq id (lt_size_below below child_lt) ?_
      rintro rfl
      exact not_liesIn_of_parent wellFormed isParent below
    · simp only [isText, text?, linesAdded.content_eq id (lt_size_below below child_lt)]
  rw [children] at child_texts whole
  have anchor_texts := child_texts anchor (by simp)
  have left_texts : left.flatMap after.texts = left.flatMap before.texts :=
    List.flatMap_congr fun child isMember => child_texts child (by simp [isMember])
  have right_texts : right.flatMap after.texts = right.flatMap before.texts :=
    List.flatMap_congr fun child isMember => child_texts child (by simp [isMember])
  refine ⟨lead ++ left.flatMap before.texts, right.flatMap before.texts ++ later, ?_, ?_⟩
  · rw [whole]
    simp
  · rw [whole', linesAdded.children_outer, List.flatMap_append, List.flatMap_cons, List.flatMap_append,
      linesAdded.texts_siblings, anchor_texts, left_texts, right_texts]
    simp

end LinesAdded

/-! ## Writing a text -/

/-- A text is written: its first line in a text node, the others behind the text element. -/
structure Written (before after : Document) (text unit outer : NodeId) (left right : List NodeId)
    (held : Element) (added : List LineNodes) (first : String) (rest : List String) : Prop where
  wellFormed : after.WellFormed
  size_le : before.size ≤ after.size
  root_eq : after.root = before.root
  content_text : after.content text = .text first
  content_unit : after.content unit = .element (held.setAttribute Word.Name.space "preserve")
  content_eq : ∀ id, id.index < before.size → id ≠ text → id ≠ unit →
    after.content id = before.content id
  children_eq : ∀ id, id.index < before.size → id ≠ outer → after.children id = before.children id
  parent_eq : ∀ id, id.index < before.size → after.parent id = before.parent id
  children_outer : after.children outer = left ++ unit :: (added.flatMap LineNodes.siblings ++ right)
  shows : List.Forall₂
    (ShowsLine before after (held.setAttribute Word.Name.space "preserve")) added rest

/-- The text around a text node changes where the lines of the written text are. What stands in the
text element behind the text node comes between the first line and the others. -/
structure WrittenIn (before after : Document) (text unit : NodeId) (first : String)
    (rest : List String) (top : NodeId) (lead behind later : String) : Prop where
  before_eq : before.textContent top = lead ++ before.textOf text ++ behind ++ later
  after_eq : after.textContent top = lead ++ first ++ behind ++ String.join rest ++ later
  nothing_behind : before.texts unit = [text] → behind = ""

/-- A text stands line by line where a text node was, and around the text node all other text stays. -/
def WritesLines (before after : Document) (text unit outer : NodeId) (written : String) : Prop :=
  ∃ left right held first rest added, before.children outer = left ++ unit :: right ∧
    before.content unit = .element held ∧ Text.lines written = first :: rest ∧
    Written before after text unit outer left right held added first rest ∧
    ∀ top, before.LiesIn top outer → ∃ lead behind later,
      WrittenIn before after text unit first rest top lead behind later

/-- The first line of a text is written, and its text element keeps spaces. -/
structure FirstLine (before after : Document) (text unit : NodeId) (held : Element) (first : String) :
    Prop extends SameShape before after where
  content_text : after.content text = .text first
  content_unit : after.content unit = .element (held.setAttribute Word.Name.space "preserve")
  content_eq : ∀ id, id ≠ text → id ≠ unit → after.content id = before.content id

theorem firstLine_of_setText (wellFormed : document.WellFormed) (isText : document.isText text = true)
    (text_lt : text.index < document.size) (isElement : document.content unit = .element held)
    (first : String) :
    FirstLine document
      ((document.setContent text (.text first)).setAttribute unit Word.Name.space "preserve") text unit
      held first := by
  have differ : text ≠ unit := by
    rintro rfl
    rw [Document.isText, text?, isElement] at isText
    cases isText
  have shape := sameShape_setText wellFormed isText text_lt first
  refine ⟨shape.trans (sameShape_setAttribute shape.wellFormed _ _ _).1, ?_, ?_, ?_⟩
  · rw [content_setAttribute_of_ne differ, content_setContent document text_lt, if_pos rfl]
  · refine content_setAttribute ?_ _ _
    rw [content_setContent document text_lt, if_neg differ.symm, isElement]
  · intro id notText notUnit
    rw [content_setAttribute_of_ne notUnit, content_setContent document text_lt, if_neg notText]

namespace FirstLine

variable {first : String} {rest : List String} (started : FirstLine before middle text unit held first)
  (linesAdded : LinesAdded middle after outer unit left right
    (held.setAttribute Word.Name.space "preserve") added rest)
include started linesAdded

theorem written (text_lt : text.index < before.size) (unit_lt : unit.index < before.size) :
    Written before after text unit outer left right held added first rest := by
  have size_eq := started.size_eq
  refine ⟨linesAdded.wellFormed, size_eq ▸ linesAdded.size_le, linesAdded.root_eq.trans started.root_eq,
    ?_, ?_, fun id isOld notText notUnit => ?_, fun id isOld notOuter => ?_, fun id isOld => ?_,
    linesAdded.children_outer, ?_⟩
  · rw [linesAdded.content_eq text (size_eq ▸ text_lt), started.content_text]
  · rw [linesAdded.content_eq unit (size_eq ▸ unit_lt), started.content_unit]
  · rw [linesAdded.content_eq id (size_eq ▸ isOld), started.content_eq id notText notUnit]
  · rw [linesAdded.children_eq id (size_eq ▸ isOld) notOuter, started.children_eq]
  · rw [linesAdded.parent_eq id (size_eq ▸ isOld) not_false, started.parent_eq]
  · exact linesAdded.shows.imp fun _ _ shows => { shows with
      isNew := fun id isMember => size_eq ▸ shows.isNew id isMember }

omit linesAdded in
/-- All text but that of the text node stays. -/
theorem textOf_eq (id : NodeId) : middle.textOf id = if id = text then first else before.textOf id := by
  split
  · next isText =>
      rw [isText, textOf, text?, started.content_text]
      rfl
  · next notText =>
      by_cases isUnit : id = unit
      · have emptyAfter : middle.text? unit = none := by
          rw [text?, started.content_unit]
          rfl
        have emptyBefore : before.text? unit = none := by
          rw [← Option.not_isSome_iff_eq_none, ← Document.isText, ← started.isText_eq, Document.isText,
            emptyAfter]
          exact Bool.false_ne_true
        rw [isUnit, textOf, textOf, emptyAfter, emptyBefore]
      · rw [textOf, textOf, text?, text?, started.content_eq id notText isUnit]

/-- The lines follow each other where the text node is. -/
theorem writtenIn (wellFormed : before.WellFormed) (isMember : text ∈ before.texts unit)
    (children : before.children outer = left ++ unit :: right) (inside : before.LiesIn top outer) :
    ∃ lead behind later, WrittenIn before after text unit first rest top lead behind later := by
  have top_lt := lt_size_of_liesIn wellFormed inside (lt_size_of_children children)
  have inside' : middle.LiesIn top outer :=
    (liesIn_iff_of_parent_eq fun above _ => started.parent_eq above).mpr inside
  rcases linesAdded.exists_texts started.wellFormed ((started.children_eq outer).trans children)
    (started.size_eq ▸ top_lt) inside' with ⟨lead, later, whole, whole'⟩
  rw [started.toSameShape.texts_eq wellFormed, started.toSameShape.texts_eq wellFormed] at whole
  rw [started.toSameShape.texts_eq wellFormed] at whole'
  rcases List.append_of_mem isMember with ⟨ahead, behind, unit_texts⟩
  rw [unit_texts] at whole whole'
  rw [← List.append_assoc] at whole whole'
  generalize isFront : lead ++ ahead = front at whole whole'
  -- The text node occurs once, so the text nodes around it still have their text.
  have split : before.texts top = front ++ text :: (behind ++ later) := by simp [whole]
  have nodup := nodup_texts wellFormed top
  rw [split, List.nodup_middle, List.nodup_cons] at nodup
  have textOf_old : ∀ id ∈ before.texts top,
      after.textOf id = if id = text then first else before.textOf id := by
    intro id isMember
    have isOld : id.index < middle.size := by
      rw [started.size_eq]
      exact lt_size_of_mem_texts wellFormed top_lt isMember
    rw [← started.textOf_eq, textOf, textOf, text?, text?, linesAdded.content_eq id isOld]
  have textOf_text : after.textOf text = first := by
    rw [textOf_old text (by simp [split]), if_pos rfl]
  have kept : ∀ ids, ids ⊆ front ++ (behind ++ later) →
      ids.map after.textOf = ids.map before.textOf := by
    intro ids isSubset
    refine List.map_congr_left fun id isMember => ?_
    have isAround := isSubset isMember
    have differ : id ≠ text := fun same => nodup.1 (same ▸ isAround)
    have isMember : id ∈ before.texts top := by
      rw [split]
      exact (List.Sublist.append_left (List.sublist_cons_self _ _) _).subset isAround
    rw [textOf_old id isMember, if_neg differ]
  refine ⟨String.join (front.map before.textOf), String.join (behind.map before.textOf),
    String.join (later.map before.textOf), ?_, ?_, fun isAlone => ?_⟩
  · rw [textContent_eq, split]
    simp [String.join_append, String.append_assoc]
  · rw [textContent_eq, whole']
    simp only [List.map_append, List.map_cons, linesAdded.map_textOf, textOf_text,
      kept front (by simp), kept behind (by simp), kept later (by simp), String.join_append,
      String.join_cons, String.append_assoc]
  · rw [isAlone] at unit_texts
    have isLast : behind = [] := by
      rcases ahead with _ | ⟨other, ahead⟩ <;> simp_all
    rw [isLast]
    rfl

end FirstLine

theorem pieces_ne_nil (separator : Char) (characters : List Char) :
    Text.pieces separator characters ≠ [] := by
  cases characters with
  | nil => exact List.cons_ne_nil _ _
  | cons first rest =>
      rw [Text.pieces]
      split
      · exact List.cons_ne_nil _ _
      · split <;> exact List.cons_ne_nil _ _

/-- Every text has a first line. -/
theorem exists_lines (written : String) : ∃ first rest, Text.lines written = first :: rest := by
  refine List.exists_cons_of_ne_nil fun empty => pieces_ne_nil '\n' written.toList ?_
  rwa [Text.lines, List.map_eq_nil_iff] at empty

example : Text.lines "a\r\nb\n" = ["a", "b", ""] := by decide +kernel

/-- **Every line is written.** A text that is written into a text node of a text element stands there
line by line: the first line in the text node, each further one in a copy of the text element behind
a line break. In the text of the document the lines follow each other in the place of the text node,
and all other text stays. -/
theorem writeText_writes (wellFormed : document.WellFormed) (isText : document.isText text = true)
    (isUnit : document.textElement? text = some unit) (isOuter : document.parent unit = some outer)
    (written : String) :
    Succeeds (writeText text written) document fun _ after =>
      WritesLines document after text unit outer written := by
  have unitIs : document.parent text = some unit ∧ document.isNamed unit Word.Name.text = true := by
    rw [textElement?, Option.filter_eq_some_iff] at isUnit
    exact isUnit
  have text_lt := lt_size_of_parent unitIs.1
  have unit_lt := lt_size_of_parent isOuter
  obtain ⟨held, isElement⟩ : ∃ held, document.content unit = .element held := by
    have named := unitIs.2
    rw [isNamed, name?, element?] at named
    cases isContent : document.content unit with
    | element held => exact ⟨held, rfl⟩
    | text characters => simp [isContent, Content.element?] at named
    | markup raw => simp [isContent, Content.element?] at named
  have isChild : unit ∈ document.children outer := (wellFormed.mem_children_iff _ _).mpr isOuter
  rcases List.append_of_mem isChild with ⟨left, right, children⟩
  rcases exists_lines written with ⟨first, rest, isLines⟩
  have started := firstLine_of_setText wellFormed isText text_lt isElement first
  have isMember : text ∈ document.texts unit :=
    (mem_texts_iff wellFormed).mpr ⟨LiesIn.parent unitIs.1, isText⟩
  have startDone : Edit.setText text first document =
      .ok ⟨⟩ (document.setContent text (.text first)) := Edit.setText_eq_ok.mpr ⟨isText, rfl⟩
  have stillUnit : (document.setContent text (.text first)).textElement? text = some unit := by
    have shape := sameShape_setText wellFormed isText text_lt first
    rw [textElement?, shape.parent_eq, unitIs.1, Option.filter_some, shape.isNamed_eq, if_pos unitIs.2]
  -- The text element is looked up after the first line is written, so it is found again.
  rw [writeText, isLines]
  refine Succeeds.of_step startDone (Succeeds.of_get ?_)
  rw [stillUnit]
  refine Succeeds.of_step rfl ((succeeds_linesAdded started.wellFormed started.content_unit
    ((started.children_eq outer).trans children) rest).imp ?_)
  rintro - after - ⟨added, linesAdded⟩
  exact ⟨left, right, held, first, rest, added, children, isElement, isLines,
    started.written linesAdded text_lt unit_lt,
    fun top inside => started.writtenIn linesAdded wellFormed isMember children inside⟩

/-- A tag outside of checkboxes is replaced by the lines of the text of its value. -/
theorem replaceByText_writes {workspace : Workspace} {tag : Tag}
    (wellFormed : workspace.document.WellFormed)
    (isText : workspace.document.isText tag.textNode = true)
    (noCheckbox : checkbox? workspace.document tag.textNode = none)
    (isUnit : workspace.document.textElement? tag.textNode = some unit)
    (isOuter : workspace.document.parent unit = some outer) (context : Context) :
    Succeeds (replaceByText context tag) workspace fun _ after =>
      WritesLines workspace.document after.document tag.textNode unit outer
        (((context.valueAt workspace.path).map Data.Value.shownText).getD "") := by
  refine Succeeds.of_step (Context.boundValue?_eq_ok.mpr ⟨rfl, rfl⟩) (Succeeds.of_get ?_)
  rw [noCheckbox]
  exact (Succeeds.of_edit_work (writeText_writes wellFormed isText isUnit isOuter _)).imp
    fun _ _ _ writes => writes.1

end WordTemplate.Leaf
