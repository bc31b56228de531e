import WordTemplate.Leaf.Text
import WordTemplate.Proofs.Filling.Working
import WordTemplate.Proofs.Tag.Extraction
import WordTemplate.Proofs.Total.Joining

/-!
# Writing text succeeds

A text node in a run can be filled with text. Its first line goes into the text node itself; each
further one goes into a new text element of the run, so that the lines follow each other in the
running text.
-/

namespace WordTemplate

open Document Outcome

namespace Document

variable {base document before middle after : Document} {host node parent run id text : NodeId}
  {stray : NodeId → Prop}

/-- Old nodes carry what they did and stay where they are, and only `run` got further children. -/
structure Extends (before after : Document) (run : NodeId) : Prop where
  size_le : before.size ≤ after.size
  content_eq : ∀ id, id.index < before.size → after.content id = before.content id
  parent_eq : ∀ id, id.index < before.size → after.parent id = before.parent id
  children_eq : ∀ id, id.index < before.size → id ≠ run → after.children id = before.children id

namespace Extends

theorem refl (document : Document) (run : NodeId) : Extends document document run :=
  ⟨Nat.le_refl _, fun _ _ => rfl, fun _ _ => rfl, fun _ _ _ => rfl⟩

theorem trans (first : Extends before middle run) (second : Extends middle after run) :
    Extends before after run where
  size_le := Nat.le_trans first.size_le second.size_le
  content_eq id isOld := (second.content_eq id (Nat.lt_of_lt_of_le isOld first.size_le)).trans
    (first.content_eq id isOld)
  parent_eq id isOld := (second.parent_eq id (Nat.lt_of_lt_of_le isOld first.size_le)).trans
    (first.parent_eq id isOld)
  children_eq id isOld differ :=
    (second.children_eq id (Nat.lt_of_lt_of_le isOld first.size_le) differ).trans
      (first.children_eq id isOld differ)

theorem of_retains (retains : Retains before after) : Extends before after run where
  size_le := retains.size_le
  content_eq _ := retains.content_eq
  parent_eq _ := retains.parent_eq
  children_eq _ isOld _ := retains.children_eq isOld

theorem of_new {unit : NodeId} (extended : Extends before after unit)
    (isNew : before.size ≤ unit.index) (run : NodeId) : Extends before after run where
  size_le := extended.size_le
  content_eq := extended.content_eq
  parent_eq := extended.parent_eq
  children_eq id isOld _ := extended.children_eq id isOld fun same =>
    Nat.not_le_of_lt (same ▸ isOld) isNew

/-- A new node is placed below the run or below another new node. -/
theorem moves {left right : List NodeId} (extended : Extends base document run)
    (moves : Moves document after node parent left right) (wellFormed : document.WellFormed)
    (nodeNew : base.size ≤ node.index) (parentKnown : parent = run ∨ base.size ≤ parent.index)
    (detached : document.parent node = none) : Extends base after run where
  size_le := by
    rw [moves.size_eq]
    exact extended.size_le
  content_eq id isOld := (moves.content_eq id).trans (extended.content_eq id isOld)
  parent_eq id isOld := by
    rw [moves.parent_eq, if_neg, extended.parent_eq id isOld]
    rintro rfl
    exact Nat.not_le_of_lt isOld nodeNew
  children_eq id isOld differ := by
    rw [moves.children_eq, if_neg, filter_children_of_parent_none wellFormed detached,
      extended.children_eq id isOld differ]
    rintro rfl
    rcases parentKnown with same | isNew
    · exact differ same
    · exact Nat.not_le_of_lt isOld isNew

variable (extended : Extends before after run)
include extended

theorem isText_eq (isOld : id.index < before.size) : after.isText id = before.isText id := by
  rw [Document.isText, text?, extended.content_eq id isOld, ← text?, ← Document.isText]

theorem isNamed_eq (isOld : id.index < before.size) (name : String) :
    after.isNamed id name = before.isNamed id name := by
  rw [isNamed_of_content_eq (extended.content_eq id isOld)]

theorem textOf_eq (isOld : id.index < before.size) : after.textOf id = before.textOf id := by
  rw [textOf, text?, extended.content_eq id isOld, ← text?, ← textOf]

/-- What is above an old node is as it was. -/
theorem liesIn_iff (wellFormed : before.WellFormed) (isOld : id.index < before.size) :
    after.LiesIn node id ↔ before.LiesIn node id :=
  liesIn_iff_of_parent_eq fun above inside =>
    extended.parent_eq above (lt_size_of_liesIn wellFormed inside isOld)

theorem tier_eq (isOld : id.index < before.size) : after.tier? id = before.tier? id :=
  tier?_congr (by rw [name?, element?, extended.content_eq id isOld, ← element?, ← name?])
    (extended.isText_eq isOld)

/-- The text nodes below an old node are as they were, unless the run is below it. -/
theorem texts_eq (wellFormed : before.WellFormed) (wellFormed' : after.WellFormed)
    (apart : ¬before.LiesIn id run) (isOld : id.index < before.size) :
    after.texts id = before.texts id := by
  refine texts_congr wellFormed wellFormed' fun below inside => ?_
  have below_lt := lt_size_below inside isOld
  refine ⟨extended.children_eq below below_lt ?_, extended.isText_eq below_lt⟩
  rintro rfl
  exact apart inside

/-- Further children right after a child of the run: above the run, their text nodes follow those of
that child, and nothing else changes. -/
theorem exists_texts {anchor top : NodeId} {pre post new : List NodeId} (wellFormed : before.WellFormed)
    (wellFormed' : after.WellFormed) (inside : before.LiesIn top run)
    (inStore : top.index < before.size) (children_eq : before.children run = pre ++ anchor :: post)
    (children_after : after.children run = pre ++ anchor :: (new ++ post)) :
    ∃ lead later, before.texts top = lead ++ (before.texts anchor ++ later) ∧
      after.texts top = lead ++ (before.texts anchor ++ (new.flatMap after.texts ++ later)) := by
  have below_lt : ∀ id, before.LiesIn top id → id.index < before.size := fun id inside =>
    lt_size_below inside inStore
  rcases exists_texts_around_change wellFormed wellFormed'
    (fun id inside differ => extended.children_eq id (below_lt id inside) differ)
    (fun id inside => extended.isText_eq (below_lt id inside)) inside with ⟨left, right, around, around'⟩
  have child_texts : ∀ child ∈ pre ++ anchor :: post, after.texts child = before.texts child := by
    intro child isMember
    rw [← children_eq, wellFormed.mem_children_iff] at isMember
    exact extended.texts_eq wellFormed wellFormed' (not_liesIn_of_parent wellFormed isMember)
      (lt_size_of_parent isMember)
  have pre_texts : pre.flatMap after.texts = pre.flatMap before.texts :=
    List.flatMap_congr fun child isMember => child_texts child (by simp [isMember])
  have post_texts : post.flatMap after.texts = post.flatMap before.texts :=
    List.flatMap_congr fun child isMember => child_texts child (by simp [isMember])
  refine ⟨left ++ pre.flatMap before.texts, post.flatMap before.texts ++ right, ?_, ?_⟩
  · rw [around, children_eq]
    simp
  · rw [around', children_after, List.flatMap_append, List.flatMap_cons, List.flatMap_append, pre_texts,
      post_texts, child_texts anchor (by simp)]
    simp

theorem housed (housed : before.Housed stray host) (tiered : after.Tiered stray) :
    after.Housed stray host := by
  have above_lt : ∀ above, before.LiesIn above host → above.index < before.size := fun above inside =>
    lt_size_of_liesIn housed.toWellFormed inside housed.lt_size
  exact ⟨tiered, housed.counts, (extended.tier_eq housed.lt_size).trans housed.isHost,
    housed.stands.congr (fun above inside => extended.parent_eq above (above_lt above inside))
      fun above inside => extended.tier_eq (above_lt above inside)⟩

end Extends

namespace SameShape

variable (same : SameShape before after)
include same

theorem housed (housed : before.Housed stray host) : after.Housed stray host :=
  housed.congr
    (housed.toTiered.of_parents same.wellFormed (fun isParent => (same.parent_eq _).symm.trans isParent)
      (Nat.le_of_eq same.size_eq.symm) same.name?_eq same.isText_eq)
    (fun above _ => same.parent_eq above)
    fun above _ => tier?_congr (same.name?_eq above) (same.isText_eq above)

end SameShape

/-- The children of a node around one of them, where another one is right after it. -/
theorem children_of_insertAfter {reference : NodeId} {pre post : List NodeId} {result : Unit}
    (wellFormed : document.WellFormed) (detached : document.parent node = none)
    (inStore : node.index < document.size)
    (children_eq : document.children parent = pre ++ reference :: post)
    (done : Edit.insertAfter node reference document = .ok result after) :
    Moves document after node parent (pre ++ [reference]) post := by
  have isParent : document.parent reference = some parent := by
    rw [← wellFormed.mem_children_iff, children_eq]
    simp
  rcases Edit.moves_of_insertAfter wellFormed inStore done with
    ⟨outer, left, right, isOuter, differ, moves⟩
  obtain rfl : parent = outer := by rwa [isParent, Option.some.injEq] at isOuter
  have nodup := wellFormed.nodup_children parent
  have others := moves.others_eq
  rw [filter_children_of_parent_none wellFormed detached, children_eq, List.append_assoc,
    List.singleton_append] at others
  rw [children_eq] at nodup
  rcases append_cons_inj nodup others with ⟨rfl, rfl⟩
  exact moves

end Document

namespace Leaf

variable {document : Document} {host run textElement anchor text : NodeId} {pre post : List NodeId}
  {stray : NodeId → Prop}

/-- A text node in a text element of a run. -/
structure InRun (document : Document) (run textElement text : NodeId) : Prop where
  runNamed : document.isNamed run Word.Name.run = true
  unitNamed : document.isNamed textElement Word.Name.text = true
  unitIs : document.parent textElement = some run
  textIs : document.parent text = some textElement
  isText : document.isText text = true

theorem InRun.textElement?_eq (inRun : InRun document run textElement text) :
    document.textElement? text = some textElement := by
  rw [textElement?, inRun.textIs, Option.filter_some, if_pos inRun.unitNamed]

theorem InRun.extend {after : Document} {other : NodeId}
    (inRun : InRun document run textElement text) (wellFormed : document.WellFormed)
    (extended : Extends document after other) :
    InRun after run textElement text where
  runNamed := by
    rw [extended.isNamed_eq (parent_lt_size wellFormed inRun.unitIs), inRun.runNamed]
  unitNamed := by rw [extended.isNamed_eq (lt_size_of_parent inRun.unitIs), inRun.unitNamed]
  unitIs := by rw [extended.parent_eq _ (lt_size_of_parent inRun.unitIs), inRun.unitIs]
  textIs := by rw [extended.parent_eq _ (lt_size_of_parent inRun.textIs), inRun.textIs]
  isText := by rw [extended.isText_eq (lt_size_of_parent inRun.textIs), inRun.isText]

/-- A line after a child of a run: a line break, and a copy of the text element with the line. -/
structure LineAdded (before after : Document) (run anchor : NodeId) (line : String)
    (pre post : List NodeId) (lineBreak next characters : NodeId) : Prop extends
    Extends before after run where
  wellFormed : after.WellFormed
  children_run : after.children run = pre ++ anchor :: lineBreak :: next :: post
  children_break : after.children lineBreak = []
  break_isText : after.isText lineBreak = false
  children_next : after.children next = [characters]
  next_isText : after.isText next = false
  children_characters : after.children characters = []
  characters_text : after.text? characters = some line
  inStore : lineBreak.index < after.size ∧ next.index < after.size ∧ characters.index < after.size

namespace LineAdded

variable {before after : Document} {line : String} {lineBreak next characters : NodeId}
  (added : LineAdded before after run anchor line pre post lineBreak next characters)
  {stray : NodeId → Prop}
include added

theorem break_parent : after.parent lineBreak = some run :=
  (added.wellFormed.mem_children_iff _ _).mp (by rw [added.children_run]; simp)

theorem next_parent : after.parent next = some run :=
  (added.wellFormed.mem_children_iff _ _).mp (by rw [added.children_run]; simp)

theorem texts_break : after.texts lineBreak = [] := by
  rw [Document.texts_eq added.wellFormed, added.break_isText, added.children_break]
  rfl

theorem texts_next : after.texts next = [characters] := by
  have isText : after.isText characters = true := by
    rw [Document.isText, added.characters_text]
    rfl
  rw [Document.texts_eq added.wellFormed, added.next_isText, added.children_next, List.flatMap_singleton,
    texts_of_childless added.wellFormed isText added.children_characters]
  rfl

end LineAdded

/-- A new text element, copied from an old one, with a new text node in it. -/
structure UnitAdded (before after : Document) (unit characters : NodeId) (line : String) : Prop extends
    Extends before after unit where
  wellFormed : after.WellFormed
  unitNew : before.size ≤ unit.index
  charactersNew : before.size ≤ characters.index
  unitDetached : after.parent unit = none
  unitNamed : after.isNamed unit Word.Name.text = true
  children_unit : after.children unit = [characters]
  children_characters : after.children characters = []
  characters_text : after.text? characters = some line
  inStore : unit.index < after.size ∧ characters.index < after.size

theorem succeeds_addUnit {β : Type} {result : β → Document → Prop} {later : NodeId → Edit β}
    (tiered : document.Tiered stray)
    (unitNamed : document.isNamed textElement Word.Name.text = true) (line : String)
    (rest : ∀ unit characters after, after.Tiered stray → UnitAdded document after unit characters line →
      Succeeds (later unit) after result) :
    Succeeds (do
      let next ← Edit.copyNode textElement
      let characters ← Edit.createText line
      Edit.appendChild next characters
      later next) document result := by
  refine (Edit.succeeds_copyNode tiered textElement).bind ?_
  rintro _ _ - ⟨rfl, rfl, copiedTiered⟩
  refine (Edit.succeeds_create copiedTiered (.text line)).bind ?_
  rintro _ _ - ⟨rfl, rfl, textedTiered⟩
  let copied := document.add (document.content textElement)
  let texted := copied.add (.text line)
  have differ : copied.nextId ≠ document.nextId := nextId_ne (document.nextId_lt_size_add _)
  have unitParent : texted.parent document.nextId = none := by
    rw [parent_add, parent_add, parent_nextId]
  have charactersParent : texted.parent copied.nextId = none := by
    rw [parent_add, parent_nextId]
  have charactersContent : texted.content copied.nextId = .text line := by
    rw [content_add, if_pos rfl]
  have unitNamed' : texted.isNamed document.nextId Word.Name.text = true := by
    rw [isNamed, name?, element?, content_add, if_neg differ.symm, content_add, if_pos rfl, ← element?,
      ← name?, ← isNamed, unitNamed]
  have isText : texted.isText copied.nextId = true := by
    rw [Document.isText, text?, charactersContent]
    rfl
  have unit_lt : document.nextId.index < texted.size :=
    Nat.lt_of_lt_of_le (document.nextId_lt_size_add _) (retains_add copied _).size_le
  have characters_lt : copied.nextId.index < texted.size := copied.nextId_lt_size_add _
  have fits : texted.Fits stray copied.nextId document.nextId := by
    refine .of_isNamed (copiedTiered.not_stray_new (Nat.le_refl _)) (fun _ =>
      ⟨stands_of_detached unitParent, 0, tier?_of_isText isText, ?_⟩) unitNamed' (by decide) (by decide)
    rw [tier?_of_isNamed unitNamed']
    rfl
  refine (Edit.succeeds_appendChild textedTiered unit_lt characters_lt
    (fun inside => differ (inside.eq_of_parent_none unitParent).symm) fits).bind ?_
  rintro ⟨⟩ after - ⟨moves, afterTiered⟩
  refine rest document.nextId copied.nextId after afterTiered ?_
  have extended : Extends document texted document.nextId :=
    .of_retains ((retains_add document _).trans (retains_add copied _))
  have charactersNew : document.size ≤ copied.nextId.index := (retains_add document _).size_le
  refine ⟨extended.moves moves textedTiered.toWellFormed charactersNew (Or.inl rfl) charactersParent,
    moves.wellFormed, Nat.le_refl _, charactersNew, ?_, ?_, ?_, ?_, ?_, ?_⟩
  · rw [moves.parent_eq, if_neg differ.symm, unitParent]
  · rw [moves.isNamed_eq, unitNamed']
  · rw [moves.children_eq, if_pos rfl, children_add, children_add, children_nextId]
    rfl
  · rw [moves.children_eq, if_neg differ, children_add, children_nextId, List.filter_nil]
  · rw [text?, moves.content_eq, charactersContent]
    rfl
  · rw [moves.size_eq]
    exact ⟨unit_lt, characters_lt⟩

/-- A new text element fits into a run that holds text. -/
theorem UnitAdded.fits {before after : Document} {unit characters : NodeId} {line : String}
    (added : UnitAdded before after unit characters line) (tiered : before.Tiered stray)
    (tiered' : after.Tiered stray) (inRun : InRun after run textElement text) (counts : ¬stray text) :
    after.Fits stray unit run := by
  have stands : after.Stands run := tiered'.stands
    ⟨text, inRun.isText, counts, (LiesIn.parent inRun.textIs).trans (LiesIn.parent inRun.unitIs)⟩
  exact .of_isNamed (tiered.not_stray_new added.unitNew) (fun _ => ⟨stands, 1,
    tier?_of_isNamed added.unitNamed, tier?_of_isNamed inRun.runNamed⟩) inRun.runNamed
    (by decide) (by decide)

/-- A line break right after a child of a run. -/
structure BreakAdded (before after : Document) (run anchor : NodeId) (pre post : List NodeId)
    (lineBreak : NodeId) : Prop extends Extends before after run where
  wellFormed : after.WellFormed
  children_run : after.children run = pre ++ anchor :: lineBreak :: post
  children_break : after.children lineBreak = []
  break_isText : after.isText lineBreak = false
  inStore : lineBreak.index < after.size

theorem BreakAdded.break_parent {before after : Document} {lineBreak : NodeId}
    (broke : BreakAdded before after run anchor pre post lineBreak) :
    after.parent lineBreak = some run :=
  (broke.wellFormed.mem_children_iff _ _).mp (by rw [broke.children_run]; simp)

theorem succeeds_addBreak {β : Type} {result : β → Document → Prop} {later : NodeId → Edit β}
    (housed : document.Housed stray host) (children_eq : document.children run = pre ++ anchor :: post)
    (rest : ∀ lineBreak after, after.Housed stray host →
      BreakAdded document after run anchor pre post lineBreak → Succeeds (later lineBreak) after result) :
    Succeeds (do
      let lineBreak ← Edit.createElement Word.Name.lineBreak
      Edit.insertAfter lineBreak anchor
      later lineBreak) document result := by
  have wellFormed := housed.toWellFormed
  have anchorParent : document.parent anchor = some run := by
    rw [← wellFormed.mem_children_iff, children_eq]
    simp
  have run_lt := parent_lt_size wellFormed anchorParent
  refine Succeeds.bind (P := fun created after => created = document.nextId ∧
    after = document.add (.element { name := Word.Name.lineBreak })) (Succeeds.of_done rfl ⟨rfl, rfl⟩) ?_
  rintro _ _ - ⟨rfl, rfl⟩
  have housed₁ := housed.add (.element { name := Word.Name.lineBreak })
  have created : Extends document (document.add (.element { name := Word.Name.lineBreak })) run :=
    .of_retains (retains_add document _)
  have blank := housed.toTiered.blank_add { name := Word.Name.lineBreak } (by decide)
  refine (Edit.succeeds_insertBeside_blank housed₁ blank
    ((created.parent_eq _ (lt_size_of_parent anchorParent)).trans anchorParent)
    (nextId_ne housed.lt_size) 1).bind ?_
  rintro ⟨⟩ broken breakDone ⟨housed₂, -⟩
  have moves := children_of_insertAfter housed₁.toWellFormed blank.detached blank.inStore
    ((children_add _ _ _).trans children_eq) breakDone
  refine rest document.nextId broken housed₂ ⟨created.moves moves housed₁.toWellFormed
    (Nat.le_refl _) (Or.inl rfl) blank.detached, moves.wellFormed, ?_, ?_, ?_, ?_⟩
  · rw [moves.children_eq, if_pos rfl]
    simp
  · rw [moves.children_eq, if_neg (nextId_ne run_lt), blank.childless, List.filter_nil]
  · rw [moves.isText_eq, blank.notText]
  · rw [moves.size_eq]
    exact blank.inStore

/-- A line is a break and, right after it, a new text element. -/
theorem lineAdded {broken united after : Document} {lineBreak unit characters : NodeId} {line : String}
    (broke : BreakAdded document broken run anchor pre post lineBreak) (run_lt : run.index < broken.size)
    (added : UnitAdded broken united unit characters line)
    (moves : Moves united after unit run (pre ++ [anchor] ++ [lineBreak]) post) :
    LineAdded document after run anchor line pre post lineBreak unit characters := by
  have unit_ne : unit ≠ run := by
    rintro rfl
    exact Nat.not_le_of_lt run_lt added.unitNew
  have characters_ne : characters ≠ run := by
    rintro rfl
    exact Nat.not_le_of_lt run_lt added.charactersNew
  have break_ne : lineBreak ≠ run := ne_of_parent broke.wellFormed broke.break_parent
  have extended : Extends broken after run := (added.toExtends.of_new added.unitNew run).moves moves
    added.wellFormed added.unitNew (Or.inl rfl) added.unitDetached
  exact {
    toExtends := broke.toExtends.trans extended
    wellFormed := moves.wellFormed
    children_run := by
      rw [moves.children_eq, if_pos rfl]
      simp
    children_break := by
      rw [extended.children_eq _ broke.inStore break_ne, broke.children_break]
    break_isText := by rw [extended.isText_eq broke.inStore, broke.break_isText]
    children_next := by
      rw [moves.children_eq, if_neg unit_ne,
        filter_children_of_parent_none added.wellFormed added.unitDetached, added.children_unit]
    next_isText := by rw [moves.isText_eq, isText_eq_false_of_isNamed added.unitNamed]
    children_characters := by
      rw [moves.children_eq, if_neg characters_ne, added.children_characters, List.filter_nil]
    characters_text := by rw [text?, moves.content_eq, ← text?, added.characters_text]
    inStore := by
      rw [moves.size_eq]
      exact ⟨Nat.lt_of_lt_of_le broke.inStore added.size_le, added.inStore⟩ }

theorem succeeds_addLine {β : Type} {result : β → Document → Prop} {later : NodeId → Edit β}
    (housed : document.Housed stray host) (counts : ¬stray text)
    (inRun : InRun document run textElement text)
    (children_eq : document.children run = pre ++ anchor :: post) (line : String)
    (rest : ∀ lineBreak next characters after, after.Housed stray host →
      LineAdded document after run anchor line pre post lineBreak next characters →
      Succeeds (later next) after result) :
    Succeeds (do
      let lineBreak ← Edit.createElement Word.Name.lineBreak
      Edit.insertAfter lineBreak anchor
      let next ← Edit.copyNode textElement
      let characters ← Edit.createText line
      Edit.appendChild next characters
      Edit.insertAfter next lineBreak
      later next) document result := by
  refine succeeds_addBreak housed children_eq ?_
  intro lineBreak broken housed₁ broke
  have inRun₁ := inRun.extend housed.toWellFormed broke.toExtends
  have run_lt := parent_lt_size housed₁.toWellFormed broke.break_parent
  -- A copy of the text element gets the line and is placed after the line break.
  refine succeeds_addUnit housed₁.toTiered inRun₁.unitNamed line ?_
  intro unit characters united tiered added
  have unit_ne : ∀ {id : NodeId}, id.index < broken.size → unit ≠ id := by
    rintro id isOld rfl
    exact Nat.not_le_of_lt isOld added.unitNew
  have breakParent : united.parent lineBreak = some run := by
    rw [added.parent_eq _ broke.inStore, broke.break_parent]
  have children_united : united.children run = (pre ++ [anchor]) ++ lineBreak :: post := by
    rw [added.children_eq run run_lt (unit_ne run_lt).symm, broke.children_run]
    simp
  have outside : ¬united.LiesIn unit run := fun inside => by
    rw [added.liesIn_iff housed₁.toWellFormed run_lt] at inside
    exact unit_ne (lt_size_of_liesIn housed₁.toWellFormed inside run_lt) rfl
  have inRun₂ := inRun₁.extend housed₁.toWellFormed added.toExtends
  refine (Edit.succeeds_insertBeside tiered added.inStore.1 breakParent (unit_ne broke.inStore) outside
    (added.fits housed₁.toTiered tiered inRun₂ counts) 1).bind ?_
  rintro ⟨⟩ final done ⟨finalTiered, -⟩
  have lined := lineAdded broke run_lt added (children_of_insertAfter tiered.toWellFormed
    added.unitDetached added.inStore.1 children_united done)
  exact rest lineBreak unit characters final (lined.toExtends.housed housed finalTiered) lined

/-- Lines can be added after a child of a run. -/
theorem succeeds_addLines (housed : document.Housed stray host) (counts : ¬stray text)
    (inRun : InRun document run textElement text)
    (children_eq : document.children run = pre ++ anchor :: post) (lines : List String) :
    Succeeds (addLines textElement anchor lines) document fun _ after => after.Housed stray host ∧
      Extends document after run ∧ ∃ new, after.children run = pre ++ anchor :: (new ++ post) ∧
        after.segmentText (new.flatMap after.texts) = lines.flatMap String.toList := by
  induction lines generalizing document anchor pre with
  | nil => exact Succeeds.of_pure ⟨housed, Extends.refl _ _, [], by simp [children_eq], rfl⟩
  | cons line lines inductionHypothesis =>
      refine succeeds_addLine housed counts inRun children_eq line ?_
      intro lineBreak next characters middle housed' added
      have inRun' := inRun.extend housed.toWellFormed added.toExtends
      have regrouped : middle.children run = (pre ++ [anchor, lineBreak]) ++ next :: post := by
        rw [added.children_run]
        simp
      refine (inductionHypothesis housed' inRun' regrouped).imp ?_
      rintro - after - ⟨housed'', extended, new, children_after, texts_eq⟩
      refine ⟨housed'', added.toExtends.trans extended, lineBreak :: next :: new, ?_, ?_⟩
      · rw [children_after]
        simp
      · have texts_break : after.texts lineBreak = [] := by
          rw [extended.texts_eq housed'.toWellFormed housed''.toWellFormed
            (not_liesIn_of_parent housed'.toWellFormed added.break_parent) added.inStore.1,
            added.texts_break]
        have texts_next : after.texts next = [characters] := by
          rw [extended.texts_eq housed'.toWellFormed housed''.toWellFormed
            (not_liesIn_of_parent housed'.toWellFormed added.next_parent) added.inStore.2.1,
            added.texts_next]
        have textOf_characters : after.textOf characters = line := by
          rw [extended.textOf_eq added.inStore.2.2, textOf, added.characters_text, Option.getD_some]
        rw [List.flatMap_cons, List.flatMap_cons, texts_break, texts_next, List.nil_append,
          segmentText_append, segmentText_singleton, textOf_characters, texts_eq, List.flatMap_cons]

theorem InRun.sameShape {after : Document} (inRun : InRun document run textElement text)
    (same : SameShape document after) : InRun after run textElement text where
  runNamed := by rw [same.isNamed_eq, inRun.runNamed]
  unitNamed := by rw [same.isNamed_eq, inRun.unitNamed]
  unitIs := by rw [same.parent_eq, inRun.unitIs]
  textIs := by rw [same.parent_eq, inRun.textIs]
  isText := by rw [same.isText_eq, inRun.isText]

theorem toList_head_append (lines : List String) :
    (lines.headD "").toList ++ (lines.drop 1).flatMap String.toList =
      lines.flatMap String.toList := by
  cases lines <;> simp

/-- A text can be written into a text node that is alone in its text element. Its lines follow each
other in the running text, and all other text nodes keep their text. -/
theorem succeeds_writeText {lead later : List NodeId} (housed : document.Housed stray host)
    (solitary : document.Solitary text)
    (whole : document.runningTexts host = lead ++ text :: later) (written : String) :
    Succeeds (writeText text written) document fun _ after => after.Housed stray host ∧
      ∃ new, after.runningTexts host = lead ++ (new ++ later) ∧
        after.segmentText new = (Text.lines written).flatMap String.toList ∧
        ∀ id, id.index < document.size → id ≠ text → after.textOf id = document.textOf id := by
  have wellFormed := housed.toWellFormed
  have isMember : text ∈ document.runningTexts host := by simp [whole]
  have isText := solitary.1
  have text_lt := lt_size_below (liesIn_of_mem_runningTexts wellFormed isMember) housed.lt_size
  have inHost := liesIn_of_mem_runningTexts wellFormed isMember
  rcases housed.exists_sits isText housed.counts inHost housed.isHost with
    ⟨paragraph, run, unit, sits⟩
  have unitCounts : ¬stray unit := housed.not_stray housed.counts
    (.of_parent sits.runIs (.of_parent sits.paragraphIs (LiesIn.parent sits.hostIs)))
  -- The first line goes into the text node.
  let first := (Text.lines written).headD ""
  let started := document.setContent text (.text first)
  let spaced := started.setAttribute unit Word.Name.space "preserve"
  have startDone : Edit.setText text first document = .ok ⟨⟩ started := by
    simp only [Edit.setText, get_bind, isText, if_true, modify_eq_ok]
    rfl
  have shape := sameShape_setText wellFormed isText text_lt first
  have shape' := sameShape_setAttribute shape.wellFormed unit Word.Name.space "preserve"
  have same : SameShape document spaced := shape.trans shape'.1
  have textOf_spaced : ∀ id, spaced.textOf id = if id = text then first else document.textOf id :=
    fun id => by rw [shape'.2, textOf_setText text_lt]
  have inRun : InRun document run unit text :=
    ⟨sits.runNamed, sits.unitNamed, sits.runIs, sits.unitIs, isText⟩
  have inRun' := inRun.sameShape same
  have housed' := same.housed housed
  refine Succeeds.of_step startDone (Succeeds.of_get ?_)
  rw [(inRun.sameShape shape).textElement?_eq]
  refine Succeeds.of_step (t := spaced) rfl ?_
  have isChild : unit ∈ spaced.children run :=
    (housed'.toWellFormed.mem_children_iff _ _).mpr inRun'.unitIs
  rcases List.append_of_mem isChild with ⟨pre, post, children_eq⟩
  refine (succeeds_addLines housed' (housed.not_stray housed.counts inHost) inRun' children_eq
    ((Text.lines written).drop 1)).imp ?_
  rintro - after - ⟨housed'', extended, new, children_after, newText⟩
  have formed := housed'.toWellFormed
  have texts_unit : spaced.texts unit = [text] := by
    rw [same.texts_eq wellFormed, ← housed.runningTexts_eq_texts unitCounts, ← sits.textUnit_eq,
      solitary.2]
  have inside : spaced.LiesIn host run :=
    (LiesIn.parent (same.parent_eq run ▸ sits.paragraphIs)).trans
      (LiesIn.parent (same.parent_eq paragraph ▸ sits.hostIs))
  rcases extended.exists_texts formed housed''.toWellFormed inside housed'.lt_size children_eq
    children_after with ⟨left, right, around, around'⟩
  rw [texts_unit, List.singleton_append] at around around'
  have nodup := nodup_runningTexts wellFormed host
  rw [whole] at nodup
  have split : lead ++ text :: later = left ++ text :: right := by
    rw [← whole, housed.runningTexts_eq_texts housed.counts, ← same.texts_eq wellFormed, around]
  rcases append_cons_inj nodup split with ⟨rfl, rfl⟩
  refine ⟨housed'', text :: new.flatMap after.texts, ?_, ?_, fun id isOld differ => ?_⟩
  · rw [housed''.runningTexts_eq_texts housed.counts, around', List.cons_append]
  · rw [← List.singleton_append, segmentText_append, segmentText_singleton, newText,
      extended.textOf_eq (same.size_eq ▸ text_lt), textOf_spaced, if_pos rfl,
      toList_head_append]
  · rw [extended.textOf_eq (same.size_eq ▸ isOld), textOf_spaced, if_neg differ]

/-- No content control is around a text node below a host. -/
theorem checkbox?_eq_none (tiered : document.Tiered stray) (isText : document.isText text = true)
    (counts : ¬stray text) :
    checkbox? document text = none := by
  have noControl : document.ancestorNamed? text Word.Name.contentControl = none := by
    refine List.find?_eq_none.mpr fun id isMember => ?_
    have inside : document.LiesIn id text := by
      rw [List.mem_cons, eq_comm] at isMember
      exact (mem_ancestors_iff tiered.toWellFormed).mp isMember
    rw [tiered.isNamed_eq_false ⟨text, isText, counts, inside⟩ rfl]
    exact Bool.false_ne_true
  rw [checkbox?, noControl]
  rfl

/-- A leaf is replaced by the lines of the text of its value. -/
theorem succeeds_replaceByText {lead later : List NodeId} {workspace : Workspace} {tag : Tag}
    (housed : workspace.document.Housed stray host) (solitary : workspace.document.Solitary tag.textNode)
    (whole : workspace.document.runningTexts host = lead ++ tag.textNode :: later)
    (context : Context) :
    Succeeds (replaceByText context tag) workspace fun _ after => after.document.Housed stray host ∧
      ∃ new, after.document.runningTexts host = lead ++ (new ++ later) ∧
        after.document.segmentText new = (Text.lines (((context.valueAt workspace.path).map
          Data.Value.shownText).getD "")).flatMap String.toList ∧
        ∀ id, id.index < workspace.document.size → id ≠ tag.textNode →
          after.document.textOf id = workspace.document.textOf id := by
  refine Succeeds.of_step (Context.boundValue?_eq_ok.mpr ⟨rfl, rfl⟩) (Succeeds.of_get ?_)
  have counts : ¬stray tag.textNode := housed.not_stray housed.counts
    (liesIn_of_mem_runningTexts housed.toWellFormed (by simp [whole]))
  rw [checkbox?_eq_none housed.toTiered solitary.1 counts]
  exact (Succeeds.of_edit_work (succeeds_writeText housed solitary whole _)).imp
    fun _ _ _ holds => holds.1

end Leaf

end WordTemplate
