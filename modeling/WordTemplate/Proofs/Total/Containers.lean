import WordTemplate.Proofs.Filling.Dispatching
import WordTemplate.Proofs.Total.Copies
import WordTemplate.Proofs.Total.Cutting
import WordTemplate.Proofs.Total.Hiding
import WordTemplate.Proofs.Total.Joining

/-!
# Filling containers succeeds

A container between two text nodes of a host is cut out, copied, compiled and put back. The running
text of the host then shows what it did before the container, what the container stands for, and what
it did after it.
-/

namespace WordTemplate

open Document Outcome

namespace Document

variable {before cut document after : Document} {host : NodeId} {cutRegion : CutRegion}
  {front inner back : List NodeId} {groups : List (List NodeId)} {stray : NodeId → Prop}

/-- The text nodes `inner` of a host were cut out from between `front` and `back`, together with the
text nodes of two tags. -/
structure CutAway (stray : NodeId → Prop) (before cut : Document) (host : NodeId) (cutRegion : CutRegion)
    (front inner back : List NodeId) : Prop where
  housed : cut.Housed stray host
  fragments : cutRegion.kind = .fragments
  blocks : ∀ node ∈ cutRegion.nodes, cut.IsBlock stray node
  inner_eq : cutRegion.nodes.flatMap cut.runningTexts = inner
  beside : ∃ left right, cut.children host = (left ++ [cutRegion.first]) ++ cutRegion.last :: right ∧
    (left ++ [cutRegion.first]).flatMap cut.runningTexts = front ∧
    (cutRegion.last :: right).flatMap cut.runningTexts = back
  textOf_eq : ∀ id, id.index < before.size → cut.textOf id = before.textOf id

/-- Text nodes outside a change that writes nothing keep their text. -/
theorem ChangesWithin.textOf_eq {zone : NodeId → Prop} {places : NodeId → Prop}
    (changes : ChangesWithin zone ⟨fun _ => False, places⟩ before after) {id : NodeId}
    (isOld : id.index < before.size) : after.textOf id = before.textOf id := by
  rw [textOf, changes.text_eq isOld not_false, ← textOf]

/-- Something with the text `chars` replaced what was between `front` and `back` in a host. -/
structure Refilled (stray : NodeId → Prop) (before after : Document) (host : NodeId)
    (front back : List NodeId)
    (chars : List Char) : Prop where
  housed : after.Housed stray host
  texts_eq : ∃ new, after.runningTexts host = front ++ (new ++ back) ∧ after.segmentText new = chars
  textOf_eq : ∀ id ∈ front ++ back, after.textOf id = before.textOf id

/-- The host shows what it did around the new text. -/
theorem Refilled.shows {chars : List Char} {pieces later : List Piece}
    (refilled : Refilled stray before after host front back chars) (first : before.Shows front pieces)
    (second : before.Shows back later) :
    after.Shows (after.runningTexts host) (pieces ++ (chars.map .char ++ later)) := by
  rcases refilled.texts_eq with ⟨new, whole, rfl⟩
  rw [whole]
  exact (first.congr fun id isMember => refilled.textOf_eq id (List.mem_append_left _ isMember)).append
    ((Shows.of_texts after new).append
      (second.congr fun id isMember => refilled.textOf_eq id (List.mem_append_right _ isMember)))

theorem succeeds_cutAway {zone : NodeId → Prop} {base : Nat} {openingTag closingTag : Tag}
    {within later : List NodeId}
    (ready : Ready zone base before
      (openingTag.textNode :: (within ++ closingTag.textNode :: later)))
    (housed : before.Housed stray host)
    (whole : before.runningTexts host =
      front ++ openingTag.textNode :: (inner ++ closingTag.textNode :: back)) :
    Succeeds (Extraction.cutFragments openingTag closingTag) before fun cutRegion cut =>
      CutAway stray before cut host cutRegion front inner back := by
  have reached : Reached zone base before before _ := ready
  rcases reached.pending with ⟨tops, known, pending⟩
  have wellFormed := housed.toWellFormed
  refine (Extraction.succeeds_cutFragments housed pending whole).imp ?_
  rintro cutRegion cut done ⟨housed', firstParent, blocks⟩
  rcases Extraction.cutOut_of_cutFragments wellFormed before.closed_all
    (fun top isTop => Nat.not_le_of_lt (known top isTop).2) pending (fun _ _ => trivial) done with
    ⟨fragments, ⟨parent, left, right, cutOut⟩, rearranges⟩
  obtain rfl : parent = host := by
    have isParent := cutOut.parent_of_mem housed'.toWellFormed
      (List.mem_append_right left List.mem_cons_self)
    rwa [firstParent, Option.some.injEq, eq_comm] at isParent
  have nodup := nodup_runningTexts wellFormed parent
  have parts := cutOut.parent_texts
  rw [whole] at nodup parts
  rcases append_cons_inj nodup parts with ⟨rfl, rest⟩
  rcases append_cons_inj (List.nodup_cons.mp (List.nodup_append.mp nodup).2.1).2 rest with ⟨rfl, rfl⟩
  exact ⟨housed', fragments, blocks, rfl, ⟨left, right, by simp [cutOut.children_eq], rfl, rfl⟩,
    fun id isOld => rearranges.textOf_eq isOld⟩

/-- The copies of a region that was cut out of a host are compiled to blocks with the text `chars`, which
wait to be put back. -/
structure Awaits (stray : NodeId → Prop) (before cut document : Document) (host : NodeId)
    (cutRegion : CutRegion) (groups : List (List NodeId)) (front inner back : List NodeId)
    (chars : List Char) : Prop extends
    CutAway stray before cut host cutRegion front inner back where
  size_le : before.size ≤ cut.size
  isOld : ∀ id ∈ front ++ back, id.index < before.size
  waiting : Waiting cut document groups.flatten
  tiered : document.Tiered stray
  isBlock : ∀ node ∈ groups.flatten, document.IsBlock stray node
  text_eq : document.segmentText (groups.flatten.flatMap document.runningTexts) = chars

theorem Awaits.succeeds_putBack {chars : List Char}
    (awaits : Awaits stray before cut document host cutRegion groups front inner back chars) :
    Succeeds (Strategy.putBack cutRegion groups) document fun _ after =>
      Refilled stray before after host front back chars ∧
        (SectionNodes.collect document groups.flatten).Known (fun _ => True) after ∧
        cutRegion.first.index < after.size := by
  have formed := awaits.housed.toWellFormed
  have waiting := awaits.waiting
  have neutral := waiting.neutral_new formed
  have housed := awaits.housed.retains waiting.toRetains awaits.tiered
  rcases awaits.beside with ⟨left, right, children_eq, rfl, rfl⟩
  have seam := waiting.seam formed awaits.housed.shows children_eq
  have isChild : ∀ id ∈ (left ++ [cutRegion.first]) ++ cutRegion.last :: right, id.index < cut.size := by
    intro id isMember
    rw [← children_eq, formed.mem_children_iff] at isMember
    exact lt_size_of_parent isMember
  have texts_eq : ∀ id ∈ (left ++ [cutRegion.first]) ++ cutRegion.last :: right,
      document.runningTexts id = cut.runningTexts id :=
    fun id isMember => neutral.runningTexts_eq (isChild id isMember)
  rw [Strategy.putBack, awaits.fragments]
  refine (Edit.succeeds_mergeFragments housed seam awaits.isBlock).imp ?_
  rintro ⟨⟩ after done housed'
  rcases Edit.runningTexts_of_mergeFragments seam done with ⟨afterTexts, rearranges⟩
  have textOf_eq : ∀ id, id.index < document.size → after.textOf id = document.textOf id :=
    fun id isOld => rearranges.textOf_eq isOld
  refine ⟨⟨housed', ⟨groups.flatten.flatMap document.runningTexts, ?_, ?_⟩, ?_⟩, ?_, ?_⟩
  · rw [← List.flatMap_congr fun id isMember => texts_eq id (List.mem_append_left _ isMember),
      ← List.flatMap_congr fun id isMember => texts_eq id (List.mem_append_right _ isMember),
      afterTexts]
    simp
  · rw [← awaits.text_eq]
    refine segmentText_congr fun id isMember => textOf_eq id ?_
    rcases List.mem_flatMap.mp isMember with ⟨node, isNode, isText⟩
    exact lt_size_below (liesIn_of_mem_runningTexts waiting.wellFormed isText)
      (waiting.inStore node isNode)
  · intro id isMember
    have isOld' := Nat.lt_of_lt_of_le (awaits.isOld id isMember) awaits.size_le
    rw [textOf_eq id (Nat.lt_of_lt_of_le isOld' waiting.size_le), textOf, text?,
      waiting.content_eq isOld', ← text?, ← textOf, awaits.textOf_eq id (awaits.isOld id isMember)]
  · have changes := rearranges.toChangesWithin.mono waiting.wellFormed document.closed_everywhere
      (fun _ _ => trivial) ⟨fun _ _ _ => trivial, fun _ _ _ => trivial⟩
    exact (SectionNodes.known_collect waiting.wellFormed document.closed_everywhere
      (fun _ _ => trivial) waiting.detached waiting.inStore).of_changes changes waiting.wellFormed
  · exact Nat.lt_of_lt_of_le (isChild _ (by simp)) (Nat.le_trans waiting.size_le rearranges.size_le)

/-- What keeps all running text and writes nothing keeps what a host was refilled with. -/
theorem Refilled.neutral {chars : List Char} {zone places : NodeId → Prop} {document' : Document}
    (refilled : Refilled stray before after host front back chars)
    (neutral : Neutral zone ⟨fun _ => False, places⟩ after document')
    (housed : document'.Housed stray host) :
    Refilled stray before document' host front back chars := by
  rcases refilled.texts_eq with ⟨new, whole, text⟩
  have formed := refilled.housed.toWellFormed
  have textOf_eq : ∀ id ∈ after.runningTexts host, document'.textOf id = after.textOf id :=
    fun id isMember => neutral.textOf_eq
      (lt_size_below (liesIn_of_mem_runningTexts formed isMember) refilled.housed.lt_size)
  refine ⟨housed, ⟨new, ?_, ?_⟩, fun id isMember => ?_⟩
  · rw [neutral.runningTexts_eq refilled.housed.lt_size, whole]
  · rw [← text]
    refine segmentText_congr fun id isMember => textOf_eq id ?_
    simp [whole, isMember]
  · rw [← refilled.textOf_eq id isMember]
    refine textOf_eq id ?_
    rw [List.mem_append] at isMember
    rcases isMember with isMember | isMember <;>
    · simp [whole, isMember]

end Document

/-- A region stands in the running text of a host, with a template between its tags. -/
structure Region.StandsIn (region : Region) (stray zone : NodeId → Prop) (base : Nat)
    (document : Document) (host : NodeId) (front ids back later : List NodeId)
    (pieces : List Piece) : Prop where
  ready : Ready zone base document (region.textNodes later)
  housed : document.Housed stray host
  whole : document.runningTexts host =
    front ++ region.openingTag.textNode :: (ids ++ region.closingTag.textNode :: back)
  shows : document.Shows ids pieces
  tags_eq : Piece.tags pieces = region.innerTags
  nested : Nested region.innerTags

variable {zone : NodeId → Prop} {base times : Nat} {region : Region} {compile : RegionCompiler region}
  {compiler : Compiler} {context : Context} {scoping : Region.Scoping} {start before : Workspace}
  {host : NodeId} {front ids back later : List NodeId} {pieces : List Piece} {stray : NodeId → Prop}

namespace Region.StandsIn

variable {document : Document}
  (stands : region.StandsIn stray zone base document host front ids back later pieces)
include stands

theorem lt_size {id : NodeId} (isMember : id ∈ document.runningTexts host) :
    id.index < document.size :=
  lt_size_below (liesIn_of_mem_runningTexts stands.housed.toWellFormed isMember) stands.housed.lt_size

theorem lt_size_beside : ∀ id ∈ front ++ back, id.index < document.size := by
  refine fun id isMember => stands.lt_size ?_
  rw [stands.whole]
  simp only [List.mem_append, List.mem_cons] at isMember ⊢
  tauto

theorem opening_lies : document.LiesIn host region.openingTag.textNode :=
  liesIn_of_mem_runningTexts stands.housed.toWellFormed (by simp [stands.whole])

theorem isText_opening : document.isText region.openingTag.textNode = true :=
  isText_of_mem_runningTexts stands.housed.toWellFormed (by rw [stands.whole]; simp)

end Region.StandsIn

/-- The copies of a region are compiled and wait to be put back. -/
theorem Region.succeeds_compiled {β : Type} {result : β → Workspace → Prop}
    {next : CutRegion → List (List NodeId) → Work β} (scoping : Region.Scoping)
    (renders : compile.Renders stray compiler context) (unrolls : compile.Unrolls compiler context)
    (stands : region.StandsIn stray zone base start.document host front ids back later pieces)
    (plain : ∀ path ∈ (List.range times).map (scoping.innerPath start.path),
      compiler.PlainAt context path region.innerTags)
    (rest : ∀ cutRegion groups cut compiled,
      Awaits stray start.document cut compiled.document host cutRegion groups front ids back
        (((List.range times).map (scoping.innerPath start.path)).flatMap
          (compiler.expand context · pieces)) →
      Succeeds (next cutRegion groups) compiled result) :
    Succeeds (do
      let cut ← Strategy.paragraph.cut region.openingTag region.closingTag
      let copies ← (Edit.repeatRegion cut.nodes times : Edit (List RegionCopy))
      let groups ← region.compileCopies compile scoping 0 copies
      next cut groups) start result := by
  refine (Succeeds.of_extraction (succeeds_cutAway stands.ready stands.housed stands.whole)).bind ?_
  rintro cutRegion cut cutDone ⟨cutAway, path_eq⟩
  have severed := (@Strategy.severed_of_cut _ _ _ _ _ _ _ _ _ .paragraph stands.ready cutDone).2
  have cutFormed := cutAway.housed.toWellFormed
  have shown : region.ShownBy cut.document cutRegion.nodes pieces := by
    refine ⟨severed.ordered, fun tag isInner => severed.solitary _ (List.mem_map_of_mem isInner), ?_,
      stands.tags_eq, stands.nested⟩
    rw [cutAway.inner_eq]
    refine stands.shows.congr fun id isMember => cutAway.textOf_eq id (stands.lt_size ?_)
    simp [stands.whole, isMember]
  refine (Succeeds.of_edit_work (Edit.succeeds_repeatRegion cutAway.housed.toTiered severed.inStore
    cutAway.blocks times)).bind ?_
  rintro copies _ repeatDone ⟨⟨tiered, -, -, blocks⟩, -⟩
  rw [edit_work_eq_ok] at repeatDone
  rcases repeatDone with ⟨copied, repeatDone, rfl⟩
  rcases Edit.repeated_of_repeatRegion cutFormed cutFormed (Retains.refl _) severed.inStore severed.nodup
    repeatDone with ⟨rfl, repeated⟩
  have adds : Adds cut.document copied := ⟨repeated.retains, repeated.wellFormed, repeated.root_eq⟩
  rw [List.forall_mem_map, List.range_eq_range', ← path_eq] at plain
  refine (succeeds_compileCopies renders unrolls shown adds cutFormed repeated.copied repeated.nodup
    tiered blocks plain).bind ?_
  rintro groups compiled compileDone ⟨compiledTiered, areBlocks, text⟩
  have waiting := (waiting_of_compileCopies unrolls severed repeatDone compileDone).2.2
  refine rest cutRegion groups cut.document compiled { cutAway with
    size_le := severed.size_le
    isOld := stands.lt_size_beside
    waiting
    tiered := compiledTiered
    isBlock := areBlocks
    text_eq := ?_ }
  rw [text, List.flatMap_map, List.range_eq_range', path_eq]

namespace Strategy

variable {document : Document} {openingTag closingTag : Tag} {strategies : List Strategy}
  {stray : NodeId → Prop}

/-- Between tiers there are neither table cells nor numbered paragraphs. -/
theorem applies_eq_false (housed : document.Housed stray host)
    (isText : document.isText openingTag.textNode = true)
    (inside : document.LiesIn host openingTag.textNode) {strategy : Strategy}
    (other : strategy ≠ .paragraph) :
    applies document openingTag closingTag strategy = false := by
  rcases housed.exists_sits isText housed.counts inside housed.isHost with ⟨paragraph, run, unit, sits⟩
  have found := sits.paragraph?_eq housed.toWellFormed isText
  cases strategy with
  | table standard =>
      have outside : inTableCell document openingTag = false := by
        rw [inTableCell, found, Option.bind_some, sits.hostIs]
        exact housed.isNamed_eq_false (by decide)
      rw [applies, outside, Bool.false_and]
  | list =>
      have counts : ¬stray paragraph := housed.not_stray housed.counts (LiesIn.parent sits.hostIs)
      rw [applies, found]
      simp only
      rw [isListParagraph, paragraphProperty?]
      rcases isProperties : document.childNamed? paragraph Word.Name.paragraphProperties with
        _ | properties
      · rfl
      · rcases isNumber : document.childNamed? properties Word.Name.numberingProperties with _ | number
        · simp [isNumber]
        · rcases parent_of_childNamed? housed.toWellFormed isProperties with ⟨isParent, propertiesNamed⟩
          rcases parent_of_childNamed? housed.toWellFormed isNumber with ⟨isParent', numberNamed⟩
          have named := sits.paragraphNamed
          rw [housed.unnumbered isParent counts
            ⟨propertiesNamed, number, isParent', numberNamed⟩] at named
          cases named
  | paragraph => exact absurd rfl other

theorem choose?_eq_paragraph (housed : document.Housed stray host)
    (isText : document.isText openingTag.textNode = true)
    (inside : document.LiesIn host openingTag.textNode) (isMember : .paragraph ∈ strategies) :
    choose? document openingTag closingTag strategies = some .paragraph := by
  rcases found : choose? document openingTag closingTag strategies with _ | strategy
  · exact absurd rfl (List.find?_eq_none.mp found .paragraph isMember)
  · rw [Option.some.injEq]
    by_contra other
    have suits := List.find?_some found
    rw [applies_eq_false housed isText inside other] at suits
    cases suits

end Strategy

namespace Succeeds

variable {β : Type} {result : β → Workspace → Prop}

theorem of_note {level : Level} {text : String} {next : Unit → Work β}
    (later : ∀ after, before.Idles after → Succeeds (next ⟨⟩) after result) :
    Succeeds (Work.note level text >>= next) before result :=
  of_step rfl (later _ ⟨⟨rfl, rfl⟩, rfl⟩)

theorem of_noteAll {notes : List Note} {next : Unit → Work β}
    (later : ∀ after, before.Idles after → Succeeds (next ⟨⟩) after result) :
    Succeeds (Work.noteAll notes >>= next) before result := by
  have noted : Succeeds (Work.noteAll notes) before fun _ after => before.Idles after :=
    of_forM (fun _ after => before.Idles after)
      (fun note _ middle idles => of_done rfl (idles.trans ⟨⟨rfl, rfl⟩, rfl⟩)) (.refl before)
  exact noted.bind fun _ after _ idles => later after idles

end Succeeds

theorem Loop.succeeds_replaceRegion {strategies : List Strategy} (isMember : .paragraph ∈ strategies)
    (renders : compile.Renders stray compiler context) (unrolls : compile.Unrolls compiler context)
    (stands : region.StandsIn stray zone base before.document host front ids back later pieces)
    (plain : ∀ path ∈ (List.range (repetitions (context.valueAt before.path))).map
      (before.path.enter <| .index ·), compiler.PlainAt context path region.innerTags) :
    Succeeds (replaceRegion strategies context region compile) before fun _ after =>
      Refilled stray before.document after.document host front back
        (((List.range (repetitions (context.valueAt before.path))).map
          (before.path.enter <| .index ·)).flatMap (compiler.expand context · pieces)) := by
  refine Succeeds.of_step (Context.boundValue?_eq_ok.mpr ⟨rfl, rfl⟩) (Succeeds.of_noteAll ?_)
  intro noted idles
  refine Succeeds.of_get ?_
  rw [idles.document_eq, Strategy.choose?_eq_paragraph stands.housed stands.isText_opening
    stands.opening_lies isMember]
  refine Succeeds.of_step (Work.pathText_eq_ok.mpr ⟨rfl, rfl⟩) (Succeeds.of_note ?_)
  intro start startIdles
  have idles := idles.trans startIdles
  rw [← idles.document_eq] at stands ⊢
  rw [← idles.path_eq] at plain ⊢
  refine Region.succeeds_compiled .indexed renders unrolls stands plain ?_
  intro cutRegion groups cut compiled awaits
  exact (Succeeds.of_edit_work awaits.succeeds_putBack).imp fun _ _ _ holds => holds.1.1

namespace Section

theorem succeeds_finish {document after : Document} {part : Section} {nodes : SectionNodes}
    {head : NodeId} {chars : List Char} (refilled : Refilled stray document after host front back chars)
    (known : nodes.Known (fun _ => True) after) (inStore : head.index < after.size) :
    Succeeds (finish .vanishRuns part nodes head) after fun _ finished =>
      Refilled stray document finished host front back chars := by
  have formed := refilled.housed.toWellFormed
  have finishes : Succeeds (finish .vanishRuns part nodes head) after fun _ finished =>
      finished.Housed stray host := by
    rw [finish]
    split
    · refine (Edit.succeeds_hideNodes refilled.housed nodes head).bind ?_
      intro _ hidden hideDone housed
      have changes := (Edit.neutral_of_hideNodes formed after.closed_all known trivial inStore
        hideDone).toChangesWithin
      exact Edit.succeeds_bookmarkSection housed (known.of_changes changes formed)
    · exact Edit.succeeds_bookmarkSection refilled.housed known
  exact finishes.imp fun _ finished done housed =>
    refilled.neutral (neutral_of_finish formed after.closed_all known trivial inStore done) housed

theorem succeeds_bound? (context : Context) (tag : Tag) (before : Workspace) :
    Succeeds (bound? context tag) before fun bound after => before.Idles after ∧
      (bound.map repetitions).getD 0 = repetitionsOf (context.valueAt before.path) := by
  have binds : Succeeds (bound? context tag) before fun _ _ => True := by
    refine Succeeds.of_step (Context.boundValue?_eq_ok.mpr ⟨rfl, rfl⟩) ?_
    rcases context.valueAt before.path with _ | value
    · exact Succeeds.of_pure trivial
    · simp only
      split
      · exact Succeeds.of_pure trivial
      · exact Succeeds.of_note fun _ _ => Succeeds.of_pure trivial
  exact binds.imp fun _ _ done _ => bound?_eq_ok done

theorem succeeds_replaceRegion (renders : compile.Renders stray compiler context)
    (unrolls : compile.Unrolls compiler context)
    (stands : region.StandsIn stray zone base before.document host front ids back later pieces)
    (plain : ∀ path ∈ List.replicate (repetitionsOf (context.valueAt before.path)) before.path,
      compiler.PlainAt context path region.innerTags) :
    Succeeds (replaceRegion .vanishRuns context region compile) before fun _ after =>
      Refilled stray before.document after.document host front back
        ((List.replicate (repetitionsOf (context.valueAt before.path)) before.path).flatMap
          (compiler.expand context · pieces)) := by
  refine (succeeds_bound? context region.openingTag before).bind ?_
  rintro bound middle - ⟨idles, times_eq⟩
  refine Succeeds.of_get ?_
  rw [idles.document_eq, Strategy.choose?_eq_paragraph stands.housed stands.isText_opening
    stands.opening_lies (by decide)]
  refine Succeeds.of_step (Work.pathText_eq_ok.mpr ⟨rfl, rfl⟩) (Succeeds.of_note ?_)
  intro start startIdles
  have idles := idles.trans startIdles
  rw [← times_eq, ← idles.path_eq, ← Region.Scoping.map_innerPath_unchanged] at plain ⊢
  rw [← idles.document_eq] at stands ⊢
  refine Region.succeeds_compiled .unchanged renders unrolls stands plain ?_
  intro cutRegion groups cut compiled awaits
  refine Succeeds.of_get ((Succeeds.of_edit_work awaits.succeeds_putBack).bind ?_)
  rintro ⟨⟩ back - ⟨⟨refilled, known, inStore⟩, -⟩
  rcases bound with _ | part
  · exact Succeeds.of_pure refilled
  · simp only
    split
    · exact (Succeeds.of_edit_work (succeeds_finish refilled known inStore)).imp
        fun _ _ _ holds => holds.1
    · exact Succeeds.of_pure refilled

end Section

end WordTemplate
