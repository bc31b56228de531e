import WordTemplate.Proofs.Total.Containers
import WordTemplate.Proofs.Total.Writing

/-!
# Filling a template renders it

A template whose tags wait to be filled in the running text of a host is filled from left to right.
Each tag is replaced by the text that it stands for, which leaves a template with one tag or container
fewer in the same host. In the end the host holds the text that the template stands for.
-/

namespace WordTemplate

open Document Outcome

/-- A compiler with the standard plugins and settings, which hides sections by flags. -/
structure Compiler.IsUsual (compiler : Compiler) : Prop where
  plugins_eq : compiler.plugins = Plugin.standard .vanishRuns
  options_eq : compiler.options = { maxDepth := compiler.options.maxDepth }

variable {zone stray : NodeId → Prop} {base : Nat} {compiler : Compiler} {context : Context}
  {before : Workspace} {host : NodeId} {tag closing : Tag} {front back ids later : List NodeId}
  {container : Container} {region : Region} {pieces : List Piece} {inner others : List Tag}

namespace Compiler

theorem succeeds_pluginFor {contentType : ContentType} {plugin : Plugin}
    (typed : compiler.contentTypeOf context tag before = .ok contentType before)
    (found : compiler.plugin? contentType = some plugin) :
    Succeeds (compiler.pluginFor context tag) before fun chosen after =>
      chosen = plugin ∧ before.Idles after := by
  refine Succeeds.of_step typed ?_
  rw [found]
  refine Succeeds.of_step (Work.pathText_eq_ok.mpr ⟨rfl, rfl⟩) (Succeeds.of_note ?_)
  intro after idles
  exact Succeeds.of_pure ⟨rfl, idles⟩

theorem succeeds_announce (context : Context) (tags : List Tag) (before : Workspace) :
    Succeeds (announce context tags) before fun _ after => before.Idles after := by
  have announces : Succeeds (announce context tags) before fun _ _ => True :=
    Succeeds.of_step (Work.pathText_eq_ok.mpr ⟨rfl, rfl⟩) (Succeeds.of_done rfl trivial)
  exact announces.imp fun _ _ done _ => idles_of_announce done

namespace IsUsual

variable (usual : compiler.IsUsual)
include usual

theorem succeeds_pluginFor_leaf (isLeaf : tag.kind = .leaf) (plain : context.PlainAt before.path) :
    Succeeds (compiler.pluginFor context tag) before fun plugin after =>
      plugin = Plugin.text ∧ before.Idles after := by
  have typed : compiler.contentTypeOf context tag before = .ok .text before := by
    rw [contentTypeOf, isLeaf]
    refine bind_eq_ok.mpr ⟨_, _, Context.boundValue?_eq_ok.mpr ⟨rfl, rfl⟩, ?_⟩
    rcases declared : (context.valueAt before.path).bind ContentType.declaredBy with _ | type
    · rw [usual.options_eq]
      rfl
    · rcases Option.bind_eq_some_iff.mp declared with ⟨value, isValue, isType⟩
      rw [plain value isValue type isType]
      rfl
  refine succeeds_pluginFor typed ?_
  rw [plugin?, usual.plugins_eq]
  rfl

theorem containerType_eq (container : Container) :
    containerType compiler.options container = containerType {} container := by
  rw [usual.options_eq]
  cases container <;> rfl

theorem succeeds_pluginFor_opening (isOpening : tag.kind = .opening container) :
    Succeeds (compiler.pluginFor context tag) before fun plugin after =>
      before.Idles after ∧
        plugin = match container with
          | .loop => Plugin.loop
          | .tableLoop => Plugin.tableLoop
          | .sections => Plugin.sections .vanishRuns := by
  have typed : compiler.contentTypeOf context tag before =
      .ok (containerType compiler.options container) before := by
    rw [contentTypeOf, isOpening]
    rfl
  rw [usual.containerType_eq] at typed
  have standard : ∀ contentType, compiler.plugin? contentType =
      (Plugin.standard .vanishRuns).reverse.find? (·.contentType == contentType) := by
    intro contentType
    rw [plugin?, usual.plugins_eq]
  cases container <;>
  · refine (succeeds_pluginFor typed ((standard _).trans rfl)).imp ?_
    rintro plugin after - ⟨rfl, idles⟩
    exact ⟨idles, rfl⟩

/-- A leaf is replaced by the lines of the text of its value. -/
theorem succeeds_fillLeaf (isLeaf : tag.kind = .leaf)
    (plain : context.PlainAt (before.path.enter (.key tag.name)))
    (housed : before.document.Housed stray host) (solitary : before.document.Solitary tag.textNode)
    (whole : before.document.runningTexts host = front ++ tag.textNode :: back) :
    Succeeds (compiler.fillLeaf context tag) before fun _ after =>
      Refilled stray before.document after.document host front back
        (context.linesAt (before.path.enter (.key tag.name))) := by
  have formed := housed.toWellFormed
  refine Succeeds.of_withPart (P := fun document => Refilled stray before.document document host front
    back _) ?_
  refine (usual.succeeds_pluginFor_leaf isLeaf plain).bind ?_
  rintro _ found - ⟨rfl, idles⟩
  have asks : Succeeds (Work.dispatch tag) found fun _ asked => asked.document = before.document ∧
      asked.path = before.path.enter (.key tag.name) :=
    Succeeds.of_done rfl ⟨idles.document_eq, idles.path_eq⟩
  refine asks.bind ?_
  rintro _ asked - ⟨document_eq, path_eq⟩
  rw [← document_eq] at housed solitary whole formed ⊢
  refine (Leaf.succeeds_replaceByText housed solitary whole context).imp ?_
  rintro _ after - ⟨housed', new, texts_eq, text, textOf_eq⟩
  refine ⟨housed', ⟨new, texts_eq, ?_⟩, fun id isMember => ?_⟩
  · rw [text, ← path_eq, Context.linesAt]
  · have nodup := nodup_runningTexts formed host
    rw [whole, List.nodup_middle, List.nodup_cons] at nodup
    have isText : id ∈ asked.document.runningTexts host := by
      rw [whole]
      simp only [List.mem_append, List.mem_cons] at isMember ⊢
      tauto
    refine textOf_eq id (lt_size_below (liesIn_of_mem_runningTexts formed isText) housed.lt_size) ?_
    rintro rfl
    exact nodup.1 isMember

/-- A container is replaced by what is inside it, once for each path inside. -/
theorem succeeds_fillRegion (isOpening : region.openingTag.kind = .opening container)
    (renders : (compiler.regionCompiler context region).Renders stray compiler context)
    (unrolls : (compiler.regionCompiler context region).Unrolls compiler context)
    (stands : region.StandsIn stray zone base before.document host front ids back later pieces)
    (plain : ∀ path ∈ compiler.innerPaths context container
      (before.path.enter (.key region.openingTag.name)),
      compiler.PlainAt context path region.innerTags) :
    Succeeds (compiler.fillRegion context region) before fun _ after =>
      Refilled stray before.document after.document host front back
        ((compiler.innerPaths context container
          (before.path.enter (.key region.openingTag.name))).flatMap
            (compiler.expand context · pieces)) := by
  refine Succeeds.of_withPart (P := fun document => Refilled stray before.document document host front
    back _) ?_
  refine (usual.succeeds_pluginFor_opening isOpening).bind ?_
  rintro plugin found - ⟨idles, rfl⟩
  have document_eq : found.document = before.document := idles.document_eq
  have path_eq : found.path = before.path.enter (.key region.openingTag.name) := idles.path_eq
  rw [← document_eq] at stands ⊢
  rw [innerPaths, usual.containerType_eq, ← path_eq] at plain ⊢
  cases container with
  | loop => exact Loop.succeeds_replaceRegion (by decide) renders unrolls stands plain
  | tableLoop => exact Loop.succeeds_replaceRegion (by decide) renders unrolls stands plain
  | sections => exact Section.succeeds_replaceRegion renders unrolls stands plain

end IsUsual

theorem PlainAt.of_leaf {path : ScopePath} (isLeaf : tag.kind = .leaf)
    (plain : compiler.PlainAt context path (tag :: others)) :
    context.PlainAt (path.enter (.key tag.name)) ∧ compiler.PlainAt context path others := by
  rw [PlainAt, unroll, isLeaf, List.forall_mem_cons] at plain
  exact plain

theorem PlainAt.of_container {path : ScopePath} (isOpening : tag.kind = .opening container)
    (closes : closing.closes tag.name = true) (none : ∀ held ∈ inner, held.closes tag.name = false)
    (plain : compiler.PlainAt context path (tag :: (inner ++ closing :: others))) :
    (∀ inside ∈ compiler.innerPaths context container (path.enter (.key tag.name)),
      compiler.PlainAt context inside inner) ∧ compiler.PlainAt context path others := by
  rw [PlainAt, unroll_container isOpening closes none, List.forall_mem_append] at plain
  refine ⟨fun inside isInside dispatch isMember => plain.1 dispatch ?_, plain.2⟩
  exact List.mem_flatMap.mpr ⟨inside, isInside, isMember⟩

end Compiler

/-- What is left of a template once its first tag or container is replaced. -/
theorem Document.Refilled.prepared {document after : Document} {lead chars : List Char}
    {rest : List Piece} (refilled : Refilled stray document after host front back chars)
    (ready : Ready zone base after ((Piece.tags rest).map Tag.textNode))
    (first : document.Shows front (lead.map .char)) (second : document.Shows back rest)
    (nested : Nested (Piece.tags rest)) :
    Prepared stray zone base after host (lead.map .char ++ (chars.map .char ++ rest)) where
  ready := by simpa using ready
  housed := refilled.housed
  shows := refilled.shows first second
  nested := by simpa using nested

namespace Compiler

/-- Filling the tags of a template gives the text that the template stands for. -/
theorem IsUsual.succeeds_fillTags (usual : compiler.IsUsual) (services : context.services.Idle)
    (tags : List Tag) (isTags : Piece.tags pieces = tags)
    (prepared : Prepared stray zone base before.document host pieces)
    (plain : compiler.PlainAt context before.path tags) :
    Succeeds (compiler.fillTags context tags) before fun _ after =>
      after.document.Housed stray host ∧
        after.document.segmentText (after.document.runningTexts host) =
          compiler.expand context before.path pieces := by
  have keepsEmpty : compiler.options.skipEmptyTags = false := by rw [usual.options_eq]
  induction tags using fillTags.induct compiler generalizing zone base host pieces before with
  | case1 =>
      rcases Piece.exists_chars_of_tags_nil isTags with ⟨chars, rfl⟩
      rw [fillTags]
      refine Succeeds.of_pure ⟨prepared.housed, ?_⟩
      rw [prepared.shows.segmentText_eq, expand_map_char]
  | case2 tag rest isSkipped => simp [keepsEmpty] at isSkipped
  | case3 tag rest notSkipped isLeaf inductionHypothesis =>
      rcases Piece.exists_chars_of_tags_cons isTags with ⟨lead, later, rfl, rfl⟩
      rcases prepared.shows.exists_around with ⟨front, back, whole, first, second⟩
      rcases plain.of_leaf isLeaf with ⟨plainLeaf, plainRest⟩
      have nested := (isTags ▸ prepared.nested).of_leaf isLeaf
      have ready := prepared.ready
      rw [isTags, List.map_cons] at ready
      rw [fillTags, if_neg notSkipped, isLeaf]
      refine (usual.succeeds_fillLeaf isLeaf plainLeaf prepared.housed
        (Reached.solitary ready List.mem_cons_self) whole).bind ?_
      rintro ⟨⟩ middle done refilled
      have fills := fills_of_fillLeaf usual.plugins_eq services ready done
      rw [← fills.path_eq] at plainRest
      refine (inductionHypothesis (by simp) (refilled.prepared fills.reached.ready first second nested)
        plainRest).imp ?_
      rintro ⟨⟩ after - ⟨housed, text⟩
      refine ⟨housed, ?_⟩
      rw [text, expand_chars, expand_chars, expand_chars, fills.path_eq, expand, isLeaf]
  | case4 tag rest notSkipped isClosing inductionHypothesis =>
      exact absurd isClosing (isTags ▸ prepared.nested).not_closing
  | case5 tag rest notSkipped container isOpening unclosed =>
      rcases (isTags ▸ prepared.nested).exists_container isOpening with
        ⟨inner, closing, later, rfl, closes, none, -⟩
      rw [splitAtClosing?_of_not_closes none closes] at unclosed
      cases unclosed
  | case6 tag rest notSkipped container isOpening _ _ _ split innerHypothesis laterHypothesis =>
      rcases (isTags ▸ prepared.nested).exists_container isOpening with
        ⟨inner, closing, later, rfl, closes, none, nestedInner, nestedLater⟩
      rw [splitAtClosing?_of_not_closes none closes, Option.some.injEq, Prod.mk.injEq,
        Prod.mk.injEq] at split
      rcases split with ⟨rfl, rfl, rfl⟩
      rcases Piece.exists_container_of_tags isTags with ⟨lead, inside, outside, rfl, rfl, rfl⟩
      rcases prepared.shows.exists_around with ⟨front, rest, whole, first, between⟩
      rcases between.exists_around with ⟨ids, back, rfl, insideShown, second⟩
      rcases plain.of_container isOpening closes none with ⟨plainInside, plainOutside⟩
      let region : Region := ⟨tag, Piece.tags inside, closing⟩
      have ready : Ready zone base before.document
          (region.textNodes ((Piece.tags outside).map Tag.textNode)) := by
        simpa [isTags, Region.textNodes, region] using prepared.ready
      have stands : region.StandsIn stray zone base before.document host front ids back
          ((Piece.tags outside).map Tag.textNode) inside :=
        ⟨ready, prepared.housed, whole, insideShown, rfl, nestedInner⟩
      have unrolls : (compiler.regionCompiler context region).Unrolls compiler context :=
        unrolls_regionCompiler usual.plugins_eq keepsEmpty services region
      have renders : (compiler.regionCompiler context region).Renders stray compiler context := by
        intro tags fits zone base host pieces start isTags prepared plain
        refine (succeeds_announce context tags start).bind ?_
        rintro ⟨⟩ announced - idles
        rw [← idles.document_eq] at prepared
        rw [← idles.path_eq] at plain ⊢
        exact innerHypothesis tags fits isTags prepared plain
      rw [fillTags_of_closed isOpening (splitAtClosing?_of_not_closes none closes)
        (by simpa using notSkipped)]
      refine (usual.succeeds_fillRegion isOpening renders unrolls stands plainInside).bind ?_
      rintro ⟨⟩ middle done refilled
      have fills := fills_of_fillRegion usual.plugins_eq isOpening unrolls ready done
      rw [← fills.path_eq] at plainOutside
      refine (laterHypothesis (by simp) (refilled.prepared fills.reached.ready first second nestedLater)
        plainOutside).imp ?_
      rintro ⟨⟩ after - ⟨housed, text⟩
      refine ⟨housed, ?_⟩
      rw [text, expand_chars, expand_chars, expand_chars, fills.path_eq,
        expand_container isOpening closes none]

end Compiler

end WordTemplate
