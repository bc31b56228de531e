import WordTemplate.Filling.Standard
import WordTemplate.Proofs.Container.Securing
import WordTemplate.Proofs.Filling.Compiling
import WordTemplate.Proofs.Filling.Dispatching
import WordTemplate.Proofs.Leaf.Securing

/-!
# Wrappers do not leak

When copies of a region have been compiled with the standard plugins, all wrappers that this created are
empty and stand below nothing, at whatever depth of nested containers it failed, unless markup in the
data spells an element with the name of wrappers. What is returned for a copy are the children of its
wrapper, in order.
-/

namespace WordTemplate

open Document Outcome

/-- The content type of a leaf at a scope path, unless the value there declares an unknown one. -/
def Compiler.leafTypeAt (compiler : Compiler) (context : Context) (path : ScopePath) :
    Option ContentType :=
  match (context.valueAt path).bind ContentType.declaredBy with
  | none => some compiler.options.leafType
  | some declared => declared.toOption

/-- The markup that replaces a leaf at a scope path. -/
def Compiler.insertedAt (compiler : Compiler) (context : Context) (path : ScopePath) : Option String :=
  if compiler.leafTypeAt context path = some .rawXml then context.markupAt path else none

/-- No markup that replaces a leaf spells a wrapper. -/
def Compiler.InsertsNoWrapper (compiler : Compiler) (context : Context) : Prop :=
  ∀ path source, compiler.insertedAt context path = some source → Markup.SpellsNoWrapper source

variable {base : Nat} {compiler : Compiler} {context : Context} {style : HidingStyle}
  {region : Region} {tag : Tag} {tags : List Tag} {workspace : Workspace} {plugin : Plugin}

/-! ## Standard plugins -/

namespace Plugin

theorem secures_replaceLeaf (isStandard : plugin ∈ standard style)
    (services : context.services.KeepDocument) (isSealed : workspace.document.Sealed base)
    (plain : plugin.contentType = .rawXml → ∀ source,
      context.markupAt workspace.path = some source → Markup.SpellsNoWrapper source) :
    Work.Secures base (plugin.replaceLeaf context tag) workspace fun _ _ => True := by
  simp only [standard, List.mem_cons, List.not_mem_nil, or_false] at isStandard
  rcases isStandard with rfl | rfl | rfl | rfl | rfl | rfl | rfl
  · exact Leaf.secures_replaceByText isSealed
  · exact Leaf.secures_replaceByMarkup isSealed (plain rfl)
  · exact Leaf.secures_replaceByLink services isSealed
  · exact Leaf.secures_replaceByPicture services isSealed
  · exact Secures.of_pure isSealed trivial
  · exact Secures.of_pure isSealed trivial
  · exact Secures.of_pure isSealed trivial

theorem secures_replaceRegion {compile : RegionCompiler region} (isStandard : plugin ∈ standard style)
    (compiles : compile.Secures) (isSealed : workspace.document.Sealed base)
    (texts : region.HoldsText workspace.document) :
    Work.Secures base (plugin.replaceRegion context region compile) workspace fun _ _ => True := by
  simp only [standard, List.mem_cons, List.not_mem_nil, or_false] at isStandard
  rcases isStandard with rfl | rfl | rfl | rfl | rfl | rfl | rfl
  · exact Secures.of_pure isSealed trivial
  · exact Secures.of_pure isSealed trivial
  · exact Secures.of_pure isSealed trivial
  · exact Secures.of_pure isSealed trivial
  · exact Loop.secures_replaceRegion compiles isSealed texts
  · exact Loop.secures_replaceRegion compiles isSealed texts
  · exact Section.secures_replaceRegion compiles isSealed texts

end Plugin

/-! ## Filling tags -/

namespace Compiler

theorem secures_contentTypeOf (isSealed : workspace.document.Sealed base) :
    Work.Secures base (compiler.contentTypeOf context tag) workspace fun contentType after =>
      after = workspace ∧
        (tag.kind = .leaf → compiler.leafTypeAt context workspace.path = some contentType) := by
  rw [contentTypeOf]
  cases tag.kind with
  | opening container => exact Secures.of_pure isSealed ⟨rfl, by rintro ⟨⟩⟩
  | closing => exact Secures.of_pure isSealed ⟨rfl, by rintro ⟨⟩⟩
  | leaf =>
      refine Secures.bind isSealed (Secures.of_boundValue? isSealed context) ?_
      rintro value started - - ⟨isBound, rfl⟩
      rw [isBound, leafTypeAt]
      rcases (context.valueAt started.path).bind ContentType.declaredBy with _ | _ | contentType
      · exact Secures.of_pure isSealed ⟨rfl, fun _ => rfl⟩
      · exact Secures.of_get (Secures.of_throw isSealed)
      · exact Secures.of_pure isSealed ⟨rfl, fun _ => rfl⟩

theorem secures_pluginFor (isStandard : compiler.plugins = Plugin.standard style)
    (isSealed : workspace.document.Sealed base) :
    Work.Secures base (compiler.pluginFor context tag) workspace fun plugin after =>
      plugin ∈ Plugin.standard style ∧ after.path = workspace.path ∧
        (tag.kind = .leaf → compiler.leafTypeAt context workspace.path = some plugin.contentType) := by
  refine Secures.bind isSealed (secures_contentTypeOf isSealed) ?_
  rintro contentType started - - ⟨rfl, isLeafType⟩
  split
  · exact Secures.of_get (Secures.of_throw isSealed)
  · next plugin found =>
      refine Secures.of_get (Secures.bind isSealed (Secures.of_note isSealed _ _) ?_)
      rintro _ noted done toNoted -
      refine Secures.of_pure toNoted.toSealed ⟨isStandard ▸ mem_of_plugin? found,
        (Work.idles_of_note done).path_eq, fun isLeaf => ?_⟩
      rw [isLeafType isLeaf, contentType_of_plugin? found]

theorem secures_announce (isSealed : workspace.document.Sealed base) (tags : List Tag) :
    Work.Secures base (announce context tags) workspace fun _ _ => True :=
  Secures.of_get (Secures.of_note isSealed _ _).forget

section Standard

variable (isStandard : compiler.plugins = Plugin.standard style)
include isStandard

theorem secures_fillLeaf (services : context.services.KeepDocument)
    (plain : compiler.InsertsNoWrapper context) (isSealed : workspace.document.Sealed base)
    (isLeaf : tag.kind = .leaf) :
    Work.Secures base (compiler.fillLeaf context tag) workspace fun _ _ => True := by
  refine Secures.withPart ?_
  refine Secures.bind isSealed (secures_pluginFor isStandard isSealed) ?_
  rintro plugin found - toFound ⟨isMember, path_eq, isLeafType⟩
  have dispatched : Work.Secures base (Work.dispatch tag) found fun _ after =>
      after.path = found.path :=
    Secures.of_modify (Seals.refl toFound.toSealed) rfl
  refine Secures.bind toFound.toSealed dispatched ?_
  intro _ after _ toAfter samePath
  refine Plugin.secures_replaceLeaf isMember services toAfter.toSealed fun isMarkup source found => ?_
  have isRaw : compiler.leafTypeAt context after.path = some .rawXml := by
    rw [samePath, path_eq, isLeafType isLeaf, isMarkup]
  exact plain after.path source (by rw [insertedAt, if_pos isRaw, found])

theorem secures_fillRegion (compiles : (compiler.regionCompiler context region).Secures)
    (isSealed : workspace.document.Sealed base) (texts : region.HoldsText workspace.document) :
    Work.Secures base (compiler.fillRegion context region) workspace fun _ _ => True := by
  refine Secures.withPart ?_
  refine Secures.bind isSealed (secures_pluginFor isStandard isSealed) ?_
  rintro plugin found - toFound ⟨isMember, -, -⟩
  exact Plugin.secures_replaceRegion isMember compiles toFound.toSealed (texts.seals toFound)

/-- Filling tags that stand at text nodes is secure. -/
theorem secures_fillTags (services : context.services.KeepDocument)
    (plain : compiler.InsertsNoWrapper context) (isSealed : workspace.document.Sealed base)
    (texts : ∀ tag ∈ tags, workspace.document.HoldsText tag.textNode) :
    Work.Secures base (compiler.fillTags context tags) workspace fun _ _ => True := by
  induction tags using fillTags.induct compiler generalizing base workspace with
  | case1 =>
      rw [fillTags]
      exact Secures.of_pure isSealed trivial
  | case2 tag rest isSkipped inductionHypothesis =>
      rw [fillTags, if_pos isSkipped]
      refine Secures.bind isSealed (Secures.of_edit_work (Edit.secures_setText isSealed _ _)) ?_
      intro _ written _ toWritten _
      exact inductionHypothesis toWritten.toSealed fun other isOther =>
        toWritten.holdsText (texts other (List.mem_cons_of_mem _ isOther))
  | case3 tag rest notSkipped isLeaf inductionHypothesis =>
      rw [fillTags, if_neg notSkipped]
      simp only [isLeaf]
      refine Secures.bind isSealed (secures_fillLeaf isStandard services plain isSealed isLeaf) ?_
      intro _ filled _ toFilled _
      exact inductionHypothesis toFilled.toSealed fun other isOther =>
        toFilled.holdsText (texts other (List.mem_cons_of_mem _ isOther))
  | case4 tag rest notSkipped isClosing inductionHypothesis =>
      rw [fillTags, if_neg notSkipped]
      simp only [isClosing]
      have ignored : Work.Secures base (Work.withPart (.key tag.name) do
          discard (compiler.pluginFor context tag)
          Work.note .warn
            ("Ignoring close tag '" ++ tag.rawText ++ "' without a matching open tag"))
          workspace fun _ _ => True := by
        refine Secures.withPart (Secures.bind isSealed
          (secures_pluginFor isStandard (by exact isSealed)).discard ?_)
        intro _ found _ toFound _
        exact (Secures.of_note toFound.toSealed _ _).forget
      refine Secures.bind isSealed ignored ?_
      intro _ noted _ toNoted _
      exact inductionHypothesis toNoted.toSealed fun other isOther =>
        toNoted.holdsText (texts other (List.mem_cons_of_mem _ isOther))
  | case5 tag rest notSkipped container isOpening unclosed =>
      rw [fillTags_of_unclosed isOpening unclosed (by simpa using notSkipped)]
      refine Secures.withPart (Secures.bind isSealed
        (secures_pluginFor isStandard (by exact isSealed)).discard ?_)
      intro _ found _ toFound _
      exact Secures.of_throw toFound.toSealed
  | case6 tag rest notSkipped container isOpening inner closing later split innerHypothesis
      laterHypothesis =>
      rw [fillTags_of_closed isOpening split (by simpa using notSkipped)]
      have compiles : (compiler.regionCompiler context ⟨tag, inner, closing⟩).Secures := by
        intro base tags fits start isSealed texts
        refine Secures.bind isSealed (secures_announce isSealed tags) ?_
        intro _ announced _ toAnnounced _
        exact innerHypothesis tags fits toAnnounced.toSealed fun tag isTag =>
          toAnnounced.holdsText (texts tag isTag)
      rw [← append_eq_of_splitAtClosing? split] at texts
      have regionTexts : Region.HoldsText ⟨tag, inner, closing⟩ workspace.document :=
        ⟨texts tag (by simp), fun other isOther => texts other (by simp [isOther]),
          texts closing (by simp)⟩
      refine Secures.bind isSealed (secures_fillRegion isStandard compiles isSealed regionTexts) ?_
      intro _ filled _ toFilled _
      exact laterHypothesis toFilled.toSealed fun other isOther =>
        toFilled.holdsText (texts other (by simp [isOther]))

/-- The compiler of a region is secure. -/
theorem secures_regionCompiler (services : context.services.KeepDocument)
    (plain : compiler.InsertsNoWrapper context) (region : Region) :
    (compiler.regionCompiler context region).Secures := by
  intro base tags fits workspace isSealed texts
  refine Secures.bind isSealed (secures_announce isSealed tags) ?_
  intro _ announced _ toAnnounced _
  exact secures_fillTags isStandard services plain toAnnounced.toSealed fun tag isTag =>
    toAnnounced.holdsText (texts tag isTag)

end Standard

end Compiler

/-! ## Documents without wrappers -/

namespace Document

variable {base : Nat} {document before after : Document} {wrapper : NodeId}

/-- A document without wrappers, all of whose nodes count as old. -/
theorem Sealed.of_unwrapped (wellFormed : document.WellFormed)
    (unwrapped : ∀ id, document.isWrapper id = false) : document.Sealed document.size where
  wellFormed := wellFormed
  base_le := Nat.le_refl _
  root_lt := wellFormed.root_lt
  root_free parent _ := unwrapped parent
  root_ordinary := unwrapped _
  child_ordinary child _ _ := unwrapped child

/-- Wrappers that came to a document without any have neither a parent nor children. -/
theorem Seals.alone_of_unwrapped (seals : Seals base before after) (wellFormed : before.WellFormed)
    (unwrapped : ∀ id, before.isWrapper id = false) (isWrapper : after.isWrapper wrapper = true) :
    after.parent wrapper = none ∧ after.children wrapper = [] := by
  have isFree : ∀ child, before.parent child ≠ some wrapper := by
    intro child isParent
    rw [seals.isWrapper_eq wrapper (parent_lt_size wellFormed isParent), unwrapped] at isWrapper
    cases isWrapper
  constructor
  · rcases isParent : after.parent wrapper with _ | parent
    · rfl
    · rw [seals.child_ordinary wrapper parent isParent] at isWrapper
      cases isWrapper
  · refine List.eq_nil_iff_forall_not_mem.mpr fun child isChild => ?_
    have isParent := (seals.wellFormed.mem_children_iff _ _).mp isChild
    rcases seals.held child wrapper isParent isWrapper with wasParent | ⟨-, other, wasParent⟩
    · exact isFree child wasParent
    · exact isFree other wasParent

end Document

/-! ## What is returned -/

namespace Region

variable {region : Region} {compile : RegionCompiler region} {scoping : Scoping} {index : Nat}
  {copy : RegionCopy} {copies : List RegionCopy} {groups : List (List NodeId)}
  {before after : Workspace}

/-- Copies were compiled one after the other, each below a wrapper of its own. What is returned for a
copy are the children of its wrapper, in order, once the tags of the copy are filled, and then the
wrapper is emptied. -/
inductive Unwraps (region : Region) (compile : RegionCompiler region) (scoping : Scoping) :
    Nat → List RegionCopy → Workspace → List (List NodeId) → Workspace → Prop where
  | none {index : Nat} {workspace : Workspace} :
      Unwraps region compile scoping index [] workspace [] workspace
  | next {index : Nat} {copy : RegionCopy} {copies : List RegionCopy} {before filled after : Workspace}
      {wrapped released : Document} {wrapper : NodeId} {groups : List (List NodeId)}
      (wraps : Edit.fillWrapper copy.roots before.document = .ok wrapper wrapped)
      (fills : scoping.place index
        (compile (copy.tags region.innerTags) (copy.length_tags_le region.innerTags))
        { before with document := wrapped } = .ok ⟨⟩ filled)
      (empties : Edit.emptyWrapper wrapper filled.document =
        .ok (filled.document.children wrapper) released)
      (later : Unwraps region compile scoping (index + 1) copies
        { filled with document := released } groups after) :
      Unwraps region compile scoping index (copy :: copies) before
        (filled.document.children wrapper :: groups) after

theorem unwraps_of_compileCopies
    (done : region.compileCopies compile scoping index copies before = .ok groups after) :
    region.Unwraps compile scoping index copies before groups after := by
  induction copies generalizing index before groups with
  | nil =>
      rw [compileCopies, pure_eq_ok] at done
      rcases done with ⟨rfl, rfl⟩
      exact .none
  | cons copy rest inductionHypothesis =>
      simp only [compileCopies, bind_eq_ok, pure_eq_ok] at done
      rcases done with ⟨nodes, middle, firstDone, others, _, restDone, rfl, rfl⟩
      have later := inductionHypothesis restDone
      simp only [compileCopy, bind_eq_ok, edit_work_eq_ok, Work.thenAlways_eq_ok] at firstDone
      rcases firstDone with ⟨wrapper, _, ⟨wrapped, wraps, rfl⟩, ⟨⟩, filled, fills, released,
        empties, rfl⟩
      have nodes_eq : nodes = filled.document.children wrapper := by
        simp only [Edit.emptyWrapper, get_bind, bind_eq_ok, pure_eq_ok] at empties
        rcases empties with ⟨-, _, -, rfl, -⟩
        rfl
      subst nodes_eq
      exact .next wraps fills empties later

end Region

/-! ## What scope paths lead to -/

/-- A step leads to the value of a field or to an item. -/
theorem Data.Value.part_of_step? {value next : Data.Value} {part : PathPart}
    (found : value.step? part = some next) :
    (∃ fields key, value = .object fields ∧ (key, next) ∈ fields) ∨
      ∃ items, value = .array items ∧ next ∈ items := by
  unfold step? at found
  split at found
  · next fields name =>
      rcases List.lookup_eq_some_iff.mp found with ⟨before, behind, rfl, -⟩
      exact Or.inl ⟨_, name, rfl, by simp⟩
  · next items position => exact Or.inr ⟨items, rfl, List.mem_of_getElem? found⟩
  · next items name =>
      rcases Option.bind_eq_some_iff.mp found with ⟨position, -, found⟩
      exact Or.inr ⟨items, rfl, List.mem_of_getElem? found⟩
  · cases found

/-- Every step into a value leads to another one of some values if it starts at one of them. -/
def Data.ClosedUnderSteps (values : List Data.Value) : Prop :=
  ∀ value ∈ values, ∀ part next, value.step? part = some next → next ∈ values

/-- What the lexical resolver finds is reached from the data by steps. -/
theorem Resolver.mem_of_lexical {values : List Data.Value} {data value : Data.Value}
    {path : ScopePath} (closed : Data.ClosedUnderSteps values) (isData : data ∈ values)
    (found : lexical path data = some value) : value ∈ values := by
  have walked : ∀ (steps : ScopePath) start value, start ∈ values →
      start.walk? steps = some value → value ∈ values := by
    intro steps
    induction steps with
    | nil =>
        rintro start value isStart ⟨⟩
        exact isStart
    | cons part rest inductionHypothesis =>
        intro start value isStart found
        rcases Option.bind_eq_some_iff.mp found with ⟨next, isNext, found⟩
        exact inductionHypothesis next value (closed start isStart part next isNext) found
  rw [lexical] at found
  split at found
  · cases found
    exact isData
  · next last _ =>
      rcases List.exists_of_findSome?_eq_some found with ⟨depth, -, found⟩
      rcases Option.bind_eq_some_iff.mp found with ⟨scope, isScope, isValue⟩
      exact closed scope (walked _ data scope isData isScope) last value isValue

namespace Compiler

variable {compiler : Compiler} {context : Context} {style : HidingStyle} {region : Region}
  {copies : List RegionCopy} {before : Workspace}

/-- **Wrappers do not leak.** Copies whose tags stand at text nodes are compiled in a document without
wrappers, with the standard plugins. Whether that succeeds or fails, at any depth of nested containers,
every wrapper is empty afterwards and stands below nothing, unless markup in the data spells an element
of that name. On success the children of the wrapper of each copy are returned, in order, and all of
them are without a parent in the end. -/
theorem compileCopies_emptiesWrappers (isStandard : compiler.plugins = Plugin.standard style)
    (services : context.services.KeepDocument) (plain : compiler.InsertsNoWrapper context)
    (wellFormed : before.document.WellFormed)
    (unwrapped : ∀ id, before.document.isNamed id Edit.wrapperName = false)
    (areFree : ∀ copy ∈ copies, ∀ root ∈ copy.roots,
      root.index < before.document.size ∧ root ≠ before.document.root)
    (texts : ∀ copy ∈ copies, ∀ tag ∈ copy.tags region.innerTags,
      before.document.HoldsText tag.textNode)
    (scoping : Region.Scoping) (index : Nat) :
    Ends (fun after => ∀ wrapper, after.document.isNamed wrapper Edit.wrapperName = true →
        after.document.parent wrapper = none ∧ after.document.children wrapper = [])
      (region.compileCopies (compiler.regionCompiler context region) scoping index copies before) ∧
    ∀ groups after, region.compileCopies (compiler.regionCompiler context region) scoping index copies
        before = .ok groups after →
      region.Unwraps (compiler.regionCompiler context region) scoping index copies before groups after ∧
        ∀ node ∈ groups.flatten, after.document.parent node = none := by
  have areReady : ∀ copy ∈ copies, copy.IsReady before.document region.innerTags := fun copy isCopy =>
    ⟨fun root isRoot => ⟨(areFree copy isCopy root isRoot).1, unwrapped root⟩,
      fun isRoot => (areFree copy isCopy _ isRoot).2 rfl, texts copy isCopy⟩
  have secures : Work.Secures before.document.size (region.compileCopies
      (compiler.regionCompiler context region) scoping index copies) before _ :=
    Region.secures_compileCopies (secures_regionCompiler isStandard services plain region)
      (.of_unwrapped wellFormed unwrapped) areReady
  unfold Work.Secures WordTemplate.Secures at secures
  cases done : region.compileCopies (compiler.regionCompiler context region) scoping index copies
      before with
  | error cause after =>
      rw [done] at secures
      exact ⟨.error fun wrapper => secures.alone_of_unwrapped wellFormed unwrapped, nofun⟩
  | ok groups after =>
      rw [done] at secures
      refine ⟨.ok fun wrapper => secures.1.alone_of_unwrapped wellFormed unwrapped, ?_⟩
      rintro _ _ ⟨⟩
      exact ⟨Region.unwraps_of_compileCopies done,
        fun node isNode => (secures.2 node isNode).isDetached⟩

/-! ## Copies that fail and copies that bring in a wrapper -/

/-- A paragraph with three texts that was taken out of the tree. -/
def heldOut : Document :=
  (Document.ofTree (.node "w:body" []
    [.node "w:p" [] [.node "w:r" []
      [.node "w:t" [] [.text ""], .node "w:t" [] [.text ""], .node "w:t" [] [.text ""]]]])).detach ⟨2⟩

/-- A loop around a region. -/
def regionOf (innerTags : List Tag) : Region :=
  ⟨⟨"a", "\x7b#a\x7d", .opening .loop, [], ⟨5⟩⟩, innerTags, ⟨"a", "\x7b/a\x7d", .closing, [], ⟨9⟩⟩⟩

/-- The paragraph as the copy of a region. -/
def heldOutCopy : RegionCopy := ⟨[⟨2⟩], [(⟨5⟩, ⟨5⟩), (⟨7⟩, ⟨7⟩), (⟨9⟩, ⟨9⟩)]⟩

/-- Compiles the paragraph with some tags in it. -/
def compileHeldOut (context : Context) (tags : List Tag) : Work (List (List NodeId)) :=
  (regionOf tags).compileCopies (plain.regionCompiler context (regionOf tags)) .indexed 0 [heldOutCopy]

/-- A loop around a tag that opens another one and is never closed. -/
def unclosedTags : List Tag :=
  [⟨"b", "\x7b#b\x7d", .opening .loop, [], ⟨5⟩⟩, ⟨"c", "\x7b#c\x7d", .opening .loop, [], ⟨7⟩⟩,
    ⟨"b", "\x7b/b\x7d", .closing, [], ⟨9⟩⟩]

/-- Data for one repetition of that loop. -/
def unclosedData : Context where
  part := "word/document.xml"
  data := .object [("b", .array [.null])]

theorem insertsNoWrapper_unclosedData : plain.InsertsNoWrapper unclosedData := by
  intro path source inserted
  have closed : Data.ClosedUnderSteps [unclosedData.data, .array [.null], .null] := by
    intro value isValue part next found
    simp only [unclosedData, List.mem_cons, List.not_mem_nil, or_false] at isValue ⊢
    rcases isValue with rfl | rfl | rfl <;>
      rcases Data.Value.part_of_step? found with ⟨fields, key, ⟨⟩, isPart⟩ | ⟨items, ⟨⟩, isPart⟩ <;>
      simp_all
  have untyped : plain.leafTypeAt unclosedData path = some .text := by
    rw [leafTypeAt]
    cases bound : unclosedData.valueAt path with
    | none => rfl
    | some value =>
        have isValue := Resolver.mem_of_lexical closed List.mem_cons_self bound
        simp only [unclosedData, List.mem_cons, List.not_mem_nil, or_false] at isValue
        rcases isValue with rfl | rfl | rfl <;> decide +kernel
  simp [insertedAt, untyped] at inserted

theorem wellFormed_heldOut : heldOut.WellFormed := (wellFormed_ofTree _).detach ⟨2⟩

theorem unwrapped_heldOut (id : NodeId) : heldOut.isNamed id Edit.wrapperName = false := by
  have unwrapped : ∀ id ∈ heldOut.ids, heldOut.isNamed id Edit.wrapperName = false := by
    decide +kernel
  by_contra named
  rw [Bool.not_eq_false] at named
  have inStore : id ∈ heldOut.ids :=
    List.mem_map.mpr ⟨id.index, List.mem_range.mpr (lt_size_of_isNamed named), rfl⟩
  rw [unwrapped id inStore] at named
  cases named

theorem holdsText_heldOut : ∀ copy ∈ [heldOutCopy], ∀ tag ∈ copy.tags (regionOf unclosedTags).innerTags,
    heldOut.HoldsText tag.textNode := by
  have texts : ∀ copy ∈ [heldOutCopy], ∀ tag ∈ copy.tags (regionOf unclosedTags).innerTags,
      tag.textNode.index < heldOut.size ∧ heldOut.isText tag.textNode = true := by decide +kernel
  exact fun copy isCopy tag isTag => ⟨(texts copy isCopy tag isTag).1, (texts copy isCopy tag isTag).2⟩

/-- The inner loop fails below two wrappers, which are empty afterwards. -/
theorem compileCopies_emptiesWrappers_unclosed :
    ∃ after, compileHeldOut unclosedData unclosedTags { document := heldOut } =
        .error (.unclosedTag "c") after ∧
      after.document.isNamed ⟨10⟩ Edit.wrapperName = true ∧
      after.document.isNamed ⟨19⟩ Edit.wrapperName = true ∧
      (after.document.parent ⟨10⟩ = none ∧ after.document.children ⟨10⟩ = []) ∧
      after.document.parent ⟨19⟩ = none ∧ after.document.children ⟨19⟩ = [] := by
  have failing : (match compileHeldOut unclosedData unclosedTags { document := heldOut } with
      | .error (.unclosedTag name) after => decide (name = "c" ∧
          after.document.isNamed ⟨10⟩ Edit.wrapperName = true ∧
          after.document.isNamed ⟨19⟩ Edit.wrapperName = true)
      | _ => false) = true := by decide +kernel
  have alone := (@compileCopies_emptiesWrappers plain unclosedData .vanishRuns
    (regionOf unclosedTags) [heldOutCopy] { document := heldOut } rfl Services.keepDocument_recording
    insertsNoWrapper_unclosedData wellFormed_heldOut unwrapped_heldOut (by decide +kernel)
    holdsText_heldOut .indexed 0).1
  rw [← compileHeldOut] at alone
  split at failing
  · next name after done =>
      rcases of_decide_eq_true failing with ⟨rfl, first, second⟩
      rw [done] at alone
      cases alone with
      | error alone => exact ⟨after, done, first, second, alone _ first, alone _ second⟩
  · cases failing

/-- Data with markup that spells a wrapper. -/
def wrapperData : Context where
  part := "word/document.xml"
  data := .object [("x", .object [("_type", .string "rawXml"), ("xml", .string "<stencil:wrapper/>")])]

/-- Markup that spells a wrapper brings one in that stands below the run of its tag. -/
theorem compileCopies_bringsInWrapper :
    heldOut.WellFormed ∧ (∀ id, heldOut.isNamed id Edit.wrapperName = false) ∧
      heldOut.parent ⟨2⟩ = none ∧ ∃ groups after,
        compileHeldOut wrapperData [⟨"x", "\x7bx\x7d", .leaf, [], ⟨5⟩⟩] { document := heldOut } =
          .ok groups after ∧
        after.document.isNamed ⟨12⟩ Edit.wrapperName = true ∧
        after.document.parent ⟨12⟩ = some ⟨3⟩ := by
  have compiled : (match compileHeldOut wrapperData [⟨"x", "\x7bx\x7d", .leaf, [], ⟨5⟩⟩]
        { document := heldOut } with
      | .ok _ after => decide (after.document.isNamed ⟨12⟩ Edit.wrapperName = true ∧
          after.document.parent ⟨12⟩ = some ⟨3⟩)
      | .error _ _ => false) = true := by decide +kernel
  refine ⟨wellFormed_heldOut, unwrapped_heldOut, by decide +kernel, ?_⟩
  split at compiled
  · next groups after done => exact ⟨groups, after, done, of_decide_eq_true compiled⟩
  · cases compiled

end Compiler

end WordTemplate
