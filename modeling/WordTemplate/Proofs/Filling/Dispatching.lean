import WordTemplate.Filling.Standard
import WordTemplate.Proofs.Container.Regions
import WordTemplate.Proofs.Leaf.Link
import WordTemplate.Proofs.Leaf.Text

/-!
# Filling dispatches the unrolled tags

Filling tags with the standard plugins dispatches their leaves as unrolling the tags lists them. The
induction is on the number of tags. Each tag is filled in a document in which its text node and those
of the tags after it stand in order; filling it leaves the later ones so.
-/

namespace WordTemplate

open Outcome Document

variable {zone : NodeId → Prop} {base : Nat} {compiler : Compiler} {context : Context}
  {style : HidingStyle} {before middle after : Workspace} {later : List NodeId} {result : Unit}

namespace Workspace

theorem Fills.advances {dispatched dispatched' : List Dispatch}
    (fills : before.Fills zone base dispatched later middle)
    (advances : middle.Advances zone base dispatched' after) :
    before.Advances zone base (dispatched ++ dispatched') after where
  path_eq := advances.path_eq.trans fills.path_eq
  dispatches_eq := by rw [advances.dispatches_eq, fills.dispatches_eq, List.append_assoc]
  changes := fills.reached.toChangesWithin.trans (advances.changes.mono fills.reached.wellFormed
    fills.reached.closed (fun _ => id) (Rights.within_since _ fills.reached.size_le))

end Workspace

namespace Plugin

variable {plugin : Plugin} {tag : Tag} {workspace workspace' : Workspace} {rest : List NodeId}

/-- A standard plugin leaves the text nodes of the tags that come later pending when it replaces a
leaf. -/
theorem reached_of_replaceLeaf (isStandard : plugin ∈ standard style)
    (services : context.services.Idle)
    (ready : Ready zone base workspace.document (tag.textNode :: rest))
    (done : plugin.replaceLeaf context tag workspace = .ok result workspace') :
    workspace.Resumes workspace' ∧
      Reached zone base workspace.document workspace'.document rest := by
  have reached : Reached zone base workspace.document workspace.document (tag.textNode :: rest) :=
    ready
  have untouched (same : workspace = workspace') : workspace.Resumes workspace' ∧
      Reached zone base workspace.document workspace'.document rest :=
    same ▸ ⟨⟨rfl, rfl⟩, reached.sublist (List.sublist_cons_self _ _)⟩
  simp only [standard, List.mem_cons, List.not_mem_nil, or_false] at isStandard
  rcases isStandard with rfl | rfl | rfl | rfl | rfl | rfl | rfl
  · exact Leaf.reached_of_replaceByText ready done
  · exact Leaf.reached_of_replaceByMarkup ready done
  · exact Leaf.reached_of_replaceByLink services ready done
  · exact Leaf.reached_of_replaceByPicture services ready done
  · exact untouched (pure_eq_ok.mp done).2
  · exact untouched (pure_eq_ok.mp done).2
  · exact untouched (pure_eq_ok.mp done).2

end Plugin

theorem Compiler.mem_of_plugin? {contentType : ContentType} {plugin : Plugin}
    (found : compiler.plugin? contentType = some plugin) : plugin ∈ compiler.plugins :=
  List.mem_reverse.mp (List.mem_of_find?_eq_some found)

/-- The plugin that is found has the content type that was asked for. -/
theorem Compiler.contentType_of_plugin? {contentType : ContentType} {plugin : Plugin}
    (found : compiler.plugin? contentType = some plugin) : plugin.contentType = contentType := by
  rw [Compiler.plugin?] at found
  have same := List.find?_some found
  exact beq_iff_eq.mp same

/-- The plugin for a container fills its region once for each path inside. -/
theorem Plugin.fills_of_replaceRegion {plugin : Plugin} {container : Container} {region : Region}
    {compile : RegionCompiler region} (isStandard : compiler.plugins = standard style)
    (found : compiler.plugin? (Compiler.containerType compiler.options container) = some plugin)
    (unrolls : compile.Unrolls compiler context)
    (ready : Ready zone base before.document (region.textNodes later))
    (done : plugin.replaceRegion context region compile before = .ok result after) :
    before.Fills zone base
      (region.dispatches compiler context (compiler.innerPaths context container before.path))
      later after := by
  have isMember : plugin ∈ standard style := isStandard ▸ Compiler.mem_of_plugin? found
  have matched := (Compiler.contentType_of_plugin? found).symm
  have untouched (same : before = after) : before.Fills zone base [] later after := by
    have reached : Reached zone base before.document before.document _ := ready
    subst same
    exact ⟨rfl, by simp, reached.sublist (((List.sublist_cons_self _ _).trans
      (List.sublist_append_right _ _)).trans (List.sublist_cons_self _ _))⟩
  rw [Compiler.innerPaths, matched]
  simp only [standard, List.mem_cons, List.not_mem_nil, or_false] at isMember
  rcases isMember with rfl | rfl | rfl | rfl | rfl | rfl | rfl
  · exact untouched (pure_eq_ok.mp done).2
  · exact untouched (pure_eq_ok.mp done).2
  · exact untouched (pure_eq_ok.mp done).2
  · exact untouched (pure_eq_ok.mp done).2
  · exact Loop.fills_of_replaceRegion unrolls ready done
  · exact Loop.fills_of_replaceRegion unrolls ready done
  · exact Section.fills_of_replaceRegion unrolls ready done

/-- Work below a step of the scope path. -/
theorem Work.fills_of_withPart {part : PathPart} {work : Work Unit} {dispatched : List Dispatch}
    (fills : ∀ inner, work { before with path := before.path.enter part } = .ok result inner →
      { before with path := before.path.enter part }.Fills zone base dispatched later inner)
    (done : withPart part work before = .ok result after) :
    before.Fills zone base dispatched later after := by
  rw [withPart_eq_ok] at done
  rcases done with ⟨inner, innerDone, rfl⟩
  have fills := fills inner innerDone
  exact ⟨by rw [fills.path_eq, ScopePath.leave_enter], fills.dispatches_eq, fills.reached⟩

namespace Compiler

/-- What replaces a leaf. -/
def fillLeaf (compiler : Compiler) (context : Context) (tag : Tag) : Work Unit :=
  Work.withPart (.key tag.name) do
    let plugin ← compiler.pluginFor context tag
    Work.dispatch tag
    plugin.replaceLeaf context tag

/-- The way to compile tags of a region. -/
def regionCompiler (compiler : Compiler) (context : Context) (region : Region) :
    RegionCompiler region :=
  fun tags _ => compiler.compileTags context tags

/-- What replaces a container. -/
def fillRegion (compiler : Compiler) (context : Context) (region : Region) : Work Unit :=
  Work.withPart (.key region.openingTag.name) do
    (← compiler.pluginFor context region.openingTag).replaceRegion context region
      (compiler.regionCompiler context region)

section Opening

variable {tag closing : Tag} {rest inner others : List Tag} {container : Container}

theorem fillTags_of_unclosed (isOpening : tag.kind = .opening container)
    (unclosed : splitAtClosing? tag.name rest = none)
    (notSkipped : (tag.name.isEmpty && compiler.options.skipEmptyTags) = false) :
    compiler.fillTags context (tag :: rest) =
      Work.withPart (.key tag.name) (do
        discard (compiler.pluginFor context tag)
        throw (.unclosedTag tag.name)) := by
  rw [fillTags, if_neg (by simp [notSkipped])]
  simp only [isOpening]
  split <;> simp_all

theorem fillTags_of_closed (isOpening : tag.kind = .opening container)
    (closed : splitAtClosing? tag.name rest = some (inner, closing, others))
    (notSkipped : (tag.name.isEmpty && compiler.options.skipEmptyTags) = false) :
    compiler.fillTags context (tag :: rest) = (do
      compiler.fillRegion context ⟨tag, inner, closing⟩
      compiler.fillTags context others) := by
  rw [fillTags, if_neg (by simp [notSkipped])]
  simp only [isOpening]
  split
  · simp_all
  · rename_i split
    rw [closed, Option.some.injEq, Prod.mk.injEq, Prod.mk.injEq] at split
    rcases split with ⟨rfl, rfl, rfl⟩
    rfl

end Opening

theorem fills_of_fillLeaf {tag : Tag} (isStandard : compiler.plugins = Plugin.standard style)
    (services : context.services.Idle) (ready : Ready zone base before.document (tag.textNode :: later))
    (done : compiler.fillLeaf context tag before = .ok result after) :
    before.Fills zone base [⟨tag.name, tag.rawText, before.path.enter (.key tag.name)⟩] later after := by
  refine Work.fills_of_withPart (fun inner done => ?_) done
  simp only [bind_eq_ok] at done
  rcases done with ⟨plugin, found, findDone, ⟨⟩, asked, askDone, replaceDone⟩
  rcases idles_of_pluginFor findDone with ⟨idles, contentType, isPlugin, -⟩
  simp only [Work.dispatch, modify_eq_ok] at askDone
  subst askDone
  refine Workspace.Fills.of_idles idles ?_
  have path_eq : before.path.enter (.key tag.name) = found.path := idles.path_eq.symm
  rw [path_eq]
  rcases Plugin.reached_of_replaceLeaf (isStandard ▸ mem_of_plugin? isPlugin) services
    (idles.document_eq ▸ ready) replaceDone with ⟨resumes, reached⟩
  exact ⟨resumes.path_eq, by rw [resumes.dispatches_eq, Array.toList_push], reached⟩

theorem fills_of_fillRegion {region : Region} {container : Container}
    (isStandard : compiler.plugins = Plugin.standard style)
    (isOpening : region.openingTag.kind = .opening container)
    (unrolls : (compiler.regionCompiler context region).Unrolls compiler context)
    (ready : Ready zone base before.document (region.textNodes later))
    (done : compiler.fillRegion context region before = .ok result after) :
    before.Fills zone base
      (region.dispatches compiler context
        (compiler.innerPaths context container (before.path.enter (.key region.openingTag.name))))
      later after := by
  refine Work.fills_of_withPart (fun filled done => ?_) done
  rw [bind_eq_ok] at done
  rcases done with ⟨plugin, found, findDone, replaceDone⟩
  rcases idles_of_pluginFor findDone with ⟨idles, contentType, isPlugin, declared⟩
  refine Workspace.Fills.of_idles idles ?_
  have path_eq : before.path.enter (.key region.openingTag.name) = found.path := idles.path_eq.symm
  rw [path_eq]
  exact Plugin.fills_of_replaceRegion isStandard (declared container isOpening ▸ isPlugin) unrolls
    (idles.document_eq ▸ ready) replaceDone

/-- Announcing tags dispatches none of them. -/
theorem advances_of_compileTags {tags : List Tag}
    (filling : ∀ {start : Workspace}, Ready zone base start.document (tags.map Tag.textNode) →
      compiler.fillTags context tags start = .ok result after →
      start.Advances zone base (compiler.unroll context start.path tags) after)
    (ready : Ready zone base before.document (tags.map Tag.textNode))
    (done : compiler.compileTags context tags before = .ok result after) :
    before.Advances zone base (compiler.unroll context before.path tags) after := by
  rw [compileTags, bind_eq_ok] at done
  rcases done with ⟨⟨⟩, announced, announceDone, done⟩
  have idles := idles_of_announce announceDone
  have advances := filling (idles.document_eq ▸ ready) done
  rw [idles.path_eq] at advances
  exact ⟨advances.path_eq.trans idles.path_eq,
    by rw [advances.dispatches_eq, idles.dispatches_eq], idles.document_eq ▸ advances.changes⟩

/-- Filling tags dispatches their leaves as unrolling them lists them. -/
theorem advances_of_fillTags (isStandard : compiler.plugins = Plugin.standard style)
    (fillsEmpty : compiler.options.skipEmptyTags = false) (services : context.services.Idle)
    (tags : List Tag) (ready : Ready zone base before.document (tags.map Tag.textNode))
    (done : compiler.fillTags context tags before = .ok result after) :
    before.Advances zone base (compiler.unroll context before.path tags) after := by
  induction tags using fillTags.induct compiler generalizing zone base before after with
  | case1 =>
      rw [fillTags, pure_eq_ok] at done
      rcases done with ⟨-, rfl⟩
      have reached : Reached zone base before.document before.document _ := ready
      exact ⟨rfl, by simp [unroll], reached.toChangesWithin⟩
  | case2 tag rest isSkipped => simp [fillsEmpty] at isSkipped
  | case3 tag rest notSkipped isLeaf inductionHypothesis =>
      rw [fillTags, if_neg notSkipped] at done
      simp only [isLeaf, bind_eq_ok] at done
      rcases done with ⟨⟨⟩, middle, tagDone, restDone⟩
      have fills := fills_of_fillLeaf isStandard services ready tagDone
      rw [unroll, isLeaf]
      exact fills.advances (fills.path_eq ▸ inductionHypothesis fills.reached.ready restDone)
  | case4 tag rest notSkipped isClosing inductionHypothesis =>
      rw [fillTags, if_neg notSkipped] at done
      simp only [isClosing, bind_eq_ok] at done
      rcases done with ⟨⟨⟩, middle, tagDone, restDone⟩
      have fills : before.Fills zone base [] (rest.map Tag.textNode) middle := by
        refine Work.fills_of_withPart (fun inner done => ?_) tagDone
        simp only [bind_eq_ok, discard_eq_ok] at done
        rcases done with ⟨⟨⟩, found, ⟨plugin, findDone⟩, noteDone⟩
        have idles := (idles_of_pluginFor findDone).1.trans (Work.idles_of_note noteDone)
        have reached : Reached zone base before.document before.document _ := ready
        exact Workspace.Fills.of_idles idles
          ⟨rfl, by simp, idles.document_eq ▸ (reached.sublist (List.sublist_cons_self _ _)).ready⟩
      rw [unroll, isClosing]
      exact fills.advances (fills.path_eq ▸ inductionHypothesis fills.reached.ready restDone)
  | case5 tag rest notSkipped container isOpening unclosed =>
      rw [fillTags_of_unclosed isOpening unclosed (by simpa using notSkipped), Work.withPart_eq_ok] at done
      simp at done
  | case6 tag rest notSkipped container isOpening inner closing later split innerHypothesis
      laterHypothesis =>
      rw [fillTags_of_closed isOpening split (by simpa using notSkipped), bind_eq_ok] at done
      rcases done with ⟨⟨⟩, middle, tagDone, laterDone⟩
      have unrolls : (compiler.regionCompiler context ⟨tag, inner, closing⟩).Unrolls compiler
          context := fun ready done =>
        advances_of_compileTags (innerHypothesis _ (by assumption)) ready done
      have fills : before.Fills zone base
          (Region.dispatches ⟨tag, inner, closing⟩ compiler context
            (compiler.innerPaths context container (before.path.enter (.key tag.name))))
          (later.map Tag.textNode) middle := by
        refine fills_of_fillRegion isStandard isOpening unrolls ?_ tagDone
        rw [← append_eq_of_splitAtClosing? split] at ready
        simpa [Region.textNodes] using ready
      rcases around_of_splitAtClosing? split with ⟨innerEq, laterEq⟩
      rw [unroll, isOpening, innerEq, laterEq]
      exact fills.advances (fills.path_eq ▸ laterHypothesis fills.reached.ready laterDone)

theorem unrolls_regionCompiler (isStandard : compiler.plugins = Plugin.standard style)
    (fillsEmpty : compiler.options.skipEmptyTags = false) (services : context.services.Idle)
    (region : Region) : (compiler.regionCompiler context region).Unrolls compiler context :=
  fun ready done => advances_of_compileTags
    (advances_of_fillTags isStandard fillsEmpty services _) ready done

end Compiler

end WordTemplate
