import WordTemplate.Proofs.Filling.Dispatching
import WordTemplate.Proofs.Filling.Ledger

/-!
# Filling is steady

A ledger that covers what a part records and brings in stays right while the tags of the part are
filled. Each plugin is taken step by step, with the ways to compile the tags of a region as given;
the tags are then filled by induction.
-/

namespace WordTemplate

variable {α β : Type} {ledger : Ledger} {context : Context} {path : ScopePath}

namespace Leaf

open Ledger Outcome

/-! ## Text -/

theorem steady_replaceByText (tag : Tag) : ledger.Steady path (replaceByText context tag) := by
  apply Steady.boundValue
  apply Steady.look
  · intro first second document_eq _
    simp only [document_eq]
  · intro workspace _
    split
    · exact (Steady.note _ _).bind fun _ => Steady.of_edit fun _ => lasts_setCheckbox _ _ _
    · exact Steady.of_edit fun _ => lasts_writeText _ _

/-! ## Raw markup -/

/-- The markup that is bound to a tag is the one at the scope path. -/
theorem steady_boundMarkup {next : RawMarkup → Work α}
    (each : ∀ markup : RawMarkup,
      (∀ source, markup.inserted? = some source → context.markupAt path = some source) →
        ledger.Steady path (next markup)) :
    ledger.Steady path (boundMarkup context >>= next) := by
  rw [boundMarkup, bind_assoc]
  apply Steady.boundValue
  have nothing : ledger.Steady path (next {}) := each {} (by simp [RawMarkup.inserted?])
  rcases found : context.valueAt path with _ | value
  · exact nothing
  · dsimp only
    cases value with
    | string source =>
        apply each { source := some source }
        intro inserted isInserted
        simpa [Context.markupAt, found, RawMarkup.offered?] using isInserted
    | object fields =>
        rw [RawMarkup.ofValue]
        rcases isRecord : RawMarkup.ofRecord? (.object fields) with _ | markup
        · exact (Steady.note _ _).bind fun _ => nothing
        · apply each markup
          intro inserted isInserted
          simpa [Context.markupAt, found, RawMarkup.offered?, isRecord] using isInserted
    | null => exact nothing
    | bool flag => exact nothing
    | number held => exact nothing
    | array items => exact nothing

theorem steady_insertMarkup (covers : ledger.CoversAt context path) (tag : Tag) {markup : RawMarkup}
    (isBound : ∀ source, markup.inserted? = some source → context.markupAt path = some source) :
    ledger.Steady path (insertMarkup tag markup) := by
  apply Steady.look
  · intro first second document_eq _
    simp only [document_eq]
  · intro workspace _
    dsimp only
    split
    · exact Steady.of_edit fun _ => Edit.lasts_detach _
    next source isInserted =>
      have read : ledger.Steady path (Work.readFragment source) := by
        apply (Steady.noteAll _).bind
        intro _ first second agrees
        apply agrees.together_edit
        apply Edit.lasts_readFragment
        exact covers.markup agrees.related (isBound source isInserted)
      apply read.bind
      intro nodes
      apply (Steady.note _ _).bind
      intro _
      apply (Steady.of_forM fun node => Steady.of_edit fun _ => Edit.lasts_insertBefore node _).bind
      intro _
      exact Steady.of_edit fun _ => Edit.lasts_detach _

theorem steady_replaceByMarkup (covers : ledger.CoversAt context path) (tag : Tag) :
    ledger.Steady path (replaceByMarkup context tag) := by
  rw [replaceByMarkup_eq]
  apply steady_boundMarkup
  intro markup isBound
  exact steady_insertMarkup covers tag isBound

/-! ## Links -/

theorem steady_boundLink {tag : Tag} {next : Option Link → Work α}
    (steady : ledger.Steady path (next (context.linkAt path))) :
    ledger.Steady path (boundLink? context tag >>= next) := by
  intro first second agrees
  rcases boundLink?_eq context tag first with ⟨journal, boundDone⟩
  rcases boundLink?_eq context tag second with ⟨journal', boundDone'⟩
  rw [bind_of_ok boundDone, bind_of_ok boundDone', congrArg context.linkAt agrees.path_eq,
    congrArg context.linkAt agrees.path_eq']
  exact steady _ _ (agrees.journals journal journal')

/-- Recording a link gives the next id, which may be referred to from then on. -/
theorem together_addLink (covers : ledger.CoversAt context path) {first second : Workspace}
    (agrees : ledger.Agrees path first second) {link : Link} (isBound : context.linkAt path = some link) :
    Together
      (fun id first second => ledger.Agrees path first second ∧
        ledger.allowed first.resources second.resources ⟨.hyperlink, id⟩)
      (ledger.Agrees path)
      (context.services.addRelationship context.part link.target .hyperlink true first)
      (context.services.addRelationship context.part link.target .hyperlink true second) := by
  rw [covers.records]
  have id_eq := covers.nextId_eq agrees.related
  have related := covers.link agrees.related isBound
  have cites := agrees.cites.mono fun reference isAllowed =>
    covers.linkAllowed agrees.related isBound (.inl isAllowed)
  have isAllowed := covers.linkAllowed agrees.related isBound (.inr rfl)
  rcases Services.addRelationship_recording context.part link.target .hyperlink true first with
    ⟨journal, firstDone⟩
  rcases Services.addRelationship_recording context.part link.target .hyperlink true second with
    ⟨journal', secondDone⟩
  rw [firstDone, secondDone, ← id_eq]
  exact .ok ⟨⟨agrees.document_eq, agrees.path_eq, agrees.path_eq', related, cites⟩, isAllowed⟩

theorem steady_replaceByLink (covers : ledger.CoversAt context path) (tag : Tag) :
    ledger.Steady path (replaceByLink context tag) := by
  apply steady_boundLink
  rcases isBound : context.linkAt path with _ | link
  · apply Steady.look
    · intro first second document_eq _
      simp only [document_eq]
    · intro workspace _
      exact Steady.of_edit fun _ => Edit.lasts_detach _
  · apply Steady.look
    · intro first second document_eq _
      simp only [document_eq]
    · intro workspace _
      dsimp only
      rcases workspace.document.run? tag.textNode with _ | run
      · apply (Steady.note _ _).bind
        intro _
        exact Steady.of_edit fun _ => Edit.lasts_setText _ _
      · intro first second agrees
        apply (together_addLink covers agrees isBound).bind
        rintro id middle middle' ⟨agrees, isAllowed⟩
        -- The note leaves the resources alone, so the id may still be referred to.
        exact (agrees.journals _ _).together_edit (lasts_insertHyperlink isAllowed _ _ _)

/-! ## Pictures -/

theorem steady_boundPicture {tag : Tag} {next : Option (Picture × List UInt8) → Work α}
    (steady : ledger.Steady path (next (context.pictureAt path))) :
    ledger.Steady path (boundPicture? context tag >>= next) := by
  intro first second agrees
  rcases boundPicture?_eq context tag first with ⟨journal, boundDone⟩
  rcases boundPicture?_eq context tag second with ⟨journal', boundDone'⟩
  rw [bind_of_ok boundDone, bind_of_ok boundDone', congrArg context.pictureAt agrees.path_eq,
    congrArg context.pictureAt agrees.path_eq']
  exact steady _ _ (agrees.journals journal journal')

/-- Storing a picture records it; the drawing has the next id of the part and the next number of the
document. -/
theorem storePicture_eq (records : context.services = .recording) (tag : Tag) (picture : Picture)
    (bytes : List UInt8) (workspace : Workspace) :
    ∃ journal, storePicture context tag picture bytes workspace =
      match workspace.document.nextPictureNumber? with
      | none =>
          .error .picturesExhausted { workspace with
            resources := workspace.resources.pictured context.part picture bytes
            journal }
      | some number =>
          .ok (picture.drawing (workspace.resources.nextId context.part) number) { workspace with
            resources := workspace.resources.pictured context.part picture bytes
            journal } := by
  rcases Services.addMedia_recording bytes picture.extension workspace with ⟨journal, mediaDone⟩
  rcases Services.addRelationship_recording context.part
    (workspace.resources.newMedia bytes picture.extension).path .image false
    ⟨workspace.document, workspace.path, workspace.resources.stored bytes picture.extension, journal,
      workspace.dispatches⟩ with ⟨journal', relationshipDone⟩
  rw [storePicture, records, bind_of_ok mediaDone, bind_of_ok relationshipDone,
    get_bind]
  rcases workspace.document.nextPictureNumber? with _ | number
  · exact ⟨_, rfl⟩
  · exact ⟨_, rfl⟩

/-- Storing a picture gives a drawing that refers to the image only. -/
theorem together_storePicture (covers : ledger.CoversAt context path) {first second : Workspace}
    (agrees : ledger.Agrees path first second) (tag : Tag) {picture : Picture} {bytes : List UInt8}
    (isBound : context.pictureAt path = some (picture, bytes)) :
    Together
      (fun tree first second => ledger.Agrees path first second ∧ ∀ reference, tree.Cites reference →
        ledger.allowed first.resources second.resources reference)
      (ledger.Agrees path)
      (storePicture context tag picture bytes first) (storePicture context tag picture bytes second) := by
  have id_eq := covers.nextId_eq agrees.related
  have related := covers.picture agrees.related isBound
  have cites := agrees.cites.mono fun reference isAllowed =>
    covers.pictureAllowed agrees.related isBound (.inl isAllowed)
  have isAllowed := covers.pictureAllowed agrees.related isBound (.inr rfl)
  rcases storePicture_eq covers.records tag picture bytes first with ⟨journal, firstDone⟩
  rcases storePicture_eq covers.records tag picture bytes second with ⟨journal', secondDone⟩
  rw [firstDone, secondDone, ← agrees.document_eq, ← id_eq]
  rcases first.document.nextPictureNumber? with _ | number
  · exact .error ⟨rfl, agrees.path_eq, agrees.path_eq', related, cites⟩
  · refine .ok ⟨⟨rfl, agrees.path_eq, agrees.path_eq', related, cites⟩, ?_⟩
    intro reference isCited
    rw [Picture.reference_of_cites_drawing isCited]
    exact isAllowed

theorem steady_replaceByPicture (covers : ledger.CoversAt context path) (tag : Tag) :
    ledger.Steady path (replaceByPicture context tag) := by
  apply steady_boundPicture
  rcases isBound : context.pictureAt path with _ | ⟨picture, bytes⟩
  · apply Steady.look
    · intro first second document_eq _
      simp only [document_eq]
    · intro workspace _
      exact Steady.of_edit fun _ => Edit.lasts_detach _
  · apply Steady.look
    · intro first second document_eq _
      simp only [document_eq]
    · intro workspace _
      dsimp only
      rcases workspace.document.run? tag.textNode with _ | run
      · apply (Steady.note _ _).bind
        intro _
        exact Steady.of_edit fun _ => Edit.lasts_detach _
      · intro first second agrees
        apply (together_storePicture covers agrees tag isBound).bind
        rintro tree middle middle' ⟨agrees, isAllowed⟩
        apply (agrees.together_edit (Edit.lasts_plant isAllowed)).bind
        intro drawing middle middle' agrees
        apply (Steady.of_edit fun _ => Edit.lasts_insertBefore _ _).bind
        · intro _
          exact Steady.of_edit fun _ => Edit.lasts_detach _
        · exact agrees

end Leaf

/-! ## Containers -/

namespace Strategy

open Ledger

theorem steady_loopOver (standard : Option LoopOver) (openingTag closingTag : Tag) :
    ledger.Steady path (loopOver standard openingTag closingTag) := by
  apply Steady.look
  · intro first second document_eq _
    simp only [document_eq]
  · intro workspace _
    apply (Steady.noteAll _).bind
    intro _
    split
    · split
      · exact (Steady.note _ _).bind fun _ => Steady.of_pure _
      · exact Steady.of_pure _
    · exact Steady.of_pure _
    · exact Steady.of_pure _

theorem steady_cut (strategy : Strategy) (openingTag closingTag : Tag) :
    ledger.Steady path (strategy.cut openingTag closingTag) := by
  cases strategy with
  | table standard =>
      apply (steady_loopOver standard openingTag closingTag).bind
      intro repeated
      apply (Steady.note _ _).bind
      intro _
      cases repeated with
      | row => exact Steady.of_extraction fun _ => lasts_cutRows _ _
      | content => exact Steady.of_extraction fun _ => Extraction.lasts_cutFragments _ _
  | list => exact Steady.of_extraction fun _ => lasts_cutListItems _ _
  | paragraph => exact Steady.of_extraction fun _ => Extraction.lasts_cutFragments _ _

end Strategy

namespace Region

open Ledger

variable {region : Region} {compile : RegionCompiler region}

theorem steady_compileCopy (steady : ∀ path tags fits, ledger.Steady path (compile tags fits))
    (scoping : Scoping) (index : Nat) (copy : RegionCopy) :
    ledger.Steady path (region.compileCopy compile scoping index copy) := by
  apply (Steady.of_edit fun _ => Edit.lasts_fillWrapper _).bind
  intro wrapper
  apply Steady.thenAlways
  · cases scoping with
    | indexed => exact Steady.withPart (steady _ _ _)
    | unchanged => exact steady _ _ _
  · exact Steady.of_edit fun _ => Edit.lasts_emptyWrapper _

theorem steady_compileCopies (steady : ∀ path tags fits, ledger.Steady path (compile tags fits))
    (scoping : Scoping) (index : Nat) (copies : List RegionCopy) :
    ledger.Steady path (region.compileCopies compile scoping index copies) := by
  induction copies generalizing index with
  | nil => exact Steady.of_pure _
  | cons copy rest inductionHypothesis =>
      apply (steady_compileCopy steady scoping index copy).bind
      intro nodes
      apply (inductionHypothesis (index + 1)).bind
      intro others
      exact Steady.of_pure _

end Region

/-- A ledger stays right about what a plugin does if it stays right about the compiling that the
plugin is given. -/
structure Plugin.Steady (ledger : Ledger) (context : Context) (plugin : Plugin) : Prop where
  leaf : ∀ path tag, ledger.Steady path (plugin.replaceLeaf context tag)
  region : ∀ path region (compile : RegionCompiler region),
    (∀ path tags fits, ledger.Steady path (compile tags fits)) →
    ledger.Steady path (plugin.replaceRegion context region compile)

namespace Loop

open Ledger

theorem steady_replaceRegion (strategies : List Strategy) (region : Region) (compile : RegionCompiler region)
    (steady : ∀ path tags fits, ledger.Steady path (compile tags fits)) :
    ledger.Steady path (replaceRegion strategies context region compile) := by
  apply Steady.boundValue
  apply (Steady.noteAll _).bind
  intro _
  apply Steady.look
  · intro first second document_eq _
    simp only [document_eq]
  · intro workspace _
    split
    · exact Steady.of_throw _
    · apply Steady.pathText
      apply (Steady.note _ _).bind
      intro _
      apply (Strategy.steady_cut _ _ _).bind
      intro cut
      apply (Steady.of_edit fun _ => Edit.lasts_repeatRegion _ _).bind
      intro copies
      apply (Region.steady_compileCopies steady _ _ _).bind
      intro groups
      exact Steady.of_edit fun _ => Strategy.lasts_putBack _ _

end Loop

namespace Section

open Ledger

theorem steady_bound (tag : Tag) : ledger.Steady path (bound? context tag) := by
  apply Steady.boundValue
  split
  · exact Steady.of_pure _
  · split
    · exact Steady.of_pure _
    · exact (Steady.note _ _).bind fun _ => Steady.of_pure _

theorem steady_replaceRegion (style : HidingStyle) (region : Region) (compile : RegionCompiler region)
    (steady : ∀ path tags fits, ledger.Steady path (compile tags fits)) :
    ledger.Steady path (replaceRegion style context region compile) := by
  apply (steady_bound _).bind
  intro bound
  apply Steady.look
  · intro first second document_eq _
    simp only [document_eq]
  · intro workspace _
    split
    · exact Steady.of_throw _
    · apply Steady.pathText
      apply (Steady.note _ _).bind
      intro _
      apply (Strategy.steady_cut _ _ _).bind
      intro cut
      apply (Steady.of_edit fun _ => Edit.lasts_repeatRegion _ _).bind
      intro copies
      apply (Region.steady_compileCopies steady _ _ _).bind
      intro groups
      apply Steady.look
      · intro first second document_eq _
        simp only [document_eq]
      · intro workspace _
        apply (Steady.of_edit fun _ => Strategy.lasts_putBack _ _).bind
        intro _
        split
        · split
          · exact Steady.of_edit fun _ => lasts_finish _ _ _ _
          · exact Steady.of_pure _
        · exact Steady.of_pure _

end Section

namespace Plugin

open Ledger

/-- A ledger that covers what a leaf may record stays right about the standard plugins there. -/
theorem steady_standard_leaf (covers : ledger.CoversAt context path) {style : HidingStyle}
    {plugin : Plugin} (isStandard : plugin ∈ standard style) (tag : Tag) :
    ledger.Steady path (plugin.replaceLeaf context tag) := by
  simp only [standard, List.mem_cons, List.not_mem_nil, or_false] at isStandard
  rcases isStandard with rfl | rfl | rfl | rfl | rfl | rfl | rfl
  · exact Leaf.steady_replaceByText tag
  · exact Leaf.steady_replaceByMarkup covers tag
  · exact Leaf.steady_replaceByLink covers tag
  · exact Leaf.steady_replaceByPicture covers tag
  · exact Steady.of_pure _
  · exact Steady.of_pure _
  · exact Steady.of_pure _

/-- A ledger that covers the data of a part stays right about the standard plugins. -/
theorem steady_standard (covers : ledger.Covers context) {style : HidingStyle} {plugin : Plugin}
    (isStandard : plugin ∈ standard style) : plugin.Steady ledger context where
  leaf path tag := steady_standard_leaf (covers path) isStandard tag
  region path region compile steady := by
    simp only [standard, List.mem_cons, List.not_mem_nil, or_false] at isStandard
    rcases isStandard with rfl | rfl | rfl | rfl | rfl | rfl | rfl
    · exact Steady.of_pure _
    · exact Steady.of_pure _
    · exact Steady.of_pure _
    · exact Steady.of_pure _
    · exact Loop.steady_replaceRegion _ region compile steady
    · exact Loop.steady_replaceRegion _ region compile steady
    · exact Section.steady_replaceRegion style region compile steady

end Plugin

/-! ## Compiling -/

namespace Compiler

open Ledger

variable {compiler : Compiler}

theorem steady_contentTypeOf (tag : Tag) : ledger.Steady path (compiler.contentTypeOf context tag) := by
  rw [contentTypeOf]
  split
  · exact Steady.of_pure _
  · exact Steady.of_pure _
  · apply Steady.boundValue
    split
    · exact Steady.of_pure _
    · exact Steady.of_pure _
    · exact Steady.pathText (Steady.of_throw _)

theorem steady_pluginFor {tag : Tag} {next : Plugin → Work α}
    (each : ∀ plugin ∈ compiler.plugins, ledger.Steady path (next plugin)) :
    ledger.Steady path (compiler.pluginFor context tag >>= next) := by
  rw [pluginFor, bind_assoc]
  apply (steady_contentTypeOf tag).bind
  intro contentType
  rcases found : compiler.plugin? contentType with _ | plugin
  · rw [bind_assoc]
    apply Steady.pathText
    exact Steady.of_throw _
  · rw [bind_assoc]
    apply Steady.pathText
    rw [bind_assoc]
    apply (Steady.note _ _).bind
    intro _
    exact each plugin (mem_of_plugin? found)

theorem steady_pluginFor_pure (tag : Tag) : ledger.Steady path (compiler.pluginFor context tag) := by
  rw [← bind_pure (compiler.pluginFor context tag)]
  exact steady_pluginFor fun plugin _ => Steady.of_pure plugin

theorem steady_announce (tags : List Tag) : ledger.Steady path (announce context tags) :=
  Steady.pathText (Steady.note _ _)

theorem steady_fillTags (plugins : ∀ plugin ∈ compiler.plugins, plugin.Steady ledger context)
    (tags : List Tag) : ledger.Steady path (compiler.fillTags context tags) := by
  induction tags using fillTags.induct compiler generalizing path with
  | case1 =>
      rw [fillTags]
      exact Steady.of_pure _
  | case2 tag rest isSkipped inductionHypothesis =>
      rw [fillTags, if_pos isSkipped]
      apply (Steady.of_edit fun _ => Edit.lasts_setText _ _).bind
      intro _
      exact inductionHypothesis
  | case3 tag rest notSkipped isLeaf inductionHypothesis =>
      rw [fillTags, if_neg notSkipped]
      simp only [isLeaf]
      have filled : ledger.Steady path (compiler.fillLeaf context tag) := by
        apply Steady.withPart
        apply steady_pluginFor
        intro plugin isMember
        exact (Steady.dispatch tag).bind fun _ => (plugins plugin isMember).leaf _ tag
      exact filled.bind fun _ => inductionHypothesis
  | case4 tag rest notSkipped isClosing inductionHypothesis =>
      rw [fillTags, if_neg notSkipped]
      simp only [isClosing]
      apply Steady.bind
      · apply Steady.withPart
        apply (Steady.discard (steady_pluginFor_pure tag)).bind
        intro _
        exact Steady.note _ _
      · exact fun _ => inductionHypothesis
  | case5 tag rest notSkipped container isOpening unclosed =>
      rw [fillTags_of_unclosed isOpening unclosed (by simpa using notSkipped)]
      apply Steady.withPart
      apply (Steady.discard (steady_pluginFor_pure tag)).bind
      intro _
      exact Steady.of_throw _
  | case6 tag rest notSkipped container isOpening inner closing later split innerHypothesis
      laterHypothesis =>
      rw [fillTags_of_closed isOpening split (by simpa using notSkipped)]
      have filled : ledger.Steady path (compiler.fillRegion context ⟨tag, inner, closing⟩) := by
        apply Steady.withPart
        apply steady_pluginFor
        intro plugin isMember
        apply (plugins plugin isMember).region
        intro path tags fits
        exact (steady_announce tags).bind fun _ => innerHypothesis tags fits
      exact filled.bind fun _ => laterHypothesis

theorem steady_compileTags (plugins : ∀ plugin ∈ compiler.plugins, plugin.Steady ledger context)
    (tags : List Tag) : ledger.Steady path (compiler.compileTags context tags) :=
  (steady_announce tags).bind fun _ => steady_fillTags plugins tags

theorem steady_takeTags (root : NodeId) : ledger.Steady path (compiler.takeTags root) := by
  apply Steady.look
  · intro first second document_eq _
    simp only [document_eq]
  · intro workspace _
    apply (Steady.noteAll _).bind
    intro _
    exact Steady.of_extraction fun _ => Extraction.lasts_takeTags _ _

/-- A ledger that stays right about the plugins stays right about compiling a document. -/
theorem steady_compile (plugins : ∀ plugin ∈ compiler.plugins, plugin.Steady ledger context)
    (root : NodeId) : ledger.Steady path (compiler.compile context root) :=
  (steady_takeTags root).bind fun tags => steady_compileTags plugins tags

end Compiler

end WordTemplate
