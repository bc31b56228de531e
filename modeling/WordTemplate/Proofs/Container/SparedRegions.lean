import WordTemplate.Container.Loop
import WordTemplate.Proofs.Container.Sparing

/-!
# Replacing regions spares sheltered nodes

The tags of a copy stand in text nodes of the copy, which are open. So if compiling such tags spares
what is sheltered, then replacing a whole region does. The nodes of a section are hidden, marked and
wrapped where they were put back.
-/

namespace WordTemplate

open Document Outcome Shelter

variable {shelter : Shelter} {workspace : Workspace} {document : Document}

/-! ## Compiling copies -/

namespace Shelter

/-- Compiling tags of a region spares what is sheltered if their text nodes are open. -/
def KeepsTags (shelter : Shelter) {region : Region} (compile : RegionCompiler region) : Prop :=
  ∀ tags fits (workspace : Workspace),
    (∀ tag ∈ tags, shelter.Open workspace.document tag.textNode) →
      shelter.KeepsIn (compile tags fits) workspace fun _ _ => True

end Shelter

/-- The text nodes of the tags of a copy are copied nodes. -/
theorem RegionCopy.open_of_mem_tags {copy : RegionCopy} {tags : List Tag} {tag : Tag}
    (copyOpen : Edit.OpenCopy shelter document copy) (isMember : tag ∈ copy.tags tags) :
    shelter.Open document tag.textNode := by
  rcases List.mem_filterMap.mp isMember with ⟨original, -, found⟩
  rcases Option.map_eq_some_iff.mp found with ⟨node, isCopy, rfl⟩
  rcases List.lookup_eq_some_iff.mp isCopy with ⟨before, after, isPair, -⟩
  exact copyOpen.pairs (original.textNode, node) (by simp [isPair])

namespace Region

variable {region : Region} {compile : RegionCompiler region} {scoping : Scoping}

theorem keepsIn_placed {work : Work Unit} {index : Nat}
    (keeps : ∀ path, shelter.KeepsIn work { workspace with path } fun _ _ => True) :
    shelter.KeepsIn (match scoping with
      | .indexed => Work.withPart (.index index) work
      | .unchanged => work) workspace fun _ _ => True := by
  cases scoping with
  | indexed => exact KeepsIn.withPart (keeps _)
  | unchanged => exact keeps workspace.path

theorem keepsIn_compileCopy {index : Nat} {copy : RegionCopy} (keeps : shelter.KeepsTags compile)
    (copyOpen : Edit.OpenCopy shelter workspace.document copy) :
    shelter.KeepsIn (region.compileCopy compile scoping index copy) workspace fun nodes after =>
      ∀ node ∈ nodes, shelter.Open after node := by
  refine (KeepsIn.of_edit (Edit.keeps_fillWrapper copyOpen.roots)).bind ?_
  intro wrapper filled toFilled wrapperOpen
  have tagsOpen : ∀ tag ∈ copy.tags region.innerTags, shelter.Open filled.document tag.textNode :=
    fun tag isMember => RegionCopy.open_of_mem_tags (copyOpen.spares toFilled) isMember
  refine (keepsIn_placed fun path => keeps _ _ { filled with path } tagsOpen).thenAlways ?_
  intro compiled _
  exact KeepsIn.of_edit (Edit.keeps_emptyWrapper wrapperOpen.inZone)

theorem keepsIn_compileCopies {copies : List RegionCopy} (keeps : shelter.KeepsTags compile)
    (index : Nat) (copiesOpen : ∀ copy ∈ copies, Edit.OpenCopy shelter workspace.document copy) :
    shelter.KeepsIn (region.compileCopies compile scoping index copies) workspace fun groups after =>
      shelter.OpenGroups after groups := by
  induction copies generalizing workspace index with
  | nil => exact KeepsIn.of_pure fun group isGroup => by cases isGroup
  | cons copy rest inductionHypothesis =>
      refine (keepsIn_compileCopy keeps (copiesOpen copy List.mem_cons_self)).bind ?_
      intro nodes compiled toCompiled nodesOpen
      refine (inductionHypothesis (index + 1) fun other isCopy =>
        (copiesOpen other (List.mem_cons_of_mem _ isCopy)).spares toCompiled).bind ?_
      intro others after toAfter othersOpen
      refine KeepsIn.of_pure fun group isGroup node isMember => ?_
      rcases List.mem_cons.mp isGroup with rfl | isGroup
      · exact toAfter.isOpen (nodesOpen node isMember)
      · exact othersOpen group isGroup node isMember

end Region

/-! ## Loops -/

theorem Loop.keepsIn_replaceRegion {strategies : List Strategy} {context : Context} {region : Region}
    {compile : RegionCompiler region} (keeps : shelter.KeepsTags compile)
    (opensIn : shelter.Open workspace.document region.openingTag.textNode)
    (closesIn : shelter.Open workspace.document region.closingTag.textNode) :
    shelter.KeepsIn (replaceRegion strategies context region compile) workspace fun _ _ => True := by
  refine (KeepsIn.of_boundValue? context).bind ?_
  intro value bound toBound _
  refine (KeepsIn.of_noteAll _).bind ?_
  intro _ noted toNoted _
  refine KeepsIn.of_get fun _ => ?_
  split
  · exact KeepsIn.of_throw
  · next strategy _ =>
      refine KeepsIn.of_pathText.bind ?_
      intro text named toNamed _
      refine (KeepsIn.of_note _ _).bind ?_
      intro _ announced toAnnounced _
      have toStart := toBound.trans (toNoted.trans (toNamed.trans toAnnounced))
      refine (Strategy.keepsIn_cut (toStart.isOpen opensIn) (toStart.isOpen closesIn)).bind ?_
      intro cut afterCut _ cutOpen
      refine (KeepsIn.of_edit (Edit.keeps_repeatRegion fun node isMember =>
        (cutOpen.nodes node isMember).inStore)).bind ?_
      intro copies copied toCopied copiesOpen
      refine (Region.keepsIn_compileCopies keeps 0 copiesOpen).bind ?_
      intro groups compiled toCompiled groupsOpen
      exact KeepsIn.of_edit (Strategy.keeps_putBack (cutOpen.spares (toCopied.trans toCompiled))
        groupsOpen)

/-! ## Hiding sections -/

namespace Edit

variable {node first last properties : NodeId} {name flag : String} {leading : List String}
  {nodes : List NodeId}

theorem keeps_whenAttached {edit : Edit Unit}
    (keeps : shelter.Keeps edit document fun _ _ => True) :
    shelter.Keeps (whenAttached node edit) document fun _ _ => True := by
  refine Keeps.of_get fun _ => ?_
  split
  · exact keeps
  · exact Keeps.of_pure trivial

/-- A flag goes into the properties of a node. -/
theorem keeps_flagged (nodeOpen : shelter.Open document node) (name flag : String)
    (leading : List String) :
    shelter.Keeps (do
      let properties ← ensureProperties node name leading
      discard (setFlag properties flag)) document fun _ _ => True := by
  refine (keeps_ensureProperties nodeOpen name leading).bind ?_
  intro properties ensured _ propertiesOpen
  exact (keeps_setFlag propertiesOpen flag).discard

theorem keeps_ensureMarkProperties (propertiesOpen : shelter.Open document properties) :
    shelter.Keeps (ensureMarkProperties properties) document fun mark after =>
      shelter.Open after mark := by
  refine Keeps.of_get fun holds => ?_
  dsimp only
  split
  · next existing found =>
      exact Keeps.of_pure (holds.open_of_childNamed? found propertiesOpen.inZone)
  · refine (keeps_createElement _).bind ?_
    intro created middle toMiddle createdOpen
    split
    · next trailing follows =>
        rcases List.exists_of_findSome?_eq_some follows with ⟨name, -, isNext⟩
        refine (keeps_insertBefore createdOpen
          (holds.open_of_childNamed? isNext propertiesOpen.inZone).inZone).bind ?_
        intro _ after toAfter _
        exact Keeps.of_pure (toAfter.isOpen createdOpen)
    · refine (keeps_appendChild (toMiddle.isOpen propertiesOpen) createdOpen).bind ?_
      intro _ after toAfter _
      exact Keeps.of_pure (toAfter.isOpen createdOpen)

theorem keeps_hideParagraph (runs : List NodeId) (nodeOpen : shelter.Open document node) :
    shelter.Keeps (hideParagraph runs node) document fun _ _ => True := by
  refine keeps_whenAttached (Keeps.of_get fun _ => ?_)
  split
  · refine (keeps_ensureProperties nodeOpen _ _).bind ?_
    intro properties ensured _ propertiesOpen
    refine (keeps_ensureMarkProperties propertiesOpen).bind ?_
    intro mark marked _ markOpen
    exact (keeps_setFlag markOpen _).discard
  · exact Keeps.of_pure trivial

/-- Edits of open nodes spare what is sheltered if each of them does. -/
theorem keeps_forM_open {edit : NodeId → Edit Unit}
    (nodesOpen : ∀ node ∈ nodes, shelter.Open document node)
    (keeps : ∀ node middle, shelter.Open middle node →
      shelter.Keeps (edit node) middle fun _ _ => True) :
    shelter.Keeps (nodes.forM edit) document fun _ _ => True :=
  Keeps.of_forM fun node isMember middle spares =>
    keeps node middle (spares.isOpen (nodesOpen node isMember))

/-- The nodes of a section are open. -/
structure OpenSection (shelter : Shelter) (document : Document) (nodes : SectionNodes) : Prop where
  topmost : ∀ node ∈ nodes.topmost, shelter.Open document node
  runs : ∀ node ∈ nodes.runs, shelter.Open document node
  paragraphs : ∀ node ∈ nodes.paragraphs, shelter.Open document node
  rows : ∀ node ∈ nodes.rows, shelter.Open document node
  controlProperties : ∀ node ∈ nodes.controlProperties, shelter.Open document node

theorem OpenSection.spares {nodes : SectionNodes} {before after : Document}
    (isOpen : OpenSection shelter before nodes) (spares : shelter.Spares before after) :
    OpenSection shelter after nodes where
  topmost node isMember := spares.isOpen (isOpen.topmost node isMember)
  runs node isMember := spares.isOpen (isOpen.runs node isMember)
  paragraphs node isMember := spares.isOpen (isOpen.paragraphs node isMember)
  rows node isMember := spares.isOpen (isOpen.rows node isMember)
  controlProperties node isMember := spares.isOpen (isOpen.controlProperties node isMember)

/-- What lies below open nodes is open. -/
theorem openSection_collect (holds : shelter.Holds document)
    (topmostOpen : ∀ node ∈ nodes, shelter.Open document node) :
    OpenSection shelter document (SectionNodes.collect document nodes) := by
  have named : ∀ name, ∀ node ∈ (nodes.flatMap document.subtree).filter (document.isNamed · name),
      shelter.Open document node := by
    intro name node isMember
    rcases List.mem_filter.mp isMember with ⟨isBelow, isNamed⟩
    rcases List.mem_flatMap.mp isBelow with ⟨top, isTop, isBelow⟩
    exact ⟨holds.zone_of_liesIn ((mem_subtree_iff holds.wellFormed).mp isBelow)
      (topmostOpen top isTop).inZone, lt_size_of_isNamed isNamed⟩
  exact ⟨topmostOpen, named _, named _, named _, named _⟩

theorem keeps_hideNodes {nodes : SectionNodes} (nodesOpen : OpenSection shelter document nodes)
    (headOpen : shelter.Open document node) :
    shelter.Keeps (hideNodes nodes node) document fun _ _ => True := by
  refine (keeps_forM_open nodesOpen.runs fun run _ runOpen =>
    keeps_whenAttached (keeps_flagged runOpen _ _ _)).bind ?_
  intro _ hidden toHidden _
  have nodesOpen := nodesOpen.spares toHidden
  have paragraphsOpen : ∀ paragraph ∈ nodes.paragraphs ++ [node],
      shelter.Open hidden paragraph := by
    intro paragraph isMember
    rcases List.mem_append.mp isMember with isMember | isHead
    · exact nodesOpen.paragraphs paragraph isMember
    · rw [List.mem_singleton.mp isHead]
      exact toHidden.isOpen headOpen
  refine (keeps_forM_open paragraphsOpen fun paragraph _ paragraphOpen =>
    keeps_hideParagraph nodes.runs paragraphOpen).bind ?_
  intro _ marked toMarked _
  have nodesOpen := nodesOpen.spares toMarked
  refine (keeps_forM_open nodesOpen.rows fun row _ rowOpen =>
    keeps_whenAttached (keeps_flagged rowOpen _ _ _)).bind ?_
  intro _ rowsHidden toRows _
  exact keeps_forM_open (nodesOpen.spares toRows).controlProperties fun control _ controlOpen =>
    keeps_whenAttached (keeps_flagged controlOpen _ _ _)

theorem keeps_addBookmarks (part : Section) (firstInZone : shelter.zone first)
    (lastInZone : shelter.zone last) :
    shelter.Keeps (addBookmarks part first last) document fun _ _ => True := by
  unfold addBookmarks
  split
  · refine (keeps_plant _).bind ?_
    intro start begun _ startOpen
    refine (keeps_plant _).bind ?_
    intro stop ended toEnded stopOpen
    refine (keeps_insertBefore (toEnded.isOpen startOpen) firstInZone).bind ?_
    intro _ placed toPlaced _
    exact keeps_insertAfter (toPlaced.isOpen stopOpen) lastInZone
  · exact Keeps.of_pure trivial

theorem open_of_attachedRange? {nodes : SectionNodes} (nodesOpen : OpenSection shelter document nodes)
    (found : nodes.attachedRange? document = some (first, last)) :
    shelter.Open document first ∧ shelter.Open document last := by
  have blocksOpen : ∀ node ∈ nodes.attachedBlocks document, shelter.Open document node := by
    intro node isBlock
    refine nodesOpen.topmost node ?_
    rw [SectionNodes.attachedBlocks] at isBlock
    split at isBlock
    · cases isBlock
    · split at isBlock
      · exact List.mem_of_mem_filter isBlock
      · cases isBlock
  rw [SectionNodes.attachedRange?] at found
  split at found
  · cases found
  · next head rest areBlocks =>
      rw [Option.some.injEq, Prod.mk.injEq] at found
      rcases found with ⟨rfl, rfl⟩
      rw [areBlocks] at blocksOpen
      refine ⟨blocksOpen head List.mem_cons_self, ?_⟩
      rcases isLast : rest.getLast? with _ | final
      · exact blocksOpen head List.mem_cons_self
      · exact blocksOpen final (List.mem_cons_of_mem _ (List.mem_of_getLast? isLast))

theorem keeps_bookmarkSection (part : Section) {nodes : SectionNodes}
    (nodesOpen : OpenSection shelter document nodes) :
    shelter.Keeps (bookmarkSection part nodes) document fun _ _ => True := by
  refine Keeps.of_get fun _ => ?_
  split
  · next first last found =>
      rcases open_of_attachedRange? nodesOpen found with ⟨firstOpen, lastOpen⟩
      exact keeps_addBookmarks part firstOpen.inZone lastOpen.inZone
  · exact Keeps.of_pure trivial

theorem keeps_wrapInControl (part : Section) {nodes : SectionNodes}
    (nodesOpen : OpenSection shelter document nodes) :
    shelter.Keeps (wrapInControl part nodes) document fun _ _ => True := by
  refine Keeps.of_get fun _ => ?_
  split
  · exact Keeps.of_pure trivial
  · next first last found =>
      rcases open_of_attachedRange? nodesOpen found with ⟨firstOpen, lastOpen⟩
      refine (keeps_siblingRange firstOpen.inZone lastOpen.inZone).bind ?_
      intro range ranged _ rangeOpen
      refine (keeps_createElement _).bind ?_
      intro control begun toBegun controlOpen
      refine (keeps_plant _).bind ?_
      intro properties planted toPlanted propertiesOpen
      refine (keeps_createElement _).bind ?_
      intro content created toCreated contentOpen
      have controlOpen := (toPlanted.trans toCreated).isOpen controlOpen
      refine (keeps_appendChild controlOpen (toCreated.isOpen propertiesOpen)).bind ?_
      intro _ described toDescribed _
      refine (keeps_appendChild (toDescribed.isOpen controlOpen)
        (toDescribed.isOpen contentOpen)).bind ?_
      intro _ filled toFilled _
      have toFilled := toDescribed.trans toFilled
      have controlOpen := toFilled.isOpen controlOpen
      have contentOpen := toFilled.isOpen contentOpen
      refine (keeps_insertBefore controlOpen firstOpen.inZone).bind ?_
      intro _ placed toPlaced _
      have toPlaced' := toBegun.trans (toPlanted.trans (toCreated.trans (toFilled.trans toPlaced)))
      refine (keeps_forM_appendChild (toPlaced.isOpen contentOpen) fun node isMember =>
        toPlaced'.isOpen (rangeOpen node isMember)).bind ?_
      intro _ moved _ _
      refine (keeps_addBookmarks part controlOpen.inZone controlOpen.inZone).bind ?_
      intro _ after _ _
      exact Keeps.of_pure trivial

end Edit

/-! ## Sections -/

namespace Section

variable {style : HidingStyle}

theorem keeps_finish (part : Section) {nodes : SectionNodes} {head : NodeId}
    (nodesOpen : Edit.OpenSection shelter document nodes) (headOpen : shelter.Open document head) :
    shelter.Keeps (finish style part nodes head) document fun _ _ => True := by
  cases style with
  | vanishRuns =>
      show shelter.Keeps (do
        if part.isHidden then
          Edit.hideNodes nodes head
        Edit.bookmarkSection part nodes) document fun _ _ => True
      split
      · refine (Edit.keeps_hideNodes nodesOpen headOpen).bind ?_
        intro _ hidden toHidden _
        exact Edit.keeps_bookmarkSection part (nodesOpen.spares toHidden)
      · exact Edit.keeps_bookmarkSection part nodesOpen
  | contentControl =>
      refine (Edit.keeps_wrapInControl part nodesOpen).bind ?_
      intro wrapped middle toMiddle _
      split
      · exact Edit.keeps_hideNodes (nodesOpen.spares toMiddle) (toMiddle.isOpen headOpen)
      · exact Keeps.of_pure trivial

theorem keepsIn_bound? (context : Context) (tag : Tag) :
    shelter.KeepsIn (bound? context tag) workspace fun _ _ => True := by
  refine (KeepsIn.of_boundValue? context).bind ?_
  intro value bound _ _
  split
  · exact KeepsIn.of_pure trivial
  · split
    · exact KeepsIn.of_pure trivial
    · refine (KeepsIn.of_note _ _).bind ?_
      intro _ after _ _
      exact KeepsIn.of_pure trivial

theorem keepsIn_replaceRegion {context : Context} {region : Region} {compile : RegionCompiler region}
    (keeps : shelter.KeepsTags compile)
    (opensIn : shelter.Open workspace.document region.openingTag.textNode)
    (closesIn : shelter.Open workspace.document region.closingTag.textNode) :
    shelter.KeepsIn (replaceRegion style context region compile) workspace fun _ _ => True := by
  refine (keepsIn_bound? context region.openingTag).bind ?_
  intro bound started toStarted _
  refine KeepsIn.of_get fun _ => ?_
  split
  · exact KeepsIn.of_throw
  · next strategy _ =>
      refine KeepsIn.of_pathText.bind ?_
      intro text named toNamed _
      refine (KeepsIn.of_note _ _).bind ?_
      intro _ announced toAnnounced _
      have toStart := toStarted.trans (toNamed.trans toAnnounced)
      refine (Strategy.keepsIn_cut (toStart.isOpen opensIn) (toStart.isOpen closesIn)).bind ?_
      intro cut afterCut _ cutOpen
      refine (KeepsIn.of_edit (Edit.keeps_repeatRegion fun node isMember =>
        (cutOpen.nodes node isMember).inStore)).bind ?_
      intro copies copied toCopied copiesOpen
      refine (Region.keepsIn_compileCopies keeps 0 copiesOpen).bind ?_
      intro groups compiled toCompiled groupsOpen
      have cutOpen := cutOpen.spares (toCopied.trans toCompiled)
      refine KeepsIn.of_get fun holds => ?_
      have topmostOpen : ∀ node ∈ groups.flatten, shelter.Open compiled.document node := by
        intro node isMember
        rcases List.mem_flatten.mp isMember with ⟨group, isGroup, isMember⟩
        exact groupsOpen group isGroup node isMember
      have nodesOpen := Edit.openSection_collect holds topmostOpen
      refine (KeepsIn.of_edit (Strategy.keeps_putBack cutOpen groupsOpen)).bind ?_
      intro _ returned toReturned _
      split
      · split
        · exact KeepsIn.of_edit (keeps_finish _ (nodesOpen.spares toReturned)
            (toReturned.isOpen cutOpen.first))
        · exact KeepsIn.of_pure trivial
      · exact KeepsIn.of_pure trivial

end Section

end WordTemplate
