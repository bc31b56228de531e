import WordTemplate.Proofs.Filling.Ledger
import WordTemplate.Proofs.Leaf.Insertion
import WordTemplate.Proofs.Word.Securing

/-!
# Leaves around wrappers

What replaces a tag is new and holds no wrapper, unless markup in the data spells one. It may stand
right below a wrapper, in place of a tag at the top of a copy.
-/

namespace WordTemplate

open Document

/-- Services do not touch the document, whether they succeed or fail. -/
structure Services.KeepDocument (services : Services) : Prop where
  addRelationship : ∀ part target kind external document,
    Lasts (fun workspace => workspace.document = document)
      (services.addRelationship part target kind external)
  addMedia : ∀ bytes extension document,
    Lasts (fun workspace => workspace.document = document) (services.addMedia bytes extension)

/-- The services that keep everything in the workspace do not touch the document. -/
theorem Services.keepDocument_recording : Services.recording.KeepDocument where
  addRelationship part target kind external document workspace same := by
    rcases Services.addRelationship_recording part target kind external workspace with ⟨journal, done⟩
    rw [done]
    exact .ok same
  addMedia bytes extension document workspace same := by
    rcases Services.addMedia_recording bytes extension workspace with ⟨journal, done⟩
    rw [done]
    exact .ok same

/-- Services that refuse everything do not touch the document. -/
theorem Services.keepDocument_refusing (relationshipReason mediaReason : String) :
    (Services.refusing relationshipReason mediaReason).KeepDocument where
  addRelationship _ _ _ _ _ := Lasts.of_throw _
  addMedia _ _ _ := Lasts.of_throw _

namespace Leaf

variable {base : Nat} {document : Document} {workspace : Workspace} {context : Context} {tag : Tag}
  {textNode element anchor run carrier checkbox : NodeId}

theorem secures_detach (isSealed : workspace.document.Sealed base) (id : NodeId) :
    Work.Secures base (Edit.detach id : Work Unit) workspace fun _ _ => True :=
  Secures.of_edit_work (Edit.secures_detach isSealed id).forget

/-! ## Text -/

theorem secures_addLines (isSealed : document.Sealed base) (ordinary : document.Ordinary element)
    (anchor : NodeId) (lines : List String) :
    Edit.Secures base (addLines element anchor lines) document fun _ _ => True := by
  induction lines generalizing document anchor with
  | nil => exact Secures.of_pure isSealed trivial
  | cons line rest inductionHypothesis =>
      refine Secures.bind isSealed (Edit.secures_createElement isSealed (by decide)) ?_
      intro lineBreak created _ toCreated breakIs
      refine Secures.bind toCreated.toSealed
        (Edit.secures_insertRecent toCreated.toSealed breakIs.toRecent 1 anchor) ?_
      intro _ placed _ toPlaced _
      have ordinary := toPlaced.ordinary (toCreated.ordinary ordinary)
      refine Secures.bind toPlaced.toSealed (Edit.secures_copyNode toPlaced.toSealed ordinary) ?_
      intro next copied _ toCopied nextIs
      refine Secures.bind toCopied.toSealed (Edit.secures_createText toCopied.toSealed line) ?_
      intro characters written _ toWritten textIs
      refine Secures.bind toWritten.toSealed (Edit.secures_appendChild toWritten.toSealed
        (toWritten.ordinary nextIs.toOrdinary) textIs.toOrdinary textIs.loose) ?_
      intro _ filled _ toFilled _
      refine Secures.bind toFilled.toSealed (Edit.secures_insertRecent toFilled.toSealed
        (toFilled.recent (toWritten.recent nextIs.toRecent)) 1 lineBreak) ?_
      intro _ after _ toAfter _
      have whole := ((toCopied.trans toWritten toPlaced.toSealed).trans toFilled
        toPlaced.toSealed).trans toAfter toPlaced.toSealed
      exact inductionHypothesis toAfter.toSealed (whole.ordinary ordinary) next

theorem secures_writeText (isSealed : document.Sealed base) (textNode : NodeId) (text : String) :
    Edit.Secures base (writeText textNode text) document fun _ _ => True := by
  refine Secures.bind isSealed (Edit.secures_setText isSealed textNode _) ?_
  intro _ written _ toWritten _
  refine Secures.of_get ?_
  split
  · exact Secures.of_pure toWritten.toSealed trivial
  · next element found =>
      have ordinary : written.Ordinary element :=
        ordinary_of_isNamed (Option.filter_eq_some_iff.mp found).2 (by decide)
      refine Secures.bind toWritten.toSealed (Edit.secures_keepSpace toWritten.toSealed element) ?_
      intro _ spaced _ toSpaced _
      exact secures_addLines toSpaced.toSealed (toSpaced.ordinary ordinary) element _

theorem secures_setCheckbox (isSealed : document.Sealed base) (ordinary : document.Ordinary checkbox)
    (textNode : NodeId) (checked : Bool) :
    Edit.Secures base (setCheckbox textNode checkbox checked) document fun _ _ => True := by
  have shown : ∀ {middle : Document} (state : NodeId), middle.Sealed base → Edit.Secures base (do
      Edit.setAttribute state Word.Name.checkboxValue (if checked then "1" else "0")
      Edit.setText textNode (checkboxSymbol (← get) checkbox checked).toString) middle
        fun _ _ => True := by
    intro middle state isSealed
    refine Secures.bind isSealed (Edit.secures_setAttribute isSealed state _ _) ?_
    intro _ set _ toSet _
    exact Secures.of_get (Edit.secures_setText toSet.toSealed textNode _).forget
  refine Secures.of_get ?_
  dsimp only
  split
  · next existing _ => exact shown existing isSealed
  · refine Secures.bind isSealed (Edit.secures_createElement isSealed (by decide)) ?_
    intro created added _ toAdded stateIs
    refine Secures.bind toAdded.toSealed (Edit.secures_insertChild toAdded.toSealed
      (toAdded.ordinary ordinary) stateIs.toOrdinary stateIs.loose 0) ?_
    intro _ placed _ toPlaced _
    exact shown created toPlaced.toSealed

theorem secures_replaceByText (isSealed : workspace.document.Sealed base) :
    Work.Secures base (replaceByText context tag) workspace fun _ _ => True := by
  refine Secures.bind isSealed (Secures.of_boundValue? isSealed context) ?_
  rintro value _ - - ⟨-, rfl⟩
  refine Secures.of_get ?_
  split
  · next checkbox found =>
      rcases Option.bind_eq_some_iff.mp found with ⟨control, -, found⟩
      rcases Option.bind_eq_some_iff.mp found with ⟨properties, -, isCheckbox⟩
      refine Secures.bind isSealed (Secures.of_note isSealed _ _) ?_
      intro _ noted _ toNoted _
      exact Secures.of_edit_work (secures_setCheckbox toNoted.toSealed
        (toNoted.ordinary (isSealed.ordinary_of_childNamed? isCheckbox)) _ _)
  · exact Secures.of_edit_work (secures_writeText isSealed _ _)

/-! ## Markup -/

theorem secures_readFragment (isSealed : workspace.document.Sealed base) {source : String}
    (plain : Markup.SpellsNoWrapper source) :
    Work.Secures base (Work.readFragment source) workspace fun nodes after =>
      ∀ node ∈ nodes, after.document.Recent base node := by
  refine Secures.bind isSealed (Secures.of_noteAll isSealed _) ?_
  intro _ noted _ toNoted _
  exact Secures.of_edit_work (Edit.secures_readFragment toNoted.toSealed plain)

theorem secures_insertMarkup (isSealed : workspace.document.Sealed base) {markup : RawMarkup}
    (plain : ∀ source, markup.inserted? = some source → Markup.SpellsNoWrapper source) :
    Work.Secures base (insertMarkup tag markup) workspace fun _ _ => True := by
  refine Secures.of_get ?_
  dsimp only
  split
  · exact secures_detach isSealed _
  · next source found =>
      refine Secures.bind isSealed (secures_readFragment isSealed (plain source found)) ?_
      intro nodes read _ toRead areRecent
      refine Secures.bind toRead.toSealed (Secures.of_note toRead.toSealed _ _) ?_
      intro _ noted _ toNoted _
      refine Secures.bind toNoted.toSealed (Secures.of_forM (fun _ => True) toNoted.toSealed trivial
        fun node isNode middle toMiddle _ => ?_) ?_
      · have isRecent := toMiddle.recent (toNoted.recent (areRecent node isNode))
        exact Secures.of_edit_work
          (Edit.secures_insertRecent toMiddle.toSealed isRecent 0 _).forget
      · intro _ filled _ toFilled _
        exact secures_detach toFilled.toSealed _

/-- The markup that is bound to a tag is the one at the scope path. -/
theorem secures_boundMarkup (isSealed : workspace.document.Sealed base) (context : Context) :
    Work.Secures base (boundMarkup context) workspace fun markup _ => ∀ source,
      markup.inserted? = some source → context.markupAt workspace.path = some source := by
  refine Secures.bind isSealed (Secures.of_boundValue? isSealed context) ?_
  rintro value _ - - ⟨isBound, rfl⟩
  rw [Context.markupAt, ← isBound]
  have nothing : ∀ source, RawMarkup.inserted? {} = some source →
      value.bind RawMarkup.offered? = some source := by simp [RawMarkup.inserted?]
  rcases value with _ | value
  · exact Secures.of_pure isSealed nothing
  · dsimp only
    cases value with
    | string source => exact Secures.of_pure isSealed fun _ isInserted => isInserted
    | object fields =>
        rw [RawMarkup.ofValue]
        rcases isRecord : RawMarkup.ofRecord? (.object fields) with _ | markup
        · exact Secures.of_note_pure isSealed _ _ fun _ => nothing
        · refine Secures.of_pure isSealed fun inserted isInserted => ?_
          simpa [RawMarkup.offered?, isRecord] using isInserted
    | null => exact Secures.of_pure isSealed nothing
    | bool flag => exact Secures.of_pure isSealed nothing
    | number held => exact Secures.of_pure isSealed nothing
    | array items => exact Secures.of_pure isSealed nothing

theorem secures_replaceByMarkup (isSealed : workspace.document.Sealed base)
    (plain : ∀ source, context.markupAt workspace.path = some source →
      Markup.SpellsNoWrapper source) :
    Work.Secures base (replaceByMarkup context tag) workspace fun _ _ => True := by
  rw [replaceByMarkup_eq]
  refine Secures.bind isSealed (secures_boundMarkup isSealed context) ?_
  intro markup bound _ toBound isBound
  exact secures_insertMarkup toBound.toSealed fun source isInserted =>
    plain source (isBound source isInserted)

/-! ## Links -/

theorem secures_splitRunAfter (isSealed : document.Sealed base) (ordinary : document.Ordinary run)
    (child : NodeId) : Edit.Secures base (splitRunAfter run child) document fun _ _ => True := by
  rw [splitRunAfter_eq]
  refine Secures.of_get ?_
  have isChild : ∀ node ∈ ((document.children run).dropWhile (· != child)).drop 1,
      document.parent node = some run := fun node isTrailing =>
    (isSealed.wellFormed.mem_children_iff _ _).mp
      ((List.dropWhile_sublist _).subset (List.mem_of_mem_drop isTrailing))
  split
  · exact Secures.of_pure isSealed trivial
  · refine Secures.bind isSealed (Edit.secures_copyNode isSealed ordinary) ?_
    intro tail copied _ toCopied tailIs
    have properties : ∀ id ∈ (document.childNamed? run Word.Name.runProperties).toList,
        copied.Ordinary id := fun id isProperties =>
      toCopied.ordinary (isSealed.ordinary_of_childNamed? (Option.mem_toList.mp isProperties))
    refine Secures.bind toCopied.toSealed (Edit.secures_forM_copySubtree toCopied.toSealed
      tailIs.toOrdinary properties) ?_
    intro _ formatted _ toFormatted kept
    have stays : ∀ node ∈ ((document.children run).dropWhile (· != child)).drop 1,
        formatted.parent node = some run := by
      intro node isTrailing
      have isOld := lt_size_of_parent (isChild node isTrailing)
      rw [kept node (Nat.lt_of_lt_of_le isOld toCopied.size_le), tailIs.parent_eq node isOld,
        isChild node isTrailing]
    have hosts := toFormatted.ordinary (toCopied.ordinary ordinary)
    refine Secures.bind toFormatted.toSealed (Edit.secures_forM_appendChild toFormatted.toSealed
      (toFormatted.ordinary tailIs.toOrdinary)
      (fun node isTrailing => toFormatted.toSealed.ordinary_of_parent (stays node isTrailing))
      (fun node isTrailing => .of_ordinary_parent (stays node isTrailing) hosts)) ?_
    intro _ moved _ toMoved _
    exact (Edit.secures_insertRecent toMoved.toSealed (toMoved.recent (toFormatted.recent
      tailIs.toRecent)) 1 run).forget

theorem secures_copyRunProperties (isSealed : document.Sealed base) (source : NodeId) :
    Edit.Secures base (copyRunProperties source) document fun properties after =>
      after.Recent base properties := by
  refine Secures.of_get ?_
  split
  · next existing found =>
      refine Secures.bind isSealed
        (Edit.secures_copySubtree isSealed (isSealed.ordinary_of_childNamed? found)) ?_
      rintro copy copied - toCopied ⟨isCopy, -⟩
      exact Secures.of_pure toCopied.toSealed isCopy.toRecent
  · exact (Edit.secures_createElement isSealed (by decide)).imp fun _ _ _ _ created =>
      created.toRecent

theorem secures_createLinkRun (isSealed : document.Sealed base) (source : NodeId) (text : String) :
    Edit.Secures base (createLinkRun source text) document fun linkRun after =>
      after.Recent base linkRun := by
  rw [createLinkRun_eq]
  refine Secures.bind isSealed (Edit.secures_createElement isSealed (by decide)) ?_
  intro linkRun created _ toCreated runIs
  refine Secures.bind toCreated.toSealed (secures_copyRunProperties toCreated.toSealed source) ?_
  intro properties formatted _ toFormatted propertiesAre
  have runIs := toFormatted.recent runIs.toRecent
  refine Secures.bind toFormatted.toSealed (Edit.secures_appendChild toFormatted.toSealed
    runIs.toOrdinary propertiesAre.toOrdinary propertiesAre.loose) ?_
  intro _ described _ toDescribed _
  refine Secures.bind toDescribed.toSealed (Edit.secures_ensureProperties toDescribed.toSealed
    (toDescribed.ordinary propertiesAre.toOrdinary) (by decide) []) ?_
  rintro style styled - toStyled -
  refine Secures.bind toStyled.toSealed (Edit.secures_setAttribute toStyled.toSealed style _ _) ?_
  intro _ attributed _ toAttributed _
  refine Secures.bind toAttributed.toSealed (Edit.secures_plant toAttributed.toSealed ?_) ?_
  · exact Tree.eachElement_node.mpr ⟨by decide, by simp [Tree.EachElement]⟩
  intro textElement planted _ toPlanted textIs
  have whole := ((toDescribed.trans toStyled toFormatted.toSealed).trans toAttributed
    toFormatted.toSealed).trans toPlanted toFormatted.toSealed
  have runIs := whole.recent runIs
  refine Secures.bind toPlanted.toSealed (Edit.secures_appendChild toPlanted.toSealed
    runIs.toOrdinary textIs.toOrdinary textIs.loose) ?_
  intro _ after _ toAfter _
  exact Secures.of_pure toAfter.toSealed (toAfter.recent runIs)

theorem secures_insertHyperlink (isSealed : document.Sealed base) (ordinary : document.Ordinary run)
    (carrier : NodeId) (relationshipId text : String) :
    Edit.Secures base (insertHyperlink run carrier relationshipId text) document fun _ _ => True := by
  refine Secures.bind isSealed (secures_splitRunAfter isSealed ordinary carrier) ?_
  intro _ split _ toSplit _
  refine Secures.bind toSplit.toSealed (Edit.secures_createElement toSplit.toSealed (by decide)) ?_
  intro hyperlink created _ toCreated hyperlinkIs
  refine Secures.bind toCreated.toSealed
    (Edit.secures_setAttribute toCreated.toSealed hyperlink _ _) ?_
  intro _ attributed _ toAttributed _
  refine Secures.bind toAttributed.toSealed
    (secures_createLinkRun toAttributed.toSealed run text) ?_
  intro linkRun formatted _ toFormatted runIs
  have hyperlinkIs := toFormatted.recent (toAttributed.recent hyperlinkIs.toRecent)
  refine Secures.bind toFormatted.toSealed (Edit.secures_appendChild toFormatted.toSealed
    hyperlinkIs.toOrdinary runIs.toOrdinary runIs.loose) ?_
  intro _ linked _ toLinked _
  refine Secures.bind toLinked.toSealed (Edit.secures_insertRecent toLinked.toSealed
    (toLinked.recent hyperlinkIs) 1 run) ?_
  intro _ placed _ toPlaced _
  refine Secures.bind toPlaced.toSealed (Edit.secures_detach toPlaced.toSealed carrier) ?_
  intro _ cut _ toCut _
  refine Secures.of_get ?_
  split
  · exact Edit.secures_removeEmptyRuns toCut.toSealed _
  · exact Secures.of_pure toCut.toSealed trivial

theorem secures_boundLink? (isSealed : workspace.document.Sealed base) (context : Context) (tag : Tag) :
    Work.Secures base (boundLink? context tag) workspace fun _ _ => True := by
  refine Secures.bind isSealed (Secures.of_boundValue? isSealed context) ?_
  rintro value _ - - ⟨-, rfl⟩
  split
  · exact Secures.of_pure isSealed trivial
  · split
    · exact Secures.of_pure isSealed trivial
    · exact Secures.of_note_pure isSealed _ _ fun _ => trivial

theorem secures_replaceByLink (services : context.services.KeepDocument)
    (isSealed : workspace.document.Sealed base) :
    Work.Secures base (replaceByLink context tag) workspace fun _ _ => True := by
  refine Secures.bind isSealed (secures_boundLink? isSealed context tag) ?_
  rintro bound started - toStarted -
  refine Secures.of_get ?_
  dsimp only
  split
  · exact secures_detach toStarted.toSealed _
  · refine Secures.bind toStarted.toSealed (Secures.of_note toStarted.toSealed _ _) ?_
    intro _ noted _ toNoted _
    exact Secures.of_edit_work (Edit.secures_setText toNoted.toSealed _ _).forget
  · next link run found =>
      have ordinary := toStarted.toSealed.ordinary_of_ancestorNamed? found (by decide)
      refine Secures.bind toStarted.toSealed (Secures.of_untouched toStarted.toSealed
        (services.addRelationship _ _ _ _ _ started rfl) fun _ _ _ same => same) ?_
      intro relationshipId related _ toRelated same
      refine Secures.bind toRelated.toSealed (Secures.of_note toRelated.toSealed _ _) ?_
      intro _ noted _ toNoted _
      exact Secures.of_edit_work (secures_insertHyperlink toNoted.toSealed
        (toNoted.ordinary (toRelated.ordinary ordinary)) _ _ _)

/-! ## Pictures -/

theorem secures_boundPicture? (isSealed : workspace.document.Sealed base) (context : Context)
    (tag : Tag) : Work.Secures base (boundPicture? context tag) workspace fun _ _ => True := by
  refine Secures.bind isSealed (Secures.of_boundValue? isSealed context) ?_
  rintro value started - - ⟨-, rfl⟩
  split
  · exact Secures.of_pure isSealed trivial
  · split
    · exact Secures.of_note_pure isSealed _ _ fun _ => trivial
    · split
      · exact Secures.of_pure isSealed trivial
      · exact Secures.of_note_pure isSealed _ _ fun _ => trivial

/-- No element of a drawing is a wrapper. -/
theorem eachElement_drawing (picture : Picture) (relationshipId : String) (number : Nat) :
    (picture.drawing relationshipId number).EachElement (·.name ≠ Edit.wrapperName) := by
  simp [Picture.drawing, Tree.eachElement_node, Edit.wrapperName, Word.Name.drawing,
    Word.Name.drawingProperties]

theorem secures_storePicture (services : context.services.KeepDocument)
    (isSealed : workspace.document.Sealed base) (picture : Picture) (bytes : List UInt8) :
    Work.Secures base (storePicture context tag picture bytes) workspace fun drawing _ =>
      drawing.EachElement (·.name ≠ Edit.wrapperName) := by
  refine Secures.bind isSealed (Secures.of_untouched isSealed
    (services.addMedia _ _ _ workspace rfl) fun _ _ _ same => same) ?_
  intro path stored _ toStored _
  refine Secures.bind toStored.toSealed (Secures.of_untouched toStored.toSealed
    (services.addRelationship _ _ _ _ _ stored rfl) fun _ _ _ same => same) ?_
  intro relationshipId related _ toRelated _
  refine Secures.of_get ?_
  split
  · exact Secures.of_throw toRelated.toSealed
  · exact Secures.of_note_pure toRelated.toSealed _ _ fun _ => eachElement_drawing picture _ _

theorem secures_replaceByPicture (services : context.services.KeepDocument)
    (isSealed : workspace.document.Sealed base) :
    Work.Secures base (replaceByPicture context tag) workspace fun _ _ => True := by
  refine Secures.bind isSealed (secures_boundPicture? isSealed context tag) ?_
  intro bound started _ toStarted _
  refine Secures.of_get ?_
  dsimp only
  split
  · exact secures_detach toStarted.toSealed _
  · refine Secures.bind toStarted.toSealed (Secures.of_note toStarted.toSealed _ _) ?_
    intro _ noted _ toNoted _
    exact secures_detach toNoted.toSealed _
  · refine Secures.bind toStarted.toSealed
      (secures_storePicture services toStarted.toSealed _ _) ?_
    intro tree stored _ toStored plain
    refine Secures.bind toStored.toSealed
      (Secures.of_edit_work (Edit.secures_plant toStored.toSealed plain)) ?_
    intro drawing planted _ toPlanted drawingIs
    refine Secures.bind toPlanted.toSealed (Secures.of_edit_work
      (Edit.secures_insertRecent toPlanted.toSealed drawingIs.toRecent 0 _)) ?_
    intro _ placed _ toPlaced _
    exact secures_detach toPlaced.toSealed _

end Leaf

end WordTemplate
