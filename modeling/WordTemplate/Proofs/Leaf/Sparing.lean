import WordTemplate.Filling.Standard
import WordTemplate.Proofs.Container.SparedRegions

/-!
# Replacing leaves spares sheltered nodes

What a leaf is replaced by is new, and it goes where the text node of the tag stands, into the run or
the paragraph around it or into the content control around it.
-/

namespace WordTemplate

open Document Outcome Shelter

variable {shelter : Shelter} {workspace : Workspace} {document : Document}

namespace Leaf

variable {textNode element anchor run carrier : NodeId} {context : Context} {tag : Tag}

/-! ## Text -/

theorem keeps_addLines (lines : List String) (anchorInZone : shelter.zone anchor) :
    shelter.Keeps (addLines element anchor lines) document fun _ _ => True := by
  induction lines generalizing document anchor with
  | nil => exact Keeps.of_pure trivial
  | cons line rest inductionHypothesis =>
      refine (Edit.keeps_createElement _).bind ?_
      intro lineBreak created _ breakOpen
      refine (Edit.keeps_insertAfter breakOpen anchorInZone).bind ?_
      intro _ placed _ _
      refine (Edit.keeps_copyNode element).bind ?_
      intro next copied _ nextOpen
      refine (Edit.keeps_createText line).bind ?_
      intro characters written toWritten charactersOpen
      refine (Edit.keeps_appendChild (toWritten.isOpen nextOpen) charactersOpen).bind ?_
      intro _ filled toFilled _
      refine (Edit.keeps_insertAfter ((toWritten.trans toFilled).isOpen nextOpen)
        breakOpen.inZone).bind ?_
      intro _ after _ _
      exact inductionHypothesis nextOpen.inZone

theorem keeps_writeText (textInZone : shelter.zone textNode) (text : String) :
    shelter.Keeps (writeText textNode text) document fun _ _ => True := by
  refine (Edit.keeps_setText textInZone _).bind ?_
  intro _ written _ _
  refine Keeps.of_get fun holds => ?_
  split
  · exact Keeps.of_pure trivial
  · next element isElement =>
      have elementInZone := (holds.open_of_textElement? textInZone isElement).inZone
      refine (Edit.keeps_keepSpace elementInZone).bind ?_
      intro _ spaced _ _
      exact keeps_addLines _ elementInZone

theorem open_of_checkbox? {checkbox : NodeId} (holds : shelter.Holds document)
    (textInZone : shelter.zone textNode) (found : checkbox? document textNode = some checkbox) :
    shelter.Open document checkbox := by
  rcases Option.bind_eq_some_iff.mp found with ⟨control, isControl, found⟩
  rcases Option.bind_eq_some_iff.mp found with ⟨properties, areProperties, isCheckbox⟩
  have controlOpen := holds.open_of_ancestorNamed? textInZone isControl
    (by simp [Word.Name.enclosing])
  exact holds.open_of_childNamed? isCheckbox
    (holds.open_of_childNamed? areProperties controlOpen.inZone).inZone

theorem keeps_setCheckbox {checkbox : NodeId} (textInZone : shelter.zone textNode)
    (checkboxOpen : shelter.Open document checkbox) (checked : Bool) :
    shelter.Keeps (setCheckbox textNode checkbox checked) document fun _ _ => True := by
  have shown : ∀ {middle : Document} {state : NodeId}, shelter.zone state → shelter.Keeps (do
      Edit.setAttribute state Word.Name.checkboxValue (if checked then "1" else "0")
      Edit.setText textNode (checkboxSymbol (← get) checkbox checked).toString) middle
        fun _ _ => True := by
    intro middle state stateInZone
    refine (Edit.keeps_setAttribute stateInZone _ _).bind ?_
    intro _ set _ _
    exact Keeps.of_get fun _ => Edit.keeps_setText textInZone _
  refine Keeps.of_get fun holds => ?_
  dsimp only
  split
  · next existing found =>
      exact shown (holds.open_of_childNamed? found checkboxOpen.inZone).inZone
  · refine (Edit.keeps_createElement _).bind ?_
    intro created added toAdded createdOpen
    refine (Edit.keeps_insertChild (toAdded.isOpen checkboxOpen) createdOpen _).bind ?_
    intro _ placed _ _
    exact shown createdOpen.inZone

theorem keepsIn_replaceByText (textOpen : shelter.Open workspace.document tag.textNode) :
    shelter.KeepsIn (replaceByText context tag) workspace fun _ _ => True := by
  refine (KeepsIn.of_boundValue? context).bind ?_
  intro value bound toBound _
  have textOpen := toBound.isOpen textOpen
  refine KeepsIn.of_get fun holds => ?_
  split
  · next checkbox found =>
      refine (KeepsIn.of_note _ _).bind ?_
      intro _ noted toNoted _
      exact KeepsIn.of_edit (keeps_setCheckbox textOpen.inZone
        (toNoted.isOpen (open_of_checkbox? holds textOpen.inZone found)) _)
  · exact KeepsIn.of_edit (keeps_writeText textOpen.inZone _)

/-! ## Markup -/

theorem keepsIn_ofValue (value : Data.Value) :
    shelter.KeepsIn (RawMarkup.ofValue value) workspace fun _ _ => True := by
  unfold RawMarkup.ofValue
  split
  · exact KeepsIn.of_pure trivial
  · split
    · exact KeepsIn.of_pure trivial
    · refine (KeepsIn.of_note _ _).bind ?_
      intro _ noted _ _
      exact KeepsIn.of_pure trivial
  · exact KeepsIn.of_pure trivial

theorem keepsIn_readFragment (source : String) :
    shelter.KeepsIn (Work.readFragment source) workspace fun nodes after =>
      ∀ node ∈ nodes, shelter.Open after node := by
  refine (KeepsIn.of_noteAll _).bind ?_
  intro _ noted _ _
  exact KeepsIn.of_edit (Edit.keeps_readFragment source)

theorem keepsIn_insertMarkup (markup : RawMarkup)
    (textOpen : shelter.Open workspace.document tag.textNode) :
    shelter.KeepsIn (do
      let document := (← get).document
      let carrier := document.textUnit tag.textNode
      let target :=
        if markup.replacesParagraph then (document.paragraph? tag.textNode).getD carrier
        else carrier
      match markup.inserted? with
      | none => pure ()
      | some source =>
          let nodes ← Work.readFragment source
          Work.note .trace
            ("Inserting " ++ Text.decimalText nodes.length ++ " raw node(s) for '" ++ tag.name ++
              "'")
          nodes.forM fun node => (Edit.insertBefore node target : Work Unit)
      (Edit.detach target : Work Unit)) workspace fun _ _ => True := by
  refine KeepsIn.of_get fun holds => ?_
  have carrierOpen := holds.open_textUnit textOpen
  have targetInZone : shelter.zone (if markup.replacesParagraph then
      (workspace.document.paragraph? tag.textNode).getD (workspace.document.textUnit tag.textNode)
      else workspace.document.textUnit tag.textNode) := by
    split
    · rcases found : workspace.document.paragraph? tag.textNode with _ | paragraph
      · exact carrierOpen.inZone
      · exact (holds.open_of_ancestorNamed? textOpen.inZone found
          (by simp [Word.Name.enclosing])).inZone
    · exact carrierOpen.inZone
  dsimp only
  generalize (if markup.replacesParagraph then
    (workspace.document.paragraph? tag.textNode).getD (workspace.document.textUnit tag.textNode)
    else workspace.document.textUnit tag.textNode) = target at targetInZone ⊢
  split
  · exact KeepsIn.of_edit (Edit.keeps_detach targetInZone)
  · next source isSource =>
      refine (keepsIn_readFragment source).bind ?_
      intro nodes read _ nodesOpen
      refine (KeepsIn.of_note _ _).bind ?_
      intro _ noted toNoted _
      have inserted : shelter.KeepsIn (nodes.forM fun node =>
          (Edit.insertBefore node target : Work Unit)) noted fun _ _ => True :=
        KeepsIn.of_forM fun node isMember _ spares => KeepsIn.of_edit (Edit.keeps_insertBefore
          ((toNoted.trans spares).isOpen (nodesOpen node isMember)) targetInZone)
      refine inserted.bind ?_
      intro _ filled _ _
      exact KeepsIn.of_edit (Edit.keeps_detach targetInZone)

theorem keepsIn_replaceByMarkup (textOpen : shelter.Open workspace.document tag.textNode) :
    shelter.KeepsIn (replaceByMarkup context tag) workspace fun _ _ => True := by
  refine (KeepsIn.of_boundValue? context).bind ?_
  intro value bound toBound _
  dsimp only
  split
  · refine (keepsIn_ofValue _).bind ?_
    intro markup read toRead _
    exact keepsIn_insertMarkup markup ((toBound.trans toRead).isOpen textOpen)
  · exact keepsIn_insertMarkup {} (toBound.isOpen textOpen)

/-! ## Links -/

theorem keeps_splitRunAfter {child : NodeId} (runOpen : shelter.Open document run) :
    shelter.Keeps (splitRunAfter run child) document fun _ _ => True := by
  refine Keeps.of_get fun holds => ?_
  dsimp only
  split
  · exact Keeps.of_pure trivial
  · next trailing _ =>
      have trailingOpen : ∀ node ∈ ((document.children run).dropWhile (· != child)).drop 1,
          shelter.Open document node := fun node isMember =>
        holds.open_of_mem_children
          ((List.dropWhile_sublist _).subset (List.mem_of_mem_drop isMember)) runOpen.inZone
      refine (Edit.keeps_copyNode run).bind ?_
      intro tail copied toCopied tailOpen
      have moved : ∀ {middle : Document}, shelter.Spares copied middle → shelter.Keeps (do
          (((document.children run).dropWhile (· != child)).drop 1).forM (Edit.appendChild tail)
          Edit.insertAfter tail run) middle fun _ _ => True := by
        intro middle toMiddle
        refine (Edit.keeps_forM_appendChild (toMiddle.isOpen tailOpen) fun node isMember =>
          (toCopied.trans toMiddle).isOpen (trailingOpen node isMember)).bind ?_
        intro _ filled toFilled _
        exact Edit.keeps_insertAfter ((toMiddle.trans toFilled).isOpen tailOpen) runOpen.inZone
      split
      · next properties found =>
          refine (Edit.keeps_copySubtree (toCopied.isOpen
            (holds.open_of_childNamed? found runOpen.inZone)).inStore).bind ?_
          intro copy doubled toDoubled copyOpen
          refine (Edit.keeps_appendChild (toDoubled.isOpen tailOpen) copyOpen.1).bind ?_
          intro _ placed toPlaced _
          exact moved (toDoubled.trans toPlaced)
      · exact Keeps.of_holds fun holds => moved (Spares.refl holds)

/-- The style of a run goes into its properties. -/
theorem keeps_fillLinkRun {run style : NodeId} (runOpen : shelter.Open document run)
    (styleInZone : shelter.zone style) (text : String) :
    shelter.Keeps (do
      Edit.setAttribute style Word.Name.value "Hyperlink"
      let textElement ← Edit.plant
        (.node Word.Name.text [(Word.Name.space, "preserve")] [.text text])
      Edit.appendChild run textElement
      return run) document fun run after => shelter.Open after run := by
  refine (Edit.keeps_setAttribute styleInZone _ _).bind ?_
  intro _ styled toStyled _
  refine (Edit.keeps_plant _).bind ?_
  intro textElement planted toPlanted elementOpen
  have runOpen := (toStyled.trans toPlanted).isOpen runOpen
  refine (Edit.keeps_appendChild runOpen elementOpen).bind ?_
  intro _ after toAfter _
  exact Keeps.of_pure (toAfter.isOpen runOpen)

theorem keeps_formatLinkRun {run properties : NodeId} (runOpen : shelter.Open document run)
    (propertiesOpen : shelter.Open document properties) (text : String) :
    shelter.Keeps (do
      Edit.appendChild run properties
      let style ← do
        match (← get).childNamed? properties Word.Name.runStyle with
        | some existing => pure existing
        | none =>
            let created ← Edit.createElement Word.Name.runStyle
            Edit.insertChild properties 0 created
            pure created
      Edit.setAttribute style Word.Name.value "Hyperlink"
      let textElement ← Edit.plant
        (.node Word.Name.text [(Word.Name.space, "preserve")] [.text text])
      Edit.appendChild run textElement
      return run) document fun run after => shelter.Open after run := by
  refine (Edit.keeps_appendChild runOpen propertiesOpen).bind ?_
  intro _ placed toPlaced _
  have runOpen := toPlaced.isOpen runOpen
  have propertiesOpen := toPlaced.isOpen propertiesOpen
  refine Keeps.of_get fun holds => ?_
  dsimp only
  split
  · next existing found =>
      exact keeps_fillLinkRun runOpen
        (holds.open_of_childNamed? found propertiesOpen.inZone).inZone text
  · refine (Edit.keeps_createElement _).bind ?_
    intro created added toAdded createdOpen
    refine (Edit.keeps_insertChild (toAdded.isOpen propertiesOpen) createdOpen _).bind ?_
    intro _ after toAfter _
    exact keeps_fillLinkRun ((toAdded.trans toAfter).isOpen runOpen) createdOpen.inZone text

theorem keeps_createLinkRun {source : NodeId} (sourceInZone : shelter.zone source) (text : String) :
    shelter.Keeps (createLinkRun source text) document fun run after => shelter.Open after run := by
  refine (Edit.keeps_createElement _).bind ?_
  intro run created toCreated runOpen
  refine Keeps.of_get fun holds => ?_
  dsimp only
  split
  · next existing found =>
      refine (Edit.keeps_copySubtree
        (holds.open_of_childNamed? found sourceInZone).inStore).bind ?_
      intro copy copied toCopied copyOpen
      exact keeps_formatLinkRun (toCopied.isOpen runOpen) copyOpen.1 text
  · refine (Edit.keeps_createElement _).bind ?_
    intro properties added toAdded propertiesOpen
    exact keeps_formatLinkRun (toAdded.isOpen runOpen) propertiesOpen text

theorem keeps_insertHyperlink (runOpen : shelter.Open document run)
    (carrierInZone : shelter.zone carrier) (relationshipId text : String) :
    shelter.Keeps (insertHyperlink run carrier relationshipId text) document fun _ _ => True := by
  refine (keeps_splitRunAfter runOpen).bind ?_
  intro _ divided _ _
  refine (Edit.keeps_createElement _).bind ?_
  intro hyperlink created _ hyperlinkOpen
  refine (Edit.keeps_setAttribute hyperlinkOpen.inZone _ _).bind ?_
  intro _ tied toTied _
  refine (keeps_createLinkRun runOpen.inZone text).bind ?_
  intro linkRun linked toLinked linkRunOpen
  have hyperlinkOpen := (toTied.trans toLinked).isOpen hyperlinkOpen
  refine (Edit.keeps_appendChild hyperlinkOpen linkRunOpen).bind ?_
  intro _ filled toFilled _
  refine (Edit.keeps_insertAfter (toFilled.isOpen hyperlinkOpen) runOpen.inZone).bind ?_
  intro _ placed _ _
  refine (Edit.keeps_detach carrierInZone).bind ?_
  intro _ bare _ _
  refine Keeps.of_get fun holds => ?_
  split
  · next parent isParent =>
      exact Edit.keeps_removeEmptyRuns (holds.parent isParent runOpen.inZone)
  · exact Keeps.of_pure trivial

theorem keepsIn_boundLink? (context : Context) (tag : Tag) :
    shelter.KeepsIn (boundLink? context tag) workspace fun _ _ => True := by
  refine (KeepsIn.of_boundValue? context).bind ?_
  intro value bound _ _
  split
  · exact KeepsIn.of_pure trivial
  · split
    · exact KeepsIn.of_pure trivial
    · refine (KeepsIn.of_note _ _).bind ?_
      intro _ noted _ _
      exact KeepsIn.of_pure trivial

theorem keepsIn_replaceByLink (services : context.services.Idle)
    (textOpen : shelter.Open workspace.document tag.textNode) :
    shelter.KeepsIn (replaceByLink context tag) workspace fun _ _ => True := by
  refine (keepsIn_boundLink? context tag).bind ?_
  intro bound started toStarted _
  have textOpen := toStarted.isOpen textOpen
  refine KeepsIn.of_get fun holds => ?_
  have carrierInZone := (holds.open_textUnit textOpen).inZone
  dsimp only
  split
  · exact KeepsIn.of_edit (Edit.keeps_detach carrierInZone)
  · refine (KeepsIn.of_note _ _).bind ?_
    intro _ noted _ _
    exact KeepsIn.of_edit (Edit.keeps_setText textOpen.inZone _)
  · next link run isRun =>
      have runOpen := holds.open_of_ancestorNamed? textOpen.inZone isRun
        (by simp [Word.Name.enclosing])
      refine (KeepsIn.of_idles fun _ _ done => services.addRelationship done).bind ?_
      intro relationshipId related toRelated _
      refine (KeepsIn.of_note _ _).bind ?_
      intro _ noted toNoted _
      exact KeepsIn.of_edit (keeps_insertHyperlink ((toRelated.trans toNoted).isOpen runOpen)
        carrierInZone _ _)

/-! ## Pictures -/

theorem keepsIn_boundPicture? (context : Context) (tag : Tag) :
    shelter.KeepsIn (boundPicture? context tag) workspace fun _ _ => True := by
  refine (KeepsIn.of_boundValue? context).bind ?_
  intro value bound _ _
  split
  · exact KeepsIn.of_pure trivial
  · split
    · refine (KeepsIn.of_note _ _).bind ?_
      intro _ noted _ _
      exact KeepsIn.of_pure trivial
    · split
      · exact KeepsIn.of_pure trivial
      · refine (KeepsIn.of_note _ _).bind ?_
        intro _ noted _ _
        exact KeepsIn.of_pure trivial

theorem keepsIn_storePicture (services : context.services.Idle) (picture : Picture)
    (bytes : List UInt8) :
    shelter.KeepsIn (storePicture context tag picture bytes) workspace fun _ _ => True := by
  refine (KeepsIn.of_idles fun _ _ done => services.addMedia done).bind ?_
  intro path stored _ _
  refine (KeepsIn.of_idles fun _ _ done => services.addRelationship done).bind ?_
  intro relationshipId related _ _
  refine KeepsIn.of_get fun _ => ?_
  split
  · exact KeepsIn.of_throw
  · refine (KeepsIn.of_note _ _).bind ?_
    intro _ noted _ _
    exact KeepsIn.of_pure trivial

theorem keepsIn_replaceByPicture (services : context.services.Idle)
    (textOpen : shelter.Open workspace.document tag.textNode) :
    shelter.KeepsIn (replaceByPicture context tag) workspace fun _ _ => True := by
  refine (keepsIn_boundPicture? context tag).bind ?_
  intro bound started toStarted _
  have textOpen := toStarted.isOpen textOpen
  refine KeepsIn.of_get fun holds => ?_
  have carrierInZone := (holds.open_textUnit textOpen).inZone
  dsimp only
  split
  · exact KeepsIn.of_edit (Edit.keeps_detach carrierInZone)
  · refine (KeepsIn.of_note _ _).bind ?_
    intro _ noted _ _
    exact KeepsIn.of_edit (Edit.keeps_detach carrierInZone)
  · refine (keepsIn_storePicture services _ _).bind ?_
    intro tree stored _ _
    refine (KeepsIn.of_edit (Edit.keeps_plant tree)).bind ?_
    intro drawing planted _ drawingOpen
    refine (KeepsIn.of_edit (Edit.keeps_insertBefore drawingOpen carrierInZone)).bind ?_
    intro _ placed _ _
    exact KeepsIn.of_edit (Edit.keeps_detach carrierInZone)

end Leaf

/-! ## Standard plugins -/

namespace Plugin

variable {plugin : Plugin} {style : HidingStyle} {context : Context}

theorem keepsIn_replaceLeaf {tag : Tag} (isStandard : plugin ∈ standard style)
    (services : context.services.Idle)
    (textOpen : shelter.Open workspace.document tag.textNode) :
    shelter.KeepsIn (plugin.replaceLeaf context tag) workspace fun _ _ => True := by
  simp only [standard, List.mem_cons, List.not_mem_nil, or_false] at isStandard
  rcases isStandard with rfl | rfl | rfl | rfl | rfl | rfl | rfl
  · exact Leaf.keepsIn_replaceByText textOpen
  · exact Leaf.keepsIn_replaceByMarkup textOpen
  · exact Leaf.keepsIn_replaceByLink services textOpen
  · exact Leaf.keepsIn_replaceByPicture services textOpen
  · exact KeepsIn.of_pure trivial
  · exact KeepsIn.of_pure trivial
  · exact KeepsIn.of_pure trivial

theorem keepsIn_replaceRegion {region : Region} {compile : RegionCompiler region}
    (isStandard : plugin ∈ standard style) (keeps : shelter.KeepsTags compile)
    (opensIn : shelter.Open workspace.document region.openingTag.textNode)
    (closesIn : shelter.Open workspace.document region.closingTag.textNode) :
    shelter.KeepsIn (plugin.replaceRegion context region compile) workspace fun _ _ => True := by
  simp only [standard, List.mem_cons, List.not_mem_nil, or_false] at isStandard
  rcases isStandard with rfl | rfl | rfl | rfl | rfl | rfl | rfl
  · exact KeepsIn.of_pure trivial
  · exact KeepsIn.of_pure trivial
  · exact KeepsIn.of_pure trivial
  · exact KeepsIn.of_pure trivial
  · exact Loop.keepsIn_replaceRegion keeps opensIn closesIn
  · exact Loop.keepsIn_replaceRegion keeps opensIn closesIn
  · exact Section.keepsIn_replaceRegion keeps opensIn closesIn

end Plugin

end WordTemplate
