import WordTemplate.Proofs.Leaf.Link
import WordTemplate.Proofs.Operations
import WordTemplate.Proofs.Total.Steps
import WordTemplate.Proofs.Word.Ensuring
import WordTemplate.Proofs.Word.Parting
import WordTemplate.Proofs.Word.TextNode

/-!
# A hyperlink splits its run

The run around a tag keeps what stands before the carrier of the tag, a new run of the same formatting
takes what stands behind it, and the hyperlink stands between the two. What is left empty is swept
away with the other empty runs beside it, and everything else stays.
-/

namespace WordTemplate.Leaf

open Outcome Document Edit

variable {document before middle after : Document}
  {outer run unit tail hyperlink id child : NodeId}
  {left right leading trailing tails : List NodeId} {relationshipId text : String}

/-! ## Splitting the run -/

/-- A node is a new run of the formatting of another one that has taken over some of its children. -/
structure TailOf (before after : Document) (run : NodeId) (trailing : List NodeId) (tail : NodeId) :
    Prop where
  isNew : before.size ≤ tail.index
  content_eq : after.content tail = before.content run
  children_eq : ∃ copies, after.children tail = copies ++ trailing ∧
    copies.map after.tree =
      (before.childNamed? run Word.Name.runProperties).toList.map before.tree

/-- A run was split behind one of its children. -/
structure SplitBehind (before after : Document) (outer run unit : NodeId)
    (left leading trailing right tails : List NodeId) : Prop extends
    Rewires (fun id => id = outer ∨ id = run) (· ∈ trailing) before after where
  root_eq : after.root = before.root
  siblings_eq : after.children outer = left ++ run :: (tails ++ right)
  children_eq_run : after.children run = leading ++ [unit]
  tails_eq : trailing = [] ∧ tails = [] ∨
    trailing ≠ [] ∧ ∃ tail, tails = [tail] ∧ TailOf before after run trailing tail

/-- A run can be split behind any of its children. -/
theorem exists_splitBehind (wellFormed : document.WellFormed)
    (siblings : document.children outer = left ++ run :: right)
    (children : document.children run = leading ++ unit :: trailing) :
    Succeeds (splitRunAfter run unit) document fun _ after =>
      ∃ tails, SplitBehind document after outer run unit left leading trailing right tails := by
  have isOuter : document.parent run = some outer := by
    rw [← wellFormed.mem_children_iff, siblings]
    simp
  have nodup := wellFormed.nodup_children run
  rw [children, List.nodup_append] at nodup
  have behind : ((document.children run).dropWhile (· != unit)).drop 1 = trailing := by
    have notBefore : ∀ id ∈ leading, (id != unit) = true := fun id isBefore => by
      simpa using nodup.2.2 id isBefore unit List.mem_cons_self
    rw [children, List.dropWhile_append_of_pos notBefore]
    simp
  rw [splitRunAfter_eq]
  refine Succeeds.of_get ?_
  rw [behind]
  rcases isTrailing : trailing with _ | ⟨first, others⟩
  · subst isTrailing
    exact Succeeds.of_pure ⟨[], .refl wellFormed, rfl, siblings, children, Or.inl ⟨rfl, rfl⟩⟩
  rw [← isTrailing]
  have nonempty : trailing ≠ [] := by simp [isTrailing]
  have movedParent : ∀ id ∈ trailing, document.parent id = some run := fun id isTrailing => by
    rw [← wellFormed.mem_children_iff, children]
    exact List.mem_append_right _ (List.mem_cons_of_mem _ isTrailing)
  have sources : ∀ source ∈ (document.childNamed? run Word.Name.runProperties).toList,
      document.parent source = some run ∧ document.isProperties source = true := by
    intro source isSource
    rcases parent_of_childNamed? wellFormed (Option.mem_toList.mp isSource) with ⟨isParent, named⟩
    exact ⟨isParent, by rw [isProperties_of_isNamed named]; decide⟩
  have run_lt := lt_size_of_parent isOuter
  have outer_lt := parent_lt_size wellFormed isOuter
  have beyond : document.size ≤ document.nextId.index := Nat.le_refl _
  rcases exists_copies_of_copyEach wellFormed (wellFormed.add (document.content run))
    (retains_add document _) beyond (nextId_lt_size_add document _) (by simp)
    (fun source isSource => lt_size_of_parent (sources source isSource).1) with
    ⟨copied, copies, pairs, copiesDone, copying⟩
  rcases exists_placed_half copying wellFormed isOuter (List.nodup_cons.mp nodup.2.1).2 movedParent
    with ⟨gathered, final, left', rest, gatherDone, insertDone, gathers, moves⟩
  have inStore : ∀ id ∈ trailing, id.index < document.size := fun id isTrailing =>
    lt_size_of_parent (movedParent id isTrailing)
  rcases halves_of_copied wellFormed document.closed_everywhere
    (show document.children run = (leading ++ [unit]) ++ trailing by simp [children]) run_lt trivial
    (fun _ _ => trivial) sources copiesDone gatherDone insertDone with ⟨halves, changes⟩
  refine ⟨⟨⟩, final, ?_, [document.nextId], ⟨halves.wellFormed, changes.size_le, halves.content_eq,
    fun id isOld apart => ?_, halves.parent_eq⟩, changes.root_eq, ?_, halves.children_kept,
    Or.inr ⟨nonempty, _, rfl, halves.right_new, halves.right_content, copies,
      children_half copying gathers moves inStore outer_lt,
      trees_of_copying copying gathers moves inStore wellFormed outer_lt movedParent run_lt⟩⟩
  · simp only [isTrailing, bind_eq_ok, copyNode_eq_ok]
    exact ⟨_, _, ⟨rfl, rfl⟩, ⟨⟩, copied, copiesDone, ⟨⟩, gathered, isTrailing ▸ gatherDone, insertDone⟩
  · rw [not_or] at apart
    refine halves.children_eq id isOld apart.2 fun isParent => apart.1 ?_
    rw [isOuter, Option.some.injEq] at isParent
    exact isParent.symm
  · rcases halves.beside with ⟨outer', before, behind, isOuter', -, -, siblings', siblings''⟩
    rw [isOuter, Option.some.injEq] at isOuter'
    subst isOuter'
    have nodup := wellFormed.nodup_children outer
    rw [siblings] at nodup siblings'
    rcases append_cons_inj nodup siblings' with ⟨rfl, rfl⟩
    exact siblings''

/-! ## Building the hyperlink -/

/-- A run holds properties and a text element with a text. -/
structure ShowsText (document : Document) (text : String) (run shown : NodeId) : Prop where
  content_eq : document.content run = .element { name := Word.Name.run }
  parts : ∃ properties textElement, document.children run = [properties, textElement] ∧
    document.isNamed properties Word.Name.runProperties = true ∧
    document.content textElement =
      .element { name := Word.Name.text, attributes := [⟨Word.Name.space, "preserve"⟩] } ∧
    document.children textElement = [shown] ∧ document.content shown = .text text

/-- A hyperlink refers to a relationship and holds one run, which shows a text. -/
structure ShowsLink (document : Document) (relationshipId text : String) (hyperlink shown : NodeId) :
    Prop where
  content_eq : document.content hyperlink =
    .element { name := Word.Name.hyperlink, attributes := [⟨Word.Name.relationshipId, relationshipId⟩] }
  exists_run : ∃ run, document.children hyperlink = [run] ∧ ShowsText document text run shown

section Showing

variable {shown : NodeId} (wellFormed : before.WellFormed)
include wellFormed

theorem ShowsText.congr (shows : ShowsText before text run shown)
    (same : ∀ id, before.LiesIn run id →
      after.content id = before.content id ∧ after.children id = before.children id) :
    ShowsText after text run shown := by
  rcases shows with ⟨content_eq, properties, textElement, children, named, element, texts, isText⟩
  have below : ∀ child ∈ before.children run, before.LiesIn run child := fun child isChild =>
    LiesIn.parent ((wellFormed.mem_children_iff _ _).mp isChild)
  have propertiesBelow := below properties (by simp [children])
  have elementBelow := below textElement (by simp [children])
  have shownBelow : before.LiesIn run shown :=
    LiesIn.of_parent ((wellFormed.mem_children_iff textElement _).mp (by simp [texts])) elementBelow
  refine ⟨(same run .refl).1.trans content_eq, properties, textElement,
    (same run .refl).2.trans children, ?_, (same _ elementBelow).1.trans element,
    (same _ elementBelow).2.trans texts, (same _ shownBelow).1.trans isText⟩
  rw [← named]
  exact isNamed_of_content_eq (same _ propertiesBelow).1 _

theorem ShowsLink.congr (shows : ShowsLink before relationshipId text hyperlink shown)
    (same : ∀ id, before.LiesIn hyperlink id →
      after.content id = before.content id ∧ after.children id = before.children id) :
    ShowsLink after relationshipId text hyperlink shown := by
  rcases shows with ⟨content_eq, run, children, showsText⟩
  have isParent : before.parent run = some hyperlink := by
    rw [← wellFormed.mem_children_iff, children]
    exact List.mem_cons_self
  exact ⟨(same _ .refl).1.trans content_eq, run, (same _ .refl).2.trans children,
    showsText.congr wellFormed fun id inside => same id (inside.trans (LiesIn.parent isParent))⟩

/-- The text of a link is all the running text of its hyperlink. -/
theorem ShowsLink.runningTexts_eq (shows : ShowsLink before relationshipId text hyperlink shown) :
    before.runningTexts hyperlink = [shown] := by
  rcases shows with ⟨linkContent, run, linkChildren, runContent, properties, textElement,
    runChildren, named, element, texts, isText⟩
  have shownText : before.runningTexts shown = [shown] :=
    runningTexts_of_isText (by simp [isText, Document.isText, text?, Content.text?])
  have silent : before.runningTexts properties = [] := runningTexts_of_isNamed named (by decide)
  have shows : ∀ {id name attributes}, before.content id = .element { name, attributes } →
      "Pr".toList.isSuffixOf name.toList = false → before.showsChildren id = true := by
    intro id name attributes content ending
    simp only [showsChildren, Document.isText, text?, Content.text?, isProperties, name?, element?,
      Content.element?, content, Option.map_some, ending]
    rfl
  rw [runningTexts_of_showsChildren wellFormed (shows linkContent (by decide)), linkChildren,
    List.flatMap_singleton, runningTexts_of_showsChildren wellFormed (shows runContent (by decide)),
    runChildren, List.flatMap_cons, silent, List.nil_append, List.flatMap_singleton,
    runningTexts_of_showsChildren wellFormed (shows element (by decide)), texts,
    List.flatMap_singleton, shownText]

end Showing

/-- A new detached run that holds its properties and nothing else. -/
structure Begun (base document : Document) (run properties : NodeId) : Prop extends
    Fresh base document run where
  content_eq : document.content run = .element { name := Word.Name.run }
  children_eq : document.children run = [properties]
  named : document.isNamed properties Word.Name.runProperties = true

section Building

variable {base : Document} {run properties style : NodeId}

theorem succeeds_copyRunProperties (wellFormed : document.WellFormed) (source : NodeId) :
    Succeeds (copyRunProperties source) document fun properties after =>
      Fresh document after properties ∧
        after.isNamed properties Word.Name.runProperties = true := by
  refine Succeeds.of_get ?_
  rcases found : document.childNamed? source Word.Name.runProperties with _ | existing
  · refine ⟨_, _, rfl, fresh_add wellFormed _, ?_⟩
    simp [isNamed, name?, element?, content_add, Content.element?]
  · rcases parent_of_childNamed? wellFormed found with ⟨isParent, named⟩
    have inStore := lt_size_of_parent isParent
    have copied := copies_copySubtree wellFormed inStore
    have isTop : (existing, (document.copySubtree existing).2.root) ∈
        (document.copySubtree existing).2.pairs := by simpa using copied.tops
    refine ⟨_, _, rfl, fresh_of_copySubtree wellFormed inStore rfl, ?_⟩
    rw [← named]
    exact isNamed_of_content_eq (copied.content_eq _ isTop) _

/-- The run of a hyperlink begins with its properties. -/
theorem succeeds_begin (wellFormed : document.WellFormed) (source : NodeId) :
    Succeeds (do
      let run ← createElement Word.Name.run
      let properties ← copyRunProperties source
      appendChild run properties
      return (run, properties)) document fun made after => Begun document after made.1 made.2 := by
  have created := fresh_add wellFormed (.element { name := Word.Name.run })
  refine Succeeds.of_step rfl ?_
  refine (succeeds_copyRunProperties created.wellFormed source).bind ?_
  rintro properties formatted - ⟨isNew, named⟩
  have grown := created.adds isNew.toAdds
  have outside : ¬formatted.LiesIn properties document.nextId := fun inside =>
    created.ne_of_later isNew (inside.eq_of_parent_none grown.detached)
  rcases exists_moves_appendChild grown.wellFormed grown.inStore isNew.inStore outside with
    ⟨after, appendDone, moves⟩
  refine Succeeds.of_step appendDone (Succeeds.of_pure ⟨grown.moves (isNew.since created.toAdds)
    (created.ne_of_later isNew) moves grown.isNew, ?_, ?_, ?_⟩)
  · rw [moves.content_eq, isNew.toRetains.content_eq created.inStore, content_add, if_pos rfl]
  · rw [moves.children_eq, if_pos rfl, isNew.toRetains.children_eq created.inStore, children_add,
      children_nextId]
    rfl
  · rw [isNamed_of_content_eq (moves.content_eq properties), named]

namespace Begun

variable (begun : Begun base document run properties)
include begun

theorem properties_new (wellFormed : base.WellFormed) : base.size ≤ properties.index := by
  refine begun.toAdds.isNew_of_parent (fun _ _ => parent_lt_size wellFormed)
    ((begun.wellFormed.mem_children_iff run properties).mp ?_) begun.isNew
  rw [begun.children_eq]
  exact List.mem_cons_self

/-- The style of a hyperlink is set among the properties of its run. -/
theorem succeeds_style (wellFormed : base.WellFormed) :
    Succeeds (do
      let style ← ensureProperties properties Word.Name.runStyle []
      setAttribute style Word.Name.value "Hyperlink") document fun _ after =>
        Begun base after run properties := by
  have isParent : document.parent properties = some run := by
    rw [← begun.wellFormed.mem_children_iff, begun.children_eq]
    exact List.mem_cons_self
  have differ : run ≠ properties := (ne_of_parent begun.wellFormed isParent).symm
  refine (ensuresChild_ensureProperties properties _ [] document begun.wellFormed
    (lt_size_of_parent isParent)).bind ?_
  rintro style styled styleDone ensures
  rcases fresh_of_ensureProperties wellFormed begun.toFresh (begun.properties_new wellFormed)
    (lt_size_of_parent isParent) styleDone with ⟨fresh, styleNew⟩
  have notRun : run ≠ style ∧ styled.content run = document.content run ∧
      styled.children run = document.children run ∧
      styled.isNamed properties Word.Name.runProperties = true := by
    cases ensures with
    | found isThere =>
        refine ⟨?_, rfl, rfl, begun.named⟩
        rintro rfl
        have isChild := (parent_of_childNamed? begun.wellFormed isThere).1
        rw [begun.detached] at isChild
        cases isChild
    | placed lacked moves =>
        have old : ∀ {id : NodeId}, id.index < document.size → id ≠ document.nextId :=
          fun isOld => (nextId_ne isOld).symm
        refine ⟨old begun.inStore, ?_, ?_, ?_⟩
        · rw [moves.content_eq, content_add, if_neg (old begun.inStore)]
        · rw [moves.children_eq, if_neg differ, filter_children_of_parent_none
            (begun.wellFormed.add _) (by simp), children_add]
        · rw [isNamed_of_content_eq (moves.content_eq properties), ← begun.named]
          refine isNamed_of_content_eq ?_ _
          rw [content_add, if_neg (old (lt_size_of_parent isParent))]
  rcases notRun with ⟨notStyle, content_eq, children_eq, named⟩
  have same := (sameShape_setAttribute fresh.wellFormed style Word.Name.value "Hyperlink").1
  exact Succeeds.of_done rfl ⟨fresh.setAttribute styleNew _ _, by
    rw [content_setAttribute_of_ne notStyle, content_eq, begun.content_eq], by
    rw [same.children_eq, children_eq, begun.children_eq], by rw [same.isNamed_eq, named]⟩

/-- The text of a hyperlink comes behind the properties of its run. -/
theorem succeeds_text (text : String) :
    Succeeds (do
      let textElement ← plant (.node Word.Name.text [(Word.Name.space, "preserve")] [.text text])
      appendChild run textElement
      return run) document fun made after =>
        Fresh base after made ∧ ∃ shown, ShowsText after text made shown := by
  have planted := fresh_plant (.node Word.Name.text [(Word.Name.space, "preserve")] [.text text])
    begun.wellFormed
  have held := planted_plantAllBelow [.text text]
    (document.add (.element { name := Word.Name.text, attributes := [⟨Word.Name.space, "preserve"⟩] }))
    document.nextId (by simp [nextId])
  rcases held.children_eq with ⟨_, children, shown, _, rfl, ⟨shown_ge, -, isShown⟩, rfl⟩
  rw [size_add] at shown_ge
  rw [children_add, children_nextId, List.nil_append] at children
  have grown := begun.toFresh.adds planted.toAdds
  have notElement : document.nextId ≠ run := (begun.toFresh.ne_of_later planted).symm
  have outside : ¬(document.plant _).LiesIn document.nextId run := fun inside =>
    notElement (inside.eq_of_parent_none grown.detached).symm
  rcases exists_moves_appendChild grown.wellFormed grown.inStore planted.inStore outside with
    ⟨after, appendDone, moves⟩
  refine Succeeds.of_step rfl (Succeeds.of_step appendDone (Succeeds.of_pure
    ⟨grown.moves (planted.since begun.toAdds) (begun.toFresh.ne_of_later planted) moves begun.isNew,
      shown, ?_, properties, document.nextId, ?_, ?_, ?_, ?_, ?_⟩))
  · rw [moves.content_eq, planted.toRetains.content_eq begun.inStore, begun.content_eq]
  · rw [moves.children_eq, if_pos rfl, filter_children_of_parent_none grown.wellFormed
      planted.detached, planted.toRetains.children_eq begun.inStore, begun.children_eq]
    rfl
  · rw [isNamed_of_content_eq (moves.content_eq properties), ← begun.named]
    refine isNamed_of_content_eq (planted.toRetains.content_eq (lt_size_of_isNamed begun.named)) _
  · rw [moves.content_eq]
    refine held.content_eq.trans ?_
    rw [content_add, if_pos rfl]
  · rw [moves.children_eq, if_neg notElement, filter_children_of_parent_none grown.wellFormed
      planted.detached]
    exact children
  · rw [moves.content_eq]
    exact isShown

end Begun

/-- The run of a hyperlink can always be built. -/
theorem succeeds_createLinkRun (wellFormed : document.WellFormed) (source : NodeId) (text : String) :
    Succeeds (createLinkRun source text) document fun made after =>
      Fresh document after made ∧ ∃ shown, ShowsText after text made shown := by
  rw [createLinkRun_eq]
  rcases succeeds_begin wellFormed source with ⟨⟨run, properties⟩, started, beginDone, begun⟩
  rcases begun.succeeds_style wellFormed with ⟨⟨⟩, styled, styleDone, begun⟩
  rcases begun.succeeds_text text with ⟨made, after, textDone, built⟩
  refine ⟨made, after, ?_, built⟩
  simp only [bind_eq_ok, pure_eq_ok, Prod.mk.injEq] at beginDone styleDone textDone
  rcases beginDone with ⟨_, _, createDone, _, _, formatDone, _, _, attachDone, ⟨rfl, rfl⟩, rfl⟩
  rcases styleDone with ⟨_, _, ensureDone, setDone⟩
  simp only [bind_eq_ok, pure_eq_ok]
  exact ⟨_, _, createDone, _, _, formatDone, _, _, attachDone, _, _, ensureDone, _, _, setDone,
    textDone⟩

/-- Adds a detached hyperlink to a relationship, formatted like `source`. -/
def createHyperlink (source : NodeId) (relationshipId text : String) : Edit NodeId := do
  let hyperlink ← createElement Word.Name.hyperlink
  setAttribute hyperlink Word.Name.relationshipId relationshipId
  let linkRun ← createLinkRun source text
  appendChild hyperlink linkRun
  return hyperlink

theorem succeeds_createHyperlink (wellFormed : document.WellFormed) (source : NodeId)
    (relationshipId text : String) :
    Succeeds (createHyperlink source relationshipId text) document fun made after =>
      Fresh document after made ∧ ∃ shown, ShowsLink after relationshipId text made shown := by
  have created := fresh_add wellFormed (.element { name := Word.Name.hyperlink })
  have link := created.setAttribute created.isNew Word.Name.relationshipId relationshipId
  refine Succeeds.of_step rfl (Succeeds.of_step rfl ?_)
  refine (succeeds_createLinkRun link.wellFormed source text).bind ?_
  rintro run formatted - ⟨built, shown, shows⟩
  have grown := link.adds built.toAdds
  have notRun := link.ne_of_later built
  have outside : ¬formatted.LiesIn run document.nextId := fun inside =>
    notRun (inside.eq_of_parent_none grown.detached)
  rcases exists_moves_appendChild grown.wellFormed grown.inStore built.inStore outside with
    ⟨after, appendDone, moves⟩
  have isLink : (document.add (.element { name := Word.Name.hyperlink })).content document.nextId =
      .element { name := Word.Name.hyperlink } := by
    rw [content_add, if_pos rfl]
  have childless := (sameShape_setAttribute created.wellFormed document.nextId
    Word.Name.relationshipId relationshipId).1.children_eq document.nextId
  rw [children_add, children_nextId] at childless
  refine Succeeds.of_step appendDone (Succeeds.of_pure ⟨grown.moves (built.since link.toAdds) notRun
    moves grown.isNew, shown, ?_, run, ?_, ?_⟩)
  · rw [moves.content_eq, built.toRetains.content_eq link.inStore]
    exact content_setAttribute isLink _ _
  · rw [moves.children_eq, if_pos rfl, filter_children_of_parent_none grown.wellFormed
      built.detached, built.toRetains.children_eq link.inStore, childless, List.nil_append]
  · refine shows.congr grown.wellFormed fun id inside => ⟨moves.content_eq id, ?_⟩
    have notLink : id ≠ document.nextId := fun same => outside (same ▸ inside)
    rw [moves.children_eq, if_neg notLink,
      filter_children_of_parent_none grown.wellFormed built.detached]

end Building

/-! ## The run and its hyperlink -/

/-- Whether nodes are all properties of runs. A run of such nodes is empty. -/
def onlyProperties (document : Document) (ids : List NodeId) : Bool :=
  ids.all (document.isNamed · Word.Name.runProperties)

theorem isEmptyRun_of_isNamed (named : document.isNamed id Word.Name.run = true) :
    document.isEmptyRun id = onlyProperties document (document.children id) := by
  rw [isEmptyRun, named, Bool.true_and, onlyProperties]

theorem onlyProperties_congr {ids : List NodeId}
    (same : ∀ id ∈ ids, after.content id = before.content id) :
    onlyProperties after ids = onlyProperties before ids := by
  rw [onlyProperties, onlyProperties, Bool.eq_iff_iff, List.all_eq_true, List.all_eq_true]
  exact forall₂_congr fun id isMember => by rw [isNamed_of_content_eq (same id isMember)]

theorem runningTexts_of_onlyProperties {ids : List NodeId}
    (holds : onlyProperties document ids = true) : ids.flatMap document.runningTexts = [] :=
  List.flatMap_eq_nil_iff.mpr fun id isMember =>
    runningTexts_of_isNamed (List.all_eq_true.mp holds id isMember) (by decide)

namespace TailOf

variable (isTail : TailOf before middle run trailing tail)
include isTail

/-- A tail stays while the child lists in it do. -/
theorem rewires {part moved : NodeId → Prop} (rewires : Rewires part moved middle after)
    (wellFormed : middle.WellFormed) (inStore : tail.index < middle.size)
    (untouched : ∀ id, middle.LiesIn tail id → ¬part id) : TailOf before after run trailing tail := by
  rcases isTail.children_eq with ⟨copies, children, trees⟩
  refine ⟨isTail.isNew, (rewires.content_eq _ inStore).trans isTail.content_eq, copies,
    (rewires.children_eq _ inStore (untouched _ .refl)).trans children, ?_⟩
  rw [← trees]
  refine List.map_congr_left fun copy isCopy => ?_
  have isParent : middle.parent copy = some tail := by
    rw [← wellFormed.mem_children_iff, children]
    exact List.mem_append_left _ isCopy
  exact rewires.tree_eq wellFormed (lt_size_of_parent isParent) fun id inside =>
    untouched id (inside.trans (LiesIn.parent isParent))

/-- The children that a tail has not taken over are properties. -/
theorem exists_copies : ∃ copies, middle.children tail = copies ++ trailing ∧
    onlyProperties middle copies = true := by
  rcases isTail.children_eq with ⟨copies, children, trees⟩
  refine ⟨copies, children, List.all_eq_true.mpr fun copy isCopy => ?_⟩
  have isTree := List.mem_map_of_mem (f := middle.tree) isCopy
  rw [trees, List.mem_map] at isTree
  rcases isTree with ⟨source, isSource, sameTree⟩
  have found : (before.children run).find? (before.isNamed · Word.Name.runProperties) =
      some source := Option.mem_toList.mp isSource
  rw [← isNamed_tree, ← sameTree, isNamed_tree]
  simpa using List.find?_some found

theorem isNamed (named : before.isNamed run Word.Name.run = true) :
    middle.isNamed tail Word.Name.run = true :=
  (isNamed_of_content_eq isTail.content_eq _).trans named

theorem isEmptyRun_eq (named : before.isNamed run Word.Name.run = true)
    (same : ∀ id ∈ trailing, middle.content id = before.content id) :
    middle.isEmptyRun tail = onlyProperties before trailing := by
  rcases isTail.exists_copies with ⟨copies, children, copied⟩
  rw [isEmptyRun_of_isNamed (isTail.isNamed named), children, ← onlyProperties_congr same]
  rw [onlyProperties] at copied ⊢
  rw [List.all_append, copied, Bool.true_and, onlyProperties]

end TailOf

/-- The hyperlink stands behind the run, and the child that it replaces is gone. -/
structure LinkBehind (before after : Document) (outer run unit : NodeId)
    (left leading trailing right tails : List NodeId) (relationshipId text : String)
    (hyperlink shown : NodeId) : Prop extends
    Rewires (fun id => id = outer ∨ id = run) (fun id => id = unit ∨ id ∈ trailing) before after where
  root_eq : after.root = before.root
  siblings_eq : after.children outer = left ++ run :: hyperlink :: (tails ++ right)
  children_eq_run : after.children run = leading
  tails_eq : trailing = [] ∧ tails = [] ∨
    trailing ≠ [] ∧ ∃ tail, tails = [tail] ∧ TailOf before after run trailing tail
  isNew : before.size ≤ hyperlink.index
  link : ShowsLink after relationshipId text hyperlink shown

namespace SplitBehind

variable (split : SplitBehind before middle outer run unit left leading trailing right tails)
include split

theorem parent_run : middle.parent run = some outer := by
  rw [← split.wellFormed.mem_children_iff, split.siblings_eq]
  simp

theorem parent_unit : middle.parent unit = some run := by
  rw [← split.wellFormed.mem_children_iff, split.children_eq_run]
  simp

/-- Neither the run nor the node around it lies in the tail. -/
theorem apart_of_tail (isTail : tail ∈ tails) (inside : middle.LiesIn tail id) :
    ¬(id = outer ∨ id = run) := by
  have isParent : middle.parent tail = some outer := by
    rw [← split.wellFormed.mem_children_iff, split.siblings_eq]
    simp [isTail]
  have nodup := split.wellFormed.nodup_children outer
  rw [split.siblings_eq, List.nodup_append] at nodup
  have differ : tail ≠ run := by
    rintro rfl
    exact (List.nodup_cons.mp nodup.2.1).1 (List.mem_append_left _ isTail)
  rintro (rfl | rfl)
  · exact not_liesIn_of_parent split.wellFormed isParent inside
  · exact not_liesIn_of_siblings split.wellFormed isParent split.parent_run differ inside .refl

theorem succeeds_placeLink (relationshipId text : String) :
    Succeeds (do
      let hyperlink ← createHyperlink run relationshipId text
      insertAfter hyperlink run
      detach unit) middle fun _ after => ∃ hyperlink shown, LinkBehind before after outer run unit
        left leading trailing right tails relationshipId text hyperlink shown := by
  have middleFormed := split.wellFormed
  have run_lt := lt_size_of_parent split.parent_run
  have unit_lt := lt_size_of_parent split.parent_unit
  have differ := ne_of_parent middleFormed split.parent_run
  refine (succeeds_createHyperlink middleFormed run relationshipId text).bind ?_
  rintro hyperlink built - ⟨fresh, shown, shows⟩
  have notOld : ∀ {id : NodeId}, id.index < middle.size → ¬built.LiesIn hyperlink id :=
    fun isOld inside => Nat.not_lt_of_le fresh.isNew
      (fresh.toRetains.lt_size_of_liesIn middleFormed inside isOld)
  rcases fresh.exists_placed_insertAfter middleFormed split.siblings_eq with ⟨held, insertDone, placed⟩
  have drops := drops_detach placed.wellFormed unit
  have isParent : held.parent unit = some run := by
    rw [placed.parent_eq unit unit_lt not_false, split.parent_unit]
  have notUnit : ∀ {id : NodeId}, id ≠ run →
      (held.detach unit).children id = held.children id := fun notRun =>
    drops.children_of_not_parent placed.wellFormed fun child isUnit isChild => by
      rw [List.mem_singleton.mp isUnit, isParent, Option.some.injEq] at isChild
      exact notRun isChild.symm
  have rewires : Rewires (fun id => id = outer ∨ id = run) (· = unit) middle (held.detach unit) := by
    refine placed.toRewires.trans (drops.rewires placed.wellFormed) (fun _ => Or.inl)
      (fun _ => False.elim) (fun id _ isPart => ?_) fun id _ => List.mem_singleton.mp
    rcases isPart with ⟨child, isUnit, isChild⟩
    rw [List.mem_singleton.mp isUnit, isParent, Option.some.injEq] at isChild
    exact Or.inr isChild.symm
  have nodupRun := middleFormed.nodup_children run
  rw [split.children_eq_run, List.nodup_append] at nodupRun
  refine Succeeds.of_step insertDone (Succeeds.of_done rfl ⟨hyperlink, shown,
    split.toRewires.trans rewires (fun _ => id) (fun _ => Or.inr) (fun _ _ => id)
      (fun _ _ => Or.inl), ?_, ?_, ?_, ?_, Nat.le_trans split.size_le fresh.isNew, ?_⟩)
  · rw [drops.root_eq, placed.root_eq, split.root_eq]
  · rw [notUnit differ.symm, placed.children_outer, List.append_assoc, List.singleton_append]
  · rw [drops.children_eq, placed.children_eq run run_lt differ, split.children_eq_run,
      List.filter_append, List.filter_cons_of_neg (by simp), List.filter_nil, List.append_nil]
    refine List.filter_eq_self.mpr fun id isBefore => ?_
    simpa using nodupRun.2.2 id isBefore unit List.mem_cons_self
  · refine split.tails_eq.imp_right fun ⟨nonempty, tail, isTails, isTail⟩ =>
      ⟨nonempty, tail, isTails, isTail.rewires rewires middleFormed ?_ fun id =>
        split.apart_of_tail (isTails ▸ List.mem_cons_self)⟩
    have isChild : tail ∈ middle.children outer := by
      rw [split.siblings_eq, isTails]
      simp
    exact lt_size_of_mem_children middleFormed isChild
  · refine shows.congr fresh.wellFormed fun id inside => ?_
    have isNew : middle.size ≤ id.index := Nat.le_of_not_lt fun isOld => notOld isOld inside
    have notRun : id ≠ run := fun same => notOld run_lt (same ▸ inside)
    rw [drops.content_eq, notUnit notRun]
    exact ⟨placed.content_new id isNew, placed.children_new id isNew⟩

end SplitBehind

/-- What stands where a run stood that was split around a hyperlink: runs of nothing but properties
are gone, also beside the run. -/
def linkedSiblings (before : Document) (run hyperlink tail : NodeId)
    (left leading trailing right : List NodeId) : List NodeId :=
  left.filter (!before.isEmptyRun ·) ++ (if onlyProperties before leading then [] else [run]) ++
    hyperlink :: ((if onlyProperties before trailing then [] else [tail]) ++
      right.filter (!before.isEmptyRun ·))

/-- A hyperlink has taken the place of a child of a run. What stood before the child stays in the
run, and what stood behind it is in a tail of the run. -/
structure Linked (before after : Document) (outer run unit : NodeId)
    (left leading trailing right : List NodeId) (relationshipId text : String)
    (hyperlink shown tail : NodeId) : Prop extends
    Rewires (fun id => id = outer ∨ id = run)
      (fun id => id = unit ∨ id ∈ trailing ∨ before.parent id = some outer) before after where
  root_eq : after.root = before.root
  siblings_eq : after.children outer =
    linkedSiblings before run hyperlink tail left leading trailing right
  leading_eq : after.children run = leading
  isTail : onlyProperties before trailing = false → TailOf before after run trailing tail
  isNew : before.size ≤ hyperlink.index
  link : ShowsLink after relationshipId text hyperlink shown

namespace LinkBehind

variable {shown : NodeId} (behind : LinkBehind before middle outer run unit left leading trailing right
    tails relationshipId text hyperlink shown)

section Sweeping

variable (wellFormed : before.WellFormed) (siblings : before.children outer = left ++ run :: right)
  (children : before.children run = leading ++ unit :: trailing)
  (named : before.isNamed run Word.Name.run = true)
include behind wellFormed siblings

theorem isEmptyRun_beside (isBeside : id ∈ left ++ right) :
    middle.isEmptyRun id = before.isEmptyRun id := by
  have nodup := wellFormed.nodup_children outer
  rw [siblings, List.nodup_middle, List.nodup_cons] at nodup
  have isChild : before.parent id = some outer := by
    rw [← wellFormed.mem_children_iff, siblings]
    exact List.perm_middle.mem_iff.mpr (List.mem_cons_of_mem _ isBeside)
  have isOld := lt_size_of_parent isChild
  refine isEmptyRun_congr (behind.content_eq _ isOld) (behind.children_eq _ isOld ?_)
    fun child isBelow => behind.content_eq _ (lt_size_of_mem_children wellFormed isBelow)
  rintro (rfl | rfl)
  · exact ne_of_parent wellFormed isChild rfl
  · exact nodup.1 isBeside

omit siblings in
include children named in
theorem isEmptyRun_run : middle.isEmptyRun run = onlyProperties before leading := by
  rw [isEmptyRun_of_isNamed ((behind.isNamed_eq (lt_size_of_isNamed named) _).trans named),
    behind.children_eq_run]
  refine onlyProperties_congr fun id isMember => behind.content_eq _ ?_
  refine lt_size_of_mem_children wellFormed (children ▸ List.mem_append_left _ isMember)

omit wellFormed siblings in
theorem isEmptyRun_link : middle.isEmptyRun hyperlink = false := by
  simp [isEmptyRun, isNamed, name?, element?, Content.element?, behind.link.content_eq,
    Word.Name.run, Word.Name.hyperlink]

include children named in
/-- The sweep leaves the runs that hold more than properties. -/
theorem exists_swept : ∃ tail, (middle.children outer).filter (!middle.isEmptyRun ·) =
      linkedSiblings before run hyperlink tail left leading trailing right ∧
    (onlyProperties before trailing = false → TailOf before middle run trailing tail) := by
  have beside : ∀ ids ⊆ left ++ right, ids.filter (!middle.isEmptyRun ·) =
      ids.filter (!before.isEmptyRun ·) := fun ids subset =>
    List.filter_congr fun id isMember => by
      rw [behind.isEmptyRun_beside wellFormed siblings (subset isMember)]
  have ofRun := behind.isEmptyRun_run wellFormed children named
  have isTails : ∃ tail, tails.filter (!middle.isEmptyRun ·) =
        (if onlyProperties before trailing then [] else [tail]) ∧
      (onlyProperties before trailing = false → TailOf before middle run trailing tail) := by
    rcases behind.tails_eq with ⟨rfl, rfl⟩ | ⟨-, tail, rfl, isTail⟩
    · exact ⟨run, rfl, by simp [onlyProperties]⟩
    · have isEmpty := isTail.isEmptyRun_eq named fun id isMember => behind.content_eq id <|
        lt_size_of_mem_children wellFormed (children ▸ List.mem_append_right _
          (List.mem_cons_of_mem _ isMember))
      refine ⟨tail, ?_, fun _ => isTail⟩
      rw [List.filter_singleton, isEmpty]
      cases onlyProperties before trailing <;> rfl
  rcases isTails with ⟨tail, isTails, isTail⟩
  refine ⟨tail, ?_, isTail⟩
  rw [behind.siblings_eq, List.filter_append, beside left (List.subset_append_left _ _),
    List.filter_cons, ofRun, List.filter_cons, behind.isEmptyRun_link, List.filter_append, isTails,
    beside right (List.subset_append_right _ _), linkedSiblings]
  cases onlyProperties before leading <;> simp

include children named in
/-- Sweeping the empty runs around the run leaves it linked. -/
theorem succeeds_sweep : Succeeds (removeEmptyRuns outer) middle fun _ after => ∃ tail,
    Linked before after outer run unit left leading trailing right relationshipId text hyperlink
      shown tail := by
  have middleFormed := behind.wellFormed
  rcases behind.exists_swept wellFormed siblings children named with ⟨tail, swept, isTail⟩
  rcases exists_drops middleFormed ((middle.children outer).filter middle.isEmptyRun) with
    ⟨after, done, drops⟩
  have isParent : ∀ id ∈ middle.children outer, middle.parent id = some outer := fun id =>
    (middleFormed.mem_children_iff _ _).mp
  have isRun := isParent run (by simp [behind.siblings_eq])
  have isLink := isParent hyperlink (by simp [behind.siblings_eq])
  have notOuter : ∀ {child id : NodeId}, middle.parent child = some outer →
      middle.LiesIn child id → id ≠ outer := fun isParent inside same =>
    not_liesIn_of_parent middleFormed isParent (same ▸ inside)
  have rewires : Rewires (· = outer) (middle.parent · = some outer) middle after := by
    refine (drops.rewires middleFormed).mono (fun id isPart => ?_) fun id isMember =>
      isParent id (List.mem_filter.mp isMember).1
    rcases isPart with ⟨child, isMember, isChild⟩
    rw [isParent child (List.mem_filter.mp isMember).1, Option.some.injEq] at isChild
    exact isChild.symm
  have siblings_eq :
      after.children outer = linkedSiblings before run hyperlink tail left leading trailing right := by
    rw [drops.children_eq, ← swept]
    exact List.filter_congr fun id isMember => by simp [isMember]
  refine ⟨⟨⟩, after, done, tail, behind.toRewires.trans rewires (fun _ => id)
    (fun _ => Or.imp_right Or.inl) (fun _ _ => Or.inl) (fun id isOld isMoved => ?_),
    drops.root_eq.trans behind.root_eq, siblings_eq, ?_, fun holdsMore => ?_, behind.isNew, ?_⟩
  · by_cases wasMoved : id = unit ∨ id ∈ trailing
    · exact wasMoved.imp_right Or.inl
    · rw [← behind.parent_eq id isOld wasMoved]
      exact Or.inr (Or.inr isMoved)
  · rw [rewires.children_eq run (lt_size_of_parent isRun) (notOuter isRun .refl),
      behind.children_eq_run]
  · have isChild : middle.parent tail = some outer := by
      refine isParent tail (List.mem_of_mem_filter (p := (!middle.isEmptyRun ·)) ?_)
      rw [swept]
      simp [linkedSiblings, holdsMore]
    exact (isTail holdsMore).rewires rewires middleFormed (lt_size_of_parent isChild)
      fun id => notOuter isChild
  · exact behind.link.congr middleFormed fun id inside => ⟨drops.content_eq id,
      rewires.children_eq id (lt_size_below inside (lt_size_of_parent isLink))
        (notOuter isLink inside)⟩

end Sweeping

end LinkBehind

namespace Linked

variable {shown : NodeId} (linked : Linked before after outer run unit left leading trailing right
    relationshipId text hyperlink shown tail) (wellFormed : before.WellFormed)
  (siblings : before.children outer = left ++ run :: right)
  (children : before.children run = leading ++ unit :: trailing)
include linked wellFormed siblings children

/-- What stands above the run stays there. -/
theorem above_iff : after.LiesIn id outer ↔ before.LiesIn id outer := by
  have isRun : before.parent run = some outer := by
    rw [← wellFormed.mem_children_iff, siblings]
    simp
  refine linked.liesIn_iff wellFormed (parent_lt_size wellFormed isRun) fun other above isMoved => ?_
  have below : before.parent other = some run ∨ before.parent other = some outer := by
    rw [← wellFormed.mem_children_iff, ← wellFormed.mem_children_iff, children]
    rcases isMoved with rfl | isTrailing | isSibling
    · exact Or.inl (by simp)
    · exact Or.inl (by simp [isTrailing])
    · exact Or.inr ((wellFormed.mem_children_iff _ _).mpr isSibling)
  rcases below with isChild | isChild
  · exact not_liesIn_of_parent wellFormed isChild ((LiesIn.parent isRun).trans above)
  · exact not_liesIn_of_parent wellFormed isChild above

omit linked in
/-- Neither the run nor the node around it lies in a child of the run or beside the run. -/
theorem apart (isMember : id ∈ leading ++ trailing ∨ id ∈ left ++ right)
    (inside : before.LiesIn id child) : ¬(child = outer ∨ child = run) := by
  have isRun : before.parent run = some outer := by
    rw [← wellFormed.mem_children_iff, siblings]
    simp
  rcases isMember with isMember | isBeside
  · have isChild : before.parent id = some run := by
      rw [← wellFormed.mem_children_iff, children]
      exact List.perm_middle.mem_iff.mpr (List.mem_cons_of_mem _ isMember)
    rintro (rfl | rfl)
    · exact not_liesIn_of_parent wellFormed isChild ((LiesIn.parent isRun).trans inside)
    · exact not_liesIn_of_parent wellFormed isChild inside
  · have nodup := wellFormed.nodup_children outer
    rw [siblings, List.nodup_middle, List.nodup_cons] at nodup
    have isChild : before.parent id = some outer := by
      rw [← wellFormed.mem_children_iff, siblings]
      exact List.perm_middle.mem_iff.mpr (List.mem_cons_of_mem _ isBeside)
    rintro (rfl | rfl)
    · exact not_liesIn_of_parent wellFormed isChild inside
    · exact not_liesIn_of_siblings wellFormed isChild isRun (fun same => nodup.1 (same ▸ isBeside))
        inside .refl

omit linked in
theorem isOld (isMember : id ∈ leading ++ trailing ∨ id ∈ left ++ right) :
    id.index < before.size := by
  rcases isMember with isMember | isBeside
  · refine lt_size_of_mem_children wellFormed (children ▸ List.perm_middle.mem_iff.mpr ?_)
    exact List.mem_cons_of_mem _ isMember
  · refine lt_size_of_mem_children wellFormed (siblings ▸ List.perm_middle.mem_iff.mpr ?_)
    exact List.mem_cons_of_mem _ isBeside

/-- Every child of the run besides the one that is replaced and its properties is still there. -/
theorem keeps (isMember : id ∈ leading ++ trailing)
    (notProperties : before.isNamed id Word.Name.runProperties = false) :
    after.LiesIn outer id ∧ after.tree id = before.tree id := by
  have holdsMore : ∀ {ids : List NodeId}, id ∈ ids → onlyProperties before ids = false :=
    fun isMember => List.all_eq_false.mpr ⟨id, isMember, by simp [notProperties]⟩
  refine ⟨?_, linked.tree_eq wellFormed (isOld wellFormed siblings children (Or.inl isMember))
    fun child => apart wellFormed siblings children (Or.inl isMember)⟩
  have within : ∀ {half : NodeId}, half ∈ after.children outer → id ∈ after.children half →
      after.LiesIn outer id := fun isHalf isChild =>
    .of_parent ((linked.wellFormed.mem_children_iff _ _).mp isChild)
      (.parent ((linked.wellFormed.mem_children_iff _ _).mp isHalf))
  rcases List.mem_append.mp isMember with isLeading | isTrailing
  · refine within (show run ∈ after.children outer from ?_) (linked.leading_eq ▸ isLeading)
    simp [linked.siblings_eq, linkedSiblings, holdsMore isLeading]
  · rcases (linked.isTail (holdsMore isTrailing)).children_eq with ⟨copies, isTail, -⟩
    refine within (show tail ∈ after.children outer from ?_)
      (isTail ▸ List.mem_append_right _ isTrailing)
    simp [linked.siblings_eq, linkedSiblings, holdsMore isTrailing]

omit linked in
/-- The running text around the run before. -/
theorem runningTexts_before (named : before.isNamed run Word.Name.run = true) :
    (before.children outer).flatMap before.runningTexts =
      (left ++ leading).flatMap before.runningTexts ++ before.runningTexts unit ++
        (trailing ++ right).flatMap before.runningTexts := by
  have ofRun : before.runningTexts run = (before.children run).flatMap before.runningTexts :=
    runningTexts_of_showsChildren wellFormed (showsChildren_of_isNamed named (by decide))
  rw [siblings, List.flatMap_append, List.flatMap_cons, ofRun, children]
  simp only [List.flatMap_append, List.flatMap_cons, List.append_assoc]

/-- The text of the link stands in the running text where the child stood. -/
theorem runningTexts_after (named : before.isNamed run Word.Name.run = true) :
    (after.children outer).flatMap after.runningTexts =
      (left ++ leading).flatMap before.runningTexts ++ shown ::
        (trailing ++ right).flatMap before.runningTexts := by
  have same : ∀ id, id ∈ leading ++ trailing ∨ id ∈ left ++ right →
      after.runningTexts id = before.runningTexts id := fun id isMember =>
    linked.runningTexts_eq wellFormed (isOld wellFormed siblings children isMember) fun child =>
      apart wellFormed siblings children isMember
  have beside : ∀ ids ⊆ left ++ right,
      (ids.filter (!before.isEmptyRun ·)).flatMap after.runningTexts =
        ids.flatMap before.runningTexts := by
    intro ids subset
    rw [List.flatMap_congr fun id isMember =>
      same id (Or.inr (subset (List.mem_of_mem_filter isMember)))]
    refine flatMap_filter_of_silent fun id _ isEmpty => ?_
    rw [Bool.not_eq_false'] at isEmpty
    exact runningTexts_of_isEmptyRun wellFormed isEmpty
  -- A half shows the children it holds, since the properties before them are silent.
  have ofHalf : ∀ (half : NodeId) {kept : List NodeId}, kept ⊆ leading ++ trailing →
      (onlyProperties before kept = false → after.isNamed half Word.Name.run = true ∧
        ∃ copies, after.children half = copies ++ kept ∧ onlyProperties after copies = true) →
      (if onlyProperties before kept then [] else [half]).flatMap after.runningTexts =
        kept.flatMap before.runningTexts := by
    intro half kept subset shows
    rcases holds : onlyProperties before kept with _ | _
    · rcases shows holds with ⟨isRun, copies, isHalf, silent⟩
      rw [if_neg Bool.false_ne_true, List.flatMap_singleton,
        runningTexts_of_showsChildren linked.wellFormed (showsChildren_of_isNamed isRun (by decide)),
        isHalf, List.flatMap_append, runningTexts_of_onlyProperties silent, List.nil_append]
      exact List.flatMap_congr fun id isMember => same id (Or.inl (subset isMember))
    · rw [if_pos rfl, runningTexts_of_onlyProperties holds, List.flatMap_nil]
  have ofRun := ofHalf run (List.subset_append_left leading trailing) fun _ =>
    ⟨(linked.isNamed_eq (lt_size_of_isNamed named) _).trans named, [], linked.leading_eq, rfl⟩
  have ofTail := ofHalf tail (List.subset_append_right leading trailing) fun holds =>
    ⟨(linked.isTail holds).isNamed named, (linked.isTail holds).exists_copies⟩
  rw [linked.siblings_eq, linkedSiblings, List.flatMap_append, List.flatMap_append,
    beside left (List.subset_append_left _ _), ofRun, List.flatMap_cons,
    linked.link.runningTexts_eq linked.wellFormed, List.flatMap_append, ofTail,
    beside right (List.subset_append_right _ _)]
  simp only [List.flatMap_append, List.append_assoc, List.singleton_append]

end Linked

/-! ## Replacing a tag -/

theorem insertHyperlink_eq (run carrier : NodeId) (relationshipId text : String) :
    insertHyperlink run carrier relationshipId text = (do
      splitRunAfter run carrier
      (do
        let hyperlink ← createHyperlink run relationshipId text
        insertAfter hyperlink run
        detach carrier)
      match (← get).parent run with
      | some parent => removeEmptyRuns parent
      | none => pure ()) := by
  have regroup : ∀ tidy : Edit Unit,
      (do
        splitRunAfter run carrier
        let hyperlink ← Edit.createElement Word.Name.hyperlink
        Edit.setAttribute hyperlink Word.Name.relationshipId relationshipId
        let linkRun ← createLinkRun run text
        Edit.appendChild hyperlink linkRun
        Edit.insertAfter hyperlink run
        Edit.detach carrier
        tidy) = (do
        splitRunAfter run carrier
        (do
          let hyperlink ← createHyperlink run relationshipId text
          insertAfter hyperlink run
          detach carrier)
        tidy) := by
    intro tidy
    simp only [createHyperlink, bind_assoc, pure_bind]
  exact regroup _

/-- A hyperlink can be put in place of any child of a run with a parent. -/
theorem succeeds_insertHyperlink (wellFormed : document.WellFormed)
    (siblings : document.children outer = left ++ run :: right)
    (children : document.children run = leading ++ unit :: trailing)
    (named : document.isNamed run Word.Name.run = true) (relationshipId text : String) :
    Succeeds (insertHyperlink run unit relationshipId text) document fun _ after =>
      ∃ hyperlink shown tail, Linked document after outer run unit left leading trailing right
        relationshipId text hyperlink shown tail := by
  rw [insertHyperlink_eq]
  refine (exists_splitBehind wellFormed siblings children).bind ?_
  rintro - split - ⟨tails, isSplit⟩
  refine (isSplit.succeeds_placeLink relationshipId text).bind ?_
  rintro - placed - ⟨hyperlink, shown, behind⟩
  have isOuter : placed.parent run = some outer := by
    rw [← behind.wellFormed.mem_children_iff, behind.siblings_eq]
    simp
  refine Succeeds.of_get ?_
  rw [isOuter]
  exact (behind.succeeds_sweep wellFormed siblings children named).imp
    fun _ _ _ ⟨tail, linked⟩ => ⟨hyperlink, shown, tail, linked⟩

variable {context : Context} {tag : Tag} {workspace : Workspace} {link : Link}

/-- Replacing a tag by a link splits the run of the tag without loss. -/
theorem replaceByLink_links (services : context.services.Idle)
    (answers : ∀ asked, Succeeds
      (context.services.addRelationship context.part link.target .hyperlink true) asked
        fun _ _ => True)
    (wellFormed : workspace.document.WellFormed)
    (isLink : context.linkAt workspace.path = some link)
    (isRun : workspace.document.run? tag.textNode = some run)
    (isUnit : workspace.document.parent (workspace.document.textUnit tag.textNode) = some run)
    (isOuter : workspace.document.parent run = some outer)
    (alone : workspace.document.runningTexts (workspace.document.textUnit tag.textNode) =
      [tag.textNode]) :
    Succeeds (replaceByLink context tag) workspace fun _ after =>
      ∃ left right leading trailing relationshipId hyperlink shown tail asked related,
        workspace.document.children outer = left ++ run :: right ∧
        workspace.document.children run =
          leading ++ workspace.document.textUnit tag.textNode :: trailing ∧
        context.services.addRelationship context.part link.target .hyperlink true asked =
          .ok relationshipId related ∧
        Linked workspace.document after.document outer run
          (workspace.document.textUnit tag.textNode) left leading trailing right relationshipId
          link.shownText hyperlink shown tail ∧
        (∀ id, after.document.LiesIn id outer ↔ workspace.document.LiesIn id outer) ∧
        (∀ id ∈ leading ++ trailing,
          workspace.document.isNamed id Word.Name.runProperties = false →
          after.document.LiesIn outer id ∧ after.document.tree id = workspace.document.tree id) ∧
        ∃ lead trail,
          (workspace.document.children outer).flatMap workspace.document.runningTexts =
            lead ++ tag.textNode :: trail ∧
          (after.document.children outer).flatMap after.document.runningTexts =
            lead ++ shown :: trail := by
  rcases List.append_of_mem ((wellFormed.mem_children_iff _ _).mpr isOuter) with
    ⟨left, right, siblings⟩
  rcases List.append_of_mem ((wellFormed.mem_children_iff _ _).mpr isUnit) with
    ⟨leading, trailing, children⟩
  have named := (liesIn_of_ancestorNamed? wellFormed isRun).2
  rcases boundLink?_eq context tag workspace with ⟨journal, isBound⟩
  rw [isLink] at isBound
  refine Succeeds.of_step isBound (Succeeds.of_get ?_)
  simp only [isRun]
  refine (answers _).bind ?_
  rintro relationshipId related relateDone -
  have unchanged : related.document = workspace.document :=
    (services.addRelationship relateDone).document_eq
  have inserted : Succeeds (insertHyperlink run (workspace.document.textUnit tag.textNode)
      relationshipId link.shownText) related.document fun _ after => ∃ hyperlink shown tail,
        Linked workspace.document after outer run (workspace.document.textUnit tag.textNode) left
          leading trailing right relationshipId link.shownText hyperlink shown tail := by
    rw [unchanged]
    exact succeeds_insertHyperlink wellFormed siblings children named relationshipId link.shownText
  refine Succeeds.of_step rfl (Succeeds.imp (Succeeds.of_edit_work (by exact inserted)) ?_)
  rintro - after - ⟨⟨hyperlink, shown, tail, linked⟩, -⟩
  have running := Linked.runningTexts_before wellFormed siblings children named
  rw [alone, List.append_assoc, List.singleton_append] at running
  exact ⟨left, right, leading, trailing, relationshipId, hyperlink, shown, tail, _, related, siblings,
    children, relateDone, linked, fun id => linked.above_iff wellFormed siblings children,
    fun id isMember => linked.keeps wellFormed siblings children isMember,
    _, _, running, linked.runningTexts_after wellFormed siblings children named⟩

/-- A run of two words and a break around the emptied text node of a tag, beside an empty run. -/
def linkedWord : Document :=
  .ofTree (.node "w:p" []
    [.node "w:r" []
      [.node "w:rPr" [] [.node "w:b" [] []], .node "w:t" [] [.text "a"], .node "w:t" [] [.text ""],
        .node "w:br" [] [], .node "w:t" [] [.text "z"]],
      .node "w:r" [] []])

/-- A text element that holds a comment and more text behind the emptied text node of a tag. -/
def commentedUnit : Document :=
  .ofTree (.node "w:p" []
    [.node "w:r" [] [.node "w:t" [] [.text "", .markup "<!--c-->", .text "rest"]]])

/-- Data for a link. -/
def linkData : Context where
  part := "word/document.xml"
  data := .object [("l", .object [("target", .string "page"), ("text", .string "E")])]

/-- The tag of a link in a text node. -/
def linkTag (textNode : NodeId) : Tag := ⟨"l", "", .leaf, [], textNode⟩

/-- Where the tag of a link in a document is about to be replaced. -/
def atLink (document : Document) : Workspace := { document, path := [.key "l"] }

/-- The document in which a tag was replaced by a link. -/
def linked? (textNode : NodeId) (document : Document) : Option Document :=
  match replaceByLink linkData (linkTag textNode) (atLink document) with
  | .ok _ after => some after.document
  | .error _ _ => none

theorem replaceByLink_links_linkedWord :
    linkedWord.children ⟨1⟩ = [⟨2⟩, ⟨12⟩] ∧ linkedWord.children ⟨2⟩ = [⟨3⟩, ⟨5⟩, ⟨7⟩, ⟨9⟩, ⟨10⟩] ∧
      Succeeds (replaceByLink linkData (linkTag ⟨8⟩)) (atLink linkedWord) fun _ after =>
        ∃ relationshipId hyperlink shown tail,
          Linked linkedWord after.document ⟨1⟩ ⟨2⟩ ⟨7⟩ [] [⟨3⟩, ⟨5⟩] [⟨9⟩, ⟨10⟩] [⟨12⟩]
            relationshipId "E" hyperlink shown tail := by
  have wellFormed : (atLink linkedWord).document.WellFormed := wellFormed_ofTree _
  have siblings : linkedWord.children ⟨1⟩ = [] ++ ⟨2⟩ :: [⟨12⟩] := by decide +kernel
  have children : linkedWord.children ⟨2⟩ = [⟨3⟩, ⟨5⟩] ++ ⟨7⟩ :: [⟨9⟩, ⟨10⟩] := by decide +kernel
  have services : linkData.services.Idle := Services.idle_recording
  have isLink : linkData.linkAt (atLink linkedWord).path = some ⟨"page", some "E"⟩ := rfl
  have isRun : (atLink linkedWord).document.run? (linkTag ⟨8⟩).textNode = some ⟨2⟩ := by
    decide +kernel
  have isUnit : (atLink linkedWord).document.textUnit (linkTag ⟨8⟩).textNode = ⟨7⟩ := by
    decide +kernel
  have isOuter : (atLink linkedWord).document.parent ⟨2⟩ = some ⟨1⟩ := by decide +kernel
  refine ⟨siblings, children, (replaceByLink_links services (fun _ => ⟨_, _, rfl, trivial⟩)
    wellFormed isLink isRun (by decide +kernel) isOuter (by decide +kernel)).imp ?_⟩
  rw [isUnit]
  rintro - after - ⟨left, right, leading, trailing, relationshipId, hyperlink, shown, tail, -, -,
    siblings', children', -, linked, -⟩
  rcases append_cons_inj (by decide) (siblings.symm.trans siblings') with ⟨rfl, rfl⟩
  rcases append_cons_inj (by decide) (children.symm.trans children') with ⟨rfl, rfl⟩
  exact ⟨relationshipId, hyperlink, shown, tail, linked⟩

/-- The text element of a tag goes away as a whole, also with more text behind the tag. -/
theorem replaceByLink_takesUnit :
    commentedUnit.run? ⟨4⟩ = some ⟨2⟩ ∧
      commentedUnit.parent (commentedUnit.textUnit ⟨4⟩) = some ⟨2⟩ ∧
      commentedUnit.parent ⟨2⟩ = some ⟨1⟩ ∧
      commentedUnit.childNamed? ⟨2⟩ Word.Name.runProperties = none ∧
      commentedUnit.textContent ⟨1⟩ = "rest" ∧
      (linked? ⟨4⟩ commentedUnit).map (·.textContent ⟨1⟩) = some "E" := by
  decide +kernel

end WordTemplate.Leaf
