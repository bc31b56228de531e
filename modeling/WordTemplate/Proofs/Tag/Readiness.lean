import WordTemplate.Proofs.Document.Pending
import WordTemplate.Proofs.Tag.Partition
import WordTemplate.Proofs.Word.Intact

/-!
# Tags that can be filled

Taking the tags out of a document leaves a text node for each of them in the running text of the root,
in the order of the tags, provided that no text of a tag stands in properties.
-/

namespace WordTemplate

namespace Document

variable {document before after : Document} {root holder text : NodeId}
  {all kept others nodes : List NodeId}

/-- Of the nodes in a list, more come in the same order as fewer. -/
theorem sublist_of_subset (nodup : all.Nodup) (fewer : kept.Sublist all) (more : others.Sublist all)
    (subset : kept ⊆ others) : kept.Sublist others := by
  have others_eq : others = all.filter (· ∈ others) := by
    have inside : (others.filter (· ∈ others)).Sublist (all.filter (· ∈ others)) := more.filter _
    rw [List.filter_eq_self.mpr (by simp)] at inside
    refine inside.eq_of_length_le ((nodup.filter _).subperm fun id isMember => ?_).length_le
    simpa using (List.mem_filter.mp isMember).2
  have kept_eq : kept.filter (· ∈ others) = kept :=
    List.filter_eq_self.mpr fun id isMember => by simpa using subset isMember
  rw [others_eq, ← kept_eq]
  exact fewer.filter _

theorem runningTexts_sublist_texts (wellFormed : document.WellFormed) (id : NodeId) :
    (document.runningTexts id).Sublist (document.texts id) := by
  have fewer := (runningTexts_sublist_subtree wellFormed id).filter document.isText
  rwa [List.filter_eq_self.mpr fun text isMember =>
    isText_of_mem_runningTexts wellFormed isMember] at fewer

/-- The text node of a text element is its running text. -/
theorem runningTexts_of_single (wellFormed : document.WellFormed)
    (named : document.isNamed holder Word.Name.text = true) (isText : document.isText text = true)
    (isParent : document.parent text = some holder) (single : document.texts holder = [text]) :
    document.runningTexts holder = [text] := by
  refine eq_singleton_of_sublist (single ▸ runningTexts_sublist_texts wellFormed holder) ?_
  refine (mem_runningTexts_iff wellFormed).mpr ⟨isText, LiesIn.parent isParent, ?_⟩
  intro id below above differ
  rcases above.cases_above isParent with same | above
  · exact absurd same.symm differ
  · exact below.antisymm wellFormed above ▸ showsChildren_of_isNamed named (by decide)

/-- Text nodes that stand below a detached root in order, and not in properties, can be filled. -/
theorem pending_of_texts (wellFormed : document.WellFormed)
    (detached : document.parent root = none) (inStore : root.index < document.size)
    (plain : document.PlainBelow root)
    (single : ∀ element text, document.LiesIn root element →
      document.isNamed element Word.Name.text = true → text ∈ document.children element →
        document.isText text = true → document.texts element = [text])
    (ordered : nodes.Sublist (document.texts root))
    (shown : ∀ node ∈ nodes, ∀ id, document.LiesIn root id → document.LiesIn id node →
      document.isProperties id = false) (nonempty : nodes ≠ []) : document.Pending [root] nodes := by
  have isBelow : ∀ node ∈ nodes, document.LiesIn root node ∧ document.isText node = true :=
    fun node isNode => (mem_texts_iff wellFormed).mp (ordered.subset isNode)
  refine ⟨by simpa using detached, by simpa using inStore, ?_, by simp, ?_, fun node isNode => ?_⟩
  · rcases List.exists_mem_of_ne_nil nodes nonempty with ⟨node, isNode⟩
    simpa using shown node isNode root LiesIn.refl (isBelow node isNode).1
  · rw [List.flatMap_singleton]
    refine sublist_of_subset (nodup_texts wellFormed root) ordered
      (runningTexts_sublist_texts wellFormed root) fun node isNode => ?_
    rcases isBelow node isNode with ⟨below, isText⟩
    refine (mem_runningTexts_iff wellFormed).mpr ⟨isText, below, fun id inside above differ => ?_⟩
    rw [showsChildren, shown node isNode id inside above, Bool.not_false, Bool.and_true,
      Bool.not_eq_true']
    by_contra isText'
    have single := plain id inside (by simpa using isText')
    have isMember := (mem_texts_iff wellFormed).mpr ⟨above, isText⟩
    rw [single, List.mem_singleton] at isMember
    exact differ isMember.symm
  · rcases isBelow node isNode with ⟨below, isText⟩
    refine (solitary_iff isText).mpr fun holder isHolder named => ?_
    refine runningTexts_of_single wellFormed named isText isHolder
      (single holder node ?_ named ((wellFormed.mem_children_iff _ _).mpr isHolder) isText)
    rcases below.cases_above isHolder with rfl | above
    · rw [detached] at isHolder
      cases isHolder
    · exact above

end Document

open Document in
theorem Edit.KeepsIntact.of_done {α : Type} {spared : Prop} {edit : Edit α} {value : α}
    {document after : Document} {result : α → Document → Prop}
    (keeps : KeepsIntact spared edit document result) (done : edit document = .ok value after) :
    Intact spared document after ∧ result value after := by
  rwa [KeepsIntact, done] at keeps

namespace Extraction

open Outcome Document

variable {document after : Document} {delimiters : Delimiters} {node first last : NodeId}
  {offset : Nat} {spared : Prop}

theorem intact_of_gather (wellFormed : document.WellFormed)
    (done : gather first last offset document = .ok node after) :
    Intact spared document after := by
  rw [gather] at done
  split at done
  · simp only [bind_eq_ok, edit_eq_ok, pure_eq_ok] at done
    rcases done with ⟨⟨⟩, _, joinDone, rfl, rfl⟩
    exact ((Edit.keepsIntact_joinText wellFormed _ _).of_done joinDone).1
  · simp only [bind_eq_ok, edit_eq_ok, pure_eq_ok] at done
    rcases done with ⟨tail, cut, splitDone, ⟨⟩, _, joinDone, rfl, rfl⟩
    have toCut : Intact spared document cut :=
      ((Edit.keepsIntact_splitText wellFormed _ _).of_done splitDone).1
    exact toCut.trans ((Edit.keepsIntact_joinText toCut.wellFormed _ _).of_done joinDone).1

theorem intact_of_isolateAll {pairs : List TagMarks} {nodes : List NodeId}
    (wellFormed : document.WellFormed)
    (done : isolateAll delimiters pairs document = .ok nodes after) :
    Intact spared document after := by
  induction pairs generalizing nodes after with
  | nil =>
      rw [isolateAll, pure_eq_ok] at done
      exact done.2 ▸ .refl wellFormed
  | cons marks later inductionHypothesis =>
      simp only [isolateAll, bind_eq_ok, pure_eq_ok] at done
      rcases done with ⟨laterNodes, middle, laterDone, node, _, isolateDone, -, rfl⟩
      have toMiddle : Intact spared document middle := inductionHypothesis laterDone
      rcases isolate_eq_ok.mp isolateDone with ⟨first, offset, trimmed, -, trims, gathers⟩
      have toTrimmed : Intact spared middle trimmed := by
        split at trims
        · rcases trims with ⟨tail, splitDone⟩
          exact ((Edit.keepsIntact_splitText toMiddle.wellFormed _ _).of_done splitDone).1
        · rw [trims]
          exact .refl toMiddle.wellFormed
      exact (toMiddle.trans toTrimmed).trans (intact_of_gather toTrimmed.wellFormed gathers)

theorem intact_of_takeTags {marks : List DelimiterMark} {tags : List Tag}
    (wellFormed : document.WellFormed)
    (done : takeTags delimiters marks document = .ok tags after) : Intact spared document after := by
  simp only [takeTags, get_bind, bind_eq_ok, ofExcept_eq_ok] at done
  rcases done with ⟨pairs, _, ⟨-, rfl⟩, nodes, isolated, isolateDone, takeDone⟩
  have toIsolated : Intact spared document isolated := intact_of_isolateAll wellFormed isolateDone
  refine toIsolated.trans ?_
  have wellFormed' := toIsolated.wellFormed
  clear isolateDone toIsolated
  induction nodes generalizing isolated tags with
  | nil =>
      rw [List.mapM_nil, pure_eq_ok] at takeDone
      exact takeDone.2 ▸ .refl wellFormed'
  | cons node nodes inductionHypothesis =>
      simp only [List.mapM_cons, takeTag, get_bind, bind_eq_ok, ofExcept_eq_ok, edit_eq_ok,
        Edit.setText_eq_ok, pure_eq_ok] at takeDone
      rcases takeDone with ⟨tag, _, ⟨_, _, ⟨-, rfl⟩, ⟨⟩, _, ⟨-, rfl⟩, -, rfl⟩, rest, _, restDone, -,
        rfl⟩
      have emptied : Intact spared isolated (isolated.setContent node (.text "")) :=
        intact_setContent wellFormed' _ _
      exact emptied.trans (inductionHypothesis _ restDone emptied.wellFormed)

end Extraction

namespace Document

variable {document : Document} {delimiters : Delimiters} {levels : Nat} {text : NodeId}

/-- A text node holds text of a tag: the marks of the delimiters cut the text below the root into
regions that begin with a tag each, and some character of a tag stands in the text node. -/
def HoldsTagText (document : Document) (delimiters : Delimiters) (levels : Nat) (text : NodeId) :
    Prop :=
  ∃ pairs lead regions,
    TagMarks.pair document none (Scan.run delimiters levels document document.root).marks =
      .ok pairs ∧
    document.places (document.texts document.root) = lead ++ regions.flatMap TagRegion.places ∧
    List.Forall₂ (TagRegion.Fits delimiters) pairs regions ∧
    ∃ region ∈ regions, ∃ place ∈ region.tag, place.node = text

theorem HoldsTagText.mem_texts (holds : document.HoldsTagText delimiters levels text) :
    text ∈ document.texts document.root := by
  rcases holds with ⟨pairs, lead, regions, -, split, -, region, isRegion, place, isPlace, rfl⟩
  have isMember : place ∈ document.places (document.texts document.root) := by
    rw [split]
    exact List.mem_append_right _
      (List.mem_flatMap.mpr ⟨region, isRegion, List.mem_append_left _ isPlace⟩)
  rcases List.mem_flatMap.mp isMember with ⟨node, isNode, inside⟩
  exact (exists_of_mem_allFrom inside).1 ▸ isNode

/-- A document whose tags can be filled: the scan meets every text node, each text element has one
text child and no other text below it, and no text of a tag stands in properties. -/
structure Fillable (document : Document) (delimiters : Delimiters) (levels : Nat) : Prop where
  wellFormed : document.WellFormed
  isElement : ∃ held, document.content document.root = .element held
  detached : document.parent document.root = none
  visited : ∀ text ∈ document.texts document.root,
    ∃ segment ∈ document.segments levels document.root, text ∈ segment
  single : ∀ element, document.LiesIn document.root element →
    document.isNamed element Word.Name.text = true →
      ∃ text ∈ document.children element, document.texts element = [text]
  shown : ∀ text, document.HoldsTagText delimiters levels text →
    ∀ properties, document.isProperties properties = true → ¬document.LiesIn properties text

/-- The text nodes in properties. -/
def inProperties (document : Document) : Aside :=
  let hidden text := ∃ properties, document.isProperties properties = true ∧
    document.LiesIn properties text
  ⟨hidden, hidden⟩

namespace Fillable

variable (fillable : document.Fillable delimiters levels)
include fillable

theorem inStore : document.root.index < document.size := fillable.wellFormed.root_lt

theorem notText : document.isText document.root = false := by
  rcases fillable.isElement with ⟨held, isElement⟩
  rw [isText, text?, isElement]
  rfl

theorem plain : document.PlainBelow document.root :=
  plainBelow_of_visited fillable.wellFormed fillable.visited

/-- A text node in a text element is the only one below it. -/
theorem only {element text : NodeId} (inside : document.LiesIn document.root element)
    (named : document.isNamed element Word.Name.text = true)
    (isChild : text ∈ document.children element) (isText : document.isText text = true) :
    document.texts element = [text] := by
  rcases fillable.single element inside named with ⟨other, -, single⟩
  have isMember : text ∈ document.texts element := (mem_texts_iff fillable.wellFormed).mpr
    ⟨LiesIn.parent ((fillable.wellFormed.mem_children_iff _ _).mp isChild), isText⟩
  rw [single, List.mem_singleton] at isMember
  rw [single, isMember]

theorem neat : document.Neat document.inProperties document.root where
  plain := fillable.plain
  single _ _ := fillable.only
  lossy run properties text _ _ _ named isMember :=
    ⟨properties, by rw [isProperties_of_isNamed named]; decide,
      ((mem_texts_iff fillable.wellFormed).mp isMember).1⟩
  hidden properties text _ isProperties isMember :=
    ⟨properties, isProperties, ((mem_texts_iff fillable.wellFormed).mp isMember).1⟩

theorem splittable (notTextElement : document.isNamed document.root Word.Name.text = false) :
    document.Splittable document.inProperties document.root where
  toNeat := fillable.neat
  wellFormed := fillable.wellFormed
  fresh id beyond := by
    have free : ¬document.inProperties.lossy id := by
      rintro ⟨properties, isProperties, inside⟩
      rw [← inside.eq_of_parent_none (parent_of_size_le beyond)] at isProperties
      rcases isName : document.name? id with _ | name
      · simp [Document.isProperties, isName] at isProperties
      · exact Nat.not_lt_of_le beyond (lt_size_of_name? isName)
    exact ⟨free, fun hidden => absurd hidden free⟩
  inStore := fillable.inStore
  notText := fillable.notText
  notTextElement := notTextElement

end Fillable

end Document

namespace Extraction

open Outcome Document

variable {document after : Document} {delimiters : Delimiters} {levels : Nat} {tags : List Tag}

/-- The text of a text element without a parent cannot be split. -/
theorem splitText_ne_ok {text tail : NodeId} {offset : Nat} (wellFormed : document.WellFormed)
    (isParent : document.parent text = some document.root)
    (named : document.isNamed document.root Word.Name.text = true)
    (detached : document.parent document.root = none) :
    Edit.splitText text offset document ≠ .ok tail after := by
  intro done
  rcases Edit.splitText_eq_ok.mp done with ⟨head, rest, -, isText, rfl, placed⟩
  have isElement : (document.snip text head rest).textElement? text = some document.root := by
    rw [textElement?_snip wellFormed isText (lt_size_of_parent isParent), textElement?, isParent,
      Option.filter_some, if_pos named]
  rw [isElement] at placed
  rcases placed with
    ⟨noElement, -⟩ | ⟨_, _, _, filled, placed, isRoot, copyDone, fillDone, placeDone, -⟩
  · cases noElement
  · cases isRoot
    rcases Edit.copyNode_eq_ok.mp copyDone with ⟨rfl, rfl⟩
    have fills := FillsCopy.of_done wellFormed.snip (by rw [parent_snip, parent_nextId])
      (by simp [nextId]) fillDone
    rcases Edit.moves_of_insertAfter fills.wellFormed fills.nextId_lt placeDone with
      ⟨outer, -, -, isOuter, -⟩
    rw [fills.parent_eq (nextId_ne wellFormed.root_lt).symm, parent_snip, detached] at isOuter
    cases isOuter

/-- Nothing stands before the beginning of the only text node. -/
theorem lead_eq_nil {text : NodeId} {place : Place} {lead rest : List Place}
    (split : document.places [text] = lead ++ place :: rest) (atStart : place.offset = 0) :
    lead = [] := by
  rcases exists_of_places_eq split with ⟨earlier, later, left, right, isSplit, -, offset_eq, isLead, -⟩
  have noLeft : left = [] := Text.byteLength_eq_zero_iff.mp (offset_eq.symm.trans atStart)
  have noEarlier : earlier = [] := by
    have lengths := congrArg List.length isSplit
    simp only [List.length_append, List.length_cons, List.length_nil] at lengths
    exact List.eq_nil_of_length_eq_zero (by omega)
  rw [isLead, noLeft, noEarlier]
  rfl

/-- From a text node that cannot be split, only the whole text can be gathered. -/
theorem gather_of_unsplit {text node : NodeId} {offset : Nat}
    (unsplit : ∀ {offset tail after}, Edit.splitText text offset document ≠ .ok tail after)
    (done : gather text text offset document = .ok node after) :
    offset = 0 ∧ node = text ∧ after = document := by
  rw [gather] at done
  split at done
  case isTrue atStart =>
    simp only [Edit.joinText, if_pos, bind_eq_ok, edit_eq_ok, pure_eq_ok] at done
    rcases done with ⟨⟨⟩, _, ⟨-, rfl⟩, rfl, rfl⟩
    exact ⟨atStart, rfl, rfl⟩
  case isFalse =>
    rcases bind_eq_ok.mp done with ⟨tail, cut, splitDone, -⟩
    exact absurd (edit_eq_ok.mp splitDone) unsplit

/-- A tag that is isolated in the only text node, which cannot be split, begins where its text does. -/
theorem isolate_of_unsplit {text node : NodeId} {marks : TagMarks} {region : TagRegion}
    {lead later : List Place} (fillable : document.Fillable delimiters levels)
    (unsplit : ∀ {offset tail after}, Edit.splitText text offset document ≠ .ok tail after)
    (texts : document.texts document.root = [text]) (nonempty : delimiters.tagStart.toList ≠ [])
    (fits : region.Fits delimiters marks)
    (split : document.places [text] = lead ++ region.places ++ later)
    (done : isolate delimiters marks document = .ok node after) :
    after = document ∧ node = text ∧ lead = [] ∧ ∃ place ∈ region.tag, place.node = text := by
  rcases isPlaces : region.opening with _ | ⟨place, opening⟩
  · have opens := fits.opens
    rw [isPlaces] at opens
    exact absurd opens.symm nonempty
  have opens : document.places [text] = lead ++ region.opening ++ (region.inner ++
      region.closing ++ region.following ++ later) := by
    rw [split, TagRegion.places, TagRegion.tag]
    simp
  have onlyText : ∀ place ∈ document.places [text], place.node = text := by
    intro place isMember
    rw [places_singleton] at isMember
    exact (exists_of_mem_allFrom isMember).1
  rcases fits.start_eq with ⟨ahead, startChar, isOpening⟩
  rcases fits.stop_eq with ⟨inside, stopChar, isClosing⟩
  have begins := tagBegin_of_places fillable.wellFormed fillable.plain fillable.inStore
    (texts.trans (List.append_nil _).symm) opens isOpening fits.opens
    (by rw [isPlaces]; rfl : region.opening.head? = some place)
  have isStop : marks.stop.node = text := onlyText (marks.stop.place stopChar) (by
    rw [opens, isClosing]
    simp)
  have isFirst : place.node = text := onlyText place (by
    rw [opens, isPlaces]
    simp)
  rcases isolate_eq_ok.mp done with ⟨first, offset, trimmed, begins', trims, gathers⟩
  rw [begins, Except.ok.injEq, Prod.mk.injEq] at begins'
  rcases begins' with ⟨rfl, rfl⟩
  rw [isStop] at trims gathers
  rw [isFirst] at gathers
  split at trims
  · rcases trims with ⟨tail, splitDone⟩
    exact absurd splitDone unsplit
  subst trims
  rcases gather_of_unsplit unsplit gathers with ⟨atStart, rfl, rfl⟩
  rw [isPlaces, List.append_assoc, List.cons_append] at opens
  refine ⟨rfl, rfl, lead_eq_nil opens atStart, place, ?_, isFirst⟩
  rw [TagRegion.tag, isPlaces]
  simp

/-- In a document that is nothing but a text element, a tag has to be the whole text. -/
theorem nodes_of_isolateAll {text : NodeId} {pairs : List TagMarks} {regions : List TagRegion}
    {lead : List Place} {nodes : List NodeId} (fillable : document.Fillable delimiters levels)
    (named : document.isNamed document.root Word.Name.text = true)
    (texts : document.texts document.root = [text])
    (isChild : text ∈ document.children document.root)
    (nonempty : delimiters.tagStart.toList ≠ [])
    (fits : List.Forall₂ (TagRegion.Fits delimiters) pairs regions)
    (split : document.places [text] = lead ++ regions.flatMap TagRegion.places)
    (done : isolateAll delimiters pairs document = .ok nodes after) :
    after = document ∧ (nodes = [] ∨ nodes = [text] ∧ lead = [] ∧
      ∃ region ∈ regions, ∃ place ∈ region.tag, place.node = text) := by
  have isParent := (fillable.wellFormed.mem_children_iff _ _).mp isChild
  have unsplit : ∀ {offset tail after}, Edit.splitText text offset document ≠ .ok tail after :=
    splitText_ne_ok fillable.wellFormed isParent named fillable.detached
  induction fits generalizing lead nodes after with
  | nil =>
      rw [isolateAll, pure_eq_ok] at done
      exact ⟨done.2.symm, Or.inl done.1.symm⟩
  | @cons marks region pairs regions here _ inductionHypothesis =>
      simp only [isolateAll, bind_eq_ok, pure_eq_ok] at done
      rcases done with ⟨laterNodes, middle, laterDone, node, _, isolateDone, rfl, rfl⟩
      have split' : document.places [text] =
          (lead ++ region.places) ++ regions.flatMap TagRegion.places := by
        rw [split, List.flatMap_cons, List.append_assoc]
      rcases inductionHypothesis split' laterDone with ⟨rfl, rfl | ⟨-, isEmpty, -⟩⟩
      · rcases isolate_of_unsplit fillable unsplit texts nonempty here split' isolateDone with
          ⟨rfl, rfl, rfl, isTag⟩
        exact ⟨rfl, Or.inr ⟨rfl, rfl, region, List.mem_cons_self, isTag⟩⟩
      · -- A tag before one at the very beginning would have no characters.
        simp only [TagRegion.places, TagRegion.tag, List.append_eq_nil_iff] at isEmpty
        have opens := here.opens
        rw [isEmpty.2.1.1.1] at opens
        exact absurd opens.symm nonempty

section

variable {pairs : List TagMarks} {lead : List Place} {regions : List TagRegion}
  (fillable : document.Fillable delimiters levels) (usable : delimiters.validate = .ok ())
  (paired : TagMarks.pair document none
    (Scan.run delimiters levels document document.root).marks = .ok pairs)
  (split : document.places (document.texts document.root) = lead ++ regions.flatMap TagRegion.places)
  (fits : List.Forall₂ (TagRegion.Fits delimiters) pairs regions)
  (shown : ∀ region ∈ regions, ∀ place ∈ region.tag, ¬document.inProperties.hidden place.node)
  (done : takeTags delimiters (Scan.run delimiters levels document document.root).marks document =
    .ok tags after)
  (nonempty : tags ≠ [])
include fillable usable paired split fits shown done nonempty

/-- The tag that is all of a text element can be filled. -/
theorem pending_of_takeTags_textElement
    (named : document.isNamed document.root Word.Name.text = true) :
    after.Pending [after.root] (tags.map Tag.textNode) := by
  have intact : Intact True document after := intact_of_takeTags fillable.wellFormed done
  rcases fillable.single document.root LiesIn.refl named with ⟨text, isChild, texts⟩
  rw [texts] at split
  simp only [takeTags, get_bind, bind_eq_ok, ofExcept_eq_ok] at done
  rcases done with ⟨pairs', _, ⟨paired', rfl⟩, nodes, isolated, isolateDone, takeDone⟩
  rw [paired, Except.ok.injEq] at paired'
  subst paired'
  rcases nodes_of_isolateAll fillable named texts isChild
    (Delimiters.marker_ne_nil usable true) fits split isolateDone with
    ⟨unchanged, rfl | ⟨rfl, -, region, isRegion, place, isPlace, isText⟩⟩
  · rw [List.mapM_nil, pure_eq_ok] at takeDone
    exact absurd takeDone.1.symm nonempty
  rw [unchanged] at takeDone
  have isMember : text ∈ document.texts document.root := by simp [texts]
  rcases takeAll_cases fillable.wellFormed
    (by simpa using ((mem_texts_iff fillable.wellFormed).mp isMember).2)
    (by simpa using lt_size_of_mem_texts fillable.wellFormed fillable.inStore isMember)
    (List.nodup_singleton text) with
    ⟨raw, reason, _, failed⟩ | ⟨tags', after', takeDone', same, areNodes, -, -⟩
  · rw [failed] at takeDone
    cases takeDone
  rw [takeDone', EStateM.Result.ok.injEq] at takeDone
  rcases takeDone with ⟨rfl, rfl⟩
  rw [areNodes, intact.root_eq]
  have neat := same.neat fillable.wellFormed fillable.neat
  have texts' : after'.texts document.root = [text] :=
    (same.texts_eq fillable.wellFormed _).trans texts
  refine pending_of_texts intact.wellFormed (intact.root_detached trivial fillable.detached)
    (same.size_eq ▸ fillable.inStore) neat.plain neat.single (by rw [texts']) ?_ (by simp)
  intro node isNode id inside above
  rw [List.mem_singleton.mp isNode] at above
  by_contra isProperties
  refine shown region isRegion place isPlace (isText ▸ neat.hidden id text inside
    (by simpa using isProperties) ((mem_texts_iff intact.wellFormed).mpr ⟨above, ?_⟩))
  exact ((mem_texts_iff intact.wellFormed).mp (texts' ▸ List.mem_singleton_self text)).2

/-- The tags of a document that is more than a text element can be filled. -/
theorem pending_of_takeTags_splittable
    (notTextElement : document.isNamed document.root Word.Name.text = false) :
    after.Pending [after.root] (tags.map Tag.textNode) := by
  have intact : Intact True document after := intact_of_takeTags fillable.wellFormed done
  rcases takeTags_cases (fillable.splittable notTextElement) (Delimiters.marker_ne_nil usable true)
    paired split fits (fun region isRegion place isPlace => ⟨shown region isRegion place isPlace,
      fun hidden => absurd hidden (shown region isRegion place isPlace)⟩) with
    ⟨text, reason, _, failed⟩ |
      ⟨parts, middle, tags', after', done', isolated, same, areNodes, -, -⟩
  · rw [failed] at done
    cases done
  rw [done', EStateM.Result.ok.injEq] at done
  rcases done with ⟨rfl, rfl⟩
  have afterSplittable := same.splittable isolated.splittable
  have ordered := isolated.ordered
  rw [← areNodes, ← same.texts_eq isolated.splittable.wellFormed] at ordered
  rw [intact.root_eq]
  refine pending_of_texts intact.wellFormed (intact.root_detached trivial fillable.detached)
    afterSplittable.inStore afterSplittable.plain afterSplittable.single ordered ?_
    (by simpa using nonempty)
  intro node isNode id inside above
  rw [areNodes] at isNode
  rcases List.mem_map.mp isNode with ⟨part, isPart, rfl⟩
  have isText := ((mem_texts_iff intact.wellFormed).mp (ordered.subset (areNodes ▸ isNode))).2
  by_contra isProperties
  exact (isolated.free part isPart).notLossy (afterSplittable.hidden id part.node inside
    (by simpa using isProperties) ((mem_texts_iff intact.wellFormed).mpr ⟨above, isText⟩))

end

/-- The tags that were taken out of a document can be filled. -/
theorem pending_of_takeTags (fillable : document.Fillable delimiters levels)
    (usable : delimiters.validate = .ok ())
    (done : takeTags delimiters (Scan.run delimiters levels document document.root).marks document =
      .ok tags after) (nonempty : tags ≠ []) :
    after.Pending [after.root] (tags.map Tag.textNode) := by
  rcases exists_regions_of_takeTags fillable.wellFormed usable fillable.visited done with
    ⟨pairs, lead, regions, paired, split, fits⟩
  have shown : ∀ region ∈ regions, ∀ place ∈ region.tag,
      ¬document.inProperties.hidden place.node := by
    rintro region isRegion place isPlace ⟨properties, isProperties, inside⟩
    exact fillable.shown place.node ⟨pairs, lead, regions, paired, split, fits, region, isRegion,
      place, isPlace, rfl⟩ properties isProperties inside
  rcases isTextElement : document.isNamed document.root Word.Name.text with _ | _
  · exact pending_of_takeTags_splittable fillable usable paired split fits shown done nonempty
      isTextElement
  · exact pending_of_takeTags_textElement fillable usable paired split fits shown done nonempty
      isTextElement

end Extraction

end WordTemplate
