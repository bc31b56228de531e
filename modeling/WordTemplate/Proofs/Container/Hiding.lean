import WordTemplate.Container.Sections
import WordTemplate.Proofs.Document.Adding
import WordTemplate.Proofs.Document.Planting
import WordTemplate.Proofs.Document.Local
import WordTemplate.Proofs.Document.Rearranging
import WordTemplate.Proofs.Document.Siblings
import WordTemplate.Proofs.Word.Properties

/-!
# Hiding a section is neutral

Flags, bookmarks and the content control around a section leave all running text in its place and
order. What they change lies in the zone of the section and in the nodes that its blocks are children
of.
-/

namespace WordTemplate

namespace Edit

open Outcome Document

variable {zone : NodeId → Prop} {rights : Rights} {document document' : Document}
  {id node head first last properties : NodeId} {name flag : String} {leading : List String}
  {nodes : List NodeId} {result : Unit}

theorem neutral_of_whenAttached {edit : Edit Unit} (wellFormed : document.WellFormed)
    (closed : document.Closed zone rights)
    (neutral : edit document = .ok result document' → Neutral zone rights document document')
    (done : whenAttached id edit document = .ok result document') :
    Neutral zone rights document document' := by
  simp only [whenAttached, get_bind] at done
  split at done
  case isTrue => exact neutral done
  case isFalse =>
    rw [pure_eq_ok] at done
    exact done.2 ▸ Neutral.refl wellFormed closed

/-- A flag goes into the properties of a node. -/
theorem neutral_of_flagged (wellFormed : document.WellFormed) (closed : document.Closed zone rights)
    (inZone : zone node) (inStore : node.index < document.size)
    (done : (do
      let properties ← ensureProperties node name leading
      discard (setFlag properties flag)) document = .ok result document') :
    Neutral zone rights document document' := by
  simp only [bind_eq_ok, discard_eq_ok] at done
  rcases done with ⟨properties, ensured, ensureDone, flagged, flagDone⟩
  rcases neutral_of_ensureProperties wellFormed closed inZone inStore ensureDone with
    ⟨neutral, isParent, -⟩
  exact neutral.trans (neutral_of_setFlag neutral.wellFormed neutral.closed
    (neutral.closed.child isParent inZone) (lt_size_of_parent isParent) flagDone).1

theorem neutral_of_ensureMarkProperties (wellFormed : document.WellFormed)
    (closed : document.Closed zone rights) (inZone : zone properties)
    (inStore : properties.index < document.size)
    (done : ensureMarkProperties properties document = .ok id document') :
    Neutral zone rights document document' ∧ document'.parent id = some properties := by
  simp only [ensureMarkProperties, get_bind] at done
  rcases found : document.childNamed? properties Word.Name.runProperties with _ | existing
  · simp only [found, bind_eq_ok] at done
    rcases done with ⟨created, middle, createDone, done⟩
    rcases neutral_of_createElement wellFormed closed createDone with
      ⟨added, beyond, createdInZone, detached, -, named, empty⟩
    have created_lt := lt_size_of_isNamed named
    have movable : middle.Movable zone rights created :=
      movable_of_parent_none detached (closed.freshPlaces beyond)
    rcases follows : [Word.Name.sectionProperties, Word.Name.paragraphPropertiesChange].findSome?
      (document.childNamed? properties) with _ | next
    · simp only [follows, bind_eq_ok, pure_eq_ok] at done
      rcases done with ⟨⟨⟩, _, placed, rfl, rfl⟩
      rcases neutral_of_appendChild added.wellFormed added.closed inZone
        (Nat.lt_of_lt_of_le inStore added.size_le) created_lt createdInZone movable empty placed with
        ⟨placing, isParent⟩
      exact ⟨added.trans placing, isParent⟩
    · simp only [follows, bind_eq_ok, pure_eq_ok] at done
      rcases done with ⟨⟨⟩, _, placed, rfl, rfl⟩
      rcases List.exists_of_findSome?_eq_some follows with ⟨name, -, isNext⟩
      have isParent : middle.parent next = some properties := by
        rw [(createElement_eq_ok.mp createDone).2, parent_add]
        exact (parent_of_childNamed? wellFormed isNext).1
      rcases neutral_of_insertBefore added.wellFormed added.closed (fun parent isParent' => by
        rw [isParent, Option.some.injEq] at isParent'
        exact isParent' ▸ inZone) created_lt createdInZone movable empty placed with
        ⟨placing, isParent'⟩
      exact ⟨added.trans placing, isParent'.trans isParent⟩
  · simp only [found, pure_eq_ok] at done
    rcases done with ⟨rfl, rfl⟩
    exact ⟨Neutral.refl wellFormed closed, (parent_of_childNamed? wellFormed found).1⟩

theorem neutral_of_hideParagraph {runs : List NodeId} (wellFormed : document.WellFormed)
    (closed : document.Closed zone rights) (inZone : zone node) (inStore : node.index < document.size)
    (done : hideParagraph runs node document = .ok result document') :
    Neutral zone rights document document' := by
  refine neutral_of_whenAttached wellFormed closed (fun done => ?_) done
  simp only [get_bind] at done
  split at done
  case isTrue =>
    simp only [bind_eq_ok, discard_eq_ok] at done
    rcases done with ⟨properties, ensured, ensureDone, mark, marked, markDone, flagged, flagDone⟩
    rcases neutral_of_ensureProperties wellFormed closed inZone inStore ensureDone with
      ⟨toEnsured, isParent, -⟩
    have propertiesInZone := toEnsured.closed.child isParent inZone
    rcases neutral_of_ensureMarkProperties toEnsured.wellFormed toEnsured.closed propertiesInZone
      (lt_size_of_parent isParent) markDone with ⟨toMarked, isParent'⟩
    exact (toEnsured.trans toMarked).trans (neutral_of_setFlag toMarked.wellFormed toMarked.closed
      (toMarked.closed.child isParent' propertiesInZone) (lt_size_of_parent isParent') flagDone).1
  case isFalse =>
    rw [pure_eq_ok] at done
    exact done.2 ▸ Neutral.refl wellFormed closed

/-- Edits of known nodes that are neutral one by one are neutral in turn. -/
theorem neutral_of_forM {edit : NodeId → Edit Unit} (wellFormed : document.WellFormed)
    (closed : document.Closed zone rights)
    (known : ∀ node ∈ nodes, zone node ∧ node.index < document.size)
    (neutral : ∀ {before after : Document} {node result}, before.WellFormed →
      before.Closed zone rights → zone node → node.index < before.size →
      edit node before = .ok result after → Neutral zone rights before after)
    (done : (forM nodes edit) document = .ok result document') :
    Neutral zone rights document document' := by
  refine forM_invariant (Neutral zone rights document) ?_ (Neutral.refl wellFormed closed) done
  intro node isNode before after toBefore stepDone
  rcases known node isNode with ⟨inZone, inStore⟩
  exact toBefore.trans (neutral toBefore.wellFormed toBefore.closed inZone
    (Nat.lt_of_lt_of_le inStore toBefore.size_le) stepDone)

end Edit

/-- The nodes of a section are in the zone and in the store. -/
structure SectionNodes.Known (zone : NodeId → Prop) (document : Document) (nodes : SectionNodes) :
    Prop where
  topmost : ∀ node ∈ nodes.topmost, ∀ parent, document.parent node = some parent → zone parent
  runs : ∀ node ∈ nodes.runs, zone node ∧ node.index < document.size
  paragraphs : ∀ node ∈ nodes.paragraphs, zone node ∧ node.index < document.size
  rows : ∀ node ∈ nodes.rows, zone node ∧ node.index < document.size
  controlProperties : ∀ node ∈ nodes.controlProperties, zone node ∧ node.index < document.size

namespace SectionNodes

open Document

variable {zone : NodeId → Prop} {rights : Rights} {document before after : Document}
  {nodes : SectionNodes} {topmost : List NodeId}

theorem Known.of_changes (known : nodes.Known zone before)
    (changes : ChangesWithin zone rights before after) (wellFormed : before.WellFormed) :
    nodes.Known zone after where
  topmost node isNode :=
    changes.parent_mem wellFormed fun parent => known.topmost node isNode parent
  runs node isNode := (known.runs node isNode).imp_right (Nat.lt_of_lt_of_le · changes.size_le)
  paragraphs node isNode :=
    (known.paragraphs node isNode).imp_right (Nat.lt_of_lt_of_le · changes.size_le)
  rows node isNode := (known.rows node isNode).imp_right (Nat.lt_of_lt_of_le · changes.size_le)
  controlProperties node isNode :=
    (known.controlProperties node isNode).imp_right (Nat.lt_of_lt_of_le · changes.size_le)

/-- Detached nodes of a zone are collected with what is below them. -/
theorem known_collect (wellFormed : document.WellFormed) (closed : document.Closed zone rights)
    (inZone : ∀ node ∈ topmost, zone node) (detached : ∀ node ∈ topmost, document.parent node = none)
    (inStore : ∀ node ∈ topmost, node.index < document.size) :
    (collect document topmost).Known zone document := by
  have below : ∀ {name : String}, ∀ node ∈ (topmost.flatMap document.subtree).filter
      (document.isNamed · name), zone node ∧ node.index < document.size := by
    intro name node isNode
    rcases List.mem_flatMap.mp (List.mem_filter.mp isNode).1 with ⟨top, isTop, isBelow⟩
    have inside := (mem_subtree_iff wellFormed).mp isBelow
    exact ⟨closed.liesIn inside (inZone top isTop), lt_size_below inside (inStore top isTop)⟩
  exact ⟨fun node isNode parent isParent => by simp [detached node isNode] at isParent,
    below, below, below, below⟩

/-- The blocks of a section are topmost nodes with one parent. -/
theorem of_attachedBlocks {head : NodeId} {rest : List NodeId}
    (blocks : nodes.attachedBlocks document = head :: rest) :
    ∀ node ∈ head :: rest, node ∈ nodes.topmost ∧ (document.parent node).isSome = true ∧
      document.parent node = document.parent head := by
  rw [attachedBlocks] at blocks
  generalize filtered : nodes.topmost.filter _ = candidates at blocks
  rcases candidates with _ | ⟨first, others⟩
  · simp at blocks
  · dsimp only at blocks
    split at blocks
    case isFalse => simp at blocks
    case isTrue sameParent =>
      rw [List.cons.injEq] at blocks
      rcases blocks with ⟨rfl, rfl⟩
      intro node isNode
      have isCandidate := filtered ▸ isNode
      rw [List.mem_filter, Bool.and_eq_true, Bool.and_eq_true] at isCandidate
      exact ⟨isCandidate.1, isCandidate.2.1.2, by simpa using List.all_eq_true.mp sameParent node isNode⟩

/-- The ends of the blocks of a section are children of a node of the zone. -/
theorem Known.attachedRange? {first last : NodeId} (known : nodes.Known zone document)
    (found : nodes.attachedRange? document = some (first, last)) :
    ∃ parent, zone parent ∧ document.parent first = some parent ∧
      document.parent last = some parent := by
  rw [SectionNodes.attachedRange?] at found
  split at found
  case h_1 => simp at found
  case h_2 head rest blocks =>
    simp only [Option.some.injEq, Prod.mk.injEq] at found
    rcases found with ⟨rfl, rfl⟩
    have isBlock := of_attachedBlocks blocks
    have isLast : rest.getLast?.getD head ∈ head :: rest := by
      rcases isEnd : rest.getLast? with _ | last
      · simp
      · exact List.mem_cons_of_mem _ (List.mem_of_getLast? isEnd)
    rcases isBlock head List.mem_cons_self with ⟨isTopmost, hasParent, -⟩
    rcases Option.isSome_iff_exists.mp hasParent with ⟨parent, isParent⟩
    exact ⟨parent, known.topmost head isTopmost parent isParent, isParent,
      (isBlock _ isLast).2.2.trans isParent⟩

end SectionNodes

namespace Edit

open Outcome Document

variable {zone : NodeId → Prop} {rights : Rights} {document document' : Document}
  {id head first last : NodeId} {nodes : SectionNodes} {part : Section} {style : HidingStyle}
  {name : String} {result : Unit}

theorem neutral_of_hideNodes (wellFormed : document.WellFormed)
    (closed : document.Closed zone rights) (known : nodes.Known zone document)
    (inZone : zone head) (inStore : head.index < document.size)
    (done : hideNodes nodes head document = .ok result document') :
    Neutral zone rights document document' := by
  simp only [hideNodes, bind_eq_ok, List.forM_eq_forM] at done
  rcases done with ⟨⟨⟩, first, runsDone, ⟨⟩, second, paragraphsDone, ⟨⟩, third, rowsDone,
    controlsDone⟩
  have flagged : ∀ {name leading flag} {before after : Document} {node result},
      before.WellFormed → before.Closed zone rights → zone node → node.index < before.size →
      whenAttached node (do
        let properties ← ensureProperties node name leading
        discard (setFlag properties flag)) before = .ok result after →
      Neutral zone rights before after := fun formed closed inZone inStore =>
    neutral_of_whenAttached formed closed (neutral_of_flagged formed closed inZone inStore)
  have toFirst := neutral_of_forM wellFormed closed known.runs flagged runsDone
  have known₁ := known.of_changes toFirst.toChangesWithin wellFormed
  have toSecond : Neutral zone rights first second := by
    refine neutral_of_forM toFirst.wellFormed toFirst.closed (fun node isNode => ?_)
      neutral_of_hideParagraph paragraphsDone
    rcases List.mem_append.mp isNode with isParagraph | isHead
    · exact known₁.paragraphs node isParagraph
    · rw [List.mem_singleton.mp isHead]
      exact ⟨inZone, Nat.lt_of_lt_of_le inStore toFirst.size_le⟩
  have known₂ := known₁.of_changes toSecond.toChangesWithin toFirst.wellFormed
  have toThird := neutral_of_forM toSecond.wellFormed toSecond.closed known₂.rows flagged rowsDone
  have known₃ := known₂.of_changes toThird.toChangesWithin toSecond.wellFormed
  exact (toFirst.trans toSecond).trans (toThird.trans
    (neutral_of_forM toThird.wellFormed toThird.closed known₃.controlProperties flagged controlsDone))

/-- A planted element is a new node that carries what its tree says. -/
theorem fresh_of_plant {held : Element} {children : List Tree} (wellFormed : document.WellFormed)
    (done : plant (.element held children) document = .ok id document') :
    Fresh document document' id ∧ document'.content id = .element held := by
  cases done
  refine ⟨fresh_plant _ wellFormed, ?_⟩
  have isOld : document.nextId.index < (document.add (.element held)).size := by simp [nextId]
  rw [Document.plant, (planted_plantAllBelow children _ _ isOld).content_eq, content_add, if_pos rfl]

theorem runningTexts_of_plant_childless {held : Element} (wellFormed : document.WellFormed)
    (done : plant (.element held []) document = .ok id document') :
    document'.runningTexts id = [] := by
  cases done
  refine runningTexts_of_childless (wellFormed.add _) ?_ ?_
  · simp [isText, text?, Document.plant, Document.plantAllBelow, content_add, Content.text?]
  · change (document.add (.element held)).children document.nextId = []
    rw [children_add, children_of_size_le (show document.size ≤ document.nextId.index from
      Nat.le_refl _)]

theorem neutral_of_addBookmarks (wellFormed : document.WellFormed)
    (closed : document.Closed zone rights)
    (besideFirst : ∀ parent, document.parent first = some parent → zone parent)
    (besideLast : ∀ parent, document.parent last = some parent → zone parent)
    (done : addBookmarks part first last document = .ok result document') :
    Neutral zone rights document document' := by
  have untouched (same : document = document') : Neutral zone rights document document' :=
    same ▸ Neutral.refl wellFormed closed
  rcases hasId : part.id with _ | identifier
  · simp only [addBookmarks, hasId, pure_eq_ok] at done
    exact untouched done.2
  rcases hasName : part.bookmarkName with _ | name
  · simp only [addBookmarks, hasId, hasName, pure_eq_ok] at done
    exact untouched done.2
  simp only [addBookmarks, hasId, hasName, bind_eq_ok, Tree.node, List.map_cons,
    List.map_nil] at done
  rcases done with ⟨start, started, startDone, stop, stopped, stopDone, ⟨⟩, opened, openDone,
    closeDone⟩
  have isStart := (fresh_of_plant wellFormed startDone).1
  have isStop := (fresh_of_plant isStart.wellFormed stopDone).1
  have toStarted : Neutral zone rights document started := isStart.neutral wellFormed closed
  have toStopped : Neutral zone rights started stopped :=
    isStop.neutral toStarted.wellFormed toStarted.closed
  have toBoth := toStarted.trans toStopped
  have stopNew : document.size ≤ stop.index := Nat.le_trans toStarted.size_le isStop.isNew
  have startEmpty : stopped.runningTexts start = [] := by
    rw [toStopped.runningTexts_eq isStart.inStore,
      runningTexts_of_plant_childless wellFormed startDone]
  have startDetached : stopped.parent start = none := by
    rw [isStop.parent_eq isStart.inStore, isStart.detached]
  rcases neutral_of_insertBefore toBoth.wellFormed toBoth.closed
    (toBoth.toChangesWithin.parent_mem wellFormed besideFirst)
    (Nat.lt_of_lt_of_le isStart.inStore toStopped.size_le) (closed.fresh isStart.isNew)
    (movable_of_parent_none startDetached (closed.freshPlaces isStart.isNew)) startEmpty openDone with
    ⟨toOpened, -⟩
  have toAll := toBoth.trans toOpened
  have stopEmpty : opened.runningTexts stop = [] := by
    rw [toOpened.runningTexts_eq isStop.inStore,
      runningTexts_of_plant_childless isStart.wellFormed stopDone]
  have stopMovable : opened.Movable zone rights stop :=
    ⟨toOpened.toChangesWithin.parent_mem toBoth.wellFormed (by simp [isStop.detached]),
      fun _ _ => closed.freshPlaces stopNew⟩
  exact toAll.trans (neutral_of_insertAfter toAll.wellFormed toAll.closed
    (toAll.toChangesWithin.parent_mem wellFormed besideLast)
    (Nat.lt_of_lt_of_le isStop.inStore toOpened.size_le) (closed.fresh stopNew) stopMovable stopEmpty
    closeDone).1

theorem neutral_of_bookmarkSection (wellFormed : document.WellFormed)
    (closed : document.Closed zone rights) (known : nodes.Known zone document)
    (done : bookmarkSection part nodes document = .ok result document') :
    Neutral zone rights document document' := by
  simp only [bookmarkSection, get_bind] at done
  rcases found : nodes.attachedRange? document with _ | ⟨first, last⟩
  · simp only [found, pure_eq_ok] at done
    exact done.2 ▸ Neutral.refl wellFormed closed
  · simp only [found] at done
    rcases known.attachedRange? found with ⟨parent, inZone, isFirst, isLast⟩
    refine neutral_of_addBookmarks wellFormed closed ?_ ?_ done <;>
    · intro other isParent
      simp only [isFirst, isLast, Option.some.injEq] at isParent
      exact isParent ▸ inZone

/-- A content control whose only children are its properties and its content. -/
structure IsControl (document : Document) (control properties content : NodeId) : Prop where
  controlNamed : document.isNamed control Word.Name.contentControl = true
  propertiesNamed : document.isNamed properties Word.Name.contentControlProperties = true
  contentNamed : document.isNamed content Word.Name.contentControlContent = true
  children_control : document.children control = [properties, content]

namespace IsControl

variable {middle after : Document} {parent control properties content : NodeId}
  {left range right : List NodeId} (isControl : IsControl middle control properties content)
include isControl

theorem control_ne_content : control ≠ content := by
  rintro rfl
  have notControl := isNamed_eq_false isControl.controlNamed
    (show Word.Name.contentControl ≠ Word.Name.contentControlContent by decide)
  rw [isControl.contentNamed] at notControl
  exact absurd notControl (by decide)

/-- A control shows what its content shows. -/
theorem runningTexts_eq (wellFormed : middle.WellFormed) :
    middle.runningTexts control = (middle.children content).flatMap middle.runningTexts := by
  rw [runningTexts_of_showsChildren wellFormed
      (showsChildren_of_isNamed isControl.controlNamed (by decide)), isControl.children_control,
    List.flatMap_cons, List.flatMap_singleton,
    runningTexts_of_isNamed isControl.propertiesNamed (by decide), List.nil_append,
    runningTexts_of_showsChildren wellFormed
      (showsChildren_of_isNamed isControl.contentNamed (by decide))]

/-- It is still a control when it has the same children and nothing is named anew. -/
theorem of_content_eq (content_eq : ∀ id, after.content id = middle.content id)
    (children_control : after.children control = [properties, content]) :
    IsControl after control properties content := by
  have kept {id name} (named : middle.isNamed id name = true) : after.isNamed id name = true := by
    rw [isNamed_of_content_eq (content_eq id), named]
  exact ⟨kept isControl.controlNamed, kept isControl.propertiesNamed, kept isControl.contentNamed,
    children_control⟩

/-- Siblings that move into a new content control in their place keep their running text there. -/
theorem neutral_of_gathered (wellFormed : document.WellFormed) (closed : document.Closed zone rights)
    (toMiddle : Neutral zone rights document middle) (inZone : zone parent)
    (stretch : document.Stretch parent first last left range right)
    (children_parent : middle.children parent = left ++ control :: (range ++ right))
    (children_content : middle.children content = [])
    (others_eq : ∀ id, id.index < document.size → id ≠ parent →
      middle.children id = document.children id)
    (isNew : ∀ id ∈ [control, properties, content], document.size ≤ id.index)
    (done : (forM range (appendChild content)) middle = .ok result document') :
    Neutral zone rights document document' := by
  have rangeParent : ∀ id ∈ range, document.parent id = some parent := fun id =>
    stretch.parent_eq wellFormed
  have range_lt : ∀ id ∈ range, id.index < document.size := fun id isRange =>
    lt_size_of_parent (rangeParent id isRange)
  have newNotRange : ∀ id ∈ [control, properties, content], id ∉ range := fun id isMember isRange =>
    Nat.not_lt_of_le (isNew id isMember) (range_lt id isRange)
  have contentNew : document.size ≤ content.index := isNew content (by simp)
  have oldNotContent {id} (isOld : id.index < document.size) : id ≠ content := by
    rintro rfl
    exact Nat.not_lt_of_le contentNew isOld
  have rangeParent' : ∀ id ∈ range, middle.parent id = some parent := by
    intro id isRange
    rw [← toMiddle.wellFormed.mem_children_iff, children_parent]
    simp [isRange]
  have gathers := gathers_of_forM_appendChild toMiddle.wellFormed
    (lt_size_of_isNamed isControl.contentNamed)
    (fun id isRange => Nat.lt_of_lt_of_le (range_lt id isRange) toMiddle.size_le)
    (stretch.nodup wellFormed) done
  have toEnd : ChangesWithin zone rights middle document' :=
    gathers.changesWithin toMiddle.wellFormed toMiddle.closed (closed.fresh contentNew)
      (fun id isRange => toMiddle.closed.child (rangeParent' id isRange) inZone)
      (fun id isRange => movable_of_parent (rangeParent' id isRange) inZone)
  have changes := toMiddle.toChangesWithin.trans toEnd
  have endParent : document'.children parent = left ++ control :: right := by
    rw [gathers.children_eq, children_parent,
      if_neg (oldNotContent (parent_lt_size wellFormed stretch.isParent)), List.append_nil]
    have apart : ∀ id ∈ [control], id ∉ range := by simpa using newNotRange control (by simp)
    simpa using stretch.filter_children wellFormed apart
  have endControl : document'.runningTexts control = range.flatMap document'.runningTexts := by
    have isControl' : IsControl document' control properties content :=
      isControl.of_content_eq gathers.content_eq (by
        rw [gathers.children_eq, if_neg isControl.control_ne_content, isControl.children_control]
        simp [newNotRange properties, newNotRange content])
    rw [isControl'.runningTexts_eq changes.wellFormed, gathers.children_eq, children_content,
      if_pos rfl, List.filter_nil, List.nil_append]
  refine ⟨changes, ?_, ?_⟩
  · intro id isOld
    refine runningTexts_eq_of_children (fun id => id.index < document.size) wellFormed
      changes.wellFormed ?_ ?_ ?_ ?_ isOld
    · exact fun id _ child isChild => lt_size_of_mem_children wellFormed isChild
    · exact fun id isOld => changes.isText_eq isOld
    · exact fun id isOld => changes.isProperties_eq isOld
    · intro id isOld _ sameBelow
      by_cases isParent : id = parent
      · subst id
        rw [stretch.children_eq] at sameBelow
        rw [endParent, stretch.children_eq, ← List.flatMap_congr sameBelow]
        simp [endControl]
      · rw [gathers.children_eq, if_neg (oldNotContent isOld), List.append_nil,
          others_eq id isOld isParent, List.filter_eq_self.mpr]
        · exact List.flatMap_congr sameBelow
        · intro child isChild
          rw [decide_eq_true_eq]
          intro isRange
          rw [wellFormed.mem_children_iff, rangeParent child isRange, Option.some.injEq] at isChild
          exact isParent isChild.symm
  · intro id holder isOld isText isHolder named
    rw [gathers.parent_eq] at isHolder
    split at isHolder
    · rw [Option.some.injEq] at isHolder
      subst holder
      rw [toEnd.isNamed_eq (lt_size_of_isNamed isControl.contentNamed)] at named
      rw [isNamed_eq_false isControl.contentNamed (by decide)] at named
      simp at named
    · refine toMiddle.holder_eq isOld isText isHolder ?_
      rwa [← toEnd.isNamed_eq (parent_lt_size toMiddle.wellFormed isHolder)]

end IsControl

theorem fresh_of_createElement (wellFormed : document.WellFormed)
    (done : createElement name document = .ok id document') :
    Fresh document document' id ∧ document'.isNamed id name = true ∧ document'.children id = [] := by
  rcases createElement_eq_ok.mp done with ⟨rfl, rfl⟩
  refine ⟨fresh_add wellFormed _, ?_, ?_⟩
  · simp [isNamed, name?, element?, content_add, Content.element?]
  · rw [children_add, children_of_size_le (show document.size ≤ document.nextId.index from
      Nat.le_refl _)]

/-- `control` is a new content control that holds its properties and an empty content. -/
structure BuildsControl (before after : Document) (control properties content : NodeId) : Prop extends
    Fresh before after control where
  propertiesNew : before.size ≤ properties.index
  contentNew : before.size ≤ content.index
  controlNamed : after.isNamed control Word.Name.contentControl = true
  propertiesNamed : after.isNamed properties Word.Name.contentControlProperties = true
  contentNamed : after.isNamed content Word.Name.contentControlContent = true
  children_control : after.children control = [properties, content]
  children_content : after.children content = []

theorem BuildsControl.isControl {before after : Document} {control properties content : NodeId}
    (builds : BuildsControl before after control properties content) :
    IsControl after control properties content :=
  ⟨builds.controlNamed, builds.propertiesNamed, builds.contentNamed, builds.children_control⟩

theorem buildsControl {controlled planted created appended : Document}
    {control properties content : NodeId} (wellFormed : document.WellFormed)
    (controlDone : createElement Word.Name.contentControl document = .ok control controlled)
    (propertiesDone : plant part.controlProperties controlled = .ok properties planted)
    (contentDone : createElement Word.Name.contentControlContent planted = .ok content created)
    (propertiesPlaced : appendChild control properties created = .ok result appended)
    (contentPlaced : appendChild control content appended = .ok result document') :
    BuildsControl document document' control properties content := by
  rcases fresh_of_createElement wellFormed controlDone with
    ⟨isControl, controlNamed, controlEmpty⟩
  rw [Section.controlProperties] at propertiesDone
  rcases fresh_of_plant isControl.wellFormed propertiesDone with ⟨isProperties, carried⟩
  have propertiesNamed : planted.isNamed properties Word.Name.contentControlProperties = true := by
    simp [isNamed, name?, element?, carried, Content.element?]
  rcases fresh_of_createElement isProperties.wellFormed contentDone with
    ⟨isContent, contentNamed, contentEmpty⟩
  have toCreated : Adds controlled created := isProperties.toAdds.trans isContent.toAdds
  have controlFresh : Fresh document created control := isControl.adds toCreated
  have propertiesFresh : Fresh document created properties :=
    (isProperties.adds isContent.toAdds).since isControl.toAdds
  have contentFresh : Fresh document created content :=
    isContent.since (isControl.toAdds.trans isProperties.toAdds)
  have controlNotProperties : control ≠ properties := isControl.ne_of_later isProperties
  have controlNotContent : control ≠ content :=
    isControl.ne_of_later (isContent.since isProperties.toAdds)
  have contentNotProperties : content ≠ properties := (isProperties.ne_of_later isContent).symm
  have first := moves_of_appendChild isContent.wellFormed controlFresh.inStore
    propertiesFresh.inStore propertiesPlaced
  have controlFresh₁ := controlFresh.moves propertiesFresh controlNotProperties first
    controlFresh.isNew
  have contentFresh₁ := contentFresh.moves propertiesFresh contentNotProperties first
    controlFresh.isNew
  have second := moves_of_appendChild first.wellFormed controlFresh₁.inStore contentFresh₁.inStore
    contentPlaced
  have kept {id name} (named : created.isNamed id name = true) :
      document'.isNamed id name = true := by
    simpa only [isNamed, name?, element?, second.content_eq, first.content_eq] using named
  have keptByAdds {before id name} (adds : Adds before created) (inStore : id.index < before.size)
      (named : before.isNamed id name = true) : created.isNamed id name = true := by
    simpa only [isNamed, name?, element?, adds.content_eq inStore] using named
  refine ⟨controlFresh₁.moves contentFresh₁ controlNotContent second controlFresh.isNew,
    propertiesFresh.isNew, contentFresh.isNew, kept (keptByAdds toCreated isControl.inStore controlNamed),
    kept (keptByAdds isContent.toAdds isProperties.inStore propertiesNamed), kept contentNamed, ?_, ?_⟩
  · have emptyControl : created.children control = [] := by
      rw [toCreated.children_eq isControl.inStore, controlEmpty]
    rw [second.children_eq, if_pos rfl, first.children_eq, if_pos rfl, emptyControl]
    simp [contentNotProperties.symm]
  · rw [second.children_eq, if_neg controlNotContent.symm, first.children_eq,
      if_neg controlNotContent.symm, contentEmpty]
    rfl

theorem neutral_of_wrapInControl {wrapped : Bool} (wellFormed : document.WellFormed)
    (closed : document.Closed zone rights) (known : nodes.Known zone document)
    (done : wrapInControl part nodes document = .ok wrapped document') :
    Neutral zone rights document document' := by
  simp only [wrapInControl, get_bind] at done
  rcases found : nodes.attachedRange? document with _ | ⟨first, last⟩
  · simp only [found, pure_eq_ok] at done
    exact done.2 ▸ Neutral.refl wellFormed closed
  simp only [found, bind_eq_ok, pure_eq_ok, List.forM_eq_forM] at done
  rcases done with ⟨range, _, rangeDone, control, controlled, controlDone, properties, planted,
    propertiesDone, content, created, contentDone, ⟨⟩, appended, propertiesPlaced, ⟨⟩, built,
    contentPlaced, ⟨⟩, placed, controlPlaced, ⟨⟩, gathered, gatherDone, ⟨⟩, _, bookmarksDone, rfl,
    rfl⟩
  rcases siblingRange_eq_ok.mp rangeDone with ⟨rangeEq, rfl⟩
  rcases stretch_of_siblingRange rangeEq with ⟨parent, left, right, stretch⟩
  have builds := buildsControl wellFormed controlDone propertiesDone contentDone propertiesPlaced
    contentPlaced
  rcases known.attachedRange? found with ⟨above, inZone, isAbove, -⟩
  obtain rfl : parent = above := by
    rwa [stretch.isParent, Option.some.injEq] at isAbove
  have toBuilt : Neutral zone rights document built := builds.neutral wellFormed closed
  rcases moves_of_insertBefore builds.wellFormed builds.inStore controlPlaced with
    ⟨above, before, after, isAbove, -, moves⟩
  have parent_lt := parent_lt_size wellFormed stretch.isParent
  obtain rfl : parent = above := by
    rwa [builds.parent_eq (lt_size_of_parent stretch.isParent), stretch.isParent,
      Option.some.injEq] at isAbove
  have isOld {id} (isNew : document.size ≤ id.index) : parent ≠ id := by
    rintro rfl
    exact Nat.not_lt_of_le isNew parent_lt
  have toPlaced : Neutral zone rights built placed :=
    moves.neutral builds.wellFormed toBuilt.closed inZone (closed.fresh builds.isNew)
      (movable_of_parent_none builds.detached (closed.freshPlaces builds.isNew)) (by
        rw [builds.isControl.runningTexts_eq builds.wellFormed, builds.children_content]
        rfl)
  have unmoved := filter_children_of_parent_none builds.wellFormed builds.detached
  rcases range with _ | ⟨head, rest⟩
  · simpa using stretch.head_eq
  obtain rfl : head = first := by simpa using stretch.head_eq
  have atHead : document.children parent = left ++ head :: (rest ++ right) := by
    rw [stretch.children_eq]
    simp
  have nodup := atHead ▸ wellFormed.nodup_children parent
  have around := moves.others_eq
  rw [unmoved, builds.children_eq parent_lt, atHead] at around
  rcases append_cons_inj nodup around with ⟨rfl, rfl⟩
  have toGathered : Neutral zone rights document gathered := by
    have isControl : IsControl placed control properties content :=
      builds.isControl.of_content_eq moves.content_eq (by
        rw [moves.children_eq, if_neg (isOld builds.isNew).symm, unmoved, builds.children_control])
    refine isControl.neutral_of_gathered wellFormed closed (toBuilt.trans toPlaced) inZone stretch
      ?_ ?_ ?_ (by simp [builds.isNew, builds.propertiesNew, builds.contentNew]) gatherDone
    · rw [moves.children_eq, if_pos rfl]
      rfl
    · rw [moves.children_eq, if_neg (isOld builds.contentNew).symm, unmoved, builds.children_content]
    · intro id inStore notParent
      rw [moves.children_eq, if_neg notParent, unmoved, builds.children_eq inStore]
  have besideControl : ∀ above, gathered.parent control = some above → zone above :=
    toGathered.toChangesWithin.parent_mem wellFormed (by simp [parent_of_size_le builds.isNew])
  exact toGathered.trans (neutral_of_addBookmarks toGathered.wellFormed toGathered.closed
    besideControl besideControl bookmarksDone)

end Edit

namespace Section

open Outcome Document Edit

variable {zone : NodeId → Prop} {rights : Rights} {document document' : Document} {head : NodeId}
  {nodes : SectionNodes} {part : Section} {style : HidingStyle} {result : Unit}

/-- What hides or marks a section leaves all running text as it is. -/
theorem neutral_of_finish (wellFormed : document.WellFormed)
    (closed : document.Closed zone rights) (known : nodes.Known zone document)
    (inZone : zone head) (inStore : head.index < document.size)
    (done : finish style part nodes head document = .ok result document') :
    Neutral zone rights document document' := by
  cases style with
  | contentControl =>
      simp only [finish, bind_eq_ok] at done
      rcases done with ⟨wrapped, middle, wrapDone, done⟩
      have toMiddle := neutral_of_wrapInControl wellFormed closed known wrapDone
      split at done
      case isTrue =>
        exact toMiddle.trans (neutral_of_hideNodes toMiddle.wellFormed toMiddle.closed
          (known.of_changes toMiddle.toChangesWithin wellFormed) inZone
          (Nat.lt_of_lt_of_le inStore toMiddle.size_le) done)
      case isFalse =>
        rw [pure_eq_ok] at done
        exact done.2 ▸ toMiddle
  | vanishRuns =>
      simp only [finish] at done
      split at done
      case isTrue =>
        simp only [bind_eq_ok] at done
        rcases done with ⟨⟨⟩, middle, hideDone, bookmarkDone⟩
        have toMiddle := neutral_of_hideNodes wellFormed closed known inZone inStore hideDone
        exact toMiddle.trans (neutral_of_bookmarkSection toMiddle.wellFormed toMiddle.closed
          (known.of_changes toMiddle.toChangesWithin wellFormed) bookmarkDone)
      case isFalse => exact neutral_of_bookmarkSection wellFormed closed known done

end Section

end WordTemplate
