import WordTemplate.Leaf.Link
import WordTemplate.Proofs.Leaf.Insertion
import WordTemplate.Proofs.Word.Splitting

/-!
# Inserting hyperlinks

The run around a tag is split behind the carrier of the tag, a new hyperlink is placed after it, and
the carrier is detached.
-/

namespace WordTemplate

/-- The link at a scope path. -/
def Context.linkAt (context : Context) (path : ScopePath) : Option Link :=
  (context.valueAt path).bind Link.ofValue?

end WordTemplate

namespace WordTemplate.Leaf

open Outcome Document Edit

variable {zone : NodeId → Prop} {base : Nat} {start document document' : Document}
  {textNode run child : NodeId} {texts rest : List NodeId} {result : Unit}
  {context : Context} {tag : Tag} {workspace workspace' : Workspace}

/-- `after` was reached from `before`, and what stands around a text node is the same. -/
structure Unmoved (zone : NodeId → Prop) (base : Nat) (start before after : Document)
    (text : NodeId) (texts : List NodeId) : Prop extends Reached zone base start after texts where
  grows : before.size ≤ after.size
  parent_eq : ∀ id, before.LiesIn id text → after.parent id = before.parent id
  isNamed_eq : ∀ id name, id.index < before.size → after.isNamed id name = before.isNamed id name

namespace Unmoved

variable (unmoved : Unmoved zone base start document document' textNode texts)
include unmoved

theorem liesIn {id : NodeId} (inside : document.LiesIn id textNode) :
    document'.LiesIn id textNode :=
  (liesIn_iff_of_parent_eq unmoved.parent_eq).mpr inside

theorem hosts {parent : NodeId} (wellFormed : document.WellFormed)
    (hosts : document.Hosts textNode parent) : document'.Hosts textNode parent :=
  hosts.of_parent_eq unmoved.parent_eq fun holder isHolder =>
    unmoved.isNamed_eq holder _ (parent_lt_size wellFormed isHolder)

end Unmoved

/-- The copies of properties in a new half of a run. -/
theorem splitRunAfter_eq (run child : NodeId) :
    splitRunAfter run child = (do
      let document ← get
      match ((document.children run).dropWhile (· != child)).drop 1 with
      | [] => pure ()
      | trailing => do
          let tail ← copyNode run
          (document.childNamed? run Word.Name.runProperties).toList.forM fun properties => do
            let copy ← copySubtree properties
            appendChild tail copy.root
          trailing.forM (appendChild tail)
          insertAfter tail run) := by
  rw [splitRunAfter]
  congr
  funext document
  rcases ((document.children run).dropWhile (· != child)).drop 1 with _ | ⟨first, others⟩
  · rfl
  · cases document.childNamed? run Word.Name.runProperties <;> simp

/-- Where a list is cut behind one of its members. -/
theorem exists_of_dropWhile {ids trailing : List NodeId}
    (dropped : (ids.dropWhile (· != child)).drop 1 = trailing) (nonempty : trailing ≠ []) :
    ∃ before, ids = (before ++ [child]) ++ trailing := by
  rcases found : ids.dropWhile (· != child) with _ | ⟨first, others⟩
  · rw [found] at dropped
    exact (nonempty dropped.symm).elim
  · rw [found, List.drop_one, List.tail_cons] at dropped
    have notKept := List.head_dropWhile_not (· != child) (l := ids) (by simp [found])
    simp only [found, List.head_cons, bne_eq_false_iff_eq] at notKept
    refine ⟨ids.takeWhile (· != child), ?_⟩
    rw [List.append_assoc, List.singleton_append, ← dropped]
    subst notKept
    rw [← found, List.takeWhile_append_dropWhile]

/-- Splitting the run around a pending text node behind its carrier. -/
theorem unmoved_of_splitRunAfter (reached : Reached zone base start document texts)
    (isMember : textNode ∈ texts) (named : document.isNamed run Word.Name.run = true)
    (above : document.LiesIn run textNode) (around : document.LiesIn child textNode)
    (done : splitRunAfter run child document = .ok result document') :
    Unmoved zone base start document document' textNode texts := by
  rw [splitRunAfter_eq, get_bind] at done
  rcases dropped : ((document.children run).dropWhile (· != child)).drop 1 with _ | ⟨first, others⟩
  · simp only [dropped, pure_eq_ok] at done
    rcases done with ⟨-, rfl⟩
    exact ⟨reached, Nat.le_refl _, fun _ _ => rfl, fun _ _ _ => rfl⟩
  · simp only [dropped, bind_eq_ok, copyNode_eq_ok, List.forM_eq_forM] at done
    rcases done with ⟨_, _, ⟨rfl, rfl⟩, ⟨⟩, copied, copyDone, ⟨⟩, gathered, gatherDone, insertDone⟩
    rcases exists_of_dropWhile dropped (by simp) with ⟨before, children⟩
    have formed := reached.wellFormed
    have outerInZone : ∀ outer, document.parent run = some outer → zone outer :=
      fun outer isOuter => reached.inZone isMember (above.trans (.parent isOuter))
    have inZone := reached.inZone isMember above
    rcases halves_of_copied formed reached.closed children (lt_size_of_isNamed named) inZone
      outerInZone (fun sibling isSibling => by
        rw [Option.mem_toList] at isSibling
        rcases parent_of_childNamed? formed isSibling with ⟨isParent, isNamed⟩
        exact ⟨isParent, by rw [isProperties_of_isNamed isNamed]; decide⟩)
      copyDone gatherDone insertDone with ⟨halves, changes⟩
    have shows := showsChildren_of_isNamed named (by decide)
    refine ⟨reached.halves halves changes shows (isNamed_eq_false named (by decide)),
      changes.size_le, fun id inside => halves.parent_eq id ?_ fun isMoved => ?_,
      fun id name isOld => changes.isNamed_eq isOld name⟩
    · exact lt_size_of_liesIn formed inside (reached.lt_size isMember)
    · have nodup := formed.nodup_children run
      rw [children] at nodup
      have isChild : ∀ id ∈ (before ++ [child]) ++ first :: others,
          document.parent id = some run := fun id isMember => by
        rwa [← formed.mem_children_iff, children]
      have differ : child ≠ id := by
        rintro rfl
        exact (List.nodup_append.mp nodup).2.2 child (by simp) child isMoved rfl
      exact not_liesIn_of_siblings formed (isChild child (by simp))
        (isChild id (List.mem_append_right _ isMoved)) differ around inside

/-- A copy of a subtree is new. -/
theorem fresh_of_copySubtree {id : NodeId} {copy : SubtreeCopy} (wellFormed : document.WellFormed)
    (inStore : id.index < document.size) (done : copySubtree id document = .ok copy document') :
    Fresh document document' copy.root := by
  have copied := copies_of_copySubtree wellFormed inStore done
  have isPair : (id, copy.root) ∈ copy.pairs := by simpa using copied.tops
  rcases copied.le_index isPair with ⟨isNew, inStore⟩
  exact ⟨⟨copied.retains, copied.wellFormed, copied.root_eq⟩, isNew, inStore,
    copied.parent_eq _ List.mem_cons_self⟩

/-- A copy of the properties of a run, or new ones if it has none. -/
def copyRunProperties (source : NodeId) : Edit NodeId := do
  match (← get).childNamed? source Word.Name.runProperties with
  | some existing => return (← copySubtree existing).root
  | none => createElement Word.Name.runProperties

/-- The style of a hyperlink is one of the properties of its run. -/
theorem createLinkRun_eq (source : NodeId) (text : String) :
    createLinkRun source text = (do
      let run ← createElement Word.Name.run
      let properties ← copyRunProperties source
      appendChild run properties
      let style ← ensureProperties properties Word.Name.runStyle []
      setAttribute style Word.Name.value "Hyperlink"
      let textElement ← plant
        (.node Word.Name.text [(Word.Name.space, "preserve")] [.text text])
      appendChild run textElement
      return run) := by
  have none_leading (ids : List NodeId) : (ids.takeWhile fun _ => false) = [] := by
    cases ids <;> rfl
  have styled {rest : NodeId → Edit NodeId} (properties : NodeId) :
      ensureProperties properties Word.Name.runStyle [] >>= rest = (do
        match (← get).childNamed? properties Word.Name.runStyle with
        | some existing => rest existing
        | none =>
            let created ← createElement Word.Name.runStyle
            insertChild properties 0 created
            rest created) := by
    funext document
    rcases found : document.childNamed? properties Word.Name.runStyle with _ | existing <;>
      simp [ensureProperties, get_bind, found, none_leading]
  simp only [createLinkRun, copyRunProperties, styled, bind_assoc]
  congr
  funext run
  congr
  funext document
  cases document.childNamed? source Word.Name.runProperties <;>
    rfl

theorem fresh_of_copyRunProperties {source properties : NodeId} (wellFormed : document.WellFormed)
    (done : copyRunProperties source document = .ok properties document') :
    Fresh document document' properties := by
  rw [copyRunProperties, get_bind] at done
  rcases found : document.childNamed? source Word.Name.runProperties with _ | existing
  · simp only [found, createElement_eq_ok] at done
    rcases done with ⟨rfl, rfl⟩
    exact fresh_add wellFormed _
  · simp only [found, bind_eq_ok, pure_eq_ok] at done
    rcases done with ⟨copy, _, copyDone, rfl, rfl⟩
    exact fresh_of_copySubtree wellFormed
      (lt_size_of_parent (parent_of_childNamed? wellFormed found).1) copyDone

/-- New properties of a new node leave every other new node detached. -/
theorem fresh_of_ensureProperties {node parent properties : NodeId} {name : String}
    {middle : Document} (wellFormed : document.WellFormed) (fresh : Fresh document middle node)
    (isNew : document.size ≤ parent.index) (inStore : parent.index < middle.size)
    (done : ensureProperties parent name [] middle = .ok properties document') :
    Fresh document document' node ∧ document.size ≤ properties.index := by
  rw [ensureProperties, get_bind] at done
  rcases found : middle.childNamed? parent name with _ | existing
  · simp only [found, bind_eq_ok, createElement_eq_ok, pure_eq_ok] at done
    rcases done with ⟨_, _, ⟨rfl, rfl⟩, ⟨⟩, inserted, insertDone, rfl, rfl⟩
    have created := fresh_add fresh.wellFormed (.element { name })
    have moves := moves_of_insertChild created.wellFormed
      (Nat.lt_of_lt_of_le inStore created.size_le) created.inStore insertDone
    exact ⟨(fresh.adds created.toAdds).moves (created.since fresh.toAdds)
      (fresh.ne_of_later created) moves isNew, (created.since fresh.toAdds).isNew⟩
  · simp only [found, pure_eq_ok] at done
    rcases done with ⟨rfl, rfl⟩
    exact ⟨fresh, fresh.toAdds.isNew_of_parent (fun _ _ => parent_lt_size wellFormed)
      (parent_of_childNamed? fresh.wellFormed found).1 isNew⟩

/-- The run of a hyperlink is new. -/
theorem fresh_of_createLinkRun {source linkRun : NodeId} {text : String}
    (wellFormed : document.WellFormed)
    (done : createLinkRun source text document = .ok linkRun document') :
    Fresh document document' linkRun := by
  simp only [createLinkRun_eq, bind_eq_ok, createElement_eq_ok, setAttribute_eq_ok, plant_eq_ok,
    pure_eq_ok] at done
  rcases done with ⟨_, _, ⟨rfl, rfl⟩, properties, formatted, propertiesDone, ⟨⟩, attached,
    attachDone, style, styled, styleDone, ⟨⟩, _, rfl, _, _, ⟨rfl, rfl⟩, ⟨⟩, final, appendDone,
    rfl, rfl⟩
  have run := fresh_add wellFormed (.element { name := Word.Name.run })
  have created := fresh_of_copyRunProperties run.wellFormed propertiesDone
  have properties := created.since run.toAdds
  have grown := run.adds created.toAdds
  have attachMoves := moves_of_appendChild grown.wellFormed grown.inStore properties.inStore
    attachDone
  have attachedRun := grown.moves properties (run.ne_of_later created) attachMoves grown.isNew
  rcases fresh_of_ensureProperties wellFormed attachedRun properties.isNew
    (by rw [attachMoves.size_eq]; exact properties.inStore) styleDone with ⟨styledRun, styleNew⟩
  have styledRun := styledRun.setAttribute styleNew Word.Name.value "Hyperlink"
  have planted := fresh_plant (.node Word.Name.text [(Word.Name.space, "preserve")] [.text text])
    styledRun.wellFormed
  have appendMoves := moves_of_appendChild planted.wellFormed
    (Nat.lt_of_lt_of_le styledRun.inStore planted.size_le) planted.inStore appendDone
  exact (styledRun.adds planted.toAdds).moves (planted.since styledRun.toAdds)
    (styledRun.ne_of_later planted) appendMoves styledRun.isNew

/-- A detached hyperlink with a run in it. -/
theorem fresh_of_createHyperlink {hyperlink source linkRun : NodeId} {id text : String}
    {created attributed formatted : Document} (wellFormed : document.WellFormed)
    (createDone : createElement Word.Name.hyperlink document = .ok hyperlink created)
    (attributeDone : setAttribute hyperlink Word.Name.relationshipId id created =
      .ok result attributed)
    (runDone : createLinkRun source text attributed = .ok linkRun formatted)
    (appendDone : appendChild hyperlink linkRun formatted = .ok result document') :
    Fresh document document' hyperlink := by
  rw [createElement_eq_ok] at createDone
  rw [setAttribute_eq_ok] at attributeDone
  rcases createDone with ⟨rfl, rfl⟩
  subst attributeDone
  have link := (fresh_add wellFormed (.element { name := Word.Name.hyperlink })).setAttribute
    (Nat.le_refl _) Word.Name.relationshipId id
  have linkRun := fresh_of_createLinkRun link.wellFormed runDone
  have moves := moves_of_appendChild linkRun.wellFormed
    (Nat.lt_of_lt_of_le link.inStore linkRun.size_le) linkRun.inStore appendDone
  exact (link.adds linkRun.toAdds).moves (linkRun.since link.toAdds) (link.ne_of_later linkRun)
    moves link.isNew

/-- A hyperlink in place of the carrier of the first pending text node. -/
theorem reached_of_insertHyperlink {id text : String}
    (ready : Ready zone base document (textNode :: rest))
    (isRun : document.run? textNode = some run)
    (done : insertHyperlink run (document.textUnit textNode) id text document =
      .ok result document') :
    Reached zone base document document' rest := by
  have reached : Reached zone base document document (textNode :: rest) := ready
  have isMember : textNode ∈ textNode :: rest := List.mem_cons_self
  have formed := reached.wellFormed
  rcases liesIn_of_ancestorNamed? formed isRun with ⟨above, named⟩
  have isOld := reached.lt_size isMember
  have run_lt := lt_size_of_isNamed named
  rcases liesIn_textUnit_of_isNamed above named (by decide) (reached.isText isMember) with
    ⟨runAbove, differ⟩
  have around := liesIn_textUnit document textNode
  simp only [insertHyperlink, bind_eq_ok, get_bind] at done
  rcases done with ⟨⟨⟩, split, splitDone, hyperlink, created, createDone, ⟨⟩, attributed,
    attributeDone, linkRun, formatted, runDone, ⟨⟩, linked, linkDone, ⟨⟩, placed, placeDone, ⟨⟩, cut,
    cutDone, done⟩
  have unmoved := unmoved_of_splitRunAfter reached isMember named above around splitDone
  have hosts : ∀ parent, split.parent run = some parent → split.Hosts textNode parent := by
    intro parent isParent
    rw [unmoved.parent_eq run above] at isParent
    exact unmoved.hosts formed (hosts_of_parent formed isParent runAbove)
  have link := fresh_of_createHyperlink unmoved.wellFormed createDone attributeDone runDone linkDone
  rcases placed_of_fresh unmoved.toReached isMember
    (Nat.lt_of_lt_of_le run_lt unmoved.grows) hosts link placeDone with ⟨parent, beside⟩
  have split_lt : ∀ id, document.LiesIn id textNode → id.index < split.size := fun id inside =>
    Nat.lt_of_lt_of_le (lt_size_of_liesIn formed inside isOld) unmoved.grows
  have stays : ∀ id, document.LiesIn id textNode → placed.LiesIn id textNode := by
    intro id inside
    refine beside.above id ((liesIn_iff_of_parent_eq fun other inside' => ?_).mpr
      (unmoved.liesIn inside))
    exact link.parent_eq (lt_size_of_liesIn unmoved.wellFormed inside' (split_lt _ .refl))
  rw [detach_eq_ok] at cutDone
  subst cutDone
  have detached := beside.toReached.detach (stays _ around)
    (lt_size_of_liesIn formed around isOld)
  rcases isParent : (placed.detach (document.textUnit textNode)).parent run with _ | outer
  · simp only [isParent, pure_eq_ok] at done
    exact done.2 ▸ detached
  · simp only [isParent] at done
    rw [parent_detach beside.wellFormed, if_neg differ] at isParent
    have inZone := beside.inZone isMember ((stays run above).trans (.parent isParent))
    exact detached.neutral (neutral_of_removeEmptyRuns detached.wellFormed detached.closed inZone
      done)

/-- The link that is bound to a tag is the one at the scope path. -/
theorem boundLink?_eq (context : Context) (tag : Tag) (workspace : Workspace) :
    ∃ journal, boundLink? context tag workspace =
      .ok (context.linkAt workspace.path) { workspace with journal } := by
  rw [boundLink?, Context.boundValue?_bind, Context.linkAt]
  rcases context.valueAt workspace.path with _ | value
  · exact ⟨_, rfl⟩
  · dsimp only [Option.bind_some]
    rcases Link.ofValue? value with _ | link
    · exact ⟨_, rfl⟩
    · exact ⟨_, rfl⟩

theorem idles_of_boundLink? {link : Option Link}
    (done : boundLink? context tag workspace = .ok link workspace') :
    workspace.Idles workspace' := by
  rcases boundLink?_eq context tag workspace with ⟨journal, isBound⟩
  rw [isBound] at done
  cases done
  exact ⟨⟨rfl, rfl⟩, rfl⟩

/-- Replacing a tag by a hyperlink. -/
theorem reached_of_replaceByLink (services : context.services.Idle)
    (ready : Ready zone base workspace.document (tag.textNode :: rest))
    (done : replaceByLink context tag workspace = .ok result workspace') :
    workspace.Resumes workspace' ∧
      Reached zone base workspace.document workspace'.document rest := by
  simp only [replaceByLink, bind_eq_ok, get_bind] at done
  rcases done with ⟨link, bound, boundDone, done⟩
  have idles := idles_of_boundLink? boundDone
  rw [← idles.document_eq] at ready ⊢
  have reached : Reached zone base bound.document bound.document (tag.textNode :: rest) := ready
  rcases link with _ | link
  · simp only [edit_work_eq_ok, detach_eq_ok] at done
    rcases done with ⟨_, rfl, rfl⟩
    exact ⟨⟨idles.path_eq, idles.dispatches_eq⟩, reached_of_removed ready LiesIn.refl⟩
  · rcases isRun : bound.document.run? tag.textNode with _ | run
    · simp only [isRun, bind_eq_ok, edit_work_eq_ok, setText_eq_ok] at done
      rcases done with ⟨⟨⟩, noted, noteDone, _, ⟨isText, rfl⟩, rfl⟩
      have noted := Work.idles_of_note noteDone
      have idles := idles.trans noted
      rw [noted.document_eq] at isText ⊢
      have inZone := reached.inZone List.mem_cons_self LiesIn.refl
      exact ⟨⟨idles.path_eq, idles.dispatches_eq⟩,
        (reached.neutral (neutral_setText reached.wellFormed reached.closed inZone
          (reached.low _ inZone) isText _)).sublist (List.sublist_cons_self _ _)⟩
    · simp only [isRun, bind_eq_ok, edit_work_eq_ok] at done
      rcases done with ⟨id, related, relateDone, ⟨⟩, noted, noteDone, final, linkDone, rfl⟩
      have related := services.addRelationship relateDone
      have noted := related.trans (Work.idles_of_note noteDone)
      have idles := idles.trans noted
      rw [noted.document_eq] at linkDone
      exact ⟨⟨idles.path_eq, idles.dispatches_eq⟩, reached_of_insertHyperlink ready isRun linkDone⟩

end WordTemplate.Leaf
