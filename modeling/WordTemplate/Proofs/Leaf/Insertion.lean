import WordTemplate.Leaf.Picture
import WordTemplate.Leaf.RawMarkup
import WordTemplate.Proofs.Document.Reached
import WordTemplate.Proofs.Filling.Working
import WordTemplate.Proofs.Word.Taking

/-!
# Inserting markup and pictures

New nodes are placed before the carrier of a tag or before the paragraph around it, and then the
carrier or the paragraph is detached.
-/

namespace WordTemplate

/-- The picture at a scope path with the bytes of its image. -/
def Context.pictureAt (context : Context) (path : ScopePath) : Option (Picture × List UInt8) :=
  ((context.valueAt path).bind Picture.ofValue?).bind fun picture =>
    picture.decode?.map (picture, ·)

end WordTemplate

namespace WordTemplate.Leaf

open Outcome Document Edit

variable {zone : NodeId → Prop} {base : Nat} {start document document' : Document}
  {textNode target : NodeId} {nodes texts rest : List NodeId} {result : Unit}
  {context : Context} {tag : Tag} {workspace workspace' : Workspace}

/-- New nodes are placed before something around a pending text node. -/
theorem reached_of_forM_insertBefore (reached : Reached zone base start document texts)
    (isMember : textNode ∈ texts)
    (hosts : ∀ parent, document.parent target = some parent → document.Hosts textNode parent)
    (nodup : nodes.Nodup) (areNew : ∀ node ∈ nodes, start.size ≤ node.index ∧
      node.index < document.size ∧ document.parent node = none)
    (done : (forM nodes fun node => insertBefore node target) document = .ok result document') :
    Reached zone base start document' texts ∧
      ∀ id, document.LiesIn id textNode → document'.LiesIn id textNode := by
  induction nodes generalizing document with
  | nil =>
      rw [forM_nil_eq_ok] at done
      exact done ▸ ⟨reached, fun _ => id⟩
  | cons node nodes inductionHypothesis =>
      rw [forM_cons_eq_ok] at done
      rcases done with ⟨middle, insertDone, done⟩
      rcases List.nodup_cons.mp nodup with ⟨notLater, nodup⟩
      rcases areNew node List.mem_cons_self with ⟨isNew, inStore, detached⟩
      rcases placed_of_insertBefore reached isMember hosts detached isNew inStore insertDone with
        ⟨parent, isParent, placed⟩
      have differ : target ≠ node := by
        rintro rfl
        simp [detached] at isParent
      have parent_eq := placed.parent_eq target
      rw [if_neg differ, isParent] at parent_eq
      have others : ∀ other ∈ nodes, start.size ≤ other.index ∧ other.index < middle.size ∧
          middle.parent other = none := by
        intro other isOther
        rcases areNew other (List.mem_cons_of_mem node isOther) with ⟨isNew, inStore, detached⟩
        have differ : other ≠ node := fun same => notLater (same ▸ isOther)
        rw [placed.size_eq, placed.parent_eq, if_neg differ]
        exact ⟨isNew, inStore, detached⟩
      rcases inductionHypothesis placed.toReached (fun outer isOuter => by
          have nodeParent := placed.parent_eq node
          rw [if_pos rfl, ← parent_eq, isOuter] at nodeParent
          exact placed.hosts outer nodeParent) nodup others done with ⟨reached', above⟩
      exact ⟨reached', fun id inside => above id (placed.above id inside)⟩

theorem idles_of_ofValue {value : Data.Value} {markup : RawMarkup}
    (done : RawMarkup.ofValue value workspace = .ok markup workspace') :
    workspace.Idles workspace' := by
  unfold RawMarkup.ofValue at done
  split at done
  · rw [pure_eq_ok] at done
    exact done.2 ▸ .refl workspace
  · rename_i fields
    rcases read : RawMarkup.ofRecord? (.object fields) with _ | markup'
    · simp only [read, bind_eq_ok, pure_eq_ok] at done
      rcases done with ⟨⟨⟩, noted, noteDone, -, rfl⟩
      exact Work.idles_of_note noteDone
    · simp only [read, pure_eq_ok] at done
      exact done.2 ▸ .refl workspace
  · rw [pure_eq_ok] at done
    exact done.2 ▸ .refl workspace

/-- The paragraph around a text node, if there is one, is around the carrier of the node. -/
theorem liesIn_paragraph_or_unit (wellFormed : document.WellFormed)
    (isText : document.isText textNode = true) :
    document.LiesIn ((document.paragraph? textNode).getD (document.textUnit textNode))
      (document.textUnit textNode) := by
  rcases found : document.paragraph? textNode with _ | paragraph
  · exact LiesIn.refl
  · rcases liesIn_of_ancestorNamed? wellFormed found with ⟨above, named⟩
    exact (liesIn_textUnit_of_isNamed above named (by decide) isText).1

/-- New nodes are placed before something around the carrier of the first pending text node, which
is then detached. -/
theorem reached_of_replaced {middle : Document}
    (ready : Ready zone base document (textNode :: rest)) (adds : Adds document middle)
    (above : document.LiesIn target (document.textUnit textNode)) (nodup : nodes.Nodup)
    (areNew : ∀ node ∈ nodes, document.size ≤ node.index ∧ node.index < middle.size ∧
      middle.parent node = none)
    (done : (forM nodes fun node => insertBefore node target) middle = .ok ⟨⟩ document') :
    Reached zone base document (document'.detach target) rest := by
  have isMember : textNode ∈ textNode :: rest := List.mem_cons_self
  have reached : Reached zone base document document (textNode :: rest) := ready
  have isOld := reached.lt_size isMember
  have targetAbove := (liesIn_textUnit document textNode).trans above
  have target_lt := lt_size_of_liesIn reached.wellFormed targetAbove isOld
  have hosts : ∀ parent, middle.parent target = some parent → middle.Hosts textNode parent := by
    intro parent isParent
    rw [adds.parent_eq target_lt] at isParent
    exact (hosts_of_parent reached.wellFormed isParent above).adds adds reached.wellFormed isOld
  rcases reached_of_forM_insertBefore (reached.adds adds) isMember hosts nodup areNew done with
    ⟨reached', inside⟩
  refine reached'.detach (inside target ?_) target_lt
  refine (liesIn_iff_of_parent_eq fun id above => adds.parent_eq ?_).mpr targetAbove
  exact lt_size_of_liesIn reached.wellFormed above isOld

/-- Something around the carrier of the first pending text node is detached. -/
theorem reached_of_removed (ready : Ready zone base document (textNode :: rest))
    (above : document.LiesIn target (document.textUnit textNode)) :
    Reached zone base document (document.detach target) rest :=
  reached_of_replaced ready (.refl ready.wellFormed) above List.nodup_nil (by simp)
    (forM_nil_eq_ok.mpr rfl)

theorem adds_of_workReadFragment {source : String} (wellFormed : workspace.document.WellFormed)
    (done : Work.readFragment source workspace = .ok nodes workspace') :
    workspace.Resumes workspace' ∧ Adds workspace.document workspace'.document ∧ nodes.Nodup ∧
      ∀ node ∈ nodes, workspace.document.size ≤ node.index ∧
        node.index < workspace'.document.size ∧ workspace'.document.parent node = none := by
  simp only [Work.readFragment, bind_eq_ok, edit_work_eq_ok] at done
  rcases done with ⟨⟨⟩, noted, noteDone, edited, readDone, rfl⟩
  have idles := Work.idles_of_noteAll noteDone
  rw [idles.document_eq] at readDone
  exact ⟨⟨idles.path_eq, idles.dispatches_eq⟩, adds_of_readFragment wellFormed readDone⟩

/-- The markup that is bound to a tag. -/
def boundMarkup (context : Context) : Work RawMarkup := do
  match ← context.boundValue? with
  | some value => RawMarkup.ofValue value
  | none => pure {}

/-- Inserts markup in place of a tag or of the paragraph around it. -/
def insertMarkup (tag : Tag) (markup : RawMarkup) : Work Unit := do
  let document := (← get).document
  let carrier := document.textUnit tag.textNode
  let target :=
    if markup.replacesParagraph then (document.paragraph? tag.textNode).getD carrier else carrier
  match markup.inserted? with
  | none => pure ()
  | some source =>
      let nodes ← Work.readFragment source
      Work.note .trace
        ("Inserting " ++ Text.decimalText nodes.length ++ " raw node(s) for '" ++ tag.name ++ "'")
      nodes.forM fun node => (Edit.insertBefore node target : Work Unit)
  Edit.detach target

theorem replaceByMarkup_eq (context : Context) (tag : Tag) :
    replaceByMarkup context tag = (do insertMarkup tag (← boundMarkup context)) := by
  simp only [replaceByMarkup, boundMarkup, insertMarkup, bind_assoc]
  congr
  funext value
  cases value <;> rfl

/-- Replacing a tag by markup. -/
theorem reached_of_replaceByMarkup
    (ready : Ready zone base workspace.document (tag.textNode :: rest))
    (done : replaceByMarkup context tag workspace = .ok result workspace') :
    workspace.Resumes workspace' ∧
      Reached zone base workspace.document workspace'.document rest := by
  rw [replaceByMarkup_eq] at done
  simp only [bind_eq_ok] at done
  rcases done with ⟨markup, bound, boundDone, done⟩
  have idles : workspace.Idles bound := by
    simp only [boundMarkup, bind_eq_ok, Context.boundValue?_eq_ok] at boundDone
    rcases boundDone with ⟨value, _, ⟨rfl, rfl⟩, boundDone⟩
    rcases found : context.valueAt workspace.path with _ | value
    · simp only [found, pure_eq_ok] at boundDone
      exact boundDone.2 ▸ .refl workspace
    · simp only [found] at boundDone
      exact idles_of_ofValue boundDone
  rw [← idles.document_eq] at ready ⊢
  rw [insertMarkup, get_bind] at done
  generalize isTarget : (if markup.replacesParagraph then
    (bound.document.paragraph? tag.textNode).getD (bound.document.textUnit tag.textNode)
    else bound.document.textUnit tag.textNode) = target at done
  have reached : Reached zone base bound.document bound.document (tag.textNode :: rest) := ready
  have above : bound.document.LiesIn target (bound.document.textUnit tag.textNode) := by
    rw [← isTarget]
    split
    · exact liesIn_paragraph_or_unit reached.wellFormed (reached.isText List.mem_cons_self)
    · exact LiesIn.refl
  rcases inserted : markup.inserted? with _ | source
  · simp only [inserted, edit_work_eq_ok, detach_eq_ok] at done
    rcases done with ⟨_, rfl, rfl⟩
    exact ⟨⟨idles.path_eq, idles.dispatches_eq⟩, reached_of_removed ready above⟩
  · simp only [inserted, bind_eq_ok, List.forM_eq_forM, forM_edit_work_eq_ok, edit_work_eq_ok,
      detach_eq_ok] at done
    rcases done with ⟨nodes, read, readDone, ⟨⟩, noted, noteDone, ⟨⟩, _, ⟨placed, placeDone, rfl⟩,
      _, rfl, rfl⟩
    have noted := Work.idles_of_note noteDone
    rcases adds_of_workReadFragment reached.wellFormed readDone with
      ⟨resumes, adds, nodup, areNew⟩
    rw [noted.document_eq] at placeDone
    have resumes := (idles.toResumes.trans resumes).trans noted.toResumes
    exact ⟨⟨resumes.path_eq, resumes.dispatches_eq⟩,
      reached_of_replaced ready adds above nodup areNew placeDone⟩

/-- The picture that is bound to a tag is the one at the scope path. -/
theorem boundPicture?_eq (context : Context) (tag : Tag) (workspace : Workspace) :
    ∃ journal, boundPicture? context tag workspace =
      .ok (context.pictureAt workspace.path) { workspace with journal } := by
  rw [boundPicture?, Context.boundValue?_bind, Context.pictureAt]
  rcases context.valueAt workspace.path with _ | value
  · exact ⟨_, rfl⟩
  · dsimp only [Option.bind_some]
    rcases Picture.ofValue? value with _ | picture
    · exact ⟨_, rfl⟩
    · dsimp only [Option.bind_some]
      rcases picture.decode? with _ | bytes
      · exact ⟨_, rfl⟩
      · exact ⟨_, rfl⟩

theorem idles_of_boundPicture? {picture : Option (Picture × List UInt8)}
    (done : boundPicture? context tag workspace = .ok picture workspace') :
    workspace.Idles workspace' := by
  rcases boundPicture?_eq context tag workspace with ⟨journal, isBound⟩
  rw [isBound] at done
  cases done
  exact ⟨⟨rfl, rfl⟩, rfl⟩

theorem idles_of_storePicture {picture : Picture} {bytes : List UInt8} {drawing : Tree}
    (services : context.services.Idle)
    (done : storePicture context tag picture bytes workspace = .ok drawing workspace') :
    workspace.Idles workspace' := by
  simp only [storePicture, bind_eq_ok, get_bind] at done
  rcases done with ⟨path, stored, storeDone, id, related, relateDone, done⟩
  have idles := (services.addMedia storeDone).trans (services.addRelationship relateDone)
  rcases next : related.document.nextPictureNumber? with _ | number
  · simp only [next, throw_ne_ok] at done
  · simp only [next, bind_eq_ok, pure_eq_ok] at done
    rcases done with ⟨⟨⟩, noted, noteDone, -, rfl⟩
    exact idles.trans (Work.idles_of_note noteDone)

/-- Replacing a tag by a picture. -/
theorem reached_of_replaceByPicture (services : context.services.Idle)
    (ready : Ready zone base workspace.document (tag.textNode :: rest))
    (done : replaceByPicture context tag workspace = .ok result workspace') :
    workspace.Resumes workspace' ∧
      Reached zone base workspace.document workspace'.document rest := by
  simp only [replaceByPicture, bind_eq_ok, get_bind] at done
  rcases done with ⟨picture, bound, boundDone, done⟩
  have idles := idles_of_boundPicture? boundDone
  rw [← idles.document_eq] at ready ⊢
  rcases picture with _ | ⟨picture, bytes⟩
  · simp only [edit_work_eq_ok, detach_eq_ok] at done
    rcases done with ⟨_, rfl, rfl⟩
    exact ⟨⟨idles.path_eq, idles.dispatches_eq⟩, reached_of_removed ready LiesIn.refl⟩
  · rcases isRun : bound.document.run? tag.textNode with _ | run
    · simp only [isRun, bind_eq_ok, edit_work_eq_ok, detach_eq_ok] at done
      rcases done with ⟨⟨⟩, noted, noteDone, _, rfl, rfl⟩
      have noted := Work.idles_of_note noteDone
      have idles := idles.trans noted
      rw [noted.document_eq]
      exact ⟨⟨idles.path_eq, idles.dispatches_eq⟩, reached_of_removed ready LiesIn.refl⟩
    · simp only [isRun, bind_eq_ok, edit_work_eq_ok, detach_eq_ok, plant_eq_ok] at done
      rcases done with ⟨drawing, stored, storeDone, node, _, ⟨planted, ⟨rfl, rfl⟩, rfl⟩, ⟨⟩, _,
        ⟨placed, placeDone, rfl⟩, _, rfl, rfl⟩
      have stored := idles_of_storePicture services storeDone
      have idles := idles.trans stored
      rw [stored.document_eq] at placeDone
      have fresh := fresh_plant drawing ready.wellFormed
      refine ⟨⟨idles.path_eq, idles.dispatches_eq⟩, reached_of_replaced ready fresh.toAdds LiesIn.refl
        (List.nodup_singleton _) ?_ (forM_cons_eq_ok.mpr ⟨placed, placeDone, forM_nil_eq_ok.mpr rfl⟩)⟩
      intro node isMember
      rw [List.mem_singleton] at isMember
      subst isMember
      exact ⟨fresh.isNew, fresh.inStore, fresh.detached⟩

end WordTemplate.Leaf
