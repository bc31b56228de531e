import WordTemplate.Leaf.Text
import WordTemplate.Proofs.Document.Reached
import WordTemplate.Proofs.Filling.Working

/-!
# Writing text

Writing a text into the text node of a tag, with further lines in text elements of their own, and
setting a checkbox leave the text nodes of all other tags pending.
-/

namespace WordTemplate.Leaf

open Outcome Document Edit

variable {zone : NodeId → Prop} {base : Nat} {start document document' : Document}
  {textNode textElement anchor parent checkbox : NodeId} {texts : List NodeId} {result : Unit}
  {context : Context} {tag : Tag} {workspace workspace' : Workspace} {rest : List NodeId}

/-- A copy of a text element with a text in it. -/
theorem fresh_of_copyWithText {copy characters : NodeId} {copied texted filled : Document}
    {line : String} (wellFormed : document.WellFormed)
    (copyDone : copyNode textElement document = .ok copy copied)
    (textDone : createText line copied = .ok characters texted)
    (done : appendChild copy characters texted = .ok result filled) :
    Fresh document filled copy := by
  rw [copyNode_eq_ok] at copyDone
  rw [createText_eq_ok] at textDone
  rcases copyDone with ⟨rfl, rfl⟩
  rcases textDone with ⟨rfl, rfl⟩
  have copied := fresh_add wellFormed (document.content textElement)
  have texted := fresh_add copied.wellFormed (.text line)
  have differ := copied.ne_of_later texted
  have characters := texted.since copied.toAdds
  have copied := copied.adds texted.toAdds
  have moves := moves_of_appendChild characters.wellFormed copied.inStore characters.inStore done
  exact copied.moves characters differ moves copied.isNew

/-- Further lines leave text nodes pending. -/
theorem reached_of_addLines {lines : List String}
    (reached : Reached zone base start document texts) (isMember : textNode ∈ texts)
    (isOld : anchor.index < document.size)
    (hosts : ∀ parent, document.parent anchor = some parent → document.Hosts textNode parent)
    (done : addLines textElement anchor lines document = .ok result document') :
    Reached zone base start document' texts := by
  induction lines generalizing document anchor with
  | nil =>
      simp only [addLines, pure_eq_ok] at done
      exact done.2 ▸ reached
  | cons line rest inductionHypothesis =>
      simp only [addLines, bind_eq_ok, createElement_eq_ok] at done
      rcases done with ⟨_, _, ⟨rfl, rfl⟩, ⟨⟩, broken, breakDone, copy, copied, copyDone,
        characters, texted, textDone, ⟨⟩, filled, appendDone, ⟨⟩, placed, placeDone, done⟩
      have created := fresh_add reached.wellFormed (.element { name := Word.Name.lineBreak })
      rcases placed_of_fresh reached isMember isOld hosts created breakDone with ⟨parent, broken⟩
      have copied := fresh_of_copyWithText broken.wellFormed copyDone textDone appendDone
      rcases placed_of_fresh broken.toReached isMember
        (by rw [broken.size_eq]; exact created.inStore) broken.hosts copied placeDone with
        ⟨outer, placed⟩
      exact inductionHypothesis placed.toReached (by rw [placed.size_eq]; exact copied.inStore)
        placed.hosts done

/-- Writing the text of a tag leaves text nodes pending. -/
theorem reached_of_writeText {text : String} (reached : Reached zone base start document texts)
    (isMember : textNode ∈ texts) (done : writeText textNode text document = .ok result document') :
    Reached zone base start document' texts := by
  simp only [writeText, bind_eq_ok, setText_eq_ok, get_bind] at done
  rcases done with ⟨⟨⟩, written, ⟨isText, same⟩, done⟩
  have inZone := reached.inZone isMember LiesIn.refl
  have reached : Reached zone base start written texts := same ▸ reached.neutral
    (neutral_setText reached.wellFormed reached.closed inZone (reached.low _ inZone) isText _)
  rcases found : written.textElement? textNode with _ | textElement
  · simp only [found, pure_eq_ok] at done
    exact done.2 ▸ reached
  · simp only [found, bind_eq_ok, keepSpace, setAttribute_eq_ok] at done
    rcases done with ⟨⟨⟩, spaced, rfl, done⟩
    have isUnit : written.textUnit textNode = textElement := by simp [textUnit, found]
    have above : written.LiesIn textElement textNode := isUnit ▸ liesIn_textUnit written textNode
    have neutral := neutral_setAttribute reached.wellFormed reached.closed
      (reached.inZone isMember above) Word.Name.space "preserve"
    refine reached_of_addLines (reached.neutral neutral) isMember ?_ (fun parent isParent => ?_) done
    · rw [size_setAttribute]
      exact lt_size_of_liesIn reached.wellFormed above (reached.lt_size isMember)
    rw [parent_setAttribute] at isParent
    have hosts : written.Hosts textNode parent :=
      hosts_of_parent reached.wellFormed isParent (isUnit ▸ LiesIn.refl)
    exact hosts.of_parent_eq (fun id _ => parent_setAttribute written _ _ _ id)
      fun holder isHolder => neutral.isNamed_eq (parent_lt_size reached.wellFormed isHolder) _

/-- The state of a checkbox is one of its properties. -/
theorem setCheckbox_eq (textNode checkbox : NodeId) (checked : Bool) :
    setCheckbox textNode checkbox checked = (do
      let state ← ensureProperties checkbox Word.Name.checked []
      setAttribute state Word.Name.checkboxValue (if checked then "1" else "0")
      setText textNode (checkboxSymbol (← get) checkbox checked).toString) := by
  have none_leading (ids : List NodeId) : (ids.takeWhile fun _ => false) = [] := by
    cases ids <;> rfl
  funext document
  rcases found : document.childNamed? checkbox Word.Name.checked with _ | existing <;>
    simp [setCheckbox, ensureProperties, get_bind, found, none_leading]

/-- Setting the checkbox around a tag leaves text nodes pending. -/
theorem reached_of_setCheckbox {checked : Bool} (reached : Reached zone base start document texts)
    (isMember : textNode ∈ texts) (found : checkbox? document textNode = some checkbox)
    (done : setCheckbox textNode checkbox checked document = .ok result document') :
    Reached zone base start document' texts := by
  simp only [checkbox?, Option.bind_eq_bind, Option.bind_eq_some_iff] at found
  rcases found with ⟨control, isControl, properties, areProperties, isCheckbox⟩
  have formed := reached.wellFormed
  have controlAbove := (liesIn_of_ancestorNamed? formed isControl).1
  have isCheckbox := (parent_of_childNamed? formed isCheckbox).1
  have inZone : zone checkbox := reached.closed.child isCheckbox
    (reached.closed.child (parent_of_childNamed? formed areProperties).1
      (reached.inZone isMember controlAbove))
  simp only [setCheckbox_eq, bind_eq_ok, setAttribute_eq_ok, get_bind, setText_eq_ok] at done
  rcases done with ⟨state, ensured, ensureDone, ⟨⟩, marked, rfl, isText, rfl⟩
  rcases neutral_of_ensureProperties formed reached.closed inZone (lt_size_of_parent isCheckbox)
    ensureDone with ⟨neutral, isState, -⟩
  have reached := reached.neutral neutral
  have reached := reached.neutral (neutral_setAttribute reached.wellFormed reached.closed
    (reached.closed.child isState inZone) Word.Name.checkboxValue (if checked then "1" else "0"))
  have textInZone := reached.inZone isMember LiesIn.refl
  exact reached.neutral (neutral_setText reached.wellFormed reached.closed textInZone
    (reached.low _ textInZone) isText _)

/-- Replacing a tag by the text of its value. -/
theorem reached_of_replaceByText (ready : Ready zone base workspace.document (tag.textNode :: rest))
    (done : replaceByText context tag workspace = .ok result workspace') :
    workspace.Resumes workspace' ∧
      Reached zone base workspace.document workspace'.document rest := by
  have reached : Reached zone base workspace.document workspace.document (tag.textNode :: rest) :=
    ready
  have isMember : tag.textNode ∈ tag.textNode :: rest := List.mem_cons_self
  simp only [replaceByText, bind_eq_ok, Context.boundValue?_eq_ok, get_bind] at done
  rcases done with ⟨value, _, ⟨rfl, rfl⟩, done⟩
  rcases found : checkbox? workspace.document tag.textNode with _ | checkbox
  · simp only [found, edit_work_eq_ok] at done
    rcases done with ⟨written, writeDone, rfl⟩
    exact ⟨⟨rfl, rfl⟩,
      (reached_of_writeText reached isMember writeDone).sublist (List.sublist_cons_self _ _)⟩
  · simp only [found, bind_eq_ok, edit_work_eq_ok] at done
    rcases done with ⟨⟨⟩, noted, noteDone, checked, checkDone, rfl⟩
    have noted := Work.idles_of_note noteDone
    rw [noted.document_eq] at checkDone
    exact ⟨⟨noted.path_eq, noted.dispatches_eq⟩,
      (reached_of_setCheckbox reached isMember found checkDone).sublist
        (List.sublist_cons_self _ _)⟩

end WordTemplate.Leaf
