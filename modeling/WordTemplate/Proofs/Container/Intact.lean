import WordTemplate.Proofs.Container.Severing
import WordTemplate.Proofs.Document.References
import WordTemplate.Proofs.Document.Siblings
import WordTemplate.Proofs.Tag.Readiness
import WordTemplate.Proofs.Word.Intact

/-!
# Documents stay intact while regions are filled

Wherever the tags of a region stand, the document is well-formed after the region was cut out, copied,
compiled and put back, and all nodes that are handed on from one step to the next are in the store.
Putting nodes back only moves them, so the contents of the nodes that were there stay as they are.
-/

namespace WordTemplate

open Document Outcome

/-- If the work succeeds, it keeps the document intact, and its value and the document after it are as
stated. -/
def Work.KeepsIntact {α : Type} (work : Work α) (before : Workspace) (result : α → Document → Prop) :
    Prop :=
  before.document.WellFormed → ∀ value after, work before = .ok value after →
    Intact False before.document after.document ∧ result value after.document

namespace Work.KeepsIntact

variable {α β : Type} {work first : Work α} {next : α → Work β} {before : Workspace}
  {between : α → Document → Prop} {result : β → Document → Prop}

theorem of_pure {value : β} (isResult : result value before.document) :
    KeepsIntact (pure value) before result := by
  intro wellFormed other after done
  rw [pure_eq_ok] at done
  rcases done with ⟨rfl, rfl⟩
  exact ⟨Intact.refl wellFormed, isResult⟩

theorem of_throw {cause : TemplateError} : KeepsIntact (throw cause) before result := by
  intro _ value after done
  exact absurd done throw_ne_ok

theorem of_get {next : Workspace → Work β}
    (keeps : before.document.WellFormed → KeepsIntact (next before) before result) :
    KeepsIntact (get >>= next) before result := by
  intro wellFormed value after done
  exact keeps wellFormed wellFormed value after (by rwa [get_bind] at done)

theorem of_wellFormed (keeps : before.document.WellFormed → KeepsIntact work before between) :
    KeepsIntact work before between :=
  fun wellFormed => keeps wellFormed wellFormed

theorem bind (firstKeeps : KeepsIntact first before between)
    (nextKeeps : ∀ value middle, Intact False before.document middle.document →
      between value middle.document → KeepsIntact (next value) middle result) :
    KeepsIntact (first >>= next) before result := by
  intro wellFormed value after done
  rw [bind_eq_ok] at done
  rcases done with ⟨found, middle, firstDone, nextDone⟩
  rcases firstKeeps wellFormed found middle firstDone with ⟨toMiddle, isBetween⟩
  rcases nextKeeps found middle toMiddle isBetween toMiddle.wellFormed value after nextDone with
    ⟨toAfter, isResult⟩
  exact ⟨toMiddle.trans toAfter, isResult⟩

theorem discard (keeps : KeepsIntact work before between) :
    KeepsIntact (discard work) before fun _ _ => True := by
  intro wellFormed value after done
  rw [discard_eq_ok] at done
  rcases done with ⟨found, done⟩
  exact ⟨(keeps wellFormed found after done).1, trivial⟩

/-- A loop keeps the document intact if each of its steps does, wherever it starts. -/
theorem of_forM {items : List α} {step : α → Work PUnit}
    (each : ∀ item ∈ items, ∀ middle, Intact False before.document middle.document →
      KeepsIntact (step item) middle fun _ _ => True) :
    KeepsIntact (items.forM step) before fun _ _ => True := by
  induction items generalizing before with
  | nil => exact of_pure trivial
  | cons item items inductionHypothesis =>
      refine of_wellFormed fun wellFormed =>
        (each item List.mem_cons_self before (Intact.refl wellFormed)).bind ?_
      intro _ middle toMiddle _
      exact inductionHypothesis fun other isMember later toLater =>
        each other (List.mem_cons_of_mem _ isMember) later (toMiddle.trans toLater)

/-- An edit as a part of some work. -/
theorem of_edit {edit : Edit α} {result : α → Document → Prop}
    (keeps : before.document.WellFormed → Edit.KeepsIntact False edit before.document result) :
    KeepsIntact (liftM edit) before result := by
  intro wellFormed value after done
  rcases edit_work_eq_ok.mp done with ⟨edited, editDone, rfl⟩
  exact (keeps wellFormed).of_done editDone

/-- Work that leaves the document alone. -/
theorem of_idles (idles : ∀ value after, work before = .ok value after → before.Idles after) :
    KeepsIntact work before fun _ after => after = before.document := by
  intro wellFormed value after done
  have document_eq := (idles value after done).document_eq
  refine ⟨?_, document_eq⟩
  rw [document_eq]
  exact Intact.refl wellFormed

theorem of_note (level : Level) (text : String) :
    KeepsIntact (Work.note level text) before fun _ after => after = before.document :=
  of_idles fun _ _ done => Work.idles_of_note done

theorem of_boundValue? (context : Context) :
    KeepsIntact context.boundValue? before fun _ after => after = before.document :=
  of_idles fun _ _ done => (Context.boundValue?_eq_ok.mp done).2 ▸ Workspace.Idles.refl _

/-- Work with one more step on the scope path. -/
theorem withPart {part : PathPart}
    (keeps : KeepsIntact work { before with path := before.path.enter part } between) :
    KeepsIntact (Work.withPart part work) before between := by
  intro wellFormed value after done
  rcases Work.withPart_eq_ok.mp done with ⟨inner, innerDone, rfl⟩
  exact keeps wellFormed value inner innerDone

end Work.KeepsIntact

/-- The compiler of a region keeps documents intact. -/
def RegionCompiler.KeepsIntact {region : Region} (compile : RegionCompiler region) : Prop :=
  ∀ tags fits before, Work.KeepsIntact (compile tags fits) before fun _ _ => True

namespace Document

variable {document after : Document} {id first last : NodeId} {range : List NodeId} {name : String}

end Document

/-! ## Cutting -/

section Cutting

variable {document after : Document} {openingTag closingTag : Tag} {region : CutRegion}

namespace Strategy

end Strategy

end Cutting

/-! ## Copies -/

namespace Edit

variable {document : Document} {nodes : List NodeId}

end Edit

namespace Region

variable {region : Region} {compile : RegionCompiler region} {scoping : Scoping} {index : Nat}
  {copy : RegionCopy} {copies : List RegionCopy} {nodes : List NodeId} {groups : List (List NodeId)}
  {before after : Workspace}

end Region

/-! ## Putting copies back -/

namespace Edit

variable {document : Document} {target tail fragment : NodeId} {nodes group : List NodeId}
  {groups : List (List NodeId)}

end Edit

namespace Strategy

variable {document : Document} {region : CutRegion} {groups : List (List NodeId)}

end Strategy

/-- The nodes of an earlier document are there and carry what they carried. -/
structure Document.Carries (base document : Document) : Prop where
  size_le : base.size ≤ document.size
  content_eq : ∀ id, id.index < base.size → document.content id = base.content id

namespace Document.Carries

variable {base document : Document}

theorem refl (document : Document) : Carries document document := ⟨Nat.le_refl _, fun _ _ => rfl⟩

theorem isNamed_eq {id : NodeId} (carries : Carries base document) (isOld : id.index < base.size)
    (name : String) : document.isNamed id name = base.isNamed id name := by
  simp only [isNamed, name?, element?, carries.content_eq id isOld]

theorem modifyNode (carries : Carries base document) (id : NodeId) {change : Node → Node}
    (keeps : ∀ node, (change node).content = node.content) :
    Carries base (document.modifyNode id change) where
  size_le := by
    rw [size_modifyNode]
    exact carries.size_le
  content_eq other isOld := (content_modifyNode keeps document id other).trans
    (carries.content_eq other isOld)

theorem detach (carries : Carries base document) (id : NodeId) : Carries base (document.detach id) := by
  rw [Document.detach]
  split
  · exact Carries.modifyNode (carries.modifyNode _ (by exact fun _ => rfl)) _ fun _ => rfl
  · exact carries

theorem place (carries : Carries base document) (parent : NodeId) (index : Nat) (child : NodeId) :
    Carries base (document.place parent index child) := by
  rw [Document.place]
  exact Carries.modifyNode (carries.modifyNode _ (by exact fun _ => rfl)) _ fun _ => rfl

theorem add (carries : Carries base document) (content : Content) :
    Carries base (document.add content) where
  size_le := by
    rw [size_add]
    exact Nat.le_succ_of_le carries.size_le
  content_eq id isOld := by
    have differ : id ≠ document.nextId := by
      rintro rfl
      exact absurd carries.size_le (Nat.not_le_of_lt isOld)
    rw [content_add, if_neg differ, carries.content_eq id isOld]

end Document.Carries

namespace Edit

variable {base : Document}

end Edit

end WordTemplate
