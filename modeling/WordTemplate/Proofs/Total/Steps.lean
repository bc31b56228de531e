import WordTemplate.Proofs.Word.Tiers

/-!
# Edits that do not fail

An edit succeeds if it returns a value, which then stands in a relation to the document afterwards.
Sequences and loops succeed one statement at a time. The single edits succeed in a document with
tiers as long as what they place fits, and they keep the tiers.
-/

namespace WordTemplate

/-- Work returns a value, and the value and the state after it are related. -/
def Succeeds {ε σ α : Type} (work : EStateM ε σ α) (s : σ) (result : α → σ → Prop) : Prop :=
  ∃ a t, work s = .ok a t ∧ result a t

namespace Succeeds

open Outcome

variable {ε σ α β : Type} {s : σ} {work : EStateM ε σ α} {next : α → EStateM ε σ β}
  {P : α → σ → Prop} {result : β → σ → Prop}

theorem of_done {a : α} {t : σ} (done : work s = .ok a t) (holds : P a t) :
    Succeeds work s P :=
  ⟨a, t, done, holds⟩

theorem imp {stronger : α → σ → Prop} (succeeds : Succeeds work s stronger)
    (weaken : ∀ a t, work s = .ok a t → stronger a t → P a t) : Succeeds work s P := by
  rcases succeeds with ⟨a, t, done, holds⟩
  exact ⟨a, t, done, weaken a t done holds⟩

theorem of_pure {a : α} (holds : P a s) : Succeeds (pure a : EStateM ε σ α) s P :=
  ⟨a, s, rfl, holds⟩

theorem of_get {next : σ → EStateM ε σ β} (later : Succeeds (next s) s result) :
    Succeeds (get >>= next) s result :=
  later

theorem bind (first : Succeeds work s P)
    (later : ∀ a t, work s = .ok a t → P a t → Succeeds (next a) t result) :
    Succeeds (work >>= next) s result := by
  rcases first with ⟨a, t, done, holds⟩
  rcases later a t done holds with ⟨b, u, done', holds'⟩
  exact ⟨b, u, bind_eq_ok.mpr ⟨a, t, done, done'⟩, holds'⟩

/-- A first step whose outcome is known. -/
theorem of_step {a : α} {t : σ} (done : work s = .ok a t) (later : Succeeds (next a) t result) :
    Succeeds (work >>= next) s result := by
  rcases later with ⟨b, u, done', holds⟩
  exact ⟨b, u, bind_eq_ok.mpr ⟨a, t, done, done'⟩, holds⟩

/-- A loop succeeds if each of its steps does; the invariant may speak of the items that are left. -/
theorem of_forM {step : α → EStateM ε σ PUnit} {items : List α} (invariant : List α → σ → Prop)
    (each : ∀ item rest s, invariant (item :: rest) s →
      Succeeds (step item) s fun _ t => invariant rest t)
    (start : invariant items s) : Succeeds (forM items step) s fun _ t => invariant [] t := by
  induction items generalizing s with
  | nil => exact ⟨⟨⟩, s, rfl, start⟩
  | cons item rest inductionHypothesis =>
      rcases each item rest s start with ⟨⟨⟩, t, done, holds⟩
      rcases inductionHypothesis holds with ⟨⟨⟩, u, done', holds'⟩
      exact ⟨⟨⟩, u, forM_cons_eq_ok.mpr ⟨t, done, done'⟩, holds'⟩

section Lifting

variable {document : Document} {workspace : Workspace} {result : α → Document → Prop}

theorem of_edit {edit : Edit α} (succeeds : Succeeds edit document result) :
    Succeeds (liftM edit : Extraction α) document result := by
  rcases succeeds with ⟨a, after, done, holds⟩
  exact ⟨a, after, edit_eq_ok.mpr done, holds⟩

theorem of_extraction {extraction : Extraction α}
    (succeeds : Succeeds extraction workspace.document result) :
    Succeeds (liftM extraction : Work α) workspace fun a after =>
      result a after.document ∧ after.path = workspace.path := by
  rcases succeeds with ⟨a, after, done, holds⟩
  exact ⟨a, { workspace with document := after }, extraction_eq_ok.mpr ⟨after, done, rfl⟩, holds, rfl⟩

theorem of_edit_work {edit : Edit α} (succeeds : Succeeds edit workspace.document result) :
    Succeeds (liftM edit : Work α) workspace fun a after =>
      result a after.document ∧ after.path = workspace.path :=
  of_extraction (of_edit succeeds)

end Lifting

end Succeeds

namespace Edit

open Document Outcome

variable {document : Document} {id node parent child reference : NodeId} {stray : NodeId → Prop}

theorem succeeds_create (tiered : document.Tiered stray) (content : Content) :
    Succeeds (create content) document fun created after =>
      created = document.nextId ∧ after = document.add content ∧ after.Tiered stray :=
  ⟨_, _, rfl, rfl, rfl, tiered.add content⟩

theorem succeeds_copyNode (tiered : document.Tiered stray) (id : NodeId) :
    Succeeds (copyNode id) document fun created after => created = document.nextId ∧
      after = document.add (document.content id) ∧ after.Tiered stray :=
  succeeds_create tiered (document.content id)

theorem succeeds_appendChild (tiered : document.Tiered stray) (parentInStore : parent.index < document.size)
    (inStore : child.index < document.size) (outside : ¬document.LiesIn child parent)
    (fits : document.Fits stray child parent) :
    Succeeds (appendChild parent child) document fun _ after =>
      Moves document after child parent ((document.children parent).filter (· != child)) [] ∧
        after.Tiered stray := by
  have done : appendChild parent child document = .ok ⟨⟩ _ :=
    (appendChild_eq_ok tiered.toWellFormed).mpr ⟨outside, rfl⟩
  have moves := moves_of_appendChild tiered.toWellFormed parentInStore inStore done
  exact ⟨_, _, done, moves, tiered.moves moves fits⟩

theorem succeeds_insertChild (tiered : document.Tiered stray) (parentInStore : parent.index < document.size)
    (inStore : child.index < document.size) (outside : ¬document.LiesIn child parent)
    (fits : document.Fits stray child parent) (index : Nat) :
    Succeeds (insertChild parent index child) document fun _ after =>
      after.Tiered stray ∧ ∃ left right, Moves document after child parent left right := by
  have done : insertChild parent index child document = .ok ⟨⟩ _ :=
    (insertChild_eq_ok tiered.toWellFormed).mpr ⟨outside, rfl⟩
  have moves := moves_of_insertChild tiered.toWellFormed parentInStore inStore done
  exact ⟨_, _, done, tiered.moves moves fits, _, _, moves⟩

/-- Placing a node beside another one succeeds. -/
theorem succeeds_insertBeside (tiered : document.Tiered stray) (inStore : node.index < document.size)
    (isParent : document.parent reference = some parent) (differ : node ≠ reference)
    (outside : ¬document.LiesIn node parent) (fits : document.Fits stray node parent) (offset : Nat) :
    Succeeds (insertBeside offset node reference) document fun _ after =>
      after.Tiered stray ∧ ∃ left right, Moves document after node parent left right := by
  have done : insertBeside offset node reference document = .ok ⟨⟩ _ :=
    (insertBeside_eq_ok tiered.toWellFormed).mpr ⟨parent, isParent, differ, outside, rfl⟩
  have moves := moves_place tiered.toWellFormed (parent_lt_size tiered.toWellFormed isParent) inStore
    outside (((document.children parent).filter (· != node)).idxOf reference + offset)
  exact ⟨_, _, done, tiered.moves moves fits, _, _, moves⟩

theorem succeeds_copySubtree (tiered : document.Tiered stray) (inStore : id.index < document.size)
    (counts : ¬stray id) :
    Succeeds (copySubtree id) document fun copy after =>
      Copies document document after none [id] [copy.root] copy.pairs ∧ after.Tiered stray := by
  have done : copySubtree id document = .ok (document.copySubtree id).2 (document.copySubtree id).1 :=
    rfl
  have copied := copies_of_copySubtree tiered.toWellFormed inStore done
  exact ⟨_, _, done, copied, copied.tiered tiered (by simpa using counts)⟩

end Edit

end WordTemplate
