import WordTemplate.Filling.Workspace

/-!
# Outcomes of edits and work

Edits, extractions and pieces of work are state transformers that may fail. The lemmas of this
module take a successful outcome apart, one statement at a time, and carry outcomes of edits over
to extractions and to work on a workspace.
-/

namespace WordTemplate.Outcome

section Statements

variable {ε σ α β : Type} {s t : σ}

@[simp]
theorem pure_eq_ok {a b : α} : (pure a : EStateM ε σ α) s = .ok b t ↔ a = b ∧ s = t := by
  simp [pure, EStateM.pure]

@[simp]
theorem bind_eq_ok {first : EStateM ε σ α} {next : α → EStateM ε σ β} {b : β} :
    (first >>= next) s = .ok b t ↔
      ∃ a middle, first s = .ok a middle ∧ next a middle = .ok b t := by
  simp only [bind, EStateM.bind]
  rcases first s with ⟨a, middle⟩ | ⟨cause, middle⟩
  · constructor
    · intro done
      exact ⟨a, middle, rfl, done⟩
    · rintro ⟨a', middle', ⟨⟩, done⟩
      exact done
  · simp

/-- A sequence fails in its first part or after it. -/
theorem bind_eq_error {first : EStateM ε σ α} {next : α → EStateM ε σ β} {cause : ε} :
    (first >>= next) s = .error cause t ↔
      first s = .error cause t ∨
        ∃ a middle, first s = .ok a middle ∧ next a middle = .error cause t := by
  simp only [bind, EStateM.bind]
  rcases first s with ⟨a, middle⟩ | ⟨cause', middle⟩
  · constructor
    · intro failed
      exact Or.inr ⟨a, middle, rfl, failed⟩
    · rintro (⟨⟨⟩⟩ | ⟨a', middle', ⟨⟩, failed⟩)
      exact failed
  · simp

@[simp]
theorem map_eq_ok {first : EStateM ε σ α} {change : α → β} {b : β} :
    (change <$> first) s = .ok b t ↔ ∃ a, first s = .ok a t ∧ change a = b := by
  simp only [Functor.map, EStateM.map]
  rcases first s with ⟨a, middle⟩ | ⟨cause, middle⟩
  · constructor
    · rintro ⟨⟩
      exact ⟨a, rfl, rfl⟩
    · rintro ⟨a', ⟨⟩, rfl⟩
      rfl
  · simp

@[simp]
theorem discard_eq_ok {first : EStateM ε σ α} {a : Unit} :
    (discard first) s = .ok a t ↔ ∃ b, first s = .ok b t := by
  change ((fun _ => ()) <$> first) s = .ok a t ↔ _
  simp

@[simp]
theorem get_eq_ok {a : σ} : (get : EStateM ε σ σ) s = .ok a t ↔ s = a ∧ s = t := by
  change EStateM.Result.ok s s = .ok a t ↔ _
  simp

@[simp]
theorem modify_eq_ok {change : σ → σ} {a : Unit} :
    (modify change : EStateM ε σ Unit) s = .ok a t ↔ change s = t := by
  change EStateM.Result.ok a (change s) = .ok a t ↔ _
  simp

/-- After a success a sequence goes on with the result. -/
theorem bind_of_ok {first : EStateM ε σ α} {next : α → EStateM ε σ β} {a : α}
    (done : first s = .ok a t) : (first >>= next) s = next a t := by
  simp only [bind, EStateM.bind, done]

/-- Reading the state hands it on to what follows. -/
@[simp]
theorem get_bind {next : σ → EStateM ε σ β} :
    ((get : EStateM ε σ σ) >>= next) s = next s s := rfl

@[simp]
theorem throw_ne_ok {cause : ε} {a : α} : ¬(throw cause : EStateM ε σ α) s = .ok a t := by
  change ¬EStateM.Result.error cause s = .ok a t
  simp

@[simp]
theorem ofExcept_eq_ok {result : Except ε α} {a : α} :
    (ofExcept result : EStateM ε σ α) s = .ok a t ↔ result = .ok a ∧ s = t := by
  cases result with
  | error cause => simp [ofExcept]
  | ok value => simp [ofExcept]

@[simp]
theorem forM_nil_eq_ok {step : α → EStateM ε σ PUnit} {a : PUnit} :
    (forM [] step) s = .ok a t ↔ s = t := by
  simp

@[simp]
theorem forM_cons_eq_ok {step : α → EStateM ε σ PUnit} {first : α} {rest : List α} {a : PUnit} :
    (forM (first :: rest) step) s = .ok a t ↔
      ∃ middle, step first s = .ok ⟨⟩ middle ∧ (forM rest step) middle = .ok a t := by
  rw [List.forM_cons, bind_eq_ok]
  constructor
  · rintro ⟨⟨⟩, middle, done⟩
    exact ⟨middle, done⟩
  · rintro ⟨middle, done⟩
    exact ⟨⟨⟩, middle, done⟩

/-- What every step keeps holds after all steps. -/
theorem forM_invariant {step : α → EStateM ε σ PUnit} {items : List α} {a : PUnit}
    (motive : σ → Prop)
    (each : ∀ item ∈ items, ∀ s t, motive s → step item s = .ok ⟨⟩ t → motive t)
    (start : motive s) (done : (forM items step) s = .ok a t) : motive t := by
  induction items generalizing s with
  | nil =>
      rw [forM_nil_eq_ok] at done
      exact done ▸ start
  | cons first rest inductionHypothesis =>
      rw [forM_cons_eq_ok] at done
      rcases done with ⟨middle, stepDone, restDone⟩
      exact inductionHypothesis
        (fun item isMember => each item (List.mem_cons_of_mem _ isMember))
        (each first List.mem_cons_self _ _ start stepDone) restDone

end Statements

section Lifting

variable {α : Type} {a : α} {document document' : Document} {workspace workspace' : Workspace}

@[simp]
theorem edit_eq_ok {edit : Edit α} :
    (liftM edit : Extraction α) document = .ok a document' ↔ edit document = .ok a document' := by
  change Edit.toExtraction edit document = _ ↔ _
  simp only [Edit.toExtraction]
  split <;> simp_all

@[simp]
theorem extraction_eq_ok {extraction : Extraction α} :
    (liftM extraction : Work α) workspace = .ok a workspace' ↔
      ∃ edited, extraction workspace.document = .ok a edited ∧
        workspace' = { workspace with document := edited } := by
  change Extraction.toWork extraction workspace = _ ↔ _
  simp only [Extraction.toWork]
  rcases extraction workspace.document with ⟨b, edited⟩ | ⟨cause, edited⟩
  · constructor
    · rintro ⟨⟩
      exact ⟨edited, rfl, rfl⟩
    · rintro ⟨edited', ⟨⟩, rfl⟩
      rfl
  · simp

@[simp]
theorem edit_work_eq_ok {edit : Edit α} :
    (liftM edit : Work α) workspace = .ok a workspace' ↔
      ∃ edited, edit workspace.document = .ok a edited ∧
        workspace' = { workspace with document := edited } := by
  change (liftM (liftM edit : Extraction α) : Work α) workspace = _ ↔ _
  simp

/-- Edits that are done in turn are done at once. -/
theorem forM_edit_work_eq_ok {edit : α → Edit PUnit} {items : List α} {result : PUnit} :
    (forM items fun item => (liftM (edit item) : Work PUnit)) workspace = .ok result workspace' ↔
      ∃ edited, (forM items edit) workspace.document = .ok result edited ∧
        workspace' = { workspace with document := edited } := by
  induction items generalizing workspace with
  | nil => simp [eq_comm]
  | cons item rest inductionHypothesis =>
      simp only [forM_cons_eq_ok, edit_work_eq_ok, inductionHypothesis]
      constructor
      · rintro ⟨_, ⟨first, firstDone, rfl⟩, last, restDone, rfl⟩
        exact ⟨last, ⟨first, firstDone, restDone⟩, rfl⟩
      · rintro ⟨last, ⟨first, firstDone, restDone⟩, rfl⟩
        exact ⟨_, ⟨first, firstDone, rfl⟩, last, restDone, rfl⟩

end Lifting

end WordTemplate.Outcome
