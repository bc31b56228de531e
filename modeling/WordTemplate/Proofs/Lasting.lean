import WordTemplate.Proofs.Outcome

/-!
# Lasting properties

An action may fail halfway, and what it did until then stays done. A property of the state lasts
through an action if it holds afterwards in both cases whenever it held before. Properties that last
through the steps of an action last through the whole of it, and what lasts through edits of a
document lasts through work on a workspace as far as it concerns the document.
-/

namespace WordTemplate

/-- A property holds of the state in which an action ended, in success or in failure. -/
inductive Ends {ε σ α : Type} (holds : σ → Prop) : EStateM.Result ε σ α → Prop where
  | ok {value : α} {state : σ} (ends : holds state) : Ends holds (.ok value state)
  | error {cause : ε} {state : σ} (ends : holds state) : Ends holds (.error cause state)

/-- A property that holds before an action holds after it, whether the action succeeds or fails. -/
def Lasts {ε σ α : Type} (kept : σ → Prop) (action : EStateM ε σ α) : Prop :=
  ∀ state, kept state → Ends kept (action state)

section

variable {ε σ α β : Type} {kept holds weaker : σ → Prop} {state : σ}

namespace Ends

theorem imp {result : EStateM.Result ε σ α} (ends : Ends holds result)
    (implied : ∀ state, holds state → weaker state) : Ends weaker result := by
  cases ends with
  | ok ends => exact .ok (implied _ ends)
  | error ends => exact .error (implied _ ends)

/-- An action after another one ends where it ends from wherever the other one ended. -/
theorem bind {first : EStateM ε σ α} {next : α → EStateM ε σ β} (ends : Ends kept (first state))
    (later : ∀ value middle, first state = .ok value middle → kept middle →
      Ends holds (next value middle))
    (failed : ∀ middle, kept middle → holds middle) : Ends holds ((first >>= next) state) := by
  simp only [Bind.bind, EStateM.bind]
  cases done : first state with
  | ok value middle =>
      rw [done] at ends
      cases ends with
      | ok ends => exact later value middle done ends
  | error cause middle =>
      rw [done] at ends
      cases ends with
      | error ends => exact .error (failed middle ends)

end Ends

namespace Lasts

theorem of_pure (value : α) : Lasts kept (pure value : EStateM ε σ α) := fun _ holds => .ok holds

theorem of_throw (cause : ε) : Lasts kept (throw cause : EStateM ε σ α) := fun _ holds => .error holds

theorem of_get : Lasts kept (get : EStateM ε σ σ) := fun _ holds => .ok holds

theorem of_modify {change : σ → σ} (keeps : ∀ state, kept state → kept (change state)) :
    Lasts kept (modify change : EStateM ε σ Unit) := fun state holds => .ok (keeps state holds)

theorem of_ofExcept (result : Except ε α) : Lasts kept (ofExcept result : EStateM ε σ α) := by
  cases result with
  | ok value => exact of_pure value
  | error cause => exact of_throw cause

/-- What lasts through two actions lasts through one after the other. -/
theorem bind {first : EStateM ε σ α} {next : α → EStateM ε σ β} (lasts : Lasts kept first)
    (later : ∀ value, Lasts kept (next value)) : Lasts kept (first >>= next) := by
  intro state holds
  apply (lasts state holds).bind
  · intro value middle _ holds
    exact later value middle holds
  · exact fun _ holds => holds

theorem discard {action : EStateM ε σ α} (lasts : Lasts kept action) :
    Lasts kept (discard action) := by
  intro state holds
  have ends := lasts state holds
  change Ends kept (((fun _ => ()) <$> action) state)
  simp only [Functor.map, EStateM.map]
  generalize action state = result at ends ⊢
  cases ends with
  | ok ends => exact .ok ends
  | error ends => exact .error ends

theorem of_forM {step : α → EStateM ε σ PUnit} {items : List α}
    (each : ∀ item, Lasts kept (step item)) : Lasts kept (forM items step) := by
  induction items with
  | nil =>
      rw [List.forM_nil]
      exact of_pure _
  | cons first rest inductionHypothesis =>
      rw [List.forM_cons]
      exact (each first).bind fun _ => inductionHypothesis

theorem of_mapM {step : α → EStateM ε σ β} {items : List α}
    (each : ∀ item ∈ items, Lasts kept (step item)) : Lasts kept (items.mapM step) := by
  induction items with
  | nil => exact of_pure _
  | cons first rest inductionHypothesis =>
      rw [List.mapM_cons]
      apply (each first List.mem_cons_self).bind
      intro value
      have later := inductionHypothesis fun item isMember => each item (List.mem_cons_of_mem _ isMember)
      exact later.bind fun _ => of_pure _

end Lasts

end

section Lifting

variable {α : Type} {kept : Document → Prop} {holds : Workspace → Prop}

/-- An edit ends in the same document when it is part of an extraction. -/
theorem Ends.of_edit {edit : Edit α} {document : Document} (ends : Ends kept (edit document)) :
    Ends kept ((liftM edit : Extraction α) document) := by
  change Ends kept (Edit.toExtraction edit document)
  rw [Edit.toExtraction]
  generalize edit document = result at ends ⊢
  cases ends with
  | ok ends => exact .ok ends
  | error ends => exact .error ends

/-- What lasts through an edit lasts through it as part of an extraction. -/
theorem Lasts.of_edit {edit : Edit α} (lasts : Lasts kept edit) :
    Lasts kept (liftM edit : Extraction α) :=
  fun document holds => (lasts document holds).of_edit

end Lifting

end WordTemplate
