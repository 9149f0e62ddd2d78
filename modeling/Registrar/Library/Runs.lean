import Mathlib

/-! # Runs of a step function

    A system is a partial step function `step : σ → α → Option σ` from a state
    and an action to the next state; `none` says the action is not enabled.
    `Steps` are its runs all of whose steps meet the side condition `ok`, and
    `run` executes a list of actions, which is how a concrete run is exhibited.
    -/

namespace Runs

variable {σ α : Type}

/-- The runs of `step` from `s` whose every step `a`, taken in the state `u`,
    meets `ok u a`. -/
inductive Steps (step : σ → α → Option σ) (ok : σ → α → Prop) : σ → σ → Prop
  | refl (s : σ) : Steps step ok s s
  | tail {s u t : σ} (a : α) : Steps step ok s u → ok u a →
      step u a = some t → Steps step ok s t

/-- The side condition that admits every step. -/
def anyStep : σ → α → Prop := fun _ _ => True

/-- **THE INVARIANT RULE**: what holds at the start and is kept by every
    admitted step holds at the end of every run. -/
theorem Steps.inv {step : σ → α → Option σ} {ok : σ → α → Prop} {s t : σ}
    (I : σ → Prop) (hstart : I s)
    (hstep : ∀ u a u', I u → ok u a → step u a = some u' → I u')
    (h : Steps step ok s t) : I t := by
  induction h with
  | refl => exact hstart
  | tail a _ hok hs ih => exact hstep _ a _ ih hok hs

/-- **THE SIMULATION RULE**: a relation that every step of one system keeps by
    a step of another holds between the ends of a run and of a run of the
    other. -/
theorem Steps.simulate {τ β : Type} {step : σ → α → Option σ} {ok : σ → α → Prop}
    {step' : τ → β → Option τ} {ok' : τ → β → Prop} (R : σ → τ → Prop) (f : α → β)
    (hsim : ∀ s t a s', R s t → ok s a → step s a = some s' →
      ok' t (f a) ∧ ∃ t', step' t (f a) = some t' ∧ R s' t')
    {s₀ s : σ} {t₀ : τ} (h : Steps step ok s₀ s) (hstart : R s₀ t₀) :
    ∃ t, Steps step' ok' t₀ t ∧ R s t := by
  induction h with
  | refl => exact ⟨t₀, Steps.refl t₀, hstart⟩
  | tail a _ hok hs ih =>
      obtain ⟨t, ht, hR⟩ := ih
      obtain ⟨hok', t', hstep', hR'⟩ := hsim _ t a _ hR hok hs
      exact ⟨t', Steps.tail (f a) ht hok' hstep', hR'⟩

/-- **THE PROJECTION RULE**: where every step either leaves what `p` shows of the state or
    is a step of another system on it, under an invariant, `p` takes runs to runs. -/
theorem Steps.project {τ β : Type} {step : σ → α → Option σ} {ok : σ → α → Prop}
    {step' : τ → β → Option τ} {ok' : τ → β → Prop} (p : σ → τ) (I : σ → Prop)
    (hstep : ∀ s a s', I s → ok s a → step s a = some s' → I s')
    (hproject : ∀ s a s', I s → ok s a → step s a = some s' →
      p s' = p s ∨ ∃ b, ok' (p s) b ∧ step' (p s) b = some (p s'))
    {s₀ s : σ} (hstart : I s₀) (h : Steps step ok s₀ s) : Steps step' ok' (p s₀) (p s) := by
  induction h with
  | refl => exact Steps.refl _
  | tail a hrun hok hs ih =>
      have hI := hrun.inv I hstart hstep
      rcases hproject _ a _ hI hok hs with hsame | ⟨b, hok', hs'⟩
      · rw [hsame]
        exact ih
      · exact Steps.tail b ih hok' hs'

/-- A run may meet a weaker side condition. -/
theorem Steps.weaken {step : σ → α → Option σ} {ok ok' : σ → α → Prop}
    {s t : σ} (hw : ∀ u a, ok u a → ok' u a) (h : Steps step ok s t) :
    Steps step ok' s t := by
  induction h with
  | refl => exact Steps.refl s
  | tail a _ hok hs ih => exact Steps.tail a ih (hw _ a hok) hs

/-- Execute the actions in order; `none` when one of them is not enabled. -/
def run (step : σ → α → Option σ) : σ → List α → Option σ
  | s, [] => some s
  | s, a :: as =>
      match step s a with
      | none => none
      | some s' => run step s' as

/-- Execute the actions in order, checking the side condition at each. -/
def runChecked (step : σ → α → Option σ) (ok : σ → α → Prop)
    [∀ s a, Decidable (ok s a)] : σ → List α → Option σ
  | s, [] => some s
  | s, a :: as =>
      if ok s a then
        match step s a with
        | none => none
        | some s' => runChecked step ok s' as
      else none

/-- Prepending a step to a run. -/
theorem Steps.head {step : σ → α → Option σ} {ok : σ → α → Prop}
    {s u t : σ} (a : α) (hok : ok s a) (hs : step s a = some u)
    (h : Steps step ok u t) : Steps step ok s t := by
  induction h with
  | refl => exact Steps.tail a (Steps.refl s) hok hs
  | tail b _ hok' hs' ih => exact Steps.tail b ih hok' hs'

theorem run_singleton (step : σ → α → Option σ) (s : σ) (a : α) :
    run step s [a] = step s a := by
  rw [run]
  cases step s a with
  | none => rfl
  | some u => rfl

/-- A list of actions is executed in two parts. -/
theorem run_append {step : σ → α → Option σ} {s t u : σ} {as bs : List α}
    (hs : run step s as = some t) (ht : run step t bs = some u) :
    run step s (as ++ bs) = some u := by
  induction as generalizing s with
  | nil =>
      cases hs
      exact ht
  | cons a as ih =>
      rw [run] at hs
      rw [List.cons_append, run]
      cases ha : step s a with
      | none => rw [ha] at hs; exact nomatch hs
      | some v =>
          rw [ha] at hs
          exact ih hs

/-- An executed list of actions is a run of actions of the list. -/
theorem Steps.of_run_mem {step : σ → α → Option σ} {as : List α} {s t : σ}
    (h : run step s as = some t) : Steps step (fun _ a => a ∈ as) s t := by
  induction as generalizing s with
  | nil =>
      cases h
      exact Steps.refl _
  | cons a as ih =>
      rw [run] at h
      cases hs : step s a with
      | none => rw [hs] at h; exact nomatch h
      | some u =>
          rw [hs] at h
          exact Steps.head a List.mem_cons_self hs
            ((ih h).weaken fun _ _ hmem => List.mem_cons_of_mem a hmem)

/-- An executed list of actions is a run. -/
theorem Steps.of_run {step : σ → α → Option σ} {as : List α} {s t : σ}
    (h : run step s as = some t) : Steps step anyStep s t := by
  induction as generalizing s with
  | nil =>
      cases h
      exact Steps.refl _
  | cons a as ih =>
      rw [run] at h
      cases hs : step s a with
      | none => rw [hs] at h; exact nomatch h
      | some u =>
          rw [hs] at h
          exact Steps.head a trivial hs (ih h)

/-- A run that ends in a state of which the execution says what `f` makes. -/
theorem Steps.exists_of_run {β : Type} {step : σ → α → Option σ} {f : σ → β} {s : σ}
    {b : β} (as : List α) (h : (run step s as).map f = some b) :
    ∃ t, Steps step anyStep s t ∧ f t = b := by
  obtain ⟨t, ht, hf⟩ := Option.map_eq_some_iff.mp h
  exact ⟨t, Steps.of_run ht, hf⟩

/-- An executed list of checked actions is a run that meets the condition. -/
theorem Steps.of_runChecked {step : σ → α → Option σ} {ok : σ → α → Prop}
    [∀ s a, Decidable (ok s a)] {as : List α} {s t : σ}
    (h : runChecked step ok s as = some t) : Steps step ok s t := by
  induction as generalizing s with
  | nil =>
      cases h
      exact Steps.refl _
  | cons a as ih =>
      rw [runChecked] at h
      by_cases hok : ok s a
      · rw [if_pos hok] at h
        cases hs : step s a with
        | none => rw [hs] at h; exact nomatch h
        | some u =>
            rw [hs] at h
            exact Steps.head a hok hs (ih h)
      · rw [if_neg hok] at h
        exact nomatch h

theorem Steps.exists_of_runChecked {β : Type} {step : σ → α → Option σ}
    {ok : σ → α → Prop} [∀ s a, Decidable (ok s a)] {f : σ → β} {s : σ} {b : β}
    (as : List α) (h : (runChecked step ok s as).map f = some b) :
    ∃ t, Steps step ok s t ∧ f t = b := by
  obtain ⟨t, ht, hf⟩ := Option.map_eq_some_iff.mp h
  exact ⟨t, Steps.of_runChecked ht, hf⟩

end Runs
