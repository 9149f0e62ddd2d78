import Mathlib

/-! # Sequences of fallible statements

    A statement maps a state to the next state or fails.  A transaction is a
    sequence of statements, and one failure fails the whole of it.  The rules
    here take a transaction that succeeded apart. -/

namespace Statements

variable {σ α ε : Type}

/-- A sequence succeeds when its first part does and the rest does after. -/
theorem bind_ok {β : Type} {x : Except ε α} {f : α → Except ε β} {b : β} :
    (x >>= f) = .ok b ↔ ∃ a, x = .ok a ∧ f a = .ok b := by
  cases x with
  | error e =>
      constructor
      · intro h; exact nomatch h
      · rintro ⟨a, h, -⟩; exact nomatch h
  | ok a =>
      constructor
      · intro h; exact ⟨a, rfl, h⟩
      · rintro ⟨a', h, h'⟩
        cases h
        exact h'

/-- And fails when its first part does, or the rest does after. -/
theorem bind_error {β : Type} {x : Except ε α} {f : α → Except ε β} {e : ε} :
    (x >>= f) = .error e ↔ x = .error e ∨ ∃ a, x = .ok a ∧ f a = .error e := by
  cases x with
  | error e' =>
      constructor
      · intro h
        cases h
        exact Or.inl rfl
      · rintro (h | ⟨a, h, -⟩)
        · cases h
          rfl
        · exact nomatch h
  | ok a =>
      constructor
      · intro h
        exact Or.inr ⟨a, rfl, h⟩
      · rintro (h | ⟨a', h, h'⟩)
        · exact nomatch h
        · cases h
          exact h'

/-- What a statement gives, its error forgotten. -/
theorem toOption_some {x : Except ε α} {a : α} :
    x.toOption = some a ↔ x = .ok a := by
  cases x with
  | error e =>
      constructor
      · intro h; exact nomatch h
      · intro h; exact nomatch h
  | ok b =>
      constructor
      · intro h; exact congrArg Except.ok (Option.some.inj h)
      · intro h; exact congrArg some (Except.ok.inj h)

/-- A guarded statement that succeeded passed its guard. -/
theorem guarded_ok {c : Prop} [Decidable c] {e : ε} {x : Except ε α} {a : α} :
    (if c then Except.error e else x) = .ok a ↔ ¬ c ∧ x = .ok a := by
  by_cases h : c
  · rw [if_pos h]
    constructor
    · intro h'; exact nomatch h'
    · intro h'; exact absurd h h'.1
  · rw [if_neg h]
    exact ⟨fun h' => ⟨h, h'⟩, And.right⟩

/-- One that failed did so at its guard, or after it. -/
theorem guarded_error {c : Prop} [Decidable c] {e e' : ε} {x : Except ε α} :
    (if c then Except.error e else x) = .error e' ↔ (c ∧ e = e') ∨ (¬ c ∧ x = .error e') := by
  by_cases h : c
  · rw [if_pos h]
    constructor
    · intro h'
      exact Or.inl ⟨h, Except.error.inj h'⟩
    · rintro (⟨-, rfl⟩ | ⟨hnot, -⟩)
      · rfl
      · exact absurd h hnot
  · rw [if_neg h]
    constructor
    · exact fun h' => Or.inr ⟨h, h'⟩
    · rintro (⟨hc, -⟩ | ⟨-, h'⟩)
      · exact absurd hc h
      · exact h'

/-- A loop of statements that succeeded ran its first iteration, then the
    others. -/
theorem foldlM_cons_ok {f : σ → α → Except ε σ} {a : α} {l : List α}
    {s t : σ} :
    (a :: l).foldlM f s = .ok t ↔
      ∃ u, f s a = .ok u ∧ l.foldlM f u = .ok t := by
  rw [List.foldlM_cons]
  exact bind_ok

theorem foldlM_nil_ok {f : σ → α → Except ε σ} {s t : σ} :
    ([] : List α).foldlM f s = .ok t ↔ s = t := by
  rw [List.foldlM_nil]
  constructor
  · intro h; cases h; rfl
  · rintro rfl; rfl

/-- **THE LOOP RULE**: a reflexive and transitive relation that every
    iteration establishes holds from before the loop to after it. -/
theorem foldlM_rel {f : σ → α → Except ε σ} {R : σ → σ → Prop}
    (hrefl : ∀ s, R s s) (htrans : ∀ s t u, R s t → R t u → R s u)
    {l : List α} (hstep : ∀ a ∈ l, ∀ s t, f s a = .ok t → R s t) {s t : σ}
    (h : l.foldlM f s = .ok t) : R s t := by
  induction l generalizing s with
  | nil =>
      rw [foldlM_nil_ok.mp h]
      exact hrefl t
  | cons a l ih =>
      obtain ⟨u, hu, ht⟩ := foldlM_cons_ok.mp h
      refine htrans s u t (hstep a (List.mem_cons_self ..) s u hu) ?_
      exact ih (fun b hb => hstep b (List.mem_cons_of_mem a hb)) ht

/-- **THE TOTAL LOOP RULE**: a loop whose every iteration succeeds where an
    invariant holds, and keeps it, succeeds and keeps it. -/
theorem foldlM_succeeds {f : σ → α → Except ε σ} {P : σ → Prop} {l : List α}
    (hstep : ∀ a ∈ l, ∀ s, P s → ∃ t, f s a = .ok t ∧ P t) {s : σ} (hs : P s) :
    ∃ t, l.foldlM f s = .ok t ∧ P t := by
  induction l generalizing s with
  | nil => exact ⟨s, rfl, hs⟩
  | cons a l ih =>
      obtain ⟨u, hu, hPu⟩ := hstep a List.mem_cons_self s hs
      obtain ⟨t, ht, hPt⟩ := ih (fun b hb => hstep b (List.mem_cons_of_mem a hb)) hPu
      exact ⟨t, foldlM_cons_ok.mpr ⟨u, hu, ht⟩, hPt⟩

/-- What every later iteration keeps and the iteration of `a` establishes
    holds after the loop. -/
theorem foldlM_establishes {f : σ → α → Except ε σ} {P : σ → Prop}
    {l : List α} {a : α} (ha : a ∈ l)
    (hstep : ∀ s t, f s a = .ok t → P t)
    (hkeep : ∀ b ∈ l, ∀ s t, P s → f s b = .ok t → P t) {s t : σ}
    (h : l.foldlM f s = .ok t) : P t := by
  induction l generalizing s with
  | nil => exact nomatch ha
  | cons b l ih =>
      obtain ⟨u, hu, ht⟩ := foldlM_cons_ok.mp h
      rcases List.mem_cons.mp ha with rfl | hmem
      · refine foldlM_rel (R := fun s t => P s → P t) (fun _ h => h)
          (fun _ _ _ h₁ h₂ h => h₂ (h₁ h)) ?_ ht (hstep s u hu)
        intro c hc s t hst hs
        exact hkeep c (List.mem_cons_of_mem _ hc) s t hs hst
      · exact ih hmem (fun c hc => hkeep c (List.mem_cons_of_mem b hc)) ht

/-- A loop that succeeded ran every iteration. -/
theorem foldlM_ran {f : σ → α → Except ε σ} {l : List α} {a : α} (ha : a ∈ l) {s t : σ}
    (h : l.foldlM f s = .ok t) : ∃ u v, f u a = .ok v := by
  induction l generalizing s with
  | nil => exact nomatch ha
  | cons b l ih =>
      obtain ⟨u, hu, ht⟩ := foldlM_cons_ok.mp h
      rcases List.mem_cons.mp ha with rfl | hmem
      · exact ⟨s, u, hu⟩
      · exact ih hmem ht

/-- A fallible map succeeds when it does on every element, and its results are
    those of the elements. -/
theorem mapM_some {β : Type} {f : α → Option β} {l : List α}
    (h : ∀ a ∈ l, ∃ b, f a = some b) :
    ∃ bs, l.mapM f = some bs ∧ ∀ b, b ∈ bs ↔ ∃ a ∈ l, f a = some b := by
  induction l with
  | nil => exact ⟨[], rfl, fun b => by simp⟩
  | cons a l ih =>
      obtain ⟨b, hb⟩ := h a List.mem_cons_self
      obtain ⟨bs, hbs, hmem⟩ := ih (fun a' ha' => h a' (List.mem_cons_of_mem a ha'))
      refine ⟨b :: bs, ?_, ?_⟩
      · rw [List.mapM_cons, hb, hbs]
        rfl
      · intro b'
        rw [List.mem_cons, hmem, List.exists_mem_cons_iff, hb]
        exact or_congr ⟨fun h => congrArg some h.symm,
          fun h => (Option.some.inj h).symm⟩ Iff.rfl

/-- A result of a fallible map is that of an element. -/
theorem mem_of_mapM_some {β : Type} {f : α → Option β} {l : List α} {bs : List β}
    (h : l.mapM f = some bs) {b : β} (hb : b ∈ bs) : ∃ a ∈ l, f a = some b := by
  induction l generalizing bs with
  | nil =>
      cases h
      exact nomatch hb
  | cons a l ih =>
      rw [List.mapM_cons] at h
      obtain ⟨b', hb', hrest⟩ := Option.bind_eq_some_iff.mp h
      obtain ⟨bs', hbs', hcons⟩ := Option.bind_eq_some_iff.mp hrest
      cases hcons
      rcases List.mem_cons.mp hb with rfl | hmem
      · exact ⟨a, List.mem_cons_self, hb'⟩
      · obtain ⟨a', ha', hfa'⟩ := ih hbs' hmem
        exact ⟨a', List.mem_cons_of_mem a ha', hfa'⟩

theorem exists_of_mapM_some {β : Type} {f : α → Option β} {l : List α} {bs : List β}
    (h : l.mapM f = some bs) {a : α} (ha : a ∈ l) : ∃ b ∈ bs, f a = some b := by
  induction l generalizing bs with
  | nil => exact nomatch ha
  | cons a' l ih =>
      rw [List.mapM_cons] at h
      obtain ⟨b', hb', hrest⟩ := Option.bind_eq_some_iff.mp h
      obtain ⟨bs', hbs', hcons⟩ := Option.bind_eq_some_iff.mp hrest
      cases hcons
      rcases List.mem_cons.mp ha with rfl | hmem
      · exact ⟨b', List.mem_cons_self, hb'⟩
      · obtain ⟨b, hb, hfb⟩ := ih hbs' hmem
        exact ⟨b, List.mem_cons_of_mem b' hb, hfb⟩

/-- Filtering the elements filters the results, by a test the two share. -/
theorem mapM_filter {β : Type} {f : α → Option β} {p : α → Prop} {q : β → Prop}
    [DecidablePred p] [DecidablePred q] {l : List α} {bs : List β}
    (hpq : ∀ a b, f a = some b → (p a ↔ q b)) (h : l.mapM f = some bs) :
    (l.filter (fun a => p a)).mapM f = some (bs.filter (fun b => q b)) := by
  induction l generalizing bs with
  | nil =>
      cases h
      rfl
  | cons a l ih =>
      rw [List.mapM_cons] at h
      obtain ⟨b, hb, hrest⟩ := Option.bind_eq_some_iff.mp h
      obtain ⟨bs', hbs', hcons⟩ := Option.bind_eq_some_iff.mp hrest
      cases hcons
      by_cases hp : p a
      · have hq : q b := (hpq a b hb).mp hp
        rw [List.filter_cons_of_pos (by simpa using hp),
          List.filter_cons_of_pos (by simpa using hq), List.mapM_cons, hb, ih hbs']
        rfl
      · have hq : ¬ q b := fun hq => hp ((hpq a b hb).mpr hq)
        rw [List.filter_cons_of_neg (by simpa using hp),
          List.filter_cons_of_neg (by simpa using hq), ih hbs']

end Statements
