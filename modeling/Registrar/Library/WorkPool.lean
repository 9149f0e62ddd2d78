import Mathlib

/-! # Workers on a shared counter

    A number of workers take the items `0, …, n - 1` from a counter they share, each the
    next one when it is done with its last; between that a worker's state is its own.
    However their steps interleave, every item is taken once and in order, and when all
    workers have stopped every item is done. -/

namespace WorkPool

variable {σ : Type}

/-- A worker is on an item, has found none left, or has failed on one. -/
inductive Worker (σ : Type)
  | busy (item : ℕ) (state : σ)
  | stopped
  | failed (item : ℕ)
  deriving DecidableEq

/-- The item a worker has taken and not done. -/
def Worker.item : Worker σ → Option ℕ
  | .busy i _ => some i
  | .stopped => none
  | .failed i => some i

/-- The counter, the workers and the items done. -/
structure Pool (σ : Type) where
  next : ℕ
  workers : List (Worker σ)
  done : List ℕ
  deriving DecidableEq

/-- What a worker does that is free: it takes the next item, or stops. -/
def take (n : ℕ) (start : ℕ → σ) (next : ℕ) : Worker σ :=
  if next < n then .busy next (start next) else .stopped

/-- The counter after that. -/
def taken (n next : ℕ) : ℕ := if next < n then next + 1 else next

/-- Add workers, each of which takes an item at once. -/
def spawn (n : ℕ) (start : ℕ → σ) : ℕ → Pool σ → Pool σ
  | 0, p => p
  | k + 1, p =>
      spawn n start k { p with
        next := taken n p.next, workers := p.workers ++ [take n start p.next] }

/-- A pool of at most `limit` workers, and at least one. -/
def start (n limit : ℕ) (start : ℕ → σ) : Pool σ :=
  spawn n start (max 1 (min limit n)) ⟨0, [], []⟩

/-- A worker moves on with its item. -/
def Pool.work (p : Pool σ) (k : ℕ) (s : σ) : Option (Pool σ) :=
  match p.workers[k]? with
  | some (.busy i _) => some { p with workers := p.workers.set k (.busy i s) }
  | _ => none

/-- A worker is done with its item. -/
def Pool.finish (n : ℕ) (start : ℕ → σ) (p : Pool σ) (k : ℕ) : Option (Pool σ) :=
  match p.workers[k]? with
  | some (.busy i _) => some {
      next := taken n p.next
      workers := p.workers.set k (take n start p.next)
      done := p.done ++ [i] }
  | _ => none

/-- A worker fails on its item. -/
def Pool.fail (p : Pool σ) (k : ℕ) : Option (Pool σ) :=
  match p.workers[k]? with
  | some (.busy i _) => some { p with workers := p.workers.set k (.failed i) }
  | _ => none

/-- All workers have found no item left. -/
def Pool.Resolved (p : Pool σ) : Prop := ∀ w ∈ p.workers, w.item = none

instance (p : Pool σ) : Decidable p.Resolved :=
  inferInstanceAs (Decidable (∀ w ∈ p.workers, w.item = none))

/-- The worker has failed. -/
def Worker.Failed : Worker σ → Prop
  | .failed _ => True
  | _ => False

instance (w : Worker σ) : Decidable w.Failed := by
  unfold Worker.Failed
  cases w <;> exact inferInstance

/-- Some worker has failed. -/
def Pool.Rejected (p : Pool σ) : Prop := ∃ w ∈ p.workers, w.Failed

instance (p : Pool σ) : Decidable p.Rejected :=
  inferInstanceAs (Decidable (∃ w ∈ p.workers, w.Failed))

/-! ## Every item once -/

/-- The items that are taken and not done. -/
def Pool.items (p : Pool σ) : List ℕ := p.workers.filterMap Worker.item

/-- **EVERY ITEM ONCE**: an item below the counter is with one worker or done, and a
    worker stops only when none is left. -/
structure Pool.Ok (n : ℕ) (p : Pool σ) : Prop where
  next : p.next ≤ n
  once : (p.items ++ p.done).Perm (List.range p.next)
  stopped : .stopped ∈ p.workers → p.next = n

section Ok

variable {n : ℕ} {begin : ℕ → σ} {p p' : Pool σ}

theorem taken_le {next : ℕ} (h : next ≤ n) : taken n next ≤ n := by
  unfold taken
  by_cases hlt : next < n
  · rw [if_pos hlt]
    exact hlt
  · rw [if_neg hlt]
    exact h

/-- What a free worker takes is what the counter moves by. -/
theorem range_taken (begin : ℕ → σ) (next : ℕ) :
    List.range (taken n next) = List.range next ++ (take n begin next).item.toList := by
  unfold taken take
  by_cases hlt : next < n
  · rw [if_pos hlt, if_pos hlt, List.range_succ]
    rfl
  · rw [if_neg hlt, if_neg hlt]
    exact (List.append_nil _).symm

theorem stopped_of_take {next : ℕ} (hle : next ≤ n) (h : take n begin next = .stopped) :
    taken n next = n := by
  unfold take at h
  unfold taken
  by_cases hlt : next < n
  · rw [if_pos hlt] at h
    exact nomatch h
  · rw [if_neg hlt]
    omega

theorem taken_of_eq {next : ℕ} (h : next = n) : taken n next = n := by
  unfold taken
  rw [if_neg (by omega)]
  exact h

/-- The items after one worker has changed. -/
theorem items_set {k : ℕ} {w : Worker σ} (hw : p.workers[k]? = some w) (w' : Worker σ) :
    ∃ rest, p.items.Perm (w.item.toList ++ rest)
      ∧ ((p.workers.set k w').filterMap Worker.item).Perm (w'.item.toList ++ rest) := by
  obtain ⟨hk, rfl⟩ := List.getElem?_eq_some_iff.mp hw
  have hcons : ∀ w : Worker σ, ∀ ws : List (Worker σ),
      (w :: ws).filterMap Worker.item = w.item.toList ++ ws.filterMap Worker.item := by
    intro w ws
    rw [List.filterMap_cons]
    cases w.item with
    | none => rfl
    | some i => rfl
  refine ⟨(p.workers.eraseIdx k).filterMap Worker.item, ?_, ?_⟩
  · rw [← hcons]
    exact ((List.getElem_cons_eraseIdx_perm hk).symm).filterMap _
  · rw [← hcons]
    exact (List.set_perm_cons_eraseIdx hk w').filterMap _

/-- A worker more, on the item it takes. -/
theorem items_append (ws : List (Worker σ)) (w : Worker σ) :
    (ws ++ [w]).filterMap Worker.item = ws.filterMap Worker.item ++ w.item.toList := by
  rw [List.filterMap_append]
  cases w <;> rfl

theorem Pool.Ok.spawn (h : p.Ok n) (k : ℕ) : (spawn n begin k p).Ok n := by
  induction k generalizing p with
  | zero => exact h
  | succ k ih =>
      refine ih ⟨taken_le h.next, ?_, fun hstop => ?_⟩
      · have hitems : Pool.items { p with
            next := taken n p.next, workers := p.workers ++ [take n begin p.next] }
            = p.items ++ (take n begin p.next).item.toList := items_append _ _
        rw [hitems, range_taken begin, List.append_assoc]
        refine (List.perm_append_comm.append_left _).trans ?_
        rw [← List.append_assoc]
        exact h.once.append_right _
      · rcases List.mem_append.mp hstop with hold | hnew
        · exact taken_of_eq (h.stopped hold)
        · exact stopped_of_take h.next (List.mem_singleton.mp hnew).symm

theorem start_ok (n limit : ℕ) (begin : ℕ → σ) : (start n limit begin).Ok n :=
  Pool.Ok.spawn ⟨Nat.zero_le n, List.Perm.refl _, fun h => absurd h List.not_mem_nil⟩ _

/-! ## Steps -/

theorem Pool.work_some {k : ℕ} {s : σ} (h : p.work k s = some p') :
    ∃ i s₀, p.workers[k]? = some (.busy i s₀)
      ∧ p' = { p with workers := p.workers.set k (.busy i s) } := by
  unfold Pool.work at h
  cases hw : p.workers[k]? with
  | none =>
      simp only [hw] at h
      cases h
  | some w =>
      cases w with
      | busy i s₀ =>
          simp only [hw] at h
          exact ⟨i, s₀, rfl, (Option.some.inj h).symm⟩
      | stopped =>
          simp only [hw] at h
          cases h
      | failed i =>
          simp only [hw] at h
          cases h

theorem Pool.finish_some {k : ℕ} (h : p.finish n begin k = some p') :
    ∃ i s₀, p.workers[k]? = some (.busy i s₀)
      ∧ p' = ⟨taken n p.next, p.workers.set k (take n begin p.next), p.done ++ [i]⟩ := by
  unfold Pool.finish at h
  cases hw : p.workers[k]? with
  | none =>
      simp only [hw] at h
      cases h
  | some w =>
      cases w with
      | busy i s₀ =>
          simp only [hw] at h
          exact ⟨i, s₀, rfl, (Option.some.inj h).symm⟩
      | stopped =>
          simp only [hw] at h
          cases h
      | failed i =>
          simp only [hw] at h
          cases h

theorem Pool.fail_some {k : ℕ} (h : p.fail k = some p') :
    ∃ i s₀, p.workers[k]? = some (.busy i s₀)
      ∧ p' = { p with workers := p.workers.set k (.failed i) } := by
  unfold Pool.fail at h
  cases hw : p.workers[k]? with
  | none =>
      simp only [hw] at h
      cases h
  | some w =>
      cases w with
      | busy i s₀ =>
          simp only [hw] at h
          exact ⟨i, s₀, rfl, (Option.some.inj h).symm⟩
      | stopped =>
          simp only [hw] at h
          cases h
      | failed i =>
          simp only [hw] at h
          cases h

/-- A worker that keeps its item. -/
theorem Pool.Ok.set (h : p.Ok n) {k : ℕ} {w w' : Worker σ} (hw : p.workers[k]? = some w)
    (hitem : w'.item = w.item) (hstop : w' ≠ .stopped) :
    Pool.Ok n { p with workers := p.workers.set k w' } where
  next := h.next
  once := by
    obtain ⟨rest, hbefore, hafter⟩ := items_set hw w'
    rw [hitem] at hafter
    exact ((hafter.trans hbefore.symm).append_right _).trans h.once
  stopped := fun hin => (List.mem_or_eq_of_mem_set hin).elim h.stopped
    (fun heq => absurd heq.symm hstop)

theorem Pool.Ok.work (h : p.Ok n) {k : ℕ} {s : σ} (hstep : p.work k s = some p') :
    p'.Ok n := by
  obtain ⟨i, s₀, hw, rfl⟩ := Pool.work_some hstep
  exact h.set hw rfl (by simp)

theorem Pool.Ok.fail (h : p.Ok n) {k : ℕ} (hstep : p.fail k = some p') : p'.Ok n := by
  obtain ⟨i, s₀, hw, rfl⟩ := Pool.fail_some hstep
  exact h.set hw rfl (by simp)

/-- The worker's item is done, and the one it takes is the next. -/
theorem Pool.Ok.finish (h : p.Ok n) {k : ℕ} (hstep : p.finish n begin k = some p') :
    p'.Ok n := by
  obtain ⟨i, s₀, hw, rfl⟩ := Pool.finish_some hstep
  refine ⟨taken_le h.next, ?_, fun hstop => ?_⟩
  · obtain ⟨rest, hbefore, hafter⟩ := items_set hw (take n begin p.next)
    show (((p.workers.set k (take n begin p.next)).filterMap Worker.item)
      ++ (p.done ++ [i])).Perm (List.range (taken n p.next))
    rw [range_taken begin]
    have hall : (([i] ++ rest) ++ p.done).Perm (List.range p.next) :=
      (hbefore.symm.append_right _).trans h.once
    have hmove : (rest ++ (p.done ++ [i])).Perm (List.range p.next) := by
      refine List.Perm.trans ?_ hall
      rw [← List.append_assoc, List.append_assoc [i]]
      exact List.perm_append_comm
    refine (hafter.append_right _).trans ?_
    rw [List.append_assoc]
    exact (List.perm_append_comm).trans (hmove.append_right _)
  · rcases List.mem_or_eq_of_mem_set hstop with hold | hnew
    · exact taken_of_eq (h.stopped hold)
    · exact stopped_of_take h.next hnew.symm

/-- **ALL IS DONE** when every worker has stopped. -/
theorem Pool.Ok.all_done (h : p.Ok n) (hworkers : p.workers ≠ []) (hend : p.Resolved) :
    p.done.Perm (List.range n) := by
  have hitems : p.items = [] := List.filterMap_eq_nil_iff.mpr hend
  obtain ⟨w, hw⟩ := List.exists_mem_of_ne_nil _ hworkers
  have hstopped : w = .stopped := by
    have hnone := hend w hw
    cases w with
    | busy i s => exact nomatch hnone
    | stopped => rfl
    | failed i => exact nomatch hnone
  have honce := h.once
  rw [hitems, h.stopped (hstopped ▸ hw)] at honce
  exact honce

end Ok

/-! ## No more workers -/

section Length

variable {n : ℕ} {begin : ℕ → σ} {p p' : Pool σ}

theorem spawn_length (k : ℕ) : (spawn n begin k p).workers.length = p.workers.length + k := by
  induction k generalizing p with
  | zero => rfl
  | succ k ih =>
      show (spawn n begin k _).workers.length = _
      rw [ih, List.length_append]
      show p.workers.length + 1 + k = _
      omega

theorem start_length (n limit : ℕ) (begin : ℕ → σ) :
    (start n limit begin).workers.length = max 1 (min limit n) := by
  unfold start
  rw [spawn_length]
  exact Nat.zero_add _

theorem Pool.work_length {k : ℕ} {s : σ} (h : p.work k s = some p') :
    p'.workers.length = p.workers.length := by
  obtain ⟨i, s₀, -, rfl⟩ := Pool.work_some h
  exact List.length_set

theorem Pool.finish_length {k : ℕ} (h : p.finish n begin k = some p') :
    p'.workers.length = p.workers.length := by
  obtain ⟨i, s₀, -, rfl⟩ := Pool.finish_some h
  exact List.length_set

theorem Pool.fail_length {k : ℕ} (h : p.fail k = some p') :
    p'.workers.length = p.workers.length := by
  obtain ⟨i, s₀, -, rfl⟩ := Pool.fail_some h
  exact List.length_set

end Length

/-! ## What the workers have in hand -/

/-- `P` holds of every item that is worked on and its state, `Q` of every item done. -/
structure Pool.Holds (P : ℕ → σ → Prop) (Q : ℕ → Prop) (p : Pool σ) : Prop where
  busy : ∀ i s, .busy i s ∈ p.workers → P i s
  done : ∀ i ∈ p.done, Q i

section Holds

variable {n : ℕ} {begin : ℕ → σ} {P P' : ℕ → σ → Prop} {Q Q' : ℕ → Prop} {p p' : Pool σ}

theorem Pool.Holds.mono (h : p.Holds P Q) (hP : ∀ i s, P i s → P' i s)
    (hQ : ∀ i, Q i → Q' i) : p.Holds P' Q' :=
  ⟨fun i s hw => hP i s (h.busy i s hw), fun i hi => hQ i (h.done i hi)⟩

theorem of_take {next i : ℕ} {s : σ} (hP : ∀ i < n, P i (begin i))
    (h : take n begin next = .busy i s) : P i s := by
  unfold take at h
  by_cases hlt : next < n
  · rw [if_pos hlt] at h
    cases h
    exact hP _ hlt
  · rw [if_neg hlt] at h
    exact nomatch h

theorem Pool.Holds.spawn (h : p.Holds P Q) (hP : ∀ i < n, P i (begin i)) (k : ℕ) :
    (spawn n begin k p).Holds P Q := by
  induction k generalizing p with
  | zero => exact h
  | succ k ih =>
      refine ih ⟨fun i s hw => ?_, h.done⟩
      rcases List.mem_append.mp hw with hold | hnew
      · exact h.busy i s hold
      · exact of_take hP (List.mem_singleton.mp hnew).symm

theorem start_holds (limit : ℕ) (hP : ∀ i < n, P i (begin i)) :
    (start n limit begin).Holds P Q :=
  Pool.Holds.spawn ⟨fun _ _ h => absurd h List.not_mem_nil,
    fun _ h => absurd h List.not_mem_nil⟩ hP _

/-- One worker's step, where the others keep what they have. -/
theorem Pool.Holds.work (h : p.Holds P Q) {k : ℕ} {s : σ} (hstep : p.work k s = some p')
    (hP : ∀ i s₀, p.workers[k]? = some (.busy i s₀) → P i s) : p'.Holds P Q := by
  obtain ⟨i, s₀, hw, rfl⟩ := Pool.work_some hstep
  refine ⟨fun j t hin => ?_, h.done⟩
  rcases List.mem_or_eq_of_mem_set hin with hold | hnew
  · exact h.busy j t hold
  · cases hnew
    exact hP i s₀ hw

theorem Pool.Holds.fail (h : p.Holds P Q) {k : ℕ} (hstep : p.fail k = some p') :
    p'.Holds P Q := by
  obtain ⟨i, s₀, -, rfl⟩ := Pool.fail_some hstep
  refine ⟨fun j t hin => ?_, h.done⟩
  rcases List.mem_or_eq_of_mem_set hin with hold | hnew
  · exact h.busy j t hold
  · exact nomatch hnew

theorem Pool.Holds.finish (h : p.Holds P Q) {k : ℕ} (hstep : p.finish n begin k = some p')
    (hP : ∀ i < n, P i (begin i))
    (hQ : ∀ i s₀, p.workers[k]? = some (.busy i s₀) → Q i) : p'.Holds P Q := by
  obtain ⟨i, s₀, hw, rfl⟩ := Pool.finish_some hstep
  refine ⟨fun j t hin => ?_, fun j hj => ?_⟩
  · rcases List.mem_or_eq_of_mem_set hin with hold | hnew
    · exact h.busy j t hold
    · exact of_take hP hnew.symm
  · rcases List.mem_append.mp hj with hold | hnew
    · exact h.done j hold
    · cases List.mem_singleton.mp hnew
      exact hQ _ s₀ hw

/-- **WHAT IS DONE IS ALL**: when every worker has stopped, `Q` holds of every item. -/
theorem Pool.Holds.all (h : p.Holds P Q) (hok : p.Ok n) (hworkers : p.workers ≠ [])
    (hend : p.Resolved) : ∀ i < n, Q i := by
  intro i hi
  exact h.done i ((hok.all_done hworkers hend).mem_iff.mpr (List.mem_range.mpr hi))

end Holds

end WorkPool
