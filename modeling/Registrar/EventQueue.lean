import Registrar.Library.Runs

/-! # The event queue

    The socket's callbacks push the tail's events into a queue, and one consumer
    takes them out.  An item goes to the buffer, or straight to the consumer that
    waits for one; the consumer resumes later, and more items may be pushed or the
    queue be closed in between. -/

namespace RegistrarEventQueue

open Runs

variable {α : Type}

/-- What the promise of a waiter resolves to. -/
inductive QueueResult (α : Type)
  | value (item : α)
  | done

/-- Where the consumer is in `drain`. -/
inductive Phase (α : Type)
  /-- Before its first item, or at a `yield`. -/
  | paused
  /-- At its promise. -/
  | waiting
  /-- Its promise is resolved; it has not resumed yet. -/
  | resolved (result : QueueResult α)
  | ended

/-- A queue and its consumer, with the items yielded so far.  `waiters` counts the
    waiters, which are all promises of the consumer. -/
structure EventQueue (α : Type) where
  items : List α := []
  waiters : ℕ := 0
  closed : Bool := false
  phase : Phase α := .paused
  yielded : List α := []

/-- The calls of `push` and `close`, and the steps of the consumer: it asks for an
    item, or resumes from its promise.  That the consumer leaves early (the `break` of
    `LiveTail.run`, which returns from the generator) is not a step: `drain` yields
    nothing after it. -/
inductive Action (α : Type)
  | push (item : α)
  | close
  | next
  | resume

/-! ## The methods -/

def push (item : α) (q : EventQueue α) : EventQueue α :=
  if q.closed then q
  else match q.waiters with
    | waiters + 1 => { q with waiters, phase := .resolved (.value item) }
    | 0 => { q with items := q.items ++ [item] }

def close (q : EventQueue α) : EventQueue α :=
  match q.waiters with
  | 0 => { q with closed := true }
  | _ + 1 => { q with closed := true, waiters := 0, phase := .resolved .done }

/-- A turn of `drain`, from its `yield` to the next suspension. -/
def next (q : EventQueue α) : EventQueue α :=
  match q.items with
  | item :: items => { q with items, yielded := q.yielded ++ [item] }
  | [] =>
      if q.closed then { q with phase := .ended }
      else { q with waiters := q.waiters + 1, phase := .waiting }

/-- `drain` after its promise. -/
def resume (q : EventQueue α) : QueueResult α → EventQueue α
  | .done => { q with phase := .ended }
  | .value item => { q with phase := .paused, yielded := q.yielded ++ [item] }

/-- The consumer asks where it is paused and resumes once its promise is resolved. -/
def step (q : EventQueue α) : Action α → Option (EventQueue α)
  | .push item => some (push item q)
  | .close => some (close q)
  | .next =>
      match q.phase with
      | .paused => some (next q)
      | _ => none
  | .resume =>
      match q.phase with
      | .resolved result => some (resume q result)
      | _ => none

/-- The items pushed before `close`. -/
def pushedBeforeClose : List (Action α) → List α
  | [] => []
  | .push item :: as => item :: pushedBeforeClose as
  | .close :: _ => []
  | .next :: as => pushedBeforeClose as
  | .resume :: as => pushedBeforeClose as

/-! ## Where an item is -/

/-- The item handed to the consumer that has not resumed. -/
def Phase.handed : Phase α → List α
  | .resolved (.value item) => [item]
  | _ => []

/-- The items in the order they were pushed: yielded, handed over or buffered. -/
def taken (q : EventQueue α) : List α := q.yielded ++ q.phase.handed ++ q.items

/-- What a step adds to them. -/
def accepted (q : EventQueue α) : Action α → List α
  | .push item => if q.closed then [] else [item]
  | _ => []

/-- **THE QUEUE INVARIANT**: the one waiter is the waiting consumer, which waits only
    where nothing is buffered, and nothing is left where the consumer ends. -/
structure Inv (q : EventQueue α) : Prop where
  waiter : q.waiters ≠ 0 → q.waiters = 1 ∧ q.phase = .waiting
  waiting : q.phase = .waiting → q.waiters = 1 ∧ q.items = [] ∧ q.closed = false
  done : q.phase = .resolved .done ∨ q.phase = .ended → q.closed = true ∧ q.items = []

section Steps

variable {q q' : EventQueue α} {a : Action α}

theorem push_closed {item : α} (hclosed : q.closed = true) : push item q = q :=
  if_pos hclosed

theorem push_buffers {item : α} (hclosed : ¬ q.closed = true) (hnone : q.waiters = 0) :
    push item q = { q with items := q.items ++ [item] } := by
  unfold push
  rw [if_neg hclosed, hnone]

theorem push_hands {item : α} (hclosed : ¬ q.closed = true) (hone : q.waiters = 1) :
    push item q = { q with waiters := 0, phase := .resolved (.value item) } := by
  unfold push
  rw [if_neg hclosed, hone]

/-- An item is dropped, buffered, or handed to the waiting consumer. -/
theorem Inv.push (h : Inv q) (item : α) :
    Inv (push item q) ∧ taken (push item q) = taken q ++ accepted q (.push item)
      ∧ (push item q).closed = q.closed := by
  unfold accepted
  by_cases hclosed : q.closed = true
  · rw [push_closed hclosed]
    exact ⟨h, by simp [hclosed], rfl⟩
  have hnot : ¬ (q.phase = .resolved .done ∨ q.phase = .ended) :=
    fun hdone => hclosed (h.done hdone).1
  by_cases hnone : q.waiters = 0
  · rw [push_buffers hclosed hnone]
    refine ⟨⟨?_, ?_, ?_⟩, ?_, rfl⟩
    · intro hne
      exact absurd hnone hne
    · intro hwaiting
      rw [(h.waiting hwaiting).1] at hnone
      cases hnone
    · intro hdone
      exact absurd hdone hnot
    · simp [taken, hclosed]
  · -- a waiting consumer finds nothing buffered
    obtain ⟨hone, hphase⟩ := h.waiter hnone
    obtain ⟨-, hitems, -⟩ := h.waiting hphase
    rw [push_hands hclosed hone]
    refine ⟨⟨?_, ?_, ?_⟩, ?_, rfl⟩
    · intro hne
      exact absurd rfl hne
    · intro hwaiting
      cases hwaiting
    · intro hdone
      rcases hdone with hdone | hdone <;> cases hdone
    · simp [taken, Phase.handed, hphase, hitems, hclosed]

theorem close_idle (hnone : q.waiters = 0) : close q = { q with closed := true } := by
  unfold close
  rw [hnone]

theorem close_ends (hone : q.waiters = 1) :
    close q = { q with closed := true, waiters := 0, phase := .resolved .done } := by
  unfold close
  rw [hone]

theorem Inv.close (h : Inv q) :
    Inv (close q) ∧ taken (close q) = taken q ∧ (close q).closed = true := by
  by_cases hnone : q.waiters = 0
  · rw [close_idle hnone]
    refine ⟨⟨?_, ?_, ?_⟩, rfl, rfl⟩
    · intro hne
      exact absurd hnone hne
    · intro hwaiting
      rw [(h.waiting hwaiting).1] at hnone
      cases hnone
    · intro hdone
      exact ⟨rfl, (h.done hdone).2⟩
  · obtain ⟨hone, hphase⟩ := h.waiter hnone
    obtain ⟨-, hitems, -⟩ := h.waiting hphase
    rw [close_ends hone]
    refine ⟨⟨?_, ?_, ?_⟩, ?_, rfl⟩
    · intro hne
      exact absurd rfl hne
    · intro hwaiting
      cases hwaiting
    · intro _
      exact ⟨rfl, hitems⟩
    · simp [taken, Phase.handed, hphase]

theorem next_yields {item : α} {items : List α} (hitems : q.items = item :: items) :
    next q = { q with items, yielded := q.yielded ++ [item] } := by
  unfold next
  rw [hitems]

theorem next_ends (hitems : q.items = []) (hclosed : q.closed = true) :
    next q = { q with phase := .ended } := by
  unfold next
  rw [hitems]
  exact if_pos hclosed

theorem next_waits (hitems : q.items = []) (hclosed : ¬ q.closed = true) :
    next q = { q with waiters := q.waiters + 1, phase := .waiting } := by
  unfold next
  rw [hitems]
  exact if_neg hclosed

theorem Inv.next (h : Inv q) (hphase : q.phase = .paused) :
    Inv (next q) ∧ taken (next q) = taken q ∧ (next q).closed = q.closed := by
  have hnone : q.waiters = 0 := by
    by_contra hne
    cases hphase.symm.trans (h.waiter hne).2
  cases hitems : q.items with
  | cons item items =>
      rw [next_yields hitems]
      refine ⟨⟨?_, ?_, ?_⟩, ?_, rfl⟩
      · intro hne
        exact absurd hnone hne
      · intro hwaiting
        cases hphase.symm.trans hwaiting
      · intro hdone
        rcases hdone with hdone | hdone <;> cases hphase.symm.trans hdone
      · simp [taken, hphase, Phase.handed, hitems]
  | nil =>
      by_cases hclosed : q.closed = true
      · rw [next_ends hitems hclosed]
        refine ⟨⟨?_, ?_, ?_⟩, ?_, rfl⟩
        · intro hne
          exact absurd hnone hne
        · intro hwaiting
          cases hwaiting
        · intro _
          exact ⟨hclosed, hitems⟩
        · simp [taken, hphase, Phase.handed]
      · rw [next_waits hitems hclosed]
        have hone : q.waiters + 1 = 1 := by rw [hnone]
        refine ⟨⟨?_, ?_, ?_⟩, ?_, rfl⟩
        · intro _
          exact ⟨hone, rfl⟩
        · intro _
          exact ⟨hone, hitems, by simpa using hclosed⟩
        · intro hdone
          rcases hdone with hdone | hdone <;> cases hdone
        · simp [taken, hphase, Phase.handed]

theorem Inv.resume (h : Inv q) {result : QueueResult α} (hphase : q.phase = .resolved result) :
    Inv (resume q result) ∧ taken (resume q result) = taken q
      ∧ (resume q result).closed = q.closed := by
  have hnone : q.waiters = 0 := by
    by_contra hne
    cases hphase.symm.trans (h.waiter hne).2
  cases result with
  | done =>
      obtain ⟨hclosed, hitems⟩ := h.done (Or.inl hphase)
      refine ⟨⟨?_, ?_, ?_⟩, ?_, rfl⟩
      · intro hne
        exact absurd hnone hne
      · intro hwaiting
        cases hwaiting
      · intro _
        exact ⟨hclosed, hitems⟩
      · simp [taken, RegistrarEventQueue.resume, hphase, Phase.handed]
  | value item =>
      refine ⟨⟨?_, ?_, ?_⟩, ?_, rfl⟩
      · intro hne
        exact absurd hnone hne
      · intro hwaiting
        cases hwaiting
      · intro hdone
        rcases hdone with hdone | hdone <;> cases hdone
      · simp [taken, RegistrarEventQueue.resume, hphase, Phase.handed]

/-- **ONE STEP** keeps the invariant and adds to the items what it accepts; the queue is
    closed by `close` alone. -/
theorem Inv.step (h : Inv q) (hs : step q a = some q') :
    Inv q' ∧ taken q' = taken q ++ accepted q a
      ∧ (q'.closed = true ↔ q.closed = true ∨ a = .close) := by
  cases a with
  | push item =>
      cases hs
      obtain ⟨hinv, htaken, hclosed⟩ := h.push item
      exact ⟨hinv, htaken, by rw [hclosed]; simp⟩
  | close =>
      cases hs
      obtain ⟨hinv, htaken, hclosed⟩ := h.close
      exact ⟨hinv, by rw [htaken]; simp [accepted], by simp [hclosed]⟩
  | next =>
      cases hphase : q.phase with
      | paused =>
          simp only [RegistrarEventQueue.step, hphase, Option.some.injEq] at hs
          subst hs
          obtain ⟨hinv, htaken, hclosed⟩ := h.next hphase
          exact ⟨hinv, by rw [htaken]; simp [accepted], by rw [hclosed]; simp⟩
      | waiting => simp [RegistrarEventQueue.step, hphase] at hs
      | resolved result => simp [RegistrarEventQueue.step, hphase] at hs
      | ended => simp [RegistrarEventQueue.step, hphase] at hs
  | resume =>
      cases hphase : q.phase with
      | resolved result =>
          simp only [RegistrarEventQueue.step, hphase, Option.some.injEq] at hs
          subst hs
          obtain ⟨hinv, htaken, hclosed⟩ := h.resume hphase
          exact ⟨hinv, by rw [htaken]; simp [accepted], by rw [hclosed]; simp⟩
      | paused => simp [RegistrarEventQueue.step, hphase] at hs
      | waiting => simp [RegistrarEventQueue.step, hphase] at hs
      | ended => simp [RegistrarEventQueue.step, hphase] at hs

end Steps

/-! ## Every interleaving -/

/-- What a run adds to the items. -/
theorem inv_run {q q' : EventQueue α} {as : List (Action α)} (h : Inv q)
    (hrun : run step q as = some q') :
    Inv q' ∧ taken q' = taken q ++ (if q.closed then [] else pushedBeforeClose as) := by
  induction as generalizing q with
  | nil =>
      cases hrun
      exact ⟨h, by simp [pushedBeforeClose]⟩
  | cons a as ih =>
      rw [run] at hrun
      cases hs : step q a with
      | none =>
          rw [hs] at hrun
          cases hrun
      | some u =>
          rw [hs] at hrun
          obtain ⟨hinv, htaken, hclosed⟩ := h.step hs
          obtain ⟨hinv', htaken'⟩ := ih hinv hrun
          refine ⟨hinv', ?_⟩
          rw [htaken', htaken, List.append_assoc]
          refine congrArg (taken q ++ ·) ?_
          cases a with
          | push item => cases hq : q.closed <;> simp_all [accepted, pushedBeforeClose]
          | close => cases hq : q.closed <;> simp_all [accepted, pushedBeforeClose]
          | next => cases hq : q.closed <;> simp_all [accepted, pushedBeforeClose]
          | resume => cases hq : q.closed <;> simp_all [accepted, pushedBeforeClose]

/-- **FIRST IN, FIRST OUT**: after any interleaving, the items yielded are a prefix of
    those pushed before `close`; nothing is buffered where the consumer waits; and where
    it has ended, the queue is closed and every such item was yielded. -/
theorem queue_is_fifo (as : List (Action α)) {q : EventQueue α}
    (h : run step {} as = some q) :
    q.yielded <+: pushedBeforeClose as
      ∧ ((q.phase = .waiting ∨ q.waiters ≠ 0) → q.items = [])
      ∧ (q.phase = .ended → q.closed = true ∧ q.yielded = pushedBeforeClose as) := by
  have hstart : Inv ({} : EventQueue α) := by
    refine ⟨?_, ?_, ?_⟩
    · intro hne
      exact absurd rfl hne
    · intro hwaiting
      cases hwaiting
    · intro hdone
      rcases hdone with hdone | hdone <;> cases hdone
  obtain ⟨hinv, htaken⟩ := inv_run hstart h
  have hpushed : q.yielded ++ q.phase.handed ++ q.items = pushedBeforeClose as := htaken
  refine ⟨?_, ?_, ?_⟩
  · rw [← hpushed, List.append_assoc]
    exact List.prefix_append _ _
  · intro hwaits
    rcases hwaits with hwaiting | hne
    · exact (hinv.waiting hwaiting).2.1
    · exact (hinv.waiting (hinv.waiter hne).2).2.1
  · intro hended
    obtain ⟨hclosed, hitems⟩ := hinv.done (Or.inr hended)
    refine ⟨hclosed, ?_⟩
    rw [← hpushed, hended, hitems]
    simp [Phase.handed]

/-- An item is handed over, the next one is buffered, and the queue is closed before the
    consumer resumes. -/
theorem queue_is_fifo_handed : ∃ q : EventQueue ℕ,
    run step {} [.next, .push 1, .push 2, .close, .push 3, .resume, .next, .next] = some q
      ∧ q.yielded = [1, 2] := by
  refine ⟨_, rfl, ?_⟩
  exact ((queue_is_fifo [.next, .push 1, .push 2, .close, .push 3, .resume, .next, .next]
    rfl).2.2 rfl).2

end RegistrarEventQueue
