import Registrar.Library.Doubles
import Registrar.Library.Runs

/-! # The governor

    Every upstream request first acquires a slot of the governor.  A call of
    `acquire` is suspended at each `await`: while it sleeps out a cooldown, after
    `#waitForCooldown` has returned, while it is queued for a slot, and after
    `#takeSlot` has given it one.  `step` resumes one suspended call, or is a
    call from outside; each reading of the clock is a parameter of its step.  What is
    computed with the backoff is computed with doubles. -/

namespace RegistrarGovernor

open Runs Doubles

/-- The options; the two backoffs are in milliseconds, and only the cap is checked. -/
structure GovernorOptions where
  maxConcurrent : ℕ := 4
  minBackoffMs : ℚ := 1000
  maxBackoffMs : ℚ := 60000
  backoffFactor : ℚ := 2

/-- `**` of the runtime with a whole exponent, an approximation that the language leaves
    open: the zeroth power is one, and the powers of a base from one on do not decrease. -/
structure Power where
  pow : ℚ → ℕ → Extended
  zero : ∀ b, pow b 0 = finite 1
  mono : ∀ b, 1 ≤ b → Monotone (pow b)

/-- The power, rounded to the nearest double. -/
def roundedPower : Power where
  pow b n := toDouble (b ^ n)
  zero b := by
    rw [pow_zero]
    decide +kernel
  mono _ hb _ _ h := toDouble_mono (pow_le_pow_right₀ hb h)

/-- Where a call of `acquire` is suspended, or what became of it. -/
inductive Phase
  /-- In `clock.sleep`. -/
  | sleeping
  /-- `#waitForCooldown` has returned. -/
  | cooled
  /-- Its `resolve` is in `#waiters`. -/
  | queued
  /-- A release handed it a slot; it has not resumed yet. -/
  | handed
  /-- `#takeSlot` granted it a free slot; it has not resumed yet. -/
  | slotTaken
  /-- It has returned the release callback. -/
  | granted
  /-- The release callback has been called. -/
  | released
  deriving DecidableEq

/-- The state of the governor, its callers by the order of their calls, and the
    last reading of the clock.  A waiter is the number of its caller. -/
structure Governor where
  inFlight : ℤ := 0
  waiters : List ℕ := []
  cooldownUntil : Extended := finite 0
  currentBackoffMs : Number := some (finite 0)
  consecutivePenalties : ℕ := 0
  totalPenalties : ℕ := 0
  callers : List Phase := []
  now : ℚ

/-- The times `at` and `again` are readings of the clock. -/
inductive Action
  | acquire (time : ℚ)
  | wake (caller : ℕ) (time : ℚ)
  | takeSlot (caller : ℕ)
  | resume (caller : ℕ) (time again : ℚ)
  | release (caller : ℕ)
  | penalize (time : ℚ)
  | reward (time : ℚ)

/-! ## The methods -/

/-- The constructor: it throws for a cap below 1. -/
def construct (opts : GovernorOptions) (now : ℚ) : Option Governor :=
  if opts.maxConcurrent < 1 then none else some { now }

/-- The backoff applied for the `k`-th penalty of a streak. -/
def backoffMs (P : Power) (opts : GovernorOptions) (consecutive : ℕ) : Number :=
  (times opts.minBackoffMs (P.pow opts.backoffFactor (consecutive - 1))).map fun step =>
    min (finite opts.maxBackoffMs) (roundUp step)

/-- One turn of `#waitForCooldown`: it returns, or sleeps.  A difference of doubles is
    positive exactly if the first is greater. -/
def waitForCooldown (g : Governor) (time : ℚ) : Phase :=
  if g.cooldownUntil ≤ finite time then .cooled else .sleeping

/-- `#takeSlot`. -/
def takeSlot (opts : GovernorOptions) (caller : ℕ) (g : Governor) : Governor :=
  if g.inFlight < opts.maxConcurrent then
    { g with inFlight := g.inFlight + 1, callers := g.callers.set caller .slotTaken }
  else
    { g with waiters := g.waiters ++ [caller], callers := g.callers.set caller .queued }

/-- `#releaseSlot`: transfer the slot to the next waiter, or free it. -/
def releaseSlot (g : Governor) : Governor :=
  match g.waiters with
  | next :: rest => { g with waiters := rest, callers := g.callers.set next .handed }
  | [] => { g with inFlight := g.inFlight - 1 }

/-- `if (until > this.#cooldownUntil) this.#cooldownUntil = until`. -/
def extend (expiry : Number) (cooldownUntil : Extended) : Extended :=
  (expiry.filter (cooldownUntil < ·)).getD cooldownUntil

def penalize (P : Power) (opts : GovernorOptions) (time : ℚ) (g : Governor) : Governor :=
  let backoff := backoffMs P opts (g.consecutivePenalties + 1)
  { g with
    consecutivePenalties := g.consecutivePenalties + 1
    totalPenalties := g.totalPenalties + 1
    currentBackoffMs := backoff
    cooldownUntil := extend (backoff.map (plus time)) g.cooldownUntil
    now := time }

def reward (time : ℚ) (g : Governor) : Governor :=
  if g.cooldownUntil ≤ finite time then
    { g with consecutivePenalties := 0, currentBackoffMs := some (finite 0), now := time }
  else { g with now := time }

/-- The clock never goes back; a caller resumes where it is suspended. -/
def step (P : Power) (opts : GovernorOptions) (g : Governor) : Action → Option Governor
  | .acquire t =>
      if g.now ≤ t then
        some { g with callers := g.callers ++ [waitForCooldown g t], now := t }
      else none
  | .wake i t =>
      if g.now ≤ t ∧ g.callers[i]? = some .sleeping then
        some { g with callers := g.callers.set i (waitForCooldown g t), now := t }
      else none
  | .takeSlot i =>
      if g.callers[i]? = some .cooled then some (takeSlot opts i g) else none
  | .resume i t t' =>
      if g.now ≤ t ∧ t ≤ t'
          ∧ (g.callers[i]? = some .handed ∨ g.callers[i]? = some .slotTaken) then
        if finite t < g.cooldownUntil then
          -- a penalty landed while it was queued: hand the slot back and wait
          some (releaseSlot
            { g with callers := g.callers.set i (waitForCooldown g t'), now := t' })
        else some { g with callers := g.callers.set i .granted, now := t }
      else none
  | .release i =>
      if g.callers[i]? = some .granted then
        some (releaseSlot { g with callers := g.callers.set i .released })
      else if g.callers[i]? = some .released then some g
      else none
  | .penalize t => if g.now ≤ t then some (penalize P opts t g) else none
  | .reward t => if g.now ≤ t then some (reward t g) else none

/-! ## Slots -/

/-- The caller holds a slot granted to it: free when it came to `#takeSlot`, or
    with its release callback returned and not called. -/
def Phase.grantedSlot : Phase → Bool
  | .slotTaken | .granted => true
  | _ => false

def Phase.handedSlot : Phase → Bool
  | .handed => true
  | _ => false

def Phase.holdsSlot (p : Phase) : Bool := p.grantedSlot || p.handedSlot

/-- The slots held by granted callers. -/
def heldByGranted (g : Governor) : ℕ := g.callers.countP Phase.grantedSlot

/-- The slots handed to a waiter that has not resumed yet. -/
def handedOver (g : Governor) : ℕ := g.callers.countP Phase.handedSlot

theorem countP_holdsSlot (l : List Phase) :
    l.countP Phase.holdsSlot = l.countP Phase.grantedSlot + l.countP Phase.handedSlot := by
  induction l with
  | nil => rfl
  | cons p l ih =>
      rw [List.countP_cons, List.countP_cons, List.countP_cons, ih]
      cases p <;> simp [Phase.holdsSlot, Phase.grantedSlot, Phase.handedSlot] <;> omega

/-- Moving a caller from one phase to another moves its slot. -/
theorem countP_set_phase {l : List Phase} {i : ℕ} {p q : Phase} (h : l[i]? = some p) :
    (l.set i q).countP Phase.holdsSlot + (if p.holdsSlot then 1 else 0)
      = l.countP Phase.holdsSlot + (if q.holdsSlot then 1 else 0) := by
  obtain ⟨hi, hp⟩ := List.getElem?_eq_some_iff.mp h
  rw [List.countP_set hi, hp]
  by_cases hold : p.holdsSlot
  · have hpos : 0 < l.countP Phase.holdsSlot :=
      List.countP_pos_iff.mpr ⟨p, hp ▸ List.getElem_mem hi, hold⟩
    simp only [hold, if_true]
    omega
  · simp only [hold, Bool.false_eq_true, if_false]
    omega

theorem getElem?_set_of_some {l : List Phase} {i : ℕ} {p q : Phase} (h : l[i]? = some p) :
    (l.set i q)[i]? = some q := by
  obtain ⟨hi, -⟩ := List.getElem?_eq_some_iff.mp h
  exact List.getElem?_set_self hi

/-- **THE SLOT INVARIANT**: the counter counts the callers that hold a slot, the
    waiters are the queued callers, and nobody waits while a slot is free. -/
structure Accounted (opts : GovernorOptions) (g : Governor) : Prop where
  inFlight : g.inFlight = (g.callers.countP Phase.holdsSlot : ℕ)
  waiters : ∀ i, i ∈ g.waiters ↔ g.callers[i]? = some .queued
  nodup : g.waiters.Nodup
  cap : g.inFlight ≤ opts.maxConcurrent
  full : g.waiters ≠ [] → g.inFlight = opts.maxConcurrent

/-- The slot of caller `i`, now in phase `p`, went to exactly one queued waiter, or
    else to the free pool. -/
def ReturnsSlot (g : Governor) (i : ℕ) (p : Phase) (g' : Governor) : Prop :=
  (∃ next rest, g.waiters = next :: rest ∧ next ∉ rest ∧ next ≠ i
      ∧ g.callers[next]? = some .queued
      ∧ g'.callers = (g.callers.set i p).set next .handed
      ∧ g'.waiters = rest ∧ g'.inFlight = g.inFlight)
    ∨ (g.waiters = [] ∧ g'.callers = g.callers.set i p ∧ g'.waiters = []
      ∧ g'.inFlight = g.inFlight - 1)

section Slots

variable {P : Power} {opts : GovernorOptions} {g g' : Governor}

/-- Returning a slot returns one. -/
theorem Accounted.returnsSlot (h : Accounted opts g) {i : ℕ} {p q : Phase} {t : ℚ}
    (hi : g.callers[i]? = some p) (hp : p ≠ .queued) :
    ReturnsSlot g i q
      (releaseSlot { g with callers := g.callers.set i q, now := t }) := by
  unfold releaseSlot
  cases hw : g.waiters with
  | nil => exact Or.inr ⟨hw, rfl, rfl, rfl⟩
  | cons next rest =>
      have hqueued := (h.waiters next).mp (by rw [hw]; exact List.mem_cons_self)
      have hnext : next ≠ i := by
        rintro rfl
        exact hp (Option.some.inj (hi.symm.trans hqueued))
      have hout := (List.nodup_cons.mp (hw ▸ h.nodup)).1
      exact Or.inl ⟨next, rest, hw, hout, hnext, hqueued, rfl, rfl, rfl⟩

/-- A caller that gives its slot back leaves the accounts exact. -/
theorem Accounted.of_returnsSlot (h : Accounted opts g) {i : ℕ} {p q : Phase}
    (hi : g.callers[i]? = some p) (hp : p.holdsSlot) (hq : q.holdsSlot = false)
    (hqq : q ≠ .queued) (hr : ReturnsSlot g i q g') : Accounted opts g' := by
  have hcount := countP_set_phase (q := q) hi
  rw [if_pos hp, hq, if_neg (by decide), Nat.add_zero] at hcount
  have hpq : p ≠ .queued := by
    rintro rfl
    exact absurd hp (by decide)
  -- giving the slot back, `i` is queued neither before nor after
  have hphase : ∀ j, (g.callers.set i q)[j]? = some .queued ↔ j ∈ g.waiters := by
    intro j
    rw [h.waiters j]
    by_cases hij : i = j
    · subst hij
      rw [getElem?_set_of_some hi, hi]
      exact ⟨fun hc => absurd (Option.some.inj hc) hqq,
        fun hc => absurd (Option.some.inj hc) hpq⟩
    · rw [List.getElem?_set_ne hij]
  rcases hr with ⟨next, rest, hw, hout, hnext, -, hcallers, hwaiters, hflight⟩ |
    ⟨hw, hcallers, hwaiters, hflight⟩
  · have hqueued : (g.callers.set i q)[next]? = some .queued :=
      (hphase next).mpr (by rw [hw]; exact List.mem_cons_self)
    have hhanded := countP_set_phase (q := .handed) hqueued
    rw [if_neg (by decide), if_pos (by decide), Nat.add_zero] at hhanded
    refine ⟨?_, ?_, ?_, ?_, ?_⟩
    · rw [hflight, hcallers, h.inFlight]
      omega
    · intro j
      rw [hwaiters, hcallers]
      by_cases hj : next = j
      · subst hj
        rw [getElem?_set_of_some hqueued]
        exact ⟨fun hc => absurd hc hout, fun hc => nomatch hc⟩
      · rw [List.getElem?_set_ne hj, hphase j, hw, List.mem_cons]
        exact ⟨Or.inr, fun hc => hc.elim (fun hc => absurd hc.symm hj) id⟩
    · rw [hwaiters]
      exact (List.nodup_cons.mp (hw ▸ h.nodup)).2
    · rw [hflight]
      exact h.cap
    · intro _
      rw [hflight]
      exact h.full (by rw [hw]; exact List.cons_ne_nil _ _)
  · refine ⟨?_, ?_, ?_, ?_, ?_⟩
    · rw [hflight, hcallers, h.inFlight]
      omega
    · intro j
      rw [hwaiters, hcallers, hphase j, hw]
    · rw [hwaiters]
      exact List.nodup_nil
    · rw [hflight]
      have := h.cap
      omega
    · intro hne
      exact absurd hwaiters hne

/-- A caller that neither gets nor gives back a slot, nor queues, changes no
    account. -/
theorem Accounted.of_set (h : Accounted opts g) {i : ℕ} {p q : Phase}
    (hi : g.callers[i]? = some p) (hp : p ≠ .queued) (hq : q ≠ .queued)
    (hsame : q.holdsSlot = p.holdsSlot) (hcallers : g'.callers = g.callers.set i q)
    (hwaiters : g'.waiters = g.waiters) (hflight : g'.inFlight = g.inFlight) :
    Accounted opts g' := by
  have hcount := countP_set_phase (q := q) hi
  rw [hsame, Nat.add_right_cancel_iff] at hcount
  refine ⟨?_, ?_, ?_, ?_, ?_⟩
  · rw [hflight, hcallers, hcount]
    exact h.inFlight
  · intro j
    rw [hwaiters, hcallers, h.waiters j]
    by_cases hij : i = j
    · subst hij
      rw [getElem?_set_of_some hi, hi]
      exact ⟨fun hc => absurd (Option.some.inj hc) hp,
        fun hc => absurd (Option.some.inj hc) hq⟩
    · rw [List.getElem?_set_ne hij]
  · rw [hwaiters]
    exact h.nodup
  · rw [hflight]
    exact h.cap
  · rw [hwaiters, hflight]
    exact h.full

theorem waitForCooldown_eq (g : Governor) (t : ℚ) :
    waitForCooldown g t = .cooled ∨ waitForCooldown g t = .sleeping := by
  unfold waitForCooldown
  by_cases h : g.cooldownUntil ≤ finite t
  · exact Or.inl (if_pos h)
  · exact Or.inr (if_neg h)

/-- A caller that waits out a cooldown holds no slot and is not queued. -/
theorem waitForCooldown_idle (g : Governor) (t : ℚ) :
    (waitForCooldown g t).holdsSlot = false ∧ waitForCooldown g t ≠ .queued := by
  rcases waitForCooldown_eq g t with h | h
  · rw [h]
    exact ⟨rfl, nofun⟩
  · rw [h]
    exact ⟨rfl, nofun⟩

theorem Accounted.acquire (h : Accounted opts g) (t : ℚ) :
    Accounted opts { g with callers := g.callers ++ [waitForCooldown g t], now := t } := by
  obtain ⟨hidle, hqueued⟩ := waitForCooldown_idle g t
  refine ⟨?_, ?_, h.nodup, h.cap, h.full⟩
  · show g.inFlight = _
    rw [List.countP_append, List.countP_singleton, hidle, h.inFlight]
    rfl
  · intro i
    show i ∈ g.waiters ↔ (g.callers ++ [waitForCooldown g t])[i]? = some .queued
    rw [h.waiters i]
    by_cases hi : i < g.callers.length
    · rw [List.getElem?_append_left hi]
    · rw [List.getElem?_append_right (by omega), List.getElem?_eq_none (by omega)]
      by_cases hlast : i - g.callers.length = 0
      · rw [hlast]
        exact ⟨nofun, fun hc => absurd (Option.some.inj hc) hqueued⟩
      · rw [List.getElem?_eq_none (by rw [List.length_singleton]; omega)]

theorem Accounted.takeSlot (h : Accounted opts g) {i : ℕ}
    (hi : g.callers[i]? = some .cooled) : Accounted opts (takeSlot opts i g) := by
  unfold RegistrarGovernor.takeSlot
  have hnotin : i ∉ g.waiters := by
    intro hin
    rw [h.waiters i, hi] at hin
    exact nomatch hin
  have hother : ∀ {q : Phase} {j : ℕ}, j ≠ i →
      ((g.callers.set i q)[j]? = some .queued ↔ j ∈ g.waiters) := by
    intro q j hj
    rw [List.getElem?_set_ne (Ne.symm hj), h.waiters j]
  by_cases hfree : g.inFlight < opts.maxConcurrent
  · rw [if_pos hfree]
    have hcount := countP_set_phase (q := .slotTaken) hi
    rw [if_neg (by decide), if_pos (by decide), Nat.add_zero] at hcount
    have hempty : g.waiters = [] := by
      by_contra hne
      rw [h.full hne] at hfree
      exact lt_irrefl _ hfree
    refine ⟨?_, ?_, h.nodup, ?_, ?_⟩
    · show g.inFlight + 1 = ((g.callers.set i .slotTaken).countP Phase.holdsSlot : ℕ)
      rw [hcount, h.inFlight]
      rfl
    · intro j
      show j ∈ g.waiters ↔ (g.callers.set i .slotTaken)[j]? = some .queued
      by_cases hj : j = i
      · subst hj
        rw [getElem?_set_of_some hi]
        exact ⟨fun hc => absurd hc hnotin, nofun⟩
      · exact (hother hj).symm
    · show g.inFlight + 1 ≤ opts.maxConcurrent
      omega
    · intro hne
      exact absurd hempty hne
  · rw [if_neg hfree]
    have hcount := countP_set_phase (q := .queued) hi
    rw [if_neg (by decide), if_neg (by decide), Nat.add_zero, Nat.add_zero] at hcount
    refine ⟨?_, ?_, ?_, h.cap, ?_⟩
    · show g.inFlight = ((g.callers.set i .queued).countP Phase.holdsSlot : ℕ)
      rw [hcount]
      exact h.inFlight
    · intro j
      show j ∈ g.waiters ++ [i] ↔ (g.callers.set i .queued)[j]? = some .queued
      rw [List.mem_append, List.mem_singleton]
      by_cases hj : j = i
      · subst hj
        rw [getElem?_set_of_some hi]
        exact ⟨fun _ => rfl, fun _ => Or.inr rfl⟩
      · rw [hother hj]
        exact ⟨fun hc => hc.elim id (fun hc => absurd hc hj), Or.inl⟩
    · show (g.waiters ++ [i]).Nodup
      exact List.nodup_append.mpr ⟨h.nodup, List.nodup_singleton i, fun a ha b hb hab =>
        hnotin (List.mem_singleton.mp hb ▸ hab ▸ ha)⟩
    · intro _
      show g.inFlight = opts.maxConcurrent
      have := h.cap
      omega

/-- Every step keeps the accounts exact. -/
theorem Accounted.of_step (h : Accounted opts g) {a : Action}
    (hs : step P opts g a = some g') : Accounted opts g' := by
  cases a with
  | acquire t =>
      obtain ⟨-, hs⟩ := Option.ite_none_right_eq_some.mp hs
      cases Option.some.inj hs
      exact h.acquire t
  | wake i t =>
      obtain ⟨⟨-, hi⟩, hs⟩ := Option.ite_none_right_eq_some.mp hs
      cases Option.some.inj hs
      obtain ⟨hidle, hqueued⟩ := waitForCooldown_idle g t
      exact h.of_set hi nofun hqueued hidle rfl rfl rfl
  | takeSlot i =>
      obtain ⟨hi, hs⟩ := Option.ite_none_right_eq_some.mp hs
      cases Option.some.inj hs
      exact h.takeSlot hi
  | resume i t t' =>
      obtain ⟨⟨-, -, hi⟩, hs⟩ := Option.ite_none_right_eq_some.mp hs
      obtain ⟨p, hp, hslot⟩ : ∃ p, g.callers[i]? = some p ∧ p.holdsSlot = true := by
        rcases hi with hi | hi
        · exact ⟨.handed, hi, rfl⟩
        · exact ⟨.slotTaken, hi, rfl⟩
      have hpq : p ≠ .queued := by
        rintro rfl
        exact absurd hslot (by decide)
      by_cases hcool : finite t < g.cooldownUntil
      · rw [if_pos hcool] at hs
        cases Option.some.inj hs
        obtain ⟨hidle, hqueued⟩ := waitForCooldown_idle g t'
        exact h.of_returnsSlot hp hslot hidle hqueued (h.returnsSlot hp hpq)
      · rw [if_neg hcool] at hs
        cases Option.some.inj hs
        exact h.of_set (q := .granted) hp hpq nofun hslot.symm rfl rfl rfl
  | release i =>
      by_cases hi : g.callers[i]? = some .granted
      · have hs : some _ = some g' := (if_pos hi).symm.trans hs
        cases Option.some.inj hs
        exact h.of_returnsSlot (q := .released) hi rfl rfl nofun
          (h.returnsSlot (t := g.now) hi nofun)
      · have hs := (if_neg hi).symm.trans hs
        obtain ⟨-, hs⟩ := Option.ite_none_right_eq_some.mp hs
        cases Option.some.inj hs
        exact h
  | penalize t =>
      obtain ⟨-, hs⟩ := Option.ite_none_right_eq_some.mp hs
      cases Option.some.inj hs
      exact ⟨h.inFlight, h.waiters, h.nodup, h.cap, h.full⟩
  | reward t =>
      obtain ⟨-, hs⟩ := Option.ite_none_right_eq_some.mp hs
      cases Option.some.inj hs
      unfold reward
      by_cases hcool : g.cooldownUntil ≤ finite t
      · rw [if_pos hcool]
        exact ⟨h.inFlight, h.waiters, h.nodup, h.cap, h.full⟩
      · rw [if_neg hcool]
        exact ⟨h.inFlight, h.waiters, h.nodup, h.cap, h.full⟩

end Slots

theorem construct_eq {opts : GovernorOptions} {now : ℚ} {g : Governor}
    (h : construct opts now = some g) : g = { now } :=
  (Option.some.inj (Option.ite_none_left_eq_some.mp h).2).symm

/-- The accounts are exact in every state. -/
theorem Accounted.of_steps {P : Power} {opts : GovernorOptions} {now : ℚ} {g₀ g : Governor}
    (hnew : construct opts now = some g₀) (h : Steps (step P opts) anyStep g₀ g) :
    Accounted opts g := by
  refine h.inv (Accounted opts) ?_ (fun _ _ _ hu _ hs => hu.of_step hs)
  rw [construct_eq hnew]
  exact ⟨rfl, fun i => ⟨nofun, nofun⟩, List.nodup_nil, Int.natCast_nonneg _,
    fun hne => absurd rfl hne⟩

/-- **EXACT SLOT ACCOUNTING**: in every state the counter is the slots held by
    granted callers plus those handed over, within the cap; nobody waits while a
    slot is free; a release returns one slot once, and a caller that gives its
    slot back because of a cooldown returns one. -/
theorem slot_accounting_exact {P : Power} {opts : GovernorOptions} {now : ℚ} {g₀ g : Governor}
    (hnew : construct opts now = some g₀) (h : Steps (step P opts) anyStep g₀ g) :
    g.inFlight = (heldByGranted g + handedOver g : ℕ)
      ∧ 0 ≤ g.inFlight ∧ g.inFlight ≤ opts.maxConcurrent
      ∧ (g.waiters ≠ [] → g.inFlight = opts.maxConcurrent)
      ∧ (∀ i g', step P opts g (.release i) = some g' →
          (g.callers[i]? = some .granted → ReturnsSlot g i .released g')
            ∧ (g.callers[i]? = some .released → g' = g))
      ∧ (∀ i t t' g', finite t < g.cooldownUntil → step P opts g (.resume i t t') = some g' →
          ReturnsSlot g i (waitForCooldown g t') g') := by
  have hacc := Accounted.of_steps hnew h
  refine ⟨?_, ?_, hacc.cap, hacc.full, ?_, ?_⟩
  · rw [hacc.inFlight, countP_holdsSlot]
    rfl
  · rw [hacc.inFlight]
    exact Int.natCast_nonneg _
  · intro i g' hs
    constructor
    · intro hi
      have hs : some _ = some g' := (if_pos hi).symm.trans hs
      cases Option.some.inj hs
      exact hacc.returnsSlot (t := g.now) hi nofun
    · intro hi
      have hnot : g.callers[i]? ≠ some .granted := by
        rw [hi]
        exact nofun
      obtain ⟨-, hs⟩ := Option.ite_none_right_eq_some.mp ((if_neg hnot).symm.trans hs)
      exact (Option.some.inj hs).symm
  · intro i t t' g' hcool hs
    obtain ⟨⟨-, -, hi⟩, hs⟩ := Option.ite_none_right_eq_some.mp hs
    rw [if_pos hcool] at hs
    cases Option.some.inj hs
    rcases hi with hi | hi
    · exact hacc.returnsSlot hi nofun
    · exact hacc.returnsSlot hi nofun

/-- With one slot: the second caller queues, and the first one's release hands the
    slot over. -/
theorem slot_accounting_exact_handover : ∃ g : Governor,
    g.callers = [.released, .handed] ∧ g.inFlight = (heldByGranted g + handedOver g : ℕ) := by
  have hrun : (run (step roundedPower { maxConcurrent := 1 }) { now := 0 }
      [.acquire 0, .takeSlot 0, .resume 0 0 0, .acquire 1, .takeSlot 1, .release 0]).map
        Governor.callers = some [.released, .handed] := by decide +kernel
  obtain ⟨g, hsteps, hcallers⟩ := Steps.exists_of_run _ hrun
  exact ⟨g, hcallers, (slot_accounting_exact rfl hsteps).1⟩

/-! ## The backoff -/

section Backoff

variable {P : Power} {opts : GovernorOptions} {g g' : Governor}

theorem releaseSlot_clock (g : Governor) :
    (releaseSlot g).cooldownUntil = g.cooldownUntil ∧ (releaseSlot g).now = g.now
      ∧ (releaseSlot g).consecutivePenalties = g.consecutivePenalties
      ∧ (releaseSlot g).currentBackoffMs = g.currentBackoffMs := by
  unfold releaseSlot
  cases g.waiters with
  | nil => exact ⟨rfl, rfl, rfl, rfl⟩
  | cons next rest => exact ⟨rfl, rfl, rfl, rfl⟩

theorem takeSlot_clock (i : ℕ) (g : Governor) :
    (takeSlot opts i g).cooldownUntil = g.cooldownUntil
      ∧ (takeSlot opts i g).consecutivePenalties = g.consecutivePenalties
      ∧ (takeSlot opts i g).currentBackoffMs = g.currentBackoffMs := by
  unfold takeSlot
  by_cases h : g.inFlight < opts.maxConcurrent
  · rw [if_pos h]
    exact ⟨rfl, rfl, rfl⟩
  · rw [if_neg h]
    exact ⟨rfl, rfl, rfl⟩

/-- **WHAT A STEP DOES TO THE BACKOFF**: a penalty extends the cooldown and the
    streak, a reward after the cooldown ends the streak, and nothing else touches
    them. -/
theorem step_backoff {a : Action} (hs : step P opts g a = some g') :
    (∃ t, a = .penalize t ∧ g' = penalize P opts t g)
      ∨ (∃ t, a = .reward t ∧ g.cooldownUntil ≤ finite t
          ∧ g' = { g with
              consecutivePenalties := 0, currentBackoffMs := some (finite 0), now := t })
      ∨ ((∀ t, a ≠ .penalize t) ∧ (∀ t, a = .reward t → finite t < g.cooldownUntil)
          ∧ g'.cooldownUntil = g.cooldownUntil
          ∧ g'.consecutivePenalties = g.consecutivePenalties
          ∧ g'.currentBackoffMs = g.currentBackoffMs) := by
  cases a with
  | acquire t =>
      obtain ⟨-, hs⟩ := Option.ite_none_right_eq_some.mp hs
      cases Option.some.inj hs
      exact Or.inr (Or.inr ⟨nofun, nofun, rfl, rfl, rfl⟩)
  | wake i t =>
      obtain ⟨-, hs⟩ := Option.ite_none_right_eq_some.mp hs
      cases Option.some.inj hs
      exact Or.inr (Or.inr ⟨nofun, nofun, rfl, rfl, rfl⟩)
  | takeSlot i =>
      obtain ⟨-, hs⟩ := Option.ite_none_right_eq_some.mp hs
      cases Option.some.inj hs
      exact Or.inr (Or.inr ⟨nofun, nofun, takeSlot_clock i g⟩)
  | resume i t t' =>
      obtain ⟨-, hs⟩ := Option.ite_none_right_eq_some.mp hs
      by_cases hcool : finite t < g.cooldownUntil
      · rw [if_pos hcool] at hs
        cases Option.some.inj hs
        obtain ⟨h₁, -, h₂, h₃⟩ := releaseSlot_clock
          { g with callers := g.callers.set i (waitForCooldown g t'), now := t' }
        exact Or.inr (Or.inr ⟨nofun, nofun, h₁, h₂, h₃⟩)
      · rw [if_neg hcool] at hs
        cases Option.some.inj hs
        exact Or.inr (Or.inr ⟨nofun, nofun, rfl, rfl, rfl⟩)
  | release i =>
      by_cases hi : g.callers[i]? = some .granted
      · have hs : some _ = some g' := (if_pos hi).symm.trans hs
        cases Option.some.inj hs
        obtain ⟨h₁, -, h₂, h₃⟩ := releaseSlot_clock
          { g with callers := g.callers.set i .released }
        exact Or.inr (Or.inr ⟨nofun, nofun, h₁, h₂, h₃⟩)
      · obtain ⟨-, hs⟩ := Option.ite_none_right_eq_some.mp ((if_neg hi).symm.trans hs)
        cases Option.some.inj hs
        exact Or.inr (Or.inr ⟨nofun, nofun, rfl, rfl, rfl⟩)
  | penalize t =>
      obtain ⟨-, hs⟩ := Option.ite_none_right_eq_some.mp hs
      exact Or.inl ⟨t, rfl, (Option.some.inj hs).symm⟩
  | reward t =>
      obtain ⟨-, hs⟩ := Option.ite_none_right_eq_some.mp hs
      cases Option.some.inj hs
      unfold reward
      by_cases hcool : g.cooldownUntil ≤ finite t
      · rw [if_pos hcool]
        exact Or.inr (Or.inl ⟨t, rfl, hcool, rfl⟩)
      · rw [if_neg hcool]
        refine Or.inr (Or.inr ⟨nofun, ?_, rfl, rfl, rfl⟩)
        intro u hu
        cases hu
        exact not_le.mp hcool

theorem extend_eq (expiry : Number) (cooldownUntil : Extended) :
    extend expiry cooldownUntil = max cooldownUntil (expiry.getD cooldownUntil) := by
  unfold extend
  cases expiry with
  | none => exact (max_self cooldownUntil).symm
  | some until_ =>
      by_cases h : cooldownUntil < until_
      · rw [Option.filter_some, if_pos (decide_eq_true h)]
        exact (max_eq_right h.le).symm
      · rw [Option.filter_some, if_neg (fun hc => h (of_decide_eq_true hc))]
        exact (max_eq_left (not_lt.mp h)).symm

theorem penalize_cooldownUntil (t : ℚ) (g : Governor) :
    (penalize P opts t g).cooldownUntil
      = max g.cooldownUntil (((backoffMs P opts (g.consecutivePenalties + 1)).map
          (plus t)).getD g.cooldownUntil) :=
  extend_eq _ _

/-- The cooldown never ends earlier than it did. -/
theorem step_cooldownUntil_le {a : Action} (hs : step P opts g a = some g') :
    g.cooldownUntil ≤ g'.cooldownUntil := by
  rcases step_backoff hs with ⟨t, -, rfl⟩ | ⟨t, -, -, rfl⟩ | ⟨-, -, h, -⟩
  · rw [penalize_cooldownUntil]
    exact le_max_left _ _
  · exact le_refl _
  · exact le_of_eq h.symm

/-- The backoff is that of the streak. -/
def Escalated (P : Power) (opts : GovernorOptions) (g : Governor) : Prop :=
  g.currentBackoffMs
    = if g.consecutivePenalties = 0 then some (finite 0)
      else backoffMs P opts g.consecutivePenalties

theorem Escalated.of_step (h : Escalated P opts g) {a : Action}
    (hs : step P opts g a = some g') : Escalated P opts g' := by
  rcases step_backoff hs with ⟨t, -, rfl⟩ | ⟨t, -, -, rfl⟩ | ⟨-, -, -, hstreak, hms⟩
  · exact (if_neg (Nat.succ_ne_zero _)).symm
  · exact (if_pos rfl).symm
  · unfold Escalated
    rw [hms, hstreak]
    exact h

/-- Handing a slot on grants nothing. -/
theorem releaseSlot_granted {g : Governor} {i : ℕ}
    (h : (releaseSlot g).callers[i]? = some .granted) : g.callers[i]? = some .granted := by
  unfold releaseSlot at h
  cases hw : g.waiters with
  | nil =>
      rw [hw] at h
      exact h
  | cons next rest =>
      rw [hw] at h
      have h : (g.callers.set next .handed)[i]? = some .granted := h
      by_cases hi : next = i
      · subst hi
        rw [List.getElem?_set] at h
        simp at h
      · rwa [List.getElem?_set_ne hi] at h

/-- **A GRANT WAITS FOR THE COOLDOWN**: the step that grants a caller its slot reads
    the clock at or after the cooldown in force. -/
theorem step_granted {a : Action} (hs : step P opts g a = some g') {i : ℕ}
    (hbefore : g.callers[i]? ≠ some .granted) (hafter : g'.callers[i]? = some .granted) :
    g'.cooldownUntil = g.cooldownUntil ∧ g.cooldownUntil ≤ finite g'.now := by
  -- any other phase that a step puts a caller in is not `granted`
  have hset : ∀ {l : List Phase} {j : ℕ} {q : Phase}, q ≠ .granted →
      (l.set j q)[i]? = some .granted → l[i]? = some .granted := by
    intro l j q hq h
    by_cases hj : j = i
    · subst hj
      rw [List.getElem?_set] at h
      by_cases hlt : j < l.length
      · simp only [if_true, hlt, Option.some.injEq] at h
        exact absurd h hq
      · simp [hlt] at h
    · rwa [List.getElem?_set_ne hj] at h
  have hwait : ∀ t, waitForCooldown g t ≠ .granted := by
    intro t
    rcases waitForCooldown_eq g t with h | h <;> rw [h] <;> exact nofun
  cases a with
  | acquire t =>
      obtain ⟨-, hs⟩ := Option.ite_none_right_eq_some.mp hs
      cases Option.some.inj hs
      have hafter : (g.callers ++ [waitForCooldown g t])[i]? = some .granted := hafter
      by_cases hi : i < g.callers.length
      · rw [List.getElem?_append_left hi] at hafter
        exact absurd hafter hbefore
      · rw [List.getElem?_append_right (by omega)] at hafter
        by_cases hlast : i - g.callers.length = 0
        · rw [hlast] at hafter
          exact absurd (Option.some.inj hafter) (hwait t)
        · rw [List.getElem?_eq_none (by rw [List.length_singleton]; omega)] at hafter
          exact nomatch hafter
  | wake j t =>
      obtain ⟨-, hs⟩ := Option.ite_none_right_eq_some.mp hs
      cases Option.some.inj hs
      exact absurd (hset (hwait t) hafter) hbefore
  | takeSlot j =>
      obtain ⟨-, hs⟩ := Option.ite_none_right_eq_some.mp hs
      cases Option.some.inj hs
      unfold takeSlot at hafter
      by_cases hfree : g.inFlight < opts.maxConcurrent
      · rw [if_pos hfree] at hafter
        exact absurd (hset (q := .slotTaken) nofun hafter) hbefore
      · rw [if_neg hfree] at hafter
        exact absurd (hset (q := .queued) nofun hafter) hbefore
  | resume j t t' =>
      obtain ⟨-, hs⟩ := Option.ite_none_right_eq_some.mp hs
      by_cases hcool : finite t < g.cooldownUntil
      · rw [if_pos hcool] at hs
        cases Option.some.inj hs
        exact absurd (hset (hwait t') (releaseSlot_granted hafter)) hbefore
      · rw [if_neg hcool] at hs
        cases Option.some.inj hs
        exact ⟨rfl, not_lt.mp hcool⟩
  | release j =>
      by_cases hj : g.callers[j]? = some .granted
      · have hs : some _ = some g' := (if_pos hj).symm.trans hs
        cases Option.some.inj hs
        exact absurd (hset (q := .released) nofun (releaseSlot_granted hafter)) hbefore
      · obtain ⟨-, hs⟩ := Option.ite_none_right_eq_some.mp ((if_neg hj).symm.trans hs)
        cases Option.some.inj hs
        exact absurd hafter hbefore
  | penalize t =>
      obtain ⟨-, hs⟩ := Option.ite_none_right_eq_some.mp hs
      cases Option.some.inj hs
      exact absurd hafter hbefore
  | reward t =>
      obtain ⟨-, hs⟩ := Option.ite_none_right_eq_some.mp hs
      cases Option.some.inj hs
      unfold reward at hafter
      by_cases hcool : g.cooldownUntil ≤ finite t
      · rw [if_pos hcool] at hafter
        exact absurd hafter hbefore
      · rw [if_neg hcool] at hafter
        exact absurd hafter hbefore

/-- The streak goes on: no reward ends it. -/
def StreakGoesOn (g : Governor) (a : Action) : Prop :=
  match a with
  | .reward t => finite t < g.cooldownUntil
  | _ => True

instance (g : Governor) (a : Action) : Decidable (StreakGoesOn g a) := by
  cases a <;> unfold StreakGoesOn <;> infer_instance

def isPenalize : Action → Bool
  | .penalize _ => true
  | _ => false

/-- While a streak goes on, it counts the penalties. -/
theorem streak_counts {as : List Action}
    (h : runChecked (step P opts) StreakGoesOn g as = some g') :
    g'.consecutivePenalties = g.consecutivePenalties + as.countP isPenalize := by
  induction as generalizing g with
  | nil =>
      cases h
      rfl
  | cons a as ih =>
      rw [runChecked] at h
      obtain ⟨hok, h⟩ := Option.ite_none_right_eq_some.mp h
      cases hs : step P opts g a with
      | none => rw [hs] at h; cases h
      | some u =>
          rw [hs] at h
          rw [ih h, List.countP_cons]
          rcases step_backoff hs with ⟨t, rfl, rfl⟩ | ⟨t, rfl, hcool, -⟩ |
            ⟨hpen, -, -, hstreak, -⟩
          · show g.consecutivePenalties + 1 + _ = _
            simp only [isPenalize, if_true]
            omega
          · exact absurd hok (not_lt.mpr hcool)
          · have hnot : isPenalize a = false := by
              cases a with
              | penalize t => exact absurd rfl (hpen t)
              | _ => rfl
            rw [hstreak, hnot]
            simp

/-- With a factor of at least 1, and no first step below zero, the backoff does not
    decrease within a streak, unless zero comes to be multiplied by an infinity. -/
theorem backoffMs_mono (hfactor : 1 ≤ opts.backoffFactor) (hmin : 0 ≤ opts.minBackoffMs)
    {j k : ℕ} (hzero : opts.minBackoffMs = 0 → P.pow opts.backoffFactor (k - 1) ≠ ⊤)
    (h : j ≤ k) : AtMost (backoffMs P opts j) (backoffMs P opts k) := by
  have hpow := P.mono opts.backoffFactor hfactor
  have hone : finite 0 ≤ P.pow opts.backoffFactor (j - 1) := by
    calc finite 0 ≤ finite 1 := finite_le.mpr zero_le_one
      _ = P.pow opts.backoffFactor 0 := (P.zero _).symm
      _ ≤ P.pow opts.backoffFactor (j - 1) := hpow (Nat.zero_le _)
  refine (times_mono hone (hpow (by omega)) hmin hzero).map (fun x y hxy => ?_)
  exact min_le_min_left _ (roundUp_mono hxy)

end Backoff

theorem Escalated.of_steps {P : Power} {opts : GovernorOptions} {now : ℚ} {g₀ g : Governor}
    (hnew : construct opts now = some g₀) (h : Steps (step P opts) anyStep g₀ g) :
    Escalated P opts g := by
  refine h.inv (Escalated P opts) ?_ (fun _ _ _ hu _ hs => hu.of_step hs)
  rw [construct_eq hnew]
  exact (if_pos rfl).symm

/-- **THE BACKOFF IS NEVER UNDERCUT**: no caller is granted before the cooldown in
    force has elapsed; the cooldown never moves back; the `k`-th penalty of a
    streak applies the `k`-th backoff, which does not decrease when the factor is
    at least 1 and the first step is not negative (nor zero, once the power is infinite);
    and a reward during a cooldown changes nothing. -/
theorem backoff_never_undercut {P : Power} {opts : GovernorOptions} {now : ℚ}
    {g₀ g : Governor} (hnew : construct opts now = some g₀)
    (h : Steps (step P opts) anyStep g₀ g) :
    (∀ (a : Action) (g' : Governor) (i : ℕ), step P opts g a = some g' →
        g.callers[i]? ≠ some Phase.granted → g'.callers[i]? = some Phase.granted →
        g'.cooldownUntil ≤ finite g'.now)
      ∧ (∀ g', Steps (step P opts) anyStep g g' → g.cooldownUntil ≤ g'.cooldownUntil)
      ∧ (∀ as k g', g.consecutivePenalties = 0 →
          runChecked (step P opts) StreakGoesOn g as = some g' →
          as.countP isPenalize = k → 0 < k →
          g'.currentBackoffMs = (times opts.minBackoffMs (P.pow opts.backoffFactor (k - 1))).map
            fun backoff => min (finite opts.maxBackoffMs) (roundUp backoff))
      ∧ (∀ t g', step P opts g (.penalize t) = some g' →
          g'.cooldownUntil = max g.cooldownUntil
            ((g'.currentBackoffMs.map (plus t)).getD g.cooldownUntil))
      ∧ (1 ≤ opts.backoffFactor → 0 ≤ opts.minBackoffMs → ∀ t g',
          step P opts g (.penalize t) = some g' → g.consecutivePenalties ≠ 0 →
          (opts.minBackoffMs = 0 → P.pow opts.backoffFactor g.consecutivePenalties ≠ ⊤) →
          AtMost g.currentBackoffMs g'.currentBackoffMs)
      ∧ (∀ t g', step P opts g (.reward t) = some g' →
          (finite t < g.cooldownUntil → g' = { g with now := t })
            ∧ (g.cooldownUntil ≤ finite t → g'.consecutivePenalties = 0)) := by
  have hesc := Escalated.of_steps hnew h
  refine ⟨?_, ?_, ?_, ?_, ?_, ?_⟩
  · intro a g' i hs hbefore hafter
    obtain ⟨hsame, hle⟩ := step_granted hs hbefore hafter
    rw [hsame]
    exact hle
  · intro g' hsteps
    exact hsteps.inv (fun u => g.cooldownUntil ≤ u.cooldownUntil) (le_refl _)
      (fun _ _ _ hu _ hs => le_trans hu (step_cooldownUntil_le hs))
  · intro as k g' hstart hrun hcount hk
    have hsteps : Steps (step P opts) anyStep g₀ g' :=
      (Steps.of_runChecked hrun).weaken (fun _ _ _ => trivial) |>.inv
        (fun u => Steps (step P opts) anyStep g₀ u) h
        (fun _ a _ hu _ hs => Steps.tail a hu trivial hs)
    have hk' : g'.consecutivePenalties = k := by
      rw [streak_counts hrun, hstart, hcount, Nat.zero_add]
    have hend := Escalated.of_steps hnew hsteps
    unfold Escalated at hend
    rw [hk', if_neg (by omega)] at hend
    exact hend
  · intro t g' hs
    obtain ⟨-, hs⟩ := Option.ite_none_right_eq_some.mp hs
    cases Option.some.inj hs
    exact penalize_cooldownUntil t g
  · intro hfactor hmin t g' hs hgoing hzero
    obtain ⟨-, hs⟩ := Option.ite_none_right_eq_some.mp hs
    cases Option.some.inj hs
    unfold Escalated at hesc
    rw [if_neg hgoing] at hesc
    rw [hesc]
    exact backoffMs_mono hfactor hmin hzero (Nat.le_succ _)
  · intro t g' hs
    obtain ⟨-, hs⟩ := Option.ite_none_right_eq_some.mp hs
    cases Option.some.inj hs
    unfold reward
    constructor
    · intro hcool
      exact if_neg (not_le.mpr hcool)
    · intro hcool
      rw [if_pos hcool]

/-- Steps of 50, with the double nearest to 1.15 for a factor. -/
def fifties : GovernorOptions :=
  { minBackoffMs := 50, backoffFactor := 5179139571476070 / 4503599627370496 }

/-- The second penalty of a streak of fifties times 1.15 applies 57: the product of the
    doubles is below 57.5. -/
theorem backoff_never_undercut_two_penalties : ∃ g g' : Governor,
    step roundedPower fifties g (.penalize 6) = some g'
      ∧ g'.currentBackoffMs = some (finite 57)
      ∧ g'.cooldownUntil = max g.cooldownUntil
          ((g'.currentBackoffMs.map (plus 6)).getD g.cooldownUntil) := by
  have hrun : (run (step roundedPower fifties) { now := 0 } [.acquire 0, .penalize 5]).map
      (fun g => (step roundedPower fifties g (.penalize 6)).map Governor.currentBackoffMs)
        = some (some (some (finite 57))) := by decide +kernel
  obtain ⟨g, hsteps, hnext⟩ := Steps.exists_of_run _ hrun
  obtain ⟨g', hs, hbackoff⟩ := Option.map_eq_some_iff.mp hnext
  exact ⟨g, g', hs, hbackoff, (backoff_never_undercut rfl hsteps).2.2.2.1 6 g' hs⟩

def belowZero : GovernorOptions := { minBackoffMs := -1000 }

/-- A negative first step is accepted, and then each backoff is below the one before. -/
theorem negative_backoff_decreases : ∃ g g' : Governor,
    Steps (step roundedPower belowZero) anyStep { now := 0 } g
      ∧ construct belowZero 0 = some { now := 0 } ∧ 1 ≤ belowZero.backoffFactor
      ∧ step roundedPower belowZero g (.penalize 6) = some g' ∧ g.consecutivePenalties ≠ 0
      ∧ g'.currentBackoffMs = some (finite (-2000))
      ∧ ¬ AtMost g.currentBackoffMs g'.currentBackoffMs := by
  have hrun : (run (step roundedPower belowZero) { now := 0 } [.penalize 5]).map
      (fun g => decide (g.consecutivePenalties ≠ 0) && decide (∃ g' ∈
        step roundedPower belowZero g (.penalize 6),
          g'.currentBackoffMs = some (finite (-2000))
            ∧ ¬ AtMost g.currentBackoffMs g'.currentBackoffMs)) = some true := by
    decide +kernel
  obtain ⟨g, hsteps, hend⟩ := Steps.exists_of_run _ hrun
  obtain ⟨hgoing, hnext⟩ := Bool.and_eq_true_iff.mp hend
  obtain ⟨g', hs, hbackoff, hless⟩ := of_decide_eq_true hnext
  exact ⟨g, g', hsteps, rfl, by decide, hs, of_decide_eq_true hgoing, hbackoff, hless⟩

end RegistrarGovernor
