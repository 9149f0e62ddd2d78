import Mathlib

/-! # Bisection with probes that may not know

    A binary search of `lo..hi` for the last position a downward closed
    predicate holds at.  A probe reads and writes a state, and may fail, or
    answer that it does not know; the search then turns to the lower half.

    The answer is the right one exactly when the probe knows every position
    on the search's way at which the predicate holds: not knowing a position
    at which it does not hold costs nothing. -/

namespace Bisection

variable {σ : Type*}

/-! ## The search -/

/-- The state after a probe, and its verdict: whether the predicate holds,
    `some none` for not knowing, `none` for a failure. -/
abbrev Probe (σ : Type*) := σ → ℤ → σ × Option (Option Bool)

/-- What a search ends with.  `answer` is `none` where a probe failed;
    `probed` has the probed positions, first to last. -/
structure Found (σ : Type*) where
  state : σ
  probed : List ℤ
  answer : Option (Option ℤ)

/-- The same, one probe earlier. -/
def Found.after (mid : ℤ) (f : Found σ) : Found σ :=
  { f with probed := mid :: f.probed }

/-- Search `lo..hi`, with `answer` found so far. -/
def bisect (probe : Probe σ) (s : σ) (lo hi : ℤ) (answer : Option ℤ) : Found σ :=
  if lo ≤ hi then
    let mid := lo + (hi - lo) / 2
    match probe s mid with
    | (s', none) => ⟨s', [mid], none⟩
    | (s', some none) => (bisect probe s' lo (mid - 1) answer).after mid
    | (s', some (some true)) => (bisect probe s' (mid + 1) hi (some mid)).after mid
    | (s', some (some false)) => (bisect probe s' lo (mid - 1) answer).after mid
  else ⟨s, [], some answer⟩
termination_by (hi + 1 - lo).toNat

/-- The way of a search that knows every position. -/
def way (p : ℤ → Prop) [DecidablePred p] (lo hi : ℤ) : List ℤ :=
  if lo ≤ hi then
    let mid := lo + (hi - lo) / 2
    if p mid then mid :: way p (mid + 1) hi else mid :: way p lo (mid - 1)
  else []
termination_by (hi + 1 - lo).toNat

/-! ## How many probes it takes -/

/-- Half of the positions, at most, have a binary digit less. -/
theorem size_half {half n : ℕ} (hpos : 0 < n) (hhalf : 2 * half ≤ n) :
    Nat.size half + 1 ≤ Nat.size n := by
  rw [Nat.succ_le_iff, Nat.lt_size]
  cases hsize : Nat.size half with
  | zero => exact hpos
  | succ k =>
      have hk : 2 ^ k ≤ half := by
        rw [← Nat.lt_size, hsize]
        exact Nat.lt_succ_self k
      rw [Nat.pow_succ]
      omega

/-- A search makes at most as many probes as the number of positions has
    binary digits. -/
theorem probed_length_le (probe : Probe σ) (s : σ) (lo hi : ℤ) (answer : Option ℤ) :
    (bisect probe s lo hi answer).probed.length ≤ Nat.size (hi + 1 - lo).toNat := by
  fun_induction bisect probe s lo hi answer with
  | case1 s lo hi answer h mid s' hprobe =>
      show 1 ≤ _
      rw [Nat.succ_le_iff, Nat.size_pos]
      omega
  | case2 s lo hi answer h mid s' hprobe ih =>
      exact (Nat.succ_le_succ ih).trans (size_half (by omega) (by omega))
  | case3 s lo hi answer h mid s' hprobe ih =>
      exact (Nat.succ_le_succ ih).trans (size_half (by omega) (by omega))
  | case4 s lo hi answer h mid s' hprobe ih =>
      exact (Nat.succ_le_succ ih).trans (size_half (by omega) (by omega))
  | case5 s lo hi answer h => exact Nat.zero_le _

/-! ## Invariants of the probes -/

/-- What every probe of `lo..hi` keeps, the search keeps. -/
theorem bisect_invariant {probe : Probe σ} {Inv : σ → Prop} {lo hi : ℤ}
    (hkeeps : ∀ s m, Inv s → m ∈ Set.Icc lo hi → Inv (probe s m).1)
    {s : σ} (hs : Inv s) (answer : Option ℤ) :
    Inv (bisect probe s lo hi answer).state := by
  fun_induction bisect probe s lo hi answer with
  | case1 s lo hi answer h mid s' hprobe =>
      have hmid := hkeeps s mid hs ⟨by omega, by omega⟩
      rw [hprobe] at hmid
      exact hmid
  | case2 s lo hi answer h mid s' hprobe ih =>
      have hmid := hkeeps s mid hs ⟨by omega, by omega⟩
      rw [hprobe] at hmid
      exact ih (fun s m hs hm => hkeeps s m hs ⟨hm.1, hm.2.trans (by omega)⟩) hmid
  | case3 s lo hi answer h mid s' hprobe ih =>
      have hmid := hkeeps s mid hs ⟨by omega, by omega⟩
      rw [hprobe] at hmid
      exact ih (fun s m hs hm => hkeeps s m hs ⟨le_trans (by omega) hm.1, hm.2⟩) hmid
  | case4 s lo hi answer h mid s' hprobe ih =>
      have hmid := hkeeps s mid hs ⟨by omega, by omega⟩
      rw [hprobe] at hmid
      exact ih (fun s m hs hm => hkeeps s m hs ⟨hm.1, hm.2.trans (by omega)⟩) hmid
  | case5 s lo hi answer h => exact hs

/-! ## Verdicts that no state changes -/

/-- The search by its verdicts alone. -/
def search (verdict : ℤ → Option Bool) (lo hi : ℤ) (answer : Option ℤ) : Option ℤ :=
  if lo ≤ hi then
    let mid := lo + (hi - lo) / 2
    if verdict mid = some true then search verdict (mid + 1) hi (some mid)
    else search verdict lo (mid - 1) answer
  else answer
termination_by (hi + 1 - lo).toNat

/-- Probes of `lo..hi` keep `Inv`, and under it none fails and each position has one
    verdict. -/
structure Verdicts (probe : Probe σ) (Inv : σ → Prop) (verdict : ℤ → Option Bool)
    (lo hi : ℤ) : Prop where
  keeps : ∀ s m, Inv s → m ∈ Set.Icc lo hi → Inv (probe s m).1
  verdict : ∀ s m, Inv s → m ∈ Set.Icc lo hi → (probe s m).2 = some (verdict m)

theorem Verdicts.mono {probe : Probe σ} {Inv : σ → Prop} {verdict : ℤ → Option Bool}
    {lo hi lo' hi' : ℤ} (h : Verdicts probe Inv verdict lo hi) (hlo : lo ≤ lo')
    (hhi : hi' ≤ hi) : Verdicts probe Inv verdict lo' hi' where
  keeps s m hs hm := h.keeps s m hs ⟨hlo.trans hm.1, hm.2.trans hhi⟩
  verdict s m hs hm := h.verdict s m hs ⟨hlo.trans hm.1, hm.2.trans hhi⟩

theorem Verdicts.probed {probe : Probe σ} {Inv : σ → Prop} {verdict : ℤ → Option Bool}
    {lo hi mid : ℤ} (h : Verdicts probe Inv verdict lo hi) {s t : σ} {v : Option (Option Bool)}
    (hs : Inv s) (hmid : mid ∈ Set.Icc lo hi) (hprobe : probe s mid = (t, v)) :
    Inv t ∧ v = some (verdict mid) := by
  have hkeeps := h.keeps s mid hs hmid
  have hverdict := h.verdict s mid hs hmid
  rw [hprobe] at hkeeps hverdict
  exact ⟨hkeeps, hverdict⟩

/-- From whatever state it starts, the search gives the same answer. -/
theorem bisect_search {probe : Probe σ} {Inv : σ → Prop} {verdict : ℤ → Option Bool}
    {lo hi : ℤ} (h : Verdicts probe Inv verdict lo hi) {s : σ} (hs : Inv s)
    (answer : Option ℤ) :
    (bisect probe s lo hi answer).answer = some (search verdict lo hi answer) := by
  fun_induction bisect probe s lo hi answer with
  | case1 s lo hi answer hle mid t hprobe =>
      obtain ⟨-, hv⟩ := h.probed hs ⟨by omega, by omega⟩ hprobe
      cases hv
  | case2 s lo hi answer hle mid t hprobe ih =>
      obtain ⟨ht, hv⟩ := h.probed hs ⟨by omega, by omega⟩ hprobe
      have hturn : ¬ verdict mid = some true := by
        rw [← Option.some.inj hv]
        decide
      rw [search, if_pos hle, if_neg hturn]
      exact ih (h.mono le_rfl (by omega)) ht
  | case3 s lo hi answer hle mid t hprobe ih =>
      obtain ⟨ht, hv⟩ := h.probed hs ⟨by omega, by omega⟩ hprobe
      rw [search, if_pos hle, if_pos (Option.some.inj hv).symm]
      exact ih (h.mono (by omega) le_rfl) ht
  | case4 s lo hi answer hle mid t hprobe ih =>
      obtain ⟨ht, hv⟩ := h.probed hs ⟨by omega, by omega⟩ hprobe
      have hturn : ¬ verdict mid = some true := by
        rw [← Option.some.inj hv]
        decide
      rw [search, if_pos hle, if_neg hturn]
      exact ih (h.mono le_rfl (by omega)) ht
  | case5 s lo hi answer hle => rw [search, if_neg hle]

/-! ## When the answer is right -/

/-- `r` is the last position of `lo..hi` the predicate holds at, or `answer`
    where there is none. -/
def IsLast (p : ℤ → Prop) (lo hi : ℤ) (answer r : Option ℤ) : Prop :=
  (r = answer ∧ ∀ m ∈ Set.Icc lo hi, ¬ p m)
    ∨ ∃ m, r = some m ∧ IsGreatest {m | m ∈ Set.Icc lo hi ∧ p m} m

variable {p : ℤ → Prop} {lo hi mid : ℤ} {answer r : Option ℤ}

/-- Where the predicate holds, the lower half is settled. -/
theorem isLast_upper (hmid : mid ∈ Set.Icc lo hi) (hp : p mid) :
    IsLast p (mid + 1) hi (some mid) r ↔ IsLast p lo hi answer r := by
  constructor
  · rintro (⟨rfl, hnone⟩ | ⟨m, rfl, ⟨⟨hlo, hhi⟩, hm⟩, hgreatest⟩)
    · refine Or.inr ⟨mid, rfl, ⟨hmid, hp⟩, ?_⟩
      rintro m ⟨hm, hpm⟩
      by_contra hlt
      exact hnone m ⟨by omega, hm.2⟩ hpm
    · refine Or.inr ⟨m, rfl, ⟨⟨by have := hmid.1; omega, hhi⟩, hm⟩, ?_⟩
      rintro m' ⟨hm', hpm'⟩
      by_cases hle : m' ≤ mid
      · omega
      · exact hgreatest ⟨⟨by omega, hm'.2⟩, hpm'⟩
  · rintro (⟨-, hnone⟩ | ⟨m, rfl, ⟨⟨hlo, hhi⟩, hm⟩, hgreatest⟩)
    · exact absurd hp (hnone mid hmid)
    · have hle : mid ≤ m := hgreatest ⟨hmid, hp⟩
      by_cases heq : m = mid
      · subst heq
        refine Or.inl ⟨rfl, fun m' hm' hpm' => ?_⟩
        have := hgreatest ⟨⟨hmid.1.trans (by have := hm'.1; omega), hm'.2⟩, hpm'⟩
        have := hm'.1
        omega
      · refine Or.inr ⟨m, rfl, ⟨⟨by omega, hhi⟩, hm⟩, ?_⟩
        rintro m' ⟨hm', hpm'⟩
        exact hgreatest ⟨⟨hmid.1.trans (by have := hm'.1; omega), hm'.2⟩, hpm'⟩

/-- Where it does not, the upper half is. -/
theorem isLast_lower (hdown : ∀ m ∈ Set.Icc lo hi, ∀ m' ∈ Set.Icc lo hi,
      m ≤ m' → p m' → p m)
    (hmid : mid ∈ Set.Icc lo hi) (hp : ¬ p mid) :
    IsLast p lo (mid - 1) answer r ↔ IsLast p lo hi answer r := by
  have hbelow : ∀ m ∈ Set.Icc lo hi, p m → m ≤ mid - 1 := by
    intro m hm hpm
    by_contra hlt
    exact hp (hdown mid hmid m hm (by omega) hpm)
  have hset : {m | m ∈ Set.Icc lo (mid - 1) ∧ p m} = {m | m ∈ Set.Icc lo hi ∧ p m} := by
    ext m
    constructor
    · rintro ⟨hm, hpm⟩
      exact ⟨⟨hm.1, by have := hm.2; have := hmid.2; omega⟩, hpm⟩
    · rintro ⟨hm, hpm⟩
      exact ⟨⟨hm.1, hbelow m hm hpm⟩, hpm⟩
  have hnone : (∀ m ∈ Set.Icc lo (mid - 1), ¬ p m) ↔ ∀ m ∈ Set.Icc lo hi, ¬ p m := by
    constructor
    · intro h m hm hpm
      exact h m ⟨hm.1, hbelow m hm hpm⟩ hpm
    · intro h m hm
      exact h m ⟨hm.1, by have := hm.2; have := hmid.2; omega⟩
  unfold IsLast
  rw [hset, hnone]

/-- Turning down at a position the predicate holds at loses it. -/
theorem not_isLast_of_lower (hmid : mid ∈ Set.Icc lo hi) (hp : p mid)
    (hr : ∀ m ∈ r, m < mid) : ¬ IsLast p lo hi answer r := by
  rintro (⟨-, hnone⟩ | ⟨m, rfl, -, hgreatest⟩)
  · exact hnone mid hmid hp
  · have hle : mid ≤ m := hgreatest ⟨hmid, hp⟩
    have hlt : m < mid := hr m rfl
    omega

/-- The way goes on in the half the predicate points to. -/
theorem way_cons [DecidablePred p] (h : lo ≤ hi) :
    way p lo hi = (lo + (hi - lo) / 2) :: if p (lo + (hi - lo) / 2)
      then way p (lo + (hi - lo) / 2 + 1) hi else way p lo (lo + (hi - lo) / 2 - 1) := by
  rw [way, if_pos h]
  show (if _ then _ else _) = _
  by_cases hp : p (lo + (hi - lo) / 2)
  · rw [if_pos hp, if_pos hp]
  · rw [if_neg hp, if_neg hp]

/-- The way stays among the positions searched. -/
theorem mem_of_mem_way [DecidablePred p] {m : ℤ} (hm : m ∈ way p lo hi) :
    m ∈ Set.Icc lo hi := by
  fun_induction way p lo hi with
  | case1 lo hi hle mid hp ih =>
      rcases List.mem_cons.mp hm with rfl | hm
      · exact ⟨by omega, by omega⟩
      · have := ih hm
        exact ⟨le_trans (by omega) this.1, this.2⟩
  | case2 lo hi hle mid hp ih =>
      rcases List.mem_cons.mp hm with rfl | hm
      · exact ⟨by omega, by omega⟩
      · have := ih hm
        exact ⟨this.1, this.2.trans (by omega)⟩
  | case3 lo hi hle => exact absurd hm List.not_mem_nil

/-- Probes of `lo..hi` keep `Inv`, and know a downward closed predicate at the
    positions `known`. -/
structure Answers (probe : Probe σ) (Inv : σ → Prop) (known p : ℤ → Prop)
    [DecidablePred known] [DecidablePred p] (lo hi : ℤ) : Prop where
  keeps : ∀ s m, Inv s → m ∈ Set.Icc lo hi → Inv (probe s m).1
  verdict : ∀ s m, Inv s → m ∈ Set.Icc lo hi →
    (probe s m).2 = some (if known m then some (decide (p m)) else none)
  down : ∀ m ∈ Set.Icc lo hi, ∀ m' ∈ Set.Icc lo hi, m ≤ m' → p m' → p m

section Answered

variable {known : ℤ → Prop} [DecidablePred known] [DecidablePred p] {probe : Probe σ}
  {Inv : σ → Prop} {s s' : σ}

theorem Answers.mono (h : Answers probe Inv known p lo hi) {lo' hi' : ℤ}
    (hlo : lo ≤ lo') (hhi : hi' ≤ hi) : Answers probe Inv known p lo' hi' where
  keeps s m hs hm := h.keeps s m hs ⟨hlo.trans hm.1, hm.2.trans hhi⟩
  verdict s m hs hm := h.verdict s m hs ⟨hlo.trans hm.1, hm.2.trans hhi⟩
  down m hm m' hm' := h.down m ⟨hlo.trans hm.1, hm.2.trans hhi⟩ m'
    ⟨hlo.trans hm'.1, hm'.2.trans hhi⟩

/-- A verdict is the truth of the predicate, at a known position. -/
theorem Answers.verdict_some (h : Answers probe Inv known p lo hi) (hs : Inv s)
    (hmid : mid ∈ Set.Icc lo hi) {b : Bool} (heq : probe s mid = (s', some (some b))) :
    Inv s' ∧ known mid ∧ (b = true ↔ p mid) := by
  have hkeeps := h.keeps s mid hs hmid
  have hverdict := h.verdict s mid hs hmid
  rw [heq] at hkeeps hverdict
  by_cases hknown : known mid
  · rw [if_pos hknown] at hverdict
    cases hverdict
    exact ⟨hkeeps, hknown, decide_eq_true_iff⟩
  · rw [if_neg hknown] at hverdict
    cases hverdict

/-- Without a verdict the position is not known. -/
theorem Answers.verdict_none (h : Answers probe Inv known p lo hi) (hs : Inv s)
    (hmid : mid ∈ Set.Icc lo hi) (heq : probe s mid = (s', some none)) :
    Inv s' ∧ ¬ known mid := by
  have hkeeps := h.keeps s mid hs hmid
  have hverdict := h.verdict s mid hs hmid
  rw [heq] at hkeeps hverdict
  refine ⟨hkeeps, fun hknown => ?_⟩
  rw [if_pos hknown] at hverdict
  cases hverdict

/-- **THE ANSWER**: a search finds the last position the predicate holds at
    exactly when it knows every such position on the way. -/
theorem bisect_isLast (hs : Inv s) (h : Answers probe Inv known p lo hi)
    (hanswer : ∀ a ∈ answer, a < lo) :
    ∃ r, (bisect probe s lo hi answer).answer = some r
      ∧ (r = answer ∨ ∃ m ∈ Set.Icc lo hi, r = some m)
      ∧ (IsLast p lo hi answer r ↔ ∀ m ∈ way p lo hi, p m → known m) := by
  fun_induction bisect probe s lo hi answer with
  | case1 s lo hi answer hle mid s' heq =>
      have hverdict := h.verdict s mid hs ⟨by omega, by omega⟩
      rw [heq] at hverdict
      cases hverdict
  | case2 s lo hi answer hle mid s' heq ih =>
      have hmem : mid ∈ Set.Icc lo hi := ⟨by omega, by omega⟩
      obtain ⟨hs', hunknown⟩ := h.verdict_none hs hmem heq
      obtain ⟨r, hr, hbound, hiff⟩ := ih hs' (h.mono le_rfl (by omega)) hanswer
      refine ⟨r, hr, hbound.imp_right ?_, ?_⟩
      · rintro ⟨m, hm, hr⟩
        exact ⟨m, ⟨hm.1, hm.2.trans (by omega)⟩, hr⟩
      rw [way_cons hle]
      by_cases hp : p mid
      · -- the search turns away from the half with the answer
        constructor
        · intro hlast
          refine absurd hlast (not_isLast_of_lower hmem hp fun m hm => ?_)
          rcases hbound with rfl | ⟨m', hm', rfl⟩
          · exact (hanswer m hm).trans_le hmem.1
          · cases hm
            have := hm'.2
            omega
        · intro hknown
          exact absurd (hknown mid (List.mem_cons_self ..) hp) hunknown
      · rw [← isLast_lower h.down hmem hp, hiff, if_neg hp, List.forall_mem_cons]
        exact ⟨fun hrest => ⟨fun hp' => absurd hp' hp, hrest⟩, fun hall => hall.2⟩
  | case3 s lo hi answer hle mid s' heq ih =>
      have hmem : mid ∈ Set.Icc lo hi := ⟨by omega, by omega⟩
      obtain ⟨hs', hknown, hp⟩ := h.verdict_some hs hmem heq
      have hp := hp.mp rfl
      obtain ⟨r, hr, hbound, hiff⟩ := ih hs' (h.mono (by omega) le_rfl)
        (fun a ha => by cases ha; omega)
      refine ⟨r, hr, Or.inr ?_, ?_⟩
      · rcases hbound with rfl | ⟨m, hm, hr⟩
        · exact ⟨mid, hmem, rfl⟩
        · exact ⟨m, ⟨le_trans (by omega) hm.1, hm.2⟩, hr⟩
      rw [way_cons hle, ← isLast_upper hmem hp, hiff, if_pos hp, List.forall_mem_cons]
      exact ⟨fun hrest => ⟨fun _ => hknown, hrest⟩, fun hall => hall.2⟩
  | case4 s lo hi answer hle mid s' heq ih =>
      have hmem : mid ∈ Set.Icc lo hi := ⟨by omega, by omega⟩
      obtain ⟨hs', hknown, hp⟩ := h.verdict_some hs hmem heq
      have hp : ¬ p mid := fun hp' => by cases hp.mpr hp'
      obtain ⟨r, hr, hbound, hiff⟩ := ih hs' (h.mono le_rfl (by omega)) hanswer
      refine ⟨r, hr, hbound.imp_right ?_, ?_⟩
      · rintro ⟨m, hm, hr⟩
        exact ⟨m, ⟨hm.1, hm.2.trans (by omega)⟩, hr⟩
      rw [way_cons hle, ← isLast_lower h.down hmem hp, hiff, if_neg hp, List.forall_mem_cons]
      exact ⟨fun hrest => ⟨fun hp' => absurd hp' hp, hrest⟩, fun hall => hall.2⟩
  | case5 s lo hi answer hle =>
      refine ⟨answer, rfl, Or.inl rfl, ?_⟩
      have hempty : ∀ m ∈ Set.Icc lo hi, ¬ p m := fun m hm => absurd (hm.1.trans hm.2) hle
      rw [way, if_neg hle]
      exact ⟨fun _ m hm => absurd hm List.not_mem_nil, fun _ => Or.inl ⟨rfl, hempty⟩⟩

end Answered

end Bisection
