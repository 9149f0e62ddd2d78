import Mathlib

/-! # Worklists

    A search from a root: elements wait in a frontier, each is read in its turn, and
    the elements it leads to are put at its end unless they were seen or queued
    before.  Reading an element also acts on a value the search accumulates.

    Read elements and frontier together are the queued elements, in order and without
    repetition (`Inv`).  From this: a search in a finite set that its steps do not
    leave ends (`run_terminates`), has read each element at most once, and has read
    the least set that holds the root and is closed under the steps
    (`Inv.seen_isLeast`). -/

namespace Worklist

variable {α σ : Type}

/-! ## What the steps lead to -/

/-- The elements that steps lead to from the root. -/
def Reaches (next : α → List α) (root : α) : α → Prop :=
  Relation.ReflTransGen (fun a b => b ∈ next a) root

/-- A set that holds the root and that no step leaves. -/
def Closed (next : α → List α) (root : α) (S : Set α) : Prop :=
  root ∈ S ∧ ∀ a ∈ S, ∀ b ∈ next a, b ∈ S

/-- What is reached is the least closed set. -/
theorem reaches_isLeast (next : α → List α) (root : α) :
    IsLeast {S | Closed next root S} {a | Reaches next root a} := by
  refine ⟨⟨Relation.ReflTransGen.refl, ?_⟩, ?_⟩
  · intro a ha b hb
    exact Relation.ReflTransGen.tail ha hb
  · rintro S ⟨hroot, hstep⟩ a ha
    change Reaches next root a at ha
    induction ha with
    | refl => exact hroot
    | tail _ hb ih => exact hstep _ ih _ hb

/-! ## The search -/

/-- A search: what has been read and what has been queued, in order, what waits, and
    the value accumulated. -/
structure Search (α σ : Type) where
  seen : List α
  queued : List α
  frontier : List α
  value : σ

def start (root : α) (value : σ) : Search α σ := ⟨[], [root], [root], value⟩

/-- The queued elements are those seen and those that wait, none of them twice. -/
structure Ordered (s : Search α σ) : Prop where
  split : s.queued = s.seen ++ s.frontier
  nodup : s.queued.Nodup

theorem Ordered.seen_nodup {s : Search α σ} (h : Ordered s) : s.seen.Nodup := by
  have hnodup := h.nodup
  rw [h.split] at hnodup
  exact (List.nodup_append.mp hnodup).1

theorem Ordered.mem_of_seen {s : Search α σ} (h : Ordered s) {a : α} (ha : a ∈ s.seen) :
    a ∈ s.queued := by
  rw [h.split]
  exact List.mem_append_left _ ha

/-- What waits first was not read. -/
theorem Ordered.fresh {s : Search α σ} (h : Ordered s) {a : α} {rest : List α}
    (hs : s.frontier = a :: rest) : a ∉ s.seen := by
  intro ha
  have hnodup := h.nodup
  rw [h.split, hs] at hnodup
  exact (List.nodup_append.mp hnodup).2.2 a ha a List.mem_cons_self rfl

/-! ## The invariant -/

/-- The invariant of a search from a root. -/
structure Inv (next : α → List α) (act : σ → α → σ) (root : α) (value : σ)
    (s : Search α σ) : Prop where
  ordered : Ordered s
  rooted : root ∈ s.queued
  closed : ∀ a ∈ s.seen, ∀ b ∈ next a, b ∈ s.queued
  reached : ∀ a ∈ s.queued, Reaches next root a
  acted : s.value = s.seen.foldl act value

theorem inv_start (next : α → List α) (act : σ → α → σ) (root : α) (value : σ) :
    Inv next act root value (start root value) where
  ordered := ⟨rfl, List.nodup_singleton root⟩
  rooted := List.mem_singleton_self root
  closed := fun a ha => absurd ha List.not_mem_nil
  reached := fun a ha => by
    rw [List.mem_singleton.mp ha]
    exact Relation.ReflTransGen.refl
  acted := rfl

/-- **A SEARCH THAT HAS ENDED** has read the least closed set. -/
theorem Inv.seen_isLeast {next : α → List α} {act : σ → α → σ} {root : α} {value : σ}
    {s : Search α σ} (h : Inv next act root value s) (hs : s.frontier = []) :
    IsLeast {S | Closed next root S} {a | a ∈ s.seen} := by
  have hqueued : s.queued = s.seen := by
    rw [h.ordered.split, hs, List.append_nil]
  have hreached : {a | a ∈ s.seen} = {a | Reaches next root a} := by
    refine Set.Subset.antisymm ?_ ?_
    · intro a ha
      exact h.reached a (h.ordered.mem_of_seen ha)
    · refine (reaches_isLeast next root).2 ⟨?_, ?_⟩
      · exact hqueued ▸ h.rooted
      · intro a ha b hb
        exact hqueued ▸ h.closed a ha b hb
  rw [hreached]
  exact reaches_isLeast next root

/-! ## Visiting -/

variable [DecidableEq α]

/-- Queue an element that was neither seen nor queued. -/
def offer (s : Search α σ) (a : α) : Search α σ :=
  if a ∉ s.seen ∧ a ∉ s.queued then
    { s with queued := s.queued ++ [a], frontier := s.frontier ++ [a] }
  else s

/-- Take the first element that waits and, unless it was seen, read it. -/
def visit (next : α → List α) (act : σ → α → σ) (s : Search α σ) : Search α σ :=
  match s.frontier with
  | [] => s
  | a :: rest =>
      if a ∈ s.seen then { s with frontier := rest }
      else (next a).foldl offer
        { s with seen := s.seen ++ [a], frontier := rest, value := act s.value a }

/-- Search until nothing waits; `none` when the fuel does not reach. -/
def run (next : α → List α) (act : σ → α → σ) : ℕ → Search α σ → Option (Search α σ)
  | 0, s => if s.frontier = [] then some s else none
  | fuel + 1, s => if s.frontier = [] then some s else run next act fuel (visit next act s)

theorem run_done {next : α → List α} {act : σ → α → σ} {s : Search α σ}
    (h : s.frontier = []) (fuel : ℕ) : run next act fuel s = some s := by
  cases fuel with
  | zero => exact if_pos h
  | succ fuel => exact if_pos h

/-! ## Offering -/

theorem offer_of_new {s : Search α σ} {a : α} (h : a ∉ s.seen ∧ a ∉ s.queued) :
    offer s a = { s with queued := s.queued ++ [a], frontier := s.frontier ++ [a] } :=
  if_pos h

theorem offer_of_known {s : Search α σ} {a : α} (h : ¬(a ∉ s.seen ∧ a ∉ s.queued)) :
    offer s a = s :=
  if_neg h

@[simp] theorem offer_seen (s : Search α σ) (a : α) : (offer s a).seen = s.seen := by
  by_cases h : a ∉ s.seen ∧ a ∉ s.queued
  · rw [offer_of_new h]
  · rw [offer_of_known h]

@[simp] theorem offer_value (s : Search α σ) (a : α) : (offer s a).value = s.value := by
  by_cases h : a ∉ s.seen ∧ a ∉ s.queued
  · rw [offer_of_new h]
  · rw [offer_of_known h]

@[simp] theorem foldl_offer_seen (l : List α) (s : Search α σ) :
    (l.foldl offer s).seen = s.seen := by
  induction l generalizing s with
  | nil => rfl
  | cons a l ih => rw [List.foldl_cons, ih, offer_seen]

@[simp] theorem foldl_offer_value (l : List α) (s : Search α σ) :
    (l.foldl offer s).value = s.value := by
  induction l generalizing s with
  | nil => rfl
  | cons a l ih => rw [List.foldl_cons, ih, offer_value]

/-- What waits after offers waited before or was offered. -/
theorem mem_frontier_foldl_offer {l : List α} {s : Search α σ} {b : α}
    (h : b ∈ (l.foldl offer s).frontier) : b ∈ s.frontier ∨ b ∈ l := by
  induction l generalizing s with
  | nil => exact Or.inl h
  | cons a l ih =>
      rcases ih h with hb | hb
      · by_cases hnew : a ∉ s.seen ∧ a ∉ s.queued
        · rw [offer_of_new hnew] at hb
          rcases List.mem_append.mp hb with hb | hb
          · exact Or.inl hb
          · rw [List.mem_singleton.mp hb]
            exact Or.inr List.mem_cons_self
        · rw [offer_of_known hnew] at hb
          exact Or.inl hb
      · exact Or.inr (List.mem_cons_of_mem a hb)

/-- The search with another value. -/
def Search.withValue (s : Search α σ) (value : σ) : Search α σ := { s with value := value }

/-- What is offered does not depend on the value. -/
theorem offer_withValue (s : Search α σ) (value : σ) (a : α) :
    offer (s.withValue value) a = (offer s a).withValue value := by
  by_cases h : a ∉ s.seen ∧ a ∉ s.queued
  · rw [offer_of_new h]
    exact offer_of_new h
  · rw [offer_of_known h]
    exact offer_of_known h

theorem foldl_offer_withValue (l : List α) (s : Search α σ) (value : σ) :
    l.foldl offer (s.withValue value) = (l.foldl offer s).withValue value := by
  induction l generalizing s with
  | nil => rfl
  | cons a l ih => rw [List.foldl_cons, offer_withValue, ih, List.foldl_cons]

theorem Ordered.offer {s : Search α σ} (h : Ordered s) (a : α) :
    Ordered (Worklist.offer s a) := by
  by_cases hnew : a ∉ s.seen ∧ a ∉ s.queued
  · rw [offer_of_new hnew]
    refine ⟨?_, ?_⟩
    · show s.queued ++ [a] = s.seen ++ (s.frontier ++ [a])
      rw [h.split, List.append_assoc]
    · exact List.nodup_append.mpr ⟨h.nodup, List.nodup_singleton a, fun b hb c hc hbc =>
        hnew.2 (List.mem_singleton.mp hc ▸ hbc ▸ hb)⟩
  · rw [offer_of_known hnew]
    exact h

theorem Ordered.foldl_offer {s : Search α σ} (h : Ordered s) (l : List α) :
    Ordered (l.foldl Worklist.offer s) := by
  induction l generalizing s with
  | nil => exact h
  | cons a l ih => exact ih (h.offer a)

/-- Offered elements are queued with those that were. -/
theorem mem_queued_offer {s : Search α σ} (h : Ordered s) {a b : α} :
    b ∈ (offer s a).queued ↔ b ∈ s.queued ∨ b = a := by
  by_cases hnew : a ∉ s.seen ∧ a ∉ s.queued
  · rw [offer_of_new hnew]
    show b ∈ s.queued ++ [a] ↔ _
    rw [List.mem_append, List.mem_singleton]
  · rw [offer_of_known hnew]
    have hold : a ∈ s.queued := by
      by_contra hq
      exact hnew ⟨fun ha => hq (h.mem_of_seen ha), hq⟩
    refine ⟨Or.inl, ?_⟩
    rintro (hb | rfl)
    · exact hb
    · exact hold

theorem mem_queued_foldl_offer {s : Search α σ} (h : Ordered s) {l : List α} {b : α} :
    b ∈ (l.foldl offer s).queued ↔ b ∈ s.queued ∨ b ∈ l := by
  induction l generalizing s with
  | nil => simp
  | cons a l ih =>
      rw [List.foldl_cons, ih (h.offer a), mem_queued_offer h, List.mem_cons, or_assoc]

section Step

variable {next : α → List α} {act : σ → α → σ} {root : α} {value : σ} {s : Search α σ}

theorem visit_seen {a : α} {rest : List α} (hs : s.frontier = a :: rest) (ha : a ∈ s.seen) :
    visit next act s = { s with frontier := rest } := by
  unfold visit
  rw [hs]
  exact if_pos ha

theorem visit_fresh {a : α} {rest : List α} (hs : s.frontier = a :: rest)
    (ha : a ∉ s.seen) :
    visit next act s = (next a).foldl offer
      { s with seen := s.seen ++ [a], frontier := rest, value := act s.value a } := by
  unfold visit
  rw [hs]
  exact if_neg ha

/-- Each visit keeps the invariant. -/
theorem Inv.visit (h : Inv next act root value s) :
    Inv next act root value (Worklist.visit next act s) := by
  cases hs : s.frontier with
  | nil =>
      have hsame : Worklist.visit next act s = s := by
        unfold Worklist.visit
        rw [hs]
      rw [hsame]
      exact h
  | cons a rest =>
      rw [visit_fresh hs (h.ordered.fresh hs)]
      have hread : Ordered ({ s with
          seen := s.seen ++ [a], frontier := rest, value := act s.value a } : Search α σ) := by
        refine ⟨?_, h.ordered.nodup⟩
        show s.queued = (s.seen ++ [a]) ++ rest
        rw [h.ordered.split, hs, List.append_assoc]
        rfl
      have ha : a ∈ s.queued := by
        rw [h.ordered.split, hs]
        exact List.mem_append_right _ List.mem_cons_self
      refine ⟨hread.foldl_offer _, ?_, ?_, ?_, ?_⟩
      · exact (mem_queued_foldl_offer hread).mpr (Or.inl h.rooted)
      · intro b hb c hc
        rw [foldl_offer_seen] at hb
        refine (mem_queued_foldl_offer hread).mpr ?_
        rcases List.mem_append.mp hb with hb | hb
        · exact Or.inl (h.closed b hb c hc)
        · rw [List.mem_singleton.mp hb] at hc
          exact Or.inr hc
      · intro b hb
        rcases (mem_queued_foldl_offer hread).mp hb with hb | hb
        · exact h.reached b hb
        · exact Relation.ReflTransGen.tail (h.reached a ha) hb
      · rw [foldl_offer_value, foldl_offer_seen]
        show act s.value a = (s.seen ++ [a]).foldl act value
        rw [List.foldl_append, ← h.acted]
        rfl

/-! ## Termination -/

/-- In a finite set that the steps do not leave, fewer elements than the set has were read
    while one waits. -/
theorem Inv.seen_lt (h : Inv next act root value s) {U : Finset α}
    (hU : Closed next root (U : Set α)) (hs : s.frontier ≠ []) : s.seen.length < U.card := by
  have hsub : ∀ a ∈ s.queued, a ∈ U :=
    fun a ha => (reaches_isLeast next root).2 hU (h.reached a ha)
  have hcard : s.queued.length ≤ U.card := by
    rw [← List.toFinset_card_of_nodup h.ordered.nodup]
    exact Finset.card_le_card (fun a ha => hsub a (List.mem_toFinset.mp ha))
  rw [h.ordered.split, List.length_append] at hcard
  have hwaits := List.length_pos_of_ne_nil hs
  omega

/-- **A SEARCH ENDS** within as many visits as the finite set has elements. -/
theorem run_terminates {U : Finset α} (hU : Closed next root (U : Set α)) {fuel : ℕ}
    (h : Inv next act root value s) (hfuel : U.card ≤ fuel + s.seen.length) :
    ∃ t, run next act fuel s = some t ∧ Inv next act root value t ∧ t.frontier = [] := by
  induction fuel generalizing s with
  | zero =>
      by_cases hs : s.frontier = []
      · exact ⟨s, run_done hs 0, h, hs⟩
      · have hlt := h.seen_lt hU hs
        omega
  | succ fuel ih =>
      by_cases hs : s.frontier = []
      · exact ⟨s, run_done hs (fuel + 1), h, hs⟩
      · obtain ⟨a, rest, hcons⟩ := List.exists_cons_of_ne_nil hs
        have hseen : (Worklist.visit next act s).seen.length = s.seen.length + 1 := by
          rw [visit_fresh hcons (h.ordered.fresh hcons), foldl_offer_seen, List.length_append,
            List.length_singleton]
        obtain ⟨t, ht, hinv, hdone⟩ := ih h.visit (by omega)
        exact ⟨t, (if_neg hs).trans ht, hinv, hdone⟩

/-- More fuel does not change the end. -/
theorem run_more {fuel more : ℕ} {t : Search α σ} (hle : fuel ≤ more)
    (h : run next act fuel s = some t) : run next act more s = some t := by
  induction fuel generalizing s more with
  | zero =>
      by_cases hs : s.frontier = []
      · rw [run_done hs] at h ⊢
        exact h
      · rw [run, if_neg hs] at h
        exact nomatch h
  | succ fuel ih =>
      by_cases hs : s.frontier = []
      · rw [run_done hs] at h ⊢
        exact h
      · obtain ⟨more, rfl⟩ := Nat.exists_eq_add_of_lt (Nat.lt_of_succ_le hle)
        rw [run, if_neg hs] at h ⊢
        exact ih (by omega) h

end Step

end Worklist
