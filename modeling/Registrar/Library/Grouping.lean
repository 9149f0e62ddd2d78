import Mathlib

/-! # Splitting and grouping lists

    General facts about a list cut in two by a predicate and about sums over a
    list grouped by a key. -/

namespace Grouping

variable {α κ M : Type}

/-- A list whose later elements leave `p` once an earlier one has splits into
    the elements that meet `p` and the others. -/
theorem filter_split {p : α → Prop} [DecidablePred p] {l : List α}
    (h : l.Pairwise (fun a b => p b → p a)) :
    l = l.filter (fun a => p a) ++ l.filter (fun a => ¬ p a) := by
  induction l with
  | nil => rfl
  | cons a l ih =>
      obtain ⟨hfirst, hrest⟩ := List.pairwise_cons.mp h
      by_cases ha : p a
      · rw [List.filter_cons_of_pos (by simpa using ha),
          List.filter_cons_of_neg (by simpa using ha), List.cons_append,
          ← ih hrest]
      · have hout : ∀ x ∈ a :: l, ¬ p x := by
          intro x hx
          rcases List.mem_cons.mp hx with rfl | hx
          · exact ha
          · exact fun hpx => ha (hfirst x hx hpx)
        rw [List.filter_eq_nil_iff.mpr (by simpa using hout),
          List.filter_eq_self.mpr (by simpa using hout), List.nil_append]

variable [AddCommMonoid M]

/-- What an element contributes to its own group. -/
theorem sum_map_ite_eq [DecidableEq κ] {keys : List κ} (hnodup : keys.Nodup)
    {k : κ} (hk : k ∈ keys) (m : M) :
    (keys.map (fun k' => if k = k' then m else 0)).sum = m := by
  induction keys with
  | nil => exact absurd hk List.not_mem_nil
  | cons k' keys ih =>
      obtain ⟨hout, hnodup⟩ := List.nodup_cons.mp hnodup
      rw [List.map_cons, List.sum_cons]
      rcases List.mem_cons.mp hk with rfl | hk
      · have hzero : (keys.map (fun k' => if k = k' then m else 0)).sum = 0 := by
          refine List.sum_eq_zero ?_
          intro x hx
          obtain ⟨k', hk', rfl⟩ := List.mem_map.mp hx
          have hne : k ≠ k' := fun h => hout (h ▸ hk')
          exact if_neg hne
        rw [if_pos rfl, hzero, add_zero]
      · have hne : k ≠ k' := fun h => hout (h ▸ hk)
        rw [if_neg hne, ih hnodup hk, zero_add]

/-- **GROUPING**: a sum over rows is the sum over the keys of the sums over the
    rows of each key. -/
theorem sum_by_key [DecidableEq κ] {keys : List κ} (hnodup : keys.Nodup)
    (key : α → κ) (f : α → M) {rows : List α} (hkeys : ∀ r ∈ rows, key r ∈ keys) :
    (rows.map f).sum
      = (keys.map fun k => ((rows.filter (fun r => key r = k)).map f).sum).sum := by
  induction rows with
  | nil => simp
  | cons r rows ih =>
      have hone : ∀ k, (((r :: rows).filter (fun r => key r = k)).map f).sum
          = (if key r = k then f r else 0)
            + ((rows.filter (fun r => key r = k)).map f).sum := by
        intro k
        by_cases hk : key r = k
        · rw [List.filter_cons_of_pos (by simpa using hk), if_pos hk,
            List.map_cons, List.sum_cons]
        · rw [List.filter_cons_of_neg (by simpa using hk), if_neg hk, zero_add]
      simp only [hone]
      rw [List.sum_map_add, sum_map_ite_eq hnodup (hkeys r List.mem_cons_self),
        ← ih (fun r' hr' => hkeys r' (List.mem_cons_of_mem r hr')),
        List.map_cons, List.sum_cons]

/-- A sum over the elements that meet `p`, when the others add nothing. -/
theorem sum_filter_of_zero {p : α → Prop} [DecidablePred p] (f : α → M)
    {l : List α} (hzero : ∀ a ∈ l, ¬ p a → f a = 0) :
    ((l.filter (fun a => p a)).map f).sum = (l.map f).sum := by
  induction l with
  | nil => rfl
  | cons a l ih =>
      have ih := ih (fun b hb => hzero b (List.mem_cons_of_mem a hb))
      by_cases ha : p a
      · rw [List.filter_cons_of_pos (by simpa using ha), List.map_cons,
          List.map_cons, List.sum_cons, List.sum_cons, ih]
      · rw [List.filter_cons_of_neg (by simpa using ha), List.map_cons,
          List.sum_cons, hzero a List.mem_cons_self ha, zero_add, ih]

/-- A sum over what elements consist of, taken element by element. -/
theorem sum_filter_flatMap {β : Type} (g : α → List β) (q : β → Prop) [DecidablePred q]
    (f : β → M) (l : List α) :
    (((l.flatMap g).filter (fun b => q b)).map f).sum
      = (l.map (fun a => (((g a).filter (fun b => q b)).map f).sum)).sum := by
  induction l with
  | nil => rfl
  | cons a l ih =>
      rw [List.flatMap_cons, List.filter_append, List.map_append, List.sum_append, ih,
        List.map_cons, List.sum_cons]

end Grouping
