import Mathlib

/-! # Keyed tables

    A relational table with a primary key, kept as its list of rows together
    with the proof that no two rows share a key.  The operations are the SQL
    statements a keyed store needs:

    * `insertIgnore` is `INSERT ... ON CONFLICT (key) DO NOTHING`;
    * `upsert` is `INSERT ... ON CONFLICT (key) DO UPDATE`;
    * `updateWhere` and `deleteWhere` are `UPDATE` and `DELETE`.

    Each operation carries the key invariant, so a table with a repeated key
    cannot be built, and each has one membership lemma. -/

namespace KeyedTable

variable {ρ κ : Type}

/-- A table of rows of type `ρ` whose primary key is `key`. -/
structure Table (key : ρ → κ) where
  rows : List ρ
  nodup : (rows.map key).Nodup

namespace Table

variable {key : ρ → κ}

instance : Membership ρ (Table key) where
  mem t r := r ∈ t.rows

/-- The table without rows. -/
def empty : Table key where
  rows := []
  nodup := List.nodup_nil

theorem mem_rows {t : Table key} {r : ρ} : r ∈ t.rows ↔ r ∈ t := Iff.rfl

instance [DecidableEq ρ] (t : Table key) (r : ρ) : Decidable (r ∈ t) :=
  inferInstanceAs (Decidable (r ∈ t.rows))

instance (t : Table key) (p : ρ → Prop) [DecidablePred p] :
    Decidable (∀ r ∈ t, p r) :=
  inferInstanceAs (Decidable (∀ r ∈ t.rows, p r))

instance (t : Table key) (p : ρ → Prop) [DecidablePred p] :
    Decidable (∃ r ∈ t, p r) :=
  inferInstanceAs (Decidable (∃ r ∈ t.rows, p r))

@[simp] theorem not_mem_empty (r : ρ) : r ∉ (empty : Table key) :=
  List.not_mem_nil

@[simp] theorem empty_rows : (empty : Table key).rows = [] := rfl

/-- A table is its rows. -/
theorem ext {t t' : Table key} (h : t.rows = t'.rows) : t = t' := by
  cases t
  cases t'
  cases h
  rfl

/-- Two rows of a table with one key are one row. -/
theorem eq_of_key_eq (t : Table key) {r r' : ρ} (hr : r ∈ t) (hr' : r' ∈ t)
    (h : key r = key r') : r = r' :=
  List.inj_on_of_nodup_map t.nodup hr hr' h

/-- Some row of the table has the key `k`. -/
def HasKey (t : Table key) (k : κ) : Prop := ∃ r ∈ t.rows, key r = k

instance [DecidableEq κ] (t : Table key) (k : κ) : Decidable (t.HasKey k) :=
  inferInstanceAs (Decidable (∃ r ∈ t.rows, key r = k))

theorem HasKey.of_mem {t : Table key} {r : ρ} (h : r ∈ t) : t.HasKey (key r) :=
  ⟨r, h, rfl⟩

/-- `SELECT ... WHERE key = k`. -/
def find? [DecidableEq κ] (t : Table key) (k : κ) : Option ρ :=
  t.rows.find? (fun r => decide (key r = k))

theorem find?_eq_some [DecidableEq κ] {t : Table key} {k : κ} {r : ρ} :
    t.find? k = some r ↔ r ∈ t ∧ key r = k := by
  constructor
  · intro h
    have hmem : r ∈ t := List.mem_of_find?_eq_some h
    have hkey := List.find?_some h
    exact ⟨hmem, of_decide_eq_true hkey⟩
  · rintro ⟨hmem, hkey⟩
    cases hf : t.find? k with
    | none =>
        have hnone := List.find?_eq_none.mp hf r hmem
        exact absurd (decide_eq_true hkey) hnone
    | some r' =>
        have hmem' : r' ∈ t := List.mem_of_find?_eq_some hf
        have hdec := List.find?_some
          (show t.rows.find? (fun r => decide (key r = k)) = some r' from hf)
        have hkey' : key r' = k := of_decide_eq_true hdec
        rw [t.eq_of_key_eq hmem' hmem (hkey'.trans hkey.symm)]

/-- Among rows of distinct keys, the one found for a key is the one that has it. -/
theorem find?_rows_eq_some [DecidableEq κ] {l : List ρ} (hl : (l.map key).Nodup) {k : κ}
    {r : ρ} : l.find? (fun r => decide (key r = k)) = some r ↔ r ∈ l ∧ key r = k :=
  find?_eq_some (t := (⟨l, hl⟩ : Table key))

theorem find?_eq_none [DecidableEq κ] {t : Table key} {k : κ} :
    t.find? k = none ↔ ¬ t.HasKey k := by
  constructor
  · rintro h ⟨r, hr, hk⟩
    exact List.find?_eq_none.mp h r hr (decide_eq_true hk)
  · intro h
    refine List.find?_eq_none.mpr ?_
    intro r hr hk
    exact h ⟨r, hr, of_decide_eq_true hk⟩

/-! ## `INSERT ... ON CONFLICT DO NOTHING` -/

/-- Insert `r` unless its key is taken. -/
def insertIgnore [DecidableEq κ] (t : Table key) (r : ρ) : Table key :=
  if h : t.HasKey (key r) then t
  else
    { rows := t.rows ++ [r]
      nodup := by
        rw [List.map_append, List.map_singleton]
        refine List.nodup_append.mpr ⟨t.nodup, List.nodup_singleton _, ?_⟩
        rintro k hk k' hk' rfl
        obtain ⟨r', hr', hkey⟩ := List.mem_map.mp hk
        exact h ⟨r', hr', hkey.trans (List.mem_singleton.mp hk')⟩ }

theorem insertIgnore_rows [DecidableEq κ] {t : Table key} {r : ρ}
    (h : ¬ t.HasKey (key r)) : (t.insertIgnore r).rows = t.rows ++ [r] := by
  rw [insertIgnore, dif_neg h]

theorem mem_insertIgnore [DecidableEq κ] {t : Table key} {r x : ρ} :
    x ∈ t.insertIgnore r ↔ x ∈ t ∨ (x = r ∧ ¬ t.HasKey (key r)) := by
  by_cases h : t.HasKey (key r)
  · rw [insertIgnore, dif_pos h]
    exact ⟨Or.inl, fun hx => hx.elim id (fun hx => absurd h hx.2)⟩
  · rw [insertIgnore, dif_neg h]
    show x ∈ t.rows ++ [r] ↔ _
    rw [List.mem_append, List.mem_singleton]
    exact or_congr Iff.rfl ⟨fun hx => ⟨hx, h⟩, And.left⟩

theorem mem_insertIgnore_of_mem [DecidableEq κ] {t : Table key} {r x : ρ}
    (h : x ∈ t) : x ∈ t.insertIgnore r :=
  mem_insertIgnore.mpr (Or.inl h)

theorem hasKey_insertIgnore [DecidableEq κ] {t : Table key} {r : ρ} {k : κ} :
    (t.insertIgnore r).HasKey k ↔ t.HasKey k ∨ k = key r := by
  constructor
  · rintro ⟨x, hx, rfl⟩
    rcases mem_insertIgnore.mp hx with hx | ⟨rfl, -⟩
    · exact Or.inl (HasKey.of_mem hx)
    · exact Or.inr rfl
  · rintro (⟨x, hx, rfl⟩ | rfl)
    · exact ⟨x, mem_insertIgnore_of_mem hx, rfl⟩
    · by_cases h : t.HasKey (key r)
      · obtain ⟨x, hx, hk⟩ := h
        exact ⟨x, mem_insertIgnore_of_mem hx, hk⟩
      · exact ⟨r, mem_insertIgnore.mpr (Or.inr ⟨rfl, h⟩), rfl⟩

/-- Inserting rows one after the other adds only rows inserted, and each key inserted
    is there. -/
theorem mem_of_mem_foldl_insertIgnore [DecidableEq κ] {l : List ρ} {t : Table key}
    {x : ρ} (h : x ∈ l.foldl insertIgnore t) : x ∈ t ∨ x ∈ l := by
  induction l generalizing t with
  | nil => exact Or.inl h
  | cons r l ih =>
      rcases ih h with hx | hx
      · rcases mem_insertIgnore.mp hx with hx | ⟨rfl, -⟩
        · exact Or.inl hx
        · exact Or.inr List.mem_cons_self
      · exact Or.inr (List.mem_cons_of_mem r hx)

theorem hasKey_foldl_insertIgnore [DecidableEq κ] {l : List ρ} {t : Table key} {k : κ} :
    (l.foldl insertIgnore t).HasKey k ↔ t.HasKey k ∨ ∃ r ∈ l, key r = k := by
  induction l generalizing t with
  | nil => simp
  | cons r l ih =>
      rw [List.foldl_cons, ih, hasKey_insertIgnore, or_assoc]
      refine or_congr Iff.rfl ?_
      constructor
      · rintro (rfl | ⟨r', hr', hk⟩)
        · exact ⟨r, List.mem_cons_self, rfl⟩
        · exact ⟨r', List.mem_cons_of_mem r hr', hk⟩
      · rintro ⟨r', hr', rfl⟩
        rcases List.mem_cons.mp hr' with rfl | hr'
        · exact Or.inl rfl
        · exact Or.inr ⟨r', hr', rfl⟩

/-- **THE FIRST ROW OF EACH KEY WINS**, unless the key was taken. -/
theorem mem_foldl_insertIgnore [DecidableEq κ] {l : List ρ} {t : Table key} {x : ρ} :
    x ∈ l.foldl insertIgnore t ↔ x ∈ t
      ∨ (¬ t.HasKey (key x) ∧ l.find? (fun r => decide (key r = key x)) = some x) := by
  induction l generalizing t with
  | nil => simp
  | cons r l ih =>
      rw [List.foldl_cons, ih, mem_insertIgnore, hasKey_insertIgnore]
      by_cases hkey : key r = key x
      · have hfirst : (r :: l).find? (fun r => decide (key r = key x)) = some r :=
          List.find?_cons_of_pos (p := fun r => decide (key r = key x)) (decide_eq_true hkey)
        rw [hfirst]
        constructor
        · rintro ((hx | ⟨rfl, hnew⟩) | ⟨hnot, -⟩)
          · exact Or.inl hx
          · exact Or.inr ⟨hnew, rfl⟩
          · exact absurd (Or.inr hkey.symm) hnot
        · rintro (hx | ⟨hnew, hfirst⟩)
          · exact Or.inl (Or.inl hx)
          · exact Or.inl (Or.inr ⟨(Option.some.inj hfirst).symm, hkey ▸ hnew⟩)
      · have hlater : (r :: l).find? (fun r => decide (key r = key x))
            = l.find? (fun r => decide (key r = key x)) :=
          List.find?_cons_of_neg (p := fun r => decide (key r = key x))
            (fun h => hkey (of_decide_eq_true h))
        rw [hlater]
        constructor
        · rintro ((hx | ⟨rfl, -⟩) | ⟨hnot, hfirst⟩)
          · exact Or.inl hx
          · exact absurd rfl hkey
          · exact Or.inr ⟨fun h => hnot (Or.inl h), hfirst⟩
        · rintro (hx | ⟨hnew, hfirst⟩)
          · exact Or.inl (Or.inl hx)
          · refine Or.inr ⟨?_, hfirst⟩
            rintro (h | h)
            · exact hnew h
            · exact hkey h.symm

/-! ## `UPDATE` -/

/-- Rewrite each row by `f`, which keeps the key. -/
def mapRows (t : Table key) (f : ρ → ρ) (hf : ∀ r, key (f r) = key r) :
    Table key where
  rows := t.rows.map f
  nodup := by
    have hkeys : (t.rows.map f).map key = t.rows.map key := by
      rw [List.map_map]
      exact List.map_congr_left (fun r _ => hf r)
    rw [hkeys]
    exact t.nodup

theorem mem_mapRows {t : Table key} {f : ρ → ρ} {hf : ∀ r, key (f r) = key r}
    {x : ρ} : x ∈ t.mapRows f hf ↔ ∃ r ∈ t, f r = x :=
  List.mem_map

theorem hasKey_mapRows {t : Table key} {f : ρ → ρ}
    {hf : ∀ r, key (f r) = key r} {k : κ} :
    (t.mapRows f hf).HasKey k ↔ t.HasKey k := by
  constructor
  · rintro ⟨x, hx, rfl⟩
    obtain ⟨r, hr, rfl⟩ := mem_mapRows.mp hx
    exact ⟨r, hr, (hf r).symm⟩
  · rintro ⟨r, hr, rfl⟩
    exact ⟨f r, mem_mapRows.mpr ⟨r, hr, rfl⟩, hf r⟩

/-- Rewriting every row rewrites the one a key names. -/
theorem find?_mapRows [DecidableEq κ] {t : Table key} {f : ρ → ρ}
    {hf : ∀ r, key (f r) = key r} {k : κ} :
    (t.mapRows f hf).find? k = (t.find? k).map f := by
  show (t.rows.map f).find? _ = (t.rows.find? _).map f
  rw [List.find?_map]
  congr 2
  funext r
  show decide (key (f r) = k) = decide (key r = k)
  rw [hf r]

/-! ## `INSERT ... ON CONFLICT DO UPDATE` -/

/-- Insert `r`, or where its key is taken by `old` put `merge old r`. -/
def upsert [DecidableEq κ] (t : Table key) (merge : ρ → ρ → ρ)
    (hmerge : ∀ old new, key (merge old new) = key old) (r : ρ) : Table key :=
  if t.HasKey (key r) then
    t.mapRows (fun old => if key old = key r then merge old r else old)
      (by intro old; by_cases h : key old = key r
          · rw [if_pos h]; exact hmerge old r
          · rw [if_neg h])
  else t.insertIgnore r

theorem mem_upsert [DecidableEq κ] {t : Table key} {merge : ρ → ρ → ρ}
    {hmerge : ∀ old new, key (merge old new) = key old} {r x : ρ} :
    x ∈ t.upsert merge hmerge r ↔
      (x ∈ t ∧ key x ≠ key r)
        ∨ (∃ old ∈ t, key old = key r ∧ x = merge old r)
        ∨ (x = r ∧ ¬ t.HasKey (key r)) := by
  by_cases h : t.HasKey (key r)
  · rw [upsert, if_pos h, mem_mapRows]
    constructor
    · rintro ⟨old, hold, rfl⟩
      by_cases hk : key old = key r
      · rw [if_pos hk]
        exact Or.inr (Or.inl ⟨old, hold, hk, rfl⟩)
      · rw [if_neg hk]
        exact Or.inl ⟨hold, hk⟩
    · rintro (⟨hx, hk⟩ | ⟨old, hold, hk, rfl⟩ | ⟨-, hn⟩)
      · exact ⟨x, hx, if_neg hk⟩
      · exact ⟨old, hold, if_pos hk⟩
      · exact absurd h hn
  · rw [upsert, if_neg h, mem_insertIgnore]
    constructor
    · rintro (hx | hx)
      · refine Or.inl ⟨hx, ?_⟩
        intro hk
        exact h ⟨x, hx, hk⟩
      · exact Or.inr (Or.inr hx)
    · rintro (⟨hx, -⟩ | ⟨old, hold, hk, -⟩ | hx)
      · exact Or.inl hx
      · exact absurd ⟨old, hold, hk⟩ h
      · exact Or.inr hx

theorem hasKey_upsert [DecidableEq κ] {t : Table key} {merge : ρ → ρ → ρ}
    {hmerge : ∀ old new, key (merge old new) = key old} {r : ρ} {k : κ} :
    (t.upsert merge hmerge r).HasKey k ↔ t.HasKey k ∨ k = key r := by
  by_cases h : t.HasKey (key r)
  · rw [upsert, if_pos h, hasKey_mapRows]
    refine ⟨Or.inl, ?_⟩
    rintro (hk | rfl)
    · exact hk
    · exact h
  · rw [upsert, if_neg h, hasKey_insertIgnore]

/-- The rows of other keys keep their order. -/
theorem filter_upsert_of_not [DecidableEq κ] {t : Table key} {merge : ρ → ρ → ρ}
    {hmerge : ∀ old new, key (merge old new) = key old} {r : ρ} {p : κ → Prop}
    [DecidablePred p] (hp : ¬ p (key r)) :
    (t.upsert merge hmerge r).rows.filter (fun x => p (key x))
      = t.rows.filter (fun x => p (key x)) := by
  by_cases h : t.HasKey (key r)
  · rw [upsert, if_pos h]
    let f : ρ → ρ := fun old => if key old = key r then merge old r else old
    have hkey : ∀ x, key (f x) = key x := by
      intro x
      by_cases hk : key x = key r
      · exact (congrArg key (if_pos hk)).trans (hmerge x r)
      · exact congrArg key (if_neg hk)
    show (t.rows.map f).filter (fun x => p (key x)) = _
    rw [List.filter_map]
    have hsame : ((fun x => decide (p (key x))) ∘ f) = fun x => decide (p (key x)) := by
      funext x
      show decide (p (key (f x))) = _
      rw [hkey x]
    rw [hsame]
    refine (List.map_congr_left (g := id) (fun x hx => ?_)).trans (List.map_id _)
    have hpx : p (key x) := of_decide_eq_true (List.mem_filter.mp hx).2
    have hne : key x ≠ key r := fun hk => hp (hk ▸ hpx)
    exact if_neg hne
  · rw [upsert, if_neg h, insertIgnore_rows h, List.filter_append]
    have hnone : [r].filter (fun x => decide (p (key x))) = [] := by
      rw [List.filter_cons_of_neg (by simpa using hp), List.filter_nil]
    rw [hnone, List.append_nil]

/-- Putting a row that is there changes nothing. -/
theorem upsert_rows_of_mem [DecidableEq κ] {t : Table key} {merge : ρ → ρ → ρ}
    {hmerge : ∀ old new, key (merge old new) = key old} {r : ρ} (hr : r ∈ t)
    (hself : merge r r = r) : (t.upsert merge hmerge r).rows = t.rows := by
  rw [upsert, if_pos (HasKey.of_mem hr)]
  show t.rows.map _ = t.rows
  refine (List.map_congr_left (g := id) (fun x hx => ?_)).trans (List.map_id _)
  by_cases hk : key x = key r
  · show (if key x = key r then merge x r else x) = x
    rw [if_pos hk, t.eq_of_key_eq hx hr hk, hself]
  · exact if_neg hk

theorem find?_upsert_of_ne [DecidableEq κ] {t : Table key} {merge : ρ → ρ → ρ}
    {hmerge : ∀ old new, key (merge old new) = key old} {r : ρ} {k : κ}
    (hne : k ≠ key r) : (t.upsert merge hmerge r).find? k = t.find? k := by
  cases hfind : t.find? k with
  | none =>
      refine find?_eq_none.mpr (fun hk => ?_)
      rcases hasKey_upsert.mp hk with hk | hk
      · exact find?_eq_none.mp hfind hk
      · exact hne hk
  | some x =>
      obtain ⟨hx, hkey⟩ := find?_eq_some.mp hfind
      exact find?_eq_some.mpr
        ⟨mem_upsert.mpr (Or.inl ⟨hx, fun h => hne (hkey.symm.trans h)⟩), hkey⟩

/-! ## Keeping the newest row of each key -/

theorem hasKey_foldl_upsert [DecidableEq κ] {merge : ρ → ρ → ρ}
    {hmerge : ∀ old new, key (merge old new) = key old} {l : List ρ}
    {t : Table key} {k : κ} :
    (l.foldl (fun t r => t.upsert merge hmerge r) t).HasKey k
      ↔ t.HasKey k ∨ ∃ r ∈ l, key r = k := by
  induction l generalizing t with
  | nil => simp
  | cons r l ih =>
      rw [List.foldl_cons, ih, hasKey_upsert, List.exists_mem_cons_iff, or_assoc,
        eq_comm (a := k)]

/-- `x` is a row of `l`, and no row of `l` with its key is newer. -/
def NewestIn (key : ρ → κ) (newer : ρ → ρ → Prop) (l : List ρ) (x : ρ) : Prop :=
  x ∈ l ∧ ∀ y ∈ l, key y = key x → ¬ newer x y

theorem newestIn_concat {newer : ρ → ρ → Prop} {l : List ρ} {r x : ρ} :
    NewestIn key newer (l ++ [r]) x ↔
      (NewestIn key newer l x ∧ (key r = key x → ¬ newer x r))
        ∨ (x = r ∧ (∀ y ∈ l, key y = key r → ¬ newer r y) ∧ ¬ newer r r) := by
  have hforall : (∀ y ∈ l ++ [r], key y = key x → ¬ newer x y) ↔
      (∀ y ∈ l, key y = key x → ¬ newer x y)
        ∧ (key r = key x → ¬ newer x r) := by
    rw [List.forall_mem_append, List.forall_mem_singleton]
  unfold NewestIn
  rw [hforall, List.mem_append, List.mem_singleton]
  constructor
  · rintro ⟨hx | rfl, hl, hr⟩
    · exact Or.inl ⟨⟨hx, hl⟩, hr⟩
    · exact Or.inr ⟨rfl, hl, hr rfl⟩
  · rintro (⟨⟨hx, hl⟩, hr⟩ | ⟨rfl, hl, hr⟩)
    · exact ⟨Or.inl hx, hl, hr⟩
    · exact ⟨Or.inr rfl, hl, fun _ => hr⟩

/-- **THE NEWEST ROW OF EACH KEY**: upserting rows one after the other, a new
    row replacing an older one, leaves of each key the row no other is newer
    than, in whatever order they come. -/
theorem mem_foldl_newest [DecidableEq κ] {merge : ρ → ρ → ρ}
    {hmerge : ∀ old new, key (merge old new) = key old}
    {newer : ρ → ρ → Prop} [DecidableRel newer]
    (hnewer : ∀ old new, key old = key new →
      merge old new = if newer old new then new else old)
    (hirrefl : ∀ a, ¬ newer a a)
    (htrans : ∀ a b c, newer a b → newer b c → newer a c) {l : List ρ}
    (htotal : ∀ a ∈ l, ∀ b ∈ l, key a = key b → newer a b ∨ a = b ∨ newer b a)
    {x : ρ} :
    x ∈ l.foldl (fun t r => t.upsert merge hmerge r) (empty : Table key) ↔
      NewestIn key newer l x := by
  induction l using List.reverseRecOn generalizing x with
  | nil => simp [NewestIn]
  | append_singleton l r ih =>
      have ih := @ih (fun a ha b hb =>
        htotal a (List.mem_append_left _ ha) b (List.mem_append_left _ hb))
      have hr : r ∈ l ++ [r] := List.mem_append_right _ (List.mem_singleton_self r)
      rw [List.foldl_append, List.foldl_cons, List.foldl_nil, mem_upsert,
        newestIn_concat]
      constructor
      · rintro (⟨hx, hk⟩ | ⟨old, hold, hk, rfl⟩ | ⟨rfl, hno⟩)
        · exact Or.inl ⟨ih.mp hx, fun hrk => absurd hrk.symm hk⟩
        · rw [hnewer old r hk]
          by_cases hn : newer old r
          · rw [if_pos hn]
            refine Or.inr ⟨rfl, ?_, hirrefl r⟩
            intro y hy hky hry
            exact (ih.mp hold).2 y hy (hky.trans hk.symm) (htrans _ _ _ hn hry)
          · rw [if_neg hn]
            exact Or.inl ⟨ih.mp hold, fun _ => hn⟩
        · refine Or.inr ⟨rfl, ?_, hirrefl x⟩
          intro y hy hky
          exact absurd (hasKey_foldl_upsert.mpr (Or.inr ⟨y, hy, hky⟩)) hno
      · rintro (⟨hx, hxr⟩ | ⟨rfl, hl, -⟩)
        · by_cases hk : key x = key r
          · refine Or.inr (Or.inl ⟨x, ih.mpr hx, hk, ?_⟩)
            rw [hnewer x r hk, if_neg (hxr hk.symm)]
          · exact Or.inl ⟨ih.mpr hx, hk⟩
        · by_cases hno : HasKey
              (l.foldl (fun t r => t.upsert merge hmerge r) (empty : Table key)) (key x)
          · -- the row it meets is older, or is the same row
            obtain ⟨old, hold, hk⟩ := hno
            have holdl := (ih.mp hold).1
            refine Or.inr (Or.inl ⟨old, hold, hk, ?_⟩)
            rw [hnewer old x hk]
            rcases htotal old (List.mem_append_left _ holdl) x hr hk with hn | rfl | hn
            · rw [if_pos hn]
            · rw [ite_self]
            · exact absurd hn (hl old holdl hk)
          · exact Or.inr (Or.inr ⟨rfl, hno⟩)

/-! ## `DELETE` -/

/-- Delete the rows `p` selects. -/
def deleteWhere (t : Table key) (p : ρ → Prop) [DecidablePred p] :
    Table key where
  rows := t.rows.filter (fun r => decide (¬ p r))
  nodup := (List.filter_sublist.map key).nodup t.nodup

theorem mem_deleteWhere {t : Table key} {p : ρ → Prop} [DecidablePred p]
    {r : ρ} : r ∈ t.deleteWhere p ↔ r ∈ t ∧ ¬ p r := by
  show r ∈ t.rows.filter (fun r => decide (¬ p r)) ↔ _
  rw [List.mem_filter, decide_eq_true_eq]
  exact Iff.rfl

end Table

end KeyedTable
