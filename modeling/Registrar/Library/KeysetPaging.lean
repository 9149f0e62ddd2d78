import Mathlib

/-! # Keyset paging

    A listing is read page by page: each page has the first rows past a cursor,
    in the order of their keys, and names the key of its last row as the next
    cursor when rows are left over.  The rows may grow between two pages.

    `Serves` says what a fetch has to answer; from it alone the pages are in
    order without repetition (`Serves.sorted`), end once the rows stop growing
    (`Serves.terminates`), and have every row there was at the first page
    (`Serves.complete`). -/

namespace KeysetPaging

variable {ρ κ : Type}

/-- The first `n` rows, and the key of the last of them if there are more. -/
def page (key : ρ → κ) (n : ℕ) (rows : List ρ) : List ρ × Option κ :=
  (rows.take n, if n < rows.length then (rows.take n).getLast?.map key else none)

/-- The cursor each fetch is given: none at first, then the one the page before
    named; nothing is fetched any more after a page that named none. -/
def cursor (fetch : ℕ → Option κ → List ρ × Option κ) : ℕ → Option (Option κ)
  | 0 => some none
  | i + 1 => (cursor fetch i).bind fun past => (fetch i past).2.map some

/-- The rows of a page, none once paging has ended. -/
def pageAt (fetch : ℕ → Option κ → List ρ × Option κ) (i : ℕ) : List ρ :=
  ((cursor fetch i).map fun past => (fetch i past).1).getD []

/-- The rows of the first `n` pages. -/
def pages (fetch : ℕ → Option κ → List ρ × Option κ) (n : ℕ) : List ρ :=
  (List.range n).flatMap (pageAt fetch)

theorem pages_succ (fetch : ℕ → Option κ → List ρ × Option κ) (n : ℕ) :
    pages fetch (n + 1) = pages fetch n ++ pageAt fetch n := by
  unfold pages
  rw [List.range_succ, List.flatMap_append, List.flatMap_singleton]

theorem page_all {key : ρ → κ} {n : ℕ} {rows : List ρ} (h : ¬ n < rows.length) :
    page key n rows = (rows, none) := by
  unfold page
  rw [if_neg h, List.take_of_length_le (not_lt.mp h)]

section Fetch

variable {fetch : ℕ → Option κ → List ρ × Option κ}

theorem pageAt_of_cursor {i : ℕ} {past : Option κ} (h : cursor fetch i = some past) :
    pageAt fetch i = (fetch i past).1 := by
  unfold pageAt
  rw [h]
  rfl

theorem pageAt_of_ended {i : ℕ} (h : cursor fetch i = none) : pageAt fetch i = [] := by
  unfold pageAt
  rw [h]
  rfl

theorem cursor_succ {i : ℕ} {past : Option κ} (h : cursor fetch i = some past) :
    cursor fetch (i + 1) = (fetch i past).2.map some := by
  show (cursor fetch i).bind _ = _
  rw [h]
  rfl

/-- Paging that has ended stays so. -/
theorem cursor_succ_of_ended {i : ℕ} (h : cursor fetch i = none) :
    cursor fetch (i + 1) = none := by
  show (cursor fetch i).bind _ = _
  rw [h]
  rfl

/-- A cursor that is passed on in another form makes no difference to the next. -/
theorem cursor_map_succ {μ : Type} {print : κ → μ} {fetch' : ℕ → Option μ → List ρ × Option μ}
    {i : ℕ} (hi : cursor fetch' i = (cursor fetch i).map (Option.map print))
    (h : ∀ past, cursor fetch i = some past →
      fetch' i (past.map print) = ((fetch i past).1, (fetch i past).2.map print)) :
    cursor fetch' (i + 1) = (cursor fetch (i + 1)).map (Option.map print) := by
  cases hcur : cursor fetch i with
  | none =>
      rw [hcur] at hi
      rw [cursor_succ_of_ended hcur, cursor_succ_of_ended hi]
      rfl
  | some past =>
      rw [hcur] at hi
      rw [cursor_succ hcur, cursor_succ hi, h past hcur]
      cases (fetch i past).2 with
      | none => rfl
      | some k => rfl

theorem cursor_map {μ : Type} {print : κ → μ} {fetch' : ℕ → Option μ → List ρ × Option μ}
    (h : ∀ i past, cursor fetch i = some past →
      fetch' i (past.map print) = ((fetch i past).1, (fetch i past).2.map print)) (i : ℕ) :
    cursor fetch' i = (cursor fetch i).map (Option.map print) := by
  induction i with
  | zero => rfl
  | succ i ih => exact cursor_map_succ ih (h i)

theorem pages_map {μ : Type} {print : κ → μ} {fetch' : ℕ → Option μ → List ρ × Option μ}
    (h : ∀ i past, cursor fetch i = some past →
      fetch' i (past.map print) = ((fetch i past).1, (fetch i past).2.map print)) (n : ℕ) :
    pages fetch' n = pages fetch n := by
  unfold pages
  refine List.flatMap_congr fun i _ => ?_
  have hcur' := cursor_map h i
  cases hcur : cursor fetch i with
  | none =>
      rw [hcur] at hcur'
      rw [pageAt_of_ended hcur, pageAt_of_ended hcur']
  | some past =>
      rw [hcur] at hcur'
      rw [pageAt_of_cursor hcur, pageAt_of_cursor hcur', h i past hcur]

end Fetch

variable [LinearOrder κ]

/-- The rows past a cursor are served in pages of `n`. -/
structure Serves (key : ρ → κ) (n : ℕ) (stored : ℕ → Set ρ)
    (fetch : ℕ → Option κ → List ρ × Option κ) : Prop where
  pos : 0 < n
  grows : ∀ i, stored i ⊆ stored (i + 1)
  answers : ∀ i past, cursor fetch i = some past → ∃ rows, fetch i past = page key n rows
    ∧ rows.Pairwise (fun a b => key a < key b)
    ∧ ∀ r, r ∈ rows ↔ r ∈ stored i ∧ ∀ k, past = some k → k < key r

/-- A page that leaves rows over names the key of its last row, which is the greatest
    in it and smaller than those left over. -/
theorem page_more {key : ρ → κ} {n : ℕ} {rows : List ρ} (hpos : 0 < n)
    (hsorted : rows.Pairwise (fun a b => key a < key b)) (h : n < rows.length) :
    ∃ k, (page key n rows).2 = some k ∧ (∀ r ∈ rows.take n, key r ≤ k)
      ∧ ∀ r ∈ rows.drop n, k < key r := by
  have hne : rows.take n ≠ [] := by
    refine List.ne_nil_of_length_pos ?_
    rw [List.length_take]
    omega
  obtain ⟨init, last, hlast⟩ : ∃ init last, rows.take n = init ++ [last] :=
    ⟨_, _, (List.dropLast_append_getLast hne).symm⟩
  have hsplit : rows = (init ++ [last]) ++ rows.drop n := by
    rw [← hlast, List.take_append_drop]
  rw [hsplit] at hsorted
  obtain ⟨htake, -, hcross⟩ := List.pairwise_append.mp hsorted
  obtain ⟨-, -, hbefore⟩ := List.pairwise_append.mp htake
  refine ⟨key last, ?_, ?_, ?_⟩
  · unfold page
    rw [if_pos h, hlast, List.getLast?_append, List.getLast?_singleton]
    rfl
  · rw [hlast]
    intro r hr
    rcases List.mem_append.mp hr with hr | hr
    · exact (hbefore r hr last (List.mem_singleton_self last)).le
    · rw [List.mem_singleton.mp hr]
  · intro r hr
    exact hcross last (List.mem_append_right _ (List.mem_singleton_self last)) r hr

section Serves

variable {key : ρ → κ} {n : ℕ} {stored : ℕ → Set ρ}
variable {fetch : ℕ → Option κ → List ρ × Option κ}

theorem Serves.stored_zero_subset (h : Serves key n stored fetch) (i : ℕ) :
    stored 0 ⊆ stored i := by
  induction i with
  | zero => exact subset_rfl
  | succ i ih => exact ih.trans (h.grows i)

/-- What holds of the pages so far: they are in order, do not pass the cursor, and have
    every row of the first listing that is not past it. -/
structure ReadTo (key : ρ → κ) (listed : Set ρ) (read : List ρ) (at? : Option (Option κ)) :
    Prop where
  sorted : read.Pairwise (fun a b => key a < key b)
  before : ∀ past, at? = some past → ∀ r ∈ read, ∃ k, past = some k ∧ key r ≤ k
  complete : ∀ r ∈ listed, (∀ past, at? = some past → ∃ k, past = some k ∧ key r ≤ k) →
    r ∈ read

theorem Serves.readTo (h : Serves key n stored fetch) (i : ℕ) :
    ReadTo key (stored 0) (pages fetch i) (cursor fetch i) := by
  induction i with
  | zero =>
      refine ⟨List.Pairwise.nil, fun past _ r hr => absurd hr List.not_mem_nil, ?_⟩
      intro r _ hpast
      obtain ⟨k, hk, -⟩ := hpast none rfl
      cases hk
  | succ i ih =>
      rw [pages_succ]
      cases hcur : cursor fetch i with
      | none =>
          rw [pageAt_of_ended hcur, List.append_nil, cursor_succ_of_ended hcur]
          rw [hcur] at ih
          refine ⟨ih.sorted, (fun past hpast => by cases hpast), fun r hr _ => ?_⟩
          exact ih.complete r hr (fun past hpast => by cases hpast)
      | some past =>
          obtain ⟨rows, hfetch, hsorted, hmem⟩ := h.answers i past hcur
          rw [pageAt_of_cursor hcur, cursor_succ hcur, hfetch]
          rw [hcur] at ih
          have hcross : ∀ r ∈ pages fetch i, ∀ r' ∈ rows, key r < key r' := by
            intro r hr r' hr'
            obtain ⟨k, hpast, hle⟩ := ih.before past rfl r hr
            exact hle.trans_lt (((hmem r').mp hr').2 k hpast)
          have hread : ∀ r ∈ stored 0, r ∈ pages fetch i ∨ r ∈ rows := by
            intro r hr
            by_cases hafter : ∀ k, past = some k → k < key r
            · exact Or.inr ((hmem r).mpr ⟨h.stored_zero_subset i hr, hafter⟩)
            · push Not at hafter
              obtain ⟨k, hpast, hle⟩ := hafter
              refine Or.inl (ih.complete r hr ?_)
              intro past' hpast'
              cases hpast'
              exact ⟨k, hpast, hle⟩
          by_cases hmore : n < rows.length
          · obtain ⟨k, hk, htake, hdrop⟩ := page_more h.pos hsorted hmore
            rw [hk]
            have htaken : ∀ r ∈ rows.take n, r ∈ rows := fun r => List.mem_of_mem_take
            refine ⟨List.pairwise_append.mpr ⟨ih.sorted,
              hsorted.sublist (List.take_sublist n rows),
              fun r hr r' hr' => hcross r hr r' (htaken r' hr')⟩, ?_, ?_⟩
            · intro past' hpast' r hr
              cases hpast'
              refine ⟨k, rfl, ?_⟩
              rcases List.mem_append.mp hr with hr | hr
              · obtain ⟨last, hlast⟩ : ∃ last, last ∈ rows.take n :=
                  List.exists_mem_of_length_pos (by rw [List.length_take]; have := h.pos; omega)
                exact (hcross r hr last (htaken last hlast)).le.trans (htake last hlast)
              · exact htake r hr
            · intro r hr hpast'
              obtain ⟨k', hk', hle⟩ := hpast' (some k) rfl
              cases hk'
              rcases hread r hr with hin | hin
              · exact List.mem_append_left _ hin
              · rw [← List.take_append_drop n rows] at hin
                rcases List.mem_append.mp hin with hin | hin
                · exact List.mem_append_right _ hin
                · exact absurd (hdrop r hin) (not_lt.mpr hle)
          · rw [page_all hmore]
            refine ⟨List.pairwise_append.mpr ⟨ih.sorted, hsorted, hcross⟩,
              (fun past' hpast' => by cases hpast'), fun r hr _ => ?_⟩
            exact List.mem_append.mpr (hread r hr)

/-- **IN ORDER**: no row is answered twice, whatever is added between the pages. -/
theorem Serves.sorted (h : Serves key n stored fetch) (i : ℕ) :
    (pages fetch i).Pairwise (fun a b => key a < key b) := (h.readTo i).sorted

/-- **NOTHING SKIPPED**: when paging has ended, every row of the first listing was
    answered. -/
theorem Serves.complete (h : Serves key n stored fetch) {i : ℕ} (hend : cursor fetch i = none)
    {r : ρ} (hr : r ∈ stored 0) : r ∈ pages fetch i := by
  refine (h.readTo i).complete r hr ?_
  intro past hpast
  rw [hend] at hpast
  cases hpast

/-- Every row answered is one that was stored. -/
theorem Serves.sound (h : Serves key n stored fetch) {i : ℕ} {r : ρ}
    (hr : r ∈ pageAt fetch i) : r ∈ stored i := by
  cases hcur : cursor fetch i with
  | none =>
      rw [pageAt_of_ended hcur] at hr
      exact absurd hr List.not_mem_nil
  | some past =>
      obtain ⟨rows, hfetch, -, hmem⟩ := h.answers i past hcur
      rw [pageAt_of_cursor hcur, hfetch] at hr
      exact ((hmem r).mp (List.mem_of_mem_take hr)).1

/-- A cursor is the key of a row that was stored. -/
theorem Serves.cursor_row (h : Serves key n stored fetch) {i : ℕ} {k : κ}
    (hcur : cursor fetch i = some (some k)) : ∃ j ≤ i, ∃ r ∈ stored j, key r = k := by
  cases i with
  | zero => cases hcur
  | succ i =>
      cases hprev : cursor fetch i with
      | none =>
          rw [cursor_succ_of_ended hprev] at hcur
          cases hcur
      | some past =>
          obtain ⟨rows, hfetch, -, hmem⟩ := h.answers i past hprev
          rw [cursor_succ hprev, hfetch] at hcur
          obtain ⟨k', hk', heq⟩ := Option.map_eq_some_iff.mp hcur
          cases heq
          unfold page at hk'
          by_cases hmore : n < rows.length
          · rw [if_pos hmore] at hk'
            obtain ⟨r, hr, hkey⟩ := Option.map_eq_some_iff.mp hk'
            have hrow := List.mem_of_mem_take (List.mem_of_getLast? hr)
            exact ⟨i, Nat.le_succ i, r, ((hmem r).mp hrow).1, hkey⟩
          · rw [if_neg hmore] at hk'
            cases hk'

/-- What is left past the next cursor is what this page left over. -/
theorem Serves.next (h : Serves key n stored fetch) {i : ℕ} {past : Option κ}
    (hcur : cursor fetch i = some past) {rows : List ρ}
    (hrows : rows.Pairwise (fun a b => key a < key b))
    (hmem : ∀ r, r ∈ rows ↔ r ∈ stored i ∧ ∀ k, past = some k → k < key r) :
    cursor fetch (i + 1) = none ∨ n < rows.length ∧ ∃ k, cursor fetch (i + 1) = some (some k)
      ∧ ∀ r, r ∈ rows.drop n ↔ r ∈ stored i ∧ k < key r := by
  obtain ⟨rows', hfetch, hrows', hmem'⟩ := h.answers i past hcur
  have heq : rows' = rows := by
    refine List.Perm.eq_of_pairwise ?_ hrows' hrows ?_
    · intro a b _ _ hab hba
      exact absurd (hab.trans hba) (lt_irrefl _)
    · refine (List.perm_ext_iff_of_nodup (hrows'.imp ?_) (hrows.imp ?_)).mpr
        fun r => (hmem' r).trans (hmem r).symm
      · rintro a b hlt rfl
        exact lt_irrefl _ hlt
      · rintro a b hlt rfl
        exact lt_irrefl _ hlt
  rw [heq] at hfetch
  by_cases hmore : n < rows.length
  · obtain ⟨k, hk, htake, hdrop⟩ := page_more h.pos hrows hmore
    refine Or.inr ⟨hmore, k, ?_, fun r => ⟨fun hr => ?_, ?_⟩⟩
    · rw [cursor_succ hcur, hfetch, hk]
      rfl
    · exact ⟨((hmem r).mp (List.mem_of_mem_drop hr)).1, hdrop r hr⟩
    · rintro ⟨hr, hlt⟩
      obtain ⟨last, hlast⟩ : ∃ last, last ∈ rows.take n :=
        List.exists_mem_of_length_pos (by rw [List.length_take]; have := h.pos; omega)
      have hin : r ∈ rows := by
        refine (hmem r).mpr ⟨hr, fun k' hk' => ?_⟩
        have hfirst := ((hmem last).mp (List.mem_of_mem_take hlast)).2 k' hk'
        exact hfirst.trans ((htake last hlast).trans_lt hlt)
      rw [← List.take_append_drop n rows] at hin
      rcases List.mem_append.mp hin with hin | hin
      · exact absurd hlt (not_lt.mpr (htake r hin))
      · exact hin
  · refine Or.inl ?_
    rw [cursor_succ hcur, hfetch, page_all hmore]
    rfl

/-- **PAGING ENDS** once the rows stop growing: each page leaves fewer rows past the
    cursor. -/
theorem Serves.terminates (h : Serves key n stored fetch) {m : ℕ}
    (hstops : ∀ i, m ≤ i → stored i = stored m) : ∃ i, cursor fetch i = none := by
  have hleft : ∀ left i past, m ≤ i → cursor fetch i = some past →
      ∀ rows : List ρ, rows.Pairwise (fun a b => key a < key b) →
      (∀ r, r ∈ rows ↔ r ∈ stored i ∧ ∀ k, past = some k → k < key r) →
      rows.length ≤ left → ∃ i, cursor fetch i = none := by
    intro left
    induction left with
    | zero =>
        intro i past _ hcur rows hrows hmem hlength
        rcases h.next hcur hrows hmem with hend | ⟨hmore, -⟩
        · exact ⟨i + 1, hend⟩
        · omega
    | succ left ih =>
        intro i past hi hcur rows hrows hmem hlength
        rcases h.next hcur hrows hmem with hend | ⟨hmore, k, hnext, hrest⟩
        · exact ⟨i + 1, hend⟩
        · refine ih (i + 1) (some k) (by omega) hnext (rows.drop n)
            (hrows.sublist (List.drop_sublist n rows)) ?_ ?_
          · intro r
            rw [hrest r, hstops (i + 1) (by omega), hstops i hi]
            refine and_congr_right fun _ => ⟨?_, fun hpast => hpast k rfl⟩
            intro hlt k' hk'
            cases hk'
            exact hlt
          · rw [List.length_drop]
            have := h.pos
            omega
  cases hcur : cursor fetch m with
  | none => exact ⟨m, hcur⟩
  | some past =>
      obtain ⟨rows, -, hrows, hmem⟩ := h.answers m past hcur
      exact hleft rows.length m past le_rfl hcur rows hrows hmem le_rfl

end Serves

end KeysetPaging
