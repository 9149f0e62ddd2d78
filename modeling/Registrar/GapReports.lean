import Registrar.LiveTail

/-! # What the gap tracker reports

    The live tail heals the ranges that `observe` returns, and no others.  Over any
    sequence of observed ledgers, late and repeated ones among them, the ranges and
    the ledgers that advanced the tracker partition what lies between the anchor
    and the highest ledger observed. -/

namespace RegistrarGaps

open RegistrarTail

/-- The ledgers that advance the tracker, in the order they do. -/
def advances : GapTracker → List ℕ → List ℕ
  | _, [] => []
  | g, n :: ns =>
      let (_, g') := g.observe n
      if g' = g then advances g' ns else n :: advances g' ns

/-- The ranges that observing the ledgers returns. -/
def reports (g : GapTracker) (ns : List ℕ) : List LedgerRange := (g.observeAll ns).1

/-- The ledger lies in one of the ranges. -/
def Reported (g : GapTracker) (ns : List ℕ) (m : ℕ) : Prop := ∃ r ∈ reports g ns, r.Covers m

/-! ## One observation -/

section Anchored

variable {last n m : ℕ} {ns : List ℕ}

/-- An anchored tracker drops a ledger, takes the next one, or takes a later one and
    reports those between. -/
theorem observeAll_cases (last n : ℕ) (ns : List ℕ) :
    (n ≤ last
        ∧ reports ⟨some last⟩ (n :: ns) = reports ⟨some last⟩ ns
        ∧ advances ⟨some last⟩ (n :: ns) = advances ⟨some last⟩ ns)
      ∨ (n = last + 1
        ∧ reports ⟨some last⟩ (n :: ns) = reports ⟨some n⟩ ns
        ∧ advances ⟨some last⟩ (n :: ns) = n :: advances ⟨some n⟩ ns)
      ∨ (last + 1 < n
        ∧ reports ⟨some last⟩ (n :: ns) = ⟨last + 1, n - 1⟩ :: reports ⟨some n⟩ ns
        ∧ advances ⟨some last⟩ (n :: ns) = n :: advances ⟨some n⟩ ns) := by
  have hmoved : last < n → (⟨some n⟩ : GapTracker) ≠ ⟨some last⟩ := by
    intro h hsame
    have hn : n = last := Option.some.inj (congrArg GapTracker.last hsame)
    omega
  unfold reports
  rw [GapTracker.observeAll, advances]
  rcases GapTracker.observe_cases last n with ⟨h, ho⟩ | ⟨h, ho⟩ | ⟨h, ho⟩
  · rw [ho]
    exact Or.inl ⟨h, rfl, if_pos rfl⟩
  · rw [ho]
    exact Or.inr (Or.inl ⟨h, rfl, if_neg (hmoved (by omega))⟩)
  · rw [ho]
    exact Or.inr (Or.inr ⟨h, rfl, if_neg (hmoved (by omega))⟩)

/-! ## An anchored run -/

/-- What is reported lies above the anchor, in ranges that are not empty. -/
theorem reports_above {r : LedgerRange} (hr : r ∈ reports ⟨some last⟩ ns) :
    last < r.fromLedger ∧ r.fromLedger ≤ r.toLedger := by
  induction ns generalizing last with
  | nil => exact absurd hr List.not_mem_nil
  | cons n ns ih =>
      rcases observeAll_cases last n ns with ⟨h, hrep, -⟩ | ⟨h, hrep, -⟩ | ⟨h, hrep, -⟩
      · rw [hrep] at hr
        exact ih hr
      · rw [hrep] at hr
        obtain ⟨hlast, hne⟩ := ih hr
        exact ⟨by omega, hne⟩
      · rw [hrep] at hr
        rcases List.mem_cons.mp hr with rfl | hr
        · show last < last + 1 ∧ last + 1 ≤ n - 1
          omega
        · obtain ⟨hlast, hne⟩ := ih hr
          exact ⟨by omega, hne⟩

/-- The ranges come in increasing order, each beyond the one before. -/
theorem reports_increasing :
    (reports ⟨some last⟩ ns).Pairwise fun r r' => r.toLedger < r'.fromLedger := by
  induction ns generalizing last with
  | nil => exact List.Pairwise.nil
  | cons n ns ih =>
      rcases observeAll_cases last n ns with ⟨h, hrep, -⟩ | ⟨h, hrep, -⟩ | ⟨h, hrep, -⟩
      · rw [hrep]
        exact ih
      · rw [hrep]
        exact ih
      · rw [hrep]
        refine List.pairwise_cons.mpr ⟨?_, ih⟩
        intro r hr
        have hlast := (reports_above hr).1
        show n - 1 < r.fromLedger
        omega

/-- The tracker only advances upwards. -/
theorem advances_above (hm : m ∈ advances ⟨some last⟩ ns) : last < m := by
  induction ns generalizing last with
  | nil => exact absurd hm List.not_mem_nil
  | cons n ns ih =>
      rcases observeAll_cases last n ns with ⟨h, -, hadv⟩ | ⟨h, -, hadv⟩ | ⟨h, -, hadv⟩
      · rw [hadv] at hm
        exact ih hm
      · rw [hadv] at hm
        rcases List.mem_cons.mp hm with rfl | hm
        · omega
        · exact lt_trans (by omega) (ih hm)
      · rw [hadv] at hm
        rcases List.mem_cons.mp hm with rfl | hm
        · omega
        · exact lt_trans (by omega) (ih hm)

/-- Every ledger up to the highest observed is accounted for. -/
theorem advances_or_reported (hlast : last < m) (hhigh : ∃ n ∈ ns, m ≤ n) :
    m ∈ advances ⟨some last⟩ ns ∨ Reported ⟨some last⟩ ns m := by
  induction ns generalizing last with
  | nil =>
      obtain ⟨n, hn, -⟩ := hhigh
      exact absurd hn List.not_mem_nil
  | cons n ns ih =>
      -- beyond `n` the rest of the run accounts for it
      have hrest : n < m → ∃ k ∈ ns, m ≤ k := by
        intro hlt
        obtain ⟨k, hk, hmk⟩ := hhigh
        rcases List.mem_cons.mp hk with rfl | hk
        · omega
        · exact ⟨k, hk, hmk⟩
      unfold Reported
      rcases observeAll_cases last n ns with
        ⟨h, hrep, hadv⟩ | ⟨h, hrep, hadv⟩ | ⟨h, hrep, hadv⟩
      · rw [hrep, hadv]
        exact ih hlast (hrest (by omega))
      · rw [hrep, hadv]
        by_cases hmn : m = n
        · exact Or.inl (hmn ▸ List.mem_cons_self)
        · rcases ih (show n < m by omega) (hrest (by omega)) with hin | hin
          · exact Or.inl (List.mem_cons_of_mem n hin)
          · exact Or.inr hin
      · rw [hrep, hadv]
        by_cases hmn : m = n
        · exact Or.inl (hmn ▸ List.mem_cons_self)
        by_cases hgap : m < n
        · refine Or.inr ⟨⟨last + 1, n - 1⟩, List.mem_cons_self, ?_⟩
          show last + 1 ≤ m ∧ m ≤ n - 1
          omega
        · rcases ih (show n < m by omega) (hrest (by omega)) with hin | ⟨r, hr, hcov⟩
          · exact Or.inl (List.mem_cons_of_mem n hin)
          · exact Or.inr ⟨r, List.mem_cons_of_mem _ hr, hcov⟩

/-- No ledger both advances the tracker and is reported. -/
theorem not_advances_of_reported (hm : Reported ⟨some last⟩ ns m) :
    m ∉ advances ⟨some last⟩ ns := by
  induction ns generalizing last with
  | nil =>
      obtain ⟨r, hr, -⟩ := hm
      exact absurd hr List.not_mem_nil
  | cons n ns ih =>
      obtain ⟨r, hr, hcov⟩ := hm
      rcases observeAll_cases last n ns with
        ⟨h, hrep, hadv⟩ | ⟨h, hrep, hadv⟩ | ⟨h, hrep, hadv⟩
      · rw [hrep] at hr
        rw [hadv]
        exact ih ⟨r, hr, hcov⟩
      · rw [hrep] at hr
        rw [hadv]
        rintro hin
        rcases List.mem_cons.mp hin with rfl | hin
        · exact absurd hcov.1 (not_le.mpr (reports_above hr).1)
        · exact ih ⟨r, hr, hcov⟩ hin
      · rw [hrep] at hr
        rw [hadv]
        intro hin
        rcases List.mem_cons.mp hr with rfl | hr
        · have hle : m ≤ n - 1 := hcov.2
          rcases List.mem_cons.mp hin with rfl | hin
          · omega
          · have hlt := advances_above hin
            omega
        · rcases List.mem_cons.mp hin with rfl | hin
          · exact absurd hcov.1 (not_le.mpr (reports_above hr).1)
          · exact ih ⟨r, hr, hcov⟩ hin

end Anchored

/-! ## Every run -/

/-- The first ledger anchors a tracker without an anchor. -/
theorem observeAll_first (n : ℕ) (ns : List ℕ) :
    reports ⟨none⟩ (n :: ns) = reports ⟨some n⟩ ns
      ∧ advances ⟨none⟩ (n :: ns) = n :: advances ⟨some n⟩ ns := by
  refine ⟨rfl, ?_⟩
  have hmoved : (⟨some n⟩ : GapTracker) ≠ ⟨none⟩ := by
    intro h
    cases h
  show (if (⟨some n⟩ : GapTracker) = ⟨none⟩ then advances ⟨some n⟩ ns
    else n :: advances ⟨some n⟩ ns) = _
  exact if_neg hmoved

/-- The ranges of a run are those of its parts. -/
theorem observeAll_append (g : GapTracker) (ns ms : List ℕ) :
    reports g (ns ++ ms) = reports g ns ++ reports (g.observeAll ns).2 ms
      ∧ advances g (ns ++ ms) = advances g ns ++ advances (g.observeAll ns).2 ms := by
  refine ⟨congrArg Prod.fst (g.observeAll_append ns ms), ?_⟩
  induction ns generalizing g with
  | nil => rfl
  | cons n ns ih =>
      show (if (g.observe n).2 = g then advances (g.observe n).2 (ns ++ ms)
        else n :: advances (g.observe n).2 (ns ++ ms))
        = (if (g.observe n).2 = g then advances (g.observe n).2 ns
          else n :: advances (g.observe n).2 ns) ++ advances ((g.observe n).2.observeAll ns).2 ms
      rw [ih]
      by_cases hsame : (g.observe n).2 = g
      · rw [if_pos hsame, if_pos hsame]
      · rw [if_neg hsame, if_neg hsame]
        rfl

/-- What is reported does not advance the tracker. -/
theorem advances_not_reported {g : GapTracker} {ns : List ℕ} {m : ℕ} (hm : Reported g ns m) :
    m ∉ advances g ns := by
  obtain ⟨_ | last⟩ := g
  · cases ns with
    | nil =>
        obtain ⟨r, hr, -⟩ := hm
        exact absurd hr List.not_mem_nil
    | cons n ns =>
        obtain ⟨r, hr, hcov⟩ := hm
        rw [(observeAll_first n ns).1] at hr
        rw [(observeAll_first n ns).2]
        intro hin
        rcases List.mem_cons.mp hin with rfl | hin
        · exact absurd hcov.1 (not_le.mpr (reports_above hr).1)
        · exact not_advances_of_reported ⟨r, hr, hcov⟩ hin
  · exact not_advances_of_reported hm

/-- **THE REPORTS TILE**: whatever is observed, the returned ranges are not empty and
    come one beyond the other; a ledger above the anchor, or the first ledger, and up
    to the highest one either advanced the tracker or lies in exactly one of them;
    and none advances it that was reported before. -/
theorem gap_reports_tile (g : GapTracker) (ns : List ℕ) :
    (∀ r ∈ reports g ns, r.fromLedger ≤ r.toLedger)
      ∧ (reports g ns).Pairwise (fun r r' => r.toLedger < r'.fromLedger)
      ∧ (∀ anchor m, g.last.or ns.head? = some anchor → anchor < m → (∃ n ∈ ns, m ≤ n) →
          (m ∈ advances g ns ∧ ∀ r ∈ reports g ns, ¬ r.Covers m)
            ∨ (m ∉ advances g ns ∧ ∃! r, r ∈ reports g ns ∧ r.Covers m))
      ∧ ∀ before after m, ns = before ++ after → Reported g before m →
          m ∉ advances (g.observeAll before).2 after := by
  have hincreasing : (∀ r ∈ reports g ns, r.fromLedger ≤ r.toLedger)
      ∧ (reports g ns).Pairwise (fun r r' => r.toLedger < r'.fromLedger) := by
    obtain ⟨_ | last⟩ := g
    · cases ns with
      | nil => exact ⟨fun r hr => absurd hr List.not_mem_nil, List.Pairwise.nil⟩
      | cons n ns =>
          rw [(observeAll_first n ns).1]
          exact ⟨fun r hr => (reports_above hr).2, reports_increasing⟩
    · exact ⟨fun r hr => (reports_above hr).2, reports_increasing⟩
  refine ⟨hincreasing.1, hincreasing.2, ?_, ?_⟩
  · intro anchor m hanchor hlt hhigh
    have haccounted : m ∈ advances g ns ∨ Reported g ns m := by
      obtain ⟨_ | last⟩ := g
      · cases ns with
        | nil => cases hanchor
        | cons first ns =>
            cases hanchor
            have hrest : ∃ k ∈ ns, m ≤ k := by
              obtain ⟨k, hk, hmk⟩ := hhigh
              rcases List.mem_cons.mp hk with rfl | hk
              · omega
              · exact ⟨k, hk, hmk⟩
            unfold Reported
            rw [(observeAll_first _ ns).1, (observeAll_first _ ns).2]
            exact (advances_or_reported hlt hrest).imp_left (List.mem_cons_of_mem _)
      · cases hanchor
        exact advances_or_reported hlt hhigh
    rcases haccounted with hadv | hrep
    · refine Or.inl ⟨hadv, fun r hr hcov => ?_⟩
      exact advances_not_reported ⟨r, hr, hcov⟩ hadv
    · refine Or.inr ⟨advances_not_reported hrep, ?_⟩
      obtain ⟨r, hr, hcov⟩ := hrep
      refine ⟨r, ⟨hr, hcov⟩, ?_⟩
      rintro r' ⟨hr', hcov'⟩
      -- of two ranges around one ledger neither is beyond the other
      have hapart : ∀ a b : LedgerRange, a.toLedger < b.fromLedger → a.Covers m →
          ¬ b.Covers m := by
        intro a b h ha hb
        exact absurd (lt_of_le_of_lt ha.2 h) (not_lt.mpr hb.1)
      have hsame := List.Pairwise.forall_of_forall_of_flip
        (R := fun a b : LedgerRange => a.Covers m → b.Covers m → a = b) (fun _ _ _ _ => rfl)
        (hincreasing.2.imp fun h ha hb => absurd hb (hapart _ _ h ha))
        (hincreasing.2.imp fun h ha hb => absurd ha (hapart _ _ h hb))
      exact hsame hr' hr hcov' hcov
  · rintro before after m rfl hrep hin
    have hwhole : Reported g (before ++ after) m := by
      obtain ⟨r, hr, hcov⟩ := hrep
      refine ⟨r, ?_, hcov⟩
      rw [(observeAll_append g before after).1]
      exact List.mem_append_left _ hr
    refine advances_not_reported hwhole ?_
    rw [(observeAll_append g before after).2]
    exact List.mem_append_right _ hin

/-- Ledger 7 advances the tracker past 5 and 6, which then come too late. -/
theorem gap_reports_tile_late :
    5 ∉ advances ⟨some 4⟩ [7, 5, 6, 8] ∧ ∃! r, r ∈ reports ⟨some 4⟩ [7, 5, 6, 8] ∧ r.Covers 5 := by
  obtain ⟨-, -, htile, -⟩ := gap_reports_tile ⟨some 4⟩ [7, 5, 6, 8]
  rcases htile 4 5 rfl (by decide) ⟨7, by decide, by decide⟩ with ⟨hadv, -⟩ | htiled
  · exact absurd hadv (by decide)
  · exact htiled

end RegistrarGaps
