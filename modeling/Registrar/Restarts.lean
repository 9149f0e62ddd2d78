import Registrar.CoveredBalances
import Registrar.Station

/-! # Restarts

    A process that starts anchors the gap tracker at the highest ledger of `coverage` and
    `ledgers`, whoever wrote it; what the archive misses of a swept issuance at or below
    that ledger is never reported again.  Nothing is, where every process ends with the
    ledgers up to its successor's anchor passed. -/

namespace RegistrarRestarts

open KeyedTable Runs RegistrarMetadata RegistrarArchive RegistrarIngest RegistrarTail
open RegistrarBackfill RegistrarWritten RegistrarStation
open RegistrarProgress (Tail InRanges)
open RegistrarLinks (payXrpl payIssuance mintEntry payEntry)
open RegistrarCovered (payUpstream payUpstream_has payUpstream_sound paySite paySite_fresh payRow
  payJob sweepBegins)

/-! ## The anchor -/

/-- At the end of a process: what is missing of a swept issuance lies above the next
    anchor, and a tracker that starts there observes its ledger or reports it. -/
def AnchorSound (X : Xrpl) (U : Upstream) (s : Station) : Prop :=
  ∀ f ∈ s.finished, f.kind = .issuer → ∀ e, U.Has e → Touches X f.issuance e →
    f.fromLedger ≤ e.ledgerIndex → ¬ Stored X s.tail.db e →
    ∃ anchor, highWater s.tail.db = some anchor ∧ anchor < e.ledgerIndex
      ∧ ∀ ns reached, ((⟨some anchor⟩ : GapTracker).observeAll ns).2.last = some reached →
        e.ledgerIndex ≤ reached → e.ledgerIndex ∈ ns
          ∨ InRanges ((⟨some anchor⟩ : GapTracker).observeAll ns).1 e.ledgerIndex

/-- **NO LEDGER IS LOST**: in every run whose processes end with the ledgers up to the
    next anchor passed, the anchor is sound whenever one so ends. -/
theorem anchor_above_missing (X : Xrpl) (U : Upstream) (hU : U.Sound X) {s₀ s : Station}
    (hstart : Fresh s₀)
    (hrun : Steps (step X U)
      (fun s a => Assumed X U (fun db _ e => Stored X db e) s a ∧ Anchored s a) s₀ s)
    (hend : Anchored s .restart) : AnchorSound X U s := by
  have hI := Inv.of_steps hU (lasting_stored X U) hstart hrun
  intro f hf hkind e he htouch hfrom hmissing
  obtain ⟨anchor, hanchor, hpassed⟩ := hend f hf hkind
  have hlt : anchor < e.ledgerIndex := by
    by_contra hle
    have hle : e.ledgerIndex ≤ anchor := not_lt.mp hle
    exact hmissing (hI.passed hU (lasting_stored X U) hf hkind he htouch hfrom
      (hpassed e.ledgerIndex hle hfrom))
  refine ⟨anchor, hanchor, hlt, fun ns reached hreached hle => ?_⟩
  exact GapTracker.observed_or_reported hreached hlt hle

/-! ## The next process -/

/-- The ledgers that a process has shown to its tracker since a moment of it. -/
def Showed (t u : Tail) (ns : List ℕ) : Prop :=
  u.gaps = (t.gaps.observeAll ns).2 ∧ u.reports = t.reports ++ (t.gaps.observeAll ns).1

/-- A step within a process shows its tracker one ledger or none. -/
theorem showed_step {X : Xrpl} {U : Upstream} {s s' : Station} {a : Action} (ha : a ≠ .restart)
    (h : step X U s a = some s') : ∃ ns, Showed s.tail s'.tail ns := by
  have hnone : ∀ {t : Tail}, t.gaps = s.tail.gaps → t.reports = s.tail.reports →
      ∃ ns, Showed s.tail t ns := by
    intro t hgaps hreports
    exact ⟨[], hgaps, hreports.trans (List.append_nil _).symm⟩
  cases a with
  | site a =>
      obtain ⟨-, site, -, rfl⟩ := site_some h
      exact hnone rfl rfl
  | message account e msg =>
      obtain ⟨-, h⟩ := Option.ite_none_right_eq_some.mp h
      obtain ⟨tail, htail, rfl⟩ := Option.map_eq_some_iff.mp h
      obtain ⟨touched, -, htail⟩ := Option.bind_eq_some_iff.mp htail
      obtain ⟨-, htail⟩ := Option.ite_none_left_eq_some.mp htail
      cases Option.some.inj htail
      exact hnone rfl rfl
  | tail a =>
      obtain ⟨hof, h⟩ := Option.ite_none_right_eq_some.mp h
      obtain ⟨tail, htail, rfl⟩ := Option.map_eq_some_iff.mp h
      cases tailStep_of_step hof htail with
      | consume item queue hphase hqueue =>
          obtain ⟨hgaps, hreports, -, -⟩ := RegistrarProgress.consumeEvent_same X
            { s.tail with queue, phase := .idle } item
          exact hnone hgaps hreports
      | observe n hphase =>
          exact ⟨[n], rfl, (congrArg (s.tail.reports ++ ·) (List.append_nil _)).symm⟩
      | ledgerClosed n closeTime => exact hnone rfl rfl
      | fetched f res hf hev => exact hnone rfl rfl
      | fetchFailed f => exact hnone rfl rfl
      | healed gap hphase => exact hnone rfl rfl
      | healFailed gap hphase => exact hnone rfl rfl
  | mended iss range =>
      obtain ⟨-, h⟩ := Option.ite_none_right_eq_some.mp h
      cases Option.some.inj h
      exact hnone rfl rfl
  | restart => exact absurd rfl ha

theorem Showed.trans {t u v : Tail} {ns ms : List ℕ} (h : Showed t u ns) (h' : Showed u v ms) :
    Showed t v (ns ++ ms) := by
  unfold Showed
  rw [GapTracker.observeAll_append, ← h.1]
  refine ⟨h'.1, ?_⟩
  rw [h'.2, h.2, List.append_assoc]

/-- The run of a process, whatever it does. -/
abbrev Process (X : Xrpl) (U : Upstream) : Station → Station → Prop :=
  Steps (step X U) (fun _ a => a ≠ .restart)

/-- A process shows its tracker ledgers and reports what the tracker finds. -/
theorem showed_of_process {X : Xrpl} {U : Upstream} {t u : Station} (h : Process X U t u) :
    ∃ ns, Showed t.tail u.tail ns := by
  refine h.inv (fun u => ∃ ns, Showed t.tail u.tail ns) ?_ ?_
  · exact ⟨[], rfl, (List.append_nil _).symm⟩
  · rintro u a u' ⟨ns, hns⟩ ha hs
    obtain ⟨ms, hms⟩ := showed_step ha hs
    exact ⟨ns ++ ms, hns.trans hms⟩

/-- A process that starts misses nothing of what was swept before at or below its
    anchor, and what it misses it observes or reports once its tracker is there. -/
def LosesNothing (X : Xrpl) (U : Upstream) (t : Station) : Prop :=
  ∀ f ∈ t.finished, f.kind = .issuer → ∀ e, U.Has e → Touches X f.issuance e →
    f.fromLedger ≤ e.ledgerIndex →
      (∀ anchor, t.tail.gaps.last = some anchor → e.ledgerIndex ≤ anchor → Stored X t.tail.db e)
      ∧ (¬ Stored X t.tail.db e → ∀ u, Process X U t u → ∀ reached,
          u.tail.gaps.last = some reached → e.ledgerIndex ≤ reached →
            ∃ ns, Showed t.tail u.tail ns ∧ (e.ledgerIndex ∈ ns
              ∨ InRanges (t.tail.gaps.observeAll ns).1 e.ledgerIndex))

/-- **NO PROCESS LOSES A LEDGER** of its predecessors, where each ends with the ledgers up
    to the next anchor passed. -/
theorem restarts_lose_nothing (X : Xrpl) (U : Upstream) (hU : U.Sound X) {s₀ s t : Station}
    (hstart : Fresh s₀)
    (hrun : Steps (step X U)
      (fun s a => Assumed X U (fun db _ e => Stored X db e) s a ∧ Anchored s a) s₀ s)
    (hend : Anchored s .restart) (hrestart : step X U s .restart = some t) :
    LosesNothing X U t := by
  have hI := Inv.of_steps hU (lasting_stored X U) hstart hrun
  have hheld := hI.anchored hU (lasting_stored X U) hend
  cases Option.some.inj hrestart
  intro f hf hkind e he htouch hfrom
  obtain ⟨anchor, hanchor, -⟩ := hend f hf hkind
  have hanchor : highWater s.tail.db = some anchor := hanchor
  have hbelow : e.ledgerIndex ≤ anchor → Stored X s.tail.db e := by
    intro hle
    refine hheld f hf hkind e he htouch ⟨hfrom, ?_⟩
    rw [hanchor]
    exact hle
  refine ⟨fun anchor' hanchor' hle => ?_, fun hmissing u hu reached hreached hle => ?_⟩
  · cases hanchor.symm.trans hanchor'
    exact hbelow hle
  · obtain ⟨ns, hshowed⟩ := showed_of_process hu
    refine ⟨ns, hshowed, ?_⟩
    have habove : anchor < e.ledgerIndex := not_le.mp fun hle => hmissing (hbelow hle)
    show _ ∨ InRanges ((⟨highWater s.tail.db⟩ : GapTracker).observeAll ns).1 _
    rw [hshowed.1] at hreached
    have hreached : ((⟨highWater s.tail.db⟩ : GapTracker).observeAll ns).2.last
        = some reached := hreached
    rw [hanchor] at hreached ⊢
    exact GapTracker.observed_or_reported hreached habove hle

/-! ## A payment in the next ledger -/

instance (X : Xrpl) (iss : TrackedIssuance) (e : BinaryTxEntry) : Decidable (Touches X iss e) :=
  inferInstanceAs (Decidable (∃ m ∈ decodeMeta X e.metaBlob, holdersInMeta m [iss] ≠ []))

/-- Upstream has two transactions. -/
theorem held_pay {R : Storage} {db : Archive} {iss : TrackedIssuance} {range : LedgerRange} :
    (∀ e ∈ [mintEntry, payEntry], Touches payXrpl iss e → range.Covers e.ledgerIndex →
      R db iss e) ↔ Held payXrpl payUpstream R db iss range := by
  constructor
  · intro h e he
    refine h e ?_
    rcases payUpstream_has he with rfl | rfl
    · exact List.mem_cons_self
    · exact List.mem_cons_of_mem _ (List.mem_singleton_self _)
  · intro h e he
    exact h e ⟨"rIssuer", he⟩

instance {R : Storage} [∀ db iss e, Decidable (R db iss e)] (db : Archive)
    (iss : TrackedIssuance) (range : LedgerRange) :
    Decidable (Held payXrpl payUpstream R db iss range) :=
  decidable_of_iff _ held_pay

instance (db : Archive) (iss : TrackedIssuance) (e : BinaryTxEntry) :
    Decidable (StoredFor payXrpl db iss e) :=
  inferInstanceAs (Decidable (Stored payXrpl db e ∧ ∀ r ∈ entryDeltas payXrpl [iss] e,
    r ∈ db.balanceDeltas))

/-- A server before its first job. -/
def payStation : Station where
  tail := { db := paySite.db }
  validated := 300
  since := fun _ => 0

theorem payStation_fresh : Fresh payStation where
  site := paySite_fresh
  tail := ⟨by decide, rfl, rfl, rfl, rfl, rfl⟩
  since := nofun
  mended := rfl
  starts := rfl

/-- The sweep ends at the mint, whose ledger the tail then takes; a process later the
    payment has not come. -/
def payRun : List Action :=
  sweepBegins.map .site ++
    [.site (.read (RegistrarScans.Scan.begin .issuer payIssuance payJob) []
      ⟨[mintEntry], none, ⟨"clio", "now"⟩⟩ 200),
    .tail (.ledgerClosed 200 (some 0)), .tail .consume, .tail .observe, .restart]

/-- The payment is missing and above the anchor: the tail will observe or report it. -/
theorem anchor_above_missing_pay : ∃ s : Station, ¬ Stored payXrpl s.tail.db payEntry
    ∧ highWater s.tail.db = some 200 ∧ s.finished.length = 1
    ∧ AnchorSound payXrpl payUpstream s := by
  have hrun : (runChecked (step payXrpl payUpstream) (fun s a => Assumed payXrpl payUpstream
      (fun db _ e => Stored payXrpl db e) s a ∧ Anchored s a) payStation payRun).map
      (fun s => decide (¬ Stored payXrpl s.tail.db payEntry ∧ highWater s.tail.db = some 200
        ∧ s.finished.length = 1 ∧ Anchored s .restart)) = some true := by
    decide +kernel
  obtain ⟨s, hsteps, hend⟩ := Steps.exists_of_runChecked _ hrun
  obtain ⟨hmissing, hhigh, hlength, hanchored⟩ := of_decide_eq_true hend
  exact ⟨s, hmissing, hhigh, hlength,
    anchor_above_missing payXrpl payUpstream payUpstream_sound payStation_fresh hsteps hanchored⟩

/-- The next process starts at the mint, and the payment will not escape it. -/
theorem restarts_lose_nothing_pay : ∃ t : Station, ¬ Stored payXrpl t.tail.db payEntry
    ∧ t.tail.gaps.last = some 200 ∧ t.finished.length = 1
    ∧ LosesNothing payXrpl payUpstream t := by
  have hrun : (runChecked (step payXrpl payUpstream) (fun s a => Assumed payXrpl payUpstream
      (fun db _ e => Stored payXrpl db e) s a ∧ Anchored s a) payStation payRun).map
      (fun s => decide (¬ Stored payXrpl s.tail.db payEntry ∧ highWater s.tail.db = some 200
        ∧ s.finished.length = 1 ∧ Anchored s .restart)) = some true := by
    decide +kernel
  obtain ⟨s, hsteps, hend⟩ := Steps.exists_of_runChecked _ hrun
  obtain ⟨hmissing, hhigh, hlength, hanchored⟩ := of_decide_eq_true hend
  have hlost := restarts_lose_nothing payXrpl payUpstream payUpstream_sound payStation_fresh
    hsteps hanchored rfl
  refine ⟨_, ?_, ?_, ?_, hlost⟩
  · exact hmissing
  · exact hhigh
  · exact hlength

/-- The payment's ledger is skipped, the heal throws, and the process ends. -/
def failedHealRun : List Action :=
  sweepBegins.map .site ++
    [.site (.read (RegistrarScans.Scan.begin .issuer payIssuance payJob) []
      ⟨[mintEntry], none, ⟨"clio", "now"⟩⟩ 200),
    .tail (.ledgerClosed 200 (some 0)), .tail .consume, .tail .observe,
    .tail (.ledgerClosed 202 (some 9)), .tail .consume, .tail .observe, .tail .healFailed,
    .restart]

/-- The ledger that revealed the gap is recorded: the next process starts above the
    payment, which nobody will report. -/
theorem failed_heal_loses_ledger : ∃ t : Station,
    Steps (step payXrpl payUpstream)
      (Assumed payXrpl payUpstream (fun db _ e => Stored payXrpl db e)) payStation t
    ∧ t.starts.length = 1 ∧ t.tail.queue = [] ∧ ¬ LosesNothing payXrpl payUpstream t := by
  have hrun : (runChecked (step payXrpl payUpstream) (Assumed payXrpl payUpstream
      (fun db _ e => Stored payXrpl db e)) payStation failedHealRun).map
      (fun t => decide (t.starts.length = 1 ∧ t.tail.queue = []
        ∧ t.tail.gaps.last = some 202 ∧ ¬ Stored payXrpl t.tail.db payEntry
        ∧ ∃ f ∈ t.finished, f.kind = .issuer ∧ Touches payXrpl f.issuance payEntry
          ∧ f.fromLedger ≤ payEntry.ledgerIndex)) = some true := by
    decide +kernel
  obtain ⟨t, hsteps, hend⟩ := Steps.exists_of_runChecked _ hrun
  obtain ⟨hstarts, hqueue, hanchor, hmissing, f, hf, hkind, htouch, hfrom⟩ :=
    of_decide_eq_true hend
  refine ⟨t, hsteps, hstarts, hqueue, fun hall => hmissing ?_⟩
  exact (hall f hf hkind payEntry ⟨"rIssuer", by decide⟩ htouch hfrom).1 202 hanchor (by decide)

end RegistrarRestarts
