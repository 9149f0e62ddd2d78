import Registrar.Library.WorkPool
import Registrar.Restarts

/-! # Heals

    `backfillGap` sweeps the issuers of a range, some of them at a time, page by page
    and while every other writer goes on.  `Server` is a station with the heals under
    way in it: those of the tail, which waits for them, and those after a sweep.  A heal
    that returns has stored its range for every issuance that was tracked when it
    began, so the station's assumptions about heals are met. -/

namespace RegistrarHeals

open Runs WorkPool RegistrarMetadata RegistrarArchive RegistrarIngest RegistrarBackfill
open RegistrarReads RegistrarTail RegistrarWritten RegistrarPages RegistrarStation
open RegistrarDiscovery (registered registered_eq)
open RegistrarProgress (Tail ledgersOf)
open RegistrarLinks (payXrpl payIssuance mintEntry payEntry)
open RegistrarCovered (payUpstream payUpstream_sound payRow)
open RegistrarRestarts (payStation payStation_fresh)

/-! ## Sweeps and heals -/

/-- The sweep of one issuer: where it reads on, and the page it has mapped and not yet
    written, with the issuances tracked when it was mapped. -/
structure Sweep where
  cursor : Option String := none
  page : Option (List TrackedIssuance × BackfillPage) := none

/-- `HEAL_CONCURRENCY`. -/
def healConcurrency : ℕ := 4

/-- A call of `backfillGap`, by `healPostBackfill` for an issuance or by the tail for a
    gap; `outset` is tracked when it begins.  It is settled once it has thrown, and its
    other sweeps go on. -/
structure Heal where
  issuance : Option TrackedIssuance
  issuers : List String
  range : LedgerRange
  outset : List TrackedIssuance
  pool : Pool Sweep
  settled : Bool := false

/-- Each sweep begins at the start of the range. -/
def Heal.begin (issuance : Option TrackedIssuance) (issuers : List String) (range : LedgerRange)
    (outset : List TrackedIssuance) : Heal where
  issuance := issuance
  issuers := issuers
  range := range
  outset := outset
  pool := start issuers.length healConcurrency (fun _ => {})

/-- How the server goes on when the heal returns. -/
def Heal.returns (h : Heal) : RegistrarStation.Action :=
  match h.issuance with
  | none => .tail .healed
  | some iss => .mended iss h.range

/-- A server and its heals. -/
structure Server where
  station : Station
  heals : List Heal := []

def Server.tracked (s : Server) : List TrackedIssuance := s.station.tail.tracked

def Server.db (s : Server) : Archive := s.station.tail.db

inductive Action
  | station (a : RegistrarStation.Action)
  -- the tail calls `onGap`
  | healGap
  | healPostBackfill (iss : TrackedIssuance) (highWater : ℕ)
  -- the next page of a heal's worker is read and mapped
  | arrive (h k : ℕ) (page : BackfillPage) (validated : ℕ)
  -- the transaction of that page
  | commit (h k : ℕ)
  | throw (h k : ℕ)
  | returned (h : ℕ)
  | rejected (h : ℕ)
  | restart

/-- The steps of the station that are not those of a heal. -/
def OfStation : RegistrarStation.Action → Prop
  | .tail .healed => False
  | .tail .healFailed => False
  | .mended .. => False
  | .site (.heal ..) => False
  | .restart => False
  | _ => True

instance : (a : RegistrarStation.Action) → Decidable (OfStation a)
  | .tail .healed | .tail .healFailed | .mended .. | .site (.heal ..) | .restart =>
      instDecidableFalse
  | .tail (.ledgerClosed ..) | .tail (.transaction ..) | .tail (.fetched ..)
  | .tail (.fetchFailed _) | .tail .consume | .tail .observe | .tail (.write _)
  | .tail (.lookUp _) | .tail (.register _) | .tail .refreshTracked | .tail .restart
  | .site (.close _) | .site (.register _) | .site (.insertAccount _) | .site (.enqueue ..)
  | .site (.reclaimStale _) | .site (.record _) | .site .refreshTracked
  | .site (.recordLedger _) | .site (.begin ..) | .site (.read ..) | .site (.fail _)
  | .site (.event ..) | .site .restart | .message .. => instDecidableTrue

/-- The tail awaits the heal. -/
def Heal.Awaited (h : Heal) : Prop := h.issuance = none ∧ h.settled = false

instance (h : Heal) : Decidable h.Awaited := inferInstanceAs (Decidable (_ ∧ _))

/-- `account_tx` answers with the page, of ledgers that are validated. -/
def CanArrive (U : Upstream) (h : Heal) (i : ℕ) (cursor : Option String) (page : BackfillPage)
    (validated : ℕ) : Prop :=
  h.range.toLedger ≤ validated
    ∧ ∀ issuer ∈ h.issuers[i]?, Answers U validated issuer h.range cursor page

instance (U : Upstream) (h : Heal) (i : ℕ) (cursor : Option String) (page : BackfillPage)
    (validated : ℕ) : Decidable (CanArrive U h i cursor page validated) :=
  inferInstanceAs (Decidable (_ ∧ _))

/-- The worker after its page is written: on to the next, or done with the issuer. -/
def Heal.written (h : Heal) (k : ℕ) (page : BackfillPage) : Option (Pool Sweep) :=
  match page.marker with
  | none => h.pool.finish h.issuers.length (fun _ => {}) k
  | some marker => h.pool.work k { cursor := some marker }

def step (X : Xrpl) (U : Upstream) (s : Server) : Action → Option Server
  | .station a =>
      if OfStation a then
        (RegistrarStation.step X U s.station a).map fun station => { s with station }
      else none
  | .healGap =>
      match s.station.tail.phase with
      | .healing gap =>
          if ∃ h ∈ s.heals, h.Awaited then none
          else
            match issuerAddresses X s.tracked with
            | some issuers =>
                some { s with heals := s.heals ++ [Heal.begin none issuers gap s.tracked] }
            | none =>
                (RegistrarStation.step X U s.station (.tail .healFailed)).map
                  fun station => { s with station }
      | _ => none
  | .healPostBackfill iss highWater =>
      let current := (tailHighWater s.db).getD 0
      if iss ∈ s.tracked ∧ highWater < current then
        ((trackedIssuerOf X iss).filter (fun issuer => decide (issuer ≠ ""))).map fun issuer =>
          { s with heals :=
              s.heals ++ [Heal.begin (some iss) [issuer] ⟨highWater, current⟩ s.tracked] }
      else none
  | .arrive h k page validated =>
      s.heals[h]?.bind fun heal =>
        match heal.pool.workers[k]? with
        | some (.busy i ⟨cursor, none⟩) =>
            if CanArrive U heal i cursor page validated then
              (heal.pool.work k ⟨cursor, some (s.tracked, page)⟩).map fun pool =>
                { s with heals := s.heals.set h { heal with pool } }
            else none
        | _ => none
  | .commit h k =>
      s.heals[h]?.bind fun heal =>
        match heal.pool.workers[k]? with
        | some (.busy i ⟨_, some (seen, page)⟩) =>
            heal.issuers[i]?.bind fun issuer =>
              (RegistrarStation.step X U s.station (.site (.heal seen issuer page))).bind
                fun station => (heal.written k page).map fun pool =>
                  ⟨station, s.heals.set h { heal with pool }⟩
        | _ => none
  | .throw h k =>
      s.heals[h]?.bind fun heal =>
        (heal.pool.fail k).map fun pool => { s with heals := s.heals.set h { heal with pool } }
  | .returned h =>
      s.heals[h]?.bind fun heal =>
        if heal.pool.Resolved ∧ heal.settled = false then
          (RegistrarStation.step X U s.station heal.returns).map fun station =>
            ⟨station, s.heals.eraseIdx h⟩
        else none
  | .rejected h =>
      s.heals[h]?.bind fun heal =>
        if heal.pool.Rejected ∧ heal.settled = false then
          let heals := s.heals.set h { heal with settled := true }
          match heal.issuance with
          | none =>
              (RegistrarStation.step X U s.station (.tail .healFailed)).map
                fun station => ⟨station, heals⟩
          | some _ => some { s with heals }
        else none
  | .restart =>
      (RegistrarStation.step X U s.station .restart).map fun station => ⟨station, []⟩

/-! ## What a step does -/

section Steps

variable {X : Xrpl} {U : Upstream} {s s' : Server}

theorem arrive_some {n k validated : ℕ} {page : BackfillPage}
    (h : step X U s (.arrive n k page validated) = some s') :
    ∃ heal i cursor pool, s.heals[n]? = some heal
      ∧ heal.pool.workers[k]? = some (.busy i ⟨cursor, none⟩)
      ∧ CanArrive U heal i cursor page validated
      ∧ heal.pool.work k ⟨cursor, some (s.tracked, page)⟩ = some pool
      ∧ s' = { s with heals := s.heals.set n { heal with pool } } := by
  obtain ⟨heal, hheal, h⟩ := Option.bind_eq_some_iff.mp h
  cases hw : heal.pool.workers[k]? with
  | none =>
      simp only [hw] at h
      cases h
  | some w =>
      rcases w with ⟨i, cursor, _ | ⟨seen, page'⟩⟩ | _ | i
      · simp only [hw] at h
        obtain ⟨hcan, h⟩ := Option.ite_none_right_eq_some.mp h
        obtain ⟨pool, hpool, rfl⟩ := Option.map_eq_some_iff.mp h
        exact ⟨heal, i, cursor, pool, hheal, hw, hcan, hpool, rfl⟩
      all_goals
        simp only [hw] at h
        cases h

theorem commit_some {n k : ℕ} (h : step X U s (.commit n k) = some s') :
    ∃ heal i cursor seen page issuer station pool, s.heals[n]? = some heal
      ∧ heal.pool.workers[k]? = some (.busy i ⟨cursor, some (seen, page)⟩)
      ∧ heal.issuers[i]? = some issuer
      ∧ RegistrarStation.step X U s.station (.site (.heal seen issuer page)) = some station
      ∧ heal.written k page = some pool
      ∧ s' = ⟨station, s.heals.set n { heal with pool }⟩ := by
  obtain ⟨heal, hheal, h⟩ := Option.bind_eq_some_iff.mp h
  cases hw : heal.pool.workers[k]? with
  | none =>
      simp only [hw] at h
      cases h
  | some w =>
      rcases w with ⟨i, cursor, _ | ⟨seen, page⟩⟩ | _ | i
      case busy.some =>
        simp only [hw] at h
        obtain ⟨issuer, hissuer, h⟩ := Option.bind_eq_some_iff.mp h
        obtain ⟨station, hstation, h⟩ := Option.bind_eq_some_iff.mp h
        obtain ⟨pool, hpool, rfl⟩ := Option.map_eq_some_iff.mp h
        exact ⟨heal, i, cursor, seen, page, issuer, station, pool, hheal, hw, hissuer, hstation,
          hpool, rfl⟩
      all_goals
        simp only [hw] at h
        cases h

theorem rejected_some {n : ℕ} (h : step X U s (.rejected n) = some s') :
    ∃ heal, s.heals[n]? = some heal ∧ heal.settled = false
      ∧ (heal.issuance = none ∧ (∃ t, RegistrarStation.step X U s.station (.tail .healFailed)
          = some t ∧ s' = ⟨t, s.heals.set n { heal with settled := true }⟩)
        ∨ heal.issuance ≠ none
          ∧ s' = { s with heals := s.heals.set n { heal with settled := true } }) := by
  obtain ⟨heal, hheal, h⟩ := Option.bind_eq_some_iff.mp h
  obtain ⟨⟨-, hopen⟩, h⟩ := Option.ite_none_right_eq_some.mp h
  refine ⟨heal, hheal, hopen, ?_⟩
  split at h
  · rename_i hnone
    obtain ⟨t, ht, rfl⟩ := Option.map_eq_some_iff.mp h
    exact Or.inl ⟨hnone, t, ht, rfl⟩
  · rename_i iss hsome
    exact Or.inr ⟨by rw [hsome]; simp, (Option.some.inj h).symm⟩

theorem restart_some (h : step X U s .restart = some s') :
    ∃ t, RegistrarStation.step X U s.station .restart = some t ∧ s' = ⟨t, []⟩ := by
  have h : (RegistrarStation.step X U s.station .restart).map
      (fun station => (⟨station, []⟩ : Server)) = some s' := h
  obtain ⟨t, ht, rfl⟩ := Option.map_eq_some_iff.mp h
  exact ⟨t, ht, rfl⟩

end Steps

/-! ## What the station keeps -/

/-- What is watched goes on to be, and what is watched anew is so from the ledgers to
    arrive. -/
structure Onward (t t' : Station) : Prop where
  tracked : ∀ iss ∈ t.tail.tracked, iss ∈ t'.tail.tracked
  since : ∀ iss ∈ t.tail.tracked, t.since iss ≤ t'.since iss
  fresh : ∀ iss ∈ t'.tail.tracked, iss ∉ t.tail.tracked →
    (arrived t.tail).getD 0 ≤ t'.since iss

theorem Onward.of_same {t t' : Station} (htracked : t'.tail.tracked = t.tail.tracked)
    (hsince : ∀ iss, t.since iss ≤ t'.since iss) : Onward t t' where
  tracked := fun _ hiss => htracked ▸ hiss
  since := fun iss _ => hsince iss
  fresh := fun _ hiss hno => absurd (htracked ▸ hiss) hno

/-- A gap being healed lies below the tracker. -/
def Revealed (t : Station) : Prop :=
  ∀ gap, t.tail.phase = .healing gap → ∃ last, t.tail.gaps.last = some last ∧ gap.toLedger < last

section Station

variable {X : Xrpl} {U : Upstream} {R : Storage} {t t' : Station}

/-- Every step but a restart goes on. -/
theorem onward_step (hI : Inv X U R t) {a : RegistrarStation.Action}
    (ha : a ≠ .restart) (h : RegistrarStation.step X U t a = some t') : Onward t t' := by
  cases a with
  | site a =>
      obtain ⟨hof, site, hsite, rfl⟩ := site_some h
      refine ⟨fun iss hiss => ?_, fun iss hiss => ?_, fun iss _ hno => ?_⟩
      · show iss ∈ site.tracked
        rcases (site_beside hof hsite).1 with hsame | ⟨-, hall⟩
        · rw [hsame]
          exact hiss
        · rw [hall]
          exact hI.site.tracked iss hiss
      · exact (if_pos hiss).ge
      · exact (if_neg hno).ge
  | message account e msg =>
      obtain ⟨-, h⟩ := Option.ite_none_right_eq_some.mp h
      obtain ⟨tail, htail, rfl⟩ := Option.map_eq_some_iff.mp h
      obtain ⟨touched, -, htail⟩ := Option.bind_eq_some_iff.mp htail
      obtain ⟨-, htail⟩ := Option.ite_none_left_eq_some.mp htail
      cases Option.some.inj htail
      exact .of_same rfl (fun _ => le_rfl)
  | tail a =>
      obtain ⟨hof, h⟩ := Option.ite_none_right_eq_some.mp h
      obtain ⟨tail, htail, rfl⟩ := Option.map_eq_some_iff.mp h
      cases tailStep_of_step hof htail with
      | ledgerClosed n closeTime => exact .of_same rfl (le_sinceAfter t n closeTime)
      | consume item queue hphase hqueue =>
          refine .of_same ?_ (fun _ => le_rfl)
          cases item with
          | ledger n closeTime => rfl
          | transaction ev =>
              show (RegistrarProgress.consumeEvent X _ _).tracked = _
              cases hingest : ingestEvent X t.tail.tracked ev t.tail.db with
              | ok db => simp only [RegistrarProgress.consumeEvent, hingest]
              | error err => simp only [RegistrarProgress.consumeEvent, hingest]
      | fetched f res hf hev => exact .of_same rfl (fun _ => le_rfl)
      | fetchFailed f => exact .of_same rfl (fun _ => le_rfl)
      | observe n hphase => exact .of_same rfl (fun _ => le_rfl)
      | healed gap hphase => exact .of_same rfl (fun _ => le_rfl)
      | healFailed gap hphase => exact .of_same rfl (fun _ => le_rfl)
  | mended iss range =>
      obtain ⟨-, h⟩ := Option.ite_none_right_eq_some.mp h
      cases Option.some.inj h
      exact .of_same rfl (fun _ => le_rfl)
  | restart => exact absurd rfl ha

/-- While the tail awaits a heal, its loop stands still. -/
theorem healing_kept {a : RegistrarStation.Action} (ha : a ≠ .restart)
    (hhealed : a ≠ .tail .healed) (hfailed : a ≠ .tail .healFailed)
    (h : RegistrarStation.step X U t a = some t') {gap : LedgerRange}
    (hphase : t.tail.phase = .healing gap) :
    t'.tail.phase = .healing gap ∧ t'.tail.gaps = t.tail.gaps := by
  cases a with
  | site a =>
      obtain ⟨-, site, -, rfl⟩ := site_some h
      exact ⟨hphase, rfl⟩
  | message account e msg =>
      obtain ⟨-, h⟩ := Option.ite_none_right_eq_some.mp h
      obtain ⟨tail, htail, rfl⟩ := Option.map_eq_some_iff.mp h
      obtain ⟨touched, -, htail⟩ := Option.bind_eq_some_iff.mp htail
      obtain ⟨-, htail⟩ := Option.ite_none_left_eq_some.mp htail
      cases Option.some.inj htail
      exact ⟨hphase, rfl⟩
  | tail a =>
      obtain ⟨hof, h⟩ := Option.ite_none_right_eq_some.mp h
      obtain ⟨tail, htail, rfl⟩ := Option.map_eq_some_iff.mp h
      cases tailStep_of_step hof htail with
      | ledgerClosed n closeTime => exact ⟨hphase, rfl⟩
      | fetched f res hf hev => exact ⟨hphase, rfl⟩
      | fetchFailed f => exact ⟨hphase, rfl⟩
      | consume item queue hidle hqueue => exact nomatch hidle.symm.trans hphase
      | observe n hobserving => exact nomatch hobserving.symm.trans hphase
      | healed gap hphase => exact absurd rfl hhealed
      | healFailed gap hphase => exact absurd rfl hfailed
  | mended iss range =>
      obtain ⟨-, h⟩ := Option.ite_none_right_eq_some.mp h
      cases Option.some.inj h
      exact ⟨hphase, rfl⟩
  | restart => exact absurd rfl ha

/-- A gap that is healed lies below the ledger that revealed it. -/
theorem Revealed.observe {gaps : GapTracker} {n : ℕ} {gap : LedgerRange}
    (h : RegistrarProgress.phaseAfter (gaps.observe n).1 = .healing gap) :
    ∃ last, (gaps.observe n).2.last = some last ∧ gap.toLedger < last := by
  cases hgaps : gaps.last with
  | none =>
      unfold GapTracker.observe at h
      rw [hgaps] at h
      cases h
  | some last =>
      have hanchored : gaps = ⟨some last⟩ := congrArg GapTracker.mk hgaps
      rw [hanchored] at h ⊢
      rcases GapTracker.observe_cases last n with ⟨-, ho⟩ | ⟨-, ho⟩ | ⟨hlt, ho⟩
      · rw [ho] at h
        cases h
      · rw [ho] at h
        cases h
      · rw [ho] at h ⊢
        cases h
        exact ⟨n, rfl, by show n - 1 < n; omega⟩

theorem Revealed.step (hr : Revealed t) {a : RegistrarStation.Action}
    (h : RegistrarStation.step X U t a = some t') : Revealed t' := by
  intro gap hphase
  cases a with
  | site a =>
      obtain ⟨-, site, -, rfl⟩ := site_some h
      exact hr gap hphase
  | message account e msg =>
      obtain ⟨-, h⟩ := Option.ite_none_right_eq_some.mp h
      obtain ⟨tail, htail, rfl⟩ := Option.map_eq_some_iff.mp h
      obtain ⟨touched, -, htail⟩ := Option.bind_eq_some_iff.mp htail
      obtain ⟨-, htail⟩ := Option.ite_none_left_eq_some.mp htail
      cases Option.some.inj htail
      exact hr gap hphase
  | tail a =>
      obtain ⟨hof, h⟩ := Option.ite_none_right_eq_some.mp h
      obtain ⟨tail, htail, rfl⟩ := Option.map_eq_some_iff.mp h
      have hphase : tail.phase = .healing gap := hphase
      show ∃ last, tail.gaps.last = some last ∧ gap.toLedger < last
      cases tailStep_of_step hof htail with
      | ledgerClosed n closeTime => exact hr gap hphase
      | fetched f res hf hev => exact hr gap hphase
      | fetchFailed f => exact hr gap hphase
      | consume item queue hidle hqueue =>
          cases item with
          | ledger n closeTime => cases hphase
          | transaction ev =>
              cases hingest : ingestEvent X t.tail.tracked ev t.tail.db with
              | ok db =>
                  simp only [RegistrarProgress.consumeEvent, hingest] at hphase
                  cases hphase
              | error err =>
                  simp only [RegistrarProgress.consumeEvent, hingest] at hphase
                  cases hphase
      | observe n hobserving => exact Revealed.observe hphase
      | healed gap' hphase' => cases hphase
      | healFailed gap' hphase' => cases hphase
  | mended iss range =>
      obtain ⟨-, h⟩ := Option.ite_none_right_eq_some.mp h
      cases Option.some.inj h
      exact hr gap hphase
  | restart =>
      cases Option.some.inj h
      cases hphase

end Station

/-! ## The invariant -/

section Invariant

variable (X : Xrpl) (U : Upstream)

/-- What the account lists in the range, among what `p` admits, is stored for the
    issuances. -/
def StoredIn (db : Archive) (h : Heal) (issuer : String) (p : BinaryTxEntry → Prop) : Prop :=
  ∀ iss ∈ h.outset, ∀ e ∈ U.accountTx issuer, h.range.Covers e.ledgerIndex → p e →
    Touches X iss e → StoredFor X db iss e

/-- What lies before the cursor is stored, and the page goes on from there. -/
structure SweepOk (db : Archive) (h : Heal) (i : ℕ) (sw : Sweep) : Prop where
  read : ∀ issuer ∈ h.issuers[i]?, StoredIn X U db h issuer (U.Passed sw.cursor)
  page : ∀ seen page, sw.page = some (seen, page) → (∀ iss ∈ h.outset, iss ∈ seen)
    ∧ ∃ validated, CanArrive U h i sw.cursor page validated

/-- All the issuer lists in the range is stored. -/
def SweepDone (db : Archive) (h : Heal) (i : ℕ) : Prop :=
  ∀ issuer ∈ h.issuers[i]?, StoredIn X U db h issuer (fun _ => True)

/-- The heal of a station. -/
structure HealOk (t : Station) (h : Heal) : Prop where
  tracked : ∀ iss ∈ h.outset, iss ∈ t.tail.tracked
  workers : h.pool.workers.length = max 1 (min healConcurrency h.issuers.length)
  pool : h.pool.Ok h.issuers.length
  sweeps : h.pool.Holds (SweepOk X U t.tail.db h) (SweepDone X U t.tail.db h)
  /-- The tail sweeps the issuers of what is tracked, `healPostBackfill` that of its own. -/
  tail : h.issuance = none → issuerAddresses X h.outset = some h.issuers
    ∧ ∀ iss ∈ h.outset, NamesIssuer iss
  mend : ∀ iss, h.issuance = some iss → iss ∈ h.outset ∧ ∃ issuer,
    trackedIssuerOf X iss = some issuer ∧ h.issuers = [issuer]
  /-- What is tracked since is watched from beyond the gap on. -/
  awaited : h.Awaited → t.tail.phase = .healing h.range
    ∧ ∀ iss ∈ t.tail.tracked, iss ∉ h.outset → h.range.toLedger ≤ t.since iss

structure Inv (s : Server) : Prop where
  station : RegistrarStation.Inv X U anyStorage s.station
  revealed : Revealed s.station
  heals : ∀ h ∈ s.heals, HealOk X U s.station h
  /-- The tail awaits one heal at a time. -/
  one : s.heals.countP (·.Awaited) ≤ 1

end Invariant

section Invariant

variable {X : Xrpl} {U : Upstream} {s s' : Server} {t t' : Station} {h : Heal}

theorem StoredIn.lasts {db db' : Archive} (hlasts : Lasts X U db db')
    (hout : ∀ iss ∈ h.outset, iss ∈ registered db) {issuer : String} {p : BinaryTxEntry → Prop}
    (hst : StoredIn X U db h issuer p) : StoredIn X U db' h issuer p :=
  fun iss hiss e he hcovers hp htouch =>
    hlasts.storedFor iss (hout iss hiss) e ⟨issuer, he⟩ (hst iss hiss e he hcovers hp htouch)

theorem SweepOk.lasts {db db' : Archive} (hlasts : Lasts X U db db')
    (hout : ∀ iss ∈ h.outset, iss ∈ registered db) {i : ℕ} {sw : Sweep}
    (hok : SweepOk X U db h i sw) : SweepOk X U db' h i sw :=
  ⟨fun issuer hissuer => (hok.read issuer hissuer).lasts hlasts hout, hok.page⟩

/-- A step of the station is none of the heal's, and the heal goes on. -/
theorem HealOk.onward (hok : HealOk X U t h) (hsite : RegistrarStation.Inv X U anyStorage t)
    (hrevealed : Revealed t) (hlasts : Lasts X U t.tail.db t'.tail.db) (honward : Onward t t')
    (hphase : h.Awaited → t'.tail.phase = t.tail.phase) : HealOk X U t' h where
  tracked := fun iss hiss => honward.tracked iss (hok.tracked iss hiss)
  workers := hok.workers
  pool := hok.pool
  sweeps := by
    have hout : ∀ iss ∈ h.outset, iss ∈ registered t.tail.db :=
      fun iss hiss => hsite.site.tracked iss (hok.tracked iss hiss)
    exact hok.sweeps.mono (fun i sw hsw => hsw.lasts hlasts hout)
      (fun i hi issuer hissuer => (hi issuer hissuer).lasts hlasts hout)
  tail := hok.tail
  mend := hok.mend
  awaited := by
    intro hawaited
    obtain ⟨hhealing, hsince⟩ := hok.awaited hawaited
    refine ⟨(hphase hawaited).trans hhealing, fun iss hiss hout => ?_⟩
    by_cases hold : iss ∈ t.tail.tracked
    · exact (hsince iss hold hout).trans (honward.since iss hold)
    · -- what has arrived is not behind the tracker
      obtain ⟨last, hlast, hlt⟩ := hrevealed h.range hhealing
      have htracker : t.tail.tracker.last = some last := by
        unfold Tail.tracker
        rw [hhealing]
        exact hlast
      obtain ⟨reached, hreached, hle⟩ := le_observeAll htracker (ledgersOf t.tail.queue)
      have hreached : arrived t.tail = some reached := hreached
      have hfresh := honward.fresh iss hiss hold
      rw [hreached] at hfresh
      have hfresh : reached ≤ t'.since iss := hfresh
      omega

/-- A heal begins. -/
theorem HealOk.begin {issuance : Option TrackedIssuance} {issuers : List String}
    {range : LedgerRange}
    (htail : issuance = none → issuerAddresses X t.tail.tracked = some issuers
      ∧ (∀ iss ∈ t.tail.tracked, NamesIssuer iss) ∧ t.tail.phase = .healing range)
    (hmend : ∀ iss, issuance = some iss → iss ∈ t.tail.tracked ∧ ∃ issuer,
      trackedIssuerOf X iss = some issuer ∧ issuers = [issuer]) :
    HealOk X U t (Heal.begin issuance issuers range t.tail.tracked) where
  tracked := fun _ hiss => hiss
  workers := start_length _ _ _
  pool := start_ok _ _ _
  sweeps := start_holds _ fun _ _ =>
    ⟨fun _ _ _ _ _ _ _ hpassed => absurd hpassed id, fun _ _ hpage => nomatch hpage⟩
  tail := fun hnone => ⟨(htail hnone).1, (htail hnone).2.1⟩
  mend := hmend
  awaited := fun hnone => ⟨(htail hnone.1).2.2, fun _ hiss hout => absurd hiss hout⟩

/-- A worker's step that leaves the station. -/
theorem HealOk.worked (hok : HealOk X U t h) {pool : Pool Sweep}
    (hworkers : pool.workers.length = h.pool.workers.length) (hpool : pool.Ok h.issuers.length)
    (hsweeps : pool.Holds (SweepOk X U t.tail.db h) (SweepDone X U t.tail.db h)) :
    HealOk X U t { h with pool } where
  tracked := hok.tracked
  workers := hworkers.trans hok.workers
  pool := hpool
  sweeps := hsweeps.mono (fun _ _ hsw => ⟨hsw.read, hsw.page⟩) (fun _ hi => hi)
  tail := hok.tail
  mend := hok.mend
  awaited := hok.awaited

/-- A page arrives. -/
theorem HealOk.arrive (hok : HealOk X U t h) {k i validated : ℕ} {cursor : Option String}
    {page : BackfillPage} {pool : Pool Sweep}
    (hw : h.pool.workers[k]? = some (.busy i ⟨cursor, none⟩))
    (hcan : CanArrive U h i cursor page validated)
    (hpool : h.pool.work k ⟨cursor, some (t.tail.tracked, page)⟩ = some pool) :
    HealOk X U t { h with pool } := by
  refine hok.worked (Pool.work_length hpool) (hok.pool.work hpool)
    (hok.sweeps.work hpool fun j sw hj => ?_)
  cases Option.some.inj (hw.symm.trans hj)
  have hread := (hok.sweeps.busy i _ (List.mem_of_getElem? hw)).read
  refine ⟨hread, fun seen page' hpage => ?_⟩
  cases hpage
  exact ⟨hok.tracked, validated, hcan⟩

/-- **A PAGE IS WRITTEN**: what lies before its marker is stored, and after the last one
    all the issuer lists. -/
theorem HealOk.commit (hU : U.Sound X) (hok : HealOk X U t h)
    (hsite : RegistrarStation.Inv X U anyStorage t) (hrevealed : Revealed t) {k i : ℕ}
    {cursor : Option String} {seen : List TrackedIssuance} {page : BackfillPage}
    {issuer : String} {pool : Pool Sweep}
    (hw : h.pool.workers[k]? = some (.busy i ⟨cursor, some (seen, page)⟩))
    (hissuer : h.issuers[i]? = some issuer)
    (hstep : RegistrarStation.step X U t (.site (.heal seen issuer page)) = some t')
    (hpool : h.written k page = some pool) : HealOk X U t' { h with pool } := by
  have hsweep := hok.sweeps.busy i _ (List.mem_of_getElem? hw)
  obtain ⟨hseen, validated, hvalidated, hanswers⟩ := hsweep.page seen page rfl
  have hanswers := hanswers issuer hissuer
  have hlasts := hsite.lasts_step hU hstep
  have hafter : HealOk X U t' h := by
    refine hok.onward hsite hrevealed hlasts (onward_step hsite (by simp) hstep) fun _ => ?_
    obtain ⟨-, site, -, rfl⟩ := site_some hstep
    rfl
  -- the page is stored for what was tracked from the outset
  have hpage : ∀ iss ∈ h.outset, ∀ e ∈ page.entries, Touches X iss e →
      StoredFor X t'.tail.db iss e := by
    obtain ⟨-, site, hsite', rfl⟩ := site_some hstep
    obtain ⟨hof, hsite'⟩ := Option.ite_none_right_eq_some.mp hsite'
    obtain ⟨db, hdb, rfl⟩ := Option.map_eq_some_iff.mp hsite'
    have hof : RegistrarScans.OfUpstream X U (.heal seen t.site.tracked issuer page) := hof
    obtain ⟨es, hes, hwrites, hin⟩ := RegistrarScans.Page.writes hU hof hdb
    intro iss hiss e he htouch
    have htracked := hok.tracked iss hiss
    exact hwrites.storesFor hU hes htracked
      (fun j hj hid => registered_eq (hsite.site.tracked j hj) (hsite.site.tracked iss htracked)
        hid) (hin e he iss (hseen iss hiss) htouch)
  have hlisted : ∀ p : BinaryTxEntry → Prop,
      (∀ e, p e → page.marker = none ∨ U.Passed page.marker e) →
      StoredIn X U t'.tail.db h issuer p := by
    intro p hp iss hiss e he hcovers hpe htouch
    have hout := hsite.site.tracked iss (hok.tracked iss hiss)
    rcases hanswers.listed he hcovers (hcovers.2.trans hvalidated) (hp e hpe) with hbefore | hon
    · exact hlasts.storedFor iss hout e ⟨issuer, he⟩
        (hsweep.read issuer hissuer iss hiss e he hcovers hbefore htouch)
    · exact hpage iss hiss e hon htouch
  unfold Heal.written at hpool
  cases hmarker : page.marker with
  | none =>
      simp only [hmarker] at hpool
      refine hafter.worked (Pool.finish_length hpool) (hafter.pool.finish hpool)
        (hafter.sweeps.finish hpool (fun j _ => ?_) fun j sw hj issuer' hissuer' => ?_)
      · exact ⟨fun _ _ _ _ _ _ _ hpassed => absurd hpassed id, fun _ _ hpage => nomatch hpage⟩
      · cases Option.some.inj (hw.symm.trans hj)
        cases Option.some.inj (hissuer.symm.trans hissuer')
        exact hlisted _ (fun _ _ => Or.inl hmarker)
  | some marker =>
      simp only [hmarker] at hpool
      refine hafter.worked (Pool.work_length hpool) (hafter.pool.work hpool)
        (hafter.sweeps.work hpool fun j sw hj => ?_)
      cases Option.some.inj (hw.symm.trans hj)
      refine ⟨fun issuer' hissuer' => ?_, fun _ _ hpage => nomatch hpage⟩
      cases Option.some.inj (hissuer.symm.trans hissuer')
      exact hlisted _ (fun e he => Or.inr (hmarker ▸ he))

/-- **A HEAL THAT RETURNS** has stored its range for what was tracked from the outset. -/
theorem HealOk.complete (hU : U.Sound X) (hok : HealOk X U t h) (hend : h.pool.Resolved)
    {iss : TrackedIssuance} (hiss : iss ∈ h.outset) {issuer : String}
    (hissuer : trackedIssuerOf X iss = some issuer) (hswept : issuer ∈ h.issuers) :
    Held X U (StoredFor X) t.tail.db iss h.range := by
  intro e he htouch hcovers
  have hworkers : h.pool.workers ≠ [] := by
    intro hnone
    have hlength := hok.workers
    rw [hnone] at hlength
    have : 0 = max 1 (min healConcurrency h.issuers.length) := hlength
    omega
  obtain ⟨i, hi⟩ := List.mem_iff_getElem?.mp hswept
  obtain ⟨hlt, -⟩ := List.getElem?_eq_some_iff.mp hi
  exact hok.sweeps.all hok.pool hworkers hend i hlt issuer hi iss hiss e
    (hU.lists he htouch hissuer) hcovers trivial htouch

/-- So the station's assumption about it is met. -/
theorem HealOk.assumed {R : Storage} (hU : U.Sound X) (hR : Lasting X U R) (hok : HealOk X U t h)
    (hend : h.pool.Resolved) (hopen : h.settled = false) : Assumed X U R t h.returns := by
  unfold Heal.returns
  cases hfor : h.issuance with
  | some iss =>
      obtain ⟨hiss, issuer, hissuer, hissuers⟩ := hok.mend iss hfor
      have hswept : issuer ∈ h.issuers := hissuers ▸ List.mem_singleton_self issuer
      intro e he htouch hcovers
      exact hR.complete (hok.complete hU hend hiss hissuer hswept e he htouch hcovers)
  | none =>
      obtain ⟨hissuers, hnames⟩ := hok.tail hfor
      obtain ⟨hhealing, hsince⟩ := hok.awaited ⟨hfor, hopen⟩
      intro gap hgap iss hiss e he htouch hcovers
      have hgap : gap ∈ t.tail.healing := hgap
      unfold Tail.healing at hgap
      rw [hhealing] at hgap
      cases List.mem_singleton.mp hgap
      obtain ⟨hfrom, hto⟩ := hcovers
      have hfrom : max h.range.fromLedger (t.since iss + 1) ≤ e.ledgerIndex := hfrom
      have hto : e.ledgerIndex ≤ h.range.toLedger := hto
      by_cases hout : iss ∈ h.outset
      · obtain ⟨issuer, hissuer, hswept⟩ := mem_issuerAddresses hissuers hout (hnames iss hout)
        exact hR.complete (hok.complete hU hend hout hissuer hswept e he htouch
          ⟨(le_max_left _ _).trans hfrom, hto⟩)
      · have hlate := hsince iss hiss hout
        omega

/-! ## Every step -/

/-- What is tracked names its issuer when the tail begins a heal. -/
def Named (s : Server) : Action → Prop
  | .healGap => ∀ iss ∈ s.tracked, NamesIssuer iss
  | _ => True

instance (i : TrackedIssuance) : Decidable (NamesIssuer i) := by
  unfold NamesIssuer
  cases i.kind with
  | mpt => exact inferInstanceAs (Decidable (∃ id ∈ i.mptIssuanceId, id ≠ ""))
  | iou => exact inferInstanceAs (Decidable (∃ a ∈ i.issuer, a ≠ ""))

instance (s : Server) (a : Action) : Decidable (Named s a) := by
  unfold Named
  cases a <;> exact inferInstance

/-- A step of the station beside the heals; one that ends the tail's leaves none that it
    awaits. -/
theorem Inv.beside (hU : U.Sound X) (hI : Inv X U s) {a : RegistrarStation.Action}
    (ha : a ≠ .restart) (h : RegistrarStation.step X U s.station a = some t')
    {heals : List Heal} (hsub : ∀ heal ∈ heals, HealOk X U s.station heal)
    (hone : heals.countP (·.Awaited) ≤ 1)
    (hended : (a = .tail .healed ∨ a = .tail .healFailed) → heals.countP (·.Awaited) = 0) :
    Inv X U ⟨t', heals⟩ where
  station := hI.station.unassumed hU h
  revealed := hI.revealed.step h
  heals := by
    intro heal hheal
    have hok := hsub heal hheal
    refine hok.onward hI.station hI.revealed (hI.station.lasts_step hU h)
      (onward_step hI.station ha h) fun hawaited => ?_
    obtain ⟨hphase, -⟩ := hok.awaited hawaited
    have hnot : ¬ (a = .tail .healed ∨ a = .tail .healFailed) := fun hend =>
      List.countP_eq_zero.mp (hended hend) heal hheal (decide_eq_true hawaited)
    have hkept := healing_kept ha (fun heq => hnot (Or.inl heq)) (fun heq => hnot (Or.inr heq))
      h hphase
    exact hkept.1.trans hphase.symm
  one := hone

/-- A heal of the list takes another form. -/
theorem countP_set {n : ℕ} {heal : Heal} (hheal : s.heals[n]? = some heal) (heal' : Heal) :
    (s.heals.set n heal').countP (·.Awaited) + (if heal.Awaited then 1 else 0)
      = s.heals.countP (·.Awaited) + (if heal'.Awaited then 1 else 0) := by
  obtain ⟨hlt, rfl⟩ := List.getElem?_eq_some_iff.mp hheal
  rw [(List.set_perm_cons_eraseIdx hlt heal').countP_eq,
    ← (List.getElem_cons_eraseIdx_perm hlt).countP_eq, List.countP_cons, List.countP_cons]
  simp only [decide_eq_true_eq]
  omega

/-- A worker of a heal goes on, and the station may. -/
theorem Inv.work (hI : Inv X U s) {n : ℕ} {pool : Pool Sweep}
    (hheal : s.heals[n]? = some h) (hstation : RegistrarStation.Inv X U anyStorage t')
    (hrevealed : Revealed t') (hothers : ∀ heal ∈ s.heals, HealOk X U t' heal)
    (hok : HealOk X U t' { h with pool }) : Inv X U ⟨t', s.heals.set n { h with pool }⟩ where
  station := hstation
  revealed := hrevealed
  heals := by
    intro heal hin
    rcases List.mem_or_eq_of_mem_set hin with hold | rfl
    · exact hothers heal hold
    · exact hok
  one := by
    have hcount := countP_set hheal { h with pool }
    have hsame : (if Heal.Awaited { h with pool } then 1 else 0)
        = if h.Awaited then 1 else 0 := rfl
    have hone := hI.one
    rw [hsame] at hcount
    show (s.heals.set n { h with pool }).countP _ ≤ 1
    omega

/-- A heal of its own begins. -/
theorem Inv.add (hI : Inv X U s) (hok : HealOk X U s.station h)
    (hnone : h.Awaited → ∀ heal ∈ s.heals, ¬ heal.Awaited) :
    Inv X U { s with heals := s.heals ++ [h] } where
  station := hI.station
  revealed := hI.revealed
  heals := by
    intro heal hin
    rcases List.mem_append.mp hin with hold | hnew
    · exact hI.heals heal hold
    · exact List.mem_singleton.mp hnew ▸ hok
  one := by
    show (s.heals ++ [h]).countP _ ≤ 1
    rw [List.countP_append, List.countP_singleton]
    by_cases hawaited : h.Awaited
    · have hzero : s.heals.countP (·.Awaited) = 0 :=
        List.countP_eq_zero.mpr fun heal hheal => by
          rw [decide_eq_true_eq]
          exact hnone hawaited heal hheal
      rw [hzero, if_pos (decide_eq_true hawaited)]
    · rw [if_neg (by rw [decide_eq_true_eq]; exact hawaited)]
      exact hI.one

/-- **WHAT EVERY STEP KEEPS**. -/
theorem Inv.step (hU : U.Sound X) (hI : Inv X U s) {a : Action} (hnamed : Named s a)
    (hstep : RegistrarHeals.step X U s a = some s') : Inv X U s' := by
  cases a with
  | station a =>
      obtain ⟨hof, hstep⟩ := Option.ite_none_right_eq_some.mp hstep
      obtain ⟨t, ht, rfl⟩ := Option.map_eq_some_iff.mp hstep
      refine hI.beside hU ?_ ht hI.heals hI.one ?_
      · rintro rfl
        exact hof
      · rintro (rfl | rfl)
        · exact absurd hof id
        · exact absurd hof id
  | healGap =>
      unfold RegistrarHeals.step at hstep
      cases hphase : s.station.tail.phase with
      | healing gap =>
          simp only [hphase] at hstep
          obtain ⟨hnone, hstep⟩ := Option.ite_none_left_eq_some.mp hstep
          have hnone : ∀ heal ∈ s.heals, ¬ heal.Awaited := fun heal hheal hawaited =>
            hnone ⟨heal, hheal, hawaited⟩
          cases hissuers : issuerAddresses X s.tracked with
          | some issuers =>
              simp only [hissuers] at hstep
              cases Option.some.inj hstep
              refine hI.add (HealOk.begin (fun _ => ⟨hissuers, hnamed, hphase⟩)
                fun iss hiss => absurd hiss (by simp)) fun _ => hnone
          | none =>
              simp only [hissuers] at hstep
              obtain ⟨t, ht, rfl⟩ := Option.map_eq_some_iff.mp hstep
              refine hI.beside hU (by simp) ht hI.heals hI.one fun _ => ?_
              refine List.countP_eq_zero.mpr fun heal hheal => ?_
              rw [decide_eq_true_eq]
              exact hnone heal hheal
      | _ =>
          simp only [hphase] at hstep
          cases hstep
  | healPostBackfill iss highWater =>
      obtain ⟨⟨hiss, -⟩, hstep⟩ := Option.ite_none_right_eq_some.mp hstep
      obtain ⟨issuer, hissuer, rfl⟩ := Option.map_eq_some_iff.mp hstep
      obtain ⟨hissuer, -⟩ := Option.filter_eq_some_iff.mp hissuer
      refine hI.add (HealOk.begin (fun hnone => absurd hnone (by simp)) fun iss' hsame => ?_)
        fun hawaited => absurd hawaited.1 (by simp [Heal.begin])
      cases hsame
      exact ⟨hiss, issuer, hissuer, rfl⟩
  | arrive n k page validated =>
      obtain ⟨heal, i, cursor, pool, hheal, hw, hcan, hpool, rfl⟩ := arrive_some hstep
      have hok := hI.heals heal (List.mem_of_getElem? hheal)
      exact hI.work hheal hI.station hI.revealed hI.heals (hok.arrive hw hcan hpool)
  | commit n k =>
      obtain ⟨heal, i, cursor, seen, page, issuer, t, pool, hheal, hw, hissuer, ht, hpool, rfl⟩ :=
        commit_some hstep
      have hok := hI.heals heal (List.mem_of_getElem? hheal)
      have hbeside := hI.beside hU (by simp) ht hI.heals hI.one (by simp)
      exact hI.work hheal hbeside.station hbeside.revealed hbeside.heals
        (hok.commit hU hI.station hI.revealed hw hissuer ht hpool)
  | throw n k =>
      obtain ⟨heal, hheal, hstep⟩ := Option.bind_eq_some_iff.mp hstep
      obtain ⟨pool, hpool, rfl⟩ := Option.map_eq_some_iff.mp hstep
      have hok := hI.heals heal (List.mem_of_getElem? hheal)
      exact hI.work hheal hI.station hI.revealed hI.heals
        (hok.worked (Pool.fail_length hpool) (hok.pool.fail hpool) (hok.sweeps.fail hpool))
  | returned n =>
      obtain ⟨heal, hheal, hstep⟩ := Option.bind_eq_some_iff.mp hstep
      obtain ⟨⟨-, hopen⟩, hstep⟩ := Option.ite_none_right_eq_some.mp hstep
      obtain ⟨t, ht, rfl⟩ := Option.map_eq_some_iff.mp hstep
      obtain ⟨hlt, hget⟩ := List.getElem?_eq_some_iff.mp hheal
      have hcount : s.heals.countP (·.Awaited)
          = (s.heals.eraseIdx n).countP (·.Awaited) + if heal.Awaited then 1 else 0 := by
        rw [← (List.getElem_cons_eraseIdx_perm hlt).countP_eq, List.countP_cons, hget]
        simp only [decide_eq_true_eq]
      have hone := hI.one
      refine hI.beside hU ?_ ht (fun h hh => hI.heals h (List.mem_of_mem_eraseIdx hh))
        (by omega) fun hend => ?_
      · unfold Heal.returns
        cases heal.issuance <;> simp
      · have hawaited : heal.Awaited := by
          refine ⟨?_, hopen⟩
          unfold Heal.returns at hend
          cases hfor : heal.issuance with
          | none => rfl
          | some iss =>
              rw [hfor] at hend
              exact absurd hend (by simp)
        rw [if_pos hawaited] at hcount
        omega
  | rejected n =>
      obtain ⟨heal, hheal, hopen, hend⟩ := rejected_some hstep
      have hcount := countP_set hheal { heal with settled := true }
      have hsettled : ¬ Heal.Awaited { heal with settled := true } := fun h =>
        absurd h.2 (by simp)
      rw [if_neg hsettled] at hcount
      have hone := hI.one
      have hok := hI.heals heal (List.mem_of_getElem? hheal)
      have hsub : ∀ h ∈ s.heals.set n { heal with settled := true }, HealOk X U s.station h := by
        intro h hh
        rcases List.mem_or_eq_of_mem_set hh with hold | rfl
        · exact hI.heals h hold
        · exact { hok with
            sweeps := hok.sweeps.mono (fun _ _ hsw => ⟨hsw.read, hsw.page⟩) (fun _ hi => hi)
            awaited := fun h => absurd h hsettled }
      rcases hend with ⟨hfor, t, ht, rfl⟩ | ⟨-, rfl⟩
      · have hawaited : heal.Awaited := ⟨hfor, hopen⟩
        rw [if_pos hawaited] at hcount
        exact hI.beside hU (by simp) ht hsub (by omega) (fun _ => by omega)
      · refine ⟨hI.station, hI.revealed, hsub, ?_⟩
        show (s.heals.set n _).countP _ ≤ 1
        omega
  | restart =>
      obtain ⟨t, ht, rfl⟩ := restart_some hstep
      exact ⟨hI.station.unassumed hU ht, hI.revealed.step ht,
        fun h hh => absurd hh List.not_mem_nil, Nat.zero_le _⟩

end Invariant

/-- A server before its first job, with no heal under way. -/
structure Fresh (s : Server) : Prop where
  station : RegistrarStation.Fresh s.station
  heals : s.heals = []

theorem Fresh.inv {X : Xrpl} {U : Upstream} {s : Server} (hs : Fresh s) : Inv X U s where
  station := hs.station.inv
  revealed := by
    intro gap hphase
    have hidle : s.station.tail.phase = .idle := hs.station.tail.phase
    exact absurd (hidle.symm.trans hphase) (by simp)
  heals := fun h hh => absurd (hs.heals ▸ hh) List.not_mem_nil
  one := by
    rw [hs.heals]
    exact Nat.zero_le _

/-! ## Every run -/

/-- **A HEAL IS COMPLETE**: in every run, whatever else is written meanwhile, a heal sweeps
    each issuer once and at most four at a time; when all its workers have stopped, what
    upstream has of its range is stored for every issuance of a swept issuer that was
    tracked when it began. -/
theorem returned_heal_complete (X : Xrpl) (U : Upstream) (hU : U.Sound X) {s₀ s : Server}
    (hstart : Fresh s₀) (hrun : Steps (step X U) Named s₀ s) {h : Heal} (hh : h ∈ s.heals) :
    (h.pool.items ++ h.pool.done).Nodup ∧ h.pool.items.length ≤ healConcurrency
      ∧ (h.pool.Resolved → ∀ iss ∈ h.outset, ∀ issuer ∈ h.issuers,
        trackedIssuerOf X iss = some issuer → Held X U (StoredFor X) s.db iss h.range) := by
  have hI : Inv X U s :=
    hrun.inv (Inv X U) hstart.inv (fun _ _ _ hI hnamed hs => hI.step hU hnamed hs)
  have hok := hI.heals h hh
  refine ⟨hok.pool.once.nodup_iff.mpr List.nodup_range, ?_, fun hend iss hiss issuer hswept
    hissuer => hok.complete hU hend hiss hissuer hswept⟩
  refine (List.length_filterMap_le _ _).trans (hok.workers.trans_le ?_)
  exact max_le (by decide) (min_le_left _ _)

/-- What is asked of the steps that are not of a heal. -/
def Kept (X : Xrpl) (U : Upstream) (R : Storage) (s : Server) : Action → Prop
  | .station a => Assumed X U R s.station a
  | .restart => Anchored s.station .restart
  | _ => True

instance {X : Xrpl} {U : Upstream} {R : Storage}
    [∀ db iss range, Decidable (Held X U R db iss range)] (s : Server) (a : Action) :
    Decidable (Kept X U R s a) := by
  unfold Kept
  cases a <;> exact inferInstance

/-- A step of the server is one of its station, with its assumptions, or leaves it. -/
theorem Inv.project {X : Xrpl} {U : Upstream} {R : Storage} (hU : U.Sound X)
    (hR : Lasting X U R) {s s' : Server} (hI : Inv X U s) {a : Action} (hkept : Kept X U R s a)
    (h : RegistrarHeals.step X U s a = some s') :
    s'.station = s.station ∨ ∃ b, (Assumed X U R s.station b ∧ Anchored s.station b)
      ∧ RegistrarStation.step X U s.station b = some s'.station := by
  cases a with
  | station a =>
      obtain ⟨hof, h⟩ := Option.ite_none_right_eq_some.mp h
      obtain ⟨t, ht, rfl⟩ := Option.map_eq_some_iff.mp h
      refine Or.inr ⟨a, ⟨hkept, ?_⟩, ht⟩
      cases a with
      | restart => exact absurd hof id
      | _ => exact trivial
  | healGap =>
      unfold RegistrarHeals.step at h
      cases hphase : s.station.tail.phase with
      | healing gap =>
          simp only [hphase] at h
          obtain ⟨-, h⟩ := Option.ite_none_left_eq_some.mp h
          cases hissuers : issuerAddresses X s.tracked with
          | some issuers =>
              simp only [hissuers] at h
              cases Option.some.inj h
              exact Or.inl rfl
          | none =>
              simp only [hissuers] at h
              obtain ⟨t, ht, rfl⟩ := Option.map_eq_some_iff.mp h
              exact Or.inr ⟨.tail .healFailed, ⟨trivial, trivial⟩, ht⟩
      | _ =>
          simp only [hphase] at h
          cases h
  | healPostBackfill iss highWater =>
      obtain ⟨-, h⟩ := Option.ite_none_right_eq_some.mp h
      obtain ⟨issuer, -, rfl⟩ := Option.map_eq_some_iff.mp h
      exact Or.inl rfl
  | arrive n k page validated =>
      obtain ⟨heal, i, cursor, pool, -, -, -, -, rfl⟩ := arrive_some h
      exact Or.inl rfl
  | commit n k =>
      obtain ⟨heal, i, cursor, seen, page, issuer, t, pool, -, -, -, ht, -, rfl⟩ := commit_some h
      exact Or.inr ⟨.site (.heal seen issuer page), ⟨trivial, trivial⟩, ht⟩
  | throw n k =>
      obtain ⟨heal, -, h⟩ := Option.bind_eq_some_iff.mp h
      obtain ⟨pool, -, rfl⟩ := Option.map_eq_some_iff.mp h
      exact Or.inl rfl
  | returned n =>
      obtain ⟨heal, hheal, h⟩ := Option.bind_eq_some_iff.mp h
      obtain ⟨⟨hend, hopen⟩, h⟩ := Option.ite_none_right_eq_some.mp h
      obtain ⟨t, ht, rfl⟩ := Option.map_eq_some_iff.mp h
      have hok := hI.heals heal (List.mem_of_getElem? hheal)
      refine Or.inr ⟨_, ⟨hok.assumed hU hR hend hopen, ?_⟩, ht⟩
      unfold Heal.returns
      cases heal.issuance <;> exact trivial
  | rejected n =>
      obtain ⟨heal, -, -, ⟨-, t, ht, rfl⟩ | ⟨-, rfl⟩⟩ := rejected_some h
      · exact Or.inr ⟨.tail .healFailed, ⟨trivial, trivial⟩, ht⟩
      · exact Or.inl rfl
  | restart =>
      obtain ⟨t, ht, rfl⟩ := restart_some h
      exact Or.inr ⟨.restart, ⟨trivial, hkept⟩, ht⟩

/-- **THE STATION IS REFINED**: a run of the server with its heals is one of the station in
    which heals that return have stored what the station assumes of them. -/
theorem heals_refine_station (X : Xrpl) (U : Upstream) (hU : U.Sound X) {R : Storage}
    (hR : Lasting X U R) {s₀ s : Server} (hstart : Fresh s₀)
    (hrun : Steps (step X U) (fun s a => Named s a ∧ Kept X U R s a) s₀ s) :
    Steps (RegistrarStation.step X U) (fun t a => Assumed X U R t a ∧ Anchored t a)
      s₀.station s.station :=
  Steps.project (·.station) (Inv X U) (fun _ _ _ hI hok hs => hI.step hU hok.1 hs)
    (fun _ _ _ hI hok hs => hI.project hU hR hok.2 hs) hstart.inv hrun

/-! ## A gap of two ledgers -/

theorem payServer_fresh : Fresh ⟨payStation, []⟩ := ⟨payStation_fresh, rfl⟩

/-- The tail misses the ledgers of the mint and the payment; while it sweeps the issuer, a
    ledger closes. -/
def gapRun : List Action :=
  [.station (.site (.register payRow)), .station (.site .refreshTracked),
    .station (.tail (.ledgerClosed 199 (some 0))), .station (.tail .consume),
    .station (.tail .observe), .station (.tail (.ledgerClosed 202 (some 9))),
    .station (.tail .consume), .station (.tail .observe), .healGap,
    .arrive 0 0 ⟨[mintEntry], some "next", ⟨"clio", "now"⟩⟩ 300,
    .station (.tail (.ledgerClosed 203 (some 9))), .commit 0 0,
    .arrive 0 0 ⟨[payEntry], none, ⟨"clio", "now"⟩⟩ 300, .commit 0 0]

theorem returned_heal_complete_gap : ∃ (s : Server) (h : Heal), h ∈ s.heals
    ∧ h.range = ⟨200, 201⟩
    ∧ Held payXrpl payUpstream (StoredFor payXrpl) s.db payIssuance h.range := by
  have hrun : (runChecked (step payXrpl payUpstream) Named ⟨payStation, []⟩ gapRun).map
      (fun s => decide (∃ h ∈ s.heals, h.range = ⟨200, 201⟩ ∧ h.pool.Resolved
        ∧ payIssuance ∈ h.outset ∧ "rIssuer" ∈ h.issuers)) = some true := by
    decide +kernel
  obtain ⟨s, hsteps, hend⟩ := Steps.exists_of_runChecked _ hrun
  obtain ⟨h, hh, hrange, hresolved, hout, hswept⟩ := of_decide_eq_true hend
  exact ⟨s, h, hh, hrange, (returned_heal_complete payXrpl payUpstream payUpstream_sound
    payServer_fresh hsteps hh).2.2 hresolved payIssuance hout "rIssuer" hswept rfl⟩

/-- The heal returns, the tail goes on and the process ends. -/
theorem heals_refine_station_gap : ∃ s : Server,
    s.station.starts.length = 1 ∧ s.station.tail.reports = [⟨200, 201⟩]
    ∧ Steps (RegistrarStation.step payXrpl payUpstream) (fun t a => Assumed payXrpl payUpstream
      (fun db _ e => Stored payXrpl db e) t a ∧ Anchored t a) payStation s.station := by
  have hrun : (runChecked (step payXrpl payUpstream) (fun s a => Named s a
      ∧ Kept payXrpl payUpstream (fun db _ e => Stored payXrpl db e) s a) ⟨payStation, []⟩
      (gapRun ++ [.returned 0, .station (.tail .consume), .station (.tail .observe),
        .restart])).map (fun s => decide (s.station.starts.length = 1
          ∧ s.station.tail.reports = [⟨200, 201⟩])) = some true := by
    decide +kernel
  obtain ⟨s, hsteps, hend⟩ := Steps.exists_of_runChecked _ hrun
  obtain ⟨hstarts, hreports⟩ := of_decide_eq_true hend
  exact ⟨s, hstarts, hreports, heals_refine_station payXrpl payUpstream payUpstream_sound
    (lasting_stored payXrpl payUpstream) payServer_fresh hsteps⟩

end RegistrarHeals
