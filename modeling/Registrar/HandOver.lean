import Registrar.FailClosed
import Registrar.Restarts

/-! # The hand-over from a sweep to the tail

    A sweep ends at the ledger of its last page; the tail watches the issuance from the
    ledgers on that arrive after the tracked set was refreshed and the node asked for its
    accounts.  What lies between is covered by a heal that returned, or by a later start,
    or it is never read.  The stream may bring a transaction after its ledger was
    recorded: what it brings lands, as long as no request of the process is lost. -/

namespace RegistrarHandOver

open KeyedTable Runs Statements RegistrarMetadata RegistrarArchive RegistrarIngest
open RegistrarBackfill RegistrarReads RegistrarTail RegistrarWritten RegistrarPages
open RegistrarStation
open RegistrarDiscovery (registered registered_eq)
open RegistrarScans (Scan Finished)
open RegistrarProgress (Tail Recorded InRanges Carries Grows ledgersOf le_observe_last)
open RegistrarFailClosed (Tailed)
open RegistrarLinks (payXrpl payIssuance mintEntry payEntry)
open RegistrarCovered (payUpstream payUpstream_sound payRow payJob sweepBegins)
open RegistrarRestarts (payStation payStation_fresh)

/-! ## What the stream brings -/

/-- What the stream has brought since a state of its process. -/
def broughtIn (t s : Station) : List BinaryTxEntry :=
  s.tail.delivered.drop t.tail.delivered.length

/-- A request for the transaction is under way, or its event is queued. -/
def OnItsWay (X : Xrpl) (t : Tail) (e : BinaryTxEntry) : Prop :=
  (∃ f ∈ t.fetching, f.entry = e) ∨ ∃ item ∈ t.queue, Carries X e item

instance (X : Xrpl) (t : Tail) (e : BinaryTxEntry) : Decidable (OnItsWay X t e) :=
  inferInstanceAs (Decidable (_ ∨ _))

/-- The transaction is stored for the issuance, or about to be. -/
def Lands (X : Xrpl) (t : Tail) (iss : TrackedIssuance) (e : BinaryTxEntry) : Prop :=
  StoredFor X t.db iss e ∨ OnItsWay X t e

/-- What the tail is to bring of the issuance: the ledgers that it watches, but for those
    up to `w`. -/
def Due (X : Xrpl) (iss : TrackedIssuance) (w : ℕ) (s : Station) (e : BinaryTxEntry) : Prop :=
  Touches X iss e ∧ s.since iss < e.ledgerIndex ∧ w < e.ledgerIndex

/-- Of the issuance, above the ledger `w`, the transaction is stored, or among those that
    the stream brings. -/
def Coming (X : Xrpl) (iss : TrackedIssuance) (w : ℕ) (brought : List BinaryTxEntry) : Storage :=
  fun db j e => j ≠ iss ∨ e.ledgerIndex ≤ w ∨ StoredFor X db iss e ∨ e ∈ brought

/-- **A PROCESS THAT GOES WELL** for the issuance, above the ledger `w`; `t` is its
    beginning and `brought` what the stream brings in it. -/
def Goes (X : Xrpl) (U : Upstream) (iss : TrackedIssuance) (w : ℕ) (t : Station)
    (brought : List BinaryTxEntry) (s : Station) : Action → Prop
  -- of a ledger it watches, the stream brings what is not stored, then or later
  | .tail .consume => Assumed X U (Coming X iss w brought) s (.tail .consume)
  -- a heal that returns has stored its range
  | .tail .healed => Assumed X U (Coming X iss w brought) s (.tail .healed)
  | .mended j range => j = iss → Held X U (StoredFor X) s.tail.db iss range
  -- no request for what is due comes back without the transaction
  | .tail (.fetched f res) =>
      transactionEvent X f.msg.hash f.touched f.msg.ledgerIndex res = none →
        iss ∈ s.tail.tracked → Due X iss w s f.entry →
        Lands X { s.tail with fetching := s.tail.fetching.erase f } iss f.entry
  | .tail (.fetchFailed f) => iss ∈ s.tail.tracked → Due X iss w s f.entry →
      Lands X { s.tail with fetching := s.tail.fetching.erase f } iss f.entry
  -- the stream has brought nothing of the ledgers to arrive
  | .site .refreshTracked => iss ∈ registered s.tail.db → iss ∉ s.tail.tracked →
      ∀ e ∈ broughtIn t s, Touches X iss e → (arrived s.tail).getD 0 < e.ledgerIndex →
        w < e.ledgerIndex → Lands X s.tail iss e
  | .restart => False
  | _ => True

/-- No process ends with anything missing of the issuance, once swept, up to the next
    anchor, and a heal that returns has stored its range. -/
def Ends (X : Xrpl) (U : Upstream) (iss : TrackedIssuance) (s : Station) : Action → Prop
  | .mended j range => j = iss → Held X U (StoredFor X) s.tail.db iss range
  | .restart => ∀ f ∈ s.finished, f.kind = .issuer → f.issuance = iss →
      Held X U (StoredFor X) s.tail.db iss ⟨f.fromLedger, (highWater s.tail.db).getD 0⟩
  | _ => True

/-- The tail has just been started: it has nothing under way, and has taken no ledger that
    it watches. -/
structure Begun (s : Station) : Prop where
  phase : s.tail.phase = .idle
  queue : s.tail.queue = []
  fetching : s.tail.fetching = []
  since : ∀ iss ∈ s.tail.tracked, ∀ last ∈ s.tail.gaps.last, last ≤ s.since iss

/-- All pending steps have run: nothing is queued, requested or healed. -/
structure Quiet (s : Station) : Prop where
  phase : s.tail.phase = .idle
  queue : s.tail.queue = []
  fetching : s.tail.fetching = []
  pending : s.pending = []

/-- Everything upstream has of the issuance, from the start of its sweep up to what the
    tail has recorded, is stored with its deltas. -/
def HandedOver (X : Xrpl) (U : Upstream) (s : Station) (f : Finished) : Prop :=
  ∀ e, U.Has e → Touches X f.issuance e → f.fromLedger ≤ e.ledgerIndex →
    Tailed s e.ledgerIndex → StoredFor X s.tail.db f.issuance e

/-- **THE HOLE**: after the last page of the sweep and not watched, in no heal that
    returned and above the anchor of each process that began after the sweep. -/
structure Hole (s : Station) (f : Finished) (w m : ℕ) : Prop where
  after : f.validated < m
  before : m ≤ max (s.since f.issuance) w
  mended : ∀ p ∈ s.mended, p.1 = f.issuance → ¬ p.2.Covers m
  anchored : ∀ p ∈ s.starts, f ∈ p.finished → p.anchor < m

/-! ## What outlasts a process -/

/-- What was healed, and what was swept before a start, is stored; the recorded ledgers
    are rows and the tracker has passed them. -/
structure Outlasts (X : Xrpl) (U : Upstream) (iss : TrackedIssuance) (s : Station) : Prop where
  mended : ∀ p ∈ s.mended, p.1 = iss → Held X U (StoredFor X) s.tail.db iss p.2
  starts : ∀ p ∈ s.starts, ∀ f ∈ p.finished, f.kind = .issuer → f.issuance = iss →
    Held X U (StoredFor X) s.tail.db iss ⟨f.fromLedger, p.anchor⟩
  rows : ∀ r ∈ s.tail.recorded, s.tail.db.ledgers.HasKey r.ledger
  shown : ∀ r ∈ s.tail.recorded, r.ledger = 0 ∨ ∃ last ∈ s.tail.tracker.last, r.ledger ≤ last

section Life

variable {X : Xrpl} {U : Upstream} {iss : TrackedIssuance} {w : ℕ} {s s' t : Station}

theorem outlasts_of_fresh (h : Fresh s) : Outlasts X U iss s where
  mended := fun _ hp => absurd (h.mended ▸ hp) List.not_mem_nil
  starts := fun _ hp => absurd (h.starts ▸ hp) List.not_mem_nil
  rows := fun _ hr => absurd (h.tail.recorded ▸ hr) List.not_mem_nil
  shown := fun _ hr => absurd (h.tail.recorded ▸ hr) List.not_mem_nil

/-- Where nothing is healed and no process begins. -/
theorem Outlasts.grow (h : Outlasts X U iss s) (hI : Inv X U anyStorage s)
    (hlasts : Lasts X U s.tail.db s'.tail.db) (hmended : s'.mended = s.mended)
    (hstarts : s'.starts = s.starts)
    (hrows : ∀ r ∈ s'.tail.recorded, s'.tail.db.ledgers.HasKey r.ledger)
    (hshown : ∀ r ∈ s'.tail.recorded, r.ledger = 0
      ∨ ∃ last ∈ s'.tail.tracker.last, r.ledger ≤ last) : Outlasts X U iss s' where
  mended := by
    intro p hp hiss
    rw [hmended] at hp
    exact (h.mended p hp hiss).lasts (lasting_storedFor X U) hlasts (hiss ▸ (hI.mended p hp).1)
  starts := by
    intro p hp f hf hkind hiss
    rw [hstarts] at hp
    exact (h.starts p hp f hf hkind hiss).lasts (lasting_storedFor X U) hlasts
      (hiss ▸ (hI.starts p hp f hf).1)
  rows := hrows
  shown := hshown

/-- Taking a ledger or showing it, the tracker does not go back. -/
theorem tracker_of_tailStep {X : Xrpl} {t u : Tail} {a : RegistrarProgress.Action}
    (h : TailStep X t a u) :
    (∀ last ∈ t.tracker.last, ∃ reached ∈ u.tracker.last, last ≤ reached)
      ∧ (∀ r ∈ u.recorded, r ∈ t.recorded ∨
          (u.db.ledgers.HasKey r.ledger ∧ ∃ reached ∈ u.tracker.last, r.ledger ≤ reached)) := by
  have hsame : ∀ {u : Tail}, u.tracker = t.tracker → u.recorded = t.recorded →
      (∀ last ∈ t.tracker.last, ∃ reached ∈ u.tracker.last, last ≤ reached)
        ∧ (∀ r ∈ u.recorded, r ∈ t.recorded ∨
          (u.db.ledgers.HasKey r.ledger ∧ ∃ reached ∈ u.tracker.last, r.ledger ≤ reached)) := by
    intro u htracker hrecorded
    refine ⟨fun last hlast => ⟨last, htracker ▸ hlast, le_rfl⟩, fun r hr => Or.inl ?_⟩
    exact hrecorded ▸ hr
  cases h with
  | ledgerClosed n closeTime => exact hsame rfl rfl
  | fetched f res hf hof => exact hsame rfl rfl
  | fetchFailed f => exact hsame rfl rfl
  | consume item queue hphase hqueue =>
      obtain ⟨-, -, htracker⟩ := idle hphase
      cases item with
      | ledger n closeTime =>
          obtain ⟨reached, hreached, hle, hge⟩ := le_observe_last t.gaps n
          refine ⟨fun last hlast => ⟨reached, hreached, hge last (htracker ▸ hlast)⟩,
            fun r hr => ?_⟩
          rcases RegistrarProgress.mem_recorded hr with hr | ⟨hsome, rfl⟩
          · exact Or.inl hr
          · obtain ⟨time, rfl⟩ := Option.ne_none_iff_exists'.mp hsome
            exact Or.inr ⟨Table.hasKey_insertIgnore.mpr (Or.inr rfl), reached, hreached, hle⟩
      | transaction ev =>
          cases hingest : ingestEvent X t.tracked ev t.db with
          | ok db =>
              have hafter : RegistrarProgress.consumeEvent X { t with queue, phase := .idle }
                  (.transaction ev) = { t with db, queue, phase := .idle } := by
                simp only [RegistrarProgress.consumeEvent, hingest]
              rw [hafter]
              exact hsame htracker.symm rfl
          | error err =>
              have hafter : RegistrarProgress.consumeEvent X { t with queue, phase := .idle }
                  (.transaction ev) = { t with queue, phase := .stopped } := by
                simp only [RegistrarProgress.consumeEvent, hingest]
              rw [hafter]
              exact hsame htracker.symm rfl
  | observe n hphase =>
      have htracker : t.tracker = (t.gaps.observe n).2 := by
        unfold Tail.tracker
        rw [hphase]
      exact hsame ((RegistrarProgress.after_observe rfl).2.2.trans htracker.symm) rfl
  | healed gap hphase =>
      have htracker : t.tracker = t.gaps := by
        unfold Tail.tracker
        rw [hphase]
      exact hsame htracker.symm rfl
  | healFailed gap hphase =>
      have htracker : t.tracker = t.gaps := by
        unfold Tail.tracker
        rw [hphase]
      exact hsame htracker.symm rfl

/-- A step of the tail keeps the rows of ledgers. -/
theorem ledgers_of_tailStep {X : Xrpl} {t u : Tail} {a : RegistrarProgress.Action}
    (h : TailStep X t a u) {n : ℕ} (hn : t.db.ledgers.HasKey n) : u.db.ledgers.HasKey n := by
  cases h with
  | consume item queue hphase hqueue =>
      cases item with
      | ledger m closeTime =>
          exact (RegistrarProgress.grows_recordEvent m closeTime t.db).ledgers n hn
      | transaction ev =>
          cases hingest : ingestEvent X t.tracked ev t.db with
          | ok db =>
              simp only [RegistrarProgress.consumeEvent, hingest]
              exact (RegistrarProgress.grows_ingestEvent hingest).ledgers n hn
          | error err =>
              simp only [RegistrarProgress.consumeEvent, hingest]
              exact hn
  | _ => exact hn

/-- **WHAT EVERY STEP KEEPS**, across restarts. -/
theorem Outlasts.step (hU : U.Sound X) (h : Outlasts X U iss s) (hI : Inv X U anyStorage s)
    {a : Action} (hends : Ends X U iss s a) (hs : RegistrarStation.step X U s a = some s') :
    Outlasts X U iss s' := by
  have hlasts := hI.lasts_step hU hs
  cases a with
  | site a =>
      obtain ⟨hof, site, hsite, rfl⟩ := site_some hs
      exact h.grow hI hlasts rfl rfl
        (fun r hr => (site_beside hof hsite).2.ledgers _ (h.rows r hr)) h.shown
  | message account e msg =>
      obtain ⟨-, hs⟩ := Option.ite_none_right_eq_some.mp hs
      obtain ⟨tail, htail, rfl⟩ := Option.map_eq_some_iff.mp hs
      obtain ⟨touched, -, htail⟩ := Option.bind_eq_some_iff.mp htail
      obtain ⟨-, htail⟩ := Option.ite_none_left_eq_some.mp htail
      cases Option.some.inj htail
      exact h.grow hI hlasts rfl rfl h.rows h.shown
  | tail a =>
      obtain ⟨hof, hs⟩ := Option.ite_none_right_eq_some.mp hs
      obtain ⟨tail, htail, rfl⟩ := Option.map_eq_some_iff.mp hs
      have htailStep := tailStep_of_step hof htail
      obtain ⟨hforward, hrecorded⟩ := tracker_of_tailStep htailStep
      refine h.grow hI hlasts rfl rfl (fun r hr => ?_) (fun r hr => ?_)
      · rcases hrecorded r hr with hold | ⟨hrow, -⟩
        · exact ledgers_of_tailStep htailStep (h.rows r hold)
        · exact hrow
      · rcases hrecorded r hr with hold | ⟨-, hreached⟩
        · refine (h.shown r hold).imp id ?_
          rintro ⟨last, hlast, hle⟩
          obtain ⟨reached, hreached, hge⟩ := hforward last hlast
          exact ⟨reached, hreached, hle.trans hge⟩
        · exact Or.inr hreached
  | mended j range =>
      obtain ⟨-, hs⟩ := Option.ite_none_right_eq_some.mp hs
      cases Option.some.inj hs
      refine ⟨fun p hp hiss => ?_, h.starts, h.rows, h.shown⟩
      rcases List.mem_append.mp hp with hp | hp
      · exact h.mended p hp hiss
      · cases List.mem_singleton.mp hp
        exact hends hiss
  | restart =>
      cases Option.some.inj hs
      refine ⟨h.mended, fun p hp f hf hkind hiss => ?_, h.rows, fun r hr => ?_⟩
      · rcases List.mem_append.mp hp with hp | hp
        · exact h.starts p hp f hf hkind hiss
        · cases List.mem_singleton.mp hp
          exact hends f hf hkind hiss
      · by_cases hzero : r.ledger = 0
        · exact Or.inl hzero
        · obtain ⟨row, hrow, hkey⟩ := h.rows r hr
          have hpos : 0 < row.ledgerIndex := by
            rw [show row.ledgerIndex = r.ledger from hkey]
            omega
          obtain ⟨anchor, hanchor, hle⟩ := le_highWater_of_recorded hrow hpos
          exact Or.inr ⟨anchor, hanchor, hkey ▸ hle⟩

/-! ## In one process -/

theorem lasting_coming (X : Xrpl) (U : Upstream) (iss : TrackedIssuance) (w : ℕ)
    (brought : List BinaryTxEntry) : Lasting X U (Coming X iss w brought) where
  complete := by
    intro db j e hst
    by_cases hj : j = iss
    · exact Or.inr (Or.inr (Or.inl (hj ▸ hst)))
    · exact Or.inl hj
  lasts := by
    rintro db db' hlasts j hj e he (hne | hle | hst | hbrought)
    · exact Or.inl hne
    · exact Or.inr (Or.inl hle)
    · by_cases hjiss : j = iss
      · subst hjiss
        exact Or.inr (Or.inr (Or.inl (hlasts.storedFor j hj e he hst)))
      · exact Or.inl hjiss
    · exact Or.inr (Or.inr (Or.inr hbrought))

/-- What is stored up to a ledger is coming. -/
theorem held_coming {brought : List BinaryTxEntry} {db : Archive} {j : TrackedIssuance}
    {range : LedgerRange} (h : j = iss → Held X U (StoredFor X) db iss range) :
    Held X U (Coming X iss w brought) db j range := by
  intro e he htouch hcovers
  by_cases hj : j = iss
  · subst hj
    exact Or.inr (Or.inr (Or.inl (h rfl e he htouch hcovers)))
  · exact Or.inl hj

theorem Goes.assumed {brought : List BinaryTxEntry} {a : Action}
    (h : Goes X U iss w t brought s a) : Assumed X U (Coming X iss w brought) s a := by
  cases a with
  | tail a =>
      cases a with
      | consume => exact h
      | healed => exact h
      | _ => exact trivial
  | mended j range => exact held_coming h
  | _ => exact trivial

theorem Goes.ends {brought : List BinaryTxEntry} {a : Action}
    (h : Goes X U iss w t brought s a) : Ends X U iss s a := by
  cases a with
  | mended j range => exact h
  | restart => exact absurd h id
  | _ => exact trivial

/-- The invariant of the tail holds when a process begins. -/
theorem Begun.inv {brought : List BinaryTxEntry} (hbegun : Begun s)
    (hI : Inv X U anyStorage s) (h : Outlasts X U iss s) : Inv X U (Coming X iss w brought) s where
  site := hI.site
  fetching := hI.fetching
  queue := hI.queue
  first := hI.first
  settled := by
    rintro j hj e - - habove ⟨last, hlast, hle⟩
    obtain ⟨-, -, htracker⟩ := idle hbegun.phase
    rw [htracker] at hlast
    exact absurd (hle.trans (hbegun.since j hj last hlast)) (not_le.mpr habove)
  mended := fun p hp => ⟨(hI.mended p hp).1, held_coming (h.mended p hp)⟩
  starts := fun p hp f hf => ⟨(hI.starts p hp f hf).1, fun hkind =>
    held_coming (h.starts p hp f hf hkind)⟩

/-- What the stream has brought in the process is upstream's, and what is due of it lands,
    unless the loop has thrown. -/
structure Landing (X : Xrpl) (U : Upstream) (iss : TrackedIssuance) (w : ℕ) (t s : Station) :
    Prop where
  earlier : t.tail.delivered.length ≤ s.tail.delivered.length
  has : ∀ e ∈ broughtIn t s, U.Has e
  lands : s.tail.phase = .stopped ∨ (iss ∈ s.tail.tracked →
    ∀ e ∈ broughtIn t s, Due X iss w s e → Lands X s.tail iss e)

theorem landing_refl : Landing X U iss w t t where
  earlier := le_rfl
  has := by
    intro e he
    unfold broughtIn at he
    rw [List.drop_length] at he
    exact absurd he List.not_mem_nil
  lands := by
    refine Or.inr fun _ e he => ?_
    unfold broughtIn at he
    rw [List.drop_length] at he
    exact absurd he List.not_mem_nil

/-- Where nothing more is brought or tracked. -/
theorem Landing.grow (h : Landing X U iss w t s)
    (hdelivered : s'.tail.delivered = s.tail.delivered)
    (htracked : s'.tail.tracked = s.tail.tracked) (hsince : s.since iss ≤ s'.since iss)
    (hphase : s.tail.phase = .stopped → s'.tail.phase = .stopped)
    (hlands : s'.tail.phase ≠ .stopped → iss ∈ s.tail.tracked → ∀ e, U.Has e → Due X iss w s e →
      Lands X s.tail iss e → Lands X s'.tail iss e) : Landing X U iss w t s' := by
  have hbrought : broughtIn t s' = broughtIn t s := by
    unfold broughtIn
    rw [hdelivered]
  refine ⟨hdelivered.symm ▸ h.earlier, fun e he => h.has e (hbrought ▸ he), ?_⟩
  by_cases hstopped : s'.tail.phase = .stopped
  · exact Or.inl hstopped
  · refine Or.inr fun hiss e he hdue => ?_
    rw [hbrought] at he
    rw [htracked] at hiss
    have hdue : Due X iss w s e := ⟨hdue.1, hsince.trans_lt hdue.2.1, hdue.2.2⟩
    refine hlands hstopped hiss e (h.has e he) hdue ?_
    exact (h.lands.resolve_left fun hphase' => hstopped (hphase hphase')) hiss e he hdue

/-- What is on its way still is when nothing leaves the queue or the requests. -/
theorem Lands.mono (hlasts : Lasts X U s.tail.db s'.tail.db) (hiss : iss ∈ registered s.tail.db)
    {e : BinaryTxEntry} (he : U.Has e)
    (hfetching : ∀ f ∈ s.tail.fetching, f ∈ s'.tail.fetching)
    (hqueue : ∀ item ∈ s.tail.queue, item ∈ s'.tail.queue) (h : Lands X s.tail iss e) :
    Lands X s'.tail iss e := by
  rcases h with hst | ⟨f, hf, hentry⟩ | ⟨item, hitem, hcarries⟩
  · exact Or.inl (hlasts.storedFor iss hiss e he hst)
  · exact Or.inr (Or.inl ⟨f, hfetching f hf, hentry⟩)
  · exact Or.inr (Or.inr ⟨item, hqueue item hitem, hcarries⟩)

/-- A writer's step. -/
theorem Landing.atSite (hU : U.Sound X) (h : Landing X U iss w t s) (hI : Inv X U anyStorage s)
    {brought : List BinaryTxEntry} {a : RegistrarScans.Action}
    (hgoes : Goes X U iss w t brought s (.site a))
    (hs : RegistrarStation.step X U s (.site a) = some s') : Landing X U iss w t s' := by
  have hlasts := hI.lasts_step hU hs
  obtain ⟨hof, site, hsite, rfl⟩ := site_some hs
  by_cases hstopped : s.tail.phase = .stopped
  · exact ⟨h.earlier, h.has, Or.inl hstopped⟩
  refine ⟨h.earlier, h.has, Or.inr fun hiss e he hdue => ?_⟩
  have he : e ∈ broughtIn t s := he
  by_cases hold : iss ∈ s.tail.tracked
  · have hsince : (s.atSite site).since iss = s.since iss := if_pos hold
    have hdue : Due X iss w s e := ⟨hdue.1, hsince ▸ hdue.2.1, hdue.2.2⟩
    have hlands := h.lands.resolve_left hstopped hold e he hdue
    exact Lands.mono hlasts (hI.site.tracked iss hold) (h.has e he) (fun _ hf => hf)
      (fun _ hitem => hitem) hlands
  · -- the issuance is tracked from now on
    rcases (site_beside hof hsite).1 with hsame | ⟨rfl, hall⟩
    · have hiss : iss ∈ site.tracked := hiss
      rw [hsame] at hiss
      exact absurd hiss hold
    · have hregistered : iss ∈ registered s.tail.db := by
        have hiss : iss ∈ site.tracked := hiss
        rw [hall] at hiss
        exact hiss
      have hsince : (s.atSite site).since iss = (arrived s.tail).getD 0 := if_neg hold
      have hlands : Lands X s.tail iss e :=
        hgoes hregistered hold e he hdue.1 (hsince ▸ hdue.2.1) hdue.2.2
      exact Lands.mono hlasts hregistered (h.has e he) (fun _ hf => hf)
        (fun _ hitem => hitem) hlands

/-- A message arrives, and its request goes out. -/
theorem Landing.message (h : Landing X U iss w t s) {account : String} {e : BinaryTxEntry}
    {msg : StreamMessage} (hs : RegistrarStation.step X U s (.message account e msg) = some s') :
    Landing X U iss w t s' := by
  obtain ⟨he, hs⟩ := Option.ite_none_right_eq_some.mp hs
  obtain ⟨tail, htail, rfl⟩ := Option.map_eq_some_iff.mp hs
  obtain ⟨touched, -, htail⟩ := Option.bind_eq_some_iff.mp htail
  obtain ⟨-, htail⟩ := Option.ite_none_left_eq_some.mp htail
  cases Option.some.inj htail
  have hbrought : ∀ x ∈ (s.tail.delivered ++ [e]).drop t.tail.delivered.length,
      x ∈ broughtIn t s ∨ x = e := by
    intro x hx
    rw [List.drop_append_of_le_length h.earlier] at hx
    exact (List.mem_append.mp hx).imp id List.mem_singleton.mp
  refine ⟨?_, fun x hx => ?_, ?_⟩
  · show _ ≤ (s.tail.delivered ++ [e]).length
    rw [List.length_append]
    exact h.earlier.trans (Nat.le_add_right _ _)
  · rcases hbrought x hx with hx | rfl
    · exact h.has x hx
    · exact ⟨account, he⟩
  · refine h.lands.imp id fun hlands hiss x hx hdue => ?_
    rcases hbrought x hx with hx | rfl
    · rcases hlands hiss x hx hdue with hst | ⟨f, hf, hentry⟩ | hqueued
      · exact Or.inl hst
      · exact Or.inr (Or.inl ⟨f, List.mem_append_left _ hf, hentry⟩)
      · exact Or.inr (Or.inr hqueued)
    · exact Or.inr (Or.inl ⟨⟨x, msg, touched⟩,
        List.mem_append_right _ (List.mem_singleton_self _), rfl⟩)

/-- A request ends: what it was for lands with its event, or without it. -/
theorem Lands.fetched {f : RegistrarProgress.Fetch} {event : Option TransactionEvent}
    (hevent : ∀ ev ∈ event, IsEventOf X f.entry ev) {e : BinaryTxEntry}
    (hnone : event = none → f.entry = e →
      Lands X { s.tail with fetching := s.tail.fetching.erase f } iss f.entry)
    (h : Lands X s.tail iss e) :
    Lands X { s.tail with
      fetching := s.tail.fetching.erase f
      queue := s.tail.queue ++ event.toList.map .transaction } iss e := by
  rcases h with hst | ⟨f', hf', hentry⟩ | ⟨item, hitem, hcarries⟩
  · exact Or.inl hst
  · by_cases hsame : f' = f
    · subst hsame
      cases hres : event with
      | none =>
          subst hentry
          rcases hnone hres rfl with hst | hrequest | ⟨item, hitem, hcarries⟩
          · exact Or.inl hst
          · exact Or.inr (Or.inl hrequest)
          · exact Or.inr (Or.inr ⟨item, List.mem_append_left _ hitem, hcarries⟩)
      | some ev =>
          subst hentry
          refine Or.inr (Or.inr ⟨.transaction ev, List.mem_append_right _ ?_, hevent ev hres⟩)
          exact List.mem_singleton_self _
    · exact Or.inr (Or.inl ⟨f', (List.mem_erase_of_ne hsame).mpr hf', hentry⟩)
  · exact Or.inr (Or.inr ⟨item, List.mem_append_left _ hitem, hcarries⟩)

/-- The tail takes an event, and stores it for what it tracks unless it throws. -/
theorem Lands.consume (hU : U.Sound X) (hI : Inv X U anyStorage s) {item : TailEvent}
    {queue : List TailEvent} (hqueue : s.tail.queue = item :: queue)
    (hiss : iss ∈ s.tail.tracked)
    (hrunning : (RegistrarProgress.consumeEvent X { s.tail with queue, phase := .idle }
      item).phase ≠ .stopped)
    {e : BinaryTxEntry} (he : U.Has e) (h : Lands X s.tail iss e) :
    Lands X (RegistrarProgress.consumeEvent X { s.tail with queue, phase := .idle } item)
      iss e := by
  have hregistered := hI.site.tracked iss hiss
  cases item with
  | ledger n closeTime =>
      have hlasts : Lasts X U s.tail.db (recordEvent n closeTime s.tail.db) :=
        (sameData_recordEvent n closeTime).lasts
      rcases h with hst | hrequest | ⟨item, hitem, hcarries⟩
      · exact Or.inl (hlasts.storedFor iss hregistered e he hst)
      · exact Or.inr (Or.inl hrequest)
      · rw [hqueue] at hitem
        rcases List.mem_cons.mp hitem with rfl | hitem
        · exact absurd hcarries id
        · exact Or.inr (Or.inr ⟨item, hitem, hcarries⟩)
  | transaction ev =>
      cases hingest : ingestEvent X s.tail.tracked ev s.tail.db with
      | error err =>
          simp only [RegistrarProgress.consumeEvent, hingest] at hrunning
          exact absurd rfl hrunning
      | ok db =>
          have hafter : RegistrarProgress.consumeEvent X { s.tail with queue, phase := .idle }
              (.transaction ev) = { s.tail with db, queue, phase := .idle } := by
            simp only [RegistrarProgress.consumeEvent, hingest]
          rw [hafter]
          obtain ⟨x, hx, hev⟩ := hI.queue ev (hqueue ▸ List.mem_cons_self)
          have hlasts := lasts_ingestEvent hU hI.site.tracked hx hev hingest
          rcases h with hst | hrequest | ⟨item, hitem, hcarries⟩
          · exact Or.inl (hlasts.storedFor iss hregistered e he hst)
          · exact Or.inr (Or.inl hrequest)
          · rw [hqueue] at hitem
            rcases List.mem_cons.mp hitem with rfl | hitem
            · refine Or.inl ((writes_ingestEvent hcarries hingest).1.storesFor hU ?_ hiss ?_
                (List.mem_singleton_self e))
              · exact fun y hy => List.mem_singleton.mp hy ▸ he
              · exact fun j hj hid => registered_eq (hI.site.tracked j hj) hregistered hid
            · exact Or.inr (Or.inr ⟨item, hitem, hcarries⟩)

/-- A step of the tail's own. -/
theorem Landing.atTail (hU : U.Sound X) (h : Landing X U iss w t s) (hI : Inv X U anyStorage s)
    {brought : List BinaryTxEntry} {a : RegistrarProgress.Action} (hof : OfTail a)
    (hgoes : Goes X U iss w t brought s (.tail a)) {tail : Tail}
    (hs : RegistrarProgress.step X s.tail a = some tail) :
    Landing X U iss w t { s with
      tail, since := s.sinceAfter a, abandoned := s.abandonedAfter a } := by
  cases tailStep_of_step hof hs with
  | ledgerClosed n closeTime =>
      refine h.grow rfl rfl (le_sinceAfter s n closeTime iss) id fun _ _ e _ _ hlands => ?_
      rcases hlands with hst | hrequest | ⟨item, hitem, hcarries⟩
      · exact Or.inl hst
      · exact Or.inr (Or.inl hrequest)
      · exact Or.inr (Or.inr ⟨item, List.mem_append_left _ hitem, hcarries⟩)
  | fetched f res hf hevent =>
      refine h.grow rfl rfl le_rfl id fun _ hiss e _ hdue hlands => ?_
      refine Lands.fetched hevent (fun hnone hentry => ?_) hlands
      exact hgoes hnone hiss (hentry ▸ hdue)
  | fetchFailed f =>
      refine h.grow rfl rfl le_rfl id fun _ hiss e _ hdue hlands => ?_
      have hlands := @Lands.fetched X iss s f none nofun e
        (fun _ hentry => hgoes hiss (hentry ▸ hdue)) hlands
      rcases hlands with hst | hrequest | ⟨item, hitem, hcarries⟩
      · exact Or.inl hst
      · exact Or.inr (Or.inl hrequest)
      · exact Or.inr (Or.inr ⟨item, List.append_nil s.tail.queue ▸ hitem, hcarries⟩)
  | consume item queue hphase hqueue =>
      obtain ⟨-, -, hdelivered, htracked⟩ := RegistrarProgress.consumeEvent_same X
        { s.tail with queue, phase := .idle } item
      refine h.grow hdelivered htracked le_rfl (fun hstopped => ?_)
        fun hrunning hiss e he _ hlands => ?_
      · exact absurd (hphase.symm.trans hstopped) (by simp)
      · exact hlands.consume hU hI hqueue hiss hrunning he
  | observe n hphase =>
      refine h.grow rfl rfl le_rfl (fun hstopped => ?_) fun _ _ _ _ _ hlands => hlands
      exact absurd (hphase.symm.trans hstopped) (by simp)
  | healed gap hphase =>
      refine h.grow rfl rfl le_rfl (fun hstopped => ?_) fun _ _ _ _ _ hlands => hlands
      exact absurd (hphase.symm.trans hstopped) (by simp)
  | healFailed gap hphase =>
      exact h.grow rfl rfl le_rfl (fun _ => rfl) fun _ _ _ _ _ hlands => hlands

/-- **WHAT EVERY STEP OF A PROCESS KEEPS**. -/
theorem Landing.step (hU : U.Sound X) (h : Landing X U iss w t s) (hI : Inv X U anyStorage s)
    {brought : List BinaryTxEntry} {a : Action} (hgoes : Goes X U iss w t brought s a)
    (hs : RegistrarStation.step X U s a = some s') : Landing X U iss w t s' := by
  cases a with
  | site a => exact h.atSite hU hI hgoes hs
  | message account e msg => exact h.message hs
  | tail a =>
      obtain ⟨hof, hs⟩ := Option.ite_none_right_eq_some.mp hs
      obtain ⟨tail, htail, rfl⟩ := Option.map_eq_some_iff.mp hs
      exact h.atTail hU hI hof hgoes htail
  | mended j range =>
      obtain ⟨-, hs⟩ := Option.ite_none_right_eq_some.mp hs
      cases Option.some.inj hs
      exact h.grow rfl rfl le_rfl id fun _ _ _ _ _ hlands => hlands
  | restart => exact absurd hgoes id

/-- The invariants of a process that goes well. -/
structure Well (X : Xrpl) (U : Upstream) (iss : TrackedIssuance) (w : ℕ) (t : Station)
    (brought : List BinaryTxEntry) (s : Station) : Prop where
  writers : Inv X U anyStorage s
  outlasts : Outlasts X U iss s
  coming : Inv X U (Coming X iss w brought) s
  landing : Landing X U iss w t s

theorem Well.step (hU : U.Sound X) {brought : List BinaryTxEntry}
    (h : Well X U iss w t brought s) {a : Action} (hgoes : Goes X U iss w t brought s a)
    (hs : RegistrarStation.step X U s a = some s') : Well X U iss w t brought s' where
  writers := h.writers.unassumed hU hs
  outlasts := h.outlasts.step hU h.writers hgoes.ends hs
  coming := by
    refine h.coming.step hU (lasting_coming X U iss w brought) hgoes.assumed ?_ hs
    cases a with
    | restart => exact absurd hgoes id
    | _ => exact trivial
  landing := h.landing.step hU h.writers hgoes hs

/-- So they hold at the end of a life whose last process goes well. -/
theorem Well.of_steps (hU : U.Sound X) {brought : List BinaryTxEntry} {s₀ : Station}
    (hstart : Fresh s₀) (hpast : Steps (RegistrarStation.step X U) (Ends X U iss) s₀ t)
    (hbegun : Begun t)
    (hrun : Steps (RegistrarStation.step X U) (Goes X U iss w t brought) t s) :
    Well X U iss w t brought s := by
  have hboth : Inv X U anyStorage t ∧ Outlasts X U iss t := by
    refine hpast.inv (fun u => Inv X U anyStorage u ∧ Outlasts X U iss u)
      ⟨hstart.inv, outlasts_of_fresh hstart⟩ ?_
    rintro u a u' ⟨hI, hout⟩ hends hs
    exact ⟨hI.unassumed hU hs, hout.step hU hI hends hs⟩
  obtain ⟨hI, hout⟩ := hboth
  refine hrun.inv (Well X U iss w t brought) ⟨hI, hout, hbegun.inv hI hout, landing_refl⟩ ?_
  exact fun u a u' hu hgoes hs => hu.step hU hgoes hs

/-- **WHAT THE TAIL WATCHED IS STORED** once nothing is on its way. -/
theorem Well.watched (h : Well X U iss w t (broughtIn t s) s) (hquiet : Quiet s)
    (htracked : iss ∈ s.tail.tracked) {e : BinaryTxEntry} (he : U.Has e)
    (hdue : Due X iss w s e) (htailed : Tailed s e.ledgerIndex) :
    StoredFor X s.tail.db iss e := by
  obtain ⟨htouch, hsince, hw⟩ := hdue
  obtain ⟨r, hr, hle⟩ := htailed
  have hlast : ∃ last ∈ s.tail.tracker.last, e.ledgerIndex ≤ last := by
    rcases h.outlasts.shown r hr with hzero | ⟨last, hlast, hrle⟩
    · omega
    · exact ⟨last, hlast, hle.trans hrle⟩
  rcases h.coming.settled iss htracked e he htouch hsince hlast with hcoming | ⟨gap, hgap, -⟩
  · rcases hcoming with hne | hbelow | hst | hbrought
    · exact absurd rfl hne
    · omega
    · exact hst
    · -- the stream has brought it, and nothing is queued or requested
      have hrunning : s.tail.phase ≠ .stopped := by
        rw [hquiet.phase]
        simp
      rcases h.landing.lands.resolve_left hrunning htracked e hbrought ⟨htouch, hsince, hw⟩ with
        hst | ⟨f, hf, -⟩ | ⟨item, hitem, -⟩
      · exact hst
      · rw [hquiet.fetching] at hf
        exact absurd hf List.not_mem_nil
      · rw [hquiet.queue] at hitem
        exact absurd hitem List.not_mem_nil
  · rw [hquiet.pending] at hgap
    exact absurd hgap List.not_mem_nil

end Life

/-! ## The hand-over -/

/-- What is neither watched nor in the hole was healed, or lies below a later start. -/
theorem covered_of_not_hole {s : Station} {f : Finished} {w m : ℕ} (h : ¬ Hole s f w m)
    (hafter : f.validated < m) (hbefore : m ≤ max (s.since f.issuance) w) :
    (∃ p ∈ s.mended, p.1 = f.issuance ∧ p.2.Covers m)
      ∨ ∃ p ∈ s.starts, f ∈ p.finished ∧ m ≤ p.anchor := by
  by_contra hnone
  obtain ⟨hmended, hanchored⟩ := not_or.mp hnone
  refine h ⟨hafter, hbefore, fun p hp hiss hcovers => ?_, fun p hp hfp => not_le.mp fun hle => ?_⟩
  · exact hmended ⟨p, hp, hiss, hcovers⟩
  · exact hanchored ⟨p, hp, hfp, hle⟩

/-- **THE HAND-OVER IS COMPLETE** exactly where what lies in the hole is stored, and so
    wherever the tail has recorded no ledger of it: in every run, once the issuance is
    tracked and all pending steps have run. -/
theorem hand_over_iff (X : Xrpl) (U : Upstream) (hU : U.Sound X) {iss : TrackedIssuance}
    {w : ℕ} {s₀ t s : Station} (hstart : Fresh s₀)
    (hpast : Steps (step X U) (Ends X U iss) s₀ t) (hbegun : Begun t)
    (hrun : Steps (step X U) (Goes X U iss w t (broughtIn t s)) t s) (hquiet : Quiet s)
    (htracked : iss ∈ s.tail.tracked) {f : Finished} (hf : f ∈ s.finished)
    (hkind : f.kind = .issuer) (hiss : f.issuance = iss) :
    (HandedOver X U s f ↔ ∀ e, U.Has e → Touches X iss e → f.fromLedger ≤ e.ledgerIndex →
      Tailed s e.ledgerIndex → Hole s f w e.ledgerIndex → StoredFor X s.tail.db iss e)
    ∧ ((∀ m, Tailed s m → ¬ Hole s f w m) → HandedOver X U s f) := by
  have hwell := Well.of_steps hU hstart hpast hbegun hrun
  subst hiss
  have hiff : HandedOver X U s f ↔ ∀ e, U.Has e → Touches X f.issuance e →
      f.fromLedger ≤ e.ledgerIndex → Tailed s e.ledgerIndex → Hole s f w e.ledgerIndex →
      StoredFor X s.tail.db f.issuance e := by
    constructor
    · intro h e he htouch hfrom htailed _
      exact h e he htouch hfrom htailed
    · intro h e he htouch hfrom htailed
      by_cases hhole : Hole s f w e.ledgerIndex
      · exact h e he htouch hfrom htailed hhole
      by_cases hafter : f.validated < e.ledgerIndex
      · by_cases hbefore : e.ledgerIndex ≤ max (s.since f.issuance) w
        · rcases covered_of_not_hole hhole hafter hbefore with
            ⟨p, hp, hpiss, hcovers⟩ | ⟨p, hp, hfp, hle⟩
          · exact hwell.outlasts.mended p hp hpiss e he htouch hcovers
          · exact hwell.outlasts.starts p hp f hfp hkind rfl e he htouch ⟨hfrom, hle⟩
        · obtain ⟨hsince, hw⟩ := max_lt_iff.mp (not_le.mp hbefore)
          exact hwell.watched hquiet htracked he ⟨htouch, hsince, hw⟩ htailed
      · have hok := hwell.writers.site.finished f hf
        exact hok.complete e (hU.lists he htouch (hok.issuer hkind)) hfrom (not_lt.mp hafter)
          htouch
  exact ⟨hiff, fun hnone => hiff.mpr fun e _ _ _ htailed hhole =>
    absurd hhole (hnone e.ledgerIndex htailed)⟩

/-! ## A payment after the sweep -/

instance {iss : TrackedIssuance} {w : ℕ} {s : Station} {e : BinaryTxEntry} :
    Decidable (Due payXrpl iss w s e) :=
  inferInstanceAs (Decidable (_ ∧ _ ∧ _))

instance {t : Tail} {iss : TrackedIssuance} {e : BinaryTxEntry} :
    Decidable (Lands payXrpl t iss e) :=
  inferInstanceAs (Decidable (_ ∨ _))

instance {iss : TrackedIssuance} {w : ℕ} {brought : List BinaryTxEntry} (db : Archive)
    (j : TrackedIssuance) (e : BinaryTxEntry) : Decidable (Coming payXrpl iss w brought db j e) :=
  inferInstanceAs (Decidable (_ ∨ _ ∨ _ ∨ _))

instance {iss : TrackedIssuance} {w : ℕ} {t : Station} {brought : List BinaryTxEntry}
    (s : Station) : (a : Action) → Decidable (Goes payXrpl payUpstream iss w t brought s a)
  | .tail .consume => inferInstanceAs
      (Decidable (Assumed payXrpl payUpstream (Coming payXrpl iss w brought) s (.tail .consume)))
  | .tail .healed => inferInstanceAs
      (Decidable (Assumed payXrpl payUpstream (Coming payXrpl iss w brought) s (.tail .healed)))
  | .tail (.fetched ..) | .tail (.fetchFailed _) => inferInstanceAs (Decidable (_ → _))
  | .mended .. => inferInstanceAs (Decidable (_ → _))
  | .site .refreshTracked => inferInstanceAs (Decidable (_ → _ → ∀ e ∈ _, _))
  | .restart => instDecidableFalse
  | .tail (.ledgerClosed ..) | .tail (.transaction ..) | .tail .observe | .tail .healFailed
  | .tail (.write _) | .tail (.lookUp _) | .tail (.register _) | .tail .refreshTracked
  | .tail .restart | .message .. => instDecidableTrue
  | .site (.close _) | .site (.register _) | .site (.insertAccount _) | .site (.enqueue ..)
  | .site (.reclaimStale _) | .site (.record _) | .site (.recordLedger _) | .site (.begin ..)
  | .site (.read ..) | .site (.fail _) | .site (.heal ..) | .site (.event ..)
  | .site .restart => instDecidableTrue

/-- The sweep of the issuance, as it begins. -/
def payScan : Scan := Scan.begin .issuer payIssuance payJob

/-- What the tail does about a ledger. -/
def takes (n : ℕ) : List Action :=
  [.tail (.ledgerClosed n (some 0)), .tail .consume, .tail .observe]

/-- The sweep at the registration fails; that of a later re-discovery ends at the mint,
    and the payment's ledger passes before the issuance is tracked. -/
def rediscoveryRun : List Action :=
  [.site (.register payRow), .site (.enqueue payRow "rIssuer" .issuer),
    .site (.begin .issuer payIssuance payJob), .site (.fail payScan)] ++ takes 199 ++
    [.site (.reclaimStale 1), .site (.begin .issuer payIssuance payJob),
      .site (.read payScan [] ⟨[mintEntry], none, ⟨"clio", "now"⟩⟩ 200)] ++ takes 200 ++
    takes 201 ++ [.site .refreshTracked]

/-- The sweep ends at the mint, and the payment comes after its ledger was recorded. -/
def registrationRun : List Action :=
  [.site (.register payRow), .site (.enqueue payRow "rIssuer" .issuer),
    .site (.begin .issuer payIssuance payJob),
    .site (.read payScan [] ⟨[mintEntry], none, ⟨"clio", "now"⟩⟩ 200)] ++ takes 200 ++
    [.site .refreshTracked] ++ takes 201 ++
    [.message "rAlice" payEntry ⟨"t2", payXrpl.decodeMeta "pay", some 201⟩,
      .tail (.fetched ⟨payEntry, ⟨"t2", payXrpl.decodeMeta "pay", some 201⟩,
        ["rAlice", "rIssuer", "rBob"]⟩ ⟨some "t2", some "pay", some 201, ⟨"rippled", "later"⟩⟩),
      .tail .consume]

theorem payStation_begun : Begun payStation := ⟨rfl, rfl, rfl, nofun⟩

/-- The issuance is tracked from the ledger of its sweep's last page on: nothing is lost
    between. -/
theorem hand_over_iff_pay : ∃ s : Station, ∃ f ∈ s.finished,
    Tailed s 201 ∧ f.validated = 200 ∧ HandedOver payXrpl payUpstream s f := by
  have hrun : (runChecked (step payXrpl payUpstream)
      (Goes payXrpl payUpstream payIssuance 0 payStation [payEntry]) payStation
      registrationRun).map (fun s => decide (broughtIn payStation s = [payEntry]
        ∧ s.tail.phase = .idle ∧ s.tail.queue = [] ∧ s.tail.fetching = [] ∧ s.pending = []
        ∧ payIssuance ∈ s.tail.tracked ∧ s.since payIssuance = 200 ∧ Tailed s 201
        ∧ ∃ f ∈ s.finished, f.kind = .issuer ∧ f.issuance = payIssuance
          ∧ f.validated = 200)) = some true := by
    decide +kernel
  obtain ⟨s, hsteps, hend⟩ := Steps.exists_of_runChecked _ hrun
  obtain ⟨hbrought, hphase, hqueue, hfetching, hpending, htracked, hsince, htailed, f, hf, hkind,
    hissuance, hvalidated⟩ := of_decide_eq_true hend
  rw [← hbrought] at hsteps
  refine ⟨s, f, hf, htailed, hvalidated, (hand_over_iff payXrpl payUpstream payUpstream_sound
    payStation_fresh (Steps.refl payStation) payStation_begun hsteps
    ⟨hphase, hqueue, hfetching, hpending⟩ htracked hf hkind hissuance).2 fun m _ hhole => ?_⟩
  have hafter := hhole.after
  have hbefore := hhole.before
  rw [hissuance, hsince] at hbefore
  rw [hvalidated] at hafter
  exact absurd hbefore (not_le.mpr hafter)

/-- No heal follows a re-discovery: the payment is never read. -/
theorem rediscovery_leaves_hole : ∃ s : Station, ∃ f ∈ s.finished,
    Steps (step payXrpl payUpstream)
      (Goes payXrpl payUpstream payIssuance 0 payStation []) payStation s
    ∧ Quiet s ∧ f.kind = .issuer ∧ f.issuance = payIssuance ∧ payIssuance ∈ s.tail.tracked
    ∧ Hole s f 0 201 ∧ ¬ HandedOver payXrpl payUpstream s f := by
  have hrun : (runChecked (step payXrpl payUpstream)
      (Goes payXrpl payUpstream payIssuance 0 payStation []) payStation
      rediscoveryRun).map (fun s => decide (s.tail.phase = .idle ∧ s.tail.queue = []
        ∧ s.tail.fetching = [] ∧ s.pending = [] ∧ payIssuance ∈ s.tail.tracked
        ∧ s.since payIssuance = 201 ∧ s.mended = [] ∧ s.starts = [] ∧ Tailed s 201
        ∧ ¬ StoredFor payXrpl s.tail.db payIssuance payEntry
        ∧ ∃ f ∈ s.finished, f.kind = .issuer ∧ f.issuance = payIssuance
          ∧ f.fromLedger = 0 ∧ f.validated = 200)) = some true := by
    decide +kernel
  obtain ⟨s, hsteps, hend⟩ := Steps.exists_of_runChecked _ hrun
  obtain ⟨hphase, hqueue, hfetching, hpending, htracked, hsince, hmended, hstarts, htailed,
    hmissing, f, hf, hkind, hissuance, hfrom, hvalidated⟩ := of_decide_eq_true hend
  refine ⟨s, f, hf, hsteps, ⟨hphase, hqueue, hfetching, hpending⟩, hkind, hissuance, htracked,
    ⟨?_, ?_, ?_, ?_⟩, fun h => hmissing ?_⟩
  · rw [hvalidated]
    decide
  · rw [hissuance, hsince]
    decide
  · rw [hmended]
    exact fun p hp => absurd hp List.not_mem_nil
  · rw [hstarts]
    exact fun p hp => absurd hp List.not_mem_nil
  · have htouch : Touches payXrpl f.issuance payEntry := by
      rw [hissuance]
      decide +kernel
    have hstored := h payEntry ⟨"rIssuer", by decide⟩ htouch (hfrom ▸ Nat.zero_le _) htailed
    rw [hissuance] at hstored
    exact hstored

end RegistrarHandOver
