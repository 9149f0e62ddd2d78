import Registrar.Scans
import Registrar.TailProgress

/-! # A server

    One tail and any number of scans write one archive, and processes end at any point.
    `Station` is such a server with what a restart forgets: since when the tail watches
    an issuance, the heals that returned and the gaps whose heal threw.  `Passed` says
    which ledgers are accounted for, and the invariant that what is passed is stored,
    where every process ends with the ledgers up to its successor's anchor passed. -/

namespace RegistrarStation

open KeyedTable Runs Statements RegistrarMetadata RegistrarArchive RegistrarIngest
open RegistrarBackfill RegistrarReads RegistrarTail RegistrarWritten RegistrarPages
open RegistrarDiscovery (registered registered_eq create)
open RegistrarScans (Site Scan Finished JobsKept)
open RegistrarProgress (Tail InRanges ledgersOf le_observe_last)

/-! ## The server -/

/-- The ledger the tracker will be at once the queue is consumed. -/
def arrived (t : Tail) : Option ℕ := (t.tracker.observeAll (ledgersOf t.queue)).2.last

/-- A start: the ledger it anchored at, zero for none, and the scans that had ended. -/
structure Start where
  anchor : ℕ
  finished : List Finished
  deriving DecidableEq

/-- The tail and the scans of a server.  `since` is the last ledger that had arrived when
    the tail began to watch an issuance, `mended` the heals after a sweep that returned,
    `abandoned` the gaps whose heal threw. -/
structure Station where
  tail : Tail
  validated : ℕ := 0
  scans : List Scan := []
  finished : List Finished := []
  since : TrackedIssuance → ℕ
  mended : List (TrackedIssuance × LedgerRange) := []
  abandoned : List LedgerRange := []
  starts : List Start := []

def Station.site (s : Station) : Site :=
  ⟨s.tail.db, s.validated, s.tail.tracked, s.scans, s.finished⟩

/-- The site has moved; what is tracked from now on is watched from the ledgers to
    arrive. -/
def Station.atSite (s : Station) (site : Site) : Station :=
  { s with
    tail := { s.tail with db := site.db, tracked := site.tracked }
    validated := site.validated
    scans := site.scans
    finished := site.finished
    since := fun iss => if iss ∈ s.tail.tracked then s.since iss else (arrived s.tail).getD 0 }

inductive Action
  -- a step of a writer, or of the admin API
  | site (a : RegistrarScans.Action)
  -- a message about a transaction of the account
  | message (account : String) (e : BinaryTxEntry) (msg : StreamMessage)
  | tail (a : RegistrarProgress.Action)
  -- a heal outside the tail's loop returns
  | mended (iss : TrackedIssuance) (range : LedgerRange)
  -- a crash, and the start of the next process
  | restart

/-- The steps of the site that are not the tail's. -/
def OfSite : RegistrarScans.Action → Prop
  | .event .. => False
  | .restart => False
  | _ => True

instance (a : RegistrarScans.Action) : Decidable (OfSite a) := by
  unfold OfSite
  cases a <;> exact inferInstance

/-- The steps of the tail that are its own. -/
def OfTail : RegistrarProgress.Action → Prop
  | .transaction .. => False
  | .write _ => False
  | .lookUp _ => False
  | .register _ => False
  | .refreshTracked => False
  | .restart => False
  | _ => True

instance : (a : RegistrarProgress.Action) → Decidable (OfTail a)
  | .transaction .. | .write _ | .lookUp _ | .register _ | .refreshTracked | .restart =>
      instDecidableFalse
  | .ledgerClosed .. | .fetched .. | .fetchFailed _ | .consume | .observe | .healed
  | .healFailed => instDecidableTrue

/-- What precedes the first ledger of all is not watched. -/
def Station.sinceAfter (s : Station) : RegistrarProgress.Action → TrackedIssuance → ℕ
  | .ledgerClosed n _ =>
      if arrived s.tail = none then fun iss => max (s.since iss) (n - 1) else s.since
  | _ => s.since

/-- The gap whose heal throws. -/
def Station.abandonedAfter (s : Station) : RegistrarProgress.Action → List LedgerRange
  | .healFailed => s.abandoned ++ s.tail.healing
  | _ => s.abandoned

def step (X : Xrpl) (U : Upstream) (s : Station) : Action → Option Station
  | .site a => if OfSite a then (RegistrarScans.step X U s.site a).map s.atSite else none
  | .message account e msg =>
      if e ∈ U.accountTx account then
        (RegistrarProgress.step X s.tail (.transaction e msg)).map fun tail => { s with tail }
      else none
  | .tail a =>
      if OfTail a then
        (RegistrarProgress.step X s.tail a).map fun tail =>
          { s with tail, since := s.sinceAfter a, abandoned := s.abandonedAfter a }
      else none
  | .mended iss range =>
      if iss ∈ registered s.tail.db then some { s with mended := s.mended ++ [(iss, range)] }
      else none
  | .restart =>
      (RegistrarProgress.step X s.tail .restart).map fun tail =>
        { s with
          tail
          scans := []
          since := fun _ => (highWater s.tail.db).getD 0
          abandoned := []
          starts := s.starts ++ [⟨(highWater s.tail.db).getD 0, s.finished⟩] }

theorem site_some {X : Xrpl} {U : Upstream} {s s' : Station} {a : RegistrarScans.Action}
    (h : step X U s (.site a) = some s') :
    OfSite a ∧ ∃ site, RegistrarScans.step X U s.site a = some site ∧ s' = s.atSite site := by
  obtain ⟨hof, h⟩ := Option.ite_none_right_eq_some.mp h
  obtain ⟨site, hsite, rfl⟩ := Option.map_eq_some_iff.mp h
  exact ⟨hof, site, hsite, rfl⟩

/-! ## What is accounted for -/

/-- The gaps being reported or healed and those whose heal threw. -/
def Station.pending (s : Station) : List LedgerRange :=
  s.tail.toReport ++ s.tail.healing ++ s.abandoned

/-- The tail has taken the ledger while it watched the issuance, or healed it. -/
def Watched (s : Station) (iss : TrackedIssuance) (m : ℕ) : Prop :=
  iss ∈ s.tail.tracked ∧ s.since iss < m ∧ (∃ last ∈ s.tail.tracker.last, m ≤ last)
    ∧ ¬ InRanges s.pending m

instance (s : Station) (iss : TrackedIssuance) (m : ℕ) : Decidable (Watched s iss m) :=
  inferInstanceAs (Decidable (_ ∧ _ ∧ _ ∧ _))

/-- The ledger is accounted for, for the issuance of a sweep: it was validated at the
    last page, lies below the anchor of a process that started after that or in a heal
    that returned, or the tail watched it. -/
def Passed (s : Station) (f : Finished) (m : ℕ) : Prop :=
  m ≤ f.validated ∨ (∃ p ∈ s.starts, f ∈ p.finished ∧ m ≤ p.anchor)
    ∨ (∃ p ∈ s.mended, p.1 = f.issuance ∧ p.2.Covers m) ∨ Watched s f.issuance m

instance (s : Station) (f : Finished) (m : ℕ) : Decidable (Passed s f m) :=
  inferInstanceAs (Decidable (_ ∨ _ ∨ _ ∨ _))

/-- A process ends when the next one has an anchor and each ledger up to it is passed
    for every issuance that was swept. -/
def Anchored (s : Station) : Action → Prop
  | .restart => ∀ f ∈ s.finished, f.kind = .issuer →
      ∃ anchor ∈ highWater s.tail.db, ∀ m ≤ anchor, f.fromLedger ≤ m → Passed s f m
  | _ => True

instance (s : Station) (a : Action) : Decidable (Anchored s a) := by
  unfold Anchored
  cases a <;> exact inferInstance

/-- A way of being stored for an issuance. -/
abbrev Storage := Archive → TrackedIssuance → BinaryTxEntry → Prop

/-- What upstream has of the issuance in the range is stored. -/
def Held (X : Xrpl) (U : Upstream) (R : Storage) (db : Archive) (iss : TrackedIssuance)
    (range : LedgerRange) : Prop :=
  ∀ e, U.Has e → Touches X iss e → range.Covers e.ledgerIndex → R db iss e

/-- What is assumed of the tail: what it watches of a ledger is stored by the time the
    ledger is taken from the queue, and that of a range by the time its heal returns. -/
def Assumed (X : Xrpl) (U : Upstream) (R : Storage) (s : Station) : Action → Prop
  | .tail .consume => s.tail.phase = .idle → ∀ n ∈ ledgersOf (s.tail.queue.take 1),
      ∀ iss ∈ s.tail.tracked, s.since iss < n → Held X U R s.tail.db iss ⟨n, n⟩
  | .tail .healed => ∀ gap ∈ s.tail.healing, ∀ iss ∈ s.tail.tracked,
      Held X U R s.tail.db iss ⟨max gap.fromLedger (s.since iss + 1), gap.toLedger⟩
  | .mended iss range => Held X U R s.tail.db iss range
  | _ => True

instance {X : Xrpl} {U : Upstream} {R : Storage}
    [∀ db iss range, Decidable (Held X U R db iss range)] (s : Station) :
    (a : Action) → Decidable (Assumed X U R s a)
  | .tail .consume => inferInstanceAs (Decidable (_ → ∀ n ∈ _, ∀ iss ∈ _, _ → _))
  | .tail .healed => inferInstanceAs (Decidable (∀ gap ∈ _, ∀ iss ∈ _, Held ..))
  | .mended .. => inferInstanceAs (Decidable (Held ..))
  | .tail (.ledgerClosed ..) | .tail (.transaction ..) | .tail (.fetched ..)
  | .tail (.fetchFailed _) | .tail .observe | .tail .healFailed | .tail (.write _)
  | .tail (.lookUp _) | .tail (.register _) | .tail .refreshTracked | .tail .restart
  | .site _ | .message .. | .restart => instDecidableTrue

/-! ## What lasts -/

/-- No issuance is forgotten and nothing stored is lost. -/
structure Lasts (X : Xrpl) (U : Upstream) (db db' : Archive) : Prop where
  registered : ∀ iss ∈ registered db, iss ∈ registered db'
  stored : ∀ e, Stored X db e → Stored X db' e
  storedFor : ∀ iss ∈ RegistrarDiscovery.registered db, ∀ e, U.Has e →
    StoredFor X db iss e → StoredFor X db' iss e

/-- What is complete is stored in this way, and stays so. -/
structure Lasting (X : Xrpl) (U : Upstream) (R : Storage) : Prop where
  complete : ∀ {db iss e}, StoredFor X db iss e → R db iss e
  lasts : ∀ {db db'}, Lasts X U db db' → ∀ iss ∈ registered db, ∀ e, U.Has e →
    R db iss e → R db' iss e

theorem lasting_stored (X : Xrpl) (U : Upstream) :
    Lasting X U (fun db _ e => Stored X db e) :=
  ⟨fun h => h.1, fun h _ _ e _ => h.stored e⟩

theorem lasting_storedFor (X : Xrpl) (U : Upstream) : Lasting X U (StoredFor X) :=
  ⟨fun h => h, fun h iss hiss e he => h.storedFor iss hiss e he⟩

section Lasts

variable {X : Xrpl} {U : Upstream} {db db' : Archive}

/-- Statements that write neither transactions nor deltas, and forget no issuance. -/
structure SameData (db db' : Archive) : Prop where
  registered : ∀ iss ∈ registered db, iss ∈ registered db'
  transactions : db'.transactions = db.transactions
  deltas : db'.balanceDeltas = db.balanceDeltas

theorem SameData.lasts (h : SameData db db') : Lasts X U db db' where
  registered := h.registered
  stored := by
    intro e hst
    unfold Stored
    rw [h.transactions]
    exact hst
  storedFor := by
    intro iss _ e _ hst
    unfold StoredFor Stored
    rw [h.transactions, h.deltas]
    exact hst

theorem SameData.refl : SameData db db := ⟨fun _ h => h, rfl, rfl⟩

theorem sameData_create (row : IssuanceRow) : SameData db (create row db) where
  registered := by
    intro iss hiss
    obtain ⟨i, hi, rfl⟩ := List.mem_map.mp hiss
    exact List.mem_map_of_mem (Table.mem_insertIgnore.mpr (Or.inl hi))
  transactions := rfl
  deltas := rfl

theorem sameData_recordEvent (n : ℕ) (closeTime : Option ℕ) :
    SameData db (recordEvent n closeTime db) := by
  cases closeTime with
  | none => exact SameData.refl
  | some t => exact ⟨fun _ h => h, rfl, rfl⟩

/-- A page of upstream transactions, derived for registered issuances, is written. -/
structure Wrote (X : Xrpl) (U : Upstream) (p : Page) (db db' : Archive) : Prop where
  of : RegistrarScans.OfUpstream X U p
  tracked : ∀ iss ∈ p.tracked, iss ∈ registered db
  write : p.write X db = some db'

theorem Wrote.lasts (hU : U.Sound X) {p : Page} (h : Wrote X U p db db') : Lasts X U db db' where
  registered := by
    obtain ⟨_, _, hingests⟩ := p.write_ingests h.write
    intro iss hiss
    unfold RegistrarDiscovery.registered
    rw [hingests.issuances]
    exact hiss
  stored := fun _ hst => (RegistrarProgress.grows_write h.write).stored hst
  storedFor := fun _ hiss e he hst =>
    RegistrarScans.Page.keeps hU h.of h.write h.tracked hiss e he hst

/-- A page of a scan carries upstream transactions and derives for registered
    issuances. -/
theorem wrote_read {s : Site} (hI : RegistrarScans.Inv X U s) {sc : Scan}
    {seen : List TrackedIssuance} {page : BackfillPage} {validated : ℕ}
    (hcan : RegistrarScans.CanRead U s sc seen page validated)
    (h : (sc.page X seen s.tracked page).write X s.db = some db') :
    Wrote X U (sc.page X seen s.tracked page) s.db db' := by
  obtain ⟨hsc, -, hread, -⟩ := hcan
  have hentries : ∀ e ∈ page.entries, e ∈ U.accountTx sc.job.address :=
    fun e he => (hread.1.1 e he).1
  refine ⟨?_, ?_, h⟩
  · unfold Scan.page
    cases sc.kind with
    | issuer => exact hentries
    | account => exact hentries
  · unfold Scan.page
    cases sc.kind with
    | issuer => exact fun iss hiss => List.mem_singleton.mp hiss ▸ (hI.scans sc hsc).registered
    | account => exact hI.tracked

/-- The page is not of the stream. -/
def Listed : Page → Prop
  | .event .. => False
  | _ => True

/-- **WHAT A STEP OF THE SITE DOES** to transactions and deltas: nothing, or it writes a
    page. -/
theorem site_cases {s s' : Site} (hI : RegistrarScans.Inv X U s)
    {a : RegistrarScans.Action} (h : RegistrarScans.step X U s a = some s') :
    SameData s.db s'.db ∨ ∃ p, Wrote X U p s.db s'.db ∧ (OfSite a → Listed p) := by
  cases a with
  | close ledger =>
      cases Option.some.inj h
      exact Or.inl SameData.refl
  | register row =>
      cases Option.some.inj h
      exact Or.inl (sameData_create row)
  | insertAccount address =>
      cases Option.some.inj h
      exact Or.inl ⟨fun _ h => h, rfl, rfl⟩
  | enqueue i address kind =>
      obtain ⟨-, h⟩ := Option.ite_none_right_eq_some.mp h
      obtain ⟨db, hdb, rfl⟩ := Option.map_eq_some_iff.mp h
      have hdb := toOption_some.mp hdb
      unfold RegistrarIngest.enqueue at hdb
      by_cases hkey : s.db.backfillJob.HasKey (address, i.id)
      · rw [if_pos hkey] at hdb
        cases Except.ok.inj hdb
        exact Or.inl SameData.refl
      · rw [if_neg hkey] at hdb
        cases Except.ok.inj (guarded_ok.mp (guarded_ok.mp hdb).2).2
        exact Or.inl ⟨fun _ h => h, rfl, rfl⟩
  | reclaimStale issuanceId =>
      cases Option.some.inj h
      exact Or.inl ⟨fun _ h => h, rfl, rfl⟩
  | record holder =>
      obtain ⟨db, hdb, rfl⟩ := Option.map_eq_some_iff.mp h
      have hok := toOption_some.mp hdb
      rw [RegistrarDiscovery.trackNewHolder_eq] at hok
      cases Except.ok.inj (guarded_ok.mp (guarded_ok.mp hok).2).2
      exact Or.inl ⟨fun _ h => h, rfl, rfl⟩
  | refreshTracked =>
      cases Option.some.inj h
      exact Or.inl SameData.refl
  | recordLedger row =>
      cases Option.some.inj h
      exact Or.inl ⟨fun _ h => h, rfl, rfl⟩
  | «begin» kind iss job =>
      obtain ⟨-, h⟩ := Option.ite_none_right_eq_some.mp h
      cases Option.some.inj h
      cases kind with
      | issuer => exact Or.inl SameData.refl
      | account => exact Or.inl ⟨fun _ h => h, rfl, rfl⟩
  | read sc seen page validated =>
      obtain ⟨hcan, h⟩ := Option.ite_none_right_eq_some.mp h
      obtain ⟨db, hdb, rfl⟩ := Option.map_eq_some_iff.mp h
      refine Or.inr ⟨_, wrote_read hI hcan hdb, fun _ => ?_⟩
      unfold Scan.page
      cases sc.kind with
      | issuer => exact trivial
      | account => exact trivial
  | fail sc =>
      obtain ⟨-, h⟩ := Option.ite_none_right_eq_some.mp h
      cases Option.some.inj h
      exact Or.inl ⟨fun _ h => h, rfl, rfl⟩
  | heal seen issuer page =>
      obtain ⟨hof, h⟩ := Option.ite_none_right_eq_some.mp h
      obtain ⟨db, hdb, rfl⟩ := Option.map_eq_some_iff.mp h
      exact Or.inr ⟨.heal seen s.tracked issuer page, ⟨hof, hI.tracked, hdb⟩, fun _ => trivial⟩
  | event e account seen msg res =>
      obtain ⟨hof, h⟩ := Option.ite_none_right_eq_some.mp h
      obtain ⟨db, hdb, rfl⟩ := Option.map_eq_some_iff.mp h
      exact Or.inr ⟨.event seen s.tracked msg res,
        ⟨fun ev hev => ⟨e, ⟨account, hof.1⟩, hof.2 ev hev⟩, hI.tracked, hdb⟩, id⟩
  | restart =>
      cases Option.some.inj h
      exact Or.inl SameData.refl

/-- Beside that, a step keeps the rows of transactions and ledgers, and tracks what was
    tracked or, at a refresh, all that is registered. -/
theorem site_beside {s s' : Site} {a : RegistrarScans.Action} (hof : OfSite a)
    (h : RegistrarScans.step X U s a = some s') :
    (s'.tracked = s.tracked ∨ (a = .refreshTracked ∧ s'.tracked = registered s.db))
      ∧ RegistrarProgress.Grows s.db s'.db := by
  have hsame : ∀ {db : Archive}, db.transactions = s.db.transactions →
      db.ledgers = s.db.ledgers → RegistrarProgress.Grows s.db db :=
    fun htx hledgers => ⟨fun _ hk => htx.symm ▸ hk, fun _ hk => hledgers.symm ▸ hk⟩
  cases a with
  | close ledger =>
      cases Option.some.inj h
      exact ⟨Or.inl rfl, hsame rfl rfl⟩
  | register row =>
      cases Option.some.inj h
      exact ⟨Or.inl rfl, hsame rfl rfl⟩
  | insertAccount address =>
      cases Option.some.inj h
      exact ⟨Or.inl rfl, hsame rfl rfl⟩
  | enqueue i address kind =>
      obtain ⟨-, h⟩ := Option.ite_none_right_eq_some.mp h
      obtain ⟨db, hdb, rfl⟩ := Option.map_eq_some_iff.mp h
      have hdb := toOption_some.mp hdb
      unfold RegistrarIngest.enqueue at hdb
      by_cases hkey : s.db.backfillJob.HasKey (address, i.id)
      · rw [if_pos hkey] at hdb
        cases Except.ok.inj hdb
        exact ⟨Or.inl rfl, hsame rfl rfl⟩
      · rw [if_neg hkey] at hdb
        cases Except.ok.inj (guarded_ok.mp (guarded_ok.mp hdb).2).2
        exact ⟨Or.inl rfl, hsame rfl rfl⟩
  | reclaimStale issuanceId =>
      cases Option.some.inj h
      exact ⟨Or.inl rfl, hsame rfl rfl⟩
  | record holder =>
      obtain ⟨db, hdb, rfl⟩ := Option.map_eq_some_iff.mp h
      have hok := toOption_some.mp hdb
      rw [RegistrarDiscovery.trackNewHolder_eq] at hok
      cases Except.ok.inj (guarded_ok.mp (guarded_ok.mp hok).2).2
      exact ⟨Or.inl rfl, hsame rfl rfl⟩
  | refreshTracked =>
      cases Option.some.inj h
      exact ⟨Or.inr ⟨rfl, rfl⟩, hsame rfl rfl⟩
  | recordLedger row =>
      cases Option.some.inj h
      exact ⟨Or.inl rfl, RegistrarProgress.grows_recordLedger row s.db⟩
  | «begin» kind iss job =>
      obtain ⟨-, h⟩ := Option.ite_none_right_eq_some.mp h
      cases Option.some.inj h
      cases kind with
      | issuer => exact ⟨Or.inl rfl, hsame rfl rfl⟩
      | account => exact ⟨Or.inl rfl, hsame rfl rfl⟩
  | read sc seen page validated =>
      obtain ⟨-, h⟩ := Option.ite_none_right_eq_some.mp h
      obtain ⟨db, hdb, rfl⟩ := Option.map_eq_some_iff.mp h
      exact ⟨Or.inl rfl, RegistrarProgress.grows_write hdb⟩
  | fail sc =>
      obtain ⟨-, h⟩ := Option.ite_none_right_eq_some.mp h
      cases Option.some.inj h
      exact ⟨Or.inl rfl, hsame rfl rfl⟩
  | heal seen issuer page =>
      obtain ⟨-, h⟩ := Option.ite_none_right_eq_some.mp h
      obtain ⟨db, hdb, rfl⟩ := Option.map_eq_some_iff.mp h
      exact ⟨Or.inl rfl, RegistrarProgress.grows_write hdb⟩
  | event e account seen msg res => exact absurd hof id
  | restart => exact absurd hof id

/-- **NO WRITER UNDOES ANOTHER**. -/
theorem lasts_site (hU : U.Sound X) {s s' : Site} (hI : RegistrarScans.Inv X U s)
    {a : RegistrarScans.Action} (h : RegistrarScans.step X U s a = some s') :
    Lasts X U s.db s'.db := by
  rcases site_cases hI h with hsame | ⟨p, hwrote, -⟩
  · exact hsame.lasts
  · exact hwrote.lasts hU

/-- A streamed event keeps what is stored, and the invariant of the scans. -/
theorem keeps_ingestEvent (hU : U.Sound X) {tracked : List TrackedIssuance}
    (htracked : ∀ iss ∈ tracked, iss ∈ registered db) {ev : TransactionEvent}
    {e : BinaryTxEntry} (he : U.Has e) (hev : IsEventOf X e ev)
    (h : ingestEvent X tracked ev db = .ok db') :
    RegistrarScans.Keeps X U none none db db' := by
  obtain ⟨hwrites, hbeside⟩ := writes_ingestEvent hev h
  have hissuances : db'.issuances = db.issuances := (ingests_ingestEvent h).issuances
  refine ⟨hissuances, JobsKept.of_same (congrArg Untouched.backfillJob hbeside.untouched)
    (congrArg Untouched.jobSeq hbeside.untouched), fun iss hiss e' he' hst => ?_,
    fun _ _ hid => nomatch hid⟩
  exact hwrites.keeps hU (fun x hx => List.mem_singleton.mp hx ▸ he)
    (fun j hj hid => registered_eq (htracked j hj) hiss hid) he' hst

theorem lasts_ingestEvent (hU : U.Sound X) {tracked : List TrackedIssuance}
    (htracked : ∀ iss ∈ tracked, iss ∈ registered db) {ev : TransactionEvent}
    {e : BinaryTxEntry} (he : U.Has e) (hev : IsEventOf X e ev)
    (h : ingestEvent X tracked ev db = .ok db') : Lasts X U db db' := by
  have hkeeps := keeps_ingestEvent hU htracked he hev h
  refine ⟨fun iss hiss => ?_, fun e' hst => (RegistrarProgress.grows_ingestEvent h).stored hst,
    hkeeps.stored⟩
  rw [hkeeps.registered]
  exact hiss

end Lasts

/-! ## Steps of the tail -/

/-- What the tail's own steps do. -/
inductive TailStep (X : Xrpl) (t : Tail) : RegistrarProgress.Action → Tail → Prop
  | ledgerClosed (n : ℕ) (closeTime : Option ℕ) :
      TailStep X t (.ledgerClosed n closeTime)
        { t with queue := t.queue ++ [.ledger n closeTime] }
  | fetched (f : RegistrarProgress.Fetch) (res : TxResult) (hf : f ∈ t.fetching)
      (hof : ∀ ev ∈ transactionEvent X f.msg.hash f.touched f.msg.ledgerIndex res,
        IsEventOf X f.entry ev) :
      TailStep X t (.fetched f res) { t with
        fetching := t.fetching.erase f
        queue := t.queue ++ (transactionEvent X f.msg.hash f.touched f.msg.ledgerIndex
          res).toList.map .transaction }
  | fetchFailed (f : RegistrarProgress.Fetch) :
      TailStep X t (.fetchFailed f) { t with fetching := t.fetching.erase f }
  | consume (item : TailEvent) (queue : List TailEvent) (hphase : t.phase = .idle)
      (hqueue : t.queue = item :: queue) :
      TailStep X t .consume
        (RegistrarProgress.consumeEvent X { t with queue, phase := .idle } item)
  | observe (n : ℕ) (hphase : t.phase = .observing n) :
      TailStep X t .observe { t with
        gaps := (t.gaps.observe n).2
        reports := t.reports ++ (t.gaps.observe n).1.toList
        phase := RegistrarProgress.phaseAfter (t.gaps.observe n).1 }
  | healed (gap : LedgerRange) (hphase : t.phase = .healing gap) :
      TailStep X t .healed { t with phase := .idle }
  | healFailed (gap : LedgerRange) (hphase : t.phase = .healing gap) :
      TailStep X t .healFailed { t with phase := .stopped }

theorem tailStep_of_step {X : Xrpl} {t t' : Tail} {a : RegistrarProgress.Action}
    (hof : OfTail a) (h : RegistrarProgress.step X t a = some t') : TailStep X t a t' := by
  cases a with
  | ledgerClosed n closeTime =>
      cases Option.some.inj h
      exact .ledgerClosed n closeTime
  | fetched f res =>
      obtain ⟨⟨hf, hev⟩, h⟩ := Option.ite_none_right_eq_some.mp h
      cases Option.some.inj h
      exact .fetched f res hf hev
  | fetchFailed f =>
      obtain ⟨-, h⟩ := Option.ite_none_right_eq_some.mp h
      cases Option.some.inj h
      exact .fetchFailed f
  | consume =>
      unfold RegistrarProgress.step at h
      cases hphase : t.phase with
      | idle =>
          cases hqueue : t.queue with
          | nil =>
              simp only [hphase, hqueue] at h
              cases h
          | cons item queue =>
              simp only [hphase, hqueue] at h
              cases Option.some.inj h
              exact .consume item queue hphase hqueue
      | _ =>
          simp only [hphase] at h
          cases h
  | observe =>
      unfold RegistrarProgress.step at h
      cases hphase : t.phase with
      | observing n =>
          simp only [hphase] at h
          cases Option.some.inj h
          exact .observe n hphase
      | _ =>
          simp only [hphase] at h
          cases h
  | healed =>
      unfold RegistrarProgress.step at h
      cases hphase : t.phase with
      | healing gap =>
          simp only [hphase] at h
          cases Option.some.inj h
          exact .healed gap hphase
      | _ =>
          simp only [hphase] at h
          cases h
  | healFailed =>
      unfold RegistrarProgress.step at h
      cases hphase : t.phase with
      | healing gap =>
          simp only [hphase] at h
          cases Option.some.inj h
          exact .healFailed gap hphase
      | _ =>
          simp only [hphase] at h
          cases h
  | transaction e msg => exact absurd hof id
  | write p => exact absurd hof id
  | lookUp row => exact absurd hof id
  | register row => exact absurd hof id
  | refreshTracked => exact absurd hof id
  | restart => exact absurd hof id

/-! ## The tracker and the queue -/

/-- Showing it ledgers, a tracker does not go back. -/
theorem le_observeAll {g : GapTracker} {last : ℕ} (h : g.last = some last) (ns : List ℕ) :
    ∃ reached, (g.observeAll ns).2.last = some reached ∧ last ≤ reached := by
  induction ns generalizing g last with
  | nil => exact ⟨last, h, le_rfl⟩
  | cons n ns ih =>
      obtain ⟨next, hnext, -, hge⟩ := le_observe_last g n
      obtain ⟨reached, hreached, hle⟩ := ih hnext
      exact ⟨reached, hreached, (hge last h).trans hle⟩

/-- The first ledger of the queue has arrived. -/
theorem le_arrived {t : Tail} {n : ℕ} {ns : List ℕ} (h : ledgersOf t.queue = n :: ns) :
    ∃ reached, arrived t = some reached ∧ n ≤ reached := by
  obtain ⟨next, hnext, hle, -⟩ := le_observe_last t.tracker n
  obtain ⟨reached, hreached, hge⟩ := le_observeAll hnext ns
  refine ⟨reached, ?_, hle.trans hge⟩
  unfold arrived
  rw [h]
  exact hreached

/-! ## The invariant -/

/-- What the tail watches at or below its tracker is stored, or in a pending gap. -/
def Settled (X : Xrpl) (U : Upstream) (R : Storage) (s : Station) : Prop :=
  ∀ iss ∈ s.tail.tracked, ∀ e, U.Has e → Touches X iss e → s.since iss < e.ledgerIndex →
    (∃ last ∈ s.tail.tracker.last, e.ledgerIndex ≤ last) →
    R s.tail.db iss e ∨ InRanges s.pending e.ledgerIndex

structure Inv (X : Xrpl) (U : Upstream) (R : Storage) (s : Station) : Prop where
  site : RegistrarScans.Inv X U s.site
  fetching : ∀ f ∈ s.tail.fetching, U.Has f.entry
  queue : ∀ ev, .transaction ev ∈ s.tail.queue → ∃ e, U.Has e ∧ IsEventOf X e ev
  /-- A tracker without an anchor will be anchored below what is watched. -/
  first : s.tail.tracker.last = none → ∀ n ns, ledgersOf s.tail.queue = n :: ns →
    ∀ iss ∈ s.tail.tracked, n ≤ s.since iss + 1
  settled : Settled X U R s
  mended : ∀ p ∈ s.mended, p.1 ∈ registered s.tail.db ∧ Held X U R s.tail.db p.1 p.2
  starts : ∀ p ∈ s.starts, ∀ f ∈ p.finished, f.issuance ∈ registered s.tail.db
    ∧ (f.kind = .issuer → Held X U R s.tail.db f.issuance ⟨f.fromLedger, p.anchor⟩)

section Invariant

variable {X : Xrpl} {U : Upstream} {R : Storage} {s : Station}

theorem Held.lasts (hR : Lasting X U R) {db db' : Archive} (h : Lasts X U db db')
    {iss : TrackedIssuance} (hiss : iss ∈ registered db) {range : LedgerRange}
    (hheld : Held X U R db iss range) : Held X U R db' iss range :=
  fun e he htouch hcovers => hR.lasts h iss hiss e he (hheld e he htouch hcovers)

/-- What a finished sweep has read is held. -/
theorem Inv.swept (hU : U.Sound X) (hR : Lasting X U R) (hI : Inv X U R s) {f : Finished}
    (hf : f ∈ s.finished) (hkind : f.kind = .issuer) :
    Held X U R s.tail.db f.issuance ⟨f.fromLedger, f.validated⟩ := by
  have hok := hI.site.finished f hf
  intro e he htouch hcovers
  exact hR.complete (hok.complete e (hU.lists he htouch (hok.issuer hkind)) hcovers.1 hcovers.2
    htouch)

/-- **WHAT IS PASSED IS STORED**. -/
theorem Inv.passed (hU : U.Sound X) (hR : Lasting X U R) (hI : Inv X U R s) {f : Finished}
    (hf : f ∈ s.finished) (hkind : f.kind = .issuer) {e : BinaryTxEntry} (he : U.Has e)
    (htouch : Touches X f.issuance e) (hfrom : f.fromLedger ≤ e.ledgerIndex)
    (hpassed : Passed s f e.ledgerIndex) : R s.tail.db f.issuance e := by
  rcases hpassed with hvalidated | ⟨p, hp, hfp, hanchor⟩ | ⟨p, hp, hiss, hcovers⟩ | hwatched
  · exact hI.swept hU hR hf hkind e he htouch ⟨hfrom, hvalidated⟩
  · exact (hI.starts p hp f hfp).2 hkind e he htouch ⟨hfrom, hanchor⟩
  · rw [← hiss] at htouch ⊢
    exact (hI.mended p hp).2 e he htouch hcovers
  · obtain ⟨htracked, hsince, hlast, hpending⟩ := hwatched
    exact (hI.settled _ htracked e he htouch hsince hlast).resolve_right hpending

/-- What lasts of the invariant when the archive grows. -/
theorem Inv.grow (hR : Lasting X U R) (hI : Inv X U R s) {t : Station}
    (hsite : RegistrarScans.Inv X U t.site) (h : Lasts X U s.tail.db t.tail.db)
    (hfetching : ∀ f ∈ t.tail.fetching, f ∈ s.tail.fetching ∨ U.Has f.entry)
    (hqueue : ∀ ev, .transaction ev ∈ t.tail.queue → .transaction ev ∈ s.tail.queue
      ∨ ∃ e, U.Has e ∧ IsEventOf X e ev)
    (hfirst : t.tail.tracker.last = none → ∀ n ns, ledgersOf t.tail.queue = n :: ns →
      ∀ iss ∈ t.tail.tracked, n ≤ t.since iss + 1)
    (hsettled : Settled X U R t) (hmended : t.mended = s.mended) (hstarts : t.starts = s.starts) :
    Inv X U R t where
  site := hsite
  fetching := fun f hf => (hfetching f hf).elim (hI.fetching f) id
  queue := fun ev hev => (hqueue ev hev).elim (hI.queue ev) id
  first := hfirst
  settled := hsettled
  mended := by
    intro p hp
    rw [hmended] at hp
    obtain ⟨hiss, hheld⟩ := hI.mended p hp
    exact ⟨h.registered _ hiss, hheld.lasts hR h hiss⟩
  starts := by
    intro p hp f hf
    rw [hstarts] at hp
    obtain ⟨hiss, hheld⟩ := hI.starts p hp f hf
    exact ⟨h.registered _ hiss, fun hkind => (hheld hkind).lasts hR h hiss⟩

/-! ## Every step -/

/-- A step of a writer. -/
theorem Inv.atSite (hU : U.Sound X) (hR : Lasting X U R) (hI : Inv X U R s)
    {a : RegistrarScans.Action} {site : Site} (h : RegistrarScans.step X U s.site a = some site) :
    Inv X U R (s.atSite site) := by
  have hlasts : Lasts X U s.tail.db site.db := lasts_site hU hI.site h
  have hsince : ∀ iss ∈ s.tail.tracked, (s.atSite site).since iss = s.since iss :=
    fun iss hiss => if_pos hiss
  have hnew : ∀ iss, iss ∉ s.tail.tracked →
      (s.atSite site).since iss = (arrived s.tail).getD 0 := fun iss hiss => if_neg hiss
  refine hI.grow hR (hI.site.step hU h) hlasts (fun f hf => Or.inl hf) (fun ev hev => Or.inl hev)
    ?_ ?_ rfl rfl
  · intro hnone n ns hqueue iss hiss
    by_cases hold : iss ∈ s.tail.tracked
    · rw [hsince iss hold]
      exact hI.first hnone n ns hqueue iss hold
    · obtain ⟨reached, hreached, hle⟩ := le_arrived hqueue
      have hreached : arrived s.tail = some reached := hreached
      rw [hnew iss hold, hreached]
      exact Nat.le_succ_of_le hle
  · intro iss hiss e he htouch habove hlast
    by_cases hold : iss ∈ s.tail.tracked
    · rw [hsince iss hold] at habove
      exact (hI.settled iss hold e he htouch habove hlast).imp
        (hR.lasts hlasts iss (hI.site.tracked iss hold) e he) id
    · -- the tracker is not ahead of what has arrived
      obtain ⟨last, hlast, hle⟩ := hlast
      obtain ⟨reached, hreached, hge⟩ := le_observeAll hlast (ledgersOf s.tail.queue)
      have hreached : arrived s.tail = some reached := hreached
      rw [hnew iss hold, hreached] at habove
      have habove : reached < e.ledgerIndex := habove
      omega

/-- A step of the tail that takes nothing from the queue and shows nothing to the
    tracker. -/
theorem Inv.quiet (hR : Lasting X U R) (hI : Inv X U R s) {queue : List TailEvent}
    {fetching : List RegistrarProgress.Fetch} {delivered : List BinaryTxEntry}
    {since : TrackedIssuance → ℕ}
    (hfetching : ∀ f ∈ fetching, f ∈ s.tail.fetching ∨ U.Has f.entry)
    (hqueue : ∀ ev, .transaction ev ∈ queue → .transaction ev ∈ s.tail.queue
      ∨ ∃ e, U.Has e ∧ IsEventOf X e ev)
    (hsince : ∀ iss, s.since iss ≤ since iss)
    (hfirst : s.tail.tracker.last = none → ∀ n ns, ledgersOf queue = n :: ns →
      ∀ iss ∈ s.tail.tracked, n ≤ since iss + 1) :
    Inv X U R { s with tail := { s.tail with queue, fetching, delivered }, since } := by
  refine hI.grow hR ?_ SameData.refl.lasts hfetching hqueue hfirst ?_ rfl rfl
  · exact hI.site
  · intro iss hiss e he htouch habove hlast
    exact hI.settled iss hiss e he htouch ((hsince iss).trans_lt habove) hlast

theorem ledgersOf_append (queue queue' : List TailEvent) :
    ledgersOf (queue ++ queue') = ledgersOf queue ++ ledgersOf queue' :=
  List.filterMap_append

/-- What is watched begins no earlier. -/
theorem le_sinceAfter (s : Station) (n : ℕ) (closeTime : Option ℕ) (iss : TrackedIssuance) :
    s.since iss ≤ s.sinceAfter (.ledgerClosed n closeTime) iss := by
  show _ ≤ (if arrived s.tail = none then fun iss => max (s.since iss) (n - 1) else s.since) iss
  by_cases hnone : arrived s.tail = none
  · rw [if_pos hnone]
    exact le_max_left _ _
  · rw [if_neg hnone]

/-- A ledger closes. -/
theorem Inv.ledgerClosed (hR : Lasting X U R) (hI : Inv X U R s) (n : ℕ)
    (closeTime : Option ℕ) :
    Inv X U R { s with
      tail := { s.tail with queue := s.tail.queue ++ [.ledger n closeTime] }
      since := s.sinceAfter (.ledgerClosed n closeTime) } := by
  have hsince := le_sinceAfter s n closeTime
  refine hI.quiet hR (fun f hf => Or.inl hf) (fun ev hev => Or.inl ?_) hsince ?_
  · rcases List.mem_append.mp hev with hev | hev
    · exact hev
    · exact absurd (List.mem_singleton.mp hev) (by simp)
  · intro hnone m ms hqueue iss hiss
    rw [ledgersOf_append] at hqueue
    cases hold : ledgersOf s.tail.queue with
    | nil =>
        rw [hold] at hqueue
        cases hqueue
        have harrived : arrived s.tail = none := by
          unfold arrived
          rw [hold]
          exact hnone
        have hafter : s.sinceAfter (.ledgerClosed n closeTime) iss = max (s.since iss) (n - 1) :=
          congrFun (if_pos harrived) iss
        rw [hafter]
        omega
    | cons m' ms' =>
        rw [hold] at hqueue
        cases hqueue
        exact (hI.first hnone m ms' hold iss hiss).trans (Nat.succ_le_succ (hsince iss))

/-- What the loop does while it awaits an event. -/
theorem idle {t : Tail} (h : t.phase = .idle) :
    t.toReport = [] ∧ t.healing = [] ∧ t.tracker = t.gaps := by
  unfold Tail.toReport Tail.healing Tail.tracker
  rw [h]
  exact ⟨rfl, rfl, rfl⟩

/-- The tail takes a ledger: its transactions are stored, and the ledgers it skips are
    about to be reported. -/
theorem Inv.consume_ledger (hR : Lasting X U R) (hI : Inv X U R s)
    (hok : Assumed X U R s (.tail .consume)) (hphase : s.tail.phase = .idle) {n : ℕ}
    {closeTime : Option ℕ} {queue : List TailEvent}
    (hqueue : s.tail.queue = .ledger n closeTime :: queue) :
    Inv X U R { s with
      tail := RegistrarProgress.consumeEvent X { s.tail with queue } (.ledger n closeTime) } := by
  obtain ⟨hreport, hhealing, htracker⟩ := idle hphase
  have hledgers : ledgersOf s.tail.queue = n :: ledgersOf queue := by
    rw [hqueue]
    rfl
  have htaken : n ∈ ledgersOf (s.tail.queue.take 1) := by
    rw [hqueue]
    exact List.mem_singleton_self n
  have hlasts : Lasts X U s.tail.db (recordEvent n closeTime s.tail.db) :=
    (sameData_recordEvent n closeTime).lasts
  have hsite : RegistrarScans.Inv X U
      { s.site with db := recordEvent n closeTime s.tail.db } := by
    cases closeTime with
    | none => exact hI.site
    | some t => exact hI.site.rewriteJobs rfl (JobsKept.of_same rfl rfl) rfl rfl
  refine hI.grow hR hsite hlasts (fun f hf => Or.inl hf) (fun ev hev => Or.inl ?_) ?_ ?_ rfl rfl
  · rw [hqueue]
    exact List.mem_cons_of_mem _ hev
  · intro hnone
    obtain ⟨next, hnext, -, -⟩ := le_observe_last s.tail.gaps n
    exact absurd (hnext.symm.trans hnone) (by simp)
  · intro iss hiss e he htouch habove hlast
    have hnow : s.since iss < n → e.ledgerIndex = n →
        R (recordEvent n closeTime s.tail.db) iss e := by
      intro hsince heq
      refine hR.lasts hlasts iss (hI.site.tracked iss hiss) e he
        (hok hphase n htaken iss hiss hsince e he htouch ?_)
      exact ⟨heq.ge, heq.le⟩
    obtain ⟨last', hlast', hle⟩ := hlast
    have hlast' : (s.tail.gaps.observe n).2.last = some last' := hlast'
    -- whether the tracker is anchored
    cases hgaps : s.tail.gaps.last with
    | none =>
        have hfirst := hI.first (by rw [htracker, hgaps]) n _ hledgers iss hiss
        have hobs : (s.tail.gaps.observe n).2.last = some n := by
          unfold GapTracker.observe
          rw [hgaps]
        cases hlast'.symm.trans hobs
        have habove : s.since iss < e.ledgerIndex := habove
        exact Or.inl (hnow (by omega) (by omega))
    | some last =>
        have hanchored : s.tail.gaps = ⟨some last⟩ := congrArg GapTracker.mk hgaps
        by_cases hold : e.ledgerIndex ≤ last
        · refine (hI.settled iss hiss e he htouch habove ⟨last, ?_, hold⟩).imp
            (hR.lasts hlasts iss (hI.site.tracked iss hiss) e he) ?_
          · rw [htracker]
            exact hgaps
          · rintro ⟨r, hr, hcovers⟩
            refine ⟨r, ?_, hcovers⟩
            unfold Station.pending at hr
            rw [hreport, hhealing] at hr
            exact List.mem_append_right _ hr
        · have habove : s.since iss < e.ledgerIndex := habove
          by_cases heq : e.ledgerIndex = n
          · exact Or.inl (hnow (heq ▸ habove) heq)
          · rw [hanchored] at hlast'
            rw [GapTracker.observe_last] at hlast'
            cases Option.some.inj hlast'
            rcases GapTracker.observe_cases last n with ⟨ho, -⟩ | ⟨ho, -⟩ | ⟨ho, hgap⟩
            · omega
            · omega
            · refine Or.inr ⟨⟨last + 1, n - 1⟩, ?_, ?_⟩
              · refine List.mem_append_left _ (List.mem_append_left _ ?_)
                show _ ∈ (s.tail.gaps.observe n).1.toList
                rw [hanchored, hgap]
                exact List.mem_singleton_self _
              · show last + 1 ≤ e.ledgerIndex ∧ e.ledgerIndex ≤ n - 1
                omega

/-- The tail takes a transaction, or throws on it. -/
theorem Inv.consume_transaction (hU : U.Sound X) (hR : Lasting X U R) (hI : Inv X U R s)
    (hphase : s.tail.phase = .idle) {ev : TransactionEvent} {queue : List TailEvent}
    (hqueue : s.tail.queue = .transaction ev :: queue) :
    Inv X U R { s with
      tail := RegistrarProgress.consumeEvent X { s.tail with queue, phase := .idle }
        (.transaction ev) } := by
  obtain ⟨hreport, hhealing, htracker⟩ := idle hphase
  obtain ⟨e, he, hev⟩ := hI.queue ev (hqueue ▸ List.mem_cons_self)
  have hledgers : ledgersOf s.tail.queue = ledgersOf queue := by
    rw [hqueue]
    rfl
  have hsub : ∀ ev', TailEvent.transaction ev' ∈ queue → .transaction ev' ∈ s.tail.queue := by
    intro ev' hev'
    rw [hqueue]
    exact List.mem_cons_of_mem _ hev'
  have hfirst : s.tail.gaps.last = none → ∀ n ns, ledgersOf queue = n :: ns →
      ∀ iss ∈ s.tail.tracked, n ≤ s.since iss + 1 := by
    intro hnone n ns hns iss hiss
    exact hI.first (htracker ▸ hnone) n ns (hledgers.trans hns) iss hiss
  -- nothing is pending but what was abandoned
  have hsettled : ∀ {t : Station}, Lasts X U s.tail.db t.tail.db →
      t.tail.tracked = s.tail.tracked → t.since = s.since → t.abandoned = s.abandoned →
      t.tail.tracker = s.tail.gaps → Settled X U R t := by
    intro t hlasts htracked hsince habandoned htracker' iss hiss x hx htouch habove hlast
    rw [htracked] at hiss
    rw [hsince] at habove
    rw [htracker', ← htracker] at hlast
    refine (hI.settled iss hiss x hx htouch habove hlast).imp
      (hR.lasts hlasts iss (hI.site.tracked iss hiss) x hx) ?_
    rintro ⟨r, hr, hcovers⟩
    unfold Station.pending at hr
    rw [hreport, hhealing] at hr
    exact ⟨r, List.mem_append_right _ (habandoned ▸ hr), hcovers⟩
  cases hingest : ingestEvent X s.tail.tracked ev s.tail.db with
  | ok db =>
      have hafter : RegistrarProgress.consumeEvent X { s.tail with queue, phase := .idle }
          (.transaction ev) = { s.tail with db, queue, phase := .idle } := by
        simp only [RegistrarProgress.consumeEvent, hingest]
      rw [hafter]
      have hlasts : Lasts X U s.tail.db db := lasts_ingestEvent hU hI.site.tracked he hev hingest
      refine hI.grow hR (hI.site.keep (keeps_ingestEvent hU hI.site.tracked he hev hingest))
        hlasts (fun f hf => Or.inl hf) (fun ev' hev' => Or.inl (hsub ev' hev')) hfirst
        (hsettled hlasts rfl rfl rfl rfl) rfl rfl
  | error err =>
      have hafter : RegistrarProgress.consumeEvent X { s.tail with queue, phase := .idle }
          (.transaction ev) = { s.tail with queue, phase := .stopped } := by
        simp only [RegistrarProgress.consumeEvent, hingest]
      rw [hafter]
      exact hI.grow hR hI.site SameData.refl.lasts (fun f hf => Or.inl hf)
        (fun ev' hev' => Or.inl (hsub ev' hev')) hfirst
        (hsettled SameData.refl.lasts rfl rfl rfl rfl) rfl rfl

/-- Where the tail only moves on: the tracker and what it watches are the same, and what
    is no longer pending is stored. -/
theorem Inv.move (hR : Lasting X U R) (hI : Inv X U R s) {gaps : GapTracker}
    {phase : RegistrarProgress.Phase} {reports abandoned : List LedgerRange}
    (htracker : Tail.tracker { s.tail with gaps, phase, reports } = s.tail.tracker)
    (hpending : ∀ iss ∈ s.tail.tracked, ∀ e, U.Has e → Touches X iss e →
      s.since iss < e.ledgerIndex → InRanges s.pending e.ledgerIndex →
      R s.tail.db iss e ∨ InRanges (Station.pending { s with
        tail := { s.tail with gaps, phase, reports }, abandoned }) e.ledgerIndex) :
    Inv X U R { s with tail := { s.tail with gaps, phase, reports }, abandoned } := by
  refine hI.grow hR hI.site SameData.refl.lasts (fun f hf => Or.inl hf)
    (fun ev hev => Or.inl hev) ?_ ?_ rfl rfl
  · intro hnone
    have hnone : (Tail.tracker { s.tail with gaps, phase, reports }).last = none := hnone
    rw [htracker] at hnone
    exact hI.first hnone
  · intro iss hiss e he htouch habove hlast
    have hlast : ∃ last ∈ (Tail.tracker { s.tail with gaps, phase, reports }).last,
        e.ledgerIndex ≤ last := hlast
    rw [htracker] at hlast
    rcases hI.settled iss hiss e he htouch habove hlast with hst | hgap
    · exact Or.inl hst
    · exact hpending iss hiss e he htouch habove hgap

/-- The gap a ledger reveals is about to be reported, then to be healed. -/
theorem Inv.observe (hR : Lasting X U R) (hI : Inv X U R s) {n : ℕ}
    (hphase : s.tail.phase = .observing n) :
    Inv X U R { s with tail := { s.tail with
      gaps := (s.tail.gaps.observe n).2
      reports := s.tail.reports ++ (s.tail.gaps.observe n).1.toList
      phase := RegistrarProgress.phaseAfter (s.tail.gaps.observe n).1 } } := by
  let t : Tail := { s.tail with
    gaps := (s.tail.gaps.observe n).2
    reports := s.tail.reports ++ (s.tail.gaps.observe n).1.toList
    phase := RegistrarProgress.phaseAfter (s.tail.gaps.observe n).1 }
  obtain ⟨hreport, hhealing, htracker⟩ := @RegistrarProgress.after_observe t _ rfl
  have hbefore : s.tail.toReport = (s.tail.gaps.observe n).1.toList ∧ s.tail.healing = []
      ∧ s.tail.tracker = (s.tail.gaps.observe n).2 := by
    unfold Tail.toReport Tail.healing Tail.tracker
    rw [hphase]
    exact ⟨rfl, rfl, rfl⟩
  obtain ⟨hreport', hhealing', htracker'⟩ := hbefore
  refine hI.move hR (htracker.trans htracker'.symm) fun iss hiss e he htouch habove hgap => ?_
  have hsame : Station.pending { s with tail := t } = s.pending := by
    unfold Station.pending
    rw [hreport', hhealing', List.append_nil]
    show t.toReport ++ t.healing ++ s.abandoned = _
    rw [hreport, hhealing]
    rfl
  exact Or.inr (hsame ▸ hgap)

/-- A heal returns, its range stored, or throws, its gap abandoned. -/
theorem Inv.endHeal (hR : Lasting X U R) (hI : Inv X U R s) {gap : LedgerRange}
    (hphase : s.tail.phase = .healing gap) {phase : RegistrarProgress.Phase}
    {abandoned : List LedgerRange}
    (hend : (phase = .idle ∧ abandoned = s.abandoned ∧ Assumed X U R s (.tail .healed))
      ∨ (phase = .stopped ∧ abandoned = s.abandoned ++ s.tail.healing)) :
    Inv X U R { s with tail := { s.tail with phase }, abandoned } := by
  have hbefore : s.tail.toReport = [] ∧ s.tail.healing = [gap]
      ∧ s.tail.tracker = s.tail.gaps := by
    unfold Tail.toReport Tail.healing Tail.tracker
    rw [hphase]
    exact ⟨rfl, rfl, rfl⟩
  obtain ⟨hreport, hhealing, htracker⟩ := hbefore
  have htracker' : Tail.tracker { s.tail with phase } = s.tail.gaps := by
    unfold Tail.tracker
    rcases hend with ⟨rfl, -⟩ | ⟨rfl, -⟩
    · rfl
    · rfl
  refine hI.move hR (htracker'.trans htracker.symm) fun iss hiss e he htouch habove hgap => ?_
  obtain ⟨r, hr, hcovers⟩ := hgap
  unfold Station.pending at hr
  rw [hreport, hhealing, List.nil_append] at hr
  rcases hend with ⟨-, rfl, hhealed⟩ | ⟨-, rfl⟩
  · rcases List.mem_append.mp hr with hr | hr
    · cases List.mem_singleton.mp hr
      refine Or.inl (hhealed gap (hhealing ▸ List.mem_singleton_self gap) iss hiss e he htouch ?_)
      exact ⟨max_le hcovers.1 habove, hcovers.2⟩
    · exact Or.inr ⟨r, List.mem_append_right _ hr, hcovers⟩
  · refine Or.inr ⟨r, List.mem_append_right _ ?_, hcovers⟩
    rw [hhealing]
    rcases List.mem_append.mp hr with hr | hr
    · exact List.mem_append_right _ hr
    · exact List.mem_append_left _ hr

/-- What is passed up to the next anchor is held. -/
theorem Inv.anchored (hU : U.Sound X) (hR : Lasting X U R) (hI : Inv X U R s)
    (hok : Anchored s .restart) : ∀ f ∈ s.finished, f.kind = .issuer →
      Held X U R s.tail.db f.issuance ⟨f.fromLedger, (highWater s.tail.db).getD 0⟩ := by
  intro f hf hkind e he htouch hcovers
  obtain ⟨anchor, hanchor, hpassed⟩ := hok f hf hkind
  have hto : e.ledgerIndex ≤ (highWater s.tail.db).getD 0 := hcovers.2
  rw [Option.mem_def.mp hanchor] at hto
  exact hI.passed hU hR hf hkind he htouch hcovers.1 (hpassed e.ledgerIndex hto hcovers.1)

/-- **A PROCESS ENDS** and what it swept is stored up to the next anchor. -/
theorem Inv.restart (hI : Inv X U R s)
    (hheld : ∀ f ∈ s.finished, f.kind = .issuer →
      Held X U R s.tail.db f.issuance ⟨f.fromLedger, (highWater s.tail.db).getD 0⟩) :
    Inv X U R { s with
      tail := { s.tail with
        tracked := registered s.tail.db, gaps := ⟨highWater s.tail.db⟩, queue := []
        fetching := [], phase := .idle }
      scans := []
      since := fun _ => (highWater s.tail.db).getD 0
      abandoned := []
      starts := s.starts ++ [⟨(highWater s.tail.db).getD 0, s.finished⟩] } where
  site := hI.site.rerun (fun _ hiss => hiss) (fun _ hsc => absurd hsc List.not_mem_nil)
  fetching := fun _ hf => absurd hf List.not_mem_nil
  queue := fun _ hev => absurd hev List.not_mem_nil
  first := fun _ _ _ hns => absurd hns (List.cons_ne_nil _ _).symm
  settled := by
    rintro iss - e - - habove ⟨last, hlast, hle⟩
    have hlast : highWater s.tail.db = some last := hlast
    have habove : (highWater s.tail.db).getD 0 < e.ledgerIndex := habove
    rw [hlast] at habove
    exact absurd hle (not_le.mpr habove)
  mended := hI.mended
  starts := by
    intro p hp f hf
    rcases List.mem_append.mp hp with hp | hp
    · exact hI.starts p hp f hf
    · cases List.mem_singleton.mp hp
      exact ⟨(hI.site.finished f hf).registered, hheld f hf⟩

/-- A step of the tail's own. -/
theorem Inv.atTail (hU : U.Sound X) (hR : Lasting X U R) (hI : Inv X U R s)
    {a : RegistrarProgress.Action} (hof : OfTail a) (hok : Assumed X U R s (.tail a))
    {tail : Tail} (h : RegistrarProgress.step X s.tail a = some tail) :
    Inv X U R { s with
      tail, since := s.sinceAfter a, abandoned := s.abandonedAfter a } := by
  cases tailStep_of_step hof h with
  | ledgerClosed n closeTime => exact hI.ledgerClosed hR n closeTime
  | fetched f res hf hev =>
      refine hI.quiet hR (fun f' hf' => Or.inl (List.mem_of_mem_erase hf'))
        (fun ev hin => ?_) (fun _ => le_rfl) (fun hnone n ns hqueue => ?_)
      · rcases List.mem_append.mp hin with hin | hin
        · exact Or.inl hin
        · obtain ⟨ev', hev', heq⟩ := List.mem_map.mp hin
          cases heq
          exact Or.inr ⟨f.entry, hI.fetching f hf, hev ev (Option.mem_toList.mp hev')⟩
      · have hnone' : ∀ evs : List TransactionEvent,
            ledgersOf (evs.map TailEvent.transaction) = [] := by
          intro evs
          unfold ledgersOf
          rw [List.filterMap_map]
          exact List.filterMap_eq_nil_iff.mpr (fun _ _ => rfl)
        rw [ledgersOf_append, hnone', List.append_nil] at hqueue
        exact hI.first hnone n ns hqueue
  | fetchFailed f =>
      exact hI.quiet hR (fun f' hf' => Or.inl (List.mem_of_mem_erase hf'))
        (fun ev hev => Or.inl hev) (fun _ => le_rfl) hI.first
  | consume item queue hphase hqueue =>
      cases item with
      | ledger n closeTime => exact hI.consume_ledger hR hok hphase hqueue
      | transaction ev => exact hI.consume_transaction hU hR hphase hqueue
  | observe n hphase => exact hI.observe hR hphase
  | healed gap hphase => exact hI.endHeal hR hphase (Or.inl ⟨rfl, rfl, hok⟩)
  | healFailed gap hphase => exact hI.endHeal hR hphase (Or.inr ⟨rfl, rfl⟩)

/-- **WHAT EVERY STEP KEEPS**. -/
theorem Inv.step (hU : U.Sound X) (hR : Lasting X U R) (hI : Inv X U R s) {s' : Station}
    {a : Action} (hassumed : Assumed X U R s a) (hanchored : Anchored s a)
    (h : RegistrarStation.step X U s a = some s') : Inv X U R s' := by
  cases a with
  | site a =>
      obtain ⟨-, h⟩ := Option.ite_none_right_eq_some.mp h
      obtain ⟨site, hsite, rfl⟩ := Option.map_eq_some_iff.mp h
      exact hI.atSite hU hR hsite
  | message account e msg =>
      obtain ⟨he, h⟩ := Option.ite_none_right_eq_some.mp h
      obtain ⟨tail, htail, rfl⟩ := Option.map_eq_some_iff.mp h
      obtain ⟨touched, -, htail⟩ := Option.bind_eq_some_iff.mp htail
      obtain ⟨-, htail⟩ := Option.ite_none_left_eq_some.mp htail
      cases Option.some.inj htail
      refine hI.quiet hR (fun f hf => ?_) (fun ev hev => Or.inl hev) (fun _ => le_rfl) hI.first
      rcases List.mem_append.mp hf with hf | hf
      · exact Or.inl hf
      · cases List.mem_singleton.mp hf
        exact Or.inr ⟨account, he⟩
  | tail a =>
      obtain ⟨hof, h⟩ := Option.ite_none_right_eq_some.mp h
      obtain ⟨tail, htail, rfl⟩ := Option.map_eq_some_iff.mp h
      exact hI.atTail hU hR hof hassumed htail
  | mended iss range =>
      obtain ⟨hiss, h⟩ := Option.ite_none_right_eq_some.mp h
      cases Option.some.inj h
      refine ⟨hI.site, hI.fetching, hI.queue, hI.first, hI.settled, fun p hp => ?_, hI.starts⟩
      rcases List.mem_append.mp hp with hp | hp
      · exact hI.mended p hp
      · cases List.mem_singleton.mp hp
        exact ⟨hiss, hassumed⟩
  | restart =>
      cases Option.some.inj h
      exact hI.restart (hI.anchored hU hR hanchored)

end Invariant

/-- A server before its first job, whose tail has just started. -/
structure Fresh (s : Station) : Prop where
  site : RegistrarScans.Fresh s.site
  tail : RegistrarProgress.Started s.tail
  since : ∀ iss ∈ s.tail.tracked, (highWater s.tail.db).getD 0 ≤ s.since iss
  mended : s.mended = []
  starts : s.starts = []

theorem Fresh.inv {X : Xrpl} {U : Upstream} {R : Storage} {s : Station} (h : Fresh s) :
    Inv X U R s where
  site := h.site.inv
  fetching := fun f hf => absurd (h.tail.fetching ▸ hf) List.not_mem_nil
  queue := fun ev hev => absurd (h.tail.queue ▸ hev) List.not_mem_nil
  first := by
    intro _ n ns hns
    rw [h.tail.queue] at hns
    exact absurd hns (List.cons_ne_nil _ _).symm
  settled := by
    rintro iss hiss e - - habove ⟨last, hlast, hle⟩
    obtain ⟨-, -, htracker⟩ := idle h.tail.phase
    rw [htracker, h.tail.gaps] at hlast
    have hlast : highWater s.tail.db = some last := hlast
    have hsince := h.since iss hiss
    rw [hlast] at hsince
    have hsince : last ≤ s.since iss := hsince
    omega
  mended := fun p hp => absurd (h.mended ▸ hp) List.not_mem_nil
  starts := fun p hp => absurd (h.starts ▸ hp) List.not_mem_nil

/-- What holds in every run whose processes end well. -/
theorem Inv.of_steps {X : Xrpl} {U : Upstream} {R : Storage} (hU : U.Sound X)
    (hR : Lasting X U R) {s₀ s : Station} (hstart : Fresh s₀)
    (hrun : Steps (RegistrarStation.step X U) (fun s a => Assumed X U R s a ∧ Anchored s a)
      s₀ s) : Inv X U R s :=
  hrun.inv (Inv X U R) hstart.inv (fun _ _ _ hI hok hs => hI.step hU hR hok.1 hok.2 hs)

/-! ## Without assumptions -/

/-- Whatever is stored will do. -/
def anyStorage : Storage := fun _ _ _ => True

theorem lasting_anyStorage (X : Xrpl) (U : Upstream) : Lasting X U anyStorage :=
  ⟨fun _ => trivial, fun _ _ _ _ _ _ => trivial⟩

section Unassumed

variable {X : Xrpl} {U : Upstream} {s s' : Station}

theorem assumed_anyStorage (a : Action) : Assumed X U anyStorage s a := by
  unfold Assumed
  cases a with
  | tail a =>
      cases a with
      | consume => exact fun _ _ _ _ _ _ _ _ _ _ => trivial
      | healed => exact fun _ _ _ _ _ _ _ _ => trivial
      | _ => exact trivial
  | mended iss range => exact fun _ _ _ _ => trivial
  | _ => exact trivial

/-- The invariant of the writers, the stream and the queue. -/
theorem Inv.unassumed (hU : U.Sound X) (hI : Inv X U anyStorage s) {a : Action}
    (h : RegistrarStation.step X U s a = some s') : Inv X U anyStorage s' := by
  have hstep := fun hanchored =>
    hI.step hU (lasting_anyStorage X U) (assumed_anyStorage a) hanchored h
  cases a with
  | restart =>
      cases Option.some.inj h
      exact hI.restart (fun _ _ _ _ _ _ _ => trivial)
  | _ => exact hstep trivial

/-- **NOTHING IS LOST** by any step. -/
theorem Inv.lasts_step {R : Storage} (hU : U.Sound X) (hI : Inv X U R s) {a : Action}
    (h : RegistrarStation.step X U s a = some s') : Lasts X U s.tail.db s'.tail.db := by
  cases a with
  | site a =>
      obtain ⟨-, h⟩ := Option.ite_none_right_eq_some.mp h
      obtain ⟨site, hsite, rfl⟩ := Option.map_eq_some_iff.mp h
      exact lasts_site hU hI.site hsite
  | message account e msg =>
      obtain ⟨-, h⟩ := Option.ite_none_right_eq_some.mp h
      obtain ⟨tail, htail, rfl⟩ := Option.map_eq_some_iff.mp h
      obtain ⟨touched, -, htail⟩ := Option.bind_eq_some_iff.mp htail
      obtain ⟨-, htail⟩ := Option.ite_none_left_eq_some.mp htail
      cases Option.some.inj htail
      exact SameData.refl.lasts
  | tail a =>
      obtain ⟨hof, h⟩ := Option.ite_none_right_eq_some.mp h
      obtain ⟨tail, htail, rfl⟩ := Option.map_eq_some_iff.mp h
      cases tailStep_of_step hof htail with
      | consume item queue hphase hqueue =>
          cases item with
          | ledger n closeTime => exact (sameData_recordEvent n closeTime).lasts
          | transaction ev =>
              obtain ⟨e, he, hev⟩ := hI.queue ev (hqueue ▸ List.mem_cons_self)
              show Lasts X U s.tail.db (RegistrarProgress.consumeEvent X _ _).db
              cases hingest : ingestEvent X s.tail.tracked ev s.tail.db with
              | ok db =>
                  simp only [RegistrarProgress.consumeEvent, hingest]
                  exact lasts_ingestEvent hU hI.site.tracked he hev hingest
              | error err =>
                  simp only [RegistrarProgress.consumeEvent, hingest]
                  exact SameData.refl.lasts
      | ledgerClosed n closeTime => exact SameData.refl.lasts
      | fetched f res hf hev => exact SameData.refl.lasts
      | fetchFailed f => exact SameData.refl.lasts
      | observe n hphase => exact SameData.refl.lasts
      | healed gap hphase => exact SameData.refl.lasts
      | healFailed gap hphase => exact SameData.refl.lasts
  | mended iss range =>
      obtain ⟨-, h⟩ := Option.ite_none_right_eq_some.mp h
      cases Option.some.inj h
      exact SameData.refl.lasts
  | restart =>
      cases Option.some.inj h
      exact SameData.refl.lasts

end Unassumed

end RegistrarStation
