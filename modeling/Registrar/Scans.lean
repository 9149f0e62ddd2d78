import Registrar.Discovery

/-! # Scans

    A sweep reads its issuer's `account_tx`, a per-holder job its account's, page by
    page and from a marker on.  What a scan has read is stored for its issuance,
    across failures and restarts, and a scan that comes to an end has read everything
    up to the ledger that was validated at its last page. -/

namespace RegistrarScans

open KeyedTable Runs Statements RegistrarMetadata RegistrarArchive RegistrarIngest
open RegistrarBackfill RegistrarSweep RegistrarStored RegistrarWritten
open RegistrarTail RegistrarOrder RegistrarPages
open RegistrarDiscovery (registered registered_eq create trackNewHolder)

/-! ## Reading an account -/

/-- A page of the account from a ledger on, read when ledgers up to `validated` were;
    its marker names a place among them. -/
def ReadsPage (U : Upstream) (validated : ℕ) (account : String) (fromLedger : ℕ)
    (marker : Option String) (page : BackfillPage) : Prop :=
  Answers U validated account ⟨fromLedger, validated⟩ marker page
    ∧ ∀ e ∈ U.accountTx account, U.Passed page.marker e → e.ledgerIndex ≤ validated

instance (U : Upstream) (validated : ℕ) (account : String) (fromLedger : ℕ)
    (marker : Option String) (page : BackfillPage) :
    Decidable (ReadsPage U validated account fromLedger marker page) :=
  inferInstanceAs (Decidable (_ ∧ _))

section Reading

variable (X : Xrpl) (U : Upstream)

/-- What lies before the marker is stored for the issuance. -/
def ReadFor (db : Archive) (iss : TrackedIssuance) (account : String) (fromLedger : ℕ)
    (marker : Option String) : Prop :=
  ∀ e ∈ U.accountTx account, fromLedger ≤ e.ledgerIndex → U.Passed marker e →
    Touches X iss e → StoredFor X db iss e

/-- What lies in the range is stored for the issuance. -/
def CompleteFor (db : Archive) (iss : TrackedIssuance) (account : String)
    (fromLedger toLedger : ℕ) : Prop :=
  ∀ e ∈ U.accountTx account, fromLedger ≤ e.ledgerIndex → e.ledgerIndex ≤ toLedger →
    Touches X iss e → StoredFor X db iss e

end Reading

/-- Nothing lies before no marker. -/
theorem ReadFor.none {X : Xrpl} {U : Upstream} {db : Archive} {iss : TrackedIssuance}
    {account : String} {fromLedger : ℕ} : ReadFor X U db iss account fromLedger Option.none :=
  fun _ _ _ hpassed => absurd hpassed id

theorem ReadFor.mono {X : Xrpl} {U : Upstream} {db db' : Archive} {iss : TrackedIssuance}
    {account : String} {fromLedger : ℕ} {marker : Option String}
    (hkeep : ∀ e, U.Has e → StoredFor X db iss e → StoredFor X db' iss e)
    (h : ReadFor X U db iss account fromLedger marker) :
    ReadFor X U db' iss account fromLedger marker :=
  fun e he hfrom hpassed htouch => hkeep e ⟨account, he⟩ (h e he hfrom hpassed htouch)

theorem CompleteFor.mono {X : Xrpl} {U : Upstream} {db db' : Archive} {iss : TrackedIssuance}
    {account : String} {fromLedger toLedger : ℕ}
    (hkeep : ∀ e, U.Has e → StoredFor X db iss e → StoredFor X db' iss e)
    (h : CompleteFor X U db iss account fromLedger toLedger) :
    CompleteFor X U db' iss account fromLedger toLedger :=
  fun e he hfrom hto htouch => hkeep e ⟨account, he⟩ (h e he hfrom hto htouch)

/-- **A PAGE READ AND STORED** moves the marker; the last one completes the range. -/
theorem ReadFor.page {X : Xrpl} {U : Upstream} {db db' : Archive} {iss : TrackedIssuance}
    {account : String} {fromLedger validated : ℕ} {marker : Option String}
    {page : BackfillPage} (h : ReadFor X U db iss account fromLedger marker)
    (hread : ReadsPage U validated account fromLedger marker page)
    (hkeep : ∀ e, U.Has e → StoredFor X db iss e → StoredFor X db' iss e)
    (hpage : ∀ e ∈ page.entries, Touches X iss e → StoredFor X db' iss e) :
    ReadFor X U db' iss account fromLedger page.marker
      ∧ (page.marker = Option.none → CompleteFor X U db' iss account fromLedger validated) := by
  have hlisted : ∀ e ∈ U.accountTx account, fromLedger ≤ e.ledgerIndex →
      e.ledgerIndex ≤ validated → page.marker = Option.none ∨ U.Passed page.marker e →
      Touches X iss e → StoredFor X db' iss e := by
    intro e he hfrom hto hpassed htouch
    rcases hread.1.listed he ⟨hfrom, hto⟩ hto hpassed with hbefore | hon
    · exact hkeep e ⟨account, he⟩ (h e he hfrom hbefore htouch)
    · exact hpage e hon htouch
  constructor
  · intro e he hfrom hpassed htouch
    exact hlisted e he hfrom (hread.2 e he hpassed) (Or.inr hpassed) htouch
  · intro hfinal e he hfrom hto htouch
    exact hlisted e he hfrom hto (Or.inl hfinal) htouch

/-! ## What the writers store -/

/-- The writer carries upstream transactions. -/
def OfUpstream (X : Xrpl) (U : Upstream) : Page → Prop
  | .sweep _ job page _ => ∀ e ∈ page.entries, e ∈ U.accountTx job.address
  | .worker _ _ job page _ => ∀ e ∈ page.entries, e ∈ U.accountTx job.address
  | .heal _ _ issuer page => ∀ e ∈ page.entries, e ∈ U.accountTx issuer
  | .event seen _ msg res =>
      ∀ ev, streamEvent X seen msg res = some ev → ∃ e, U.Has e ∧ IsEventOf X e ev

theorem has_of_kept {X : Xrpl} {U : Upstream} {account : String} {page : BackfillPage}
    (hof : ∀ e ∈ page.entries, e ∈ U.accountTx account) {batch : List MappedEntry}
    {e : BinaryTxEntry} (he : e ∈ keptEntries X page batch) : U.Has e :=
  ⟨account, hof e (mem_keptEntries.mp he).1⟩

/-- A worker keeps each entry that touches an issuance it was mapped with. -/
theorem workerBatch_keeps {X : Xrpl} {seen : List TrackedIssuance} {account : String}
    {page : BackfillPage} {mapped : List IngestTransaction}
    (h : workerBatch X seen account page = some mapped) {e : BinaryTxEntry}
    (he : e ∈ page.entries) (hblob : e.metaBlob ≠ "") {iss : TrackedIssuance}
    (hiss : iss ∈ seen) (htouch : Touches X iss e) :
    e ∈ keptEntries X page (workerEntries X mapped) := by
  obtain ⟨m, hm, htouch⟩ := htouch
  rw [decodeMeta_of_ne hblob] at hm
  obtain ⟨kept, hkept, hmap⟩ := Option.bind_eq_some_iff.mp h
  obtain ⟨⟨e', k⟩, hek, hpair⟩ := exists_of_mapM_some hkept he
  obtain ⟨k', hk', hpair⟩ := Option.map_eq_some_iff.mp hpair
  cases hpair
  have hyes : k = true := by
    have hne : seen ≠ [] := List.ne_nil_of_mem hiss
    unfold inScopeEntry holdersInMetaBlob at hk'
    rw [if_neg (not_or.mpr ⟨hblob, hne⟩), hm] at hk'
    exact (Option.some.inj hk').symm.trans (decide_eq_true (holdersInMeta_ne hiss htouch))
  have hin : e ∈ (kept.filter (·.2)).map (·.1) :=
    List.mem_map.mpr ⟨(e, k), List.mem_filter.mpr ⟨hek, hyes⟩, rfl⟩
  obtain ⟨tx, htx, hrow⟩ := exists_of_mapM_some hmap hin
  obtain ⟨hhash, -, hblob', -⟩ := entryRow_some hrow
  refine mem_keptEntries.mpr ⟨he, ⟨tx, decodeMeta X tx.metaBlob⟩, List.mem_map_of_mem htx,
    hhash, ?_⟩
  show decodeMeta X tx.metaBlob = _
  rw [hblob']

/-- **WHAT A WRITER WRITES**: upstream transactions, those on a page that touch an
    issuance it maps and derives for among them. -/
theorem Page.writes {X : Xrpl} {U : Upstream} (hU : U.Sound X) {p : Page}
    (hof : OfUpstream X U p) {db db' : Archive} (h : p.write X db = some db') :
    ∃ es, (∀ e ∈ es, U.Has e) ∧ Writes X p.tracked es db db'
      ∧ match p with
        | .sweep issuance _ page _ => ∀ e ∈ page.entries, Touches X issuance e → e ∈ es
        | .worker seen _ _ page _ =>
            ∀ e ∈ page.entries, ∀ iss ∈ seen, Touches X iss e → e ∈ es
        | .heal seen _ _ page => ∀ e ∈ page.entries, ∀ iss ∈ seen, Touches X iss e → e ∈ es
        | .event seen _ msg res => ∀ e, U.Has e →
            (∀ ev, streamEvent X seen msg res = some ev → IsEventOf X e ev) → e ∈ es := by
  cases p with
  | sweep issuance job page highWater =>
      obtain ⟨batch, hbatch, h⟩ := Option.bind_eq_some_iff.mp h
      obtain ⟨d, hd, hsame, -⟩ := sweepTransaction_ok (toOption_some.mp h)
      have hblob : ∀ e ∈ page.entries, e.metaBlob ≠ "" := fun e he => hU.blob ⟨_, hof e he⟩
      refine ⟨keptEntries X page batch, fun e he => has_of_kept hof he,
        (writes_writeBatch hbatch hblob hd).1.of_same hsame.transactions hsame.deltas, ?_⟩
      exact fun e he htouch =>
        (sweepBatch_rows hbatch hblob).2 e he issuance (List.mem_singleton_self _) htouch
  | worker seen tracked job page maxLedger =>
      obtain ⟨mapped, hmapped, h⟩ := Option.bind_eq_some_iff.mp h
      obtain ⟨d₁, d, h₁, h₂, hsame, -⟩ := workerTransaction_ok (toOption_some.mp h)
      have hwrites := (writes_batch h₁ h₂ (fun b hb => workerBatch_rows hmapped hb)
        (fun e he => (mem_keptEntries.mp he).2)).1
      refine ⟨_, fun e he => has_of_kept hof he,
        hwrites.of_same hsame.transactions hsame.deltas, ?_⟩
      exact fun e he iss hiss htouch =>
        workerBatch_keeps hmapped he (hU.blob ⟨_, hof e he⟩) hiss htouch
  | heal seen tracked issuer page =>
      obtain ⟨batch, hbatch, h⟩ := Option.bind_eq_some_iff.mp h
      have hblob : ∀ e ∈ page.entries, e.metaBlob ≠ "" := fun e he => hU.blob ⟨_, hof e he⟩
      exact ⟨keptEntries X page batch, fun e he => has_of_kept hof he,
        (writes_gapTransaction hbatch hblob (toOption_some.mp h)).1,
        (sweepBatch_rows hbatch hblob).2⟩
  | event seen tracked msg res =>
      obtain ⟨ev, hev, h⟩ := Option.bind_eq_some_iff.mp h
      obtain ⟨e, he, hof⟩ := hof ev hev
      refine ⟨[e], fun e' he' => List.mem_singleton.mp he' ▸ he,
        (writes_ingestEvent hof (toOption_some.mp h)).1, fun e' he' hof' => ?_⟩
      exact List.mem_singleton.mpr
        (hU.hash he' he ((hof' ev hev).1.symm.trans hof.1))

/-- A writer keeps what is stored. -/
theorem Page.keeps {X : Xrpl} {U : Upstream} (hU : U.Sound X) {p : Page}
    (hof : OfUpstream X U p) {db db' : Archive} (h : p.write X db = some db')
    (htracked : ∀ iss ∈ p.tracked, iss ∈ registered db) {iss : TrackedIssuance}
    (hiss : iss ∈ registered db) (e : BinaryTxEntry) (he : U.Has e)
    (hst : StoredFor X db iss e) : StoredFor X db' iss e := by
  obtain ⟨es, hes, hwrites, -⟩ := Page.writes hU hof h
  exact hwrites.keeps hU hes (fun j hj hid => registered_eq (htracked j hj) hiss hid) he hst

/-! ## The site -/

/-- A running sweep (`issuer`) or per-holder job (`account`): the job it runs, its
    cursor and its high water. -/
structure Scan where
  kind : BackfillKind
  issuance : TrackedIssuance
  job : BackfillJobRow
  cursor : Option String
  highWater : ℕ
  deriving DecidableEq

/-- What a scan that came to an end has read. -/
structure Finished where
  kind : BackfillKind
  issuance : TrackedIssuance
  account : String
  fromLedger : ℕ
  validated : ℕ
  deriving DecidableEq

/-- The archive and what reads into it; `validated` is the ledger validated upstream,
    `finished` the scans that came to an end. -/
structure Site where
  db : Archive
  validated : ℕ := 0
  tracked : List TrackedIssuance := []
  scans : List Scan := []
  finished : List Finished := []

/-- The ledger a job starts at. -/
def jobStart (job : BackfillJobRow) : ℕ := job.fromLedger.getD 0

/-- A scan resumes at the marker of its job. -/
def Scan.begin (kind : BackfillKind) (issuance : TrackedIssuance) (job : BackfillJobRow) :
    Scan :=
  ⟨kind, issuance, job, job.lastMarker, jobStart job⟩

/-- The high water after a page: of the kept rows for a sweep, of all entries for a
    per-holder job. -/
def Scan.absorb (X : Xrpl) (sc : Scan) (page : BackfillPage) : ℕ :=
  raiseAll sc.highWater (match sc.kind with
    | .issuer => ((sweepBatch X [sc.issuance] sc.job.address page).getD []).map
        (·.row.ledgerIndex)
    | .account => page.entries.map (·.ledgerIndex))

def Scan.advance (X : Xrpl) (sc : Scan) (page : BackfillPage) : Scan :=
  { sc with cursor := page.marker, highWater := sc.absorb X page }

def Scan.finish (sc : Scan) (validated : ℕ) : Finished :=
  ⟨sc.kind, sc.issuance, sc.job.address, jobStart sc.job, validated⟩

/-- The writer of a scan's page; a job maps it with the issuances `seen`. -/
def Scan.page (X : Xrpl) (sc : Scan) (seen tracked : List TrackedIssuance)
    (page : BackfillPage) : Page :=
  match sc.kind with
  | .issuer => .sweep sc.issuance sc.job page (sc.absorb X page)
  | .account => .worker seen tracked sc.job page (sc.absorb X page)

/-- The ledger a new job starts at: the issuance's own for its sweep, the earliest for
    a holder found in the stream. -/
def startOf (kind : BackfillKind) (i : IssuanceRow) : ℕ :=
  match kind with
  | .issuer => i.backfillFromLedger
  | .account => 0

/-- The worker claims its job; a sweep marks its own with the first page. -/
def beginJob (kind : BackfillKind) (jobId : ℕ) (db : Archive) : Archive :=
  match kind with
  | .issuer => db
  | .account => claimJob jobId db

/-- A sweep runs a job of its issuer that is not completed; the loops of
    `runIssuance` a pending one of a holder, of a tracked issuance. -/
def CanBegin (X : Xrpl) (s : Site) (kind : BackfillKind) (iss : TrackedIssuance)
    (job : BackfillJobRow) : Prop :=
  match kind with
  | .issuer => trackedIssuerOf X iss = some job.address ∧ job.status ≠ .completed
  | .account => iss ∈ s.tracked ∧ job.kind = .account ∧ job.status = .pending

instance (X : Xrpl) (s : Site) (kind : BackfillKind) (iss : TrackedIssuance)
    (job : BackfillJobRow) : Decidable (CanBegin X s kind iss job) := by
  unfold CanBegin
  cases kind <;> exact inferInstance

inductive Action
  | close (ledger : ℕ)
  | register (row : IssuanceRow)
  | insertAccount (address : String)
  | enqueue (i : IssuanceRow) (address : String) (kind : BackfillKind)
  | reclaimStale (issuanceId : ℕ)
  | record (h : DetectedHolder)
  | refreshTracked
  -- a ledger of the tail, or a close time looked up for a query
  | recordLedger (row : LedgerRow)
  | begin (kind : BackfillKind) (iss : TrackedIssuance) (job : BackfillJobRow)
  | read (sc : Scan) (seen : List TrackedIssuance) (page : BackfillPage) (validated : ℕ)
  | fail (sc : Scan)
  | heal (seen : List TrackedIssuance) (issuer : String) (page : BackfillPage)
  | event (e : BinaryTxEntry) (account : String) (seen : List TrackedIssuance)
      (msg : StreamMessage) (res : TxResult)
  | restart

/-- A page may be read by the scan. -/
def CanRead (U : Upstream) (s : Site) (sc : Scan) (seen : List TrackedIssuance)
    (page : BackfillPage) (validated : ℕ) : Prop :=
  sc ∈ s.scans ∧ validated ≤ s.validated
    ∧ ReadsPage U validated sc.job.address (jobStart sc.job) sc.cursor page
    ∧ (sc.kind = .account → sc.issuance ∈ seen)

instance (U : Upstream) (s : Site) (sc : Scan) (seen : List TrackedIssuance)
    (page : BackfillPage) (validated : ℕ) : Decidable (CanRead U s sc seen page validated) :=
  inferInstanceAs (Decidable (_ ∧ _ ∧ _ ∧ _))

def step (X : Xrpl) (U : Upstream) (s : Site) : Action → Option Site
  | .close ledger => some { s with validated := max s.validated ledger }
  | .register row => some { s with db := create row s.db }
  | .insertAccount address => some { s with db := insertAccount ⟨address, none⟩ s.db }
  | .enqueue i address kind =>
      if i ∈ s.db.issuances then
        (enqueue i.id address (some (startOf kind i)) none kind s.db).toOption.map
          fun db => { s with db }
      else none
  | .reclaimStale issuanceId => some { s with db := reclaimStale issuanceId s.db }
  | .record h => (trackNewHolder h s.db).toOption.map fun db => { s with db }
  | .refreshTracked => some { s with tracked := registered s.db }
  | .recordLedger row => some { s with db := recordLedger row s.db }
  | .begin kind iss job =>
      if job ∈ s.db.backfillJob ∧ iss ∈ registered s.db ∧ iss.id = job.issuanceId
          ∧ CanBegin X s kind iss job then
        some { s with
          db := beginJob kind job.id s.db
          scans := s.scans ++ [Scan.begin kind iss job] }
      else none
  | .read sc seen page validated =>
      if CanRead U s sc seen page validated then
        ((sc.page X seen s.tracked page).write X s.db).map fun db =>
          { s with
            db
            scans := s.scans.erase sc ++
              (if page.marker.isNone then [] else [sc.advance X page])
            finished := s.finished ++
              (if page.marker.isNone then [sc.finish validated] else []) }
      else none
  | .fail sc =>
      if sc ∈ s.scans then
        some { s with db := failJob sc.job.id s.db, scans := s.scans.erase sc }
      else none
  | .heal seen issuer page =>
      if ∀ e ∈ page.entries, e ∈ U.accountTx issuer then
        ((Page.heal seen s.tracked issuer page).write X s.db).map fun db => { s with db }
      else none
  | .event e account seen msg res =>
      if e ∈ U.accountTx account ∧ ∀ ev ∈ streamEvent X seen msg res, IsEventOf X e ev then
        ((Page.event seen s.tracked msg res).write X s.db).map fun db => { s with db }
      else none
  | .restart => some { s with tracked := registered s.db, scans := [] }

/-! ## Jobs -/

/-- The two rows are of one job. -/
def SameJob (j j' : BackfillJobRow) : Prop :=
  j'.id = j.id ∧ j'.address = j.address ∧ j'.issuanceId = j.issuanceId
    ∧ j'.fromLedger = j.fromLedger

/-- A statement that keeps the jobs and may move the marker of one. -/
structure JobsKept (jobId : Option ℕ) (marker : Option String) (db db' : Archive) : Prop where
  old : ∀ j' ∈ db'.backfillJob, ∃ j ∈ db.backfillJob, SameJob j j'
    ∧ (j'.lastMarker = j.lastMarker ∨ (some j.id = jobId ∧ j'.lastMarker = marker))
  new : ∀ j ∈ db.backfillJob, ∃ j' ∈ db'.backfillJob, SameJob j j'
  seq : db'.jobSeq = db.jobSeq

theorem SameJob.refl (j : BackfillJobRow) : SameJob j j := ⟨rfl, rfl, rfl, rfl⟩

theorem SameJob.trans {a b c : BackfillJobRow} (h₁ : SameJob a b) (h₂ : SameJob b c) :
    SameJob a c :=
  ⟨h₂.1.trans h₁.1, h₂.2.1.trans h₁.2.1, h₂.2.2.1.trans h₁.2.2.1,
    h₂.2.2.2.trans h₁.2.2.2⟩

theorem JobsKept.of_same {jobId : Option ℕ} {marker : Option String} {db db' : Archive}
    (hjobs : db'.backfillJob = db.backfillJob) (hseq : db'.jobSeq = db.jobSeq) :
    JobsKept jobId marker db db' where
  old := fun j hj => ⟨j, hjobs ▸ hj, SameJob.refl j, Or.inl rfl⟩
  new := fun j hj => ⟨j, hjobs.symm ▸ hj, SameJob.refl j⟩
  seq := hseq

theorem JobsKept.trans {jobId : Option ℕ} {marker : Option String} {a b c : Archive}
    (h₁ : JobsKept jobId marker a b) (h₂ : JobsKept jobId marker b c) :
    JobsKept jobId marker a c where
  old := by
    intro j'' hj''
    obtain ⟨j', hj', hsame', hmarker'⟩ := h₂.old j'' hj''
    obtain ⟨j, hj, hsame, hmarker⟩ := h₁.old j' hj'
    refine ⟨j, hj, hsame.trans hsame', ?_⟩
    rcases hmarker' with hkept | ⟨hid, hset⟩
    · exact hmarker.imp hkept.trans (fun h => ⟨h.1, hkept.trans h.2⟩)
    · exact Or.inr ⟨hsame.1 ▸ hid, hset⟩
  new := by
    intro j hj
    obtain ⟨j', hj', hsame⟩ := h₁.new j hj
    obtain ⟨j'', hj'', hsame'⟩ := h₂.new j' hj'
    exact ⟨j'', hj'', hsame.trans hsame'⟩
  seq := h₂.seq.trans h₁.seq

/-- Rewriting one job. -/
theorem jobs_updateJob {jobId : ℕ} {marker : Option String}
    (f : BackfillJobRow → BackfillJobRow) (hf : ∀ r, (f r).key = r.key)
    (hsame : ∀ r, SameJob r (f r)) (hmarker : ∀ r, (f r).lastMarker = r.lastMarker
      ∨ (f r).lastMarker = marker) (db : Archive) :
    JobsKept (some jobId) marker db (updateJob jobId f hf db) where
  old := by
    intro j' hj'
    obtain ⟨j, hj, rfl⟩ := List.mem_map.mp hj'
    refine ⟨j, hj, ?_⟩
    by_cases hid : j.id = jobId
    · rw [if_pos hid]
      exact ⟨hsame j, (hmarker j).imp id (fun h => ⟨congrArg some hid, h⟩)⟩
    · rw [if_neg hid]
      exact ⟨SameJob.refl j, Or.inl rfl⟩
  new := by
    intro j hj
    have hin : (if j.id = jobId then f j else j) ∈ (updateJob jobId f hf db).backfillJob :=
      List.mem_map_of_mem (f := fun r : BackfillJobRow => if r.id = jobId then f r else r) hj
    refine ⟨_, hin, ?_⟩
    by_cases hid : j.id = jobId
    · rw [if_pos hid]
      exact hsame j
    · rw [if_neg hid]
      exact SameJob.refl j
  seq := rfl

/-- The page of a scan moves the marker of its job. -/
theorem Scan.page_jobs {X : Xrpl} {sc : Scan} {seen tracked : List TrackedIssuance}
    {page : BackfillPage} {db db' : Archive}
    (h : (sc.page X seen tracked page).write X db = some db') :
    JobsKept (some sc.job.id) page.marker db db' := by
  have hcheck : ∀ n (d : Archive), JobsKept (some sc.job.id) page.marker d
      (checkpointJob sc.job.id page.marker n d) := by
    intro n d
    exact jobs_updateJob (fun r => { r with
      lastMarker := page.marker, txCount := r.txCount + n, status := .running })
      (fun _ => rfl) (fun _ => ⟨rfl, rfl, rfl, rfl⟩) (fun _ => Or.inr rfl) d
  have hdone : page.marker.isNone → ∀ d : Archive, JobsKept (some sc.job.id) page.marker d
      (completeJob sc.job.id d) := by
    intro hfinal d
    exact jobs_updateJob (fun r => { r with status := .completed, lastMarker := none })
      (fun _ => rfl) (fun _ => ⟨rfl, rfl, rfl, rfl⟩)
      (fun _ => Or.inr (Option.isNone_iff_eq_none.mp hfinal).symm) d
  have hkept : ∀ {d}, Beside db d → JobsKept (some sc.job.id) page.marker db d := fun hb =>
    JobsKept.of_same (congrArg Untouched.backfillJob hb.untouched)
      (congrArg Untouched.jobSeq hb.untouched)
  unfold Scan.page at h
  cases hkind : sc.kind with
  | issuer =>
      rw [hkind] at h
      obtain ⟨batch, -, h⟩ := Option.bind_eq_some_iff.mp h
      obtain ⟨d, hd, h⟩ := bind_ok.mp (toOption_some.mp h)
      have hstart := (hkept (beside_writeBatch hd)).trans (hcheck batch.length d)
      rw [finishSweep_ok h]
      by_cases hfinal : page.marker.isNone
      · rw [if_pos hfinal]
        let rows := RegistrarResume.sweepRows sc.issuance.id sc.job.address
          (sc.job.fromLedger.getD 0) (sc.absorb X page)
          (checkpointJob sc.job.id page.marker batch.length d)
        let claimed := RegistrarResume.claim rows
          (checkpointJob sc.job.id page.marker batch.length d)
        have hclaimed : JobsKept (some sc.job.id) page.marker
            (checkpointJob sc.job.id page.marker batch.length d) claimed :=
          JobsKept.of_same rfl rfl
        exact (hstart.trans hclaimed).trans (hdone hfinal claimed)
      · rw [if_neg hfinal]
        exact hstart
  | account =>
      rw [hkind] at h
      obtain ⟨mapped, -, h⟩ := Option.bind_eq_some_iff.mp h
      obtain ⟨d₁, h₁, h⟩ := bind_ok.mp (toOption_some.mp h)
      obtain ⟨d, hd, h⟩ := bind_ok.mp h
      have hstart := (hkept ((beside_insertTransactionRowsMany h₁).trans
        (Beside.foldlM (fun _ _ _ he => beside_deltaDeriver he) hd))).trans
        (hcheck mapped.length d)
      rw [finishJob_ok h]
      by_cases hfinal : page.marker.isNone
      · rw [if_pos hfinal]
        exact (hstart.trans (hdone hfinal _)).trans (JobsKept.of_same rfl rfl)
      · rw [if_neg hfinal]
        exact hstart

/-! ## The invariant -/

section Invariant

variable (X : Xrpl) (U : Upstream)

/-- What a job has read is stored for its issuance, which is registered, and it starts
    no later than its issuance. -/
structure JobOk (db : Archive) (job : BackfillJobRow) : Prop where
  issuance : db.issuances.HasKey job.issuanceId
  id : job.id < db.jobSeq
  start : ∀ i ∈ db.issuances, i.id = job.issuanceId → jobStart job ≤ i.backfillFromLedger
  read : ∀ iss ∈ registered db, iss.id = job.issuanceId →
    ReadFor X U db iss job.address (jobStart job) job.lastMarker

/-- A scan runs a stored job of its issuance, and what it has read is stored. -/
structure ScanOk (s : Site) (sc : Scan) : Prop where
  registered : sc.issuance ∈ registered s.db
  id : sc.issuance.id = sc.job.issuanceId
  job : ∃ j ∈ s.db.backfillJob, SameJob j sc.job
  issuer : sc.kind = .issuer → trackedIssuerOf X sc.issuance = some sc.job.address
  tracked : sc.kind = .account → sc.issuance ∈ s.tracked
  read : ReadFor X U s.db sc.issuance sc.job.address (jobStart sc.job) sc.cursor

/-- What a finished scan has read is complete. -/
structure FinishedOk (db : Archive) (f : Finished) : Prop where
  registered : f.issuance ∈ registered db
  start : ∀ i ∈ db.issuances, i.id = f.issuance.id → f.fromLedger ≤ i.backfillFromLedger
  issuer : f.kind = .issuer → trackedIssuerOf X f.issuance = some f.account
  complete : CompleteFor X U db f.issuance f.account f.fromLedger f.validated

structure Inv (s : Site) : Prop where
  tracked : ∀ iss ∈ s.tracked, iss ∈ registered s.db
  jobs : ∀ job ∈ s.db.backfillJob, JobOk X U s.db job
  jobIds : ∀ job ∈ s.db.backfillJob, ∀ job' ∈ s.db.backfillJob, job.id = job'.id → job = job'
  scans : ∀ sc ∈ s.scans, ScanOk X U s sc
  finished : ∀ f ∈ s.finished, FinishedOk X U s.db f

end Invariant

/-- A statement that keeps the issuances, the jobs and what is stored, and may move the
    marker of one job. -/
structure Keeps (X : Xrpl) (U : Upstream) (jobId : Option ℕ) (marker : Option String)
    (db db' : Archive) : Prop where
  issuances : db'.issuances = db.issuances
  jobs : JobsKept jobId marker db db'
  stored : ∀ iss ∈ registered db, ∀ e, U.Has e → StoredFor X db iss e → StoredFor X db' iss e
  read : ∀ job ∈ db.backfillJob, some job.id = jobId → ∀ iss ∈ registered db,
    iss.id = job.issuanceId → ReadFor X U db' iss job.address (jobStart job) marker

theorem Keeps.registered {X : Xrpl} {U : Upstream} {jobId : Option ℕ} {marker : Option String}
    {db db' : Archive} (h : Keeps X U jobId marker db db') :
    RegistrarDiscovery.registered db' = RegistrarDiscovery.registered db := by
  unfold RegistrarDiscovery.registered
  rw [h.issuances]

/-- A statement that writes neither transactions nor jobs. -/
theorem Keeps.of_same {X : Xrpl} {U : Upstream} {db db' : Archive}
    (hissuances : db'.issuances = db.issuances)
    (hjobs : JobsKept Option.none Option.none db db')
    (htransactions : db'.transactions = db.transactions)
    (hdeltas : db'.balanceDeltas = db.balanceDeltas) : Keeps X U .none .none db db' where
  issuances := hissuances
  jobs := hjobs
  stored := by
    intro iss _ e _ h
    unfold StoredFor Stored
    rw [htransactions, hdeltas]
    exact h
  read := fun _ _ h => nomatch h

/-- **WHAT A KEEPING STATEMENT KEEPS**. -/
theorem Inv.keep {X : Xrpl} {U : Upstream} {s : Site} (hI : Inv X U s) {jobId : Option ℕ}
    {marker : Option String} {db' : Archive} (h : Keeps X U jobId marker s.db db') :
    Inv X U { s with db := db' } where
  tracked := fun iss hiss => h.registered.symm ▸ hI.tracked iss hiss
  jobs := by
    intro j' hj'
    obtain ⟨j, hj, ⟨hid, haddress, hissuance, hfrom⟩, hmarker⟩ := h.jobs.old j' hj'
    have hok := hI.jobs j hj
    have hstart : jobStart j' = jobStart j := congrArg (·.getD 0) hfrom
    refine ⟨?_, ?_, fun i hi hiid => ?_, fun iss hiss hiid => ?_⟩
    · rw [h.issuances, hissuance]
      exact hok.issuance
    · rw [h.jobs.seq, hid]
      exact hok.id
    · rw [hstart]
      exact hok.start i (h.issuances ▸ hi) (hiid.trans hissuance)
    · rw [h.registered] at hiss
      rw [haddress, hstart]
      rcases hmarker with hkept | ⟨hmoved, hset⟩
      · rw [hkept]
        exact (hok.read iss hiss (hiid.trans hissuance)).mono (h.stored iss hiss)
      · rw [hset]
        exact h.read j hj hmoved iss hiss (hiid.trans hissuance)
  jobIds := by
    intro a' ha' b' hb' hid
    obtain ⟨a, ha, hsamea, -⟩ := h.jobs.old a' ha'
    obtain ⟨b, hb, hsameb, -⟩ := h.jobs.old b' hb'
    have heq := hI.jobIds a ha b hb (hsamea.1.symm.trans (hid.trans hsameb.1))
    refine db'.backfillJob.eq_of_key_eq ha' hb' (Prod.ext ?_ ?_)
    · exact hsamea.2.1.trans ((congrArg BackfillJobRow.address heq).trans hsameb.2.1.symm)
    · exact hsamea.2.2.1.trans
        ((congrArg BackfillJobRow.issuanceId heq).trans hsameb.2.2.1.symm)
  scans := by
    intro sc hsc
    have hok := hI.scans sc hsc
    obtain ⟨j, hj, hsame⟩ := hok.job
    obtain ⟨j', hj', hsame'⟩ := h.jobs.new j hj
    refine ⟨h.registered.symm ▸ hok.registered, hok.id, ⟨j', hj', ?_⟩, hok.issuer, hok.tracked,
      hok.read.mono (h.stored _ hok.registered)⟩
    exact ⟨hsame.1.trans hsame'.1.symm, hsame.2.1.trans hsame'.2.1.symm,
      hsame.2.2.1.trans hsame'.2.2.1.symm, hsame.2.2.2.trans hsame'.2.2.2.symm⟩
  finished := by
    intro f hf
    have hok := hI.finished f hf
    exact ⟨h.registered.symm ▸ hok.registered, fun i hi => hok.start i (h.issuances ▸ hi),
      hok.issuer, hok.complete.mono (h.stored _ hok.registered)⟩

/-- A heal or an event. -/
theorem keeps_write {X : Xrpl} {U : Upstream} (hU : U.Sound X) {p : Page}
    (hof : OfUpstream X U p) {db db' : Archive} (h : p.write X db = some db')
    (htracked : ∀ iss ∈ p.tracked, iss ∈ registered db)
    (hjobs : JobsKept .none .none db db') : Keeps X U .none .none db db' where
  issuances := by
    obtain ⟨_, _, hingests⟩ := p.write_ingests h
    exact hingests.issuances
  jobs := hjobs
  stored := fun _ hiss e he hst => Page.keeps hU hof h htracked hiss e he hst
  read := fun _ _ h => nomatch h

/-- **A PAGE OF A SCAN** stores what it reads for the issuance of the scan. -/
theorem Inv.read {X : Xrpl} {U : Upstream} (hU : U.Sound X) {s : Site} (hI : Inv X U s)
    {sc : Scan} {seen : List TrackedIssuance} {page : BackfillPage} {validated : ℕ}
    (hcan : CanRead U s sc seen page validated) {db : Archive}
    (h : (sc.page X seen s.tracked page).write X s.db = some db) :
    Inv X U { s with db }
      ∧ ReadFor X U db sc.issuance sc.job.address (jobStart sc.job) page.marker
      ∧ (page.marker = none → CompleteFor X U db sc.issuance sc.job.address
          (jobStart sc.job) validated) := by
  obtain ⟨hsc, -, hread, hseen⟩ := hcan
  have hok := hI.scans sc hsc
  have hentries : ∀ e ∈ page.entries, e ∈ U.accountTx sc.job.address :=
    fun e he => (hread.1.1 e he).1
  -- the issuance of the scan is among those its page is mapped and derived for
  have hpage : OfUpstream X U (sc.page X seen s.tracked page)
      ∧ (∀ iss ∈ (sc.page X seen s.tracked page).tracked, iss ∈ registered s.db)
      ∧ ∀ e ∈ page.entries, Touches X sc.issuance e → StoredFor X db sc.issuance e := by
    unfold Scan.page at h ⊢
    cases hkind : sc.kind with
    | issuer =>
        rw [hkind] at h
        have hof : OfUpstream X U (.sweep sc.issuance sc.job page (sc.absorb X page)) := hentries
        obtain ⟨es, hes, hwrites, hall⟩ := Page.writes hU hof h
        refine ⟨hof, fun iss hiss => List.mem_singleton.mp hiss ▸ hok.registered, ?_⟩
        intro e he htouch
        exact hwrites.storesFor hU hes (List.mem_singleton_self _)
          (fun j hj _ => List.mem_singleton.mp hj) (hall e he htouch)
    | account =>
        rw [hkind] at h
        have hof : OfUpstream X U (.worker seen s.tracked sc.job page (sc.absorb X page)) :=
          hentries
        obtain ⟨es, hes, hwrites, hall⟩ := Page.writes hU hof h
        refine ⟨hof, hI.tracked, fun e he htouch => ?_⟩
        exact hwrites.storesFor hU hes (hok.tracked hkind)
          (fun j hj hid => registered_eq (hI.tracked j hj) hok.registered hid)
          (hall e he sc.issuance (hseen hkind) htouch)
  obtain ⟨hof, htracked, hstores⟩ := hpage
  have hkeep := fun iss (hiss : iss ∈ registered s.db) => Page.keeps hU hof h htracked hiss
  obtain ⟨hmoved, hcomplete⟩ := hok.read.page hread (hkeep _ hok.registered) hstores
  have hkeeps : Keeps X U (some sc.job.id) page.marker s.db db := by
    refine ⟨?_, Scan.page_jobs h, hkeep, fun j hj hid iss hiss hiid => ?_⟩
    · obtain ⟨_, _, hingests⟩ := (sc.page X seen s.tracked page).write_ingests h
      exact hingests.issuances
    · -- the job of that id is the scan's
      obtain ⟨j', hj', hid', haddress, hissuance, hfrom⟩ := hok.job
      cases hI.jobIds j hj j' hj' ((Option.some.inj hid).trans hid')
      have hstart : jobStart sc.job = jobStart j := congrArg (·.getD 0) hfrom
      cases registered_eq hiss hok.registered (hiid.trans (hissuance.symm.trans hok.id.symm))
      rw [← haddress, ← hstart]
      exact hmoved
  exact ⟨hI.keep hkeeps, hmoved, hcomplete⟩

/-! ## Every step -/

/-- Registering an issuance: its id is of no job yet. -/
theorem Inv.register {X : Xrpl} {U : Upstream} {s : Site} (hI : Inv X U s)
    (row : IssuanceRow) : Inv X U { s with db := create row s.db } := by
  by_cases hkey : s.db.issuances.HasKey s.db.issuanceSeq
  · have hsame : (create row s.db).issuances = s.db.issuances := by
      show s.db.issuances.insertIgnore { row with id := s.db.issuanceSeq } = _
      rw [Table.insertIgnore, dif_pos hkey]
    exact hI.keep (Keeps.of_same hsame (JobsKept.of_same rfl rfl) rfl rfl)
  · let new : IssuanceRow := { row with id := s.db.issuanceSeq }
    have hmem : ∀ i, i ∈ (create row s.db).issuances ↔ i ∈ s.db.issuances ∨ i = new := by
      intro i
      refine Table.mem_insertIgnore.trans (or_congr Iff.rfl ⟨And.left, fun h => ⟨h, hkey⟩⟩)
    have hgrow : ∀ iss ∈ registered s.db, iss ∈ registered (create row s.db) := by
      intro iss hiss
      obtain ⟨i, hi, rfl⟩ := List.mem_map.mp hiss
      exact List.mem_map_of_mem ((hmem i).mpr (Or.inl hi))
    have hold : ∀ iss ∈ registered (create row s.db), iss.id ≠ s.db.issuanceSeq →
        iss ∈ registered s.db := by
      intro iss hiss hne
      obtain ⟨i, hi, rfl⟩ := List.mem_map.mp hiss
      rcases (hmem i).mp hi with hi | rfl
      · exact List.mem_map_of_mem hi
      · exact absurd rfl hne
    have hrow : ∀ i ∈ (create row s.db).issuances, i.id ≠ s.db.issuanceSeq →
        i ∈ s.db.issuances := by
      intro i hi hne
      rcases (hmem i).mp hi with hi | rfl
      · exact hi
      · exact absurd rfl hne
    have hjob : ∀ job ∈ s.db.backfillJob, job.issuanceId ≠ s.db.issuanceSeq :=
      fun job hjob hid => hkey (hid ▸ (hI.jobs job hjob).issuance)
    have hknown : ∀ iss ∈ registered s.db, iss.id ≠ s.db.issuanceSeq := by
      intro iss hiss hid
      obtain ⟨i, hi, rfl⟩ := List.mem_map.mp hiss
      exact hkey ⟨i, hi, hid⟩
    refine ⟨fun iss hiss => hgrow iss (hI.tracked iss hiss), fun job hj => ?_, hI.jobIds,
      fun sc hsc => ?_, fun f hf => ?_⟩
    · have hok := hI.jobs job hj
      refine ⟨Table.hasKey_insertIgnore.mpr (Or.inl hok.issuance), hok.id, fun i hi hid => ?_,
        fun iss hiss hid => ?_⟩
      · exact hok.start i (hrow i hi (hid ▸ hjob job hj)) hid
      · exact hok.read iss (hold iss hiss (hid ▸ hjob job hj)) hid
    · have hok := hI.scans sc hsc
      exact ⟨hgrow _ hok.registered, hok.id, hok.job, hok.issuer, hok.tracked, hok.read⟩
    · have hok := hI.finished f hf
      refine ⟨hgrow _ hok.registered, fun i hi hid => ?_, hok.issuer, hok.complete⟩
      exact hok.start i (hrow i hi (hid ▸ hknown _ hok.registered)) hid

/-- Enqueueing: a new job has read nothing, and its id is above the others. -/
theorem Inv.enqueue {X : Xrpl} {U : Upstream} {s : Site} (hI : Inv X U s) {i : IssuanceRow}
    (hi : i ∈ s.db.issuances) {address : String} {kind : BackfillKind} {db : Archive}
    (h : enqueue i.id address (some (startOf kind i)) none kind s.db = .ok db) :
    Inv X U { s with db } := by
  unfold RegistrarIngest.enqueue at h
  by_cases hkey : s.db.backfillJob.HasKey (address, i.id)
  · rw [if_pos hkey] at h
    cases Except.ok.inj h
    exact hI
  · rw [if_neg hkey] at h
    cases Except.ok.inj (guarded_ok.mp (guarded_ok.mp h).2).2
    let new : BackfillJobRow :=
      { id := s.db.jobSeq, address, issuanceId := i.id, fromLedger := some (startOf kind i),
        toLedger := none, kind }
    have hmem : ∀ j, j ∈ s.db.backfillJob.insertIgnore new ↔ j ∈ s.db.backfillJob ∨ j = new :=
      fun j => Table.mem_insertIgnore.trans (or_congr Iff.rfl ⟨And.left, fun h => ⟨h, hkey⟩⟩)
    refine ⟨hI.tracked, fun j hj => ?_, fun a ha b hb hid => ?_, fun sc hsc => ?_,
      fun f hf => ?_⟩
    · rcases (hmem j).mp hj with hj | rfl
      · have hok := hI.jobs j hj
        exact ⟨hok.issuance, Nat.lt_succ_of_lt hok.id, hok.start, hok.read⟩
      · refine ⟨Table.HasKey.of_mem hi, Nat.lt_succ_self _, fun i' hi' hid => ?_,
          fun _ _ _ => ReadFor.none⟩
        cases s.db.issuances.eq_of_key_eq hi' hi hid
        cases kind with
        | issuer => exact le_rfl
        | account => exact Nat.zero_le _
    · rcases (hmem a).mp ha with ha | rfl <;> rcases (hmem b).mp hb with hb | rfl
      · exact hI.jobIds a ha b hb hid
      · exact absurd hid (hI.jobs a ha).id.ne
      · exact absurd hid.symm (hI.jobs b hb).id.ne
      · rfl
    · have hok := hI.scans sc hsc
      obtain ⟨j, hj, hsame⟩ := hok.job
      exact ⟨hok.registered, hok.id, ⟨j, (hmem j).mpr (Or.inl hj), hsame⟩, hok.issuer,
        hok.tracked, hok.read⟩
    · have hok := hI.finished f hf
      exact ⟨hok.registered, hok.start, hok.issuer, hok.complete⟩

/-- A statement that rewrites jobs and keeps their markers. -/
theorem Inv.rewriteJobs {X : Xrpl} {U : Upstream} {s : Site} (hI : Inv X U s) {db : Archive}
    (hissuances : db.issuances = s.db.issuances) (hjobs : JobsKept .none .none s.db db)
    (htransactions : db.transactions = s.db.transactions)
    (hdeltas : db.balanceDeltas = s.db.balanceDeltas) : Inv X U { s with db } :=
  hI.keep (Keeps.of_same hissuances hjobs htransactions hdeltas)

theorem Inv.updateJob {X : Xrpl} {U : Upstream} {s : Site} (hI : Inv X U s) {jobId : ℕ}
    (f : BackfillJobRow → BackfillJobRow) (hf : ∀ r, (f r).key = r.key)
    (hsame : ∀ r, SameJob r (f r)) (hmarker : ∀ r, (f r).lastMarker = r.lastMarker) :
    Inv X U { s with db := updateJob jobId f hf s.db } := by
  have hjobs : JobsKept (some jobId) none s.db (RegistrarIngest.updateJob jobId f hf s.db) :=
    jobs_updateJob f hf hsame (fun r => Or.inl (hmarker r)) s.db
  refine hI.rewriteJobs rfl ⟨fun j' hj' => ?_, hjobs.new, rfl⟩ rfl rfl
  obtain ⟨j, hj, rfl⟩ := List.mem_map.mp hj'
  refine ⟨j, hj, ?_⟩
  by_cases hid : j.id = jobId
  · rw [if_pos hid]
    exact ⟨hsame j, Or.inl (hmarker j)⟩
  · rw [if_neg hid]
    exact ⟨SameJob.refl j, Or.inl rfl⟩

/-- Where nothing but what is tracked and running changes: what is tracked is registered
    still, and a scan was running before or begins well. -/
theorem Inv.rerun {X : Xrpl} {U : Upstream} {s : Site} (hI : Inv X U s)
    {tracked : List TrackedIssuance} {scans : List Scan}
    (htracked : ∀ iss ∈ tracked, iss ∈ registered s.db)
    (hscans : ∀ sc ∈ scans, ScanOk X U { s with tracked } sc) :
    Inv X U { s with tracked, scans } where
  tracked := htracked
  jobs := hI.jobs
  jobIds := hI.jobIds
  scans := fun sc hsc =>
    have hok := hscans sc hsc
    ⟨hok.registered, hok.id, hok.job, hok.issuer, hok.tracked, hok.read⟩
  finished := hI.finished

/-- A scan of a job begins where the job stands. -/
theorem scanOk_begin {X : Xrpl} {U : Upstream} {s : Site} (hI : Inv X U s)
    {kind : BackfillKind} {iss : TrackedIssuance} {job : BackfillJobRow}
    (hjob : job ∈ s.db.backfillJob) (hiss : iss ∈ registered s.db)
    (hid : iss.id = job.issuanceId) (hcan : CanBegin X s kind iss job) :
    ScanOk X U s (Scan.begin kind iss job) where
  registered := hiss
  id := hid
  job := ⟨job, hjob, SameJob.refl job⟩
  issuer := by
    intro hkind
    cases kind with
    | issuer => exact hcan.1
    | account => exact nomatch hkind
  tracked := by
    intro hkind
    cases kind with
    | issuer => exact nomatch hkind
    | account => exact hcan.1
  read := (hI.jobs job hjob).read iss hiss hid

theorem Inv.begin {X : Xrpl} {U : Upstream} {s : Site} (hI : Inv X U s)
    {kind : BackfillKind} {iss : TrackedIssuance} {job : BackfillJobRow}
    (hjob : job ∈ s.db.backfillJob) (hiss : iss ∈ registered s.db)
    (hid : iss.id = job.issuanceId) (hcan : CanBegin X s kind iss job) :
    Inv X U { s with
      db := beginJob kind job.id s.db
      scans := s.scans ++ [Scan.begin kind iss job] } := by
  have hrun : Inv X U { s with scans := s.scans ++ [Scan.begin kind iss job] } := by
    refine hI.rerun hI.tracked fun sc hsc => ?_
    rcases List.mem_append.mp hsc with hsc | hsc
    · exact hI.scans sc hsc
    · cases List.mem_singleton.mp hsc
      exact scanOk_begin hI hjob hiss hid hcan
  cases kind with
  | issuer => exact hrun
  | account =>
      exact hrun.updateJob (fun r => { r with status := .running }) (fun _ => rfl)
        (fun _ => ⟨rfl, rfl, rfl, rfl⟩) (fun _ => rfl)

/-- After a page the scan goes on from its marker, or has come to its end. -/
theorem Inv.readPage {X : Xrpl} {U : Upstream} (hU : U.Sound X) {s : Site} (hI : Inv X U s)
    {sc : Scan} {seen : List TrackedIssuance} {page : BackfillPage} {validated : ℕ}
    (hcan : CanRead U s sc seen page validated) {db : Archive}
    (h : (sc.page X seen s.tracked page).write X s.db = some db) :
    Inv X U { s with
      db
      scans := s.scans.erase sc ++ (if page.marker.isNone then [] else [sc.advance X page])
      finished := s.finished ++ (if page.marker.isNone then [sc.finish validated] else []) } := by
  obtain ⟨hI', hmoved, hcomplete⟩ := hI.read hU hcan h
  have hold := hI'.scans sc hcan.1
  refine ⟨hI'.tracked, hI'.jobs, hI'.jobIds, fun x hx => ?_, fun f hf => ?_⟩
  · rcases List.mem_append.mp hx with hx | hx
    · have hok := hI'.scans x (List.mem_of_mem_erase hx)
      exact ⟨hok.registered, hok.id, hok.job, hok.issuer, hok.tracked, hok.read⟩
    · by_cases hfinal : page.marker.isNone
      · rw [if_pos hfinal] at hx
        exact nomatch hx
      · rw [if_neg hfinal] at hx
        cases List.mem_singleton.mp hx
        exact ⟨hold.registered, hold.id, hold.job, hold.issuer, hold.tracked, hmoved⟩
  · rcases List.mem_append.mp hf with hf | hf
    · exact hI'.finished f hf
    · by_cases hfinal : page.marker.isNone
      · rw [if_pos hfinal] at hf
        cases List.mem_singleton.mp hf
        obtain ⟨j, hj, hid, -, hissuance, hfrom⟩ := hold.job
        have hstart : jobStart sc.job = jobStart j := congrArg (·.getD 0) hfrom
        refine ⟨hold.registered, fun i hi hiid => ?_, hold.issuer,
          hcomplete (Option.isNone_iff_eq_none.mp hfinal)⟩
        refine hstart.trans_le ((hI'.jobs j hj).start i hi ?_)
        exact hiid.trans (hold.id.trans hissuance)
      · rw [if_neg hfinal] at hf
        exact nomatch hf

/-- Reclaiming jobs changes their status alone. -/
theorem jobs_reclaimStale (issuanceId : ℕ) (db : Archive) :
    JobsKept .none .none db (reclaimStale issuanceId db) := by
  have hsame : ∀ r : BackfillJobRow, SameJob r (if r.issuanceId = issuanceId
      ∧ (r.status = .running ∨ r.status = .failed) then { r with status := .pending } else r)
      ∧ (if r.issuanceId = issuanceId ∧ (r.status = .running ∨ r.status = .failed)
          then { r with status := .pending } else r).lastMarker = r.lastMarker := by
    intro r
    by_cases h : r.issuanceId = issuanceId ∧ (r.status = .running ∨ r.status = .failed)
    · rw [if_pos h]
      exact ⟨⟨rfl, rfl, rfl, rfl⟩, rfl⟩
    · rw [if_neg h]
      exact ⟨SameJob.refl r, rfl⟩
  refine ⟨fun j' hj' => ?_, fun j hj => ?_, rfl⟩
  · obtain ⟨j, hj, rfl⟩ := List.mem_map.mp hj'
    exact ⟨j, hj, (hsame j).1, Or.inl (hsame j).2⟩
  · exact ⟨_, List.mem_map_of_mem (f := fun r : BackfillJobRow =>
      if r.issuanceId = issuanceId ∧ (r.status = .running ∨ r.status = .failed)
      then { r with status := .pending } else r) hj, (hsame j).1⟩

/-- **WHAT EVERY STEP KEEPS**. -/
theorem Inv.step {X : Xrpl} {U : Upstream} (hU : U.Sound X) {s s' : Site} {a : Action}
    (hI : Inv X U s) (h : RegistrarScans.step X U s a = some s') : Inv X U s' := by
  have hkept : ∀ {d d' : Archive}, Beside d d' → JobsKept .none .none d d' := fun hb =>
    JobsKept.of_same (congrArg Untouched.backfillJob hb.untouched)
      (congrArg Untouched.jobSeq hb.untouched)
  cases a with
  | close ledger =>
      cases Option.some.inj h
      exact ⟨hI.tracked, hI.jobs, hI.jobIds, fun sc hsc =>
        have hok := hI.scans sc hsc
        ⟨hok.registered, hok.id, hok.job, hok.issuer, hok.tracked, hok.read⟩, hI.finished⟩
  | register row =>
      cases Option.some.inj h
      exact hI.register row
  | insertAccount address =>
      cases Option.some.inj h
      exact hI.rewriteJobs rfl (JobsKept.of_same rfl rfl) rfl rfl
  | enqueue i address kind =>
      unfold RegistrarScans.step at h
      by_cases hi : i ∈ s.db.issuances
      · simp only [if_pos hi] at h
        obtain ⟨db, hdb, hs⟩ := Option.map_eq_some_iff.mp h
        cases hs
        exact hI.enqueue hi (toOption_some.mp hdb)
      · simp only [if_neg hi] at h
        exact nomatch h
  | reclaimStale issuanceId =>
      cases Option.some.inj h
      exact hI.rewriteJobs rfl (jobs_reclaimStale issuanceId s.db) rfl rfl
  | record holder =>
      obtain ⟨db, hdb, hs⟩ := Option.map_eq_some_iff.mp h
      cases hs
      have hok := toOption_some.mp hdb
      rw [RegistrarDiscovery.trackNewHolder_eq] at hok
      cases Except.ok.inj (guarded_ok.mp (guarded_ok.mp hok).2).2
      exact hI.rewriteJobs rfl (JobsKept.of_same rfl rfl) rfl rfl
  | refreshTracked =>
      cases Option.some.inj h
      refine hI.rerun (fun _ hiss => hiss) fun sc hsc => ?_
      have hok := hI.scans sc hsc
      exact ⟨hok.registered, hok.id, hok.job, hok.issuer, fun _ => hok.registered, hok.read⟩
  | recordLedger row =>
      cases Option.some.inj h
      exact hI.rewriteJobs rfl (JobsKept.of_same rfl rfl) rfl rfl
  | «begin» kind iss job =>
      unfold RegistrarScans.step at h
      by_cases hok : job ∈ s.db.backfillJob ∧ iss ∈ registered s.db
          ∧ iss.id = job.issuanceId ∧ CanBegin X s kind iss job
      · simp only [if_pos hok] at h
        cases h
        exact hI.begin hok.1 hok.2.1 hok.2.2.1 hok.2.2.2
      · simp only [if_neg hok] at h
        exact nomatch h
  | read sc seen page validated =>
      unfold RegistrarScans.step at h
      by_cases hcan : CanRead U s sc seen page validated
      · simp only [if_pos hcan] at h
        obtain ⟨db, hdb, hs⟩ := Option.map_eq_some_iff.mp h
        cases hs
        exact hI.readPage hU hcan hdb
      · simp only [if_neg hcan] at h
        exact nomatch h
  | fail sc =>
      unfold RegistrarScans.step at h
      by_cases hsc : sc ∈ s.scans
      · simp only [if_pos hsc] at h
        cases h
        have hrun : Inv X U { s with scans := s.scans.erase sc } :=
          hI.rerun hI.tracked fun x hx => hI.scans x (List.mem_of_mem_erase hx)
        exact hrun.updateJob (fun r => { r with status := .failed }) (fun _ => rfl)
          (fun _ => ⟨rfl, rfl, rfl, rfl⟩) (fun _ => rfl)
      · simp only [if_neg hsc] at h
        exact nomatch h
  | heal seen issuer page =>
      unfold RegistrarScans.step at h
      by_cases hof : ∀ e ∈ page.entries, e ∈ U.accountTx issuer
      · simp only [if_pos hof] at h
        obtain ⟨db, hdb, hs⟩ := Option.map_eq_some_iff.mp h
        cases hs
        obtain ⟨_, -, hgap⟩ := Option.bind_eq_some_iff.mp hdb
        have hheal : OfUpstream X U (.heal seen s.tracked issuer page) := hof
        exact hI.keep (keeps_write hU hheal hdb hI.tracked
          (hkept (beside_gapTransaction (toOption_some.mp hgap))))
      · simp only [if_neg hof] at h
        exact nomatch h
  | event e account seen msg res =>
      unfold RegistrarScans.step at h
      by_cases hof : e ∈ U.accountTx account
          ∧ ∀ ev ∈ streamEvent X seen msg res, IsEventOf X e ev
      · simp only [if_pos hof] at h
        obtain ⟨db, hdb, hs⟩ := Option.map_eq_some_iff.mp h
        cases hs
        obtain ⟨_, -, hevent⟩ := Option.bind_eq_some_iff.mp hdb
        have hstream : OfUpstream X U (.event seen s.tracked msg res) :=
          fun ev hev => ⟨e, ⟨account, hof.1⟩, hof.2 ev hev⟩
        exact hI.keep (keeps_write hU hstream hdb hI.tracked
          (hkept (beside_ingestEvent (toOption_some.mp hevent))))
      · simp only [if_neg hof] at h
        exact nomatch h
  | restart =>
      cases Option.some.inj h
      exact hI.rerun (fun _ hiss => hiss) (fun _ hsc => nomatch hsc)

/-- A site on which no job was ever created. -/
structure Fresh (s : Site) : Prop where
  tracked : ∀ iss ∈ s.tracked, iss ∈ registered s.db
  jobs : s.db.backfillJob = Table.empty
  scans : s.scans = []
  finished : s.finished = []

theorem Fresh.inv {X : Xrpl} {U : Upstream} {s : Site} (hs : Fresh s) : Inv X U s where
  tracked := hs.tracked
  jobs := fun job hjob => absurd (hs.jobs ▸ hjob) (Table.not_mem_empty job)
  jobIds := fun job hjob => absurd (hs.jobs ▸ hjob) (Table.not_mem_empty job)
  scans := fun _ hsc => nomatch hs.scans ▸ hsc
  finished := fun _ hf => nomatch hs.finished ▸ hf

/-- **WHAT EVERY RUN KEEPS**. -/
theorem Inv.of_steps {X : Xrpl} {U : Upstream} (hU : U.Sound X) {s₀ s : Site}
    (hstart : Fresh s₀) (h : Steps (RegistrarScans.step X U) anyStep s₀ s) : Inv X U s :=
  h.inv (Inv X U) hstart.inv (fun _ _ _ hI _ hs => hI.step hU hs)

end RegistrarScans
