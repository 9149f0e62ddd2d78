import Registrar.Deletions

/-! # What waits while an issuance is deleted

    A database transaction is atomic; what goes before it is not.  A page is mapped, and an
    event scoped, for the issuances tracked then, and waits for its transaction.  A sweep or
    a job goes on until the transaction of a page finds the flag up; the statements before
    it, and those that bring a new holder in, poll no flag.  Where a purge finds nothing
    waiting that is there only for its issuance, and the flag outlasts its sweeps and jobs,
    nothing is written for its sake later, and no foreign key to it fails. -/

namespace RegistrarRemnants

open KeyedTable Runs Statements RegistrarMetadata RegistrarArchive RegistrarIngest
open RegistrarBackfill RegistrarWritten RegistrarTail RegistrarPages RegistrarDelete
open RegistrarDeletions
open RegistrarDiscovery (registered trackNewHolder)
open RegistrarLinks (payXrpl payIssuance issuerPage)

/-! ## Statements that need an issuance -/

/-- A statement leaves the issuances as they are, and misses none but one of the ids that
    is not there. -/
structure Needs (ids : List ℕ) (f : Archive → Except DbError Archive) : Prop where
  kept : ∀ {db db'}, f db = .ok db' → db'.issuances = db.issuances
  missing : ∀ {db id}, f db = .error (.missingIssuance id) → id ∈ ids ∧ ¬ db.issuances.HasKey id

section Needs

variable {ids : List ℕ} {f g : Archive → Except DbError Archive}

theorem Needs.of_fun {f : Archive → Archive} (h : ∀ db, (f db).issuances = db.issuances) :
    Needs ids (fun db => .ok (f db)) where
  kept := by
    intro db db' hdb
    rw [← Except.ok.inj hdb]
    exact h db
  missing := fun hdb => nomatch hdb

theorem Needs.comp (hf : Needs ids f) (hg : Needs ids g) : Needs ids (fun db => f db >>= g) where
  kept := by
    intro db db' h
    obtain ⟨d, hd, h⟩ := bind_ok.mp h
    exact (hg.kept h).trans (hf.kept hd)
  missing := by
    intro db id h
    rcases bind_error.mp h with h | ⟨d, hd, h⟩
    · exact hf.missing h
    · rw [← hf.kept hd]
      exact hg.missing h

theorem Needs.foldlM {α : Type} {f : α → Archive → Except DbError Archive} {l : List α}
    (hf : ∀ a ∈ l, Needs ids (f a)) : Needs ids (fun db => l.foldlM (fun db a => f a db) db) := by
  induction l with
  | nil => exact Needs.of_fun fun _ => rfl
  | cons a l ih =>
      exact (hf a List.mem_cons_self).comp (ih fun b hb => hf b (List.mem_cons_of_mem a hb))

theorem Needs.foldl {α : Type} {f : α → Archive → Archive}
    (hf : ∀ a db, (f a db).issuances = db.issuances) (l : List α) :
    Needs ids (fun db => .ok (l.foldl (fun db a => f a db) db)) := by
  refine Needs.of_fun ?_
  intro db
  induction l generalizing db with
  | nil => rfl
  | cons a l ih =>
      rw [List.foldl_cons, ih]
      exact hf a db

/-- A guard that misses no issuance. -/
theorem Needs.guard {c : Archive → Prop} [∀ db, Decidable (c db)] {e : DbError}
    (he : ∀ id, e ≠ .missingIssuance id) (hf : Needs ids f) :
    Needs ids (fun db => if c db then .error e else f db) where
  kept := fun h => hf.kept (guarded_ok.mp h).2
  missing := by
    intro db id h
    rcases guarded_error.mp h with ⟨-, h⟩ | ⟨-, h⟩
    · exact absurd h (he id)
    · exact hf.missing h

/-- The guard of a statement that would affect a row twice. -/
theorem Needs.once {c : Archive → Prop} [∀ db, Decidable (c db)] (hf : Needs ids f) :
    Needs ids (fun db => if c db then .error .cannotAffectRowTwice else f db) := by
  refine hf.guard fun id h => ?_
  cases h

/-- The guard of a foreign key to an issuance. -/
theorem Needs.guardIssuance {id : ℕ} (hid : id ∈ ids) (hf : Needs ids f) :
    Needs ids (fun db => if ¬ db.issuances.HasKey id then .error (.missingIssuance id)
      else f db) where
  kept := fun h => hf.kept (guarded_ok.mp h).2
  missing := by
    intro db id' h
    rcases guarded_error.mp h with ⟨hgone, h⟩ | ⟨-, h⟩
    · cases h
      exact ⟨hid, hgone⟩
    · exact hf.missing h

/-- A statement that is left out where nothing is to be done. -/
theorem Needs.unless {c : Archive → Prop} [∀ db, Decidable (c db)] (hf : Needs ids f) :
    Needs ids (fun db => if c db then .ok db else f db) := by
  refine ⟨fun {db db'} h => ?_, fun {db id} h => ?_⟩
  · by_cases hc : c db
    · rw [if_pos hc] at h
      cases h
      rfl
    · rw [if_neg hc] at h
      exact hf.kept h
  · by_cases hc : c db
    · rw [if_pos hc] at h
      exact nomatch h
    · rw [if_neg hc] at h
      exact hf.missing h

theorem Needs.map {f : Archive → Except DbError Archive} {g : Archive → Archive}
    (hf : Needs ids f) (hg : ∀ db, (g db).issuances = db.issuances) :
    Needs ids (fun db => (f db).map g) := by
  refine ⟨fun {db db'} h => ?_, fun {db id} h => ?_⟩
  · cases hfdb : f db with
    | error e =>
        rw [hfdb] at h
        exact nomatch h
    | ok d =>
        rw [hfdb] at h
        cases h
        exact (hg d).trans (hf.kept hfdb)
  · cases hfdb : f db with
    | error e =>
        rw [hfdb] at h
        cases h
        exact hf.missing hfdb
    | ok d =>
        rw [hfdb] at h
        exact nomatch h

theorem Needs.mono {ids' : List ℕ} (hf : Needs ids f) (h : ∀ id ∈ ids, id ∈ ids') :
    Needs ids' f where
  kept := hf.kept
  missing := fun hdb => ⟨h _ (hf.missing hdb).1, (hf.missing hdb).2⟩

end Needs

/-! ### The statements of the writers -/

theorem needs_insertAccountTransaction (row : AccountTransactionRow) :
    Needs [] (insertAccountTransaction row) :=
  Needs.guard nofun (Needs.guard nofun (Needs.of_fun fun _ => rfl))

theorem needs_insertCoverage (row : CoverageRow) : Needs [] (insertCoverage row) :=
  Needs.guard nofun (Needs.of_fun fun _ => rfl)

theorem needs_upsertDelta (row : BalanceDeltaRow) : Needs [row.issuanceId] (upsertDelta row) :=
  Needs.guard nofun (Needs.guard nofun
    (Needs.guardIssuance (List.mem_singleton_self _) (Needs.of_fun fun _ => rfl)))

theorem needs_upsertAccountIssuance (row : AccountIssuanceRow) :
    Needs [row.issuanceId] (upsertAccountIssuance row) :=
  Needs.guard nofun
    (Needs.guardIssuance (List.mem_singleton_self _) (Needs.of_fun fun _ => rfl))

theorem needs_recordHolder (issuanceId : ℕ) (address : String) (ledger : ℕ) :
    Needs [issuanceId] (recordHolder issuanceId address ledger) :=
  (Needs.of_fun (f := upsertAccount ⟨address, some ledger⟩) fun _ => rfl).comp
    (needs_upsertAccountIssuance ⟨address, issuanceId, "issuer_sweep", some ledger⟩)

theorem needs_insertTransactionRows (tx : IngestTransaction) :
    Needs [] (insertTransactionRows tx) := by
  refine (Needs.of_fun (f := insertTransaction tx.row) fun _ => rfl).comp
    (Needs.foldlM fun address _ => ?_)
  exact (Needs.of_fun (f := upsertAccount ⟨address, some tx.ledgerIndex⟩) fun _ => rfl).comp
    (needs_insertAccountTransaction ⟨tx.hash, address⟩)

theorem needs_insertTransactionRowsMany (txs : List IngestTransaction) :
    Needs [] (insertTransactionRowsMany txs) := by
  unfold insertTransactionRowsMany
  by_cases hempty : txs.isEmpty
  · simp only [hempty]
    exact Needs.of_fun fun _ => rfl
  · simp only [hempty]
    refine Needs.comp (Needs.foldlM fun chunk _ => ?_)
      (Needs.comp (Needs.foldlM fun chunk _ => ?_) (Needs.foldlM fun chunk _ => ?_))
    · exact Needs.foldl (f := fun tx db => insertTransaction tx.row db) (fun _ _ => rfl) chunk
    · exact Needs.once
        (Needs.foldl (f := fun r db => upsertAccount ⟨r.1, some r.2⟩ db) (fun _ _ => rfl) chunk)
    · exact Needs.foldlM fun link _ => needs_insertAccountTransaction link

theorem needs_insertDeltasMany (issuanceId : ℕ) (rows : List DeltaRow) :
    Needs [issuanceId] (insertDeltasMany issuanceId rows) := by
  unfold insertDeltasMany
  by_cases hempty : rows.isEmpty
  · simp only [hempty]
    exact Needs.of_fun fun _ => rfl
  · simp only [hempty]
    refine Needs.comp (Needs.foldlM fun chunk _ => ?_) (Needs.foldlM fun chunk _ => ?_)
    · exact Needs.foldl (f := fun a db => insertAccount ⟨a, none⟩ db) (fun _ _ => rfl) chunk
    · exact Needs.once (Needs.foldlM fun r _ =>
        needs_upsertDelta ⟨r.hash, r.address, issuanceId, r.delta⟩)

theorem needs_deltaDeriver (issuances : List TrackedIssuance) (hash : String)
    (metadata : Option Meta) :
    Needs (issuances.map (·.id)) (deltaDeriver issuances hash metadata) := by
  cases metadata with
  | none => exact Needs.of_fun fun _ => rfl
  | some m =>
      refine Needs.foldlM fun iss hiss => (needs_insertDeltasMany iss.id _).mono ?_
      intro id hid
      rw [List.mem_singleton.mp hid]
      exact List.mem_map_of_mem hiss

theorem needs_batch (tracked : List TrackedIssuance) (batch : List MappedEntry) :
    Needs (tracked.map (·.id)) (fun db => batch.foldlM
      (fun db b => deltaDeriver tracked b.row.hash b.metadata db) db) :=
  Needs.foldlM fun b _ => needs_deltaDeriver tracked b.row.hash b.metadata

theorem needs_gapTransaction (tracked : List TrackedIssuance) (batch : List MappedEntry) :
    Needs (tracked.map (·.id)) (gapTransaction tracked batch) := by
  unfold gapTransaction
  by_cases hempty : batch.isEmpty
  · simp only [hempty]
    exact Needs.of_fun fun _ => rfl
  · simp only [hempty]
    exact Needs.comp ((needs_insertTransactionRowsMany _).mono nofun) (needs_batch tracked batch)

theorem needs_ingestEvent (X : Xrpl) (tracked : List TrackedIssuance) (ev : TransactionEvent) :
    Needs (tracked.map (·.id)) (ingestEvent X tracked ev) :=
  Needs.comp ((needs_insertTransactionRows (eventToIngest ev)).mono nofun)
    (needs_deltaDeriver tracked ev.hash _)

theorem needs_claimCoverage (issuanceId : ℕ) (issuer : String) (fromLedger toLedger : ℕ) :
    Needs [] (claimCoverage issuanceId issuer fromLedger toLedger) where
  kept h := (Needs.foldlM fun _ _ => needs_insertCoverage _).kept h
  missing h := (Needs.foldlM fun _ _ => needs_insertCoverage _).missing h

theorem needs_finishSweep (isFinal : Bool) (issuanceId : ℕ) (issuer : String)
    (fromLedger highWater jobId : ℕ) :
    Needs [] (finishSweep isFinal issuanceId issuer fromLedger highWater jobId) := by
  unfold finishSweep
  cases isFinal with
  | false => exact Needs.of_fun fun _ => rfl
  | true => exact (needs_claimCoverage issuanceId issuer fromLedger highWater).map fun _ => rfl

theorem needs_finishJob (isFinal : Bool) (job : BackfillJobRow) (maxLedger : ℕ) :
    Needs [] (finishJob isFinal job maxLedger) := by
  unfold finishJob
  cases isFinal with
  | false => exact Needs.of_fun fun _ => rfl
  | true =>
      exact (Needs.of_fun (f := completeJob job.id) fun _ => rfl).comp
        (needs_insertCoverage ⟨job.address, job.fromLedger.getD 0, maxLedger,
          .accountTxExhausted (job.fromLedger.getD 0)⟩)

/-- A sweep needs the issuance it began with, and no other. -/
theorem needs_sweepTransaction (issuance : TrackedIssuance) (job : BackfillJobRow)
    (page : BackfillPage) (batch : List MappedEntry) (highWater : ℕ) :
    Needs [issuance.id]
      (sweepTransaction (deltaDeriver [issuance]) issuance.id job page batch highWater) := by
  refine Needs.comp (Needs.comp ((needs_insertTransactionRowsMany _).mono nofun)
    (Needs.comp (needs_batch [issuance] batch)
      (Needs.foldlM fun e _ => needs_recordHolder issuance.id e.1 e.2))) ?_
  exact (Needs.of_fun (f := checkpointJob job.id page.marker batch.length) fun _ => rfl).comp
    ((needs_finishSweep _ _ _ _ _ _).mono nofun)

theorem needs_workerTransaction (X : Xrpl) (tracked : List TrackedIssuance)
    (job : BackfillJobRow) (page : BackfillPage) (mapped : List IngestTransaction)
    (maxLedger : ℕ) :
    Needs (tracked.map (·.id))
      (workerTransaction X (deltaDeriver tracked) job page mapped maxLedger) := by
  refine Needs.comp ((needs_insertTransactionRowsMany mapped).mono nofun)
    (Needs.comp (Needs.foldlM fun m _ => needs_deltaDeriver tracked m.hash _) ?_)
  exact (Needs.of_fun (f := checkpointJob job.id page.marker mapped.length) fun _ => rfl).comp
    ((needs_finishJob _ job maxLedger).mono nofun)

theorem needs_enqueue (issuanceId : ℕ) (address : String) (fromLedger toLedger : Option ℕ)
    (kind : BackfillKind) :
    Needs [issuanceId] (enqueue issuanceId address fromLedger toLedger kind) :=
  Needs.unless (Needs.guard nofun
    (Needs.guardIssuance (List.mem_singleton_self _) (Needs.of_fun fun _ => rfl)))

theorem needs_recordDiscovered (issuanceId : ℕ) (accounts : List DiscoveredAccount) :
    Needs [issuanceId] (recordDiscovered issuanceId accounts) := by
  refine Needs.foldlM fun a _ => ?_
  exact (Needs.of_fun (f := upsertAccount ⟨a.address, a.firstAcquisitionLedger⟩)
    fun _ => rfl).comp (needs_upsertAccountIssuance
      ⟨a.address, issuanceId, a.discoveredVia, a.firstAcquisitionLedger⟩)

/-! ## Pages and events that wait -/

/-- The database transaction of a page, run at once; `none` where its entries do not map. -/
def transact (X : Xrpl) (db : Archive) : Page → Option (Except DbError Archive)
  | .sweep issuance job page highWater =>
      (sweepBatch X [issuance] job.address page).map fun batch =>
        sweepTransaction (deltaDeriver [issuance]) issuance.id job page batch highWater db
  | .worker seen tracked job page maxLedger =>
      (workerBatch X seen job.address page).map fun mapped =>
        workerTransaction X (deltaDeriver tracked) job page mapped maxLedger db
  | .heal seen tracked issuer page =>
      (sweepBatch X seen issuer page).map fun batch => gapTransaction tracked batch db
  | .event seen tracked msg res =>
      (streamEvent X seen msg res).map fun ev => ingestEvent X tracked ev db

theorem write_eq_transact (X : Xrpl) (db : Archive) (p : Page) :
    p.write X db = (transact X db p).bind Except.toOption := by
  cases p <;> simp only [Page.write, transact, Option.bind_map] <;> rfl

/-- The issuances a page derives for are read as its transaction runs; a sweep keeps to
    its own. -/
def withTracked (tracked : List TrackedIssuance) : Page → Page
  | .sweep issuance job page highWater => .sweep issuance job page highWater
  | .worker seen _ job page maxLedger => .worker seen tracked job page maxLedger
  | .heal seen _ issuer page => .heal seen tracked issuer page
  | .event seen _ msg res => .event seen tracked msg res

/-- What a page would be, had the issuances of `ids` never been there: a sweep or a job of
    one of them would not run, and the others would not have seen them. -/
def spare (ids : List ℕ) : Page → Option Page
  | .sweep issuance job page highWater =>
      if issuance.id ∈ ids then none else some (.sweep issuance job page highWater)
  | .worker seen tracked job page maxLedger =>
      if job.issuanceId ∈ ids then none
      else some (.worker (unflagged ids seen) (unflagged ids tracked) job page maxLedger)
  | .heal seen tracked issuer page =>
      some (.heal (unflagged ids seen) (unflagged ids tracked) issuer page)
  | .event seen tracked msg res =>
      some (.event (unflagged ids seen) (unflagged ids tracked) msg res)

/-- A page was mapped with nothing that is there only for issuances of `ids`. -/
def Unmoved (X : Xrpl) (ids : List ℕ) (p : Page) : Prop :=
  ∀ q ∈ spare ids p, q.batch X = p.batch X

instance (X : Xrpl) (ids : List ℕ) (p : Page) : Decidable (Unmoved X ids p) :=
  inferInstanceAs (Decidable (∀ q ∈ spare ids p, _))

theorem unflagged_eq {ids : List ℕ} {l : List TrackedIssuance}
    (h : ∀ iss ∈ l, iss.id ∉ ids) : unflagged ids l = l :=
  List.filter_eq_self.mpr fun iss hiss => decide_eq_true (h iss hiss)

theorem workerEntries_injective (X : Xrpl) : Function.Injective (workerEntries X) :=
  List.map_injective_iff.mpr fun _ _ h => congrArg MappedEntry.row h

/-- What the tail writes of an event is in its row. -/
theorem ingestEvent_congr {X : Xrpl} {tracked : List TrackedIssuance} {ev ev' : TransactionEvent}
    (h : eventToIngest ev = eventToIngest ev') (db : Archive) :
    ingestEvent X tracked ev db = ingestEvent X tracked ev' db := by
  have hhash : ev.hash = ev'.hash := congrArg IngestTransaction.hash h
  have hmeta : ev.metaBlob = ev'.metaBlob := congrArg IngestTransaction.metaBlob h
  unfold ingestEvent
  rw [h, hhash, hmeta]

/-- **WHAT A PAGE OWES TO OTHERS** is all it writes, where it was mapped with nothing that
    is there only for issuances of `ids`, is none of their own and derives for none. -/
theorem transact_spare {X : Xrpl} {ids : List ℕ} {tracked : List TrackedIssuance} {p : Page}
    (hown : ∀ id ∈ polls p, id ∉ ids) (htracked : ∀ iss ∈ tracked, iss.id ∉ ids)
    (hunmoved : Unmoved X ids p) (db : Archive) :
    ∃ q ∈ spare ids (withTracked tracked p),
      transact X db q = transact X db (withTracked tracked p) := by
  have hsame := unflagged_eq htracked
  cases p with
  | sweep issuance job page highWater => exact ⟨_, if_neg (hown issuance.id rfl), rfl⟩
  | worker seen before job page maxLedger =>
      refine ⟨_, if_neg (hown job.issuanceId rfl), ?_⟩
      have hbatch := hunmoved _ (if_neg (hown job.issuanceId rfl))
      have hbatch := Option.map_injective (workerEntries_injective X) hbatch
      show Option.map _ (workerBatch X (unflagged ids seen) job.address page) = _
      rw [hbatch, hsame]
      rfl
  | heal seen before issuer page =>
      refine ⟨_, rfl, ?_⟩
      have hbatch : sweepBatch X (unflagged ids seen) issuer page = sweepBatch X seen issuer page :=
        hunmoved _ rfl
      show Option.map _ (sweepBatch X (unflagged ids seen) issuer page) = _
      rw [hbatch, hsame]
      rfl
  | event seen before msg res =>
      refine ⟨_, rfl, ?_⟩
      have hbatch : (streamEvent X (unflagged ids seen) msg res).map _
        = (streamEvent X seen msg res).map _ := hunmoved _ rfl
      show Option.map _ (streamEvent X (unflagged ids seen) msg res)
        = Option.map _ (streamEvent X seen msg res)
      rw [hsame]
      cases hspared : streamEvent X (unflagged ids seen) msg res with
      | none =>
          rw [hspared] at hbatch
          rw [Option.map_eq_none_iff.mp hbatch.symm]
      | some ev =>
          rw [hspared] at hbatch
          obtain ⟨ev', hev', hrow⟩ := Option.map_eq_some_iff.mp hbatch.symm
          rw [hev']
          have hrow : eventToIngest ev' = eventToIngest ev := by
            simpa using congrArg (·.map MappedEntry.row) hrow
          exact congrArg some (ingestEvent_congr hrow.symm db)

/-! ## The rows of the archive -/

/-- Where a row may be. -/
inductive Row
  | account (address : String)
  | transaction (hash : String)
  | link (hash address : String)
  | member (address : String) (issuanceId : ℕ)
  | coverage (i : ℕ) (row : CoverageRow)
  | job (address : String) (issuanceId : ℕ)
  | delta (hash address : String) (issuanceId : ℕ)
  deriving DecidableEq

/-- The archive has the row.  Coverage is appended only, and a row of it is told by its
    place. -/
def Row.Held (db : Archive) : Row → Prop
  | .account address => db.accounts.HasKey address
  | .transaction hash => db.transactions.HasKey hash
  | .link hash address => db.accountTransactions.HasKey (hash, address)
  | .member address issuanceId => db.accountIssuance.HasKey (address, issuanceId)
  | .coverage i row => db.coverage[i]? = some row
  | .job address issuanceId => db.backfillJob.HasKey (address, issuanceId)
  | .delta hash address issuanceId => db.balanceDeltas.HasKey (hash, address, issuanceId)

instance (db : Archive) : (row : Row) → Decidable (row.Held db)
  | .account _ | .transaction _ | .link _ _ | .member _ _ | .job _ _ | .delta _ _ _ =>
      inferInstanceAs (Decidable (Table.HasKey _ _))
  | .coverage _ _ => inferInstanceAs (Decidable (_ = _))

/-! ## The server with its backlog -/

/-- What waits for its database transaction: a page or an event, already mapped, or one of
    the statements that come before a sweep or a job.  `ingestIssuance` records the issuer,
    then the job of its sweep; `trackNewHolder` records the holder, then its job. -/
inductive Task
  | page (p : Page)
  | issuer (issuanceId : ℕ) (address : String) (fromLedger : ℕ)
  | issuerJob (issuanceId : ℕ) (address : String) (fromLedger : ℕ)
  | holder (h : DetectedHolder)
  | holderJob (h : DetectedHolder)

/-- The flag that the transaction polls. -/
def Task.polls : Task → Option ℕ
  | .page p => RegistrarDeletions.polls p
  | _ => none

/-- The issuance for which a statement is made, without polling its flag. -/
def Task.sake : Task → Option ℕ
  | .page _ => none
  | .issuer issuanceId _ _ => some issuanceId
  | .issuerJob issuanceId _ _ => some issuanceId
  | .holder h => some h.issuanceId
  | .holderJob h => some h.issuanceId

/-- The transaction, run at once. -/
def Task.exec (X : Xrpl) (db : Archive) : Task → Option (Except DbError Archive)
  | .page p => transact X db p
  | .issuer _ address _ => some (.ok (insertAccount ⟨address, none⟩ db))
  | .issuerJob issuanceId address fromLedger =>
      some (enqueue issuanceId address (some fromLedger) none .issuer db)
  | .holder h => some (trackNewHolder h db)
  | .holderJob h => some (enqueue h.issuanceId h.holder (some 0) none .account db)

/-- What follows a statement that has succeeded. -/
def Task.next : Task → List Task
  | .issuer issuanceId address fromLedger => [.issuerJob issuanceId address fromLedger]
  | .holder h => [.holderJob h]
  | _ => []

def Task.withTracked (tracked : List TrackedIssuance) : Task → Task
  | .page p => .page (RegistrarRemnants.withTracked tracked p)
  | t => t

/-- What a transaction would be, had the issuances of `ids` never been there. -/
def Task.spare (ids : List ℕ) (t : Task) : Option Task :=
  match t with
  | .page p => (RegistrarRemnants.spare ids p).map .page
  | _ => if ∃ id ∈ t.sake, id ∈ ids then none else some t

/-- A transaction that waits has nothing that is there only for issuances of `ids`. -/
def Task.Free (X : Xrpl) (ids : List ℕ) (t : Task) : Prop :=
  match t with
  | .page p => Unmoved X ids p
  | _ => ∀ id ∈ t.sake, id ∉ ids

instance (X : Xrpl) (ids : List ℕ) : (t : Task) → Decidable (t.Free X ids)
  | .page p => inferInstanceAs (Decidable (Unmoved X ids p))
  | .issuer _ _ _ | .issuerJob _ _ _ | .holder _ | .holderJob _ =>
      inferInstanceAs (Decidable (∀ id ∈ Task.sake _, id ∉ ids))

/-- The server, `scans` for the issuances whose sweeps and holder jobs are being run, and
    `waiting` for what waits for its transaction. -/
structure Backlog where
  server : Server
  scans : List ℕ := []
  waiting : List Task := []

inductive Action
  -- whatever the server and its deletes do beside
  | server (a : RegistrarDeletions.Action)
  -- `ingestIssuance` is called, `onStreamTransaction` finds a holder
  | ingest (issuanceId : ℕ) (address : String) (fromLedger : ℕ)
  | find (h : DetectedHolder)
  -- a sweep or a holder job, its row read, begins and ends
  | start (id : ℕ)
  | finish (id : ℕ)
  -- a page is read and mapped, an event received and scoped
  | map (p : Page)
  -- a transaction, which may also fail for reasons of its own
  | write (k : ℕ)
  | drop (k : ℕ)
  | restart

/-- The steps of the server that are taken otherwise here. -/
def apart : RegistrarDeletions.Action → Bool
  | .beginPage _ | .derive _ | .commit _ | .rollback _ | .restart => true
  | .statement (.insertAccount _) | .statement (.enqueue _ _ _ _)
  | .statement (.trackNewHolder _) => true
  | _ => false

/-- A page of a sweep or of a job belongs to one that is being run; all but a sweep's are
    mapped for what is tracked. -/
def Mapped (s : Backlog) : Page → Prop
  | .sweep issuance _ _ _ => issuance ∈ s.server.created ∧ issuance.id ∈ s.scans
  | .worker seen _ job _ _ => seen = s.server.tracked ∧ job.issuanceId ∈ s.scans
  | .heal seen _ _ _ => seen = s.server.tracked
  | .event seen _ _ _ => seen = s.server.tracked

instance (s : Backlog) : (p : Page) → Decidable (Mapped s p)
  | .sweep _ _ _ _ => inferInstanceAs (Decidable (_ ∧ _))
  | .worker _ _ _ _ _ => inferInstanceAs (Decidable (_ ∧ _))
  | .heal _ _ _ _ => inferInstanceAs (Decidable (_ = _))
  | .event _ _ _ _ => inferInstanceAs (Decidable (_ = _))

/-- The flag that the transaction polls is up. -/
def Halted (s : Server) (t : Task) : Prop := ∃ id ∈ t.polls, id ∈ s.deleting

instance (s : Server) (t : Task) : Decidable (Halted s t) :=
  inferInstanceAs (Decidable (∃ id ∈ t.polls, id ∈ s.deleting))

/-- A transaction writes nothing if its flag is up, and else derives for what is tracked
    by now. -/
def attempt (X : Xrpl) (s : Server) (t : Task) : Option (Except DbError Archive) :=
  if Halted s t then some (.ok s.db) else (t.withTracked s.tracked).exec X s.db

/-- The archive afterwards, if the transaction succeeds. -/
def Task.write (X : Xrpl) (s : Server) (t : Task) : Option Archive :=
  (attempt X s t).bind Except.toOption

/-- A sweep or job that finds its flag up has ended. -/
def scansAfter (s : Backlog) (t : Task) : List ℕ :=
  if Halted s.server t then t.polls.elim s.scans s.scans.erase else s.scans

def step (X : Xrpl) (s : Backlog) : Action → Option Backlog
  | .server a =>
      if apart a then none
      else (RegistrarDeletions.step X s.server a).map fun server => { s with server }
  | .ingest issuanceId address fromLedger =>
      if (∃ iss ∈ s.server.created, iss.id = issuanceId) ∧ issuanceId ∉ s.server.deleting then
        some { s with waiting := s.waiting ++ [.issuer issuanceId address fromLedger] }
      else none
  | .find h =>
      if ∃ iss ∈ s.server.tracked, iss.id = h.issuanceId then
        some { s with waiting := s.waiting ++ [.holder h] }
      else none
  | .start id =>
      if ∃ r ∈ s.server.db.backfillJob.rows, r.issuanceId = id then
        some { s with scans := id :: s.scans }
      else none
  | .finish id => some { s with scans := s.scans.erase id }
  | .map p =>
      if Mapped s p then some { s with waiting := s.waiting ++ [.page p] } else none
  | .write k =>
      s.waiting[k]?.map fun t =>
        match t.write X s.server with
        | none => { s with waiting := s.waiting.eraseIdx k }
        | some db =>
            { server := { s.server with db }
              scans := scansAfter s t
              waiting := s.waiting.eraseIdx k ++ t.next }
  | .drop k => some { s with waiting := s.waiting.eraseIdx k }
  | .restart =>
      (RegistrarDeletions.step X s.server .restart).map fun server => { server }

/-- A sweep or a job of the issuance is being run, or a page of one waits. -/
def Polled (s : Backlog) (id : ℕ) : Prop := id ∈ s.scans ∨ ∃ t ∈ s.waiting, t.polls = some id

instance (s : Backlog) (id : ℕ) : Decidable (Polled s id) :=
  inferInstanceAs (Decidable (_ ∨ _))

/-- Refreshes are answered in the order they ask.  Where an issuance is purged, what waits
    has nothing that is there only for it and those purged before.  Where the flag of an
    issuance goes that is not registered, or is not from this step on, none of its sweeps
    and jobs is left.  And none that has been purged is ingested. -/
def Clears (X : Xrpl) (s : Backlog) : Action → Prop
  | .server a =>
      InOrder s.server a
        ∧ (∀ id ∈ purges s.server a, ∀ t ∈ s.waiting, t.Free X (s.server.purged ++ [id]))
        ∧ ∀ id ∈ lowers s.server a, takes a = true ∨ ¬ s.server.db.issuances.HasKey id →
            ¬ Polled s id
  | .ingest issuanceId _ _ => s.server.db.issuances.HasKey issuanceId
  | _ => True

instance (X : Xrpl) (s : Backlog) : (a : Action) → Decidable (Clears X s a)
  | .server _ => inferInstanceAs (Decidable (_ ∧ _ ∧ _))
  | .ingest issuanceId _ _ => inferInstanceAs (Decidable (Table.HasKey _ issuanceId))
  | .find _ | .start _ | .finish _ | .map _ | .write _ | .drop _ | .restart =>
      instDecidableTrue

/-! ## What is polled is there, or flagged -/

variable {X : Xrpl}

/-- The issuance is registered, or its flag is up. -/
def Alive (s : Server) (id : ℕ) : Prop := s.db.issuances.HasKey id ∨ id ∈ s.deleting

theorem Alive.refers {s : Server} {db : Archive} {id : ℕ} (h : Refers s.db db)
    (halive : Alive s id) : Alive { s with db } id :=
  halive.imp_left (h.issuances id).mpr

/-- The flag of another issuance goes, or of one that is registered. -/
theorem Alive.lowered {s : Server} {id k : ℕ} (hk : s.db.issuances.HasKey k ∨ k ≠ id)
    (halive : Alive s id) :
    s.db.issuances.HasKey id ∨ id ∈ s.deleting.filter (· ≠ k) := by
  by_cases hid : k = id
  · exact Or.inl (hid ▸ hk.resolve_right (not_not.mpr hid))
  · exact halive.imp_right fun hflag =>
      List.mem_filter.mpr ⟨hflag, decide_eq_true (Ne.symm hid)⟩

/-- A purge leaves the other issuances. -/
theorem hasKey_purge {addrs : List String} {id k : ℕ} {db db' : Archive}
    (heff : PurgeEffect addrs id db db') (h : db.issuances.HasKey k) (hne : k ≠ id) :
    db'.issuances.HasKey k := by
  obtain ⟨iss, hiss, rfl⟩ := hasKey_iff.mp h
  exact hasKey_iff.mpr ⟨iss, (registered_purge heff).mpr ⟨hiss, hne⟩, rfl⟩

/-- What is polled stays registered or flagged, where no flag goes of an issuance that is
    not there. -/
theorem Alive.step {s s' : Server} {a : RegistrarDeletions.Action} (hI : Inv s)
    (hC : Current s) (h : RegistrarDeletions.step X s a = some s') (hplain : apart a = false)
    {id : ℕ} (hlowers : id ∈ lowers s a → takes a = false ∧ s.db.issuances.HasKey id)
    (halive : Alive s id) : Alive s' id := by
  have hlowered : ∀ k ∈ lowers s a, s.db.issuances.HasKey k ∨ k ≠ id := by
    intro k hk
    by_cases hid : k = id
    · cases hid
      exact Or.inl (hlowers hk).2
    · exact Or.inr hid
  cases a with
  | register row =>
      cases h
      exact halive.imp_left fun hkey => Table.hasKey_insertIgnore.mpr (Or.inl hkey)
  | statement st =>
      obtain ⟨db, hdb, rfl⟩ := Option.map_eq_some_iff.mp h
      exact halive.refers (Statement.stays (toOption_some.mp hdb)).toRefers
  | list =>
      cases h
      exact halive
  | assign k =>
      obtain ⟨l, -, rfl⟩ := Option.map_eq_some_iff.mp h
      exact halive
  | beginIngest k =>
      cases h
      exact halive
  | endIngest k =>
      cases h
      exact halive
  | beginDelete k =>
      obtain ⟨-, h⟩ := Option.ite_none_right_eq_some.mp h
      cases h
      exact halive.imp_right (List.mem_cons_of_mem k)
  | purge =>
      obtain ⟨d, hd, rfl⟩ := Option.map_eq_some_iff.mp h
      have hgoes := hlowered d.id (Option.mem_map_of_mem _ hd)
      cases hdelete : deleteIssuance X d.id s.db with
      | notFound => exact halive.lowered hgoes
      | failed e => exact halive.lowered hgoes
      | committed db _ _ _ =>
          obtain ⟨-, target, htarget, hid, heff⟩ := deleteIssuance_committed hdelete
          rcases halive with hkey | hflag
          · by_cases hself : id = d.id
            · -- what is purged was registered, so the delete had flagged it
              rcases hC.delete d (mem_of_drained hd) with hflag | hgone
              · exact Or.inr (hself ▸ hflag)
              · exact absurd (hself ▸ hkey) (hI.purged d.id hgone).2
            · exact Or.inl (hasKey_purge heff hkey hself)
          · exact Or.inr hflag
  | purgeFails =>
      obtain ⟨d, hd, rfl⟩ := Option.map_eq_some_iff.mp h
      exact halive.lowered (hlowered d.id (Option.mem_map_of_mem _ hd))
  | purgeLost =>
      obtain ⟨d, hd, db, target, -, -, -, heff, rfl⟩ := purgeLost_some h
      have hne : id ≠ d.id := by
        rintro rfl
        exact nomatch (hlowers (Option.mem_map_of_mem _ hd)).1
      rcases halive with hkey | hflag
      · exact Or.inl (hasKey_purge heff hkey hne)
      · exact Or.inr (List.mem_filter.mpr ⟨hflag, decide_eq_true hne⟩)
  | lift k =>
      obtain ⟨-, h⟩ := Option.ite_none_right_eq_some.mp h
      cases h
      exact halive.lowered (hlowered k rfl)
  | beginPage p => exact nomatch hplain
  | derive k => exact nomatch hplain
  | commit k => exact nomatch hplain
  | rollback k => exact nomatch hplain
  | restart => exact nomatch hplain

/-- A step of the server that cuts no transaction up begins none, and records what it
    purges. -/
theorem server_step {s s' : Server} {a : RegistrarDeletions.Action}
    (h : RegistrarDeletions.step X s a = some s') (hplain : apart a = false) :
    s'.writers = s.writers
      ∧ (s'.purged = s.purged ∨ ∃ id ∈ purges s a, s'.purged = s.purged ++ [id]) := by
  cases a with
  | register row => cases h; exact ⟨rfl, Or.inl rfl⟩
  | statement st =>
      obtain ⟨db, -, rfl⟩ := Option.map_eq_some_iff.mp h
      exact ⟨rfl, Or.inl rfl⟩
  | list => cases h; exact ⟨rfl, Or.inl rfl⟩
  | assign k =>
      obtain ⟨l, -, rfl⟩ := Option.map_eq_some_iff.mp h
      exact ⟨rfl, Or.inl rfl⟩
  | beginIngest k => cases h; exact ⟨rfl, Or.inl rfl⟩
  | endIngest k => cases h; exact ⟨rfl, Or.inl rfl⟩
  | beginDelete k =>
      obtain ⟨-, h⟩ := Option.ite_none_right_eq_some.mp h
      cases h
      exact ⟨rfl, Or.inl rfl⟩
  | purge =>
      obtain ⟨d, hd, rfl⟩ := Option.map_eq_some_iff.mp h
      cases hdelete : deleteIssuance X d.id s.db with
      | notFound => exact ⟨rfl, Or.inl rfl⟩
      | failed e => exact ⟨rfl, Or.inl rfl⟩
      | committed db _ _ _ => exact ⟨rfl, Or.inr ⟨d.id, Option.mem_map_of_mem _ hd, rfl⟩⟩
  | purgeFails =>
      obtain ⟨d, -, rfl⟩ := Option.map_eq_some_iff.mp h
      exact ⟨rfl, Or.inl rfl⟩
  | purgeLost =>
      obtain ⟨d, hd, db, target, -, -, -, -, rfl⟩ := purgeLost_some h
      exact ⟨rfl, Or.inr ⟨d.id, Option.mem_map_of_mem _ hd, rfl⟩⟩
  | lift k =>
      obtain ⟨-, h⟩ := Option.ite_none_right_eq_some.mp h
      cases h
      exact ⟨rfl, Or.inl rfl⟩
  | beginPage p => exact nomatch hplain
  | derive k => exact nomatch hplain
  | commit k => exact nomatch hplain
  | rollback k => exact nomatch hplain
  | restart => exact nomatch hplain

/-! ## The invariant -/

/-- What is polled is registered or flagged, what is to be written for the sake of an
    issuance is for a registered one, and pages were mapped with nothing that is there
    only for what has been purged. -/
structure Clear (X : Xrpl) (s : Backlog) : Prop where
  inv : Inv s.server
  current : Current s.server
  idle : s.server.writers = []
  alive : ∀ id, Polled s id → Alive s.server id
  named : ∀ t ∈ s.waiting, ∀ id ∈ t.sake, s.server.db.issuances.HasKey id
  unmoved : ∀ p, Task.page p ∈ s.waiting → Unmoved X s.server.purged p

/-- What is registered has not been purged. -/
theorem not_purged {s : Server} (hI : Inv s) {id : ℕ} (h : s.db.issuances.HasKey id) :
    id ∉ s.purged :=
  fun hid => (hI.purged id hid).2 h

theorem tracked_hasKey {s : Server} (hC : Current s) {iss : TrackedIssuance}
    (h : iss ∈ s.tracked) : s.db.issuances.HasKey iss.id :=
  hasKey_iff.mpr ⟨iss, hC.tracked iss h, rfl⟩

/-- What a purge spares stays registered. -/
theorem hasKey_step {s s' : Server} {a : RegistrarDeletions.Action}
    (h : RegistrarDeletions.step X s a = some s') {id : ℕ} (hid : s.db.issuances.HasKey id)
    (hspared : ∀ k ∈ purges s a, id ≠ k) : s'.db.issuances.HasKey id := by
  cases move_of_step h with
  | aside hdb _ _ => rwa [hdb]
  | register row => exact Table.hasKey_insertIgnore.mpr (Or.inl hid)
  | statement hstays => exact (hstays.toRefers.issuances id).mpr hid
  | commit _ _ hwrite => exact ((Page.refers hwrite).issuances id).mpr hid
  | @purge d _ _ hd _ _ _ heff =>
      have hd : d.id ∈ purges s .purge := Option.mem_map_of_mem _ hd
      exact hasKey_purge heff hid (hspared d.id hd)
  | @purgeLost d _ _ hd _ _ _ heff =>
      have hd : d.id ∈ purges s .purgeLost := Option.mem_map_of_mem _ hd
      exact hasKey_purge heff hid (hspared d.id hd)

/-- A page as it is mapped has seen nothing that has been purged. -/
theorem Clear.mapped {s : Backlog} (hs : Clear X s) {p : Page} (h : Mapped s p) :
    Unmoved X s.server.purged p := by
  have hsame : unflagged s.server.purged s.server.tracked = s.server.tracked :=
    unflagged_eq fun iss hiss => not_purged hs.inv (tracked_hasKey hs.current hiss)
  intro q hq
  cases p with
  | sweep issuance job page highWater =>
      obtain ⟨-, hq⟩ := Option.ite_none_left_eq_some.mp hq
      cases hq
      rfl
  | worker seen tracked job page maxLedger =>
      obtain ⟨rfl, -⟩ := h
      obtain ⟨-, hq⟩ := Option.ite_none_left_eq_some.mp hq
      cases hq
      show Option.map _ (workerBatch X (unflagged _ _) _ _) = _
      rw [hsame]
      rfl
  | heal seen tracked issuer page =>
      cases h
      cases hq
      show sweepBatch X (unflagged _ _) _ _ = _
      rw [hsame]
      rfl
  | event seen tracked msg res =>
      cases h
      cases hq
      show Option.map _ (streamEvent X (unflagged _ _) _ _) = _
      rw [hsame]
      rfl

/-- Every transaction here refers to what is there. -/
theorem Task.refers {t : Task} {db db' : Archive} (h : t.exec X db = some (.ok db')) :
    Refers db db' := by
  cases t with
  | page p =>
      refine Page.refers (X := X) (p := p) ?_
      have h : transact X db p = some (.ok db') := h
      rw [write_eq_transact, h]
      rfl
  | issuer issuanceId address fromLedger =>
      cases h
      exact refers_insertAccount _ db
  | issuerJob issuanceId address fromLedger => exact refers_enqueue (Option.some.inj h)
  | holder d => exact refers_recordDiscovered (Option.some.inj h)
  | holderJob d => exact refers_enqueue (Option.some.inj h)

/-- A transaction that succeeded was halted, or ran. -/
theorem Task.write_some {s : Server} {t : Task} {db : Archive} (h : t.write X s = some db) :
    db = s.db ∨ (¬ Halted s t ∧ (t.withTracked s.tracked).exec X s.db = some (.ok db)) := by
  obtain ⟨result, hresult, hok⟩ := Option.bind_eq_some_iff.mp h
  rw [toOption_some.mp hok] at hresult
  unfold attempt at hresult
  by_cases hhalted : Halted s t
  · rw [if_pos hhalted] at hresult
    cases hresult
    exact Or.inl rfl
  · rw [if_neg hhalted] at hresult
    exact Or.inr ⟨hhalted, hresult⟩

theorem refers_write {s : Server} {t : Task} {db : Archive} (h : t.write X s = some db) :
    Refers s.db db := by
  rcases Task.write_some h with rfl | ⟨-, hexec⟩
  · exact Refers.refl _
  · exact Task.refers hexec

theorem mem_scansAfter {s : Backlog} {t : Task} {id : ℕ} (h : id ∈ scansAfter s t) :
    id ∈ s.scans := by
  unfold scansAfter at h
  split at h
  · cases ht : t.polls with
    | none => rwa [ht] at h
    | some k =>
        rw [ht] at h
        exact List.mem_of_mem_erase h
  · exact h

/-- What joins the backlog: a page as it is mapped, or a statement for a registered
    issuance. -/
def Joins (s : Backlog) (t : Task) : Prop :=
  (∃ p, t = .page p ∧ Mapped s p) ∨ ∃ id, t.sake = some id ∧ s.server.db.issuances.HasKey id

/-- What waits is a page, or a statement for an issuance. -/
theorem Task.page_or_sake (t : Task) : (∃ p, t = .page p) ∨ ∃ id, t.sake = some id := by
  cases t with
  | page p => exact Or.inl ⟨p, rfl⟩
  | issuer issuanceId address fromLedger => exact Or.inr ⟨issuanceId, rfl⟩
  | issuerJob issuanceId address fromLedger => exact Or.inr ⟨issuanceId, rfl⟩
  | holder d => exact Or.inr ⟨d.issuanceId, rfl⟩
  | holderJob d => exact Or.inr ⟨d.issuanceId, rfl⟩

@[simp] theorem Task.sake_withTracked (tracked : List TrackedIssuance) (t : Task) :
    (t.withTracked tracked).sake = t.sake := by
  cases t <;> rfl

theorem Task.free_of_sake {ids : List ℕ} {t : Task} {id : ℕ} (h : t.sake = some id) :
    t.Free X ids ↔ id ∉ ids := by
  have hiff : (∀ k ∈ t.sake, k ∉ ids) ↔ id ∉ ids := by
    rw [h]
    simp
  cases t with
  | page p => cases h
  | issuer issuanceId address fromLedger => exact hiff
  | issuerJob issuanceId address fromLedger => exact hiff
  | holder d => exact hiff
  | holderJob d => exact hiff

/-- A statement for an issuance is the same whatever is tracked. -/
theorem Task.spare_of_sake {ids : List ℕ} {t : Task} {id : ℕ} (h : t.sake = some id)
    (hid : id ∉ ids) (tracked : List TrackedIssuance) :
    (t.withTracked tracked).spare ids = some (t.withTracked tracked) := by
  have hnone : ¬ ∃ k ∈ t.sake, k ∈ ids := by
    rintro ⟨k, hk, hin⟩
    cases h.symm.trans hk
    exact hid hin
  cases t with
  | page p => cases h
  | issuer issuanceId address fromLedger => exact if_neg hnone
  | issuerJob issuanceId address fromLedger => exact if_neg hnone
  | holder d => exact if_neg hnone
  | holderJob d => exact if_neg hnone

/-- A statement for an issuance polls no flag. -/
theorem Task.polls_of_sake {t : Task} {id : ℕ} (h : t.sake = some id) : t.polls = none := by
  cases t with
  | page p => exact nomatch h
  | issuer issuanceId address fromLedger => rfl
  | issuerJob issuanceId address fromLedger => rfl
  | holder d => rfl
  | holderJob d => rfl

theorem Clear.withBacklog {s : Backlog} (hs : Clear X s) {scans : List ℕ} {waiting : List Task}
    (hscans : ∀ id ∈ scans, id ∈ s.scans ∨ Alive s.server id)
    (hwaiting : ∀ t ∈ waiting, t ∈ s.waiting ∨ Joins s t) :
    Clear X { s with scans, waiting } where
  inv := hs.inv
  current := hs.current
  idle := hs.idle
  alive id hpolled := by
    rcases hpolled with hid | ⟨t, ht, hid⟩
    · exact (hscans id hid).elim (fun h => hs.alive id (Or.inl h)) (fun h => h)
    · rcases hwaiting t ht with hold | ⟨p, rfl, hmapped⟩ | ⟨k, hsake, -⟩
      · exact hs.alive id (Or.inr ⟨t, hold, hid⟩)
      · refine hs.alive id (Or.inl ?_)
        cases p with
        | sweep issuance job page highWater => cases hid; exact hmapped.2
        | worker seen tracked job page maxLedger => cases hid; exact hmapped.2
        | heal seen tracked issuer page => exact nomatch hid
        | event seen tracked msg res => exact nomatch hid
      · rw [Task.polls_of_sake hsake] at hid
        cases hid
  named t ht id hid := by
    rcases hwaiting t ht with hold | ⟨p, rfl, -⟩ | ⟨k, hsake, hkey⟩
    · exact hs.named t hold id hid
    · exact nomatch hid
    · cases Option.some.inj (hsake.symm.trans hid)
      exact hkey
  unmoved p hp := by
    rcases hwaiting _ hp with hold | ⟨q, hq, hmapped⟩ | ⟨k, hsake, -⟩
    · exact hs.unmoved p hold
    · cases hq
      exact hs.mapped hmapped
    · cases hsake

theorem Clear.refers {s : Backlog} (hs : Clear X s) {db : Archive} (h : Refers s.server.db db) :
    Clear X { s with server := { s.server with db } } where
  inv := hs.inv.refers h
  current := hs.current.refers h
  idle := hs.idle
  alive id hid := (hs.alive id hid).refers h
  named t ht id hid := (h.issuances id).mpr (hs.named t ht id hid)
  unmoved := hs.unmoved

/-- A process that has not begun anything. -/
theorem Clear.of_nothing {s : Server} (hI : Inv s) (hC : Current s) (hidle : s.writers = []) :
    Clear X { server := s } where
  inv := hI
  current := hC
  idle := hidle
  alive id hpolled := by
    rcases hpolled with hid | ⟨p, hp, -⟩
    · exact absurd hid List.not_mem_nil
    · exact absurd hp List.not_mem_nil
  named t ht := absurd ht List.not_mem_nil
  unmoved p hp := absurd hp List.not_mem_nil

/-- What follows a statement is for the same issuance. -/
theorem Task.sake_next {t t' : Task} (h : t' ∈ t.next) :
    ∃ id, t'.sake = some id ∧ t.sake = some id := by
  cases t with
  | issuer issuanceId address fromLedger =>
      rw [List.mem_singleton.mp h]
      exact ⟨issuanceId, rfl, rfl⟩
  | holder d =>
      rw [List.mem_singleton.mp h]
      exact ⟨d.issuanceId, rfl, rfl⟩
  | page p => cases h
  | issuerJob issuanceId address fromLedger => cases h
  | holderJob d => cases h

theorem Clear.server {s : Backlog} (hs : Clear X s) {a : RegistrarDeletions.Action} {t : Server}
    (hclears : Clears X s (.server a)) (hplain : apart a = false)
    (h : RegistrarDeletions.step X s.server a = some t) : Clear X { s with server := t } := by
  obtain ⟨horder, hpurges, hlowers⟩ := hclears
  obtain ⟨hwriters, hpurged⟩ := server_step h hplain
  refine ⟨hs.inv.step h, hs.current.step hs.inv horder h, hwriters.trans hs.idle,
    fun id hid => ?_, fun u hu id hid => ?_, fun p hp => ?_⟩
  · refine Alive.step hs.inv hs.current h hplain (fun hlow => ?_) (hs.alive id hid)
    have hnot := mt (hlowers id hlow) (not_not.mpr hid)
    exact ⟨Bool.eq_false_of_not_eq_true fun h => hnot (Or.inl h),
      not_not.mp fun h => hnot (Or.inr h)⟩
  · refine hasKey_step h (hs.named u hu id hid) fun k hk => ?_
    rintro rfl
    exact (Task.free_of_sake hid).mp (hpurges id hk u hu)
      (List.mem_append_right _ (List.mem_singleton_self _))
  · show Unmoved X t.purged p
    rcases hpurged with hsame | ⟨id, hid, hmore⟩
    · exact hsame ▸ hs.unmoved p hp
    · exact hmore ▸ hpurges id hid _ hp

theorem Clear.step {s s' : Backlog} (hs : Clear X s) {a : Action} (hclears : Clears X s a)
    (h : RegistrarRemnants.step X s a = some s') : Clear X s' := by
  have hjoin : ∀ t, Joins s t → Clear X { s with waiting := s.waiting ++ [t] } := by
    refine fun t ht => hs.withBacklog (fun k hk => Or.inl hk) fun u hu => ?_
    rcases List.mem_append.mp hu with hu | hu
    · exact Or.inl hu
    · exact Or.inr (List.mem_singleton.mp hu ▸ ht)
  have hleave : ∀ k, Clear X { s with waiting := s.waiting.eraseIdx k } := fun k =>
    hs.withBacklog (fun _ hk => Or.inl hk) fun _ ht => Or.inl (List.mem_of_mem_eraseIdx ht)
  cases a with
  | server a =>
      obtain ⟨hplain, h⟩ := Option.ite_none_left_eq_some.mp h
      obtain ⟨t, ht, rfl⟩ := Option.map_eq_some_iff.mp h
      exact hs.server hclears (Bool.eq_false_of_not_eq_true hplain) ht
  | ingest issuanceId address fromLedger =>
      obtain ⟨-, h⟩ := Option.ite_none_right_eq_some.mp h
      cases h
      exact hjoin _ (Or.inr ⟨issuanceId, rfl, hclears⟩)
  | find d =>
      obtain ⟨⟨iss, hiss, hid⟩, h⟩ := Option.ite_none_right_eq_some.mp h
      cases h
      exact hjoin _ (Or.inr ⟨d.issuanceId, rfl, hid ▸ tracked_hasKey hs.current hiss⟩)
  | start id =>
      obtain ⟨⟨r, hr, rfl⟩, h⟩ := Option.ite_none_right_eq_some.mp h
      cases h
      refine hs.withBacklog (fun k hk => ?_) (fun p hp => Or.inl hp)
      rcases List.mem_cons.mp hk with rfl | hk
      · exact Or.inr (Or.inl (hs.inv.keys.backfillJob_issuance r hr))
      · exact Or.inl hk
  | finish id =>
      cases h
      exact hs.withBacklog (fun k hk => Or.inl (List.mem_of_mem_erase hk)) (fun p hp => Or.inl hp)
  | map p =>
      obtain ⟨hmapped, h⟩ := Option.ite_none_right_eq_some.mp h
      cases h
      exact hjoin _ (Or.inl ⟨p, rfl, hmapped⟩)
  | write k =>
      obtain ⟨t, ht, h⟩ := Option.map_eq_some_iff.mp h
      cases hwrite : t.write X s.server with
      | none =>
          rw [hwrite] at h
          cases h
          exact hleave k
      | some db =>
          rw [hwrite] at h
          cases h
          refine (hs.withBacklog (fun k hk => Or.inl (mem_scansAfter hk)) fun u hu => ?_).refers
            (refers_write hwrite)
          rcases List.mem_append.mp hu with hu | hu
          · exact Or.inl (List.mem_of_mem_eraseIdx hu)
          · obtain ⟨id, hid, hsake⟩ := Task.sake_next hu
            exact Or.inr (Or.inr ⟨id, hid, hs.named t (List.mem_of_getElem? ht) id hsake⟩)
  | drop k =>
      cases h
      exact hleave k
  | restart =>
      have hrestart : RegistrarDeletions.step X s.server .restart = some s'.server := by
        cases h
        rfl
      have horder : InOrder s.server .restart := ⟨nofun, nofun⟩
      have hinv := hs.inv.step hrestart
      have hcurrent := hs.current.step hs.inv horder hrestart
      cases h
      exact Clear.of_nothing hinv hcurrent rfl

/-! ## What a transaction needs -/

/-- A transaction that misses an issuance derives for it. -/
theorem transact_missing {db : Archive} {p : Page} {id : ℕ}
    (h : transact X db p = some (.error (.missingIssuance id))) :
    (∃ iss ∈ p.tracked, iss.id = id) ∧ ¬ db.issuances.HasKey id := by
  have hneeds : ∀ f, Needs (p.tracked.map (·.id)) f → f db = .error (.missingIssuance id) →
      (∃ iss ∈ p.tracked, iss.id = id) ∧ ¬ db.issuances.HasKey id := by
    intro f hf herror
    obtain ⟨hid, hgone⟩ := hf.missing herror
    exact ⟨List.mem_map.mp hid, hgone⟩
  cases p with
  | sweep issuance job page highWater =>
      obtain ⟨batch, -, h⟩ := Option.map_eq_some_iff.mp h
      exact hneeds _ (needs_sweepTransaction issuance job page batch highWater) h
  | worker seen tracked job page maxLedger =>
      obtain ⟨mapped, -, h⟩ := Option.map_eq_some_iff.mp h
      exact hneeds _ (needs_workerTransaction X tracked job page mapped maxLedger) h
  | heal seen tracked issuer page =>
      obtain ⟨batch, -, h⟩ := Option.map_eq_some_iff.mp h
      exact hneeds _ (needs_gapTransaction tracked batch) h
  | event seen tracked msg res =>
      obtain ⟨ev, -, h⟩ := Option.map_eq_some_iff.mp h
      exact hneeds _ (needs_ingestEvent X tracked ev) h

/-- A transaction that misses an issuance derives for it, or is for its sake. -/
theorem Task.missing {db : Archive} {t : Task} {id : ℕ}
    (h : t.exec X db = some (.error (.missingIssuance id))) :
    ((∃ p, t = .page p ∧ ∃ iss ∈ p.tracked, iss.id = id) ∨ id ∈ t.sake)
      ∧ ¬ db.issuances.HasKey id := by
  have hsake : ∀ {i : ℕ} {f : Archive → Except DbError Archive}, Needs [i] f →
      f db = .error (.missingIssuance id) → id = i ∧ ¬ db.issuances.HasKey id :=
    fun hf herror => ⟨List.mem_singleton.mp (hf.missing herror).1, (hf.missing herror).2⟩
  cases t with
  | page p =>
      obtain ⟨hderives, hgone⟩ := transact_missing h
      exact ⟨Or.inl ⟨p, rfl, hderives⟩, hgone⟩
  | issuer issuanceId address fromLedger => exact nomatch h
  | issuerJob issuanceId address fromLedger =>
      obtain ⟨rfl, hgone⟩ := hsake (needs_enqueue _ _ _ _ _) (Option.some.inj h)
      exact ⟨Or.inr rfl, hgone⟩
  | holder d =>
      obtain ⟨rfl, hgone⟩ := hsake (needs_recordDiscovered _ _) (Option.some.inj h)
      exact ⟨Or.inr rfl, hgone⟩
  | holderJob d =>
      obtain ⟨rfl, hgone⟩ := hsake (needs_enqueue _ _ _ _ _) (Option.some.inj h)
      exact ⟨Or.inr rfl, hgone⟩

/-! ## The deleted leave nothing -/

/-- The row would be there too, had what is purged never been there. -/
def Owed (X : Xrpl) (s : Server) (t : Task) (row : Row) : Prop :=
  ∃ q ∈ (t.withTracked s.tracked).spare s.purged,
    ∃ db ∈ (q.exec X s.db).bind Except.toOption, row.Held db

instance (X : Xrpl) (s : Server) (t : Task) (row : Row) : Decidable (Owed X s t row) :=
  inferInstanceAs (Decidable (∃ q ∈ Task.spare _ _, ∃ db ∈ Option.bind _ _, row.Held db))

/-- What a transaction owes to others is all it writes, where it polls no flag of `ids`,
    derives for none of them and has nothing that is there only for them. -/
theorem Task.exec_spare {ids : List ℕ} {tracked : List TrackedIssuance} {t : Task}
    (hown : ∀ id ∈ t.polls, id ∉ ids) (htracked : ∀ iss ∈ tracked, iss.id ∉ ids)
    (hfree : t.Free X ids) (db : Archive) :
    ∃ q ∈ (t.withTracked tracked).spare ids,
      q.exec X db = (t.withTracked tracked).exec X db := by
  rcases t.page_or_sake with ⟨p, rfl⟩ | ⟨id, hsake⟩
  · obtain ⟨q, hq, hsame⟩ := transact_spare hown htracked hfree db
    exact ⟨.page q, Option.mem_map_of_mem _ hq, hsame⟩
  · exact ⟨_, Task.spare_of_sake hsake ((Task.free_of_sake hsake).mp hfree) tracked, rfl⟩

/-- What waits has nothing that is there only for what has been purged. -/
theorem Clear.free {s : Backlog} (hs : Clear X s) {t : Task} (ht : t ∈ s.waiting) :
    t.Free X s.server.purged := by
  rcases t.page_or_sake with ⟨p, rfl⟩ | ⟨id, hsake⟩
  · exact hs.unmoved p ht
  · exact (Task.free_of_sake hsake).mpr (not_purged hs.inv (hs.named t ht id hsake))

/-- **WHAT WAITED LEAVES NO REMNANT**: whatever it inserts is owed to issuances that have
    not been purged, and it misses none. -/
theorem Clear.write {s : Backlog} (hs : Clear X s) {t : Task} (ht : t ∈ s.waiting) :
    (∀ db, t.write X s.server = some db → ∀ row : Row, row.Held db →
      ¬ row.Held s.server.db → Owed X s.server t row)
      ∧ ∀ id, attempt X s.server t ≠ some (.error (.missingIssuance id)) := by
  -- where no flag is up, the issuance of a sweep or a job is registered
  have hown : ¬ Halted s.server t → ∀ id ∈ t.polls, s.server.db.issuances.HasKey id := by
    intro hgoes id hid
    exact (hs.alive id (Or.inr ⟨t, ht, hid⟩)).resolve_right fun hflag => hgoes ⟨id, hid, hflag⟩
  constructor
  · intro db hwrite row hnew hold
    rcases Task.write_some hwrite with rfl | ⟨hgoes, hexec⟩
    · exact absurd hnew hold
    · obtain ⟨q, hq, hsame⟩ := Task.exec_spare
        (fun id hid => not_purged hs.inv (hown hgoes id hid))
        (fun iss hiss => not_purged hs.inv (tracked_hasKey hs.current hiss))
        (hs.free ht) s.server.db
      refine ⟨q, hq, db, ?_, hnew⟩
      rw [hsame, hexec]
      rfl
  · intro id h
    unfold attempt at h
    by_cases hhalted : Halted s.server t
    · rw [if_pos hhalted] at h
      exact nomatch h
    · rw [if_neg hhalted] at h
      obtain ⟨hmisses, hgone⟩ := Task.missing h
      refine hgone ?_
      rcases t.page_or_sake with ⟨p, rfl⟩ | ⟨k, hsake⟩
      · obtain ⟨q, hq, iss, hiss, rfl⟩ := hmisses.resolve_right fun h => nomatch h
        cases hq
        cases p with
        | sweep issuance job page highWater =>
            rw [List.mem_singleton.mp hiss]
            exact hown hhalted issuance.id rfl
        | worker seen tracked job page maxLedger => exact tracked_hasKey hs.current hiss
        | heal seen tracked issuer page => exact tracked_hasKey hs.current hiss
        | event seen tracked msg res => exact tracked_hasKey hs.current hiss
      · rw [Task.sake_withTracked, hsake] at hmisses
        rcases hmisses with ⟨p, hp, -⟩ | hid
        · rw [← Task.sake_withTracked s.server.tracked, hp] at hsake
          cases hsake
        · exact hs.named t ht id (hsake.trans hid)

/-- **THE DELETED LEAVE NOTHING**: in a run whose steps clear what they purge, each
    transaction that waited inserts only what is owed to issuances that have not been
    purged, and misses none. -/
theorem deleted_leaves_nothing (X : Xrpl) {s₀ : Server} {s s' : Backlog} (hfresh : Fresh s₀)
    (hrun : Steps (step X) (Clears X) { server := s₀ } s) {k : ℕ}
    (hwrite : step X s (.write k) = some s') :
    ∃ t, s.waiting[k]? = some t
      ∧ (∀ row : Row, row.Held s'.server.db → ¬ row.Held s.server.db →
          Owed X s.server t row)
      ∧ ∀ id, attempt X s.server t ≠ some (.error (.missingIssuance id)) := by
  have hs := hrun.inv (Clear X) (Clear.of_nothing hfresh.inv hfresh.current hfresh.writers)
    (fun _ _ _ hs hclears h => hs.step hclears h)
  obtain ⟨t, ht, hwrite⟩ := Option.map_eq_some_iff.mp hwrite
  obtain ⟨howed, hmissing⟩ := hs.write (List.mem_of_getElem? ht)
  refine ⟨t, ht, fun row hnew hold => ?_, hmissing⟩
  cases hdb : t.write X s.server with
  | none =>
      rw [hdb] at hwrite
      cases hwrite
      exact absurd hnew hold
  | some db =>
      rw [hdb] at hwrite
      cases hwrite
      exact howed db hdb row hnew hold

/-- A page of a heal of `rIssuer`, mapped while both issuances were tracked. -/
def issuerHeal : Page :=
  .heal [payIssuance, trackedIssuance bankRow] [] "rIssuer" issuerPage

/-- The page is written after the purge of the second issuance. -/
theorem deleted_leaves_nothing_heal : ∃ s s' : Backlog, 2 ∈ s.server.purged
    ∧ step payXrpl s (.write 0) = some s'
    ∧ ∃ p, s.waiting[0]? = some p ∧ Owed payXrpl s.server p (.transaction "t1") := by
  have hrun : (runChecked (step payXrpl) (Clears payXrpl) { server := twoServer }
      [.map issuerHeal, .server (.beginDelete 2), .server .purge]).map
      (fun s => decide (2 ∈ s.server.purged
        ∧ ((step payXrpl s (.write 0)).map fun s' =>
          decide ((Row.transaction "t1").Held s'.server.db
            ∧ ¬ (Row.transaction "t1").Held s.server.db)) = some true)) = some true := by
    decide +kernel
  obtain ⟨s, hsteps, hend⟩ := Steps.exists_of_runChecked _ hrun
  obtain ⟨hpurged, hend⟩ := of_decide_eq_true hend
  obtain ⟨s', hwrite, hend⟩ := Option.map_eq_some_iff.mp hend
  obtain ⟨hnew, hold⟩ := of_decide_eq_true hend
  obtain ⟨p, hp, howed, -⟩ := deleted_leaves_nothing payXrpl twoServer_fresh hsteps hwrite
  exact ⟨s, s', hpurged, hwrite, p, hp, howed _ hnew hold⟩

/-- The event of what `rAlice` receives first, scoped while the issuance was tracked. -/
def mintEvent : Page :=
  .event [payIssuance] [] ⟨"t1", payXrpl.decodeMeta "mint", some 200⟩
    ⟨some "t1", some "mint", some 200, ⟨"rippled", "now"⟩⟩

/-- The event waits in the queue while the issuance is deleted and purged with its holder,
    and brings `rAlice` and her transaction back. -/
theorem queued_event_outlives_purge : ∃ s s' : Backlog,
    Steps (step payXrpl) anyStep { server := paidServer } s ∧ 1 ∈ s.server.purged
      ∧ step payXrpl s (.write 0) = some s'
      ∧ ∃ p, s.waiting[0]? = some p ∧ ∀ row ∈ [Row.account "rAlice", .transaction "t1",
          .link "t1" "rAlice"], row.Held s'.server.db ∧ ¬ row.Held s.server.db
            ∧ ¬ Owed payXrpl s.server p row := by
  have hrun : (run (step payXrpl) { server := paidServer }
      [.map mintEvent, .server (.beginDelete 1), .server .purge, .server (.lift 1)]).map
      (fun s => decide (1 ∈ s.server.purged
        ∧ ((step payXrpl s (.write 0)).map fun s' => decide (
          ((s.waiting[0]?).map fun p => decide (
            ∀ row ∈ [Row.account "rAlice", .transaction "t1", .link "t1" "rAlice"],
              row.Held s'.server.db ∧ ¬ row.Held s.server.db
                ∧ ¬ Owed payXrpl s.server p row)) = some true)) = some true)) = some true := by
    decide +kernel
  obtain ⟨s, hsteps, hend⟩ := Steps.exists_of_run _ hrun
  obtain ⟨hpurged, hend⟩ := of_decide_eq_true hend
  obtain ⟨s', hwrite, hend⟩ := Option.map_eq_some_iff.mp hend
  obtain ⟨p, hp, hend⟩ := Option.map_eq_some_iff.mp (of_decide_eq_true hend)
  exact ⟨s, s', hsteps, hpurged, hwrite, p, hp, of_decide_eq_true hend⟩

end RegistrarRemnants
