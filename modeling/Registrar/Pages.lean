import Registrar.IngestOrder
import Registrar.SweepResume

/-! # Pages and events

    The four writers of transactions: the issuer sweep, the per-holder worker, the
    gap heal and the tail.  A page of the first three maps its entries to a batch of
    rows, an event of the tail is a batch of one; `Page.write` is the database
    transaction of either.  What a writer does to the archive is said once here:
    it ingests the facts of its batch, adds members and claims coverage. -/

namespace RegistrarPages

open KeyedTable Statements RegistrarMetadata RegistrarArchive RegistrarIngest
open RegistrarBackfill RegistrarFraming RegistrarSweep RegistrarStored RegistrarWritten
open RegistrarTail RegistrarOrder
open RegistrarResume (claim sweepRows claimCoverage_ok insertCoverage_foldlM_ok)

/-! ## The writers -/

/-- A validated message of the transaction stream. -/
structure StreamMessage where
  hash : String
  metadata : Option Meta
  ledgerIndex : Option ℕ
  deriving DecidableEq

/-- The event of a message and of what `tx` answers for its hash; a message that
    touches no tracked issuance has none. -/
def streamEvent (X : Xrpl) (tracked : List TrackedIssuance) (msg : StreamMessage)
    (res : TxResult) : Option TransactionEvent :=
  (issuanceScope X tracked msg.metadata).bind fun touched =>
    if touched = [] then none else transactionEvent X msg.hash touched msg.ledgerIndex res

/-- A database transaction of a writer.  `seen` are the issuances tracked when its
    entries were mapped, `tracked` the ones it derives for. -/
inductive Page
  | sweep (issuance : TrackedIssuance) (job : BackfillJobRow) (page : BackfillPage)
      (highWater : ℕ)
  | worker (seen tracked : List TrackedIssuance) (job : BackfillJobRow) (page : BackfillPage)
      (maxLedger : ℕ)
  | heal (seen tracked : List TrackedIssuance) (issuer : String) (page : BackfillPage)
  | event (seen tracked : List TrackedIssuance) (msg : StreamMessage) (res : TxResult)

/-- The issuances a writer derives for. -/
def Page.tracked : Page → List TrackedIssuance
  | .sweep issuance _ _ _ => [issuance]
  | .worker _ tracked _ _ _ => tracked
  | .heal _ tracked _ _ => tracked
  | .event _ tracked _ _ => tracked

/-- The rows of a writer, each with its metadata. -/
def Page.batch (X : Xrpl) : Page → Option (List MappedEntry)
  | .sweep issuance job page _ => sweepBatch X [issuance] job.address page
  | .worker seen _ job page _ => (workerBatch X seen job.address page).map (workerEntries X)
  | .heal seen _ issuer page => sweepBatch X seen issuer page
  | .event seen _ msg res => (streamEvent X seen msg res).map fun ev =>
      [⟨eventToIngest ev, decodeMeta X ev.metaBlob⟩]

/-- The database transaction of a writer; `none` where it throws. -/
def Page.write (X : Xrpl) (db : Archive) : Page → Option Archive
  | .sweep issuance job page highWater =>
      (sweepBatch X [issuance] job.address page).bind fun batch =>
        (sweepTransaction (deltaDeriver [issuance]) issuance.id job page batch highWater
          db).toOption
  | .worker seen tracked job page maxLedger =>
      (workerBatch X seen job.address page).bind fun mapped =>
        (workerTransaction X (deltaDeriver tracked) job page mapped maxLedger db).toOption
  | .heal seen tracked issuer page =>
      (sweepBatch X seen issuer page).bind fun batch =>
        (gapTransaction tracked batch db).toOption
  | .event seen tracked msg res =>
      (streamEvent X seen msg res).bind fun ev => (ingestEvent X tracked ev db).toOption

/-! ## What a batch ingests -/

/-- The facts of a batch. -/
def batchFacts (tracked : List TrackedIssuance) (batch : List MappedEntry) : Facts :=
  (txFacts (batch.map (·.row))).union (Facts.all batch (fun b =>
    deltaFacts (derivedRows tracked b.row.hash b.metadata)))

/-- Storing a batch and deriving its deltas. -/
theorem ingests_batch {tracked : List TrackedIssuance} {batch : List MappedEntry}
    {db d d' : Archive} (hrows : insertTransactionRowsMany (batch.map (·.row)) db = .ok d)
    (hderive : batch.foldlM (fun db b => deltaDeriver tracked b.row.hash b.metadata db) d
      = .ok d') : Ingests (batchFacts tracked batch) db d' :=
  (ingests_insertTransactionRowsMany hrows).trans
    (Ingests.foldlM (fun _ _ _ _ he => ingests_deltaDeriver he) hderive)

/-- A holder recorded after a batch was linked by it. -/
theorem exists_row_of_firstLedger {issuer : String} {batch : List MappedEntry}
    {e : String × ℕ} (he : e ∈ firstLedgers issuer batch) :
    ∃ tx ∈ batch.map (·.row), e.1 ∈ tx.accounts ∧ e.2 = tx.ledgerIndex :=
  exists_tx_of_earliest (List.mem_of_mem_filter ((List.mem_insertionSort _).mp he))

theorem ingests_writeBatch {tracked : List TrackedIssuance} {issuanceId : ℕ} {issuer : String}
    {batch : List MappedEntry} {db db' : Archive}
    (h : writeBatch (deltaDeriver tracked) issuanceId issuer batch db = .ok db') :
    Ingests (batchFacts tracked batch) db db' := by
  obtain ⟨d₁, d₂, h₁, h₂, h₃⟩ := writeBatch_ok h
  have hholders := Ingests.foldlM (F := fun e : String × ℕ => { seen := {(e.1, e.2)} })
    (fun e _ d d' hd => ingests_recordHolder hd) h₃
  -- the holders' ledgers are those of the batch
  refine ((ingests_batch h₁ h₂).trans hholders).widen ?_ ?_ ?_ ?_ ?_ ?_ ?_
  · rintro t (h | ⟨_, _, h⟩)
    · exact h
    · exact absurd h (Set.notMem_empty t)
  · exact fun t ht => ⟨t, Or.inl ht, rfl⟩
  · intro r
    constructor
    · rintro (h | ⟨_, _, h⟩)
      · exact h
      · exact absurd h (Set.notMem_empty r)
    · exact Or.inl
  · rintro p (h | ⟨e, he, h⟩)
    · exact h
    · cases h
      exact Or.inl (exists_row_of_firstLedger he)
  · exact fun a n hin => ⟨n, le_rfl, Or.inl hin⟩
  · intro a
    constructor
    · rintro (h | ⟨_, _, h⟩)
      · exact h
      · exact absurd h (Set.notMem_empty a)
    · exact Or.inl
  · intro r
    constructor
    · rintro (h | ⟨_, _, h⟩)
      · exact h
      · exact absurd h (Set.notMem_empty r)
    · exact Or.inl

/-! ## What ends a page -/

/-- The last page of a sweep claims coverage and completes the job. -/
theorem finishSweep_ok {isFinal : Bool} {issuanceId fromLedger highWater jobId : ℕ}
    {issuer : String} {db db' : Archive}
    (h : finishSweep isFinal issuanceId issuer fromLedger highWater jobId db = .ok db') :
    db' = if isFinal then
        completeJob jobId (claim (sweepRows issuanceId issuer fromLedger highWater db) db)
      else db := by
  unfold finishSweep at h
  by_cases hfinal : isFinal
  · rw [if_pos hfinal] at h
    cases hclaim : claimCoverage issuanceId issuer fromLedger highWater db with
    | error e => rw [hclaim] at h; exact nomatch h
    | ok e =>
        rw [hclaim] at h
        cases Except.ok.inj h
        rw [if_pos hfinal, claimCoverage_ok hclaim]
  · rw [if_neg hfinal] at h
    rw [if_neg hfinal]
    exact (Except.ok.inj h).symm

/-- The row a finished job claims. -/
def jobRow (job : BackfillJobRow) (maxLedger : ℕ) : CoverageRow :=
  ⟨job.address, job.fromLedger.getD 0, maxLedger, .accountTxExhausted (job.fromLedger.getD 0)⟩

/-- The last page of a worker claims coverage and completes the job. -/
theorem finishJob_ok {isFinal : Bool} {job : BackfillJobRow} {maxLedger : ℕ}
    {db db' : Archive} (h : finishJob isFinal job maxLedger db = .ok db') :
    db' = if isFinal then claim [jobRow job maxLedger] (completeJob job.id db) else db := by
  unfold finishJob at h
  by_cases hfinal : isFinal
  · rw [if_pos hfinal] at h
    rw [if_pos hfinal]
    exact (Except.ok.inj (guarded_ok.mp h).2).symm
  · rw [if_neg hfinal] at h
    rw [if_neg hfinal]
    exact (Except.ok.inj h).symm

/-- The four tables and the issuances are the same. -/
structure SameTables (d d' : Archive) : Prop where
  transactions : d'.transactions = d.transactions
  links : d'.accountTransactions = d.accountTransactions
  accounts : d'.accounts = d.accounts
  deltas : d'.balanceDeltas = d.balanceDeltas
  issuances : d'.issuances = d.issuances
  members : d'.accountIssuance = d.accountIssuance
  ledgers : d'.ledgers = d.ledgers

theorem sweepTransaction_ok {deriveDeltas : DeriveDeltas} {issuanceId highWater : ℕ}
    {job : BackfillJobRow} {page : BackfillPage} {batch : List MappedEntry} {db db' : Archive}
    (h : sweepTransaction deriveDeltas issuanceId job page batch highWater db = .ok db') :
    ∃ d, writeBatch deriveDeltas issuanceId job.address batch db = .ok d ∧ SameTables d db'
      ∧ db'.coverage = d.coverage ++ (if page.marker.isNone then
          sweepRows issuanceId job.address (job.fromLedger.getD 0) highWater d else []) := by
  obtain ⟨d, hd, h⟩ := bind_ok.mp h
  refine ⟨d, hd, ?_⟩
  rw [finishSweep_ok h]
  by_cases hfinal : page.marker.isNone
  · rw [if_pos hfinal, if_pos hfinal]
    exact ⟨⟨rfl, rfl, rfl, rfl, rfl, rfl, rfl⟩, rfl⟩
  · rw [if_neg hfinal, if_neg hfinal]
    exact ⟨⟨rfl, rfl, rfl, rfl, rfl, rfl, rfl⟩, (List.append_nil _).symm⟩

theorem workerTransaction_ok {X : Xrpl} {tracked : List TrackedIssuance}
    {job : BackfillJobRow} {page : BackfillPage} {mapped : List IngestTransaction}
    {maxLedger : ℕ} {db db' : Archive}
    (h : workerTransaction X (deltaDeriver tracked) job page mapped maxLedger db = .ok db') :
    ∃ d₁ d, insertTransactionRowsMany ((workerEntries X mapped).map (·.row)) db = .ok d₁
      ∧ (workerEntries X mapped).foldlM
          (fun db b => deltaDeriver tracked b.row.hash b.metadata db) d₁ = .ok d
      ∧ SameTables d db'
      ∧ db'.coverage = d.coverage ++ (if page.marker.isNone then [jobRow job maxLedger]
          else []) := by
  obtain ⟨d₁, h₁, h⟩ := bind_ok.mp h
  obtain ⟨d, hd, h⟩ := bind_ok.mp h
  refine ⟨d₁, d, ?_, ?_, ?_⟩
  · unfold workerEntries
    rw [List.map_map]
    exact (congrArg (insertTransactionRowsMany · db) (List.map_id mapped)).trans h₁
  · unfold workerEntries
    rw [List.foldlM_map]
    exact hd
  · rw [finishJob_ok h]
    by_cases hfinal : page.marker.isNone
    · rw [if_pos hfinal, if_pos hfinal]
      exact ⟨⟨rfl, rfl, rfl, rfl, rfl, rfl, rfl⟩, rfl⟩
    · rw [if_neg hfinal, if_neg hfinal]
      exact ⟨⟨rfl, rfl, rfl, rfl, rfl, rfl, rfl⟩, (List.append_nil _).symm⟩

theorem SameTables.ingests {F : Facts} {db d d' : Archive} (h : SameTables d d')
    (hd : Ingests F db d) : Ingests F db d' :=
  hd.of_same h.transactions h.links h.accounts h.deltas h.issuances

/-! ## What a writer does -/

theorem ingests_gapTransaction {tracked : List TrackedIssuance} {batch : List MappedEntry}
    {db db' : Archive} (h : gapTransaction tracked batch db = .ok db') :
    Ingests (batchFacts tracked batch) db db' := by
  unfold gapTransaction at h
  by_cases hempty : batch.isEmpty
  · simp only [hempty] at h
    cases Except.ok.inj h
    have hnone : batchFacts tracked batch = Facts.none := by
      rw [List.isEmpty_iff.mp hempty]
      ext x <;> simp [batchFacts, txFacts, Facts.union, Facts.all, Facts.none]
    exact hnone ▸ Ingests.refl db
  · simp only [hempty] at h
    obtain ⟨d, h₁, h₂⟩ := bind_ok.mp h
    exact ingests_batch h₁ h₂

theorem ingests_ingestEvent {X : Xrpl} {tracked : List TrackedIssuance}
    {ev : TransactionEvent} {db db' : Archive} (h : ingestEvent X tracked ev db = .ok db') :
    Ingests (batchFacts tracked [⟨eventToIngest ev, decodeMeta X ev.metaBlob⟩]) db db' := by
  obtain ⟨d, h₁, h₂⟩ := bind_ok.mp h
  have hevent := (ingests_insertTransactionRows h₁).trans (ingests_deltaDeriver h₂)
  unfold batchFacts
  rw [Facts.all_cons, Facts.all_nil, Facts.union_none]
  exact hevent

/-- **A WRITER INGESTS THE FACTS OF ITS BATCH**. -/
theorem Page.write_ingests {X : Xrpl} {p : Page} {db db' : Archive}
    (h : p.write X db = some db') :
    ∃ batch, p.batch X = some batch ∧ Ingests (batchFacts p.tracked batch) db db' := by
  cases p with
  | sweep issuance job page highWater =>
      obtain ⟨batch, hbatch, h⟩ := Option.bind_eq_some_iff.mp h
      obtain ⟨d, hd, hsame, -⟩ := sweepTransaction_ok (toOption_some.mp h)
      exact ⟨batch, hbatch, hsame.ingests (ingests_writeBatch hd)⟩
  | worker seen tracked job page maxLedger =>
      obtain ⟨mapped, hmapped, h⟩ := Option.bind_eq_some_iff.mp h
      obtain ⟨d₁, d, h₁, h₂, hsame, -⟩ := workerTransaction_ok (toOption_some.mp h)
      exact ⟨workerEntries X mapped, congrArg (Option.map (workerEntries X)) hmapped,
        hsame.ingests (ingests_batch h₁ h₂)⟩
  | heal seen tracked issuer page =>
      obtain ⟨batch, hbatch, h⟩ := Option.bind_eq_some_iff.mp h
      exact ⟨batch, hbatch, ingests_gapTransaction (toOption_some.mp h)⟩
  | event seen tracked msg res =>
      obtain ⟨ev, hev, h⟩ := Option.bind_eq_some_iff.mp h
      exact ⟨_, congrArg (Option.map _) hev, ingests_ingestEvent (toOption_some.mp h)⟩

/-! ## Coverage -/

theorem beside_ingestEvent {X : Xrpl} {tracked : List TrackedIssuance}
    {ev : TransactionEvent} {db db' : Archive} (h : ingestEvent X tracked ev db = .ok db') :
    Beside db db' := by
  obtain ⟨d, h₁, h₂⟩ := bind_ok.mp h
  refine Beside.trans ?_ (beside_deltaDeriver h₂)
  refine Beside.trans (b := insertTransaction (eventToIngest ev).row db)
    ⟨rfl, fun _ h => h⟩ (Beside.foldlM (fun a d d' hd => ?_) h₁)
  exact Beside.trans (b := upsertAccount ⟨a, some (eventToIngest ev).ledgerIndex⟩ d)
    ⟨rfl, fun _ h => h⟩ (beside_insertAccountTransaction hd)

theorem beside_writeBatch {tracked : List TrackedIssuance} {issuanceId : ℕ} {issuer : String}
    {batch : List MappedEntry} {db db' : Archive}
    (h : writeBatch (deltaDeriver tracked) issuanceId issuer batch db = .ok db') :
    Beside db db' := by
  obtain ⟨d₁, d₂, h₁, h₂, h₃⟩ := writeBatch_ok h
  have hholders := Beside.foldlM (f := fun db (e : String × ℕ) =>
    recordHolder issuanceId e.1 e.2 db) (fun e d d' hd => beside_recordHolder hd) h₃
  exact ((beside_insertTransactionRowsMany h₁).trans
    (Beside.foldlM (fun b d d' hd => beside_deltaDeriver hd) h₂)).trans hholders

theorem beside_batch {tracked : List TrackedIssuance} {batch : List MappedEntry}
    {db d d' : Archive} (hrows : insertTransactionRowsMany (batch.map (·.row)) db = .ok d)
    (hderive : batch.foldlM (fun db b => deltaDeriver tracked b.row.hash b.metadata db) d
      = .ok d') : Beside db d' :=
  (beside_insertTransactionRowsMany hrows).trans
    (Beside.foldlM (fun _ _ _ hd => beside_deltaDeriver hd) hderive)

theorem beside_gapTransaction {tracked : List TrackedIssuance} {batch : List MappedEntry}
    {db db' : Archive} (h : gapTransaction tracked batch db = .ok db') : Beside db db' := by
  unfold gapTransaction at h
  by_cases hempty : batch.isEmpty
  · simp only [hempty] at h
    cases Except.ok.inj h
    exact Beside.refl db
  · simp only [hempty] at h
    obtain ⟨d, h₁, h₂⟩ := bind_ok.mp h
    exact beside_batch h₁ h₂

/-- A writer only appends coverage, and records no ledger. -/
theorem Page.write_coverage {X : Xrpl} {p : Page} {db db' : Archive}
    (h : p.write X db = some db') :
    (∃ rows, db'.coverage = db.coverage ++ rows) ∧ db'.ledgers = db.ledgers := by
  cases p with
  | sweep issuance job page highWater =>
      obtain ⟨batch, -, h⟩ := Option.bind_eq_some_iff.mp h
      obtain ⟨d, hd, hsame, hcoverage⟩ := sweepTransaction_ok (toOption_some.mp h)
      have hbeside := (beside_writeBatch hd).untouched
      have hkept : d.coverage = db.coverage := congrArg Untouched.coverage hbeside
      rw [hkept] at hcoverage
      exact ⟨⟨_, hcoverage⟩, hsame.ledgers.trans (congrArg Untouched.ledgers hbeside)⟩
  | worker seen tracked job page maxLedger =>
      obtain ⟨mapped, -, h⟩ := Option.bind_eq_some_iff.mp h
      obtain ⟨d₁, d, h₁, h₂, hsame, hcoverage⟩ := workerTransaction_ok (toOption_some.mp h)
      have hbeside := (beside_batch h₁ h₂).untouched
      have hkept : d.coverage = db.coverage := congrArg Untouched.coverage hbeside
      rw [hkept] at hcoverage
      exact ⟨⟨_, hcoverage⟩, hsame.ledgers.trans (congrArg Untouched.ledgers hbeside)⟩
  | heal seen tracked issuer page =>
      obtain ⟨batch, -, h⟩ := Option.bind_eq_some_iff.mp h
      have hbeside := (beside_gapTransaction (toOption_some.mp h)).untouched
      exact ⟨⟨[], (congrArg Untouched.coverage hbeside).trans (List.append_nil _).symm⟩,
        congrArg Untouched.ledgers hbeside⟩
  | event seen tracked msg res =>
      obtain ⟨ev, -, h⟩ := Option.bind_eq_some_iff.mp h
      have hbeside := (beside_ingestEvent (toOption_some.mp h)).untouched
      exact ⟨⟨[], (congrArg Untouched.coverage hbeside).trans (List.append_nil _).symm⟩,
        congrArg Untouched.ledgers hbeside⟩

/-! ## Members -/

/-- The accounts of a batch other than the issuer become members. -/
theorem writeBatch_members {tracked : List TrackedIssuance} {issuanceId : ℕ}
    {issuer : String} {batch : List MappedEntry} {db db' : Archive}
    (h : writeBatch (deltaDeriver tracked) issuanceId issuer batch db = .ok db')
    {b : MappedEntry} (hb : b ∈ batch) {account : String} (ha : account ∈ b.row.accounts)
    (hne : account ≠ issuer) : db'.accountIssuance.HasKey (account, issuanceId) := by
  obtain ⟨_, _, -, -, h₃⟩ := writeBatch_ok h
  obtain ⟨first, -, hmem⟩ := firstLedgers_le hb ha hne
  refine foldlM_establishes (P := fun d => d.accountIssuance.HasKey (account, issuanceId)) hmem
    (fun s t hs => ?_) (fun e _ s t hs ht => (beside_recordHolder ht).members _ hs) h₃
  obtain ⟨-, -, rfl⟩ := recordHolder_ok.mp hs
  exact Table.hasKey_upsert.mpr (Or.inr rfl)

/-- An event leaves the members alone. -/
theorem ingestEvent_members {X : Xrpl} {tracked : List TrackedIssuance}
    {ev : TransactionEvent} {db db' : Archive} (h : ingestEvent X tracked ev db = .ok db') :
    db'.accountIssuance = db.accountIssuance := by
  obtain ⟨d, h₁, h₂⟩ := bind_ok.mp h
  unfold insertTransactionRows at h₁
  rw [(frames_deltaDeriver _ _ _).members h₂]
  show _ = (insertTransaction (eventToIngest ev).row db).accountIssuance
  refine foldlM_same (g := Archive.accountIssuance) (fun a e e' he => ?_) h₁
  cases Except.ok.inj (guarded_ok.mp (guarded_ok.mp he).2).2
  rfl

theorem batch_members {tracked : List TrackedIssuance} {batch : List MappedEntry}
    {db d d' : Archive} (hrows : insertTransactionRowsMany (batch.map (·.row)) db = .ok d)
    (hderive : batch.foldlM (fun db b => deltaDeriver tracked b.row.hash b.metadata db) d
      = .ok d') : d'.accountIssuance = db.accountIssuance := by
  rw [← (frames_insertTransactionRowsMany _).members hrows]
  exact (Frames.foldlM (fun b : MappedEntry =>
    frames_deltaDeriver tracked b.row.hash b.metadata) batch).members hderive

theorem gapTransaction_members {tracked : List TrackedIssuance} {batch : List MappedEntry}
    {db db' : Archive} (h : gapTransaction tracked batch db = .ok db') :
    db'.accountIssuance = db.accountIssuance := by
  unfold gapTransaction at h
  by_cases hempty : batch.isEmpty
  · simp only [hempty] at h
    cases Except.ok.inj h
    rfl
  · simp only [hempty] at h
    obtain ⟨d, h₁, h₂⟩ := bind_ok.mp h
    exact batch_members h₁ h₂

/-- A writer loses no member. -/
theorem Page.write_members {X : Xrpl} {p : Page} {db db' : Archive}
    (h : p.write X db = some db') {k : String × ℕ} (hk : db.accountIssuance.HasKey k) :
    db'.accountIssuance.HasKey k := by
  cases p with
  | sweep issuance job page highWater =>
      obtain ⟨batch, -, h⟩ := Option.bind_eq_some_iff.mp h
      obtain ⟨d, hd, hsame, -⟩ := sweepTransaction_ok (toOption_some.mp h)
      rw [hsame.members]
      exact (beside_writeBatch hd).members k hk
  | worker seen tracked job page maxLedger =>
      obtain ⟨mapped, -, h⟩ := Option.bind_eq_some_iff.mp h
      obtain ⟨d₁, d, h₁, h₂, hsame, -⟩ := workerTransaction_ok (toOption_some.mp h)
      rw [hsame.members, batch_members h₁ h₂]
      exact hk
  | heal seen tracked issuer page =>
      obtain ⟨batch, -, h⟩ := Option.bind_eq_some_iff.mp h
      rw [gapTransaction_members (toOption_some.mp h)]
      exact hk
  | event seen tracked msg res =>
      obtain ⟨ev, -, h⟩ := Option.bind_eq_some_iff.mp h
      rw [ingestEvent_members (toOption_some.mp h)]
      exact hk

/-- A batch records members of its issuance alone. -/
theorem writeBatch_members_other {tracked : List TrackedIssuance} {issuanceId id : ℕ}
    {issuer address : String} {batch : List MappedEntry} {db db' : Archive}
    (h : writeBatch (deltaDeriver tracked) issuanceId issuer batch db = .ok db')
    (hne : id ≠ issuanceId) (hk : db'.accountIssuance.HasKey (address, id)) :
    db.accountIssuance.HasKey (address, id) := by
  obtain ⟨d₁, d₂, h₁, h₂, h₃⟩ := writeBatch_ok h
  rw [← batch_members h₁ h₂]
  refine foldlM_rel (R := fun s t : Archive => t.accountIssuance.HasKey (address, id) →
    s.accountIssuance.HasKey (address, id)) (fun _ h => h) (fun _ _ _ h₁ h₂ h => h₁ (h₂ h))
    (fun e _ s t hs ht => ?_) h₃ hk
  obtain ⟨-, -, rfl⟩ := recordHolder_ok.mp hs
  rcases Table.hasKey_upsert.mp ht with ht | heq
  · exact ht
  · exact absurd (congrArg Prod.snd heq) hne

/-- The issuance a writer records members of: that of a sweep. -/
def Page.swept : Page → Option ℕ
  | .sweep issuance _ _ _ => some issuance.id
  | _ => none

/-- A writer records members of the issuance it sweeps alone. -/
theorem Page.write_members_other {X : Xrpl} {p : Page} {db db' : Archive}
    (h : p.write X db = some db') {address : String} {id : ℕ} (hne : p.swept ≠ some id)
    (hk : db'.accountIssuance.HasKey (address, id)) :
    db.accountIssuance.HasKey (address, id) := by
  cases p with
  | sweep issuance job page highWater =>
      obtain ⟨batch, -, h⟩ := Option.bind_eq_some_iff.mp h
      obtain ⟨d, hd, hsame, -⟩ := sweepTransaction_ok (toOption_some.mp h)
      rw [hsame.members] at hk
      exact writeBatch_members_other hd (fun he => hne (congrArg some he.symm)) hk
  | worker seen tracked job page maxLedger =>
      obtain ⟨mapped, -, h⟩ := Option.bind_eq_some_iff.mp h
      obtain ⟨d₁, d, h₁, h₂, hsame, -⟩ := workerTransaction_ok (toOption_some.mp h)
      rw [hsame.members, batch_members h₁ h₂] at hk
      exact hk
  | heal seen tracked issuer page =>
      obtain ⟨batch, -, h⟩ := Option.bind_eq_some_iff.mp h
      rw [gapTransaction_members (toOption_some.mp h)] at hk
      exact hk
  | event seen tracked msg res =>
      obtain ⟨ev, -, h⟩ := Option.bind_eq_some_iff.mp h
      rw [ingestEvent_members (toOption_some.mp h)] at hk
      exact hk

/-- The accounts of a sweep's page other than the issuer become members. -/
theorem Page.sweep_members {X : Xrpl} {issuance : TrackedIssuance} {job : BackfillJobRow}
    {page : BackfillPage} {highWater : ℕ} {batch : List MappedEntry} {db db' : Archive}
    (hbatch : sweepBatch X [issuance] job.address page = some batch)
    (h : (Page.sweep issuance job page highWater).write X db = some db')
    {b : MappedEntry} (hb : b ∈ batch) {account : String} (ha : account ∈ b.row.accounts)
    (hne : account ≠ job.address) : db'.accountIssuance.HasKey (account, issuance.id) := by
  obtain ⟨batch', hbatch', h⟩ := Option.bind_eq_some_iff.mp h
  cases hbatch.symm.trans hbatch'
  obtain ⟨d, hd, hsame, -⟩ := sweepTransaction_ok (toOption_some.mp h)
  rw [hsame.members]
  exact writeBatch_members hd hb ha hne

end RegistrarPages
