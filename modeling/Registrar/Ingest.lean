import Registrar.Archive
import Registrar.Library.Statements

/-! # Writing to the archive

    The repository functions the ingest paths share, as statements over
    `Archive`.  A function that can fail returns `Except DbError`: a foreign
    key that names a missing row, or a multi-row upsert that meets one
    conflict key twice.  Every caller runs them inside one database
    transaction, so a failure leaves the database as it was. -/

namespace RegistrarIngest

open KeyedTable Statements RegistrarMetadata RegistrarArchive

/-- Why a statement fails. -/
inductive DbError
  | missingIssuance (id : ℕ)
  | missingAccount (address : String)
  | missingTransaction (hash : String)
  | cannotAffectRowTwice
  deriving DecidableEq

/-- SQL's `LEAST`, which ignores nulls. -/
def least : Option ℕ → Option ℕ → Option ℕ
  | none, b => b
  | a, none => a
  | some a, some b => some (min a b)

/-! ## Single-row statements -/

/-- `INSERT INTO transactions ... ON CONFLICT (hash) DO NOTHING`. -/
def insertTransaction (row : TransactionRow) (db : Archive) : Archive :=
  { db with transactions := db.transactions.insertIgnore row }

/-- `INSERT INTO accounts ... ON CONFLICT (address) DO UPDATE SET
    first_seen_ledger = LEAST(...)`. -/
def upsertAccount (row : AccountRow) (db : Archive) : Archive :=
  { db with
    accounts := db.accounts.upsert
      (fun old new =>
        { old with firstSeenLedger := least old.firstSeenLedger new.firstSeenLedger })
      (fun _ _ => rfl) row }

/-- `INSERT INTO accounts ... ON CONFLICT (address) DO NOTHING`. -/
def insertAccount (row : AccountRow) (db : Archive) : Archive :=
  { db with accounts := db.accounts.insertIgnore row }

/-- `INSERT INTO account_transactions ... ON CONFLICT DO NOTHING`. -/
def insertAccountTransaction (row : AccountTransactionRow) (db : Archive) :
    Except DbError Archive :=
  if ¬ db.transactions.HasKey row.hash then .error (.missingTransaction row.hash)
  else if ¬ db.accounts.HasKey row.address then .error (.missingAccount row.address)
  else .ok { db with accountTransactions := db.accountTransactions.insertIgnore row }

/-- `INSERT INTO account_issuance ... ON CONFLICT DO UPDATE SET
    first_acquisition_ledger = LEAST(...)`. -/
def upsertAccountIssuance (row : AccountIssuanceRow) (db : Archive) :
    Except DbError Archive :=
  if ¬ db.accounts.HasKey row.address then .error (.missingAccount row.address)
  else if ¬ db.issuances.HasKey row.issuanceId then .error (.missingIssuance row.issuanceId)
  else .ok
    { db with
      accountIssuance := db.accountIssuance.upsert
        (fun old new =>
          { old with
            firstAcquisitionLedger :=
              least old.firstAcquisitionLedger new.firstAcquisitionLedger })
        (fun _ _ => rfl) row }

/-- One row of `INSERT INTO balance_deltas ... ON CONFLICT DO UPDATE SET
    delta = EXCLUDED.delta`. -/
def upsertDelta (row : BalanceDeltaRow) (db : Archive) : Except DbError Archive :=
  if ¬ db.transactions.HasKey row.hash then .error (.missingTransaction row.hash)
  else if ¬ db.accounts.HasKey row.address then .error (.missingAccount row.address)
  else if ¬ db.issuances.HasKey row.issuanceId then .error (.missingIssuance row.issuanceId)
  else .ok
    { db with
      balanceDeltas := db.balanceDeltas.upsert
        (fun old new => { old with delta := new.delta }) (fun _ _ => rfl) row }

/-- `INSERT INTO coverage`. -/
def insertCoverage (row : CoverageRow) (db : Archive) : Except DbError Archive :=
  if ¬ db.accounts.HasKey row.address then .error (.missingAccount row.address)
  else .ok { db with coverage := db.coverage ++ [row] }

/-- `LedgerTimeRepository.record`: immutable per ledger. -/
def recordLedger (row : LedgerRow) (db : Archive) : Archive :=
  { db with ledgers := db.ledgers.insertIgnore row }

/-! ## Transactions and their account links -/

/-- A transaction to ingest, with the in-scope accounts it is linked to. -/
structure IngestTransaction where
  hash : String
  ledgerIndex : ℕ
  txType : String
  txBlob : String
  metaBlob : String
  provenance : Provenance
  accounts : List String
  ctid : Option String := none
  closeTimeIso : Option String := none
  mptIssuanceId : Option String := none
  deriving DecidableEq

/-- The `transactions` row of an ingested transaction. -/
def IngestTransaction.row (tx : IngestTransaction) : TransactionRow where
  hash := tx.hash
  ledgerIndex := tx.ledgerIndex
  txType := tx.txType
  txBlob := tx.txBlob
  metaBlob := tx.metaBlob
  provenance := tx.provenance
  clioCtid := tx.ctid
  closeTimeIso := tx.closeTimeIso
  mptIssuanceId := tx.mptIssuanceId

/-- Insert one transaction and its account links. -/
def insertTransactionRows (tx : IngestTransaction) (db : Archive) :
    Except DbError Archive :=
  (tx.accounts.insertionSort (· ≤ ·)).foldlM
    (fun db address =>
      insertAccountTransaction ⟨tx.hash, address⟩
        (upsertAccount ⟨address, some tx.ledgerIndex⟩ db))
    (insertTransaction tx.row db)

/-- The rows of one statement: `slice(start, start + perStatement)` for each
    start. -/
def chunksOf {α : Type} (perStatement : ℕ) (rows : List α) : List (List α) :=
  (List.range ((rows.length + perStatement - 1) / perStatement)).map
    (fun k => (rows.drop (k * perStatement)).take perStatement)

/-- Run a multi-row statement in chunks of at most 60000 parameters. -/
def insertChunked {α : Type} (columns : ℕ)
    (statement : List α → Archive → Except DbError Archive) (rows : List α)
    (db : Archive) : Except DbError Archive :=
  (chunksOf (max 1 (60000 / columns)) rows).foldlM
    (fun db chunk => statement chunk db) db

/-- One row per distinct key, the first of each kept. -/
def distinctBy {α κ : Type} [DecidableEq κ] (key : α → κ) (l : List α) :
    List α :=
  (l.foldl Table.insertIgnore (Table.empty : Table key)).rows

/-- The earliest ledger each address is seen at. -/
def earliestLedgers (txs : List IngestTransaction) : List (String × ℕ) :=
  ((txs.flatMap (fun tx => tx.accounts.map (fun a => (a, tx.ledgerIndex)))).foldl
    (fun t e => t.upsert (fun old new => (old.1, min old.2 new.2))
      (fun _ _ => rfl) e)
    (Table.empty : Table (Prod.fst : String × ℕ → String))).rows

/-- The multi-row `INSERT INTO accounts ... DO UPDATE`. -/
def upsertAccounts (rows : List (String × ℕ)) (db : Archive) :
    Except DbError Archive :=
  if ¬ (rows.map Prod.fst).Nodup then .error .cannotAffectRowTwice
  else .ok (rows.foldl (fun db r => upsertAccount ⟨r.1, some r.2⟩ db) db)

/-- Insert many transactions and their account links with one multi-row
    statement per table, each in key order. -/
def insertTransactionRowsMany (txs : List IngestTransaction) (db : Archive) :
    Except DbError Archive := do
  if txs.isEmpty then return db
  let txRows := (distinctBy IngestTransaction.hash txs).insertionSort
    (fun a b => a.hash ≤ b.hash)
  let db ← insertChunked 10
    (fun chunk db => .ok (chunk.foldl (fun db tx => insertTransaction tx.row db) db))
    txRows db
  let db ← insertChunked 2 upsertAccounts
    ((earliestLedgers txs).insertionSort (fun a b => a.1 ≤ b.1)) db
  let links := (distinctBy AccountTransactionRow.key
    (txs.flatMap (fun tx => tx.accounts.map (fun a => ⟨tx.hash, a⟩)))).insertionSort
      (fun a b => a.hash < b.hash ∨ (a.hash = b.hash ∧ a.address ≤ b.address))
  insertChunked 2
    (fun chunk db => chunk.foldlM (fun db link => insertAccountTransaction link db) db)
    links db

/-! ## Balance deltas -/

/-- A derived delta before it is tied to an issuance. -/
structure DeltaRow where
  hash : String
  address : String
  delta : ℚ
  deriving DecidableEq

/-- One multi-row upsert of deltas, all of one issuance. -/
def upsertDeltas (issuanceId : ℕ) (rows : List DeltaRow) (db : Archive) :
    Except DbError Archive :=
  if ¬ (rows.map (fun r => (r.hash, r.address))).Nodup then
    .error .cannotAffectRowTwice
  else rows.foldlM
    (fun db r => upsertDelta ⟨r.hash, r.address, issuanceId, r.delta⟩ db) db

/-- Upsert a batch of deltas for one issuance, its account rows first. -/
def insertDeltasMany (issuanceId : ℕ) (rows : List DeltaRow) (db : Archive) :
    Except DbError Archive := do
  if rows.isEmpty then return db
  let addresses := (distinctBy id (rows.map (·.address))).insertionSort (· ≤ ·)
  let db ← insertChunked 1
    (fun chunk db => .ok (chunk.foldl (fun db a => insertAccount ⟨a, none⟩ db) db))
    addresses db
  let ordered := rows.insertionSort
    (fun a b => a.hash < b.hash ∨ (a.hash = b.hash ∧ a.address ≤ b.address))
  insertChunked 3 (upsertDeltas issuanceId) ordered db

/-- The balance changes of a transaction for one issuance. -/
def issuanceDeltas (iss : TrackedIssuance) (m : Meta) : List (String × ℚ) :=
  match iss.kind with
  | .mpt =>
      (mptDeltas m (iss.mptIssuanceId.getD "")).map
        (fun d => (d.account, (d.delta : ℚ)))
  | .iou =>
      (iouDeltas m (iss.currency.getD "") (iss.issuer.getD "")).map
        (fun d => (d.account, d.delta))

/-- Derive one transaction's deltas for each issuance and upsert them. -/
def deriveTxDeltasFromMeta (issuances : List TrackedIssuance) (hash : String)
    (metadata : Option Meta) (db : Archive) : Except DbError Archive :=
  match metadata with
  | none => .ok db
  | some m =>
      issuances.foldlM
        (fun db iss =>
          insertDeltasMany iss.id
            ((issuanceDeltas iss m).map (fun d => ⟨hash, d.1, d.2⟩)) db)
        db

/-! ## Membership -/

/-- Upsert a discovered holder, earliest ledger first. -/
def recordHolder (issuanceId : ℕ) (address : String) (ledger : ℕ)
    (db : Archive) : Except DbError Archive :=
  upsertAccountIssuance ⟨address, issuanceId, "issuer_sweep", some ledger⟩
    (upsertAccount ⟨address, some ledger⟩ db)

/-- An account found by discovery. -/
structure DiscoveredAccount where
  address : String
  discoveredVia : String
  firstAcquisitionLedger : Option ℕ
  deriving DecidableEq

/-- Upsert discovered accounts and their membership in an issuance. -/
def recordDiscovered (issuanceId : ℕ) (accounts : List DiscoveredAccount)
    (db : Archive) : Except DbError Archive :=
  (accounts.insertionSort (fun a b => a.address ≤ b.address)).foldlM
    (fun db a =>
      upsertAccountIssuance
        ⟨a.address, issuanceId, a.discoveredVia, a.firstAcquisitionLedger⟩
        (upsertAccount ⟨a.address, a.firstAcquisitionLedger⟩ db))
    db

/-! ## Backfill jobs -/

/-- Rewrite the job with the given id. -/
def updateJob (jobId : ℕ) (f : BackfillJobRow → BackfillJobRow)
    (hf : ∀ r, (f r).key = r.key) (db : Archive) : Archive :=
  { db with
    backfillJob := db.backfillJob.mapRows
      (fun r => if r.id = jobId then f r else r)
      (by intro r; by_cases h : r.id = jobId
          · rw [if_pos h]; exact hf r
          · rw [if_neg h]) }

/-- Advance a job's cursor.  `marker` is the page's next marker, as JSON text;
    the last page has none. -/
def checkpointJob (jobId : ℕ) (marker : Option String) (addedTx : ℕ)
    (db : Archive) : Archive :=
  updateJob jobId
    (fun r => { r with
      lastMarker := marker, txCount := r.txCount + addedTx, status := .running })
    (fun _ => rfl) db

/-- Mark a job complete and clear its cursor. -/
def completeJob (jobId : ℕ) (db : Archive) : Archive :=
  updateJob jobId (fun r => { r with status := .completed, lastMarker := none })
    (fun _ => rfl) db

/-- `BackfillJobRepository.fail`. -/
def failJob (jobId : ℕ) (db : Archive) : Archive :=
  updateJob jobId (fun r => { r with status := .failed }) (fun _ => rfl) db

/-- What `claim` does to the job it picks. -/
def claimJob (jobId : ℕ) (db : Archive) : Archive :=
  updateJob jobId (fun r => { r with status := .running }) (fun _ => rfl) db

/-- `BackfillJobRepository.getByAccount`. -/
def getByAccount (issuanceId : ℕ) (address : String) (db : Archive) :
    Option BackfillJobRow :=
  db.backfillJob.find? (address, issuanceId)

/-- Create a job unless the account has one for the issuance. -/
def enqueue (issuanceId : ℕ) (address : String) (fromLedger toLedger : Option ℕ)
    (kind : BackfillKind) (db : Archive) : Except DbError Archive :=
  if db.backfillJob.HasKey (address, issuanceId) then .ok db
  else if ¬ db.accounts.HasKey address then .error (.missingAccount address)
  else if ¬ db.issuances.HasKey issuanceId then .error (.missingIssuance issuanceId)
  else .ok
    { db with
      backfillJob := db.backfillJob.insertIgnore
        { id := db.jobSeq, address, issuanceId, fromLedger, toLedger, kind }
      jobSeq := db.jobSeq + 1 }

/-- Return `running` and `failed` jobs of the issuance to `pending`. -/
def reclaimStale (issuanceId : ℕ) (db : Archive) : Archive :=
  { db with
    backfillJob := db.backfillJob.mapRows
      (fun r =>
        if r.issuanceId = issuanceId ∧ (r.status = .running ∨ r.status = .failed)
        then { r with status := .pending } else r)
      (by intro r
          by_cases h : r.issuanceId = issuanceId
              ∧ (r.status = .running ∨ r.status = .failed)
          · rw [if_pos h]; rfl
          · rw [if_neg h]) }

end RegistrarIngest
