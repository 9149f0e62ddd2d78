import Registrar.Ingest

/-! # Backfilling from `account_tx`

    The two paged jobs of the archive: the issuer sweep, which discovers and
    backfills every holder of an issuance at once, and the per-holder worker.
    Each writes a page, its deltas and the resume marker in one database
    transaction; the last page also claims coverage and completes the job.

    A function that decodes a blob is `none` where `decode` throws. -/

namespace RegistrarBackfill

open KeyedTable RegistrarMetadata RegistrarArchive RegistrarIngest

/-! ## Pages -/

/-- A binary `account_tx` entry: raw blobs plus its ledger. -/
structure BinaryTxEntry where
  txBlob : String
  metaBlob : String
  ledgerIndex : ℕ
  deriving DecidableEq

/-- A page of entries; `marker` is the cursor for the next page, as JSON text,
    or `none` when the account is exhausted. -/
structure BackfillPage where
  entries : List BinaryTxEntry
  marker : Option String
  provenance : Provenance
  deriving DecidableEq

/-- `deriveDeltas`: derive a transaction's deltas as it lands. -/
abbrev DeriveDeltas := String → Option Meta → Archive → Except DbError Archive

/-- Bind the derivation to a set of issuances. -/
def deltaDeriver (issuances : List TrackedIssuance) : DeriveDeltas :=
  deriveTxDeltasFromMeta issuances

/-! ## The issuer sweep -/

/-- A kept entry: the ingestable row plus its decoded metadata. -/
structure MappedEntry where
  row : IngestTransaction
  metadata : Option Meta
  deriving DecidableEq

/-- The row of an entry, linked to the given accounts. -/
def entryRow (X : Xrpl) (entry : BinaryTxEntry) (provenance : Provenance)
    (accounts : List String) : Option IngestTransaction :=
  (X.decodeTxType entry.txBlob).map fun txType =>
    { hash := X.hashSignedTx entry.txBlob, ledgerIndex := entry.ledgerIndex
      txType := txType.getD "unknown", txBlob := entry.txBlob
      metaBlob := entry.metaBlob, provenance, accounts }

/-- Map an entry of the issuer's `account_tx`, keeping it only if it touches a
    holder of one of `tracked`. -/
def issuerSweepEntryMapper (X : Xrpl) (tracked : List TrackedIssuance)
    (issuer : String) (provenance : Provenance) (entry : BinaryTxEntry) :
    Option (Option MappedEntry) :=
  (X.decodeMeta entry.metaBlob).bind fun m =>
    let holders := holdersInMeta m tracked
    if holders = [] then some none
    else
      (entryRow X entry provenance
        (distinctBy id (issuer :: holders.map (·.holder)))).map fun row =>
          some ⟨row, some m⟩

/-- The kept entries of a page. -/
def sweepBatch (X : Xrpl) (tracked : List TrackedIssuance) (issuer : String)
    (page : BackfillPage) : Option (List MappedEntry) :=
  (page.entries.mapM (issuerSweepEntryMapper X tracked issuer page.provenance)).map
    (·.filterMap id)

/-- `if (row.ledgerIndex > highWater) highWater = row.ledgerIndex`. -/
def raise (highWater ledger : ℕ) : ℕ :=
  if ledger > highWater then ledger else highWater

/-- The high water after a batch. -/
def raiseAll (highWater : ℕ) (ledgers : List ℕ) : ℕ := ledgers.foldl raise highWater

/-- The accounts of a batch other than the issuer, each with its first ledger,
    by address. -/
def firstLedgers (issuer : String) (batch : List MappedEntry) : List (String × ℕ) :=
  ((earliestLedgers (batch.map (·.row))).filter (fun e => e.1 ≠ issuer)).insertionSort
    (fun a b => a.1 ≤ b.1)

/-- The rows, deltas and holders of a batch. -/
def writeBatch (deriveDeltas : DeriveDeltas) (issuanceId : ℕ) (issuer : String)
    (batch : List MappedEntry) (db : Archive) : Except DbError Archive := do
  let db ← insertTransactionRowsMany (batch.map (·.row)) db
  let db ← batch.foldlM (fun db b => deriveDeltas b.row.hash b.metadata db) db
  (firstLedgers issuer batch).foldlM (fun db e => recordHolder issuanceId e.1 e.2 db) db

/-- The first ledgers of an issuance's members. -/
def firstAcquisitions (issuanceId : ℕ) (db : Archive) : List ℕ :=
  (db.accountIssuance.rows.filter (fun r => r.issuanceId = issuanceId)).filterMap
    (·.firstAcquisitionLedger)

/-- The lower bound of the coverage a sweep claims. -/
def coverageFloor (issuanceId fromLedger toLedger : ℕ) (db : Archive) : ℕ :=
  min toLedger (match (firstAcquisitions issuanceId db).min? with
    | none => fromLedger
    | some lo => max fromLedger lo)

/-- Claim coverage for every holder of the issuance plus the issuer. -/
def claimCoverage (issuanceId : ℕ) (issuer : String) (fromLedger toLedger : ℕ)
    (db : Archive) : Except DbError Archive :=
  let floor := coverageFloor issuanceId fromLedger toLedger db
  let reason := CoverageReason.issuerSweep issuer fromLedger toLedger
  let members := ((db.accountIssuance.rows.filter
    (fun r => r.issuanceId = issuanceId)).map (·.address)).insertionSort (· ≤ ·)
  (members ++ [issuer]).foldlM
    (fun db address => insertCoverage ⟨address, floor, toLedger, reason⟩ db) db

/-- What the transaction of the last page adds: coverage and completion. -/
def finishSweep (isFinal : Bool) (issuanceId : ℕ) (issuer : String)
    (fromLedger highWater jobId : ℕ) (db : Archive) : Except DbError Archive :=
  if isFinal then
    (claimCoverage issuanceId issuer fromLedger highWater db).map (completeJob jobId)
  else .ok db

/-- The database transaction of one page of the sweep. -/
def sweepTransaction (deriveDeltas : DeriveDeltas) (issuanceId : ℕ)
    (job : BackfillJobRow) (page : BackfillPage) (batch : List MappedEntry)
    (highWater : ℕ) (db : Archive) : Except DbError Archive := do
  let db ← writeBatch deriveDeltas issuanceId job.address batch db
  finishSweep page.marker.isNone issuanceId job.address (job.fromLedger.getD 0) highWater
    job.id (checkpointJob job.id page.marker batch.length db)

/-! ## The per-holder worker -/

/-- Map an entry to a row linked to the job's account. -/
def mapBinaryEntry (X : Xrpl) (account : String) (provenance : Provenance)
    (entry : BinaryTxEntry) : Option IngestTransaction :=
  entryRow X entry provenance [account]

/-- `holdersInMetaBlob`. -/
def holdersInMetaBlob (X : Xrpl) (issuances : List TrackedIssuance)
    (metaBlob : String) : Option (List DetectedHolder) :=
  if metaBlob = "" ∨ issuances = [] then some []
  else (X.decodeMeta metaBlob).map (holdersInMeta · issuances)

/-- `serve`'s `keep`: the entry touches a tracked issuance. -/
def inScopeEntry (X : Xrpl) (tracked : List TrackedIssuance) (entry : BinaryTxEntry) :
    Option Bool :=
  (holdersInMetaBlob X tracked entry.metaBlob).map (fun hs => decide (hs ≠ []))

/-- The rows of a page the worker keeps. -/
def workerBatch (X : Xrpl) (tracked : List TrackedIssuance) (account : String)
    (page : BackfillPage) : Option (List IngestTransaction) :=
  (page.entries.mapM (fun e => (inScopeEntry X tracked e).map (fun k => (e, k)))).bind
    fun kept => ((kept.filter (·.2)).map (·.1)).mapM
      (mapBinaryEntry X account page.provenance)

/-- What the transaction of the last page adds: completion and coverage. -/
def finishJob (isFinal : Bool) (job : BackfillJobRow) (maxLedger : ℕ)
    (db : Archive) : Except DbError Archive :=
  if isFinal then
    insertCoverage ⟨job.address, job.fromLedger.getD 0, maxLedger,
      .accountTxExhausted (job.fromLedger.getD 0)⟩ (completeJob job.id db)
  else .ok db

/-- The database transaction of one page of the worker. -/
def workerTransaction (X : Xrpl) (deriveDeltas : DeriveDeltas) (job : BackfillJobRow)
    (page : BackfillPage) (mapped : List IngestTransaction) (maxLedger : ℕ)
    (db : Archive) : Except DbError Archive := do
  let db ← insertTransactionRowsMany mapped db
  let db ← mapped.foldlM
    (fun db m => deriveDeltas m.hash (decodeMeta X m.metaBlob) db) db
  finishJob page.marker.isNone job maxLedger
    (checkpointJob job.id page.marker mapped.length db)

end RegistrarBackfill
