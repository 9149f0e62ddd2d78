import Registrar.Metadata

/-! # The archive database

    The tables of the core schema and of the `ledgers` migration, with the
    columns some reader or writer uses.  A table with a primary key (or the
    unique constraint its `ON CONFLICT` clause names) is a `Table`, so a state
    with a repeated key cannot be built; `coverage` and `reconciliation_run`
    only have a serial id nobody reads, and are lists.

    `ForeignKeys` collects the foreign keys of the schema. -/

namespace RegistrarArchive

open KeyedTable RegistrarMetadata

/-! ## Rows -/

/-- A configured issuance. -/
structure IssuanceRow where
  id : ℕ
  kind : Kind
  mptIssuanceId : Option String := none
  currency : Option String := none
  issuerAccount : Option String := none
  backfillFromLedger : ℕ := 0
  enabled : Bool := true
  deriving DecidableEq

/-- An account ever in scope. -/
structure AccountRow where
  address : String
  firstSeenLedger : Option ℕ
  deriving DecidableEq

/-- Why an account is in scope of an issuance. -/
structure AccountIssuanceRow where
  address : String
  issuanceId : ℕ
  discoveredVia : String
  firstAcquisitionLedger : Option ℕ
  deriving DecidableEq

/-- Where a transaction was fetched from, and when. -/
structure Provenance where
  sourceEndpoint : String
  fetchedAt : String
  deriving DecidableEq

/-- A stored transaction with its raw blobs, in hexadecimal. -/
structure TransactionRow where
  hash : String
  ledgerIndex : ℕ
  txType : String
  txBlob : String
  metaBlob : String
  provenance : Provenance
  clioCtid : Option String := none
  closeTimeIso : Option String := none
  mptIssuanceId : Option String := none
  deriving DecidableEq

/-- A transaction linked to an in-scope account. -/
structure AccountTransactionRow where
  hash : String
  address : String
  deriving DecidableEq

/-- A derived balance change; `delta` is the number the stored text spells. -/
structure BalanceDeltaRow where
  hash : String
  address : String
  issuanceId : ℕ
  delta : ℚ
  deriving DecidableEq

/-- Why a coverage row claims its range. -/
inductive CoverageReason
  | issuerSweep (issuer : String) (fromLedger toLedger : ℕ)
  | accountTxExhausted (fromLedger : ℕ)
  deriving DecidableEq

/-- A ledger range claimed complete for an account. -/
structure CoverageRow where
  address : String
  fromLedger : ℕ
  toLedger : ℕ
  reason : CoverageReason
  deriving DecidableEq

inductive BackfillStatus
  | pending
  | running
  | completed
  | failed
  deriving DecidableEq

inductive BackfillKind
  | account
  | issuer
  deriving DecidableEq

/-- A resumable backfill job; `lastMarker` is the JSON text of the cursor. -/
structure BackfillJobRow where
  id : ℕ
  address : String
  issuanceId : ℕ
  fromLedger : Option ℕ := none
  toLedger : Option ℕ := none
  lastMarker : Option String := none
  status : BackfillStatus := .pending
  kind : BackfillKind := .account
  txCount : ℕ := 0
  deriving DecidableEq

/-- A ledger's close time. -/
structure LedgerRow where
  ledgerIndex : ℕ
  closeTime : ℕ
  deriving DecidableEq

/-- The outcome of a reconciliation. -/
structure ReconciliationRunRow where
  issuanceId : ℕ
  passed : Bool
  discrepancies : ℕ
  deriving DecidableEq

/-! ## Keys -/

def AccountIssuanceRow.key (r : AccountIssuanceRow) : String × ℕ :=
  (r.address, r.issuanceId)

def AccountTransactionRow.key (r : AccountTransactionRow) : String × String :=
  (r.hash, r.address)

def BalanceDeltaRow.key (r : BalanceDeltaRow) : String × String × ℕ :=
  (r.hash, r.address, r.issuanceId)

/-- A newer delta keeps the key. -/
theorem BalanceDeltaRow.key_delta (old new : BalanceDeltaRow) :
    BalanceDeltaRow.key { old with delta := new.delta } = old.key := rfl

def BackfillJobRow.key (r : BackfillJobRow) : String × ℕ :=
  (r.address, r.issuanceId)

/-! ## The database -/

/-- A state of the archive database.  `issuanceSeq` and `jobSeq` are the next
    values of the two identity columns other tables or callers refer to. -/
structure Archive where
  issuances : Table IssuanceRow.id := Table.empty
  accounts : Table AccountRow.address := Table.empty
  accountIssuance : Table AccountIssuanceRow.key := Table.empty
  transactions : Table TransactionRow.hash := Table.empty
  accountTransactions : Table AccountTransactionRow.key := Table.empty
  balanceDeltas : Table BalanceDeltaRow.key := Table.empty
  coverage : List CoverageRow := []
  backfillJob : Table BackfillJobRow.key := Table.empty
  ledgers : Table LedgerRow.ledgerIndex := Table.empty
  reconciliationRun : List ReconciliationRunRow := []
  issuanceSeq : ℕ := 1
  jobSeq : ℕ := 1

/-- The foreign keys of the schema. -/
structure Archive.ForeignKeys (db : Archive) : Prop where
  accountIssuance_address :
    ∀ r ∈ db.accountIssuance, db.accounts.HasKey r.address
  accountIssuance_issuance :
    ∀ r ∈ db.accountIssuance, db.issuances.HasKey r.issuanceId
  accountTransactions_hash :
    ∀ r ∈ db.accountTransactions, db.transactions.HasKey r.hash
  accountTransactions_address :
    ∀ r ∈ db.accountTransactions, db.accounts.HasKey r.address
  balanceDeltas_hash :
    ∀ r ∈ db.balanceDeltas, db.transactions.HasKey r.hash
  balanceDeltas_address :
    ∀ r ∈ db.balanceDeltas, db.accounts.HasKey r.address
  balanceDeltas_issuance :
    ∀ r ∈ db.balanceDeltas, db.issuances.HasKey r.issuanceId
  coverage_address : ∀ r ∈ db.coverage, db.accounts.HasKey r.address
  backfillJob_address : ∀ r ∈ db.backfillJob, db.accounts.HasKey r.address
  backfillJob_issuance :
    ∀ r ∈ db.backfillJob, db.issuances.HasKey r.issuanceId
  reconciliationRun_issuance :
    ∀ r ∈ db.reconciliationRun, db.issuances.HasKey r.issuanceId

instance (db : Archive) : Decidable db.ForeignKeys :=
  decidable_of_iff
    ((∀ r ∈ db.accountIssuance, db.accounts.HasKey r.address)
      ∧ (∀ r ∈ db.accountIssuance, db.issuances.HasKey r.issuanceId)
      ∧ (∀ r ∈ db.accountTransactions, db.transactions.HasKey r.hash)
      ∧ (∀ r ∈ db.accountTransactions, db.accounts.HasKey r.address)
      ∧ (∀ r ∈ db.balanceDeltas, db.transactions.HasKey r.hash)
      ∧ (∀ r ∈ db.balanceDeltas, db.accounts.HasKey r.address)
      ∧ (∀ r ∈ db.balanceDeltas, db.issuances.HasKey r.issuanceId)
      ∧ (∀ r ∈ db.coverage, db.accounts.HasKey r.address)
      ∧ (∀ r ∈ db.backfillJob, db.accounts.HasKey r.address)
      ∧ (∀ r ∈ db.backfillJob, db.issuances.HasKey r.issuanceId)
      ∧ (∀ r ∈ db.reconciliationRun, db.issuances.HasKey r.issuanceId))
    ⟨fun ⟨h₁, h₂, h₃, h₄, h₅, h₆, h₇, h₈, h₉, h₁₀, h₁₁⟩ =>
        ⟨h₁, h₂, h₃, h₄, h₅, h₆, h₇, h₈, h₉, h₁₀, h₁₁⟩,
      fun h => ⟨h.1, h.2, h.3, h.4, h.5, h.6, h.7, h.8, h.9, h.10, h.11⟩⟩

/-! ## The `xrpl` package -/

/-- What the archive takes from the `xrpl` package.  `none` is a throw. -/
structure Xrpl where
  /-- `decode` of a metadata blob. -/
  decodeMeta : String → Option Meta
  /-- `decode` of a transaction blob, of which only `TransactionType` is
      read. -/
  decodeTxType : String → Option (Option String)
  /-- `hashes.hashSignedTx`. -/
  hashSignedTx : String → String
  /-- `encodeAccountID` of the account's bytes. -/
  encodeAccountID : List ℕ → Option String

/-- The issuer's address, spelled by the last 40 digits of the id. -/
def decodeMptIssuer (X : Xrpl) (mptIssuanceId : String) : Option String :=
  X.encodeAccountID (hexToBytes (mptIssuanceId.toList.drop 8))

/-- The issuer address of a tracked issuance; `none` where it throws. -/
def trackedIssuerOf (X : Xrpl) (iss : TrackedIssuance) :
    Option String :=
  match iss.kind with
  | .mpt => decodeMptIssuer X (iss.mptIssuanceId.getD "")
  | .iou => some (iss.issuer.getD "")

/-- The tracked view of an issuance. -/
def trackedIssuance (i : IssuanceRow) : TrackedIssuance where
  id := i.id
  kind := i.kind
  mptIssuanceId := i.mptIssuanceId
  currency := i.currency
  issuer := i.issuerAccount

/-- The issuer whose `account_tx` sweep backfills the whole issuance. -/
def issuerOf (X : Xrpl) (i : IssuanceRow) : Option String :=
  trackedIssuerOf X (trackedIssuance i)

/-- `decodeMeta`: an empty or undecodable blob is `null`. -/
def decodeMeta (X : Xrpl) (metaBlob : String) : Option Meta :=
  if metaBlob = "" then none else X.decodeMeta metaBlob

end RegistrarArchive
