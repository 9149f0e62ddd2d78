import Registrar.Pages

/-! # Schedules of ingest actions

    Sweep pages, worker pages, heal pages and tail events, performed one after the
    other.  Each carries out ingest actions; a schedule is judged by the set of
    actions it carries out, whatever their order, grouping and repetition. -/

namespace RegistrarSchedule

open KeyedTable Statements RegistrarMetadata RegistrarArchive RegistrarIngest
open RegistrarBackfill RegistrarFraming RegistrarSweep RegistrarStored RegistrarWritten
open RegistrarTail RegistrarOrder RegistrarPages
open RegistrarResume (claimCoverage_ok mintXrpl mintIssuance mintArchive)

/-! ## Actions -/

/-- A transaction to store, up to provenance, the accounts to link to it and the
    issuances to derive for. -/
@[ext] structure IngestAction where
  row : TransactionRow
  accounts : Set String
  issuances : Set TrackedIssuance

/-- The action of one transaction of a write. -/
def actionOf (issuances : List TrackedIssuance) (tx : IngestTransaction) : IngestAction where
  row := bare tx.row
  accounts := {a | a ∈ tx.accounts}
  issuances := {iss | iss ∈ issuances}

/-- The delta rows an action derives. -/
def IngestAction.deltas (X : Xrpl) (a : IngestAction) : Set BalanceDeltaRow :=
  {r | ∃ m, decodeMeta X a.row.metaBlob = some m ∧ ∃ iss ∈ a.issuances,
    ∃ d ∈ issuanceDeltas iss m, r = ⟨a.row.hash, d.1, iss.id, d.2⟩}

/-- What an action says of the four tables. -/
def IngestAction.facts (X : Xrpl) (a : IngestAction) : Facts where
  rows := {a.row}
  links := {r | r.hash = a.row.hash ∧ r.address ∈ a.accounts}
  seen := {p | p.1 ∈ a.accounts ∧ p.2 = a.row.ledgerIndex}
  named := {address | ∃ r ∈ a.deltas X, r.address = address}
  deltas := a.deltas X

/-- The facts of a batch are those of its actions. -/
theorem facts_batch (X : Xrpl) (tracked : List TrackedIssuance) (txs : List IngestTransaction) :
    batchFacts tracked (workerEntries X txs)
      = Facts.all (txs.map (actionOf tracked)) (IngestAction.facts X) := by
  have hdeltas : ∀ tx r, r ∈ derivedRows tracked tx.hash (decodeMeta X tx.metaBlob)
      ↔ r ∈ (actionOf tracked tx).deltas X := fun tx r => mem_derivedRows
  unfold batchFacts workerEntries
  ext x
  · simp [Facts.union, Facts.all, txFacts, deltaFacts, IngestAction.facts, actionOf, eq_comm]
  · simp [Facts.union, Facts.all, txFacts, deltaFacts, IngestAction.facts, actionOf, bare,
      IngestTransaction.row, eq_comm]
  · simp [Facts.union, Facts.all, txFacts, deltaFacts, IngestAction.facts, actionOf, bare,
      IngestTransaction.row]
  · simp [Facts.union, Facts.all, txFacts, deltaFacts, IngestAction.facts, hdeltas]
  · simp [Facts.union, Facts.all, txFacts, deltaFacts, IngestAction.facts, hdeltas]

/-! ## Writes -/

/-- A database transaction of an ingest path; a page gives its marker, `txs` are
    the rows its entries map to. -/
inductive Write
  | sweepPage (issuance : TrackedIssuance) (job : BackfillJobRow) (page : BackfillPage)
      (highWater : ℕ) (txs : List IngestTransaction)
  | workerPage (tracked : List TrackedIssuance) (job : BackfillJobRow) (page : BackfillPage)
      (maxLedger : ℕ) (txs : List IngestTransaction)
  | healPage (tracked : List TrackedIssuance) (txs : List IngestTransaction)
  | tailEvent (tracked : List TrackedIssuance) (ev : TransactionEvent)

def perform (X : Xrpl) (db : Archive) : Write → Except DbError Archive
  | .sweepPage issuance job page highWater txs =>
      sweepTransaction (deltaDeriver [issuance]) issuance.id job page (workerEntries X txs)
        highWater db
  | .workerPage tracked job page maxLedger txs =>
      workerTransaction X (deltaDeriver tracked) job page txs maxLedger db
  | .healPage tracked txs => gapTransaction tracked (workerEntries X txs) db
  | .tailEvent tracked ev => ingestEvent X tracked ev db

/-- Perform writes one after the other. -/
def performAll (X : Xrpl) (ws : List Write) (db : Archive) : Except DbError Archive :=
  ws.foldlM (perform X) db

/-- The actions a write carries out. -/
def Write.actions : Write → List IngestAction
  | .sweepPage issuance _ _ _ txs => txs.map (actionOf [issuance])
  | .workerPage tracked _ _ _ txs => txs.map (actionOf tracked)
  | .healPage tracked txs => txs.map (actionOf tracked)
  | .tailEvent tracked ev => [actionOf tracked (eventToIngest ev)]

/-- The batch of a page is its rows, each with its metadata. -/
theorem sweepBatch_eq {X : Xrpl} {tracked : List TrackedIssuance} {issuer : String}
    {page : BackfillPage} {batch : List MappedEntry}
    (h : sweepBatch X tracked issuer page = some batch)
    (hblob : ∀ e ∈ page.entries, e.metaBlob ≠ "") :
    workerEntries X (batch.map (·.row)) = batch := by
  unfold workerEntries
  rw [List.map_map]
  refine List.map_congr_left (g := id) (fun b hb => ?_) |>.trans (List.map_id batch)
  obtain ⟨e, he, hmap⟩ := mem_sweepBatch h hb
  obtain ⟨m, hm, -, hmeta, hrow⟩ := issuerSweepEntryMapper_row hmap
  obtain ⟨-, -, hblob', -⟩ := entryRow_some hrow
  show MappedEntry.mk b.row (decodeMeta X b.row.metaBlob) = b
  rw [hblob', decodeMeta_of_ne (hblob e he), hm, ← hmeta]

/-- The transaction of a sweep's page is a write of the rows it maps to. -/
theorem perform_sweepPage {X : Xrpl} {issuance : TrackedIssuance} {job : BackfillJobRow}
    {page : BackfillPage} {batch : List MappedEntry} {highWater : ℕ} {db : Archive}
    (h : sweepBatch X [issuance] job.address page = some batch)
    (hblob : ∀ e ∈ page.entries, e.metaBlob ≠ "") :
    perform X db (.sweepPage issuance job page highWater (batch.map (·.row)))
      = sweepTransaction (deltaDeriver [issuance]) issuance.id job page batch highWater db := by
  show sweepTransaction _ _ _ _ (workerEntries X (batch.map (·.row))) _ db = _
  rw [sweepBatch_eq h hblob]

/-- So is that of a heal's page. -/
theorem perform_healPage {X : Xrpl} {seen tracked : List TrackedIssuance} {issuer : String}
    {page : BackfillPage} {batch : List MappedEntry} {db : Archive}
    (h : sweepBatch X seen issuer page = some batch)
    (hblob : ∀ e ∈ page.entries, e.metaBlob ≠ "") :
    perform X db (.healPage tracked (batch.map (·.row))) = gapTransaction tracked batch db := by
  show gapTransaction _ (workerEntries X (batch.map (·.row))) db = _
  rw [sweepBatch_eq h hblob]

/-- The job whose page a write is. -/
def Write.job : Write → Option BackfillJobRow
  | .sweepPage _ job _ _ _ => some job
  | .workerPage _ job _ _ _ => some job
  | .healPage _ _ => none
  | .tailEvent _ _ => none

/-- The actions of a schedule. -/
def actionsOf (ws : List Write) : List IngestAction := ws.flatMap Write.actions

/-! ## What a write ingests -/

theorem rows_workerEntries (X : Xrpl) (txs : List IngestTransaction) :
    (workerEntries X txs).map (·.row) = txs := by
  unfold workerEntries
  rw [List.map_map]
  exact List.map_id txs

/-- **A WRITE INGESTS ITS ACTIONS**, whatever path it takes. -/
theorem perform_ingests {X : Xrpl} {w : Write} {db db' : Archive}
    (h : perform X db w = .ok db') :
    Ingests (Facts.all w.actions (IngestAction.facts X)) db db' := by
  cases w with
  | sweepPage issuance job page highWater txs =>
      obtain ⟨d, hd, hsame, -⟩ := sweepTransaction_ok h
      exact facts_batch X [issuance] txs ▸ hsame.ingests (ingests_writeBatch hd)
  | workerPage tracked job page maxLedger txs =>
      obtain ⟨d₁, d, h₁, h₂, hsame, -⟩ := workerTransaction_ok h
      exact facts_batch X tracked txs ▸ hsame.ingests (ingests_batch h₁ h₂)
  | healPage tracked txs =>
      exact facts_batch X tracked txs ▸ ingests_gapTransaction h
  | tailEvent tracked ev =>
      exact facts_batch X tracked [eventToIngest ev] ▸ ingests_ingestEvent h

/-- A schedule ingests the facts of its actions. -/
theorem performAll_ingests {X : Xrpl} {ws : List Write} {db db' : Archive}
    (h : performAll X ws db = .ok db') :
    Ingests (Facts.all (actionsOf ws) (IngestAction.facts X)) db db' := by
  have hall := Ingests.foldlM (fun w _ d d' hd => perform_ingests hd) h
  rw [Facts.all_all] at hall
  exact hall

/-! ## Every write succeeds -/

/-- The deltas of an action can be stored. -/
def Derivable (X : Xrpl) (db : Archive) (a : IngestAction) : Prop :=
  (∀ iss ∈ a.issuances, db.issuances.HasKey iss.id)
    ∧ ∀ m, decodeMeta X a.row.metaBlob = some m → ∀ iss ∈ a.issuances,
        ((issuanceDeltas iss m).map Prod.fst).Nodup

/-- The state reached from `db` has its issuances and accounts, and an account
    for each member. -/
structure Ready (db d : Archive) : Prop where
  issuances : d.issuances = db.issuances
  accounts : ∀ a, db.accounts.HasKey a → d.accounts.HasKey a
  members : ∀ r ∈ d.accountIssuance, d.accounts.HasKey r.address

theorem Ready.of_ingests {F : Facts} {db d d' : Archive} (h : Ready db d)
    (hd : Ingests F d d') (hmembers : d'.accountIssuance = d.accountIssuance) :
    Ready db d' where
  issuances := hd.issuances.trans h.issuances
  accounts := fun a ha => (hd.accounts a).mpr (Or.inl (h.accounts a ha))
  members := fun r hr => (hd.accounts r.address).mpr (Or.inl (h.members r (hmembers ▸ hr)))

theorem Ready.of_same {db d d' : Archive} (h : Ready db d)
    (hissuances : d'.issuances = d.issuances) (haccounts : d'.accounts = d.accounts)
    (hmembers : d'.accountIssuance = d.accountIssuance) : Ready db d' where
  issuances := hissuances.trans h.issuances
  accounts := fun a ha => haccounts ▸ h.accounts a ha
  members := fun r hr => haccounts ▸ h.members r (hmembers ▸ hr)

theorem Ready.insertTransactionRowsMany {txs : List IngestTransaction} {db d d' : Archive}
    (h : Ready db d) (hd : insertTransactionRowsMany txs d = .ok d') : Ready db d' :=
  h.of_ingests (ingests_insertTransactionRowsMany hd)
    ((frames_insertTransactionRowsMany txs).members hd)

theorem Ready.deltaDeriver {issuances : List TrackedIssuance} {hash : String}
    {metadata : Option Meta} {db d d' : Archive} (h : Ready db d)
    (hd : deltaDeriver issuances hash metadata d = .ok d') : Ready db d' :=
  h.of_ingests (ingests_deltaDeriver hd) ((frames_deltaDeriver _ _ _).members hd)

theorem derive_succeeds {X : Xrpl} {tracked : List TrackedIssuance} {tx : IngestTransaction}
    {db d : Archive} (h : Ready db d) (htx : d.transactions.HasKey tx.hash)
    (hderivable : Derivable X db (actionOf tracked tx)) :
    ∃ d', deltaDeriver tracked tx.hash (decodeMeta X tx.metaBlob) d = .ok d' ∧ Ready db d'
      ∧ d'.transactions = d.transactions := by
  have hissuances : ∀ iss ∈ tracked, d.issuances.HasKey iss.id := by
    rw [h.issuances]
    exact hderivable.1
  obtain ⟨d', hd⟩ := deltaDeriver_succeeds htx hissuances hderivable.2
  exact ⟨d', hd, h.deltaDeriver hd, (deltaDeriver_ok hd).2.1⟩

/-- Storing a batch and deriving its deltas succeeds. -/
theorem batch_succeeds {X : Xrpl} {tracked : List TrackedIssuance}
    {txs : List IngestTransaction} {db d : Archive} (h : Ready db d)
    (hderivable : ∀ tx ∈ txs, Derivable X db (actionOf tracked tx)) :
    ∃ d₁ d₂, insertTransactionRowsMany txs d = .ok d₁
      ∧ txs.foldlM (fun db tx => deltaDeriver tracked tx.hash (decodeMeta X tx.metaBlob) db) d₁
        = .ok d₂ ∧ Ready db d₂ := by
  obtain ⟨d₁, h₁⟩ := insertTransactionRowsMany_succeeds txs d
  have hstored := (ingests_insertTransactionRowsMany h₁).stored
  obtain ⟨d₂, h₂, hready, -⟩ := foldlM_succeeds (ε := DbError)
    (f := fun db tx => deltaDeriver tracked tx.hash (decodeMeta X tx.metaBlob) db)
    (P := fun e => Ready db e ∧ e.transactions = d₁.transactions) (l := txs) (s := d₁)
    (fun tx htx e he => by
      have hkey : e.transactions.HasKey tx.hash := by
        rw [he.2]
        exact hstored (bare tx.row) ⟨tx, htx, rfl⟩
      obtain ⟨e', he', hready, hsame⟩ := derive_succeeds he.1 hkey (hderivable tx htx)
      exact ⟨e', he', hready, hsame.trans he.2⟩)
    ⟨h.insertTransactionRowsMany h₁, rfl⟩
  exact ⟨d₁, d₂, h₁, h₂, hready⟩

theorem recordHolder_succeeds {issuanceId ledger : ℕ} {address : String} {db d : Archive}
    (h : Ready db d) (hissuance : db.issuances.HasKey issuanceId) :
    ∃ d', recordHolder issuanceId address ledger d = .ok d' ∧ Ready db d' := by
  have haddress : (upsertAccount ⟨address, some ledger⟩ d).accounts.HasKey address :=
    Table.hasKey_upsert.mpr (Or.inr rfl)
  have hgrow : ∀ a, d.accounts.HasKey a →
      (upsertAccount ⟨address, some ledger⟩ d).accounts.HasKey a :=
    fun a ha => Table.hasKey_upsert.mpr (Or.inl ha)
  refine ⟨_, recordHolder_ok.mpr ⟨haddress, h.issuances ▸ hissuance, rfl⟩,
    h.issuances, fun a ha => hgrow a (h.accounts a ha), ?_⟩
  intro r hr
  rcases Table.mem_upsert.mp hr with ⟨hr, -⟩ | ⟨old, hold, -, rfl⟩ | ⟨rfl, -⟩
  · exact hgrow _ (h.members r hr)
  · exact hgrow _ (h.members old hold)
  · exact haddress

theorem writeBatch_succeeds {X : Xrpl} {issuance : TrackedIssuance} {issuer : String}
    {txs : List IngestTransaction} {db d : Archive} (h : Ready db d)
    (hderivable : ∀ tx ∈ txs, Derivable X db (actionOf [issuance] tx)) :
    ∃ d', writeBatch (deltaDeriver [issuance]) issuance.id issuer (workerEntries X txs) d
      = .ok d' ∧ Ready db d' := by
  obtain ⟨d₁, d₂, h₁, h₂, hready⟩ := batch_succeeds h hderivable
  obtain ⟨d₃, h₃, hready⟩ := foldlM_succeeds (ε := DbError)
    (f := fun db (e : String × ℕ) => recordHolder issuance.id e.1 e.2 db)
    (l := firstLedgers issuer (workerEntries X txs))
    (fun e he s hs => by
      obtain ⟨tx, htx, -⟩ := exists_row_of_firstLedger he
      rw [rows_workerEntries] at htx
      exact recordHolder_succeeds hs ((hderivable tx htx).1 issuance (List.mem_singleton_self _)))
    hready
  refine ⟨d₃, bind_ok.mpr ⟨d₁, ?_, bind_ok.mpr ⟨d₂, ?_, h₃⟩⟩, hready⟩
  · rw [rows_workerEntries]
    exact h₁
  · unfold workerEntries
    rw [List.foldlM_map]
    exact h₂

theorem claimCoverage_succeeds {issuanceId fromLedger toLedger : ℕ} {issuer : String}
    {db d : Archive} (h : Ready db d) (hissuer : d.accounts.HasKey issuer) :
    ∃ d', claimCoverage issuanceId issuer fromLedger toLedger d = .ok d' ∧ Ready db d' := by
  obtain ⟨d', hd', -⟩ := foldlM_succeeds (ε := DbError)
    (f := fun db address => insertCoverage ⟨address, coverageFloor issuanceId fromLedger
      toLedger d, toLedger, .issuerSweep issuer fromLedger toLedger⟩ db)
    (P := fun e => e.accounts = d.accounts)
    (l := ((d.accountIssuance.rows.filter (fun r => r.issuanceId = issuanceId)).map
      (·.address)).insertionSort (· ≤ ·) ++ [issuer]) (s := d)
    (fun a ha e he => by
      have hkey : d.accounts.HasKey a := by
        rcases List.mem_append.mp ha with ha | ha
        · obtain ⟨r, hr, rfl⟩ := List.mem_map.mp ((List.mem_insertionSort _).mp ha)
          exact h.members r (List.mem_of_mem_filter hr)
        · exact List.mem_singleton.mp ha ▸ hissuer
      refine ⟨_, if_neg (not_not.mpr (?_ : e.accounts.HasKey a)), he⟩
      rw [he]
      exact hkey) rfl
  have hd' : claimCoverage issuanceId issuer fromLedger toLedger d = .ok d' := hd'
  refine ⟨d', hd', ?_⟩
  rw [claimCoverage_ok hd']
  exact h.of_same rfl rfl rfl

/-- **A WRITE SUCCEEDS** when the deltas of its actions can be stored and its job
    is of a known account. -/
theorem perform_succeeds {X : Xrpl} {w : Write} {db d : Archive} (h : Ready db d)
    (hderivable : ∀ a ∈ w.actions, Derivable X db a)
    (hjob : ∀ job ∈ w.job, db.accounts.HasKey job.address) :
    ∃ d', perform X d w = .ok d' ∧ Ready db d' := by
  cases w with
  | sweepPage issuance job page highWater txs =>
      obtain ⟨d₁, h₁, hready⟩ := @writeBatch_succeeds X issuance job.address txs db d h
        (fun tx htx => hderivable _ (List.mem_map_of_mem htx))
      let d₂ := checkpointJob job.id page.marker (workerEntries X txs).length d₁
      have hready₂ : Ready db d₂ := hready.of_same rfl rfl rfl
      by_cases hfinal : page.marker.isNone
      · obtain ⟨d₃, h₃, hready₃⟩ := @claimCoverage_succeeds issuance.id (job.fromLedger.getD 0)
          highWater job.address db d₂ hready₂ (hready₂.accounts _ (hjob job rfl))
        refine ⟨completeJob job.id d₃, bind_ok.mpr ⟨d₁, h₁, ?_⟩,
          hready₃.of_same rfl rfl rfl⟩
        unfold finishSweep
        rw [if_pos hfinal, h₃]
        rfl
      · refine ⟨d₂, bind_ok.mpr ⟨d₁, h₁, ?_⟩, hready₂⟩
        unfold finishSweep
        rw [if_neg hfinal]
  | workerPage tracked job page maxLedger txs =>
      obtain ⟨d₁, d₂, h₁, h₂, hready⟩ := @batch_succeeds X tracked txs db d h
        (fun tx htx => hderivable _ (List.mem_map_of_mem htx))
      let d₃ := checkpointJob job.id page.marker txs.length d₂
      have hready₃ : Ready db d₃ := hready.of_same rfl rfl rfl
      by_cases hfinal : page.marker.isNone
      · have hkey : (completeJob job.id d₃).accounts.HasKey job.address :=
          hready₃.accounts _ (hjob job rfl)
        refine ⟨_, bind_ok.mpr ⟨d₁, h₁, bind_ok.mpr ⟨d₂, h₂,
          (if_pos hfinal).trans (if_neg (not_not.mpr hkey))⟩⟩, ?_⟩
        exact hready₃.of_same rfl rfl rfl
      · exact ⟨d₃, bind_ok.mpr ⟨d₁, h₁, bind_ok.mpr ⟨d₂, h₂, if_neg hfinal⟩⟩, hready₃⟩
  | healPage tracked txs =>
      show ∃ d', gapTransaction tracked (workerEntries X txs) d = .ok d' ∧ _
      unfold gapTransaction
      by_cases hempty : (workerEntries X txs).isEmpty
      · simp only [hempty]
        exact ⟨d, rfl, h⟩
      · simp only [hempty]
        obtain ⟨d₁, d₂, h₁, h₂, hready⟩ := @batch_succeeds X tracked txs db d h
          (fun tx htx => hderivable _ (List.mem_map_of_mem htx))
        refine ⟨d₂, bind_ok.mpr ⟨d₁, ?_, ?_⟩, hready⟩
        · rw [rows_workerEntries]
          exact h₁
        · unfold workerEntries
          rw [List.foldlM_map]
          exact h₂
  | tailEvent tracked ev =>
      obtain ⟨d₁, h₁⟩ := insertTransactionRows_succeeds (eventToIngest ev) d
      have hingests := ingests_insertTransactionRows h₁
      have hmembers : d₁.accountIssuance = d.accountIssuance := by
        unfold insertTransactionRows at h₁
        show _ = (insertTransaction (eventToIngest ev).row d).accountIssuance
        refine foldlM_same (g := Archive.accountIssuance) (fun a e e' he => ?_) h₁
        cases Except.ok.inj (guarded_ok.mp (guarded_ok.mp he).2).2
        rfl
      have hkey : d₁.transactions.HasKey (eventToIngest ev).hash :=
        hingests.stored (bare (eventToIngest ev).row) ⟨_, List.mem_singleton_self _, rfl⟩
      obtain ⟨d₂, h₂, hready, -⟩ := derive_succeeds (h.of_ingests hingests hmembers) hkey
        (hderivable _ (List.mem_singleton_self _))
      exact ⟨d₂, bind_ok.mpr ⟨d₁, h₁, h₂⟩, hready⟩

/-! ## One outcome -/

/-- Copies of one hash agree, the issuances are those of the database, and no
    derivation yields two rows for one key. -/
structure Agreeing (X : Xrpl) (db : Archive) (actions : List IngestAction) : Prop where
  rows : ∀ a ∈ actions, ∀ a' ∈ actions, a.row.hash = a'.row.hash → a.row = a'.row
  registered : ∀ a ∈ actions, ∀ iss ∈ a.issuances, ∃ r ∈ db.issuances, trackedIssuance r = iss
  once : ∀ a ∈ actions, ∀ m, decodeMeta X a.row.metaBlob = some m → ∀ iss ∈ a.issuances,
    ((issuanceDeltas iss m).map Prod.fst).Nodup

theorem Agreeing.derivable {X : Xrpl} {db : Archive} {actions : List IngestAction}
    (h : Agreeing X db actions) {a : IngestAction} (ha : a ∈ actions) : Derivable X db a := by
  refine ⟨fun iss hiss => ?_, h.once a ha⟩
  obtain ⟨r, hr, rfl⟩ := h.registered a ha iss hiss
  exact ⟨r, hr, rfl⟩

/-- Two deltas of one key come of one transaction and one issuance. -/
theorem Agreeing.consistent {X : Xrpl} {db : Archive} {actions : List IngestAction}
    (h : Agreeing X db actions) :
    (Facts.all actions (IngestAction.facts X)).Consistent where
  rows := by
    rintro t ⟨a, ha, rfl⟩ t' ⟨a', ha', rfl⟩ hhash
    exact h.rows a ha a' ha' hhash
  deltas := by
    rintro r ⟨a, ha, m, hm, iss, hiss, d, hd, rfl⟩ r'
      ⟨a', ha', m', hm', iss', hiss', d', hd', rfl⟩ hkey
    obtain ⟨hhash, haccount, hid⟩ :
        a.row.hash = a'.row.hash ∧ d.1 = d'.1 ∧ iss.id = iss'.id := by
      simpa [BalanceDeltaRow.key] using hkey
    obtain ⟨i, hi, hsame⟩ := h.registered a ha iss hiss
    obtain ⟨i', hi', hsame'⟩ := h.registered a' ha' iss' hiss'
    have hids : i.id = i'.id := by
      have hid := hid
      rw [← hsame, ← hsame'] at hid
      exact hid
    have hiss_eq : iss = iss' := by
      rw [← hsame, ← hsame', db.issuances.eq_of_key_eq hi hi' hids]
    have hm_eq : m = m' := by
      rw [h.rows a ha a' ha' hhash] at hm
      exact Option.some.inj (hm.symm.trans hm')
    cases hiss_eq
    cases hm_eq
    have hd_eq : d = d' := List.inj_on_of_nodup_map (h.once a ha m hm iss hiss) hd hd' haccount
    rw [hd_eq, hhash]

/-- A schedule of agreeing actions runs through. -/
theorem performAll_succeeds {X : Xrpl} {db : Archive} {ws : List Write} (hfk : db.ForeignKeys)
    (hagree : Agreeing X db (actionsOf ws))
    (hjobs : ∀ w ∈ ws, ∀ job ∈ w.job, ∃ r ∈ db.backfillJob, r.address = job.address) :
    ∃ d, performAll X ws db = .ok d := by
  have hready : Ready db db := ⟨rfl, fun _ h => h, hfk.accountIssuance_address⟩
  obtain ⟨d, hd, -⟩ :=
      foldlM_succeeds (f := perform X) (P := Ready db) (l := ws) (fun w hw s hs => by
    refine perform_succeeds hs (fun a ha => ?_) (fun job hjob => ?_)
    · exact hagree.derivable (List.mem_flatMap.mpr ⟨w, hw, ha⟩)
    · obtain ⟨r, hr, haddress⟩ := hjobs w hw job hjob
      exact haddress ▸ hfk.backfillJob_address r hr) hready
  exact ⟨d, hd⟩

/-- **INGEST IS ORDER-INDEPENDENT AND IDEMPOTENT**: two schedules of writes that
    carry out one set of actions both run through and leave the same rows. -/
theorem ingest_order_independent (X : Xrpl) {db : Archive} {ws ws' : List Write}
    (hfk : db.ForeignKeys) (hactions : ∀ a, a ∈ actionsOf ws ↔ a ∈ actionsOf ws')
    (hagree : Agreeing X db (actionsOf ws))
    (hjobs : ∀ w ∈ ws ++ ws', ∀ job ∈ w.job, ∃ r ∈ db.backfillJob, r.address = job.address) :
    ∃ d d', performAll X ws db = .ok d ∧ performAll X ws' db = .ok d' ∧ SameIngest d d' := by
  have hagree' : Agreeing X db (actionsOf ws') :=
    ⟨fun a ha a' ha' => hagree.rows a ((hactions a).mpr ha) a' ((hactions a').mpr ha'),
      fun a ha => hagree.registered a ((hactions a).mpr ha),
      fun a ha => hagree.once a ((hactions a).mpr ha)⟩
  obtain ⟨d, hd⟩ := performAll_succeeds hfk hagree
    (fun w hw => hjobs w (List.mem_append_left _ hw))
  obtain ⟨d', hd'⟩ := performAll_succeeds hfk hagree'
    (fun w hw => hjobs w (List.mem_append_right _ hw))
  have hfacts : Facts.all (actionsOf ws) (IngestAction.facts X)
      = Facts.all (actionsOf ws') (IngestAction.facts X) := by
    ext x <;> simp only [Facts.all, hactions]
  exact ⟨d, d', hd, hd', Ingests.same hagree.consistent (performAll_ingests hd)
    (hfacts ▸ performAll_ingests hd')⟩

/-- The receipt of `mintXrpl`, with the accounts to link. -/
def mintTransaction (accounts : List String) : IngestTransaction where
  hash := "tx"
  ledgerIndex := 200
  txType := "Payment"
  txBlob := "tx"
  metaBlob := "mint"
  provenance := ⟨"clio", "now"⟩
  accounts := accounts

def mintEvent : TransactionEvent where
  hash := "tx"
  ledgerIndex := 200
  txType := "Payment"
  accounts := ["rAlice", "rIssuer"]
  txBlob := "tx"
  metaBlob := "mint"
  provenance := ⟨"rippled", "later"⟩

def mintJob : BackfillJobRow where
  id := 1
  address := "rIssuer"
  issuanceId := 1
  fromLedger := some 0
  kind := .issuer

/-- The last page of the sweep, then a page of the worker. -/
def mintSwept : List Write :=
  [.sweepPage mintIssuance mintJob ⟨[], none, ⟨"clio", "now"⟩⟩ 200
      [mintTransaction ["rIssuer", "rAlice"]],
    .workerPage [mintIssuance] mintJob ⟨[], some "marker", ⟨"clio", "now"⟩⟩ 200
      [mintTransaction ["rIssuer"]]]

/-- The worker's page, a heal of both, then the event. -/
def mintStreamed : List Write :=
  [.workerPage [mintIssuance] mintJob ⟨[], some "marker", ⟨"clio", "now"⟩⟩ 200
      [mintTransaction ["rIssuer"]],
    .healPage [mintIssuance]
      [mintTransaction ["rIssuer"], mintTransaction ["rIssuer", "rAlice"]],
    .tailEvent [mintIssuance] mintEvent]

/-- The event and the sweep carry out one action. -/
theorem actionOf_mintEvent : actionOf [mintIssuance] (eventToIngest mintEvent)
    = actionOf [mintIssuance] (mintTransaction ["rIssuer", "rAlice"]) := by
  refine IngestAction.ext rfl (Set.ext fun a => ?_) rfl
  show a ∈ ["rAlice", "rIssuer"] ↔ a ∈ ["rIssuer", "rAlice"]
  exact (List.Perm.swap _ _ []).mem_iff

theorem mint_actions (a : IngestAction) :
    a ∈ actionsOf mintSwept ↔ a ∈ actionsOf mintStreamed := by
  have hswept : actionsOf mintSwept
      = [actionOf [mintIssuance] (mintTransaction ["rIssuer", "rAlice"]),
        actionOf [mintIssuance] (mintTransaction ["rIssuer"])] := rfl
  have hstreamed : actionsOf mintStreamed
      = [actionOf [mintIssuance] (mintTransaction ["rIssuer"]),
        actionOf [mintIssuance] (mintTransaction ["rIssuer"]),
        actionOf [mintIssuance] (mintTransaction ["rIssuer", "rAlice"]),
        actionOf [mintIssuance] (eventToIngest mintEvent)] := rfl
  rw [hswept, hstreamed, actionOf_mintEvent]
  simp only [List.mem_cons, List.not_mem_nil, or_false]
  tauto

theorem mint_agreeing : Agreeing mintXrpl mintArchive (actionsOf mintSwept) := by
  have hof : ∀ a ∈ actionsOf mintSwept,
      a.row = bare (mintTransaction []).row ∧ a.issuances = {iss | iss ∈ [mintIssuance]} := by
    intro a ha
    rcases List.mem_pair.mp ha with rfl | rfl
    · exact ⟨rfl, rfl⟩
    · exact ⟨rfl, rfl⟩
  refine ⟨fun a ha a' ha' _ => (hof a ha).1.trans (hof a' ha').1.symm, ?_, ?_⟩
  · intro a ha iss hiss
    rw [(hof a ha).2] at hiss
    exact ⟨_, List.mem_singleton_self _, (List.mem_singleton.mp hiss).symm⟩
  · intro a ha m hm iss hiss
    rw [(hof a ha).2] at hiss
    rw [(hof a ha).1] at hm
    cases List.mem_singleton.mp hiss
    cases hm
    decide

/-- Swept, then paged by the worker, or paged, healed and streamed. -/
theorem ingest_order_independent_mint : ∃ d d',
    performAll mintXrpl mintSwept mintArchive = .ok d
      ∧ performAll mintXrpl mintStreamed mintArchive = .ok d' ∧ SameIngest d d' :=
  ingest_order_independent mintXrpl (by decide) mint_actions mint_agreeing (by
    intro w hw job hjob
    refine ⟨mintJob, List.mem_singleton_self _, ?_⟩
    simp only [mintSwept, mintStreamed, List.cons_append, List.nil_append, List.mem_cons,
      List.not_mem_nil, or_false] at hw
    rcases hw with rfl | rfl | rfl | rfl | rfl <;> cases hjob <;> rfl)

end RegistrarSchedule
