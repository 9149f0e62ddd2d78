import Registrar.Discovery

/-! # Deriving the balance changes again

    The deltas of an issuance are derived as its transactions land, and can be
    derived again from the stored blobs.  The batch route reads the transactions
    linked to a member of the issuance and decodes each of them; the incremental
    route derives for whatever a writer carries, in the issuances tracked at the
    time, and skips a blob that does not decode. -/

namespace RegistrarRederivation

open KeyedTable Runs Statements RegistrarMetadata RegistrarArchive RegistrarIngest
open RegistrarBackfill RegistrarSweep RegistrarStored RegistrarWritten
open RegistrarTail RegistrarOrder RegistrarPages RegistrarLinks
open RegistrarDiscovery (Server registered registered_eq Offered)

/-! ## The batch route -/

/-- The stored transactions linked to a member of the issuance. -/
def inScopeMeta (db : Archive) (issuanceId : ℕ) : List TransactionRow :=
  db.transactions.rows.filter fun t =>
    ∃ l ∈ db.accountTransactions,
      l.hash = t.hash ∧ db.accountIssuance.HasKey (l.address, issuanceId)

/-- The deltas of a list of stored transactions; `none` where `decode` throws. -/
def deltaRows (X : Xrpl) (deltas : Meta → List (String × ℚ)) (txs : List TransactionRow) :
    Option (List DeltaRow) :=
  (txs.mapM fun t => (X.decodeMeta t.metaBlob).map fun m =>
    (deltas m).map fun d => (⟨t.hash, d.1, d.2⟩ : DeltaRow)).map List.flatten

/-- What `deriveMptDeltas` and `deriveIouDeltas` share. -/
def deriveDeltas (X : Xrpl) (deltas : Meta → List (String × ℚ)) (issuanceId : ℕ)
    (db : Archive) : Option Archive :=
  (deltaRows X deltas (inScopeMeta db issuanceId)).bind fun rows =>
    (insertDeltasMany issuanceId rows db).toOption

/-- Derive and persist the deltas of an MPT issuance. -/
def deriveMptDeltas (X : Xrpl) (issuanceId : ℕ) (mptIssuanceId : String) :
    Archive → Option Archive :=
  deriveDeltas X
    (fun m => (mptDeltas m mptIssuanceId).map (fun d => (d.account, (d.delta : ℚ))))
    issuanceId

/-- Derive and persist the deltas of an IOU issuance. -/
def deriveIouDeltas (X : Xrpl) (issuanceId : ℕ) (currency issuer : String) :
    Archive → Option Archive :=
  deriveDeltas X (fun m => (iouDeltas m currency issuer).map (fun d => (d.account, d.delta)))
    issuanceId

/-- The batch route of an issuance. -/
def rederive (X : Xrpl) (iss : TrackedIssuance) (db : Archive) : Option Archive :=
  match iss.kind with
  | .mpt => deriveMptDeltas X iss.id (iss.mptIssuanceId.getD "") db
  | .iou => deriveIouDeltas X iss.id (iss.currency.getD "") (iss.issuer.getD "") db

/-- Both routes read the same changes off the metadata. -/
theorem rederive_eq (X : Xrpl) (iss : TrackedIssuance) (db : Archive) :
    rederive X iss db = deriveDeltas X (issuanceDeltas iss) iss.id db := by
  unfold rederive
  cases hkind : iss.kind with
  | mpt =>
      have hdeltas : issuanceDeltas iss = fun m =>
          (mptDeltas m (iss.mptIssuanceId.getD "")).map (fun d => (d.account, (d.delta : ℚ))) := by
        funext m
        unfold issuanceDeltas
        rw [hkind]
      rw [hdeltas]
      rfl
  | iou =>
      have hdeltas : issuanceDeltas iss = fun m =>
          (iouDeltas m (iss.currency.getD "") (iss.issuer.getD "")).map
            (fun d => (d.account, d.delta)) := by
        funext m
        unfold issuanceDeltas
        rw [hkind]
      rw [hdeltas]
      rfl

/-- The deltas of the issuance deleted. -/
def emptied (issuanceId : ℕ) (db : Archive) : Archive :=
  { db with balanceDeltas := db.balanceDeltas.deleteWhere (fun r => r.issuanceId = issuanceId) }

/-- Emptied and derived again, the deltas are those that were stored; derived over
    themselves, nothing changes. -/
def Rederives (X : Xrpl) (iss : TrackedIssuance) (db : Archive) : Prop :=
  (∃ db', rederive X iss (emptied iss.id db) = some db'
      ∧ ∀ r, r ∈ db'.balanceDeltas ↔ r ∈ db.balanceDeltas)
    ∧ rederive X iss db = some db

/-! ## What the batch route derives -/

theorem mem_inScopeMeta {db : Archive} {issuanceId : ℕ} {t : TransactionRow} :
    t ∈ inScopeMeta db issuanceId ↔ t ∈ db.transactions ∧ ∃ l ∈ db.accountTransactions,
      l.hash = t.hash ∧ db.accountIssuance.HasKey (l.address, issuanceId) := by
  unfold inScopeMeta
  rw [List.mem_filter, decide_eq_true_eq]
  exact Iff.rfl

theorem mem_deltaRows {X : Xrpl} {deltas : Meta → List (String × ℚ)}
    {txs : List TransactionRow} {rows : List DeltaRow} (h : deltaRows X deltas txs = some rows)
    {r : DeltaRow} : r ∈ rows ↔ ∃ t ∈ txs, ∃ m, X.decodeMeta t.metaBlob = some m
      ∧ ∃ d ∈ deltas m, r = ⟨t.hash, d.1, d.2⟩ := by
  obtain ⟨lists, hlists, rfl⟩ := Option.map_eq_some_iff.mp h
  rw [List.mem_flatten]
  constructor
  · rintro ⟨l, hl, hr⟩
    obtain ⟨t, ht, hmap⟩ := mem_of_mapM_some hlists hl
    obtain ⟨m, hm, rfl⟩ := Option.map_eq_some_iff.mp hmap
    obtain ⟨d, hd, rfl⟩ := List.mem_map.mp hr
    exact ⟨t, ht, m, hm, d, hd, rfl⟩
  · rintro ⟨t, ht, m, hm, d, hd, rfl⟩
    obtain ⟨l, hl, hmap⟩ := exists_of_mapM_some hlists ht
    rw [hm] at hmap
    cases Option.some.inj hmap
    exact ⟨_, hl, List.mem_map_of_mem hd⟩

/-- The batch route throws on the first blob that does not decode. -/
theorem decodes_of_deltaRows {X : Xrpl} {deltas : Meta → List (String × ℚ)}
    {txs : List TransactionRow} {rows : List DeltaRow} (h : deltaRows X deltas txs = some rows)
    {t : TransactionRow} (ht : t ∈ txs) : X.decodeMeta t.metaBlob ≠ none := by
  obtain ⟨lists, hlists, -⟩ := Option.map_eq_some_iff.mp h
  obtain ⟨l, -, hmap⟩ := exists_of_mapM_some hlists ht
  obtain ⟨m, hm, -⟩ := Option.map_eq_some_iff.mp hmap
  rw [hm]
  exact nofun

theorem deltaRows_succeeds {X : Xrpl} {deltas : Meta → List (String × ℚ)}
    {txs : List TransactionRow} (h : ∀ t ∈ txs, X.decodeMeta t.metaBlob ≠ none) :
    ∃ rows, deltaRows X deltas txs = some rows := by
  obtain ⟨lists, hlists, -⟩ := mapM_some (l := txs) (f := fun t =>
    (X.decodeMeta t.metaBlob).map fun m =>
      (deltas m).map fun d => (⟨t.hash, d.1, d.2⟩ : DeltaRow)) (fun t ht => by
    obtain ⟨m, hm⟩ := Option.ne_none_iff_exists'.mp (h t ht)
    rw [hm]
    exact ⟨_, rfl⟩)
  exact ⟨lists.flatten, congrArg (Option.map List.flatten) hlists⟩

/-- Transactions of distinct hashes, each of which changes an account once, give
    each key once. -/
theorem deltaRows_nodup {X : Xrpl} {deltas : Meta → List (String × ℚ)}
    {txs : List TransactionRow} (hhash : (txs.map TransactionRow.hash).Nodup)
    (honce : ∀ t ∈ txs, ∀ m, X.decodeMeta t.metaBlob = some m →
      ((deltas m).map Prod.fst).Nodup) {rows : List DeltaRow}
    (h : deltaRows X deltas txs = some rows) :
    (rows.map (fun r => (r.hash, r.address))).Nodup := by
  induction txs generalizing rows with
  | nil =>
      cases Option.some.inj h
      exact List.nodup_nil
  | cons t txs ih =>
      obtain ⟨lists, hlists, rfl⟩ := Option.map_eq_some_iff.mp h
      rw [List.mapM_cons] at hlists
      obtain ⟨l, hl, hrest⟩ := Option.bind_eq_some_iff.mp hlists
      obtain ⟨lists', hlists', hcons⟩ := Option.bind_eq_some_iff.mp hrest
      cases hcons
      obtain ⟨m, hm, rfl⟩ := Option.map_eq_some_iff.mp hl
      have htail : deltaRows X deltas txs = some lists'.flatten :=
        congrArg (Option.map List.flatten) hlists'
      obtain ⟨hout, hhash⟩ := List.nodup_cons.mp hhash
      rw [List.flatten_cons, List.map_append]
      refine List.nodup_append'.mpr ⟨?_, ?_, ?_⟩
      · rw [List.map_map]
        refine List.Nodup.of_map Prod.snd ?_
        rw [List.map_map]
        exact honce t List.mem_cons_self m hm
      · exact ih hhash (fun t ht => honce t (List.mem_cons_of_mem _ ht)) htail
      · -- a later row is of another transaction
        rintro k hk hk'
        obtain ⟨r, hr, rfl⟩ := List.mem_map.mp hk
        obtain ⟨d, -, rfl⟩ := List.mem_map.mp hr
        obtain ⟨r', hr', hkey⟩ := List.mem_map.mp hk'
        obtain ⟨t', ht', _, _, d', -, rfl⟩ := (mem_deltaRows htail).mp hr'
        have hsame : t'.hash = t.hash := (Prod.mk.inj hkey).1
        exact hout (hsame ▸ List.mem_map_of_mem ht')

/-! ## Rows that are there already -/

theorem insertAccount_of_hasKey {row : AccountRow} {db : Archive}
    (h : db.accounts.HasKey row.address) : insertAccount row db = db := by
  unfold insertAccount
  rw [Table.insertIgnore, dif_pos h]

theorem upsertDelta_of_mem {row : BalanceDeltaRow} {db db' : Archive}
    (hrow : row ∈ db.balanceDeltas) (h : upsertDelta row db = .ok db') : db' = db := by
  cases Except.ok.inj (guarded_ok.mp (guarded_ok.mp (guarded_ok.mp h).2).2).2
  show { db with balanceDeltas := putDelta db.balanceDeltas row } = db
  have hsame : putDelta db.balanceDeltas row = db.balanceDeltas :=
    Table.ext (Table.upsert_rows_of_mem hrow rfl)
  rw [hsame]

/-- A loop whose every iteration leaves the archive as it is. -/
theorem foldlM_fixed {α : Type} {f : Archive → α → Except DbError Archive} {l : List α}
    {db db' : Archive} (hf : ∀ a ∈ l, ∀ d, f db a = .ok d → d = db)
    (h : l.foldlM f db = .ok db') : db' = db := by
  induction l with
  | nil => exact (foldlM_nil_ok.mp h).symm
  | cons a l ih =>
      obtain ⟨d, hd, h⟩ := foldlM_cons_ok.mp h
      rw [hf a List.mem_cons_self d hd] at h
      exact ih (fun b hb => hf b (List.mem_cons_of_mem a hb)) h

/-- **DERIVING WHAT IS STORED CHANGES NOTHING**. -/
theorem insertDeltasMany_of_mem {issuanceId : ℕ} {rows : List DeltaRow} {db db' : Archive}
    (hrows : ∀ r ∈ rows, (⟨r.hash, r.address, issuanceId, r.delta⟩ : BalanceDeltaRow)
      ∈ db.balanceDeltas) (haccounts : ∀ r ∈ rows, db.accounts.HasKey r.address)
    (h : insertDeltasMany issuanceId rows db = .ok db') : db' = db := by
  unfold insertDeltasMany at h
  by_cases hempty : rows.isEmpty
  · simp only [hempty] at h
    exact (Except.ok.inj h).symm
  · simp only [hempty] at h
    obtain ⟨d₁, h₁, h₂⟩ := bind_ok.mp h
    have h₁ := insertChunked_ok (fun _ _ _ h => foldl_ok h) h₁
    have h₂ := insertChunked_ok (fun _ _ _ h => (guarded_ok.mp h).2) h₂
    have hsame : d₁ = db := by
      refine foldlM_fixed (fun a ha d hd => ?_) h₁
      cases Except.ok.inj hd
      obtain ⟨r, hr, rfl⟩ := List.mem_map.mp
        (mem_distinctBy_id.mp ((List.mem_insertionSort _).mp ha))
      exact insertAccount_of_hasKey (haccounts r hr)
    rw [hsame] at h₂
    exact foldlM_fixed (fun r hr d hd =>
      upsertDelta_of_mem (hrows r ((List.mem_insertionSort _).mp hr)) hd) h₂

/-! ## The incremental route -/

/-- What a writer carries; one that throws carries nothing. -/
def carried (X : Xrpl) (p : Page) : List MappedEntry := (p.batch X).getD []

/-- The metadata of a carried entry are those of its blob. -/
theorem carried_decodes {X : Xrpl} {p : Page} {b : MappedEntry} (hb : b ∈ carried X p)
    {m : Meta} (hm : b.metadata = some m) : X.decodeMeta b.row.metaBlob = some m := by
  have hdecode : ∀ {blob}, decodeMeta X blob = some m → X.decodeMeta blob = some m := by
    intro blob h
    unfold decodeMeta at h
    exact (Option.ite_none_left_eq_some.mp h).2
  have hsweep : ∀ {tracked issuer page}, b ∈ (sweepBatch X tracked issuer page).getD [] →
      X.decodeMeta b.row.metaBlob = some m := by
    intro tracked issuer page hb
    cases hbatch : sweepBatch X tracked issuer page with
    | none => rw [hbatch] at hb; exact nomatch hb
    | some batch =>
        rw [hbatch] at hb
        obtain ⟨e, -, hmap⟩ := mem_sweepBatch hbatch hb
        obtain ⟨m', hm', -, hmeta, hrow⟩ := issuerSweepEntryMapper_row hmap
        cases hm.symm.trans hmeta
        rw [(entryRow_some hrow).2.2.1]
        exact hm'
  cases p with
  | sweep issuance job page highWater => exact hsweep hb
  | worker seen tracked job page maxLedger =>
      have hb : b ∈ ((workerBatch X seen job.address page).map (workerEntries X)).getD [] := hb
      cases hbatch : workerBatch X seen job.address page with
      | none => rw [hbatch] at hb; exact nomatch hb
      | some mapped =>
          rw [hbatch] at hb
          obtain ⟨tx, -, rfl⟩ := List.mem_map.mp hb
          exact hdecode hm
  | heal seen tracked issuer page => exact hsweep hb
  | event seen tracked msg res =>
      have hb : b ∈ ((streamEvent X seen msg res).map fun ev =>
        [(⟨eventToIngest ev, decodeMeta X ev.metaBlob⟩ : MappedEntry)]).getD [] := hb
      cases hev : streamEvent X seen msg res with
      | none => rw [hev] at hb; exact nomatch hb
      | some ev =>
          rw [hev] at hb
          cases List.mem_singleton.mp hb
          exact hdecode hm

/-- A writer that went through derived each entry it carries. -/
theorem write_derives {X : Xrpl} {p : Page} {db db' : Archive} (h : p.write X db = some db')
    {b : MappedEntry} (hb : b ∈ carried X p) :
    ∃ d d', deltaDeriver p.tracked b.row.hash b.metadata d = .ok d' := by
  cases p with
  | sweep issuance job page highWater =>
      obtain ⟨batch, hbatch, h⟩ := Option.bind_eq_some_iff.mp h
      obtain ⟨d, hd, -⟩ := sweepTransaction_ok (toOption_some.mp h)
      obtain ⟨_, _, -, h₂, -⟩ := writeBatch_ok hd
      have hb : b ∈ (sweepBatch X [issuance] job.address page).getD [] := hb
      rw [hbatch] at hb
      exact foldlM_ran hb h₂
  | worker seen tracked job page maxLedger =>
      obtain ⟨mapped, hmapped, h⟩ := Option.bind_eq_some_iff.mp h
      obtain ⟨_, _, -, h₂, -⟩ := workerTransaction_ok (toOption_some.mp h)
      have hb : b ∈ ((workerBatch X seen job.address page).map (workerEntries X)).getD [] := hb
      rw [hmapped] at hb
      exact foldlM_ran hb h₂
  | heal seen tracked issuer page =>
      obtain ⟨batch, hbatch, h⟩ := Option.bind_eq_some_iff.mp h
      have hb : b ∈ (sweepBatch X seen issuer page).getD [] := hb
      rw [hbatch] at hb
      have h := toOption_some.mp h
      unfold gapTransaction at h
      have hempty : batch.isEmpty = false := List.isEmpty_eq_false_iff_exists_mem.mpr ⟨b, hb⟩
      simp only [hempty] at h
      obtain ⟨_, -, h₂⟩ := bind_ok.mp h
      exact foldlM_ran hb h₂
  | event seen tracked msg res =>
      obtain ⟨ev, hev, h⟩ := Option.bind_eq_some_iff.mp h
      obtain ⟨_, -, h₂⟩ := bind_ok.mp (toOption_some.mp h)
      have hb : b ∈ ((streamEvent X seen msg res).map fun ev =>
        [(⟨eventToIngest ev, decodeMeta X ev.metaBlob⟩ : MappedEntry)]).getD [] := hb
      rw [hev] at hb
      cases List.mem_singleton.mp hb
      exact ⟨_, _, h₂⟩

/-- **A WRITER CHANGES AN ACCOUNT ONCE** for an entry: the statement refuses a row
    that comes twice. -/
theorem changed_nodup {X : Xrpl} {p : Page} {db db' : Archive}
    (h : p.write X db = some db') {b : MappedEntry} (hb : b ∈ carried X p)
    (hbound : ∀ m, b.metadata = some m → m.nodes.length ≤ 20000) {iss : TrackedIssuance}
    (hiss : iss ∈ p.tracked) : (changed iss b.metadata).Nodup := by
  cases hm : b.metadata with
  | none => exact List.nodup_nil
  | some m =>
      obtain ⟨d, d', hderive⟩ := write_derives h hb
      rw [hm] at hderive
      exact deltaDeriver_once (hbound m hm) hderive iss hiss

/-! ## Runs and what their writers carried -/

/-- A server, and the writers that have run. -/
structure History where
  server : Server
  written : List Page := []

def wrote : RegistrarDiscovery.Action → List Page
  | .write p => [p]
  | _ => []

/-- A step of the server; a writer is noted. -/
def step (X : Xrpl) (h : History) (a : RegistrarDiscovery.Action) : Option History :=
  (RegistrarDiscovery.step X h.server a).map fun server => ⟨server, h.written ++ wrote a⟩

/-- What holds of the ledger, whoever answers: a hash names one metadata blob, of
    bounded size. -/
def Agreed (X : Xrpl) (written : List Page) : Prop :=
  ∀ p ∈ written, ∀ b ∈ carried X p, (∀ m ∈ b.metadata, m.nodes.length ≤ 20000)
    ∧ ∀ p' ∈ written, ∀ b' ∈ carried X p',
        b.row.hash = b'.row.hash → b.row.metaBlob = b'.row.metaBlob

instance (X : Xrpl) (written : List Page) : Decidable (Agreed X written) :=
  inferInstanceAs (Decidable (∀ p ∈ written, ∀ b ∈ carried X p, _))

/-- What ties the archive to what its writers carried. -/
structure Recorded (X : Xrpl) (h : History) : Prop where
  tracked : ∀ iss ∈ h.server.tracked, iss ∈ registered h.server.db
  derivesFor : ∀ p ∈ h.written, ∀ iss ∈ p.tracked, iss ∈ registered h.server.db
  rows : ∀ t ∈ h.server.db.transactions, ∃ p ∈ h.written, ∃ b ∈ carried X p,
    b.row.hash = t.hash ∧ b.row.metaBlob = t.metaBlob
  stored : ∀ p ∈ h.written, ∀ b ∈ carried X p, h.server.db.transactions.HasKey b.row.hash
  once : ∀ p ∈ h.written, ∀ b ∈ carried X p, ∀ iss ∈ p.tracked, (changed iss b.metadata).Nodup
  derived : ∀ r ∈ h.server.db.balanceDeltas, ∃ p ∈ h.written, ∃ b ∈ carried X p,
    r ∈ derivedRows p.tracked b.row.hash b.metadata
  kept : ∀ p ∈ h.written, ∀ b ∈ carried X p,
    ∀ r ∈ derivedRows p.tracked b.row.hash b.metadata, r ∈ h.server.db.balanceDeltas
  accounts : ∀ r ∈ h.server.db.balanceDeltas, h.server.db.accounts.HasKey r.address

/-- **ONE DELTA FOR A KEY**, where the blobs agree. -/
theorem derived_eq {X : Xrpl} {db : Archive} {p p' : Page} {b b' : MappedEntry}
    (hb : b ∈ carried X p) (hb' : b' ∈ carried X p')
    (hagree : b.row.hash = b'.row.hash → b.row.metaBlob = b'.row.metaBlob)
    (hreg : ∀ iss ∈ p.tracked, iss ∈ registered db)
    (hreg' : ∀ iss ∈ p'.tracked, iss ∈ registered db)
    (honce : ∀ iss ∈ p.tracked, (changed iss b.metadata).Nodup) {r r' : BalanceDeltaRow}
    (hr : r ∈ derivedRows p.tracked b.row.hash b.metadata)
    (hr' : r' ∈ derivedRows p'.tracked b'.row.hash b'.metadata) (hkey : r.key = r'.key) :
    r = r' := by
  obtain ⟨m, hm, iss, hiss, d, hd, rfl⟩ := mem_derivedRows.mp hr
  obtain ⟨m', hm', iss', hiss', d', hd', rfl⟩ := mem_derivedRows.mp hr'
  obtain ⟨hhash, haccount, hid⟩ :
      b.row.hash = b'.row.hash ∧ d.1 = d'.1 ∧ iss.id = iss'.id := by
    simpa [BalanceDeltaRow.key] using hkey
  cases registered_eq (hreg iss hiss) (hreg' iss' hiss') hid
  have hdecode := carried_decodes hb hm
  rw [hagree hhash] at hdecode
  cases hdecode.symm.trans (carried_decodes hb' hm')
  have hnodup := honce iss hiss
  rw [hm] at hnodup
  have hsame : d = d' := List.inj_on_of_nodup_map hnodup hd hd' haccount
  rw [hhash, hsame]

/-- A step that writes no transaction. -/
structure Quiet (s s' : Server) : Prop where
  transactions : s'.db.transactions = s.db.transactions
  deltas : s'.db.balanceDeltas = s.db.balanceDeltas
  accounts : ∀ a, s.db.accounts.HasKey a → s'.db.accounts.HasKey a
  registered : ∀ iss ∈ registered s.db, iss ∈ RegistrarDiscovery.registered s'.db
  tracked : ∀ iss ∈ s'.tracked, iss ∈ s.tracked ∨ iss ∈ RegistrarDiscovery.registered s'.db

theorem Recorded.quiet {X : Xrpl} {s s' : Server} {written : List Page}
    (h : Recorded X ⟨s, written⟩) (hq : Quiet s s') : Recorded X ⟨s', written⟩ where
  tracked := fun iss hiss => (hq.tracked iss hiss).elim
    (fun hold => hq.registered iss (h.tracked iss hold)) id
  derivesFor := fun p hp iss hiss => hq.registered iss (h.derivesFor p hp iss hiss)
  rows := fun t ht => h.rows t (hq.transactions ▸ ht)
  stored := fun p hp b hb => hq.transactions.symm ▸ h.stored p hp b hb
  once := h.once
  derived := fun r hr => h.derived r (hq.deltas ▸ hr)
  kept := fun p hp b hb r hr => hq.deltas.symm ▸ h.kept p hp b hb r hr
  accounts := fun r hr => hq.accounts r.address (h.accounts r (hq.deltas ▸ hr))

/-- Every step but a writer is quiet. -/
theorem quiet_of_step {X : Xrpl} {s s' : Server} {a : RegistrarDiscovery.Action}
    (hwrote : wrote a = []) (hs : RegistrarDiscovery.step X s a = some s') : Quiet s s' := by
  cases a with
  | register row =>
      cases Option.some.inj hs
      refine ⟨rfl, rfl, fun _ h => h, fun iss hiss => ?_, fun _ h => Or.inl h⟩
      obtain ⟨i, hi, rfl⟩ := List.mem_map.mp hiss
      exact List.mem_map_of_mem (Table.mem_insertIgnore_of_mem hi)
  | refreshTracked =>
      cases Option.some.inj hs
      exact ⟨rfl, rfl, fun _ h => h, fun _ h => h, fun _ h => Or.inr h⟩
  | seedInScope =>
      cases Option.some.inj hs
      exact ⟨rfl, rfl, fun _ h => h, fun _ h => h, fun _ h => Or.inl h⟩
  | write p => exact nomatch hwrote
  | recordLedger row =>
      cases Option.some.inj hs
      exact ⟨rfl, rfl, fun _ h => h, fun _ h => h, fun _ h => Or.inl h⟩
  | discover m =>
      obtain ⟨-, hs⟩ := Option.ite_none_right_eq_some.mp hs
      cases Option.some.inj hs
      exact ⟨rfl, rfl, fun _ h => h, fun _ h => h, fun _ h => Or.inl h⟩
  | record h =>
      obtain ⟨-, hs⟩ := Option.ite_none_right_eq_some.mp hs
      obtain ⟨db, hdb, rfl⟩ := Option.map_eq_some_iff.mp hs
      have hok := toOption_some.mp hdb
      rw [RegistrarDiscovery.trackNewHolder_eq] at hok
      cases Except.ok.inj (guarded_ok.mp (guarded_ok.mp hok).2).2
      exact ⟨rfl, rfl, fun _ h => Table.hasKey_upsert.mpr (Or.inl h), fun _ h => h,
        fun _ h => Or.inl h⟩
  | enqueue h =>
      obtain ⟨-, hs⟩ := Option.ite_none_right_eq_some.mp hs
      obtain ⟨db, hdb, rfl⟩ := Option.map_eq_some_iff.mp hs
      obtain ⟨_, _, rfl⟩ := RegistrarDiscovery.enqueue_ok (toOption_some.mp hdb)
      exact ⟨rfl, rfl, fun _ h => h, fun _ h => h, fun _ h => Or.inl h⟩
  | settle h =>
      obtain ⟨-, hs⟩ := Option.ite_none_right_eq_some.mp hs
      cases Option.some.inj hs
      exact ⟨rfl, rfl, fun _ h => h, fun _ h => h, fun _ h => Or.inl h⟩
  | restart =>
      cases Option.some.inj hs
      exact ⟨rfl, rfl, fun _ h => h, fun _ h => h, fun _ h => Or.inr h⟩

/-- A writer keeps the archive tied to what was carried. -/
theorem Recorded.write {X : Xrpl} {s : Server} {written : List Page} {p : Page}
    {db : Archive} {committed : List Meta} (h : Recorded X ⟨s, written⟩)
    (hagree : Agreed X (written ++ [p])) (hoffered : Offered X s p)
    (hwrite : p.write X s.db = some db) :
    Recorded X ⟨{ s with db, committed }, written ++ [p]⟩ := by
  obtain ⟨batch, hbatch, hingests⟩ := p.write_ingests hwrite
  have hcarried : carried X p = batch := by
    unfold carried
    rw [hbatch]
    rfl
  have hregistered : registered db = registered s.db := by
    unfold registered
    rw [hingests.issuances]
  have hnew : ∀ iss ∈ p.tracked, iss ∈ registered db := by
    rw [hregistered]
    cases p with
    | sweep issuance job page highWater =>
        intro iss hiss
        cases List.mem_singleton.mp hiss
        exact hoffered.1
    | worker seen tracked job page maxLedger =>
        exact fun iss hiss => h.tracked iss (hoffered ▸ hiss)
    | heal seen tracked issuer page =>
        exact fun iss hiss => h.tracked iss (hoffered ▸ hiss)
    | event seen tracked msg res =>
        exact fun iss hiss => h.tracked iss (hoffered ▸ hiss)
  have hall : ∀ p' ∈ written ++ [p], ∀ iss ∈ p'.tracked, iss ∈ registered db := by
    intro p' hp' iss hiss
    rcases List.mem_append.mp hp' with hp' | hp'
    · exact hregistered.symm ▸ h.derivesFor p' hp' iss hiss
    · cases List.mem_singleton.mp hp'
      exact hnew iss hiss
  have hin : p ∈ written ++ [p] := List.mem_append_right _ (List.mem_singleton_self p)
  have honce : ∀ p' ∈ written ++ [p], ∀ b ∈ carried X p', ∀ iss ∈ p'.tracked,
      (changed iss b.metadata).Nodup := by
    intro p' hp' b hb iss hiss
    rcases List.mem_append.mp hp' with hp' | hp'
    · exact h.once p' hp' b hb iss hiss
    · cases List.mem_singleton.mp hp'
      exact changed_nodup hwrite hb (hagree p hin b hb).1 hiss
  have hderived : ∀ r ∈ db.balanceDeltas, ∃ p' ∈ written ++ [p], ∃ b ∈ carried X p',
      r ∈ derivedRows p'.tracked b.row.hash b.metadata := by
    intro r hr
    rcases hingests.mem_deltas hr with hold | hnone | ⟨b, hb, hrow⟩
    · obtain ⟨p', hp', b, hb, hrow⟩ := h.derived r hold
      exact ⟨p', List.mem_append_left _ hp', b, hb, hrow⟩
    · exact absurd hnone (Set.notMem_empty r)
    · exact ⟨p, hin, b, hcarried ▸ hb, hrow⟩
  refine ⟨fun iss hiss => hregistered.symm ▸ h.tracked iss hiss, hall, fun t ht => ?_,
    fun p' hp' b hb => ?_, honce, hderived, fun p' hp' b hb r hr => ?_, fun r hr => ?_⟩
  · rcases hingests.new t ht with hold | ⟨tx, htx, heq⟩ | ⟨_, _, hnone⟩
    · obtain ⟨p', hp', b, hb, hsame⟩ := h.rows t hold
      exact ⟨p', List.mem_append_left _ hp', b, hb, hsame⟩
    · obtain ⟨b, hb, rfl⟩ := List.mem_map.mp htx
      exact ⟨p, hin, b, hcarried ▸ hb, (congrArg TransactionRow.hash heq :).symm,
        (congrArg TransactionRow.metaBlob heq :).symm⟩
    · exact absurd hnone (Set.notMem_empty _)
  · rcases List.mem_append.mp hp' with hp' | hp'
    · obtain ⟨t, ht, hhash⟩ := h.stored p' hp' b hb
      exact ⟨t, hingests.kept t ht, hhash⟩
    · cases List.mem_singleton.mp hp'
      rw [hcarried] at hb
      exact hingests.stored (bare b.row.row) (Or.inl ⟨b.row, List.mem_map_of_mem hb, rfl⟩)
  · -- a row the writer puts under the key is the one that is there
    obtain ⟨rows, hrows, hfold⟩ := hingests.deltas
    rw [hfold]
    refine mem_foldl_putDelta_of ?_ (fun x hx hkey => ?_)
    · rcases List.mem_append.mp hp' with hp' | hp'
      · exact Or.inl (h.kept p' hp' b hb r hr)
      · cases List.mem_singleton.mp hp'
        rw [hcarried] at hb
        exact Or.inr ((hrows r).mpr (Or.inr ⟨b, hb, hr⟩))
    · rcases (hrows x).mp hx with hnone | ⟨b', hb', hx⟩
      · exact absurd hnone (Set.notMem_empty x)
      · have hb' : b' ∈ carried X p := hcarried ▸ hb'
        exact (derived_eq hb hb' ((hagree p' hp' b hb).2 p hin b' hb') (hall p' hp') hnew
          (honce p' hp' b hb) hr hx hkey.symm).symm
  · rw [hingests.accounts]
    rcases hingests.mem_deltas hr with hold | hnone | ⟨b, hb, hrow⟩
    · exact Or.inl (h.accounts r hold)
    · exact absurd hnone (Set.notMem_empty r)
    · exact Or.inr (Or.inr (Or.inr ⟨b, hb, r, hrow, rfl⟩))

/-- **EVERY STEP KEEPS THE RECORD**, as long as the blobs agree. -/
theorem Recorded.step {X : Xrpl} {h h' : History} {a : RegistrarDiscovery.Action}
    (hI : Agreed X h.written → Recorded X h)
    (hs : step X h a = some h') : Agreed X h'.written → Recorded X h' := by
  intro hagree
  obtain ⟨s', hs', rfl⟩ := Option.map_eq_some_iff.mp hs
  have hprefix : Agreed X h.written := fun p hp b hb =>
    ⟨(hagree p (List.mem_append_left _ hp) b hb).1, fun p' hp' b' hb' =>
      (hagree p (List.mem_append_left _ hp) b hb).2 p' (List.mem_append_left _ hp') b' hb'⟩
  have hI := hI hprefix
  cases a with
  | write p =>
      obtain ⟨hoffered, hs'⟩ := Option.ite_none_right_eq_some.mp hs'
      obtain ⟨batch, -, hs'⟩ := Option.bind_eq_some_iff.mp hs'
      obtain ⟨db, hwrite, rfl⟩ := Option.map_eq_some_iff.mp hs'
      exact hI.write hagree hoffered hwrite
  | register | refreshTracked | seedInScope | recordLedger | discover | record | enqueue
  | settle | restart =>
      have hquiet := hI.quiet (quiet_of_step rfl hs')
      rw [← List.append_nil h.written] at hquiet
      exact hquiet

/-! ## The two routes -/

/-- Every blob the batch route reads decodes; every change it reads was derived by a
    writer; and every change a writer derived is of a transaction it reads. -/
structure Rederivable (X : Xrpl) (written : List Page) (iss : TrackedIssuance)
    (db : Archive) : Prop where
  decodes : ∀ t ∈ inScopeMeta db iss.id, X.decodeMeta t.metaBlob ≠ none
  derived : ∀ t ∈ inScopeMeta db iss.id, changed iss (X.decodeMeta t.metaBlob) ≠ [] →
    ∃ p ∈ written, iss ∈ p.tracked ∧ ∃ b ∈ carried X p, b.row.hash = t.hash ∧ b.metadata ≠ none
  selected : ∀ p ∈ written, iss ∈ p.tracked → ∀ b ∈ carried X p,
    changed iss b.metadata ≠ [] → ∃ t ∈ inScopeMeta db iss.id, t.hash = b.row.hash

instance (X : Xrpl) (written : List Page) (iss : TrackedIssuance) (db : Archive) :
    Decidable (Rederivable X written iss db) :=
  decidable_of_iff
    ((∀ t ∈ inScopeMeta db iss.id, X.decodeMeta t.metaBlob ≠ none)
      ∧ (∀ t ∈ inScopeMeta db iss.id, changed iss (X.decodeMeta t.metaBlob) ≠ [] →
          ∃ p ∈ written, iss ∈ p.tracked
            ∧ ∃ b ∈ carried X p, b.row.hash = t.hash ∧ b.metadata ≠ none)
      ∧ ∀ p ∈ written, iss ∈ p.tracked → ∀ b ∈ carried X p,
          changed iss b.metadata ≠ [] → ∃ t ∈ inScopeMeta db iss.id, t.hash = b.row.hash)
    ⟨fun ⟨h₁, h₂, h₃⟩ => ⟨h₁, h₂, h₃⟩, fun h => ⟨h.1, h.2, h.3⟩⟩

/-- A writer carried the stored blob of the transaction. -/
theorem Recorded.blob {X : Xrpl} {h : History} (hI : Recorded X h) (hagree : Agreed X h.written)
    {t : TransactionRow} (ht : t ∈ h.server.db.transactions) {p : Page} (hp : p ∈ h.written)
    {b : MappedEntry} (hb : b ∈ carried X p) (hhash : b.row.hash = t.hash) :
    b.row.metaBlob = t.metaBlob := by
  obtain ⟨p', hp', b', hb', hhash', hblob⟩ := hI.rows t ht
  exact ((hagree p hp b hb).2 p' hp' b' hb' (hhash.trans hhash'.symm)).trans hblob

/-- **THE BATCH ROUTE READS WHAT WAS STORED**: its rows are the deltas of the
    issuance. -/
theorem Rederivable.rows {X : Xrpl} {h : History} {iss : TrackedIssuance}
    (hok : Rederivable X h.written iss h.server.db) (hI : Recorded X h)
    (hagree : Agreed X h.written) (hiss : iss ∈ registered h.server.db) {rows : List DeltaRow}
    (hrows : deltaRows X (issuanceDeltas iss) (inScopeMeta h.server.db iss.id) = some rows)
    {r : BalanceDeltaRow} :
    r ∈ rows.map (fun r => (⟨r.hash, r.address, iss.id, r.delta⟩ : BalanceDeltaRow))
      ↔ r ∈ h.server.db.balanceDeltas ∧ r.issuanceId = iss.id := by
  rw [List.mem_map]
  constructor
  · rintro ⟨r, hr, rfl⟩
    obtain ⟨t, ht, m, hm, d, hd, rfl⟩ := (mem_deltaRows hrows).mp hr
    have hchanged : changed iss (X.decodeMeta t.metaBlob) ≠ [] := by
      rw [hm]
      exact List.ne_nil_of_mem (List.mem_map_of_mem hd)
    obtain ⟨p, hp, htracked, b, hb, hhash, hsome⟩ := hok.derived t ht hchanged
    obtain ⟨m', hm'⟩ := Option.ne_none_iff_exists'.mp hsome
    have hblob := hI.blob hagree (mem_inScopeMeta.mp ht).1 hp hb hhash
    have hdecode := carried_decodes hb hm'
    rw [hblob] at hdecode
    cases hm.symm.trans hdecode
    refine ⟨hI.kept p hp b hb _ (mem_derivedRows.mpr ⟨m, hm', iss, htracked, d, hd, ?_⟩), rfl⟩
    rw [hhash]
  · rintro ⟨hr, hid⟩
    obtain ⟨p, hp, b, hb, hrow⟩ := hI.derived r hr
    obtain ⟨m, hm, iss', hiss', d, hd, rfl⟩ := mem_derivedRows.mp hrow
    cases registered_eq (hI.derivesFor p hp iss' hiss') hiss hid
    have hchanged : changed iss b.metadata ≠ [] := by
      rw [hm]
      exact List.ne_nil_of_mem (List.mem_map_of_mem hd)
    obtain ⟨t, ht, hhash⟩ := hok.selected p hp hiss' b hb hchanged
    have hblob := hI.blob hagree (mem_inScopeMeta.mp ht).1 hp hb hhash.symm
    refine ⟨⟨t.hash, d.1, d.2⟩, (mem_deltaRows hrows).mpr ⟨t, ht, m, ?_, d, hd, rfl⟩, ?_⟩
    · rw [← hblob]
      exact carried_decodes hb hm
    · rw [hhash]

/-- The rows of the batch route fit its statement. -/
theorem Rederivable.nodup {X : Xrpl} {h : History} {iss : TrackedIssuance}
    (hok : Rederivable X h.written iss h.server.db) (hI : Recorded X h)
    (hagree : Agreed X h.written) {rows : List DeltaRow}
    (hrows : deltaRows X (issuanceDeltas iss) (inScopeMeta h.server.db iss.id) = some rows) :
    (rows.map (fun r => (r.hash, r.address))).Nodup := by
  refine deltaRows_nodup ?_ (fun t ht m hm => ?_) hrows
  · exact (List.filter_sublist.map _).nodup h.server.db.transactions.nodup
  · by_cases hchanged : changed iss (X.decodeMeta t.metaBlob) = []
    · rw [hm] at hchanged
      have hnone : (issuanceDeltas iss m).map Prod.fst = [] := hchanged
      rw [hnone]
      exact List.nodup_nil
    · obtain ⟨p, hp, htracked, b, hb, hhash, hsome⟩ := hok.derived t ht hchanged
      obtain ⟨m', hm'⟩ := Option.ne_none_iff_exists'.mp hsome
      have hdecode := carried_decodes hb hm'
      rw [hI.blob hagree (mem_inScopeMeta.mp ht).1 hp hb hhash] at hdecode
      cases hm.symm.trans hdecode
      have honce := hI.once p hp b hb iss htracked
      rw [hm'] at honce
      exact honce

/-- Where the condition holds, the batch route gives the stored deltas. -/
theorem Rederivable.rederives {X : Xrpl} {h : History} {iss : TrackedIssuance}
    (hok : Rederivable X h.written iss h.server.db) (hI : Recorded X h)
    (hagree : Agreed X h.written) (hiss : iss ∈ registered h.server.db) :
    Rederives X iss h.server.db := by
  obtain ⟨rows, hrows⟩ : ∃ rows, deltaRows X (issuanceDeltas iss)
      (inScopeMeta h.server.db iss.id) = some rows := deltaRows_succeeds hok.decodes
  have hmem := fun r => hok.rows hI hagree hiss hrows (r := r)
  have hnodup := hok.nodup hI hagree hrows
  have hregistered : h.server.db.issuances.HasKey iss.id := by
    obtain ⟨i, hi, rfl⟩ := List.mem_map.mp hiss
    exact Table.HasKey.of_mem hi
  have hstored : ∀ r ∈ rows, h.server.db.transactions.HasKey r.hash := by
    intro r hr
    obtain ⟨t, ht, _, _, _, _, rfl⟩ := (mem_deltaRows hrows).mp hr
    exact Table.HasKey.of_mem (mem_inScopeMeta.mp ht).1
  have hthere : ∀ r ∈ rows, (⟨r.hash, r.address, iss.id, r.delta⟩ : BalanceDeltaRow)
      ∈ h.server.db.balanceDeltas :=
    fun r hr => ((hmem _).mp (List.mem_map_of_mem hr)).1
  constructor
  · have hstored' : ∀ r ∈ rows, (emptied iss.id h.server.db).transactions.HasKey r.hash := hstored
    obtain ⟨db', hdb'⟩ := insertDeltasMany_succeeds hstored' hregistered hnodup
    refine ⟨db', ?_, fun r => ?_⟩
    · rw [rederive_eq]
      exact Option.bind_eq_some_iff.mpr ⟨rows, hrows, toOption_some.mpr hdb'⟩
    · let sorted := rows.insertionSort
        (fun a b => a.hash < b.hash ∨ (a.hash = b.hash ∧ a.address ≤ b.address))
      have hperm : (sorted.map (fun r => (⟨r.hash, r.address, iss.id, r.delta⟩ :
          BalanceDeltaRow))).Perm (rows.map (fun r => ⟨r.hash, r.address, iss.id, r.delta⟩)) :=
        (List.perm_insertionSort _ rows).map _
      have hkeys : ((sorted.map (fun r => (⟨r.hash, r.address, iss.id, r.delta⟩ :
          BalanceDeltaRow))).map BalanceDeltaRow.key).Nodup := by
        refine ((hperm.map _).nodup_iff).mpr ?_
        rw [List.map_map]
        refine List.Nodup.of_map (fun k : String × String × ℕ => (k.1, k.2.1)) ?_
        rw [List.map_map]
        exact hnodup
      have hold : r ∈ (emptied iss.id h.server.db).balanceDeltas
          ↔ r ∈ h.server.db.balanceDeltas ∧ ¬ r.issuanceId = iss.id := Table.mem_deleteWhere
      rw [(insertDeltasMany_ok hdb').1, mem_foldl_putDelta hkeys, hperm.mem_iff, hmem, hold]
      constructor
      · rintro (⟨hr, -⟩ | ⟨⟨hr, -⟩, -⟩) <;> exact hr
      · intro hr
        by_cases hid : r.issuanceId = iss.id
        · exact Or.inl ⟨hr, hid⟩
        · refine Or.inr ⟨⟨hr, hid⟩, fun x hx hkey => hid ?_⟩
          obtain ⟨y, -, rfl⟩ := List.mem_map.mp hx
          exact (congrArg (fun k : String × String × ℕ => k.2.2) hkey).symm
  · obtain ⟨db', hdb'⟩ := insertDeltasMany_succeeds hstored hregistered hnodup
    have hsame : db' = h.server.db := insertDeltasMany_of_mem hthere
      (fun r hr => hI.accounts _ (hthere r hr)) hdb'
    rw [rederive_eq]
    exact Option.bind_eq_some_iff.mpr ⟨rows, hrows, toOption_some.mpr (hsame ▸ hdb')⟩

/-- Where the batch route gives the stored deltas, the condition holds. -/
theorem Rederives.rederivable {X : Xrpl} {h : History} {iss : TrackedIssuance}
    (hre : Rederives X iss h.server.db) (hI : Recorded X h)
    (hiss : iss ∈ registered h.server.db) : Rederivable X h.written iss h.server.db := by
  obtain ⟨⟨db', hdb', hsame⟩, -⟩ := hre
  rw [rederive_eq] at hdb'
  obtain ⟨rows, hrows, hinsert⟩ := Option.bind_eq_some_iff.mp hdb'
  have hrows : deltaRows X (issuanceDeltas iss) (inScopeMeta h.server.db iss.id) = some rows :=
    hrows
  have hfold := (insertDeltasMany_ok (toOption_some.mp hinsert)).1
  refine ⟨fun t ht => decodes_of_deltaRows hrows ht, fun t ht hchanged => ?_,
    fun p hp htracked b hb hchanged => ?_⟩
  · -- a row under the key is stored, and some writer derived it
    cases hm : X.decodeMeta t.metaBlob with
    | none => exact absurd hm (decodes_of_deltaRows hrows ht)
    | some m =>
        rw [hm] at hchanged
        have hne : (issuanceDeltas iss m) ≠ [] := fun hnil => hchanged (congrArg _ hnil)
        obtain ⟨d, hd⟩ := List.exists_mem_of_ne_nil _ hne
        have hrow : (⟨t.hash, d.1, d.2⟩ : DeltaRow) ∈ rows :=
          (mem_deltaRows hrows).mpr ⟨t, ht, m, hm, d, hd, rfl⟩
        have hkey : db'.balanceDeltas.HasKey (t.hash, d.1, iss.id) := by
          rw [hfold]
          refine Table.hasKey_foldl_upsert.mpr (Or.inr ⟨_, List.mem_map_of_mem
            ((List.mem_insertionSort _).mpr hrow), rfl⟩)
        obtain ⟨r, hr, hrkey⟩ := hkey
        obtain ⟨p, hp, b, hb, hderived⟩ := hI.derived r ((hsame r).mp hr)
        obtain ⟨m', hm', iss', hiss', d', -, rfl⟩ := mem_derivedRows.mp hderived
        obtain ⟨hhash, -, hid⟩ : b.row.hash = t.hash ∧ d'.1 = d.1 ∧ iss'.id = iss.id := by
          simpa [BalanceDeltaRow.key] using hrkey
        cases registered_eq (hI.derivesFor p hp iss' hiss') hiss hid
        exact ⟨p, hp, hiss', b, hb, hhash, fun hnone => by cases hm'.symm.trans hnone⟩
  · cases hm : b.metadata with
    | none => rw [hm] at hchanged; exact absurd rfl hchanged
    | some m =>
        rw [hm] at hchanged
        have hne : (issuanceDeltas iss m) ≠ [] := fun hnil => hchanged (congrArg _ hnil)
        obtain ⟨d, hd⟩ := List.exists_mem_of_ne_nil _ hne
        have hr := (hsame _).mpr (hI.kept p hp b hb ⟨b.row.hash, d.1, iss.id, d.2⟩
          (mem_derivedRows.mpr ⟨m, hm, iss, htracked, d, hd, rfl⟩))
        rw [hfold] at hr
        rcases mem_of_mem_foldl_putDelta hr with hr | hr
        · obtain ⟨x, hx, heq⟩ := List.mem_map.mp hr
          obtain ⟨t, ht, _, _, _, _, rfl⟩ :=
            (mem_deltaRows hrows).mp ((List.mem_insertionSort _).mp hx)
          exact ⟨t, ht, congrArg BalanceDeltaRow.hash heq⟩
        · exact absurd rfl (Table.mem_deleteWhere.mp hr).2

/-- A server without transactions. -/
structure Started (h : History) : Prop where
  written : h.written = []
  transactions : h.server.db.transactions = Table.empty
  deltas : h.server.db.balanceDeltas = Table.empty
  tracked : ∀ iss ∈ h.server.tracked, iss ∈ registered h.server.db

theorem Started.recorded {X : Xrpl} {h : History} (hs : Started h) : Recorded X h where
  tracked := hs.tracked
  derivesFor := fun _ hp => nomatch hs.written ▸ hp
  rows := fun t ht => absurd (hs.transactions ▸ ht) (Table.not_mem_empty t)
  stored := fun _ hp => nomatch hs.written ▸ hp
  once := fun _ hp => nomatch hs.written ▸ hp
  derived := fun r hr => absurd (hs.deltas ▸ hr) (Table.not_mem_empty r)
  kept := fun _ hp => nomatch hs.written ▸ hp
  accounts := fun r hr => absurd (hs.deltas ▸ hr) (Table.not_mem_empty r)

/-- **WHEN DERIVED DATA IS RE-DERIVABLE**: at the end of every run, for every registered
    issuance, exactly when the blobs the batch route reads decode and the changes it
    reads are those that writers derived. -/
theorem rederives_iff (X : Xrpl) {h₀ h : History} (hstart : Started h₀)
    (hrun : Steps (step X) anyStep h₀ h) (hagree : Agreed X h.written)
    {iss : TrackedIssuance} (hiss : iss ∈ registered h.server.db) :
    Rederives X iss h.server.db ↔ Rederivable X h.written iss h.server.db := by
  have hI : Recorded X h := hrun.inv (fun h => Agreed X h.written → Recorded X h)
    (fun _ => hstart.recorded) (fun _ _ _ hI _ hs => Recorded.step hI hs) hagree
  exact ⟨fun hre => hre.rederivable hI hiss, fun hok => hok.rederives hI hagree hiss⟩

/-! ## A payment, and a blob that does not decode -/

/-- The sweep, the worker and the tail carry the payment, and its two changes are
    derived again. -/
theorem rederives_iff_pay : ∃ h : History, h.server.db.balanceDeltas.rows.length = 3
    ∧ Rederives payXrpl payIssuance h.server.db := by
  have hrun : (run (step payXrpl) ⟨RegistrarDiscovery.payServer, []⟩
      RegistrarDiscovery.discoveryRun).map (fun h => decide (
        h.server.db.balanceDeltas.rows.length = 3 ∧ Agreed payXrpl h.written
          ∧ payIssuance ∈ registered h.server.db
          ∧ Rederivable payXrpl h.written payIssuance h.server.db)) = some true := by
    decide +kernel
  obtain ⟨h, hsteps, hend⟩ := Steps.exists_of_run _ hrun
  obtain ⟨hlength, hagree, hiss, hok⟩ := of_decide_eq_true hend
  have hstart : Started ⟨RegistrarDiscovery.payServer, []⟩ := ⟨rfl, rfl, rfl, by decide⟩
  exact ⟨h, hlength,
    (rederives_iff payXrpl hstart hsteps hagree hiss).mpr hok⟩

/-- `rAlice` spends again, and the fetched metadata blob does not decode. -/
def garbledEvent : Page :=
  .event [payIssuance] [payIssuance]
    ⟨"t3", some { affectedNodes := some [spending "rAlice" "3" "2"] }, some 202⟩
    ⟨some "t3", some "garbled", some 202, ⟨"rippled", "now"⟩⟩

/-- The tail stores the transaction without its deltas; the sweep of the issuance has
    completed, and the batch route throws. -/
theorem garbled_blob_stops_rederivation : ∃ h : History,
    Steps (step payXrpl) anyStep ⟨RegistrarDiscovery.payServer, []⟩ h
      ∧ ((getByAccount 1 "rIssuer" h.server.db).map (·.status)) = some .completed
      ∧ rederive payXrpl payIssuance h.server.db = none
      ∧ ¬ Rederives payXrpl payIssuance h.server.db := by
  have hrun : (run (step payXrpl) ⟨RegistrarDiscovery.payServer, []⟩
      [.write (.sweep payIssuance sweepJob issuerPage 201), .write garbledEvent]).map
      (fun h => decide (
        ((getByAccount 1 "rIssuer" h.server.db).map (·.status)) = some .completed
          ∧ (rederive payXrpl payIssuance h.server.db).isNone)) = some true := by
    decide +kernel
  obtain ⟨h, hsteps, hend⟩ := Steps.exists_of_run _ hrun
  obtain ⟨hstatus, hnone⟩ := of_decide_eq_true hend
  have hnone := Option.isNone_iff_eq_none.mp hnone
  refine ⟨h, hsteps, hstatus, hnone, fun hre => ?_⟩
  exact nomatch hnone.symm.trans hre.2

end RegistrarRederivation
