import Registrar.LiveTail

/-! # What the writers store

    Five writers store upstream transactions: the issuer sweep, the per-holder
    worker, the tail, the gap heal and the heal after a registration.  `Writes`
    says what such a write does to the two tables a balance is read from, and
    each writer's database transaction is shown to be one.

    A write keeps what is stored because an upstream transaction always derives
    the same deltas. -/

namespace RegistrarWritten

open KeyedTable Statements RegistrarMetadata RegistrarArchive RegistrarIngest
open RegistrarBackfill RegistrarFraming RegistrarSweep RegistrarStored RegistrarTail

/-! ## Upstream -/

/-- The upstream node: the entries an account's `account_tx` lists once they are
    validated, and which of them lie before the place a marker names. -/
structure Upstream where
  accountTx : String → List BinaryTxEntry
  passed : String → BinaryTxEntry → Bool

def Upstream.Has (U : Upstream) (e : BinaryTxEntry) : Prop := ∃ a, e ∈ U.accountTx a

/-- The entry lies before the marker; nothing lies before no marker. -/
def Upstream.Passed (U : Upstream) (marker : Option String) (e : BinaryTxEntry) : Prop :=
  match marker with
  | none => False
  | some m => U.passed m e = true

instance (U : Upstream) (marker : Option String) (e : BinaryTxEntry) :
    Decidable (U.Passed marker e) := by
  cases marker with
  | none => exact inferInstanceAs (Decidable False)
  | some m => exact inferInstanceAs (Decidable (_ = _))

/-- A page with which `account_tx` can answer when ledgers up to `validated` are:
    it lists entries of the range, and leaves none out before its marker. -/
def Answers (U : Upstream) (validated : ℕ) (account : String) (range : LedgerRange)
    (marker : Option String) (page : BackfillPage) : Prop :=
  (∀ e ∈ page.entries, e ∈ U.accountTx account ∧ range.fromLedger ≤ e.ledgerIndex
      ∧ e.ledgerIndex ≤ validated)
    ∧ ∀ e ∈ U.accountTx account, range.Covers e.ledgerIndex → e.ledgerIndex ≤ validated →
      U.Passed marker e ∨ e ∈ page.entries
        ∨ (page.marker ≠ none ∧ ¬ U.Passed page.marker e)

instance (U : Upstream) (validated : ℕ) (account : String) (range : LedgerRange)
    (marker : Option String) (page : BackfillPage) :
    Decidable (Answers U validated account range marker page) :=
  inferInstanceAs (Decidable (_ ∧ _))

/-- What an answer says of an entry in its range: it was passed before, it is on
    the page, or the marker of the page has not passed it. -/
theorem Answers.listed {U : Upstream} {validated : ℕ} {account : String}
    {range : LedgerRange} {marker : Option String} {page : BackfillPage}
    (h : Answers U validated account range marker page) {e : BinaryTxEntry}
    (he : e ∈ U.accountTx account) (hrange : range.Covers e.ledgerIndex)
    (hvalidated : e.ledgerIndex ≤ validated)
    (hpassed : page.marker = none ∨ U.Passed page.marker e) :
    U.Passed marker e ∨ e ∈ page.entries := by
  rcases h.2 e he hrange hvalidated with hp | hp | ⟨hsome, hnot⟩
  · exact Or.inl hp
  · exact Or.inr hp
  · rcases hpassed with hnone | hyes
    · exact absurd hnone hsome
    · exact absurd hyes hnot

section Upstream

variable (X : Xrpl)

/-- The transaction touches a holder of the issuance. -/
def Touches (iss : TrackedIssuance) (e : BinaryTxEntry) : Prop :=
  ∃ m, decodeMeta X e.metaBlob = some m ∧ holdersInMeta m [iss] ≠ []

/-- What holds of the ledger and of the node's answers: metadata is not empty and
    of bounded size, a hash names one entry, and an issuer's `account_tx` lists what
    touches its issuances. -/
structure Upstream.Sound (U : Upstream) : Prop where
  blob : ∀ {e}, U.Has e → e.metaBlob ≠ ""
  hash : ∀ {e e'}, U.Has e → U.Has e' →
    X.hashSignedTx e.txBlob = X.hashSignedTx e'.txBlob → e = e'
  lists : ∀ {e iss issuer}, U.Has e → Touches X iss e →
    trackedIssuerOf X iss = some issuer → e ∈ U.accountTx issuer
  bounded : ∀ {e m}, U.Has e → decodeMeta X e.metaBlob = some m → m.nodes.length ≤ 20000

/-- The delta rows of an entry for the given issuances. -/
def entryDeltas (issuances : List TrackedIssuance) (e : BinaryTxEntry) :
    List BalanceDeltaRow :=
  derivedRows issuances (X.hashSignedTx e.txBlob) (decodeMeta X e.metaBlob)

theorem mem_entryDeltas {issuances : List TrackedIssuance} {e : BinaryTxEntry}
    {r : BalanceDeltaRow} :
    r ∈ entryDeltas X issuances e ↔
      ∃ m, decodeMeta X e.metaBlob = some m ∧ ∃ iss ∈ issuances,
        ∃ d ∈ issuanceDeltas iss m, r = ⟨X.hashSignedTx e.txBlob, d.1, iss.id, d.2⟩ :=
  mem_derivedRows

/-- **ONE ENTRY, ONE DELTA**: two delta rows of upstream entries with one key are
    one row. -/
theorem Upstream.Sound.delta_eq {U : Upstream} (hU : U.Sound X) {e e' : BinaryTxEntry}
    (he : U.Has e) (he' : U.Has e') {issuances : List TrackedIssuance}
    {iss : TrackedIssuance} (hid : ∀ j ∈ issuances, j.id = iss.id → j = iss)
    (honce : ∀ m, decodeMeta X e'.metaBlob = some m → ∀ i ∈ issuances,
      ((issuanceDeltas i m).map Prod.fst).Nodup)
    {r r' : BalanceDeltaRow} (hr : r ∈ entryDeltas X [iss] e)
    (hr' : r' ∈ entryDeltas X issuances e') (hkey : r'.key = r.key) : r' = r := by
  obtain ⟨m, hm, i, hi, d, hd, rfl⟩ := (mem_entryDeltas X).mp hr
  obtain ⟨m', hm', j, hj, d', hd', rfl⟩ := (mem_entryDeltas X).mp hr'
  cases List.mem_singleton.mp hi
  obtain ⟨hhash, haccount, hissuance⟩ :
      X.hashSignedTx e'.txBlob = X.hashSignedTx e.txBlob ∧ d'.1 = d.1 ∧ j.id = iss.id := by
    simpa [BalanceDeltaRow.key] using hkey
  cases hU.hash he' he hhash
  cases hid j hj hissuance
  cases hm.symm.trans hm'
  have hsame : d' = d := List.inj_on_of_nodup_map (honce m hm' iss hj) hd' hd haccount
  rw [hsame]

/-! ## Stored transactions -/

/-- The transaction is stored. -/
def Stored (db : Archive) (e : BinaryTxEntry) : Prop :=
  db.transactions.HasKey (X.hashSignedTx e.txBlob)

instance (db : Archive) (e : BinaryTxEntry) : Decidable (Stored X db e) :=
  inferInstanceAs (Decidable (Table.HasKey _ _))

/-- The transaction is stored with its deltas for the issuance. -/
def StoredFor (db : Archive) (iss : TrackedIssuance) (e : BinaryTxEntry) : Prop :=
  Stored X db e ∧ ∀ r ∈ entryDeltas X [iss] e, r ∈ db.balanceDeltas

/-- What a write of upstream entries does, their deltas derived for the given
    issuances. -/
structure Writes (issuances : List TrackedIssuance) (es : List BinaryTxEntry)
    (db db' : Archive) : Prop where
  kept : ∀ hash, db.transactions.HasKey hash → db'.transactions.HasKey hash
  stored : ∀ e ∈ es, Stored X db' e
  deltas : ∃ rows : List BalanceDeltaRow, db'.balanceDeltas = rows.foldl putDelta db.balanceDeltas
    ∧ (∀ r ∈ rows, ∃ e ∈ es, r ∈ entryDeltas X issuances e)
    ∧ ∀ e ∈ es, ∀ r ∈ entryDeltas X issuances e, r ∈ rows
  once : ∀ e ∈ es, ∀ m, decodeMeta X e.metaBlob = some m → m.nodes.length ≤ 20000 →
    ∀ iss ∈ issuances, ((issuanceDeltas iss m).map Prod.fst).Nodup

end Upstream

/-- Folding upserts leaves a row that was there or is upserted, when no other
    row has its key. -/
theorem mem_foldl_putDelta_of {rows : List BalanceDeltaRow} {t : Table BalanceDeltaRow.key}
    {r : BalanceDeltaRow} (h : r ∈ t ∨ r ∈ rows) (hone : ∀ x ∈ rows, x.key = r.key → x = r) :
    r ∈ rows.foldl putDelta t := by
  induction rows generalizing t with
  | nil =>
      rcases h with h | h
      · exact h
      · exact nomatch h
  | cons x rows ih =>
      have hrest := fun y hy => hone y (List.mem_cons_of_mem x hy)
      by_cases hxr : x = r
      · exact ih (Or.inl (mem_putDelta.mpr (Or.inl hxr.symm))) hrest
      · rcases h with h | h
        · refine ih (Or.inl (mem_putDelta.mpr (Or.inr ⟨h, ?_⟩))) hrest
          exact fun hk => hxr (hone x List.mem_cons_self hk.symm)
        · rcases List.mem_cons.mp h with h | h
          · exact absurd h.symm hxr
          · exact ih (Or.inr h) hrest

section Stored

variable {X : Xrpl} {U : Upstream} {issuances : List TrackedIssuance}
  {es : List BinaryTxEntry} {db db' : Archive}

/-- A write keeps what is stored with its deltas. -/
theorem Writes.keeps (h : Writes X issuances es db db') (hU : U.Sound X)
    (hes : ∀ e ∈ es, U.Has e) {iss : TrackedIssuance}
    (hid : ∀ j ∈ issuances, j.id = iss.id → j = iss) {e : BinaryTxEntry} (he : U.Has e)
    (hst : StoredFor X db iss e) : StoredFor X db' iss e := by
  obtain ⟨rows, hrows, hfrom, -⟩ := h.deltas
  refine ⟨h.kept _ hst.1, fun r hr => ?_⟩
  rw [hrows]
  refine mem_foldl_putDelta_of (Or.inl (hst.2 r hr)) ?_
  intro x hx hkey
  obtain ⟨e', he', hx'⟩ := hfrom x hx
  have honce := fun m hm => h.once e' he' m hm (hU.bounded (hes e' he') hm)
  exact hU.delta_eq X he (hes e' he') hid honce hr hx' hkey

/-- A write stores its entries with their deltas for each of its issuances. -/
theorem Writes.storesFor (h : Writes X issuances es db db') (hU : U.Sound X)
    (hes : ∀ e ∈ es, U.Has e) {iss : TrackedIssuance} (hiss : iss ∈ issuances)
    (hid : ∀ j ∈ issuances, j.id = iss.id → j = iss) {e : BinaryTxEntry} (he : e ∈ es) :
    StoredFor X db' iss e := by
  obtain ⟨rows, hrows, hfrom, hall⟩ := h.deltas
  refine ⟨h.stored e he, fun r hr => ?_⟩
  have hr' : r ∈ entryDeltas X issuances e := by
    obtain ⟨m, hm, i, hi, d, hd, rfl⟩ := (mem_entryDeltas X).mp hr
    exact (mem_entryDeltas X).mpr ⟨m, hm, i, List.mem_singleton.mp hi ▸ hiss, d, hd, rfl⟩
  rw [hrows]
  refine mem_foldl_putDelta_of (Or.inr (hall e he r hr')) ?_
  intro x hx hkey
  obtain ⟨e', he', hx'⟩ := hfrom x hx
  have honce := fun m hm => h.once e' he' m hm (hU.bounded (hes e' he') hm)
  exact hU.delta_eq X (hes e he) (hes e' he') hid honce hr hx' hkey

/-- Nothing written. -/
theorem Writes.refl (issuances : List TrackedIssuance) (db : Archive) :
    Writes X issuances [] db db where
  kept := fun _ h => h
  stored := fun _ h => nomatch h
  deltas := ⟨[], rfl, fun _ h => (nomatch h), fun _ h => (nomatch h)⟩
  once := fun _ h => nomatch h

/-- What leaves the two tables alone does not show. -/
theorem Writes.of_same (h : Writes X issuances es db db') {d : Archive}
    (htx : d.transactions = db'.transactions) (hdeltas : d.balanceDeltas = db'.balanceDeltas) :
    Writes X issuances es db d where
  kept := by rw [htx]; exact h.kept
  stored := by unfold Stored; rw [htx]; exact h.stored
  deltas := by rw [hdeltas]; exact h.deltas
  once := h.once

end Stored

/-! ## What storing leaves alone -/

/-- The tables and sequences no writer of transactions touches. -/
structure Untouched where
  issuances : Table IssuanceRow.id
  coverage : List CoverageRow
  backfillJob : Table BackfillJobRow.key
  ledgers : Table LedgerRow.ledgerIndex
  issuanceSeq : ℕ
  jobSeq : ℕ

def untouched (db : Archive) : Untouched :=
  ⟨db.issuances, db.coverage, db.backfillJob, db.ledgers, db.issuanceSeq, db.jobSeq⟩

/-- Beside what it stores, a writer only adds members. -/
structure Beside (db db' : Archive) : Prop where
  untouched : untouched db' = untouched db
  members : ∀ k, db.accountIssuance.HasKey k → db'.accountIssuance.HasKey k

theorem Beside.refl (db : Archive) : Beside db db := ⟨rfl, fun _ h => h⟩

theorem Beside.trans {a b c : Archive} (h₁ : Beside a b) (h₂ : Beside b c) : Beside a c :=
  ⟨h₂.untouched.trans h₁.untouched, fun k h => h₂.members k (h₁.members k h)⟩

theorem Beside.foldlM {α : Type} {f : Archive → α → Except DbError Archive}
    (hf : ∀ a db db', f db a = .ok db' → Beside db db') {l : List α} {db db' : Archive}
    (h : l.foldlM f db = .ok db') : Beside db db' :=
  foldlM_rel (R := Beside) Beside.refl (fun _ _ _ => Beside.trans)
    (fun a _ s t hs => hf a s t hs) h

theorem beside_insertAccountTransaction {row : AccountTransactionRow} {db db' : Archive}
    (h : insertAccountTransaction row db = .ok db') : Beside db db' := by
  cases Except.ok.inj (guarded_ok.mp (guarded_ok.mp h).2).2
  exact ⟨rfl, fun _ h => h⟩

theorem beside_insertTransactionRowsMany {txs : List IngestTransaction} {db db' : Archive}
    (h : insertTransactionRowsMany txs db = .ok db') : Beside db db' := by
  unfold insertTransactionRowsMany at h
  by_cases hempty : txs.isEmpty
  · simp only [hempty] at h
    cases Except.ok.inj h
    exact Beside.refl db
  · simp only [hempty] at h
    obtain ⟨d₁, h₁, h⟩ := bind_ok.mp h
    obtain ⟨d₂, h₂, h₃⟩ := bind_ok.mp h
    have h₁ := insertChunked_ok (fun _ _ _ h => foldl_ok h) h₁
    have h₂ : _ = Except.ok d₂ :=
      insertChunked_ok (fun _ _ _ h => foldl_ok (guarded_ok.mp h).2) h₂
    have h₃ := insertChunked_ok (fun _ _ _ h => h) h₃
    refine Beside.trans (Beside.foldlM ?_ h₁) (Beside.trans (Beside.foldlM ?_ h₂)
      (Beside.foldlM (fun link d d' hd => beside_insertAccountTransaction hd) h₃))
    · intro tx d d' hd
      cases Except.ok.inj hd
      exact ⟨rfl, fun _ h => h⟩
    · intro r d d' hd
      cases Except.ok.inj hd
      exact ⟨rfl, fun _ h => h⟩

theorem beside_insertDeltasMany {issuanceId : ℕ} {rows : List DeltaRow} {db db' : Archive}
    (h : insertDeltasMany issuanceId rows db = .ok db') : Beside db db' := by
  unfold insertDeltasMany at h
  by_cases hempty : rows.isEmpty
  · simp only [hempty] at h
    cases Except.ok.inj h
    exact Beside.refl db
  · simp only [hempty] at h
    obtain ⟨d₁, h₁, h₂⟩ := bind_ok.mp h
    have h₁ := insertChunked_ok (fun _ _ _ h => foldl_ok h) h₁
    have h₂ := insertChunked_ok (fun _ _ _ h => (guarded_ok.mp h).2) h₂
    refine Beside.trans (Beside.foldlM ?_ h₁) (Beside.foldlM ?_ h₂)
    · intro a d d' hd
      cases Except.ok.inj hd
      exact ⟨rfl, fun _ h => h⟩
    · intro r d d' hd
      cases Except.ok.inj (guarded_ok.mp (guarded_ok.mp (guarded_ok.mp hd).2).2).2
      exact ⟨rfl, fun _ h => h⟩

theorem beside_deltaDeriver {issuances : List TrackedIssuance} {hash : String}
    {metadata : Option Meta} {db db' : Archive}
    (h : deltaDeriver issuances hash metadata db = .ok db') : Beside db db' := by
  cases metadata with
  | none =>
      cases Except.ok.inj h
      exact Beside.refl db
  | some m =>
      have h : issuances.foldlM (fun db iss => insertDeltasMany iss.id
        ((issuanceDeltas iss m).map (fun d => ⟨hash, d.1, d.2⟩)) db) db = .ok db' := h
      exact Beside.foldlM (fun iss d d' hd => beside_insertDeltasMany hd) h

theorem beside_recordHolder {issuanceId ledger : ℕ} {address : String} {db db' : Archive}
    (h : recordHolder issuanceId address ledger db = .ok db') : Beside db db' := by
  obtain ⟨-, -, rfl⟩ := recordHolder_ok.mp h
  exact ⟨rfl, fun k hk => Table.hasKey_upsert.mpr (Or.inl hk)⟩

/-! ## A batch -/

/-- The row is that of the entry, with its metadata. -/
def IsRowOf (X : Xrpl) (e : BinaryTxEntry) (b : MappedEntry) : Prop :=
  b.row.hash = X.hashSignedTx e.txBlob ∧ b.metadata = decodeMeta X e.metaBlob

instance (X : Xrpl) (e : BinaryTxEntry) (b : MappedEntry) : Decidable (IsRowOf X e b) :=
  inferInstanceAs (Decidable (_ ∧ _))

/-- Inserting the rows of a batch and deriving its deltas writes its entries. -/
theorem writes_batch {X : Xrpl} {issuances : List TrackedIssuance}
    {batch : List MappedEntry} {es : List BinaryTxEntry} {db d db' : Archive}
    (hrows : insertTransactionRowsMany (batch.map (·.row)) db = .ok d)
    (hderive : batch.foldlM
      (fun db b => deltaDeriver issuances b.row.hash b.metadata db) d = .ok db')
    (hof : ∀ b ∈ batch, ∃ e ∈ es, IsRowOf X e b)
    (hall : ∀ e ∈ es, ∃ b ∈ batch, IsRowOf X e b) :
    Writes X issuances es db db' ∧ Beside db db' := by
  obtain ⟨htx, hdeltas, -⟩ := insertTransactionRowsMany_ok hrows
  have htx' : db'.transactions = d.transactions :=
    foldlM_same (g := Archive.transactions)
      (fun b d d' hd => (deltaDeriver_ok hd).2.1) hderive
  have hdeltas' : db'.balanceDeltas = (batchRows issuances batch).foldl putDelta
      db.balanceDeltas := by
    rw [foldlM_field (g := Archive.balanceDeltas)
      (fun t (b : MappedEntry) =>
        (derivedRows issuances b.row.hash b.metadata).foldl putDelta t)
      (fun b d d' hd => (deltaDeriver_ok hd).1) hderive, hdeltas]
    exact List.foldl_flatMap.symm
  have hsame : ∀ {e b}, IsRowOf X e b →
      derivedRows issuances b.row.hash b.metadata = entryDeltas X issuances e := by
    rintro e b ⟨hhash, hmeta⟩
    rw [hhash, hmeta]
    rfl
  refine ⟨⟨?_, ?_, ⟨batchRows issuances batch, hdeltas', ?_, ?_⟩, ?_⟩, ?_⟩
  · intro hash h
    rw [htx', htx]
    exact Table.hasKey_foldl_insertIgnore.mpr (Or.inl h)
  · intro e he
    obtain ⟨b, hb, hbe⟩ := hall e he
    obtain ⟨t, ht, hhash⟩ := exists_mem_txRows (List.mem_map_of_mem hb)
    show db'.transactions.HasKey _
    rw [htx', htx]
    exact Table.hasKey_foldl_insertIgnore.mpr (Or.inr ⟨t, ht, hhash.trans hbe.1⟩)
  · intro r hr
    obtain ⟨b, hb, hr⟩ := List.mem_flatMap.mp hr
    obtain ⟨e, he, hbe⟩ := hof b hb
    exact ⟨e, he, hsame hbe ▸ hr⟩
  · intro e he r hr
    obtain ⟨b, hb, hbe⟩ := hall e he
    exact List.mem_flatMap.mpr ⟨b, hb, (hsame hbe).symm ▸ hr⟩
  · intro e he m hm hbound
    obtain ⟨b, hb, hbe⟩ := hall e he
    obtain ⟨u, v, hran⟩ := foldlM_ran hb hderive
    rw [hbe.2, hm] at hran
    exact deltaDeriver_once hbound hran
  · exact (beside_insertTransactionRowsMany hrows).trans
      (Beside.foldlM (fun b d d' hd => beside_deltaDeriver hd) hderive)

/-- The entries of a page that a batch has rows of. -/
def keptEntries (X : Xrpl) (page : BackfillPage) (batch : List MappedEntry) :
    List BinaryTxEntry :=
  page.entries.filter (fun e => ∃ b ∈ batch, IsRowOf X e b)

theorem mem_keptEntries {X : Xrpl} {page : BackfillPage} {batch : List MappedEntry}
    {e : BinaryTxEntry} :
    e ∈ keptEntries X page batch ↔ e ∈ page.entries ∧ ∃ b ∈ batch, IsRowOf X e b := by
  unfold keptEntries
  rw [List.mem_filter, decide_eq_true_eq]

/-! ## The batch of an issuer's page -/

/-- Tracking more issuances, a transaction touches no fewer holders. -/
theorem holdersInMeta_mono {m : Meta} {iss : TrackedIssuance} {tracked : List TrackedIssuance}
    (hiss : iss ∈ tracked) {d : DetectedHolder} (hd : d ∈ holdersInMeta m [iss]) :
    d ∈ holdersInMeta m tracked := by
  obtain ⟨w, hw, hdw⟩ := mem_holdersInMeta.mp hd
  refine mem_holdersInMeta.mpr ⟨w, hw, (?_ : d ∈ _)⟩
  unfold nodeHolders at hdw ⊢
  split at hdw
  · exact nomatch hdw
  · obtain ⟨i, hi, hdi⟩ := List.mem_filterMap.mp hdw
    exact List.mem_filterMap.mpr ⟨i, List.mem_singleton.mp hi ▸ hiss, hdi⟩

theorem holdersInMeta_ne {m : Meta} {iss : TrackedIssuance} {tracked : List TrackedIssuance}
    (hiss : iss ∈ tracked) (h : holdersInMeta m [iss] ≠ []) :
    holdersInMeta m tracked ≠ [] := by
  obtain ⟨d, hd⟩ := List.exists_mem_of_ne_nil _ h
  exact List.ne_nil_of_mem (holdersInMeta_mono hiss hd)

theorem decodeMeta_of_ne {X : Xrpl} {blob : String} (h : blob ≠ "") :
    decodeMeta X blob = X.decodeMeta blob :=
  if_neg h

/-- The batch of a page has a row of an entry for each of its rows, and a row of
    each entry that touches a tracked issuance. -/
theorem sweepBatch_rows {X : Xrpl} {tracked : List TrackedIssuance} {issuer : String}
    {page : BackfillPage} {batch : List MappedEntry}
    (h : sweepBatch X tracked issuer page = some batch)
    (hblob : ∀ e ∈ page.entries, e.metaBlob ≠ "") :
    (∀ b ∈ batch, ∃ e ∈ keptEntries X page batch, IsRowOf X e b)
      ∧ ∀ e ∈ page.entries, ∀ iss ∈ tracked, Touches X iss e →
          e ∈ keptEntries X page batch := by
  have hrow : ∀ {e b}, e ∈ page.entries →
      issuerSweepEntryMapper X tracked issuer page.provenance e = some (some b) →
      IsRowOf X e b := by
    intro e b he hb
    obtain ⟨m, hm, -, hmeta, hhash, -⟩ := issuerSweepEntryMapper_some hb
    exact ⟨hhash, by rw [hmeta, decodeMeta_of_ne (hblob e he), hm]⟩
  constructor
  · intro b hb
    obtain ⟨e, he, hmap⟩ := mem_sweepBatch h hb
    exact ⟨e, mem_keptEntries.mpr ⟨he, b, hb, hrow he hmap⟩, hrow he hmap⟩
  · rintro e he iss hiss ⟨m, hm, htouch⟩
    rw [decodeMeta_of_ne (hblob e he)] at hm
    obtain ⟨mapped, hmapped, rfl⟩ := Option.map_eq_some_iff.mp h
    obtain ⟨o, ho, hmap⟩ := exists_of_mapM_some hmapped he
    cases o with
    | none =>
        obtain ⟨m', hm', hnone⟩ := Option.bind_eq_some_iff.mp hmap
        cases hm.symm.trans hm'
        rw [if_neg (holdersInMeta_ne hiss htouch)] at hnone
        obtain ⟨row, -, hrow⟩ := Option.map_eq_some_iff.mp hnone
        exact nomatch hrow
    | some b =>
        have hb : b ∈ mapped.filterMap id := List.mem_filterMap.mpr ⟨some b, ho, rfl⟩
        exact mem_keptEntries.mpr ⟨he, b, hb, hrow he hmap⟩

/-- **WHAT A SWEEP'S PAGE WRITES**: its entries that touch the issuance. -/
theorem writes_writeBatch {X : Xrpl} {issuance : TrackedIssuance} {issuanceId : ℕ}
    {issuer : String} {page : BackfillPage} {batch : List MappedEntry} {db db' : Archive}
    (hbatch : sweepBatch X [issuance] issuer page = some batch)
    (hblob : ∀ e ∈ page.entries, e.metaBlob ≠ "")
    (h : writeBatch (deltaDeriver [issuance]) issuanceId issuer batch db = .ok db') :
    Writes X [issuance] (keptEntries X page batch) db db' ∧ Beside db db' := by
  obtain ⟨d₁, d₂, h₁, h₂, h₃⟩ := writeBatch_ok h
  obtain ⟨hof, -⟩ := sweepBatch_rows hbatch hblob
  obtain ⟨hwrites, hbeside⟩ := writes_batch h₁ h₂ hof
    (fun e he => (mem_keptEntries.mp he).2)
  have hholders := Beside.foldlM (f := fun db (e : String × ℕ) =>
    recordHolder issuanceId e.1 e.2 db) (fun e d d' hd => beside_recordHolder hd) h₃
  refine ⟨hwrites.of_same ?_ ?_, hbeside.trans hholders⟩
  · refine foldlM_same (g := Archive.transactions) (fun e d d' hd => ?_) h₃
    obtain ⟨-, -, rfl⟩ := recordHolder_ok.mp hd
    rfl
  · refine foldlM_same (g := Archive.balanceDeltas) (fun e d d' hd => ?_) h₃
    obtain ⟨-, -, rfl⟩ := recordHolder_ok.mp hd
    rfl

/-- **WHAT A HEAL'S PAGE WRITES**: its entries that touch an issuance it was
    mapped with, their deltas for the issuances tracked by then. -/
theorem writes_gapTransaction {X : Xrpl} {seen tracked : List TrackedIssuance}
    {issuer : String} {page : BackfillPage} {batch : List MappedEntry} {db db' : Archive}
    (hbatch : sweepBatch X seen issuer page = some batch)
    (hblob : ∀ e ∈ page.entries, e.metaBlob ≠ "")
    (h : gapTransaction tracked batch db = .ok db') :
    Writes X tracked (keptEntries X page batch) db db' ∧ Beside db db' := by
  obtain ⟨hof, -⟩ := sweepBatch_rows hbatch hblob
  unfold gapTransaction at h
  by_cases hempty : batch.isEmpty
  · simp only [hempty] at h
    cases Except.ok.inj h
    have hnone : keptEntries X page batch = [] := by
      refine List.eq_nil_iff_forall_not_mem.mpr (fun e he => ?_)
      obtain ⟨-, b, hb, -⟩ := mem_keptEntries.mp he
      rw [List.isEmpty_iff.mp hempty] at hb
      exact nomatch hb
    rw [hnone]
    exact ⟨Writes.refl tracked _, Beside.refl _⟩
  · simp only [hempty] at h
    obtain ⟨d, h₁, h₂⟩ := bind_ok.mp h
    exact writes_batch h₁ h₂ hof (fun e he => (mem_keptEntries.mp he).2)

/-! ## The worker and the tail -/

/-- The kept entries of a worker's page, as a batch. -/
def workerEntries (X : Xrpl) (mapped : List IngestTransaction) : List MappedEntry :=
  mapped.map (fun m => ⟨m, decodeMeta X m.metaBlob⟩)

/-- Each row of a worker's page is that of an entry of the page. -/
theorem workerBatch_rows {X : Xrpl} {tracked : List TrackedIssuance} {account : String}
    {page : BackfillPage} {mapped : List IngestTransaction}
    (h : workerBatch X tracked account page = some mapped) {b : MappedEntry}
    (hb : b ∈ workerEntries X mapped) : ∃ e ∈ keptEntries X page (workerEntries X mapped),
      IsRowOf X e b := by
  obtain ⟨tx, htx, rfl⟩ := List.mem_map.mp hb
  obtain ⟨kept, hkept, hmap⟩ := Option.bind_eq_some_iff.mp h
  obtain ⟨e, he, hmapped⟩ := mem_of_mapM_some hmap htx
  obtain ⟨⟨e', k⟩, hek, rfl⟩ := List.mem_map.mp he
  obtain ⟨e'', he'', hpair⟩ := mem_of_mapM_some hkept (List.mem_of_mem_filter hek)
  obtain ⟨k', -, hpair⟩ := Option.map_eq_some_iff.mp hpair
  cases hpair
  obtain ⟨txType, -, rfl⟩ := Option.map_eq_some_iff.mp hmapped
  exact ⟨e', mem_keptEntries.mpr ⟨he'', _, hb, rfl, rfl⟩, rfl, rfl⟩

/-- What a worker's page writes. -/
theorem writes_workerPage {X : Xrpl} {seen tracked : List TrackedIssuance}
    {account : String} {page : BackfillPage} {mapped : List IngestTransaction}
    {db d db' : Archive} (hmapped : workerBatch X seen account page = some mapped)
    (hrows : insertTransactionRowsMany mapped db = .ok d)
    (hderive : mapped.foldlM
      (fun db m => deltaDeriver tracked m.hash (decodeMeta X m.metaBlob) db) d = .ok db') :
    Writes X tracked (keptEntries X page (workerEntries X mapped)) db db'
      ∧ Beside db db' := by
  have hrows' : insertTransactionRowsMany ((workerEntries X mapped).map (·.row)) db = .ok d := by
    unfold workerEntries
    rw [List.map_map]
    exact (congrArg (insertTransactionRowsMany · db) (List.map_id mapped)).trans hrows
  refine writes_batch hrows' ?_ (fun b hb => workerBatch_rows hmapped hb)
    (fun e he => (mem_keptEntries.mp he).2)
  unfold workerEntries
  rw [List.foldlM_map]
  exact hderive

/-- The event is that of the entry. -/
def IsEventOf (X : Xrpl) (e : BinaryTxEntry) (ev : TransactionEvent) : Prop :=
  ev.hash = X.hashSignedTx e.txBlob ∧ ev.metaBlob = e.metaBlob

instance (X : Xrpl) (e : BinaryTxEntry) (ev : TransactionEvent) :
    Decidable (IsEventOf X e ev) :=
  inferInstanceAs (Decidable (_ ∧ _))

/-- **WHAT THE TAIL WRITES**: the transaction of the event, its deltas for the
    issuances tracked by then. -/
theorem writes_ingestEvent {X : Xrpl} {tracked : List TrackedIssuance}
    {ev : TransactionEvent} {e : BinaryTxEntry} (hev : IsEventOf X e ev) {db db' : Archive}
    (h : ingestEvent X tracked ev db = .ok db') :
    Writes X tracked [e] db db' ∧ Beside db db' := by
  obtain ⟨d, h₁, h₂⟩ := bind_ok.mp h
  obtain ⟨hhash, hmeta⟩ := hev
  have h₁ : (ev.accounts.insertionSort (· ≤ ·)).foldlM
      (fun d a => insertAccountTransaction ⟨ev.hash, a⟩
        (upsertAccount ⟨a, some ev.ledgerIndex⟩ d))
      (insertTransaction (eventToIngest ev).row db) = .ok d := h₁
  have hlink : ∀ (a : String) (d d' : Archive),
      insertAccountTransaction ⟨ev.hash, a⟩ (upsertAccount ⟨a, some ev.ledgerIndex⟩ d)
        = .ok d' →
      Beside d d' ∧ d'.transactions = d.transactions
        ∧ d'.balanceDeltas = d.balanceDeltas := by
    intro a d d' hd
    cases Except.ok.inj (guarded_ok.mp (guarded_ok.mp hd).2).2
    exact ⟨⟨rfl, fun _ h => h⟩, rfl, rfl⟩
  have hrows : d.transactions = (insertTransaction (eventToIngest ev).row db).transactions :=
    foldlM_same (g := Archive.transactions) (fun a d d' hd => (hlink a d d' hd).2.1) h₁
  have hsame : d.balanceDeltas
      = (insertTransaction (eventToIngest ev).row db).balanceDeltas :=
    foldlM_same (g := Archive.balanceDeltas) (fun a d d' hd => (hlink a d d' hd).2.2) h₁
  obtain ⟨hdeltas, htx, -⟩ := deltaDeriver_ok h₂
  have hkey : ∀ hash, db'.transactions.HasKey hash ↔
      db.transactions.HasKey hash ∨ hash = X.hashSignedTx e.txBlob := by
    intro hash
    rw [htx, hrows, ← hhash]
    exact Table.hasKey_insertIgnore
  refine ⟨⟨fun hash hk => (hkey hash).mpr (Or.inl hk), ?_,
    ⟨derivedRows tracked ev.hash (decodeMeta X ev.metaBlob), ?_, ?_, ?_⟩, ?_⟩, ?_⟩
  · intro e' he'
    cases List.mem_singleton.mp he'
    exact (hkey _).mpr (Or.inr rfl)
  · rw [hdeltas, hsame]
    rfl
  · intro r hr
    rw [hhash, hmeta] at hr
    exact ⟨e, List.mem_singleton_self e, hr⟩
  · intro e' he' r hr
    cases List.mem_singleton.mp he'
    rw [hhash, hmeta]
    exact hr
  · intro e' he' m hm hbound
    cases List.mem_singleton.mp he'
    rw [hmeta, hm] at h₂
    exact deltaDeriver_once hbound h₂
  · refine Beside.trans ?_ (beside_deltaDeriver h₂)
    exact Beside.trans (b := insertTransaction (eventToIngest ev).row db)
      ⟨rfl, fun _ h => h⟩ (Beside.foldlM (fun a d d' hd => (hlink a d d' hd).1) h₁)

end RegistrarWritten
