import Registrar.SweepCoverage

/-! # What the ingest statements store

    The effect of a batch on `transactions` and `balance_deltas`, each as a fold
    over the rows it carries.  Multi-row statements are chunked, which does not
    show (`insertChunked_ok`). -/

namespace RegistrarStored

open KeyedTable Statements RegistrarMetadata RegistrarArchive RegistrarIngest
open RegistrarBackfill RegistrarFraming RegistrarSweep

/-! ## Chunks -/

/-- The first `n` chunks are the first rows. -/
theorem chunks_flatten {α : Type} (perStatement n : ℕ) (rows : List α) :
    ((List.range n).map
      (fun k => (rows.drop (k * perStatement)).take perStatement)).flatten
      = rows.take (n * perStatement) := by
  induction n with
  | zero => simp
  | succ n ih =>
      rw [List.range_succ, List.map_append, List.flatten_append, ih, List.map_singleton,
        List.flatten_singleton, Nat.succ_mul, List.take_add]

theorem chunksOf_flatten {α : Type} {perStatement : ℕ} (hpos : 0 < perStatement)
    (rows : List α) : (chunksOf perStatement rows).flatten = rows := by
  unfold chunksOf
  rw [chunks_flatten, List.take_of_length_le]
  have hdiv := Nat.div_add_mod (rows.length + perStatement - 1) perStatement
  have hmod := Nat.mod_lt (rows.length + perStatement - 1) hpos
  rw [Nat.mul_comm]
  omega

/-- A chunked statement that does its rows one by one does all of them one by
    one. -/
theorem insertChunked_ok {α : Type} {columns : ℕ}
    {statement : List α → Archive → Except DbError Archive}
    {f : Archive → α → Except DbError Archive}
    (hstatement : ∀ chunk db db', statement chunk db = .ok db' →
      chunk.foldlM f db = .ok db')
    {rows : List α} {db db' : Archive}
    (h : insertChunked columns statement rows db = .ok db') :
    rows.foldlM f db = .ok db' := by
  have hchunks : ∀ (chunks : List (List α)) (db : Archive),
      chunks.foldlM (fun db chunk => statement chunk db) db = .ok db' →
      chunks.flatten.foldlM f db = .ok db' := by
    intro chunks
    induction chunks with
    | nil => exact fun _ h => h
    | cons chunk chunks ih =>
        intro db h
        obtain ⟨d, hd, h⟩ := foldlM_cons_ok.mp h
        rw [List.flatten_cons, List.foldlM_append, hstatement chunk db d hd]
        exact ih d h
  have hflat := hchunks _ db h
  rw [chunksOf_flatten (by omega)] at hflat
  exact hflat

/-- A fold of infallible statements is a loop of them. -/
theorem foldl_ok {α : Type} {f : α → Archive → Archive} {l : List α} {db db' : Archive}
    (h : (.ok (l.foldl (fun db a => f a db) db) : Except DbError Archive) = .ok db') :
    l.foldlM (fun db a => (.ok (f a db) : Except DbError Archive)) db = .ok db' := by
  induction l generalizing db with
  | nil => exact h
  | cons a l ih => exact ih h

/-! ## Loops -/

/-- What an iteration does to a field, the loop does one after the other. -/
theorem foldlM_field {α β : Type} {g : Archive → β} {f : Archive → α → Except DbError Archive}
    (step : β → α → β) (hf : ∀ a db db', f db a = .ok db' → g db' = step (g db) a)
    {l : List α} {db db' : Archive} (h : l.foldlM f db = .ok db') :
    g db' = l.foldl step (g db) := by
  induction l generalizing db with
  | nil => rw [← foldlM_nil_ok.mp h]; rfl
  | cons a l ih =>
      obtain ⟨d, hd, h⟩ := foldlM_cons_ok.mp h
      rw [ih h, hf a db d hd]
      rfl

/-- A field no iteration changes is not changed by the loop. -/
theorem foldlM_same {α β : Type} {g : Archive → β} {f : Archive → α → Except DbError Archive}
    (hf : ∀ a db db', f db a = .ok db' → g db' = g db)
    {l : List α} {db db' : Archive} (h : l.foldlM f db = .ok db') : g db' = g db := by
  refine foldlM_rel (R := fun s t => g t = g s) (fun _ => rfl)
    (fun _ _ _ h₁ h₂ => h₂.trans h₁) (fun a _ s t hs => hf a s t hs) h

/-! ## Transactions -/

/-- The rows of a batch, as `transactions` takes them. -/
def txRows (txs : List IngestTransaction) : List TransactionRow :=
  ((distinctBy IngestTransaction.hash txs).insertionSort
    (fun a b => a.hash ≤ b.hash)).map (·.row)

theorem mem_txRows {txs : List IngestTransaction} {t : TransactionRow}
    (h : t ∈ txRows txs) : ∃ tx ∈ txs, t = tx.row := by
  obtain ⟨tx, htx, rfl⟩ := List.mem_map.mp h
  exact ⟨tx, mem_of_mem_distinctBy ((List.mem_insertionSort _).mp htx), rfl⟩

theorem exists_mem_txRows {txs : List IngestTransaction} {tx : IngestTransaction}
    (h : tx ∈ txs) : ∃ t ∈ txRows txs, t.hash = tx.hash := by
  obtain ⟨tx', htx', hkey⟩ := @exists_mem_distinctBy _ _ _ IngestTransaction.hash txs tx h
  exact ⟨tx'.row, List.mem_map_of_mem ((List.mem_insertionSort _).mpr htx'), hkey⟩

/-- A batch adds its rows to `transactions`, those of a stored hash left out, and
    no delta. -/
theorem insertTransactionRowsMany_ok {txs : List IngestTransaction} {db db' : Archive}
    (h : insertTransactionRowsMany txs db = .ok db') :
    db'.transactions = (txRows txs).foldl Table.insertIgnore db.transactions
      ∧ db'.balanceDeltas = db.balanceDeltas ∧ db'.issuances = db.issuances := by
  unfold insertTransactionRowsMany at h
  by_cases hempty : txs.isEmpty
  · simp only [hempty] at h
    cases Except.ok.inj h
    rw [List.isEmpty_iff.mp hempty]
    exact ⟨rfl, rfl, rfl⟩
  · simp only [hempty] at h
    obtain ⟨d₁, h₁, h⟩ := bind_ok.mp h
    obtain ⟨d₂, h₂, h₃⟩ := bind_ok.mp h
    have h₁ := insertChunked_ok (fun _ _ _ h => foldl_ok h) h₁
    have h₂ : _ = Except.ok d₂ :=
      insertChunked_ok (fun _ _ _ h => foldl_ok (guarded_ok.mp h).2) h₂
    have h₃ := insertChunked_ok (fun _ _ _ h => h) h₃
    have hlink : ∀ (link : AccountTransactionRow) (d d' : Archive),
        insertAccountTransaction link d = .ok d' →
        d' = { d with
          accountTransactions := d.accountTransactions.insertIgnore link } := by
      intro link d d' hlink
      exact (Except.ok.inj (guarded_ok.mp (guarded_ok.mp hlink).2).2).symm
    refine ⟨?_, ?_, ?_⟩
    · have e₁ : d₁.transactions = _ :=
        foldlM_field (g := Archive.transactions)
          (fun t tx => t.insertIgnore tx.row)
          (fun tx d d' hd => by cases Except.ok.inj hd; rfl) h₁
      rw [foldlM_same (g := Archive.transactions)
          (fun link d d' hd => by rw [hlink link d d' hd]) h₃,
        foldlM_same (g := Archive.transactions)
          (fun r d d' hd => by cases Except.ok.inj hd; rfl) h₂, e₁, txRows,
        List.foldl_map]
    · rw [foldlM_same (g := Archive.balanceDeltas)
          (fun link d d' hd => by rw [hlink link d d' hd]) h₃,
        foldlM_same (g := Archive.balanceDeltas)
          (fun r d d' hd => by cases Except.ok.inj hd; rfl) h₂,
        foldlM_same (g := Archive.balanceDeltas)
          (fun r d d' hd => by cases Except.ok.inj hd; rfl) h₁]
    · rw [foldlM_same (g := Archive.issuances)
          (fun link d d' hd => by rw [hlink link d d' hd]) h₃,
        foldlM_same (g := Archive.issuances)
          (fun r d d' hd => by cases Except.ok.inj hd; rfl) h₂,
        foldlM_same (g := Archive.issuances)
          (fun r d d' hd => by cases Except.ok.inj hd; rfl) h₁]

/-! ## Deltas -/

/-- One row of the delta upsert, on its table. -/
def putDelta (t : Table BalanceDeltaRow.key) (r : BalanceDeltaRow) :
    Table BalanceDeltaRow.key :=
  t.upsert (fun old new => { old with delta := new.delta }) BalanceDeltaRow.key_delta r

/-- An upserted delta row replaces the one of its key. -/
theorem mem_putDelta {t : Table BalanceDeltaRow.key} {r x : BalanceDeltaRow} :
    x ∈ putDelta t r ↔ x = r ∨ (x ∈ t ∧ x.key ≠ r.key) := by
  have hsame : ∀ old : BalanceDeltaRow, old.key = r.key →
      { old with delta := r.delta } = r := by
    intro old hkey
    obtain ⟨hash, address, issuanceId, delta⟩ := old
    obtain ⟨rhash, raddress, rissuanceId, rdelta⟩ := r
    simp only [BalanceDeltaRow.key, Prod.mk.injEq] at hkey
    obtain ⟨rfl, rfl, rfl⟩ := hkey
    rfl
  refine Table.mem_upsert.trans ?_
  constructor
  · rintro (h | ⟨old, -, hkey, rfl⟩ | ⟨rfl, -⟩)
    · exact Or.inr h
    · exact Or.inl (hsame old hkey)
    · exact Or.inl rfl
  · rintro (rfl | h)
    · by_cases hk : t.HasKey x.key
      · obtain ⟨old, hold, hkey⟩ := hk
        exact Or.inr (Or.inl ⟨old, hold, hkey, (hsame old hkey).symm⟩)
      · exact Or.inr (Or.inr ⟨rfl, hk⟩)
    · exact Or.inl h

/-- Upserted rows with distinct keys are all there, beside the rows of other
    keys. -/
theorem mem_foldl_putDelta {rows : List BalanceDeltaRow}
    (hnodup : (rows.map BalanceDeltaRow.key).Nodup) {t : Table BalanceDeltaRow.key}
    {x : BalanceDeltaRow} :
    x ∈ rows.foldl putDelta t ↔ x ∈ rows ∨ (x ∈ t ∧ ∀ r ∈ rows, r.key ≠ x.key) := by
  induction rows generalizing t with
  | nil => simp
  | cons r rows ih =>
      rw [List.map_cons] at hnodup
      obtain ⟨hout, hrest⟩ := List.nodup_cons.mp hnodup
      rw [List.foldl_cons, ih hrest, mem_putDelta, List.mem_cons]
      constructor
      · rintro (h | ⟨rfl | ⟨hx, hne⟩, hall⟩)
        · exact Or.inl (Or.inr h)
        · exact Or.inl (Or.inl rfl)
        · refine Or.inr ⟨hx, ?_⟩
          intro r' hr'
          rcases List.mem_cons.mp hr' with rfl | hr'
          · exact Ne.symm hne
          · exact hall r' hr'
      · rintro ((rfl | h) | ⟨hx, hall⟩)
        · refine Or.inr ⟨Or.inl rfl, ?_⟩
          intro r' hr' hkey
          exact hout (hkey ▸ List.mem_map_of_mem hr')
        · exact Or.inl h
        · exact Or.inr ⟨Or.inr ⟨hx, Ne.symm (hall r List.mem_cons_self)⟩,
            fun r' hr' => hall r' (List.mem_cons_of_mem r hr')⟩

/-- A row after a fold of upserts was upserted or there before. -/
theorem mem_of_mem_foldl_putDelta {rows : List BalanceDeltaRow}
    {t : Table BalanceDeltaRow.key} {x : BalanceDeltaRow} (h : x ∈ rows.foldl putDelta t) :
    x ∈ rows ∨ x ∈ t := by
  induction rows generalizing t with
  | nil => exact Or.inr h
  | cons r rows ih =>
      rcases ih h with h | h
      · exact Or.inl (List.mem_cons_of_mem r h)
      · rcases mem_putDelta.mp h with rfl | ⟨h, -⟩
        · exact Or.inl List.mem_cons_self
        · exact Or.inr h

/-- The rows whose keys meet a condition stay in place, when those of them that are
    upserted were there before. -/
theorem filter_foldl_putDelta {p : String × String × ℕ → Prop} [DecidablePred p]
    {rows : List BalanceDeltaRow} {t : Table BalanceDeltaRow.key}
    (h : ∀ r ∈ rows, p r.key → r ∈ t) :
    (rows.foldl putDelta t).rows.filter (fun x => p x.key)
      = t.rows.filter (fun x => p x.key) := by
  induction rows generalizing t with
  | nil => rfl
  | cons r rows ih =>
      have hrest : ∀ x ∈ rows, p x.key → x ∈ putDelta t r := by
        intro x hx hpx
        have hxt := h x (List.mem_cons_of_mem r hx) hpx
        by_cases hk : x.key = r.key
        · have hrt := h r List.mem_cons_self (hk ▸ hpx)
          exact mem_putDelta.mpr (Or.inl (t.eq_of_key_eq hxt hrt hk))
        · exact mem_putDelta.mpr (Or.inr ⟨hxt, hk⟩)
      rw [List.foldl_cons, ih hrest]
      by_cases hpr : p r.key
      · exact congrArg (List.filter _)
          (Table.upsert_rows_of_mem (h r List.mem_cons_self hpr) rfl)
      · exact Table.filter_upsert_of_not hpr

/-- The delta rows of a transaction for one issuance, in the order they are
    written. -/
def issuanceRows (hash : String) (m : Meta) (iss : TrackedIssuance) :
    List BalanceDeltaRow :=
  (((issuanceDeltas iss m).map (fun d => DeltaRow.mk hash d.1 d.2)).insertionSort
    (fun a b => a.hash < b.hash ∨ (a.hash = b.hash ∧ a.address ≤ b.address))).map
      (fun r => ⟨r.hash, r.address, iss.id, r.delta⟩)

/-- The delta rows of a transaction. -/
def derivedRows (issuances : List TrackedIssuance) (hash : String)
    (metadata : Option Meta) : List BalanceDeltaRow :=
  match metadata with
  | none => []
  | some m => issuances.flatMap (issuanceRows hash m)

theorem issuanceRows_perm (hash : String) (m : Meta) (iss : TrackedIssuance) :
    (issuanceRows hash m iss).Perm
      ((issuanceDeltas iss m).map (fun d => ⟨hash, d.1, iss.id, d.2⟩)) := by
  have hsort := (List.perm_insertionSort
    (fun a b : DeltaRow => a.hash < b.hash ∨ (a.hash = b.hash ∧ a.address ≤ b.address))
    ((issuanceDeltas iss m).map (fun d => DeltaRow.mk hash d.1 d.2))).map
      (fun r => (⟨r.hash, r.address, iss.id, r.delta⟩ : BalanceDeltaRow))
  rw [List.map_map] at hsort
  exact hsort

theorem mem_derivedRows {issuances : List TrackedIssuance} {hash : String}
    {metadata : Option Meta} {r : BalanceDeltaRow} :
    r ∈ derivedRows issuances hash metadata ↔
      ∃ m, metadata = some m ∧ ∃ iss ∈ issuances, ∃ d ∈ issuanceDeltas iss m,
        r = ⟨hash, d.1, iss.id, d.2⟩ := by
  cases metadata with
  | none =>
      constructor
      · exact fun h => nomatch h
      · exact fun ⟨_, h, _⟩ => nomatch h
  | some m =>
      show r ∈ issuances.flatMap _ ↔ _
      rw [List.mem_flatMap]
      constructor
      · rintro ⟨iss, hiss, hr⟩
        obtain ⟨d, hd, rfl⟩ := List.mem_map.mp ((issuanceRows_perm _ m iss).mem_iff.mp hr)
        exact ⟨m, rfl, iss, hiss, d, hd, rfl⟩
      · rintro ⟨_, hm', iss, hiss, d, hd, rfl⟩
        cases Option.some.inj hm'
        exact ⟨iss, hiss,
          (issuanceRows_perm _ _ iss).mem_iff.mpr (List.mem_map_of_mem hd)⟩

theorem insertDeltasMany_ok {issuanceId : ℕ} {rows : List DeltaRow} {db db' : Archive}
    (h : insertDeltasMany issuanceId rows db = .ok db') :
    db'.balanceDeltas = ((rows.insertionSort
        (fun a b => a.hash < b.hash ∨ (a.hash = b.hash ∧ a.address ≤ b.address))).map
          (fun r => (⟨r.hash, r.address, issuanceId, r.delta⟩ : BalanceDeltaRow))).foldl
            putDelta db.balanceDeltas
      ∧ db'.transactions = db.transactions ∧ db'.issuances = db.issuances := by
  unfold insertDeltasMany at h
  by_cases hempty : rows.isEmpty
  · simp only [hempty] at h
    cases Except.ok.inj h
    rw [List.isEmpty_iff.mp hempty]
    exact ⟨rfl, rfl, rfl⟩
  · simp only [hempty] at h
    obtain ⟨d₁, h₁, h₂⟩ := bind_ok.mp h
    have h₁ := insertChunked_ok (fun _ _ _ h => foldl_ok h) h₁
    have h₂ := insertChunked_ok (fun _ _ _ h => (guarded_ok.mp h).2) h₂
    have hrow : ∀ (r : DeltaRow) (d d' : Archive),
        upsertDelta ⟨r.hash, r.address, issuanceId, r.delta⟩ d = .ok d' →
        d' = { d with
          balanceDeltas :=
            putDelta d.balanceDeltas ⟨r.hash, r.address, issuanceId, r.delta⟩ } := by
      intro r d d' hr
      exact (Except.ok.inj
        (guarded_ok.mp (guarded_ok.mp (guarded_ok.mp hr).2).2).2).symm
    refine ⟨?_, ?_, ?_⟩
    · rw [foldlM_field (g := Archive.balanceDeltas)
          (fun t r => putDelta t ⟨r.hash, r.address, issuanceId, r.delta⟩)
          (fun r d d' hd => by rw [hrow r d d' hd]) h₂,
        foldlM_same (g := Archive.balanceDeltas)
          (fun a d d' hd => by cases Except.ok.inj hd; rfl) h₁, List.foldl_map]
    · rw [foldlM_same (g := Archive.transactions)
          (fun r d d' hd => by rw [hrow r d d' hd]) h₂,
        foldlM_same (g := Archive.transactions)
          (fun a d d' hd => by cases Except.ok.inj hd; rfl) h₁]
    · rw [foldlM_same (g := Archive.issuances)
          (fun r d d' hd => by rw [hrow r d d' hd]) h₂,
        foldlM_same (g := Archive.issuances)
          (fun a d d' hd => by cases Except.ok.inj hd; rfl) h₁]

/-- Deriving a transaction's deltas upserts its rows. -/
theorem deltaDeriver_ok {issuances : List TrackedIssuance} {hash : String}
    {metadata : Option Meta} {db db' : Archive}
    (h : deltaDeriver issuances hash metadata db = .ok db') :
    db'.balanceDeltas = (derivedRows issuances hash metadata).foldl putDelta
        db.balanceDeltas
      ∧ db'.transactions = db.transactions ∧ db'.issuances = db.issuances := by
  cases metadata with
  | none =>
      cases Except.ok.inj h
      exact ⟨rfl, rfl, rfl⟩
  | some m =>
      have h : issuances.foldlM (fun db iss => insertDeltasMany iss.id
        ((issuanceDeltas iss m).map (fun d => ⟨hash, d.1, d.2⟩)) db) db = .ok db' := h
      refine ⟨?_, ?_, ?_⟩
      · rw [foldlM_field (g := Archive.balanceDeltas)
          (fun t iss => (issuanceRows hash m iss).foldl putDelta t)
          (fun iss d d' hd => (insertDeltasMany_ok hd).1) h]
        exact List.foldl_flatMap.symm
      · exact foldlM_same (g := Archive.transactions)
          (fun iss d d' hd => (insertDeltasMany_ok hd).2.1) h
      · exact foldlM_same (g := Archive.issuances)
          (fun iss d d' hd => (insertDeltasMany_ok hd).2.2) h

/-- Rows of one statement that went through have distinct keys. -/
theorem insertDeltasMany_once {issuanceId : ℕ} {rows : List DeltaRow} {db db' : Archive}
    (hlength : rows.length ≤ 20000) (h : insertDeltasMany issuanceId rows db = .ok db') :
    (rows.map (fun r => (r.hash, r.address))).Nodup := by
  unfold insertDeltasMany at h
  by_cases hempty : rows.isEmpty
  · rw [List.isEmpty_iff.mp hempty]
    exact List.nodup_nil
  · simp only [hempty] at h
    obtain ⟨d₁, -, h₂⟩ := bind_ok.mp h
    let ordered := rows.insertionSort
      (fun a b => a.hash < b.hash ∨ (a.hash = b.hash ∧ a.address ≤ b.address))
    have hperm : ordered.Perm rows := List.perm_insertionSort _ rows
    -- one chunk holds them all
    have hchunks : chunksOf 20000 ordered = [ordered] := by
      have hpos : 0 < rows.length := List.length_pos_of_ne_nil
        (fun hnil => hempty (List.isEmpty_iff.mpr hnil))
      have hone : (ordered.length + 20000 - 1) / 20000 = 1 := by
        rw [hperm.length_eq]
        omega
      unfold chunksOf
      rw [hone, List.range_one, List.map_singleton, Nat.zero_mul, List.drop_zero,
        List.take_of_length_le (hperm.length_eq ▸ hlength)]
    have h₂ : (chunksOf 20000 ordered).foldlM
        (fun db chunk => upsertDeltas issuanceId chunk db) d₁ = .ok db' := h₂
    rw [hchunks] at h₂
    obtain ⟨d, hd, -⟩ := foldlM_cons_ok.mp h₂
    exact (hperm.map _).nodup_iff.mp (not_not.mp (guarded_ok.mp hd).1)

theorem issuanceDeltas_length (iss : TrackedIssuance) (m : Meta) :
    (issuanceDeltas iss m).length ≤ m.nodes.length := by
  unfold issuanceDeltas
  cases iss.kind with
  | mpt =>
      rw [List.length_map]
      exact List.length_filterMap_le _ _
  | iou =>
      rw [List.length_map]
      exact List.length_filterMap_le _ _

/-- **ONE CHANGE OF AN ACCOUNT**: a derivation that went through found each account of
    an issuance once. -/
theorem deltaDeriver_once {issuances : List TrackedIssuance} {hash : String} {m : Meta}
    {db db' : Archive} (hbound : m.nodes.length ≤ 20000)
    (h : deltaDeriver issuances hash (some m) db = .ok db') :
    ∀ iss ∈ issuances, ((issuanceDeltas iss m).map Prod.fst).Nodup := by
  intro iss hiss
  have h : issuances.foldlM (fun db iss => insertDeltasMany iss.id
    ((issuanceDeltas iss m).map (fun d => ⟨hash, d.1, d.2⟩)) db) db = .ok db' := h
  obtain ⟨u, v, hinsert⟩ := foldlM_ran hiss h
  have hlength : ((issuanceDeltas iss m).map (fun d => DeltaRow.mk hash d.1 d.2)).length
      ≤ 20000 := by
    rw [List.length_map]
    exact (issuanceDeltas_length iss m).trans hbound
  have honce := insertDeltasMany_once hlength hinsert
  rw [List.map_map] at honce
  refine List.Nodup.of_map (fun a => (hash, a)) ?_
  rw [List.map_map]
  exact honce

/-- The delta rows of a batch. -/
def batchRows (issuances : List TrackedIssuance) (batch : List MappedEntry) :
    List BalanceDeltaRow :=
  batch.flatMap (fun b => derivedRows issuances b.row.hash b.metadata)

/-- **WHAT A BATCH STORES** in the two tables a balance is read from. -/
theorem writeBatch_stores {issuances : List TrackedIssuance} {issuanceId : ℕ}
    {issuer : String} {batch : List MappedEntry} {db db' : Archive}
    (h : writeBatch (deltaDeriver issuances) issuanceId issuer batch db = .ok db') :
    db'.balanceDeltas = (batchRows issuances batch).foldl putDelta db.balanceDeltas
      ∧ db'.transactions
        = (txRows (batch.map (·.row))).foldl Table.insertIgnore db.transactions := by
  obtain ⟨d₁, d₂, h₁, h₂, h₃⟩ := writeBatch_ok h
  obtain ⟨htx, hdeltas, -⟩ := insertTransactionRowsMany_ok h₁
  have hholder : ∀ (e : String × ℕ) (d d' : Archive),
      recordHolder issuanceId e.1 e.2 d = .ok d' →
      d'.balanceDeltas = d.balanceDeltas ∧ d'.transactions = d.transactions := by
    intro e d d' hd
    obtain ⟨-, -, rfl⟩ := recordHolder_ok.mp hd
    exact ⟨rfl, rfl⟩
  constructor
  · rw [foldlM_same (g := Archive.balanceDeltas)
        (fun e d d' hd => (hholder e d d' hd).1) h₃,
      foldlM_field (g := Archive.balanceDeltas)
        (fun t (b : MappedEntry) =>
          (derivedRows issuances b.row.hash b.metadata).foldl putDelta t)
        (fun b d d' hd => (deltaDeriver_ok hd).1) h₂, hdeltas]
    exact List.foldl_flatMap.symm
  · rw [foldlM_same (g := Archive.transactions)
        (fun e d d' hd => (hholder e d d' hd).2) h₃,
      foldlM_same (g := Archive.transactions)
        (fun b d d' hd => (deltaDeriver_ok hd).2.1) h₂, htx]

/-! ## An entry with a delta is kept -/

theorem mem_holdersInMeta {m : Meta} {issuances : List TrackedIssuance}
    {d : DetectedHolder} :
    d ∈ holdersInMeta m issuances ↔ ∃ w ∈ m.nodes, d ∈ nodeHolders issuances w := by
  have hfold : ∀ l out : List DetectedHolder,
      d ∈ l.foldl (fun out h => if h ∈ out then out else out ++ [h]) out
        ↔ d ∈ out ∨ d ∈ l := by
    intro l
    induction l with
    | nil => simp
    | cons h l ih =>
        intro out
        rw [List.foldl_cons, ih, List.mem_cons]
        by_cases hin : h ∈ out
        · rw [if_pos hin]
          constructor
          · rintro (ho | hl)
            · exact Or.inl ho
            · exact Or.inr (Or.inr hl)
          · rintro (ho | rfl | hl)
            · exact Or.inl ho
            · exact Or.inl hin
            · exact Or.inr hl
        · rw [if_neg hin, List.mem_append, List.mem_singleton, or_assoc]
  unfold holdersInMeta
  rw [hfold, List.mem_flatMap]
  simp

/-- A detected holder is named. -/
theorem holder_ne_of_mem {issuances : List TrackedIssuance} {w : AffectedNode}
    {h : DetectedHolder} (hmem : h ∈ nodeHolders issuances w) : h.holder ≠ "" := by
  unfold nodeHolders at hmem
  cases hnode : w.node.bind (fun node => node.fields.map (fun f => (node, f))) with
  | none =>
      rw [hnode] at hmem
      exact nomatch hmem
  | some p =>
      rw [hnode] at hmem
      obtain ⟨iss, -, hiss⟩ := List.mem_filterMap.mp hmem
      obtain ⟨holder, hholder, rfl⟩ := Option.map_eq_some_iff.mp hiss
      exact of_decide_eq_true (Option.filter_eq_some_iff.mp hholder).2

theorem mem_nodeHolders {iss : TrackedIssuance} {w : AffectedNode} {node : Node}
    {fields : Fields} {holder : String} (hnode : w.node = some node)
    (hfields : node.fields = some fields)
    (hholder : nodeHolder iss node.ledgerEntryType fields = some holder) :
    ⟨iss.id, holder⟩ ∈ nodeHolders [iss] w := by
  unfold nodeHolders
  rw [hnode, Option.bind_some, hfields, Option.map_some]
  refine List.mem_filterMap.mpr ⟨iss, List.mem_singleton_self iss, ?_⟩
  rw [hholder, Option.map_some]

theorem nodeHolder_of_mptNodeDelta {iss : TrackedIssuance} (hkind : iss.kind = .mpt)
    {w : AffectedNode} {d : AccountDelta}
    (h : mptNodeDelta (iss.mptIssuanceId.getD "") w = some d) :
    ⟨iss.id, d.account⟩ ∈ nodeHolders [iss] w := by
  unfold mptNodeDelta at h
  cases hnode : w.node with
  | none => simp only [hnode] at h; exact nomatch h
  | some node =>
      simp only [hnode] at h
      by_cases htype : node.ledgerEntryType ≠ some "MPToken"
      · rw [if_pos htype] at h
        exact nomatch h
      · rw [if_neg htype] at h
        cases hfields : node.fields with
        | none => simp only [hfields] at h; exact nomatch h
        | some fields =>
            simp only [hfields] at h
            by_cases hid : fields.mptokenIssuanceID ≠ some (iss.mptIssuanceId.getD "")
            · rw [if_pos hid] at h
              exact nomatch h
            · rw [if_neg hid] at h
              cases hacc : fields.account with
              | none => simp only [hacc] at h; exact nomatch h
              | some account =>
                  simp only [hacc] at h
                  by_cases hempty : account = ""
                  · rw [if_pos hempty] at h
                    exact nomatch h
                  · rw [if_neg hempty] at h
                    obtain ⟨-, hd⟩ := Option.ite_none_left_eq_some.mp h
                    cases Option.some.inj hd
                    refine mem_nodeHolders hnode hfields ?_
                    unfold nodeHolder
                    rw [if_pos ⟨hkind, not_not.mp htype, not_not.mp hid⟩, hacc]
                    exact Option.filter_some_pos (decide_eq_true hempty)

/-- The account of a balance change is the holder of its trust line. -/
theorem iouNodeDelta_holder {currency issuer : String} {w : AffectedNode} {d : IouDelta}
    (h : iouNodeDelta currency issuer w = some d) :
    ∃ node fields info, w.node = some node ∧ node.fields = some fields
      ∧ holderInfo fields issuer currency = some info ∧ d.account = info.holder
      ∧ node.ledgerEntryType = some "RippleState" := by
  unfold iouNodeDelta at h
  cases hnode : w.node with
  | none => simp only [hnode] at h; exact nomatch h
  | some node =>
      simp only [hnode] at h
      by_cases htype : node.ledgerEntryType ≠ some "RippleState"
      · rw [if_pos htype] at h
        exact nomatch h
      · rw [if_neg htype] at h
        cases hfields : node.fields with
        | none => simp only [hfields] at h; exact nomatch h
        | some fields =>
            simp only [hfields] at h
            cases hinfo : holderInfo fields issuer currency with
            | none => simp only [hinfo] at h; exact nomatch h
            | some info =>
                simp only [hinfo] at h
                split at h
                · exact nomatch h
                · obtain ⟨-, hd⟩ := Option.ite_none_left_eq_some.mp h
                  cases Option.some.inj hd
                  exact ⟨node, fields, info, rfl, hfields, hinfo, rfl, not_not.mp htype⟩

theorem nodeHolder_of_iouNodeDelta {iss : TrackedIssuance} (hkind : iss.kind = .iou)
    {w : AffectedNode} {d : IouDelta}
    (h : iouNodeDelta (iss.currency.getD "") (iss.issuer.getD "") w = some d)
    (hne : d.account ≠ "") : ⟨iss.id, d.account⟩ ∈ nodeHolders [iss] w := by
  obtain ⟨node, fields, info, hnode, hfields, hinfo, haccount, htype⟩ := iouNodeDelta_holder h
  have hmpt : iss.kind ≠ .mpt := by
    rw [hkind]
    exact nofun
  rw [haccount] at hne ⊢
  refine mem_nodeHolders hnode hfields ?_
  unfold nodeHolder
  rw [if_neg (fun hc => hmpt hc.1), if_pos ⟨hkind, htype⟩, hinfo]
  exact Option.filter_some_pos (decide_eq_true hne)

/-- The account of a delta is one of the holders the transaction touches. -/
theorem holder_of_delta {iss : TrackedIssuance} {m : Meta} {d : String × ℚ}
    (hd : d ∈ issuanceDeltas iss m) (hne : d.1 ≠ "") :
    ⟨iss.id, d.1⟩ ∈ holdersInMeta m [iss] := by
  unfold issuanceDeltas at hd
  cases hkind : iss.kind with
  | mpt =>
      simp only [hkind] at hd
      obtain ⟨x, hx, rfl⟩ := List.mem_map.mp hd
      obtain ⟨w, hw, hwx⟩ := List.mem_filterMap.mp hx
      exact mem_holdersInMeta.mpr ⟨w, hw, nodeHolder_of_mptNodeDelta hkind hwx⟩
  | iou =>
      simp only [hkind] at hd
      obtain ⟨x, hx, rfl⟩ := List.mem_map.mp hd
      obtain ⟨w, hw, hwx⟩ := List.mem_filterMap.mp hx
      exact mem_holdersInMeta.mpr ⟨w, hw, nodeHolder_of_iouNodeDelta hkind hwx hne⟩

/-- The parties of every trust line are named, as the limits of a `RippleState`
    are amounts whose issuer is an address. -/
def NamesParties (m : Meta) : Prop :=
  ∀ w ∈ m.nodes, ∀ node, w.node = some node → ∀ fields, node.fields = some fields →
    amountIssuer fields.lowLimit ≠ some "" ∧ amountIssuer fields.highLimit ≠ some ""

theorem holderInfo_named {fields : Fields} {issuer currency : String} {info : HolderInfo}
    (h : holderInfo fields issuer currency = some info)
    (hlow : amountIssuer fields.lowLimit ≠ some "")
    (hhigh : amountIssuer fields.highLimit ≠ some "") : info.holder ≠ "" := by
  unfold holderInfo at h
  by_cases hcurrency : balanceCurrency fields ≠ some currency
  · rw [if_pos hcurrency] at h
    exact nomatch h
  · rw [if_neg hcurrency] at h
    cases hl : amountIssuer fields.lowLimit with
    | none => rw [hl] at h; exact nomatch h
    | some low =>
        cases hh : amountIssuer fields.highLimit with
        | none => rw [hl, hh] at h; exact nomatch h
        | some high =>
            rw [hl] at hlow
            rw [hh] at hhigh
            simp only [hl, hh] at h
            by_cases hli : low = issuer
            · rw [if_pos hli] at h
              cases Option.some.inj h
              exact fun he => hhigh (congrArg some he)
            · rw [if_neg hli] at h
              obtain ⟨-, h⟩ := Option.ite_none_right_eq_some.mp h
              cases Option.some.inj h
              exact fun he => hlow (congrArg some he)

/-- A balance change is of a named account. -/
theorem account_ne_of_delta {iss : TrackedIssuance} {m : Meta} (hm : NamesParties m)
    {d : String × ℚ} (hd : d ∈ issuanceDeltas iss m) : d.1 ≠ "" := by
  unfold issuanceDeltas at hd
  cases hkind : iss.kind with
  | mpt =>
      simp only [hkind] at hd
      obtain ⟨x, hx, rfl⟩ := List.mem_map.mp hd
      obtain ⟨w, hw, hwx⟩ := List.mem_filterMap.mp hx
      exact holder_ne_of_mem (nodeHolder_of_mptNodeDelta hkind hwx)
  | iou =>
      simp only [hkind] at hd
      obtain ⟨x, hx, rfl⟩ := List.mem_map.mp hd
      obtain ⟨w, hw, hwx⟩ := List.mem_filterMap.mp hx
      obtain ⟨node, fields, info, hnode, hfields, hinfo, hholder, -⟩ := iouNodeDelta_holder hwx
      obtain ⟨hlow, hhigh⟩ := hm w hw node hnode fields hfields
      rw [hholder]
      exact holderInfo_named hinfo hlow hhigh

end RegistrarStored
