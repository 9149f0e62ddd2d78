import Registrar.Pages

/-! # The batched writer

    `insertTransactionRowsMany` issues multi-row statements: the first transaction of
    each hash, the earliest ledger of each address, each link once.  Applied to the
    transactions in order, `insertTransactionRows` leaves it to the conflict clauses to
    find these.  The two leave the same rows (`batch_writes_rows`), and every statement
    of the batch stays within what one statement may hold.

    The batch tells links apart by the text `hash|address`, which tells them apart
    where no hash contains `|`. -/

namespace RegistrarBatch

open KeyedTable Statements RegistrarMetadata RegistrarArchive RegistrarIngest
open RegistrarBackfill RegistrarSweep RegistrarStored RegistrarOrder

/-! ## Statements -/

/-- A multi-row statement of the batch. -/
inductive Statement
  | transactions (rows : List IngestTransaction)
  | accounts (rows : List (String × ℕ))
  | accountTransactions (rows : List AccountTransactionRow)

def Statement.run : Statement → Archive → Except DbError Archive
  | .transactions rows, db =>
      .ok (rows.foldl (fun db tx => insertTransaction tx.row db) db)
  | .accounts rows, db => upsertAccounts rows db
  | .accountTransactions rows, db =>
      rows.foldlM (fun db link => insertAccountTransaction link db) db

/-- The parameters it carries: ten columns of a transaction, two of an account or a
    link. -/
def Statement.params : Statement → ℕ
  | .transactions rows => 10 * rows.length
  | .accounts rows => 2 * rows.length
  | .accountTransactions rows => 2 * rows.length

/-- No two of its rows have the same conflict key. -/
def Statement.DistinctKeys : Statement → Prop
  | .transactions rows => (rows.map IngestTransaction.hash).Nodup
  | .accounts rows => (rows.map Prod.fst).Nodup
  | .accountTransactions rows => (rows.map AccountTransactionRow.key).Nodup

/-- `insertChunked`: one statement for each chunk. -/
def chunked {α : Type} (columns : ℕ) (rows : List α) (statement : List α → Statement) :
    List Statement :=
  (chunksOf (max 1 (60000 / columns)) rows).map statement

/-- The text `seenLink` tells links apart by. -/
def linkKey (link : AccountTransactionRow) : String := link.hash ++ "|" ++ link.address

/-- The links of the transactions, in order. -/
def linksOf (txs : List IngestTransaction) : List AccountTransactionRow :=
  txs.flatMap fun tx => tx.accounts.map fun address => ⟨tx.hash, address⟩

/-- The statements that `insertTransactionRowsMany` issues. -/
def issued (txs : List IngestTransaction) : List Statement :=
  if txs.isEmpty then []
  else
    chunked 10 ((distinctBy IngestTransaction.hash txs).insertionSort
        (fun a b => a.hash ≤ b.hash)) .transactions
      ++ chunked 2 ((earliestLedgers txs).insertionSort (fun a b => a.1 ≤ b.1)) .accounts
      ++ chunked 2 ((distinctBy linkKey (linksOf txs)).insertionSort
        (fun a b => a.hash < b.hash ∨ (a.hash = b.hash ∧ a.address ≤ b.address)))
          .accountTransactions

/-- The batched writer, as the statements it issues. -/
def insertTransactionRowsMany (txs : List IngestTransaction) (db : Archive) :
    Except DbError Archive :=
  (issued txs).foldlM (fun db statement => statement.run db) db

/-! ## What one statement holds -/

/-- A chunk is a part of the rows, of no more than `perStatement`. -/
theorem mem_chunksOf {α : Type} {perStatement : ℕ} {rows chunk : List α}
    (h : chunk ∈ chunksOf perStatement rows) :
    chunk.Sublist rows ∧ chunk.length ≤ perStatement := by
  obtain ⟨k, -, rfl⟩ := List.mem_map.mp h
  exact ⟨(List.take_sublist _ _).trans (List.drop_sublist _ _), List.length_take_le _ _⟩

/-- Rows that are distinct by a key are distinct by any finer one. -/
theorem distinctBy_nodup {α κ μ : Type} [DecidableEq κ] {key : α → κ} {finer : α → μ}
    (hfiner : ∀ a b, finer a = finer b → key a = key b) (l : List α) :
    ((distinctBy key l).map finer).Nodup := by
  have hnodup : ((distinctBy key l).map key).Nodup := Table.nodup _
  refine (List.nodup_map_iff_inj_on hnodup.of_map).mpr ?_
  intro a ha b hb hab
  exact List.inj_on_of_nodup_map hnodup ha hb (hfiner a b hab)

theorem issued_distinctKeys {txs : List IngestTransaction} {statement : Statement}
    (h : statement ∈ issued txs) : statement.DistinctKeys := by
  unfold issued at h
  by_cases hempty : txs.isEmpty
  · rw [if_pos hempty] at h
    exact absurd h List.not_mem_nil
  · rw [if_neg hempty] at h
    rcases List.mem_append.mp h with h | h
    · rcases List.mem_append.mp h with h | h
      · obtain ⟨chunk, hchunk, rfl⟩ := List.mem_map.mp h
        have hsorted := (List.perm_insertionSort (fun a b => a.hash ≤ b.hash)
          (distinctBy IngestTransaction.hash txs)).map IngestTransaction.hash
        exact (((mem_chunksOf hchunk).1.map _).nodup
          (hsorted.nodup_iff.mpr (distinctBy_nodup (fun _ _ => id) txs)))
      · obtain ⟨chunk, hchunk, rfl⟩ := List.mem_map.mp h
        have hsorted := (List.perm_insertionSort (fun a b => a.1 ≤ b.1)
          (earliestLedgers txs)).map Prod.fst
        exact ((mem_chunksOf hchunk).1.map _).nodup
          (hsorted.nodup_iff.mpr (Table.nodup _))
    · obtain ⟨chunk, hchunk, rfl⟩ := List.mem_map.mp h
      have hsorted := (List.perm_insertionSort (fun a b : AccountTransactionRow =>
        a.hash < b.hash ∨ (a.hash = b.hash ∧ a.address ≤ b.address))
          (distinctBy linkKey (linksOf txs))).map AccountTransactionRow.key
      refine ((mem_chunksOf hchunk).1.map _).nodup
        (hsorted.nodup_iff.mpr (distinctBy_nodup ?_ (linksOf txs)))
      intro a b hab
      obtain ⟨hhash, haddress⟩ := Prod.mk.inj hab
      show a.hash ++ "|" ++ a.address = b.hash ++ "|" ++ b.address
      rw [hhash, haddress]

theorem issued_params {txs : List IngestTransaction} {statement : Statement}
    (h : statement ∈ issued txs) : statement.params ≤ 65535 := by
  unfold issued at h
  by_cases hempty : txs.isEmpty
  · rw [if_pos hempty] at h
    exact absurd h List.not_mem_nil
  · rw [if_neg hempty] at h
    rcases List.mem_append.mp h with h | h
    · rcases List.mem_append.mp h with h | h
      · obtain ⟨chunk, hchunk, rfl⟩ := List.mem_map.mp h
        have hlength := (mem_chunksOf hchunk).2
        show 10 * chunk.length ≤ 65535
        omega
      · obtain ⟨chunk, hchunk, rfl⟩ := List.mem_map.mp h
        have hlength := (mem_chunksOf hchunk).2
        show 2 * chunk.length ≤ 65535
        omega
    · obtain ⟨chunk, hchunk, rfl⟩ := List.mem_map.mp h
      have hlength := (mem_chunksOf hchunk).2
      show 2 * chunk.length ≤ 65535
      omega

/-! ## The links -/

/-- Two keys that tell the same rows apart keep the same rows. -/
theorem foldl_insertIgnore_congr {α κ μ : Type} [DecidableEq κ] [DecidableEq μ]
    {key : α → κ} {key' : α → μ} {l : List α} {t : Table key} {t' : Table key'}
    (hsame : ∀ a ∈ t.rows ++ l, ∀ b ∈ t.rows ++ l, key a = key b ↔ key' a = key' b)
    (hrows : t.rows = t'.rows) :
    (l.foldl Table.insertIgnore t).rows = (l.foldl Table.insertIgnore t').rows := by
  induction l generalizing t t' with
  | nil => exact hrows
  | cons a l ih =>
      have ha : a ∈ t.rows ++ a :: l := List.mem_append_right _ List.mem_cons_self
      have hkey : t.HasKey (key a) ↔ t'.HasKey (key' a) := by
        constructor
        · rintro ⟨r, hr, hk⟩
          exact ⟨r, hrows ▸ hr, (hsame r (List.mem_append_left _ hr) a ha).mp hk⟩
        · rintro ⟨r, hr, hk⟩
          have hr : r ∈ t.rows := hrows ▸ hr
          exact ⟨r, hr, (hsame r (List.mem_append_left _ hr) a ha).mpr hk⟩
      have hinsert : (t.insertIgnore a).rows = (t'.insertIgnore a).rows := by
        by_cases h : t.HasKey (key a)
        · rw [Table.insertIgnore, dif_pos h, Table.insertIgnore, dif_pos (hkey.mp h), hrows]
        · rw [Table.insertIgnore_rows h, Table.insertIgnore_rows (hkey.not.mp h), hrows]
      have hmem : ∀ r ∈ (t.insertIgnore a).rows ++ l, r ∈ t.rows ++ a :: l := by
        intro r hr
        rcases List.mem_append.mp hr with hr | hr
        · rcases Table.mem_insertIgnore.mp hr with hr | ⟨rfl, -⟩
          · exact List.mem_append_left _ hr
          · exact ha
        · exact List.mem_append_right _ (List.mem_cons_of_mem a hr)
      exact ih (fun r hr r' hr' => hsame r (hmem r hr) r' (hmem r' hr')) hinsert

/-- The text before the bar is the hash. -/
theorem linkKey_hash {link : AccountTransactionRow} (h : '|' ∉ link.hash.toList) :
    (linkKey link).toList.takeWhile (fun c => decide (c ≠ '|')) = link.hash.toList := by
  have hbar : ∀ c ∈ link.hash.toList, decide (c ≠ '|') = true := by
    intro c hc
    refine decide_eq_true ?_
    rintro rfl
    exact h hc
  unfold linkKey
  rw [String.toList_append, String.toList_append, List.append_assoc,
    List.takeWhile_append_of_pos hbar]
  exact List.append_nil _

/-- Where no hash contains a bar, the text tells links apart. -/
theorem linkKey_injective {a b : AccountTransactionRow} (ha : '|' ∉ a.hash.toList)
    (hb : '|' ∉ b.hash.toList) : linkKey a = linkKey b ↔ a.key = b.key := by
  constructor
  · intro h
    have hhash : a.hash = b.hash := by
      refine String.toList_inj.mp ?_
      rw [← linkKey_hash ha, h, linkKey_hash hb]
    unfold linkKey at h
    rw [hhash] at h
    have haddress : a.address = b.address := by
      have hlist := congrArg String.toList h
      simp only [String.toList_append] at hlist
      exact String.toList_inj.mp (List.append_cancel_left hlist)
    exact Prod.ext hhash haddress
  · intro h
    obtain ⟨hhash, haddress⟩ := Prod.mk.inj h
    show a.hash ++ "|" ++ a.address = b.hash ++ "|" ++ b.address
    rw [hhash, haddress]

theorem mem_linksOf {txs : List IngestTransaction} {link : AccountTransactionRow}
    (h : link ∈ linksOf txs) : ∃ tx ∈ txs, link.hash = tx.hash := by
  obtain ⟨tx, htx, hlink⟩ := List.mem_flatMap.mp h
  obtain ⟨address, -, rfl⟩ := List.mem_map.mp hlink
  exact ⟨tx, htx, rfl⟩

/-- The statements together write what the batch is modelled to write elsewhere, which
    tells links apart by hash and address. -/
theorem insertTransactionRowsMany_eq {txs : List IngestTransaction}
    (hhash : ∀ tx ∈ txs, '|' ∉ tx.hash.toList) (db : Archive) :
    insertTransactionRowsMany txs db = RegistrarIngest.insertTransactionRowsMany txs db := by
  have hlinks : distinctBy linkKey (linksOf txs)
      = distinctBy AccountTransactionRow.key (linksOf txs) := by
    refine foldl_insertIgnore_congr ?_ rfl
    intro a ha b hb
    obtain ⟨tx, htx, hatx⟩ := mem_linksOf ha
    obtain ⟨tx', htx', hbtx⟩ := mem_linksOf hb
    exact linkKey_injective (hatx ▸ hhash tx htx) (hbtx ▸ hhash tx' htx')
  unfold insertTransactionRowsMany RegistrarIngest.insertTransactionRowsMany issued
  by_cases hempty : txs.isEmpty
  · rw [if_pos hempty, if_pos hempty]
    rfl
  · rw [if_neg hempty, if_neg hempty, hlinks, List.append_assoc, List.foldlM_append]
    refine congrArg₂ bind (List.foldlM_map ..) (funext fun db => ?_)
    rw [List.foldlM_append]
    exact congrArg₂ bind (List.foldlM_map ..) (funext fun db => List.foldlM_map ..)

/-- The hashes of a page's rows are those of its blobs: the writers of pages pass no hash
    with a bar. -/
theorem page_statements {X : Xrpl} (hX : ∀ blob, '|' ∉ (X.hashSignedTx blob).toList)
    {tracked : List TrackedIssuance} {address : String} {page : BackfillPage}
    {txs : List IngestTransaction}
    (h : (∃ batch, sweepBatch X tracked address page = some batch ∧ txs = batch.map (·.row))
      ∨ workerBatch X tracked address page = some txs) (db : Archive) :
    insertTransactionRowsMany txs db = RegistrarIngest.insertTransactionRowsMany txs db := by
  refine insertTransactionRowsMany_eq ?_ db
  intro tx htx
  rcases h with ⟨batch, hbatch, rfl⟩ | hmapped
  · obtain ⟨b, hb, rfl⟩ := List.mem_map.mp htx
    obtain ⟨entry, -, hentry⟩ := mem_sweepBatch hbatch hb
    obtain ⟨-, -, -, -, hhash, -, -⟩ := issuerSweepEntryMapper_some hentry
    rw [hhash]
    exact hX entry.txBlob
  · obtain ⟨kept, -, hmap⟩ := Option.bind_eq_some_iff.mp hmapped
    obtain ⟨entry, -, hentry⟩ := mem_of_mapM_some hmap htx
    rw [(entryRow_some hentry).1]
    exact hX entry.txBlob

/-! ## The rows left -/

/-- The rows of the three tables are the same. -/
structure SameRows (d d' : Archive) : Prop where
  transactions : ∀ t, t ∈ d.transactions ↔ t ∈ d'.transactions
  accounts : ∀ r, r ∈ d.accounts ↔ r ∈ d'.accounts
  accountTransactions : ∀ r, r ∈ d.accountTransactions ↔ r ∈ d'.accountTransactions

/-- A transaction keeps the row of its hash that is there. -/
theorem insertTransactionRows_transactions {tx : IngestTransaction} {db db' : Archive}
    (h : insertTransactionRows tx db = .ok db') :
    db'.transactions = db.transactions.insertIgnore tx.row := by
  refine foldlM_same (g := Archive.transactions) (fun a d d' hd => ?_) h
  cases Except.ok.inj (guarded_ok.mp (guarded_ok.mp hd).2).2
  rfl

/-- The first row of each hash, sorted, is found as in the list. -/
theorem find?_txRows (txs : List IngestTransaction) (hash : String) :
    (txRows txs).find? (fun t => decide (t.hash = hash))
      = (txs.map (·.row)).find? (fun t => decide (t.hash = hash)) := by
  unfold txRows
  rw [List.find?_map, List.find?_map]
  refine congrArg (Option.map _) ?_
  show ((distinctBy IngestTransaction.hash txs).insertionSort
    (fun a b => a.hash ≤ b.hash)).find? (fun tx => decide (tx.hash = hash))
      = txs.find? (fun tx => decide (tx.hash = hash))
  have hperm := List.perm_insertionSort (fun a b : IngestTransaction => a.hash ≤ b.hash)
    (distinctBy IngestTransaction.hash txs)
  have hnodup : (((distinctBy IngestTransaction.hash txs).insertionSort
      (fun a b => a.hash ≤ b.hash)).map IngestTransaction.hash).Nodup :=
    (hperm.map _).nodup_iff.mpr (Table.nodup _)
  ext tx
  rw [Table.find?_rows_eq_some hnodup, hperm.mem_iff]
  constructor
  · rintro ⟨htx, rfl⟩
    rcases Table.mem_foldl_insertIgnore.mp htx with h | ⟨-, h⟩
    · exact absurd h (Table.not_mem_empty tx)
    · exact h
  · intro h
    have hfound := List.find?_some h
    have hhash : tx.hash = hash := of_decide_eq_true hfound
    refine ⟨Table.mem_foldl_insertIgnore.mpr (Or.inr ⟨?_, hhash ▸ h⟩), hhash⟩
    rintro ⟨r, hr, -⟩
    exact absurd hr List.not_mem_nil

/-- The transactions one by one leave the first row of each hash. -/
theorem oneByOne_transactions {txs : List IngestTransaction} {db d : Archive}
    (h : txs.foldlM (fun db tx => insertTransactionRows tx db) db = .ok d) :
    d.transactions = (txs.map (·.row)).foldl Table.insertIgnore db.transactions := by
  rw [List.foldl_map]
  exact foldlM_field (g := Archive.transactions) (fun t tx => t.insertIgnore tx.row)
    (fun tx d d' hd => insertTransactionRows_transactions hd) h

theorem all_txFacts (txs : List IngestTransaction) :
    Facts.all txs (fun tx => txFacts [tx]) = txFacts txs := by
  ext x <;> simp [Facts.all, txFacts]

/-- One by one and as a batch, the transactions leave the same rows. -/
theorem sameRows {txs : List IngestTransaction} {db one many : Archive}
    (hone : txs.foldlM (fun db tx => insertTransactionRows tx db) db = .ok one)
    (hmany : RegistrarIngest.insertTransactionRowsMany txs db = .ok many) :
    SameRows one many := by
  have hfacts : Ingests (txFacts txs) db one := by
    rw [← all_txFacts]
    exact Ingests.foldlM (fun tx _ d d' hd => ingests_insertTransactionRows hd) hone
  have hfacts' := ingests_insertTransactionRowsMany hmany
  refine ⟨fun t => ?_, hfacts.same_accounts hfacts', fun r => ?_⟩
  · rw [oneByOne_transactions hone, (insertTransactionRowsMany_ok hmany).1,
      Table.mem_foldl_insertIgnore, Table.mem_foldl_insertIgnore, find?_txRows]
  · rw [hfacts.links, hfacts'.links]

/-- **THE BATCH WRITES WHAT THE ROWS DO**: on every archive, the batched writer and the
    row-by-row one both succeed and leave the same rows; no statement of the batch names
    a key twice, and none carries more parameters than a statement may. -/
theorem batch_writes_rows (txs : List IngestTransaction) (db : Archive)
    (hhash : ∀ tx ∈ txs, '|' ∉ tx.hash.toList) :
    (∃ one many, txs.foldlM (fun db tx => insertTransactionRows tx db) db = .ok one
        ∧ insertTransactionRowsMany txs db = .ok many ∧ SameRows one many)
      ∧ (∀ statement ∈ issued txs, statement.DistinctKeys)
      ∧ ∀ statement ∈ issued txs, statement.params ≤ 65535 := by
  obtain ⟨one, hone, -⟩ := foldlM_succeeds (P := fun _ => True) (l := txs) (s := db)
    (fun tx _ d _ => by
      obtain ⟨d', hd'⟩ := insertTransactionRows_succeeds tx d
      exact ⟨d', hd', trivial⟩) trivial
  obtain ⟨many, hmany⟩ := insertTransactionRowsMany_succeeds txs db
  refine ⟨⟨one, many, hone, ?_, sameRows hone hmany⟩, fun _ => issued_distinctKeys,
    fun _ => issued_params⟩
  rw [insertTransactionRowsMany_eq hhash, hmany]

/-- A hash twice, at different ledgers and with different accounts, and an account named
    twice. -/
def repeatedTxs : List IngestTransaction :=
  [⟨"T1", 100, "Payment", "a", "m", ⟨"clio", "now"⟩, ["rA", "rB", "rA"], none, none, none⟩,
    ⟨"T2", 90, "Payment", "b", "n", ⟨"clio", "now"⟩, ["rB"], none, none, none⟩,
    ⟨"T1", 80, "Payment", "a", "m", ⟨"clio", "then"⟩, ["rC"], none, none, none⟩]

/-- An archive that knows an address without a ledger. -/
def namedArchive : Archive := insertAccount ⟨"rB", none⟩ {}

theorem batch_writes_rows_repeated :
    (∃ one many, repeatedTxs.foldlM (fun db tx => insertTransactionRows tx db) namedArchive
          = .ok one
        ∧ insertTransactionRowsMany repeatedTxs namedArchive = .ok many ∧ SameRows one many)
      ∧ (∀ statement ∈ issued repeatedTxs, statement.DistinctKeys)
      ∧ ∀ statement ∈ issued repeatedTxs, statement.params ≤ 65535 :=
  batch_writes_rows repeatedTxs namedArchive (by decide)

end RegistrarBatch
