import Registrar.Reconciler
import Registrar.Stored
import Registrar.SweepResume

/-! # Reported balances against the ledger

    A reported balance is a sum of deltas, and a sweep from ledger `F` stores
    the deltas of the transactions from `F` on.  `sum_stored` says what the
    stored deltas add up to, and `reported_balances_exact_iff` when that is the
    balance on the ledger: when what was held just before `F` is nothing. -/

namespace RegistrarExact

open KeyedTable Grouping Statements Runs RegistrarMetadata RegistrarArchive
open RegistrarIngest RegistrarBackfill RegistrarReads RegistrarReconciler
open RegistrarFraming RegistrarSweep RegistrarStored RegistrarResume

/-! ## The true history -/

/-- A transaction of the ledger and the balance changes it made. -/
structure TrueTx where
  entry : BinaryTxEntry
  changes : List (String × ℚ)

/-- The history of an issuance on the ledger: a transaction's derived deltas
    are the changes it made, and the issuer's `account_tx` is complete from the
    start ledger. -/
structure TrueHistory (X : Xrpl) (iss : TrackedIssuance) (fromLedger : ℕ) where
  txs : List TrueTx
  chain : PageChain
  complete : chain.pages.flatMap (·.entries)
    = (txs.filter (fun t => fromLedger ≤ t.entry.ledgerIndex)).map (·.entry)
  derived : ∀ t ∈ txs, ∀ m, X.decodeMeta t.entry.metaBlob = some m →
    (issuanceDeltas iss m).Perm t.changes
  one_change_each : ∀ t ∈ txs, (t.changes.map Prod.fst).Nodup
  named : ∀ t ∈ txs, ∀ c ∈ t.changes, c.1 ≠ ""
  hashes : (txs.map (fun t => X.hashSignedTx t.entry.txBlob)).Nodup

/-- What the accounts that meet `p` gained. -/
def gained (p : String → Prop) [DecidablePred p] (changes : List (String × ℚ)) : ℚ :=
  ((changes.filter (fun c => p c.1)).map (·.2)).sum

section

variable {X : Xrpl} {iss : TrackedIssuance} {fromLedger : ℕ}

/-- What the accounts that meet `p` hold on the ledger. -/
def TrueHistory.held (H : TrueHistory X iss fromLedger) (p : String → Prop)
    [DecidablePred p] (ledger : ℕ) : ℚ :=
  ((H.txs.filter (fun t => t.entry.ledgerIndex ≤ ledger)).map
    (fun t => gained p t.changes)).sum

/-- What they held just before the start ledger. -/
def TrueHistory.opening (H : TrueHistory X iss fromLedger) (p : String → Prop)
    [DecidablePred p] : ℚ :=
  ((H.txs.filter (fun t => t.entry.ledgerIndex < fromLedger)).map
    (fun t => gained p t.changes)).sum

/-- What they gained from the start ledger on. -/
def TrueHistory.since (H : TrueHistory X iss fromLedger) (p : String → Prop)
    [DecidablePred p] (ledger : ℕ) : ℚ :=
  ((H.txs.filter (fun t => fromLedger ≤ t.entry.ledgerIndex
    ∧ t.entry.ledgerIndex ≤ ledger)).map (fun t => gained p t.changes)).sum

theorem TrueHistory.held_eq (H : TrueHistory X iss fromLedger) (p : String → Prop)
    [DecidablePred p] {ledger : ℕ} (hle : fromLedger ≤ ledger) :
    H.held p ledger = H.opening p + H.since p ledger := by
  unfold TrueHistory.held TrueHistory.opening TrueHistory.since
  induction H.txs with
  | nil => simp
  | cons t txs ih =>
      by_cases hlow : t.entry.ledgerIndex < fromLedger
      · rw [List.filter_cons_of_pos (by simpa using by omega),
          List.filter_cons_of_pos (by simpa using hlow),
          List.filter_cons_of_neg (by simpa using by omega), List.map_cons,
          List.map_cons, List.sum_cons, List.sum_cons, ih, add_assoc]
      · by_cases hhigh : t.entry.ledgerIndex ≤ ledger
        · rw [List.filter_cons_of_pos (by simpa using hhigh),
            List.filter_cons_of_neg (by simpa using hlow),
            List.filter_cons_of_pos (by simpa using by omega), List.map_cons,
            List.map_cons, List.sum_cons, List.sum_cons, ih, add_left_comm]
        · rw [List.filter_cons_of_neg (by simpa using by omega),
            List.filter_cons_of_neg (by simpa using hlow),
            List.filter_cons_of_neg (by simpa using by omega), ih]

/-! ## The rows of the history -/

/-- The delta rows of a transaction of the ledger. -/
def TrueTx.rows (X : Xrpl) (iss : TrackedIssuance) (t : TrueTx) : List BalanceDeltaRow :=
  t.changes.map (fun c => ⟨X.hashSignedTx t.entry.txBlob, c.1, iss.id, c.2⟩)

/-- The delta rows of the transactions from the start ledger on. -/
def TrueHistory.rows (H : TrueHistory X iss fromLedger) : List BalanceDeltaRow :=
  (H.txs.filter (fun t => fromLedger ≤ t.entry.ledgerIndex)).flatMap (TrueTx.rows X iss)

theorem TrueHistory.eq_of_hash (H : TrueHistory X iss fromLedger) {t u : TrueTx}
    (ht : t ∈ H.txs) (hu : u ∈ H.txs)
    (h : X.hashSignedTx t.entry.txBlob = X.hashSignedTx u.entry.txBlob) : t = u :=
  List.inj_on_of_nodup_map H.hashes ht hu h

/-- Each change of each transaction has a row of its own. -/
theorem TrueHistory.rows_nodup (H : TrueHistory X iss fromLedger) :
    (H.rows.map BalanceDeltaRow.key).Nodup := by
  unfold TrueHistory.rows
  rw [List.map_flatMap]
  refine List.nodup_flatMap.mpr ⟨?_, ?_⟩
  · intro t ht
    unfold TrueTx.rows
    rw [List.map_map]
    have hone := H.one_change_each t (List.mem_of_mem_filter ht)
    have hkey : (BalanceDeltaRow.key ∘ fun c : String × ℚ =>
        (⟨X.hashSignedTx t.entry.txBlob, c.1, iss.id, c.2⟩ : BalanceDeltaRow))
        = (fun a => (X.hashSignedTx t.entry.txBlob, a, iss.id)) ∘ Prod.fst := rfl
    rw [hkey, ← List.map_map]
    exact hone.map (fun a b hab => (Prod.mk.inj (Prod.mk.inj hab).2).1)
  · refine (List.Nodup.of_map _ H.hashes).filter _ |>.imp_of_mem ?_
    intro t u ht hu hne
    show List.Disjoint _ _
    intro k hkt hku
    obtain ⟨x, hx, rfl⟩ := List.mem_map.mp hkt
    obtain ⟨y, hy, hxy⟩ := List.mem_map.mp hku
    obtain ⟨c, -, rfl⟩ := List.mem_map.mp hx
    obtain ⟨d, -, rfl⟩ := List.mem_map.mp hy
    exact hne (H.eq_of_hash (List.mem_of_mem_filter ht) (List.mem_of_mem_filter hu)
      (congrArg Prod.fst hxy).symm)

/-! ## What a sweep stores -/

/-- The delta rows the metadata of an entry gives. -/
def entryRows (X : Xrpl) (iss : TrackedIssuance) (e : BinaryTxEntry) :
    List BalanceDeltaRow :=
  match X.decodeMeta e.metaBlob with
  | none => []
  | some m =>
      (issuanceDeltas iss m).map (fun d => ⟨X.hashSignedTx e.txBlob, d.1, iss.id, d.2⟩)

/-- What the sweep makes of an entry has the entry's delta rows. -/
theorem mapped_rows_perm {issuer : String} {provenance : Provenance}
    {e : BinaryTxEntry} {o : Option MappedEntry}
    (hnamed : ∀ m, X.decodeMeta e.metaBlob = some m → ∀ d ∈ issuanceDeltas iss m, d.1 ≠ "")
    (h : issuerSweepEntryMapper X [iss] issuer provenance e = some o) :
    (batchRows [iss] o.toList).Perm (entryRows X iss e) := by
  cases o with
  | none =>
      obtain ⟨m, hm, h⟩ := Option.bind_eq_some_iff.mp h
      have hnone : holdersInMeta m [iss] = [] := by
        by_contra hsome
        rw [if_neg hsome] at h
        obtain ⟨row, -, hrow⟩ := Option.map_eq_some_iff.mp h
        exact nomatch hrow
      have hempty : issuanceDeltas iss m = [] := by
        refine List.eq_nil_iff_forall_not_mem.mpr ?_
        intro d hd
        have hholder := holder_of_delta hd (hnamed m hm d hd)
        rw [hnone] at hholder
        exact nomatch hholder
      unfold entryRows
      rw [hm]
      simp only [hempty]
      exact List.Perm.refl []
  | some b =>
      obtain ⟨m, hm, -, hmeta, hhash, -, -⟩ := issuerSweepEntryMapper_some h
      show ([b].flatMap _).Perm _
      rw [List.flatMap_singleton, hmeta, hhash]
      show ([iss].flatMap _).Perm _
      rw [List.flatMap_singleton]
      unfold entryRows
      rw [hm]
      exact issuanceRows_perm _ m iss

theorem sweepBatch_rows_perm {issuer : String} {page : BackfillPage}
    {batch : List MappedEntry} (h : sweepBatch X [iss] issuer page = some batch)
    (hnamed : ∀ e ∈ page.entries, ∀ m, X.decodeMeta e.metaBlob = some m →
      ∀ d ∈ issuanceDeltas iss m, d.1 ≠ "") :
    (batchRows [iss] batch).Perm (page.entries.flatMap (entryRows X iss)) := by
  obtain ⟨mapped, hmapped, rfl⟩ := Option.map_eq_some_iff.mp h
  clear h
  generalize page.entries = es at hmapped hnamed
  induction es generalizing mapped with
  | nil =>
      cases hmapped
      exact List.Perm.refl []
  | cons e es ih =>
      rw [List.mapM_cons] at hmapped
      obtain ⟨o, ho, hmapped⟩ := Option.bind_eq_some_iff.mp hmapped
      obtain ⟨os, hos, hcons⟩ := Option.bind_eq_some_iff.mp hmapped
      cases hcons
      have hsplit : (o :: os).filterMap id = o.toList ++ os.filterMap id := by
        cases o with
        | none => rfl
        | some b => rfl
      have hfirst := mapped_rows_perm (hnamed e List.mem_cons_self) ho
      have hrest := ih os hos (fun e' he' => hnamed e' (List.mem_cons_of_mem e he'))
      rw [hsplit, batchRows, List.flatMap_append, List.flatMap_cons]
      exact hfirst.append hrest

/-- The kept entries of a page. -/
def pageBatch (X : Xrpl) (iss : TrackedIssuance) (issuer : String) (page : BackfillPage) :
    List MappedEntry :=
  (sweepBatch X [iss] issuer page).getD []

/-- What saved pages have stored. -/
theorem saveAll_stores {issuer : String} {pages : List BackfillPage} {a d : Archive}
    (h : PagedJob.saveAll (work (sweepParts X iss issuer fromLedger)) pages a = some d) :
    d.balanceDeltas = (pages.flatMap (fun p => batchRows [iss] (pageBatch X iss issuer p))).foldl
        putDelta a.balanceDeltas
      ∧ d.transactions = (pages.flatMap
        (fun p => txRows ((pageBatch X iss issuer p).map (·.row)))).foldl Table.insertIgnore
          a.transactions
      ∧ ∀ p ∈ pages, sweepBatch X [iss] issuer p = some (pageBatch X iss issuer p) := by
  induction pages generalizing a with
  | nil =>
      cases h
      exact ⟨rfl, rfl, fun _ hp => nomatch hp⟩
  | cons p pages ih =>
      obtain ⟨c, hc, h⟩ := Option.bind_eq_some_iff.mp h
      obtain ⟨hdeltas, htxs, hall⟩ := ih h
      obtain ⟨batch, hbatch, hwrite⟩ := Option.bind_eq_some_iff.mp hc
      have hpage : pageBatch X iss issuer p = batch := by
        rw [pageBatch, hbatch]
        rfl
      obtain ⟨hd, ht⟩ := writeBatch_stores (toOption_some.mp hwrite)
      refine ⟨?_, ?_, ?_⟩
      · rw [hdeltas, hd, List.flatMap_cons, List.foldl_append, hpage]
      · rw [htxs, ht, List.flatMap_cons, List.foldl_append, hpage]
      · intro q hq
        rcases List.mem_cons.mp hq with rfl | hq
        · rw [hpage]
          exact hbatch
        · exact hall q hq

/-! ## The stored rows are those of the history -/

section Stored

variable {issuer : String} {a d : Archive} (H : TrueHistory X iss fromLedger)

theorem TrueHistory.exists_tx {e : BinaryTxEntry} (he : e ∈ H.chain.pages.flatMap (·.entries)) :
    ∃ t ∈ H.txs, fromLedger ≤ t.entry.ledgerIndex ∧ t.entry = e := by
  rw [H.complete] at he
  obtain ⟨t, ht, rfl⟩ := List.mem_map.mp he
  obtain ⟨hmem, hfrom⟩ := List.mem_filter.mp ht
  exact ⟨t, hmem, of_decide_eq_true hfrom, rfl⟩

theorem TrueHistory.exists_page {t : TrueTx} (ht : t ∈ H.txs)
    (hfrom : fromLedger ≤ t.entry.ledgerIndex) :
    ∃ p ∈ H.chain.pages, t.entry ∈ p.entries := by
  have hmem : t.entry ∈ H.chain.pages.flatMap (·.entries) := by
    rw [H.complete]
    exact List.mem_map_of_mem (List.mem_filter.mpr ⟨ht, decide_eq_true hfrom⟩)
  exact List.mem_flatMap.mp hmem

theorem TrueHistory.named_deltas {e : BinaryTxEntry}
    (he : e ∈ H.chain.pages.flatMap (·.entries)) {m : Meta}
    (hm : X.decodeMeta e.metaBlob = some m) : ∀ c ∈ issuanceDeltas iss m, c.1 ≠ "" := by
  obtain ⟨t, ht, -, rfl⟩ := H.exists_tx he
  intro c hc
  exact H.named t ht c ((H.derived t ht m hm).mem_iff.mp hc)

/-- **WHAT A SWEEP STORES** is the rows of the history from its start ledger. -/
theorem TrueHistory.stored_rows_perm
    (h : PagedJob.saveAll (work (sweepParts X iss issuer fromLedger)) H.chain.pages a
      = some d) :
    (H.chain.pages.flatMap (fun p => batchRows [iss] (pageBatch X iss issuer p))).Perm
      H.rows := by
  obtain ⟨-, -, hall⟩ := saveAll_stores h
  have hpages : (H.chain.pages.flatMap
      (fun p => batchRows [iss] (pageBatch X iss issuer p))).Perm
      (H.chain.pages.flatMap (fun p => p.entries.flatMap (entryRows X iss))) := by
    refine List.Perm.flatMap_left _ (fun p hp => ?_)
    refine sweepBatch_rows_perm (hall p hp) (fun e he m hm => ?_)
    exact H.named_deltas (List.mem_flatMap.mpr ⟨p, hp, he⟩) hm
  refine hpages.trans ?_
  rw [← List.flatMap_assoc, H.complete, List.flatMap_map]
  refine List.Perm.flatMap_left _ (fun t ht => ?_)
  obtain ⟨hmem, hfrom⟩ := List.mem_filter.mp ht
  obtain ⟨p, hp, he⟩ := H.exists_page hmem (of_decide_eq_true hfrom)
  obtain ⟨mapped, hmapped, -⟩ := Option.map_eq_some_iff.mp (hall p hp)
  obtain ⟨o, -, ho⟩ := exists_of_mapM_some hmapped he
  obtain ⟨m, hm, -⟩ := Option.bind_eq_some_iff.mp ho
  unfold entryRows
  rw [hm]
  exact (H.derived t hmem m hm).map _

/-- The delta rows of the issuance are the rows of the history. -/
theorem TrueHistory.issuance_rows_perm
    (hnone : ∀ r ∈ a.balanceDeltas, r.issuanceId ≠ iss.id)
    (h : PagedJob.saveAll (work (sweepParts X iss issuer fromLedger)) H.chain.pages a
      = some d) :
    (d.balanceDeltas.rows.filter (fun r => r.issuanceId = iss.id)).Perm H.rows := by
  have hperm := H.stored_rows_perm h
  have hkeys := ((hperm.map BalanceDeltaRow.key).nodup_iff).mpr H.rows_nodup
  refine (List.perm_ext_iff_of_nodup ?_ (List.Nodup.of_map _ H.rows_nodup)).mpr ?_
  · exact (List.Nodup.of_map _ d.balanceDeltas.nodup).filter _
  · intro x
    rw [List.mem_filter, decide_eq_true_eq, Table.mem_rows, (saveAll_stores h).1,
      mem_foldl_putDelta hkeys, hperm.mem_iff]
    constructor
    · rintro ⟨hx | ⟨hx, -⟩, hid⟩
      · exact hx
      · exact absurd hid (hnone x hx)
    · intro hx
      refine ⟨Or.inl hx, ?_⟩
      obtain ⟨t, -, hxt⟩ := List.mem_flatMap.mp hx
      obtain ⟨c, -, rfl⟩ := List.mem_map.mp hxt
      rfl

/-- A stored transaction of the history has its ledger. -/
theorem TrueHistory.stored_ledger
    (hsame : ∀ r ∈ a.transactions, ∀ t ∈ H.txs,
      r.hash = X.hashSignedTx t.entry.txBlob → r.ledgerIndex = t.entry.ledgerIndex)
    (h : PagedJob.saveAll (work (sweepParts X iss issuer fromLedger)) H.chain.pages a
      = some d)
    {t : TrueTx} (ht : t ∈ H.txs) {r : TransactionRow} (hr : r ∈ d.transactions)
    (hhash : r.hash = X.hashSignedTx t.entry.txBlob) :
    r.ledgerIndex = t.entry.ledgerIndex := by
  obtain ⟨-, htxs, hall⟩ := saveAll_stores h
  rw [htxs] at hr
  rcases Table.mem_of_mem_foldl_insertIgnore hr with hr | hr
  · exact hsame r hr t ht hhash
  · obtain ⟨p, hp, hrp⟩ := List.mem_flatMap.mp hr
    obtain ⟨tx, htx, rfl⟩ := mem_txRows hrp
    obtain ⟨b, hb, rfl⟩ := List.mem_map.mp htx
    obtain ⟨e, he, hmapped⟩ := mem_sweepBatch (hall p hp) hb
    obtain ⟨m, -, -, -, hbhash, hbledger, -⟩ := issuerSweepEntryMapper_some hmapped
    obtain ⟨u, hu, -, rfl⟩ := H.exists_tx (List.mem_flatMap.mpr ⟨p, hp, he⟩)
    have hut : u = t := H.eq_of_hash hu ht (hbhash.symm.trans hhash)
    show b.row.ledgerIndex = _
    rw [hbledger, hut]

/-- A transaction of the history that changed a balance is stored. -/
theorem TrueHistory.stored_tx
    (h : PagedJob.saveAll (work (sweepParts X iss issuer fromLedger)) H.chain.pages a
      = some d)
    {t : TrueTx} (ht : t ∈ H.txs) (hfrom : fromLedger ≤ t.entry.ledgerIndex)
    (hchange : t.changes ≠ []) :
    ∃ r ∈ d.transactions, r.hash = X.hashSignedTx t.entry.txBlob := by
  obtain ⟨-, htxs, hall⟩ := saveAll_stores h
  obtain ⟨p, hp, he⟩ := H.exists_page ht hfrom
  obtain ⟨mapped, hmapped, hbatch⟩ := Option.map_eq_some_iff.mp (hall p hp)
  obtain ⟨o, ho, hmap⟩ := exists_of_mapM_some hmapped he
  obtain ⟨m, hm, hkeep⟩ := Option.bind_eq_some_iff.mp hmap
  obtain ⟨c, hc⟩ := List.exists_mem_of_ne_nil _ hchange
  have hholder := holder_of_delta ((H.derived t ht m hm).mem_iff.mpr hc) (H.named t ht c hc)
  cases o with
  | none =>
      rw [if_neg (List.ne_nil_of_mem hholder)] at hkeep
      obtain ⟨row, -, hrow⟩ := Option.map_eq_some_iff.mp hkeep
      exact nomatch hrow
  | some b =>
      obtain ⟨-, -, -, -, hbhash, -, -⟩ := issuerSweepEntryMapper_some hmap
      have hb : b ∈ pageBatch X iss issuer p := by
        rw [← hbatch]
        exact List.mem_filterMap.mpr ⟨some b, ho, rfl⟩
      obtain ⟨r, hr, hrhash⟩ := exists_mem_txRows (List.mem_map_of_mem hb)
      rw [htxs]
      exact Table.hasKey_foldl_insertIgnore.mpr (Or.inr
        ⟨r, List.mem_flatMap.mpr ⟨p, hp, hr⟩, hrhash.trans hbhash⟩)

/-- **STORED SUMS**: what the stored deltas up to a ledger add up to is what was
    gained since the start ledger. -/
theorem TrueHistory.sum_stored
    (hnone : ∀ r ∈ a.balanceDeltas, r.issuanceId ≠ iss.id)
    (hsame : ∀ r ∈ a.transactions, ∀ t ∈ H.txs,
      r.hash = X.hashSignedTx t.entry.txBlob → r.ledgerIndex = t.entry.ledgerIndex)
    (h : PagedJob.saveAll (work (sweepParts X iss issuer fromLedger)) H.chain.pages a
      = some d) (p : String → Prop) [DecidablePred p] (ledger : ℕ) :
    (((deltasUpTo d iss.id ledger).filter (fun r => p r.address)).map (·.delta)).sum
      = H.since p ledger := by
  let q : BalanceDeltaRow → Prop := fun r =>
    (∃ t ∈ d.transactions, t.hash = r.hash ∧ t.ledgerIndex ≤ ledger) ∧ p r.address
  have hfilter : (deltasUpTo d iss.id ledger).filter (fun r => p r.address)
      = (d.balanceDeltas.rows.filter (fun r => r.issuanceId = iss.id)).filter
        (fun r => q r) := by
    unfold deltasUpTo
    rw [List.filter_filter, List.filter_filter]
    refine List.filter_congr (fun r _ => ?_)
    rw [← Bool.decide_and, ← Bool.decide_and, decide_eq_decide]
    tauto
  rw [hfilter, (((H.issuance_rows_perm hnone h).filter _).map _).sum_eq]
  unfold TrueHistory.rows
  rw [sum_filter_flatMap]
  -- a transaction counts as a whole, when its ledger does
  have hq : ∀ t ∈ H.txs, fromLedger ≤ t.entry.ledgerIndex → ∀ r ∈ t.rows X iss,
      (q r ↔ t.entry.ledgerIndex ≤ ledger ∧ p r.address) := by
    intro t ht hfrom r hr
    obtain ⟨c, hc, rfl⟩ := List.mem_map.mp hr
    refine and_congr ?_ Iff.rfl
    constructor
    · rintro ⟨row, hrow, hhash, hle⟩
      rw [← H.stored_ledger hsame h ht hrow hhash]
      exact hle
    · intro hle
      obtain ⟨row, hrow, hhash⟩ := H.stored_tx h ht hfrom (List.ne_nil_of_mem hc)
      exact ⟨row, hrow, hhash, by rw [H.stored_ledger hsame h ht hrow hhash]; exact hle⟩
  rw [← sum_filter_of_zero (p := fun t : TrueTx => t.entry.ledgerIndex ≤ ledger)]
  · unfold TrueHistory.since
    rw [List.filter_filter]
    have hboth : H.txs.filter (fun t => decide (t.entry.ledgerIndex ≤ ledger)
          && decide (fromLedger ≤ t.entry.ledgerIndex))
        = H.txs.filter (fun t => fromLedger ≤ t.entry.ledgerIndex
          ∧ t.entry.ledgerIndex ≤ ledger) := by
      refine List.filter_congr (fun t _ => ?_)
      rw [← Bool.decide_and, decide_eq_decide]
      exact and_comm
    rw [hboth]
    refine congrArg List.sum (List.map_congr_left (fun t ht => ?_))
    obtain ⟨hmem, hin⟩ := List.mem_filter.mp ht
    obtain ⟨hfrom, hle⟩ := of_decide_eq_true hin
    have hrows : (t.rows X iss).filter (fun r => q r)
        = (t.rows X iss).filter (fun r => p r.address) := by
      refine List.filter_congr (fun r hr => ?_)
      rw [decide_eq_decide, hq t hmem hfrom r hr]
      exact ⟨And.right, fun hp => ⟨hle, hp⟩⟩
    rw [hrows]
    unfold TrueTx.rows gained
    rw [List.filter_map, List.map_map]
    rfl
  · intro t ht hlate
    obtain ⟨hmem, hfrom⟩ := List.mem_filter.mp ht
    have hnil : (t.rows X iss).filter (fun r => q r) = [] := by
      refine List.filter_eq_nil_iff.mpr (fun r hr hc => ?_)
      exact hlate ((hq t hmem (of_decide_eq_true hfrom) r hr).mp (of_decide_eq_true hc)).1
    rw [hnil]
    rfl

end Stored

/-! ## Exact balances -/

/-- What the sweep of a newly registered issuance starts from. -/
structure Registered (issuer : String) (H : TrueHistory X iss fromLedger) (db : Archive)
    (job : BackfillJobRow) : Prop where
  fresh : Fresh (sweepRunner X iss issuer) db job
  start : job.fromLedger = some fromLedger
  no_deltas : ∀ r ∈ db.balanceDeltas, r.issuanceId ≠ iss.id
  same_ledger : ∀ r ∈ db.transactions, ∀ t ∈ H.txs,
    r.hash = X.hashSignedTx t.entry.txBlob → r.ledgerIndex = t.entry.ledgerIndex

/-- A ledger inside the coverage claimed since `db`. -/
def Claimed (db : Archive) (s : JobRun) (ledger : ℕ) : Prop :=
  ∃ r ∈ s.db.coverage.drop db.coverage.length, r.fromLedger ≤ ledger ∧ ledger ≤ r.toLedger

theorem le_coverageFloor {issuanceId toLedger : ℕ} {db : Archive}
    (h : fromLedger ≤ toLedger) :
    fromLedger ≤ coverageFloor issuanceId fromLedger toLedger db := by
  unfold coverageFloor
  cases (firstAcquisitions issuanceId db).min? with
  | none => exact le_min h (le_refl _)
  | some lo => exact le_min h (le_max_left _ _)

/-- After the sweep, what the deltas of any accounts add up to is what these
    gained from the start ledger, and no ledger below it is claimed. -/
theorem Registered.sum_deltas {issuer : String} {H : TrueHistory X iss fromLedger}
    {db : Archive} {job : BackfillJobRow} (hreg : Registered issuer H db job) {s : JobRun}
    (hs : Steps (step (sweepRunner X iss issuer) H.chain) anyStep { db } s)
    (hdone : Completed (sweepRunner X iss issuer) s) {ledger : ℕ}
    (hclaimed : Claimed db s ledger) (p : String → Prop) [DecidablePred p] :
    (((deltasUpTo s.db iss.id ledger).filter (fun r => p r.address)).map (·.delta)).sum
      = H.held p ledger - H.opening p := by
  have hstart : job.fromLedger.getD 0 = fromLedger := by
    rw [hreg.start]
    rfl
  subst hstart
  obtain ⟨d, hsaved, hdata, -⟩ :=
    hreg.fresh.completed (sweepParts X iss issuer (job.fromLedger.getD 0)) hs hdone
  have hsum := H.sum_stored (a := dropJobs db) hreg.no_deltas hreg.same_ledger hsaved p ledger
  have hread : deltasUpTo s.db iss.id ledger = deltasUpTo d iss.id ledger := by
    show deltasUpTo (dropJobs s.db) iss.id ledger = _
    rw [hdata]
    rfl
  have hbase : d.coverage = db.coverage := (Parts.saveAll_coverage _ hsaved :)
  have hle : job.fromLedger.getD 0 ≤ ledger := by
    obtain ⟨r, hr, hfrom, -⟩ := hclaimed
    have hcov := congrArg Archive.coverage hdata
    rw [show (dropJobs s.db).coverage = s.db.coverage from rfl] at hcov
    rw [hcov, claim, hbase, List.drop_left] at hr
    obtain ⟨_, -, rfl⟩ := List.mem_map.mp hr
    exact le_trans (le_coverageFloor (le_absorbAll.mpr (Or.inl (le_refl _)))) hfrom
  rw [hread, hsum, H.held_eq p hle, add_sub_cancel_left]

/-- **REPORTED BALANCES ARE EXACT** exactly when nothing was held just before
    the ledger the sweep started from: by the account, for
    `archive_balance_at`, and by all accounts that count, for
    `gateway_balances`. -/
theorem reported_balances_exact_iff (issuer : String) (H : TrueHistory X iss fromLedger)
    {db : Archive} {job : BackfillJobRow} (hreg : Registered issuer H db job) {s : JobRun}
    (hs : Steps (step (sweepRunner X iss issuer) H.chain) anyStep { db } s)
    (hdone : Completed (sweepRunner X iss issuer) s) {ledger : ℕ}
    (hclaimed : Claimed db s ledger) :
    (∀ resolveTime req answer row, handleBalanceAt s.db resolveTime req = .ok answer →
      resolveIssuance s.db req = some row → row.id = iss.id →
      answer.ledgerIndex = ledger →
      (answer.balance = H.held (· = answer.account) ledger
        ↔ H.opening (· = answer.account) = 0))
    ∧ ∀ req answer hotwallets row, handleGatewayBalances s.db req = .ok answer →
      req.hotwallet = some hotwallets → row ∈ gatewayIssuances s.db answer.account →
      (∀ i ∈ gatewayIssuances s.db answer.account,
        currencyToWire (i.currency.getD "") = currencyToWire (row.currency.getD "") →
        i = row) →
      row.id = iss.id → answer.ledgerIndex = ledger →
      (answer.reported (currencyToWire (row.currency.getD ""))
          = H.held (fun a => a ≠ answer.account ∧ a ∉ hotwallets) ledger
        ↔ H.opening (fun a => a ≠ answer.account ∧ a ∉ hotwallets) = 0) := by
  refine ⟨?_, ?_⟩
  · intro resolveTime req answer row hanswer hrow hid hledger
    obtain ⟨row', hrow', -, hbalance, -⟩ := handleBalanceAt_ok hanswer
    cases Option.some.inj (hrow.symm.trans hrow')
    rw [hbalance, hid, hledger, balanceAt,
      hreg.sum_deltas hs hdone hclaimed (· = answer.account), sub_eq_self]
  · intro req answer hotwallets row hanswer hhot hrow hunique hid hledger
    obtain ⟨hotwallets', hhot', hreported⟩ :=
      handleGatewayBalances_reported hanswer hrow hunique
    cases Option.some.inj (hhot.symm.trans hhot')
    rw [hreported, obligation_eq, hid, hledger,
      hreg.sum_deltas hs hdone hclaimed (fun a => a ≠ answer.account ∧ a ∉ hotwallets),
      sub_eq_self]

end

/-! ## A line opened before the start ledger -/

/-- A line of `rAlice` to `rIssuer` in `USD` with the given balance. -/
def aliceLine (balance : ℚ) : Fields where
  balance := some { value := some balance, currency := some "USD" }
  lowLimit := some { issuer := some "rAlice" }
  highLimit := some { issuer := some "rIssuer" }

/-- An `xrpl` stub that decodes `open` to the line's creation with 5, and
    `grow` to its growth to 8. -/
def aliceXrpl : Xrpl where
  decodeMeta blob :=
    if blob = "open" then
      some { affectedNodes := some [some { createdNode := some {
        ledgerEntryType := some "RippleState", ledgerIndex := some "L"
        newFields := some (aliceLine 5) } }] }
    else if blob = "grow" then
      some { affectedNodes := some [some { modifiedNode := some {
        ledgerEntryType := some "RippleState", ledgerIndex := some "L"
        finalFields := some (aliceLine 8)
        previousFields := some { balance := some { value := some 5 } } } }] }
    else none
  decodeTxType _ := some (some "Payment")
  hashSignedTx blob := blob
  encodeAccountID _ := none

def usdRow : IssuanceRow where
  id := 1
  kind := .iou
  currency := some "USD"
  issuerAccount := some "rIssuer"
  backfillFromLedger := 200

/-- The line is opened at ledger 100 and grows at ledger 200. -/
def aliceHistory : TrueHistory aliceXrpl (trackedIssuance usdRow) 200 where
  txs := [⟨⟨"tx1", "open", 100⟩, [("rAlice", 5)]⟩, ⟨⟨"tx2", "grow", 200⟩, [("rAlice", 3)]⟩]
  chain :=
    { init := []
      last := ⟨[⟨"tx2", "grow", 200⟩], none, ⟨"clio", "now"⟩⟩
      marked := by decide
      unmarked := rfl
      distinct := by decide }
  complete := by decide
  derived := by
    intro t ht m hm
    rcases List.mem_pair.mp ht with rfl | rfl
    · cases hm
      decide +kernel
    · cases hm
      decide +kernel
  one_change_each := by decide
  named := by
    intro t ht c hc
    rcases List.mem_pair.mp ht with rfl | rfl
    · rw [List.mem_singleton.mp hc]
      decide
    · rw [List.mem_singleton.mp hc]
      decide
  hashes := by decide

def usdJob : BackfillJobRow where
  id := 1
  address := "rIssuer"
  issuanceId := 1
  fromLedger := some 200
  kind := .issuer

/-- `USD` as it is registered from ledger 200. -/
def usdArchive : Archive where
  issuances := { rows := [usdRow], nodup := by decide }
  accounts := Table.empty.insertIgnore ⟨"rIssuer", none⟩
  backfillJob := { rows := [usdJob], nodup := by decide }
  issuanceSeq := 2
  jobSeq := 2

theorem usdRegistered : Registered "rIssuer" aliceHistory usdArchive usdJob where
  fresh := ⟨by decide, rfl, rfl, by decide⟩
  start := rfl
  no_deltas := by decide
  same_ledger := fun _ hr => nomatch hr

def aliceRequest : BalanceAtRequest where
  issuanceId := some 1
  account := some "rAlice"
  ledgerIndex := some (.index 200)

def usdRequest : GatewayRequest where
  account := some "rIssuer"
  ledgerIndex := some (.index 200)

/-- What is read at the end of the sweep. -/
def usdOutcome (s : JobRun) :
    Option BackfillStatus × List (ℕ × ℕ) × Option BalanceAtAnswer × Option ℚ :=
  ((getByAccount 1 "rIssuer" s.db).map (·.status),
    s.db.coverage.map (fun r => (r.fromLedger, r.toLedger)),
    (handleBalanceAt s.db (fun _ => none) aliceRequest).toOption,
    (handleGatewayBalances s.db usdRequest).toOption.map (·.reported "USD"))

theorem usdSwept : ∃ s,
    Steps (step (sweepRunner aliceXrpl (trackedIssuance usdRow) "rIssuer")
        aliceHistory.chain) anyStep { db := usdArchive } s
      ∧ usdOutcome s = (some .completed, [(200, 200), (200, 200)],
        some ⟨"rAlice", 200, 3, none⟩, some 3) :=
  Steps.exists_of_run [.start, .fetch, .commit] (by decide +kernel)

theorem usdOutcome_completed {s : JobRun} {ranges : List (ℕ × ℕ)}
    {balance : Option BalanceAtAnswer} {total : Option ℚ}
    (h : usdOutcome s = (some .completed, ranges, balance, total)) :
    Completed (sweepRunner aliceXrpl (trackedIssuance usdRow) "rIssuer") s := by
  obtain ⟨job, hjob, hstatus⟩ := Option.map_eq_some_iff.mp (congrArg Prod.fst h)
  exact ⟨job, hjob, hstatus⟩

theorem usdOutcome_claimed {s : JobRun} {balance : Option BalanceAtAnswer}
    {total : Option ℚ} {status : Option BackfillStatus}
    (h : usdOutcome s = (status, [(200, 200), (200, 200)], balance, total)) :
    Claimed usdArchive s 200 := by
  have hranges : s.db.coverage.map (fun r => (r.fromLedger, r.toLedger))
      = [(200, 200), (200, 200)] := congrArg (fun o => o.2.1) h
  have hmem : (200, 200) ∈ s.db.coverage.map (fun r => (r.fromLedger, r.toLedger)) := by
    rw [hranges]
    exact List.mem_cons_self
  obtain ⟨r, hr, hrange⟩ := List.mem_map.mp hmem
  exact ⟨r, hr, (congrArg Prod.fst hrange).le, (congrArg Prod.snd hrange).ge⟩

/-- The line's 5 from before the start ledger decide. -/
theorem reported_balances_exact_iff_usd : ∃ (s : JobRun) (answer : BalanceAtAnswer),
    handleBalanceAt s.db (fun _ => none) aliceRequest = .ok answer
      ∧ (answer.balance = aliceHistory.held (· = answer.account) 200
        ↔ aliceHistory.opening (· = answer.account) = 0) := by
  obtain ⟨s, hs, hend⟩ := usdSwept
  have hanswer : handleBalanceAt s.db (fun _ => none) aliceRequest
      = .ok ⟨"rAlice", 200, 3, none⟩ :=
    toOption_some.mp (congrArg (fun o => o.2.2.1) hend)
  obtain ⟨row, hrow, -⟩ := handleBalanceAt_ok hanswer
  exact ⟨s, _, hanswer, (reported_balances_exact_iff "rIssuer" aliceHistory usdRegistered hs
    (usdOutcome_completed hend) (usdOutcome_claimed hend)).1 (fun _ => none) aliceRequest _
      row hanswer hrow (Table.find?_eq_some.mp hrow).2 rfl⟩

/-- Both methods leave out the 5 the line held before ledger 200. -/
theorem balance_before_start_not_reported : ∃ s : JobRun,
    Registered "rIssuer" aliceHistory usdArchive usdJob
      ∧ Steps (step (sweepRunner aliceXrpl (trackedIssuance usdRow) "rIssuer")
        aliceHistory.chain) anyStep { db := usdArchive } s
      ∧ Completed (sweepRunner aliceXrpl (trackedIssuance usdRow) "rIssuer") s
      ∧ Claimed usdArchive s 200
      ∧ handleBalanceAt s.db (fun _ => none) aliceRequest
        = .ok ⟨"rAlice", 200, 3, none⟩
      ∧ aliceHistory.held (· = "rAlice") 200 = 8
      ∧ (∃ answer, handleGatewayBalances s.db usdRequest = .ok answer
        ∧ answer.reported "USD" = 3)
      ∧ aliceHistory.held (fun a => a ≠ "rIssuer" ∧ a ∉ []) 200 = 8 := by
  obtain ⟨s, hs, hend⟩ := usdSwept
  refine ⟨s, usdRegistered, hs, usdOutcome_completed hend, usdOutcome_claimed hend, ?_, ?_,
    ?_, ?_⟩
  · exact toOption_some.mp (congrArg (fun o => o.2.2.1) hend)
  · decide +kernel
  · obtain ⟨answer, hanswer, htotal⟩ :=
      Option.map_eq_some_iff.mp (congrArg (fun o => o.2.2.2) hend)
    exact ⟨answer, toOption_some.mp hanswer, htotal⟩
  · decide +kernel

end RegistrarExact
