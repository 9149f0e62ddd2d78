import Registrar.Framing

/-! # The range a sweep claims

    The lower bound of a sweep's coverage is the first ledger its issuance's
    members are recorded with.  `Recorded` says a member is recorded at or
    before a ledger: the page that keeps an entry of the ledger establishes it,
    every later page keeps it, and it bounds the claimed floor. -/

namespace RegistrarSweep

open KeyedTable Statements RegistrarMetadata RegistrarArchive RegistrarIngest
open RegistrarBackfill RegistrarFraming

/-! ## Distinct rows and earliest ledgers -/

theorem mem_of_mem_distinctBy {α κ : Type} [DecidableEq κ] {key : α → κ} {l : List α}
    {a : α} (h : a ∈ distinctBy key l) : a ∈ l := by
  rcases Table.mem_of_mem_foldl_insertIgnore h with hempty | hl
  · exact nomatch hempty
  · exact hl

theorem exists_mem_distinctBy {α κ : Type} [DecidableEq κ] {key : α → κ} {l : List α}
    {a : α} (h : a ∈ l) : ∃ b ∈ distinctBy key l, key b = key a :=
  Table.hasKey_foldl_insertIgnore.mpr (Or.inr ⟨a, h, rfl⟩)

theorem mem_distinctBy_id {α : Type} [DecidableEq α] {l : List α} {a : α} :
    a ∈ distinctBy id l ↔ a ∈ l := by
  refine ⟨mem_of_mem_distinctBy, fun h => ?_⟩
  obtain ⟨b, hb, hba⟩ := @exists_mem_distinctBy α α _ id l a h
  have hba : b = a := hba
  exact hba ▸ hb

/-- An account has a first ledger, at or before each ledger it is seen at. -/
theorem earliestLedgers_le {txs : List IngestTransaction} {tx : IngestTransaction}
    (htx : tx ∈ txs) {account : String} (ha : account ∈ tx.accounts) :
    ∃ ledger ≤ tx.ledgerIndex, (account, ledger) ∈ earliestLedgers txs := by
  have hfold : ∀ (l : List (String × ℕ)) (t : Table (Prod.fst : String × ℕ → String)),
      (∃ ledger ≤ tx.ledgerIndex, (account, ledger) ∈ t)
        ∨ (account, tx.ledgerIndex) ∈ l →
      ∃ ledger ≤ tx.ledgerIndex, (account, ledger) ∈
        l.foldl (fun t e => t.upsert (fun old new => (old.1, min old.2 new.2))
          (fun _ _ => rfl) e) t := by
    intro l
    induction l with
    | nil =>
        rintro t (h | h)
        · exact h
        · exact nomatch h
    | cons e l ih =>
        intro t h
        refine ih _ ?_
        rcases h with ⟨ledger, hle, hmem⟩ | hmem
        · refine Or.inl ?_
          by_cases hk : account = e.1
          · refine ⟨min ledger e.2, le_trans (min_le_left _ _) hle, ?_⟩
            exact Table.mem_upsert.mpr (Or.inr (Or.inl ⟨_, hmem, hk, rfl⟩))
          · exact ⟨ledger, hle, Table.mem_upsert.mpr (Or.inl ⟨hmem, hk⟩)⟩
        · rcases List.mem_cons.mp hmem with rfl | hmem
          · refine Or.inl ?_
            by_cases hk : t.HasKey account
            · obtain ⟨old, hold, hkey⟩ := hk
              refine ⟨min old.2 tx.ledgerIndex, min_le_right _ _, ?_⟩
              refine Table.mem_upsert.mpr (Or.inr (Or.inl ⟨old, hold, hkey, ?_⟩))
              rw [hkey]
            · exact ⟨tx.ledgerIndex, le_refl _,
                Table.mem_upsert.mpr (Or.inr (Or.inr ⟨rfl, hk⟩))⟩
          · exact Or.inr hmem
  refine hfold _ Table.empty (Or.inr ?_)
  exact List.mem_flatMap.mpr ⟨tx, htx, List.mem_map.mpr ⟨account, ha, rfl⟩⟩

theorem firstLedgers_le {issuer : String} {batch : List MappedEntry} {b : MappedEntry}
    (hb : b ∈ batch) {account : String} (ha : account ∈ b.row.accounts)
    (hne : account ≠ issuer) :
    ∃ ledger ≤ b.row.ledgerIndex, (account, ledger) ∈ firstLedgers issuer batch := by
  obtain ⟨ledger, hle, hmem⟩ := earliestLedgers_le (List.mem_map_of_mem hb) ha
  refine ⟨ledger, hle, (List.mem_insertionSort _).mpr ?_⟩
  exact List.mem_filter.mpr ⟨hmem, decide_eq_true hne⟩

/-! ## Recorded members -/

/-- A member of the issuance is recorded at or before the ledger. -/
def Recorded (issuanceId ledger : ℕ) (db : Archive) : Prop :=
  ∃ r ∈ db.accountIssuance, r.issuanceId = issuanceId
    ∧ ∃ first, r.firstAcquisitionLedger = some first ∧ first ≤ ledger

theorem least_le {a b : Option ℕ} {x ledger : ℕ} (ha : a = some x) (hx : x ≤ ledger) :
    ∃ y, least a b = some y ∧ y ≤ ledger := by
  subst ha
  cases b with
  | none => exact ⟨x, rfl, hx⟩
  | some y => exact ⟨min x y, rfl, le_trans (min_le_left _ _) hx⟩

theorem least_le_right {a b : Option ℕ} {x ledger : ℕ} (hb : b = some x)
    (hx : x ≤ ledger) : ∃ y, least a b = some y ∧ y ≤ ledger := by
  subst hb
  cases a with
  | none => exact ⟨x, rfl, hx⟩
  | some y => exact ⟨min y x, rfl, le_trans (min_le_right _ _) hx⟩

/-- Recording a holder records it at or before its ledger. -/
theorem recordHolder_records {issuanceId first ledger : ℕ} {address : String}
    {db db' : Archive} (h : recordHolder issuanceId address first db = .ok db')
    (hle : first ≤ ledger) : Recorded issuanceId ledger db' := by
  obtain ⟨-, -, rfl⟩ := recordHolder_ok.mp h
  by_cases hk : db.accountIssuance.HasKey (address, issuanceId)
  · obtain ⟨old, hold, hkey⟩ := hk
    refine ⟨_, Table.mem_upsert.mpr (Or.inr (Or.inl ⟨old, hold, hkey, rfl⟩)), ?_, ?_⟩
    · exact congrArg Prod.snd hkey
    · exact least_le_right rfl hle
  · exact ⟨_, Table.mem_upsert.mpr (Or.inr (Or.inr ⟨rfl, hk⟩)), rfl, first, rfl, hle⟩

/-- It keeps what is recorded. -/
theorem recordHolder_keeps {issuanceId id ledger first : ℕ} {address : String}
    {db db' : Archive} (hrec : Recorded issuanceId ledger db)
    (h : recordHolder id address first db = .ok db') :
    Recorded issuanceId ledger db' := by
  obtain ⟨-, -, rfl⟩ := recordHolder_ok.mp h
  obtain ⟨r, hr, hid, x, hx, hle⟩ := hrec
  by_cases hk : r.key = (address, id)
  · exact ⟨_, Table.mem_upsert.mpr (Or.inr (Or.inl ⟨r, hr, hk, rfl⟩)), hid,
      least_le hx hle⟩
  · exact ⟨r, Table.mem_upsert.mpr (Or.inl ⟨hr, hk⟩), hid, x, hx, hle⟩


theorem Recorded.framed {f : Archive → Except DbError Archive} (hf : Frames f)
    {issuanceId ledger : ℕ} {db db' : Archive} (hrec : Recorded issuanceId ledger db)
    (h : f db = .ok db') : Recorded issuanceId ledger db' := by
  rw [hf.unchanged h]
  exact hrec

/-- The three parts of a written batch. -/
theorem writeBatch_ok {issuances : List TrackedIssuance} {issuanceId : ℕ}
    {issuer : String} {batch : List MappedEntry} {db db' : Archive}
    (h : writeBatch (deltaDeriver issuances) issuanceId issuer batch db = .ok db') :
    ∃ d₁ d₂, insertTransactionRowsMany (batch.map (·.row)) db = .ok d₁
      ∧ batch.foldlM
          (fun db b => deltaDeriver issuances b.row.hash b.metadata db) d₁ = .ok d₂
      ∧ (firstLedgers issuer batch).foldlM
          (fun db e => recordHolder issuanceId e.1 e.2 db) d₂ = .ok db' := by
  obtain ⟨d₁, h₁, h⟩ := bind_ok.mp h
  obtain ⟨d₂, h₂, h₃⟩ := bind_ok.mp h
  exact ⟨d₁, d₂, h₁, h₂, h₃⟩

theorem writeBatch_keeps {issuances : List TrackedIssuance} {issuanceId id ledger : ℕ}
    {issuer : String} {batch : List MappedEntry} {db db' : Archive}
    (hrec : Recorded issuanceId ledger db)
    (h : writeBatch (deltaDeriver issuances) id issuer batch db = .ok db') :
    Recorded issuanceId ledger db' := by
  obtain ⟨d₁, d₂, h₁, h₂, h₃⟩ := writeBatch_ok h
  have hrec₁ := hrec.framed (frames_insertTransactionRowsMany _) h₁
  have hrec₂ := hrec₁.framed
    (Frames.foldlM
      (fun b : MappedEntry => frames_deltaDeriver issuances b.row.hash b.metadata) batch)
    h₂
  exact foldlM_rel
    (R := fun s t => Recorded issuanceId ledger s → Recorded issuanceId ledger t)
    (fun _ h => h) (fun _ _ _ h₁ h₂ h => h₂ (h₁ h))
    (fun _ _ _ _ hs hr => recordHolder_keeps hr hs) h₃ hrec₂

/-- Writing a batch records a member at or before each ledger it keeps. -/
theorem writeBatch_records {issuances : List TrackedIssuance} {issuanceId : ℕ}
    {issuer : String} {batch : List MappedEntry} {db db' : Archive}
    (h : writeBatch (deltaDeriver issuances) issuanceId issuer batch db = .ok db')
    {b : MappedEntry} (hb : b ∈ batch) {account : String} (ha : account ∈ b.row.accounts)
    (hne : account ≠ issuer) : Recorded issuanceId b.row.ledgerIndex db' := by
  obtain ⟨_, _, -, -, h₃⟩ := writeBatch_ok h
  obtain ⟨first, hle, hmem⟩ := firstLedgers_le hb ha hne
  exact foldlM_establishes hmem
    (fun _ _ hs => recordHolder_records hs hle)
    (fun _ _ _ _ hr hs => recordHolder_keeps hr hs) h₃

/-! ## The claimed floor -/

/-- A recorded ledger bounds the floor. -/
theorem coverageFloor_le {issuanceId fromLedger toLedger ledger : ℕ} {db : Archive}
    (hrec : Recorded issuanceId ledger db) (hfrom : fromLedger ≤ ledger) :
    coverageFloor issuanceId fromLedger toLedger db ≤ ledger := by
  obtain ⟨r, hr, hid, first, hfirst, hle⟩ := hrec
  have hmem : first ∈ firstAcquisitions issuanceId db := by
    refine List.mem_filterMap.mpr ⟨r, List.mem_filter.mpr ⟨hr, ?_⟩, hfirst⟩
    exact decide_eq_true hid
  unfold coverageFloor
  refine le_trans (min_le_right _ _) ?_
  cases hmin : (firstAcquisitions issuanceId db).min? with
  | none =>
      rw [List.min?_eq_none_iff.mp hmin] at hmem
      exact nomatch hmem
  | some lo =>
      have hlo : lo ≤ first := (List.min?_eq_some_iff.mp hmin).2 first hmem
      exact max_le hfrom (le_trans hlo hle)

/-! ## The entries a sweep keeps -/

/-- The row of an entry. -/
theorem entryRow_some {X : Xrpl} {entry : BinaryTxEntry} {provenance : Provenance}
    {accounts : List String} {row : IngestTransaction}
    (h : entryRow X entry provenance accounts = some row) :
    row.hash = X.hashSignedTx entry.txBlob ∧ row.ledgerIndex = entry.ledgerIndex
      ∧ row.metaBlob = entry.metaBlob ∧ row.accounts = accounts := by
  obtain ⟨txType, -, rfl⟩ := Option.map_eq_some_iff.mp h
  exact ⟨rfl, rfl, rfl, rfl⟩

/-- The row of a kept entry links the issuer and the holders. -/
theorem issuerSweepEntryMapper_row {X : Xrpl} {tracked : List TrackedIssuance}
    {issuer : String} {provenance : Provenance} {entry : BinaryTxEntry} {b : MappedEntry}
    (h : issuerSweepEntryMapper X tracked issuer provenance entry = some (some b)) :
    ∃ m, X.decodeMeta entry.metaBlob = some m ∧ holdersInMeta m tracked ≠ []
      ∧ b.metadata = some m
      ∧ entryRow X entry provenance
          (distinctBy id (issuer :: (holdersInMeta m tracked).map (·.holder)))
        = some b.row := by
  obtain ⟨m, hm, h⟩ := Option.bind_eq_some_iff.mp h
  by_cases hnone : holdersInMeta m tracked = []
  · rw [if_pos hnone] at h
    exact nomatch h
  · rw [if_neg hnone] at h
    obtain ⟨row, hrow, hb⟩ := Option.map_eq_some_iff.mp h
    cases Option.some.inj hb
    exact ⟨m, hm, hnone, rfl, hrow⟩

/-- An entry that is kept touches a holder; its row has the entry's ledger, the
    issuer and the holders. -/
theorem issuerSweepEntryMapper_some {X : Xrpl} {tracked : List TrackedIssuance}
    {issuer : String} {provenance : Provenance} {entry : BinaryTxEntry}
    {b : MappedEntry}
    (h : issuerSweepEntryMapper X tracked issuer provenance entry = some (some b)) :
    ∃ m, X.decodeMeta entry.metaBlob = some m ∧ holdersInMeta m tracked ≠ []
      ∧ b.metadata = some m ∧ b.row.hash = X.hashSignedTx entry.txBlob
      ∧ b.row.ledgerIndex = entry.ledgerIndex
      ∧ ∀ d ∈ holdersInMeta m tracked, d.holder ∈ b.row.accounts := by
  obtain ⟨m, hm, hholders, hmeta, hrow⟩ := issuerSweepEntryMapper_row h
  obtain ⟨hhash, hledger, -, haccounts⟩ := entryRow_some hrow
  refine ⟨m, hm, hholders, hmeta, hhash, hledger, ?_⟩
  intro d hd
  rw [haccounts]
  exact mem_distinctBy_id.mpr (List.mem_cons_of_mem issuer (List.mem_map_of_mem hd))

theorem mem_sweepBatch {X : Xrpl} {tracked : List TrackedIssuance} {issuer : String}
    {page : BackfillPage} {batch : List MappedEntry}
    (h : sweepBatch X tracked issuer page = some batch) {b : MappedEntry}
    (hb : b ∈ batch) :
    ∃ entry ∈ page.entries,
      issuerSweepEntryMapper X tracked issuer page.provenance entry = some (some b) := by
  obtain ⟨mapped, hmapped, rfl⟩ := Option.map_eq_some_iff.mp h
  obtain ⟨o, ho, hob⟩ := List.mem_filterMap.mp hb
  have hob : o = some b := hob
  rw [hob] at ho
  exact mem_of_mapM_some hmapped ho

end RegistrarSweep
