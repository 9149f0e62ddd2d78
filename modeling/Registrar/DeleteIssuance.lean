import Registrar.Ingest

/-! # Deleting an issuance

    `deleteIssuance` purges an issuance together with the rows exclusive to
    it, in one transaction of ordered deletes.  What it must keep is stated as
    `KeepsIssuance`: everything another registered issuance owns.

    The purge always commits, keeps the foreign keys and leaves no row of the
    deleted issuance.  It keeps another issuance's data exactly when no account
    it removes is that issuance's issuer or carries one of its deltas or jobs
    (`delete_keeps_iff`). -/

namespace RegistrarDelete

open KeyedTable RegistrarMetadata RegistrarArchive

/-! ## The purge -/

/-- Why a delete statement fails: the row is still referenced. -/
inductive DeleteError
  | accountReferenced
  | transactionReferenced
  | issuanceReferenced
  deriving DecidableEq

/-- The issuer address, or the empty string when the stored id is malformed. -/
def safeIssuer (X : Xrpl) (i : IssuanceRow) : String :=
  (issuerOf X i).getD ""

/-- Some other issuance has the account in scope. -/
def heldElsewhere (db : Archive) (id : ℕ) (address : String) : Bool :=
  db.accountIssuance.rows.any
    (fun r => decide (r.address = address ∧ r.issuanceId ≠ id))

/-- The accounts of the issuance, except those of any other. -/
def exclusiveMembers (db : Archive) (id : ℕ) : List String :=
  ((db.accountIssuance.rows.filter (fun r => decide (r.issuanceId = id))).map
    (·.address)).filter (fun a => ! heldElsewhere db id a)

/-- Some other issuance has the account as its issuer. -/
def issuerIsAnotherIssuer (X : Xrpl) (db : Archive) (id : ℕ)
    (targetIssuer : String) : Bool :=
  targetIssuer ≠ "" &&
    (db.issuances.rows.filter (fun o => decide (o.id ≠ id))).any
      (fun o => decide (safeIssuer X o = targetIssuer))

/-- The addresses the purge removes. -/
def removable (X : Xrpl) (db : Archive) (target : IssuanceRow) : List String :=
  let targetIssuer := safeIssuer X target
  exclusiveMembers db target.id ++
    if targetIssuer ≠ "" ∧
        ! issuerIsAnotherIssuer X db target.id targetIssuer ∧
        ! heldElsewhere db target.id targetIssuer then
      [targetIssuer]
    else []

/-- The four deletes of rows keyed by the issuance. -/
def deleteKeyedRows (id : ℕ) (db : Archive) : Archive :=
  { db with
    balanceDeltas := db.balanceDeltas.deleteWhere (fun r => r.issuanceId = id)
    reconciliationRun :=
      db.reconciliationRun.filter (fun r => decide (r.issuanceId ≠ id))
    backfillJob := db.backfillJob.deleteWhere (fun r => r.issuanceId = id)
    accountIssuance :=
      db.accountIssuance.deleteWhere (fun r => r.issuanceId = id) }

/-- The deletes of everything that refers to the removed addresses. -/
def deleteAddressRows (addrs : List String) (db : Archive) : Archive :=
  { db with
    accountTransactions :=
      db.accountTransactions.deleteWhere (fun r => r.address ∈ addrs)
    coverage := db.coverage.filter (fun r => decide (r.address ∉ addrs))
    backfillJob := db.backfillJob.deleteWhere (fun r => r.address ∈ addrs)
    balanceDeltas := db.balanceDeltas.deleteWhere (fun r => r.address ∈ addrs) }

/-- A row of some table refers to one of the addresses. -/
def AccountReferenced (db : Archive) (addrs : List String) : Prop :=
  (∃ r ∈ db.accountIssuance.rows, r.address ∈ addrs)
    ∨ (∃ r ∈ db.accountTransactions.rows, r.address ∈ addrs)
    ∨ (∃ r ∈ db.balanceDeltas.rows, r.address ∈ addrs)
    ∨ (∃ r ∈ db.coverage, r.address ∈ addrs)
    ∨ (∃ r ∈ db.backfillJob.rows, r.address ∈ addrs)

instance (db : Archive) (addrs : List String) :
    Decidable (AccountReferenced db addrs) :=
  inferInstanceAs (Decidable (_ ∨ _))

/-- `DELETE FROM accounts WHERE address = ANY(...)`. -/
def deleteAccounts (addrs : List String) (db : Archive) :
    Except DeleteError Archive :=
  if AccountReferenced db addrs then .error .accountReferenced
  else .ok
    { db with accounts := db.accounts.deleteWhere (fun r => r.address ∈ addrs) }

/-- An account link or a delta refers to the transaction. -/
def TransactionReferenced (db : Archive) (hash : String) : Prop :=
  (∃ a ∈ db.accountTransactions.rows, a.hash = hash)
    ∨ (∃ b ∈ db.balanceDeltas.rows, b.hash = hash)

instance (db : Archive) (hash : String) :
    Decidable (TransactionReferenced db hash) :=
  inferInstanceAs (Decidable (_ ∨ _))

/-- Delete the transactions no account link and no delta refers to. -/
def deleteDeadTransactions (db : Archive) : Archive :=
  { db with
    transactions :=
      db.transactions.deleteWhere (fun t => ¬ TransactionReferenced db t.hash) }

/-- A row of some table refers to the issuance. -/
def IssuanceReferenced (db : Archive) (id : ℕ) : Prop :=
  (∃ r ∈ db.accountIssuance.rows, r.issuanceId = id)
    ∨ (∃ r ∈ db.balanceDeltas.rows, r.issuanceId = id)
    ∨ (∃ r ∈ db.backfillJob.rows, r.issuanceId = id)
    ∨ (∃ r ∈ db.reconciliationRun, r.issuanceId = id)

instance (db : Archive) (id : ℕ) : Decidable (IssuanceReferenced db id) :=
  inferInstanceAs (Decidable (_ ∨ _))

/-- `DELETE FROM issuances WHERE id = $1`. -/
def deleteIssuanceRow (id : ℕ) (db : Archive) : Except DeleteError Archive :=
  if IssuanceReferenced db id then .error .issuanceReferenced
  else .ok { db with issuances := db.issuances.deleteWhere (fun r => r.id = id) }

/-- Delete the removed accounts and what refers to them, if there is any. -/
def deleteOrphans (addrs : List String) (db : Archive) :
    Except DeleteError Archive :=
  if addrs.isEmpty then .ok db
  else deleteAccounts addrs (deleteAddressRows addrs db)

/-- The body of the purge transaction. -/
def purge (X : Xrpl) (target : IssuanceRow) (db : Archive) :
    Except DeleteError Archive := do
  let addrs := removable X db target
  let orphaned ← deleteOrphans addrs (deleteKeyedRows target.id db)
  deleteIssuanceRow target.id (deleteDeadTransactions orphaned)

/-- What a delete call did: nothing to delete, a transaction that failed and
    rolled back, or a committed purge with the counts of its summary. -/
inductive DeleteOutcome
  | notFound
  | failed (e : DeleteError)
  | committed (db : Archive)
      (accountsRemoved transactionsRemoved deltasRemoved : ℕ)

/-- `AdminApi.deleteIssuance`, up to the compaction that follows it. -/
def deleteIssuance (X : Xrpl) (id : ℕ) (db : Archive) : DeleteOutcome :=
  match db.issuances.find? id with
  | none => .notFound
  | some target =>
      match purge X target db with
      | .error e => .failed e
      | .ok db' => .committed db'
          (db.accounts.rows.length - db'.accounts.rows.length)
          (db.transactions.rows.length - db'.transactions.rows.length)
          (db.balanceDeltas.rows.filter
            (fun r => decide (r.issuanceId = id))).length

/-- The database after a delete call: only a committed purge changes it. -/
def DeleteOutcome.after (db : Archive) : DeleteOutcome → Archive
  | .notFound => db
  | .failed _ => db
  | .committed db' _ _ _ => db'

/-! ## What the purge does -/

/-- The account belongs to the issuance and to no other: a holder of it alone,
    or its issuer when no other issuance has it as issuer or holder. -/
def ExclusiveTo (X : Xrpl) (db : Archive) (target : IssuanceRow) (a : String) :
    Prop :=
  (∀ r ∈ db.accountIssuance, r.address = a → r.issuanceId = target.id)
    ∧ ((∃ r ∈ db.accountIssuance, r.address = a)
      ∨ (a ≠ "" ∧ a = safeIssuer X target
        ∧ ∀ o ∈ db.issuances, o.id ≠ target.id → safeIssuer X o ≠ a))

theorem heldElsewhere_eq_false {db : Archive} {id : ℕ} {a : String} :
    heldElsewhere db id a = false ↔
      ∀ r ∈ db.accountIssuance, r.address = a → r.issuanceId = id := by
  rw [heldElsewhere, List.any_eq_false]
  constructor
  · intro h r hr ha
    by_contra hne
    exact h r hr (decide_eq_true ⟨ha, hne⟩)
  · intro h r hr hd
    obtain ⟨ha, hne⟩ := of_decide_eq_true hd
    exact hne (h r hr ha)

theorem issuerIsAnotherIssuer_eq_false {X : Xrpl} {db : Archive} {id : ℕ}
    {a : String} (ha : a ≠ "") :
    issuerIsAnotherIssuer X db id a = false ↔
      ∀ o ∈ db.issuances, o.id ≠ id → safeIssuer X o ≠ a := by
  rw [issuerIsAnotherIssuer, decide_eq_true ha, Bool.true_and,
    List.any_eq_false]
  constructor
  · intro h o ho hne hiss
    exact h o (List.mem_filter.mpr ⟨ho, decide_eq_true hne⟩) (decide_eq_true hiss)
  · intro h o ho hd
    obtain ⟨hmem, hne⟩ := List.mem_filter.mp ho
    exact h o hmem (of_decide_eq_true hne) (of_decide_eq_true hd)

theorem mem_exclusiveMembers {db : Archive} {id : ℕ} {a : String} :
    a ∈ exclusiveMembers db id ↔
      (∃ r ∈ db.accountIssuance, r.address = a)
        ∧ ∀ r ∈ db.accountIssuance, r.address = a → r.issuanceId = id := by
  rw [exclusiveMembers, List.mem_filter, Bool.not_eq_true',
    heldElsewhere_eq_false]
  constructor
  · rintro ⟨hmap, hall⟩
    obtain ⟨r, hr, rfl⟩ := List.mem_map.mp hmap
    exact ⟨⟨r, (List.mem_filter.mp hr).1, rfl⟩, hall⟩
  · rintro ⟨⟨r, hr, ha⟩, hall⟩
    refine ⟨List.mem_map.mpr ⟨r, List.mem_filter.mpr ⟨hr, ?_⟩, ha⟩, hall⟩
    exact decide_eq_true (hall r hr ha)

/-- The removed addresses are the accounts exclusive to the issuance. -/
theorem mem_removable {X : Xrpl} {db : Archive} {target : IssuanceRow}
    {a : String} : a ∈ removable X db target ↔ ExclusiveTo X db target a := by
  rw [removable, List.mem_append, mem_exclusiveMembers]
  constructor
  · rintro (⟨hmem, hall⟩ | hiss)
    · exact ⟨hall, Or.inl hmem⟩
    · split at hiss
      · rename_i hcond
        obtain ⟨hne, hother, hheld⟩ := hcond
        obtain rfl := List.mem_singleton.mp hiss
        rw [Bool.not_eq_true'] at hother hheld
        exact ⟨heldElsewhere_eq_false.mp hheld,
          Or.inr ⟨hne, rfl, (issuerIsAnotherIssuer_eq_false hne).mp hother⟩⟩
      · exact nomatch hiss
  · rintro ⟨hall, hmem | ⟨hne, rfl, hother⟩⟩
    · exact Or.inl ⟨hmem, hall⟩
    · refine Or.inr ?_
      rw [if_pos]
      · exact List.mem_singleton.mpr rfl
      · refine ⟨hne, ?_, ?_⟩
        · rw [Bool.not_eq_true', issuerIsAnotherIssuer_eq_false hne]
          exact hother
        · rw [Bool.not_eq_true', heldElsewhere_eq_false]
          exact hall

/-- The rows the purge deletes, except those of `issuances` and
    `transactions`. -/
structure RowsDeleted (addrs : List String) (id : ℕ) (db db' : Archive) :
    Prop where
  accounts : ∀ r, r ∈ db'.accounts ↔ r ∈ db.accounts ∧ r.address ∉ addrs
  accountIssuance : ∀ r, r ∈ db'.accountIssuance ↔
    r ∈ db.accountIssuance ∧ r.issuanceId ≠ id
  accountTransactions : ∀ r, r ∈ db'.accountTransactions ↔
    r ∈ db.accountTransactions ∧ r.address ∉ addrs
  balanceDeltas : ∀ r, r ∈ db'.balanceDeltas ↔
    r ∈ db.balanceDeltas ∧ r.issuanceId ≠ id ∧ r.address ∉ addrs
  coverage : db'.coverage =
    db.coverage.filter (fun r => decide (r.address ∉ addrs))
  backfillJob : ∀ r, r ∈ db'.backfillJob ↔
    r ∈ db.backfillJob ∧ r.issuanceId ≠ id ∧ r.address ∉ addrs
  reconciliationRun : db'.reconciliationRun =
    db.reconciliationRun.filter (fun r => decide (r.issuanceId ≠ id))

/-- The effect of a committed purge on every table. -/
structure PurgeEffect (addrs : List String) (id : ℕ) (db db' : Archive) : Prop
    extends RowsDeleted addrs id db db' where
  issuances : ∀ r, r ∈ db'.issuances ↔ r ∈ db.issuances ∧ r.id ≠ id
  transactions : ∀ t, t ∈ db'.transactions ↔
    t ∈ db.transactions ∧ TransactionReferenced db' t.hash

/-- The removed addresses are unreferenced once their rows are deleted. -/
theorem not_accountReferenced (X : Xrpl) (db : Archive) (target : IssuanceRow) :
    ¬ AccountReferenced
      (deleteAddressRows (removable X db target) (deleteKeyedRows target.id db))
      (removable X db target) := by
  rintro (⟨r, hr, ha⟩ | ⟨r, hr, ha⟩ | ⟨r, hr, ha⟩ | ⟨r, hr, ha⟩ | ⟨r, hr, ha⟩)
  · -- a member that is left is a member of another issuance
    obtain ⟨hmem, hne⟩ := Table.mem_deleteWhere.mp hr
    exact hne ((mem_removable.mp ha).1 r hmem rfl)
  · exact (Table.mem_deleteWhere.mp hr).2 ha
  · exact (Table.mem_deleteWhere.mp hr).2 ha
  · exact of_decide_eq_true (List.mem_filter.mp hr).2 ha
  · exact (Table.mem_deleteWhere.mp hr).2 ha

/-- With no address to remove, the deletes keyed by the issuance are all. -/
theorem rowsDeleted_nil (id : ℕ) (db : Archive) :
    RowsDeleted [] id db (deleteKeyedRows id db) where
  accounts _ := ⟨fun h => ⟨h, List.not_mem_nil⟩, And.left⟩
  accountIssuance _ := Table.mem_deleteWhere
  accountTransactions _ := ⟨fun h => ⟨h, List.not_mem_nil⟩, And.left⟩
  balanceDeltas _ := Table.mem_deleteWhere.trans
    ⟨fun h => ⟨h.1, h.2, List.not_mem_nil⟩, fun h => ⟨h.1, h.2.1⟩⟩
  coverage := (List.filter_eq_self.mpr
    (fun _ _ => decide_eq_true List.not_mem_nil)).symm
  backfillJob _ := Table.mem_deleteWhere.trans
    ⟨fun h => ⟨h.1, h.2, List.not_mem_nil⟩, fun h => ⟨h.1, h.2.1⟩⟩
  reconciliationRun := rfl

/-- The deletes keyed by the issuance, then those by the removed addresses. -/
theorem rowsDeleted_addresses (addrs : List String) (id : ℕ) (db : Archive) :
    RowsDeleted addrs id db
      { deleteAddressRows addrs (deleteKeyedRows id db) with
        accounts := db.accounts.deleteWhere (fun r => r.address ∈ addrs) } where
  accounts _ := Table.mem_deleteWhere
  accountIssuance _ := Table.mem_deleteWhere
  accountTransactions _ := Table.mem_deleteWhere
  balanceDeltas _ := Table.mem_deleteWhere.trans
    ((and_congr_left' Table.mem_deleteWhere).trans and_assoc)
  coverage := rfl
  backfillJob _ := Table.mem_deleteWhere.trans
    ((and_congr_left' Table.mem_deleteWhere).trans and_assoc)
  reconciliationRun := rfl

/-- The orphan deletes never fail, whether or not there is an address. -/
theorem deleteOrphans_ok (X : Xrpl) (db : Archive) (target : IssuanceRow) :
    ∃ orphaned,
      deleteOrphans (removable X db target) (deleteKeyedRows target.id db)
        = .ok orphaned
      ∧ RowsDeleted (removable X db target) target.id db orphaned
      ∧ orphaned.issuances = db.issuances
      ∧ orphaned.transactions = db.transactions := by
  rw [deleteOrphans]
  by_cases hempty : (removable X db target).isEmpty
  · rw [if_pos hempty, List.isEmpty_iff.mp hempty]
    exact ⟨_, rfl, rowsDeleted_nil target.id db, rfl, rfl⟩
  · rw [if_neg hempty, deleteAccounts,
      if_neg (not_accountReferenced X db target)]
    exact ⟨_, rfl, rowsDeleted_addresses _ target.id db, rfl, rfl⟩

/-- Once its keyed rows are deleted the issuance is unreferenced. -/
theorem RowsDeleted.not_issuanceReferenced {addrs : List String} {id : ℕ}
    {db db' : Archive} (h : RowsDeleted addrs id db db') :
    ¬ IssuanceReferenced db' id := by
  rintro (⟨r, hr, hid⟩ | ⟨r, hr, hid⟩ | ⟨r, hr, hid⟩ | ⟨r, hr, hid⟩)
  · exact ((h.accountIssuance r).mp hr).2 hid
  · exact ((h.balanceDeltas r).mp hr).2.1 hid
  · exact ((h.backfillJob r).mp hr).2.1 hid
  · rw [h.reconciliationRun] at hr
    exact of_decide_eq_true (List.mem_filter.mp hr).2 hid

/-- **THE PURGE COMMITS**, whatever the state, with the effect above. -/
theorem purge_commits (X : Xrpl) (db : Archive) (target : IssuanceRow) :
    ∃ db', purge X target db = .ok db'
      ∧ PurgeEffect (removable X db target) target.id db db' := by
  obtain ⟨orphaned, hok, hrows, hiss, htx⟩ := deleteOrphans_ok X db target
  have hfree : ¬ IssuanceReferenced (deleteDeadTransactions orphaned) target.id :=
    hrows.not_issuanceReferenced
  refine ⟨{ deleteDeadTransactions orphaned with
      issuances := orphaned.issuances.deleteWhere (fun r => r.id = target.id) },
    ?_, ?_⟩
  · rw [purge, hok]
    show deleteIssuanceRow target.id (deleteDeadTransactions orphaned) = _
    rw [deleteIssuanceRow, if_neg hfree]
    rfl
  · refine { hrows with issuances := ?_, transactions := ?_ }
    · intro r
      rw [← hiss]
      exact Table.mem_deleteWhere
    · intro t
      rw [← htx]
      exact Table.mem_deleteWhere.trans (and_congr_right fun _ => not_not)

/-- A delete call commits exactly when the issuance is registered. -/
theorem deleteIssuance_after (X : Xrpl) (id : ℕ) (db : Archive) :
    ((deleteIssuance X id db).after db = db ∧ ¬ db.issuances.HasKey id)
      ∨ ∃ target ∈ db.issuances, target.id = id
        ∧ PurgeEffect (removable X db target) id db
          ((deleteIssuance X id db).after db) := by
  rw [deleteIssuance]
  cases hfind : db.issuances.find? id with
  | none => exact Or.inl ⟨rfl, Table.find?_eq_none.mp hfind⟩
  | some target =>
      obtain ⟨hmem, rfl⟩ := Table.find?_eq_some.mp hfind
      obtain ⟨db', hok, heff⟩ := purge_commits X db target
      refine Or.inr ⟨target, hmem, rfl, ?_⟩
      simp only [hok]
      exact heff

/-- The purge keeps the foreign keys. -/
theorem PurgeEffect.foreignKeys {X : Xrpl} {target : IssuanceRow}
    {db db' : Archive} (hfk : db.ForeignKeys)
    (h : PurgeEffect (removable X db target) target.id db db') :
    db'.ForeignKeys := by
  -- a surviving address keeps its account row, a surviving id its issuance
  have hacc : ∀ a, a ∉ removable X db target → db.accounts.HasKey a →
      db'.accounts.HasKey a := by
    rintro _ hout ⟨r, hr, rfl⟩
    exact ⟨r, (h.accounts r).mpr ⟨hr, hout⟩, rfl⟩
  have hiss : ∀ i, i ≠ target.id → db.issuances.HasKey i →
      db'.issuances.HasKey i := by
    rintro _ hne ⟨r, hr, rfl⟩
    exact ⟨r, (h.issuances r).mpr ⟨hr, hne⟩, rfl⟩
  have htx : ∀ hash, TransactionReferenced db' hash →
      db.transactions.HasKey hash → db'.transactions.HasKey hash := by
    rintro _ href ⟨t, ht, rfl⟩
    exact ⟨t, (h.transactions t).mpr ⟨ht, href⟩, rfl⟩
  constructor
  · intro r hr
    obtain ⟨hmem, hne⟩ := (h.accountIssuance r).mp hr
    refine hacc r.address ?_ (hfk.accountIssuance_address r hmem)
    intro hrem
    exact hne ((mem_removable.mp hrem).1 r hmem rfl)
  · intro r hr
    obtain ⟨hmem, hne⟩ := (h.accountIssuance r).mp hr
    exact hiss r.issuanceId hne (hfk.accountIssuance_issuance r hmem)
  · intro r hr
    obtain ⟨hmem, -⟩ := (h.accountTransactions r).mp hr
    exact htx r.hash (Or.inl ⟨r, hr, rfl⟩) (hfk.accountTransactions_hash r hmem)
  · intro r hr
    obtain ⟨hmem, hout⟩ := (h.accountTransactions r).mp hr
    exact hacc r.address hout (hfk.accountTransactions_address r hmem)
  · intro r hr
    obtain ⟨hmem, -, -⟩ := (h.balanceDeltas r).mp hr
    exact htx r.hash (Or.inr ⟨r, hr, rfl⟩) (hfk.balanceDeltas_hash r hmem)
  · intro r hr
    obtain ⟨hmem, -, hout⟩ := (h.balanceDeltas r).mp hr
    exact hacc r.address hout (hfk.balanceDeltas_address r hmem)
  · intro r hr
    obtain ⟨hmem, hne, -⟩ := (h.balanceDeltas r).mp hr
    exact hiss r.issuanceId hne (hfk.balanceDeltas_issuance r hmem)
  · intro r hr
    rw [h.coverage] at hr
    obtain ⟨hmem, hout⟩ := List.mem_filter.mp hr
    exact hacc r.address (of_decide_eq_true hout) (hfk.coverage_address r hmem)
  · intro r hr
    obtain ⟨hmem, -, hout⟩ := (h.backfillJob r).mp hr
    exact hacc r.address hout (hfk.backfillJob_address r hmem)
  · intro r hr
    obtain ⟨hmem, hne, -⟩ := (h.backfillJob r).mp hr
    exact hiss r.issuanceId hne (hfk.backfillJob_issuance r hmem)
  · intro r hr
    rw [h.reconciliationRun] at hr
    obtain ⟨hmem, hne⟩ := List.mem_filter.mp hr
    exact hiss r.issuanceId (of_decide_eq_true hne)
      (hfk.reconciliationRun_issuance r hmem)

/-! ## What another issuance keeps -/

/-- The account is a holder of the issuance or its issuer. -/
def Owns (X : Xrpl) (db : Archive) (j : IssuanceRow) (a : String) : Prop :=
  (∃ r ∈ db.accountIssuance, r.issuanceId = j.id ∧ r.address = a)
    ∨ issuerOf X j = some a

/-- The transaction is linked to an account of the issuance, or carries one of
    its deltas. -/
def OwnsTransaction (X : Xrpl) (db : Archive) (j : IssuanceRow)
    (hash : String) : Prop :=
  (∃ l ∈ db.accountTransactions, l.hash = hash ∧ Owns X db j l.address)
    ∨ (∃ d ∈ db.balanceDeltas, d.hash = hash ∧ d.issuanceId = j.id)

/-- All of the issuance's data is in `db'` exactly as it is in `db`. -/
structure KeepsIssuance (X : Xrpl) (j : IssuanceRow) (db db' : Archive) :
    Prop where
  issuance : j ∈ db'.issuances
  accountIssuance : ∀ r, r.issuanceId = j.id →
    (r ∈ db'.accountIssuance ↔ r ∈ db.accountIssuance)
  balanceDeltas : ∀ r, r.issuanceId = j.id →
    (r ∈ db'.balanceDeltas ↔ r ∈ db.balanceDeltas)
  backfillJob : ∀ r, r.issuanceId = j.id →
    (r ∈ db'.backfillJob ↔ r ∈ db.backfillJob)
  accounts : ∀ r, Owns X db j r.address →
    (r ∈ db'.accounts ↔ r ∈ db.accounts)
  coverage : ∀ a, Owns X db j a →
    db'.coverage.filter (fun r => decide (r.address = a))
      = db.coverage.filter (fun r => decide (r.address = a))
  accountTransactions : ∀ r, Owns X db j r.address →
    (r ∈ db'.accountTransactions ↔ r ∈ db.accountTransactions)
  transactions : ∀ t, OwnsTransaction X db j t.hash →
    (t ∈ db'.transactions ↔ t ∈ db.transactions)

/-- No account exclusive to `id` is the issuer of `j` (with an account row), or
    carries a delta or a job of `j`. -/
def SparesIssuance (X : Xrpl) (db : Archive) (id : ℕ) (j : IssuanceRow) :
    Prop :=
  ∀ target ∈ db.issuances, target.id = id →
    ∀ a, ExclusiveTo X db target a →
      ¬ (issuerOf X j = some a ∧ db.accounts.HasKey a)
      ∧ (∀ d ∈ db.balanceDeltas, d.issuanceId = j.id → d.address ≠ a)
      ∧ (∀ b ∈ db.backfillJob, b.issuanceId = j.id → b.address ≠ a)

/-- The delete either changes nothing, or keeps the foreign keys, leaves no row
    of the deleted issuance and keeps all of `j`'s data. -/
def DeleteKeeps (X : Xrpl) (db : Archive) (id : ℕ) (j : IssuanceRow) : Prop :=
  let db' := (deleteIssuance X id db).after db
  db' = db
    ∨ (db'.ForeignKeys ∧ ¬ db'.issuances.HasKey id
      ∧ ¬ IssuanceReferenced db' id ∧ KeepsIssuance X j db db')

/-- An account of `j` that the purge removes has no row at all. -/
theorem removed_owner_has_no_account {X : Xrpl} {db : Archive}
    {target j : IssuanceRow} (htarget : target ∈ db.issuances)
    (hj : j.id ≠ target.id) (hspare : SparesIssuance X db target.id j)
    {a : String} (hown : Owns X db j a) (hrem : a ∈ removable X db target) :
    ¬ db.accounts.HasKey a := by
  have hexcl := mem_removable.mp hrem
  rcases hown with ⟨r, hr, hid, rfl⟩ | hissuer
  · exact absurd (hid.symm.trans (hexcl.1 r hr rfl)) hj
  · intro hacc
    exact (hspare target htarget rfl a hexcl).1 ⟨hissuer, hacc⟩

/-- A purge that spares `j` keeps all of its data. -/
theorem PurgeEffect.keepsIssuance {X : Xrpl} {db db' : Archive}
    {target j : IssuanceRow} (hfk : db.ForeignKeys)
    (htarget : target ∈ db.issuances) (hmemj : j ∈ db.issuances)
    (hj : j.id ≠ target.id) (hspare : SparesIssuance X db target.id j)
    (h : PurgeEffect (removable X db target) target.id db db') :
    KeepsIssuance X j db db' := by
  have hgone : ∀ a, Owns X db j a → db.accounts.HasKey a →
      a ∉ removable X db target := by
    intro a hown hacc hrem
    exact removed_owner_has_no_account htarget hj hspare hown hrem hacc
  have hlinks : ∀ r, Owns X db j r.address →
      (r ∈ db'.accountTransactions ↔ r ∈ db.accountTransactions) := by
    intro r hown
    rw [h.accountTransactions]
    exact and_iff_left_of_imp
      (fun hr => hgone r.address hown (hfk.accountTransactions_address r hr))
  have hdeltas : ∀ r, r.issuanceId = j.id →
      (r ∈ db'.balanceDeltas ↔ r ∈ db.balanceDeltas) := by
    intro r hid
    rw [h.balanceDeltas]
    refine and_iff_left_of_imp (fun hr => ⟨by rw [hid]; exact hj, ?_⟩)
    intro hrem
    exact (hspare target htarget rfl _ (mem_removable.mp hrem)).2.1 r hr hid rfl
  refine ⟨(h.issuances j).mpr ⟨hmemj, hj⟩, ?_, hdeltas, ?_, ?_, ?_, hlinks, ?_⟩
  · intro r hid
    rw [h.accountIssuance]
    exact and_iff_left_of_imp (fun _ => by rw [hid]; exact hj)
  · intro r hid
    rw [h.backfillJob]
    refine and_iff_left_of_imp (fun hr => ⟨by rw [hid]; exact hj, ?_⟩)
    intro hrem
    exact (hspare target htarget rfl _ (mem_removable.mp hrem)).2.2 r hr hid rfl
  · intro r hown
    rw [h.accounts]
    exact and_iff_left_of_imp
      (fun hr => hgone r.address hown ⟨r, hr, rfl⟩)
  · intro a hown
    rw [h.coverage, List.filter_filter]
    refine List.filter_congr ?_
    intro r hr
    by_cases ha : r.address = a
    · have hout : r.address ∉ removable X db target := by
        rw [ha]
        exact hgone a hown (ha ▸ hfk.coverage_address r hr)
      rw [decide_eq_true ha, decide_eq_true hout]
      rfl
    · rw [decide_eq_false ha]
      rfl
  · intro t hown
    rw [h.transactions]
    refine and_iff_left_of_imp (fun _ => ?_)
    rcases hown with ⟨l, hl, hhash, hlown⟩ | ⟨d, hd, hhash, hid⟩
    · exact Or.inl ⟨l, (hlinks l hlown).mpr hl, hhash⟩
    · exact Or.inr ⟨d, (hdeltas d hid).mpr hd, hhash⟩

/-- A purge that keeps all of `j`'s data spares it. -/
theorem PurgeEffect.sparesIssuance {X : Xrpl} {db db' : Archive}
    {target j : IssuanceRow} (htarget : target ∈ db.issuances)
    (h : PurgeEffect (removable X db target) target.id db db')
    (hkeep : KeepsIssuance X j db db') : SparesIssuance X db target.id j := by
  intro target' htarget' hid a hexcl
  obtain rfl := db.issuances.eq_of_key_eq htarget' htarget hid
  have hrem : a ∈ removable X db target' := mem_removable.mpr hexcl
  refine ⟨?_, ?_, ?_⟩
  · rintro ⟨hissuer, r, hr, rfl⟩
    have hr' := (hkeep.accounts r (Or.inr hissuer)).mpr hr
    exact ((h.accounts r).mp hr').2 hrem
  · rintro d hd hdid rfl
    have hd' := (hkeep.balanceDeltas d hdid).mpr hd
    exact ((h.balanceDeltas d).mp hd').2.2 hrem
  · rintro b hb hbid rfl
    have hb' := (hkeep.backfillJob b hbid).mpr hb
    exact ((h.backfillJob b).mp hb').2.2 hrem

/-- **DELETION KEEPS ANOTHER ISSUANCE** exactly when it spares it: no account
    exclusive to the deleted issuance is the other one's issuer, or carries one
    of its deltas or jobs. -/
theorem delete_keeps_iff (X : Xrpl) {db : Archive} (hfk : db.ForeignKeys)
    (id : ℕ) {j : IssuanceRow} (hj : j ∈ db.issuances) (hne : j.id ≠ id) :
    DeleteKeeps X db id j ↔ SparesIssuance X db id j := by
  rcases deleteIssuance_after X id db with ⟨hsame, hnone⟩ | ⟨target, htarget, rfl, heff⟩
  · constructor
    · intro _ target htarget hid
      exact absurd ⟨target, htarget, hid⟩ hnone
    · intro _
      exact Or.inl hsame
  · constructor
    · rintro (hsame | ⟨-, -, -, hkeep⟩)
      · have hstill := (heff.issuances target).mp (by rw [hsame]; exact htarget)
        exact absurd rfl hstill.2
      · exact heff.sparesIssuance htarget hkeep
    · intro hspare
      refine Or.inr ⟨heff.foreignKeys hfk, ?_, heff.not_issuanceReferenced,
        heff.keepsIssuance hfk htarget hj hne hspare⟩
      rintro ⟨r, hr, hid⟩
      exact ((heff.issuances r).mp hr).2 hid

/-- Two IOU issuances whose issuers differ: `USD` of `rIssuerA` (1) and `EUR`
    of `rIssuerB` (2), each with its issuer-sweep job.  The holders of each are
    given. -/
def twoIssuances (usdHolder eurHolder : String)
    (h : [usdHolder, eurHolder, "rIssuerA", "rIssuerB"].dedup.Nodup) :
    Archive where
  issuances :=
    { rows := [⟨1, .iou, none, some "USD", some "rIssuerA", 0, true⟩,
        ⟨2, .iou, none, some "EUR", some "rIssuerB", 0, true⟩]
      nodup := by decide }
  accounts :=
    { rows := ([usdHolder, eurHolder, "rIssuerA", "rIssuerB"].dedup).map
        (fun a => ⟨a, some 100⟩)
      nodup := by
        rw [List.map_map]
        exact (List.map_id _).symm ▸ h }
  accountIssuance :=
    { rows := [⟨usdHolder, 1, "issuer_sweep", some 100⟩,
        ⟨eurHolder, 2, "issuer_sweep", some 100⟩]
      nodup := by simp [AccountIssuanceRow.key] }
  backfillJob :=
    { rows := [
        { id := 1, address := "rIssuerA", issuanceId := 1, kind := .issuer
          status := .completed },
        { id := 2, address := "rIssuerB", issuanceId := 2, kind := .issuer
          status := .completed }]
      nodup := by decide }
  issuanceSeq := 3
  jobSeq := 3

/-- An `xrpl` stub for states that hold no MPT and no blob. -/
def noXrpl : Xrpl where
  decodeMeta _ := none
  decodeTxType _ := none
  hashSignedTx blob := blob
  encodeAccountID _ := none

/-- With separate holders, deleting `USD` keeps `EUR`. -/
theorem delete_keeps_iff_separate :
    (twoIssuances "rAlice" "rBob" (by decide)).ForeignKeys
      ∧ (DeleteKeeps noXrpl (twoIssuances "rAlice" "rBob" (by decide)) 1
          ⟨2, .iou, none, some "EUR", some "rIssuerB", 0, true⟩
        ↔ SparesIssuance noXrpl (twoIssuances "rAlice" "rBob" (by decide)) 1
          ⟨2, .iou, none, some "EUR", some "rIssuerB", 0, true⟩) :=
  ⟨by decide, delete_keeps_iff noXrpl (by decide) 1 (by decide) (by decide)⟩

/-- When the issuer of `EUR` holds `USD`, deleting `USD` deletes the issuer's
    account and with it the issuer-sweep job of `EUR`. -/
theorem delete_drops_sweep_job_of_holding_issuer :
    (twoIssuances "rIssuerB" "rBob" (by decide)).ForeignKeys
      ∧ (⟨2, .iou, none, some "EUR", some "rIssuerB", 0, true⟩ : IssuanceRow)
        ∈ (twoIssuances "rIssuerB" "rBob" (by decide)).issuances
      ∧ ¬ DeleteKeeps noXrpl (twoIssuances "rIssuerB" "rBob" (by decide)) 1
          ⟨2, .iou, none, some "EUR", some "rIssuerB", 0, true⟩ := by
  refine ⟨by decide, by decide, ?_⟩
  rintro (hsame | ⟨-, -, -, hkeep⟩)
  · have hlen := congrArg (fun db => db.issuances.rows.length) hsame
    exact absurd hlen (by decide)
  · have hjob := (hkeep.backfillJob
      { id := 2, address := "rIssuerB", issuanceId := 2, kind := .issuer
        status := .completed } rfl).mpr (by decide)
    exact absurd hjob (by decide)

end RegistrarDelete
