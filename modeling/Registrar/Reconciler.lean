import Registrar.History
import Registrar.Library.Statements
import Registrar.Reads

/-! # Reconciliation

    The reconciler compares, for the members of an issuance, the balances the
    delta rows add up to with the ones reconstructed from the stored metadata,
    and records the outcome.

    A `CompleteArchive` is an archive that holds every transaction of a history
    that touches a member of the issuance, with its deltas.  Over one, both
    sides of the comparison are functions of the history alone:
    `CompleteArchive.balanceAt_eq` and `CompleteArchive.decode_issuance`. -/

namespace RegistrarReconciler

open KeyedTable Grouping Statements RegistrarMetadata RegistrarArchive RegistrarReads
open RegistrarHistory

/-! ## Comparing balance maps -/

/-- An account for which two balance maps differ. -/
structure Discrepancy (V : Type) where
  account : String
  derived : V
  reconstructed : V
  deriving DecidableEq

section Compare

variable {V : Type} [Zero V] [DecidableEq V]

/-- The accounts of either map whose balances differ, in order. -/
def discrepanciesOf (derived reconstructed : Balances V) : List (Discrepancy V) :=
  ((derived.rows.map (·.account) ++ reconstructed.rows.map (·.account)).dedup.insertionSort
    (· ≤ ·)).filterMap fun account =>
      if derived.get account = reconstructed.get account then none
      else some ⟨account, derived.get account, reconstructed.get account⟩

omit [DecidableEq V] in
theorem get_eq_zero {b : Balances V} {account : String}
    (h : ∀ r ∈ b, r.account ≠ account) : b.get account = 0 := by
  have hnone : b.find? account = none := by
    refine Table.find?_eq_none.mpr ?_
    rintro ⟨r, hr, hk⟩
    exact h r hr hk
  unfold Balances.get
  rw [hnone]
  rfl

/-- No discrepancy is reported exactly when the maps agree everywhere. -/
theorem discrepanciesOf_eq_nil {derived reconstructed : Balances V} :
    discrepanciesOf derived reconstructed = [] ↔
      ∀ account, derived.get account = reconstructed.get account := by
  unfold discrepanciesOf
  rw [List.filterMap_eq_nil_iff]
  constructor
  · intro h account
    by_cases hmem : account ∈ derived.rows.map (·.account)
        ++ reconstructed.rows.map (·.account)
    · have hnone := h account ((List.mem_insertionSort _).mpr (List.mem_dedup.mpr hmem))
      by_contra hne
      rw [if_neg hne] at hnone
      exact nomatch hnone
    · have hout : ∀ b : Balances V, account ∉ b.rows.map (·.account) →
          b.get account = 0 := by
        intro b hb
        refine get_eq_zero ?_
        intro r hr hk
        exact hb (List.mem_map.mpr ⟨r, hr, hk⟩)
      rw [hout derived (fun hd => hmem (List.mem_append_left _ hd)),
        hout reconstructed (fun hr => hmem (List.mem_append_right _ hr))]
  · intro h account _
    rw [if_pos (h account)]

/-- Keep only the entries whose account is listed. -/
def restrict (b : Balances V) (accounts : List String) : Balances V :=
  b.deleteWhere (fun r => r.account ∉ accounts)

omit [DecidableEq V] in
theorem get_restrict (b : Balances V) (accounts : List String) (account : String) :
    (restrict b accounts).get account
      = if account ∈ accounts then b.get account else 0 := by
  by_cases hin : account ∈ accounts
  · rw [if_pos hin]
    have hfind : (restrict b accounts).find? account = b.find? account := by
      cases hf : b.find? account with
      | none =>
          refine Table.find?_eq_none.mpr ?_
          rintro ⟨r, hr, hk⟩
          exact Table.find?_eq_none.mp hf ⟨r, (Table.mem_deleteWhere.mp hr).1, hk⟩
      | some r =>
          obtain ⟨hr, hk⟩ := Table.find?_eq_some.mp hf
          refine Table.find?_eq_some.mpr ⟨Table.mem_deleteWhere.mpr ⟨hr, ?_⟩, hk⟩
          rw [hk]
          exact not_not_intro hin
    unfold Balances.get
    rw [hfind]
  · rw [if_neg hin]
    refine get_eq_zero ?_
    intro r hr hk
    exact (Table.mem_deleteWhere.mp hr).2 (hk ▸ hin)

end Compare

def compareBalances (derived reconstructed : Balances ℤ) : List (Discrepancy ℤ) :=
  discrepanciesOf derived reconstructed

/-- Decimal variant of `compareBalances`. -/
def compareDecimalBalances (derived reconstructed : Balances ℚ) :
    List (Discrepancy ℚ) :=
  discrepanciesOf derived reconstructed

/-- Restricted to the members of an issuance, two maps have no discrepancy
    exactly when they agree on every member. -/
theorem discrepanciesOf_members {V : Type} [Zero V] [DecidableEq V]
    {db : Archive} {issuanceId : ℕ} {derived reconstructed : Balances V} :
    discrepanciesOf (restrict derived (members db issuanceId))
        (restrict reconstructed (members db issuanceId)) = [] ↔
      ∀ h, inIssuanceScope db issuanceId h → derived.get h = reconstructed.get h := by
  rw [discrepanciesOf_eq_nil]
  refine forall_congr' fun h => ?_
  rw [get_restrict, get_restrict]
  by_cases hin : inIssuanceScope db issuanceId h
  · rw [if_pos (mem_members.mpr hin), if_pos (mem_members.mpr hin)]
    exact ⟨fun heq _ => heq, fun heq => heq hin⟩
  · rw [if_neg (fun hm => hin (mem_members.mp hm)),
      if_neg (fun hm => hin (mem_members.mp hm))]
    exact ⟨fun _ h => absurd h hin, fun _ => rfl⟩

/-! ## The two sides of the comparison -/

/-- The delta rows of an issuance. -/
def issuanceDeltaRows (db : Archive) (issuanceId : ℕ) : List BalanceDeltaRow :=
  db.balanceDeltas.rows.filter (fun r => r.issuanceId = issuanceId)

/-- Summed decimal balance per account. -/
def decimalBalanceByAccount (db : Archive) (issuanceId : ℕ) : Balances ℚ :=
  (sumByAddress (issuanceDeltaRows db issuanceId)).foldl Balances.set Table.empty

/-- The sums grouped by address, as a map. -/
theorem get_sumByAddress (rows : List BalanceDeltaRow) (account : String) :
    ((sumByAddress rows).foldl Balances.set Table.empty).get account
      = ((rows.filter (fun r => r.address = account)).map (·.delta)).sum := by
  refine Balances.get_foldl_set ?_ ?_
  · rintro b hb rfl
    obtain ⟨a, -, rfl⟩ := List.mem_map.mp hb
    rfl
  · intro hno
    have hnil : rows.filter (fun r => r.address = account) = [] := by
      refine List.filter_eq_nil_iff.mpr ?_
      intro r hr hk
      refine hno ⟨account, _⟩ (List.mem_map.mpr ⟨account, ?_, rfl⟩) rfl
      rw [List.mem_dedup]
      exact List.mem_map.mpr ⟨r, hr, of_decide_eq_true hk⟩
    rw [hnil]
    rfl

/-- `BigInt` of a sum; `none` where it throws. -/
def toBigInt (q : ℚ) : Option ℤ := if q.den = 1 then some q.num else none

/-- Summed integer balance per account; `none` where a sum is no integer. -/
def balanceByAccount (db : Archive) (issuanceId : ℕ) : Option (Balances ℤ) :=
  ((sumByAddress (issuanceDeltaRows db issuanceId)).mapM fun b =>
    (toBigInt b.balance).map fun n => ⟨b.account, n⟩).map
      (List.foldl Balances.set Table.empty)

theorem toBigInt_intCast (n : ℤ) : toBigInt n = some n := by
  unfold toBigInt
  rw [if_pos (Rat.den_intCast n), Rat.num_intCast]

/-- Sums of integers are integers, and the integer map is the decimal one. -/
theorem balanceByAccount_some {db : Archive} {issuanceId : ℕ}
    (hint : ∀ r ∈ issuanceDeltaRows db issuanceId, ∃ n : ℤ, r.delta = n) :
    ∃ balances, balanceByAccount db issuanceId = some balances
      ∧ ∀ account, ((balances.get account : ℤ) : ℚ)
          = (decimalBalanceByAccount db issuanceId).get account := by
  have hsum : ∀ l : List BalanceDeltaRow, (∀ r ∈ l, ∃ n : ℤ, r.delta = n) →
      ∃ n : ℤ, (l.map (·.delta)).sum = n := by
    intro l hl
    induction l with
    | nil => exact ⟨0, rfl⟩
    | cons r l ih =>
        obtain ⟨n, hn⟩ := hl r List.mem_cons_self
        obtain ⟨m, hm⟩ := ih (fun r' hr' => hl r' (List.mem_cons_of_mem r hr'))
        exact ⟨n + m, by rw [List.map_cons, List.sum_cons, hn, hm, Int.cast_add]⟩
  obtain ⟨bs, hbs, hmem⟩ := mapM_some
    (f := fun b : AccountBalance ℚ => (toBigInt b.balance).map fun n =>
      (⟨b.account, n⟩ : AccountBalance ℤ))
    (l := sumByAddress (issuanceDeltaRows db issuanceId)) (by
      intro b hb
      obtain ⟨a, -, rfl⟩ := List.mem_map.mp hb
      obtain ⟨n, hn⟩ := hsum _ (fun r hr => hint r (List.mem_of_mem_filter hr))
      exact ⟨⟨a, n⟩, by rw [hn, toBigInt_intCast]; rfl⟩)
  refine ⟨bs.foldl Balances.set Table.empty, ?_, ?_⟩
  · unfold balanceByAccount
    rw [hbs]
    rfl
  · intro account
    obtain ⟨n, hn⟩ := hsum ((issuanceDeltaRows db issuanceId).filter
      (fun r => r.address = account))
      (fun r hr => hint r (List.mem_of_mem_filter hr))
    unfold decimalBalanceByAccount
    rw [get_sumByAddress, hn]
    refine congrArg Int.cast (Balances.get_foldl_set ?_ ?_)
    · rintro b hb rfl
      obtain ⟨b', hb', hmap⟩ := (hmem b).mp hb
      obtain ⟨m, hm, rfl⟩ := Option.map_eq_some_iff.mp hmap
      obtain ⟨a, -, rfl⟩ := List.mem_map.mp hb'
      rw [hn, toBigInt_intCast] at hm
      exact (Option.some.inj hm).symm
    · intro hno
      have hnil : (issuanceDeltaRows db issuanceId).filter
          (fun r => r.address = account) = [] := by
        refine List.filter_eq_nil_iff.mpr ?_
        intro r hr hk
        have hin : (⟨account, _⟩ : AccountBalance ℚ)
            ∈ sumByAddress (issuanceDeltaRows db issuanceId) :=
          List.mem_map.mpr ⟨account, List.mem_dedup.mpr
            (List.mem_map.mpr ⟨r, hr, of_decide_eq_true hk⟩), rfl⟩
        exact hno ⟨account, n⟩ ((hmem _).mpr ⟨_, hin, by
          rw [hn, toBigInt_intCast]
          rfl⟩) rfl
      rw [hnil] at hn
      exact Rat.intCast_inj.mp hn.symm

/-- The stored transactions linked to a member of the issuance. -/
def issuanceTransactions (db : Archive) (issuanceId : ℕ) : List TransactionRow :=
  db.transactions.rows.filter fun t =>
    ∃ link ∈ db.accountTransactions, link.hash = t.hash
      ∧ ∃ ai ∈ db.accountIssuance, ai.address = link.address
          ∧ ai.issuanceId = issuanceId

/-- Decode one stored `meta_blob`; `none` where `decode` throws. -/
def decodeMetaEntry (X : Xrpl) (row : TransactionRow) : Option MetaEntry :=
  (X.decodeMeta row.metaBlob).map fun m =>
    { ledgerIndex := row.ledgerIndex, metadata := m
      transactionIndex := m.transactionIndex.getD 0 }

/-- Decode stored `meta_blob`s into reconstruction entries. -/
def decodeMetaEntries (X : Xrpl) (rows : List TransactionRow) :
    Option (List MetaEntry) :=
  rows.mapM (decodeMetaEntry X)

/-- The holders `mpt_holders` pages through: those reconstructed from the
    transactions up to a ledger. -/
def mptHolders (X : Xrpl) (db : Archive) (issuanceId : ℕ) (mptIssuanceId : String)
    (upTo : ℕ) : Option (List MptHolder) :=
  (decodeMetaEntries X ((issuanceTransactions db issuanceId).filter
    (fun t => t.ledgerIndex ≤ upTo))).map (toMptHolders · mptIssuanceId)

/-! ## The reconciler -/

/-- The outcome of one run. -/
structure ReconciliationReport (V : Type) where
  issuanceId : ℕ
  passed : Bool
  discrepancies : List (Discrepancy V)
  deriving DecidableEq

/-- Record the outcome; `none` where the issuance is missing. -/
def record {V : Type} (db : Archive) (issuanceId : ℕ)
    (discrepancies : List (Discrepancy V)) :
    Option (Archive × ReconciliationReport V) :=
  if ¬ db.issuances.HasKey issuanceId then none
  else
    let passed := discrepancies.isEmpty
    some ({ db with reconciliationRun := db.reconciliationRun
              ++ [⟨issuanceId, passed, discrepancies.length⟩] },
      ⟨issuanceId, passed, discrepancies⟩)

def runIou (X : Xrpl) (db : Archive) (issuanceId : ℕ) (currency issuer : String) :
    Option (Archive × ReconciliationReport ℚ) :=
  (decodeMetaEntries X (issuanceTransactions db issuanceId)).bind fun entries =>
    let derived := decimalBalanceByAccount db issuanceId
    let reconstructed := toIouBalances entries issuer currency
    let inScope := members db issuanceId
    record db issuanceId
      (compareDecimalBalances (restrict derived inScope) (restrict reconstructed inScope))

/-- `new Map(holders.map((h) => [h.account, BigInt(h.mpt_amount)]))`. -/
def mptBalances (holders : List MptHolder) : Option (Balances ℤ) :=
  (holders.mapM fun h => (bigInt h.mptAmount).map fun n => ⟨h.account, n⟩).map
    (List.foldl Balances.set Table.empty)

def runMpt (X : Xrpl) (db : Archive) (issuanceId : ℕ) (mptIssuanceId : String) :
    Option (Archive × ReconciliationReport ℤ) :=
  (balanceByAccount db issuanceId).bind fun derived =>
    (decodeMetaEntries X (issuanceTransactions db issuanceId)).bind fun entries =>
      (mptBalances (toMptHolders entries mptIssuanceId)).bind fun reconstructed =>
        let inScope := members db issuanceId
        record db issuanceId
          (compareBalances (restrict derived inScope) (restrict reconstructed inScope))

/-! ## The part of an account -/

section Share

variable {M : Type} [AddCommMonoid M]

/-- The part of a transaction's deltas that falls on an account. -/
def deltaOf (deltas : List (String × M)) (account : String) : M :=
  ((deltas.filter (fun d => d.1 = account)).map (·.2)).sum

/-- The part of one delta that falls on an account. -/
def share (account : String) (d : Option (String × M)) : M :=
  (d.map (fun d => if d.1 = account then d.2 else 0)).getD 0

/-- A delta of zero is not reported, and that is no loss. -/
theorem share_change [DecidableEq M] (account holder : String) (change : M) :
    share account (if change = 0 then none else some (holder, change))
      = if holder = account then change else 0 := by
  by_cases hzero : change = 0
  · rw [if_pos hzero, hzero, ite_self]
    rfl
  · rw [if_neg hzero]
    rfl

theorem deltaOf_cons (d : String × M) (l : List (String × M)) (account : String) :
    deltaOf (d :: l) account = (if d.1 = account then d.2 else 0) + deltaOf l account := by
  unfold deltaOf
  by_cases hacc : d.1 = account
  · rw [List.filter_cons_of_pos (by simpa using hacc), List.map_cons, List.sum_cons,
      if_pos hacc]
  · rw [List.filter_cons_of_neg (by simpa using hacc), if_neg hacc, zero_add]

theorem deltaOf_filterMap {α : Type} (f : α → Option (String × M)) (account : String)
    (l : List α) :
    deltaOf (l.filterMap f) account = (l.map (fun a => share account (f a))).sum := by
  induction l with
  | nil => rfl
  | cons a l ih =>
      rw [List.map_cons, List.sum_cons, ← ih]
      cases hd : f a with
      | none =>
          rw [List.filterMap_cons_none hd]
          exact (zero_add _).symm
      | some d =>
          rw [List.filterMap_cons_some hd, deltaOf_cons]
          rfl

/-- The part of an account does not depend on how numbers are stored. -/
theorem deltaOf_map {N : Type} [AddCommMonoid N] (φ : M →+ N) (l : List (String × M))
    (account : String) :
    deltaOf (l.map (fun d => (d.1, φ d.2))) account = φ (deltaOf l account) := by
  induction l with
  | nil => exact (map_zero φ).symm
  | cons d l ih =>
      rw [List.map_cons, deltaOf_cons, deltaOf_cons, map_add, ih, apply_ite φ, map_zero]

end Share

/-! ## A complete archive of a history -/

variable {type : String} {records : Fields → Fields → Option Fields → Prop}

/-- An archive that holds every transaction of the history that touches a
    member of the issuance, with the deltas derived from it, and holds nothing
    that is not of the history. -/
structure CompleteArchive (X : Xrpl) (issuanceId : ℕ) (H : History type records)
    (touches : MetaEntry → String → Prop) (deltas : Meta → List (String × ℚ)) where
  db : Archive
  registered : db.issuances.HasKey issuanceId
  foreignKeys : db.ForeignKeys
  /-- The hash of each transaction of the history. -/
  hash : MetaEntry → String
  hash_injective : ∀ e ∈ H.entries, ∀ e' ∈ H.entries, hash e = hash e' → e = e'
  stored : ∀ t ∈ db.transactions, ∃ e ∈ H.entries,
    t.hash = hash e ∧ decodeMetaEntry X t = some e
  complete : ∀ e ∈ H.entries, ∀ a, inIssuanceScope db issuanceId a → touches e a →
    db.transactions.HasKey (hash e) ∧ db.accountTransactions.HasKey (hash e, a)
  derived : ∀ e ∈ H.entries, db.transactions.HasKey (hash e) →
    ((db.balanceDeltas.rows.filter
        (fun r => r.issuanceId = issuanceId ∧ r.hash = hash e)).map
      (fun r => (r.address, r.delta))).Perm (deltas e.metadata)

namespace CompleteArchive

variable {X : Xrpl} {issuanceId : ℕ} {H : History type records}
  {touches : MetaEntry → String → Prop} {deltas : Meta → List (String × ℚ)}

theorem ledgerIndex_eq {t : TransactionRow} {e : MetaEntry}
    (h : decodeMetaEntry X t = some e) : e.ledgerIndex = t.ledgerIndex := by
  obtain ⟨m, -, rfl⟩ := Option.map_eq_some_iff.mp h
  rfl

/-- What the reconciler decodes is of the history, and has every transaction
    that touches a member. -/
theorem decode_issuance (A : CompleteArchive X issuanceId H touches deltas) :
    ∃ entries, decodeMetaEntries X (issuanceTransactions A.db issuanceId) = some entries
      ∧ (∀ e ∈ entries, e ∈ H.entries)
      ∧ ∀ e ∈ H.entries, ∀ a, inIssuanceScope A.db issuanceId a → touches e a →
          e ∈ entries := by
  have hrow : ∀ t ∈ issuanceTransactions A.db issuanceId, ∃ e ∈ H.entries,
      t.hash = A.hash e ∧ decodeMetaEntry X t = some e :=
    fun t ht => A.stored t (List.mem_of_mem_filter ht)
  obtain ⟨entries, hdecode, hmem⟩ := mapM_some (f := decodeMetaEntry X)
    (l := issuanceTransactions A.db issuanceId) (by
      intro t ht
      obtain ⟨e, -, -, hd⟩ := hrow t ht
      exact ⟨e, hd⟩)
  refine ⟨entries, hdecode, ?_, ?_⟩
  · intro e he
    obtain ⟨t, ht, hd⟩ := (hmem e).mp he
    obtain ⟨e', he', -, hd'⟩ := hrow t ht
    cases hd.symm.trans hd'
    exact he'
  · intro e he a ha htouch
    obtain ⟨⟨t, ht, hkt⟩, ⟨link, hlink, hkl⟩⟩ := A.complete e he a ha htouch
    obtain ⟨ai, hai, hka⟩ := ha
    have hread : t ∈ issuanceTransactions A.db issuanceId := by
      refine List.mem_filter.mpr ⟨ht, decide_eq_true ⟨link, hlink, ?_, ai, hai, ?_, ?_⟩⟩
      · exact (congrArg Prod.fst hkl).trans hkt.symm
      · exact (congrArg Prod.fst hka).trans (congrArg Prod.snd hkl).symm
      · exact congrArg Prod.snd hka
    obtain ⟨e', he', hhash, hd⟩ := hrow t hread
    cases A.hash_injective e he e' he' (hkt.symm.trans hhash)
    exact (hmem e).mpr ⟨t, hread, hd⟩

/-- The delta rows an archived transaction has for an account of the issuance
    add up to what its metadata says. -/
theorem sum_rows_of_hash (A : CompleteArchive X issuanceId H touches deltas)
    {e : MetaEntry} (he : e ∈ H.entries) (hstored : A.db.transactions.HasKey (A.hash e))
    (a : String) :
    ((A.db.balanceDeltas.rows.filter (fun r => r.issuanceId = issuanceId
        ∧ r.hash = A.hash e ∧ r.address = a)).map (·.delta)).sum
      = deltaOf (deltas e.metadata) a := by
  have hperm := ((A.derived e he hstored).filter (fun d => d.1 = a)).map (·.2)
  rw [List.filter_map, List.map_map, List.filter_filter] at hperm
  unfold deltaOf
  rw [← hperm.sum_eq]
  congr 1
  refine congrArg (List.map _) (List.filter_congr ?_)
  intro r _
  simp only [Function.comp, decide_eq_decide, ← Bool.decide_and]
  tauto

/-- **BALANCES OF A COMPLETE ARCHIVE**: what the delta rows of a member add up
    to is a function of the history. -/
theorem balanceAt_eq (A : CompleteArchive X issuanceId H touches deltas)
    {a : String} (ha : inIssuanceScope A.db issuanceId a)
    (htouch : ∀ e ∈ H.entries, ¬ touches e a → deltaOf (deltas e.metadata) a = 0)
    (ledger : ℕ) :
    balanceAt A.db issuanceId a ledger
      = ((H.entriesUpTo ledger).map (fun e => deltaOf (deltas e.metadata) a)).sum := by
  have hnodup : ((H.entriesUpTo ledger).map A.hash).Nodup := by
    refine List.Nodup.map_on ?_ ((H.sorted.imp ?_).filter _)
    · intro e he e' he' h
      exact A.hash_injective e (List.mem_of_mem_filter he) e' (List.mem_of_mem_filter he') h
    · intro e e' hlt heq
      exact lt_irrefl _ (heq ▸ hlt)
  let rows := (deltasUpTo A.db issuanceId ledger).filter (fun r => r.address = a)
  have hmem : ∀ r, r ∈ rows ↔ r ∈ A.db.balanceDeltas.rows ∧ r.issuanceId = issuanceId
      ∧ r.address = a ∧ ∃ t ∈ A.db.transactions, t.hash = r.hash
        ∧ t.ledgerIndex ≤ ledger := by
    intro r
    simp only [rows, deltasUpTo, List.mem_filter, decide_eq_true_eq]
    tauto
  have hkeys : ∀ r ∈ rows, r.hash ∈ (H.entriesUpTo ledger).map A.hash := by
    intro r hr
    obtain ⟨-, -, -, t, ht, hhash, hled⟩ := (hmem r).mp hr
    obtain ⟨e, he, hk, hd⟩ := A.stored t ht
    refine List.mem_map.mpr ⟨e, List.mem_filter.mpr ⟨he, decide_eq_true ?_⟩, ?_⟩
    · rw [ledgerIndex_eq hd]
      exact hled
    · exact hk.symm.trans hhash
  show (rows.map BalanceDeltaRow.delta).sum = _
  rw [sum_by_key hnodup BalanceDeltaRow.hash BalanceDeltaRow.delta hkeys, List.map_map]
  refine congrArg List.sum (List.map_congr_left ?_)
  intro e he
  obtain ⟨hent, hle⟩ := List.mem_filter.mp he
  have hle : e.ledgerIndex ≤ ledger := of_decide_eq_true hle
  show ((rows.filter (fun r => r.hash = A.hash e)).map BalanceDeltaRow.delta).sum
    = deltaOf (deltas e.metadata) a
  by_cases hstored : A.db.transactions.HasKey (A.hash e)
  · rw [← A.sum_rows_of_hash hent hstored a]
    obtain ⟨t, ht, hk⟩ := hstored
    obtain ⟨e', he', hhash, hd⟩ := A.stored t ht
    cases A.hash_injective e hent e' he' (hk.symm.trans hhash)
    have hled : t.ledgerIndex ≤ ledger := (ledgerIndex_eq hd) ▸ hle
    simp only [rows, deltasUpTo, List.filter_filter]
    refine congrArg (fun l => (List.map BalanceDeltaRow.delta l).sum)
      (List.filter_congr ?_)
    intro r hr
    simp only [← Bool.decide_and, decide_eq_decide]
    constructor
    · rintro ⟨hh, haddr, hiss, -⟩
      exact ⟨hiss, hh, haddr⟩
    · rintro ⟨hiss, hh, haddr⟩
      exact ⟨hh, haddr, hiss, t, ht, hk.trans hh.symm, hled⟩
  · -- not stored: no row refers to it, and it does not touch the account
    have hnot : ¬ touches e a := fun h => hstored (A.complete e hent a ha h).1
    have hno : rows.filter (fun r => r.hash = A.hash e) = [] := by
      refine List.filter_eq_nil_iff.mpr ?_
      intro r hr hsel
      have hrow := ((hmem r).mp hr).1
      exact hstored (of_decide_eq_true hsel ▸ A.foreignKeys.balanceDeltas_hash r hrow)
    rw [htouch e hent hnot, hno]
    rfl

/-- The derived balance of a member sums its deltas over the whole history. -/
theorem get_derived (A : CompleteArchive X issuanceId H touches deltas)
    {a : String} (ha : inIssuanceScope A.db issuanceId a)
    (htouch : ∀ e ∈ H.entries, ¬ touches e a → deltaOf (deltas e.metadata) a = 0) :
    ((sumByAddress (issuanceDeltaRows A.db issuanceId)).foldl
        Balances.set Table.empty).get a
      = (H.entries.map (fun e => deltaOf (deltas e.metadata) a)).sum := by
  obtain ⟨ledger, hall⟩ := H.exists_upTo_eq
  have hrows : deltasUpTo A.db issuanceId ledger = issuanceDeltaRows A.db issuanceId := by
    refine List.filter_congr ?_
    intro r hr
    rw [decide_eq_decide]
    refine ⟨And.left, fun hiss => ⟨hiss, ?_⟩⟩
    obtain ⟨t, ht, hk⟩ := A.foreignKeys.balanceDeltas_hash r hr
    obtain ⟨e, he, -, hd⟩ := A.stored t ht
    rw [← hall] at he
    exact ⟨t, ht, hk, (ledgerIndex_eq hd) ▸ (History.mem_upTo.mp he).2⟩
  have hbal := A.balanceAt_eq ha htouch ledger
  unfold balanceAt at hbal
  rw [hrows] at hbal
  rw [get_sumByAddress, hbal]
  exact congrArg (fun l => (List.map _ l).sum) hall

end CompleteArchive

end RegistrarReconciler
