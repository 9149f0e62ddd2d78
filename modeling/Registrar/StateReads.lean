import Registrar.Reconciler

/-! # Reading reconstructed state

    `account_info`, `account_lines` and `mpt_holders` answer the state of ledger
    objects, reconstructed from the metadata of the stored transactions at or
    before a ledger, and say which ledger that is.  The query has no order, so a
    `RowOrder` stands for the one it happens to answer in.

    A reconstruction keeps each object that some node shows, at the ledger of the
    newest one or a later: `exists_mem_of_shown`. -/

namespace RegistrarStateReads

open KeyedTable Statements RegistrarMetadata RegistrarArchive RegistrarReads
open RegistrarReconciler

/-! ## What a reconstruction keeps -/

theorem mem_observe {byId : Objects} {o x : ObjectState} (h : x ∈ byId.observe o) :
    x ∈ byId ∨ x = o := by
  rcases Table.mem_upsert.mp h with ⟨hx, -⟩ | ⟨old, hold, hk, rfl⟩ | ⟨rfl, -⟩
  · exact Or.inl hx
  · by_cases hnew : isNewer old o
    · rw [if_pos hnew, hk]
      exact Or.inr rfl
    · rw [if_neg hnew]
      exact Or.inl hold
  · exact Or.inr rfl

/-- An object stays, at its ledger or a later one. -/
theorem exists_observe {byId : Objects} {o y : ObjectState} (h : y ∈ byId ∨ y = o) :
    ∃ x ∈ byId.observe o, x.objectId = y.objectId ∧ y.ledgerIndex ≤ x.ledgerIndex := by
  by_cases hk : byId.HasKey o.objectId
  · obtain ⟨old, hold, hkey⟩ := hk
    have hkey : old.objectId = o.objectId := hkey
    have hmem : (if isNewer old o then { o with objectId := old.objectId } else old)
        ∈ byId.observe o := Table.mem_upsert.mpr (Or.inr (Or.inl ⟨old, hold, hkey, rfl⟩))
    refine h.elim (fun hy => ?_) (fun hy => ?_)
    · by_cases hyo : y.objectId = o.objectId
      · cases byId.eq_of_key_eq hy hold (hyo.trans hkey.symm)
        refine ⟨_, hmem, ?_⟩
        by_cases hnew : isNewer y o
        · rw [if_pos hnew]
          refine ⟨rfl, ?_⟩
          rcases hnew with hlt | ⟨heq, -⟩
          · exact hlt.le
          · exact heq.ge
        · rw [if_neg hnew]
          exact ⟨rfl, le_rfl⟩
      · exact ⟨y, Table.mem_upsert.mpr (Or.inl ⟨hy, hyo⟩), rfl, le_rfl⟩
    · refine ⟨_, hmem, ?_⟩
      rw [hy]
      by_cases hnew : isNewer old o
      · rw [if_pos hnew]
        exact ⟨hkey, le_rfl⟩
      · rw [if_neg hnew]
        refine ⟨hkey, ?_⟩
        by_contra hlt
        exact hnew (Or.inl (by omega))
  · rcases h with hy | rfl
    · refine ⟨y, Table.mem_upsert.mpr (Or.inl ⟨hy, ?_⟩), rfl, le_rfl⟩
      intro hyo
      exact hk ⟨y, hy, hyo⟩
    · exact ⟨y, Table.mem_upsert.mpr (Or.inr (Or.inr ⟨rfl, hk⟩)), rfl, le_rfl⟩

/-- The matching objects that the nodes of the entries show. -/
def shown (entries : List MetaEntry) (predicate : String → Fields → Bool) :
    List ObjectState :=
  (entries.flatMap extractNodes).filter (fun o => predicate o.entryType o.fields)

theorem mem_shown_of_mem {entries : List MetaEntry} {predicate : String → Fields → Bool}
    {x : ObjectState} (h : x ∈ latestObjects entries predicate) : x ∈ shown entries predicate := by
  have hfold : ∀ l : List ObjectState, ∀ x ∈ l.foldl Objects.observe Table.empty, x ∈ l := by
    intro l
    induction l using List.reverseRecOn with
    | nil => exact fun x hx => absurd hx (Table.not_mem_empty x)
    | append_singleton l o ih =>
        intro x hx
        rw [List.foldl_append] at hx
        rcases mem_observe hx with hx | rfl
        · exact List.mem_append_left _ (ih x hx)
        · exact List.mem_append_right _ (List.mem_singleton_self _)
  exact hfold _ x h

/-- Each object shown is kept, at its ledger or a later one. -/
theorem exists_mem_of_shown {entries : List MetaEntry} {predicate : String → Fields → Bool}
    {o : ObjectState} (h : o ∈ shown entries predicate) :
    ∃ x ∈ latestObjects entries predicate, o.ledgerIndex ≤ x.ledgerIndex := by
  have hfold : ∀ l : List ObjectState, ∀ o ∈ l, ∃ x ∈ l.foldl Objects.observe Table.empty,
      x.objectId = o.objectId ∧ o.ledgerIndex ≤ x.ledgerIndex := by
    intro l
    induction l using List.reverseRecOn with
    | nil => exact fun o ho => absurd ho List.not_mem_nil
    | append_singleton l o' ih =>
        intro o ho
        rw [List.foldl_append]
        rcases List.mem_append.mp ho with ho | ho
        · obtain ⟨x, hx, hid, hle⟩ := ih o ho
          obtain ⟨x', hx', hid', hle'⟩ := exists_observe (o := o') (Or.inl hx)
          exact ⟨x', hx', hid'.trans hid, hle.trans hle'⟩
        · exact exists_observe (Or.inr (List.mem_singleton.mp ho))
  obtain ⟨x, hx, -, hle⟩ := hfold _ o h
  exact ⟨x, hx, hle⟩

/-- An object taken from a node has an id and stands at its transaction's ledger. -/
theorem of_mem_extractNodes {e : MetaEntry} {o : ObjectState} (h : o ∈ extractNodes e) :
    o.objectId ≠ "" ∧ o.ledgerIndex = e.ledgerIndex := by
  obtain ⟨w, -, hw⟩ := List.mem_filterMap.mp h
  unfold extractNode at hw
  cases hnode : ((w.createdNode <|> w.modifiedNode) <|> w.deletedNode) with
  | none =>
      simp only [hnode] at hw
      cases hw
  | some node =>
      simp only [hnode] at hw
      cases htype : node.ledgerEntryType with
      | none =>
          simp only [htype] at hw
          cases hw
      | some type =>
          cases hid : node.ledgerIndex with
          | none =>
              simp only [htype, hid] at hw
              cases hw
          | some id =>
              simp only [htype, hid] at hw
              by_cases hempty : type = "" ∨ id = ""
              · rw [if_pos hempty] at hw
                cases hw
              · rw [if_neg hempty] at hw
                cases hw
                exact ⟨fun h => hempty (Or.inr h), rfl⟩

theorem objectId_ne {entries : List MetaEntry} {predicate : String → Fields → Bool}
    {o : ObjectState} (h : o ∈ latestObjects entries predicate) : o.objectId ≠ "" := by
  obtain ⟨ho, -⟩ := List.mem_filter.mp (mem_shown_of_mem h)
  obtain ⟨e, -, ho⟩ := List.mem_flatMap.mp ho
  exact (of_mem_extractNodes ho).1

/-! ## Requests -/

/-- A number of a request: `1e400` is read as `Infinity`. -/
inductive Number
  | finite (value : ℚ)
  | infinity
  | negInfinity
  deriving DecidableEq

/-- The range of a `bigint`. -/
def bigintMin : ℤ := -9223372036854775808

def bigintMax : ℤ := 9223372036854775807

/-- A number as the parameter of a statement that compares it with a `bigint`
    column; `none` where the statement is refused. -/
def bigintParam : Number → Option ℤ
  | .finite q => if q.den = 1 ∧ bigintMin ≤ q.num ∧ q.num ≤ bigintMax then some q.num else none
  | .infinity => none
  | .negInfinity => none

/-- `Number.MAX_SAFE_INTEGER`. -/
def maxSafeInteger : ℤ := 9007199254740991

/-- A request, each field `none` where it is absent or of another type. -/
structure StateRequest where
  account : Option String := none
  mptIssuanceId : Option String := none
  ledgerIndex : Option Number := none
  limit : Option Number := none
  marker : Option String := none

/-- The bound of the query: the requested ledger, or none. -/
def ledgerLimit (req : StateRequest) : Option ℤ :=
  match req.ledgerIndex with
  | some n => bigintParam n
  | none => some maxSafeInteger

/-- The order in which a query without `ORDER BY` answers. -/
structure RowOrder where
  arrange : List TransactionRow → List TransactionRow
  perm : ∀ rows, (arrange rows).Perm rows

/-- The rows as they are stored. -/
def storedOrder : RowOrder where
  arrange := id
  perm rows := List.Perm.refl rows

/-! ## `account_info` and `account_lines` -/

/-- The stored transactions linked to an account. -/
def accountTransactions (db : Archive) (address : String) : List TransactionRow :=
  db.transactions.rows.filter fun t =>
    ∃ link ∈ db.accountTransactions, link.hash = t.hash ∧ link.address = address

/-- The rows at or before a ledger. -/
def rowsUpTo (rows : List TransactionRow) (upTo : ℤ) : List TransactionRow :=
  rows.filter (fun t => (t.ledgerIndex : ℤ) ≤ upTo)

def accountMeta (order : RowOrder) (db : Archive) (address : String) (upTo : ℤ) :
    List TransactionRow :=
  order.arrange (rowsUpTo (accountTransactions db address) upTo)

/-- The AccountRoot of an account. -/
def accountRoot (account : String) (type : String) (fields : Fields) : Bool :=
  type = "AccountRoot" ∧ fields.account = some account

/-- The AccountRoot state for an account, or none. -/
def toAccountData (entries : List MetaEntry) (account : String) : Option Fields :=
  ((latestObjects entries (accountRoot account)).find? (fun o => !o.deleted)).map (·.fields)

/-- A trust line as one of its parties sees it. -/
structure AccountLine where
  account : String
  currency : String
  balance : ℚ
  limit : ℚ
  limitPeer : ℚ
  deriving DecidableEq

def amountValue (value : Option Amount) : ℚ := (value.bind (·.value)).getD 0

/-- A trust line the account is a party of. -/
def trustLine (account : String) (type : String) (fields : Fields) : Bool :=
  type = "RippleState" ∧ (amountIssuer fields.highLimit = some account
    ∨ amountIssuer fields.lowLimit = some account)

/-- A line from the side of the account. -/
def toAccountLine (account : String) (fields : Fields) : AccountLine :=
  let isLow : Bool := amountIssuer fields.lowLimit = some account
  let own := if isLow then fields.lowLimit else fields.highLimit
  let peer := if isLow then fields.highLimit else fields.lowLimit
  let rawBalance := amountValue fields.balance
  { account := (amountIssuer peer).getD ""
    currency := (fields.balance.bind (·.currency)).getD ""
    balance := if isLow then rawBalance else -rawBalance
    limit := amountValue own
    limitPeer := amountValue peer }

/-- The trust lines of an account, sorted by counterparty. -/
def toAccountLines (entries : List MetaEntry) (account : String) : List AccountLine :=
  ((latestObjects entries (trustLine account)).filterMap fun o =>
    if o.deleted then none else some (toAccountLine account o.fields)).insertionSort
      (fun a b => a.account ≤ b.account)

/-- The ledger a reconstruction is reported as of, and the ledger of the warning
    that it lies outside coverage. -/
structure AsOf where
  ledgerIndex : ℕ
  beyondCoverage : Option ℕ
  deriving DecidableEq

def asOfLedger (db : Archive) (coverage : Option Range) (entries : List MetaEntry) : AsOf :=
  match coverage with
  | some cov => ⟨cov.hi, none⟩
  | none =>
      let fromData := ((entries.map (·.ledgerIndex)).max?).getD (latestLedger db)
      ⟨fromData, some fromData⟩

/-- The answer of `account_info`. -/
structure AccountInfoAnswer where
  accountData : Fields
  asOf : AsOf
  deriving DecidableEq

/-- The answer of `account_lines`. -/
structure AccountLinesAnswer where
  account : String
  lines : List AccountLine
  asOf : AsOf
  deriving DecidableEq

/-- What both methods do first: the account has to be in scope, and its metadata
    have to decode. -/
def accountEntries (X : Xrpl) (order : RowOrder) (db : Archive) (req : StateRequest) :
    Option (Except ApiError (String × List MetaEntry)) :=
  match req.account.filter (fun s => decide (s ≠ "")) with
  | none => some (.error (.invalidParams "'account' is required"))
  | some account =>
      if ¬ db.accounts.HasKey account then
        some (.error (.notInArchive ("Account " ++ account)))
      else
        (ledgerLimit req).bind fun upTo =>
          (decodeMetaEntries X (accountMeta order db account upTo)).map fun entries =>
            .ok (account, entries)

def accountInfoAnswer (db : Archive) (account : String) (entries : List MetaEntry) :
    Except ApiError AccountInfoAnswer :=
  match toAccountData entries account with
  | none => .error (.notInArchive ("AccountRoot for " ++ account))
  | some accountData =>
      .ok ⟨accountData, asOfLedger db (accountCoverage db account) entries⟩

/-- `account_info`; `none` where it throws. -/
def handleAccountInfo (X : Xrpl) (order : RowOrder) (db : Archive) (req : StateRequest) :
    Option (Except ApiError AccountInfoAnswer) :=
  (accountEntries X order db req).map fun found =>
    found.bind fun p => accountInfoAnswer db p.1 p.2

/-- `account_lines`; `none` where it throws. -/
def handleAccountLines (X : Xrpl) (order : RowOrder) (db : Archive) (req : StateRequest) :
    Option (Except ApiError AccountLinesAnswer) :=
  (accountEntries X order db req).map fun found => found.map fun p =>
    ⟨p.1, toAccountLines p.2 p.1, asOfLedger db (accountCoverage db p.1) p.2⟩

/-! ## `mpt_holders` -/

/-- A token of the issuance. -/
def mpToken (mptIssuanceId : String) (type : String) (fields : Fields) : Bool :=
  type = "MPToken" ∧ fields.mptokenIssuanceID = some mptIssuanceId

/-- `Math.max(1, Math.min(400, limit ?? 50))`. -/
def pageLimit (limit : Option Number) : ℚ :=
  match limit with
  | none => 50
  | some (.finite q) => max 1 (min 400 q)
  | some .infinity => 400
  | some .negInfinity => 1

/-- The answer of `mpt_holders`. -/
structure MptHoldersAnswer where
  mptIssuanceId : String
  ledgerIndex : ℤ
  limit : ℚ
  mptokens : List MptHolder
  marker : Option String
  deriving DecidableEq

/-- One page of the holders: `slice` cuts a fractional limit down. -/
def holdersPage (all : List MptHolder) (limit : ℚ) (marker : Option String) :
    List MptHolder × Option String :=
  let ordered := all.insertionSort (fun a b : MptHolder => a.mptokenIndex ≤ b.mptokenIndex)
  let after := match marker.filter (fun s => decide (s ≠ "")) with
    | some marker => ordered.filter (fun h : MptHolder => marker < h.mptokenIndex)
    | none => ordered
  let page := after.take ⌊limit⌋.toNat
  (page, if (after.length : ℚ) > limit then page.getLast?.map (·.mptokenIndex) else none)

/-- `mpt_holders`; `none` where it throws. -/
def handleMptHolders (X : Xrpl) (order : RowOrder) (db : Archive) (req : StateRequest) :
    Option (Except ApiError MptHoldersAnswer) :=
  match req.mptIssuanceId.filter (fun s => decide (s ≠ "")) with
  | none => some (.error (.invalidParams "'mpt_issuance_id' is required"))
  | some mptId =>
      match db.issuances.rows.find? (fun i => i.mptIssuanceId = some mptId) with
      | none => some (.error (.notInArchive ("MPT issuance " ++ mptId)))
      | some tracked =>
          (ledgerLimit req).bind fun upTo =>
            (decodeMetaEntries X (order.arrange
                (rowsUpTo (issuanceTransactions db tracked.id) upTo))).map fun entries =>
              let limit := pageLimit req.limit
              let page := holdersPage (toMptHolders entries mptId) limit req.marker
              .ok { mptIssuanceId := mptId
                    ledgerIndex := if req.ledgerIndex.isSome then upTo else latestLedger db
                    limit, mptokens := page.1, marker := page.2 }

end RegistrarStateReads
