import Registrar.Archive
import Registrar.Library.Grouping

/-! # Reading the archive

    The queries behind the API: balances as sums of deltas, coverage, and the
    two methods that report balances, `archive_balance_at` and
    `gateway_balances`.  A query is a function of the database; a method
    returns an answer or one of the typed errors. -/

namespace RegistrarReads

open KeyedTable Grouping RegistrarMetadata RegistrarArchive

/-! ## Scope and coverage -/

/-- The members of an issuance. -/
def members (db : Archive) (issuanceId : ℕ) : List String :=
  (db.accountIssuance.rows.filter (fun r => r.issuanceId = issuanceId)).map
    (·.address)

def inIssuanceScope (db : Archive) (issuanceId : ℕ) (address : String) : Prop :=
  db.accountIssuance.HasKey (address, issuanceId)

instance (db : Archive) (issuanceId : ℕ) (address : String) :
    Decidable (inIssuanceScope db issuanceId address) :=
  inferInstanceAs (Decidable (Table.HasKey _ _))

theorem mem_members {db : Archive} {issuanceId : ℕ} {address : String} :
    address ∈ members db issuanceId ↔ inIssuanceScope db issuanceId address := by
  unfold members
  rw [List.mem_map]
  constructor
  · rintro ⟨r, hr, rfl⟩
    obtain ⟨hr, hiss⟩ := List.mem_filter.mp hr
    exact ⟨r, hr, Prod.ext rfl (of_decide_eq_true hiss)⟩
  · rintro ⟨r, hr, hk⟩
    have hiss : r.issuanceId = issuanceId := congrArg Prod.snd hk
    exact ⟨r, List.mem_filter.mpr ⟨hr, decide_eq_true hiss⟩, congrArg Prod.fst hk⟩

/-- A ledger range. -/
structure Range where
  lo : ℕ
  hi : ℕ
  deriving DecidableEq

/-- The coverage rows of an account. -/
def coverageOf (db : Archive) (address : String) : List CoverageRow :=
  db.coverage.filter (fun c => c.address = address)

/-- `ScopeRepository.accountCoverage`. -/
def accountCoverage (db : Archive) (address : String) : Option Range :=
  match ((coverageOf db address).map (·.fromLedger)).min?,
      ((coverageOf db address).map (·.toLedger)).max? with
  | some lo, some hi => some ⟨lo, hi⟩
  | _, _ => none

/-- The newest ledger with a recorded close time. -/
def tailHighWater (db : Archive) : Option ℕ :=
  (db.ledgers.rows.map (·.ledgerIndex)).max?

/-- The newest ledger an archived transaction lands in. -/
def archiveLatestLedger (db : Archive) : Option ℕ :=
  (db.transactions.rows.map (·.ledgerIndex)).max?

/-- The tail's high-water if it has run, else the newest transaction's ledger;
    zero for an empty archive. -/
def latestLedger (db : Archive) : ℕ :=
  (((tailHighWater db).toList ++ (archiveLatestLedger db).toList).max?).getD 0

/-- The window in which every member of the issuance is claimed complete. -/
def conservativeCoverage (db : Archive) (issuanceId : ℕ) : Option Range :=
  let rows := (members db issuanceId).flatMap (coverageOf db)
  let uncovered := (members db issuanceId).filter
    (fun a => (coverageOf db a).isEmpty)
  match (rows.map (·.fromLedger)).max?, (rows.map (·.toLedger)).min? with
  | some min, some backfillHi =>
      if uncovered.length > 0 then none
      else
        let max := match tailHighWater db with
          | none => backfillHi
          | some tailHi => Nat.max tailHi backfillHi
        if min > max then none else some ⟨min, max⟩
  | _, _ => none

/-! ## Sums of deltas -/

/-- The delta rows of an issuance whose transaction is at or before the
    ledger. -/
def deltasUpTo (db : Archive) (issuanceId ledger : ℕ) : List BalanceDeltaRow :=
  db.balanceDeltas.rows.filter fun r =>
    r.issuanceId = issuanceId
      ∧ ∃ t ∈ db.transactions, t.hash = r.hash ∧ t.ledgerIndex ≤ ledger

/-- `sum(delta)` of an account up to a ledger. -/
def balanceAt (db : Archive) (issuanceId : ℕ) (address : String) (ledger : ℕ) :
    ℚ :=
  (((deltasUpTo db issuanceId ledger).filter (fun r => r.address = address)).map
    (·.delta)).sum

/-- `sum(delta) ... GROUP BY address`. -/
def sumByAddress (rows : List BalanceDeltaRow) : List (AccountBalance ℚ) :=
  (rows.map (·.address)).dedup.map fun a =>
    ⟨a, ((rows.filter (fun r => r.address = a)).map (·.delta)).sum⟩

/-! ## `archive_balance_at` -/

/-- `ledger_index` of a request. -/
inductive LedgerKey
  | validated
  | index (n : ℕ)
  deriving DecidableEq

/-- A request, its fields already narrowed to the types the method accepts. -/
structure BalanceAtRequest where
  issuanceId : Option ℕ := none
  mptIssuanceId : Option String := none
  currency : Option String := none
  issuer : Option String := none
  account : Option String := none
  ledgerIndex : Option LedgerKey := none
  date : Option String := none

/-- The typed errors of the two methods. -/
inductive ApiError
  | invalidParams (message : String)
  | notInArchive (what : String)
  | outOfCoverage (currency issuer : String) (requestedLedger : ℕ)
      (coverage : Option Range)
  deriving DecidableEq

/-- Name the issuance of a request. -/
def resolveIssuance (db : Archive) (req : BalanceAtRequest) :
    Option IssuanceRow :=
  match req.issuanceId with
  | some id => db.issuances.find? id
  | none =>
      match req.mptIssuanceId.filter (fun s => decide (s ≠ "")) with
      | some mpt => db.issuances.rows.find? (fun i => i.mptIssuanceId = some mpt)
      | none =>
          match req.currency.filter (fun s => decide (s ≠ "")),
              req.issuer.filter (fun s => decide (s ≠ "")) with
          | some currency, some issuer =>
              db.issuances.rows.find? (fun i => i.kind = .iou
                ∧ i.currency = some (currencyToString currency)
                ∧ i.issuerAccount = some issuer)
          | _, _ => none

/-- Resolve the point in time of a request; `resolveTime` is the resolver of
    close times. -/
def resolveLedger (db : Archive) (resolveTime : String → Option ℕ)
    (req : BalanceAtRequest) : Except String ℕ :=
  match req.ledgerIndex with
  | some .validated =>
      match archiveLatestLedger db with
      | none => .error "the archive holds no transactions yet"
      | some latest => .ok latest
  | some (.index n) => .ok n
  | none =>
      match req.date.filter (fun s => decide (s ≠ "")) with
      | some time =>
          match resolveTime time with
          | none => .error ("no ledger recorded at or before " ++ time)
          | some ledger => .ok ledger
      | none => .error
          "'ledger_index' (a number or \"validated\") or 'date' (ISO timestamp) is required"

/-- The answer of `archive_balance_at`; `warning` is the coverage the requested
    ledger exceeds. -/
structure BalanceAtAnswer where
  account : String
  ledgerIndex : ℕ
  balance : ℚ
  warning : Option Range
  deriving DecidableEq

def handleBalanceAt (db : Archive) (resolveTime : String → Option ℕ)
    (req : BalanceAtRequest) : Except ApiError BalanceAtAnswer :=
  match resolveIssuance db req with
  | none => .error (.notInArchive "Issuance")
  | some issuance =>
      match req.account.filter (fun s => decide (s ≠ "")) with
      | none => .error (.invalidParams "'account' is required")
      | some account =>
          match resolveLedger db resolveTime req with
          | .error message => .error (.invalidParams message)
          | .ok ledger =>
              if ¬ inIssuanceScope db issuance.id account then
                .error (.notInArchive ("Account " ++ account))
              else .ok
                { account, ledgerIndex := ledger
                  balance := balanceAt db issuance.id account ledger
                  warning := (accountCoverage db account).filter
                    (fun c => decide (ledger > c.hi)) }

/-- What an answered request says: the sum of the member's deltas, and a
    warning when the ledger lies beyond the member's coverage. -/
theorem handleBalanceAt_ok {db : Archive} {resolveTime : String → Option ℕ}
    {req : BalanceAtRequest} {answer : BalanceAtAnswer}
    (h : handleBalanceAt db resolveTime req = .ok answer) :
    ∃ issuance, resolveIssuance db req = some issuance
      ∧ inIssuanceScope db issuance.id answer.account
      ∧ answer.balance = balanceAt db issuance.id answer.account answer.ledgerIndex
      ∧ answer.warning = (accountCoverage db answer.account).filter
          (fun c => decide (answer.ledgerIndex > c.hi)) := by
  unfold handleBalanceAt at h
  cases hiss : resolveIssuance db req with
  | none => rw [hiss] at h; exact nomatch h
  | some issuance =>
      cases hacc : req.account.filter (fun s => decide (s ≠ "")) with
      | none => rw [hiss, hacc] at h; exact nomatch h
      | some account =>
          cases hled : resolveLedger db resolveTime req with
          | error message => rw [hiss, hacc, hled] at h; exact nomatch h
          | ok ledger =>
              simp only [hiss, hacc, hled] at h
              by_cases hscope : ¬ inIssuanceScope db issuance.id account
              · rw [if_pos hscope] at h
                exact nomatch h
              · rw [if_neg hscope] at h
                cases h
                exact ⟨issuance, rfl, not_not.mp hscope, rfl, rfl⟩

/-! ## `gateway_balances` -/

/-- The on-wire form of a readable currency code. -/
def currencyToWire (code : String) : String :=
  if codeUnits code = 3 then code
  else
    let hex := (code.toUTF8.toList.flatMap fun b =>
      [hexChar (b.toNat / 16), hexChar (b.toNat % 16)])
    String.ofList (hex ++ List.replicate (40 - hex.length) '0')
where
  /-- An upper-case hexadecimal digit. -/
  hexChar (n : ℕ) : Char :=
    if n < 10 then Char.ofNat ('0'.toNat + n) else Char.ofNat ('A'.toNat + n - 10)

/-- A request; `hotwallet` and `ledgerIndex` are `none` where the field has a
    type the method refuses. -/
structure GatewayRequest where
  account : Option String := none
  hotwallet : Option (List String) := some []
  ledgerIndex : Option LedgerKey := some .validated

/-- The total of a currency in circulation. -/
structure Obligation where
  currency : String
  value : ℚ
  deriving DecidableEq

/-- The balances of a hot wallet, by currency. -/
structure HotBalances where
  address : String
  values : List Obligation
  deriving DecidableEq

/-- The answer of `gateway_balances`. -/
structure GatewayAnswer where
  account : String
  obligations : Table Obligation.currency
  balances : Table HotBalances.address
  ledgerIndex : ℕ

/-- The registered, enabled IOU issuances of an issuer, by currency. -/
def gatewayIssuances (db : Archive) (account : String) : List IssuanceRow :=
  (db.issuances.rows.filter fun i =>
    i.kind = .iou ∧ i.issuerAccount = some account ∧ i.enabled).insertionSort
      (fun a b => a.currency.getD "" ≤ b.currency.getD "")

/-- The coverage of an issuance does not include the ledger. -/
def OutOfCoverage (db : Archive) (ledger issuanceId : ℕ) : Prop :=
  match conservativeCoverage db issuanceId with
  | none => True
  | some cov => ledger < cov.lo ∨ ledger > cov.hi

instance (db : Archive) (ledger issuanceId : ℕ) :
    Decidable (OutOfCoverage db ledger issuanceId) := by
  unfold OutOfCoverage
  cases conservativeCoverage db issuanceId with
  | none => exact inferInstanceAs (Decidable True)
  | some cov => exact inferInstanceAs (Decidable (_ ∨ _))

/-- The holders of an issuance with a nonzero balance at the ledger; the issuer
    is never one. -/
def holderBalances (db : Archive) (account : String) (issuanceId ledger : ℕ) :
    List (AccountBalance ℚ) :=
  (sumByAddress (deltasUpTo db issuanceId ledger)).filter
    (fun b => b.account ≠ account ∧ b.balance ≠ 0)

/-- The outstanding total of an issuance, hot wallets left out. -/
def obligation (db : Archive) (account : String) (hotwallets : List String)
    (issuanceId ledger : ℕ) : ℚ :=
  (((holderBalances db account issuanceId ledger).filter
    (fun b => b.account ∉ hotwallets)).map (·.balance)).sum

/-- Add one issuance to the answer. -/
def addIssuance (db : Archive) (account : String) (hotwallets : List String)
    (ledger : ℕ) (answer : GatewayAnswer) (iss : IssuanceRow) : GatewayAnswer :=
  let wireCurrency := currencyToWire (iss.currency.getD "")
  let total := obligation db account hotwallets iss.id ledger
  { answer with
    balances :=
      ((holderBalances db account iss.id ledger).filter
        (fun b => b.account ∈ hotwallets)).foldl
        (fun t b => t.upsert
          (fun old new => { old with values := old.values ++ new.values })
          (fun _ _ => rfl) ⟨b.account, [⟨wireCurrency, b.balance⟩]⟩)
        answer.balances
    obligations :=
      if total = 0 then answer.obligations
      else answer.obligations.upsert (fun old new => { old with value := new.value })
        (fun _ _ => rfl) ⟨wireCurrency, total⟩ }

def handleGatewayBalances (db : Archive) (req : GatewayRequest) :
    Except ApiError GatewayAnswer :=
  match req.account.filter (fun s => decide (s ≠ "")) with
  | none => .error (.invalidParams "'account' is required")
  | some account =>
      match req.hotwallet with
      | none => .error (.invalidParams
          "'hotwallet' must be an account address or an array of addresses")
      | some hotwallets =>
          if gatewayIssuances db account = [] then
            .error (.notInArchive ("IOU issuer " ++ account))
          else
            match req.ledgerIndex with
            | none => .error (.invalidParams
                "'ledger_index' must be a ledger number or \"validated\"")
            | some key =>
                let ledger := match key with
                  | .validated => latestLedger db
                  | .index n => n
                match (gatewayIssuances db account).find?
                    (fun i => OutOfCoverage db ledger i.id) with
                | some iss => .error (.outOfCoverage (iss.currency.getD "") account
                    ledger (conservativeCoverage db iss.id))
                | none => .ok
                    ((gatewayIssuances db account).foldl
                      (addIssuance db account hotwallets ledger)
                      { account, obligations := Table.empty
                        balances := Table.empty, ledgerIndex := ledger })

/-- The total the answer gives for a currency; one it omits has nothing
    outstanding. -/
def GatewayAnswer.reported (answer : GatewayAnswer) (wireCurrency : String) : ℚ :=
  ((answer.obligations.find? wireCurrency).map (·.value)).getD 0

/-- What a successful answer rests on: the issuer has issuances, every one covers the
    ledger, and each adds its totals. -/
theorem handleGatewayBalances_ok {db : Archive} {req : GatewayRequest}
    {answer : GatewayAnswer} (h : handleGatewayBalances db req = .ok answer) :
    ∃ account hotwallets ledger, req.hotwallet = some hotwallets
      ∧ gatewayIssuances db account ≠ []
      ∧ (∀ i ∈ gatewayIssuances db account, ¬ OutOfCoverage db ledger i.id)
      ∧ answer = (gatewayIssuances db account).foldl
          (addIssuance db account hotwallets ledger)
          { account, obligations := Table.empty
            balances := Table.empty, ledgerIndex := ledger } := by
  unfold handleGatewayBalances at h
  cases hacc : req.account.filter (fun s => decide (s ≠ "")) with
  | none => rw [hacc] at h; exact nomatch h
  | some account =>
      cases hhot : req.hotwallet with
      | none => rw [hacc, hhot] at h; exact nomatch h
      | some hotwallets =>
          simp only [hacc, hhot] at h
          by_cases hnone : gatewayIssuances db account = []
          · rw [if_pos hnone] at h
            exact nomatch h
          · rw [if_neg hnone] at h
            cases hled : req.ledgerIndex with
            | none => rw [hled] at h; exact nomatch h
            | some key =>
                simp only [hled] at h
                cases hout : (gatewayIssuances db account).find? (fun i =>
                    OutOfCoverage db (match key with
                      | .validated => latestLedger db
                      | .index n => n) i.id) with
                | some iss => rw [hout] at h; exact nomatch h
                | none =>
                    rw [hout] at h
                    cases Except.ok.inj h
                    refine ⟨account, hotwallets, _, rfl, hnone, ?_, rfl⟩
                    intro i hi hc
                    exact absurd (decide_eq_true hc)
                      (List.find?_eq_none.mp hout i hi)

theorem foldl_addIssuance_fields (db : Archive) (account : String)
    (hotwallets : List String) (ledger : ℕ) (l : List IssuanceRow)
    (answer : GatewayAnswer) :
    (l.foldl (addIssuance db account hotwallets ledger) answer).account = answer.account
      ∧ (l.foldl (addIssuance db account hotwallets ledger) answer).ledgerIndex
        = answer.ledgerIndex := by
  induction l generalizing answer with
  | nil => exact ⟨rfl, rfl⟩
  | cons i l ih => exact ih (addIssuance db account hotwallets ledger answer i)

theorem addIssuance_find?_of_ne {db : Archive} {account wireCurrency : String}
    {hotwallets : List String} {ledger : ℕ} {answer : GatewayAnswer} {i : IssuanceRow}
    (hne : currencyToWire (i.currency.getD "") ≠ wireCurrency) :
    (addIssuance db account hotwallets ledger answer i).obligations.find? wireCurrency
      = answer.obligations.find? wireCurrency := by
  unfold addIssuance
  by_cases hzero : obligation db account hotwallets i.id ledger = 0
  · simp only [if_pos hzero]
  · simp only [if_neg hzero]
    have hkey : wireCurrency ≠ Obligation.currency ⟨currencyToWire (i.currency.getD ""),
      obligation db account hotwallets i.id ledger⟩ := Ne.symm hne
    exact Table.find?_upsert_of_ne hkey

theorem foldl_addIssuance_find?_of_ne {db : Archive} {account wireCurrency : String}
    {hotwallets : List String} {ledger : ℕ} {l : List IssuanceRow}
    (hne : ∀ i ∈ l, currencyToWire (i.currency.getD "") ≠ wireCurrency)
    (answer : GatewayAnswer) :
    (l.foldl (addIssuance db account hotwallets ledger) answer).obligations.find?
      wireCurrency = answer.obligations.find? wireCurrency := by
  induction l generalizing answer with
  | nil => rfl
  | cons i l ih =>
      rw [List.foldl_cons, ih (fun j hj => hne j (List.mem_cons_of_mem i hj)),
        addIssuance_find?_of_ne (hne i List.mem_cons_self)]

theorem addIssuance_reported {db : Archive} {account : String}
    {hotwallets : List String} {ledger : ℕ} {answer : GatewayAnswer} {i : IssuanceRow}
    (hnone : answer.obligations.find? (currencyToWire (i.currency.getD "")) = none) :
    (addIssuance db account hotwallets ledger answer i).reported
        (currencyToWire (i.currency.getD ""))
      = obligation db account hotwallets i.id ledger := by
  unfold GatewayAnswer.reported addIssuance
  by_cases htotal : obligation db account hotwallets i.id ledger = 0
  · simp only [if_pos htotal]
    rw [htotal, hnone]
    rfl
  · simp only [if_neg htotal]
    refine (congrArg (fun o : Option Obligation => (o.map (·.value)).getD 0)
      (?_ : _ = some (⟨currencyToWire (i.currency.getD ""),
        obligation db account hotwallets i.id ledger⟩ : Obligation))).trans rfl
    refine Table.find?_eq_some.mpr ⟨?_, rfl⟩
    exact Table.mem_upsert.mpr (Or.inr (Or.inr ⟨rfl, Table.find?_eq_none.mp hnone⟩))

theorem gatewayIssuances_nodup (db : Archive) (account : String) :
    (gatewayIssuances db account).Nodup :=
  (List.perm_insertionSort _ _).nodup_iff.mpr
    ((List.Nodup.of_map _ db.issuances.nodup).filter _)

/-- The total reported for an issuance whose currency no other issuance of the
    issuer has. -/
theorem handleGatewayBalances_reported {db : Archive} {req : GatewayRequest}
    {answer : GatewayAnswer} (h : handleGatewayBalances db req = .ok answer)
    {row : IssuanceRow} (hrow : row ∈ gatewayIssuances db answer.account)
    (hunique : ∀ i ∈ gatewayIssuances db answer.account,
      currencyToWire (i.currency.getD "") = currencyToWire (row.currency.getD "") →
      i = row) :
    ∃ hotwallets, req.hotwallet = some hotwallets
      ∧ answer.reported (currencyToWire (row.currency.getD ""))
        = obligation db answer.account hotwallets row.id answer.ledgerIndex := by
  obtain ⟨account, hotwallets, ledger, hhot, -, -, hanswer⟩ := handleGatewayBalances_ok h
  have hfields := foldl_addIssuance_fields db account hotwallets ledger
    (gatewayIssuances db account)
    { account, obligations := Table.empty, balances := Table.empty, ledgerIndex := ledger }
  rw [← hanswer] at hfields
  obtain ⟨haccount, hledger⟩ := hfields
  have haccount : answer.account = account := haccount
  have hledger : answer.ledgerIndex = ledger := hledger
  rw [haccount] at hrow hunique
  refine ⟨hotwallets, hhot, ?_⟩
  obtain ⟨before, rest, hsplit⟩ := List.append_of_mem hrow
  have hnodup := gatewayIssuances_nodup db account
  rw [hsplit] at hnodup
  obtain ⟨-, htail, hdisjoint⟩ := List.nodup_append.mp hnodup
  have hbefore : ∀ i ∈ before, currencyToWire (i.currency.getD "")
      ≠ currencyToWire (row.currency.getD "") := by
    intro i hi hwire
    have hsame := hunique i (by rw [hsplit]; exact List.mem_append_left _ hi) hwire
    exact hdisjoint i hi row List.mem_cons_self hsame
  have hrest : ∀ i ∈ rest, currencyToWire (i.currency.getD "")
      ≠ currencyToWire (row.currency.getD "") := by
    intro i hi hwire
    have hmem : i ∈ gatewayIssuances db account := by
      rw [hsplit]
      exact List.mem_append_right _ (List.mem_cons_of_mem row hi)
    exact (List.nodup_cons.mp htail).1 (hunique i hmem hwire ▸ hi)
  rw [hledger, haccount, hanswer, hsplit, List.foldl_append, List.foldl_cons]
  unfold GatewayAnswer.reported
  rw [foldl_addIssuance_find?_of_ne hrest]
  exact addIssuance_reported (foldl_addIssuance_find?_of_ne hbefore _)

/-- The outstanding total sums the deltas of the accounts that count. -/
theorem obligation_eq (db : Archive) (account : String) (hotwallets : List String)
    (issuanceId ledger : ℕ) :
    obligation db account hotwallets issuanceId ledger
      = (((deltasUpTo db issuanceId ledger).filter
          (fun r => r.address ≠ account ∧ r.address ∉ hotwallets)).map (·.delta)).sum := by
  let rows := deltasUpTo db issuanceId ledger
  let counts : String → Prop := fun a => a ≠ account ∧ a ∉ hotwallets
  have hsplit : (holderBalances db account issuanceId ledger).filter
      (fun b => b.account ∉ hotwallets)
      = ((sumByAddress rows).filter (fun b => counts b.account)).filter
        (fun b => b.balance ≠ 0) := by
    unfold holderBalances
    rw [List.filter_filter, List.filter_filter]
    refine List.filter_congr (fun b _ => ?_)
    rw [← Bool.decide_and, ← Bool.decide_and, decide_eq_decide]
    tauto
  have hgroups : ((sumByAddress rows).filter (fun b => counts b.account)).map (·.balance)
      = ((rows.map (·.address)).dedup.filter (fun a => counts a)).map (fun a =>
        (((rows.filter (fun r => counts r.address)).filter
          (fun r => r.address = a)).map (·.delta)).sum) := by
    unfold sumByAddress
    rw [List.filter_map, List.map_map]
    refine List.map_congr_left (fun a ha => ?_)
    have hcounts : counts a := of_decide_eq_true (List.mem_filter.mp ha).2
    show ((rows.filter (fun r => r.address = a)).map (·.delta)).sum = _
    rw [List.filter_filter]
    refine congrArg (fun l => (List.map BalanceDeltaRow.delta l).sum)
      (List.filter_congr (fun r _ => ?_))
    rw [← Bool.decide_and, decide_eq_decide]
    exact ⟨fun h => ⟨h, h ▸ hcounts⟩, And.left⟩
  unfold obligation
  rw [hsplit, sum_filter_of_zero, hgroups]
  · refine (sum_by_key ((List.nodup_dedup _).filter _) BalanceDeltaRow.address
      BalanceDeltaRow.delta ?_).symm
    intro r hr
    obtain ⟨hmem, hcounts⟩ := List.mem_filter.mp hr
    exact List.mem_filter.mpr
      ⟨List.mem_dedup.mpr (List.mem_map_of_mem hmem), hcounts⟩
  · intro b _ hzero
    exact not_not.mp hzero

end RegistrarReads
