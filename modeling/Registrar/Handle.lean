import Registrar.AccountTx
import Registrar.Periods

/-! # The read API

    `ArchiveApi.handle` classifies a request by its method: archive reads are answered
    from the tables, node state and submissions are forwarded upstream, and so, if that
    is enabled, are reads of an account the archive does not have.  What upstream
    answers is never passed off as the archive's, and what the archive answers is about
    something it has: everything else is an error. -/

namespace RegistrarHandle

open KeyedTable Statements RegistrarMetadata RegistrarArchive RegistrarReads Bisection
open RegistrarLedgerTimes RegistrarStateReads RegistrarAccountTx
open RegistrarPeriods (TransactionsRequest TransactionsAnswer IssuanceIdentity issuanceIdentity
  handleTransactions resolveLedger_balanceAt)

/-! ## Requests -/

/-- The methods the API knows. -/
inductive Command
  | accountTx
  | tx
  | accountInfo
  | accountLines
  | mptHolders
  | gatewayBalances
  | archiveBalanceAt
  | archiveTransactions
  | serverInfo
  | ledger
  | fee
  | submit
  | submitMultisigned
  | other (name : String)
  deriving DecidableEq

def Command.name : Command → String
  | .accountTx => "account_tx"
  | .tx => "tx"
  | .accountInfo => "account_info"
  | .accountLines => "account_lines"
  | .mptHolders => "mpt_holders"
  | .gatewayBalances => "gateway_balances"
  | .archiveBalanceAt => "archive_balance_at"
  | .archiveTransactions => "archive_transactions"
  | .serverInfo => "server_info"
  | .ledger => "ledger"
  | .fee => "fee"
  | .submit => "submit"
  | .submitMultisigned => "submit_multisigned"
  | .other name => name

/-- `NODE_STATE`. -/
def nodeState : List Command := [.serverInfo, .ledger, .fee]

/-- `SUBMISSION`. -/
def submission : List Command := [.submit, .submitMultisigned]

/-- `ARCHIVE_SCOPED`, all of it implemented. -/
def archiveScoped : List Command :=
  [.accountTx, .tx, .accountInfo, .accountLines, .mptHolders, .gatewayBalances]

/-- `ACCOUNT_SCOPED`. -/
def accountScoped : List Command := [.accountTx, .accountInfo, .accountLines]

/-- `REPORTING`. -/
def reporting : List Command := [.archiveBalanceAt, .archiveTransactions]

/-- `api_version`: 2, or something else as it prints. -/
inductive ApiVersion
  | two
  | other (printed : String)
  deriving DecidableEq

/-- `ledger_index`: one of `"validated"`, `"current"` and `"latest"`, a ledger, or a value
    of another type. -/
inductive LedgerField
  | latest
  | index (n : ℕ)
  | other
  deriving DecidableEq

/-- A request, each field `none` where it is absent or, `api_version` and `ledger_index`
    apart, of another type; `hotwallet` is `none` where it is refused. -/
structure ApiRequest where
  command : Command
  apiVersion : Option ApiVersion := none
  account : Option String := none
  transaction : Option String := none
  txHash : Option String := none
  binary : Bool := false
  forward : Bool := false
  limit : Option Number := none
  marker : Option String := none
  ledgerIndex : Option LedgerField := none
  ledgerIndexMin : Option Number := none
  ledgerIndexMax : Option Number := none
  hotwallet : Option (List String) := some []
  issuanceId : Option ℕ := none
  mptIssuanceId : Option String := none
  currency : Option String := none
  issuer : Option String := none
  date : Option String := none
  fromLedger : Option LedgerKey := none
  fromTime : Option String := none
  toLedger : Option LedgerKey := none
  toTime : Option String := none

/-- The request as `account_tx` reads it. -/
def ApiRequest.toTx (req : ApiRequest) : TxRequest where
  account := req.account
  binary := req.binary
  forward := req.forward
  limit := req.limit
  ledgerIndexMin := req.ledgerIndexMin
  ledgerIndexMax := req.ledgerIndexMax
  marker := req.marker

/-- As `account_info`, `account_lines` and `mpt_holders` do: only a number is a ledger. -/
def ApiRequest.toState (req : ApiRequest) : StateRequest where
  account := req.account
  mptIssuanceId := req.mptIssuanceId
  ledgerIndex := match req.ledgerIndex with
    | some (.index n) => some (.finite n)
    | _ => none
  limit := req.limit
  marker := req.marker

/-- As `gateway_balances` does: another type is refused. -/
def ApiRequest.toGateway (req : ApiRequest) : GatewayRequest where
  account := req.account
  hotwallet := req.hotwallet
  ledgerIndex := match req.ledgerIndex with
    | none => some .validated
    | some .latest => some .validated
    | some (.index n) => some (.index n)
    | some .other => none

/-- As the reporting methods do: another type is ignored. -/
def ApiRequest.toTransactions (req : ApiRequest) : TransactionsRequest where
  issuanceId := req.issuanceId
  mptIssuanceId := req.mptIssuanceId
  currency := req.currency
  issuer := req.issuer
  account := req.account
  ledgerIndex := match req.ledgerIndex with
    | some .latest => some .validated
    | some (.index n) => some (.index n)
    | _ => none
  date := req.date
  fromLedger := req.fromLedger
  fromTime := req.fromTime
  toLedger := req.toLedger
  toTime := req.toTime

/-! ## Responses -/

/-- One tracked issuance of the scope of the archive. -/
structure IssuanceSummary where
  id : ℕ
  kind : Kind
  mptIssuanceId : Option String
  currency : Option String
  issuer : Option String
  deriving DecidableEq

structure ArchiveScopeSummary where
  issuances : List IssuanceSummary
  coverage : Option Range
  deriving DecidableEq

/-- `ScopeRepository.summarize`. -/
def summarize (db : Archive) : ArchiveScopeSummary where
  issuances := (db.issuances.rows.insertionSort (fun a b => a.id ≤ b.id)).map fun i =>
    ⟨i.id, i.kind, i.mptIssuanceId, i.currency, i.issuerAccount⟩
  coverage := match (db.coverage.map (·.fromLedger)).min?,
      (db.coverage.map (·.toLedger)).max? with
    | some lo, some hi => some ⟨lo, hi⟩
    | _, _ => none

inductive ErrorDetails
  | scope (scope : ArchiveScopeSummary)
  | coverage (currency issuer : String) (requestedLedger : ℕ) (coverage : Option Range)
  deriving DecidableEq

/-- `errorResult`. -/
structure ErrorResult where
  error : String
  errorMessage : String
  details : Option ErrorDetails := none
  deriving DecidableEq

def invalidApiVersion (got : Option ApiVersion) : ErrorResult where
  error := "invalidApiVersion"
  errorMessage := "api_version 2 is required (got " ++ (match got with
    | none => "none"
    | some .two => "2"
    | some (.other printed) => printed) ++ ")."

def unsupported (command : String) : ErrorResult where
  error := "unsupported"
  errorMessage := "Method '" ++ command ++ "' is not supported by this archive."

def forwardingUnavailable (command : String) : ErrorResult where
  error := "forwardingUnavailable"
  errorMessage := "Could not forward '" ++ command ++ "' upstream."

/-- An error of a method, with the archive's scope where something is not in it. -/
def errorResult (db : Archive) : ApiError → ErrorResult
  | .invalidParams message => ⟨"invalidParams", message, none⟩
  | .notInArchive what => ⟨"notInArchive", what ++
      " is not in this filtered archive (it may exist on the ledger, out of scope).",
      some (.scope (summarize db))⟩
  | .outOfCoverage currency issuer ledger coverage => ⟨"outOfCoverage",
      "The archive's guaranteed coverage for " ++ currency ++ "/" ++ issuer
        ++ " does not include ledger " ++ toString ledger
        ++ "; refusing to report a possibly-incomplete total.",
      some (.coverage currency issuer ledger coverage)⟩

structure ClioWarning where
  id : ℕ
  message : String
  details : Option BeyondCoverage := none
  deriving DecidableEq

def clioWarning : ClioWarning where
  id := 2001
  message := "This is a clio server. clio only serves validated data. If you want to talk to " ++
    "rippled, include 'ledger_index':'current' in your request"

def filteredArchiveWarning : ClioWarning where
  id := 65001
  message := "This is a filtered XRPL archive: it serves only accounts in scope for its tracked " ++
    "issuances. Absence of data may mean out-of-scope, not non-existent."

def forwardedNotArchiveWarning : ClioWarning where
  id := 65002
  message := "This response was proxied from an upstream node and is not archive-sourced; it " ++
    "carries no completeness or provenance guarantee."

def rangeBeyondCoverageWarning (beyond : BeyondCoverage) : ClioWarning where
  id := 65003
  message := "The requested ledger range exceeds this account's guaranteed-complete coverage; " ++
    "results outside coverage may be incomplete."
  details := some beyond

def gatewayAssetsNotTrackedWarning : ClioWarning where
  id := 65004
  message := "gateway_balances from this filtered archive reports the issuer's obligations (and " ++
    "any hot-wallet balances) only. It does NOT report 'assets' — tokens the issuer holds that " ++
    "were issued by others — which are out of scope; query an upstream node for those."

def localWarnings : List ClioWarning := [clioWarning, filteredArchiveWarning]

/-- `result` of a response; upstream's is of any type. -/
inductive Result (R : Type)
  | accountTx (answer : TxAnswer)
  | tx (entry : TxEntry)
  | accountInfo (answer : AccountInfoAnswer)
  | accountLines (answer : AccountLinesAnswer)
  | mptHolders (answer : MptHoldersAnswer)
  | gatewayBalances (answer : GatewayAnswer)
  | balanceAt (issuance : IssuanceIdentity) (answer : BalanceAtAnswer)
  | transactions (answer : TransactionsAnswer)
  | error (error : ErrorResult)
  | upstream (result : R)

structure ApiResponse (R : Type) where
  result : Result R
  warnings : List ClioWarning
  forwarded : Bool

/-- `extraWarnings` of a method's answer. -/
def extraWarnings {R : Type} : Result R → List ClioWarning
  | .accountTx answer => answer.warning.toList.map rangeBeyondCoverageWarning
  | .accountInfo answer => answer.asOf.beyondCoverage.toList.map fun n =>
      rangeBeyondCoverageWarning ⟨none, some n, none⟩
  | .accountLines answer => answer.asOf.beyondCoverage.toList.map fun n =>
      rangeBeyondCoverageWarning ⟨none, some n, none⟩
  | .gatewayBalances _ => [gatewayAssetsNotTrackedWarning]
  | .balanceAt _ answer => answer.warning.toList.map fun coverage =>
      rangeBeyondCoverageWarning ⟨none, some answer.ledgerIndex, some coverage⟩
  | _ => []

/-! ## Methods -/

/-- A resolver of timestamps writes nothing but close times. -/
structure TimeResolver where
  resolve : LedgerTimeResolver
  caches : ∀ db iso, (resolve db iso).1 = { db with ledgers := (resolve db iso).1.ledgers }

/-- `archive_balance_at`, with a resolver that may write and throw. -/
def handleBalanceAt (db : Archive) (resolveTime : LedgerTimeResolver) (req : BalanceAtRequest) :
    Archive × Option (Except ApiError (IssuanceIdentity × BalanceAtAnswer)) :=
  match resolveIssuance db req with
  | none => (db, some (.error (.notInArchive "Issuance")))
  | some issuance =>
      match req.account.filter (fun s => decide (s ≠ "")) with
      | none => (db, some (.error (.invalidParams "'account' is required")))
      | some account =>
          match RegistrarPeriods.resolveLedger db "ledger_index" "date" req.ledgerIndex req.date
              resolveTime none with
          | (db', none) => (db', none)
          | (db', some (.error message)) => (db', some (.error (.invalidParams message)))
          | (db', some (.ok ledger)) =>
              if ¬ inIssuanceScope db' issuance.id account then
                (db', some (.error (.notInArchive ("Account " ++ account))))
              else (db', some (.ok (issuanceIdentity issuance,
                { account, ledgerIndex := ledger
                  balance := balanceAt db' issuance.id account ledger
                  warning := (accountCoverage db' account).filter
                    (fun c => decide (ledger > c.hi)) })))

/-- With a resolver that neither writes nor throws it is the method on balances. -/
theorem handleBalanceAt_pure (db : Archive) (f : String → Option ℕ) (req : BalanceAtRequest) :
    (handleBalanceAt db (fun db iso => (db, some (f iso))) req).1 = db
      ∧ (handleBalanceAt db (fun db iso => (db, some (f iso))) req).2.map (·.map (·.2))
        = some (RegistrarReads.handleBalanceAt db f req) := by
  unfold handleBalanceAt RegistrarReads.handleBalanceAt
  rw [resolveLedger_balanceAt]
  cases resolveIssuance db req with
  | none => exact ⟨rfl, rfl⟩
  | some issuance =>
      cases req.account.filter (fun s => decide (s ≠ "")) with
      | none => exact ⟨rfl, rfl⟩
      | some account =>
          cases RegistrarReads.resolveLedger db f req with
          | error message => exact ⟨rfl, rfl⟩
          | ok ledger =>
              by_cases hscope : ¬ inIssuanceScope db issuance.id account
              · simp only [if_pos hscope]
                exact ⟨trivial, rfl⟩
              · simp only [if_neg hscope]
                exact ⟨trivial, rfl⟩

/-- `tx`; `none` where it throws. -/
def handleTx (X : Xrpl) (db : Archive) (req : ApiRequest) : Option (Except ApiError TxEntry) :=
  match (req.transaction <|> req.txHash).filter (fun s => decide (s ≠ "")) with
  | none => some (.error (.invalidParams "'transaction' (a transaction hash) is required"))
  | some hash =>
      match db.transactions.find? hash with
      | none => some (.error (.notInArchive ("Transaction " ++ hash)))
      | some row => (txEntry X req.binary row).map .ok

/-- The `result` of what a method returns. -/
def toResult {R α : Type} (db : Archive) (f : α → Result R) : Except ApiError α → Result R
  | .ok a => f a
  | .error e => .error (errorResult db e)

section Api

variable {R : Type} (X : Xrpl) (order : RowOrder)

/-- What upstream answers to a forwarded request. -/
structure ForwardResult (R : Type) where
  result : R
  warnings : List ClioWarning

/-- The API's options; a forwarder that is disabled refuses. -/
structure ArchiveApi (R : Type) where
  forwarder : ApiRequest → Option (ForwardResult R) := fun _ => none
  forwardUnknown : Bool := false
  resolveLedgerTime : TimeResolver

/-- The archive reads; `none` where one throws. -/
def dispatchArchive (db : Archive) (req : ApiRequest) : Option (Result R) :=
  match req.command with
  | .accountTx => (handleAccountTx X db req.toTx).map (toResult db .accountTx)
  | .tx => (handleTx X db req).map (toResult db .tx)
  | .accountInfo => (handleAccountInfo X order db req.toState).map (toResult db .accountInfo)
  | .accountLines => (handleAccountLines X order db req.toState).map (toResult db .accountLines)
  | .mptHolders => (handleMptHolders X order db req.toState).map (toResult db .mptHolders)
  | .gatewayBalances =>
      some (toResult db .gatewayBalances (handleGatewayBalances db req.toGateway))
  | _ => some (.error (unsupported req.command.name))

/-- The reporting methods. -/
def dispatchReporting (resolveTime : LedgerTimeResolver) (db : Archive) (req : ApiRequest) :
    Archive × Option (Result R) :=
  if req.command = .archiveBalanceAt then
    let answer := handleBalanceAt db resolveTime req.toTransactions.toBalanceAtRequest
    (answer.1, answer.2.map (toResult answer.1 fun a => .balanceAt a.1 a.2))
  else
    let answer := handleTransactions db resolveTime req.toTransactions
    (answer.1, answer.2.map (toResult answer.1 .transactions))

def localResponse (result : Result R) : ApiResponse R where
  result := result
  warnings := localWarnings ++ extraWarnings result
  forwarded := false

def forward (api : ArchiveApi R) (req : ApiRequest) : ApiResponse R :=
  match api.forwarder req with
  | some forwarded => ⟨.upstream forwarded.result,
      forwarded.warnings ++ [forwardedNotArchiveWarning], true⟩
  | none => localResponse (.error (forwardingUnavailable req.command.name))

/-- The request reads an account that the archive does not have. -/
def UnknownAccount (db : Archive) (req : ApiRequest) : Prop :=
  ∃ account ∈ req.account, account ≠ "" ∧ ¬ db.accounts.HasKey account

instance (db : Archive) (req : ApiRequest) : Decidable (UnknownAccount db req) :=
  inferInstanceAs (Decidable (∃ account ∈ req.account, _ ∧ _))

def handle (api : ArchiveApi R) (db : Archive) (req : ApiRequest) :
    Archive × Option (ApiResponse R) :=
  if req.apiVersion ≠ some .two then
    (db, some (localResponse (.error (invalidApiVersion req.apiVersion))))
  else if req.command ∈ reporting then
    let answer := dispatchReporting api.resolveLedgerTime.resolve db req
    (answer.1, answer.2.map localResponse)
  else if req.command ∈ nodeState ∨ req.command ∈ submission then
    (db, some (forward api req))
  else if req.command ∈ archiveScoped then
    if api.forwardUnknown ∧ req.command ∈ accountScoped ∧ UnknownAccount db req then
      (db, some (forward api req))
    else (db, (dispatchArchive X order db req).map localResponse)
  else (db, some (localResponse (.error (unsupported req.command.name))))

end Api

/-! ## The resolvers -/

def TimeResolver.table (U : Upstream) : TimeResolver where
  resolve := tableLedgerTimeResolver U
  caches _ _ := rfl

theorem atOrBefore_caches {U : Upstream} {iso : String} {db : Archive} {mid : ℕ}
    {r : Archive × Option (Option Bool)} (h : atOrBefore U iso db mid = r) :
    r.1 = { db with ledgers := r.1.ledgers } := by
  unfold atOrBefore at h
  split at h
  · subst h
    rfl
  · split at h
    · subst h
      rfl
    · split at h
      · subst h
        rfl
      · split at h
        · subst h
          rfl
        · split at h
          · subst h
            rfl
          · subst h
            rfl

theorem searchLedgers_caches (U : Upstream) (db : Archive) (iso : String) :
    (searchLedgers U db iso).state
      = { db with ledgers := (searchLedgers U db iso).state.ledgers } := by
  unfold searchLedgers
  cases archiveBounds db with
  | none => rfl
  | some bounds =>
      have hkeeps : ∀ (db' : Archive) (m : ℤ), db' = { db with ledgers := db'.ledgers } →
          m ∈ Set.Icc (bounds.1 : ℤ) bounds.2 → (atOrBefore U iso db' m.toNat).1
            = { db with ledgers := (atOrBefore U iso db' m.toNat).1.ledgers } := by
        intro db' m hdb' _
        have hprobe : (atOrBefore U iso db' m.toNat).1
            = { db' with ledgers := (atOrBefore U iso db' m.toNat).1.ledgers } :=
          atOrBefore_caches rfl
        rw [hdb'] at hprobe ⊢
        exact hprobe
      exact bisect_invariant hkeeps rfl none

def TimeResolver.lazy (U : Upstream) : TimeResolver where
  resolve := lazyLedgerTimeResolver U
  caches := searchLedgers_caches U

/-! ## What an answer is about -/

/-- The result is made of what the archive has, and about what is registered. -/
def InArchive {R : Type} (db : Archive) : Result R → Prop
  | .accountTx a => db.accounts.HasKey a.account
      ∧ ∀ t ∈ a.transactions, t.row ∈ accountTransactions db a.account
  | .tx entry => entry.row ∈ db.transactions
  | .accountInfo a => ∃ account, db.accounts.HasKey account ∧ a.accountData.account = some account
  | .accountLines a => db.accounts.HasKey a.account
  | .mptHolders a => ∃ i ∈ db.issuances, i.mptIssuanceId = some a.mptIssuanceId
  | .gatewayBalances a => (∃ i ∈ db.issuances, i.kind = .iou ∧ i.issuerAccount = some a.account
      ∧ i.enabled) ∧ ∀ i ∈ gatewayIssuances db a.account, ¬ OutOfCoverage db a.ledgerIndex i.id
  | .balanceAt identity a => ∃ i ∈ db.issuances, identity = issuanceIdentity i
      ∧ inIssuanceScope db i.id a.account
  | .transactions a => ∃ i ∈ db.issuances, a.issuance = issuanceIdentity i
      ∧ ∀ t ∈ a.transactions, ∃ row ∈ db.balanceDeltas,
        row.issuanceId = i.id ∧ row.address = t.account ∧ row.hash = t.hash ∧ row.delta = t.delta
  | .error _ => True
  | .upstream _ => False

section Scope

variable {R : Type} {X : Xrpl} {order : RowOrder} {db : Archive} {req : ApiRequest}

theorem resolveIssuance_mem {req : BalanceAtRequest} {i : IssuanceRow}
    (h : resolveIssuance db req = some i) : i ∈ db.issuances := by
  unfold resolveIssuance at h
  cases hid : req.issuanceId with
  | some id =>
      rw [hid] at h
      exact (Table.find?_eq_some.mp h).1
  | none =>
      rw [hid] at h
      cases hmpt : req.mptIssuanceId.filter (fun s => decide (s ≠ "")) with
      | some mpt =>
          simp only [hmpt] at h
          exact List.mem_of_find?_eq_some h
      | none =>
          simp only [hmpt] at h
          cases hcur : req.currency.filter (fun s => decide (s ≠ "")) with
          | none =>
              simp only [hcur] at h
              cases h
          | some currency =>
              cases hiss : req.issuer.filter (fun s => decide (s ≠ "")) with
              | none =>
                  simp only [hcur, hiss] at h
                  cases h
              | some issuer =>
                  simp only [hcur, hiss] at h
                  exact List.mem_of_find?_eq_some h

theorem resolveLedger_caches (resolver : TimeResolver) {ledgerKey timeKey : String}
    {raw : Option LedgerKey} {time : Option String} {fallback : Option ℕ}
    {r : Archive × Option (Except String ℕ)}
    (h : RegistrarPeriods.resolveLedger db ledgerKey timeKey raw time resolver.resolve fallback
      = r) : r.1 = { db with ledgers := r.1.ledgers } := by
  unfold RegistrarPeriods.resolveLedger at h
  split at h
  · split at h
    · subst h
      rfl
    · subst h
      rfl
  · subst h
    rfl
  · split at h
    · subst h
      exact resolver.caches db _
    · split at h
      · subst h
        rfl
      · subst h
        rfl

theorem handleBalanceAt_inArchive (resolver : TimeResolver) {req : BalanceAtRequest}
    {db' : Archive} {answer : Option (Except ApiError (IssuanceIdentity × BalanceAtAnswer))}
    (h : handleBalanceAt db resolver.resolve req = (db', answer)) :
    db' = { db with ledgers := db'.ledgers } ∧ ∀ identity a, answer = some (.ok (identity, a)) →
      InArchive db' (.balanceAt identity a : Result R) := by
  unfold handleBalanceAt at h
  cases hissuance : resolveIssuance db req with
  | none =>
      rw [hissuance] at h
      cases h
      exact ⟨rfl, fun _ _ heq => by cases heq⟩
  | some issuance =>
      simp only [hissuance] at h
      cases haccount : req.account.filter (fun s => decide (s ≠ "")) with
      | none =>
          rw [haccount] at h
          cases h
          exact ⟨rfl, fun _ _ heq => by cases heq⟩
      | some account =>
          simp only [haccount] at h
          cases hledger : RegistrarPeriods.resolveLedger db "ledger_index" "date" req.ledgerIndex
              req.date resolver.resolve none with
          | mk db₁ found =>
              have hcaches : db₁ = { db with ledgers := db₁.ledgers } :=
                resolveLedger_caches resolver hledger
              rw [hledger] at h
              cases found with
              | none =>
                  cases h
                  exact ⟨hcaches, fun _ _ heq => by cases heq⟩
              | some found =>
                  cases found with
                  | error message =>
                      cases h
                      exact ⟨hcaches, fun _ _ heq => by cases heq⟩
                  | ok ledger =>
                      by_cases hscope : ¬ inIssuanceScope db₁ issuance.id account
                      · simp only [if_pos hscope] at h
                        cases h
                        exact ⟨hcaches, fun _ _ heq => by cases heq⟩
                      · simp only [if_neg hscope] at h
                        cases h
                        refine ⟨hcaches, fun identity a heq => ?_⟩
                        cases heq
                        have hin : issuance ∈ db'.issuances := by
                          rw [hcaches]
                          exact resolveIssuance_mem hissuance
                        exact ⟨issuance, hin, rfl, not_not.mp hscope⟩

theorem resolveRange_mem (resolver : TimeResolver) {req : TransactionsRequest}
    {r : Archive × Option (Except ApiError (IssuanceRow × ℕ × ℕ))}
    (h : RegistrarPeriods.resolveRange db resolver.resolve req = r) :
    r.1 = { db with ledgers := r.1.ledgers }
      ∧ ∀ issuance lo hi, r.2 = some (.ok (issuance, lo, hi)) → issuance ∈ r.1.issuances := by
  unfold RegistrarPeriods.resolveRange at h
  cases hissuance : resolveIssuance db req.toBalanceAtRequest with
  | none =>
      rw [hissuance] at h
      subst h
      exact ⟨rfl, fun _ _ _ heq => by cases heq⟩
  | some issuance =>
      simp only [hissuance] at h
      cases hfrom : RegistrarPeriods.resolveLedger db "from_ledger" "from_time" req.fromLedger
          req.fromTime resolver.resolve (some 0) with
      | mk db₁ lo =>
          have hcaches : db₁ = { db with ledgers := db₁.ledgers } :=
            resolveLedger_caches resolver hfrom
          rw [hfrom] at h
          cases lo with
          | none =>
              subst h
              exact ⟨hcaches, fun _ _ _ heq => by cases heq⟩
          | some lo =>
              cases lo with
              | error message =>
                  subst h
                  exact ⟨hcaches, fun _ _ _ heq => by cases heq⟩
              | ok lo =>
                  simp only [] at h
                  cases hto : RegistrarPeriods.resolveLedger db₁ "to_ledger" "to_time"
                      req.toLedger req.toTime resolver.resolve
                      (some ((archiveLatestLedger db).getD 0)) with
                  | mk db₂ hi =>
                      have hcaches' : db₂ = { db₁ with ledgers := db₂.ledgers } :=
                        resolveLedger_caches resolver hto
                      have hboth : db₂ = { db with ledgers := db₂.ledgers } := by
                        rw [hcaches] at hcaches'
                        exact hcaches'
                      rw [hto] at h
                      cases hi with
                      | none =>
                          subst h
                          exact ⟨hboth, fun _ _ _ heq => by cases heq⟩
                      | some hi =>
                          cases hi with
                          | error message =>
                              subst h
                              exact ⟨hboth, fun _ _ _ heq => by cases heq⟩
                          | ok hi =>
                              subst h
                              refine ⟨hboth, fun _ _ _ heq => ?_⟩
                              cases heq
                              show issuance ∈ db₂.issuances
                              rw [hboth]
                              exact resolveIssuance_mem hissuance

theorem mem_itemised {issuanceId : ℕ} {account : Option String}
    {t : RegistrarPeriods.TransactionEntry}
    (h : t ∈ RegistrarPeriods.itemised db issuanceId account) :
    ∃ row ∈ db.balanceDeltas, row.issuanceId = issuanceId ∧ row.address = t.account
      ∧ row.hash = t.hash ∧ row.delta = t.delta := by
  obtain ⟨row, hrow, ht⟩ := List.mem_filterMap.mp h
  obtain ⟨hin, hok⟩ := List.mem_filter.mp hrow
  obtain ⟨tx, -, rfl⟩ := Option.map_eq_some_iff.mp ht
  exact ⟨row, hin, (of_decide_eq_true hok).1, rfl, rfl, rfl⟩

theorem handleTransactions_inArchive (resolver : TimeResolver) {req : TransactionsRequest}
    {db' : Archive} {answer : Option (Except ApiError TransactionsAnswer)}
    (h : handleTransactions db resolver.resolve req = (db', answer)) :
    db' = { db with ledgers := db'.ledgers } ∧ ∀ a, answer = some (.ok a) →
      InArchive db' (.transactions a : Result R) := by
  unfold handleTransactions at h
  cases hrange : RegistrarPeriods.resolveRange db resolver.resolve req with
  | mk db₁ found =>
      obtain ⟨hcaches, hmem⟩ := resolveRange_mem resolver hrange
      rw [hrange] at h
      cases found with
      | none =>
          cases h
          exact ⟨hcaches, fun _ heq => by cases heq⟩
      | some found =>
          cases found with
          | error e =>
              cases h
              exact ⟨hcaches, fun _ heq => by cases heq⟩
          | ok found =>
              obtain ⟨issuance, lo, hi⟩ := found
              cases h
              refine ⟨hcaches, fun a heq => ?_⟩
              cases heq
              refine ⟨issuance, hmem issuance lo hi rfl, rfl, fun t ht => ?_⟩
              exact mem_itemised (List.mem_filter.mp ((List.mem_insertionSort _).mp ht)).1

/-- A row that is answered is stored. -/
theorem txEntry_row {binary : Bool} {row : TransactionRow} {entry : TxEntry}
    (h : txEntry X binary row = some entry) : entry.row = row := by
  unfold txEntry at h
  by_cases hbinary : binary = true
  · rw [if_pos hbinary] at h
    cases h
    rfl
  · rw [if_neg hbinary] at h
    obtain ⟨txType, -, h⟩ := Option.bind_eq_some_iff.mp h
    obtain ⟨m, -, rfl⟩ := Option.map_eq_some_iff.mp h
    rfl

theorem mem_of_mapM {rows : List TransactionRow} {binary : Bool} {entries : List TxEntry}
    (h : rows.mapM (txEntry X binary) = some entries) : ∀ e ∈ entries, e.row ∈ rows := by
  induction rows generalizing entries with
  | nil =>
      cases h
      exact fun e he => absurd he List.not_mem_nil
  | cons row rows ih =>
      rw [List.mapM_cons] at h
      obtain ⟨entry, hentry, h⟩ := Option.bind_eq_some_iff.mp h
      obtain ⟨rest, hrest, h⟩ := Option.bind_eq_some_iff.mp h
      cases Option.some.inj h
      intro e he
      rcases List.mem_cons.mp he with rfl | he
      · rw [txEntry_row hentry]
        exact List.mem_cons_self
      · exact List.mem_cons_of_mem row (ih hrest e he)

theorem pageAnswer_rows {account : String} {req : TxRequest} {selected : List TransactionRow}
    {a : TxAnswer} (h : pageAnswer X db account req selected = some a) :
    a.account = account ∧ ∀ t ∈ a.transactions, t.row ∈ selected := by
  obtain ⟨entries, hentries, rfl⟩ := Option.map_eq_some_iff.mp h
  refine ⟨rfl, fun t ht => ?_⟩
  rw [lookAhead_page] at hentries
  exact List.mem_of_mem_take (mem_of_mapM hentries t ht)

theorem handleAccountTx_inArchive {req : TxRequest} {a : TxAnswer}
    (h : handleAccountTx X db req = some (.ok a)) : InArchive db (.accountTx a : Result R) := by
  unfold handleAccountTx at h
  cases haccount : req.account.filter (fun s => decide (s ≠ "")) with
  | none =>
      rw [haccount] at h
      cases h
  | some account =>
      simp only [haccount] at h
      by_cases hscope : ¬ db.accounts.HasKey account
      · rw [if_pos hscope] at h
        cases h
      · rw [if_neg hscope] at h
        obtain ⟨qMin, -, h⟩ := Option.bind_eq_some_iff.mp h
        obtain ⟨qMax, -, h⟩ := Option.bind_eq_some_iff.mp h
        obtain ⟨-, h⟩ := Option.ite_none_left_eq_some.mp h
        obtain ⟨a', ha, heq⟩ := Option.map_eq_some_iff.mp h
        cases heq
        obtain ⟨hsame, hrows⟩ := pageAnswer_rows ha
        refine ⟨hsame.symm ▸ not_not.mp hscope, fun t ht => ?_⟩
        have hselected := (List.mem_insertionSort _).mp (hrows t ht)
        rw [hsame]
        exact (List.mem_filter.mp hselected).1

theorem accountEntries_scope {req : StateRequest} {p : String × List MetaEntry}
    (h : accountEntries X order db req = some (.ok p)) : db.accounts.HasKey p.1 := by
  unfold accountEntries at h
  cases haccount : req.account.filter (fun s => decide (s ≠ "")) with
  | none =>
      rw [haccount] at h
      cases h
  | some account =>
      simp only [haccount] at h
      by_cases hscope : ¬ db.accounts.HasKey account
      · rw [if_pos hscope] at h
        cases h
      · rw [if_neg hscope] at h
        obtain ⟨upTo, -, h⟩ := Option.bind_eq_some_iff.mp h
        obtain ⟨entries, -, heq⟩ := Option.map_eq_some_iff.mp h
        cases heq
        exact not_not.mp hscope

theorem handleAccountInfo_inArchive {req : StateRequest} {a : AccountInfoAnswer}
    (h : handleAccountInfo X order db req = some (.ok a)) :
    InArchive db (.accountInfo a : Result R) := by
  obtain ⟨found, hfound, h⟩ := Option.map_eq_some_iff.mp h
  cases found with
  | error e => cases h
  | ok p =>
      have h : accountInfoAnswer db p.1 p.2 = .ok a := h
      unfold accountInfoAnswer at h
      cases hdata : toAccountData p.2 p.1 with
      | none =>
          rw [hdata] at h
          cases h
      | some accountData =>
          rw [hdata] at h
          cases h
          refine ⟨p.1, accountEntries_scope hfound, ?_⟩
          obtain ⟨o, ho, rfl⟩ := Option.map_eq_some_iff.mp hdata
          have hshown := mem_shown_of_mem (List.mem_of_find?_eq_some ho)
          exact (of_decide_eq_true (List.mem_filter.mp hshown).2).2

theorem handleAccountLines_inArchive {req : StateRequest} {a : AccountLinesAnswer}
    (h : handleAccountLines X order db req = some (.ok a)) :
    InArchive db (.accountLines a : Result R) := by
  obtain ⟨found, hfound, h⟩ := Option.map_eq_some_iff.mp h
  cases found with
  | error e => cases h
  | ok p =>
      cases h
      exact accountEntries_scope hfound

theorem handleMptHolders_inArchive {req : StateRequest} {a : MptHoldersAnswer}
    (h : handleMptHolders X order db req = some (.ok a)) :
    InArchive db (.mptHolders a : Result R) := by
  unfold handleMptHolders at h
  cases hmpt : req.mptIssuanceId.filter (fun s => decide (s ≠ "")) with
  | none =>
      rw [hmpt] at h
      cases h
  | some mptId =>
      simp only [hmpt] at h
      cases htracked : db.issuances.rows.find? (fun i => i.mptIssuanceId = some mptId) with
      | none =>
          rw [htracked] at h
          cases h
      | some tracked =>
          simp only [htracked] at h
          obtain ⟨upTo, -, h⟩ := Option.bind_eq_some_iff.mp h
          obtain ⟨entries, -, heq⟩ := Option.map_eq_some_iff.mp h
          cases heq
          have hid := List.find?_some htracked
          exact ⟨tracked, List.mem_of_find?_eq_some htracked, of_decide_eq_true hid⟩

theorem handleTx_inArchive {entry : TxEntry} (h : handleTx X db req = some (.ok entry)) :
    InArchive db (.tx entry : Result R) := by
  unfold handleTx at h
  cases hhash : (req.transaction <|> req.txHash).filter (fun s => decide (s ≠ "")) with
  | none =>
      rw [hhash] at h
      cases h
  | some hash =>
      simp only [hhash] at h
      cases hrow : db.transactions.find? hash with
      | none =>
          rw [hrow] at h
          cases h
      | some row =>
          rw [hrow] at h
          obtain ⟨entry', hentry, heq⟩ := Option.map_eq_some_iff.mp h
          cases heq
          show entry.row ∈ db.transactions
          rw [txEntry_row hentry]
          exact (Table.find?_eq_some.mp hrow).1

/-- What a successful answer rests on: the issuer has issuances, and all cover the
    ledger. -/
theorem handleGatewayBalances_issuances {req : GatewayRequest} {a : GatewayAnswer}
    (h : handleGatewayBalances db req = .ok a) :
    gatewayIssuances db a.account ≠ []
      ∧ ∀ i ∈ gatewayIssuances db a.account, ¬ OutOfCoverage db a.ledgerIndex i.id := by
  have hstart (account : String) (hotwallets : List String) (ledger : ℕ) :=
    foldl_addIssuance_fields db account hotwallets ledger (gatewayIssuances db account)
      { account, obligations := Table.empty, balances := Table.empty, ledgerIndex := ledger }
  unfold handleGatewayBalances at h
  cases haccount : req.account.filter (fun s => decide (s ≠ "")) with
  | none =>
      rw [haccount] at h
      cases h
  | some account =>
      cases hhot : req.hotwallet with
      | none =>
          rw [haccount, hhot] at h
          cases h
      | some hotwallets =>
          simp only [haccount, hhot] at h
          by_cases hnone : gatewayIssuances db account = []
          · rw [if_pos hnone] at h
            cases h
          · rw [if_neg hnone] at h
            cases hindex : req.ledgerIndex with
            | none =>
                rw [hindex] at h
                cases h
            | some key =>
                simp only [hindex] at h
                split at h
                · cases h
                · next hcovered =>
                    cases h
                    rw [(hstart account hotwallets _).1, (hstart account hotwallets _).2]
                    refine ⟨hnone, fun i hi hout => ?_⟩
                    exact absurd (decide_eq_true hout) (List.find?_eq_none.mp hcovered i hi)

theorem handleGatewayBalances_inArchive {req : GatewayRequest} {a : GatewayAnswer}
    (h : handleGatewayBalances db req = .ok a) : InArchive db (.gatewayBalances a : Result R) := by
  obtain ⟨hsome, hcovered⟩ := handleGatewayBalances_issuances h
  obtain ⟨i, hi⟩ := List.exists_mem_of_ne_nil _ hsome
  obtain ⟨hin, hok⟩ := List.mem_filter.mp ((List.mem_insertionSort _).mp hi)
  exact ⟨⟨i, hin, of_decide_eq_true hok⟩, hcovered⟩

/-- What a method answers, errors apart, is in the archive. -/
theorem toResult_inArchive {α : Type} {f : α → Result R} {answer : Except ApiError α}
    (h : ∀ a, answer = .ok a → InArchive db (f a)) : InArchive db (toResult db f answer) := by
  cases answer with
  | ok a => exact h a rfl
  | error e => trivial

theorem dispatchArchive_inArchive {result : Result R}
    (h : dispatchArchive X order db req = some result) : InArchive db result := by
  unfold dispatchArchive at h
  cases hcommand : req.command with
  | accountTx =>
      rw [hcommand] at h
      obtain ⟨answer, hanswer, rfl⟩ := Option.map_eq_some_iff.mp h
      exact toResult_inArchive fun a ha => handleAccountTx_inArchive (ha ▸ hanswer)
  | tx =>
      rw [hcommand] at h
      obtain ⟨answer, hanswer, rfl⟩ := Option.map_eq_some_iff.mp h
      exact toResult_inArchive fun a ha => handleTx_inArchive (ha ▸ hanswer)
  | accountInfo =>
      rw [hcommand] at h
      obtain ⟨answer, hanswer, rfl⟩ := Option.map_eq_some_iff.mp h
      exact toResult_inArchive fun a ha => handleAccountInfo_inArchive (ha ▸ hanswer)
  | accountLines =>
      rw [hcommand] at h
      obtain ⟨answer, hanswer, rfl⟩ := Option.map_eq_some_iff.mp h
      exact toResult_inArchive fun a ha => handleAccountLines_inArchive (ha ▸ hanswer)
  | mptHolders =>
      rw [hcommand] at h
      obtain ⟨answer, hanswer, rfl⟩ := Option.map_eq_some_iff.mp h
      exact toResult_inArchive fun a ha => handleMptHolders_inArchive (ha ▸ hanswer)
  | gatewayBalances =>
      rw [hcommand] at h
      cases h
      exact toResult_inArchive fun a ha => handleGatewayBalances_inArchive ha
  | _ =>
      rw [hcommand] at h
      cases h
      trivial

/-- The reporting methods write close times, and nothing else. -/
theorem dispatchReporting_inArchive (resolver : TimeResolver) :
    (dispatchReporting (R := R) resolver.resolve db req).1
        = { db with ledgers := (dispatchReporting (R := R) resolver.resolve db req).1.ledgers }
      ∧ ∀ result : Result R, (dispatchReporting resolver.resolve db req).2 = some result →
        InArchive (dispatchReporting (R := R) resolver.resolve db req).1 result := by
  unfold dispatchReporting
  by_cases hcommand : req.command = .archiveBalanceAt
  · simp only [if_pos hcommand]
    obtain ⟨hcaches, hin⟩ := handleBalanceAt_inArchive (R := R) resolver
      (Eq.refl (handleBalanceAt db resolver.resolve req.toTransactions.toBalanceAtRequest))
    refine ⟨hcaches, fun result h => ?_⟩
    obtain ⟨answer, hanswer, rfl⟩ := Option.map_eq_some_iff.mp h
    exact toResult_inArchive fun a ha => hin a.1 a.2 (ha ▸ hanswer)
  · simp only [if_neg hcommand]
    obtain ⟨hcaches, hin⟩ := handleTransactions_inArchive (R := R) resolver
      (Eq.refl (handleTransactions db resolver.resolve req.toTransactions))
    refine ⟨hcaches, fun result h => ?_⟩
    obtain ⟨answer, hanswer, rfl⟩ := Option.map_eq_some_iff.mp h
    exact toResult_inArchive fun a ha => hin a (ha ▸ hanswer)

end Scope

end RegistrarHandle
