import Registrar.Handle

/-! # Runs of requests

    Requests write nothing but close times, so most answers do not depend on what was
    asked before.  But the newest of the close times is read as how far the tail has
    come: a lookup in an archive whose tail is behind its transactions widens the window
    in which `gateway_balances` answers.  Where the tail is not behind, and the upstream
    tells the true close times, every request of a run is answered as if asked alone. -/

namespace RegistrarServe

open KeyedTable Statements RegistrarMetadata RegistrarArchive RegistrarReads Bisection
open RegistrarLedgerTimes RegistrarStateReads RegistrarAccountTx RegistrarHandle RegistrarIngest
open RegistrarPeriods (TransactionsRequest TransactionsAnswer IssuanceIdentity Instant Resolver
  Resolves handleTransactions resolves_lazy)

variable {R : Type} (X : Xrpl) (order : RowOrder)

/-- The responses to one request after another; `none` where a request throws. -/
def serve (api : ArchiveApi R) (db : Archive) :
    List ApiRequest → Archive × List (Option (ApiResponse R))
  | [] => (db, [])
  | req :: reqs =>
      let answered := handle X order api db req
      let rest := serve api answered.1 reqs
      (rest.1, answered.2 :: rest.2)

/-- The only requests that may be forwarded. -/
def MayForward (api : ArchiveApi R) (db : Archive) (req : ApiRequest) : Prop :=
  req.apiVersion = some .two ∧ (req.command ∈ nodeState ∨ req.command ∈ submission
    ∨ (api.forwardUnknown ∧ req.command ∈ accountScoped ∧ UnknownAccount db req))

/-- Where a response comes from: from upstream, and marked so, or from the archive. -/
inductive Traceable (api : ArchiveApi R) (db : Archive) (req : ApiRequest) :
    ApiResponse R → Prop
  | upstream (f : ForwardResult R) (may : MayForward api db req)
      (forwarded : api.forwarder req = some f) : Traceable api db req
        ⟨.upstream f.result, f.warnings ++ [forwardedNotArchiveWarning], true⟩
  | archive (result : Result R) (inArchive : InArchive db result) :
      Traceable api db req (localResponse result)

/-- The archive with other close times. -/
def Recached (db db' : Archive) : Prop :=
  db' = { db with ledgers := db'.ledgers }

section Runs

variable {X order} {api : ArchiveApi R} {db : Archive} {req : ApiRequest}

/-! ## One request -/

theorem handle_recached : Recached db (handle X order api db req).1 := by
  unfold handle
  by_cases hversion : req.apiVersion ≠ some .two
  · rw [if_pos hversion]
    rfl
  · rw [if_neg hversion]
    by_cases hreporting : req.command ∈ reporting
    · rw [if_pos hreporting]
      exact (dispatchReporting_inArchive (R := R) api.resolveLedgerTime).1
    · rw [if_neg hreporting]
      split
      · rfl
      · split
        · split <;> rfl
        · rfl

theorem localWarnings_id {w : ClioWarning} (h : w ∈ localWarnings) : w.id ≠ 65002 := by
  rcases List.mem_cons.mp h with rfl | h
  · exact (by decide : (2001 : ℕ) ≠ 65002)
  · rw [List.mem_singleton.mp h]
    exact (by decide : (65001 : ℕ) ≠ 65002)

theorem rangeBeyondCoverageWarning_id (beyond : BeyondCoverage) :
    (rangeBeyondCoverageWarning beyond).id ≠ 65002 :=
  (by decide : (65003 : ℕ) ≠ 65002)

theorem extraWarnings_id {result : Result R} {w : ClioWarning} (h : w ∈ extraWarnings result) :
    w.id ≠ 65002 := by
  cases result with
  | accountTx answer =>
      obtain ⟨a, -, rfl⟩ := List.mem_map.mp h
      exact rangeBeyondCoverageWarning_id a
  | accountInfo answer =>
      obtain ⟨a, -, rfl⟩ := List.mem_map.mp h
      exact rangeBeyondCoverageWarning_id _
  | accountLines answer =>
      obtain ⟨a, -, rfl⟩ := List.mem_map.mp h
      exact rangeBeyondCoverageWarning_id _
  | gatewayBalances answer =>
      rw [List.mem_singleton.mp h]
      exact (by decide : (65004 : ℕ) ≠ 65002)
  | balanceAt issuance answer =>
      obtain ⟨a, -, rfl⟩ := List.mem_map.mp h
      exact rangeBeyondCoverageWarning_id _
  | _ => exact absurd h List.not_mem_nil

/-- A response is upstream's exactly when it warns of that. -/
theorem Traceable.forwarded_iff {res : ApiResponse R} (h : Traceable api db req res) :
    res.forwarded = true ↔ forwardedNotArchiveWarning ∈ res.warnings := by
  cases h with
  | upstream f may forwarded =>
      exact ⟨fun _ => List.mem_append_right _ List.mem_cons_self, fun _ => rfl⟩
  | archive result inArchive =>
      constructor
      · intro h
        cases h
      · intro h
        rcases List.mem_append.mp h with h | h
        · exact absurd rfl (localWarnings_id h)
        · exact absurd rfl (extraWarnings_id h)

theorem forward_traceable (may : MayForward api db req) :
    Traceable api db req (forward api req) := by
  unfold forward
  cases hf : api.forwarder req with
  | some f => exact .upstream f may hf
  | none => exact .archive _ trivial

/-- An answer is in the archive it was made from. -/
theorem handle_traceable {res : ApiResponse R} (h : res ∈ (handle X order api db req).2) :
    Traceable api (handle X order api db req).1 req res := by
  unfold handle at h ⊢
  by_cases hversion : req.apiVersion ≠ some .two
  · rw [if_pos hversion] at h ⊢
    cases h
    exact .archive _ trivial
  · rw [if_neg hversion] at h ⊢
    by_cases hreporting : req.command ∈ reporting
    · rw [if_pos hreporting] at h ⊢
      obtain ⟨result, hresult, rfl⟩ := Option.map_eq_some_iff.mp h
      exact .archive _ ((dispatchReporting_inArchive api.resolveLedgerTime).2 result hresult)
    · rw [if_neg hreporting] at h ⊢
      by_cases hclass : req.command ∈ nodeState ∨ req.command ∈ submission
      · rw [if_pos hclass] at h ⊢
        cases h
        exact forward_traceable ⟨not_not.mp hversion, or_assoc.mp (.inl hclass)⟩
      · rw [if_neg hclass] at h ⊢
        by_cases hscoped : req.command ∈ archiveScoped
        · rw [if_pos hscoped] at h ⊢
          by_cases hunknown : api.forwardUnknown ∧ req.command ∈ accountScoped
              ∧ UnknownAccount db req
          · rw [if_pos hunknown] at h ⊢
            cases h
            exact forward_traceable ⟨not_not.mp hversion, .inr (.inr hunknown)⟩
          · rw [if_neg hunknown] at h ⊢
            obtain ⟨result, hresult, rfl⟩ := Option.map_eq_some_iff.mp h
            exact .archive _ (dispatchArchive_inArchive hresult)
        · rw [if_neg hscoped] at h ⊢
          cases h
          exact .archive _ trivial

/-- What upstream does is seen by no request but those that may be forwarded. -/
theorem handle_forwarder (forwarder : ApiRequest → Option (ForwardResult R)) :
    (handle X order { api with forwarder } db req).1 = (handle X order api db req).1
      ∧ (¬ MayForward api db req →
        (handle X order { api with forwarder } db req).2 = (handle X order api db req).2) := by
  unfold handle
  by_cases hversion : req.apiVersion ≠ some .two
  · simp only [if_pos hversion]
    exact ⟨trivial, fun _ => trivial⟩
  · simp only [if_neg hversion]
    by_cases hreporting : req.command ∈ reporting
    · simp only [if_pos hreporting]
      exact ⟨trivial, fun _ => trivial⟩
    · simp only [if_neg hreporting]
      by_cases hclass : req.command ∈ nodeState ∨ req.command ∈ submission
      · simp only [if_pos hclass]
        exact ⟨trivial, fun hmay => absurd
          ⟨not_not.mp hversion, or_assoc.mp (.inl hclass)⟩ hmay⟩
      · simp only [if_neg hclass]
        by_cases hscoped : req.command ∈ archiveScoped
        · simp only [if_pos hscoped]
          by_cases hunknown : api.forwardUnknown ∧ req.command ∈ accountScoped
              ∧ UnknownAccount db req
          · simp only [if_pos hunknown]
            exact ⟨trivial, fun hmay => absurd
              ⟨not_not.mp hversion, .inr (.inr hunknown)⟩ hmay⟩
          · simp only [if_neg hunknown]
            exact ⟨trivial, fun _ => trivial⟩
        · simp only [if_neg hscoped]
          exact ⟨trivial, fun _ => trivial⟩

/-! ## All of them -/

/-- What every request keeps holds of the archive each is asked of. -/
theorem serve_invariant {Inv : Archive → Prop}
    (hkeeps : ∀ db req, Inv db → Inv (handle X order api db req).1) (h : Inv db)
    (reqs : List ApiRequest) :
    Inv (serve X order api db reqs).1
      ∧ ∀ p ∈ reqs.zip (serve X order api db reqs).2,
        ∃ db', Inv db' ∧ p.2 = (handle X order api db' p.1).2 := by
  induction reqs generalizing db with
  | nil => exact ⟨h, fun p hp => absurd hp List.not_mem_nil⟩
  | cons req reqs ih =>
      obtain ⟨hend, hrest⟩ := ih (hkeeps db req h)
      refine ⟨hend, fun p hp => ?_⟩
      rcases List.mem_cons.mp hp with rfl | hp
      · exact ⟨db, h, rfl⟩
      · exact hrest p hp

theorem Recached.trans {db₁ db₂ : Archive} (h : Recached db db₁) (h' : Recached db₁ db₂) :
    Recached db db₂ := by
  unfold Recached at h h' ⊢
  rw [h] at h'
  exact h'

/-- Which requests may be forwarded depends on no close time. -/
theorem mayForward_recached {db' : Archive} (h : Recached db db') :
    MayForward api db' req ↔ MayForward api db req := by
  unfold Recached at h
  rw [h]
  exact Iff.rfl

theorem serve_forwarder (forwarder : ApiRequest → Option (ForwardResult R))
    (reqs : List ApiRequest) :
    (serve X order { api with forwarder } db reqs).1 = (serve X order api db reqs).1
      ∧ ∀ p ∈ reqs.zip ((serve X order { api with forwarder } db reqs).2.zip
          (serve X order api db reqs).2), ¬ MayForward api db p.1 → p.2.1 = p.2.2 := by
  induction reqs generalizing db with
  | nil => exact ⟨rfl, fun p hp => absurd hp List.not_mem_nil⟩
  | cons req reqs ih =>
      obtain ⟨harchive, hsame⟩ := @handle_forwarder R X order api db req forwarder
      obtain ⟨hend, hrest⟩ := @ih (handle X order api db req).1
      unfold serve
      simp only [harchive]
      refine ⟨hend, fun p hp hmay => ?_⟩
      rcases List.mem_cons.mp hp with rfl | hp
      · exact hsame hmay
      · exact hrest p hp fun h => hmay ((mayForward_recached handle_recached).mp h)

/-- **A response of any run is upstream's, and marked so, or made of what the archive
    has.**  The run leaves only close times behind, and what upstream does is seen by no
    request but those that may be forwarded. -/
theorem responses_traceable (api : ArchiveApi R)
    (forwarder : ApiRequest → Option (ForwardResult R)) (db : Archive) (reqs : List ApiRequest) :
    Recached db (serve X order api db reqs).1
      ∧ (∀ p ∈ reqs.zip (serve X order api db reqs).2, ∀ res ∈ p.2,
        (∃ db', Recached db db' ∧ Traceable api db' p.1 res)
          ∧ (res.forwarded = true ↔ forwardedNotArchiveWarning ∈ res.warnings))
      ∧ ∀ p ∈ reqs.zip ((serve X order { api with forwarder } db reqs).2.zip
          (serve X order api db reqs).2), ¬ MayForward api db p.1 → p.2.1 = p.2.2 := by
  obtain ⟨hend, hrun⟩ := @serve_invariant R X order api db (Recached db)
    (fun _ _ h => h.trans handle_recached) rfl reqs
  refine ⟨hend, fun p hp res hres => ?_, (serve_forwarder forwarder reqs).2⟩
  obtain ⟨db', hdb', hanswer⟩ := hrun p hp
  have htrace := handle_traceable (hanswer ▸ hres)
  exact ⟨⟨_, hdb'.trans handle_recached, htrace⟩, htrace.forwarded_iff⟩

/-! ## What reads the close times -/

variable {db' : Archive}

/-- As `Recached`, and the tail seems to have come as far. -/
structure SameTail (db db' : Archive) : Prop where
  recached : Recached db db'
  tail : tailHighWater db' = tailHighWater db

theorem SameTail.latestLedger (h : SameTail db db') : latestLedger db' = latestLedger db := by
  unfold RegistrarReads.latestLedger
  rw [h.tail, h.recached]
  rfl

theorem SameTail.conservativeCoverage (h : SameTail db db') (issuanceId : ℕ) :
    conservativeCoverage db' issuanceId = conservativeCoverage db issuanceId := by
  unfold RegistrarReads.conservativeCoverage
  rw [h.tail, h.recached]
  rfl

theorem SameTail.asOfLedger (h : SameTail db db') (coverage : Option Range)
    (entries : List MetaEntry) :
    asOfLedger db' coverage entries = asOfLedger db coverage entries := by
  unfold RegistrarStateReads.asOfLedger
  rw [h.latestLedger]

theorem SameTail.outOfCoverage (h : SameTail db db') (ledger issuanceId : ℕ) :
    OutOfCoverage db' ledger issuanceId ↔ OutOfCoverage db ledger issuanceId := by
  unfold OutOfCoverage
  rw [h.conservativeCoverage]

theorem SameTail.pageAnswer (h : SameTail db db') (account : String) (req : TxRequest)
    (selected : List TransactionRow) :
    pageAnswer X db' account req selected = pageAnswer X db account req selected := by
  unfold RegistrarAccountTx.pageAnswer reportedRange
  rw [h.latestLedger, h.recached]
  rfl

theorem SameTail.accountTx (h : SameTail db db') (req : TxRequest) :
    handleAccountTx X db' req = handleAccountTx X db req := by
  unfold handleAccountTx
  simp only [h.pageAnswer]
  rw [h.recached]
  rfl

theorem accountEntries_recached (h : Recached db db') (req : StateRequest) :
    accountEntries X order db' req = accountEntries X order db req := by
  rw [h]
  rfl

theorem SameTail.accountInfo (h : SameTail db db') (req : StateRequest) :
    handleAccountInfo X order db' req = handleAccountInfo X order db req := by
  unfold handleAccountInfo accountInfoAnswer
  rw [accountEntries_recached h.recached]
  have hcoverage (account : String) : accountCoverage db' account = accountCoverage db account := by
    rw [h.recached]
    rfl
  simp only [hcoverage, h.asOfLedger]

theorem SameTail.accountLines (h : SameTail db db') (req : StateRequest) :
    handleAccountLines X order db' req = handleAccountLines X order db req := by
  unfold handleAccountLines
  rw [accountEntries_recached h.recached]
  have hcoverage (account : String) : accountCoverage db' account = accountCoverage db account := by
    rw [h.recached]
    rfl
  simp only [hcoverage, h.asOfLedger]

theorem SameTail.mptHolders (h : SameTail db db') (req : StateRequest) :
    handleMptHolders X order db' req = handleMptHolders X order db req := by
  unfold handleMptHolders
  rw [h.latestLedger, h.recached]
  rfl

theorem SameTail.gatewayBalances (h : SameTail db db') (req : GatewayRequest) :
    handleGatewayBalances db' req = handleGatewayBalances db req := by
  unfold handleGatewayBalances
  simp only [h.outOfCoverage, h.conservativeCoverage, h.latestLedger]
  rw [h.recached]
  rfl

theorem toResult_recached {α : Type} (h : Recached db db') (f : α → Result R) :
    toResult db' f = toResult db f := by
  rw [h]
  rfl

theorem SameTail.dispatchArchive (h : SameTail db db') :
    dispatchArchive (R := R) X order db' req = dispatchArchive X order db req := by
  unfold RegistrarHandle.dispatchArchive
  rw [h.accountTx, h.accountInfo, h.accountLines, h.mptHolders, h.gatewayBalances]
  simp only [toResult_recached h.recached]
  rw [h.recached]
  rfl

/-! ## A lookup of a time -/

/-- The lookups from `db` on tell the same whatever was looked up before, and do not move
    the newest recorded ledger.  `Inv` is about the close times they leave. -/
structure Steady (resolver : TimeResolver) (Inv : Archive → Prop) (db : Archive) : Prop where
  start : Inv db
  sameTail : ∀ db', Inv db' → SameTail db db'
  keeps : ∀ db' iso, iso ≠ "" → Inv db' → Inv (resolver.resolve db' iso).1
  same : ∀ db' iso, iso ≠ "" → Inv db' →
    (resolver.resolve db' iso).2 = (resolver.resolve db iso).2

variable {resolver : TimeResolver} {Inv : Archive → Prop}

theorem Steady.resolveLedger (hsteady : Steady resolver Inv db) {db₁ db₂ : Archive}
    (h₁ : Inv db₁) (h₂ : Inv db₂) (ledgerKey timeKey : String) (raw : Option LedgerKey)
    (time : Option String) (fallback : Option ℕ) :
    Inv (RegistrarPeriods.resolveLedger db₁ ledgerKey timeKey raw time resolver.resolve
        fallback).1
      ∧ (RegistrarPeriods.resolveLedger db₁ ledgerKey timeKey raw time resolver.resolve
          fallback).2
        = (RegistrarPeriods.resolveLedger db₂ ledgerKey timeKey raw time resolver.resolve
          fallback).2 := by
  unfold RegistrarPeriods.resolveLedger
  cases raw with
  | some key =>
      cases key with
      | validated =>
          have hlatest : archiveLatestLedger db₁ = archiveLatestLedger db₂ := by
            rw [(hsteady.sameTail db₁ h₁).recached, (hsteady.sameTail db₂ h₂).recached]
            rfl
          simp only [hlatest]
          cases archiveLatestLedger db₂ with
          | none => exact ⟨h₁, rfl⟩
          | some latest => exact ⟨h₁, rfl⟩
      | index n => exact ⟨h₁, rfl⟩
  | none =>
      cases htime : time.filter (fun s => decide (s ≠ "")) with
      | some iso =>
          have hne : iso ≠ "" := of_decide_eq_true (Option.filter_eq_some_iff.mp htime).2
          refine ⟨hsteady.keeps db₁ iso hne h₁, ?_⟩
          show Option.map _ _ = Option.map _ _
          rw [hsteady.same db₁ iso hne h₁, hsteady.same db₂ iso hne h₂]
      | none =>
          cases fallback with
          | some ledger => exact ⟨h₁, rfl⟩
          | none => exact ⟨h₁, rfl⟩

theorem Steady.resolveIssuance (hsteady : Steady resolver Inv db) (h : Inv db')
    (req : BalanceAtRequest) : resolveIssuance db' req = resolveIssuance db req := by
  rw [(hsteady.sameTail db' h).recached]
  rfl

theorem Steady.balanceAt (hsteady : Steady resolver Inv db) (h : Inv db')
    (req : BalanceAtRequest) :
    Inv (handleBalanceAt db' resolver.resolve req).1
      ∧ (handleBalanceAt db' resolver.resolve req).2
        = (handleBalanceAt db resolver.resolve req).2 := by
  unfold RegistrarHandle.handleBalanceAt
  rw [hsteady.resolveIssuance h]
  cases RegistrarReads.resolveIssuance db req with
  | none => exact ⟨h, rfl⟩
  | some issuance =>
      cases req.account.filter (fun s => decide (s ≠ "")) with
      | none => exact ⟨h, rfl⟩
      | some account =>
          obtain ⟨hinv, hsame⟩ := hsteady.resolveLedger h hsteady.start "ledger_index" "date"
            req.ledgerIndex req.date none
          obtain ⟨hstart, -⟩ := hsteady.resolveLedger hsteady.start hsteady.start "ledger_index"
            "date" req.ledgerIndex req.date none
          simp only []
          generalize RegistrarPeriods.resolveLedger db' "ledger_index" "date" req.ledgerIndex
            req.date resolver.resolve none = found at hinv hsame ⊢
          generalize RegistrarPeriods.resolveLedger db "ledger_index" "date" req.ledgerIndex
            req.date resolver.resolve none = found₀ at hstart hsame ⊢
          obtain ⟨db₁, r⟩ := found
          obtain ⟨db₀, r₀⟩ := found₀
          cases hsame
          cases r with
          | none => exact ⟨hinv, rfl⟩
          | some r =>
              cases r with
              | error message => exact ⟨hinv, rfl⟩
              | ok ledger =>
                  have hscope : inIssuanceScope db₁ issuance.id account
                      ↔ inIssuanceScope db₀ issuance.id account := by
                    rw [(hsteady.sameTail db₁ hinv).recached,
                      (hsteady.sameTail db₀ hstart).recached]
                    exact Iff.rfl
                  by_cases hin : ¬ inIssuanceScope db₀ issuance.id account
                  · simp only [hscope, if_pos hin]
                    exact ⟨hinv, trivial⟩
                  · simp only [hscope, if_neg hin]
                    refine ⟨hinv, ?_⟩
                    rw [(hsteady.sameTail db₁ hinv).recached,
                      (hsteady.sameTail db₀ hstart).recached]
                    rfl

theorem Steady.resolveRange (hsteady : Steady resolver Inv db) (h : Inv db')
    (req : TransactionsRequest) :
    Inv (RegistrarPeriods.resolveRange db' resolver.resolve req).1
      ∧ (RegistrarPeriods.resolveRange db' resolver.resolve req).2
        = (RegistrarPeriods.resolveRange db resolver.resolve req).2 := by
  unfold RegistrarPeriods.resolveRange
  rw [hsteady.resolveIssuance h]
  cases RegistrarReads.resolveIssuance db req.toBalanceAtRequest with
  | none => exact ⟨h, rfl⟩
  | some issuance =>
      have hlatest : archiveLatestLedger db' = archiveLatestLedger db := by
        rw [(hsteady.sameTail db' h).recached]
        rfl
      rw [hlatest]
      simp only []
      obtain ⟨hinv, hsame⟩ := hsteady.resolveLedger h hsteady.start "from_ledger" "from_time"
        req.fromLedger req.fromTime (some 0)
      obtain ⟨hstart, -⟩ := hsteady.resolveLedger hsteady.start hsteady.start "from_ledger"
        "from_time" req.fromLedger req.fromTime (some 0)
      generalize RegistrarPeriods.resolveLedger db' "from_ledger" "from_time" req.fromLedger
        req.fromTime resolver.resolve (some 0) = found at hinv hsame ⊢
      generalize RegistrarPeriods.resolveLedger db "from_ledger" "from_time" req.fromLedger
        req.fromTime resolver.resolve (some 0) = found₀ at hstart hsame ⊢
      obtain ⟨db₁, r⟩ := found
      obtain ⟨db₀, r₀⟩ := found₀
      cases hsame
      cases r with
      | none => exact ⟨hinv, rfl⟩
      | some r =>
          cases r with
          | error message => exact ⟨hinv, rfl⟩
          | ok lo =>
              simp only []
              obtain ⟨hinv', hsame'⟩ := hsteady.resolveLedger hinv hstart "to_ledger" "to_time"
                req.toLedger req.toTime (some ((archiveLatestLedger db).getD 0))
              generalize RegistrarPeriods.resolveLedger db₁ "to_ledger" "to_time" req.toLedger
                req.toTime resolver.resolve (some ((archiveLatestLedger db).getD 0)) = found
                at hinv' hsame' ⊢
              generalize RegistrarPeriods.resolveLedger db₀ "to_ledger" "to_time" req.toLedger
                req.toTime resolver.resolve (some ((archiveLatestLedger db).getD 0)) = found₀
                at hsame' ⊢
              obtain ⟨db₂, r⟩ := found
              obtain ⟨db₃, r₀⟩ := found₀
              cases hsame'
              cases r with
              | none => exact ⟨hinv', rfl⟩
              | some r =>
                  cases r with
                  | error message => exact ⟨hinv', rfl⟩
                  | ok hi => exact ⟨hinv', rfl⟩

theorem Steady.transactions (hsteady : Steady resolver Inv db) (h : Inv db')
    (req : TransactionsRequest) :
    Inv (handleTransactions db' resolver.resolve req).1
      ∧ (handleTransactions db' resolver.resolve req).2
        = (handleTransactions db resolver.resolve req).2 := by
  unfold RegistrarPeriods.handleTransactions
  obtain ⟨hinv, hsame⟩ := hsteady.resolveRange h req
  obtain ⟨hstart, -⟩ := hsteady.resolveRange hsteady.start req
  generalize RegistrarPeriods.resolveRange db' resolver.resolve req = found at hinv hsame ⊢
  generalize RegistrarPeriods.resolveRange db resolver.resolve req = found₀ at hstart hsame ⊢
  obtain ⟨db₁, r⟩ := found
  obtain ⟨db₀, r₀⟩ := found₀
  cases hsame
  cases r with
  | none => exact ⟨hinv, rfl⟩
  | some r =>
      cases r with
      | error e => exact ⟨hinv, rfl⟩
      | ok found =>
          refine ⟨hinv, ?_⟩
          rw [(hsteady.sameTail db₁ hinv).recached, (hsteady.sameTail db₀ hstart).recached]
          rfl

theorem Steady.dispatchReporting (hsteady : Steady resolver Inv db) (h : Inv db')
    (req : ApiRequest) :
    Inv (dispatchReporting (R := R) resolver.resolve db' req).1
      ∧ (dispatchReporting (R := R) resolver.resolve db' req).2
        = (dispatchReporting resolver.resolve db req).2 := by
  unfold RegistrarHandle.dispatchReporting
  by_cases hcommand : req.command = .archiveBalanceAt
  · simp only [if_pos hcommand]
    obtain ⟨hinv, hsame⟩ := hsteady.balanceAt h req.toTransactions.toBalanceAtRequest
    obtain ⟨hstart, -⟩ := hsteady.balanceAt hsteady.start req.toTransactions.toBalanceAtRequest
    rw [hsame, toResult_recached (hsteady.sameTail _ hinv).recached,
      toResult_recached (hsteady.sameTail _ hstart).recached]
    exact ⟨hinv, rfl⟩
  · simp only [if_neg hcommand]
    obtain ⟨hinv, hsame⟩ := hsteady.transactions h req.toTransactions
    obtain ⟨hstart, -⟩ := hsteady.transactions hsteady.start req.toTransactions
    rw [hsame, toResult_recached (hsteady.sameTail _ hinv).recached,
      toResult_recached (hsteady.sameTail _ hstart).recached]
    exact ⟨hinv, rfl⟩

/-- A request asked after others is answered as if asked alone. -/
theorem Steady.handle (hsteady : Steady api.resolveLedgerTime Inv db) (h : Inv db') :
    Inv (handle X order api db' req).1
      ∧ (handle X order api db' req).2 = (handle X order api db req).2 := by
  unfold RegistrarHandle.handle
  by_cases hversion : req.apiVersion ≠ some .two
  · simp only [if_pos hversion]
    exact ⟨h, trivial⟩
  · simp only [if_neg hversion]
    by_cases hreporting : req.command ∈ reporting
    · simp only [if_pos hreporting]
      obtain ⟨hinv, hsame⟩ := hsteady.dispatchReporting (R := R) h req
      rw [hsame]
      exact ⟨hinv, rfl⟩
    · simp only [if_neg hreporting]
      by_cases hclass : req.command ∈ nodeState ∨ req.command ∈ submission
      · simp only [if_pos hclass]
        exact ⟨h, trivial⟩
      · simp only [if_neg hclass]
        by_cases hscoped : req.command ∈ archiveScoped
        · simp only [if_pos hscoped]
          have hunknown : UnknownAccount db' req ↔ UnknownAccount db req := by
            rw [(hsteady.sameTail db' h).recached]
            exact Iff.rfl
          by_cases hforward : api.forwardUnknown ∧ req.command ∈ accountScoped
              ∧ UnknownAccount db req
          · simp only [hunknown, if_pos hforward]
            exact ⟨h, trivial⟩
          · simp only [hunknown, if_neg hforward]
            rw [(hsteady.sameTail db' h).dispatchArchive]
            exact ⟨h, rfl⟩
        · simp only [if_neg hscoped]
          exact ⟨h, trivial⟩

theorem serve_steady (hsteady : Steady api.resolveLedgerTime Inv db) (h : Inv db')
    (reqs : List ApiRequest) :
    (serve X order api db' reqs).2 = reqs.map fun req => (handle X order api db req).2 := by
  induction reqs generalizing db' with
  | nil => rfl
  | cons req reqs ih =>
      obtain ⟨hinv, hsame⟩ : Inv (handle X order api db' req).1
        ∧ (handle X order api db' req).2 = (handle X order api db req).2 := hsteady.handle h
      show _ :: _ = _ :: _
      rw [hsame, ih hinv]

/-! ## The lazy resolver -/

/-- The tail has come as far as the archived transactions. -/
def TailCurrent (db : Archive) : Prop :=
  ∀ L ∈ archiveLatestLedger db, ∃ T ∈ tailHighWater db, L ≤ T

theorem tailHighWater_recordLedger {row : LedgerRow} {T : ℕ} (hT : T ∈ tailHighWater db)
    (hle : row.ledgerIndex ≤ T) : tailHighWater (recordLedger row db) = tailHighWater db := by
  obtain ⟨hin, hgreatest⟩ := List.max?_eq_some_iff.mp hT
  obtain ⟨r, hr, hindex⟩ := List.mem_map.mp hin
  refine (List.max?_eq_some_iff.mpr ⟨?_, fun L hL => ?_⟩).trans (Eq.symm hT)
  · exact List.mem_map.mpr ⟨r, Table.mem_insertIgnore_of_mem hr, hindex⟩
  · obtain ⟨r', hr', rfl⟩ := List.mem_map.mp hL
    rcases Table.mem_insertIgnore.mp hr' with hr' | ⟨rfl, -⟩
    · exact hgreatest _ (List.mem_map_of_mem hr')
    · exact hle

variable {U : Upstream} {close : ℕ → ℕ} {iso : String}

/-- A probe adds the close time of its ledger at most. -/
theorem atOrBefore_state (U : Upstream) (iso : String) (db : Archive) (mid : ℕ) :
    (atOrBefore U iso db mid).1 = db
    ∨ ∃ closeTime, (atOrBefore U iso db mid).1 = recordLedger ⟨mid, closeTime⟩ db := by
  unfold atOrBefore
  split
  · exact .inl rfl
  · split
    · exact .inl rfl
    · split
      · exact .inl rfl
      · split
        · exact .inl rfl
        · split
          · exact .inl rfl
          · exact .inr ⟨_, rfl⟩

/-- It looks at archived ledgers, and the tail is past those. -/
theorem searchLedgers_tail (htail : TailCurrent db) :
    tailHighWater (searchLedgers U db iso).state = tailHighWater db := by
  unfold searchLedgers
  cases hbounds : archiveBounds db with
  | none => rfl
  | some bounds =>
      obtain ⟨lo, hi⟩ := bounds
      have hlatest : archiveLatestLedger db = some hi := by
        unfold archiveBounds at hbounds
        split at hbounds
        · next hmin hmax =>
            cases hbounds
            exact hmax
        · cases hbounds
      obtain ⟨T, hT, hle⟩ := htail hi hlatest
      have hkeeps : ∀ (s : Archive) (m : ℤ), tailHighWater s = tailHighWater db →
          m ∈ Set.Icc (lo : ℤ) hi →
          tailHighWater (atOrBefore U iso s m.toNat).1 = tailHighWater db := by
        intro s m hs hm
        rcases atOrBefore_state U iso s m.toNat with hsame | ⟨c, hrecord⟩
        · rw [hsame]
          exact hs
        · have hm := hm.2
          have hmT : m.toNat ≤ T := by omega
          rw [hrecord, tailHighWater_recordLedger (hs ▸ hT) hmT]
          exact hs
      exact bisect_invariant hkeeps rfl none

/-- A time that cannot be read fails at the first ledger. -/
theorem lazyLedgerTimeResolver_unreadable (hiso : U.timestamptz iso = none) :
    lazyLedgerTimeResolver U db iso = (db, match archiveBounds db with
      | none => some none
      | some (lo, hi) => if (lo : ℤ) ≤ hi then none else some none) := by
  unfold lazyLedgerTimeResolver searchLedgers
  cases archiveBounds db with
  | none => rfl
  | some bounds =>
      obtain ⟨lo, hi⟩ := bounds
      have hprobe (mid : ℕ) : atOrBefore U iso db mid = (db, none) := by
        unfold atOrBefore
        rw [hiso]
      simp only []
      unfold bisect
      by_cases hle : (lo : ℤ) ≤ hi
      · simp only [if_pos hle, hprobe]
        rfl
      · simp only [if_neg hle]
        rfl

/-- What the upstream tells is true, and so the verdicts do not change. -/
theorem verdicts_atOrBefore {lo hi t : ℕ} (hiso : U.timestamptz iso = some t)
    (htruthful : ∀ L ∈ Set.Icc lo hi, Truthful U close L) :
    Verdicts (fun db mid => atOrBefore U iso db mid.toNat) (Probed U close db)
      (fun m => if HasCloseTime U db m.toNat then some (decide (close m.toNat ≤ t)) else none)
      lo hi := by
  have hprobed : ∀ db' (m : ℤ), Probed U close db db' → m ∈ Set.Icc (lo : ℤ) hi →
      Probed U close db (atOrBefore U iso db' m.toNat).1
        ∧ (atOrBefore U iso db' m.toNat).2 = some (if HasCloseTime U db m.toNat
          then some (decide (close m.toNat ≤ t)) else none) := by
    intro db' m hdb' hm
    have hlo := hm.1
    have hhi := hm.2
    exact atOrBefore_probed hiso (htruthful _ ⟨by omega, by omega⟩) hdb'
  exact ⟨fun db' m hdb' hm => (hprobed db' m hdb' hm).1,
    fun db' m hdb' hm => (hprobed db' m hdb' hm).2⟩

/-- A lookup in an archive with more close times cached adds to them, and tells the
    same. -/
theorem lazyLedgerTimeResolver_probed
    (htruthful : ∀ L ∈ Resolver.ledgers db .lazy, Truthful U close L)
    (htrue : TrueTimes close db) (h : Probed U close db db') :
    Probed U close db (lazyLedgerTimeResolver U db' iso).1
      ∧ (lazyLedgerTimeResolver U db' iso).2 = (lazyLedgerTimeResolver U db iso).2 := by
  have hbounds : archiveBounds db' = archiveBounds db := by
    rw [h.frame]
    rfl
  cases hiso : U.timestamptz iso with
  | none =>
      rw [lazyLedgerTimeResolver_unreadable hiso, lazyLedgerTimeResolver_unreadable hiso, hbounds]
      exact ⟨h, rfl⟩
  | some t =>
      cases harchive : archiveBounds db with
      | none =>
          rw [RegistrarPeriods.lazyLedgerTimeResolver_empty harchive,
            RegistrarPeriods.lazyLedgerTimeResolver_empty (hbounds.trans harchive)]
          exact ⟨h, rfl⟩
      | some bounds =>
          obtain ⟨lo, hi⟩ := bounds
          have hverdicts : Verdicts _ (Probed U close db) _ lo hi :=
            verdicts_atOrBefore hiso fun L hL => htruthful L ⟨lo, hi, harchive, hL⟩
          unfold lazyLedgerTimeResolver
          rw [searchLedgers_eq harchive, searchLedgers_eq (hbounds.trans harchive),
            bisect_search hverdicts h, bisect_search hverdicts (Probed.refl htrue)]
          exact ⟨bisect_invariant hverdicts.keeps h none, rfl⟩

theorem steady_lazy (htruthful : ∀ L ∈ Resolver.ledgers db .lazy, Truthful U close L)
    (htrue : TrueTimes close db) (htail : TailCurrent db) :
    Steady (TimeResolver.lazy U)
      (fun db' => Probed U close db db' ∧ tailHighWater db' = tailHighWater db) db := by
  refine ⟨⟨Probed.refl htrue, rfl⟩, fun db' h => ⟨h.1.frame, h.2⟩, ?_, ?_⟩
  · rintro db' iso - ⟨hprobed, htail'⟩
    have hcurrent : TailCurrent db' := by
      intro L hL
      have hlatest : archiveLatestLedger db' = archiveLatestLedger db := by
        rw [hprobed.frame]
        rfl
      rw [htail']
      exact htail L (hlatest ▸ hL)
    exact ⟨(lazyLedgerTimeResolver_probed htruthful htrue hprobed).1,
      (searchLedgers_tail hcurrent).trans htail'⟩
  · rintro db' iso - ⟨hprobed, -⟩
    exact (lazyLedgerTimeResolver_probed htruthful htrue hprobed).2

/-- **A run of requests is answered as each of them alone**, where the tail has come as
    far as the archived transactions and what the upstream tells, and what is cached, is
    true. -/
theorem run_answered_as_alone (htruthful : ∀ L ∈ Resolver.ledgers db .lazy, Truthful U close L)
    (htrue : TrueTimes close db) (htail : TailCurrent db)
    (hlazy : api.resolveLedgerTime = .lazy U) (reqs : List ApiRequest) :
    (serve X order api db reqs).2 = reqs.map fun req => (handle X order api db req).2 := by
  have hsteady := steady_lazy htruthful htrue htail
  rw [← hlazy] at hsteady
  exact serve_steady hsteady hsteady.start reqs

end Runs

/-! ## A tail that is behind -/

/-- The close times of ledgers 100 to 102. -/
def threeCloses : Upstream where
  closeTimeIso L := some
    (if L = 100 then some "2026-01-01T00:00:00Z"
      else if L = 101 then some "2026-01-01T00:00:10Z"
      else if L = 102 then some "2026-01-01T00:00:20Z" else none)
  timestamptz iso :=
    if iso = "2026-01-01T00:00:00Z" then some 0
    else if iso = "2026-01-01T00:00:10Z" then some 10
    else if iso = "2026-01-01T00:00:20Z" then some 20
    else none

/-- A holder complete at ledger 100, transactions up to 102, and no tail yet. -/
def behind : Archive where
  issuances := Table.empty.insertIgnore
    { id := 1, kind := .iou, currency := some "USD", issuerAccount := some "rIssuer" }
  accounts := Table.empty.insertIgnore ⟨"rHolder", some 100⟩
  accountIssuance := Table.empty.insertIgnore ⟨"rHolder", 1, "trustline", some 100⟩
  transactions := (Table.empty.insertIgnore
    ⟨"T100", 100, "Payment", "", "", ⟨"upstream", "2026-01-02"⟩, none, none, none⟩).insertIgnore
    ⟨"T102", 102, "Payment", "", "", ⟨"upstream", "2026-01-02"⟩, none, none, none⟩
  coverage := [⟨"rHolder", 100, 100, .issuerSweep "rIssuer" 100 100⟩]

/-- The same with the newest ledger recorded. -/
def caughtUp : Archive :=
  { behind with ledgers := Table.empty.insertIgnore ⟨102, 20⟩ }

def lazyApi : ArchiveApi String where
  resolveLedgerTime := .lazy threeCloses

/-- The holder's balance at the time of ledger 102. -/
def balanceAtTime : ApiRequest where
  command := .archiveBalanceAt
  apiVersion := some .two
  issuanceId := some 1
  account := some "rHolder"
  date := some "2026-01-01T00:00:20Z"

/-- The issuer's totals at ledger 102. -/
def totals : ApiRequest where
  command := .gatewayBalances
  apiVersion := some .two
  account := some "rIssuer"
  ledgerIndex := some (.index 102)

/-- Where the tail is behind, a lookup lets `gateway_balances` answer past the coverage. -/
theorem lookup_widens_coverage :
    OutOfCoverage behind 102 1
      ∧ ¬ OutOfCoverage (serve pickyXrpl storedOrder lazyApi behind [balanceAtTime]).1 102 1 := by
  decide +kernel

theorem threeCloses_truthful {L : ℕ} (h : L ∈ Resolver.ledgers caughtUp .lazy) :
    Truthful threeCloses tenSecondsApart L := by
  obtain ⟨lo, hi, hbounds, hlo, hhi⟩ := h
  have harchive : archiveBounds caughtUp = some (100, 102) := by decide +kernel
  rw [harchive] at hbounds
  cases hbounds
  refine ⟨_, rfl, ?_⟩
  have hcases : L = 100 ∨ L = 101 ∨ L = 102 := by omega
  rcases hcases with rfl | rfl | rfl
  · rintro iso hiso -
    cases hiso
    rfl
  · rintro iso hiso -
    cases hiso
    rfl
  · rintro iso hiso -
    cases hiso
    rfl

theorem caughtUp_current : TailCurrent caughtUp := by
  intro L hL
  have hlatest : archiveLatestLedger caughtUp = some 102 := by decide +kernel
  rw [hlatest] at hL
  cases hL
  exact ⟨102, by decide +kernel, le_rfl⟩

/-- The totals are answered after the lookup as before it. -/
theorem run_answered_as_alone_totals :
    (serve pickyXrpl storedOrder lazyApi caughtUp [balanceAtTime, totals]).2
      = [balanceAtTime, totals].map
          fun req => (handle pickyXrpl storedOrder lazyApi caughtUp req).2 :=
  run_answered_as_alone (fun _ => threeCloses_truthful) (by
    intro r hr
    have hall : ∀ r ∈ caughtUp.ledgers, r.closeTime = tenSecondsApart r.ledgerIndex := by
      decide +kernel
    exact hall r hr) caughtUp_current rfl [balanceAtTime, totals]

end RegistrarServe
