import Registrar.LedgerTimes

/-! # The transactions of a period

    `archive_transactions` takes both ends of a date range through the same
    resolver: the ledger in effect at a time.  For `to_time` that is the last
    ledger of the period.  For `from_time` it is one that closed before the
    period, unless a ledger closes at that very time; and before the first
    ledger there is none, and the request is refused. -/

namespace RegistrarPeriods

open KeyedTable RegistrarMetadata RegistrarArchive RegistrarReads Bisection
open RegistrarLedgerTimes

/-! ## The method -/

/-- A request: the issuance and account of a balance request, and a range. -/
structure TransactionsRequest extends BalanceAtRequest where
  fromLedger : Option LedgerKey := none
  fromTime : Option String := none
  toLedger : Option LedgerKey := none
  toTime : Option String := none

/-- One balance change of one transaction. -/
structure TransactionEntry where
  account : String
  delta : ℚ
  ledger : ℕ
  hash : String
  deriving DecidableEq

/-- The issuance's native identifier. -/
inductive IssuanceIdentity
  | mpt (mptIssuanceId : Option String)
  | iou (currency issuer : Option String)
  deriving DecidableEq

def issuanceIdentity (issuance : IssuanceRow) : IssuanceIdentity :=
  match issuance.kind with
  | .mpt => .mpt issuance.mptIssuanceId
  | .iou => .iou issuance.currency issuance.issuerAccount

structure TransactionsAnswer where
  issuance : IssuanceIdentity
  fromLedger : ℕ
  toLedger : ℕ
  transactions : List TransactionEntry
  deriving DecidableEq

/-- Resolve a point in time to a ledger; `none` where the resolver throws. -/
def resolveLedger (db : Archive) (ledgerKey timeKey : String) (raw : Option LedgerKey)
    (time : Option String) (resolveTime : LedgerTimeResolver) (fallback : Option ℕ) :
    Archive × Option (Except String ℕ) :=
  match raw with
  | some .validated =>
      match archiveLatestLedger db with
      | none => (db, some (.error "the archive holds no transactions yet"))
      | some latest => (db, some (.ok latest))
  | some (.index n) => (db, some (.ok n))
  | none =>
      match time.filter (fun s => decide (s ≠ "")) with
      | some time =>
          ((resolveTime db time).1, (resolveTime db time).2.map fun ledger =>
            match ledger with
            | none => .error ("no ledger recorded at or before " ++ time)
            | some ledger => .ok ledger)
      | none =>
          match fallback with
          | some ledger => (db, some (.ok ledger))
          | none => (db, some (.error ("'" ++ ledgerKey ++ "' (a number or \"validated\") or '"
              ++ timeKey ++ "' (ISO timestamp) is required")))

/-- The issuance and the ledger range of a request. -/
def resolveRange (db : Archive) (resolveTime : LedgerTimeResolver)
    (req : TransactionsRequest) : Archive × Option (Except ApiError (IssuanceRow × ℕ × ℕ)) :=
  match resolveIssuance db req.toBalanceAtRequest with
  | none => (db, some (.error (.notInArchive "Issuance")))
  | some issuance =>
      match resolveLedger db "from_ledger" "from_time" req.fromLedger req.fromTime
          resolveTime (some 0) with
      | (db₁, none) => (db₁, none)
      | (db₁, some (.error message)) => (db₁, some (.error (.invalidParams message)))
      | (db₁, some (.ok lo)) =>
          match resolveLedger db₁ "to_ledger" "to_time" req.toLedger req.toTime
              resolveTime (some ((archiveLatestLedger db).getD 0)) with
          | (db₂, none) => (db₂, none)
          | (db₂, some (.error message)) => (db₂, some (.error (.invalidParams message)))
          | (db₂, some (.ok hi)) => (db₂, some (.ok (issuance, lo, hi)))

/-- The balance changes of an issuance, of an account where one is named, each
    with the ledger of its transaction. -/
def itemised (db : Archive) (issuanceId : ℕ) (account : Option String) :
    List TransactionEntry :=
  (db.balanceDeltas.rows.filter fun bd =>
      decide (bd.issuanceId = issuanceId ∧ ∀ a ∈ account, bd.address = a)).filterMap fun bd =>
    (db.transactions.find? bd.hash).map fun t => ⟨bd.address, bd.delta, t.ledgerIndex, bd.hash⟩

/-- `ORDER BY t.ledger_index, bd.address`; rows of a tie in stored order. -/
def TransactionEntry.le (a b : TransactionEntry) : Prop :=
  a.ledger < b.ledger ∨ (a.ledger = b.ledger ∧ a.account ≤ b.account)

instance (a b : TransactionEntry) : Decidable (a.le b) := inferInstanceAs (Decidable (_ ∨ _))

/-- The account a request names, if it names one. -/
def TransactionsRequest.accountFilter (req : TransactionsRequest) : Option String :=
  req.account.filter fun s => decide (s ≠ "")

def handleTransactions (db : Archive) (resolveTime : LedgerTimeResolver)
    (req : TransactionsRequest) : Archive × Option (Except ApiError TransactionsAnswer) :=
  match resolveRange db resolveTime req with
  | (db', none) => (db', none)
  | (db', some (.error e)) => (db', some (.error e))
  | (db', some (.ok (issuance, lo, hi))) => (db', some (.ok
      { issuance := issuanceIdentity issuance
        fromLedger := lo
        toLedger := hi
        transactions := ((itemised db' issuance.id req.accountFilter).filter
          fun e => decide (lo ≤ e.ledger ∧ e.ledger ≤ hi)).insertionSort TransactionEntry.le }))

/-- For a balance request it is the same resolution, without a fallback. -/
theorem resolveLedger_balanceAt (db : Archive) (f : String → Option ℕ)
    (req : BalanceAtRequest) :
    resolveLedger db "ledger_index" "date" req.ledgerIndex req.date
        (fun db iso => (db, some (f iso))) none
      = (db, some (RegistrarReads.resolveLedger db f req)) := by
  unfold resolveLedger RegistrarReads.resolveLedger
  cases req.ledgerIndex with
  | some key =>
      cases key with
      | validated => cases archiveLatestLedger db <;> rfl
      | index n => rfl
  | none =>
      cases req.date.filter (fun s => decide (s ≠ "")) with
      | some time => cases f time <;> rfl
      | none => rfl

/-! ## The resolvers, for the closed ledgers they look at -/

/-- Which resolver the reporting methods are given. -/
inductive Resolver
  | table
  | lazy

def Resolver.resolveTime (U : Upstream) : Resolver → LedgerTimeResolver
  | .table => tableLedgerTimeResolver U
  | .lazy => lazyLedgerTimeResolver U

/-- The ledgers it resolves among: the recorded ones, or the archived range. -/
def Resolver.ledgers (db : Archive) : Resolver → Set ℕ
  | .table => {L | db.ledgers.HasKey L}
  | .lazy => {L | ∃ lo hi, archiveBounds db = some (lo, hi) ∧ L ∈ Set.Icc lo hi}

/-- It can resolve every archived ledger: to a recorded close time, or to one
    the upstream tells. -/
def Resolver.Resolvable (U : Upstream) (close : ℕ → ℕ) (db : Archive) : Resolver → Prop
  | .table => ∀ t ∈ db.transactions, db.ledgers.HasKey t.ledgerIndex
  | .lazy => ∀ L ∈ Resolver.ledgers db .lazy, Truthful U close L ∧ HasCloseTime U db L

/-- A timestamp as a request spells it. -/
structure Instant (U : Upstream) where
  iso : String
  ne_empty : iso ≠ ""
  t : ℕ
  reads : U.timestamptz iso = some t

section Resolvers

variable {U : Upstream} {close : ℕ → ℕ} {db : Archive} {S : Set ℕ}

/-- What a resolver is to the method: it adds to the cache, and tells the ledger
    of `S` in effect. -/
structure Resolves (U : Upstream) (close : ℕ → ℕ) (resolveTime : LedgerTimeResolver)
    (S : Set ℕ) (Inv : Archive → Prop) (db : Archive) : Prop where
  start : Inv db
  frame : ∀ db', Inv db' → db' = { db with ledgers := db'.ledgers }
  keeps : ∀ db', Inv db' → ∀ a : Instant U, Inv (resolveTime db' a.iso).1
  answers : ∀ db', Inv db' → ∀ a : Instant U,
    ∃ r, (resolveTime db' a.iso).2 = some r ∧ InEffect close S a.t r

/-- The recorded close times, true, tell the recorded ledger in effect. -/
theorem resolveAtOrBefore_inEffect (htrue : TrueTimes close db) (t : ℕ) :
    InEffect close {L | db.ledgers.HasKey L} t (resolveAtOrBefore db t) := by
  have hmem : ∀ L, L ∈ (db.ledgers.rows.filter fun r => decide (r.closeTime ≤ t)).map
      (·.ledgerIndex) ↔ db.ledgers.HasKey L ∧ close L ≤ t := by
    intro L
    rw [List.mem_map]
    constructor
    · rintro ⟨r, hr, rfl⟩
      obtain ⟨hr, hle⟩ := List.mem_filter.mp hr
      have hclose := htrue r hr
      exact ⟨Table.HasKey.of_mem hr, hclose ▸ of_decide_eq_true hle⟩
    · rintro ⟨⟨r, hr, rfl⟩, hle⟩
      have hclose := htrue r hr
      exact ⟨r, List.mem_filter.mpr ⟨hr, decide_eq_true (hclose ▸ hle)⟩, rfl⟩
  unfold resolveAtOrBefore
  cases hmax : ((db.ledgers.rows.filter fun r => decide (r.closeTime ≤ t)).map
      (·.ledgerIndex)).max? with
  | none =>
      intro L hL
      by_contra hle
      have hin := (hmem L).mpr ⟨hL, not_lt.mp hle⟩
      rw [List.max?_eq_none_iff.mp hmax] at hin
      exact absurd hin List.not_mem_nil
  | some L =>
      obtain ⟨hin, hgreatest⟩ := List.max?_eq_some_iff.mp hmax
      exact ⟨(hmem L).mp hin, fun L' hL' => hgreatest L' ((hmem L').mpr hL')⟩

theorem resolves_table (htrue : TrueTimes close db) :
    Resolves U close (tableLedgerTimeResolver U) {L | db.ledgers.HasKey L} (· = db) db where
  start := rfl
  frame db' h := by
    rw [h]
  keeps db' h a := h
  answers db' h a := by
    refine ⟨resolveAtOrBefore db a.t, ?_, resolveAtOrBefore_inEffect htrue a.t⟩
    unfold tableLedgerTimeResolver
    rw [a.reads, h]
    rfl

/-- In an empty archive the lazy resolver says null. -/
theorem lazyLedgerTimeResolver_empty (hbounds : archiveBounds db = none) (iso : String) :
    lazyLedgerTimeResolver U db iso = (db, some none) := by
  unfold lazyLedgerTimeResolver searchLedgers
  rw [hbounds]
  rfl

theorem resolves_lazy (htrue : TrueTimes close db)
    (hstrict : StrictMonoOn close (Resolver.ledgers db .lazy))
    (hresolvable : Resolver.Resolvable U close db .lazy) :
    Resolves U close (lazyLedgerTimeResolver U) (Resolver.ledgers db .lazy)
      (Probed U close db) db := by
  have hbounds : ∀ db', Probed U close db db' → archiveBounds db' = archiveBounds db := by
    intro db' h
    rw [h.frame]
    rfl
  cases harchive : archiveBounds db with
  | none =>
      have hempty : ∀ L, L ∉ Resolver.ledgers db .lazy := by
        rintro L ⟨lo, hi, hsome, -⟩
        rw [harchive] at hsome
        cases hsome
      refine ⟨Probed.refl htrue, fun db' h => h.frame, fun db' h a => ?_, fun db' h a => ?_⟩
      · rw [lazyLedgerTimeResolver_empty ((hbounds db' h).trans harchive)]
        exact h
      · rw [lazyLedgerTimeResolver_empty ((hbounds db' h).trans harchive)]
        exact ⟨none, rfl, fun L hL => absurd hL (hempty L)⟩
  | some bounds =>
      obtain ⟨lo, hi⟩ := bounds
      have hledgers : Resolver.ledgers db .lazy = Set.Icc lo hi := by
        ext L
        constructor
        · rintro ⟨lo', hi', hsome, hL⟩
          rw [harchive] at hsome
          cases hsome
          exact hL
        · intro hL
          exact ⟨lo, hi, harchive, hL⟩
      rw [hledgers] at hstrict ⊢
      have hresolvable : ∀ L ∈ Set.Icc lo hi, Truthful U close L ∧ HasCloseTime U db L :=
        fun L hL => hresolvable L (hledgers ▸ hL)
      refine ⟨Probed.refl htrue, fun db' h => h.frame, fun db' h a => ?_, fun db' h a => ?_⟩
      · exact h.trans (searchLedgers_probed ((hbounds db' h).trans harchive) a.reads
          hstrict.monotoneOn (fun L hL => (hresolvable L hL).1) h.trueTimes)
      · exact searchLedgers_known ((hbounds db' h).trans harchive) a.reads
          hstrict.monotoneOn (fun L hL => (hresolvable L hL).1) h.trueTimes
          (fun L hL => h.hasCloseTime (hresolvable L hL).2)

end Resolvers

/-! ## The answer for a date range -/

/-- A request for `[a, b]`. -/
def period {U : Upstream} (req : TransactionsRequest) (a b : Instant U) : TransactionsRequest :=
  { req with
    fromLedger := none
    fromTime := some a.iso
    toLedger := none
    toTime := some b.iso }

/-- The entries of the ledgers `lo..hi`. -/
def between (entries : List TransactionEntry) (lo hi : ℕ) : List TransactionEntry :=
  entries.filter fun e => decide (lo ≤ e.ledger ∧ e.ledger ≤ hi)

section Answers

variable {U : Upstream} {close : ℕ → ℕ} {db db' : Archive} {S : Set ℕ}
  {resolveTime : LedgerTimeResolver} {Inv : Archive → Prop} {req : TransactionsRequest}
  {issuance : IssuanceRow}

theorem Instant.given (a : Instant U) :
    (some a.iso).filter (fun s => decide (s ≠ "")) = some a.iso :=
  Option.filter_eq_some_iff.mpr ⟨rfl, decide_eq_true a.ne_empty⟩

/-- A timestamp no ledger closed before is an error. -/
theorem resolveLedger_none (a : Instant U) (ledgerKey timeKey : String)
    (fallback : Option ℕ) (h : (resolveTime db' a.iso).2 = some none) :
    resolveLedger db' ledgerKey timeKey none (some a.iso) resolveTime fallback
      = ((resolveTime db' a.iso).1,
        some (.error ("no ledger recorded at or before " ++ a.iso))) := by
  unfold resolveLedger
  simp only [a.given, h]
  rfl

theorem resolveLedger_some (a : Instant U) (ledgerKey timeKey : String)
    (fallback : Option ℕ) {L : ℕ} (h : (resolveTime db' a.iso).2 = some (some L)) :
    resolveLedger db' ledgerKey timeKey none (some a.iso) resolveTime fallback
      = ((resolveTime db' a.iso).1, some (.ok L)) := by
  unfold resolveLedger
  simp only [a.given, h]
  rfl

/-- With no ledger in effect at its start, a period is refused. -/
theorem handleTransactions_refused
    (hissuance : resolveIssuance db req.toBalanceAtRequest = some issuance)
    (a b : Instant U) (hnone : (resolveTime db a.iso).2 = some none) :
    (handleTransactions db resolveTime (period req a b)).2 = some (.error (.invalidParams
      ("no ledger recorded at or before " ++ a.iso))) := by
  unfold handleTransactions resolveRange period
  simp only [hissuance, resolveLedger_none a _ _ _ hnone]

/-- Else the answer has the entries from the ledger in effect at its start to
    the one in effect at its end. -/
theorem handleTransactions_answer (h : Resolves U close resolveTime S Inv db)
    (hissuance : resolveIssuance db req.toBalanceAtRequest = some issuance)
    (a b : Instant U) {A B : ℕ} (hA : (resolveTime db a.iso).2 = some (some A))
    (hB : (resolveTime (resolveTime db a.iso).1 b.iso).2 = some (some B)) :
    ∃ answer, (handleTransactions db resolveTime (period req a b)).2 = some (.ok answer)
      ∧ answer.transactions.Perm
        (between (itemised db issuance.id req.accountFilter) A B) := by
  have hanswer : ∃ answer,
      (handleTransactions db resolveTime (period req a b)).2 = some (.ok answer)
        ∧ answer.transactions = (between (itemised
          (resolveTime (resolveTime db a.iso).1 b.iso).1 issuance.id
            req.accountFilter) A B).insertionSort TransactionEntry.le := by
    unfold handleTransactions resolveRange period
    simp only [hissuance, resolveLedger_some a _ _ _ hA, resolveLedger_some b _ _ _ hB]
    exact ⟨_, rfl, rfl⟩
  obtain ⟨answer, hanswer, hentries⟩ := hanswer
  refine ⟨answer, hanswer, ?_⟩
  rw [hentries, h.frame _ (h.keeps _ (h.keeps _ h.start a) b)]
  exact List.perm_insertionSort _ _

end Answers

/-! ## What an answer says of the period -/

section Closes

variable {close : ℕ → ℕ} {S : Set ℕ} {entries : List TransactionEntry} {t t₁ t₂ t₃ : ℕ}
  {A B C L : ℕ}

/-- Some ledger closed at or before `t`. -/
def Started (close : ℕ → ℕ) (S : Set ℕ) (t : ℕ) : Prop := ∃ L ∈ S, close L ≤ t

/-- No entry lies in the last ledger to close before `t`, unless one closes at
    `t` itself. -/
def QuietBefore (close : ℕ → ℕ) (S : Set ℕ) (t : ℕ) (entries : List TransactionEntry) : Prop :=
  ∀ e ∈ entries, close e.ledger < t → ∃ L ∈ S, close e.ledger < close L ∧ close L ≤ t

theorem inEffect_some_iff {r : Option ℕ} (h : InEffect close S t r) :
    Started close S t ↔ ∃ A, r = some A := by
  cases r with
  | none =>
      constructor
      · rintro ⟨L, hL, hle⟩
        exact absurd (h L hL) (not_lt.mpr hle)
      · rintro ⟨A, hA⟩
        cases hA
  | some A => exact ⟨fun _ => ⟨A, rfl⟩, fun _ => ⟨A, h.1⟩⟩

/-- The ledgers up to the one in effect are those closed by then. -/
theorem le_inEffect_iff (hstrict : StrictMonoOn close S) (hA : InEffect close S t (some A))
    (hL : L ∈ S) : L ≤ A ↔ close L ≤ t := by
  constructor
  · intro hle
    exact (hstrict.monotoneOn hL hA.1.1 hle).trans hA.1.2
  · intro hle
    exact hA.2 ⟨hL, hle⟩

/-- Later times have later ledgers in effect. -/
theorem inEffect_le (hA : InEffect close S t₁ (some A)) (hB : InEffect close S t₂ (some B))
    (h : t₁ ≤ t₂) : A ≤ B :=
  hB.2 ⟨hA.1.1, hA.1.2.trans h⟩

/-- Two selections of the same entries agree when they agree on each. -/
theorem filter_perm_filter_iff {p q : TransactionEntry → Prop} [DecidablePred p]
    [DecidablePred q] :
    (entries.filter fun e => decide (p e)).Perm (entries.filter fun e => decide (q e))
      ↔ ∀ e ∈ entries, p e ↔ q e := by
  constructor
  · intro h e he
    have hmem := h.mem_iff (a := e)
    rw [List.mem_filter, List.mem_filter, decide_eq_true_eq, decide_eq_true_eq] at hmem
    exact ⟨fun hp => (hmem.mp ⟨he, hp⟩).2, fun hq => (hmem.mpr ⟨he, hq⟩).2⟩
  · intro h
    exact List.Perm.of_eq (List.filter_congr fun e he => decide_eq_decide.mpr (h e he))

/-- **THE PERIOD**: the answer's entries are those of the ledgers that closed in
    the period exactly when its start does not break off a ledger with an
    entry. -/
theorem between_perm_iff (hstrict : StrictMonoOn close S)
    (hentries : ∀ e ∈ entries, e.ledger ∈ S) (hA : InEffect close S t₁ (some A))
    (hB : InEffect close S t₂ (some B)) (h : t₁ ≤ t₂) :
    (between entries A B).Perm
        (entries.filter fun e => decide (t₁ ≤ close e.ledger ∧ close e.ledger ≤ t₂))
      ↔ QuietBefore close S t₁ entries := by
  unfold between
  rw [filter_perm_filter_iff]
  constructor
  · intro hsame e he hbefore
    by_contra hlast
    -- its ledger is the one in effect at `t₁`
    have hle : A ≤ e.ledger := by
      by_contra hlt
      refine hlast ⟨A, hA.1.1, ?_, hA.1.2⟩
      exact hstrict (hentries e he) hA.1.1 (not_le.mp hlt)
    have hB' : e.ledger ≤ B :=
      (le_inEffect_iff hstrict hB (hentries e he)).mpr (hbefore.le.trans h)
    exact absurd ((hsame e he).mp ⟨hle, hB'⟩).1 (not_le.mpr hbefore)
  · intro hquiet e he
    rw [le_inEffect_iff hstrict hB (hentries e he)]
    refine and_congr_left fun _ => ?_
    constructor
    · intro hle
      by_contra hbefore
      obtain ⟨L, hL, hlater, hclose⟩ := hquiet e he (not_le.mp hbefore)
      have hclosed : close L ≤ close A :=
        hstrict.monotoneOn hL hA.1.1 ((le_inEffect_iff hstrict hA hL).mpr hclose)
      exact absurd (hstrict.monotoneOn hA.1.1 (hentries e he) hle) (by omega)
    · intro hle
      by_contra hlt
      have hlater := hstrict (hentries e he) hA.1.1 (not_le.mp hlt)
      have hclosed := hA.1.2
      omega

/-- A time no ledger closes at breaks off the ledger in effect. -/
theorem quietBefore_iff (hstrict : StrictMonoOn close S)
    (hentries : ∀ e ∈ entries, e.ledger ∈ S) (hB : InEffect close S t (some B))
    (hne : ∀ L ∈ S, close L ≠ t) :
    QuietBefore close S t entries ↔ ∀ e ∈ entries, e.ledger ≠ B := by
  constructor
  · intro hquiet e he heq
    have hbefore : close e.ledger < t :=
      lt_of_le_of_ne (heq ▸ hB.1.2) (hne _ (hentries e he))
    obtain ⟨L, hL, hlater, hclose⟩ := hquiet e he hbefore
    have hle := hstrict.monotoneOn hL hB.1.1 (hB.2 ⟨hL, hclose⟩)
    rw [heq] at hlater
    omega
  · intro hnone e he hbefore
    have hle : e.ledger ≤ B := hB.2 ⟨hentries e he, hbefore.le⟩
    exact ⟨B, hB.1.1, hstrict (hentries e he) hB.1.1 (lt_of_le_of_ne hle (hnone e he)),
      hB.1.2⟩

/-- The ranges `A..B` and `B..C` split `A..C` exactly when no entry lies in
    `B`. -/
theorem between_split_iff (hAB : A ≤ B) (hBC : B ≤ C) :
    ((between entries A B).Disjoint (between entries B C)
        ∧ (between entries A B ++ between entries B C).Perm (between entries A C))
      ↔ ∀ e ∈ entries, e.ledger ≠ B := by
  constructor
  · rintro ⟨hdisjoint, -⟩ e he heq
    exact hdisjoint
      (List.mem_filter.mpr ⟨he, decide_eq_true ⟨hAB.trans heq.ge, heq.le⟩⟩)
      (List.mem_filter.mpr ⟨he, decide_eq_true ⟨heq.ge, heq.le.trans hBC⟩⟩)
  · intro hnone
    have hfirst : between entries A B
        = (between entries A C).filter (fun e => decide (e.ledger ≤ B)) := by
      unfold between
      rw [List.filter_filter]
      refine List.filter_congr fun e _ => ?_
      rw [← Bool.decide_and, decide_eq_decide]
      omega
    have hsecond : between entries B C
        = (between entries A C).filter (fun e => !decide (e.ledger ≤ B)) := by
      unfold between
      rw [List.filter_filter]
      refine List.filter_congr fun e he => ?_
      have hne := hnone e he
      rw [← decide_not, ← Bool.decide_and, decide_eq_decide]
      omega
    refine ⟨?_, ?_⟩
    · intro e hB hC
      rw [hfirst] at hB
      rw [hsecond] at hC
      have hle := (List.mem_filter.mp hB).2
      have hgt := (List.mem_filter.mp hC).2
      rw [hle] at hgt
      cases hgt
    · rw [hfirst, hsecond]
      exact List.filter_append_perm _ _

end Closes

/-! ## The two promises of a date range -/

/-- The answer for `[a, b]` has the balance changes of the ledgers that closed
    in it, and no others. -/
def Exact {U : Upstream} (close : ℕ → ℕ) (resolveTime : LedgerTimeResolver) (db : Archive)
    (req : TransactionsRequest) (issuance : IssuanceRow) (a b : Instant U) : Prop :=
  ∃ answer, (handleTransactions db resolveTime (period req a b)).2 = some (.ok answer)
    ∧ answer.transactions.Perm ((itemised db issuance.id req.accountFilter).filter
        fun e => decide (a.t ≤ close e.ledger ∧ close e.ledger ≤ b.t))

/-- The answers for `[a, b]` and `[b, c]` have no entry in common, and together
    those of `[a, c]`. -/
def Splits {U : Upstream} (resolveTime : LedgerTimeResolver) (db : Archive)
    (req : TransactionsRequest) (a b c : Instant U) : Prop :=
  ∃ first second whole,
    (handleTransactions db resolveTime (period req a b)).2 = some (.ok first)
    ∧ (handleTransactions db resolveTime (period req b c)).2 = some (.ok second)
    ∧ (handleTransactions db resolveTime (period req a c)).2 = some (.ok whole)
    ∧ first.transactions.Disjoint second.transactions
    ∧ (first.transactions ++ second.transactions).Perm whole.transactions

section Promises

variable {U : Upstream} {close : ℕ → ℕ} {db : Archive} {S : Set ℕ}
  {resolveTime : LedgerTimeResolver} {Inv : Archive → Prop} {req : TransactionsRequest}
  {issuance : IssuanceRow}

/-- Entries lie in ledgers with a transaction. -/
theorem mem_itemised {e : TransactionEntry} {issuanceId : ℕ} {account : Option String}
    (h : e ∈ itemised db issuanceId account) :
    ∃ t ∈ db.transactions, t.ledgerIndex = e.ledger := by
  obtain ⟨bd, -, he⟩ := List.mem_filterMap.mp h
  obtain ⟨t, ht, rfl⟩ := Option.map_eq_some_iff.mp he
  exact ⟨t, (Table.find?_eq_some.mp ht).1, rfl⟩

/-- Before the first ledger the method refuses. -/
theorem Resolves.refused (h : Resolves U close resolveTime S Inv db)
    (hissuance : resolveIssuance db req.toBalanceAtRequest = some issuance)
    {a b : Instant U} (hstart : ¬ Started close S a.t) {answer : TransactionsAnswer} :
    (handleTransactions db resolveTime (period req a b)).2 ≠ some (.ok answer) := by
  obtain ⟨r, hr, heffect⟩ := h.answers db h.start a
  cases r with
  | none =>
      rw [handleTransactions_refused hissuance a b hr]
      intro hok
      cases hok
  | some A => exact absurd ((inEffect_some_iff heffect).mpr ⟨A, rfl⟩) hstart

/-- After it the answer has the entries between the two ledgers in effect. -/
theorem Resolves.answered (h : Resolves U close resolveTime S Inv db)
    (hissuance : resolveIssuance db req.toBalanceAtRequest = some issuance)
    {a b : Instant U} {A B : ℕ} (hA : InEffect close S a.t (some A))
    (hB : InEffect close S b.t (some B)) :
    ∃ answer, (handleTransactions db resolveTime (period req a b)).2 = some (.ok answer)
      ∧ answer.transactions.Perm
        (between (itemised db issuance.id req.accountFilter) A B) := by
  obtain ⟨r, hr, heffect⟩ := h.answers db h.start a
  obtain ⟨r', hr', heffect'⟩ := h.answers _ (h.keeps db h.start a) b
  obtain ⟨A', rfl⟩ := (inEffect_some_iff heffect).mp ⟨A, hA.1⟩
  obtain ⟨B', rfl⟩ := (inEffect_some_iff heffect').mp ⟨B, hB.1⟩
  rw [hA.unique heffect, hB.unique heffect']
  exact handleTransactions_answer h hissuance a b hr hr'

/-- A later time has a ledger in effect too. -/
theorem Resolves.inEffect (h : Resolves U close resolveTime S Inv db) (a : Instant U)
    (hstart : Started close S a.t) : ∃ A, InEffect close S a.t (some A) := by
  obtain ⟨r, -, heffect⟩ := h.answers db h.start a
  obtain ⟨A, rfl⟩ := (inEffect_some_iff heffect).mp hstart
  exact ⟨A, heffect⟩

theorem Started.mono {t t' : ℕ} (h : Started close S t) (hle : t ≤ t') : Started close S t' := by
  obtain ⟨L, hL, hclose⟩ := h
  exact ⟨L, hL, hclose.trans hle⟩

/-- The answer for a period is exact when a ledger closed by its start, and its
    start breaks off no ledger with an entry. -/
theorem exact_iff (h : Resolves U close resolveTime S Inv db) (hstrict : StrictMonoOn close S)
    (htransactions : ∀ t ∈ db.transactions, t.ledgerIndex ∈ S)
    (hissuance : resolveIssuance db req.toBalanceAtRequest = some issuance)
    {a b : Instant U} (hab : a.t ≤ b.t) :
    Exact close resolveTime db req issuance a b
      ↔ Started close S a.t
        ∧ QuietBefore close S a.t (itemised db issuance.id req.accountFilter) := by
  have hentries : ∀ e ∈ itemised db issuance.id req.accountFilter, e.ledger ∈ S := by
    intro e he
    obtain ⟨t, ht, hledger⟩ := mem_itemised he
    exact hledger ▸ htransactions t ht
  by_cases hstart : Started close S a.t
  · obtain ⟨A, hA⟩ := h.inEffect a hstart
    obtain ⟨B, hB⟩ := h.inEffect b (hstart.mono hab)
    obtain ⟨answer, hanswer, hperm⟩ := h.answered hissuance hA hB
    rw [← between_perm_iff hstrict hentries hA hB hab]
    constructor
    · rintro ⟨answer', hanswer', hexact⟩
      rw [hanswer] at hanswer'
      cases hanswer'
      exact ⟨hstart, hperm.symm.trans hexact⟩
    · rintro ⟨-, hexact⟩
      exact ⟨answer, hanswer, hperm.trans hexact⟩
  · constructor
    · rintro ⟨answer, hanswer, -⟩
      exact absurd hanswer (h.refused hissuance hstart)
    · rintro ⟨hstart', -⟩
      exact absurd hstart' hstart

/-- Adjacent periods split the whole one when a ledger closed by its start, and
    the time between them breaks off no ledger with an entry. -/
theorem splits_iff (h : Resolves U close resolveTime S Inv db) (hstrict : StrictMonoOn close S)
    (htransactions : ∀ t ∈ db.transactions, t.ledgerIndex ∈ S)
    (hissuance : resolveIssuance db req.toBalanceAtRequest = some issuance)
    {a b c : Instant U} (hab : a.t < b.t) (hbc : b.t < c.t) (hne : ∀ L ∈ S, close L ≠ b.t) :
    Splits resolveTime db req a b c
      ↔ Started close S a.t
        ∧ QuietBefore close S b.t (itemised db issuance.id req.accountFilter) := by
  have hentries : ∀ e ∈ itemised db issuance.id req.accountFilter, e.ledger ∈ S := by
    intro e he
    obtain ⟨t, ht, hledger⟩ := mem_itemised he
    exact hledger ▸ htransactions t ht
  by_cases hstart : Started close S a.t
  · obtain ⟨A, hA⟩ := h.inEffect a hstart
    obtain ⟨B, hB⟩ := h.inEffect b (hstart.mono hab.le)
    obtain ⟨C, hC⟩ := h.inEffect c (hstart.mono (hab.trans hbc).le)
    obtain ⟨first, hfirst, hfirstPerm⟩ := h.answered hissuance hA hB
    obtain ⟨second, hsecond, hsecondPerm⟩ := h.answered hissuance hB hC
    obtain ⟨whole, hwhole, hwholePerm⟩ := h.answered hissuance hA hC
    rw [quietBefore_iff hstrict hentries hB hne,
      ← between_split_iff (inEffect_le hA hB hab.le) (inEffect_le hB hC hbc.le)]
    constructor
    · rintro ⟨first', second', whole', hfirst', hsecond', hwhole', hdisjoint, hperm⟩
      rw [hfirst] at hfirst'
      rw [hsecond] at hsecond'
      rw [hwhole] at hwhole'
      cases hfirst'
      cases hsecond'
      cases hwhole'
      refine ⟨hstart, ?_, ?_⟩
      · intro e hx hy
        exact hdisjoint (hfirstPerm.mem_iff.mpr hx) (hsecondPerm.mem_iff.mpr hy)
      · exact ((hfirstPerm.append hsecondPerm).symm.trans hperm).trans hwholePerm
    · rintro ⟨-, hdisjoint, hperm⟩
      refine ⟨first, second, whole, hfirst, hsecond, hwhole, ?_, ?_⟩
      · intro e hx hy
        exact hdisjoint (hfirstPerm.mem_iff.mp hx) (hsecondPerm.mem_iff.mp hy)
      · exact ((hfirstPerm.append hsecondPerm).trans hperm).trans hwholePerm.symm
  · constructor
    · rintro ⟨first, -, -, hfirst, -⟩
      exact absurd hfirst (h.refused hissuance hstart)
    · rintro ⟨hstart', -⟩
      exact absurd hstart' hstart

/-- Either resolver, over the ledgers it looks at. -/
theorem Resolver.resolves (resolver : Resolver) (htrue : TrueTimes close db)
    (hstrict : StrictMonoOn close (resolver.ledgers db))
    (hresolvable : resolver.Resolvable U close db) :
    ∃ Inv, Resolves U close (resolver.resolveTime U) (resolver.ledgers db) Inv db := by
  cases resolver with
  | table => exact ⟨_, resolves_table htrue⟩
  | lazy => exact ⟨_, resolves_lazy htrue hstrict hresolvable⟩

/-- They include every ledger with a transaction. -/
theorem Resolver.transactions (resolver : Resolver)
    (hresolvable : resolver.Resolvable U close db) :
    ∀ t ∈ db.transactions, t.ledgerIndex ∈ resolver.ledgers db := by
  cases resolver with
  | table => exact hresolvable
  | lazy =>
      intro t ht
      have hmem : t.ledgerIndex ∈ db.transactions.rows.map (·.ledgerIndex) :=
        List.mem_map_of_mem ht
      cases hmin : (db.transactions.rows.map (·.ledgerIndex)).min? with
      | none =>
          rw [List.min?_eq_none_iff.mp hmin] at hmem
          exact absurd hmem List.not_mem_nil
      | some lo =>
          cases hmax : (db.transactions.rows.map (·.ledgerIndex)).max? with
          | none =>
              rw [List.max?_eq_none_iff.mp hmax] at hmem
              exact absurd hmem List.not_mem_nil
          | some hi =>
              refine ⟨lo, hi, ?_, (List.min?_eq_some_iff.mp hmin).2 _ hmem,
                (List.max?_eq_some_iff.mp hmax).2 _ hmem⟩
              unfold archiveBounds
              rw [hmin, hmax]

/-- **DATE RANGES**: over an archive whose close times are strictly increasing
    and all resolvable, the answer for a period is exact, and adjacent periods
    split the whole one, exactly when some ledger closed by the start, and no
    entry lies in the last ledger to close before the start of the period (of
    the second of the two periods), unless a ledger closes at that very time. -/
theorem date_ranges_iff (resolver : Resolver) (htrue : TrueTimes close db)
    (hstrict : StrictMonoOn close (resolver.ledgers db))
    (hresolvable : resolver.Resolvable U close db)
    (hissuance : resolveIssuance db req.toBalanceAtRequest = some issuance) :
    (∀ a b : Instant U, a.t ≤ b.t →
      (Exact close (resolver.resolveTime U) db req issuance a b
        ↔ Started close (resolver.ledgers db) a.t
          ∧ QuietBefore close (resolver.ledgers db) a.t
            (itemised db issuance.id req.accountFilter)))
      ∧ ∀ a b c : Instant U, a.t < b.t → b.t < c.t →
        (∀ L ∈ resolver.ledgers db, close L ≠ b.t) →
        (Splits (resolver.resolveTime U) db req a b c
          ↔ Started close (resolver.ledgers db) a.t
            ∧ QuietBefore close (resolver.ledgers db) b.t
              (itemised db issuance.id req.accountFilter)) := by
  obtain ⟨Inv, h⟩ := resolver.resolves htrue hstrict hresolvable
  have htransactions := resolver.transactions hresolvable
  refine ⟨fun a b hab => ?_, fun a b c hab hbc hne => ?_⟩
  · exact exact_iff h hstrict htransactions hissuance hab
  · exact splits_iff h hstrict htransactions hissuance hab hbc hne

end Promises

/-! ## A quarter that starts between two closes -/

/-- Ledger 100 closes on the first of January, ledger 200 on the first of
    June. -/
def calendar : Upstream where
  closeTimeIso _ := some none
  timestamptz iso :=
    if iso = "2026-01-01T00:00:00Z" then some 0
    else if iso = "2026-03-01T00:00:00Z" then some 59
    else if iso = "2026-06-01T00:00:00Z" then some 151
    else none

/-- The day of the year ledger 100 or ledger 200 closes. -/
def closingDay (L : ℕ) : ℕ := if L ≤ 100 then 0 else 151

def january : Instant calendar := ⟨"2026-01-01T00:00:00Z", by decide, 0, by decide⟩

def march : Instant calendar := ⟨"2026-03-01T00:00:00Z", by decide, 59, by decide⟩

def june : Instant calendar := ⟨"2026-06-01T00:00:00Z", by decide, 151, by decide⟩

/-- A payment in each of the two ledgers. -/
def twoPayments : Archive where
  issuances := Table.empty.insertIgnore { id := 1, kind := .mpt, mptIssuanceId := some "MPT" }
  transactions := (Table.empty.insertIgnore
    ⟨"T1", 100, "Payment", "", "", ⟨"upstream", "2026-07-01"⟩, none, none, none⟩).insertIgnore
    ⟨"T2", 200, "Payment", "", "", ⟨"upstream", "2026-07-01"⟩, none, none, none⟩
  balanceDeltas := (Table.empty.insertIgnore ⟨"T1", "rA", 1, 10⟩).insertIgnore
    ⟨"T2", "rA", 1, 25⟩
  ledgers := (Table.empty.insertIgnore ⟨100, 0⟩).insertIgnore ⟨200, 151⟩

def ofMpt : TransactionsRequest where
  mptIssuanceId := some "MPT"

def mptIssuance : IssuanceRow := { id := 1, kind := .mpt, mptIssuanceId := some "MPT" }

theorem twoPayments_trueTimes : TrueTimes closingDay twoPayments := by
  intro r hr
  have hall : ∀ r ∈ twoPayments.ledgers, r.closeTime = closingDay r.ledgerIndex := by
    decide +kernel
  exact hall r hr

theorem twoPayments_ledgers {L : ℕ} (h : L ∈ Resolver.ledgers twoPayments .table) :
    L = 100 ∨ L = 200 := by
  obtain ⟨r, hr, rfl⟩ := h
  have hall : ∀ r ∈ twoPayments.ledgers, r.ledgerIndex = 100 ∨ r.ledgerIndex = 200 := by
    decide +kernel
  exact hall r hr

theorem twoPayments_strict :
    StrictMonoOn closingDay (Resolver.ledgers twoPayments .table) := by
  intro L hL L' hL' hlt
  rcases twoPayments_ledgers hL with rfl | rfl
  · rcases twoPayments_ledgers hL' with rfl | rfl
    · exact absurd hlt (lt_irrefl _)
    · decide
  · rcases twoPayments_ledgers hL' with rfl | rfl
    · exact absurd hlt (by decide)
    · exact absurd hlt (lt_irrefl _)

theorem twoPayments_resolvable : Resolver.Resolvable calendar closingDay twoPayments .table := by
  intro t ht
  have hall : ∀ t ∈ twoPayments.transactions, twoPayments.ledgers.HasKey t.ledgerIndex := by
    decide +kernel
  exact hall t ht

/-- From March to June the answer has the payment of January. -/
theorem period_from_march_has_january : ¬ ∀ (U : Upstream) (close : ℕ → ℕ) (db : Archive)
    (req : TransactionsRequest) (issuance : IssuanceRow) (resolver : Resolver),
      TrueTimes close db → StrictMonoOn close (resolver.ledgers db) →
      resolver.Resolvable U close db →
      resolveIssuance db req.toBalanceAtRequest = some issuance →
      ∀ a b : Instant U, a.t ≤ b.t →
        Exact close (resolver.resolveTime U) db req issuance a b := by
  intro h
  obtain ⟨answer, hanswer, hperm⟩ := h calendar closingDay twoPayments ofMpt mptIssuance .table
    twoPayments_trueTimes twoPayments_strict twoPayments_resolvable (by decide +kernel)
    march june (by decide)
  have hreported : (handleTransactions twoPayments (tableLedgerTimeResolver calendar)
      (period ofMpt march june)).2 = some (.ok
        { issuance := .mpt (some "MPT")
          fromLedger := 100
          toLedger := 200
          transactions := [⟨"rA", 10, 100, "T1"⟩, ⟨"rA", 25, 200, "T2"⟩] }) := by
    decide +kernel
  have hsame := hreported.symm.trans hanswer
  cases hsame
  have hlength := hperm.length_eq
  revert hlength
  decide +kernel

/-- From January to June it is exact, as January is a close. -/
theorem date_ranges_iff_january :
    Exact closingDay (Resolver.resolveTime calendar .table) twoPayments ofMpt mptIssuance
      january june :=
  ((date_ranges_iff .table twoPayments_trueTimes twoPayments_strict twoPayments_resolvable
    (by decide +kernel)).1 january june (by decide)).mpr
    ⟨⟨100, ⟨⟨100, 0⟩, by decide +kernel, rfl⟩, by decide⟩,
      fun e _ hbefore => absurd hbefore (Nat.not_lt_zero _)⟩

end RegistrarPeriods
