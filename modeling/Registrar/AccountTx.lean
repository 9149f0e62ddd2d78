import Registrar.Library.KeysetPaging
import Registrar.Markers
import Registrar.IngestSchedule

/-! # Paging through the transactions of an account

    `account_tx` answers the stored transactions of an account within bounds, a
    page at a time, with a marker that names the last row of the page.  The pages
    a client reads by following the markers are in order, repeat nothing, skip
    nothing that was there at the first one, and come to an end, whatever is
    ingested in between, as long as they are answered: one blob that does not decode
    keeps its page, and all that follow, from a client that does not ask for binary
    (`garbled_blob_ends_pages`). -/

namespace RegistrarAccountTx

open KeyedTable Statements KeysetPaging RegistrarMetadata RegistrarArchive RegistrarReads
open RegistrarOrder RegistrarSchedule RegistrarStateReads RegistrarMarkers

/-! ## Requests -/

/-- A request, each field `none` where it is absent or of another type. -/
structure TxRequest where
  account : Option String := none
  binary : Bool := false
  forward : Bool := false
  limit : Option Number := none
  ledgerIndexMin : Option Number := none
  ledgerIndexMax : Option Number := none
  marker : Option String := none

def asNumber (value : Option Number) : Option ℚ :=
  match value with
  | some (.finite q) => some q
  | _ => none

/-- `Math.trunc`. -/
def trunc (q : ℚ) : ℤ := if 0 ≤ q then ⌊q⌋ else ⌈q⌉

def clampLimit (value : Option Number) : ℕ :=
  match asNumber value with
  | none => 200
  | some q => (max 1 (min 400 (trunc q))).toNat

/-- The lower bound of the query: a requested one that is not negative, within the
    coverage. -/
def queryMin (coverage : Option Range) (reqMin : Option ℚ) : ℚ :=
  let covLo : ℚ := (coverage.map fun cov => (cov.lo : ℚ)).getD 0
  match reqMin with
  | some q => if 0 ≤ q then max q covLo else covLo
  | none => covLo

/-- The upper bound of the query. -/
def queryMax (coverage : Option Range) (reqMax : Option ℚ) : ℚ :=
  let covHi : ℚ := (coverage.map fun cov => (cov.hi : ℚ)).getD maxSafeInteger
  match reqMax with
  | some q => if 0 ≤ q then min q covHi else covHi
  | none => covHi

/-! ## Pages -/

/-- The place of a row in the pages. -/
def rowCursor (forward : Bool) (t : TransactionRow) : Cursor forward := ⟨t.ledgerIndex, t.hash⟩

/-- The rows of an account within bounds and past a cursor, in the order of the pages. -/
def selectRows (db : Archive) (account : String) (qMin qMax : ℤ) {forward : Bool}
    (past : Option (Cursor forward)) : List TransactionRow :=
  ((accountTransactions db account).filter fun t =>
    qMin ≤ t.ledgerIndex ∧ t.ledgerIndex ≤ qMax
      ∧ past.all (fun c => c < rowCursor forward t)).insertionSort
        (fun a b => rowCursor forward a ≤ rowCursor forward b)

/-- A transaction as it is answered: its blobs, or decoded. -/
structure TxEntry where
  row : TransactionRow
  json : Option (Option String × Meta)
  deriving DecidableEq

/-- `binaryEntry` and `jsonEntry`; `none` where `decode` throws. -/
def txEntry (X : Xrpl) (binary : Bool) (row : TransactionRow) : Option TxEntry :=
  if binary then some ⟨row, none⟩
  else
    (X.decodeTxType row.txBlob).bind fun txType =>
      (X.decodeMeta row.metaBlob).map fun m => ⟨row, some (txType, m)⟩

/-- `ScopeRepository.accountDataRange`. -/
def accountDataRange (db : Archive) (address : String) : Option Range :=
  match ((accountTransactions db address).map (·.ledgerIndex)).min?,
      ((accountTransactions db address).map (·.ledgerIndex)).max? with
  | some lo, some hi => some ⟨lo, hi⟩
  | _, _ => none

/-- The range an answer reports. -/
def reportedRange (db : Archive) (account : String) : Range :=
  match accountCoverage db account with
  | some cov => cov
  | none => (accountDataRange db account).getD ⟨latestLedger db, latestLedger db⟩

/-- The warning that the requested bounds exceed the coverage. -/
structure BeyondCoverage where
  min : Option ℚ
  max : Option ℚ
  coverage : Option Range
  deriving DecidableEq

def beyondCoverage (coverage : Option Range) (reqMin reqMax : Option ℚ) :
    Option BeyondCoverage :=
  match coverage with
  | none => some ⟨reqMin, reqMax, none⟩
  | some cov =>
      if reqMin.any (fun q : ℚ => decide (0 ≤ q ∧ q < (cov.lo : ℚ)))
          ∨ reqMax.any (fun q : ℚ => decide (0 ≤ q ∧ (cov.hi : ℚ) < q)) then
        some ⟨reqMin, reqMax, some cov⟩
      else none

/-- The answer of `account_tx`. -/
structure TxAnswer where
  account : String
  range : Range
  limit : ℕ
  transactions : List TxEntry
  marker : Option String
  warning : Option BeyondCoverage
  deriving DecidableEq

/-- The answer made of the rows past the cursor: one more than the limit is read, to
    tell whether there are more. -/
def pageAnswer (X : Xrpl) (db : Archive) (account : String) (req : TxRequest)
    (selected : List TransactionRow) : Option TxAnswer :=
  let limit := clampLimit req.limit
  let rows := selected.take (limit + 1)
  let page := if limit < rows.length then rows.take limit else rows
  (page.mapM (txEntry X req.binary)).map fun transactions =>
    { account, limit, transactions
      range := reportedRange db account
      marker := if limit < rows.length then
          page.getLast?.map (fun t => printMarker (rowCursor req.forward t))
        else none
      warning := beyondCoverage (accountCoverage db account) (asNumber req.ledgerIndexMin)
        (asNumber req.ledgerIndexMax) }

/-- `account_tx`; `none` where it throws. -/
def handleAccountTx (X : Xrpl) (db : Archive) (req : TxRequest) :
    Option (Except ApiError TxAnswer) :=
  match req.account.filter (fun s => decide (s ≠ "")) with
  | none => some (.error (.invalidParams "'account' is required"))
  | some account =>
      if ¬ db.accounts.HasKey account then
        some (.error (.notInArchive ("Account " ++ account)))
      else
        let coverage := accountCoverage db account
        let past := parseMarker req.forward req.marker
        (bigintParam (.finite (queryMin coverage (asNumber req.ledgerIndexMin)))).bind fun qMin =>
          (bigintParam (.finite (queryMax coverage (asNumber req.ledgerIndexMax)))).bind fun qMax =>
            if past.any (fun c => (bigintParam (.finite c.ledger)).isNone) then none
            else (pageAnswer X db account req (selectRows db account qMin qMax past)).map .ok

/-! ## Bounds -/

theorem bigintParam_finite {q : ℚ} {z : ℤ} (h : bigintParam (.finite q) = some z) :
    (z : ℚ) = q ∧ z ≤ bigintMax := by
  unfold bigintParam at h
  by_cases hq : q.den = 1 ∧ bigintMin ≤ q.num ∧ q.num ≤ bigintMax
  · simp only [if_pos hq] at h
    cases h
    exact ⟨Rat.coe_int_num_of_den_eq_one hq.1, hq.2.2⟩
  · simp only [if_neg hq] at h
    cases h

theorem bigintParam_natCast {n : ℕ} (h : (n : ℤ) ≤ bigintMax) :
    bigintParam (.finite n) = some (n : ℤ) := by
  have hbounds : (n : ℚ).den = 1 ∧ bigintMin ≤ (n : ℚ).num ∧ (n : ℚ).num ≤ bigintMax := by
    rw [Rat.den_natCast, Rat.num_natCast]
    refine ⟨rfl, ?_, h⟩
    unfold bigintMin
    omega
  have hparam : bigintParam (.finite n) = some (n : ℚ).num := if_pos hbounds
  rw [hparam, Rat.num_natCast]

/-- The query stays within the coverage. -/
theorem covLo_le_queryMin (cov : Range) (reqMin : Option ℚ) :
    (cov.lo : ℚ) ≤ queryMin (some cov) reqMin := by
  cases reqMin with
  | none => exact le_rfl
  | some q =>
      show (cov.lo : ℚ) ≤ if 0 ≤ q then max q cov.lo else cov.lo
      by_cases hq : 0 ≤ q
      · rw [if_pos hq]
        exact le_max_right _ _
      · rw [if_neg hq]

theorem queryMax_le_covHi (cov : Range) (reqMax : Option ℚ) :
    queryMax (some cov) reqMax ≤ (cov.hi : ℚ) := by
  cases reqMax with
  | none => exact le_rfl
  | some q =>
      show (if 0 ≤ q then min q cov.hi else cov.hi) ≤ (cov.hi : ℚ)
      by_cases hq : 0 ≤ q
      · rw [if_pos hq]
        exact min_le_right _ _
      · rw [if_neg hq]

/-- A ledger the request asks for: within the requested bounds, of which a negative one
    is none, and within the account's coverage if it has any. -/
structure Requested (db : Archive) (account : String) (req : TxRequest) (ledger : ℕ) :
    Prop where
  min : ∀ q, asNumber req.ledgerIndexMin = some q → 0 ≤ q → q ≤ ledger
  max : ∀ q, asNumber req.ledgerIndexMax = some q → 0 ≤ q → (ledger : ℚ) ≤ q
  covered : ∀ cov, accountCoverage db account = some cov → cov.lo ≤ ledger ∧ ledger ≤ cov.hi
  safe : (ledger : ℤ) ≤ maxSafeInteger

theorem Requested.bounds {db : Archive} {account : String} {req : TxRequest} {ledger : ℕ}
    (h : Requested db account req ledger) :
    queryMin (accountCoverage db account) (asNumber req.ledgerIndexMin) ≤ (ledger : ℚ)
      ∧ (ledger : ℚ) ≤ queryMax (accountCoverage db account) (asNumber req.ledgerIndexMax) := by
  have hlo : ((accountCoverage db account).map fun cov => (cov.lo : ℚ)).getD 0 ≤ ledger := by
    cases hcov : accountCoverage db account with
    | none => exact Nat.cast_nonneg ledger
    | some cov => exact Nat.cast_le.mpr (h.covered cov hcov).1
  have hhi : (ledger : ℚ) ≤
      ((accountCoverage db account).map fun cov => (cov.hi : ℚ)).getD maxSafeInteger := by
    cases hcov : accountCoverage db account with
    | none =>
        show (ledger : ℚ) ≤ ((maxSafeInteger : ℤ) : ℚ)
        exact_mod_cast h.safe
    | some cov => exact Nat.cast_le.mpr (h.covered cov hcov).2
  constructor
  · unfold queryMin
    cases hreq : asNumber req.ledgerIndexMin with
    | none => exact hlo
    | some q =>
        by_cases hq : 0 ≤ q
        · simp only [if_pos hq]
          exact max_le (h.min q hreq hq) hlo
        · simp only [if_neg hq]
          exact hlo
  · unfold queryMax
    cases hreq : asNumber req.ledgerIndexMax with
    | none => exact hhi
    | some q =>
        by_cases hq : 0 ≤ q
        · simp only [if_pos hq]
          exact le_min (h.max q hreq hq) hhi
        · simp only [if_neg hq]
          exact hhi

/-! ## One page -/

section Page

variable {X : Xrpl} {db : Archive} {account : String} {qMin qMax : ℤ} {forward : Bool}

/-- The rows of the account within the bounds. -/
def Within (db : Archive) (account : String) (qMin qMax : ℤ) : Set TransactionRow :=
  {t | t ∈ accountTransactions db account ∧ qMin ≤ t.ledgerIndex ∧ (t.ledgerIndex : ℤ) ≤ qMax}

theorem mem_selectRows {past : Option (Cursor forward)} {t : TransactionRow} :
    t ∈ selectRows db account qMin qMax past ↔
      t ∈ Within db account qMin qMax ∧ ∀ c, past = some c → c < rowCursor forward t := by
  unfold selectRows
  rw [List.mem_insertionSort, List.mem_filter, decide_eq_true_eq]
  have hpast : past.all (fun c => decide (c < rowCursor forward t)) = true ↔
      ∀ c, past = some c → c < rowCursor forward t := by
    cases past with
    | none => exact iff_of_true rfl (fun c h => by cases h)
    | some c =>
        show decide (c < rowCursor forward t) = true ↔ _
        rw [decide_eq_true_eq]
        refine ⟨?_, fun h => h c rfl⟩
        intro h c' hc'
        cases hc'
        exact h
  rw [hpast]
  exact ⟨fun h => ⟨⟨h.1, h.2.1, h.2.2.1⟩, h.2.2.2⟩, fun h => ⟨h.1.1, h.1.2.1, h.1.2.2, h.2⟩⟩

theorem selectRows_sorted (past : Option (Cursor forward)) :
    (selectRows db account qMin qMax past).Pairwise
      (fun a b => rowCursor forward a < rowCursor forward b) := by
  have hle : (selectRows db account qMin qMax past).Pairwise
      (fun a b => rowCursor forward a ≤ rowCursor forward b) :=
    List.pairwise_insertionSort _ _
  have hnodup : ((selectRows db account qMin qMax past).map (·.hash)).Nodup := by
    unfold selectRows
    refine ((List.perm_insertionSort _ _).map _).nodup_iff.mpr ?_
    refine db.transactions.nodup.sublist (List.Sublist.map _ ?_)
    exact List.filter_sublist.trans List.filter_sublist
  refine (hle.and (List.pairwise_map.mp hnodup)).imp ?_
  rintro a b ⟨hle, hne⟩
  refine lt_of_le_of_ne hle (fun heq => hne ?_)
  exact congrArg Cursor.hash heq

theorem txEntries_rows {binary : Bool} {rows : List TransactionRow} {entries : List TxEntry}
    (h : rows.mapM (txEntry X binary) = some entries) : entries.map (·.row) = rows := by
  induction rows generalizing entries with
  | nil =>
      cases h
      rfl
  | cons t rows ih =>
      rw [List.mapM_cons] at h
      obtain ⟨entry, hentry, h⟩ := Option.bind_eq_some_iff.mp h
      obtain ⟨rest, hrest, h⟩ := Option.bind_eq_some_iff.mp h
      cases h
      have hrow : entry.row = t := by
        unfold txEntry at hentry
        cases binary with
        | true =>
            cases hentry
            rfl
        | false =>
            obtain ⟨txType, -, hentry⟩ := Option.bind_eq_some_iff.mp hentry
            obtain ⟨m, -, hentry⟩ := Option.map_eq_some_iff.mp hentry
            cases hentry
            rfl
      rw [List.map_cons, ih hrest, hrow]

/-- Both blobs of the row decode. -/
def Decodes (X : Xrpl) (t : TransactionRow) : Prop :=
  (X.decodeTxType t.txBlob).isSome ∧ (X.decodeMeta t.metaBlob).isSome

instance (X : Xrpl) (t : TransactionRow) : Decidable (Decodes X t) :=
  inferInstanceAs (Decidable (_ ∧ _))

theorem txEntry_json {t : TransactionRow} :
    (∃ entry, txEntry X false t = some entry) ↔ Decodes X t := by
  constructor
  · rintro ⟨entry, hentry⟩
    obtain ⟨txType, htx, hentry⟩ := Option.bind_eq_some_iff.mp hentry
    obtain ⟨m, hmeta, -⟩ := Option.map_eq_some_iff.mp hentry
    exact ⟨Option.isSome_of_eq_some htx, Option.isSome_of_eq_some hmeta⟩
  · rintro ⟨htx, hmeta⟩
    obtain ⟨txType, htx⟩ := Option.isSome_iff_exists.mp htx
    obtain ⟨m, hmeta⟩ := Option.isSome_iff_exists.mp hmeta
    refine ⟨⟨t, some (txType, m)⟩, ?_⟩
    show (X.decodeTxType t.txBlob).bind _ = _
    rw [htx, Option.bind_some, hmeta]
    rfl

/-- A page is made exactly if its rows decode, or need not. -/
theorem txEntries_some (binary : Bool) (rows : List TransactionRow) :
    (∃ entries, rows.mapM (txEntry X binary) = some entries)
      ↔ (binary = false → ∀ t ∈ rows, Decodes X t) := by
  constructor
  · rintro ⟨entries, hentries⟩ rfl t ht
    obtain ⟨entry, -, hentry⟩ := exists_of_mapM_some hentries ht
    exact txEntry_json.mp ⟨entry, hentry⟩
  · intro h
    obtain ⟨entries, hentries, -⟩ := mapM_some (f := txEntry X binary) (l := rows) (by
      intro t ht
      cases binary with
      | true => exact ⟨_, rfl⟩
      | false => exact txEntry_json.mpr (h rfl t ht))
    exact ⟨entries, hentries⟩

/-- The look-ahead row tells whether there are more. -/
theorem lookAhead_lt {n : ℕ} (rows : List TransactionRow) :
    n < (rows.take (n + 1)).length ↔ n < rows.length := by
  rw [List.length_take]
  omega

/-- It is not part of the page. -/
theorem lookAhead_page {n : ℕ} (rows : List TransactionRow) :
    (if n < (rows.take (n + 1)).length then (rows.take (n + 1)).take n
      else rows.take (n + 1)) = rows.take n := by
  by_cases hmore : n < rows.length
  · rw [if_pos ((lookAhead_lt rows).mpr hmore), List.take_take,
      Nat.min_eq_left (Nat.le_succ n)]
  · rw [if_neg (fun h => hmore ((lookAhead_lt rows).mp h)),
      List.take_of_length_le (Nat.le_succ_of_le (not_lt.mp hmore)),
      List.take_of_length_le (not_lt.mp hmore)]

end Page

/-! ## Following the markers -/

/-- The pages a client is answered that asks with a marker. -/
def txPages (X : Xrpl) (db : ℕ → Archive) (req : TxRequest) (i : ℕ) (past : Option String) :
    List TransactionRow × Option String :=
  match handleAccountTx X (db i) { req with marker := past } with
  | some (.ok a) => (a.transactions.map (·.row), a.marker)
  | _ => ([], none)

/-- The same, with rows for markers. -/
def rowPages (db : ℕ → Archive) (account : String) (qMin qMax : ℤ) (n : ℕ) (forward : Bool)
    (i : ℕ) (past : Option (Cursor forward)) :
    List TransactionRow × Option (Cursor forward) :=
  page (rowCursor forward) n (selectRows (db i) account qMin qMax past)

/-- The archive at each page: transactions are ingested from one to the next, and the
    account's coverage does not change. -/
structure Ingesting (account : String) (db : ℕ → Archive) : Prop where
  ingests : ∀ i, ∃ F, Ingests F (db i) (db (i + 1))
  coverage : ∀ i, accountCoverage (db i) account = accountCoverage (db 0) account
  hashed : ∀ i, ∀ t ∈ (db i).transactions, t.hash ≠ ""

section Following

variable {X : Xrpl} {db : ℕ → Archive} {account : String} {req : TxRequest} {qMin qMax : ℤ}

theorem mem_accountTransactions {d : Archive} {t : TransactionRow} :
    t ∈ accountTransactions d account ↔ t ∈ d.transactions
      ∧ ∃ link ∈ d.accountTransactions, link.hash = t.hash ∧ link.address = account := by
  unfold accountTransactions
  rw [List.mem_filter, decide_eq_true_eq]
  rfl

theorem Ingesting.within_subset (h : Ingesting account db) (i : ℕ) :
    Within (db i) account qMin qMax ⊆ Within (db (i + 1)) account qMin qMax := by
  obtain ⟨F, hF⟩ := h.ingests i
  rintro t ⟨ht, hbounds⟩
  obtain ⟨ht, link, hlink, hkey⟩ := mem_accountTransactions.mp ht
  exact ⟨mem_accountTransactions.mpr
    ⟨hF.kept t ht, link, (hF.links link).mpr (Or.inl hlink), hkey⟩, hbounds⟩

theorem Ingesting.transactions_kept (h : Ingesting account db) {i j : ℕ} (hij : i ≤ j)
    {t : TransactionRow} (ht : t ∈ (db i).transactions) : t ∈ (db j).transactions := by
  induction j, hij using Nat.le_induction with
  | base => exact ht
  | succ j _ ih =>
      obtain ⟨F, hF⟩ := h.ingests j
      exact hF.kept t ih

theorem Ingesting.inScope (h : Ingesting account db) (i : ℕ)
    (h₀ : (db 0).accounts.HasKey account) : (db i).accounts.HasKey account := by
  induction i with
  | zero => exact h₀
  | succ i ih =>
      obtain ⟨F, hF⟩ := h.ingests i
      exact (hF.accounts account).mpr (Or.inl ih)

theorem clampLimit_pos (limit : Option Number) : 0 < clampLimit limit := by
  unfold clampLimit
  cases asNumber limit with
  | none => decide
  | some q =>
      show 0 < (max 1 (min 400 (trunc q))).toNat
      have := le_max_left 1 (min 400 (trunc q))
      omega

theorem Ingesting.serves (h : Ingesting account db) (qMin qMax : ℤ) (forward : Bool)
    (limit : Option Number) :
    Serves (rowCursor forward) (clampLimit limit) (fun i => Within (db i) account qMin qMax)
      (rowPages db account qMin qMax (clampLimit limit) forward) where
  pos := clampLimit_pos limit
  grows := h.within_subset
  answers _ past _ := ⟨_, rfl, selectRows_sorted past, fun _ => mem_selectRows⟩

/-- What an answered first page says of the request. -/
structure Accepted (db : Archive) (req : TxRequest) (account : String) (qMin qMax : ℤ) :
    Prop where
  named : req.account.filter (fun s => decide (s ≠ "")) = some account
  inScope : db.accounts.HasKey account
  min : bigintParam (.finite (queryMin (accountCoverage db account)
    (asNumber req.ledgerIndexMin))) = some qMin
  max : bigintParam (.finite (queryMax (accountCoverage db account)
    (asNumber req.ledgerIndexMax))) = some qMax

theorem accepted_of_answer {d : Archive} {a : TxAnswer}
    (h : handleAccountTx X d req = some (.ok a)) :
    ∃ account qMin qMax, Accepted d req account qMin qMax := by
  unfold handleAccountTx at h
  cases hacc : req.account.filter (fun s => decide (s ≠ "")) with
  | none =>
      rw [hacc] at h
      cases h
  | some account =>
      simp only [hacc] at h
      by_cases hscope : ¬ d.accounts.HasKey account
      · rw [if_pos hscope] at h
        cases h
      · rw [if_neg hscope] at h
        obtain ⟨qMin, hmin, h⟩ := Option.bind_eq_some_iff.mp h
        obtain ⟨qMax, hmax, -⟩ := Option.bind_eq_some_iff.mp h
        exact ⟨account, qMin, qMax, hacc, not_not.mp hscope, hmin, hmax⟩

/-- A page that decodes is answered, with its rows and the marker of the last one. -/
theorem pageAnswer_some (d : Archive) (account : String) (req : TxRequest)
    (selected : List TransactionRow)
    (hdecodes : req.binary = false →
      ∀ t ∈ selected.take (clampLimit req.limit), Decodes X t) :
    ∃ a, pageAnswer X d account req selected = some a
      ∧ (a.transactions.map (·.row), a.marker)
        = ((page (rowCursor req.forward) (clampLimit req.limit) selected).1,
          (page (rowCursor req.forward) (clampLimit req.limit) selected).2.map printMarker)
      ∧ a.range = reportedRange d account := by
  obtain ⟨entries, hentries⟩ := (txEntries_some (X := X) req.binary _).mpr hdecodes
  obtain ⟨a, ha⟩ : ∃ a, pageAnswer X d account req selected = some a := by
    unfold pageAnswer
    simp only [lookAhead_page, hentries, Option.map_some]
    exact ⟨_, rfl⟩
  refine ⟨a, ha, ?_⟩
  unfold pageAnswer at ha
  simp only [lookAhead_page, hentries, Option.map_some] at ha
  cases ha
  refine ⟨Prod.ext (txEntries_rows hentries) ?_, rfl⟩
  show (if clampLimit req.limit < (selected.take (clampLimit req.limit + 1)).length then _
    else none) = (if clampLimit req.limit < selected.length then _ else none).map printMarker
  by_cases hmore : clampLimit req.limit < selected.length
  · rw [if_pos ((lookAhead_lt selected).mpr hmore), if_pos hmore, Option.map_map]
    rfl
  · rw [if_neg (fun h => hmore ((lookAhead_lt selected).mp h)), if_neg hmore]
    rfl

/-- A page that is answered decodes. -/
theorem decodes_of_pageAnswer {d : Archive} {selected : List TransactionRow} {a : TxAnswer}
    (h : pageAnswer X d account req selected = some a) (hbinary : req.binary = false) :
    ∀ t ∈ selected.take (clampLimit req.limit), Decodes X t := by
  unfold pageAnswer at h
  simp only [lookAhead_page] at h
  obtain ⟨entries, hentries, -⟩ := Option.map_eq_some_iff.mp h
  exact (txEntries_some req.binary _).mp ⟨entries, hentries⟩ hbinary

/-- Asked with the marker of a row the query can name, the handler makes the page past
    that row. -/
theorem Accepted.handle {d : Archive} (h : Accepted d req account qMin qMax)
    {past : Option (Cursor req.forward)}
    (hpast : ∀ c, past = some c → c.hash ≠ "" ∧ (c.ledger : ℤ) ≤ qMax) :
    handleAccountTx X d { req with marker := past.map printMarker }
      = (pageAnswer X d account req (selectRows d account qMin qMax past)).map .ok := by
  have hparse : parseMarker req.forward (past.map printMarker) = past := by
    cases past with
    | none => rfl
    | some c => exact parseMarker_printMarker (hpast c rfl).1
  have hparam : past.any (fun c => (bigintParam (.finite c.ledger)).isNone) = false := by
    cases past with
    | none => rfl
    | some c =>
        show (bigintParam (.finite c.ledger)).isNone = false
        have hle := (hpast c rfl).2
        have hmax := (bigintParam_finite h.max).2
        rw [bigintParam_natCast (hle.trans hmax)]
        rfl
  unfold handleAccountTx
  simp only [h.named, if_neg (not_not_intro h.inScope), h.min, h.max, Option.bind_some, hparse,
    hparam]
  rfl

/-- The rows of every page are within the range it reports. -/
theorem Accepted.within_range {d : Archive} (h : Accepted d req account qMin qMax)
    {t : TransactionRow} (ht : t ∈ Within d account qMin qMax) :
    (reportedRange d account).lo ≤ t.ledgerIndex
      ∧ t.ledgerIndex ≤ (reportedRange d account).hi := by
  obtain ⟨hin, hlo, hhi⟩ := ht
  unfold reportedRange
  have hmin := (bigintParam_finite h.min).1
  have hmax := (bigintParam_finite h.max).1
  cases hcov : accountCoverage d account with
  | some cov =>
      rw [hcov] at hmin hmax
      have hcovLo := covLo_le_queryMin cov (asNumber req.ledgerIndexMin)
      have hcovHi := queryMax_le_covHi cov (asNumber req.ledgerIndexMax)
      rw [← hmin] at hcovLo
      rw [← hmax] at hcovHi
      have hcovLo : (cov.lo : ℤ) ≤ qMin := by exact_mod_cast hcovLo
      have hcovHi : qMax ≤ (cov.hi : ℤ) := by exact_mod_cast hcovHi
      show cov.lo ≤ t.ledgerIndex ∧ t.ledgerIndex ≤ cov.hi
      omega
  | none =>
      have hmem : t.ledgerIndex ∈ (accountTransactions d account).map (·.ledgerIndex) :=
        List.mem_map_of_mem hin
      show ((accountDataRange d account).getD _).lo ≤ _
        ∧ _ ≤ ((accountDataRange d account).getD _).hi
      unfold accountDataRange
      cases hlow : ((accountTransactions d account).map (·.ledgerIndex)).min? with
      | none =>
          rw [List.min?_eq_none_iff.mp hlow] at hmem
          exact absurd hmem List.not_mem_nil
      | some lo =>
          cases hhigh : ((accountTransactions d account).map (·.ledgerIndex)).max? with
          | none =>
              rw [List.max?_eq_none_iff.mp hhigh] at hmem
              exact absurd hmem List.not_mem_nil
          | some hi =>
              exact ⟨(List.min?_eq_some_iff.mp hlow).2 _ hmem,
                (List.max?_eq_some_iff.mp hhigh).2 _ hmem⟩

/-- The request is accepted at every page if it is at the first. -/
theorem Accepted.later (h : Accepted (db 0) req account qMin qMax) (hdb : Ingesting account db)
    (i : ℕ) : Accepted (db i) req account qMin qMax where
  named := h.named
  inScope := hdb.inScope i h.inScope
  min := by
    rw [hdb.coverage i]
    exact h.min
  max := by
    rw [hdb.coverage i]
    exact h.max

/-- The marker of a page names a row that the query can name. -/
theorem Ingesting.cursor_named (hdb : Ingesting account db) {i : ℕ}
    {past : Option (Cursor req.forward)}
    (hcur : cursor (rowPages db account qMin qMax (clampLimit req.limit) req.forward) i
      = some past) : ∀ c, past = some c → c.hash ≠ "" ∧ (c.ledger : ℤ) ≤ qMax := by
  rintro c rfl
  obtain ⟨j, -, t, ⟨ht, -, hle⟩, rfl⟩ := (hdb.serves _ _ req.forward req.limit).cursor_row hcur
  exact ⟨hdb.hashed j t (mem_accountTransactions.mp ht).1, hle⟩

/-- A page whose rows decode is answered. -/
theorem Accepted.follow (h : Accepted (db 0) req account qMin qMax) (hdb : Ingesting account db)
    {i : ℕ} {past : Option (Cursor req.forward)}
    (hcur : cursor (rowPages db account qMin qMax (clampLimit req.limit) req.forward) i
      = some past)
    (hdecodes : req.binary = false → ∀ t ∈
      (rowPages db account qMin qMax (clampLimit req.limit) req.forward i past).1,
        Decodes X t) :
    ∃ a, handleAccountTx X (db i) { req with marker := past.map printMarker } = some (.ok a)
      ∧ (a.transactions.map (·.row), a.marker)
        = ((rowPages db account qMin qMax (clampLimit req.limit) req.forward i past).1,
          (rowPages db account qMin qMax (clampLimit req.limit) req.forward i past).2.map
            printMarker)
      ∧ a.range = reportedRange (db i) account := by
  obtain ⟨a, ha, hrows, hrange⟩ := pageAnswer_some (X := X) (db i) account req
    (selectRows (db i) account qMin qMax past) hdecodes
  refine ⟨a, ?_, hrows, hrange⟩
  rw [(h.later hdb i).handle (hdb.cursor_named hcur), ha]
  rfl

/-- A page that is answered has rows that decode. -/
theorem Accepted.decodes (h : Accepted (db 0) req account qMin qMax) (hdb : Ingesting account db)
    {i : ℕ} {past : Option (Cursor req.forward)}
    (hcur : cursor (rowPages db account qMin qMax (clampLimit req.limit) req.forward) i
      = some past) {a : TxAnswer}
    (ha : handleAccountTx X (db i) { req with marker := past.map printMarker }
      = some (.ok a)) (hbinary : req.binary = false) :
    ∀ t ∈ (rowPages db account qMin qMax (clampLimit req.limit) req.forward i past).1,
      Decodes X t := by
  rw [(h.later hdb i).handle (hdb.cursor_named hcur)] at ha
  obtain ⟨a', ha', -⟩ := Option.map_eq_some_iff.mp ha
  exact decodes_of_pageAnswer ha' hbinary

/-- The first row comes before the second in the requested direction. -/
def Precedes (forward : Bool) (a b : TransactionRow) : Prop :=
  if forward then toLex (a.ledgerIndex, a.hash) < toLex (b.ledgerIndex, b.hash)
  else toLex (b.ledgerIndex, b.hash) < toLex (a.ledgerIndex, a.hash)

theorem precedes_of_lt {forward : Bool} {a b : TransactionRow}
    (h : rowCursor forward a < rowCursor forward b) : Precedes forward a b := by
  cases forward with
  | true => exact h
  | false => exact h

/-- Two rows with one hash are one row, whenever they are stored. -/
theorem Ingesting.eq_of_hash (h : Ingesting account db) {i j : ℕ} {a b : TransactionRow}
    (ha : a ∈ (db i).transactions) (hb : b ∈ (db j).transactions) (hhash : a.hash = b.hash) :
    a = b :=
  (db (max i j)).transactions.eq_of_key_eq (h.transactions_kept (le_max_left i j) ha)
    (h.transactions_kept (le_max_right i j) hb) hhash

/-- What is asked of the pages: every page a marker leads to is answered, with rows
    within the range it reports; the pages are in strict order and no transaction is in
    two of them; when the markers end, every requested transaction of the account that
    was stored before the first page was answered; and they end if ingestion stops. -/
structure PagesRight (X : Xrpl) (db : ℕ → Archive) (account : String) (req : TxRequest) :
    Prop where
  answered : ∀ i past, cursor (txPages X db req) i = some past →
    ∃ a, handleAccountTx X (db i) { req with marker := past } = some (.ok a)
      ∧ txPages X db req i past = (a.transactions.map (·.row), a.marker)
      ∧ ∀ entry ∈ a.transactions, a.range.lo ≤ entry.row.ledgerIndex
        ∧ entry.row.ledgerIndex ≤ a.range.hi
  ordered : ∀ n, (pages (txPages X db req) n).Pairwise (Precedes req.forward)
    ∧ ((pages (txPages X db req) n).map (·.hash)).Nodup
  complete : ∀ n, cursor (txPages X db req) n = none →
    ∀ t ∈ accountTransactions (db 0) account, Requested (db 0) account req t.ledgerIndex →
      t ∈ pages (txPages X db req) n
  ends : (∃ i₀, ∀ i, i₀ ≤ i → db i = db i₀) → ∃ n, cursor (txPages X db req) n = none

/-- The bounds are ones a query can name, and the rows that the queries of the pages
    select decode if they are to be decoded. -/
def Servable (X : Xrpl) (db : ℕ → Archive) (account : String) (req : TxRequest) : Prop :=
  ∃ qMin qMax, Accepted (db 0) req account qMin qMax
    ∧ (req.binary = false →
      ∀ i, ∀ t ∈ pageAt (rowPages db account qMin qMax (clampLimit req.limit) req.forward) i,
        Decodes X t)

/-- Pages that decode are right. -/
theorem Accepted.right (hacc : Accepted (db 0) req account qMin qMax)
    (hdb : Ingesting account db)
    (hdecodes : req.binary = false →
      ∀ i, ∀ t ∈ pageAt (rowPages db account qMin qMax (clampLimit req.limit) req.forward) i,
        Decodes X t) : PagesRight X db account req := by
  have hserves := hdb.serves qMin qMax req.forward req.limit
  have hfollow : ∀ {i past},
      cursor (rowPages db account qMin qMax (clampLimit req.limit) req.forward) i = some past →
      ∃ a, handleAccountTx X (db i) { req with marker := past.map printMarker } = some (.ok a)
        ∧ (a.transactions.map (·.row), a.marker)
          = ((rowPages db account qMin qMax (clampLimit req.limit) req.forward i past).1,
            (rowPages db account qMin qMax (clampLimit req.limit) req.forward i past).2.map
              printMarker)
        ∧ a.range = reportedRange (db i) account := by
    intro i past hcur
    refine hacc.follow hdb hcur fun hbinary t ht => hdecodes hbinary i t ?_
    rw [pageAt_of_cursor hcur]
    exact ht
  -- a client that follows markers follows rows
  have hprint : ∀ i past,
      cursor (rowPages db account qMin qMax (clampLimit req.limit) req.forward) i = some past →
      txPages X db req i (past.map printMarker)
        = ((rowPages db account qMin qMax (clampLimit req.limit) req.forward i past).1,
          (rowPages db account qMin qMax (clampLimit req.limit) req.forward i past).2.map
            printMarker) := by
    intro i past hcur
    obtain ⟨a, ha, hpage, -⟩ := hfollow hcur
    unfold txPages
    rw [ha]
    exact hpage
  have hcursor := cursor_map hprint
  have hpages := pages_map hprint
  constructor
  · intro i past hpast
    rw [hcursor i] at hpast
    obtain ⟨past', hcur, rfl⟩ := Option.map_eq_some_iff.mp hpast
    obtain ⟨a, ha, hpage, hrange⟩ := hfollow hcur
    refine ⟨a, ha, (hprint i past' hcur).trans hpage.symm, fun entry hentry => ?_⟩
    rw [hrange]
    refine (hacc.later hdb i).within_range ?_
    have hrow : entry.row ∈ (rowPages db account qMin qMax (clampLimit req.limit)
        req.forward i past').1 := by
      rw [← congrArg Prod.fst hpage]
      exact List.mem_map_of_mem hentry
    exact (mem_selectRows.mp (List.mem_of_mem_take hrow)).1
  · intro n
    rw [hpages n]
    have hsorted := hserves.sorted n
    refine ⟨hsorted.imp precedes_of_lt, List.pairwise_map.mpr (hsorted.imp_of_mem ?_)⟩
    intro a b ha hb hlt hhash
    obtain ⟨i, -, hi⟩ := List.mem_flatMap.mp ha
    obtain ⟨j, -, hj⟩ := List.mem_flatMap.mp hb
    have heq := hdb.eq_of_hash (mem_accountTransactions.mp (hserves.sound hi).1).1
      (mem_accountTransactions.mp (hserves.sound hj).1).1 hhash
    rw [heq] at hlt
    exact lt_irrefl _ hlt
  · intro n hend t ht hrequested
    rw [hpages n]
    rw [hcursor n] at hend
    refine hserves.complete (Option.map_eq_none_iff.mp hend) ⟨ht, ?_⟩
    obtain ⟨hlo, hhi⟩ := hrequested.bounds
    rw [← (bigintParam_finite hacc.min).1] at hlo
    rw [← (bigintParam_finite hacc.max).1] at hhi
    exact ⟨by exact_mod_cast hlo, by exact_mod_cast hhi⟩
  · rintro ⟨i₀, hstops⟩
    obtain ⟨n, hn⟩ := hserves.terminates (m := i₀) (fun i hi => by rw [hstops i hi])
    refine ⟨n, ?_⟩
    rw [hcursor n, hn]
    rfl

/-- Pages that are right decode: as long as they do, the client's markers are those of
    the rows, and the next page is answered. -/
theorem PagesRight.decodes (h : PagesRight X db account req)
    (hacc : Accepted (db 0) req account qMin qMax) (hdb : Ingesting account db)
    (hbinary : req.binary = false) (i : ℕ) :
    ∀ t ∈ pageAt (rowPages db account qMin qMax (clampLimit req.limit) req.forward) i,
      Decodes X t := by
  have hall : ∀ i, cursor (txPages X db req) i
        = (cursor (rowPages db account qMin qMax (clampLimit req.limit) req.forward) i).map
            (Option.map printMarker)
      ∧ ∀ past, cursor (rowPages db account qMin qMax (clampLimit req.limit) req.forward) i
          = some past →
        ∀ t ∈ (rowPages db account qMin qMax (clampLimit req.limit) req.forward i past).1,
          Decodes X t := by
    have hpage : ∀ i, cursor (txPages X db req) i
          = (cursor (rowPages db account qMin qMax (clampLimit req.limit) req.forward) i).map
              (Option.map printMarker) →
        ∀ past, cursor (rowPages db account qMin qMax (clampLimit req.limit) req.forward) i
            = some past →
          ∀ t ∈ (rowPages db account qMin qMax (clampLimit req.limit) req.forward i past).1,
            Decodes X t := by
      intro i hi past hcur
      rw [hcur] at hi
      obtain ⟨a, ha, -⟩ := h.answered i _ hi
      exact hacc.decodes hdb hcur ha hbinary
    intro i
    induction i with
    | zero => exact ⟨rfl, hpage 0 rfl⟩
    | succ i ih =>
        have hnext := cursor_map_succ ih.1 (fun past hcur => by
          obtain ⟨a, ha, hrows, -⟩ := hacc.follow hdb hcur (fun _ => ih.2 past hcur)
          unfold txPages
          rw [ha]
          exact hrows)
        exact ⟨hnext, hpage (i + 1) hnext⟩
  intro t ht
  cases hcur : cursor (rowPages db account qMin qMax (clampLimit req.limit) req.forward) i with
  | none =>
      rw [pageAt_of_ended hcur] at ht
      exact absurd ht List.not_mem_nil
  | some past =>
      rw [pageAt_of_cursor hcur] at ht
      exact (hall i).2 past hcur t ht

/-- **PAGES NEITHER SKIP NOR REPEAT** exactly where they can be served: the bounds are
    ones a query can name, and binary is requested or every row they come to decodes.
    That is so if every row within the bounds decodes whenever it is stored; and those
    stored before the first page have to, if ingestion stops. -/
theorem account_tx_pages (X : Xrpl) (hdb : Ingesting account db)
    (haccount : req.account = some account) :
    (PagesRight X db account req ↔ Servable X db account req)
      ∧ ∀ qMin qMax, Accepted (db 0) req account qMin qMax → req.binary = false →
        ((∀ i, ∀ t ∈ Within (db i) account qMin qMax, Decodes X t) →
            PagesRight X db account req)
          ∧ (PagesRight X db account req → (∃ i₀, ∀ i, i₀ ≤ i → db i = db i₀) →
            ∀ t ∈ Within (db 0) account qMin qMax, Decodes X t) := by
  refine ⟨⟨fun h => ?_, ?_⟩, fun qMin qMax hacc hbinary => ⟨fun hall => ?_, ?_⟩⟩
  · -- the first page is answered
    obtain ⟨a, ha, -⟩ := h.answered 0 none rfl
    obtain ⟨account', qMin, qMax, hnamed, hscope, hmin, hmax⟩ := accepted_of_answer ha
    have hsame : account' = account :=
      Option.some.inj ((Option.filter_eq_some_iff.mp hnamed).1.symm.trans haccount)
    rw [hsame] at hnamed hscope hmin hmax
    have hacc : Accepted (db 0) req account qMin qMax := ⟨hnamed, hscope, hmin, hmax⟩
    exact ⟨qMin, qMax, hacc, fun hbinary i => h.decodes hacc hdb hbinary i⟩
  · rintro ⟨qMin, qMax, hacc, hdecodes⟩
    exact hacc.right hdb hdecodes
  · refine hacc.right hdb fun _ i t ht => hall i t ?_
    exact (hdb.serves qMin qMax req.forward req.limit).sound ht
  · rintro h ⟨i₀, hstops⟩ t ht
    have hserves := hdb.serves qMin qMax req.forward req.limit
    obtain ⟨n, hn⟩ := hserves.terminates (m := i₀) (fun i hi => by rw [hstops i hi])
    obtain ⟨i, -, hi⟩ := List.mem_flatMap.mp (hserves.complete hn ht)
    exact h.decodes hacc hdb hbinary i t hi

end Following

/-! ## Two transactions, and a third that is streamed between the pages -/

/-- A decoder of every blob but one. -/
def pickyXrpl : Xrpl where
  decodeMeta blob := if blob = "FFFFFFFF" then none else some {}
  decodeTxType _ := some (some "Payment")
  hashSignedTx := id
  encodeAccountID _ := some "rIssuer"

def plainTransaction (hash : String) (ledgerIndex : ℕ) : TransactionRow :=
  ⟨hash, ledgerIndex, "Payment", hash, "meta", ⟨"clio", "now"⟩, none, none, none⟩

def pagedArchive : Archive where
  accounts := Table.empty.insertIgnore ⟨"rAlice", some 50⟩
  transactions := (Table.empty.insertIgnore (plainTransaction "A" 50)).insertIgnore
    (plainTransaction "B" 150)
  accountTransactions := (Table.empty.insertIgnore ⟨"A", "rAlice"⟩).insertIgnore ⟨"B", "rAlice"⟩
  coverage := [⟨"rAlice", 1, 200, .accountTxExhausted 1⟩]

/-- The archive after the tail has stored a transaction of `rAlice`. -/
def streamedArchive (metaBlob : String) : Archive :=
  ((performAll pickyXrpl
    [.tailEvent [] ⟨"C", 151, "Payment", ["rAlice"], "C", metaBlob, ⟨"rippled", "later"⟩⟩]
    pagedArchive).toOption).getD pagedArchive

/-- One row a page, newest first. -/
def pagedRequest : TxRequest where
  account := some "rAlice"
  limit := some (.finite (1 / 2))

theorem pagedRequest_accepted (d : Archive) (hscope : d.accounts.HasKey "rAlice")
    (hcov : accountCoverage d "rAlice" = some ⟨1, 200⟩) :
    Accepted d pagedRequest "rAlice" 1 200 where
  named := by decide
  inScope := hscope
  min := by
    rw [hcov]
    decide +kernel
  max := by
    rw [hcov]
    decide +kernel

theorem account_tx_pages_streamed : ∃ n,
    cursor (txPages pickyXrpl
        (fun i => if i = 0 then pagedArchive else streamedArchive "meta") pagedRequest) n = none
      ∧ plainTransaction "A" 50 ∈ pages (txPages pickyXrpl
        (fun i => if i = 0 then pagedArchive else streamedArchive "meta") pagedRequest) n := by
  have hstreamed : ∃ F, Ingests F pagedArchive (streamedArchive "meta") := by
    unfold streamedArchive
    cases h : performAll pickyXrpl _ pagedArchive with
    | error e => exact ⟨_, Ingests.refl pagedArchive⟩
    | ok d => exact ⟨_, performAll_ingests h⟩
  have hdb : Ingesting "rAlice"
      (fun i => if i = 0 then pagedArchive else streamedArchive "meta") := by
    refine ⟨fun i => ?_, fun i => ?_, fun i => ?_⟩
    · cases i with
      | zero => exact hstreamed
      | succ i => exact ⟨_, Ingests.refl (streamedArchive "meta")⟩
    · cases i with
      | zero => rfl
      | succ i =>
          show accountCoverage (streamedArchive "meta") "rAlice"
            = accountCoverage pagedArchive "rAlice"
          decide +kernel
    · cases i with
      | zero =>
          show ∀ t ∈ pagedArchive.transactions, t.hash ≠ ""
          decide +kernel
      | succ i =>
          show ∀ t ∈ (streamedArchive "meta").transactions, t.hash ≠ ""
          decide +kernel
  have hcov : accountCoverage pagedArchive "rAlice" = some ⟨1, 200⟩ := by decide
  have hacc := pagedRequest_accepted pagedArchive (by decide) hcov
  obtain ⟨-, hdecodes⟩ :=
    account_tx_pages pickyXrpl hdb (rfl : pagedRequest.account = some "rAlice")
  have hright := (hdecodes 1 200 hacc rfl).1 (by
    intro i t ht
    have hin := (mem_accountTransactions.mp ht.1).1
    cases i with
    | zero =>
        have hall : ∀ t ∈ pagedArchive.transactions, Decodes pickyXrpl t := by decide +kernel
        exact hall t hin
    | succ i =>
        have hall : ∀ t ∈ (streamedArchive "meta").transactions, Decodes pickyXrpl t := by
          decide +kernel
        exact hall t hin)
  obtain ⟨n, hend⟩ :=
    hright.ends ⟨1, fun i hi => by rw [if_neg (by omega), if_neg (by omega)]⟩
  refine ⟨n, hend, hright.complete n hend _ (by decide) ⟨?_, ?_, ?_, by decide⟩⟩
  · intro q hq
    cases hq
  · intro q hq
    cases hq
  · intro cov hcov'
    cases hcov.symm.trans hcov'
    exact ⟨by decide, by decide⟩

/-- The tail has stored a transaction whose metadata does not decode: a client that does
    not ask for binary is answered no page, and neither of the others. -/
theorem garbled_blob_ends_pages :
    (∃ F, Ingests F pagedArchive (streamedArchive "FFFFFFFF"))
      ∧ Ingesting "rAlice" (fun _ => streamedArchive "FFFFFFFF")
      ∧ (accountTransactions (streamedArchive "FFFFFFFF") "rAlice").map (·.hash) = ["A", "B", "C"]
      ∧ handleAccountTx pickyXrpl (streamedArchive "FFFFFFFF") pagedRequest = none
      ∧ ¬ PagesRight pickyXrpl (fun _ => streamedArchive "FFFFFFFF") "rAlice" pagedRequest := by
  have hnone : handleAccountTx pickyXrpl (streamedArchive "FFFFFFFF") pagedRequest = none := by
    decide +kernel
  refine ⟨?_, ⟨fun i => ⟨_, Ingests.refl _⟩, fun i => rfl, fun i => by decide +kernel⟩,
    by decide +kernel, hnone, fun h => ?_⟩
  · unfold streamedArchive
    cases h : performAll pickyXrpl _ pagedArchive with
    | error e => exact ⟨_, Ingests.refl pagedArchive⟩
    | ok d => exact ⟨_, performAll_ingests h⟩
  · obtain ⟨a, ha, -⟩ := h.answered 0 none rfl
    exact nomatch hnone.symm.trans ha

end RegistrarAccountTx
