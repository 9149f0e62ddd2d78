import Registrar.Traversal

/-! # Discovery

    `discover` derives the accounts of an issuance.  For a token of a trust line it scans
    the issuer's `TrustSet`s and crosses them with the lines there are now; for an MPT it
    scans the issuer's authorizations where the issuance requires them, since they all go
    through the issuer, and falls back to the traversal where it does not. -/

namespace RegistrarDiscover

open KeyedTable RegistrarMetadata RegistrarArchive RegistrarIngest RegistrarTraversal
open RegistrarPaging (Status)
open RegistrarSweep (mem_distinctBy_id)

/-! ## Pages -/

structure Page (E : Type) where
  items : Option (List E)
  marker : Option String

/-- The page at a marker; `none` where the request throws. -/
abbrev Pages (E : Type) := Option String → Option (Page E)

section Paging

variable {E : Type}

/-- What the first requests of a paged method yield, from a marker. -/
def follow (pages : Pages E) : ℕ → Option String → List E × Status
  | 0, _ => ([], .suspended)
  | requests + 1, marker =>
      match pages marker with
      | none => ([], .threw)
      | some page =>
          match page.marker with
          | none => (page.items.getD [], .returned)
          | some marker =>
              let (items, status) := follow pages requests (some marker)
              (page.items.getD [] ++ items, status)

/-- All items, where the requests reach. -/
def readAll (pages : Pages E) (requests : ℕ) : Option (List E) :=
  match follow pages requests none with
  | (items, .returned) => some items
  | _ => none

/-- The pages have these items, and come to an end. -/
def Serve (pages : Pages E) (items : List E) : Prop :=
  ∃ requests, follow pages requests none = (items, .returned)

theorem follow_more {pages : Pages E} {requests more : ℕ} (hle : requests ≤ more)
    {marker : Option String} (h : (follow pages requests marker).2 = .returned) :
    follow pages more marker = follow pages requests marker := by
  induction requests generalizing more marker with
  | zero => exact nomatch h
  | succ requests ih =>
      obtain ⟨more, rfl⟩ : ∃ n, more = n + 1 := ⟨more - 1, by omega⟩
      cases hpage : pages marker with
      | none =>
          simp only [follow, hpage] at h
          cases h
      | some page =>
          cases hmarker : page.marker with
          | none => simp only [follow, hpage, hmarker]
          | some m =>
              simp only [follow, hpage, hmarker] at h ⊢
              rw [ih (Nat.le_of_succ_le_succ hle) h]

/-- From some number of requests on, everything is read. -/
theorem Serve.readAll {pages : Pages E} {items : List E} (h : Serve pages items) :
    ∃ enough, ∀ requests ≥ enough, readAll pages requests = some items := by
  obtain ⟨enough, henough⟩ := h
  refine ⟨enough, fun requests hle => ?_⟩
  unfold RegistrarDiscover.readAll
  rw [follow_more hle (by rw [henough]), henough]

end Paging

/-! ## Scans -/

/-- `LimitAmount`, where it is a record. -/
structure LimitAmount where
  currency : Option String := none
  issuer : Option String := none

/-- The fields of a transaction that the scans read. -/
structure ScanTx where
  account : Option String := none
  holder : Option String := none
  mptokenIssuanceID : Option String := none
  limitAmount : Option LimitAmount := none

structure ScanEntry where
  txJson : Option ScanTx
  ledgerIndex : Option ℕ

/-- The account that a `TrustSet` opens a line to the issuer for. -/
def lineOpened (currency issuer : String) (entry : ScanEntry) : Option String :=
  entry.txJson.bind fun tx => tx.limitAmount.bind fun limit =>
    if limit.issuer ≠ some issuer then none
    else if currencyToString (limit.currency.getD "") ≠ currency then none
    else tx.account.filter fun account => decide (account ≠ "" ∧ account ≠ issuer)

/-- The holder that an `MPTokenAuthorize` authorizes, or that opts in. -/
def authorizes (mptIssuanceId issuer : String) (entry : ScanEntry) : Option String :=
  entry.txJson.bind fun tx =>
    if tx.mptokenIssuanceID ≠ some mptIssuanceId then none
    else (match tx.holder with
      | some holder => some holder
      | none => tx.account.filter fun account => decide (account ≠ issuer)).filter
        fun holder => decide (holder ≠ "")

/-- The loop of a scan: record the account of each entry that has one. -/
def scan (account : ScanEntry → Option String) (entries : List ScanEntry) : First :=
  entries.foldl (fun first entry =>
    match account entry with
    | none => first
    | some address => recordEarliest first address entry.ledgerIndex) Table.empty

/-- The account of an entry, at the entry's ledger. -/
def ScannedAt (account : ScanEntry → Option String) (entries : List ScanEntry)
    (address : String) (ledger : ℕ) : Prop :=
  ∃ entry ∈ entries, account entry = some address ∧ entry.ledgerIndex = some ledger

def Scanned (account : ScanEntry → Option String) (entries : List ScanEntry)
    (address : String) : Prop :=
  ∃ entry ∈ entries, account entry = some address

section Scanning

variable {account : ScanEntry → Option String} {entries : List ScanEntry}

theorem scan_eq : scan account entries = record Table.empty
    (entries.filterMap fun entry => (account entry).map fun a => (a, entry.ledgerIndex)) := by
  unfold scan record
  rw [List.foldl_filterMap]
  refine congrArg (fun f => List.foldl f _ entries) (funext₂ fun first entry => ?_)
  cases account entry with
  | none => rfl
  | some address => rfl

theorem hasKey_scan {address : String} :
    (scan account entries).HasKey address ↔ Scanned account entries address := by
  rw [scan_eq, hasKey_record]
  constructor
  · rintro (⟨r, hr, -⟩ | ⟨e, he, rfl⟩)
    · exact absurd hr List.not_mem_nil
    · obtain ⟨entry, hentry, he⟩ := List.mem_filterMap.mp he
      obtain ⟨a, ha, rfl⟩ := Option.map_eq_some_iff.mp he
      exact ⟨entry, hentry, ha⟩
  · rintro ⟨entry, hentry, ha⟩
    refine Or.inr ⟨(address, entry.ledgerIndex), ?_, rfl⟩
    exact List.mem_filterMap.mpr ⟨entry, hentry, by rw [ha]; rfl⟩

/-- What a scan records of an address is the least ledger of its entries. -/
theorem scan_isLeast {e : Sighting} (he : e ∈ scan account entries) (ledger : ℕ) :
    e.2 = some ledger ↔ IsLeast {l | ScannedAt account entries e.1 l} ledger := by
  have hby (n : ℕ) : (∃ l, e.2 = some l ∧ l ≤ n) ↔ ∃ l ≤ n, ScannedAt account entries e.1 l := by
    have hiff : RecordedBy (scan account entries) e.1 n
        ↔ ∃ l ≤ n, ScannedAt account entries e.1 l := by
      rw [scan_eq, recordedBy_record]
      constructor
      · rintro (⟨old, hold, -⟩ | ⟨l, hle, hmem⟩)
        · exact absurd hold (Table.not_mem_empty old)
        · obtain ⟨entry, hentry, hmem⟩ := List.mem_filterMap.mp hmem
          obtain ⟨a, ha, hpair⟩ := Option.map_eq_some_iff.mp hmem
          obtain ⟨rfl, hledger⟩ := Prod.mk.inj hpair
          exact ⟨l, hle, entry, hentry, ha, hledger⟩
      · rintro ⟨l, hle, entry, hentry, ha, hledger⟩
        refine Or.inr ⟨l, hle, List.mem_filterMap.mpr ⟨entry, hentry, ?_⟩⟩
        rw [ha, hledger]
        rfl
    rw [← hiff]
    constructor
    · intro h
      exact ⟨e, he, rfl, h⟩
    · rintro ⟨e', he', hkey, h⟩
      rw [Table.eq_of_key_eq _ he' he hkey] at h
      exact h
  constructor
  · intro h
    obtain ⟨l, hle, hseen⟩ := (hby ledger).mp ⟨ledger, h, le_rfl⟩
    have hlow : ∀ l', ScannedAt account entries e.1 l' → ledger ≤ l' := by
      intro l' hl'
      obtain ⟨x, hx, hxl⟩ := (hby l').mpr ⟨l', le_rfl, hl'⟩
      rw [h] at hx
      exact (Option.some.inj hx) ▸ hxl
    have hsame : l = ledger := le_antisymm hle (hlow l hseen)
    exact ⟨hsame ▸ hseen, fun l' hl' => hlow l' hl'⟩
  · rintro ⟨hseen, hlow⟩
    obtain ⟨x, hx, hxl⟩ := (hby ledger).mpr ⟨ledger, le_rfl, hseen⟩
    obtain ⟨l, hle, hl⟩ := (hby x).mp ⟨x, hx, le_rfl⟩
    have hlow : ledger ≤ l := hlow hl
    rw [hx]
    exact congrArg some (by omega)

end Scanning

/-! ## Targets -/

inductive Strategy
  | authorization
  | trustline
  | traversal
  deriving DecidableEq

def Strategy.name : Strategy → String
  | .authorization => "authorization"
  | .trustline => "trustline"
  | .traversal => "traversal"

/-- What discovery is asked for; a strategy is `none` where it is absent or `auto`. -/
inductive Target
  | mpt (mptIssuanceId : String) (requiresAuth : Option Bool) (strategy : Option Strategy)
  | iou (currency issuer : String) (strategy : Option Strategy)

def resolveStrategy : Target → Strategy
  | .mpt _ requiresAuth strategy =>
      strategy.getD (if requiresAuth = some true then .authorization else .traversal)
  | .iou _ _ strategy => strategy.getD .trustline

/-- A line of `account_lines` that is a record. -/
structure Line where
  account : Option String
  currency : Option String

/-- The upstream.  `flags` is `none` where the request throws; an object without numeric
    flags has 0. -/
structure Upstream where
  accountTx : ClioReader
  trustSets : String → Pages ScanEntry
  authorizations : String → Pages ScanEntry
  accountLines : String → Pages (Option Line)
  flags : String → Option ℕ

/-- `LSF_MPT_REQUIRE_AUTH` is 0x0004. -/
def detectRequiresAuth (client : Upstream) (mptIssuanceId : String) : Option Bool :=
  (client.flags mptIssuanceId).map (·.testBit 2)

/-- The holder of a line for the currency. -/
def lineHolder (currency : String) (line : Option Line) : Option String :=
  line.bind fun line =>
    if currencyToString (line.currency.getD "") ≠ currency then none
    else line.account.filter fun account => decide (account ≠ "")

/-- `currentTrustlineHolders`; a set keeps the order it grew in. -/
def currentTrustlineHolders (currency : String) (lines : List (Option Line)) : List String :=
  distinctBy id (lines.filterMap (lineHolder currency))

structure CrossCheck where
  currentCount : ℕ
  missingFromHistorical : List String
  deriving DecidableEq

structure DiscoveryResult where
  strategy : Strategy
  accounts : List DiscoveredAccount
  crossCheck : Option CrossCheck := none
  deriving DecidableEq

def sortByAddress (accounts : List DiscoveredAccount) : List DiscoveredAccount :=
  accounts.insertionSort fun a b => a.address ≤ b.address

/-- The historical accounts crossed with the current holders. -/
def crossChecked (historical : List DiscoveredAccount) (current : List String) :
    DiscoveryResult :=
  let missing := (current.filter fun a => decide (a ∉ addresses historical)).insertionSort
    (· ≤ ·)
  { strategy := .trustline
    accounts :=
      if missing.length = 0 then historical
      else sortByAddress (historical ++ missing.map fun a => ⟨a, "trustline", none⟩)
    crossCheck := some ⟨current.length, missing⟩ }

/-- `trustlineScan` and `authorizationScan` of what was read. -/
def trustlineAccounts (currency issuer : String) (entries : List ScanEntry) :
    List DiscoveredAccount :=
  toAccounts (scan (lineOpened currency issuer) entries) "trustline"

def authorizedAccounts (mptIssuanceId issuer : String) (entries : List ScanEntry) :
    List DiscoveredAccount :=
  toAccounts (scan (authorizes mptIssuanceId issuer) entries) "authorization"

/-- `discover`, in at most `fuel` requests a method; `none` where a request throws, the id
    has no issuer or the fuel does not reach. -/
def discover (X : Xrpl) (client : Upstream) (crossCheck : Bool) (fuel : ℕ) :
    Target → Option (Except String DiscoveryResult)
  | .iou currency issuer choice =>
      let strategy := resolveStrategy (.iou currency issuer choice)
      if strategy ≠ .trustline then
        some (.error ("Unsupported IOU discovery strategy: " ++ strategy.name))
      else
        (readAll (client.trustSets issuer) fuel).bind fun entries =>
          let historical := trustlineAccounts currency issuer entries
          if crossCheck = false then some (.ok { strategy, accounts := historical })
          else
            (readAll (client.accountLines issuer) fuel).map fun lines =>
              .ok (crossChecked historical (currentTrustlineHolders currency lines))
  | .mpt mptIssuanceId given choice =>
      (decodeMptIssuer X mptIssuanceId).bind fun issuer =>
        (if choice = none ∧ given = none then
            (detectRequiresAuth client mptIssuanceId).map some
          else some given).bind fun requiresAuth =>
            let strategy := resolveStrategy (.mpt mptIssuanceId requiresAuth choice)
            if strategy = .authorization then
              (readAll (client.authorizations issuer) fuel).map fun entries =>
                .ok { strategy, accounts := authorizedAccounts mptIssuanceId issuer entries }
            else
              (traversal client.accountTx mptIssuanceId issuer fuel).map fun found =>
                .ok { strategy, accounts := found.1 }

/-! ## What a scan finds -/

/-- The accounts of the entries, in order, each once and with its earliest ledger. -/
structure ScanResult (account : ScanEntry → Option String) (entries : List ScanEntry)
    (via : String) (accounts : List DiscoveredAccount) : Prop where
  sorted : (addresses accounts).Pairwise (· < ·)
  complete : ∀ a, a ∈ addresses accounts ↔ Scanned account entries a
  earliest : ∀ d ∈ accounts, d.discoveredVia = via ∧ ∀ ledger,
    d.firstAcquisitionLedger = some ledger
      ↔ IsLeast {l | ScannedAt account entries d.address l} ledger

theorem scanResult (account : ScanEntry → Option String) (entries : List ScanEntry)
    (via : String) : ScanResult account entries via (toAccounts (scan account entries) via) where
  sorted := toAccounts_sorted _ _
  complete _ := mem_addresses.trans hasKey_scan
  earliest d hd := by
    obtain ⟨e, he, rfl⟩ := List.mem_map.mp hd
    exact ⟨rfl, fun ledger => scan_isLeast ((List.mem_insertionSort _).mp he) ledger⟩

/-! ## The cross-check -/

section CrossChecked

variable {historical : List DiscoveredAccount} {current : List String}

/-- The current holders that the scan missed, in order. -/
theorem missing_spec (hcurrent : current.Nodup) :
    let missing := (current.filter fun a => decide (a ∉ addresses historical)).insertionSort
      (· ≤ ·)
    missing.Pairwise (· < ·) ∧ ∀ a, a ∈ missing ↔ a ∈ current ∧ a ∉ addresses historical := by
  have hmem (a : String) : a ∈ (current.filter fun a =>
      decide (a ∉ addresses historical)).insertionSort (· ≤ ·)
      ↔ a ∈ current ∧ a ∉ addresses historical := by
    rw [List.mem_insertionSort, List.mem_filter, decide_eq_true_eq]
  refine ⟨?_, hmem⟩
  have hle := List.pairwise_insertionSort (fun a b : String => a ≤ b)
    (current.filter fun a => decide (a ∉ addresses historical))
  have hne := (List.perm_insertionSort (fun a b : String => a ≤ b)
    (current.filter fun a => decide (a ∉ addresses historical))).nodup_iff.mpr
      (hcurrent.filter _)
  exact hle.imp₂ (fun _ _ hab hne => lt_of_le_of_ne hab hne) hne

theorem addresses_append (l l' : List DiscoveredAccount) :
    addresses (l ++ l') = addresses l ++ addresses l' :=
  List.map_append

theorem sortByAddress_sorted {l : List DiscoveredAccount} (h : (addresses l).Nodup) :
    (addresses (sortByAddress l)).Pairwise (· < ·) := by
  have hle : (addresses (sortByAddress l)).Pairwise (· ≤ ·) := by
    unfold addresses sortByAddress
    rw [List.pairwise_map]
    exact List.pairwise_insertionSort (fun a b : DiscoveredAccount => a.address ≤ b.address) l
  have hne : (addresses (sortByAddress l)).Nodup :=
    ((List.perm_insertionSort _ l).map _).nodup_iff.mpr h
  exact hle.imp₂ (fun _ _ hab hne => lt_of_le_of_ne hab hne) hne

theorem mem_sortByAddress {l : List DiscoveredAccount} {a : String} :
    a ∈ addresses (sortByAddress l) ↔ a ∈ addresses l :=
  ((List.perm_insertionSort (fun a b : DiscoveredAccount => a.address ≤ b.address) l).map
    (·.address)).mem_iff

/-- The union of the two, in order; what the scan found is as it found it. -/
theorem crossChecked_spec (hsorted : (addresses historical).Pairwise (· < ·))
    (hcurrent : current.Nodup) :
    (addresses (crossChecked historical current).accounts).Pairwise (· < ·)
      ∧ (∀ a, a ∈ addresses (crossChecked historical current).accounts
        ↔ a ∈ addresses historical ∨ a ∈ current)
      ∧ ∀ d ∈ (crossChecked historical current).accounts, d ∈ historical
        ∨ (d.address ∉ addresses historical ∧ d = ⟨d.address, "trustline", none⟩) := by
  obtain ⟨hmissing, hmem⟩ := @missing_spec historical current hcurrent
  unfold crossChecked
  generalize (current.filter fun a => decide (a ∉ addresses historical)).insertionSort
    (· ≤ ·) = missing at hmissing hmem
  have haddresses : addresses (missing.map fun a => ⟨a, "trustline", none⟩) = missing := by
    unfold addresses
    rw [List.map_map]
    exact List.map_id missing
  by_cases hnone : missing.length = 0
  · simp only [if_pos hnone]
    refine ⟨hsorted, fun a => ⟨Or.inl, ?_⟩, fun d hd => Or.inl hd⟩
    rintro (ha | ha)
    · exact ha
    · by_contra hnot
      have hin := (hmem a).mpr ⟨ha, hnot⟩
      rw [List.length_eq_zero_iff.mp hnone] at hin
      exact absurd hin List.not_mem_nil
  · simp only [if_neg hnone]
    refine ⟨sortByAddress_sorted ?_, fun a => ?_, fun d hd => ?_⟩
    · rw [addresses_append, haddresses]
      have hne : ∀ l : List String, l.Pairwise (· < ·) → l.Nodup :=
        fun l hl => hl.imp ne_of_lt
      refine List.nodup_append.mpr ⟨hne _ hsorted, hne _ hmissing, fun a ha b hb heq => ?_⟩
      rw [heq] at ha
      exact ((hmem b).mp hb).2 ha
    · rw [mem_sortByAddress, addresses_append, haddresses, List.mem_append]
      constructor
      · rintro (ha | ha)
        · exact Or.inl ha
        · exact Or.inr ((hmem a).mp ha).1
      · intro ha
        by_cases hin : a ∈ addresses historical
        · exact Or.inl hin
        · exact Or.inr ((hmem a).mpr ⟨ha.resolve_left hin, hin⟩)
    · rcases List.mem_append.mp ((List.mem_insertionSort _).mp hd) with hd | hd
      · exact Or.inl hd
      · obtain ⟨a, ha, rfl⟩ := List.mem_map.mp hd
        exact Or.inr ⟨((hmem a).mp ha).2, rfl⟩

end CrossChecked

/-! ## Tokens of a trust line -/

/-- There is a line for the currency now. -/
def Holds (currency : String) (lines : List (Option Line)) (address : String) : Prop :=
  ∃ line ∈ lines, lineHolder currency line = some address

/-- What discovery makes of the `TrustSet`s of the issuer and its lines. -/
structure TrustlineDiscovery (currency issuer : String) (entries : List ScanEntry)
    (lines : List (Option Line)) (r : DiscoveryResult) : Prop where
  strategy : r.strategy = .trustline
  sorted : (addresses r.accounts).Pairwise (· < ·)
  complete : ∀ a, a ∈ addresses r.accounts
    ↔ Scanned (lineOpened currency issuer) entries a ∨ Holds currency lines a
  earliest : ∀ d ∈ r.accounts, d.discoveredVia = "trustline" ∧ ∀ ledger,
    d.firstAcquisitionLedger = some ledger
      ↔ IsLeast {l | ScannedAt (lineOpened currency issuer) entries d.address l} ledger
  crossCheck : ∃ c, r.crossCheck = some c ∧ c.missingFromHistorical.Pairwise (· < ·)
    ∧ (∀ a, a ∈ c.missingFromHistorical
      ↔ Holds currency lines a ∧ ¬ Scanned (lineOpened currency issuer) entries a)
    ∧ c.currentCount = {a | Holds currency lines a}.ncard

theorem mem_currentTrustlineHolders {currency : String} {lines : List (Option Line)}
    {a : String} :
    a ∈ currentTrustlineHolders currency lines ↔ Holds currency lines a :=
  mem_distinctBy_id.trans List.mem_filterMap

theorem currentTrustlineHolders_nodup (currency : String) (lines : List (Option Line)) :
    (currentTrustlineHolders currency lines).Nodup := by
  have h := ((lines.filterMap (lineHolder currency)).foldl Table.insertIgnore
    (Table.empty : Table id)).nodup
  rwa [List.map_id] at h

theorem crossChecked_discovery (currency issuer : String) (entries : List ScanEntry)
    (lines : List (Option Line)) : TrustlineDiscovery currency issuer entries lines
      (crossChecked (trustlineAccounts currency issuer entries)
        (currentTrustlineHolders currency lines)) := by
  have hscan := scanResult (lineOpened currency issuer) entries "trustline"
  have hnodup := currentTrustlineHolders_nodup currency lines
  obtain ⟨hsorted, hunion, hkept⟩ := crossChecked_spec hscan.sorted hnodup
  obtain ⟨hmissing, hmem⟩ := @missing_spec (trustlineAccounts currency issuer entries) _ hnodup
  refine ⟨rfl, hsorted, fun a => ?_, fun d hd => ?_, _, rfl, hmissing, fun a => ?_, ?_⟩
  · rw [← hscan.complete, ← mem_currentTrustlineHolders]
    exact hunion a
  · rcases hkept d hd with hd | ⟨hnew, hd⟩
    · exact hscan.earliest d hd
    · rw [hd]
      refine ⟨rfl, fun ledger => ?_⟩
      constructor
      · intro h
        cases h
      · intro h
        obtain ⟨entry, hentry, haccount, -⟩ := h.1
        exact absurd ((hscan.complete d.address).mpr ⟨entry, hentry, haccount⟩) hnew
  · rw [hmem a, mem_currentTrustlineHolders]
    exact and_congr Iff.rfl (not_congr (hscan.complete a))
  · have hset : {a | Holds currency lines a}
        = ((currentTrustlineHolders currency lines).toFinset : Set String) := by
      ext a
      rw [Finset.mem_coe, List.mem_toFinset, mem_currentTrustlineHolders]
      rfl
    rw [hset, Set.ncard_coe_finset, List.toFinset_card_of_nodup hnodup]

/-- **DISCOVERY OF A TRUST LINE'S TOKEN IS EXACT**: with the pages of both methods read to
    their ends, it is the accounts that opened a line or have one, in order, each once and
    with the earliest ledger it opened one at; the cross-check is the accounts that have a
    line and are in no `TrustSet`. -/
theorem iou_discovery_exact (X : Xrpl) {client : Upstream} {currency issuer : String}
    {entries : List ScanEntry} {lines : List (Option Line)} {choice : Option Strategy}
    (hsets : Serve (client.trustSets issuer) entries)
    (hlines : Serve (client.accountLines issuer) lines)
    (hchoice : ∀ strategy ∈ choice, strategy = .trustline) :
    ∃ enough r, (∀ fuel ≥ enough,
        discover X client true fuel (.iou currency issuer choice) = some (.ok r))
      ∧ TrustlineDiscovery currency issuer entries lines r := by
  obtain ⟨n, hn⟩ := hsets.readAll
  obtain ⟨m, hm⟩ := hlines.readAll
  refine ⟨max n m, _, fun fuel hfuel => ?_, crossChecked_discovery currency issuer entries lines⟩
  have hstrategy : resolveStrategy (.iou currency issuer choice) = .trustline := by
    cases choice with
    | none => rfl
    | some strategy => exact hchoice strategy rfl
  have hentries := hn fuel ((le_max_left n m).trans hfuel)
  have hlines := hm fuel ((le_max_right n m).trans hfuel)
  simp only [discover, hstrategy, hentries, hlines, Option.bind_some]
  rfl

/-! ## MPTs -/

/-- The traversal of a finite history ends, with what the search behind it has recorded. -/
theorem traversal_ends {mptIssuanceId issuer : String} (H : LedgerHistory mptIssuanceId issuer)
    {client : ClioReader} (hserves : Serves client H.accountTx) :
    ∃ enough, ∃ t : Worklist.Search String (First × List String),
      Worklist.Inv (partiesOf mptIssuanceId H.accountTx) (note mptIssuanceId H.accountTx) issuer
        (recordEarliest Table.empty issuer none, []) t ∧ t.frontier = []
      ∧ ∀ fuel ≥ enough, traversal client mptIssuanceId issuer fuel
        = some (toAccounts t.value.1 "traversal", t.value.2) := by
  obtain ⟨requests, hrequests⟩ := exists_requests hserves H.everyone
  have hclosed := H.everyone_closed
  have hstart := Worklist.inv_start (partiesOf mptIssuanceId H.accountTx)
    (note mptIssuanceId H.accountTx) issuer (recordEarliest Table.empty issuer none, [])
  obtain ⟨t, ht, hinv, hdone⟩ :=
    Worklist.run_terminates hclosed hstart (Nat.le_add_right H.everyone.card _)
  refine ⟨max requests H.everyone.card, t, hinv, hdone, fun fuel hfuel => ?_⟩
  have hissuer : ∀ account ∈ (Walk.start issuer).frontier, account ∈ H.everyone := by
    intro account haccount
    rw [List.mem_singleton.mp haccount]
    exact hclosed.1
  have hsearch := (walkOn_search (hrequests fuel ((le_max_left _ _).trans hfuel)) hclosed.2
    hissuer).trans (Worklist.run_more ((le_max_right _ _).trans hfuel) ht)
  obtain ⟨walk, hwalk, rfl⟩ := Option.map_eq_some_iff.mp hsearch
  unfold traversal
  rw [hwalk]
  rfl

/-- What discovery makes of an MPT: by the authorizations where it is to require them, else
    by the traversal. -/
structure MptDiscovery {mptIssuanceId issuer : String} (H : LedgerHistory mptIssuanceId issuer)
    (authorizations : List ScanEntry) (requiresAuth : Bool) (r : DiscoveryResult) : Prop where
  strategy : r.strategy = if requiresAuth then .authorization else .traversal
  sorted : (addresses r.accounts).Pairwise (· < ·)
  holders : ∀ n ≤ H.txs.length, ∀ account, H.held n account ≠ 0 → account ∈ addresses r.accounts
  scanned : requiresAuth = true →
    ScanResult (authorizes mptIssuanceId issuer) authorizations "authorization" r.accounts
  traversed : requiresAuth = false → ∃ reads, Discovers H r.accounts reads

theorem discover_auto {X : Xrpl} {client : Upstream} {mptIssuanceId issuer : String} {flags : ℕ}
    {given : Option Bool} (hissuer : decodeMptIssuer X mptIssuanceId = some issuer)
    (hflags : client.flags mptIssuanceId = some flags) (crossCheck : Bool) (fuel : ℕ) :
    discover X client crossCheck fuel (.mpt mptIssuanceId given none)
      = if given.getD (flags.testBit 2) = true then
          (readAll (client.authorizations issuer) fuel).map fun entries => .ok
            ⟨.authorization, authorizedAccounts mptIssuanceId issuer entries, none⟩
        else
          (traversal client.accountTx mptIssuanceId issuer fuel).map fun found => .ok
            ⟨.traversal, found.1, none⟩ := by
  have hstrategy (requires : Bool) : resolveStrategy (.mpt mptIssuanceId (some requires) none)
      = if requires = true then .authorization else .traversal := by
    cases requires <;> rfl
  have hrequires : (if (none : Option Strategy) = none ∧ given = none then
      (detectRequiresAuth client mptIssuanceId).map some else some given)
        = some (some (given.getD (flags.testBit 2))) := by
    cases given with
    | none =>
        rw [if_pos ⟨rfl, rfl⟩, detectRequiresAuth, hflags]
        rfl
    | some requires =>
        rw [if_neg (fun h => by cases h.2)]
        rfl
  rw [discover, hissuer, Option.bind_some, hrequires, Option.bind_some]
  simp only [hstrategy]
  cases given.getD (flags.testBit 2) <;> rfl

/-- **AUTOMATIC DISCOVERY OF AN MPT IS COMPLETE**: the flag of the issuance, or what the
    target says of it, chooses the scan or the traversal; either way every account that ever
    held is discovered, if the holders of an issuance that is to require authorization were
    authorized by transactions of the issuer's account. -/
theorem mpt_discovery_complete {X : Xrpl} {client : Upstream} {mptIssuanceId issuer : String}
    (H : LedgerHistory mptIssuanceId issuer) {authorizations : List ScanEntry} {flags : ℕ}
    {given : Option Bool} (hissuer : decodeMptIssuer X mptIssuanceId = some issuer)
    (hflags : client.flags mptIssuanceId = some flags)
    (hserves : Serves client.accountTx H.accountTx)
    (hauth : Serve (client.authorizations issuer) authorizations)
    (hrouted : given.getD (flags.testBit 2) = true → ∀ n ≤ H.txs.length, ∀ account,
      H.held n account ≠ 0 → Scanned (authorizes mptIssuanceId issuer) authorizations account)
    (crossCheck : Bool) :
    ∃ enough r, (∀ fuel ≥ enough,
        discover X client crossCheck fuel (.mpt mptIssuanceId given none) = some (.ok r))
      ∧ MptDiscovery H authorizations (given.getD (flags.testBit 2)) r := by
  have hauto := @discover_auto X client mptIssuanceId issuer flags given hissuer hflags crossCheck
  cases hrequires : given.getD (flags.testBit 2) with
  | true =>
      obtain ⟨n, hn⟩ := hauth.readAll
      have hscan := scanResult (authorizes mptIssuanceId issuer) authorizations "authorization"
      refine ⟨n, ⟨.authorization, authorizedAccounts mptIssuanceId issuer authorizations, none⟩,
        fun fuel hfuel => ?_, ?_⟩
      · rw [hauto, if_pos hrequires, hn fuel hfuel]
        rfl
      · exact {
          strategy := rfl
          sorted := hscan.sorted
          holders := fun k hk account hheld =>
            (hscan.complete account).mpr (hrouted hrequires k hk account hheld)
          scanned := fun _ => hscan
          traversed := fun h => nomatch h }
  | false =>
      obtain ⟨enough, t, hinv, hdone, hfound⟩ := traversal_ends H hserves
      have hdiscovers := discovers_of_ended hinv hdone
      refine ⟨enough, ⟨.traversal, toAccounts t.value.1 "traversal", none⟩,
        fun fuel hfuel => ?_, ?_⟩
      · rw [hauto, if_neg (by rw [hrequires]; decide), hfound fuel hfuel]
        rfl
      · exact {
          strategy := rfl
          sorted := hdiscovers.sorted
          holders := hdiscovers.holders
          scanned := fun h => nomatch h
          traversed := fun _ => ⟨t.value.2, hdiscovers⟩ }

/-! ## A token and an issuance -/

/-- The line of `rA`, opened twice, and one that no `TrustSet` shows. -/
def dollarSets : List ScanEntry :=
  [⟨some { account := some "rA", limitAmount := some ⟨some "USD", some "rI"⟩ }, some 9⟩,
    ⟨some { account := some "rI", limitAmount := some ⟨some "USD", some "rA"⟩ }, some 8⟩,
    ⟨some { account := some "rA", limitAmount := some ⟨some "USD", some "rI"⟩ }, some 7⟩]

def dollarLines : List (Option Line) :=
  [some ⟨some "rB", some "USD"⟩, some ⟨some "rA", some "USD"⟩]

/-- The issuer authorizes `rA`; `rB` opts in. -/
def authorizedHolders : List ScanEntry :=
  [⟨some { account := some "rI", holder := some "rA", mptokenIssuanceID := some "MPT" }, some 3⟩,
    ⟨some { account := some "rB", mptokenIssuanceID := some "MPT" }, some 4⟩]

/-- The `TrustSet`s come in two pages. -/
def smallUpstream : Upstream where
  accountTx := transferClient
  trustSets _ marker := match marker with
    | none => some ⟨some (dollarSets.take 1), some "next"⟩
    | some _ => some ⟨some (dollarSets.drop 1), none⟩
  authorizations _ _ := some ⟨some authorizedHolders, none⟩
  accountLines _ _ := some ⟨some dollarLines, none⟩
  flags _ := some 4

def smallXrpl : Xrpl where
  decodeMeta _ := none
  decodeTxType _ := none
  hashSignedTx := id
  encodeAccountID _ := some "rI"

theorem iou_discovery_exact_dollar : ∃ enough r, (∀ fuel ≥ enough,
      discover smallXrpl smallUpstream true fuel (.iou "USD" "rI" none) = some (.ok r))
    ∧ TrustlineDiscovery "USD" "rI" dollarSets dollarLines r :=
  iou_discovery_exact smallXrpl ⟨2, rfl⟩ ⟨1, rfl⟩ nofun

example : discover smallXrpl smallUpstream true 2 (.iou "USD" "rI" none)
    = some (.ok ⟨.trustline, [⟨"rA", "trustline", some 7⟩, ⟨"rB", "trustline", none⟩],
      some ⟨2, ["rB"]⟩⟩) := by
  decide +kernel

theorem transfer_routed : ∀ n ≤ transferHistory.txs.length, ∀ account,
    transferHistory.held n account ≠ 0 →
      Scanned (authorizes "MPT" "rI") authorizedHolders account := by
  intro n _ account hheld
  have hA : Scanned (authorizes "MPT" "rI") authorizedHolders "rA" :=
    ⟨_, List.mem_cons_self, by decide⟩
  have hB : Scanned (authorizes "MPT" "rI") authorizedHolders "rB" :=
    ⟨_, List.mem_cons_of_mem _ List.mem_cons_self, by decide⟩
  have hone : account = "rA" ∨ account = "rB" := by
    by_contra hneither
    obtain ⟨ha, hb⟩ := not_or.mp hneither
    refine hheld ?_
    rcases n with _ | _ | n
    · rfl
    · exact if_neg ha
    · exact (if_neg ha).trans (if_neg hb)
  rcases hone with rfl | rfl
  · exact hA
  · exact hB

theorem mpt_discovery_complete_transfer : ∃ enough r, (∀ fuel ≥ enough,
      discover smallXrpl smallUpstream true fuel (.mpt "MPT" none none) = some (.ok r))
    ∧ MptDiscovery transferHistory authorizedHolders
        ((none : Option Bool).getD (Nat.testBit 4 2)) r :=
  mpt_discovery_complete transferHistory rfl rfl transferClient_serves ⟨1, rfl⟩
    (fun _ => transfer_routed) true

end RegistrarDiscover
