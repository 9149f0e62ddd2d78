import Registrar.Library.Worklist
import Registrar.PageMarkers

/-! # Discovery by traversal

    An issuance without authorization has no account that sees all of it: tokens pass
    between holders.  `traversal` starts at the issuer, reads the history of every
    account it comes to, and follows the transactions of the issuance to their parties.
    It is a worklist search (`work_read`), so it ends with the least set of accounts
    closed under these parties; and since every holder was given its tokens by an
    earlier one, or by a mint, that set holds every account that ever held any
    (`traversal_complete`). -/

namespace RegistrarTraversal

open KeyedTable Worklist RegistrarMetadata RegistrarIngest
open RegistrarPaging (Status)
open RegistrarSweep (mem_distinctBy_id)

/-! ## Entries -/

/-- An amount of a transaction that is a record. -/
structure AmountJson where
  mptIssuanceId : Option String := none
  deriving DecidableEq

/-- The fields of a transaction that the traversal reads, `none` where they are not of
    the type it expects. -/
structure TxJson where
  mptokenIssuanceID : Option String := none
  amount : Option AmountJson := none
  sendMax : Option AmountJson := none
  deliverMax : Option AmountJson := none
  account : Option String := none
  destination : Option String := none
  holder : Option String := none
  deriving DecidableEq

/-- An entry of `account_tx`. -/
structure AccountTxEntry where
  txJson : Option TxJson
  metadata : Option Meta
  ledgerIndex : Option ℕ
  deriving DecidableEq

/-- `AMOUNT_FIELDS` of a transaction. -/
def TxJson.amountFields (tx : TxJson) : List (Option AmountJson) :=
  [tx.amount, tx.sendMax, tx.deliverMax]

/-- The `Account`, `Destination` and `Holder` that are given. -/
def TxJson.accountFields (tx : TxJson) : List String :=
  ([tx.account, tx.destination, tx.holder].filterMap id).filter (· ≠ "")

/-- The body of the loop of `mptNodeOwners`. -/
def mptNodeOwner (mptIssuanceId : String) (w : AffectedNode) : Option String :=
  w.node.bind fun node =>
    if node.ledgerEntryType ≠ some "MPToken" then none
    else node.fields.bind fun fields =>
      if fields.mptokenIssuanceID ≠ some mptIssuanceId then none
      else fields.account.filter (fun owner => decide (owner ≠ ""))

/-- The owners of the `MPToken` nodes of the issuance. -/
def mptNodeOwners (entry : AccountTxEntry) (mptIssuanceId : String) : List String :=
  ((entry.metadata.map Meta.nodes).getD []).filterMap (mptNodeOwner mptIssuanceId)

/-- Whether a transaction concerns the issuance. -/
def isMptRelated (entry : AccountTxEntry) (mptIssuanceId : String) : Bool :=
  (match entry.txJson with
    | none => false
    | some tx => decide (tx.mptokenIssuanceID = some mptIssuanceId)
        || tx.amountFields.any
          (fun amount => decide (amount.bind (·.mptIssuanceId) = some mptIssuanceId)))
    || decide ((mptNodeOwners entry mptIssuanceId).length > 0)

/-- The accounts a related transaction connects to. -/
def mptParties (entry : AccountTxEntry) (mptIssuanceId : String) : List String :=
  distinctBy id (((entry.txJson.map TxJson.accountFields).getD [])
    ++ mptNodeOwners entry mptIssuanceId)

/-! ## The accumulator -/

/-- Addresses, each with the earliest ledger it was recorded at; null where no ledger
    was known. -/
abbrev First := Table (Prod.fst : String × Option ℕ → String)

/-- The earlier of a recorded ledger and a new one. -/
def earlier : Option ℕ → Option ℕ → Option ℕ
  | none, ledger => ledger
  | some prev, none => some prev
  | some prev, some ledger => if ledger < prev then some ledger else some prev

def recordEarliest (first : First) (address : String) (ledger : Option ℕ) : First :=
  first.upsert (fun old new => (old.1, earlier old.2 new.2)) (fun _ _ => rfl)
    (address, ledger)

/-- The accounts by address. -/
def toAccounts (first : First) (via : String) : List DiscoveredAccount :=
  (first.rows.insertionSort (fun a b => a.1 ≤ b.1)).map fun e => ⟨e.1, via, e.2⟩

/-! ## The upstream -/

/-- A page of `account_tx`; a marker that is there is JSON text. -/
structure AccountTxPage where
  transactions : Option (List AccountTxEntry)
  marker : Option String

/-- The page an account has at a marker; `none` where the request throws. -/
abbrev ClioReader := String → Option String → Option AccountTxPage

/-- The entries that the first requests of `pageAccountTx` yield, from a marker. -/
def pageAccountTx (client : ClioReader) (account : String) :
    ℕ → Option String → List AccountTxEntry × Status
  | 0, _ => ([], .suspended)
  | requests + 1, marker =>
      match client account marker with
      | none => ([], .threw)
      | some page =>
          match page.marker with
          | none => (page.transactions.getD [], .returned)
          | some marker =>
              let (entries, status) := pageAccountTx client account requests (some marker)
              (page.transactions.getD [] ++ entries, status)

/-! ## The traversal -/

/-- The state of a traversal; `reads` are the accounts whose history it has read. -/
structure Walk where
  first : First
  seen : List String
  queued : List String
  frontier : List String
  reads : List String

def Walk.start (issuer : String) : Walk where
  first := recordEarliest Table.empty issuer none
  seen := []
  queued := [issuer]
  frontier := [issuer]
  reads := []

/-- A party of an entry: record it, and queue it unless it was seen or queued. -/
def meet (ledger : Option ℕ) (walk : Walk) (party : String) : Walk :=
  let walk := { walk with first := recordEarliest walk.first party ledger }
  if party ∉ walk.seen ∧ party ∉ walk.queued then
    { walk with queued := walk.queued ++ [party], frontier := walk.frontier ++ [party] }
  else walk

/-- An entry of the account that is read. -/
def follow (mptIssuanceId : String) (walk : Walk) (entry : AccountTxEntry) : Walk :=
  if isMptRelated entry mptIssuanceId then
    (mptParties entry mptIssuanceId).foldl (meet entry.ledgerIndex) walk
  else walk

/-- Read an account of the frontier, in at most the given requests. -/
def readAccount (client : ClioReader) (mptIssuanceId : String) (requests : ℕ)
    (account : String) (walk : Walk) : Option Walk :=
  match pageAccountTx client account requests none with
  | (entries, .returned) => some (entries.foldl (follow mptIssuanceId)
      { walk with seen := walk.seen ++ [account], reads := walk.reads ++ [account] })
  | _ => none

/-- The loop while accounts wait; `none` where a request throws or the fuel does not
    reach. -/
def walkOn (client : ClioReader) (mptIssuanceId : String) (requests : ℕ) :
    ℕ → Walk → Option Walk
  | 0, walk => if walk.frontier = [] then some walk else none
  | fuel + 1, walk =>
      match walk.frontier with
      | [] => some walk
      | account :: rest =>
          if account ∈ walk.seen then
            walkOn client mptIssuanceId requests fuel { walk with frontier := rest }
          else
            (readAccount client mptIssuanceId requests account
              { walk with frontier := rest }).bind
                (walkOn client mptIssuanceId requests fuel)

/-- The accounts discovered, and those whose history was read. -/
def traversal (client : ClioReader) (mptIssuanceId issuer : String) (fuel : ℕ) :
    Option (List DiscoveredAccount × List String) :=
  (walkOn client mptIssuanceId fuel fuel (Walk.start issuer)).map fun walk =>
    (toAccounts walk.first "traversal", walk.reads)

/-! ## The earliest ledger -/

/-- The address is recorded with the ledger or an earlier one. -/
def RecordedBy (first : First) (address : String) (ledger : ℕ) : Prop :=
  ∃ e ∈ first, e.1 = address ∧ ∃ l, e.2 = some l ∧ l ≤ ledger

theorem earlier_le {prev new : Option ℕ} {ledger : ℕ} :
    (∃ l, earlier prev new = some l ∧ l ≤ ledger)
      ↔ (∃ l, prev = some l ∧ l ≤ ledger) ∨ ∃ l, new = some l ∧ l ≤ ledger := by
  cases prev with
  | none => simp [earlier]
  | some p =>
      cases new with
      | none => simp [earlier]
      | some l =>
          by_cases h : l < p
          · simp only [earlier, if_pos h, Option.some.injEq, exists_eq_left']
            omega
          · simp only [earlier, if_neg h, Option.some.injEq, exists_eq_left']
            omega

theorem recordedBy_recordEarliest {first : First} {address a : String} {new : Option ℕ}
    {ledger : ℕ} :
    RecordedBy (recordEarliest first a new) address ledger
      ↔ RecordedBy first address ledger ∨ (address = a ∧ ∃ l, new = some l ∧ l ≤ ledger) := by
  constructor
  · rintro ⟨e, he, rfl, hle⟩
    rcases Table.mem_upsert.mp he with ⟨he, -⟩ | ⟨old, hold, hkey, rfl⟩ | ⟨rfl, -⟩
    · exact Or.inl ⟨e, he, rfl, hle⟩
    · rcases earlier_le.mp hle with hle | hle
      · exact Or.inl ⟨old, hold, rfl, hle⟩
      · exact Or.inr ⟨hkey, hle⟩
    · exact Or.inr ⟨rfl, hle⟩
  · rintro (⟨e, he, rfl, hle⟩ | ⟨rfl, hle⟩)
    · by_cases hkey : e.1 = a
      · exact ⟨_, Table.mem_upsert.mpr (Or.inr (Or.inl ⟨e, he, hkey, rfl⟩)), rfl,
          earlier_le.mpr (Or.inl hle)⟩
      · exact ⟨e, Table.mem_upsert.mpr (Or.inl ⟨he, hkey⟩), rfl, hle⟩
    · by_cases hkey : first.HasKey address
      · obtain ⟨old, hold, hkey⟩ := hkey
        exact ⟨_, Table.mem_upsert.mpr (Or.inr (Or.inl ⟨old, hold, hkey, rfl⟩)), hkey,
          earlier_le.mpr (Or.inr hle)⟩
      · exact ⟨(address, new), Table.mem_upsert.mpr (Or.inr (Or.inr ⟨rfl, hkey⟩)), rfl, hle⟩

/-- A party of an entry, with the entry's ledger. -/
abbrev Sighting := String × Option ℕ

/-- Record sightings one after the other. -/
def record (first : First) (sightings : List Sighting) : First :=
  sightings.foldl (fun first e => recordEarliest first e.1 e.2) first

theorem hasKey_record {first : First} {sightings : List Sighting} {address : String} :
    (record first sightings).HasKey address
      ↔ first.HasKey address ∨ ∃ e ∈ sightings, e.1 = address :=
  Table.hasKey_foldl_upsert

theorem recordedBy_record {first : First} {sightings : List Sighting} {address : String}
    {ledger : ℕ} :
    RecordedBy (record first sightings) address ledger
      ↔ RecordedBy first address ledger
        ∨ ∃ l ≤ ledger, (address, some l) ∈ sightings := by
  induction sightings generalizing first with
  | nil => simp [record]
  | cons e sightings ih =>
      show RecordedBy (record (recordEarliest first e.1 e.2) sightings) address ledger ↔ _
      rw [ih, recordedBy_recordEarliest, or_assoc]
      refine or_congr Iff.rfl ?_
      constructor
      · rintro (⟨rfl, l, hl, hle⟩ | ⟨l, hle, hmem⟩)
        · exact ⟨l, hle, List.mem_cons.mpr (Or.inl (Prod.ext rfl hl.symm))⟩
        · exact ⟨l, hle, List.mem_cons_of_mem e hmem⟩
      · rintro ⟨l, hle, hmem⟩
        rcases List.mem_cons.mp hmem with rfl | hmem
        · exact Or.inl ⟨rfl, l, rfl, hle⟩
        · exact Or.inr ⟨l, hle, hmem⟩

/-- What is recorded of an address is the least ledger of its sightings. -/
theorem record_isLeast {issuer : String} {sightings : List Sighting} {e : Sighting}
    (he : e ∈ record (recordEarliest Table.empty issuer none) sightings) (ledger : ℕ) :
    e.2 = some ledger ↔ IsLeast {l | (e.1, some l) ∈ sightings} ledger := by
  have hby : ∀ n, (∃ l, e.2 = some l ∧ l ≤ n) ↔ ∃ l ≤ n, (e.1, some l) ∈ sightings := by
    intro n
    have hiff : RecordedBy (record (recordEarliest Table.empty issuer none) sightings) e.1 n
        ↔ ∃ l ≤ n, (e.1, some l) ∈ sightings := by
      rw [recordedBy_record, recordedBy_recordEarliest]
      constructor
      · rintro ((⟨old, hold, -⟩ | ⟨-, l, hl, -⟩) | h)
        · exact absurd hold (Table.not_mem_empty old)
        · exact nomatch hl
        · exact h
      · exact Or.inr
    rw [← hiff]
    constructor
    · intro h
      exact ⟨e, he, rfl, h⟩
    · rintro ⟨e', he', hkey, h⟩
      rw [Table.eq_of_key_eq _ he' he hkey] at h
      exact h
  constructor
  · intro h
    obtain ⟨l, hle, hmem⟩ := (hby ledger).mp ⟨ledger, h, le_rfl⟩
    have hlow : ∀ l', (e.1, some l') ∈ sightings → ledger ≤ l' := by
      intro l' hl'
      obtain ⟨x, hx, hxl⟩ := (hby l').mpr ⟨l', le_rfl, hl'⟩
      rw [h] at hx
      exact (Option.some.inj hx) ▸ hxl
    have hsame : l = ledger := le_antisymm hle (hlow l hmem)
    exact ⟨hsame ▸ hmem, fun l' hl' => hlow l' hl'⟩
  · rintro ⟨hmem, hlow⟩
    obtain ⟨x, hx, hxl⟩ := (hby ledger).mpr ⟨ledger, le_rfl, hmem⟩
    obtain ⟨l, hle, hl⟩ := (hby x).mp ⟨x, hx, le_rfl⟩
    have hlow : ledger ≤ l := hlow hl
    rw [hx]
    exact congrArg some (by omega)

/-! ## The search behind it -/

/-- The parties of the related entries, in the order they are met. -/
def sightings (mptIssuanceId : String) (entries : List AccountTxEntry) : List Sighting :=
  entries.flatMap fun entry =>
    if isMptRelated entry mptIssuanceId then
      (mptParties entry mptIssuanceId).map fun party => (party, entry.ledgerIndex)
    else []

theorem sightings_cons (mptIssuanceId : String) (entry : AccountTxEntry)
    (entries : List AccountTxEntry) :
    sightings mptIssuanceId (entry :: entries)
      = (if isMptRelated entry mptIssuanceId then
          (mptParties entry mptIssuanceId).map fun party => (party, entry.ledgerIndex)
        else []) ++ sightings mptIssuanceId entries :=
  List.flatMap_cons

/-- The traversal as a worklist search. -/
def Walk.search (walk : Walk) : Search String (First × List String) :=
  ⟨walk.seen, walk.queued, walk.frontier, (walk.first, walk.reads)⟩

theorem follow_sightings (mptIssuanceId : String) (entries : List AccountTxEntry)
    (walk : Walk) :
    entries.foldl (follow mptIssuanceId) walk
      = (sightings mptIssuanceId entries).foldl (fun walk e => meet e.2 walk e.1) walk := by
  induction entries generalizing walk with
  | nil => rfl
  | cons entry entries ih =>
      rw [List.foldl_cons, ih, sightings_cons, List.foldl_append]
      refine congrArg (List.foldl _ · _) ?_
      unfold follow
      by_cases hrelated : isMptRelated entry mptIssuanceId
      · rw [if_pos hrelated, if_pos hrelated, List.foldl_map]
      · rw [if_neg hrelated, if_neg hrelated, List.foldl_nil]

theorem search_meet (ledger : Option ℕ) (walk : Walk) (party : String) :
    (meet ledger walk party).search
      = (offer walk.search party).withValue
          (recordEarliest walk.first party ledger, walk.reads) := by
  by_cases hnew : party ∉ walk.seen ∧ party ∉ walk.queued
  · rw [offer_of_new (s := walk.search) hnew]
    exact congrArg Walk.search (if_pos hnew)
  · rw [offer_of_known (s := walk.search) hnew]
    exact congrArg Walk.search (if_neg hnew)

/-- Meeting parties offers them, and records them. -/
theorem search_foldl_meet (es : List Sighting) (walk : Walk) :
    (es.foldl (fun walk e => meet e.2 walk e.1) walk).search
      = ((es.map Prod.fst).foldl offer walk.search).withValue
          (record walk.first es, walk.reads) := by
  induction es generalizing walk with
  | nil => rfl
  | cons e es ih =>
      have hfirst : (meet e.2 walk e.1).first = recordEarliest walk.first e.1 e.2
          ∧ (meet e.2 walk e.1).reads = walk.reads :=
        Prod.mk.inj (congrArg Search.value (search_meet e.2 walk e.1))
      rw [List.foldl_cons, ih, search_meet, foldl_offer_withValue, hfirst.1, hfirst.2]
      rfl

/-! ## Reading the histories -/

/-- The account's history is served whole, in some number of requests. -/
def Serves (client : ClioReader) (accountTx : String → List AccountTxEntry) : Prop :=
  ∀ account, ∃ requests, pageAccountTx client account requests none
    = (accountTx account, .returned)

theorem pageAccountTx_last {client : ClioReader} {account : String} {marker : Option String}
    {page : AccountTxPage} (requests : ℕ) (hpage : client account marker = some page)
    (hlast : page.marker = none) :
    pageAccountTx client account (requests + 1) marker
      = (page.transactions.getD [], .returned) := by
  rw [pageAccountTx, hpage]
  simp only [hlast]

theorem pageAccountTx_next {client : ClioReader} {account m : String}
    {marker : Option String} {page : AccountTxPage} (requests : ℕ)
    (hpage : client account marker = some page) (hnext : page.marker = some m) :
    pageAccountTx client account (requests + 1) marker
      = (page.transactions.getD [] ++ (pageAccountTx client account requests (some m)).1,
          (pageAccountTx client account requests (some m)).2) := by
  rw [pageAccountTx, hpage]
  simp only [hnext]

/-- More requests than it takes change nothing. -/
theorem pageAccountTx_more {client : ClioReader} {account : String} {requests more : ℕ}
    (hle : requests ≤ more) {marker : Option String}
    (h : (pageAccountTx client account requests marker).2 = .returned) :
    pageAccountTx client account more marker
      = pageAccountTx client account requests marker := by
  induction requests generalizing more marker with
  | zero => exact nomatch h
  | succ requests ih =>
      obtain ⟨more, rfl⟩ : ∃ n, more = n + 1 := ⟨more - 1, by omega⟩
      cases hpage : client account marker with
      | none =>
          rw [pageAccountTx, hpage] at h
          exact nomatch h
      | some page =>
          cases hmarker : page.marker with
          | none =>
              rw [pageAccountTx_last more hpage hmarker,
                pageAccountTx_last requests hpage hmarker]
          | some m =>
              rw [pageAccountTx_next requests hpage hmarker] at h
              rw [pageAccountTx_next more hpage hmarker,
                pageAccountTx_next requests hpage hmarker, ih (by omega) h]

/-- One number of requests that reads each of finitely many histories. -/
theorem exists_requests {client : ClioReader} {accountTx : String → List AccountTxEntry}
    (hserves : Serves client accountTx) (U : Finset String) :
    ∃ requests, ∀ more ≥ requests, ∀ account ∈ U,
      pageAccountTx client account more none = (accountTx account, .returned) := by
  choose requests hrequests using hserves
  refine ⟨U.sup requests, fun more hmore account haccount => ?_⟩
  have hle : requests account ≤ more := (Finset.le_sup haccount).trans hmore
  rw [pageAccountTx_more hle (by rw [hrequests account]), hrequests account]

/-- What reading an account does to what the search accumulates. -/
def note (mptIssuanceId : String) (accountTx : String → List AccountTxEntry)
    (noted : First × List String) (account : String) : First × List String :=
  (record noted.1 (sightings mptIssuanceId (accountTx account)), noted.2 ++ [account])

/-- The parties that an account's history leads to. -/
def partiesOf (mptIssuanceId : String) (accountTx : String → List AccountTxEntry)
    (account : String) : List String :=
  (sightings mptIssuanceId (accountTx account)).map Prod.fst

section Search

variable {client : ClioReader} {mptIssuanceId issuer : String}
  {accountTx : String → List AccountTxEntry}

/-- Reading an account visits it. -/
theorem readAccount_search {requests : ℕ} {account : String} {walk : Walk}
    (hread : pageAccountTx client account requests none = (accountTx account, .returned)) :
    ∃ walk', readAccount client mptIssuanceId requests account walk = some walk'
      ∧ walk'.search = (partiesOf mptIssuanceId accountTx account).foldl offer
          { walk.search with
            seen := walk.seen ++ [account]
            value := note mptIssuanceId accountTx (walk.first, walk.reads) account } := by
  refine ⟨(accountTx account).foldl (follow mptIssuanceId)
    { walk with seen := walk.seen ++ [account], reads := walk.reads ++ [account] }, ?_, ?_⟩
  · rw [readAccount, hread]
  · rw [follow_sightings, search_foldl_meet]
    exact (foldl_offer_withValue _ _ _).symm

/-- **THE TRAVERSAL IS A WORKLIST SEARCH**, where enough requests are made to read each
    history. -/
theorem walkOn_search {U : Finset String} {requests : ℕ}
    (hreads : ∀ account ∈ U,
      pageAccountTx client account requests none = (accountTx account, .returned))
    (hU : ∀ account ∈ U, ∀ party ∈ partiesOf mptIssuanceId accountTx account, party ∈ U)
    {fuel : ℕ} {walk : Walk} (hwalk : ∀ account ∈ walk.frontier, account ∈ U) :
    (walkOn client mptIssuanceId requests fuel walk).map Walk.search
      = run (partiesOf mptIssuanceId accountTx) (note mptIssuanceId accountTx) fuel
          walk.search := by
  induction fuel generalizing walk with
  | zero =>
      by_cases hdone : walk.frontier = []
      · rw [walkOn, if_pos hdone, run_done hdone, Option.map_some]
      · rw [walkOn, if_neg hdone, Option.map_none]
        exact (if_neg hdone).symm
  | succ fuel ih =>
      cases hfrontier : walk.frontier with
      | nil =>
          rw [walkOn, hfrontier, run_done hfrontier]
          rfl
      | cons account rest =>
          have hne : ¬ walk.search.frontier = [] := by
            rw [show walk.search.frontier = account :: rest from hfrontier]
            exact List.cons_ne_nil account rest
          have hrest : ∀ a ∈ rest, a ∈ U := by
            intro a ha
            refine hwalk a ?_
            rw [hfrontier]
            exact List.mem_cons_of_mem account ha
          have haccount : account ∈ U := by
            refine hwalk account ?_
            rw [hfrontier]
            exact List.mem_cons_self
          rw [run, if_neg hne, walkOn, hfrontier]
          by_cases hseen : account ∈ walk.seen
          · rw [visit_seen (s := walk.search) hfrontier hseen]
            show Option.map _ (if account ∈ walk.seen then _ else _) = _
            rw [if_pos hseen]
            exact @ih { walk with frontier := rest } hrest
          · rw [visit_fresh (s := walk.search) hfrontier hseen]
            show Option.map _ (if account ∈ walk.seen then _ else _) = _
            obtain ⟨walk', hread, hsearch⟩ := @readAccount_search client mptIssuanceId
              accountTx requests account { walk with frontier := rest } (hreads account haccount)
            rw [if_neg hseen, hread, Option.bind_some, ih ?_, hsearch]
            · rfl
            · intro a ha
              have ha : a ∈ walk'.search.frontier := ha
              rw [hsearch] at ha
              rcases mem_frontier_foldl_offer ha with ha | ha
              · exact hrest a ha
              · exact hU account haccount a ha

end Search

theorem mem_sightings {mptIssuanceId : String} {entries : List AccountTxEntry} {e : Sighting} :
    e ∈ sightings mptIssuanceId entries ↔ ∃ entry ∈ entries,
      isMptRelated entry mptIssuanceId = true ∧ e.1 ∈ mptParties entry mptIssuanceId
        ∧ e.2 = entry.ledgerIndex := by
  unfold sightings
  rw [List.mem_flatMap]
  refine exists_congr (fun entry => and_congr Iff.rfl ?_)
  by_cases hrelated : isMptRelated entry mptIssuanceId = true
  · rw [if_pos hrelated, List.mem_map]
    constructor
    · rintro ⟨party, hparty, rfl⟩
      exact ⟨hrelated, hparty, rfl⟩
    · rintro ⟨-, hparty, hledger⟩
      exact ⟨e.1, hparty, Prod.ext rfl hledger.symm⟩
  · rw [if_neg hrelated]
    constructor
    · intro h
      exact absurd h List.not_mem_nil
    · rintro ⟨h, -⟩
      exact absurd h hrelated

theorem mem_partiesOf {mptIssuanceId : String} {accountTx : String → List AccountTxEntry}
    {account party : String} :
    party ∈ partiesOf mptIssuanceId accountTx account ↔ ∃ entry ∈ accountTx account,
      isMptRelated entry mptIssuanceId = true ∧ party ∈ mptParties entry mptIssuanceId := by
  unfold partiesOf
  rw [List.mem_map]
  constructor
  · rintro ⟨e, he, rfl⟩
    obtain ⟨entry, hentry, hrelated, hparty, -⟩ := mem_sightings.mp he
    exact ⟨entry, hentry, hrelated, hparty⟩
  · rintro ⟨entry, hentry, hrelated, hparty⟩
    exact ⟨(party, entry.ledgerIndex),
      mem_sightings.mpr ⟨entry, hentry, hrelated, hparty, rfl⟩, rfl⟩

/-- The search has recorded the sightings of every account it has read. -/
theorem foldl_note {mptIssuanceId : String} {accountTx : String → List AccountTxEntry}
    (accounts : List String) (noted : First × List String) :
    accounts.foldl (note mptIssuanceId accountTx) noted
      = (record noted.1 (accounts.flatMap fun account =>
          sightings mptIssuanceId (accountTx account)), noted.2 ++ accounts) := by
  induction accounts generalizing noted with
  | nil => exact Prod.ext rfl (List.append_nil _).symm
  | cons account accounts ih =>
      rw [List.foldl_cons, ih]
      refine Prod.ext ?_ ?_
      · show record (record noted.1 _) _ = record noted.1 (List.flatMap _ (account :: accounts))
        rw [List.flatMap_cons]
        exact List.foldl_append.symm
      · show (noted.2 ++ [account]) ++ accounts = noted.2 ++ account :: accounts
        rw [List.append_assoc]
        rfl

/-! ## Ledger histories -/

/-- The accounts whose `MPToken` some transaction touches. -/
def owners (mptIssuanceId : String) (txs : List AccountTxEntry) : Finset String :=
  (txs.flatMap (mptNodeOwners · mptIssuanceId)).toFinset

/-- A finite history of the ledger.  `held n` is what each account holds after the first
    `n` transactions; a transaction changes it only by touching the account's `MPToken`.
    An account's `account_tx` lists what touches its `MPToken` and what it sent, and what
    puts more tokens into circulation is listed for the issuer. -/
structure LedgerHistory (mptIssuanceId issuer : String) where
  txs : List AccountTxEntry
  accountTx : String → List AccountTxEntry
  held : ℕ → String → ℕ
  listed : ∀ account, ∀ entry ∈ accountTx account, entry ∈ txs
  lists : ∀ account, ∀ entry ∈ txs, account ∈ mptNodeOwners entry mptIssuanceId
    ∨ entry.txJson.bind (·.account) = some account → entry ∈ accountTx account
  none_held : ∀ account, held 0 account = 0
  touched : ∀ n entry, txs[n]? = some entry → ∀ account,
    held (n + 1) account ≠ held n account → account ∈ mptNodeOwners entry mptIssuanceId
  minted : ∀ n entry, txs[n]? = some entry →
    ∑ account ∈ owners mptIssuanceId txs, held n account
      < ∑ account ∈ owners mptIssuanceId txs, held (n + 1) account → entry ∈ accountTx issuer

/-- A set with the issuer and the parties of its members' related transactions. -/
def ClosedUnderParties (mptIssuanceId issuer : String)
    (accountTx : String → List AccountTxEntry) (S : Set String) : Prop :=
  issuer ∈ S ∧ ∀ account ∈ S, ∀ entry ∈ accountTx account,
    isMptRelated entry mptIssuanceId = true → ∀ party ∈ mptParties entry mptIssuanceId, party ∈ S

theorem closed_iff {mptIssuanceId issuer : String} {accountTx : String → List AccountTxEntry}
    {S : Set String} :
    Closed (partiesOf mptIssuanceId accountTx) issuer S
      ↔ ClosedUnderParties mptIssuanceId issuer accountTx S := by
  refine and_congr Iff.rfl (forall₂_congr fun account _ => ?_)
  constructor
  · intro h entry hentry hrelated party hparty
    exact h party (mem_partiesOf.mpr ⟨entry, hentry, hrelated, hparty⟩)
  · intro h party hparty
    obtain ⟨entry, hentry, hrelated, hparty⟩ := mem_partiesOf.mp hparty
    exact h entry hentry hrelated party hparty

namespace LedgerHistory

variable {mptIssuanceId issuer : String} (H : LedgerHistory mptIssuanceId issuer)

theorem owner_party {entry : AccountTxEntry} {account : String}
    (h : account ∈ mptNodeOwners entry mptIssuanceId) :
    isMptRelated entry mptIssuanceId = true ∧ account ∈ mptParties entry mptIssuanceId := by
  constructor
  · unfold isMptRelated
    rw [Bool.or_eq_true]
    exact Or.inr (decide_eq_true (List.length_pos_of_mem h))
  · exact mem_distinctBy_id.mpr (List.mem_append_right _ h)

/-- Where no tokens were put into circulation, what one account gains another gives. -/
theorem exists_giver {n : ℕ} {entry : AccountTxEntry} (hentry : H.txs[n]? = some entry)
    (hlisted : entry ∉ H.accountTx issuer) {account : String}
    (hgain : H.held n account < H.held (n + 1) account) :
    ∃ giver, H.held (n + 1) giver < H.held n giver := by
  by_contra hnone
  have hle : ∀ giver ∈ owners mptIssuanceId H.txs,
      H.held n giver ≤ H.held (n + 1) giver := by
    intro giver _
    by_contra hlt
    exact hnone ⟨giver, not_le.mp hlt⟩
  have howner : account ∈ owners mptIssuanceId H.txs := by
    refine List.mem_toFinset.mpr (List.mem_flatMap.mpr ⟨entry, ?_, ?_⟩)
    · exact List.mem_of_getElem? hentry
    · exact H.touched n entry hentry account (Nat.ne_of_gt hgain)
  exact hlisted (H.minted n entry hentry (Finset.sum_lt_sum hle ⟨account, howner, hgain⟩))

/-- **EVERY HOLDER IS IN A CLOSED SET**: by induction over the history, a holder was given
    its tokens by an earlier one or by a mint, and is a party of that transaction. -/
theorem holder_mem {S : Set String}
    (hS : ClosedUnderParties mptIssuanceId issuer H.accountTx S) {n : ℕ}
    (hn : n ≤ H.txs.length) {account : String} (hheld : H.held n account ≠ 0) :
    account ∈ S := by
  induction n generalizing account with
  | zero => exact absurd (H.none_held account) hheld
  | succ n ih =>
      by_cases hbefore : H.held n account = 0
      · have hentry : H.txs[n]? = some H.txs[n] := List.getElem?_eq_getElem hn
        have hgain : H.held n account < H.held (n + 1) account := by omega
        obtain ⟨hrelated, hparty⟩ :=
          owner_party (H.touched n _ hentry account (Nat.ne_of_gt hgain))
        by_cases hlisted : H.txs[n] ∈ H.accountTx issuer
        · exact hS.2 issuer hS.1 _ hlisted hrelated account hparty
        · obtain ⟨giver, hgave⟩ := H.exists_giver hentry hlisted hgain
          have hgiver : giver ∈ S := ih (Nat.le_of_succ_le hn) (by omega)
          have htouched := H.touched n _ hentry giver (Nat.ne_of_lt hgave)
          have hread := H.lists giver _ (List.getElem_mem hn) (Or.inl htouched)
          exact hS.2 giver hgiver _ hread hrelated account hparty
      · exact ih (Nat.le_of_succ_le hn) hbefore

/-- The issuer and the parties of the whole history. -/
def everyone : Finset String :=
  insert issuer (H.txs.flatMap (mptParties · mptIssuanceId)).toFinset

theorem everyone_closed :
    Closed (partiesOf mptIssuanceId H.accountTx) issuer (H.everyone : Set String) := by
  refine ⟨Finset.mem_insert_self _ _, ?_⟩
  intro account _ party hparty
  obtain ⟨entry, hentry, -, hparty⟩ := mem_partiesOf.mp hparty
  exact Finset.mem_insert_of_mem (List.mem_toFinset.mpr
    (List.mem_flatMap.mpr ⟨entry, H.listed account entry hentry, hparty⟩))

end LedgerHistory

/-! ## What is discovered -/

/-- The address is a party, at the ledger, of a related transaction of a member. -/
def SeenAt (mptIssuanceId : String) (accountTx : String → List AccountTxEntry)
    (members : List String) (address : String) (ledger : ℕ) : Prop :=
  ∃ account ∈ members, ∃ entry ∈ accountTx account, isMptRelated entry mptIssuanceId = true
    ∧ address ∈ mptParties entry mptIssuanceId ∧ entry.ledgerIndex = some ledger

def addresses (accounts : List DiscoveredAccount) : List String := accounts.map (·.address)

/-- What a complete discovery returns. -/
structure Discovers {mptIssuanceId issuer : String} (H : LedgerHistory mptIssuanceId issuer)
    (accounts : List DiscoveredAccount) (reads : List String) : Prop where
  once : reads.Nodup
  least : IsLeast {S | ClosedUnderParties mptIssuanceId issuer H.accountTx S}
    {a | a ∈ addresses accounts}
  sorted : (addresses accounts).Pairwise (· < ·)
  earliest : ∀ a ∈ accounts, a.discoveredVia = "traversal"
    ∧ ∀ ledger, a.firstAcquisitionLedger = some ledger
      ↔ IsLeast {l | SeenAt mptIssuanceId H.accountTx (addresses accounts) a.address l} ledger
  holders : ∀ n ≤ H.txs.length, ∀ account, H.held n account ≠ 0 →
    account ∈ addresses accounts

theorem addresses_toAccounts (first : First) (via : String) :
    (addresses (toAccounts first via)).Perm (first.rows.map Prod.fst) := by
  unfold addresses toAccounts
  rw [List.map_map]
  exact (List.perm_insertionSort _ first.rows).map Prod.fst

theorem mem_addresses {first : First} {via address : String} :
    address ∈ addresses (toAccounts first via) ↔ first.HasKey address := by
  rw [(addresses_toAccounts first via).mem_iff]
  exact List.mem_map

/-- The accounts are in strict order of their addresses. -/
theorem toAccounts_sorted (first : First) (via : String) :
    (addresses (toAccounts first via)).Pairwise (· < ·) := by
  have hle : (addresses (toAccounts first via)).Pairwise (· ≤ ·) := by
    unfold addresses toAccounts
    rw [List.map_map, List.pairwise_map]
    exact List.pairwise_insertionSort (fun a b : String × Option ℕ => a.1 ≤ b.1) first.rows
  have hne : (addresses (toAccounts first via)).Nodup :=
    (addresses_toAccounts first via).nodup_iff.mpr first.nodup
  exact hle.imp₂ (fun _ _ hab hne => lt_of_le_of_ne hab hne) hne

section Ended

variable {mptIssuanceId issuer : String} {H : LedgerHistory mptIssuanceId issuer}
  {t : Search String (First × List String)}

/-- The accounts recorded are the issuer and the parties of those read. -/
theorem hasKey_recorded
    (hinv : Inv (partiesOf mptIssuanceId H.accountTx) (note mptIssuanceId H.accountTx) issuer
      (recordEarliest Table.empty issuer none, []) t) (address : String) :
    t.value.1.HasKey address ↔ address = issuer
      ∨ ∃ account ∈ t.seen, address ∈ partiesOf mptIssuanceId H.accountTx account := by
  rw [hinv.acted, foldl_note, hasKey_record]
  refine or_congr (Table.hasKey_upsert.trans ⟨?_, Or.inr⟩) ?_
  · rintro (⟨r, hr, -⟩ | h)
    · exact absurd hr List.not_mem_nil
    · exact h
  · constructor
    · rintro ⟨e, he, rfl⟩
      obtain ⟨account, haccount, he⟩ := List.mem_flatMap.mp he
      exact ⟨account, haccount, List.mem_map_of_mem he⟩
    · rintro ⟨account, haccount, hparty⟩
      obtain ⟨e, he, rfl⟩ := List.mem_map.mp hparty
      exact ⟨e, List.mem_flatMap.mpr ⟨account, haccount, he⟩, rfl⟩

/-- Of a search that has ended, the accounts recorded are those read. -/
theorem recorded_iff_seen
    (hinv : Inv (partiesOf mptIssuanceId H.accountTx) (note mptIssuanceId H.accountTx) issuer
      (recordEarliest Table.empty issuer none, []) t) (hdone : t.frontier = [])
    (address : String) : t.value.1.HasKey address ↔ address ∈ t.seen := by
  obtain ⟨⟨hroot, hstep⟩, hlow⟩ := hinv.seen_isLeast hdone
  have hsub : ∀ a, t.value.1.HasKey a → a ∈ t.seen := by
    intro a ha
    rcases (hasKey_recorded hinv a).mp ha with rfl | ⟨account, haccount, hparty⟩
    · exact hroot
    · exact hstep account haccount a hparty
  have hclosed : Closed (partiesOf mptIssuanceId H.accountTx) issuer
      {a | t.value.1.HasKey a} := by
    refine ⟨(hasKey_recorded hinv issuer).mpr (Or.inl rfl), ?_⟩
    intro account haccount party hparty
    exact (hasKey_recorded hinv party).mpr (Or.inr ⟨account, hsub account haccount, hparty⟩)
  exact ⟨hsub address, fun h => hlow hclosed h⟩

/-- A search that has ended has discovered everything. -/
theorem discovers_of_ended
    (hinv : Inv (partiesOf mptIssuanceId H.accountTx) (note mptIssuanceId H.accountTx) issuer
      (recordEarliest Table.empty issuer none, []) t) (hdone : t.frontier = []) :
    Discovers H (toAccounts t.value.1 "traversal") t.value.2 := by
  have hreads : t.value.2 = t.seen := by
    rw [hinv.acted, foldl_note]
    rfl
  have hseen : ∀ address, address ∈ addresses (toAccounts t.value.1 "traversal")
      ↔ address ∈ t.seen :=
    fun address => mem_addresses.trans (recorded_iff_seen hinv hdone address)
  have hset : {a | a ∈ addresses (toAccounts t.value.1 "traversal")} = {a | a ∈ t.seen} :=
    Set.ext hseen
  have hleast : IsLeast {S | ClosedUnderParties mptIssuanceId issuer H.accountTx S}
      {a | a ∈ addresses (toAccounts t.value.1 "traversal")} := by
    have hclosed : {S : Set String | ClosedUnderParties mptIssuanceId issuer H.accountTx S}
        = {S | Closed (partiesOf mptIssuanceId H.accountTx) issuer S} :=
      Set.ext (fun _ => closed_iff.symm)
    rw [hset, hclosed]
    exact hinv.seen_isLeast hdone
  refine ⟨?_, hleast, toAccounts_sorted _ _, ?_, ?_⟩
  · rw [hreads]
    exact hinv.ordered.seen_nodup
  · intro d hd
    obtain ⟨e, he, rfl⟩ := List.mem_map.mp hd
    refine ⟨rfl, fun ledger => ?_⟩
    have he : e ∈ t.value.1 := (List.mem_insertionSort _).mp he
    rw [hinv.acted, foldl_note] at he
    refine (record_isLeast he ledger).trans (iff_of_eq (congrArg (IsLeast · ledger) ?_))
    ext l
    constructor
    · intro hl
      obtain ⟨account, haccount, hl⟩ := List.mem_flatMap.mp hl
      obtain ⟨entry, hentry, hrelated, hparty, hledger⟩ := mem_sightings.mp hl
      exact ⟨account, (hseen account).mpr haccount, entry, hentry, hrelated, hparty,
        hledger.symm⟩
    · rintro ⟨account, haccount, entry, hentry, hrelated, hparty, hledger⟩
      exact List.mem_flatMap.mpr ⟨account, (hseen account).mp haccount,
        mem_sightings.mpr ⟨entry, hentry, hrelated, hparty, hledger.symm⟩⟩
  · intro n hn account hheld
    exact H.holder_mem hleast.1 hn hheld

end Ended

/-- **TRAVERSAL DISCOVERY IS COMPLETE**: it ends, however much more fuel it is given, and
    returns the least set closed under parties, in order, each account with the smallest
    ledger it was seen at; the set has every account that ever held tokens. -/
theorem traversal_complete {mptIssuanceId issuer : String}
    (H : LedgerHistory mptIssuanceId issuer) {client : ClioReader}
    (hserves : Serves client H.accountTx) :
    ∃ enough accounts reads,
      (∀ fuel ≥ enough, traversal client mptIssuanceId issuer fuel = some (accounts, reads))
        ∧ Discovers H accounts reads := by
  obtain ⟨requests, hrequests⟩ := exists_requests hserves H.everyone
  have hclosed := H.everyone_closed
  have hstart := inv_start (partiesOf mptIssuanceId H.accountTx)
    (note mptIssuanceId H.accountTx) issuer (recordEarliest Table.empty issuer none, [])
  obtain ⟨t, ht, hinv, hdone⟩ :=
    run_terminates hclosed hstart (Nat.le_add_right H.everyone.card _)
  refine ⟨max requests H.everyone.card, toAccounts t.value.1 "traversal", t.value.2, ?_,
    discovers_of_ended hinv hdone⟩
  intro fuel hfuel
  have hfrontier : ∀ account ∈ (Walk.start issuer).frontier, account ∈ H.everyone := by
    intro account haccount
    rw [List.mem_singleton.mp haccount]
    exact hclosed.1
  have hsearch : (walkOn client mptIssuanceId fuel fuel (Walk.start issuer)).map Walk.search
      = some t :=
    (walkOn_search (hrequests fuel ((le_max_left _ _).trans hfuel)) hclosed.2
      hfrontier).trans (run_more ((le_max_right _ _).trans hfuel) ht)
  obtain ⟨walk, hwalk, rfl⟩ := Option.map_eq_some_iff.mp hsearch
  unfold traversal
  rw [hwalk]
  rfl

/-! ## A mint and a transfer -/

def tokenNode (owner : String) : AffectedNode :=
  { modifiedNode := some
      { ledgerEntryType := some "MPToken"
        finalFields := some { account := some owner, mptokenIssuanceID := some "MPT" } } }

def mintTx : AccountTxEntry :=
  ⟨some { account := some "rI", destination := some "rA" },
    some { affectedNodes := some [some (tokenNode "rA")] }, some 5⟩

def transferTx : AccountTxEntry :=
  ⟨some { account := some "rA", destination := some "rB" },
    some { affectedNodes := some [some (tokenNode "rA"), some (tokenNode "rB")] }, some 8⟩

def transferTxs : List AccountTxEntry := [mintTx, transferTx]

/-- What touches the account's `MPToken` and what it sent. -/
def transferListed (account : String) : List AccountTxEntry :=
  transferTxs.filter fun entry => decide (account ∈ mptNodeOwners entry "MPT"
    ∨ entry.txJson.bind (·.account) = some account)

/-- The mint gives ten tokens, of which the transfer passes six on. -/
def transferHeld : ℕ → String → ℕ
  | 0, _ => 0
  | 1, account => if account = "rA" then 10 else 0
  | _, account => if account = "rA" then 4 else if account = "rB" then 6 else 0

theorem transfer_listed : ∀ account, ∀ entry ∈ transferListed account, entry ∈ transferTxs :=
  fun _ _ h => List.mem_of_mem_filter h

theorem transfer_lists : ∀ account, ∀ entry ∈ transferTxs,
    account ∈ mptNodeOwners entry "MPT" ∨ entry.txJson.bind (·.account) = some account →
      entry ∈ transferListed account :=
  fun _ _ hentry h => List.mem_filter.mpr ⟨hentry, decide_eq_true h⟩

theorem transfer_none_held : ∀ account, transferHeld 0 account = 0 := fun _ => rfl

theorem transfer_touched : ∀ n entry, transferTxs[n]? = some entry → ∀ account,
    transferHeld (n + 1) account ≠ transferHeld n account →
      account ∈ mptNodeOwners entry "MPT" := by
  intro n entry hentry account hchange
  rcases n with _ | _ | n
  · cases hentry
    by_cases ha : account = "rA"
    · rw [ha]
      decide
    · exact absurd (if_neg ha) hchange
  · cases hentry
    by_cases ha : account = "rA"
    · rw [ha]
      decide
    · by_cases hb : account = "rB"
      · rw [hb]
        decide
      · refine absurd ?_ hchange
        show (if account = "rA" then 4 else if account = "rB" then 6 else 0)
          = if account = "rA" then 10 else 0
        rw [if_neg ha, if_neg hb, if_neg ha]
  · cases hentry

theorem transfer_minted : ∀ n entry, transferTxs[n]? = some entry →
    ∑ account ∈ owners "MPT" transferTxs, transferHeld n account
      < ∑ account ∈ owners "MPT" transferTxs, transferHeld (n + 1) account →
        entry ∈ transferListed "rI" := by
  intro n entry hentry hmore
  rcases n with _ | _ | n
  · cases hentry
    decide
  · exact absurd hmore (by decide)
  · cases hentry

def transferHistory : LedgerHistory "MPT" "rI" where
  txs := transferTxs
  accountTx := transferListed
  held := transferHeld
  listed := transfer_listed
  lists := transfer_lists
  none_held := transfer_none_held
  touched := transfer_touched
  minted := transfer_minted

/-- The sender's history comes in two pages. -/
def transferClient : ClioReader
  | account, none =>
      if account = "rA" then some ⟨some [mintTx], some "next"⟩
      else some ⟨some (transferListed account), none⟩
  | _, some _ => some ⟨some [transferTx], none⟩

theorem transferClient_serves : Serves transferClient transferListed := by
  intro account
  refine ⟨2, ?_⟩
  by_cases ha : account = "rA"
  · rw [ha]
    decide
  · have hpage : transferClient account none = some ⟨some (transferListed account), none⟩ :=
      if_neg ha
    exact pageAccountTx_last 1 hpage rfl

theorem traversal_complete_transfer :
    ∃ enough accounts reads,
      (∀ fuel ≥ enough, traversal transferClient "MPT" "rI" fuel = some (accounts, reads))
        ∧ Discovers transferHistory accounts reads :=
  traversal_complete transferHistory transferClient_serves

example : traversal transferClient "MPT" "rI" 4
    = some ([⟨"rA", "traversal", some 5⟩, ⟨"rB", "traversal", some 8⟩,
      ⟨"rI", "traversal", some 5⟩], ["rI", "rA", "rB"]) := by
  decide +kernel

end RegistrarTraversal
