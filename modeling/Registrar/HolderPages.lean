import Registrar.Library.KeysetPaging
import Registrar.StateReads

/-! # Paging through the holders of an MPT

    `mpt_holders` reconstructs every token of an issuance as of a ledger, orders
    the holders by token and answers a page of them.  Over an archive that holds
    a history of the tokens, the pages that follow the markers are the tokens
    live after the ledger, each once, in order. -/

namespace RegistrarHolders

open KeyedTable ObjectLog Statements KeysetPaging RegistrarMetadata RegistrarArchive
open RegistrarReads RegistrarHistory RegistrarReconciler RegistrarStateReads

/-! ## Histories of tokens -/

/-- A history of MPTokens, of which those of the issuance stay of it while they live
    and name their account. -/
structure TokenRecord (mptIssuanceId : String) extends
    History "MPToken" (fun _ _ _ => True) where
  issuance : toHistory.Keeps (fun f => f.mptokenIssuanceID = some mptIssuanceId)
  account : ∀ e ∈ entries, ∀ c ∈ changes e, c.2.shown.mptokenIssuanceID = some mptIssuanceId →
    ∃ a, c.2.shown.account = some a ∧ a ≠ ""

/-- The holder of a token of the issuance that is live after the ledger, with the
    amount and the flags the last transaction up to it left. -/
def TokenRecord.LiveAt {mptIssuanceId : String} (H : TokenRecord mptIssuanceId) (ledger : ℕ)
    (x : MptHolder) : Prop :=
  ∃ f, (H.upTo ledger).store x.mptokenIndex = some f
    ∧ f.mptokenIssuanceID = some mptIssuanceId ∧ f.account = some x.account
    ∧ x.mptAmount = f.mptAmount.getD "0" ∧ x.flags = f.flags.getD 0

/-- An archive that tracks the issuance and has the transactions of its tokens, each
    linked to a member. -/
structure TokenArchive (X : Xrpl) {mptIssuanceId : String} (H : TokenRecord mptIssuanceId) where
  db : Archive
  tracked : IssuanceRow
  named : mptIssuanceId ≠ ""
  registered : db.issuances.rows.find? (fun i => i.mptIssuanceId = some mptIssuanceId)
    = some tracked
  stored : ∀ t ∈ issuanceTransactions db tracked.id,
    ∃ e ∈ H.entries, decodeMetaEntry X t = some e
  complete : ∀ e ∈ H.entries,
    (∃ c ∈ H.changes e, c.2.shown.mptokenIssuanceID = some mptIssuanceId) →
    ∃ t ∈ issuanceTransactions db tracked.id, decodeMetaEntry X t = some e

/-! ## The holders reconstructed -/

/-- The holder of a live token, as it is listed. -/
def listedHolder (o : ObjectState) (account : String) : MptHolder where
  account := account
  mptAmount := o.fields.mptAmount.getD "0"
  flags := o.fields.flags.getD 0
  mptokenIndex := o.objectId

/-- The holder an object is listed for, if it is. -/
def holderOf (o : ObjectState) : Option MptHolder :=
  if o.deleted then none
  else (o.fields.account.filter (fun a => decide (a ≠ ""))).map (listedHolder o)

theorem holderOf_eq_some {o : ObjectState} {x : MptHolder} :
    holderOf o = some x ↔ o.deleted = false ∧ o.fields.account = some x.account
      ∧ x.account ≠ "" ∧ x = listedHolder o x.account := by
  unfold holderOf
  cases hdel : o.deleted with
  | true =>
      rw [if_pos rfl]
      exact iff_of_false (fun h => by cases h) (fun h => by cases h.1)
  | false =>
      rw [if_neg Bool.false_ne_true, Option.map_eq_some_iff]
      constructor
      · rintro ⟨account, haccount, rfl⟩
        obtain ⟨hsome, hne⟩ := Option.filter_eq_some_iff.mp haccount
        exact ⟨rfl, hsome, of_decide_eq_true hne, rfl⟩
      · rintro ⟨-, hsome, hne, hx⟩
        exact ⟨x.account, Option.filter_eq_some_iff.mpr ⟨hsome, decide_eq_true hne⟩, hx.symm⟩

/-- `toMptHolders` lists the live objects. -/
theorem toMptHolders_eq (entries : List MetaEntry) (mptIssuanceId : String) :
    toMptHolders entries mptIssuanceId
      = ((latestObjects entries (mpToken mptIssuanceId)).filterMap holderOf).insertionSort
        (fun a b => a.account ≤ b.account) := by
  unfold toMptHolders
  refine congrArg (List.insertionSort _) (List.filterMap_congr ?_)
  intro o _
  unfold holderOf
  cases hacc : o.fields.account with
  | none => rfl
  | some account =>
      by_cases hempty : account = ""
      · rw [hempty]
        rfl
      · simp only [if_neg hempty, Option.filter_some, decide_eq_true hempty, ne_eq]
        rfl

theorem mem_toMptHolders {entries : List MetaEntry} {mptIssuanceId : String} {x : MptHolder} :
    x ∈ toMptHolders entries mptIssuanceId ↔
      ∃ o ∈ latestObjects entries (mpToken mptIssuanceId), o.deleted = false
        ∧ o.fields.account = some x.account ∧ x.account ≠ "" ∧ x = listedHolder o x.account := by
  rw [toMptHolders_eq, List.mem_insertionSort, List.mem_filterMap]
  exact exists_congr fun o => and_congr_right fun _ => holderOf_eq_some

/-- A token is listed once. -/
theorem toMptHolders_nodup (entries : List MetaEntry) (mptIssuanceId : String) :
    ((toMptHolders entries mptIssuanceId).map (·.mptokenIndex)).Nodup := by
  rw [toMptHolders_eq]
  refine ((List.perm_insertionSort _ _).map _).nodup_iff.mpr ?_
  refine List.pairwise_map.mpr (List.pairwise_filterMap.mpr ?_)
  have hids : ((latestObjects entries (mpToken mptIssuanceId)).map
    ObjectState.objectId).Nodup := Table.nodup _
  refine (List.pairwise_map.mp hids).imp ?_
  intro o o' hne x hx y hy heq
  obtain ⟨-, -, -, hx⟩ := holderOf_eq_some.mp hx
  obtain ⟨-, -, -, hy⟩ := holderOf_eq_some.mp hy
  rw [hx, hy] at heq
  exact hne heq

section Pages

variable {X : Xrpl} {mptIssuanceId : String} {H : TokenRecord mptIssuanceId}

theorem TokenRecord.upTo_keeps (H : TokenRecord mptIssuanceId) (ledger : ℕ) :
    (H.upTo ledger).Keeps (fun f => f.mptokenIssuanceID = some mptIssuanceId) :=
  fun x hx => H.issuance x (History.log_upTo_subset hx)

/-- Decoded from the rows up to a ledger, in whatever order they come, the holders are
    those of the tokens live after it. -/
theorem TokenArchive.mem_holders (A : TokenArchive X H) (order : RowOrder) (ledger : ℕ) :
    ∃ entries, decodeMetaEntries X (order.arrange
        (rowsUpTo (issuanceTransactions A.db A.tracked.id) ledger)) = some entries
      ∧ ∀ x, x ∈ toMptHolders entries mptIssuanceId ↔ H.LiveAt ledger x := by
  have hperm := order.perm (rowsUpTo (issuanceTransactions A.db A.tracked.id) ledger)
  have hrow : ∀ t ∈ order.arrange (rowsUpTo (issuanceTransactions A.db A.tracked.id) ledger),
      t ∈ issuanceTransactions A.db A.tracked.id ∧ t.ledgerIndex ≤ ledger := by
    intro t ht
    obtain ⟨ht, hle⟩ := List.mem_filter.mp (hperm.subset ht)
    exact ⟨ht, Int.ofNat_le.mp (of_decide_eq_true hle)⟩
  obtain ⟨entries, hdecode, hmem⟩ := mapM_some (f := decodeMetaEntry X)
    (l := order.arrange (rowsUpTo (issuanceTransactions A.db A.tracked.id) ledger)) (by
      intro t ht
      obtain ⟨e, -, hd⟩ := A.stored t (hrow t ht).1
      exact ⟨e, hd⟩)
  refine ⟨entries, hdecode, fun x => ?_⟩
  have hsub : ∀ e ∈ entries, e ∈ (H.upTo ledger).entries := by
    intro e he
    obtain ⟨t, ht, hd⟩ := (hmem e).mp he
    obtain ⟨htr, hle⟩ := hrow t ht
    obtain ⟨e', he', hd'⟩ := A.stored t htr
    cases hd.symm.trans hd'
    exact History.mem_upTo.mpr ⟨he', (CompleteArchive.ledgerIndex_eq hd) ▸ hle⟩
  have hall : ∀ e ∈ (H.upTo ledger).entries,
      (∃ c ∈ (H.upTo ledger).changes e, c.2.shown.mptokenIssuanceID = some mptIssuanceId) →
      e ∈ entries := by
    intro e he hshows
    obtain ⟨heH, hle⟩ := History.mem_upTo.mp he
    obtain ⟨t, ht, hd⟩ := A.complete e heH hshows
    refine (hmem e).mpr ⟨t, hperm.symm.subset (List.mem_filter.mpr ⟨ht, ?_⟩), hd⟩
    rw [CompleteArchive.ledgerIndex_eq hd] at hle
    exact decide_eq_true (Int.ofNat_le.mpr hle)
  have hkeeps := H.upTo_keeps ledger
  have hlive := fun {k : String} {f : Fields}
      (hf : f.mptokenIssuanceID = some mptIssuanceId) =>
    (H.upTo ledger).latestObjects_live (by decide) (P := fun f => f.mptokenIssuanceID
      = some mptIssuanceId) hkeeps hkeeps (fun _ h => h) hsub hall (k := k) hf
  rw [mem_toMptHolders]
  constructor
  · rintro ⟨o, ho, hdel, hacc, -, hx⟩
    obtain ⟨e, he, c, hc, hid, rfl, -⟩ := ((H.upTo ledger).mem_latestObjects (by decide) hsub
      (P := fun f => f.mptokenIssuanceID = some mptIssuanceId)).mp ho
    have hindex : x.mptokenIndex = (History.observed "MPToken" e c).objectId :=
      congrArg MptHolder.mptokenIndex hx
    refine ⟨(History.observed "MPToken" e c).fields, ?_, hid, hacc,
      congrArg MptHolder.mptAmount hx, congrArg MptHolder.flags hx⟩
    rw [hindex]
    exact (hlive hid).mp ⟨_, ho, hdel, rfl, rfl⟩
  · rintro ⟨f, hstore, hid, hacc, hamount, hflags⟩
    obtain ⟨o, ho, hdel, hindex, rfl⟩ := (hlive hid).mpr hstore
    refine ⟨o, ho, hdel, hacc, ?_, ?_⟩
    · obtain ⟨e, he, c, hc, hid, rfl, -⟩ := ((H.upTo ledger).mem_latestObjects (by decide) hsub
        (P := fun f => f.mptokenIssuanceID = some mptIssuanceId)).mp ho
      obtain ⟨a, ha, hne⟩ := H.account e (History.mem_upTo.mp (hsub e he)).1 c hc hid
      exact Option.some.inj (ha.symm.trans hacc) ▸ hne
    · cases x
      simp only at hindex hamount hflags
      rw [hamount, hflags, ← hindex]
      rfl

/-! ## The pages -/

theorem empty_lt {s : String} (h : s ≠ "") : "" < s := by
  rw [String.lt_iff_toList_lt]
  cases hs : s.toList with
  | nil => exact absurd (String.toList_eq_nil_iff.mp hs) h
  | cons c cs => exact List.Lex.nil

/-- One page of a listing without repetition is the first rows past the marker. -/
theorem holdersPage_eq {all : List MptHolder} (hnodup : (all.map (·.mptokenIndex)).Nodup)
    (hne : ∀ x ∈ all, x.mptokenIndex ≠ "") {limit : ℚ} (hlimit : 1 ≤ limit)
    (past : Option String) :
    ∃ rows, holdersPage all limit past = page MptHolder.mptokenIndex ⌊limit⌋.toNat rows
      ∧ rows.Pairwise (fun a b => a.mptokenIndex < b.mptokenIndex)
      ∧ ∀ x, x ∈ rows ↔ x ∈ all ∧ ∀ k, past = some k → k < x.mptokenIndex := by
  have hsorted : (all.insertionSort
      (fun a b : MptHolder => a.mptokenIndex ≤ b.mptokenIndex)).Pairwise
        (fun a b => a.mptokenIndex < b.mptokenIndex) := by
    have hle : (all.insertionSort
        (fun a b : MptHolder => a.mptokenIndex ≤ b.mptokenIndex)).Pairwise
          (fun a b => a.mptokenIndex ≤ b.mptokenIndex) := List.pairwise_insertionSort _ _
    have hdistinct := ((List.perm_insertionSort
      (fun a b : MptHolder => a.mptokenIndex ≤ b.mptokenIndex) all).map
        (·.mptokenIndex)).nodup_iff.mpr hnodup
    exact (hle.and (List.pairwise_map.mp hdistinct)).imp fun h => lt_of_le_of_ne h.1 h.2
  have hcut : ∀ rows : List MptHolder,
      (rows.take ⌊limit⌋.toNat, if (rows.length : ℚ) > limit then
          (rows.take ⌊limit⌋.toNat).getLast?.map (·.mptokenIndex) else none)
        = page MptHolder.mptokenIndex ⌊limit⌋.toNat rows := by
    intro rows
    have hiff : (rows.length : ℚ) > limit ↔ ⌊limit⌋.toNat < rows.length := by
      have hfloor : ⌊limit⌋ < (rows.length : ℤ) ↔ limit < (rows.length : ℚ) := by
        rw [Int.floor_lt, Int.cast_natCast]
      have hpos : 1 ≤ ⌊limit⌋ := Int.le_floor.mpr (by exact_mod_cast hlimit)
      rw [gt_iff_lt, ← hfloor]
      omega
    unfold page
    rw [if_congr hiff rfl rfl]
  cases hpast : past.filter (fun s => decide (s ≠ "")) with
  | none =>
      refine ⟨_, ?_, hsorted, ?_⟩
      · unfold holdersPage
        rw [hpast]
        exact hcut _
      · intro x
        rw [List.mem_insertionSort]
        refine (and_iff_left_of_imp ?_).symm
        rintro hx k rfl
        -- an empty marker is taken for none, and comes before every token
        have hempty : k = "" := by
          by_contra hk
          rw [Option.filter_some, if_pos (decide_eq_true hk)] at hpast
          cases hpast
        rw [hempty]
        exact empty_lt (hne x hx)
  | some marker =>
      have hsome : past = some marker := (Option.filter_eq_some_iff.mp hpast).1
      refine ⟨_, ?_, hsorted.filter (fun h : MptHolder => marker < h.mptokenIndex), ?_⟩
      · unfold holdersPage
        rw [hpast]
        exact hcut _
      · intro x
        rw [List.mem_filter, List.mem_insertionSort, decide_eq_true_eq]
        refine and_congr_right fun _ => ⟨?_, fun h => h marker hsome⟩
        intro hlt k hk
        cases Option.some.inj (hsome.symm.trans hk)
        exact hlt

theorem one_le_pageLimit (limit : Option Number) : 1 ≤ pageLimit limit := by
  cases limit with
  | none => norm_num [pageLimit]
  | some n =>
      cases n with
      | finite q => exact le_max_left _ _
      | infinity => norm_num [pageLimit]
      | negInfinity => norm_num [pageLimit]

/-- The pages a client is answered that asks with a marker; each page is read in an order
    of its own. -/
def tokenPages (X : Xrpl) (orders : ℕ → RowOrder) (db : Archive) (req : StateRequest) (i : ℕ)
    (past : Option String) : List MptHolder × Option String :=
  match handleMptHolders X (orders i) db { req with marker := past } with
  | some (.ok a) => (a.mptokens, a.marker)
  | _ => ([], none)

variable {req : StateRequest} {ledger : ℕ}

/-- Every page is answered, and cut from the tokens live after the ledger. -/
theorem TokenArchive.answer (A : TokenArchive X H) (order : RowOrder)
    (hid : req.mptIssuanceId = some mptIssuanceId) (hledger : ledgerLimit req = some ledger)
    (past : Option String) :
    ∃ a rows, handleMptHolders X order A.db { req with marker := past } = some (.ok a)
      ∧ (a.mptokens, a.marker)
        = page MptHolder.mptokenIndex ⌊pageLimit req.limit⌋.toNat rows
      ∧ rows.Pairwise (fun a b => a.mptokenIndex < b.mptokenIndex)
      ∧ ∀ x, x ∈ rows ↔ H.LiveAt ledger x ∧ ∀ k, past = some k → k < x.mptokenIndex := by
  obtain ⟨entries, hdecode, hlive⟩ := A.mem_holders order ledger
  obtain ⟨rows, hpage, hsorted, hmem⟩ := holdersPage_eq (toMptHolders_nodup entries mptIssuanceId)
    (fun x hx => by
      obtain ⟨o, ho, -, -, -, hxo⟩ := mem_toMptHolders.mp hx
      rw [hxo]
      exact objectId_ne ho) (one_le_pageLimit req.limit) past
  have hfilter : req.mptIssuanceId.filter (fun s => decide (s ≠ "")) = some mptIssuanceId := by
    rw [hid]
    exact Option.filter_eq_some_iff.mpr ⟨rfl, decide_eq_true A.named⟩
  have hlimit : ledgerLimit { req with marker := past } = some (ledger : ℤ) := hledger
  refine ⟨{ mptIssuanceId
            ledgerIndex := if req.ledgerIndex.isSome then ledger else latestLedger A.db
            limit := pageLimit req.limit
            mptokens := (holdersPage (toMptHolders entries mptIssuanceId)
              (pageLimit req.limit) past).1
            marker := (holdersPage (toMptHolders entries mptIssuanceId)
              (pageLimit req.limit) past).2 }, rows, ?_, hpage, hsorted, fun x => ?_⟩
  · unfold handleMptHolders
    simp only [hfilter, A.registered, hlimit, Option.bind_some, hdecode, Option.map_some]
  · rw [hmem, hlive]

theorem tokenPages_eq {orders : ℕ → RowOrder} {db : Archive} {i : ℕ} {past : Option String}
    {a : MptHoldersAnswer}
    (h : handleMptHolders X (orders i) db { req with marker := past } = some (.ok a)) :
    tokenPages X orders db req i past = (a.mptokens, a.marker) := by
  unfold tokenPages
  rw [h]

theorem TokenArchive.serves (A : TokenArchive X H) (orders : ℕ → RowOrder)
    (hid : req.mptIssuanceId = some mptIssuanceId) (hledger : ledgerLimit req = some ledger) :
    Serves MptHolder.mptokenIndex ⌊pageLimit req.limit⌋.toNat
      (fun _ => {x | H.LiveAt ledger x}) (tokenPages X orders A.db req) where
  pos := by
    have hpos : 1 ≤ ⌊pageLimit req.limit⌋ :=
      Int.le_floor.mpr (by exact_mod_cast one_le_pageLimit req.limit)
    omega
  grows _ := subset_rfl
  answers i past _ := by
    obtain ⟨a, rows, ha, hpage, hsorted, hmem⟩ := A.answer (orders i) hid hledger past
    exact ⟨rows, (tokenPages_eq ha).trans hpage, hsorted, hmem⟩

/-- **EXACTLY THE LIVE TOKENS**: every page is answered, following the markers comes to
    an end, and what was answered by then is in the order of the tokens and has each
    token live after the ledger, as its last transaction left it, and no other. -/
theorem mpt_holders_pages (A : TokenArchive X H) (orders : ℕ → RowOrder)
    (hid : req.mptIssuanceId = some mptIssuanceId) (hledger : ledgerLimit req = some ledger) :
    (∀ i past, ∃ a, handleMptHolders X (orders i) A.db { req with marker := past }
        = some (.ok a) ∧ tokenPages X orders A.db req i past = (a.mptokens, a.marker))
      ∧ ∃ n, cursor (tokenPages X orders A.db req) n = none
        ∧ (pages (tokenPages X orders A.db req) n).Pairwise
          (fun x y => x.mptokenIndex < y.mptokenIndex)
        ∧ ∀ x, x ∈ pages (tokenPages X orders A.db req) n ↔ H.LiveAt ledger x := by
  have hserves := A.serves orders hid hledger
  refine ⟨fun i past => ?_, ?_⟩
  · obtain ⟨a, -, ha, -⟩ := A.answer (orders i) hid hledger past
    exact ⟨a, ha, tokenPages_eq ha⟩
  · obtain ⟨n, hend⟩ := hserves.terminates (m := 0) (fun _ _ => rfl)
    refine ⟨n, hend, hserves.sorted n, fun x => ⟨fun hx => ?_, hserves.complete hend⟩⟩
    obtain ⟨i, -, hi⟩ := List.mem_flatMap.mp hx
    exact hserves.sound hi

end Pages

/-! ## A token that is opted into and receives 100 -/

def heldToken (mptAmount : Option String) : Fields where
  account := some "rAlice"
  mptokenIssuanceID := some "MPT"
  mptAmount := mptAmount

def optedIn : Node where
  ledgerEntryType := some "MPToken"
  ledgerIndex := some "K"
  newFields := some (heldToken none)

def received : Node where
  ledgerEntryType := some "MPToken"
  ledgerIndex := some "K"
  finalFields := some (heldToken (some "100"))

def optInEntry : MetaEntry :=
  ⟨1, 0, { affectedNodes := some [some { createdNode := some optedIn }] }⟩

def receiveEntry : MetaEntry :=
  ⟨2, 0, { affectedNodes := some [some { modifiedNode := some received }] }⟩

def tokenRecord : TokenRecord "MPT" where
  entries := [optInEntry, receiveEntry]
  changes := fun e =>
    if e.ledgerIndex = 1 then [("K", Change.created (heldToken none))]
    else [("K", Change.modified (heldToken none) (heldToken (some "100")))]
  sorted := by decide
  reads := by
    intro e he
    rcases List.mem_pair.mp he with rfl | rfl
    · exact .shown (.created rfl rfl (by decide) rfl) .nil
    · exact .shown (.modified rfl rfl (by decide) rfl trivial) .nil
  distinct := by decide
  follows := ⟨rfl, by simp [Edit.apply, Change.after, Change.before], trivial⟩
  issuance := by
    intro x hx
    obtain ⟨e, he, c, hc, rfl⟩ := mem_logOf.mp hx
    rcases List.mem_pair.mp he with rfl | rfl
    · cases List.mem_singleton.mp hc
      trivial
    · cases List.mem_singleton.mp hc
      exact Iff.rfl
  account := by
    intro e he c hc _
    rcases List.mem_pair.mp he with rfl | rfl
    · cases List.mem_singleton.mp hc
      exact ⟨"rAlice", rfl, by decide⟩
    · cases List.mem_singleton.mp hc
      exact ⟨"rAlice", rfl, by decide⟩

def tokenXrpl : Xrpl where
  decodeMeta blob := some (if blob = "optIn" then optInEntry.metadata else receiveEntry.metadata)
  decodeTxType _ := some (some "Payment")
  hashSignedTx := id
  encodeAccountID _ := some "rIssuer"

def tokenTransaction (hash : String) (ledgerIndex : ℕ) (txType metaBlob : String) :
    TransactionRow :=
  ⟨hash, ledgerIndex, txType, hash, metaBlob, ⟨"clio", "now"⟩, none, none, none⟩

def tokenArchive : TokenArchive tokenXrpl tokenRecord where
  db :=
    { issuances := Table.empty.insertIgnore { id := 1, kind := .mpt, mptIssuanceId := some "MPT" }
      accounts := Table.empty.insertIgnore ⟨"rAlice", some 1⟩
      accountIssuance := Table.empty.insertIgnore ⟨"rAlice", 1, "issuer_sweep", some 1⟩
      transactions := (Table.empty.insertIgnore
          (tokenTransaction "A" 1 "MPTokenAuthorize" "optIn")).insertIgnore
        (tokenTransaction "B" 2 "Payment" "receive")
      accountTransactions := (Table.empty.insertIgnore ⟨"A", "rAlice"⟩).insertIgnore
        ⟨"B", "rAlice"⟩ }
  tracked := { id := 1, kind := .mpt, mptIssuanceId := some "MPT" }
  named := by decide
  registered := by decide
  stored := by decide
  complete := by
    intro e he _
    rcases List.mem_pair.mp he with rfl | rfl
    · exact ⟨tokenTransaction "A" 1 "MPTokenAuthorize" "optIn", by decide, rfl⟩
    · exact ⟨tokenTransaction "B" 2 "Payment" "receive", by decide, rfl⟩

/-- Asked for pages of one and a half holders. -/
def tokenRequest : StateRequest where
  mptIssuanceId := some "MPT"
  ledgerIndex := some (.finite 2)
  limit := some (.finite (3 / 2))

theorem mpt_holders_pages_received : ∃ n,
    cursor (tokenPages tokenXrpl (fun _ => storedOrder) tokenArchive.db tokenRequest) n = none
      ∧ ⟨"rAlice", "100", 0, "K"⟩ ∈ pages (tokenPages tokenXrpl (fun _ => storedOrder)
        tokenArchive.db tokenRequest) n := by
  obtain ⟨-, n, hend, -, hlive⟩ := mpt_holders_pages tokenArchive (fun _ => storedOrder)
    (rfl : tokenRequest.mptIssuanceId = some "MPT")
    (rfl : ledgerLimit tokenRequest = some ((2 : ℕ) : ℤ))
  refine ⟨n, hend, (hlive _).mpr ⟨heldToken (some "100"), ?_, rfl, rfl, rfl, rfl⟩⟩
  decide

end RegistrarHolders
