import Registrar.Reconciler

/-! # MPT balances: summed deltas against MPTokens

    `archive_balance_at` sums what `mptDeltas` takes from each transaction, and
    `mpt_holders` reads the newest state of each `MPToken`.  The first takes an
    absent `PreviousFields.MPTAmount` for zero, also where the amount did not
    change, and reads a deleted node without its `PreviousFields`;
    `sum_mptDeltas` says by how much that is off, and `mpt_balances_agree_iff`
    when the two paths agree. -/

namespace RegistrarMpt

open KeyedTable ObjectLog Statements RegistrarMetadata RegistrarArchive
open RegistrarReads RegistrarHistory RegistrarReconciler

/-! ## MPTokens -/

/-- The old value of a field that was present and changed. -/
def previousValue {α : Type} [DecidableEq α] (old new : Option α) : Option α :=
  if old = new then none else old

/-- The old values of exactly the fields that were present and changed. -/
def previousOf (old new : Fields) : Fields where
  account := previousValue old.account new.account
  mptokenIssuanceID := previousValue old.mptokenIssuanceID new.mptokenIssuanceID
  mptAmount := previousValue old.mptAmount new.mptAmount
  flags := previousValue old.flags new.flags
  balance := previousValue old.balance new.balance
  lowLimit := previousValue old.lowLimit new.lowLimit
  highLimit := previousValue old.highLimit new.highLimit
  others := old.others.filter (fun field => field ∉ new.others)

/-- `PreviousFields` is what `previousOf` says; it may be absent when that is
    nothing. -/
def RecordsExactly (old new : Fields) (previous : Option Fields) : Prop :=
  previous.getD {} = previousOf old new

/-- The holder of a token of the issuance. -/
def tokenHolder (mptIssuanceId : String) (f : Fields) : Option String :=
  if f.mptokenIssuanceID = some mptIssuanceId then
    f.account.filter (fun a => decide (a ≠ ""))
  else none

/-- The amount of a token. -/
def tokenValue (f : Fields) : ℤ := amount f.mptAmount

/-- What a token is worth to the holder, zero when it is not the holder's. -/
def tokenBalance (mptIssuanceId h : String) : Fields → ℤ :=
  History.heldBy (tokenHolder mptIssuanceId) tokenValue h

/-- A history of MPTokens: a token keeps its issuance and its account while it
    lives, and an account has at most one token of the issuance at a time. -/
structure TokenHistory (mptIssuanceId : String) extends
    History "MPToken" RecordsExactly where
  identity : ∀ token, toHistory.Keeps (fun f => (f.mptokenIssuanceID, f.account) = token)
  oneToken : ∀ ledger, (toHistory.upTo ledger).OneEach (tokenHolder mptIssuanceId)

variable {mptIssuanceId : String}

/-- The deltas of a transaction, as account and number. -/
def tokenDeltas (mptIssuanceId : String) (m : Meta) : List (String × ℤ) :=
  (mptDeltas m mptIssuanceId).map (fun d => (d.account, d.delta))

/-- The same as they are stored. -/
def storedDeltas (mptIssuanceId : String) (m : Meta) : List (String × ℚ) :=
  (mptDeltas m mptIssuanceId).map (fun d => (d.account, (d.delta : ℚ)))

/-- The integer sum of the holder's deltas up to a ledger. -/
def TokenHistory.deltaSum (H : TokenHistory mptIssuanceId) (h : String)
    (ledger : ℕ) : ℤ :=
  ((H.entriesUpTo ledger).map
    (fun e => deltaOf (tokenDeltas mptIssuanceId e.metadata) h)).sum

/-- The amount of the holder's token on the ledger, zero without one. -/
def TokenHistory.tokenAmount (H : TokenHistory mptIssuanceId) (h : String)
    (ledger : ℕ) : ℤ :=
  (H.upTo ledger).balanceOn (tokenHolder mptIssuanceId) tokenValue h

/-- The `mpt_amount` a list of holders has for an account, zero if it is not
    listed. -/
def mptAmountOf (holders : List MptHolder) (account : String) : ℤ :=
  amount ((holders.find? (fun x => x.account = account)).map (·.mptAmount))

/-- What `mptDeltas` reads that did not happen: a modification that leaves the
    amount as it was is read as a receipt of the whole of it, and of a deletion
    only the amount `FinalFields` still shows is read. -/
def misreadBy (mptIssuanceId h : String) : Change Fields → ℤ
  | .created _ => 0
  | .modified old new =>
      if old.mptAmount = new.mptAmount then tokenBalance mptIssuanceId h old else 0
  | .deleted old final =>
      tokenBalance mptIssuanceId h old - tokenBalance mptIssuanceId h final

/-- What the changes up to a ledger are misread by. -/
def TokenHistory.misread (H : TokenHistory mptIssuanceId) (h : String)
    (ledger : ℕ) : ℤ :=
  ((H.upTo ledger).log.map (fun x => misreadBy mptIssuanceId h x.change)).sum

/-- The transaction shows a token of the holder. -/
def TokenHistory.touches (H : TokenHistory mptIssuanceId) (e : MetaEntry)
    (h : String) : Prop :=
  ∃ c ∈ H.changes e, tokenHolder mptIssuanceId c.2.shown = some h

/-! ## The reconstruction is the ledger -/

theorem tokenHolder_of_identity {f f' : Fields}
    (h : (f.mptokenIssuanceID, f.account) = (f'.mptokenIssuanceID, f'.account)) :
    tokenHolder mptIssuanceId f = tokenHolder mptIssuanceId f' := by
  obtain ⟨hid, hacc⟩ := Prod.ext_iff.mp h
  unfold tokenHolder
  rw [show f.mptokenIssuanceID = f'.mptokenIssuanceID from hid,
    show f.account = f'.account from hacc]

theorem issuanceID_of_holder {f : Fields} {h : String}
    (hf : tokenHolder mptIssuanceId f = some h) :
    f.mptokenIssuanceID = some mptIssuanceId := by
  by_contra hne
  rw [tokenHolder, if_neg hne] at hf
  exact nomatch hf

theorem TokenHistory.identity_of_mem (H : TokenHistory mptIssuanceId) {e : MetaEntry}
    (he : e ∈ H.entries) {c : String × Change Fields} (hc : c ∈ H.changes e) :
    ∀ token, c.2.Keeps (fun f => (f.mptokenIssuanceID, f.account) = token) :=
  fun token => H.identity token _ (mem_logOf.mpr ⟨e, he, c, hc, rfl⟩)

theorem TokenHistory.keeps (H : TokenHistory mptIssuanceId) {P : Fields → Prop}
    (hP : ∀ f f', (f.mptokenIssuanceID, f.account) = (f'.mptokenIssuanceID, f'.account) →
      (P f ↔ P f')) : H.Keeps P :=
  fun x hx => Change.keeps_of_feature hP (fun token => H.identity token x hx)

/-- An omitted amount is shown as `"0"`, which is the same number. -/
theorem amount_getD (value : Option String) : amount (some (value.getD "0")) = amount value := by
  cases value with
  | none => decide
  | some s => rfl

/-- A listed holder as an entry of a balance map. -/
def holderBalanceOf (x : MptHolder) : AccountBalance ℤ := ⟨x.account, amount (some x.mptAmount)⟩

/-- The holders `toMptHolders` lists are those of the live tokens. -/
theorem mem_toMptHolders {stored : List MetaEntry} {b : AccountBalance ℤ} :
    b ∈ (toMptHolders stored mptIssuanceId).map holderBalanceOf ↔
      ∃ o ∈ latestObjects stored (fun type fields =>
          decide (type = "MPToken" ∧ fields.mptokenIssuanceID = some mptIssuanceId)),
        o.deleted = false ∧ (o.fields.account.filter (fun a => decide (a ≠ ""))) = some b.account
          ∧ b.balance = tokenValue o.fields := by
  unfold toMptHolders
  rw [List.mem_map]
  constructor
  · rintro ⟨x, hx, rfl⟩
    obtain ⟨o, ho, hox⟩ := List.mem_filterMap.mp ((List.mem_insertionSort _).mp hx)
    refine ⟨o, ho, ?_⟩
    cases hdel : o.deleted with
    | true => simp [hdel] at hox
    | false =>
        cases hacc : o.fields.account with
        | none => simp [hdel, hacc] at hox
        | some a =>
            by_cases ha : a = ""
            · simp [hdel, hacc, ha] at hox
            · simp only [hdel, hacc, ha] at hox
              cases hox
              exact ⟨rfl, by simp [Option.filter, ha, holderBalanceOf],
                amount_getD o.fields.mptAmount⟩
  · rintro ⟨o, ho, hdel, hacc, hbal⟩
    obtain ⟨hacc, hne⟩ := Option.filter_eq_some_iff.mp hacc
    have hne : b.account ≠ "" := of_decide_eq_true hne
    refine ⟨⟨b.account, o.fields.mptAmount.getD "0", o.fields.flags.getD 0, o.objectId⟩,
      (List.mem_insertionSort _).mpr (List.mem_filterMap.mpr ⟨o, ho, ?_⟩), ?_⟩
    · simp [hdel, hacc, hne]
    · cases b
      cases hbal
      exact congrArg (AccountBalance.mk _) (amount_getD o.fields.mptAmount)

/-- Whatever part of the history up to a ledger is archived, if it has the
    transactions that show the holder's token then the reconstructed amount is
    the one of the ledger. -/
theorem live_tokens (H : TokenHistory mptIssuanceId) (h : String) (ledger : ℕ)
    {stored : List MetaEntry} (hsub : ∀ e ∈ stored, e ∈ (H.upTo ledger).entries)
    (hall : ∀ e ∈ (H.upTo ledger).entries, H.touches e h → e ∈ stored) :
    (∀ b ∈ (toMptHolders stored mptIssuanceId).map holderBalanceOf,
        b.account = h → b.balance = H.tokenAmount h ledger)
      ∧ ((∀ b ∈ (toMptHolders stored mptIssuanceId).map holderBalanceOf,
        b.account ≠ h) → H.tokenAmount h ledger = 0) := by
  have hkeeps : ∀ {P : Fields → Prop}, H.Keeps P → (H.upTo ledger).Keeps P :=
    fun hP x hx => hP x (History.log_upTo_subset hx)
  refine (H.upTo ledger).live_balances (by decide)
    (P := fun f => f.mptokenIssuanceID = some mptIssuanceId) (hkeeps (H.keeps ?_))
    (hkeeps (H.keeps ?_)) (fun f => issuanceID_of_holder) (H.oneToken ledger)
    hsub hall ?_
  · intro f f' heq
    rw [show f.mptokenIssuanceID = f'.mptokenIssuanceID from congrArg Prod.fst heq]
  · intro f f' heq
    rw [tokenHolder_of_identity heq]
  · intro b
    rw [mem_toMptHolders]
    refine exists_congr fun o => and_congr_right fun ho => ?_
    obtain ⟨e, -, c, -, hid, rfl, -⟩ :=
      ((H.upTo ledger).mem_latestObjects (by decide) hsub
        (P := fun f => f.mptokenIssuanceID = some mptIssuanceId)).mp ho
    have hid : (History.observed "MPToken" e c).fields.mptokenIssuanceID
        = some mptIssuanceId := hid
    rw [tokenHolder, if_pos hid]

theorem mptAmountOf_eq (H : TokenHistory mptIssuanceId) (h : String) (ledger : ℕ)
    {stored : List MetaEntry} (hsub : ∀ e ∈ stored, e ∈ (H.upTo ledger).entries)
    (hall : ∀ e ∈ (H.upTo ledger).entries, H.touches e h → e ∈ stored) :
    mptAmountOf (toMptHolders stored mptIssuanceId) h = H.tokenAmount h ledger := by
  obtain ⟨hmem, hnone⟩ := live_tokens H h ledger hsub hall
  unfold mptAmountOf
  cases hf : (toMptHolders stored mptIssuanceId).find? (fun x => x.account = h) with
  | some x =>
      have hx := List.mem_of_find?_eq_some hf
      have hacc : x.account = h := by simpa using List.find?_some hf
      exact hmem (holderBalanceOf x) (List.mem_map_of_mem hx) hacc
  | none =>
      refine (hnone ?_).symm
      intro b hb hk
      obtain ⟨x, hx, rfl⟩ := List.mem_map.mp hb
      exact List.find?_eq_none.mp hf x hx (decide_eq_true hk)

/-! ## What the deltas add up to -/

/-- What `mptDeltas` takes from a node, as account and number. -/
def tokenDelta (mptIssuanceId : String) (w : AffectedNode) : Option (String × ℤ) :=
  (mptNodeDelta mptIssuanceId w).map (fun d => (d.account, d.delta))

/-- A nonzero change of the token is reported to its holder. -/
theorem share_token (h account : String) (change : ℤ) :
    share h ((if change = 0 then none else some (⟨account, change⟩ : AccountDelta)).map
        (fun d => (d.account, d.delta)))
      = if account = h then change else 0 := by
  rw [← share_change h account change]
  by_cases hzero : change = 0
  · rw [if_pos hzero, if_pos hzero]
    rfl
  · rw [if_neg hzero, if_neg hzero]
    rfl

theorem tokenBalance_eq (f : Fields) (h : String) :
    tokenBalance mptIssuanceId h f
      = if tokenHolder mptIssuanceId f = some h then tokenValue f else 0 := rfl

/-- The amounts before and after a node's transaction, as `mptDeltas` reads
    them. -/
def readChange (w : AffectedNode) (node : Node) (fields : Fields) : ℤ :=
  if w.createdNode.isSome then amount fields.mptAmount
  else if w.modifiedNode.isSome then
    amount fields.mptAmount - amount (node.previousFields.bind (·.mptAmount))
  else -amount fields.mptAmount

/-- What `mptDeltas` takes from a token's node. -/
theorem share_tokenDelta {w : AffectedNode} {node : Node} {fields : Fields}
    (hw : w.node = some node) (ht : node.ledgerEntryType = some "MPToken")
    (hf : node.fields = some fields) (h : String) :
    share h (tokenDelta mptIssuanceId w)
      = if tokenHolder mptIssuanceId fields = some h then readChange w node fields
        else 0 := by
  unfold tokenDelta mptNodeDelta
  by_cases hid : fields.mptokenIssuanceID = some mptIssuanceId
  · cases hacc : fields.account with
    | none => simp [hw, ht, hf, hid, hacc, tokenHolder, share]
    | some account =>
        by_cases hempty : account = ""
        · simp [hw, ht, hf, hid, hacc, hempty, tokenHolder, share]
        · have hholder : (tokenHolder mptIssuanceId fields = some h) ↔ account = h := by
            simp [tokenHolder, hid, hacc, Option.filter, hempty]
          rw [if_congr hholder rfl rfl, ← share_token]
          cases hc : w.createdNode with
          | some n => simp [hw, ht, hf, hid, hacc, hempty, hc, readChange]
          | none =>
              cases hm : w.modifiedNode with
              | some n => simp [hw, ht, hf, hid, hacc, hempty, hc, hm, readChange]
              | none => simp [hw, ht, hf, hid, hacc, hempty, hc, hm, readChange]
  · simp [hw, ht, hf, hid, tokenHolder, share]

theorem tokenDelta_other {w : AffectedNode}
    (hw : ∀ node, w.node = some node → node.ledgerEntryType ≠ some "MPToken") :
    tokenDelta mptIssuanceId w = none := by
  unfold tokenDelta mptNodeDelta
  cases hn : w.node with
  | none => simp
  | some node => simp [hw node hn]

/-- The delta `mptDeltas` takes from a node is what the change did to the
    holder's token, plus what it is misread by. -/
theorem share_shown {w : AffectedNode} {c : String × Change Fields}
    (hw : Shows "MPToken" RecordsExactly w c)
    (hid : ∀ token, c.2.Keeps (fun f => (f.mptokenIssuanceID, f.account) = token))
    (h : String) :
    share h (tokenDelta mptIssuanceId w)
      = c.2.gain (tokenBalance mptIssuanceId h) + misreadBy mptIssuanceId h c.2 := by
  cases hw with
  | @created id new node ht _ _ hfields =>
      rw [share_tokenDelta rfl ht hfields]
      show _ = tokenBalance mptIssuanceId h new - 0 + 0
      rw [sub_zero, add_zero]
      rfl
  | @modified id old new node ht _ _ hfields hrec =>
      have hsame : tokenHolder mptIssuanceId old = tokenHolder mptIssuanceId new :=
        tokenHolder_of_identity ((hid (new.mptokenIssuanceID, new.account)).mpr rfl)
      have hprev : node.previousFields.bind (·.mptAmount)
          = previousValue old.mptAmount new.mptAmount := by
        have hget : (node.previousFields.getD {}).mptAmount
            = previousValue old.mptAmount new.mptAmount :=
          congrArg Fields.mptAmount hrec
        rw [← hget]
        cases node.previousFields <;> rfl
      have hread : readChange { modifiedNode := some node } node new
          = amount new.mptAmount - amount (previousValue old.mptAmount new.mptAmount) := by
        rw [← hprev]
        rfl
      rw [share_tokenDelta rfl ht hfields, hread]
      show _ = tokenBalance mptIssuanceId h new - tokenBalance mptIssuanceId h old
        + (if old.mptAmount = new.mptAmount then tokenBalance mptIssuanceId h old else 0)
      rw [tokenBalance_eq, tokenBalance_eq, hsame]
      unfold previousValue tokenValue
      by_cases hholder : tokenHolder mptIssuanceId new = some h
      · rw [if_pos hholder, if_pos hholder, if_pos hholder]
        by_cases hamt : old.mptAmount = new.mptAmount
        · rw [if_pos hamt, if_pos hamt]
          show amount new.mptAmount - 0 = _
          ring
        · rw [if_neg hamt, if_neg hamt, add_zero]
      · rw [if_neg hholder, if_neg hholder, if_neg hholder, ite_self, sub_zero, add_zero]
  | @deleted id old final node ht _ _ hfields _ =>
      rw [share_tokenDelta rfl ht hfields]
      show _ = 0 - tokenBalance mptIssuanceId h old
        + (tokenBalance mptIssuanceId h old - tokenBalance mptIssuanceId h final)
      have hread : readChange { deletedNode := some node } node final
          = -amount final.mptAmount := rfl
      have hsum : (0 - tokenBalance mptIssuanceId h old
          + (tokenBalance mptIssuanceId h old - tokenBalance mptIssuanceId h final))
          = -tokenBalance mptIssuanceId h final := by ring
      rw [hread, hsum, tokenBalance_eq]
      unfold tokenValue
      by_cases hholder : tokenHolder mptIssuanceId final = some h
      · rw [if_pos hholder, if_pos hholder]
      · rw [if_neg hholder, if_neg hholder, neg_zero]

/-- The deltas of one transaction are what its changes did, plus what they are
    misread by. -/
theorem deltaOf_entry (H : TokenHistory mptIssuanceId) {e : MetaEntry}
    (he : e ∈ H.entries) (h : String) :
    deltaOf (tokenDeltas mptIssuanceId e.metadata) h
      = ((H.changes e).map (fun c => c.2.gain (tokenBalance mptIssuanceId h)
          + misreadBy mptIssuanceId h c.2)).sum := by
  unfold tokenDeltas mptDeltas
  rw [List.map_filterMap]
  refine (deltaOf_filterMap (tokenDelta mptIssuanceId) h _).trans ?_
  refine (H.reads e he).sum_map ?_ ?_
  · intro w hw
    rw [tokenDelta_other hw]
    rfl
  · intro w c hc hw
    exact share_shown hw (H.identity_of_mem he hc) h

/-- **WHAT SUMMED DELTAS ARE**: the amount of the holder's token plus whatever
    was misread on the way. -/
theorem sum_mptDeltas (H : TokenHistory mptIssuanceId) (h : String) (ledger : ℕ) :
    H.deltaSum h ledger = H.tokenAmount h ledger + H.misread h ledger := by
  refine (H.upTo ledger).sum_reported ?_
  intro e he
  exact deltaOf_entry H (History.mem_upTo.mp he).1 h

/-- A transaction that does not show the holder's token has no delta of it. -/
theorem deltaOf_eq_zero (H : TokenHistory mptIssuanceId) {e : MetaEntry}
    (he : e ∈ H.entries) {h : String} (hno : ¬ H.touches e h) :
    deltaOf (tokenDeltas mptIssuanceId e.metadata) h = 0 := by
  rw [deltaOf_entry H he]
  refine List.sum_eq_zero ?_
  intro x hx
  obtain ⟨c, hc, rfl⟩ := List.mem_map.mp hx
  have hzero : ∀ f, (f.mptokenIssuanceID, f.account)
      = (c.2.shown.mptokenIssuanceID, c.2.shown.account) →
      tokenBalance mptIssuanceId h f = 0 := by
    intro f hf
    refine if_neg ?_
    rw [tokenHolder_of_identity hf]
    exact fun hholder => hno ⟨c, hc, hholder⟩
  have hsame := H.identity_of_mem he hc (c.2.shown.mptokenIssuanceID, c.2.shown.account)
  cases hcc : c.2 with
  | created new =>
      rw [hcc] at hzero
      simp [Change.gain, Change.after, Change.before, misreadBy, hzero new rfl]
  | modified old new =>
      rw [hcc] at hzero hsame
      simp [Change.gain, Change.after, Change.before, misreadBy, hzero new rfl,
        hzero old (hsame.mpr rfl)]
  | deleted old final =>
      rw [hcc] at hzero hsame
      simp [Change.gain, Change.after, Change.before, misreadBy, hzero final rfl,
        hzero old (hsame.mpr rfl)]

/-! ## The archive of a history -/

/-- Stored deltas are the derived ones, as decimals. -/
theorem deltaOf_stored (m : Meta) (h : String) :
    deltaOf (storedDeltas mptIssuanceId m) h
      = ((deltaOf (tokenDeltas mptIssuanceId m) h : ℤ) : ℚ) := by
  have hmap : storedDeltas mptIssuanceId m = (tokenDeltas mptIssuanceId m).map
      (fun d => (d.1, Int.castAddHom ℚ d.2)) := by
    unfold storedDeltas tokenDeltas
    rw [List.map_map]
    rfl
  rw [hmap]
  exact deltaOf_map (Int.castAddHom ℚ) _ h

section Archived

variable {X : Xrpl} {issuanceId : ℕ} {H : TokenHistory mptIssuanceId}

/-- A complete archive of the token history. -/
abbrev TokenArchive (X : Xrpl) (issuanceId : ℕ) (H : TokenHistory mptIssuanceId) :=
  CompleteArchive X issuanceId H.toHistory H.touches (storedDeltas mptIssuanceId)

theorem stored_eq_zero {e : MetaEntry} (he : e ∈ H.entries) {h : String}
    (hno : ¬ H.touches e h) : deltaOf (storedDeltas mptIssuanceId e.metadata) h = 0 := by
  rw [deltaOf_stored, deltaOf_eq_zero H he hno, Int.cast_zero]

theorem sum_stored (h : String) (entries : List MetaEntry) :
    (entries.map (fun e => deltaOf (storedDeltas mptIssuanceId e.metadata) h)).sum
      = (((entries.map (fun e => deltaOf (tokenDeltas mptIssuanceId e.metadata) h)).sum
          : ℤ) : ℚ) := by
  induction entries with
  | nil => simp
  | cons e es ih =>
      rw [List.map_cons, List.map_cons, List.sum_cons, List.sum_cons, ih, deltaOf_stored,
        Int.cast_add]

theorem balanceAt_archive (A : TokenArchive X issuanceId H) {h : String}
    (hin : inIssuanceScope A.db issuanceId h) (ledger : ℕ) :
    balanceAt A.db issuanceId h ledger = (H.deltaSum h ledger : ℤ) := by
  rw [A.balanceAt_eq hin (fun _ he hno => stored_eq_zero he hno)]
  exact sum_stored h _

/-- The holders the archive answers at a ledger have what the ledger has. -/
theorem mptHolders_archive (A : TokenArchive X issuanceId H) (ledger : ℕ) :
    ∃ holders, mptHolders X A.db issuanceId mptIssuanceId ledger = some holders
      ∧ ∀ h, inIssuanceScope A.db issuanceId h →
          mptAmountOf holders h = H.tokenAmount h ledger := by
  obtain ⟨entries, hdecode, hsub, hall⟩ := A.decode_issuance
  have hfilter := mapM_filter (p := fun t : TransactionRow => t.ledgerIndex ≤ ledger)
    (q := fun e : MetaEntry => e.ledgerIndex ≤ ledger)
    (fun t e hd => by rw [CompleteArchive.ledgerIndex_eq hd]) hdecode
  refine ⟨_, by unfold mptHolders decodeMetaEntries; rw [hfilter]; rfl, ?_⟩
  intro h hin
  refine mptAmountOf_eq H h ledger ?_ ?_
  · intro e he
    obtain ⟨he, hle⟩ := List.mem_filter.mp he
    exact History.mem_upTo.mpr ⟨hsub e he, of_decide_eq_true hle⟩
  · intro e he htouch
    obtain ⟨he, hle⟩ := History.mem_upTo.mp he
    exact List.mem_filter.mpr ⟨hall e he h hin htouch, decide_eq_true hle⟩

/-- The rows of the issuance carry integers. -/
theorem integral_rows (A : TokenArchive X issuanceId H) :
    ∀ r ∈ issuanceDeltaRows A.db issuanceId, ∃ n : ℤ, r.delta = n := by
  intro r hr
  obtain ⟨hr, hiss⟩ := List.mem_filter.mp hr
  obtain ⟨t, ht, hk⟩ := A.foreignKeys.balanceDeltas_hash r hr
  obtain ⟨e, he, hhash, -⟩ := A.stored t ht
  have hrow : (r.address, r.delta) ∈ (A.db.balanceDeltas.rows.filter
      (fun r => r.issuanceId = issuanceId ∧ r.hash = A.hash e)).map
        (fun r => (r.address, r.delta)) :=
    List.mem_map.mpr ⟨r, List.mem_filter.mpr ⟨hr, decide_eq_true
      ⟨of_decide_eq_true hiss, hk.symm.trans hhash⟩⟩, rfl⟩
  have hmem := (A.derived e he ⟨t, ht, hhash⟩).mem_iff.mp hrow
  obtain ⟨d, -, hd⟩ := List.mem_map.mp hmem
  exact ⟨d.delta, (congrArg Prod.snd hd).symm⟩

theorem amount_of_bigInt {s : String} {n : ℤ} (h : bigInt s = some n) :
    amount (some s) = n := by
  by_cases hs : s = ""
  · subst hs
    cases h
    decide
  · show (if s = "" then 0 else (bigInt s).getD 0) = n
    rw [if_neg hs, h]
    rfl

/-- Where every amount is a numeral, the map of reconstructed amounts is the
    ledger's. -/
theorem mptBalances_get (H : TokenHistory mptIssuanceId) (ledger : ℕ)
    {stored : List MetaEntry} (hsub : ∀ e ∈ stored, e ∈ (H.upTo ledger).entries)
    (hnum : ∀ x ∈ H.log, (bigInt (x.change.shown.mptAmount.getD "0")).isSome) :
    ∃ balances, mptBalances (toMptHolders stored mptIssuanceId) = some balances
      ∧ ∀ h, (∀ e ∈ (H.upTo ledger).entries, H.touches e h → e ∈ stored) →
          balances.get h = H.tokenAmount h ledger := by
  have hread : ∀ x ∈ toMptHolders stored mptIssuanceId, ∃ b,
      (bigInt x.mptAmount).map (fun n => (⟨x.account, n⟩ : AccountBalance ℤ)) = some b := by
    intro x hx
    obtain ⟨o, ho, hox⟩ := List.mem_filterMap.mp ((List.mem_insertionSort _).mp hx)
    obtain ⟨e, he, c, hc, -, rfl, -⟩ := ((H.upTo ledger).mem_latestObjects (by decide) hsub
      (P := fun f => f.mptokenIssuanceID = some mptIssuanceId)).mp ho
    have hlog : (⟨c.1, position e, c.2⟩ : Edit String Position Fields) ∈ H.log :=
      mem_logOf.mpr ⟨e, (History.mem_upTo.mp (hsub e he)).1, c, hc, rfl⟩
    obtain ⟨n, hn⟩ := Option.isSome_iff_exists.mp (hnum _ hlog)
    have hamt : x.mptAmount = c.2.shown.mptAmount.getD "0" := by
      cases hdel : (History.observed "MPToken" e c).deleted with
      | true => simp [hdel] at hox
      | false =>
          cases hacc : (History.observed "MPToken" e c).fields.account with
          | none => simp [hdel, hacc] at hox
          | some a =>
              by_cases ha : a = ""
              · simp [hdel, hacc, ha] at hox
              · simp only [hdel, hacc, ha] at hox
                cases hox
                rfl
    rw [hamt, hn]
    exact ⟨_, rfl⟩
  obtain ⟨bs, hbs, hmem⟩ := mapM_some hread
  refine ⟨bs.foldl Balances.set Table.empty, by unfold mptBalances; rw [hbs]; rfl, ?_⟩
  intro h hall
  obtain ⟨hlive, hnone⟩ := live_tokens H h ledger hsub hall
  refine Balances.get_foldl_set ?_ ?_
  · intro b hb hk
    obtain ⟨x, hx, hxb⟩ := (hmem b).mp hb
    obtain ⟨n, hn, rfl⟩ := Option.map_eq_some_iff.mp hxb
    have h := hlive (holderBalanceOf x) (List.mem_map_of_mem hx) hk
    rw [← h]
    exact (amount_of_bigInt hn).symm
  · intro hno
    refine hnone ?_
    intro b hb hk
    obtain ⟨x, hx, rfl⟩ := List.mem_map.mp hb
    obtain ⟨b, hb⟩ := hread x hx
    obtain ⟨n, -, rfl⟩ := Option.map_eq_some_iff.mp hb
    exact hno _ ((hmem _).mpr ⟨x, hx, hb⟩) hk

/-- The reconciler compares the two derivations over the whole history. -/
theorem runMpt_archive (A : TokenArchive X issuanceId H) {last : ℕ}
    (hlast : ∀ e ∈ H.entries, e.ledgerIndex ≤ last)
    (hnum : ∀ x ∈ H.log, (bigInt (x.change.shown.mptAmount.getD "0")).isSome) :
    ∃ db report, runMpt X A.db issuanceId mptIssuanceId = some (db, report)
      ∧ (report.discrepancies = [] ↔ ∀ h, inIssuanceScope A.db issuanceId h →
          H.deltaSum h last = H.tokenAmount h last) := by
  obtain ⟨entries, hdecode, hsub, hall⟩ := A.decode_issuance
  have hupTo : (H.upTo last).entries = H.entries :=
    List.filter_eq_self.mpr (fun e he => decide_eq_true (hlast e he))
  obtain ⟨derived, hder, hget⟩ := balanceByAccount_some (integral_rows A)
  have hsub : ∀ e ∈ entries, e ∈ (H.upTo last).entries := by
    rw [hupTo]
    exact hsub
  obtain ⟨reconstructed, hrec, hgetr⟩ := mptBalances_get H last hsub hnum
  have hderived : ∀ h, inIssuanceScope A.db issuanceId h →
      derived.get h = H.deltaSum h last := by
    intro h hin
    refine Rat.intCast_inj.mp ?_
    rw [hget h]
    unfold decimalBalanceByAccount TokenHistory.deltaSum
    rw [A.get_derived hin (fun _ he hno => stored_eq_zero he hno), sum_stored]
    exact congrArg (fun l => (((List.map _ l).sum : ℤ) : ℚ)) hupTo.symm
  have hreconstructed : ∀ h, inIssuanceScope A.db issuanceId h →
      reconstructed.get h = H.tokenAmount h last := by
    intro h hin
    refine hgetr h ?_
    rw [hupTo]
    exact fun e he htouch => hall e he h hin htouch
  unfold runMpt record
  rw [hder, hdecode, Option.bind_some, Option.bind_some, hrec, Option.bind_some,
    if_neg (not_not_intro A.registered)]
  refine ⟨_, _, rfl, ?_⟩
  unfold compareBalances
  rw [discrepanciesOf_members]
  refine forall_congr' fun h => forall_congr' fun hin => ?_
  rw [hderived h hin, hreconstructed h hin]

end Archived

/-- **WHEN MPT BALANCES AGREE**: the sum of a holder's deltas up to a ledger is
    the reconstructed amount exactly when what was misread of the holder's
    tokens adds up to nothing.  On a complete archive this decides what
    `archive_balance_at` answers against `mpt_holders`, and whether the
    reconciler reports a discrepancy. -/
theorem mpt_balances_agree_iff (H : TokenHistory mptIssuanceId) :
    (∀ h ledger, H.deltaSum h ledger
        = mptAmountOf (toMptHolders (H.entriesUpTo ledger) mptIssuanceId) h
      ↔ H.misread h ledger = 0)
    ∧ ∀ (X : Xrpl) (issuanceId : ℕ) (A : TokenArchive X issuanceId H),
        (∀ resolveTime req issuance answer, resolveIssuance A.db req = some issuance →
          issuance.id = issuanceId → handleBalanceAt A.db resolveTime req = .ok answer →
          ∃ holders,
            mptHolders X A.db issuanceId mptIssuanceId answer.ledgerIndex = some holders
            ∧ (answer.balance = (mptAmountOf holders answer.account : ℤ)
              ↔ H.misread answer.account answer.ledgerIndex = 0))
        ∧ ∀ last, (∀ e ∈ H.entries, e.ledgerIndex ≤ last) →
            (∀ x ∈ H.log, (bigInt (x.change.shown.mptAmount.getD "0")).isSome) →
            ∃ db report, runMpt X A.db issuanceId mptIssuanceId = some (db, report)
              ∧ (report.discrepancies = [] ↔
                  ∀ h, inIssuanceScope A.db issuanceId h → H.misread h last = 0) := by
  have hiff : ∀ h ledger, H.deltaSum h ledger = H.tokenAmount h ledger
      ↔ H.misread h ledger = 0 := by
    intro h ledger
    rw [sum_mptDeltas, add_eq_left]
  refine ⟨?_, ?_⟩
  · intro h ledger
    have hget : mptAmountOf (toMptHolders (H.entriesUpTo ledger) mptIssuanceId) h
        = H.tokenAmount h ledger :=
      mptAmountOf_eq H h ledger (fun _ he => he) (fun _ he _ => he)
    rw [hget]
    exact hiff h ledger
  · intro X issuanceId A
    refine ⟨?_, ?_⟩
    · intro resolveTime req issuance answer hiss hid hok
      obtain ⟨issuance', hiss', hin, hbal, -⟩ := handleBalanceAt_ok hok
      cases hiss.symm.trans hiss'
      subst hid
      obtain ⟨holders, hholders, hamount⟩ := mptHolders_archive A answer.ledgerIndex
      refine ⟨holders, hholders, ?_⟩
      rw [hbal, balanceAt_archive A hin, hamount _ hin, Rat.intCast_inj]
      exact hiff _ _
    · intro last hlast hnum
      obtain ⟨db, report, hrun, hdisc⟩ := runMpt_archive A hlast hnum
      refine ⟨db, report, hrun, hdisc.trans ?_⟩
      exact forall_congr' fun h => imp_congr Iff.rfl (hiff h last)

/-! ### A token that is locked -/

/-- The token of `rHolder`. -/
def token (mptAmount : Option String) (flags : ℕ) : Fields where
  account := some "rHolder"
  mptokenIssuanceID := some "MPT"
  mptAmount := mptAmount
  flags := some flags

def createdToken : Node where
  ledgerEntryType := some "MPToken"
  ledgerIndex := some "K"
  newFields := some (token none 0)

def receivedToken : Node where
  ledgerEntryType := some "MPToken"
  ledgerIndex := some "K"
  finalFields := some (token (some "100") 0)
  previousFields := some {}

/-- The issuer locks the token: only its flags change. -/
def lockedToken : Node where
  ledgerEntryType := some "MPToken"
  ledgerIndex := some "K"
  finalFields := some (token (some "100") 1)
  previousFields := some { flags := some 0 }

def optsIn : MetaEntry where
  ledgerIndex := 1
  transactionIndex := 0
  metadata := { affectedNodes := some [some { createdNode := some createdToken }] }

def receives : MetaEntry where
  ledgerIndex := 2
  transactionIndex := 0
  metadata := { affectedNodes := some [some { modifiedNode := some receivedToken }] }

def isLocked : MetaEntry where
  ledgerIndex := 3
  transactionIndex := 0
  metadata := { affectedNodes := some [some { modifiedNode := some lockedToken }] }

def lockedHistory : TokenHistory "MPT" where
  entries := [optsIn, receives, isLocked]
  changes := fun e =>
    if e.ledgerIndex = 1 then [("K", Change.created (token none 0))]
    else if e.ledgerIndex = 2 then
      [("K", Change.modified (token none 0) (token (some "100") 0))]
    else [("K", Change.modified (token (some "100") 0) (token (some "100") 1))]
  sorted := by decide
  reads := by
    intro e he
    rcases List.mem_cons.mp he with rfl | he
    · exact .shown (.created rfl rfl (by decide) rfl) .nil
    · rcases List.mem_pair.mp he with rfl | rfl
      · exact .shown (.modified rfl rfl (by decide) rfl (by unfold RecordsExactly; decide)) .nil
      · exact .shown (.modified rfl rfl (by decide) rfl (by unfold RecordsExactly; decide)) .nil
  distinct := by decide
  follows := ⟨rfl, by simp [Edit.apply, Change.after, Change.before],
    by simp [Edit.apply, Change.after, Change.before], trivial⟩
  identity := by
    intro t x hx
    obtain ⟨e, he, c, hc, rfl⟩ := mem_logOf.mp hx
    rcases List.mem_cons.mp he with rfl | he
    · cases List.mem_singleton.mp hc
      trivial
    · rcases List.mem_pair.mp he with rfl | rfl
      · cases List.mem_singleton.mp hc
        exact Iff.rfl
      · cases List.mem_singleton.mp hc
        exact Iff.rfl
  oneToken := by
    intro ledger
    refine History.oneEach_of_one_id "K" ?_ _
    intro x hx
    obtain ⟨e, he, c, hc, rfl⟩ := mem_logOf.mp (History.log_upTo_subset hx)
    rcases List.mem_cons.mp he with rfl | he
    · cases List.mem_singleton.mp hc
      rfl
    · rcases List.mem_pair.mp he with rfl | rfl
      · cases List.mem_singleton.mp hc
        rfl
      · cases List.mem_singleton.mp hc
        rfl

/-- The `xrpl` package on the three metadata blobs of `lockedHistory`. -/
def lockedXrpl : Xrpl where
  decodeMeta := fun blob =>
    if blob = "01" then some optsIn.metadata
    else if blob = "02" then some receives.metadata
    else if blob = "03" then some isLocked.metadata else none
  decodeTxType := fun _ => some none
  hashSignedTx := id
  encodeAccountID := fun _ => none

def storedTx (hash metaBlob : String) (ledgerIndex : ℕ) : TransactionRow where
  hash := hash
  ledgerIndex := ledgerIndex
  txType := "Payment"
  txBlob := "00"
  metaBlob := metaBlob
  provenance := ⟨"upstream", "now"⟩

def lockedArchive : TokenArchive lockedXrpl 1 lockedHistory where
  db :=
    { issuances :=
        ⟨[{ id := 1, kind := .mpt, mptIssuanceId := some "MPT", backfillFromLedger := 1 }],
          by decide⟩
      accounts := ⟨[⟨"rIssuer", none⟩, ⟨"rHolder", some 1⟩], by decide⟩
      accountIssuance := ⟨[⟨"rHolder", 1, "authorization", some 1⟩], by decide⟩
      transactions := ⟨[storedTx "T1" "01" 1, storedTx "T2" "02" 2, storedTx "T3" "03" 3],
        by decide⟩
      accountTransactions := ⟨[⟨"T1", "rHolder"⟩, ⟨"T2", "rHolder"⟩, ⟨"T3", "rHolder"⟩],
        by decide⟩
      balanceDeltas := ⟨[⟨"T2", "rHolder", 1, 100⟩, ⟨"T3", "rHolder", 1, 100⟩], by decide⟩ }
  registered := by decide
  foreignKeys := by decide
  hash := fun e =>
    if e.ledgerIndex = 1 then "T1" else if e.ledgerIndex = 2 then "T2" else "T3"
  hash_injective := by decide +kernel
  stored := by decide +kernel
  complete := by
    intro e he a ha _
    obtain ⟨ai, hai, hk⟩ := ha
    cases List.mem_singleton.mp hai
    cases hk
    rcases List.mem_cons.mp he with rfl | he
    · decide
    · rcases List.mem_pair.mp he with rfl | rfl <;> decide
  derived := by decide +kernel

/-- The lock is read as a receipt of the 100 the token held: the reconciler reports it. -/
theorem mpt_balances_agree_iff_locked : ∃ db report,
    runMpt lockedXrpl lockedArchive.db 1 "MPT" = some (db, report)
      ∧ report.discrepancies ≠ [] := by
  obtain ⟨db, report, hrun, hagree⟩ :=
    ((mpt_balances_agree_iff lockedHistory).2 lockedXrpl 1 lockedArchive).2 3
      (by decide) (by decide +kernel)
  refine ⟨db, report, hrun, fun hnone => ?_⟩
  exact absurd (hagree.mp hnone "rHolder" (by decide)) (by decide +kernel)

/-- Locking the token counts its 100 a second time. -/
theorem locked_token_counted_twice :
    lockedHistory.deltaSum "rHolder" 3 = 200
      ∧ mptAmountOf (toMptHolders (lockedHistory.entriesUpTo 3) "MPT") "rHolder" = 100 := by
  decide +kernel

end RegistrarMpt
