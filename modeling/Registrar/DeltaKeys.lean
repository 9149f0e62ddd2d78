import Registrar.CurrencyCodes
import Registrar.IngestSchedule

/-! # The keys of derived deltas

    The deltas of a transaction for one issuance go into one multi-row upsert,
    which fails when two of its rows have one key.  An affected node names a
    ledger object, and an object occurs in one node; but trust lines of one
    holder in several currencies are several objects, and where their codes are
    read as one, the deltas of the holder meet one key. -/

namespace RegistrarKeys

open KeyedTable Statements RegistrarMetadata RegistrarArchive RegistrarIngest
open RegistrarBackfill RegistrarStored RegistrarOrder RegistrarCurrency

/-! ## The objects of a transaction -/

/-- The 160 bits of a code, as one spelling of it. -/
def canonical (code : String) : String := if IsHex code then code.toUpper else code

/-- An `MPToken` by holder and issuance, a `RippleState` by its two parties and
    its currency. -/
inductive LedgerObject
  | token (account issuance : String)
  | line (parties : Sym2 String) (currency : String)
  deriving DecidableEq

/-- The object the fields of a node describe. -/
def fieldsObject (type : Option String) (fields : Fields) : Option LedgerObject :=
  if type = some "MPToken" then
    fields.account.bind fun account =>
      fields.mptokenIssuanceID.map fun issuance => .token account issuance
  else if type = some "RippleState" then
    (amountIssuer fields.lowLimit).bind fun low =>
      (amountIssuer fields.highLimit).bind fun high =>
        (fields.balance.bind (·.currency)).map fun code => .line s(low, high) (canonical code)
  else none

/-- The object an affected node names. -/
def objectOf (w : AffectedNode) : Option LedgerObject :=
  w.node.bind fun node => node.fields.bind (fieldsObject node.ledgerEntryType)

/-- Each ledger object appears in at most one affected node. -/
def WellFormed (m : Meta) : Prop := (m.nodes.filterMap objectOf).Nodup

instance (m : Meta) : Decidable (WellFormed m) :=
  inferInstanceAs (Decidable (List.Nodup _))

theorem wellFormed_iff {m : Meta} : WellFormed m ↔
    m.nodes.Pairwise (fun w w' => ∀ o, objectOf w = some o → ∀ o', objectOf w' = some o' →
      o ≠ o') :=
  List.pairwise_filterMap

/-! ## Changed lines -/

/-- The number a line's balance spells; an absent one is zero. -/
def lineBalance (fields : Fields) : ℚ := (fields.balance.bind (·.value)).getD 0

/-- The node changes the balance of its line. -/
def BalanceChanged (w : AffectedNode) (node : Node) (fields : Fields) : Prop :=
  if w.createdNode.isSome then lineBalance fields ≠ 0
  else if w.modifiedNode.isSome then
    ∃ prev ∈ node.previousFields, prev.balance.isSome ∧ lineBalance prev ≠ lineBalance fields
  else lineBalance fields ≠ 0

/-- The node changes the balance of a line between the two parties in the code. -/
def LineChange (w : AffectedNode) (issuer holder code : String) : Prop :=
  ∃ node ∈ w.node, node.ledgerEntryType = some "RippleState" ∧ ∃ fields ∈ node.fields,
    fields.balance.bind (·.currency) = some code
      ∧ ((amountIssuer fields.lowLimit = some issuer ∧ amountIssuer fields.highLimit = some holder)
        ∨ (amountIssuer fields.lowLimit = some holder
          ∧ amountIssuer fields.highLimit = some issuer))
      ∧ BalanceChanged w node fields

/-- A changed line is the object of its parties and its code. -/
theorem LineChange.object {w : AffectedNode} {issuer holder code : String}
    (h : LineChange w issuer holder code) :
    objectOf w = some (.line s(issuer, holder) (canonical code)) := by
  obtain ⟨node, hnode, htype, fields, hfields, hcode, hparties, -⟩ := h
  have hne : ¬ (some "RippleState" = some "MPToken") := by decide
  unfold objectOf fieldsObject
  rw [Option.mem_def.mp hnode, Option.bind_some, Option.mem_def.mp hfields, Option.bind_some,
    htype, if_neg hne, if_pos rfl, hcode]
  rcases hparties with ⟨hlow, hhigh⟩ | ⟨hlow, hhigh⟩
  · rw [hlow, hhigh]
    rfl
  · rw [hlow, hhigh, Sym2.eq_swap]
    rfl

/-- The holder of a line of the issuance is its other party. -/
theorem holderInfo_iff {fields : Fields} {issuer currency holder : String} :
    (∃ info, holderInfo fields issuer currency = some info ∧ info.holder = holder) ↔
      balanceCurrency fields = some currency
        ∧ ((amountIssuer fields.lowLimit = some issuer
            ∧ amountIssuer fields.highLimit = some holder)
          ∨ (amountIssuer fields.lowLimit = some holder
            ∧ amountIssuer fields.highLimit = some issuer)) := by
  unfold holderInfo
  by_cases hcurrency : balanceCurrency fields = some currency
  · rw [if_neg (not_not.mpr hcurrency)]
    cases hlow : amountIssuer fields.lowLimit with
    | none => simp
    | some low =>
        cases hhigh : amountIssuer fields.highLimit with
        | none => simp
        | some high =>
            show (∃ info, (if low = issuer then some (HolderInfo.mk high .minus)
              else if high = issuer then some (HolderInfo.mk low .plus) else none)
                = some info ∧ info.holder = holder) ↔ _
            by_cases hl : low = issuer
            · rw [if_pos hl]
              constructor
              · rintro ⟨info, hinfo, rfl⟩
                cases Option.some.inj hinfo
                exact ⟨hcurrency, Or.inl ⟨congrArg some hl, rfl⟩⟩
              · rintro ⟨-, ⟨-, hholder⟩ | ⟨hholder, hissuer⟩⟩
                · exact ⟨_, rfl, Option.some.inj hholder⟩
                · refine ⟨_, rfl, ?_⟩
                  rw [← Option.some.inj hholder, hl, ← Option.some.inj hissuer]
            · rw [if_neg hl]
              by_cases hh : high = issuer
              · rw [if_pos hh]
                constructor
                · rintro ⟨info, hinfo, rfl⟩
                  cases Option.some.inj hinfo
                  exact ⟨hcurrency, Or.inr ⟨rfl, congrArg some hh⟩⟩
                · rintro ⟨-, ⟨hissuer, -⟩ | ⟨hholder, -⟩⟩
                  · exact absurd (Option.some.inj hissuer) hl
                  · exact ⟨_, rfl, Option.some.inj hholder⟩
              · rw [if_neg hh]
                constructor
                · rintro ⟨info, hinfo, -⟩
                  cases hinfo
                · rintro ⟨-, ⟨hissuer, -⟩ | ⟨-, hissuer⟩⟩
                  · exact absurd (Option.some.inj hissuer) hl
                  · exact absurd (Option.some.inj hissuer) hh
  · simp [hcurrency]

/-- The sign of a side does not tell whether a balance changed. -/
theorem holderBalance_sub_eq_zero (fields prev : Fields) (sign : Sign) :
    holderBalance fields sign - holderBalance prev sign = 0 ↔
      lineBalance prev = lineBalance fields := by
  rw [sub_eq_zero]
  cases sign with
  | plus => exact eq_comm
  | minus => exact neg_inj.trans eq_comm

theorem holderBalance_eq_zero (fields : Fields) (sign : Sign) :
    holderBalance fields sign = 0 ↔ lineBalance fields = 0 := by
  cases sign with
  | plus => exact Iff.rfl
  | minus => exact neg_eq_zero

/-- A node of a line has a delta when it changes the balance. -/
theorem iouNodeDelta_iff {currency issuer holder : String} {w : AffectedNode} :
    (∃ d, iouNodeDelta currency issuer w = some d ∧ d.account = holder) ↔
      ∃ code, LineChange w issuer holder code ∧ currencyToString code = currency := by
  constructor
  · rintro ⟨d, hd, rfl⟩
    obtain ⟨node, fields, info, hnode, hfields, hinfo, haccount, htype⟩ := iouNodeDelta_holder hd
    obtain ⟨hcurrency, hparties⟩ := holderInfo_iff.mp ⟨info, hinfo, haccount.symm⟩
    obtain ⟨code, hcode, hread⟩ := Option.map_eq_some_iff.mp hcurrency
    refine ⟨code, ⟨node, hnode, htype, fields, hfields, hcode, hparties, ?_⟩, hread⟩
    have hkind : ¬ node.ledgerEntryType ≠ some "RippleState" := not_not.mpr htype
    simp only [iouNodeDelta, hnode, if_neg hkind, hfields, hinfo] at hd
    unfold BalanceChanged
    by_cases hcreated : w.createdNode.isSome
    · rw [if_pos hcreated]
      simp only [if_pos hcreated] at hd
      obtain ⟨hne, -⟩ := Option.ite_none_left_eq_some.mp hd
      rw [sub_zero, holderBalance_eq_zero] at hne
      exact hne
    · rw [if_neg hcreated]
      simp only [if_neg hcreated] at hd
      by_cases hmodified : w.modifiedNode.isSome
      · rw [if_pos hmodified]
        simp only [if_pos hmodified] at hd
        cases hprev : node.previousFields with
        | none =>
            simp only [hprev] at hd
            cases hd
        | some prev =>
            simp only [hprev] at hd
            by_cases hbalance : prev.balance.isNone
            · rw [if_pos hbalance] at hd
              cases hd
            · rw [if_neg hbalance] at hd
              obtain ⟨hne, -⟩ := Option.ite_none_left_eq_some.mp hd
              rw [holderBalance_sub_eq_zero] at hne
              refine ⟨prev, rfl, ?_, hne⟩
              rw [← Option.not_isNone]
              exact (Bool.not_eq_true' _).mpr (Bool.not_eq_true _ |>.mp hbalance)
      · rw [if_neg hmodified]
        simp only [if_neg hmodified] at hd
        obtain ⟨hne, -⟩ := Option.ite_none_left_eq_some.mp hd
        rw [zero_sub, neg_eq_zero, holderBalance_eq_zero] at hne
        exact hne
  · rintro ⟨code, ⟨node, hnode, htype, fields, hfields, hcode, hparties, hchanged⟩, hread⟩
    have hcurrency : balanceCurrency fields = some currency := by
      unfold balanceCurrency
      rw [hcode, Option.map_some, hread]
    obtain ⟨info, hinfo, rfl⟩ := holderInfo_iff.mpr ⟨hcurrency, hparties⟩
    have hkind : ¬ node.ledgerEntryType ≠ some "RippleState" := not_not.mpr htype
    have hnode : w.node = some node := hnode
    have hfields : node.fields = some fields := hfields
    simp only [iouNodeDelta, hnode, if_neg hkind, hfields, hinfo]
    unfold BalanceChanged at hchanged
    by_cases hcreated : w.createdNode.isSome
    · rw [if_pos hcreated] at hchanged
      simp only [if_pos hcreated]
      have hne : ¬ holderBalance fields info.sign - 0 = 0 := by
        rw [sub_zero, holderBalance_eq_zero]
        exact hchanged
      exact ⟨_, if_neg hne, rfl⟩
    · rw [if_neg hcreated] at hchanged
      simp only [if_neg hcreated]
      by_cases hmodified : w.modifiedNode.isSome
      · rw [if_pos hmodified] at hchanged
        simp only [if_pos hmodified]
        obtain ⟨prev, hprev, hbalance, hne⟩ := hchanged
        have hprev : node.previousFields = some prev := hprev
        have hsome : ¬ prev.balance.isNone = true := by
          rw [← Option.not_isSome, hbalance]
          exact Bool.false_ne_true
        have hdelta : ¬ holderBalance fields info.sign - holderBalance prev info.sign = 0 :=
          fun h => hne ((holderBalance_sub_eq_zero _ _ _).mp h)
        simp only [hprev, if_neg hsome]
        exact ⟨_, if_neg hdelta, rfl⟩
      · rw [if_neg hmodified] at hchanged
        simp only [if_neg hmodified]
        have hne : ¬ 0 - holderBalance fields info.sign = 0 := by
          rw [zero_sub, neg_eq_zero, holderBalance_eq_zero]
          exact hchanged
        exact ⟨_, if_neg hne, rfl⟩

/-! ## When two deltas have one key -/

/-- Two lines of one holder with the issuer, in different currencies whose codes
    are both read as the issuance's, change in the transaction. -/
def ConflatedChange (iss : TrackedIssuance) (m : Meta) : Prop :=
  iss.kind = .iou ∧ ∃ holder code code', canonical code ≠ canonical code'
    ∧ currencyToString code = iss.currency.getD ""
    ∧ currencyToString code' = iss.currency.getD ""
    ∧ (∃ w ∈ m.nodes, LineChange w (iss.issuer.getD "") holder code)
    ∧ ∃ w ∈ m.nodes, LineChange w (iss.issuer.getD "") holder code'

theorem mptNodeDelta_object {mptIssuanceId : String} {w : AffectedNode} {d : AccountDelta}
    (h : mptNodeDelta mptIssuanceId w = some d) :
    objectOf w = some (.token d.account mptIssuanceId) := by
  unfold mptNodeDelta at h
  cases hnode : w.node with
  | none =>
      simp only [hnode] at h
      cases h
  | some node =>
      simp only [hnode] at h
      obtain ⟨htype, h⟩ := Option.ite_none_left_eq_some.mp h
      cases hfields : node.fields with
      | none =>
          simp only [hfields] at h
          cases h
      | some fields =>
          simp only [hfields] at h
          obtain ⟨hid, h⟩ := Option.ite_none_left_eq_some.mp h
          cases haccount : fields.account with
          | none =>
              simp only [haccount] at h
              cases h
          | some account =>
              simp only [haccount] at h
              obtain ⟨-, h⟩ := Option.ite_none_left_eq_some.mp h
              obtain ⟨-, h⟩ := Option.ite_none_left_eq_some.mp h
              cases Option.some.inj h
              unfold objectOf fieldsObject
              rw [hnode, Option.bind_some, hfields, Option.bind_some, not_not.mp htype,
                if_pos rfl, haccount, not_not.mp hid]
              rfl

/-- An MPT issuance has one delta for an account. -/
theorem mptDeltas_nodup {m : Meta} (hm : WellFormed m) (mptIssuanceId : String) :
    ((mptDeltas m mptIssuanceId).map (·.account)).Nodup := by
  refine List.pairwise_map.mpr (List.pairwise_filterMap.mpr ?_)
  refine (wellFormed_iff.mp hm).imp ?_
  intro w w' hne d hd d' hd' haccount
  have hd : mptNodeDelta mptIssuanceId w = some d := hd
  have hd' : mptNodeDelta mptIssuanceId w' = some d' := hd'
  exact hne _ (mptNodeDelta_object hd) _ (mptNodeDelta_object hd') (by rw [haccount])

/-- A node of a changed line has one code. -/
theorem LineChange.code_eq {w : AffectedNode} {issuer holder holder' code code' : String}
    (h : LineChange w issuer holder code) (h' : LineChange w issuer holder' code') :
    code = code' := by
  obtain ⟨node, hnode, -, fields, hfields, hcode, -⟩ := h
  obtain ⟨node', hnode', -, fields', hfields', hcode', -⟩ := h'
  cases Option.some.inj (hnode.symm.trans hnode')
  cases Option.some.inj (hfields.symm.trans hfields')
  exact Option.some.inj (hcode.symm.trans hcode')

/-- An IOU issuance has one delta for an account where no change is conflated. -/
theorem iouDeltas_nodup_iff {m : Meta} (hm : WellFormed m) {iss : TrackedIssuance}
    (hkind : iss.kind = .iou) :
    ((iouDeltas m (iss.currency.getD "") (iss.issuer.getD "")).map (·.account)).Nodup ↔
      ¬ ConflatedChange iss m := by
  let clash (w w' : AffectedNode) : Prop :=
    ∃ d ∈ iouNodeDelta (iss.currency.getD "") (iss.issuer.getD "") w,
      ∃ d' ∈ iouNodeDelta (iss.currency.getD "") (iss.issuer.getD "") w', d.account = d'.account
  have hpairwise : ((iouDeltas m (iss.currency.getD "") (iss.issuer.getD "")).map
      (·.account)).Nodup ↔ m.nodes.Pairwise (fun w w' => ¬ clash w w') := by
    refine List.pairwise_map.trans (List.pairwise_filterMap.trans ?_)
    refine ⟨fun h => h.imp ?_, fun h => h.imp ?_⟩
    · rintro w w' hne ⟨d, hd, d', hd', haccount⟩
      exact hne d hd d' hd' haccount
    · intro w w' hno d hd d' hd' haccount
      exact hno ⟨d, hd, d', hd', haccount⟩
  rw [hpairwise]
  constructor
  · rintro hno ⟨-, holder, code, code', hne, hread, hread', ⟨w, hw, hl⟩, ⟨w', hw', hl'⟩⟩
    have : Std.Symm (fun w w' => ¬ clash w w') := by
      refine ⟨?_⟩
      rintro w w' hno ⟨d, hd, d', hd', haccount⟩
      exact hno ⟨d', hd', d, hd, haccount.symm⟩
    have hdistinct : w ≠ w' := by
      rintro rfl
      exact hne (congrArg canonical (hl.code_eq hl'))
    obtain ⟨d, hd, haccount⟩ := iouNodeDelta_iff.mpr ⟨code, hl, hread⟩
    obtain ⟨d', hd', haccount'⟩ := iouNodeDelta_iff.mpr ⟨code', hl', hread'⟩
    exact hno.forall hw hw' hdistinct
      ⟨d, hd, d', hd', haccount.trans haccount'.symm⟩
  · intro hno
    refine (wellFormed_iff.mp hm).imp_of_mem ?_
    rintro w w' hw hw' hobjects ⟨d, hd, d', hd', haccount⟩
    obtain ⟨code, hl, hread⟩ := iouNodeDelta_iff.mp ⟨d, hd, rfl⟩
    obtain ⟨code', hl', hread'⟩ := iouNodeDelta_iff.mp ⟨d', hd', haccount.symm⟩
    refine hno ⟨hkind, d.account, code, code', fun hcode => ?_, hread, hread', ⟨w, hw, hl⟩,
      ⟨w', hw', hl'⟩⟩
    exact hobjects _ hl.object _ hl'.object (by rw [hcode])

/-- The rows `deriveTxDeltasFromMeta` upserts for an issuance. -/
def derivedDeltas (iss : TrackedIssuance) (hash : String) (m : Meta) : List DeltaRow :=
  (issuanceDeltas iss m).map fun d => ⟨hash, d.1, d.2⟩

/-- **ONE DELTA OF AN ACCOUNT**, unless a change is conflated. -/
theorem issuanceDeltas_nodup_iff {m : Meta} (hm : WellFormed m) (iss : TrackedIssuance) :
    ((issuanceDeltas iss m).map Prod.fst).Nodup ↔ ¬ ConflatedChange iss m := by
  unfold issuanceDeltas
  cases hkind : iss.kind with
  | mpt =>
      have hnodup := mptDeltas_nodup hm (iss.mptIssuanceId.getD "")
      have hne : ¬ ConflatedChange iss m := by
        rintro ⟨hiou, -⟩
        rw [hkind] at hiou
        cases hiou
      show ((List.map _ _).map Prod.fst).Nodup ↔ _
      rw [List.map_map]
      exact ⟨fun _ => hne, fun _ => hnodup⟩
  | iou =>
      show ((List.map _ _).map Prod.fst).Nodup ↔ _
      rw [List.map_map]
      exact iouDeltas_nodup_iff hm hkind

theorem derivedDeltas_nodup_iff {m : Meta} (hm : WellFormed m) (iss : TrackedIssuance)
    (hash : String) :
    ((derivedDeltas iss hash m).map (fun r => (r.hash, r.address))).Nodup ↔
      ¬ ConflatedChange iss m := by
  rw [← issuanceDeltas_nodup_iff hm iss]
  have hmap : (derivedDeltas iss hash m).map (fun r => (r.hash, r.address))
      = ((issuanceDeltas iss m).map Prod.fst).map (fun a => (hash, a)) := by
    unfold derivedDeltas
    rw [List.map_map, List.map_map]
    rfl
  rw [hmap]
  exact List.nodup_map_iff (fun a b h => (Prod.mk.inj h).2)

/-! ## One statement or one row at a time -/

/-- `insertDelta`: upsert one delta. -/
def insertDelta (issuanceId : ℕ) (row : DeltaRow) (db : Archive) : Except DbError Archive :=
  insertDeltasMany issuanceId [row] db

/-- Upsert the rows one at a time. -/
def insertDeltas (issuanceId : ℕ) (rows : List DeltaRow) (db : Archive) :
    Except DbError Archive :=
  rows.foldlM (fun db r => insertDelta issuanceId r db) db

/-- Both go through, to the same rows, or neither does. -/
structure SameOutcome (x y : Except DbError Archive) : Prop where
  succeeds : (∃ d, x = .ok d) ↔ ∃ d, y = .ok d
  same : ∀ d d', x = .ok d → y = .ok d' → SameIngest d d'

/-- The transactions and the issuance of the rows are stored. -/
def Storable (issuanceId : ℕ) (rows : List DeltaRow) (db : Archive) : Prop :=
  ∀ r ∈ rows, db.transactions.HasKey r.hash ∧ db.issuances.HasKey issuanceId

/-- An upsert that went through had its transactions and its issuance. -/
theorem storable_of_ok {issuanceId : ℕ} {rows : List DeltaRow} {db db' : Archive}
    (h : insertDeltasMany issuanceId rows db = .ok db') : Storable issuanceId rows db := by
  obtain ⟨-, htx, hissuances⟩ := insertDeltasMany_ok h
  intro r hr
  rw [← htx, ← hissuances]
  have hne : ¬ rows.isEmpty = true :=
    fun hempty => List.ne_nil_of_mem hr (List.isEmpty_iff.mp hempty)
  unfold insertDeltasMany at h
  simp only [hne] at h
  obtain ⟨d₁, -, h₂⟩ := bind_ok.mp h
  have h₂ := insertChunked_ok (fun _ _ _ h => (guarded_ok.mp h).2) h₂
  refine foldlM_establishes (P := fun d => d.transactions.HasKey r.hash
    ∧ d.issuances.HasKey issuanceId) ((List.mem_insertionSort _).mpr hr) ?_ ?_ h₂
  · intro d d' hd
    obtain ⟨hkey, hd⟩ := guarded_ok.mp hd
    obtain ⟨-, hd⟩ := guarded_ok.mp hd
    obtain ⟨hid, hd⟩ := guarded_ok.mp hd
    cases Except.ok.inj hd
    exact ⟨not_not.mp hkey, not_not.mp hid⟩
  · intro b _ d d' hkeys hd
    obtain ⟨-, hd⟩ := guarded_ok.mp hd
    obtain ⟨-, hd⟩ := guarded_ok.mp hd
    obtain ⟨-, hd⟩ := guarded_ok.mp hd
    cases Except.ok.inj hd
    exact hkeys

theorem insertDelta_succeeds {issuanceId : ℕ} {r : DeltaRow} {db : Archive}
    (htx : db.transactions.HasKey r.hash) (hid : db.issuances.HasKey issuanceId) :
    ∃ d, insertDelta issuanceId r db = .ok d ∧ d.transactions = db.transactions
      ∧ d.issuances = db.issuances := by
  obtain ⟨d, hd⟩ := @insertDeltasMany_succeeds issuanceId [r] db
    (fun r' hr' => List.mem_singleton.mp hr' ▸ htx) hid (List.nodup_singleton _)
  exact ⟨d, hd, (insertDeltasMany_ok hd).2⟩

theorem insertDeltas_storable {issuanceId : ℕ} {rows : List DeltaRow} {db db' : Archive}
    (h : insertDeltas issuanceId rows db = .ok db') : Storable issuanceId rows db := by
  induction rows generalizing db with
  | nil => exact fun r hr => absurd hr List.not_mem_nil
  | cons r rows ih =>
      obtain ⟨d, hd, h⟩ := foldlM_cons_ok.mp h
      obtain ⟨-, htx, hissuances⟩ := insertDeltasMany_ok hd
      have hrest := ih h
      intro r' hr'
      rcases List.mem_cons.mp hr' with rfl | hr'
      · exact storable_of_ok hd r' (List.mem_singleton_self r')
      · have := hrest r' hr'
        rwa [htx, hissuances] at this

/-- **ONE STATEMENT OR ONE ROW AT A TIME**: with distinct keys they do the same. -/
theorem insertDeltasMany_same {issuanceId : ℕ} {rows : List DeltaRow}
    (honce : (rows.map (fun r => (r.hash, r.address))).Nodup) (db : Archive) :
    SameOutcome (insertDeltasMany issuanceId rows db) (insertDeltas issuanceId rows db) where
  succeeds := by
    constructor
    · rintro ⟨d, hd⟩
      have hstorable := storable_of_ok hd
      obtain ⟨d', hd', -⟩ := foldlM_succeeds (ε := DbError)
        (f := fun db r => insertDelta issuanceId r db) (l := rows) (s := db)
        (P := fun d => d.transactions = db.transactions ∧ d.issuances = db.issuances)
        (fun r hr d hkeep => by
          obtain ⟨htx, hid⟩ := hstorable r hr
          obtain ⟨e, he, hetx, heid⟩ := insertDelta_succeeds
            (show d.transactions.HasKey r.hash by rw [hkeep.1]; exact htx)
            (show d.issuances.HasKey issuanceId by rw [hkeep.2]; exact hid)
          exact ⟨e, he, hetx.trans hkeep.1, heid.trans hkeep.2⟩) ⟨rfl, rfl⟩
      exact ⟨d', hd'⟩
    · rintro ⟨d', hd'⟩
      have hstorable := insertDeltas_storable hd'
      cases hrows : rows with
      | nil => exact ⟨db, rfl⟩
      | cons r rest =>
          rw [← hrows]
          have hid := (hstorable r (hrows ▸ List.mem_cons_self)).2
          exact insertDeltasMany_succeeds (fun r hr => (hstorable r hr).1) hid honce
  same := by
    intro d d' hd hd'
    have hmany := ingests_insertDeltasMany hd
    have hone := Ingests.foldlM (F := fun r : DeltaRow =>
        deltaFacts [⟨r.hash, r.address, issuanceId, r.delta⟩])
      (fun r _ e e' he => @ingests_insertDeltasMany issuanceId [r] e e' he) hd'
    have hfacts : deltaFacts (rows.map fun r =>
          (⟨r.hash, r.address, issuanceId, r.delta⟩ : BalanceDeltaRow))
        = Facts.all rows (fun r => deltaFacts [⟨r.hash, r.address, issuanceId, r.delta⟩]) := by
      ext x <;> simp [deltaFacts, Facts.all, eq_comm]
    refine Ingests.same ⟨?_, ?_⟩ hmany (hfacts ▸ hone)
    · exact fun t ht => absurd ht (Set.notMem_empty t)
    · intro x hx y hy hkey
      obtain ⟨r, hr, rfl⟩ := List.mem_map.mp hx
      obtain ⟨r', hr', rfl⟩ := List.mem_map.mp hy
      obtain ⟨hhash, haddress, -⟩ :
          r.hash = r'.hash ∧ r.address = r'.address ∧ issuanceId = issuanceId := by
        simpa [BalanceDeltaRow.key] using hkey
      have heq := List.inj_on_of_nodup_map honce hr hr' (Prod.ext hhash haddress)
      rw [heq]

/-! ## Deriving the deltas of a transaction -/

/-- **DERIVATION DOES NOT ABORT**: the rows of an issuance have distinct keys and are
    stored as if one at a time, if and only if no change is conflated.  Where none is,
    for any issuance, the deltas of a stored transaction are derived; where one is, no
    derivation of a transaction of ordinary size goes through. -/
theorem derived_keys_distinct_iff {m : Meta} (hm : WellFormed m) (iss : TrackedIssuance)
    (hash : String) :
    ((((derivedDeltas iss hash m).map (fun r => (r.hash, r.address))).Nodup
        ∧ ∀ db, SameOutcome (insertDeltasMany iss.id (derivedDeltas iss hash m) db)
          (insertDeltas iss.id (derivedDeltas iss hash m) db)) ↔ ¬ ConflatedChange iss m)
      ∧ (∀ tracked db, db.transactions.HasKey hash →
          (∀ i ∈ tracked, db.issuances.HasKey i.id ∧ ¬ ConflatedChange i m) →
          ∃ db', deriveTxDeltasFromMeta tracked hash (some m) db = .ok db')
      ∧ (ConflatedChange iss m → m.nodes.length ≤ 20000 → ∀ tracked, iss ∈ tracked → ∀ db,
          ¬ ∃ db', deriveTxDeltasFromMeta tracked hash (some m) db = .ok db') := by
  refine ⟨⟨fun h => (derivedDeltas_nodup_iff hm iss hash).mp h.1, fun h => ?_⟩, ?_, ?_⟩
  · have honce := (derivedDeltas_nodup_iff hm iss hash).mpr h
    exact ⟨honce, insertDeltasMany_same honce⟩
  · intro tracked db htx hissuances
    refine deltaDeriver_succeeds htx (fun i hi => (hissuances i hi).1) ?_
    intro m' hm' i hi
    cases Option.some.inj hm'
    exact (issuanceDeltas_nodup_iff hm i).mpr (hissuances i hi).2
  · rintro hconflated hsize tracked hiss db ⟨db', h⟩
    exact (issuanceDeltas_nodup_iff hm iss).mp (deltaDeriver_once hsize h iss hiss) hconflated

/-! ## Two lines of one holder -/

/-- A line of `rAlice` with the issuer whose balance goes from 1 to 2. -/
def aliceLine (id currency : String) : Option AffectedNode :=
  some { modifiedNode := some {
    ledgerEntryType := some "RippleState", ledgerIndex := some id
    finalFields := some {
      balance := some { value := some 2, currency := some currency }
      lowLimit := some { issuer := some "rAlice" }
      highLimit := some { issuer := some "rIssuer" } }
    previousFields := some { balance := some { value := some 1, currency := some currency } } } }

/-- A payment in `USD` and `EUR`. -/
def twoCurrencies : Meta := { affectedNodes := some [aliceLine "L1" "USD", aliceLine "L2" "EUR"] }

/-- A payment in `USD` and in the code of forty digits that spells it. -/
def twoSpellings : Meta where
  affectedNodes := some
    [aliceLine "L1" "USD", aliceLine "L2" "5553440000000000000000000000000000000000"]

def usdTracked : TrackedIssuance :=
  { id := 1, kind := .iou, currency := some "USD", issuer := some "rIssuer" }

/-- A transaction of the issuance, not derived yet. -/
def usdStored : Archive where
  issuances := Table.empty.insertIgnore
    { id := 1, kind := .iou, currency := some "USD", issuerAccount := some "rIssuer" }
  transactions := Table.empty.insertIgnore
    ⟨"tx", 10, "Payment", "tx", "meta", ⟨"clio", "now"⟩, none, none, none⟩

/-- Two currencies of one holder have one delta in each. -/
theorem derived_keys_distinct_iff_two :
    ((derivedDeltas usdTracked "tx" twoCurrencies).map (fun r => (r.hash, r.address))).Nodup
      ∧ ∃ db', deriveTxDeltasFromMeta [usdTracked] "tx" (some twoCurrencies) usdStored
        = .ok db' := by
  have hm : WellFormed twoCurrencies := by decide +kernel
  have hnodup : ((issuanceDeltas usdTracked twoCurrencies).map Prod.fst).Nodup := by
    decide +kernel
  have hno := (issuanceDeltas_nodup_iff hm usdTracked).mp hnodup
  obtain ⟨hkeys, hderives, -⟩ := derived_keys_distinct_iff hm usdTracked "tx"
  refine ⟨(hkeys.mpr hno).1, hderives [usdTracked] usdStored (by decide +kernel) ?_⟩
  intro i hi
  rw [List.mem_singleton.mp hi]
  exact ⟨by decide +kernel, hno⟩

/-- Two spellings of `USD` on the lines of one holder meet one key, and the
    statement fails. -/
theorem two_spellings_abort : WellFormed twoSpellings
    ∧ ¬ ((derivedDeltas usdTracked "tx" twoSpellings).map (fun r => (r.hash, r.address))).Nodup
    ∧ (insertDeltasMany 1 (derivedDeltas usdTracked "tx" twoSpellings) usdStored).toOption.isNone
    ∧ (insertDeltas 1 (derivedDeltas usdTracked "tx" twoSpellings) usdStored).toOption.isSome := by
  decide +kernel

end RegistrarKeys
