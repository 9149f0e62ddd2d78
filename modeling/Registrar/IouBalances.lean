import Registrar.Reconciler

/-! # IOU balances: summed deltas against trust lines

    The balance of a holder has two derivations: the sum of what `iouDeltas`
    takes from each transaction, and the newest state of the holder's trust
    line.  Over a history with well-formed metadata the second is always the
    ledger's own (`toIouBalances_get`).  The first misses what a transaction
    takes off the very line it deletes, because a `DeletedNode` is read without
    its `PreviousFields`; `sum_iouDeltas` says by how much.

    `iou_balances_agree_iff` settles when the two are one number, at every
    ledger, in the reconciler and in `archive_balance_at`. -/

namespace RegistrarIou

open KeyedTable ObjectLog RegistrarMetadata RegistrarArchive RegistrarReads
open RegistrarHistory RegistrarReconciler

/-! ## Trust lines -/

/-- `PreviousFields` has the old `Balance` if the transaction changed it; if
    not, it has no `Balance` or the same one. -/
def RecordsBalance (old new : Fields) (previous : Option Fields) : Prop :=
  (old.balance ≠ new.balance → previous.bind (·.balance) = old.balance)
    ∧ (old.balance = new.balance →
        previous.bind (·.balance) = none ∨ previous.bind (·.balance) = old.balance)

/-- What a trust line is known by: its currency and its two parties. -/
def lineIdentity (f : Fields) : Option String × Option String × Option String :=
  (balanceCurrency f, amountIssuer f.lowLimit, amountIssuer f.highLimit)

/-- The holder of a line of the issuance. -/
def lineHolder (issuer currency : String) (f : Fields) : Option String :=
  (holderInfo f issuer currency).map (·.holder)

/-- The balance of a line of the issuance, from the holder's side. -/
def lineValue (issuer currency : String) (f : Fields) : ℚ :=
  ((holderInfo f issuer currency).map (fun info => holderBalance f info.sign)).getD 0

/-- A history of trust lines: a line keeps its currency and its parties while
    it lives, and a holder has at most one line of the issuance at a time, lines being
    told apart by what `holderInfo` reads of their currency codes. -/
structure LineHistory (issuer currency : String) extends
    History "RippleState" RecordsBalance where
  identity : ∀ line, toHistory.Keeps (fun f => lineIdentity f = line)
  oneLine : ∀ ledger, (toHistory.upTo ledger).OneEach (lineHolder issuer currency)

variable {issuer currency : String}

/-- What `iouDeltas` takes from a node, as account and number. -/
def lineDelta (issuer currency : String) (w : AffectedNode) : Option (String × ℚ) :=
  (iouNodeDelta currency issuer w).map (fun d => (d.account, d.delta))

/-- The deltas of a transaction, as account and number. -/
def lineDeltas (issuer currency : String) (m : Meta) : List (String × ℚ) :=
  (iouDeltas m currency issuer).map (fun d => (d.account, d.delta))

/-- The exact decimal sum of the holder's deltas up to a ledger. -/
def LineHistory.deltaSum (H : LineHistory issuer currency) (h : String)
    (ledger : ℕ) : ℚ :=
  ((H.entriesUpTo ledger).map
    (fun e => deltaOf (lineDeltas issuer currency e.metadata) h)).sum

/-- The balance of the holder's line on the ledger, zero without one. -/
def LineHistory.trustLine (H : LineHistory issuer currency) (h : String)
    (ledger : ℕ) : ℚ :=
  (H.upTo ledger).balanceOn (lineHolder issuer currency) (lineValue issuer currency) h

/-- What a line is worth to the holder, zero when it is not the holder's. -/
def lineBalance (issuer currency h : String) : Fields → ℚ :=
  History.heldBy (lineHolder issuer currency) (lineValue issuer currency) h

/-- What a change takes off the holder's line in the transaction that deletes
    it: the balance before, less the one `FinalFields` shows. -/
def drainedByDelete (issuer currency h : String) : Change Fields → ℚ
  | .deleted old final =>
      lineBalance issuer currency h old - lineBalance issuer currency h final
  | _ => 0

/-- What deleting transactions took off the holder's lines up to a ledger. -/
def LineHistory.drained (H : LineHistory issuer currency) (h : String)
    (ledger : ℕ) : ℚ :=
  ((H.upTo ledger).log.map (fun x => drainedByDelete issuer currency h x.change)).sum

/-- The transaction shows a line of the holder. -/
def LineHistory.touches (H : LineHistory issuer currency) (e : MetaEntry)
    (h : String) : Prop :=
  ∃ c ∈ H.changes e, lineHolder issuer currency c.2.shown = some h

/-! ## The reconstruction is the ledger -/

theorem holderInfo_of_identity {f f' : Fields} (h : lineIdentity f = lineIdentity f') :
    holderInfo f issuer currency = holderInfo f' issuer currency := by
  obtain ⟨hcur, hlow, hhigh⟩ : balanceCurrency f = balanceCurrency f'
      ∧ amountIssuer f.lowLimit = amountIssuer f'.lowLimit
      ∧ amountIssuer f.highLimit = amountIssuer f'.highLimit := by
    simpa [lineIdentity, Prod.ext_iff] using h
  unfold holderInfo
  rw [hcur, hlow, hhigh]

theorem LineHistory.keeps (H : LineHistory issuer currency) {P : Fields → Prop}
    (hP : ∀ f f', holderInfo f issuer currency = holderInfo f' issuer currency →
      (P f ↔ P f')) : H.Keeps P := by
  intro x hx
  exact Change.keeps_of_feature (fun f f' h => hP f f' (holderInfo_of_identity h))
    (fun line => H.identity line x hx)

theorem holderInfo_isSome_of_holder {f : Fields} {h : String}
    (hf : lineHolder issuer currency f = some h) :
    (holderInfo f issuer currency).isSome := by
  obtain ⟨info, hinfo, -⟩ := Option.map_eq_some_iff.mp hf
  rw [hinfo]
  rfl

/-- The balances `toIouBalances` lists are those of the live lines. -/
theorem mem_live_lines {objects : List ObjectState} {b : AccountBalance ℚ} :
    b ∈ objects.filterMap (fun o =>
        if o.deleted then none
        else (holderInfo o.fields issuer currency).map fun info =>
          ⟨info.holder, holderBalance o.fields info.sign⟩)
      ↔ ∃ o ∈ objects, o.deleted = false
          ∧ lineHolder issuer currency o.fields = some b.account
          ∧ b.balance = lineValue issuer currency o.fields := by
  rw [List.mem_filterMap]
  refine exists_congr fun o => and_congr Iff.rfl ?_
  by_cases hdel : o.deleted
  · simp [hdel]
  · cases hinfo : holderInfo o.fields issuer currency with
    | none => simp [hdel, hinfo, lineHolder]
    | some info =>
        rw [if_neg hdel]
        simp only [lineHolder, lineValue, hinfo, Option.map_some, Option.some.injEq,
          Option.getD_some]
        constructor
        · rintro rfl
          exact ⟨by simpa using hdel, rfl, rfl⟩
        · rintro ⟨-, hacc, hbal⟩
          cases b
          cases hacc
          cases hbal
          rfl

/-- Whatever part of the history up to a ledger is archived, if it has the
    transactions that show the holder's line then the reconstructed balance is
    the one of the ledger. -/
theorem toIouBalances_get (H : LineHistory issuer currency) (h : String)
    (ledger : ℕ) {stored : List MetaEntry}
    (hsub : ∀ e ∈ stored, e ∈ (H.upTo ledger).entries)
    (hall : ∀ e ∈ (H.upTo ledger).entries, H.touches e h → e ∈ stored) :
    (toIouBalances stored issuer currency).get h = H.trustLine h ledger := by
  have hkeeps : ∀ {P : Fields → Prop}, H.Keeps P → (H.upTo ledger).Keeps P :=
    fun hP x hx => hP x (History.log_upTo_subset hx)
  show _ = (H.upTo ledger).balanceOn (lineHolder issuer currency)
    (lineValue issuer currency) h
  have hlive := (H.upTo ledger).live_balances (by decide)
    (P := fun f => (holderInfo f issuer currency).isSome) (hkeeps (H.keeps ?_))
    (hkeeps (H.keeps ?_)) (fun f => holderInfo_isSome_of_holder) (H.oneLine ledger)
    hsub hall (fun b => mem_live_lines)
  · exact Balances.get_foldl_set hlive.1 hlive.2
  · intro f f' heq
    rw [heq]
  · intro f f' heq
    unfold lineHolder
    rw [heq]

/-! ## What the deltas add up to -/

/-- A nonzero change of the line is reported to its holder. -/
theorem share_line (h holder : String) (change : ℚ) :
    share h ((if change = 0 then none else some (⟨holder, change⟩ : IouDelta)).map
        (fun d => (d.account, d.delta)))
      = if holder = h then change else 0 := by
  rw [← share_change h holder change]
  by_cases hzero : change = 0
  · rw [if_pos hzero, if_pos hzero]
    rfl
  · rw [if_neg hzero, if_neg hzero]
    rfl

theorem lineBalance_of_info {f : Fields} {info : HolderInfo} (h : String)
    (hf : holderInfo f issuer currency = some info) :
    lineBalance issuer currency h f
      = if info.holder = h then holderBalance f info.sign else 0 := by
  simp [lineBalance, History.heldBy, lineHolder, lineValue, hf]

theorem lineBalance_of_no_info {f : Fields} (h : String)
    (hf : holderInfo f issuer currency = none) :
    lineBalance issuer currency h f = 0 := by
  simp [lineBalance, History.heldBy, lineHolder, hf]

theorem holderBalance_congr {f f' : Fields} (h : f.balance = f'.balance)
    (sign : Sign) : holderBalance f sign = holderBalance f' sign := by
  unfold holderBalance
  rw [h]

/-- The delta `iouDeltas` takes from a node is what the change did to the
    holder's line, plus what a deletion drained. -/
theorem share_shown {w : AffectedNode} {c : String × Change Fields}
    (hw : Shows "RippleState" RecordsBalance w c)
    (hid : ∀ line, c.2.Keeps (fun f => lineIdentity f = line)) (h : String) :
    share h (lineDelta issuer currency w)
      = c.2.gain (lineBalance issuer currency h)
        + drainedByDelete issuer currency h c.2 := by
  cases hw with
  | @created id new node ht _ _ hfields =>
      show _ = lineBalance issuer currency h new - 0 + 0
      rw [sub_zero, add_zero]
      cases hinfo : holderInfo new issuer currency with
      | none =>
          rw [lineBalance_of_no_info h hinfo]
          simp [lineDelta, iouNodeDelta, AffectedNode.node, ht, hfields, hinfo, share]
      | some info =>
          rw [lineBalance_of_info h hinfo, ← share_line]
          simp [lineDelta, iouNodeDelta, AffectedNode.node, ht, hfields, hinfo]
  | @modified id old new node ht _ _ hfields hrec =>
      have hsame : holderInfo old issuer currency = holderInfo new issuer currency :=
        holderInfo_of_identity ((hid (lineIdentity new)).mpr rfl)
      show _ = lineBalance issuer currency h new - lineBalance issuer currency h old + 0
      rw [add_zero]
      cases hinfo : holderInfo new issuer currency with
      | none =>
          rw [lineBalance_of_no_info h hinfo,
            lineBalance_of_no_info h (hsame.trans hinfo), sub_zero]
          simp [lineDelta, iouNodeDelta, AffectedNode.node, ht, hfields, hinfo, share]
      | some info =>
          rw [lineBalance_of_info h hinfo, lineBalance_of_info h (hsame.trans hinfo)]
          have hboth : (if info.holder = h then holderBalance new info.sign else 0)
              - (if info.holder = h then holderBalance old info.sign else 0)
              = if info.holder = h then
                  holderBalance new info.sign - holderBalance old info.sign else 0 := by
            by_cases hh : info.holder = h
            · rw [if_pos hh, if_pos hh, if_pos hh]
            · rw [if_neg hh, if_neg hh, if_neg hh, sub_zero]
          rw [hboth]
          -- `PreviousFields` has the old balance, or the balance is unchanged
          cases hprev : node.previousFields.bind (·.balance) with
          | none =>
              have heq : old.balance = new.balance := by
                by_contra hne
                have hold := (hrec.1 hne).symm.trans hprev
                have hnone : balanceCurrency new = none := by
                  have hcur : balanceCurrency old = balanceCurrency new :=
                    congrArg Prod.fst ((hid (lineIdentity new)).mpr rfl)
                  rw [← hcur, balanceCurrency, hold]
                  rfl
                unfold holderInfo at hinfo
                rw [hnone, if_pos (by simp)] at hinfo
                cases hinfo
              rw [holderBalance_congr heq, sub_self, ite_self]
              cases hpf : node.previousFields with
              | none =>
                  simp [lineDelta, iouNodeDelta, AffectedNode.node, ht, hfields, hinfo, hpf, share]
              | some prev =>
                  have hpb : prev.balance = none := by rw [hpf] at hprev; exact hprev
                  simp [lineDelta, iouNodeDelta, AffectedNode.node, ht, hfields, hinfo, hpf, hpb,
                    share]
          | some amount =>
              obtain ⟨prev, hpf, hpb⟩ := Option.bind_eq_some_iff.mp hprev
              have hold : prev.balance = old.balance := by
                by_cases heq : old.balance = new.balance
                · rcases hrec.2 heq with hn | hs
                  · cases hprev.symm.trans hn
                  · exact hpb.trans (hprev.symm.trans hs)
                · exact hpb.trans (hprev.symm.trans (hrec.1 heq))
              rw [← share_line, ← holderBalance_congr hold]
              simp [lineDelta, iouNodeDelta, AffectedNode.node, ht, hfields, hinfo, hpf, hpb]
  | @deleted id old final node ht _ _ hfields _ =>
      have hgain : Change.gain (lineBalance issuer currency h) (.deleted old final)
          + drainedByDelete issuer currency h (.deleted old final)
          = -lineBalance issuer currency h final := by
        show 0 - lineBalance issuer currency h old
          + (lineBalance issuer currency h old - lineBalance issuer currency h final) = _
        ring
      rw [hgain]
      cases hinfo : holderInfo final issuer currency with
      | none =>
          rw [lineBalance_of_no_info h hinfo, neg_zero]
          simp [lineDelta, iouNodeDelta, AffectedNode.node, ht, hfields, hinfo, share]
      | some info =>
          rw [lineBalance_of_info h hinfo]
          have hneg : -(if info.holder = h then holderBalance final info.sign else 0)
              = if info.holder = h then 0 - holderBalance final info.sign else 0 := by
            by_cases hh : info.holder = h
            · rw [if_pos hh, if_pos hh, zero_sub]
            · rw [if_neg hh, if_neg hh, neg_zero]
          rw [hneg, ← share_line]
          simp [lineDelta, iouNodeDelta, AffectedNode.node, ht, hfields, hinfo]

theorem lineDelta_other {w : AffectedNode}
    (hw : ∀ node, w.node = some node → node.ledgerEntryType ≠ some "RippleState") :
    lineDelta issuer currency w = none := by
  unfold lineDelta iouNodeDelta
  cases hn : w.node with
  | none => simp
  | some node => simp [hw node hn]

theorem LineHistory.identity_of_mem (H : LineHistory issuer currency) {e : MetaEntry}
    (he : e ∈ H.entries) {c : String × Change Fields} (hc : c ∈ H.changes e) :
    ∀ line, c.2.Keeps (fun f => lineIdentity f = line) :=
  fun line => H.identity line _ (mem_logOf.mpr ⟨e, he, c, hc, rfl⟩)

/-- The deltas of one transaction are what its changes did, plus what its
    deletions drained. -/
theorem deltaOf_entry (H : LineHistory issuer currency) {e : MetaEntry}
    (he : e ∈ H.entries) (h : String) :
    deltaOf (lineDeltas issuer currency e.metadata) h
      = ((H.changes e).map (fun c => c.2.gain (lineBalance issuer currency h)
          + drainedByDelete issuer currency h c.2)).sum := by
  unfold lineDeltas iouDeltas
  rw [List.map_filterMap]
  refine (deltaOf_filterMap (lineDelta issuer currency) h _).trans ?_
  refine (H.reads e he).sum_map ?_ ?_
  · intro w hw
    rw [lineDelta_other hw]
    rfl
  · intro w c hc hw
    exact share_shown hw (H.identity_of_mem he hc) h

/-- **WHAT SUMMED DELTAS ARE**: the balance of the holder's line plus whatever
    deleting transactions took off it. -/
theorem sum_iouDeltas (H : LineHistory issuer currency) (h : String) (ledger : ℕ) :
    H.deltaSum h ledger = H.trustLine h ledger + H.drained h ledger := by
  refine (H.upTo ledger).sum_reported ?_
  intro e he
  exact deltaOf_entry H (History.mem_upTo.mp he).1 h

/-- A transaction that does not show the holder's line has no delta of it. -/
theorem deltaOf_eq_zero (H : LineHistory issuer currency) {e : MetaEntry}
    (he : e ∈ H.entries) {h : String} (hno : ¬ H.touches e h) :
    deltaOf (lineDeltas issuer currency e.metadata) h = 0 := by
  rw [deltaOf_entry H he]
  refine List.sum_eq_zero ?_
  intro x hx
  obtain ⟨c, hc, rfl⟩ := List.mem_map.mp hx
  have hshown : ∀ f, lineIdentity f = lineIdentity c.2.shown →
      lineBalance issuer currency h f = 0 := by
    intro f hf
    refine if_neg ?_
    intro hholder
    refine hno ⟨c, hc, ?_⟩
    rw [lineHolder, ← holderInfo_of_identity hf]
    exact hholder
  have hsame := H.identity_of_mem he hc (lineIdentity c.2.shown)
  cases hcc : c.2 with
  | created new =>
      rw [hcc] at hshown
      simp [Change.gain, Change.after, Change.before, drainedByDelete,
        hshown new rfl]
  | modified old new =>
      rw [hcc] at hshown hsame
      simp [Change.gain, Change.after, Change.before, drainedByDelete,
        hshown new rfl, hshown old (hsame.mpr rfl)]
  | deleted old final =>
      rw [hcc] at hshown hsame
      simp [Change.gain, Change.after, Change.before, drainedByDelete,
        hshown final rfl, hshown old (hsame.mpr rfl)]

/-! ## The archive of a history -/

section Archived

variable {X : Xrpl} {issuanceId : ℕ} {H : LineHistory issuer currency}

theorem balanceAt_archive
    (A : CompleteArchive X issuanceId H.toHistory H.touches (lineDeltas issuer currency))
    {h : String} (hin : inIssuanceScope A.db issuanceId h) (ledger : ℕ) :
    balanceAt A.db issuanceId h ledger = H.deltaSum h ledger :=
  A.balanceAt_eq hin (fun _ he hno => deltaOf_eq_zero H he hno) ledger

/-- The reconciler compares the two derivations over the whole history. -/
theorem runIou_archive
    (A : CompleteArchive X issuanceId H.toHistory H.touches (lineDeltas issuer currency))
    {last : ℕ} (hlast : ∀ e ∈ H.entries, e.ledgerIndex ≤ last) :
    ∃ db report, runIou X A.db issuanceId currency issuer = some (db, report)
      ∧ (report.discrepancies = [] ↔ ∀ h, inIssuanceScope A.db issuanceId h →
          H.deltaSum h last = H.trustLine h last) := by
  obtain ⟨entries, hdecode, hsub, hall⟩ := A.decode_issuance
  have hupTo : (H.upTo last).entries = H.entries :=
    List.filter_eq_self.mpr (fun e he => decide_eq_true (hlast e he))
  have hderived : ∀ h, inIssuanceScope A.db issuanceId h →
      (decimalBalanceByAccount A.db issuanceId).get h = H.deltaSum h last := by
    intro h hin
    unfold decimalBalanceByAccount LineHistory.deltaSum
    rw [A.get_derived hin (fun _ he hno => deltaOf_eq_zero H he hno)]
    exact congrArg (fun l => (List.map _ l).sum) hupTo.symm
  have hreconstructed : ∀ h, inIssuanceScope A.db issuanceId h →
      (toIouBalances entries issuer currency).get h = H.trustLine h last := by
    intro h hin
    refine toIouBalances_get H h last ?_ ?_
    · rw [hupTo]
      exact hsub
    · rw [hupTo]
      exact fun e he htouch => hall e he h hin htouch
  unfold runIou record
  rw [hdecode, Option.bind_some, if_neg (not_not_intro A.registered)]
  refine ⟨_, _, rfl, ?_⟩
  unfold compareDecimalBalances
  rw [discrepanciesOf_members]
  refine forall_congr' fun h => forall_congr' fun hin => ?_
  rw [hderived h hin, hreconstructed h hin]

end Archived

/-- **WHEN IOU BALANCES AGREE**: the sum of a holder's deltas up to a ledger is
    the reconstructed balance exactly when the transactions that deleted the
    holder's lines took nothing off them on balance.  On a complete archive
    this decides what `archive_balance_at` answers against the trust line, and
    whether the reconciler reports a discrepancy. -/
theorem iou_balances_agree_iff (H : LineHistory issuer currency) :
    (∀ h ledger, H.deltaSum h ledger
        = (toIouBalances (H.entriesUpTo ledger) issuer currency).get h
      ↔ H.drained h ledger = 0)
    ∧ ∀ (X : Xrpl) (issuanceId : ℕ) (A : CompleteArchive X issuanceId H.toHistory
          H.touches (lineDeltas issuer currency)),
        (∀ resolveTime req issuance answer, resolveIssuance A.db req = some issuance →
          issuance.id = issuanceId → handleBalanceAt A.db resolveTime req = .ok answer →
          (answer.balance = H.trustLine answer.account answer.ledgerIndex
            ↔ H.drained answer.account answer.ledgerIndex = 0))
        ∧ ∀ last, (∀ e ∈ H.entries, e.ledgerIndex ≤ last) →
            ∃ db report, runIou X A.db issuanceId currency issuer = some (db, report)
              ∧ (report.discrepancies = [] ↔
                  ∀ h, inIssuanceScope A.db issuanceId h → H.drained h last = 0) := by
  have hiff : ∀ h ledger, H.deltaSum h ledger = H.trustLine h ledger
      ↔ H.drained h ledger = 0 := by
    intro h ledger
    rw [sum_iouDeltas, add_eq_left]
  refine ⟨?_, ?_⟩
  · intro h ledger
    have hget : (toIouBalances (H.entriesUpTo ledger) issuer currency).get h
        = H.trustLine h ledger :=
      toIouBalances_get H h ledger (fun _ he => he) (fun _ he _ => he)
    rw [hget]
    exact hiff h ledger
  · intro X issuanceId A
    refine ⟨?_, ?_⟩
    · intro resolveTime req issuance answer hiss hid hok
      obtain ⟨issuance', hiss', hin, hbal, -⟩ := handleBalanceAt_ok hok
      cases hiss.symm.trans hiss'
      subst hid
      rw [hbal, balanceAt_archive A hin]
      exact hiff _ _
    · intro last hlast
      obtain ⟨db, report, hrun, hdisc⟩ := runIou_archive A hlast
      refine ⟨db, report, hrun, hdisc.trans ?_⟩
      exact forall_congr' fun h => imp_congr Iff.rfl (hiff h last)

/-! ### A line emptied and deleted by one transaction -/

/-- A line between `rHolder` and `rIssuer`, seen from `rHolder`. -/
def usdLine (value : ℚ) : Fields where
  balance := some { value := some value, currency := some "USD" }
  lowLimit := some { issuer := some "rHolder" }
  highLimit := some { issuer := some "rIssuer" }

def createdLine : Node where
  ledgerEntryType := some "RippleState"
  ledgerIndex := some "L"
  newFields := some (usdLine 50)

def deletedLine : Node where
  ledgerEntryType := some "RippleState"
  ledgerIndex := some "L"
  finalFields := some (usdLine 0)
  previousFields := some { balance := (usdLine 50).balance }

def lineCreated : MetaEntry where
  ledgerIndex := 1
  transactionIndex := 0
  metadata := { affectedNodes := some [some { createdNode := some createdLine }] }

/-- The holder pays all of it back, and the empty line is deleted. -/
def lineDeleted : MetaEntry where
  ledgerIndex := 2
  transactionIndex := 0
  metadata := { affectedNodes := some [some { deletedNode := some deletedLine }] }

theorem drainedLine_identity :
    lineIdentity (usdLine 50) = lineIdentity (usdLine 0) := rfl

def drainedLine : LineHistory "rIssuer" "USD" where
  entries := [lineCreated, lineDeleted]
  changes := fun e =>
    if e.ledgerIndex = 1 then [("L", Change.created (usdLine 50))]
    else [("L", Change.deleted (usdLine 50) (usdLine 0))]
  sorted := by decide
  reads := by
    intro e he
    rcases List.mem_pair.mp he with rfl | rfl
    · exact .shown (.created rfl rfl (by decide) rfl) .nil
    · exact .shown (.deleted rfl rfl (by decide) rfl
        ⟨fun _ => rfl, fun _ => Or.inr rfl⟩) .nil
  distinct := by decide
  follows := ⟨rfl, by simp [Edit.apply, Change.after, Change.before], trivial⟩
  identity := by
    intro line x hx
    obtain ⟨e, he, c, hc, rfl⟩ := mem_logOf.mp hx
    rcases List.mem_pair.mp he with rfl | rfl
    · cases List.mem_singleton.mp hc
      trivial
    · cases List.mem_singleton.mp hc
      show lineIdentity (usdLine 50) = line ↔ lineIdentity (usdLine 0) = line
      rw [drainedLine_identity]
  oneLine := by
    intro ledger
    refine History.oneEach_of_one_id "L" ?_ _
    intro x hx
    obtain ⟨e, he, c, hc, rfl⟩ := mem_logOf.mp (History.log_upTo_subset hx)
    rcases List.mem_pair.mp he with rfl | rfl
    · cases List.mem_singleton.mp hc
      rfl
    · cases List.mem_singleton.mp hc
      rfl

/-- The `xrpl` package on the two metadata blobs of `drainedLine`. -/
def drainedXrpl : Xrpl where
  decodeMeta := fun blob =>
    if blob = "01" then some lineCreated.metadata
    else if blob = "02" then some lineDeleted.metadata else none
  decodeTxType := fun _ => some none
  hashSignedTx := id
  encodeAccountID := fun _ => none

def storedTx (hash metaBlob : String) (ledgerIndex : ℕ) : TransactionRow where
  hash := hash
  ledgerIndex := ledgerIndex
  txType := "Payment"
  txBlob := "00"
  metaBlob := metaBlob
  provenance := ⟨"upstream", "now"⟩

def drainedArchive : CompleteArchive drainedXrpl 1 drainedLine.toHistory
    drainedLine.touches (lineDeltas "rIssuer" "USD") where
  db :=
    { issuances := ⟨[{ id := 1, kind := .iou, currency := some "USD"
                       issuerAccount := some "rIssuer" }], by decide⟩
      accounts := ⟨[⟨"rHolder", some 1⟩], by decide⟩
      accountIssuance := ⟨[⟨"rHolder", 1, "issuer_sweep", some 1⟩], by decide⟩
      transactions := ⟨[storedTx "T1" "01" 1, storedTx "T2" "02" 2], by decide⟩
      accountTransactions := ⟨[⟨"T1", "rHolder"⟩, ⟨"T2", "rHolder"⟩], by decide⟩
      balanceDeltas := ⟨[⟨"T1", "rHolder", 1, 50⟩], by decide⟩ }
  registered := by decide
  foreignKeys := by decide
  hash := fun e => if e.ledgerIndex = 1 then "T1" else "T2"
  hash_injective := by decide +kernel
  stored := by decide +kernel
  complete := by
    intro e he a ha _
    obtain ⟨ai, hai, hk⟩ := ha
    cases List.mem_singleton.mp hai
    cases hk
    rcases List.mem_pair.mp he with rfl | rfl <;> decide
  derived := by decide +kernel

/-- After the deletion the deltas still add up to 50 where no line is left, and
    the reconciler reports it. -/
theorem drained_line_balances_differ :
    drainedLine.deltaSum "rHolder" 2 = 50
      ∧ (toIouBalances (drainedLine.entriesUpTo 2) "rIssuer" "USD").get "rHolder" = 0
      ∧ (runIou drainedXrpl drainedArchive.db 1 "USD" "rIssuer").map
          (fun r => r.2.discrepancies) = some [⟨"rHolder", 50, 0⟩] := by
  decide +kernel

end RegistrarIou
