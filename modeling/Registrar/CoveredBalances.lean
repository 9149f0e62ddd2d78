import Registrar.CoverageClaims

/-! # Balances without a warning

    `archive_balance_at` warns when the ledger lies beyond the newest ledger any
    coverage row of the account claims.  The rows are of the account, not of the
    issuance, and an account without rows is not warned about: an unwarned balance is
    complete where the account has coverage, without a gap, and what reaches the
    ledger was claimed by a scan of the issuance. -/

namespace RegistrarCovered

open KeyedTable Runs Statements RegistrarMetadata RegistrarArchive RegistrarIngest
open RegistrarReads RegistrarSweep RegistrarStored RegistrarWritten RegistrarScans
open RegistrarBackfill (BackfillPage BinaryTxEntry)
open RegistrarClaims (Claim Claimed Known steps_site)
open RegistrarDiscovery (registered)
open RegistrarLinks (changed SpellsParties holder_of_changed receipt spending payXrpl
  payXrpl_spells payIssuance mintEntry payEntry)

/-! ## Coverage rows and their envelope -/

/-- Every row but the lowest begins at most one ledger past the end of a row that begins
    lower. -/
def Chained (rows : List CoverageRow) : Prop :=
  ∀ row ∈ rows, (∀ other ∈ rows, row.fromLedger ≤ other.fromLedger)
    ∨ ∃ before ∈ rows, before.fromLedger < row.fromLedger
        ∧ row.fromLedger ≤ before.toLedger + 1

instance (rows : List CoverageRow) : Decidable (Chained rows) :=
  inferInstanceAs (Decidable (∀ row ∈ rows, _))

/-- Below a row of a chain, some row contains each ledger above the lowest. -/
theorem Chained.contains {rows : List CoverageRow} (h : Chained rows) {low : CoverageRow}
    (hlow : low ∈ rows) {n : ℕ} (hfrom : low.fromLedger ≤ n) :
    ∀ m, ∀ row ∈ rows, row.fromLedger = m → n ≤ row.toLedger →
      ∃ row ∈ rows, row.fromLedger ≤ n ∧ n ≤ row.toLedger := by
  intro m
  induction m using Nat.strong_induction_on with
  | _ m ih =>
      intro row hrow hm hto
      by_cases hin : row.fromLedger ≤ n
      · exact ⟨row, hrow, hin, hto⟩
      · -- the row begins above `n`, so it is not the lowest, and the one before reaches `n`
        rcases h row hrow with hlowest | ⟨before, hbefore, hlt, hchain⟩
        · exact absurd ((hlowest low hlow).trans hfrom) hin
        · exact ih before.fromLedger (hm ▸ hlt) before hbefore rfl (by omega)

theorem accountCoverage_eq_some {db : Archive} {account : String} {range : Range} :
    accountCoverage db account = some range ↔
      ((∃ row ∈ coverageOf db account, row.fromLedger = range.lo)
        ∧ ∀ row ∈ coverageOf db account, range.lo ≤ row.fromLedger)
      ∧ (∃ row ∈ coverageOf db account, row.toLedger = range.hi)
        ∧ ∀ row ∈ coverageOf db account, row.toLedger ≤ range.hi := by
  have hmin : ((coverageOf db account).map (·.fromLedger)).min? = some range.lo ↔
      (∃ row ∈ coverageOf db account, row.fromLedger = range.lo)
        ∧ ∀ row ∈ coverageOf db account, range.lo ≤ row.fromLedger := by
    rw [List.min?_eq_some_iff, List.mem_map, List.forall_mem_map]
  have hmax : ((coverageOf db account).map (·.toLedger)).max? = some range.hi ↔
      (∃ row ∈ coverageOf db account, row.toLedger = range.hi)
        ∧ ∀ row ∈ coverageOf db account, row.toLedger ≤ range.hi := by
    rw [List.max?_eq_some_iff, List.mem_map, List.forall_mem_map]
  rw [← hmin, ← hmax]
  unfold accountCoverage
  constructor
  · intro h
    split at h
    · cases h
      exact ⟨‹_›, ‹_›⟩
    · exact nomatch h
  · rintro ⟨hlo, hhi⟩
    rw [hlo, hhi]

theorem accountCoverage_eq_none {db : Archive} {account : String} :
    accountCoverage db account = none ↔ coverageOf db account = [] := by
  cases hrows : coverageOf db account with
  | nil =>
      unfold accountCoverage
      rw [hrows]
      exact ⟨fun _ => rfl, fun _ => rfl⟩
  | cons row rows =>
      refine ⟨fun h => ?_, fun h => nomatch h⟩
      unfold accountCoverage at h
      rw [hrows, List.map_cons, List.map_cons, List.min?_cons', List.max?_cons'] at h
      exact nomatch h

/-- The envelope of the rows claims no more than they do where they are a chain. -/
theorem envelope_iff {db : Archive} {account : String}
    (hordered : ∀ row ∈ coverageOf db account, row.fromLedger ≤ row.toLedger) :
    (∀ range, accountCoverage db account = some range → ∀ n, range.lo ≤ n → n ≤ range.hi →
      ∃ row ∈ coverageOf db account, row.fromLedger ≤ n ∧ n ≤ row.toLedger)
    ↔ Chained (coverageOf db account) := by
  constructor
  · intro h row hrow
    by_cases hlowest : ∀ other ∈ coverageOf db account, row.fromLedger ≤ other.fromLedger
    · exact Or.inl hlowest
    · refine Or.inr ?_
      obtain ⟨other, hother, hbelow⟩ : ∃ other ∈ coverageOf db account,
          other.fromLedger < row.fromLedger := by
        by_contra hnone
        exact hlowest fun other hother => not_lt.mp fun hlt => hnone ⟨other, hother, hlt⟩
      cases hcoverage : accountCoverage db account with
      | none => exact absurd hrow (accountCoverage_eq_none.mp hcoverage ▸ List.not_mem_nil)
      | some range =>
          obtain ⟨⟨-, hlo⟩, -, hhi⟩ := accountCoverage_eq_some.mp hcoverage
          -- the ledger before the row lies in the envelope
          have hlo := hlo other hother
          have hhi := hhi row hrow
          have hrange := hordered row hrow
          obtain ⟨before, hbefore, hin⟩ :=
            h range hcoverage (row.fromLedger - 1) (by omega) (by omega)
          exact ⟨before, hbefore, by omega, by omega⟩
  · intro h range hcoverage n hlo hhi
    obtain ⟨⟨⟨low, hlow, hfrom⟩, -⟩, ⟨top, htop, hto⟩, -⟩ :=
      accountCoverage_eq_some.mp hcoverage
    exact h.contains hlow (hfrom.trans_le hlo) _ top htop rfl (hhi.trans hto.ge)

/-- A warning is left out for an account without rows, and where a row reaches the
    ledger. -/
theorem unwarned_iff {db : Archive} {account : String} {ledger : ℕ} :
    (accountCoverage db account).filter (fun c => decide (ledger > c.hi)) = none ↔
      coverageOf db account = [] ∨ ∃ row ∈ coverageOf db account, ledger ≤ row.toLedger := by
  cases hcoverage : accountCoverage db account with
  | none => exact ⟨fun _ => Or.inl (accountCoverage_eq_none.mp hcoverage), fun _ => rfl⟩
  | some range =>
      obtain ⟨⟨⟨low, hlow, -⟩, -⟩, ⟨top, htop, hto⟩, hhi⟩ :=
        accountCoverage_eq_some.mp hcoverage
      rw [Option.filter_some]
      by_cases hbeyond : ledger > range.hi
      · rw [if_pos (decide_eq_true hbeyond)]
        constructor
        · intro h
          exact nomatch h
        · rintro (hnone | ⟨row, hrow, hreach⟩)
          · exact absurd hlow (hnone ▸ List.not_mem_nil)
          · exact absurd (hreach.trans (hhi row hrow)) (not_le.mpr hbeyond)
      · rw [if_neg (fun h => hbeyond (of_decide_eq_true h))]
        exact ⟨fun _ => Or.inr ⟨top, htop, (not_lt.mp hbeyond).trans hto.ge⟩, fun _ => rfl⟩

/-! ## What is complete -/

/-- An account's `account_tx` lists what changes its balances. -/
def ListsHolders (X : Xrpl) (U : Upstream) : Prop :=
  ∀ e, U.Has e → ∀ iss, ∀ account ∈ changed iss (decodeMeta X e.metaBlob),
    e ∈ U.accountTx account

/-- Every upstream transaction that changes the account's balance in the issuance, above
    one ledger up to another, is stored with its deltas. -/
def StoredAfter (X : Xrpl) (U : Upstream) (db : Archive) (i : IssuanceRow) (account : String)
    (after upTo : ℕ) : Prop :=
  ∀ e, U.Has e → i.backfillFromLedger ≤ e.ledgerIndex → after < e.ledgerIndex →
    e.ledgerIndex ≤ upTo → account ∈ changed (trackedIssuance i) (decodeMeta X e.metaBlob) →
      StoredFor X db (trackedIssuance i) e

/-- Every upstream transaction that changes the account's balance in the issuance, from
    its configured start to the ledger, is stored with its deltas. -/
def CompleteBalance (X : Xrpl) (U : Upstream) (db : Archive) (i : IssuanceRow)
    (account : String) (ledger : ℕ) : Prop :=
  ∀ e, U.Has e → i.backfillFromLedger ≤ e.ledgerIndex → e.ledgerIndex ≤ ledger →
    account ∈ changed (trackedIssuance i) (decodeMeta X e.metaBlob) →
      StoredFor X db (trackedIssuance i) e

/-- The claim is of the account, by a scan of the issuance, and reaches the ledger. -/
def Earned (iss : TrackedIssuance) (account : String) (ledger : ℕ) (c : Claim) : Prop :=
  c.row.address = account ∧ c.scan.issuance = iss ∧ ledger ≤ c.row.toLedger

instance (iss : TrackedIssuance) (account : String) (ledger : ℕ) (c : Claim) :
    Decidable (Earned iss account ledger c) :=
  inferInstanceAs (Decidable (_ ∧ _ ∧ _))

/-- The request names the issuance, a member of it and the ledger. -/
structure Asks (db : Archive) (resolveTime : String → Option ℕ) (req : BalanceAtRequest)
    (i : IssuanceRow) (account : String) (ledger : ℕ) : Prop where
  issuance : resolveIssuance db req = some i
  address : req.account.filter (fun s => decide (s ≠ "")) = some account
  point : resolveLedger db resolveTime req = .ok ledger
  member : inIssuanceScope db i.id account

/-- **A BALANCE WITHOUT A WARNING** is complete, and a coverage row earned for the
    issuance reaches its ledger; an account without rows is warned about, and the
    envelope of its rows claims no ledger that none of them contains. -/
structure Honest (X : Xrpl) (U : Upstream) (s : Claimed) (i : IssuanceRow)
    (answer : BalanceAtAnswer) : Prop where
  complete : answer.warning = none →
    CompleteBalance X U s.site.db i answer.account answer.ledgerIndex
  earned : answer.warning = none →
    ∃ c ∈ s.claims, Earned (trackedIssuance i) answer.account answer.ledgerIndex c
  known : accountCoverage s.site.db answer.account = none → answer.warning ≠ none
  contained : ∀ range, accountCoverage s.site.db answer.account = some range →
    ∀ n, range.lo ≤ n → n ≤ range.hi → ∃ row ∈ coverageOf s.site.db answer.account,
      row.fromLedger ≤ n ∧ n ≤ row.toLedger

/-- The account has coverage without a gap; and where a row reaches the ledger, one that
    was claimed for the issuance does, and what changed the balance after the last page
    of its scan is stored. -/
structure Covered (X : Xrpl) (U : Upstream) (s : Claimed) (i : IssuanceRow)
    (account : String) (ledger : ℕ) : Prop where
  covered : coverageOf s.site.db account ≠ []
  chained : Chained (coverageOf s.site.db account)
  earned : (∃ row ∈ coverageOf s.site.db account, ledger ≤ row.toLedger) →
    ∃ c ∈ s.claims, Earned (trackedIssuance i) account ledger c
      ∧ StoredAfter X U s.site.db i account c.scan.validated ledger

/-- A transaction that changes a balance touches a holder. -/
theorem touches_of_changed {X : Xrpl} (hX : SpellsParties X) {iss : TrackedIssuance}
    {e : BinaryTxEntry} {account : String}
    (h : account ∈ changed iss (decodeMeta X e.metaBlob)) : Touches X iss e := by
  cases hm : decodeMeta X e.metaBlob with
  | none =>
      rw [hm] at h
      exact nomatch h
  | some m =>
      rw [hm] at h
      have hnamed := hX.of_decodeMeta hm
      exact ⟨m, hm, List.ne_nil_of_mem
        (holder_of_changed hnamed (List.mem_singleton_self iss) h)⟩

/-- What a scan has read, it has read for every account it claimed a row of. -/
theorem complete_of_earned {X : Xrpl} {U : Upstream} (hX : SpellsParties X)
    (hU : U.Sound X) (hlists : ListsHolders X U) {s : Claimed} (hI : Inv X U s.site)
    (hK : Known s) {i : IssuanceRow} (hi : i ∈ s.site.db.issuances) {account : String}
    {ledger : ℕ} {c : Claim} (hc : c ∈ s.claims)
    (hearned : Earned (trackedIssuance i) account ledger c)
    (hafter : StoredAfter X U s.site.db i account c.scan.validated ledger) :
    CompleteBalance X U s.site.db i account ledger := by
  obtain ⟨haddress, hiss, -⟩ := hearned
  have hok := hI.finished c.scan (hK.scans c hc)
  intro e he hfrom hto hchanged
  by_cases hread : e.ledgerIndex ≤ c.scan.validated
  · have htouch := touches_of_changed hX hchanged
    have hstart : c.scan.fromLedger ≤ e.ledgerIndex :=
      (hok.start i hi (congrArg TrackedIssuance.id hiss).symm).trans hfrom
    -- the scan's account lists the transaction
    have hlisted : e ∈ U.accountTx c.scan.account := by
      rcases hK.own c hc with hissuer | haccount
      · exact hU.lists he (hiss ▸ htouch) (hok.issuer hissuer)
      · rw [← haccount, haddress]
        exact hlists e he _ account hchanged
    rw [← hiss] at htouch ⊢
    exact hok.complete e hlisted hstart hread htouch
  · exact hafter e he hfrom (not_le.mp hread) hto hchanged

theorem resolveIssuance_mem {db : Archive} {req : BalanceAtRequest} {i : IssuanceRow}
    (h : resolveIssuance db req = some i) : i ∈ db.issuances := by
  unfold resolveIssuance at h
  split at h
  · exact (Table.find?_eq_some.mp h).1
  · split at h
    · exact List.mem_of_find?_eq_some h
    · split at h
      · exact List.mem_of_find?_eq_some h
      · exact nomatch h

/-- An answered request names what it asks for, and is answered with it. -/
theorem asks_of_ok {db : Archive} {resolveTime : String → Option ℕ} {req : BalanceAtRequest}
    {answer : BalanceAtAnswer} (h : handleBalanceAt db resolveTime req = .ok answer) :
    ∃ i, Asks db resolveTime req i answer.account answer.ledgerIndex := by
  unfold handleBalanceAt at h
  cases hiss : resolveIssuance db req with
  | none =>
      rw [hiss] at h
      exact nomatch h
  | some i =>
      cases haccount : req.account.filter (fun s => decide (s ≠ "")) with
      | none =>
          rw [hiss, haccount] at h
          exact nomatch h
      | some account =>
          cases hledger : resolveLedger db resolveTime req with
          | error message =>
              rw [hiss, haccount, hledger] at h
              exact nomatch h
          | ok ledger =>
              simp only [hiss, haccount, hledger] at h
              by_cases hscope : ¬ inIssuanceScope db i.id account
              · rw [if_pos hscope] at h
                exact nomatch h
              · rw [if_neg hscope] at h
                cases h
                exact ⟨i, hiss, haccount, hledger, not_not.mp hscope⟩

/-- An answer is honest exactly where the account is covered. -/
theorem honest_iff {X : Xrpl} {U : Upstream} (hX : SpellsParties X) (hU : U.Sound X)
    (hlists : ListsHolders X U) {s : Claimed} (hI : Inv X U s.site) (hK : Known s)
    {i : IssuanceRow} (hi : i ∈ s.site.db.issuances) {answer : BalanceAtAnswer}
    (hwarning : answer.warning = (accountCoverage s.site.db answer.account).filter
      (fun c => decide (answer.ledgerIndex > c.hi))) :
    Honest X U s i answer ↔ Covered X U s i answer.account answer.ledgerIndex := by
  have hunwarned := hwarning ▸ @unwarned_iff s.site.db answer.account answer.ledgerIndex
  have hordered : ∀ row ∈ coverageOf s.site.db answer.account,
      row.fromLedger ≤ row.toLedger := by
    intro row hrow
    have hrow : row ∈ s.claims.map Claim.row := hK.rows ▸ (List.mem_filter.mp hrow).1
    obtain ⟨c, hc, rfl⟩ := List.mem_map.mp hrow
    exact hK.ordered c hc
  constructor
  · intro h
    refine ⟨fun hnone => ?_, (envelope_iff hordered).mp h.contained, fun hreach => ?_⟩
    · exact h.known (accountCoverage_eq_none.mpr hnone) (hunwarned.mpr (Or.inl hnone))
    · have hsilent := hunwarned.mpr (Or.inr hreach)
      obtain ⟨c, hc, hearned⟩ := h.earned hsilent
      refine ⟨c, hc, hearned, fun e he hfrom _ hto hchanged => ?_⟩
      exact h.complete hsilent e he hfrom hto hchanged
  · intro h
    -- without a warning a row reaches the ledger, since there are rows
    have hreach : answer.warning = none →
        ∃ row ∈ coverageOf s.site.db answer.account, answer.ledgerIndex ≤ row.toLedger :=
      fun hsilent => (hunwarned.mp hsilent).resolve_left h.covered
    refine ⟨fun hsilent => ?_, fun hsilent => ?_, fun hnone => ?_,
      (envelope_iff hordered).mpr h.chained⟩
    · obtain ⟨c, hc, hearned, hafter⟩ := h.earned (hreach hsilent)
      exact complete_of_earned hX hU hlists hI hK hi hc hearned hafter
    · obtain ⟨c, hc, hearned, -⟩ := h.earned (hreach hsilent)
      exact ⟨c, hc, hearned⟩
    · exact absurd (accountCoverage_eq_none.mp hnone) h.covered

/-- **A BALANCE WITHOUT A WARNING**: in every state reached, `archive_balance_at` is
    honest exactly about the accounts whose coverage has no gap and reaches the ledger,
    where it does, for the issuance asked about. -/
theorem unwarned_balance_complete (X : Xrpl) (U : Upstream) (hX : SpellsParties X)
    (hU : U.Sound X) (hlists : ListsHolders X U) {s₀ : Site} {s : Claimed}
    (hstart : Fresh s₀) (hempty : s₀.db.coverage = [])
    (hrun : Steps (RegistrarClaims.step X U) anyStep ⟨s₀, []⟩ s)
    (resolveTime : String → Option ℕ) (req : BalanceAtRequest) {answer : BalanceAtAnswer}
    (h : handleBalanceAt s.site.db resolveTime req = .ok answer) :
    ∃ i account ledger, Asks s.site.db resolveTime req i account ledger
      ∧ answer.account = account ∧ answer.ledgerIndex = ledger
      ∧ answer.balance = balanceAt s.site.db i.id account ledger
      ∧ (Honest X U s i answer ↔ Covered X U s i account ledger) := by
  obtain ⟨i, hi, -, hbalance, hwarning⟩ := handleBalanceAt_ok h
  obtain ⟨i', hasks⟩ := asks_of_ok h
  cases Option.some.inj (hi.symm.trans hasks.issuance)
  refine ⟨i, answer.account, answer.ledgerIndex, hasks, rfl, rfl, hbalance, ?_⟩
  exact honest_iff hX hU hlists (Inv.of_steps hU hstart (steps_site hrun))
    (Known.of_steps hstart hempty hrun) (resolveIssuance_mem hi) hwarning

/-! ## A payment, before and after its page -/

/-- The issuer's and `rAlice`'s `account_tx` list both transactions, `rBob`'s the
    payment; the marker `next` lies between them. -/
def payUpstream : Upstream where
  accountTx account :=
    if account = "rIssuer" ∨ account = "rAlice" then [mintEntry, payEntry]
    else if account = "rBob" then [payEntry] else []
  passed marker e := marker = "next" && e = mintEntry

theorem payUpstream_has {e : BinaryTxEntry} (h : payUpstream.Has e) :
    e = mintEntry ∨ e = payEntry := by
  obtain ⟨account, h⟩ := h
  have hlist : payUpstream.accountTx account = if account = "rIssuer" ∨ account = "rAlice"
      then [mintEntry, payEntry] else if account = "rBob" then [payEntry] else [] := rfl
  rw [hlist] at h
  split at h
  · exact List.mem_pair.mp h
  · split at h
    · exact Or.inr (List.mem_singleton.mp h)
    · exact nomatch h

/-- A node of an `MPToken` names its account, of an MPT issuance. -/
theorem token_holder {iss : TrackedIssuance} {w : AffectedNode} {node : Node} {fields : Fields}
    {account : String} {d : DetectedHolder} (hnode : w.node = some node)
    (htype : node.ledgerEntryType = some "MPToken") (hfields : node.fields = some fields)
    (haccount : fields.account = some account) (h : d ∈ nodeHolders [iss] w) :
    iss.kind = .mpt ∧ d.holder = account := by
  unfold nodeHolders at h
  rw [hnode, Option.bind_some, hfields, Option.map_some] at h
  obtain ⟨i, hi, hmap⟩ := List.mem_filterMap.mp h
  cases List.mem_singleton.mp hi
  obtain ⟨holder, hholder, rfl⟩ := Option.map_eq_some_iff.mp hmap
  unfold nodeHolder at hholder
  rw [htype, haccount] at hholder
  cases hkind : iss.kind with
  | mpt =>
      simp only [hkind, true_and] at hholder
      obtain ⟨hholder, -⟩ := Option.filter_eq_some_iff.mp hholder
      obtain ⟨-, hholder⟩ : _ ∧ some account = some holder := by simpa using hholder
      exact ⟨rfl, (Option.some.inj hholder).symm⟩
  | iou => exact absurd hholder (by simp [hkind])

/-- The holders the two transactions name. -/
theorem payHolders {iss : TrackedIssuance} {e : BinaryTxEntry} {m : Meta} {d : DetectedHolder}
    (he : payUpstream.Has e) (hm : decodeMeta payXrpl e.metaBlob = some m)
    (hd : d ∈ holdersInMeta m [iss]) :
    iss.kind = .mpt ∧ (d.holder = "rAlice" ∨ (e = payEntry ∧ d.holder = "rBob")) := by
  obtain ⟨w, hw, hd⟩ := mem_holdersInMeta.mp hd
  rcases payUpstream_has he with rfl | rfl
  · cases Option.some.inj (hm.symm.trans
      (rfl : decodeMeta payXrpl "mint" = some { affectedNodes := some [receipt "rAlice" "5"] }))
    cases List.mem_singleton.mp hw
    obtain ⟨hkind, hholder⟩ := token_holder rfl rfl rfl rfl hd
    exact ⟨hkind, Or.inl hholder⟩
  · cases Option.some.inj (hm.symm.trans (rfl : decodeMeta payXrpl "pay" = some
      { affectedNodes := some [spending "rAlice" "5" "3", receipt "rBob" "2"] }))
    rcases List.mem_pair.mp hw with rfl | rfl
    · obtain ⟨hkind, hholder⟩ := token_holder rfl rfl rfl rfl hd
      exact ⟨hkind, Or.inl hholder⟩
    · obtain ⟨hkind, hholder⟩ := token_holder rfl rfl rfl rfl hd
      exact ⟨hkind, Or.inr ⟨rfl, hholder⟩⟩

theorem payUpstream_sound : payUpstream.Sound payXrpl where
  blob := by
    intro e he
    rcases payUpstream_has he with rfl | rfl <;> decide
  hash := by
    intro e e' he he' hhash
    rcases payUpstream_has he with rfl | rfl <;> rcases payUpstream_has he' with rfl | rfl
    · rfl
    · exact absurd hhash (by decide)
    · exact absurd hhash (by decide)
    · rfl
  lists := by
    intro e iss issuer he htouch hissuer
    obtain ⟨m, hm, hne⟩ := htouch
    obtain ⟨d, hd⟩ := List.exists_mem_of_ne_nil _ hne
    have hkind := (payHolders he hm hd).1
    unfold trackedIssuerOf at hissuer
    rw [hkind] at hissuer
    cases Option.some.inj (hissuer.symm.trans (rfl : _ = some "rIssuer"))
    rcases payUpstream_has he with rfl | rfl <;> decide
  bounded := by
    intro e m he hm
    rcases payUpstream_has he with rfl | rfl <;>
      · cases hm
        decide

theorem payUpstream_listsHolders : ListsHolders payXrpl payUpstream := by
  intro e he iss account haccount
  cases hm : decodeMeta payXrpl e.metaBlob with
  | none =>
      rw [hm] at haccount
      exact nomatch haccount
  | some m =>
      rw [hm] at haccount
      have hholder := holder_of_changed (payXrpl_spells.of_decodeMeta hm)
        (List.mem_singleton_self iss) haccount
      obtain ⟨-, hname | ⟨hpay, hname⟩⟩ := payHolders he hm hholder
      · cases hname
        rcases payUpstream_has he with rfl | rfl <;> decide
      · cases hname
        cases hpay
        decide

/-- A site with the issuer's account. -/
def paySite : Site :=
  { db := { accounts := Table.empty.insertIgnore ⟨"rIssuer", none⟩ }, validated := 300 }

def payRow : IssuanceRow := { id := 1, kind := .mpt, mptIssuanceId := some "MPT" }

def payJob : BackfillJobRow :=
  { id := 1, address := "rIssuer", issuanceId := 1, fromLedger := some 0, kind := .issuer }

/-- The issuance is registered and its sweep begins. -/
def sweepBegins : List Action :=
  [.register payRow, .refreshTracked, .enqueue payRow "rIssuer" .issuer,
    .begin .issuer payIssuance payJob]

def balanceOf (account : String) : BalanceAtRequest :=
  { issuanceId := some 1, account := some account, ledgerIndex := some (.index 201) }

theorem paySite_fresh : Fresh paySite := ⟨nofun, rfl, rfl, rfl⟩

/-- The sweep reads both transactions and claims the ledgers from 200 to 201: the balance
    of `rBob` is complete. -/
theorem unwarned_balance_complete_bob : ∃ (s : Claimed) (answer : BalanceAtAnswer),
    handleBalanceAt s.site.db (fun _ => none) (balanceOf "rBob") = .ok answer
      ∧ answer.balance = 2 ∧ answer.warning = none
      ∧ Honest payXrpl payUpstream s payRow answer := by
  have hrun : (run (RegistrarClaims.step payXrpl payUpstream) ⟨paySite, []⟩ (sweepBegins ++
      [.read (Scan.begin .issuer payIssuance payJob) []
        ⟨[mintEntry, payEntry], none, ⟨"clio", "now"⟩⟩ 300])).map (fun s => decide (
        resolveIssuance s.site.db (balanceOf "rBob") = some payRow
          ∧ (handleBalanceAt s.site.db (fun _ => none) (balanceOf "rBob")).toOption
            = some ⟨"rBob", 201, 2, none⟩
          ∧ coverageOf s.site.db "rBob" ≠ [] ∧ Chained (coverageOf s.site.db "rBob")
          ∧ ∃ c ∈ s.claims, Earned payIssuance "rBob" 201 c ∧ 201 ≤ c.scan.validated))
      = some true := by
    decide +kernel
  obtain ⟨s, hsteps, hend⟩ := Steps.exists_of_run _ hrun
  obtain ⟨hresolve, hanswer, hcovered, hchained, c, hc, hearned, hread⟩ :=
    of_decide_eq_true hend
  have hok := toOption_some.mp hanswer
  obtain ⟨i, account, ledger, hasks, haccount, hledger, -, hiff⟩ :=
    unwarned_balance_complete payXrpl payUpstream payXrpl_spells payUpstream_sound
      payUpstream_listsHolders paySite_fresh rfl hsteps (fun _ => none) (balanceOf "rBob") hok
  cases Option.some.inj (hresolve.symm.trans hasks.issuance)
  cases haccount
  cases hledger
  refine ⟨s, _, hok, rfl, rfl, hiff.mpr ⟨hcovered, hchained, fun _ => ⟨c, hc, hearned, ?_⟩⟩⟩
  intro e _ _ hafter hto _
  exact absurd (hto.trans hread) (not_le.mpr hafter)

/-- The sweep has committed its first page: `rAlice` is a member without coverage, and her
    balance is given without a warning and without the payment. -/
theorem unwarned_balance_incomplete : ∃ (s : Claimed) (answer : BalanceAtAnswer),
    Steps (RegistrarClaims.step payXrpl payUpstream) anyStep ⟨paySite, []⟩ s
      ∧ resolveIssuance s.site.db (balanceOf "rAlice") = some payRow
      ∧ handleBalanceAt s.site.db (fun _ => none) (balanceOf "rAlice") = .ok answer
      ∧ answer.balance = 5 ∧ answer.warning = none
      ∧ accountCoverage s.site.db "rAlice" = none
      ∧ ¬ CompleteBalance payXrpl payUpstream s.site.db payRow "rAlice" 201 := by
  have hrun : (run (RegistrarClaims.step payXrpl payUpstream) ⟨paySite, []⟩ (sweepBegins ++
      [.read (Scan.begin .issuer payIssuance payJob) []
        ⟨[mintEntry], some "next", ⟨"clio", "now"⟩⟩ 300])).map (fun s => decide (
        resolveIssuance s.site.db (balanceOf "rAlice") = some payRow
          ∧ (handleBalanceAt s.site.db (fun _ => none) (balanceOf "rAlice")).toOption
            = some ⟨"rAlice", 201, 5, none⟩
          ∧ accountCoverage s.site.db "rAlice" = none
          ∧ ¬ Stored payXrpl s.site.db payEntry)) = some true := by
    decide +kernel
  obtain ⟨s, hsteps, hend⟩ := Steps.exists_of_run _ hrun
  obtain ⟨hresolve, hanswer, hcoverage, hmissing⟩ := of_decide_eq_true hend
  refine ⟨s, _, hsteps, hresolve, toOption_some.mp hanswer, rfl, rfl, hcoverage, fun h => ?_⟩
  have hchanged : "rAlice" ∈ changed payIssuance (decodeMeta payXrpl payEntry.metaBlob) := by
    decide +kernel
  exact hmissing (h payEntry ⟨"rIssuer", by decide⟩ (by decide) (by decide) hchanged).1

end RegistrarCovered
