import Registrar.Discovery

/-! # One issuer's balances and another's backfill

    `gateway_balances` of an issuer reads the members, the coverage rows and the
    balance changes of its own issuances.  The backfill of another issuer's issuance
    records members of that issuance alone, but coverage rows name an address and
    no issuance, and a worker derives for every tracked issuance.  `Covers` is what
    the coverage check comes to; a step that keeps it and the changes up to the
    ledger keeps the answer. -/

namespace RegistrarGateway

open KeyedTable Runs Statements RegistrarMetadata RegistrarArchive RegistrarIngest
open RegistrarBackfill RegistrarStored RegistrarWritten RegistrarTail RegistrarOrder
open RegistrarPages RegistrarReads
open RegistrarDiscovery (create trackNewHolder trackNewHolder_eq enqueue_ok)

/-! ## The coverage check -/

/-- Every member has coverage, and each of its rows starts at or before the ledger and
    reaches it, unless the tail has. -/
def Covers (db : Archive) (ledger issuanceId : ℕ) : Prop :=
  members db issuanceId ≠ [] ∧ ∀ a ∈ members db issuanceId, coverageOf db a ≠ []
    ∧ ∀ c ∈ coverageOf db a, c.fromLedger ≤ ledger
        ∧ ((∃ t ∈ tailHighWater db, ledger ≤ t) ∨ ledger ≤ c.toLedger)

theorem not_outOfCoverage {db : Archive} {ledger issuanceId : ℕ} :
    ¬ OutOfCoverage db ledger issuanceId ↔
      ∃ cov, conservativeCoverage db issuanceId = some cov ∧ cov.lo ≤ ledger
        ∧ ledger ≤ cov.hi := by
  unfold OutOfCoverage
  cases conservativeCoverage db issuanceId with
  | none => simp
  | some cov => simp

/-- **THE WINDOW**: an issuance covers a ledger when each row of each member does. -/
theorem covers_iff {db : Archive} {ledger issuanceId : ℕ} :
    ¬ OutOfCoverage db ledger issuanceId ↔ Covers db ledger issuanceId := by
  rw [not_outOfCoverage]
  unfold conservativeCoverage
  have hrow : ∀ {c : CoverageRow}, c ∈ (members db issuanceId).flatMap (coverageOf db) ↔
      ∃ a ∈ members db issuanceId, c ∈ coverageOf db a := List.mem_flatMap
  have hempty : (members db issuanceId).flatMap (coverageOf db) = [] →
      ¬ Covers db ledger issuanceId := by
    rintro hnil ⟨hmembers, hall⟩
    obtain ⟨a, ha⟩ := List.exists_mem_of_ne_nil _ hmembers
    obtain ⟨c, hc⟩ := List.exists_mem_of_ne_nil _ (hall a ha).1
    have hin := hrow.mpr ⟨a, ha, hc⟩
    rw [hnil] at hin
    exact absurd hin List.not_mem_nil
  cases hmax : (((members db issuanceId).flatMap (coverageOf db)).map (·.fromLedger)).max? with
  | none =>
      have hnil := List.map_eq_nil_iff.mp (List.max?_eq_none_iff.mp hmax)
      simp only [hmax]
      refine ⟨?_, fun h => absurd h (hempty hnil)⟩
      rintro ⟨cov, hcov, -⟩
      cases hcov
  | some lo =>
      cases hmin : (((members db issuanceId).flatMap (coverageOf db)).map (·.toLedger)).min? with
      | none =>
          have hnil := List.map_eq_nil_iff.mp (List.min?_eq_none_iff.mp hmin)
          simp only [hmax, hmin]
          refine ⟨?_, fun h => absurd h (hempty hnil)⟩
          rintro ⟨cov, hcov, -⟩
          cases hcov
      | some backfillHi =>
          obtain ⟨hloMem, hloAll⟩ := List.max?_eq_some_iff.mp hmax
          obtain ⟨hhiMem, hhiAll⟩ := List.min?_eq_some_iff.mp hmin
          simp only [hmax, hmin]
          by_cases huncovered : ((members db issuanceId).filter
              (fun a => (coverageOf db a).isEmpty)).length > 0
          · rw [if_pos huncovered]
            constructor
            · rintro ⟨cov, hcov, -⟩
              cases hcov
            · intro h
              obtain ⟨a, ha⟩ :=
                List.exists_mem_of_ne_nil _ (List.ne_nil_of_length_pos huncovered)
              obtain ⟨ha, hnone⟩ := List.mem_filter.mp ha
              exact absurd (List.isEmpty_iff.mp hnone) (h.2 a ha).1
          · rw [if_neg huncovered]
            have hcovered : ∀ a ∈ members db issuanceId, coverageOf db a ≠ [] := by
              intro a ha hnil
              refine huncovered (List.length_pos_of_mem (a := a) (List.mem_filter.mpr ⟨ha, ?_⟩))
              exact List.isEmpty_iff.mpr hnil
            have hmembers : members db issuanceId ≠ [] := by
              obtain ⟨c, hc, -⟩ := List.mem_map.mp hloMem
              obtain ⟨a, ha, -⟩ := hrow.mp hc
              exact List.ne_nil_of_mem ha
            have hreach : ∀ {c}, c ∈ (members db issuanceId).flatMap (coverageOf db) →
                backfillHi ≤ c.toLedger := fun hc => hhiAll _ (List.mem_map_of_mem hc)
            obtain ⟨chi, hchi, hchiTo⟩ := List.mem_map.mp hhiMem
            obtain ⟨ahi, hahi, hchi⟩ := hrow.mp hchi
            obtain ⟨clo, hclo, hcloFrom⟩ := List.mem_map.mp hloMem
            obtain ⟨alo, halo, hclo⟩ := hrow.mp hclo
            have hwindow : ∀ hi, (ledger ≤ hi ↔
                  (∃ t ∈ tailHighWater db, ledger ≤ t) ∨ ledger ≤ backfillHi) →
                ((∃ cov, (if lo > hi then none else some ⟨lo, hi⟩ : Option Range) = some cov
                    ∧ cov.lo ≤ ledger ∧ ledger ≤ cov.hi)
                  ↔ Covers db ledger issuanceId) := by
              intro hi hupper
              constructor
              · rintro ⟨cov, hcov, hlo, hle⟩
                obtain ⟨-, hcov⟩ := Option.ite_none_left_eq_some.mp hcov
                cases Option.some.inj hcov
                refine ⟨hmembers, fun a ha => ⟨hcovered a ha, fun c hc => ⟨?_, ?_⟩⟩⟩
                · exact (hloAll _ (List.mem_map_of_mem (hrow.mpr ⟨a, ha, hc⟩))).trans hlo
                · exact (hupper.mp hle).imp id
                    (fun hle => hle.trans (hreach (hrow.mpr ⟨a, ha, hc⟩)))
              · rintro ⟨-, hall⟩
                have hlo : lo ≤ ledger := hcloFrom ▸ ((hall alo halo).2 clo hclo).1
                have hle : ledger ≤ hi := hupper.mpr (hchiTo ▸ ((hall ahi hahi).2 chi hchi).2)
                exact ⟨⟨lo, hi⟩, if_neg (not_lt.mpr (hlo.trans hle)), hlo, hle⟩
            -- the upper end is the tail's when the tail has run past the rows
            cases htail : tailHighWater db with
            | none =>
                refine hwindow backfillHi ⟨Or.inr, fun h => h.resolve_left ?_⟩
                rintro ⟨t, ht, -⟩
                cases htail.symm.trans ht
            | some t =>
                refine hwindow (Nat.max t backfillHi) (le_max_iff.trans
                  (or_congr ⟨fun h => ⟨t, htail, h⟩, ?_⟩ Iff.rfl))
                rintro ⟨t', ht', hle⟩
                cases htail.symm.trans ht'
                exact hle

/-! ## What the answer depends on -/

/-- What `gateway_balances` of the account at the ledger reads is as before, and what
    covered the ledger does. -/
structure Steady (account : String) (ledger : ℕ) (db db' : Archive) : Prop where
  issuances : gatewayIssuances db' account = gatewayIssuances db account
  deltas : ∀ i ∈ gatewayIssuances db account,
    deltasUpTo db' i.id ledger = deltasUpTo db i.id ledger
  covers : ∀ i ∈ gatewayIssuances db account, Covers db ledger i.id → Covers db' ledger i.id

theorem Steady.refl (account : String) (ledger : ℕ) (db : Archive) :
    Steady account ledger db db :=
  ⟨rfl, fun _ _ => rfl, fun _ _ h => h⟩

theorem Steady.trans {account : String} {ledger : ℕ} {a b c : Archive}
    (h₁ : Steady account ledger a b) (h₂ : Steady account ledger b c) :
    Steady account ledger a c where
  issuances := h₂.issuances.trans h₁.issuances
  deltas := fun i hi =>
    (h₂.deltas i (h₁.issuances.symm ▸ hi)).trans (h₁.deltas i hi)
  covers := fun i hi h => h₂.covers i (h₁.issuances.symm ▸ hi) (h₁.covers i hi h)

theorem addIssuance_same {db db' : Archive} {account : String} {hotwallets : List String}
    {ledger : ℕ} {i : IssuanceRow}
    (h : deltasUpTo db' i.id ledger = deltasUpTo db i.id ledger) (answer : GatewayAnswer) :
    addIssuance db' account hotwallets ledger answer i
      = addIssuance db account hotwallets ledger answer i := by
  unfold addIssuance obligation holderBalances
  rw [h]

/-- **A STEADY ARCHIVE GIVES THE SAME ANSWER** at the ledger. -/
theorem Steady.answer {db db' : Archive} {req : GatewayRequest} {ledger : ℕ}
    {answer : GatewayAnswer} (hledger : req.ledgerIndex = some (.index ledger))
    (h : handleGatewayBalances db req = .ok answer)
    (hsteady : ∀ account ∈ req.account, Steady account ledger db db') :
    handleGatewayBalances db' req = .ok answer := by
  unfold handleGatewayBalances at h ⊢
  cases hacc : req.account.filter (fun s => decide (s ≠ "")) with
  | none => rw [hacc] at h; exact nomatch h
  | some account =>
      have hsteady := hsteady account (Option.filter_eq_some_iff.mp hacc).1
      cases hhot : req.hotwallet with
      | none => rw [hacc, hhot] at h; exact nomatch h
      | some hotwallets =>
          simp only [hacc, hhot, hledger, hsteady.issuances] at h ⊢
          by_cases hnone : gatewayIssuances db account = []
          · rw [if_pos hnone] at h
            exact nomatch h
          · rw [if_neg hnone] at h ⊢
            cases hout : (gatewayIssuances db account).find?
                (fun i => OutOfCoverage db ledger i.id) with
            | some i => rw [hout] at h; exact nomatch h
            | none =>
                have hout' : (gatewayIssuances db account).find?
                    (fun i => OutOfCoverage db' ledger i.id) = none := by
                  refine List.find?_eq_none.mpr (fun i hi hc => ?_)
                  have hin : ¬ OutOfCoverage db ledger i.id := fun hc =>
                    List.find?_eq_none.mp hout i hi (decide_eq_true hc)
                  exact covers_iff.mpr (hsteady.covers i hi (covers_iff.mp hin))
                    (of_decide_eq_true hc)
                rw [hout] at h
                rw [hout', ← h]
                refine congrArg Except.ok (List.foldl_ext _ _ _ (fun a i hi => ?_))
                exact addIssuance_same (hsteady.deltas i hi) a

/-! ## The backfill of another issuer -/

/-- No issuance of the account has the id. -/
def Foreign (account : String) (db : Archive) (id : ℕ) : Prop :=
  ∀ i ∈ gatewayIssuances db account, i.id ≠ id

instance (account : String) (db : Archive) (id : ℕ) : Decidable (Foreign account db id) :=
  inferInstanceAs (Decidable (∀ i ∈ gatewayIssuances db account, i.id ≠ id))

/-- Registration, the sweep and the per-holder jobs, statement by statement. -/
inductive Action
  | create (row : IssuanceRow)
  | insertAccount (address : String)
  | enqueue (issuanceId : ℕ) (address : String) (fromLedger : ℕ) (kind : BackfillKind)
  | reclaimStale (issuanceId : ℕ)
  | claim (jobId : ℕ)
  | fail (jobId : ℕ)
  | record (h : DetectedHolder)
  | write (p : Page)

/-- The steps of another issuer's backfill: it registers, sweeps and records holders of
    issuances that are not the account's. -/
def step (X : Xrpl) (account : String) (db : Archive) : Action → Option Archive
  | .create row =>
      if row.kind = .iou ∧ row.issuerAccount = some account then none
      else some (create row db)
  | .insertAccount address => some (insertAccount ⟨address, none⟩ db)
  | .enqueue issuanceId address fromLedger kind =>
      (enqueue issuanceId address (some fromLedger) none kind db).toOption
  | .reclaimStale issuanceId => some (reclaimStale issuanceId db)
  | .claim jobId => some (claimJob jobId db)
  | .fail jobId => some (failJob jobId db)
  | .record h =>
      if Foreign account db h.issuanceId then (trackNewHolder h db).toOption else none
  | .write p => if ∀ id ∈ p.swept, Foreign account db id then p.write X db else none

/-- The coverage rows a transaction adds. -/
def added (db db' : Archive) : List CoverageRow := db'.coverage.drop db.coverage.length

/-- The transaction is of a ledger above the given one, as stored and as the batch has
    it. -/
def Above (db : Archive) (batch : List MappedEntry) (ledger : ℕ) (hash : String) : Prop :=
  (∀ t ∈ db.transactions, t.hash = hash → ledger < t.ledgerIndex)
    ∧ ∀ b ∈ batch, b.row.hash = hash → ledger < b.row.ledgerIndex

instance (db : Archive) (batch : List MappedEntry) (ledger : ℕ) (hash : String) :
    Decidable (Above db batch ledger hash) :=
  inferInstanceAs (Decidable (_ ∧ _))

/-- A page claims, for the members of the account's issuances, ranges with the ledger
    in them, and derives no change in these issuances up to the ledger that is not
    stored. -/
def Harmless (X : Xrpl) (account : String) (ledger : ℕ) (db : Archive) : Action → Prop
  | .write p =>
      (∀ db' ∈ p.write X db, ∀ c ∈ added db db', ∀ i ∈ gatewayIssuances db account,
          c.address ∈ members db i.id → c.fromLedger ≤ ledger
            ∧ ((∃ t ∈ tailHighWater db, ledger ≤ t) ∨ ledger ≤ c.toLedger))
        ∧ ∀ batch ∈ p.batch X, ∀ b ∈ batch,
            ∀ r ∈ derivedRows p.tracked b.row.hash b.metadata,
              ∀ i ∈ gatewayIssuances db account, r.issuanceId = i.id →
                r ∈ db.balanceDeltas ∨ Above db batch ledger r.hash
  | _ => True

instance (X : Xrpl) (account : String) (ledger : ℕ) (db : Archive) (a : Action) :
    Decidable (Harmless X account ledger db a) := by
  unfold Harmless
  split <;> exact inferInstance

/-! ## What a step keeps -/

/-- The transaction of every balance change is stored. -/
def DeltasStored (db : Archive) : Prop :=
  ∀ r ∈ db.balanceDeltas, db.transactions.HasKey r.hash

/-- Up to the ledger, an ingest that derives no new change keeps the changes. -/
theorem deltasUpTo_ingests {F : Facts} {db db' : Archive} (hstored : DeltasStored db)
    (h : Ingests F db db') {id ledger : ℕ}
    (hnew : ∀ r ∈ F.deltas, r.issuanceId = id → r ∈ db.balanceDeltas
      ∨ ∀ t ∈ db'.transactions, t.hash = r.hash → ledger < t.ledgerIndex) :
    deltasUpTo db' id ledger = deltasUpTo db id ledger := by
  obtain ⟨rows, hrows, hfold⟩ := h.deltas
  let p : String × String × ℕ → Prop := fun k =>
    k.2.2 = id ∧ ∃ t ∈ db'.transactions, t.hash = k.1 ∧ t.ledgerIndex ≤ ledger
  have hkeep : (rows.foldl putDelta db.balanceDeltas).rows.filter (fun r => p r.key)
      = db.balanceDeltas.rows.filter (fun r => p r.key) := by
    refine filter_foldl_putDelta (fun r hr hp => ?_)
    obtain ⟨hid, t, ht, hhash, hle⟩ := hp
    rcases hnew r ((hrows r).mp hr) hid with hold | habove
    · exact hold
    · exact absurd hle (not_le.mpr (habove t ht hhash))
  have hsame : db.balanceDeltas.rows.filter (fun r => p r.key)
      = deltasUpTo db id ledger := by
    refine List.filter_congr (fun r hr => ?_)
    obtain ⟨t₀, ht₀, hhash₀⟩ := hstored r hr
    refine decide_eq_decide.mpr (and_congr Iff.rfl ⟨?_, ?_⟩)
    · rintro ⟨t, ht, hhash, hle⟩
      have heq : t = t₀ := db'.transactions.eq_of_key_eq ht (h.kept t₀ ht₀)
        (hhash.trans hhash₀.symm)
      exact ⟨t₀, ht₀, hhash₀, heq ▸ hle⟩
    · rintro ⟨t, ht, hhash, hle⟩
      exact ⟨t, h.kept t ht, hhash, hle⟩
  show db'.balanceDeltas.rows.filter (fun r => p r.key) = _
  rw [hfold, hkeep, hsame]

/-- More rows that cover the ledger leave it covered. -/
theorem Covers.append {db db' : Archive} {ledger id : ℕ} {rows : List CoverageRow}
    (h : Covers db ledger id) (hmembers : ∀ a, a ∈ members db' id ↔ a ∈ members db id)
    (hcoverage : db'.coverage = db.coverage ++ rows) (hledgers : db'.ledgers = db.ledgers)
    (hrows : ∀ c ∈ rows, c.address ∈ members db id → c.fromLedger ≤ ledger
      ∧ ((∃ t ∈ tailHighWater db, ledger ≤ t) ∨ ledger ≤ c.toLedger)) :
    Covers db' ledger id := by
  have htail : tailHighWater db' = tailHighWater db := by
    unfold tailHighWater
    rw [hledgers]
  have hof : ∀ a, coverageOf db' a = coverageOf db a ++ rows.filter (fun c => c.address = a) := by
    intro a
    unfold coverageOf
    rw [hcoverage, List.filter_append]
  refine ⟨?_, fun a ha => ?_⟩
  · obtain ⟨a, ha⟩ := List.exists_mem_of_ne_nil _ h.1
    exact List.ne_nil_of_mem ((hmembers a).mpr ha)
  · have ha := (hmembers a).mp ha
    obtain ⟨hsome, hall⟩ := h.2 a ha
    rw [hof a, htail]
    refine ⟨fun hnil => hsome (List.append_eq_nil_iff.mp hnil).1, fun c hc => ?_⟩
    rcases List.mem_append.mp hc with hc | hc
    · exact hall c hc
    · obtain ⟨hc, haddress⟩ := List.mem_filter.mp hc
      exact hrows c hc (of_decide_eq_true haddress ▸ ha)

/-- A statement that writes none of the tables `gateway_balances` reads. -/
theorem Steady.of_same {account : String} {ledger : ℕ} {db db' : Archive}
    (hissuances : gatewayIssuances db' account = gatewayIssuances db account)
    (hmembers : ∀ i ∈ gatewayIssuances db account, ∀ a,
      a ∈ members db' i.id ↔ a ∈ members db i.id)
    (hcoverage : db'.coverage = db.coverage) (hledgers : db'.ledgers = db.ledgers)
    (htransactions : db'.transactions = db.transactions)
    (hdeltas : db'.balanceDeltas = db.balanceDeltas) : Steady account ledger db db' where
  issuances := hissuances
  deltas := fun i _ => by
    unfold deltasUpTo
    rw [hdeltas, htransactions]
  covers := fun i hi h => h.append (hmembers i hi)
    (hcoverage.trans (List.append_nil _).symm) hledgers (fun _ hc => nomatch hc)

/-- Registering an issuance of another issuer. -/
theorem gatewayIssuances_create {account : String} {row : IssuanceRow} {db : Archive}
    (hother : ¬ (row.kind = .iou ∧ row.issuerAccount = some account)) :
    gatewayIssuances (create row db) account = gatewayIssuances db account := by
  unfold gatewayIssuances
  congr 1
  let new : IssuanceRow := { row with id := db.issuanceSeq }
  show (db.issuances.insertIgnore new).rows.filter _ = _
  by_cases hkey : db.issuances.HasKey new.id
  · rw [Table.insertIgnore, dif_pos hkey]
  · rw [Table.insertIgnore_rows hkey, List.filter_append,
      List.filter_cons_of_neg (a := new)
        (by simpa [new] using fun h₁ h₂ => absurd ⟨h₁, h₂⟩ hother),
      List.filter_nil, List.append_nil]

/-- A page of another issuer's backfill. -/
theorem Steady.write {X : Xrpl} {account : String} {ledger : ℕ} {p : Page} {db db' : Archive}
    (hstored : DeltasStored db) (hforeign : ∀ id ∈ p.swept, Foreign account db id)
    (hok : Harmless X account ledger db (.write p)) (h : p.write X db = some db') :
    Steady account ledger db db' := by
  obtain ⟨batch, hbatch, hingests⟩ := p.write_ingests h
  obtain ⟨⟨rows, hrows⟩, hledgers⟩ := Page.write_coverage h
  have hissuances : gatewayIssuances db' account = gatewayIssuances db account := by
    unfold gatewayIssuances
    rw [hingests.issuances]
  refine ⟨hissuances, fun i hi => ?_, fun i hi hcovers => ?_⟩
  · refine deltasUpTo_ingests hstored hingests (fun r hr hid => ?_)
    rcases hr with hnone | ⟨b, hb, hr⟩
    · exact absurd hnone (Set.notMem_empty r)
    · refine (hok.2 batch hbatch b hb r hr i hi hid).imp id (fun habove t ht hhash => ?_)
      rcases hingests.new t ht with hold | ⟨tx, htx, heq⟩ | ⟨_, _, hnone⟩
      · exact habove.1 t hold hhash
      · obtain ⟨b', hb', rfl⟩ := List.mem_map.mp htx
        have hledger : t.ledgerIndex = b'.row.ledgerIndex :=
          (congrArg TransactionRow.ledgerIndex heq :)
        have hsame : t.hash = b'.row.hash := (congrArg TransactionRow.hash heq :)
        rw [hledger]
        exact habove.2 b' hb' (hsame.symm.trans hhash)
      · exact absurd hnone (Set.notMem_empty _)
  · refine hcovers.append (fun a => ?_) hrows hledgers (fun c hc hmember => ?_)
    · rw [mem_members, mem_members]
      refine ⟨Page.write_members_other h (fun hswept => ?_), Page.write_members h⟩
      exact hforeign i.id hswept i hi rfl
    · refine hok.1 db' h c ?_ i hi hmember
      unfold added
      rw [hrows, List.drop_left]
      exact hc

/-- A recorded holder is a member of its issuance, and no one else becomes one. -/
theorem Steady.record {account : String} {ledger : ℕ} {h : DetectedHolder}
    {db db' : Archive} (hforeign : Foreign account db h.issuanceId)
    (hok : trackNewHolder h db = .ok db') :
    Steady account ledger db db' ∧ db'.balanceDeltas = db.balanceDeltas
      ∧ db'.transactions = db.transactions := by
  rw [trackNewHolder_eq] at hok
  cases Except.ok.inj (guarded_ok.mp (guarded_ok.mp hok).2).2
  refine ⟨Steady.of_same rfl (fun i hi a => ?_) rfl rfl rfl rfl, rfl, rfl⟩
  rw [mem_members, mem_members]
  refine ⟨fun hk => ?_, fun hk => Table.hasKey_upsert.mpr (Or.inl hk)⟩
  rcases Table.hasKey_upsert.mp hk with hk | heq
  · exact hk
  · exact absurd (congrArg Prod.snd heq) (hforeign i hi)

/-- The transaction of a change a page derives is stored with it. -/
theorem DeltasStored.write {X : Xrpl} {p : Page} {db db' : Archive}
    (hstored : DeltasStored db) (h : p.write X db = some db') : DeltasStored db' := by
  obtain ⟨batch, -, hingests⟩ := p.write_ingests h
  intro r hr
  rcases hingests.mem_deltas hr with hold | hnone | ⟨b, hb, hrow⟩
  · obtain ⟨t, ht, hhash⟩ := hstored r hold
    exact ⟨t, hingests.kept t ht, hhash⟩
  · exact absurd hnone (Set.notMem_empty r)
  · obtain ⟨_, _, _, _, _, _, rfl⟩ := mem_derivedRows.mp hrow
    exact hingests.stored (bare b.row.row) (Or.inl ⟨b.row, List.mem_map_of_mem hb, rfl⟩)

/-- **EVERY STEP OF ANOTHER ISSUER'S BACKFILL** is steady when it is harmless. -/
theorem Steady.step {X : Xrpl} {account : String} {ledger : ℕ} {db db' : Archive}
    {a : Action} (hstored : DeltasStored db) (hok : Harmless X account ledger db a)
    (hs : step X account db a = some db') :
    Steady account ledger db db' ∧ DeltasStored db' := by
  have hkept : db'.balanceDeltas = db.balanceDeltas → db'.transactions = db.transactions →
      DeltasStored db' := by
    intro hdeltas htransactions r hr
    rw [htransactions]
    exact hstored r (hdeltas ▸ hr)
  cases a with
  | create row =>
      obtain ⟨hother, hs⟩ := Option.ite_none_left_eq_some.mp hs
      cases Option.some.inj hs
      exact ⟨Steady.of_same (gatewayIssuances_create hother) (fun _ _ _ => Iff.rfl)
        rfl rfl rfl rfl, hkept rfl rfl⟩
  | insertAccount address =>
      cases Option.some.inj hs
      exact ⟨Steady.of_same rfl (fun _ _ _ => Iff.rfl) rfl rfl rfl rfl, hkept rfl rfl⟩
  | enqueue issuanceId address fromLedger kind =>
      obtain ⟨_, _, rfl⟩ := enqueue_ok (toOption_some.mp hs)
      exact ⟨Steady.of_same rfl (fun _ _ _ => Iff.rfl) rfl rfl rfl rfl, hkept rfl rfl⟩
  | reclaimStale issuanceId =>
      cases Option.some.inj hs
      exact ⟨Steady.of_same rfl (fun _ _ _ => Iff.rfl) rfl rfl rfl rfl, hkept rfl rfl⟩
  | claim jobId =>
      cases Option.some.inj hs
      exact ⟨Steady.of_same rfl (fun _ _ _ => Iff.rfl) rfl rfl rfl rfl, hkept rfl rfl⟩
  | fail jobId =>
      cases Option.some.inj hs
      exact ⟨Steady.of_same rfl (fun _ _ _ => Iff.rfl) rfl rfl rfl rfl, hkept rfl rfl⟩
  | record h =>
      obtain ⟨hforeign, hs⟩ := Option.ite_none_right_eq_some.mp hs
      obtain ⟨hsteady, hdeltas, htransactions⟩ := Steady.record hforeign (toOption_some.mp hs)
      exact ⟨hsteady, hkept hdeltas htransactions⟩
  | write p =>
      obtain ⟨hforeign, hs⟩ := Option.ite_none_right_eq_some.mp hs
      exact ⟨Steady.write hstored hforeign hok hs, hstored.write hs⟩

/-- **ISSUANCES DO NOT INTERFERE** where every step of the other issuer's backfill is
    harmless: what `gateway_balances` answered before it answers after. -/
theorem gateway_balances_undisturbed (X : Xrpl) {db db' : Archive} {req : GatewayRequest}
    {account : String} {ledger : ℕ} {answer : GatewayAnswer} (hkeys : db.ForeignKeys)
    (haccount : req.account = some account) (hledger : req.ledgerIndex = some (.index ledger))
    (h : handleGatewayBalances db req = .ok answer)
    (hrun : Steps (step X account) (Harmless X account ledger) db db') :
    handleGatewayBalances db' req = .ok answer := by
  have hsteady : Steady account ledger db db' ∧ DeltasStored db' := by
    refine hrun.inv (fun d => Steady account ledger db d ∧ DeltasStored d)
      ⟨Steady.refl account ledger db, hkeys.balanceDeltas_hash⟩ (fun d a d' hI hok hs => ?_)
    obtain ⟨hnext, hstored⟩ := Steady.step hI.2 hok hs
    exact ⟨hI.1.trans hnext, hstored⟩
  refine Steady.answer hledger h (fun a ha => ?_)
  cases haccount.symm.trans ha
  exact hsteady.1

/-! ## Two issuers with a holder in common -/

/-- The trust line of a holder to an issuer, created with a balance. -/
def trustLine (currency issuer holder : String) (value : ℚ) : Option AffectedNode :=
  some { createdNode := some {
    ledgerEntryType := some "RippleState", ledgerIndex := some (holder ++ issuer)
    newFields := some {
      balance := some ⟨some value, some currency, none⟩
      lowLimit := some ⟨some 0, some currency, some holder⟩
      highLimit := some ⟨some 0, some currency, some issuer⟩ } } }

/-- A stub of `xrpl`: `rHolder` and `rOther` are issued dollars and euros. -/
def linesXrpl : Xrpl where
  decodeMeta blob :=
    if blob = "usd" then some { affectedNodes := some [trustLine "USD" "rUsd" "rHolder" 5] }
    else if blob = "usd2" then some { affectedNodes := some [trustLine "USD" "rUsd" "rOther" 3] }
    else if blob = "eur" then some { affectedNodes := some [trustLine "EUR" "rEur" "rHolder" 7] }
    else if blob = "eur2" then some { affectedNodes := some [trustLine "EUR" "rEur" "rOther" 1] }
    else none
  decodeTxType _ := some (some "TrustSet")
  hashSignedTx blob := blob
  encodeAccountID _ := none

def usdIssuance : TrackedIssuance :=
  { id := 1, kind := .iou, currency := some "USD", issuer := some "rUsd" }

def eurIssuance : TrackedIssuance :=
  { id := 2, kind := .iou, currency := some "EUR", issuer := some "rEur" }

/-- The only page of a sweep, which claims up to the highest ledger it keeps. -/
def lastPage (iss : TrackedIssuance) (issuer : String) (entries : List BinaryTxEntry) : Page :=
  let page : BackfillPage := ⟨entries, none, ⟨"clio", "now"⟩⟩
  let kept := (sweepBatch linesXrpl [iss] issuer page).getD []
  .sweep iss
    { id := iss.id, address := issuer, issuanceId := iss.id, fromLedger := some 0
      kind := .issuer } page (raiseAll 0 (kept.map (·.row.ledgerIndex)))

/-- Register an issuance and run its sweep. -/
def ingest (iss : TrackedIssuance) (issuer : String) (entries : List BinaryTxEntry) :
    List Action :=
  [.create { id := 0, kind := .iou, currency := iss.currency, issuerAccount := some issuer },
    .insertAccount issuer, .enqueue iss.id issuer 0 .issuer, .reclaimStale iss.id,
    .claim iss.id, .write (lastPage iss issuer entries)]

/-- The dollars are issued to `rHolder` at 100 and to `rOther` at 300. -/
def usdRun : List Action := ingest usdIssuance "rUsd" [⟨"t1", "usd", 100⟩, ⟨"t2", "usd2", 300⟩]

def usdRequest : GatewayRequest := { account := some "rUsd", ledgerIndex := some (.index 200) }

/-- The euros are issued at 150 and at 300: their sweep claims 150 to 300, and the answer
    at 200 stays. -/
theorem gateway_balances_undisturbed_usd : ∃ db db' answer,
    Steps (step linesXrpl "rUsd") anyStep db db' ∧ db'.coverage.length = 6
      ∧ answer.reported "USD" = 5 ∧ handleGatewayBalances db' usdRequest = .ok answer := by
  have hstart : (run (step linesXrpl "") {} usdRun).map (fun db => decide (db.ForeignKeys
      ∧ (handleGatewayBalances db usdRequest).toOption.map (·.reported "USD") = some 5
      ∧ (runChecked (step linesXrpl "rUsd") (Harmless linesXrpl "rUsd" 200) db
          (ingest eurIssuance "rEur" [⟨"t3", "eur", 150⟩, ⟨"t4", "eur2", 300⟩])).map
            (fun db' => db'.coverage.length) = some 6)) = some true := by
    decide +kernel
  obtain ⟨db, -, hdb⟩ := Option.map_eq_some_iff.mp hstart
  obtain ⟨hkeys, hanswer, hrun⟩ := of_decide_eq_true hdb
  obtain ⟨answer, hok, hreported⟩ := Option.map_eq_some_iff.mp hanswer
  obtain ⟨db', hsteps, hlength⟩ := Steps.exists_of_runChecked _ hrun
  exact ⟨db, db', answer, hsteps.weaken (fun _ _ _ => trivial), hlength, hreported,
    gateway_balances_undisturbed linesXrpl hkeys rfl rfl (toOption_some.mp hok) hsteps⟩

/-- With the euros first issued to `rHolder` at 250, their sweep claims `rHolder` from
    there on, and `gateway_balances` of the dollars at 200 fails. -/
theorem sweep_of_euros_disturbs_dollars : ∃ db db' answer,
    Steps (step linesXrpl "") anyStep {} db ∧ handleGatewayBalances db usdRequest = .ok answer
      ∧ answer.reported "USD" = 5 ∧ Steps (step linesXrpl "rUsd") anyStep db db'
      ∧ (handleGatewayBalances db' usdRequest).toOption.isNone := by
  have hstart : (run (step linesXrpl "") {} usdRun).map (fun db => decide (
      (handleGatewayBalances db usdRequest).toOption.map (·.reported "USD") = some 5
        ∧ (run (step linesXrpl "rUsd") db (ingest eurIssuance "rEur" [⟨"t3", "eur", 250⟩])).map
            (fun db' => (handleGatewayBalances db' usdRequest).toOption.isNone)
          = some true)) = some true := by
    decide +kernel
  obtain ⟨db, hreach, hdb⟩ := Steps.exists_of_run _ hstart
  obtain ⟨hanswer, hrun⟩ := of_decide_eq_true hdb
  obtain ⟨answer, hok, hreported⟩ := Option.map_eq_some_iff.mp hanswer
  obtain ⟨db', hsteps, hnone⟩ := Steps.exists_of_run _ hrun
  exact ⟨db, db', answer, hreach, toOption_some.mp hok, hreported, hsteps, hnone⟩

end RegistrarGateway
