import Registrar.Scans

/-! # Who claimed a coverage row

    A coverage row carries an account and a range.  It does not say which scan claimed
    it: the claims are kept here beside the site, each row with the scan whose last
    page appended it. -/

namespace RegistrarClaims

open KeyedTable Runs Statements RegistrarMetadata RegistrarArchive RegistrarIngest
open RegistrarBackfill RegistrarSweep RegistrarPages RegistrarWritten
open RegistrarResume (sweepRows le_raiseAll)
open RegistrarScans

/-- A coverage row and the scan that claimed it with its last page. -/
structure Claim where
  row : CoverageRow
  scan : Finished
  deriving DecidableEq

/-- The site and the claims made on it. -/
structure Claimed where
  site : Site
  claims : List Claim := []

/-- What a page appends to the coverage, its scan claims. -/
def claimedBy (s s' : Site) : Action → List Claim
  | .read sc _ _ validated =>
      (s'.db.coverage.drop s.db.coverage.length).map (⟨·, sc.finish validated⟩)
  | _ => []

/-- The steps of the site. -/
def step (X : Xrpl) (U : Upstream) (s : Claimed) (a : Action) : Option Claimed :=
  (RegistrarScans.step X U s.site a).map fun site =>
    ⟨site, s.claims ++ claimedBy s.site site a⟩

theorem step_some {X : Xrpl} {U : Upstream} {s s' : Claimed} {a : Action}
    (h : step X U s a = some s') : RegistrarScans.step X U s.site a = some s'.site
      ∧ s'.claims = s.claims ++ claimedBy s.site s'.site a := by
  obtain ⟨site, hsite, rfl⟩ := Option.map_eq_some_iff.mp h
  exact ⟨hsite, rfl⟩

/-- A run is a run of the site. -/
theorem steps_site {X : Xrpl} {U : Upstream} {s₀ s : Claimed}
    (h : Steps (step X U) anyStep s₀ s) :
    Steps (RegistrarScans.step X U) anyStep s₀.site s.site :=
  h.project Claimed.site (fun _ => True) (fun _ _ _ _ _ _ => trivial)
    (fun _ a _ _ _ hs => Or.inr ⟨a, trivial, (step_some hs).1⟩) trivial

/-! ## The rows of a page -/

/-- The row of a sweep or of a job ends no lower than it begins. -/
theorem sweepRows_ordered {issuanceId fromLedger toLedger : ℕ} {issuer : String}
    {db : Archive} {row : CoverageRow}
    (h : row ∈ sweepRows issuanceId issuer fromLedger toLedger db) :
    row.fromLedger ≤ row.toLedger := by
  obtain ⟨address, -, rfl⟩ := List.mem_map.mp h
  exact min_le_left _ _

theorem le_absorb {X : Xrpl} {sc : Scan} {page : BackfillPage} :
    sc.highWater ≤ sc.absorb X page :=
  le_raiseAll.mpr (Or.inl le_rfl)

/-- What the page of a scan appends to the coverage: nothing before the last page, and
    then rows that are in order, of the account for a per-holder job. -/
theorem page_coverage {X : Xrpl} {sc : Scan} {seen tracked : List TrackedIssuance}
    {page : BackfillPage} {db db' : Archive} (hwater : jobStart sc.job ≤ sc.highWater)
    (h : (sc.page X seen tracked page).write X db = some db') :
    ∃ rows, db'.coverage = db.coverage ++ rows ∧ (page.marker.isNone = false → rows = [])
      ∧ ∀ row ∈ rows, row.fromLedger ≤ row.toLedger
          ∧ (sc.kind = .issuer ∨ row.address = sc.job.address) := by
  unfold Scan.page at h
  cases hkind : sc.kind with
  | issuer =>
      rw [hkind] at h
      obtain ⟨batch, -, h⟩ := Option.bind_eq_some_iff.mp h
      obtain ⟨d, hd, -, hcoverage⟩ := sweepTransaction_ok (toOption_some.mp h)
      have hkept : d.coverage = db.coverage :=
        congrArg Untouched.coverage (beside_writeBatch hd).untouched
      rw [hkept] at hcoverage
      refine ⟨_, hcoverage, fun hmarker => ?_, fun row hrow => ?_⟩
      · rw [hmarker]
        rfl
      · by_cases hfinal : page.marker.isNone
        · rw [if_pos hfinal] at hrow
          exact ⟨sweepRows_ordered hrow, Or.inl rfl⟩
        · rw [if_neg hfinal] at hrow
          exact nomatch hrow
  | account =>
      rw [hkind] at h
      obtain ⟨mapped, -, h⟩ := Option.bind_eq_some_iff.mp h
      obtain ⟨d₁, d, h₁, h₂, -, hcoverage⟩ := workerTransaction_ok (toOption_some.mp h)
      have hkept : d.coverage = db.coverage :=
        congrArg Untouched.coverage (beside_batch h₁ h₂).untouched
      rw [hkept] at hcoverage
      refine ⟨_, hcoverage, fun hmarker => ?_, fun row hrow => ?_⟩
      · rw [hmarker]
        rfl
      · by_cases hfinal : page.marker.isNone
        · rw [if_pos hfinal] at hrow
          cases List.mem_singleton.mp hrow
          exact ⟨hwater.trans le_absorb, Or.inr rfl⟩
        · rw [if_neg hfinal] at hrow
          exact nomatch hrow

/-! ## What every step keeps -/

/-- The coverage is what was claimed: by a scan that came to its end, for any account by
    a sweep and for its own by a job, of a range in order. -/
structure Known (s : Claimed) : Prop where
  rows : s.claims.map Claim.row = s.site.db.coverage
  scans : ∀ c ∈ s.claims, c.scan ∈ s.site.finished
  own : ∀ c ∈ s.claims, c.scan.kind = .issuer ∨ c.row.address = c.scan.account
  ordered : ∀ c ∈ s.claims, c.row.fromLedger ≤ c.row.toLedger
  waters : ∀ sc ∈ s.site.scans, jobStart sc.job ≤ sc.highWater

/-- A step other than a page of a scan claims nothing. -/
theorem Known.quiet {s : Claimed} (hs : Known s) {site : Site}
    (hcoverage : site.db.coverage = s.site.db.coverage)
    (hfinished : site.finished = s.site.finished)
    (hscans : ∀ sc ∈ site.scans, sc ∈ s.site.scans ∨ sc.highWater = jobStart sc.job) :
    Known ⟨site, s.claims ++ []⟩ := by
  rw [List.append_nil]
  refine ⟨hs.rows.trans hcoverage.symm, fun c hc => hfinished.symm ▸ hs.scans c hc, hs.own,
    hs.ordered, fun sc hsc => ?_⟩
  rcases hscans sc hsc with hold | hbegin
  · exact hs.waters sc hold
  · exact hbegin.symm.le

/-- A page of a scan claims what it appends. -/
theorem Known.read {X : Xrpl} {U : Upstream} {s : Claimed} (hs : Known s) {sc : Scan}
    {seen : List TrackedIssuance} {page : BackfillPage} {validated : ℕ} {site : Site}
    (h : RegistrarScans.step X U s.site (.read sc seen page validated) = some site) :
    Known ⟨site, s.claims ++ claimedBy s.site site (.read sc seen page validated)⟩ := by
  unfold RegistrarScans.step at h
  by_cases hcan : CanRead U s.site sc seen page validated
  · simp only [if_pos hcan] at h
    obtain ⟨db, hdb, hsite⟩ := Option.map_eq_some_iff.mp h
    have hwater := hs.waters sc hcan.1
    obtain ⟨rows, hcoverage, hlast, hrows⟩ := page_coverage hwater hdb
    have hclaimed : claimedBy s.site site (.read sc seen page validated)
        = rows.map (Claim.mk · (sc.finish validated)) := by
      rw [← hsite]
      show (db.coverage.drop s.site.db.coverage.length).map _ = _
      rw [hcoverage, List.drop_left]
    -- a new claim is of a new row, and then the scan has come to its end
    have hnew : ∀ c ∈ rows.map (Claim.mk · (sc.finish validated)),
        ∃ row ∈ rows, c = ⟨row, sc.finish validated⟩ ∧ page.marker.isNone = true := by
      intro c hc
      obtain ⟨row, hrow, rfl⟩ := List.mem_map.mp hc
      refine ⟨row, hrow, rfl, ?_⟩
      cases hmarker : page.marker.isNone with
      | true => rfl
      | false => exact absurd (hlast hmarker ▸ hrow) List.not_mem_nil
    rw [hclaimed]
    cases hsite
    constructor
    · show (s.claims ++ _).map Claim.row = db.coverage
      rw [List.map_append, hs.rows, List.map_map, hcoverage]
      exact congrArg _ (List.map_id rows)
    · intro c hc
      rcases List.mem_append.mp hc with hc | hc
      · exact List.mem_append_left _ (hs.scans c hc)
      · obtain ⟨row, -, rfl, hfinal⟩ := hnew c hc
        show _ ∈ s.site.finished ++ _
        rw [if_pos hfinal]
        exact List.mem_append_right _ (List.mem_singleton_self _)
    · intro c hc
      rcases List.mem_append.mp hc with hc | hc
      · exact hs.own c hc
      · obtain ⟨row, hrow, rfl, -⟩ := hnew c hc
        exact (hrows row hrow).2
    · intro c hc
      rcases List.mem_append.mp hc with hc | hc
      · exact hs.ordered c hc
      · obtain ⟨row, hrow, rfl, -⟩ := hnew c hc
        exact (hrows row hrow).1
    · intro x hx
      rcases List.mem_append.mp hx with hx | hx
      · exact hs.waters x (List.mem_of_mem_erase hx)
      · by_cases hfinal : page.marker.isNone
        · rw [if_pos hfinal] at hx
          exact nomatch hx
        · rw [if_neg hfinal] at hx
          cases List.mem_singleton.mp hx
          exact hwater.trans le_absorb
  · simp only [if_neg hcan] at h
    exact nomatch h

/-- **WHAT EVERY STEP KEEPS**. -/
theorem Known.step {X : Xrpl} {U : Upstream} {s s' : Claimed} {a : Action} (hs : Known s)
    (h : RegistrarClaims.step X U s a = some s') : Known s' := by
  obtain ⟨site, hsite, rfl⟩ := Option.map_eq_some_iff.mp h
  cases a with
  | close ledger =>
      cases Option.some.inj hsite
      exact hs.quiet rfl rfl fun sc hsc => Or.inl hsc
  | register row =>
      cases Option.some.inj hsite
      exact hs.quiet rfl rfl fun sc hsc => Or.inl hsc
  | insertAccount address =>
      cases Option.some.inj hsite
      exact hs.quiet rfl rfl fun sc hsc => Or.inl hsc
  | enqueue i address kind =>
      unfold RegistrarScans.step at hsite
      by_cases hi : i ∈ s.site.db.issuances
      · simp only [if_pos hi] at hsite
        obtain ⟨db, hdb, rfl⟩ := Option.map_eq_some_iff.mp hsite
        refine hs.quiet ?_ rfl fun sc hsc => Or.inl hsc
        have hok := toOption_some.mp hdb
        unfold enqueue at hok
        by_cases hkey : s.site.db.backfillJob.HasKey (address, i.id)
        · rw [if_pos hkey] at hok
          cases Except.ok.inj hok
          rfl
        · rw [if_neg hkey] at hok
          cases Except.ok.inj (guarded_ok.mp (guarded_ok.mp hok).2).2
          rfl
      · simp only [if_neg hi] at hsite
        exact nomatch hsite
  | reclaimStale issuanceId =>
      cases Option.some.inj hsite
      exact hs.quiet rfl rfl fun sc hsc => Or.inl hsc
  | record holder =>
      obtain ⟨db, hdb, rfl⟩ := Option.map_eq_some_iff.mp hsite
      have hok := toOption_some.mp hdb
      rw [RegistrarDiscovery.trackNewHolder_eq] at hok
      cases Except.ok.inj (guarded_ok.mp (guarded_ok.mp hok).2).2
      exact hs.quiet rfl rfl fun sc hsc => Or.inl hsc
  | refreshTracked =>
      cases Option.some.inj hsite
      exact hs.quiet rfl rfl fun sc hsc => Or.inl hsc
  | recordLedger row =>
      cases Option.some.inj hsite
      exact hs.quiet rfl rfl fun sc hsc => Or.inl hsc
  | «begin» kind iss job =>
      unfold RegistrarScans.step at hsite
      by_cases hok : job ∈ s.site.db.backfillJob
          ∧ iss ∈ RegistrarDiscovery.registered s.site.db
          ∧ iss.id = job.issuanceId ∧ CanBegin X s.site kind iss job
      · simp only [if_pos hok] at hsite
        cases hsite
        refine hs.quiet ?_ rfl fun sc hsc => ?_
        · cases kind <;> rfl
        · rcases List.mem_append.mp hsc with hsc | hsc
          · exact Or.inl hsc
          · cases List.mem_singleton.mp hsc
            exact Or.inr rfl
      · simp only [if_neg hok] at hsite
        exact nomatch hsite
  | read sc seen page validated => exact hs.read hsite
  | fail sc =>
      unfold RegistrarScans.step at hsite
      by_cases hsc : sc ∈ s.site.scans
      · simp only [if_pos hsc] at hsite
        cases hsite
        exact hs.quiet rfl rfl fun x hx => Or.inl (List.mem_of_mem_erase hx)
      · simp only [if_neg hsc] at hsite
        exact nomatch hsite
  | heal seen issuer page =>
      unfold RegistrarScans.step at hsite
      by_cases hof : ∀ e ∈ page.entries, e ∈ U.accountTx issuer
      · simp only [if_pos hof] at hsite
        obtain ⟨db, hdb, rfl⟩ := Option.map_eq_some_iff.mp hsite
        obtain ⟨_, -, hgap⟩ := Option.bind_eq_some_iff.mp hdb
        have hbeside := (beside_gapTransaction (toOption_some.mp hgap)).untouched
        exact hs.quiet (congrArg Untouched.coverage hbeside) rfl fun sc hsc => Or.inl hsc
      · simp only [if_neg hof] at hsite
        exact nomatch hsite
  | event e account seen msg res =>
      unfold RegistrarScans.step at hsite
      by_cases hof : e ∈ U.accountTx account
          ∧ ∀ ev ∈ streamEvent X seen msg res, IsEventOf X e ev
      · simp only [if_pos hof] at hsite
        obtain ⟨db, hdb, rfl⟩ := Option.map_eq_some_iff.mp hsite
        obtain ⟨_, -, hevent⟩ := Option.bind_eq_some_iff.mp hdb
        have hbeside := (beside_ingestEvent (toOption_some.mp hevent)).untouched
        exact hs.quiet (congrArg Untouched.coverage hbeside) rfl fun sc hsc => Or.inl hsc
      · simp only [if_neg hof] at hsite
        exact nomatch hsite
  | restart =>
      cases Option.some.inj hsite
      exact hs.quiet rfl rfl fun _ hsc => nomatch hsc

/-- **WHAT EVERY RUN KEEPS**, from a site on which no job was ever created and nothing is
    covered. -/
theorem Known.of_steps {X : Xrpl} {U : Upstream} {s₀ : Site} {s : Claimed}
    (hstart : Fresh s₀) (hempty : s₀.db.coverage = [])
    (h : Steps (RegistrarClaims.step X U) anyStep ⟨s₀, []⟩ s) : Known s := by
  have hnone : Known ⟨s₀, []⟩ := by
    refine ⟨hempty.symm, ?_, ?_, ?_, fun sc hsc => ?_⟩
    · exact fun _ hc => absurd hc List.not_mem_nil
    · exact fun _ hc => absurd hc List.not_mem_nil
    · exact fun _ hc => absurd hc List.not_mem_nil
    · exact absurd (hstart.scans ▸ hsc) List.not_mem_nil
  exact h.inv Known hnone (fun _ _ _ hs _ hstep => hs.step hstep)

end RegistrarClaims
