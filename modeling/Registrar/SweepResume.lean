import Registrar.SweepCoverage
import Registrar.Library.PagedJob

/-! # Resuming a backfill

    A backfill job may be cut off anywhere: its upstream request or its page
    transaction fails, its transaction is retried, or the process crashes.  A
    later attempt resumes the stored job at its marker.

    `step` is this system for a `PageRunner`, which says what an attempt does
    with a page; the issuer sweep and the per-holder worker are its two
    instances.  It refines the paged job of the library (`Simulates.step`), and
    so what a completed job has stored does not depend on what failed, but for
    one thing: the upper bound of the coverage, a local variable that an attempt
    starts afresh. -/

namespace RegistrarResume

open KeyedTable Statements Runs RegistrarMetadata RegistrarArchive RegistrarIngest
open RegistrarBackfill RegistrarFraming RegistrarSweep

/-! ## The system -/

/-- What an attempt of one kind of job does. -/
structure PageRunner where
  address : String
  issuanceId : ℕ
  /-- Take up the job with the given id. -/
  takeUp : ℕ → Archive → Archive
  /-- The ledgers a page raises the high water with. -/
  ledgers : BackfillPage → List ℕ
  /-- What a page adds to the job's `tx_count`. -/
  size : BackfillPage → ℕ
  /-- The database transaction of a page, at the high water after it; `none`
      where it throws. -/
  transaction : BackfillJobRow → BackfillPage → ℕ → Archive → Option Archive

/-- `runIssuerBackfill`, as `ingestIssuance` and `resumeBackfills` call it. -/
def sweepRunner (X : Xrpl) (issuance : TrackedIssuance) (issuer : String) :
    PageRunner where
  address := issuer
  issuanceId := issuance.id
  takeUp _ db := reclaimStale issuance.id db
  ledgers page :=
    ((sweepBatch X [issuance] issuer page).getD []).map (·.row.ledgerIndex)
  size page := ((sweepBatch X [issuance] issuer page).getD []).length
  transaction job page highWater db :=
    (sweepBatch X [issuance] job.address page).bind fun batch =>
      (sweepTransaction (deltaDeriver [issuance]) issuance.id job page batch highWater
        db).toOption

/-- `BackfillWorker.runJob`, as `runIssuance` calls it. -/
def workerRunner (X : Xrpl) (tracked : List TrackedIssuance) (issuanceId : ℕ)
    (address : String) : PageRunner where
  address := address
  issuanceId := issuanceId
  takeUp jobId db := claimJob jobId (reclaimStale issuanceId db)
  ledgers page := page.entries.map (·.ledgerIndex)
  size page := ((workerBatch X tracked address page).getD []).length
  transaction job page maxLedger db :=
    (workerBatch X tracked job.address page).bind fun mapped =>
      (workerTransaction X (deltaDeriver tracked) job page mapped maxLedger db).toOption

/-- The runner of each kind of job. -/
def runner (X : Xrpl) (issuance : TrackedIssuance) (tracked : List TrackedIssuance)
    (address : String) : BackfillKind → PageRunner
  | .issuer => sweepRunner X issuance address
  | .account => workerRunner X tracked issuance.id address

/-- A running attempt: the job it took up, the marker of its next request, its
    high water, and the page it has read but not committed. -/
structure Attempt where
  job : BackfillJobRow
  cursor : Option String
  highWater : ℕ
  page : Option BackfillPage

/-- The archive and the attempt that runs, if any.  `resumedAt` records the
    marker at which the newest attempt took the job up. -/
structure JobRun where
  db : Archive
  resumedAt : Option String := none
  attempt : Option Attempt := none

/-- `retry` is a page transaction that is rolled back and run again; `fail`
    ends in `jobs.fail`, `crash` does not. -/
inductive Action
  | start
  | fetch
  | retry
  | commit
  | fail
  | crash
  deriving DecidableEq

abbrev PageChain := PagedJob.Chain BackfillPage.marker

def step (R : PageRunner) (C : PageChain) (s : JobRun) : Action → Option JobRun
  | .start =>
      match s.attempt, getByAccount R.issuanceId R.address s.db with
      | none, some found =>
          if found.status = .completed then none
          else
            let db := R.takeUp found.id s.db
            (getByAccount R.issuanceId R.address db).map fun job =>
              { db, resumedAt := job.lastMarker
                attempt := some ⟨job, job.lastMarker, job.fromLedger.getD 0, none⟩ }
      | _, _ => none
  | .fetch =>
      match s.attempt with
      | some ⟨job, cursor, highWater, none⟩ =>
          (C.remaining cursor).head?.map fun page =>
            { s with
              attempt := some
                ⟨job, cursor, raiseAll highWater (R.ledgers page), some page⟩ }
      | _ => none
  | .retry =>
      match s.attempt with
      | some ⟨_, _, _, some _⟩ => some s
      | _ => none
  | .commit =>
      match s.attempt with
      | some ⟨job, _, highWater, some page⟩ =>
          (R.transaction job page highWater s.db).map fun db =>
            { s with
              db
              attempt := page.marker.map fun m => ⟨job, some m, highWater, none⟩ }
      | _ => none
  | .fail =>
      s.attempt.map fun w => { s with db := failJob w.job.id s.db, attempt := none }
  | .crash => s.attempt.map fun _ => { s with attempt := none }

/-- A run in which nothing fails and the process does not crash. -/
def Uninterrupted : JobRun → Action → Prop :=
  fun _ a => a = .start ∨ a = .fetch ∨ a = .commit

instance (s : JobRun) (a : Action) : Decidable (Uninterrupted s a) :=
  inferInstanceAs (Decidable (a = .start ∨ a = .fetch ∨ a = .commit))

/-! ## What a page transaction does -/

/-- The job a page transaction leaves. -/
def advance (jobId : ℕ) (marker : Option String) (added : ℕ) (db : Archive) : Archive :=
  if marker.isNone then completeJob jobId (checkpointJob jobId marker added db)
  else checkpointJob jobId marker added db

theorem updateJob_jobs {jobId : ℕ} {f : BackfillJobRow → BackfillJobRow}
    {hf : ∀ r, (f r).key = r.key} {db db' : Archive}
    (h : db.backfillJob = db'.backfillJob) :
    (updateJob jobId f hf db).backfillJob = (updateJob jobId f hf db').backfillJob := by
  simp only [updateJob, h]

/-- Claim coverage rows. -/
def claim (rows : List CoverageRow) (db : Archive) : Archive :=
  { db with coverage := db.coverage ++ rows }

/-- A page transaction taken apart: what it writes, and the coverage the last
    one claims. -/
structure Parts (R : PageRunner) (fromLedger : ℕ) where
  write : BackfillPage → Archive → Option Archive
  rows : ℕ → Archive → List CoverageRow
  write_coverage : ∀ {page db db'}, write page db = some db' → db'.coverage = db.coverage
  rows_ne : ∀ highWater db, rows highWater db ≠ []
  rows_to : ∀ {highWater db}, ∀ r ∈ rows highWater db, r.toLedger = highWater
  takeUp_dropJobs : ∀ jobId db, dropJobs (R.takeUp jobId db) = dropJobs db
  takeUp_job : ∀ {db job}, getByAccount R.issuanceId R.address db = some job →
    job.status ≠ .completed →
    ∃ status, status ≠ .completed
      ∧ getByAccount R.issuanceId R.address (R.takeUp job.id db)
        = some { job with status := status }
  commits : ∀ {job page highWater db db'},
    job.address = R.address → job.fromLedger.getD 0 = fromLedger →
    R.transaction job page highWater db = some db' →
    ∃ d, write page (dropJobs db) = some d
      ∧ dropJobs db' = (if page.marker.isNone then claim (rows highWater d) d else d)
      ∧ db'.backfillJob = (advance job.id page.marker (R.size page) db).backfillJob

theorem getByAccount_updateJob {issuanceId jobId : ℕ} {address : String}
    {f : BackfillJobRow → BackfillJobRow} {hf : ∀ r, (f r).key = r.key} {db : Archive} :
    getByAccount issuanceId address (updateJob jobId f hf db)
      = (getByAccount issuanceId address db).map
        (fun r => if r.id = jobId then f r else r) := by
  unfold getByAccount updateJob
  rw [Table.find?_mapRows]

theorem getByAccount_claimJob {issuanceId jobId : ℕ} {address : String} {db : Archive} :
    getByAccount issuanceId address (claimJob jobId db)
      = (getByAccount issuanceId address db).map
        (fun r => if r.id = jobId then { r with status := .running } else r) :=
  getByAccount_updateJob

theorem getByAccount_failJob {issuanceId jobId : ℕ} {address : String} {db : Archive} :
    getByAccount issuanceId address (failJob jobId db)
      = (getByAccount issuanceId address db).map
        (fun r => if r.id = jobId then { r with status := .failed } else r) :=
  getByAccount_updateJob

theorem getByAccount_checkpointJob {issuanceId jobId added : ℕ} {address : String}
    {marker : Option String} {db : Archive} :
    getByAccount issuanceId address (checkpointJob jobId marker added db)
      = (getByAccount issuanceId address db).map
        (fun r => if r.id = jobId then
          { r with lastMarker := marker, txCount := r.txCount + added
                   status := .running } else r) :=
  getByAccount_updateJob

theorem getByAccount_completeJob {issuanceId jobId : ℕ} {address : String}
    {db : Archive} :
    getByAccount issuanceId address (completeJob jobId db)
      = (getByAccount issuanceId address db).map
        (fun r => if r.id = jobId then
          { r with status := .completed, lastMarker := none } else r) :=
  getByAccount_updateJob

/-- Reclaiming a job that is not completed leaves it pending. -/
theorem getByAccount_reclaimStale {issuanceId : ℕ} {address : String} {db : Archive}
    {job : BackfillJobRow} (h : getByAccount issuanceId address db = some job)
    (hopen : job.status ≠ .completed) :
    getByAccount issuanceId address (reclaimStale issuanceId db)
      = some { job with status := .pending } := by
  have hkey := (Table.find?_eq_some.mp h).2
  have hid : job.issuanceId = issuanceId := congrArg Prod.snd hkey
  unfold getByAccount reclaimStale
  rw [Table.find?_mapRows]
  show (getByAccount issuanceId address db).map _ = _
  rw [h, Option.map_some]
  by_cases hstale : job.status = .running ∨ job.status = .failed
  · rw [if_pos ⟨hid, hstale⟩]
  · rw [if_neg (fun hc => hstale hc.2)]
    cases hstatus : job.status with
    | pending => rw [← hstatus]
    | running => exact absurd (Or.inl hstatus) hstale
    | failed => exact absurd (Or.inr hstatus) hstale
    | completed => exact absurd hstatus hopen

/-- A claim over addresses appends a row for each. -/
theorem insertCoverage_foldlM_ok {row : String → CoverageRow} {l : List String}
    {db db' : Archive}
    (h : l.foldlM (fun db a => insertCoverage (row a) db) db = .ok db') :
    db' = claim (l.map row) db := by
  induction l generalizing db with
  | nil =>
      rw [← foldlM_nil_ok.mp h, List.map_nil, claim, List.append_nil]
  | cons a l ih =>
      obtain ⟨d, hd, h⟩ := foldlM_cons_ok.mp h
      cases (guarded_ok.mp hd).2
      rw [ih h]
      show claim (l.map row) (claim [row a] db) = claim (row a :: l.map row) db
      unfold claim
      rw [List.append_assoc]
      rfl

/-- The coverage rows of a completed sweep. -/
def sweepRows (issuanceId : ℕ) (issuer : String) (fromLedger toLedger : ℕ)
    (db : Archive) : List CoverageRow :=
  (((db.accountIssuance.rows.filter (fun r => r.issuanceId = issuanceId)).map
    (·.address)).insertionSort (· ≤ ·) ++ [issuer]).map fun address =>
      ⟨address, coverageFloor issuanceId fromLedger toLedger db, toLedger,
        .issuerSweep issuer fromLedger toLedger⟩

theorem claimCoverage_ok {issuanceId : ℕ} {issuer : String} {fromLedger toLedger : ℕ}
    {db db' : Archive}
    (h : claimCoverage issuanceId issuer fromLedger toLedger db = .ok db') :
    db' = claim (sweepRows issuanceId issuer fromLedger toLedger db) db :=
  insertCoverage_foldlM_ok h

/-- The parts of a sweep's page transaction. -/
def sweepParts (X : Xrpl) (issuance : TrackedIssuance) (issuer : String)
    (fromLedger : ℕ) : Parts (sweepRunner X issuance issuer) fromLedger where
  write page db := (sweepBatch X [issuance] issuer page).bind fun batch =>
    (writeBatch (deltaDeriver [issuance]) issuance.id issuer batch db).toOption
  rows highWater db := sweepRows issuance.id issuer fromLedger highWater db
  write_coverage := by
    intro page db db' h
    obtain ⟨batch, -, h⟩ := Option.bind_eq_some_iff.mp h
    exact (besideJobs_writeBatch _ _ _ _ db db' (toOption_some.mp h)).2.2
  rows_ne := by
    intro highWater db h
    have hlast := List.map_eq_nil_iff.mp h
    exact nomatch (List.append_eq_nil_iff.mp hlast).2
  rows_to := by
    intro highWater db r hr
    obtain ⟨_, -, rfl⟩ := List.mem_map.mp hr
    rfl
  takeUp_dropJobs := fun _ _ => rfl
  takeUp_job := by
    intro db job h hopen
    exact ⟨.pending, nofun, getByAccount_reclaimStale h hopen⟩
  commits := by
    intro job page highWater db db' haddr hfrom h
    obtain ⟨batch, hbatch, h⟩ := Option.bind_eq_some_iff.mp h
    rw [haddr] at hbatch
    have hbatch : sweepBatch X [issuance] issuer page = some batch := hbatch
    have hsize : (sweepRunner X issuance issuer).size page = batch.length := by
      show ((sweepBatch X [issuance] issuer page).getD []).length = _
      rw [hbatch]
      rfl
    obtain ⟨d, hd, h⟩ := bind_ok.mp (toOption_some.mp h)
    rw [haddr] at hd
    obtain ⟨hdrop, hjobs, -⟩ := besideJobs_writeBatch _ _ _ _ db d hd
    refine ⟨dropJobs d, ?_, ?_⟩
    · rw [hbatch]
      exact toOption_some.mpr hdrop
    · rw [hfrom, haddr] at h
      unfold finishSweep at h
      unfold advance
      rw [hsize]
      by_cases hfinal : page.marker.isNone
      · rw [if_pos hfinal] at h
        rw [if_pos hfinal, if_pos hfinal]
        cases hclaim : claimCoverage issuance.id (sweepRunner X issuance issuer).address
            fromLedger highWater (checkpointJob job.id page.marker batch.length d) with
        | error e => rw [hclaim] at h; exact nomatch h
        | ok e =>
            rw [hclaim] at h
            cases Except.ok.inj h
            rw [claimCoverage_ok hclaim]
            exact ⟨rfl, updateJob_jobs (updateJob_jobs hjobs)⟩
      · rw [if_neg hfinal] at h
        rw [if_neg hfinal, if_neg hfinal]
        cases Except.ok.inj h
        exact ⟨rfl, updateJob_jobs hjobs⟩

/-- The parts of a worker's page transaction. -/
def workerParts (X : Xrpl) (tracked : List TrackedIssuance) (issuanceId : ℕ)
    (address : String) (fromLedger : ℕ) :
    Parts (workerRunner X tracked issuanceId address) fromLedger where
  write page db := (workerBatch X tracked address page).bind fun mapped =>
    (insertTransactionRowsMany mapped db >>= fun db =>
      mapped.foldlM
        (fun db m => deltaDeriver tracked m.hash (decodeMeta X m.metaBlob) db)
        db).toOption
  rows highWater _ := [⟨address, fromLedger, highWater, .accountTxExhausted fromLedger⟩]
  write_coverage := by
    intro page db db' h
    obtain ⟨mapped, -, h⟩ := Option.bind_eq_some_iff.mp h
    exact (Frames.comp (frames_insertTransactionRowsMany mapped) (Frames.foldlM
      (fun m => frames_deltaDeriver tracked _ _) mapped)).besideJobs db db'
        (toOption_some.mp h) |>.2.2
  rows_ne := fun _ _ h => nomatch h
  rows_to := by
    intro highWater db r hr
    rw [List.mem_singleton.mp hr]
  takeUp_dropJobs := fun _ _ => rfl
  takeUp_job := by
    intro db job h hopen
    have h : getByAccount issuanceId address db = some job := h
    refine ⟨.running, nofun, ?_⟩
    show getByAccount issuanceId address (claimJob job.id _) = _
    rw [getByAccount_claimJob, getByAccount_reclaimStale h hopen, Option.map_some,
      if_pos rfl]
  commits := by
    intro job page highWater db db' haddr hfrom h
    obtain ⟨mapped, hmapped, h⟩ := Option.bind_eq_some_iff.mp h
    rw [haddr] at hmapped
    have hmapped : workerBatch X tracked address page = some mapped := hmapped
    have hsize : (workerRunner X tracked issuanceId address).size page
        = mapped.length := by
      show ((workerBatch X tracked address page).getD []).length = _
      rw [hmapped]
      rfl
    obtain ⟨d₁, hd₁, h⟩ := bind_ok.mp (toOption_some.mp h)
    obtain ⟨d, hd, h⟩ := bind_ok.mp h
    obtain ⟨hdrop₁, hjobs₁, -⟩ :=
      (frames_insertTransactionRowsMany mapped).besideJobs db d₁ hd₁
    obtain ⟨hdrop, hjobs, -⟩ := (Frames.foldlM
      (fun m : IngestTransaction =>
        frames_deltaDeriver tracked m.hash (decodeMeta X m.metaBlob))
      mapped).besideJobs d₁ d hd
    refine ⟨dropJobs d, ?_, ?_⟩
    · rw [hmapped]
      exact toOption_some.mpr (bind_ok.mpr ⟨_, hdrop₁, hdrop⟩)
    · unfold finishJob at h
      rw [hfrom] at h
      unfold advance
      rw [hsize]
      by_cases hfinal : page.marker.isNone
      · rw [if_pos hfinal] at h
        rw [if_pos hfinal, if_pos hfinal]
        cases (guarded_ok.mp h).2
        rw [haddr]
        exact ⟨rfl, updateJob_jobs (updateJob_jobs (hjobs.trans hjobs₁))⟩
      · rw [if_neg hfinal] at h
        rw [if_neg hfinal, if_neg hfinal]
        cases Except.ok.inj h
        exact ⟨rfl, updateJob_jobs (hjobs.trans hjobs₁)⟩

/-! ## Refinement of the paged job -/

/-- The job as the library has it: it stores the archive beside its jobs. -/
def work {R : PageRunner} {fromLedger : ℕ} (P : Parts R fromLedger) :
    PagedJob.Work BackfillPage String Archive ℕ where
  next := BackfillPage.marker
  size := R.size
  start := fromLedger
  absorb highWater page := raiseAll highWater (R.ledgers page)
  save := P.write
  finish highWater page db :=
    (P.write page db).map fun d => claim (P.rows highWater d) d

theorem Parts.saveAll_coverage {R : PageRunner} {fromLedger : ℕ} (P : Parts R fromLedger)
    {pages : List BackfillPage} {a d : Archive}
    (h : PagedJob.saveAll (work P) pages a = some d) : d.coverage = a.coverage :=
  PagedJob.saveAll_keeps (I := fun b => b.coverage = a.coverage)
    (fun _ _ _ _ hb hw => (P.write_coverage hw).trans hb) rfl h

/-- A failed attempt and a crashed one are lost. -/
def Action.abstract : Action → PagedJob.Action
  | .start => .start
  | .fetch => .fetch
  | .retry => .retry
  | .commit => .commit
  | .fail => .lose
  | .crash => .lose

/-- An archive with a job's row simulates a paged job with its fields. -/
structure Simulates (R : PageRunner) (r₀ : BackfillJobRow) (s : JobRun)
    (t : PagedJob.State BackfillPage String Archive ℕ) : Prop where
  data : t.data = dropJobs s.db
  job : ∃ status, getByAccount R.issuanceId R.address s.db
      = some { r₀ with lastMarker := t.cursor, txCount := t.count, status := status }
    ∧ (status = .completed ↔ t.completed = true)
  started : t.started = s.resumedAt
  attempt : t.attempt = s.attempt.map fun w => ⟨w.cursor, w.highWater, w.page⟩
  held : ∀ w, s.attempt = some w → w.job.id = r₀.id ∧ w.job.address = r₀.address
    ∧ w.job.fromLedger = r₀.fromLedger
  going : ∀ w, s.attempt = some w → t.completed = false

section Simulation

variable {R : PageRunner} {fromLedger : ℕ} {P : Parts R fromLedger} {C : PageChain}
variable {r₀ : BackfillJobRow} {s s' : JobRun}
variable {t : PagedJob.State BackfillPage String Archive ℕ}

theorem Simulates.start (h : Simulates R r₀ s t)
    (hfrom : r₀.fromLedger.getD 0 = fromLedger) (hs : step R C s .start = some s') :
    ∃ t', PagedJob.step (work P) C t .start = some t' ∧ Simulates R r₀ s' t' := by
  obtain ⟨status, hjob, hstatus⟩ := h.job
  cases hw : s.attempt with
  | some w => simp only [step, hw] at hs; exact nomatch hs
  | none =>
      simp only [step, hw, hjob] at hs
      by_cases hdone : status = .completed
      · rw [if_pos hdone] at hs
        exact nomatch hs
      · rw [if_neg hdone] at hs
        have hgoing : ¬ t.completed = true := fun hc => hdone (hstatus.mpr hc)
        obtain ⟨status', hopen, htaken⟩ := P.takeUp_job hjob hdone
        rw [htaken] at hs
        cases hs
        have hnone : t.attempt = none := by rw [h.attempt, hw]; rfl
        refine ⟨{ t with started := t.cursor
                         attempt := some ⟨t.cursor, (work P).start, none⟩ }, ?_, ?_⟩
        · simp only [PagedJob.step, hnone, if_neg hgoing]
        · refine ⟨?_, ⟨status', htaken, ?_⟩, rfl, ?_, ?_, ?_⟩
          · rw [P.takeUp_dropJobs]
            exact h.data
          · exact ⟨fun hc => absurd hc hopen, fun hc => absurd hc hgoing⟩
          · show some (PagedJob.Attempt.mk t.cursor fromLedger none) = _
            rw [← hfrom]
            rfl
          · intro w hw'
            cases hw'
            exact ⟨rfl, rfl, rfl⟩
          · intro _ _
            exact Bool.eq_false_iff.mpr hgoing

theorem Simulates.fetch (h : Simulates R r₀ s t) (hs : step R C s .fetch = some s') :
    ∃ t', PagedJob.step (work P) C t .fetch = some t' ∧ Simulates R r₀ s' t' := by
  cases hw : s.attempt with
  | none => simp only [step, hw] at hs; exact nomatch hs
  | some w =>
      obtain ⟨job, cursor, highWater, _ | page⟩ := w
      · simp only [step, hw] at hs
        obtain ⟨page, hpage, rfl⟩ := Option.map_eq_some_iff.mp hs
        have hat : t.attempt = some ⟨cursor, highWater, none⟩ := by
          rw [h.attempt, hw]
          rfl
        let absorbed := (work P).absorb highWater page
        refine ⟨{ t with attempt := some ⟨cursor, absorbed, some page⟩ }, ?_, ?_⟩
        · simp only [PagedJob.step, hat]
          show Option.map _ (C.remaining cursor).head? = _
          rw [hpage]
          rfl
        · refine ⟨h.data, h.job, h.started, rfl, ?_, ?_⟩
          · intro w hw'
            cases hw'
            exact h.held ⟨job, cursor, highWater, none⟩ hw
          · intro _ _
            exact h.going _ hw
      · simp only [step, hw] at hs
        exact nomatch hs

theorem Simulates.retry (h : Simulates R r₀ s t) (hs : step R C s .retry = some s') :
    ∃ t', PagedJob.step (work P) C t .retry = some t' ∧ Simulates R r₀ s' t' := by
  cases hw : s.attempt with
  | none => simp only [step, hw] at hs; exact nomatch hs
  | some w =>
      obtain ⟨job, cursor, highWater, _ | page⟩ := w
      · simp only [step, hw] at hs
        exact nomatch hs
      · simp only [step, hw] at hs
        cases hs
        have hat : t.attempt = some ⟨cursor, highWater, some page⟩ := by
          rw [h.attempt, hw]
          rfl
        refine ⟨t, ?_, h⟩
        simp only [PagedJob.step, hat]

theorem getByAccount_advance {issuanceId jobId : ℕ} {address : String} {db : Archive}
    {job : BackfillJobRow} (h : getByAccount issuanceId address db = some job)
    (hid : job.id = jobId) (marker : Option String) (added : ℕ) :
    getByAccount issuanceId address (advance jobId marker added db)
      = some { job with
          lastMarker := marker, txCount := job.txCount + added
          status := if marker.isNone then .completed else .running } := by
  cases marker with
  | none =>
      show getByAccount issuanceId address (completeJob jobId (checkpointJob _ _ _ _)) = _
      rw [getByAccount_completeJob, getByAccount_checkpointJob, h, Option.map_some,
        Option.map_some, if_pos hid, if_pos hid]
      rfl
  | some m =>
      show getByAccount issuanceId address (checkpointJob jobId _ _ _) = _
      rw [getByAccount_checkpointJob, h, Option.map_some, if_pos hid]
      rfl

theorem Simulates.commit (h : Simulates R r₀ s t) (haddr : r₀.address = R.address)
    (hfrom : r₀.fromLedger.getD 0 = fromLedger) (hs : step R C s .commit = some s') :
    ∃ t', PagedJob.step (work P) C t .commit = some t' ∧ Simulates R r₀ s' t' := by
  obtain ⟨status, hjob, -⟩ := h.job
  cases hw : s.attempt with
  | none => simp only [step, hw] at hs; cases hs
  | some w =>
      obtain ⟨job, cursor, highWater, _ | page⟩ := w
      · simp only [step, hw] at hs
        cases hs
      · simp only [step, hw] at hs
        obtain ⟨db', htx, rfl⟩ := Option.map_eq_some_iff.mp hs
        obtain ⟨hid, hjaddr, hjfrom⟩ := h.held _ hw
        obtain ⟨d, hwrite, hdrop, hjobs⟩ :=
          P.commits (hjaddr.trans haddr) (hjfrom ▸ hfrom) htx
        have hat : t.attempt = some ⟨cursor, highWater, some page⟩ := by
          rw [h.attempt, hw]
          rfl
        have hrow : getByAccount R.issuanceId R.address db'
            = some { r₀ with
              lastMarker := page.marker, txCount := t.count + R.size page
              status := if page.marker.isNone then .completed else .running } := by
          show db'.backfillJob.find? _ = _
          rw [hjobs]
          exact getByAccount_advance hjob hid.symm page.marker (R.size page)
        rw [← h.data] at hwrite
        cases hm : page.marker with
        | some m =>
            have hnext : (work P).next page = some m := hm
            rw [hm] at hrow
            refine ⟨{ t with data := d, cursor := some m, count := t.count + R.size page
                             attempt := some ⟨some m, highWater, none⟩ }, ?_, ?_⟩
            · simp only [PagedJob.step, hat, PagedJob.commit, hnext]
              show Option.map _ (P.write page t.data) = _
              rw [hwrite]
              rfl
            · refine ⟨?_, ⟨.running, hrow, ?_⟩, h.started, rfl, ?_, ?_⟩
              · rw [hdrop, hm]
                rfl
              · exact ⟨fun hc => absurd hc (by decide),
                  fun hc => absurd hc (by simp [h.going _ hw])⟩
              · intro w hw'
                cases hw'
                exact ⟨hid, hjaddr, hjfrom⟩
              · intro _ _
                exact h.going _ hw
        | none =>
            have hnext : (work P).next page = none := hm
            rw [hm] at hrow
            refine ⟨{ t with data := claim (P.rows highWater d) d, cursor := none
                             count := t.count + R.size page, completed := true
                             attempt := none }, ?_, ?_⟩
            · simp only [PagedJob.step, hat, PagedJob.commit, hnext]
              show Option.map _ ((P.write page t.data).map _) = _
              rw [hwrite]
              rfl
            · refine ⟨?_, ⟨.completed, hrow, ?_⟩, h.started, rfl, ?_, ?_⟩
              · rw [hdrop, hm]
                rfl
              · exact ⟨fun _ => rfl, fun _ => rfl⟩
              · intro w hw'
                cases hw'
              · intro w hw'
                cases hw'

/-- An attempt that is lost leaves at most its job's status behind. -/
theorem Simulates.lose (h : Simulates R r₀ s t) {a : Action}
    (ha : a = .fail ∨ a = .crash) (hs : step R C s a = some s') :
    ∃ t', PagedJob.step (work P) C t .lose = some t' ∧ Simulates R r₀ s' t' := by
  obtain ⟨status, hjob, hstatus⟩ := h.job
  rcases ha with rfl | rfl
  · obtain ⟨w, hw, rfl⟩ := Option.map_eq_some_iff.mp hs
    have hat : t.attempt = some ⟨w.cursor, w.highWater, w.page⟩ := by
      rw [h.attempt, hw]
      rfl
    refine ⟨{ t with attempt := none }, ?_, ?_⟩
    · simp only [PagedJob.step, hat]
    · refine ⟨h.data, ⟨.failed, ?_, ?_⟩, h.started, rfl, ?_, ?_⟩
      · show getByAccount R.issuanceId R.address (failJob w.job.id s.db) = _
        rw [getByAccount_failJob, hjob, Option.map_some,
          if_pos (h.held w hw).1.symm]
      · exact ⟨fun hc => absurd hc (by decide), fun hc => absurd hc (by simp [h.going w hw])⟩
      · intro _ hw'
        cases hw'
      · intro _ hw'
        cases hw'
  · obtain ⟨w, hw, rfl⟩ := Option.map_eq_some_iff.mp hs
    have hat : t.attempt = some ⟨w.cursor, w.highWater, w.page⟩ := by
      rw [h.attempt, hw]
      rfl
    refine ⟨{ t with attempt := none }, ?_, ?_⟩
    · simp only [PagedJob.step, hat]
    · refine ⟨h.data, ⟨status, hjob, hstatus⟩, h.started, rfl, ?_, ?_⟩
      · intro _ hw'
        cases hw'
      · intro _ hw'
        cases hw'

/-- **REFINEMENT**: a step of the archive is a step of the paged job. -/
theorem Simulates.step {a : Action} (h : Simulates R r₀ s t)
    (haddr : r₀.address = R.address) (hfrom : r₀.fromLedger.getD 0 = fromLedger)
    (hs : step R C s a = some s') :
    ∃ t', PagedJob.step (work P) C t a.abstract = some t' ∧ Simulates R r₀ s' t' := by
  cases a with
  | start => exact h.start hfrom hs
  | fetch => exact h.fetch hs
  | retry => exact h.retry hs
  | commit => exact h.commit haddr hfrom hs
  | fail => exact h.lose (Or.inl rfl) hs
  | crash => exact h.lose (Or.inr rfl) hs

end Simulation

/-! ## What a completed job leaves -/

/-- A job as it is enqueued. -/
structure Fresh (R : PageRunner) (db : Archive) (job : BackfillJobRow) : Prop where
  found : getByAccount R.issuanceId R.address db = some job
  marker : job.lastMarker = none
  count : job.txCount = 0
  unfinished : job.status ≠ .completed

def Completed (R : PageRunner) (s : JobRun) : Prop :=
  ∃ job, getByAccount R.issuanceId R.address s.db = some job ∧ job.status = .completed

theorem Fresh.address {R : PageRunner} {db : Archive} {job : BackfillJobRow}
    (h : Fresh R db job) : job.address = R.address :=
  congrArg Prod.fst (Table.find?_eq_some.mp h.found).2

/-- A run of the archive is one of the paged job. -/
theorem Fresh.simulated {R : PageRunner} {db : Archive} {job : BackfillJobRow}
    (hfresh : Fresh R db job) (P : Parts R (job.fromLedger.getD 0)) {C : PageChain}
    {ok : JobRun → Action → Prop}
    (ok' : PagedJob.State BackfillPage String Archive ℕ → PagedJob.Action → Prop)
    (hok : ∀ s t a, ok s a → ok' t a.abstract) {s : JobRun}
    (hrun : Steps (step R C) ok { db } s) :
    ∃ t, Steps (PagedJob.step (work P) C) ok' { data := dropJobs db } t
      ∧ Simulates R job s t := by
  refine hrun.simulate (Simulates R job) Action.abstract ?_ ?_
  · intro s t a s' h ha hs
    exact ⟨hok s t a ha, h.step hfresh.address rfl hs⟩
  · refine ⟨rfl, ⟨job.status, ?_, ?_⟩, rfl, rfl, ?_, ?_⟩
    · rw [hfresh.found, ← hfresh.marker, ← hfresh.count]
    · exact ⟨fun hc => absurd hc hfresh.unfinished, fun hc => nomatch hc⟩
    · intro w hw
      exact nomatch hw
    · intro w hw
      exact nomatch hw

/-- What every completed run has stored: all pages, and the coverage of its
    last attempt's high water. -/
theorem Fresh.completed {R : PageRunner} {db : Archive} {job : BackfillJobRow}
    (hfresh : Fresh R db job) (P : Parts R (job.fromLedger.getD 0)) {C : PageChain}
    {ok : JobRun → Action → Prop} {s : JobRun}
    (hrun : Steps (step R C) ok { db } s) (hdone : Completed R s) :
    ∃ d, PagedJob.saveAll (work P) C.pages (dropJobs db) = some d
      ∧ dropJobs s.db
        = claim (P.rows (PagedJob.absorbAll (work P) (C.remaining s.resumedAt)) d) d
      ∧ getByAccount R.issuanceId R.address s.db
        = some { job with
          lastMarker := none, txCount := PagedJob.sizeAll (work P) C.pages
          status := .completed } := by
  obtain ⟨t, hrun', h⟩ :=
    hfresh.simulated P anyStep (fun _ _ _ _ => trivial) hrun
  obtain ⟨status, hrow, hstatus⟩ := h.job
  have hcompleted : t.completed = true := by
    obtain ⟨row, hfound, hrowdone⟩ := hdone
    rw [hrow] at hfound
    cases Option.some.inj hfound
    exact hstatus.mp hrowdone
  have hall := PagedJob.completed hrun' hcompleted
  obtain ⟨a, hsaved, hfinish⟩ := hall.data
  obtain ⟨d, hd, hclaim⟩ := Option.map_eq_some_iff.mp hfinish
  refine ⟨d, ?_, ?_, ?_⟩
  · show PagedJob.saveAll (work P) (C.init ++ [C.last]) _ = some d
    rw [PagedJob.saveAll_concat, hsaved]
    exact hd
  · rw [← h.data, ← h.started]
    exact hclaim.symm
  · rw [hrow, hall.cursor, hall.count, hstatus.mpr hcompleted]
    rfl

/-- An uninterrupted run took the job up at its first page. -/
theorem Fresh.uninterrupted {R : PageRunner} {db : Archive} {job : BackfillJobRow}
    (hfresh : Fresh R db job) (P : Parts R (job.fromLedger.getD 0)) {C : PageChain}
    {u : JobRun} (hrun : Steps (step R C) Uninterrupted { db } u) :
    u.resumedAt = none := by
  obtain ⟨t, hrun', h⟩ := hfresh.simulated P (fun _ a => a ≠ .lose)
    (by
      rintro _ _ _ (rfl | rfl | rfl)
      · exact nofun
      · exact nofun
      · exact nofun) hrun
  rw [← h.started]
  exact PagedJob.started_none hrun'

/-! ## The claimed range -/

theorem le_raiseAll {n highWater : ℕ} {ledgers : List ℕ} :
    n ≤ raiseAll highWater ledgers ↔ n ≤ highWater ∨ ∃ l ∈ ledgers, n ≤ l := by
  induction ledgers generalizing highWater with
  | nil =>
      show n ≤ highWater ↔ _
      simp
  | cons l ledgers ih =>
      show n ≤ raiseAll (raise highWater l) ledgers ↔ _
      have hraise : n ≤ raise highWater l ↔ n ≤ highWater ∨ n ≤ l := by
        unfold raise
        by_cases h : l > highWater
        · rw [if_pos h]
          omega
        · rw [if_neg h]
          omega
      rw [ih, hraise, or_assoc, List.exists_mem_cons_iff]

theorem le_absorbAll {R : PageRunner} {fromLedger : ℕ} {P : Parts R fromLedger}
    {pages : List BackfillPage} {n : ℕ} :
    n ≤ PagedJob.absorbAll (work P) pages
      ↔ n ≤ fromLedger ∨ ∃ p ∈ pages, ∃ l ∈ R.ledgers p, n ≤ l := by
  induction pages using List.reverseRecOn with
  | nil =>
      show n ≤ fromLedger ↔ _
      simp
  | append_singleton pages p ih =>
      rw [PagedJob.absorbAll_concat]
      show n ≤ raiseAll (PagedJob.absorbAll (work P) pages) (R.ledgers p) ↔ _
      rw [le_raiseAll, ih, or_assoc]
      refine or_congr Iff.rfl ?_
      simp only [List.mem_append, List.mem_singleton, or_and_right, exists_or,
        exists_eq_left]

/-- The pages read since the newest attempt took the job up reach as high as
    all pages: no ledger of a page is above the start and above all ledgers of
    the pages that remained. -/
def HighestRemained (R : PageRunner) (C : PageChain) (fromLedger : ℕ)
    (resumedAt : Option String) : Prop :=
  ∀ p ∈ C.pages, ∀ l ∈ R.ledgers p,
    l ≤ fromLedger ∨ ∃ p' ∈ C.remaining resumedAt, ∃ l' ∈ R.ledgers p', l ≤ l'

theorem mem_of_mem_remaining {C : PageChain} {cursor : Option String}
    {p : BackfillPage} (h : p ∈ C.remaining cursor) : p ∈ C.pages := by
  cases cursor with
  | none => exact h
  | some m =>
      have hafter : ∀ ps, p ∈ PagedJob.after BackfillPage.marker m ps → p ∈ ps := by
        intro ps
        induction ps with
        | nil => exact id
        | cons q ps ih =>
            intro hp
            unfold PagedJob.after at hp
            by_cases hq : q.marker = some m
            · rw [if_pos hq] at hp
              exact List.mem_cons_of_mem q hp
            · rw [if_neg hq] at hp
              exact List.mem_cons_of_mem q (ih hp)
      exact hafter C.pages h

/-- The high water of an attempt is that of the whole chain exactly when the
    highest ledger remained for it. -/
theorem highWater_eq_iff {R : PageRunner} {fromLedger : ℕ} (P : Parts R fromLedger)
    {C : PageChain} {resumedAt : Option String} :
    PagedJob.absorbAll (work P) (C.remaining resumedAt)
        = PagedJob.absorbAll (work P) C.pages
      ↔ HighestRemained R C fromLedger resumedAt := by
  constructor
  · intro h p hp l hl
    have hle : l ≤ PagedJob.absorbAll (work P) C.pages :=
      le_absorbAll.mpr (Or.inr ⟨p, hp, l, hl, le_refl l⟩)
    rw [← h] at hle
    exact le_absorbAll.mp hle
  · intro h
    refine eq_of_forall_le_iff (fun n => ?_)
    rw [le_absorbAll, le_absorbAll]
    constructor
    · rintro (hn | ⟨p, hp, l, hl, hn⟩)
      · exact Or.inl hn
      · exact Or.inr ⟨p, mem_of_mem_remaining hp, l, hl, hn⟩
    · rintro (hn | ⟨p, hp, l, hl, hn⟩)
      · exact Or.inl hn
      · rcases h p hp l hl with hfrom | ⟨p', hp', l', hl', hle⟩
        · exact Or.inl (le_trans hn hfrom)
        · exact Or.inr ⟨p', hp', l', hl', le_trans hn hle⟩

/-- Coverage of different high waters differs. -/
theorem claim_coverage_inj {R : PageRunner} {fromLedger : ℕ} (P : Parts R fromLedger)
    {d : Archive} {a b : ℕ}
    (h : (claim (P.rows a d) d).coverage = (claim (P.rows b d) d).coverage) : a = b := by
  have hrows : P.rows a d = P.rows b d := List.append_cancel_left h
  obtain ⟨r, hr⟩ := List.exists_mem_of_ne_nil _ (P.rows_ne a d)
  exact (P.rows_to r hr).symm.trans (P.rows_to r (hrows ▸ hr))

/-! ## Resumed and uninterrupted -/

/-- The upstream chain of pages of a job's account: `ledger_index_min` bounds
    it below, and an issuer never holds its own token. -/
structure Upstream (X : Xrpl) (issuance : TrackedIssuance) (address : String)
    (kind : BackfillKind) (fromLedger : ℕ) where
  chain : PageChain
  bounded : ∀ p ∈ chain.pages, ∀ e ∈ p.entries, fromLedger ≤ e.ledgerIndex
  issuer_holds_nothing : kind = .issuer → ∀ p ∈ chain.pages, ∀ e ∈ p.entries, ∀ m,
    X.decodeMeta e.metaBlob = some m → ∀ d ∈ holdersInMeta m [issuance],
      d.holder ≠ address

/-- The parts of either kind of page transaction. -/
def parts (X : Xrpl) (issuance : TrackedIssuance) (tracked : List TrackedIssuance)
    (address : String) (fromLedger : ℕ) :
    (kind : BackfillKind) → Parts (runner X issuance tracked address kind) fromLedger
  | .issuer => sweepParts X issuance address fromLedger
  | .account => workerParts X tracked issuance.id address fromLedger

/-- Every row of a page is at or above the floor that a completed job claims. -/
theorem Upstream.floor_le {X : Xrpl} {issuance : TrackedIssuance}
    {tracked : List TrackedIssuance} {address : String} {kind : BackfillKind}
    {fromLedger : ℕ} (U : Upstream X issuance address kind fromLedger)
    {a d : Archive}
    (hsaved : PagedJob.saveAll (work (parts X issuance tracked address fromLedger kind))
      U.chain.pages a = some d)
    {p : BackfillPage} (hp : p ∈ U.chain.pages) {l : ℕ}
    (hl : l ∈ (runner X issuance tracked address kind).ledgers p) {highWater : ℕ}
    {r : CoverageRow}
    (hr : r ∈ (parts X issuance tracked address fromLedger kind).rows highWater d) :
    r.fromLedger ≤ l := by
  cases kind with
  | account =>
      obtain ⟨e, he, rfl⟩ := List.mem_map.mp hl
      rw [List.mem_singleton.mp hr]
      exact U.bounded p hp e he
  | issuer =>
      cases hbatch : sweepBatch X [issuance] address p with
      | none =>
          have hl : l ∈ ((sweepBatch X [issuance] address p).getD []).map
            (·.row.ledgerIndex) := hl
          rw [hbatch] at hl
          exact nomatch hl
      | some batch =>
          have hl : l ∈ ((sweepBatch X [issuance] address p).getD []).map
            (·.row.ledgerIndex) := hl
          rw [hbatch] at hl
          obtain ⟨b, hb, rfl⟩ := List.mem_map.mp hl
          obtain ⟨e, he, hmapped⟩ := mem_sweepBatch hbatch hb
          obtain ⟨m, hm, hne, -, -, hledger, haccounts⟩ :=
            issuerSweepEntryMapper_some hmapped
          obtain ⟨h₀, hh₀⟩ := List.exists_mem_of_ne_nil _ hne
          have hrec : Recorded issuance.id b.row.ledgerIndex d := by
            refine PagedJob.saveAll_establishes ?_ ?_ hp hsaved
            · intro a₁ b₁ hsave
              obtain ⟨batch', hbatch', hwrite⟩ := Option.bind_eq_some_iff.mp hsave
              cases Option.some.inj (hbatch.symm.trans hbatch')
              exact writeBatch_records (toOption_some.mp hwrite) hb (haccounts h₀ hh₀)
                (U.issuer_holds_nothing rfl p hp e he m hm h₀ hh₀)
            · intro q _ a₁ b₁ hrec hsave
              obtain ⟨batch', -, hwrite⟩ := Option.bind_eq_some_iff.mp hsave
              exact writeBatch_keeps hrec (toOption_some.mp hwrite)
          obtain ⟨_, -, rfl⟩ := List.mem_map.mp hr
          refine coverageFloor_le hrec ?_
          rw [hledger]
          exact U.bounded p hp e he

/-- Two completed runs of a job from `db` agree on all they stored, and the
    coverage claimed since contains every row of the pages. -/
structure Indistinguishable (R : PageRunner) (C : PageChain) (db : Archive)
    (s u : JobRun) : Prop where
  transactions : s.db.transactions = u.db.transactions
  accounts : s.db.accounts = u.db.accounts
  accountTransactions : s.db.accountTransactions = u.db.accountTransactions
  balanceDeltas : s.db.balanceDeltas = u.db.balanceDeltas
  accountIssuance : s.db.accountIssuance = u.db.accountIssuance
  job : getByAccount R.issuanceId R.address s.db
    = getByAccount R.issuanceId R.address u.db
  coverage : s.db.coverage = u.db.coverage
  contains : ∀ r ∈ s.db.coverage.drop db.coverage.length, ∀ p ∈ C.pages,
    ∀ l ∈ R.ledgers p, r.fromLedger ≤ l ∧ l ≤ r.toLedger

/-- **A RESUMED JOB IS INDISTINGUISHABLE** from an uninterrupted one exactly
    when no ledger it stored before its last resumption is above the start and
    above all the ledgers it has read since. -/
theorem resumed_job_indistinguishable_iff (X : Xrpl) (issuance : TrackedIssuance)
    (tracked : List TrackedIssuance) (address : String) (kind : BackfillKind)
    {db : Archive} {job : BackfillJobRow}
    (hfresh : Fresh (runner X issuance tracked address kind) db job)
    (U : Upstream X issuance address kind (job.fromLedger.getD 0)) {s u : JobRun}
    (hs : Steps (step (runner X issuance tracked address kind) U.chain) anyStep { db } s)
    (hsdone : Completed (runner X issuance tracked address kind) s)
    (hu : Steps (step (runner X issuance tracked address kind) U.chain) Uninterrupted
      { db } u)
    (hudone : Completed (runner X issuance tracked address kind) u) :
    Indistinguishable (runner X issuance tracked address kind) U.chain db s u
      ↔ HighestRemained (runner X issuance tracked address kind) U.chain
          (job.fromLedger.getD 0) s.resumedAt := by
  let P := parts X issuance tracked address (job.fromLedger.getD 0) kind
  obtain ⟨d, hsaved, hsdata, hsjob⟩ := hfresh.completed P hs hsdone
  obtain ⟨d', hsaved', hudata, hujob⟩ := hfresh.completed P hu hudone
  cases Option.some.inj (hsaved.symm.trans hsaved')
  rw [hfresh.uninterrupted P hu] at hudata
  have hscov := congrArg Archive.coverage hsdata
  have hucov := congrArg Archive.coverage hudata
  constructor
  · intro h
    refine (highWater_eq_iff P).mp ?_
    refine claim_coverage_inj P (d := d) ?_
    exact hscov.symm.trans (h.coverage.trans hucov)
  · intro h
    have hall := (highWater_eq_iff P).mpr h
    have hsame : dropJobs s.db = dropJobs u.db := by
      rw [hsdata, hudata, hall]
      rfl
    refine ⟨?_, ?_, ?_, ?_, ?_, hsjob.trans hujob.symm, ?_, ?_⟩
    · exact (congrArg Archive.transactions hsame :)
    · exact (congrArg Archive.accounts hsame :)
    · exact (congrArg Archive.accountTransactions hsame :)
    · exact (congrArg Archive.balanceDeltas hsame :)
    · exact (congrArg Archive.accountIssuance hsame :)
    · exact (congrArg Archive.coverage hsame :)
    · intro r hr p hp l hl
      -- the claimed rows are those after the coverage there was
      have hbase : d.coverage = db.coverage := (P.saveAll_coverage hsaved :)
      have hcov : s.db.coverage = db.coverage
          ++ P.rows (PagedJob.absorbAll (work P) (U.chain.remaining s.resumedAt)) d := by
        rw [← hbase]
        exact hscov
      rw [hcov, List.drop_left] at hr
      refine ⟨U.floor_le hsaved hp hl hr, ?_⟩
      rw [P.rows_to r hr, hall]
      exact le_absorbAll.mpr (Or.inr ⟨p, hp, l, hl, le_refl l⟩)

/-! ## A chain whose last page is empty -/

/-- An `xrpl` stub that decodes `mint` to the first receipt of `rAlice`. -/
def mintXrpl : Xrpl where
  decodeMeta blob :=
    if blob = "mint" then
      some { affectedNodes := some [some { createdNode := some {
        ledgerEntryType := some "MPToken", ledgerIndex := some "K"
        newFields := some {
          account := some "rAlice", mptokenIssuanceID := some "MPT"
          mptAmount := some "5" } } }] }
    else none
  decodeTxType _ := some (some "Payment")
  hashSignedTx blob := blob
  encodeAccountID _ := some "rIssuer"

def mintIssuance : TrackedIssuance := { id := 1, kind := .mpt, mptIssuanceId := some "MPT" }

/-- The issuance, its issuer's account and the job of its sweep. -/
def mintArchive : Archive where
  issuances := { rows := [{ id := 1, kind := .mpt, mptIssuanceId := some "MPT" }]
                 nodup := by decide }
  accounts := { rows := [⟨"rIssuer", none⟩], nodup := by decide }
  backfillJob :=
    { rows := [{ id := 1, address := "rIssuer", issuanceId := 1, fromLedger := some 0
                 kind := .issuer }]
      nodup := by decide }
  issuanceSeq := 2
  jobSeq := 2

/-- The receipt is on the first page; the second and last one is empty. -/
def mintUpstream : Upstream mintXrpl mintIssuance "rIssuer" .issuer 0 where
  chain :=
    { init := [⟨[⟨"tx", "mint", 200⟩], some "marker", ⟨"clio", "now"⟩⟩]
      last := ⟨[], none, ⟨"clio", "now"⟩⟩
      marked := by decide
      unmarked := rfl
      distinct := by decide }
  bounded := fun _ _ _ _ => Nat.zero_le _
  issuer_holds_nothing := by
    intro _ p hp e he m hm d hd
    rcases List.mem_pair.mp hp with rfl | rfl
    · rw [List.mem_singleton.mp he] at hm
      cases hm
      revert d
      decide
    · exact nomatch he

def mintRunner : PageRunner :=
  runner mintXrpl mintIssuance [mintIssuance] "rIssuer" .issuer

/-- What is compared of the end of a run. -/
def mintOutcome (s : JobRun) : Option BackfillStatus × List (ℕ × ℕ) :=
  ((getByAccount 1 "rIssuer" s.db).map (·.status),
    s.db.coverage.map (fun r => (r.fromLedger, r.toLedger)))

theorem mintOutcome_completed {s : JobRun} {ranges : List (ℕ × ℕ)}
    (h : mintOutcome s = (some .completed, ranges)) : Completed mintRunner s := by
  obtain ⟨job, hjob, hstatus⟩ := Option.map_eq_some_iff.mp (congrArg Prod.fst h)
  exact ⟨job, hjob, hstatus⟩

theorem mintFresh : Fresh mintRunner mintArchive
    { id := 1, address := "rIssuer", issuanceId := 1, fromLedger := some 0
      kind := .issuer } :=
  ⟨by decide, rfl, rfl, by decide⟩

theorem mint_uninterrupted : ∃ u,
    Steps (step mintRunner mintUpstream.chain) Uninterrupted { db := mintArchive } u
      ∧ mintOutcome u = (some .completed, [(200, 200), (200, 200)]) :=
  Steps.exists_of_runChecked [.start, .fetch, .commit, .fetch, .commit]
    (by decide +kernel)

/-- A run cut off before its first commit. -/
theorem resumed_job_indistinguishable_iff_mint : ∃ s u,
    mintOutcome s = (some .completed, [(200, 200), (200, 200)])
      ∧ (Indistinguishable mintRunner mintUpstream.chain mintArchive s u
        ↔ HighestRemained mintRunner mintUpstream.chain 0 s.resumedAt) := by
  obtain ⟨s, hs, hsend⟩ : ∃ s,
      Steps (step mintRunner mintUpstream.chain) anyStep { db := mintArchive } s
        ∧ mintOutcome s = (some .completed, [(200, 200), (200, 200)]) :=
    Steps.exists_of_run
      [.start, .fetch, .crash, .start, .fetch, .retry, .commit, .fetch, .commit]
      (by decide +kernel)
  obtain ⟨u, hu, huend⟩ := mint_uninterrupted
  exact ⟨s, u, hsend, resumed_job_indistinguishable_iff mintXrpl mintIssuance
    [mintIssuance] "rIssuer" .issuer mintFresh mintUpstream hs
    (mintOutcome_completed hsend) hu (mintOutcome_completed huend)⟩

/-- Cut off after the page with the receipt, the sweep claims no ledger above
    its start, though it stored ledger 200. -/
theorem crash_before_last_page_loses_high_water : ∃ s u,
    Steps (step mintRunner mintUpstream.chain) anyStep { db := mintArchive } s
      ∧ Completed mintRunner s
      ∧ Steps (step mintRunner mintUpstream.chain) Uninterrupted { db := mintArchive } u
      ∧ Completed mintRunner u
      ∧ ¬ Indistinguishable mintRunner mintUpstream.chain mintArchive s u := by
  obtain ⟨s, hs, hsend⟩ : ∃ s,
      Steps (step mintRunner mintUpstream.chain) anyStep { db := mintArchive } s
        ∧ mintOutcome s = (some .completed, [(0, 0), (0, 0)]) :=
    Steps.exists_of_run [.start, .fetch, .commit, .crash, .start, .fetch, .commit]
      (by decide +kernel)
  obtain ⟨u, hu, huend⟩ := mint_uninterrupted
  refine ⟨s, u, hs, mintOutcome_completed hsend, hu, mintOutcome_completed huend, ?_⟩
  intro h
  have hranges := congrArg (List.map (fun r => (r.fromLedger, r.toLedger))) h.coverage
  have hsame : [(0, 0), (0, 0)] = [(200, 200), (200, 200)] :=
    (congrArg Prod.snd hsend).symm.trans (hranges.trans (congrArg Prod.snd huend))
  exact absurd hsame (by decide)

end RegistrarResume
