import Registrar.SweepResume
import Registrar.Written

/-! # Claiming backfill jobs

    `BackfillWorker.runIssuance` returns the interrupted and failed jobs of its
    issuance to `pending`, then runs loops that each claim the next pending job
    and run it.  Any number of its calls may be in progress, each between two of
    its awaits; `step` is one statement or page transaction of one of them, or
    of another writer.

    A call that resets a job which another call is still answerable for lets a
    second loop claim it (`overlapping_calls_execute_one_job_twice`); a last page
    whose COMMIT is executed with its reply lost is followed by `jobs.fail`, which
    asks for no status.  Where neither happens, a job has one executor
    (`claimed_job_has_one_executor`). -/

namespace RegistrarJobs

open KeyedTable Statements Runs RegistrarMetadata RegistrarArchive RegistrarIngest
open RegistrarBackfill RegistrarResume RegistrarWritten

/-! ## The system -/

/-- Where a loop of a call stands. -/
inductive Phase
  | idle
  /-- In `runJob`, with the job it claimed and its `maxLedger`. -/
  | executing (job : BackfillJobRow) (maxLedger : ℕ)
  /-- In the `catch` of `runJob`, where `jobs.fail` is awaited. -/
  | failing (job : BackfillJobRow)
  | finished
  deriving DecidableEq

/-- The job `runJob` is called with. -/
def Phase.held : Phase → Option BackfillJobRow
  | .executing job _ | .failing job => some job
  | _ => none

/-- A claim loop of a call of `runIssuance`. -/
structure Loop where
  call : ℕ
  issuanceId : ℕ
  phase : Phase
  deriving DecidableEq

/-- How a claimed job stood when its run ended; `running` where the run was stopped,
    or its failure could not be recorded. -/
structure Ending where
  call : ℕ
  jobId : ℕ
  status : BackfillStatus
  deriving DecidableEq

def Ending.job (e : Ending) : ℕ × ℕ := (e.call, e.jobId)

/-- The archive and the loops of the process, with the next call's number.
    `claimed` and `ended` record what each call claimed and how it ended, `rejected`
    the calls whose promise was, and `stopped` whether the stop flag was ever seen
    set. -/
structure Calls where
  db : Archive
  loops : List Loop := []
  calls : ℕ := 0
  claimed : List (ℕ × ℕ) := []
  ended : List Ending := []
  rejected : List ℕ := []
  stopped : Bool := false

/-- `reclaim` is that of a sweep that is resumed or run again, or of a call that
    loses the reply.  A page is mapped by the issuances tracked then, its deltas are
    of those tracked now; `losePage` is one whose COMMIT is executed and its reply
    lost, `throw` one that cannot be fetched, mapped or written.  A statement that
    throws may have been `executed`.  `write` is any writer that leaves the jobs
    alone. -/
inductive Action
  | enqueue (issuanceId : ℕ) (address : String) (fromLedger toLedger : Option ℕ)
      (kind : BackfillKind)
  | call (issuanceId concurrency : ℕ)
  | reclaim (issuanceId : ℕ)
  | claim (loop : ℕ) (stop : Bool)
  | rejectClaim (loop : ℕ) (executed : Bool)
  | page (loop : ℕ) (page : BackfillPage) (seen tracked : List TrackedIssuance)
      (stop : Bool)
  | losePage (loop : ℕ) (page : BackfillPage) (seen tracked : List TrackedIssuance)
  | throw (loop : ℕ)
  | fail (loop : ℕ) (executed : Bool)
  | write (db : Archive)
  | crash

/-- The job `claim` picks. -/
def nextPending (issuanceId : ℕ) (kind : BackfillKind) (db : Archive) :
    Option BackfillJobRow :=
  ((db.backfillJob.rows.filter (fun r =>
    r.status = .pending ∧ r.kind = kind ∧ r.issuanceId = issuanceId)).insertionSort
      (fun a b => a.id ≤ b.id)).head?

/-- The state after loop `l` moves to a phase. -/
def Calls.move (s : Calls) (l : ℕ) (w : Loop) (p : Phase) : Calls :=
  { s with loops := s.loops.set l { w with phase := p } }

/-- The state after loop `l` is through with a job. -/
def Calls.leave (s : Calls) (l : ℕ) (w : Loop) (jobId : ℕ) (status : BackfillStatus) :
    Calls :=
  { s.move l w .idle with ended := s.ended ++ [⟨w.call, jobId, status⟩] }

/-- One turn of a loop: it ends, or claims a job. -/
def claimNext (s : Calls) (l : ℕ) (w : Loop) : Calls :=
  match nextPending w.issuanceId .account s.db with
  | none => s.move l w .finished
  | some r =>
      { s.move l w (.executing { r with status := .running } (r.fromLedger.getD 0)) with
        db := claimJob r.id s.db
        claimed := s.claimed ++ [(w.call, r.id)] }

/-- A `claim` that throws rejects the call, whose other loops go on. -/
def rejectClaim (s : Calls) (l : ℕ) (w : Loop) (executed : Bool) : Calls :=
  let picked := if executed then nextPending w.issuanceId .account s.db else none
  { s.move l w .finished with
    db := picked.elim s.db fun r => claimJob r.id s.db
    claimed := s.claimed ++ (picked.map fun r => (w.call, r.id)).toList
    rejected := s.rejected ++ [w.call] }

/-- One page of `runJob`; `none` where mapping or writing it throws. -/
def runPage (X : Xrpl) (s : Calls) (l : ℕ) (w : Loop) (job : BackfillJobRow)
    (maxLedger : ℕ) (page : BackfillPage) (seen tracked : List TrackedIssuance)
    (stop : Bool) : Option Calls :=
  let maxLedger := raiseAll maxLedger (page.entries.map (·.ledgerIndex))
  (workerBatch X seen job.address page).bind fun mapped =>
    if stop then some { s.leave l w job.id .running with stopped := true }
    else
      (workerTransaction X (deltaDeriver tracked) job page mapped maxLedger
        s.db).toOption.map fun db =>
          if page.marker.isNone then { s.leave l w job.id .completed with db }
          else { s.move l w (.executing job maxLedger) with db }

/-- A page of `runJob` that is written, and throws. -/
def losePage (X : Xrpl) (s : Calls) (l : ℕ) (w : Loop) (job : BackfillJobRow)
    (maxLedger : ℕ) (page : BackfillPage) (seen tracked : List TrackedIssuance) :
    Option Calls :=
  let maxLedger := raiseAll maxLedger (page.entries.map (·.ledgerIndex))
  (workerBatch X seen job.address page).bind fun mapped =>
    (workerTransaction X (deltaDeriver tracked) job page mapped maxLedger
      s.db).toOption.map fun db => { s.move l w (.failing job) with db }

/-- The job has the status. -/
def HasStatus (db : Archive) (jobId : ℕ) (status : BackfillStatus) : Prop :=
  ∃ r ∈ db.backfillJob.rows, r.id = jobId ∧ r.status = status

instance (db : Archive) (jobId : ℕ) (status : BackfillStatus) :
    Decidable (HasStatus db jobId status) :=
  inferInstanceAs (Decidable (∃ r ∈ db.backfillJob.rows, r.id = jobId ∧ r.status = status))

/-- The `catch` of `runJob`. -/
def failNow (s : Calls) (l : ℕ) (w : Loop) (job : BackfillJobRow) (executed : Bool) :
    Calls :=
  if executed then { s.leave l w job.id .failed with db := failJob job.id s.db }
  else s.leave l w job.id (if HasStatus s.db job.id .completed then .completed else .running)

def step (X : Xrpl) (s : Calls) : Action → Option Calls
  | .enqueue issuanceId address fromLedger toLedger kind =>
      (enqueue issuanceId address fromLedger toLedger kind s.db).toOption.map
        fun db => { s with db }
  | .call issuanceId concurrency =>
      some
        { s with
          db := reclaimStale issuanceId s.db
          loops := s.loops
            ++ List.replicate (max 1 concurrency) ⟨s.calls, issuanceId, .idle⟩
          calls := s.calls + 1 }
  | .reclaim issuanceId => some { s with db := reclaimStale issuanceId s.db }
  | .claim l stop =>
      match s.loops[l]? with
      | some ⟨call, issuanceId, .idle⟩ =>
          if stop then
            some { s.move l ⟨call, issuanceId, .idle⟩ .finished with stopped := true }
          else some (claimNext s l ⟨call, issuanceId, .idle⟩)
      | _ => none
  | .rejectClaim l executed =>
      match s.loops[l]? with
      | some ⟨call, issuanceId, .idle⟩ =>
          some (rejectClaim s l ⟨call, issuanceId, .idle⟩ executed)
      | _ => none
  | .page l page seen tracked stop =>
      match s.loops[l]? with
      | some ⟨call, issuanceId, .executing job maxLedger⟩ =>
          runPage X s l ⟨call, issuanceId, .executing job maxLedger⟩ job maxLedger page
            seen tracked stop
      | _ => none
  | .losePage l page seen tracked =>
      match s.loops[l]? with
      | some ⟨call, issuanceId, .executing job maxLedger⟩ =>
          losePage X s l ⟨call, issuanceId, .executing job maxLedger⟩ job maxLedger page
            seen tracked
      | _ => none
  | .throw l =>
      match s.loops[l]? with
      | some ⟨call, issuanceId, .executing job maxLedger⟩ =>
          some (s.move l ⟨call, issuanceId, .executing job maxLedger⟩ (.failing job))
      | _ => none
  | .fail l executed =>
      match s.loops[l]? with
      | some ⟨call, issuanceId, .failing job⟩ =>
          some (failNow s l ⟨call, issuanceId, .failing job⟩ job executed)
      | _ => none
  | .write db =>
      if db.backfillJob.rows = s.db.backfillJob.rows ∧ db.jobSeq = s.db.jobSeq then
        some { s with db }
      else none
  | .crash => some { s with loops := [] }

/-! ## What is asked of it -/

/-- The call has a loop that has not finished. -/
def Live (s : Calls) (call : ℕ) : Prop :=
  ∃ w ∈ s.loops, w.call = call ∧ w.phase ≠ .finished

instance (s : Calls) (call : ℕ) : Decidable (Live s call) :=
  inferInstanceAs
    (Decidable (∃ w ∈ s.loops, w.call = call ∧ w.phase ≠ .finished))

/-- Loop `l`, of the given call, executes the job. -/
def Executing (s : Calls) (l call jobId : ℕ) : Prop :=
  ∃ w job, s.loops[l]? = some w ∧ w.call = call ∧ w.phase.held = some job ∧ job.id = jobId

/-- No job is executed by two loops. -/
def OneExecutor (s : Calls) : Prop :=
  ∀ l l' c c' jobId, Executing s l c jobId → Executing s l' c' jobId → l = l'

/-- No job completed in `s` is anything else in `t`. -/
def KeepsCompleted (s t : Calls) : Prop :=
  ∀ jobId, HasStatus s.db jobId .completed → HasStatus t.db jobId .completed

/-- The last unfinished loop of the call finishes, or its promise is rejected. -/
def Ends (call : ℕ) (s t : Calls) : Prop :=
  (Live s call ∧ (∃ w ∈ t.loops, w.call = call) ∧ ¬ Live t call)
    ∨ (call ∉ s.rejected ∧ call ∈ t.rejected)

instance (call : ℕ) (s t : Calls) : Decidable (Ends call s t) :=
  inferInstanceAs (Decidable (_ ∨ _))

/-- Each job the call claimed has ended once, completed or failed. -/
def EndedOnce (call : ℕ) (s : Calls) : Prop :=
  ∀ jobId, (call, jobId) ∈ s.claimed →
    (s.ended.map Ending.job).count (call, jobId) = 1
      ∧ ∃ e ∈ s.ended, e.job = (call, jobId) ∧ HasStatus s.db jobId e.status
        ∧ (e.status = .completed ∨ e.status = .failed)

/-- A process that has not called `runIssuance` yet, on an archive whose job ids
    come from their sequence. -/
structure Fresh (s : Calls) : Prop where
  ids : (s.db.backfillJob.rows.map (·.id)).Nodup
  seq : ∀ r ∈ s.db.backfillJob.rows, r.id < s.db.jobSeq
  loops : s.loops = []
  claimed : s.claimed = []
  ended : s.ended = []

/-- No running or failed job of the issuance was claimed by a call that is in
    progress. -/
def Disowned (s : Calls) (issuanceId : ℕ) : Prop :=
  ∀ r ∈ s.db.backfillJob.rows, r.issuanceId = issuanceId →
    r.status = .running ∨ r.status = .failed →
      ∀ p ∈ s.claimed, p.2 = r.id → ¬ Live s p.1

instance (s : Calls) (issuanceId : ℕ) : Decidable (Disowned s issuanceId) :=
  inferInstanceAs
    (Decidable (∀ r ∈ s.db.backfillJob.rows, r.issuanceId = issuanceId →
      r.status = .running ∨ r.status = .failed →
        ∀ p ∈ s.claimed, p.2 = r.id → ¬ Live s p.1))

/-- What returns the jobs of an issuance to `pending` returns none that a call in
    progress has claimed.  A `claim` that throws has claimed nothing, while no loop of
    its call executes a job.  The failure of a job is recorded, unless its last page
    was written. -/
def Orderly (s : Calls) : Action → Prop
  | .call issuanceId _ => Disowned s issuanceId
  | .reclaim issuanceId => Disowned s issuanceId
  | .rejectClaim l executed =>
      ∀ w ∈ s.loops[l]?,
        (executed = true → nextPending w.issuanceId .account s.db = none)
          ∧ ∀ w' ∈ s.loops, w'.call = w.call → w'.phase.held = none
  | .fail l executed =>
      ∀ w ∈ s.loops[l]?, ∀ job ∈ w.phase.held,
        (executed = true ↔ ¬ HasStatus s.db job.id .completed)
  | _ => True

instance (s : Calls) (a : Action) : Decidable (Orderly s a) := by
  cases a <;> unfold Orderly <;> infer_instance

/-! ## Rewriting jobs -/

/-- The jobs' ids are distinct and below the next one. -/
structure JobIds (db : Archive) : Prop where
  nodup : (db.backfillJob.rows.map (·.id)).Nodup
  seq : ∀ r ∈ db.backfillJob.rows, r.id < db.jobSeq

/-- `db'` is `db` with its jobs rewritten, their ids kept. -/
structure Rewrites (g : BackfillJobRow → BackfillJobRow) (db db' : Archive) : Prop where
  rows : db'.backfillJob.rows = db.backfillJob.rows.map g
  ids : ∀ r, (g r).id = r.id
  seq : db'.jobSeq = db.jobSeq

section Jobs

variable {db db' : Archive} {g : BackfillJobRow → BackfillJobRow}

theorem JobIds.rewrites (h : JobIds db) (hg : Rewrites g db db') : JobIds db' := by
  refine ⟨?_, fun r hr => ?_⟩
  · rw [hg.rows, List.map_map]
    exact (List.map_congr_left (fun r _ => hg.ids r)).symm ▸ h.nodup
  · rw [hg.rows] at hr
    obtain ⟨r', hr', rfl⟩ := List.mem_map.mp hr
    rw [hg.ids, hg.seq]
    exact h.seq r' hr'

/-- A job has one status. -/
theorem JobIds.status_eq (h : JobIds db) {jobId : ℕ} {status : BackfillStatus}
    (hs : HasStatus db jobId status) {r : BackfillJobRow}
    (hr : r ∈ db.backfillJob.rows) (hid : r.id = jobId) : r.status = status := by
  obtain ⟨r', hr', hid', rfl⟩ := hs
  rw [List.inj_on_of_nodup_map h.nodup hr hr' (hid.trans hid'.symm)]

theorem HasStatus.rewrites {jobId : ℕ} {status status' : BackfillStatus}
    (h : HasStatus db jobId status) (hg : Rewrites g db db')
    (hstatus : ∀ r ∈ db.backfillJob.rows, r.id = jobId → r.status = status →
      (g r).status = status') : HasStatus db' jobId status' := by
  obtain ⟨r, hr, hid, hs⟩ := h
  refine ⟨g r, ?_, (hg.ids r).trans hid, hstatus r hr hid hs⟩
  rw [hg.rows]
  exact List.mem_map_of_mem hr

/-- `db'` is `db` with the status of one job set. -/
def SetsStatus (jobId : ℕ) (status : BackfillStatus) (db db' : Archive) : Prop :=
  ∃ g, Rewrites g db db'
    ∧ ∀ r ∈ db.backfillJob.rows,
      if r.id = jobId then (g r).status = status else g r = r

theorem setsStatus_updateJob {jobId : ℕ} {f : BackfillJobRow → BackfillJobRow}
    {hf : ∀ r, (f r).key = r.key} {status : BackfillStatus}
    (hid : ∀ r, (f r).id = r.id) (hstatus : ∀ r, (f r).status = status) :
    SetsStatus jobId status db (updateJob jobId f hf db) := by
  refine ⟨fun r => if r.id = jobId then f r else r, ⟨rfl, fun r => ?_, rfl⟩, fun r _ => ?_⟩
  · by_cases h : r.id = jobId
    · rw [if_pos h]
      exact hid r
    · rw [if_neg h]
  · by_cases h : r.id = jobId
    · simp only [if_pos h]
      exact hstatus r
    · simp only [if_neg h]

theorem SetsStatus.trans {jobId : ℕ} {status status' : BackfillStatus} {d : Archive}
    (h₁ : SetsStatus jobId status db d) (h₂ : SetsStatus jobId status' d db') :
    SetsStatus jobId status' db db' := by
  obtain ⟨g₁, hg₁, h₁⟩ := h₁
  obtain ⟨g₂, hg₂, h₂⟩ := h₂
  refine ⟨g₂ ∘ g₁, ⟨?_, ?_, hg₂.seq.trans hg₁.seq⟩, fun r hr => ?_⟩
  · rw [hg₂.rows, hg₁.rows, List.map_map]
  · exact fun r => (hg₂.ids (g₁ r)).trans (hg₁.ids r)
  · have h₁ := h₁ r hr
    have h₂ := h₂ (g₁ r) (hg₁.rows ▸ List.mem_map_of_mem hr)
    rw [hg₁.ids] at h₂
    by_cases h : r.id = jobId
    · rw [if_pos h] at h₂ ⊢
      exact h₂
    · rw [if_neg h] at h₁ h₂ ⊢
      exact h₂.trans h₁

/-- Setting the status of a job sets it, and no other. -/
theorem HasStatus.set {jobId jobId' : ℕ} {status status' : BackfillStatus}
    (h : HasStatus db jobId' status') (hset : SetsStatus jobId status db db') :
    HasStatus db' jobId' (if jobId' = jobId then status else status') := by
  obtain ⟨g, hg, hset⟩ := hset
  refine h.rewrites hg (fun r hr hid hs => ?_)
  have hr := hset r hr
  rw [hid] at hr
  by_cases h : jobId' = jobId
  · rw [if_pos h] at hr ⊢
    exact hr
  · rw [if_neg h] at hr ⊢
    rw [hr, hs]

theorem JobIds.set (h : JobIds db) {jobId : ℕ} {status : BackfillStatus}
    (hset : SetsStatus jobId status db db') : JobIds db' := by
  obtain ⟨g, hg, -⟩ := hset
  exact h.rewrites hg

/-- Claiming, failing and the page transactions each set one status. -/
theorem setsStatus_claimJob (jobId : ℕ) :
    SetsStatus jobId .running db (claimJob jobId db) :=
  setsStatus_updateJob (f := fun r => { r with status := .running }) (fun _ => rfl)
    (fun _ => rfl)

theorem setsStatus_failJob (jobId : ℕ) : SetsStatus jobId .failed db (failJob jobId db) :=
  setsStatus_updateJob (f := fun r => { r with status := .failed }) (fun _ => rfl)
    (fun _ => rfl)

theorem setsStatus_checkpointJob (jobId : ℕ) (marker : Option String) (added : ℕ) :
    SetsStatus jobId .running db (checkpointJob jobId marker added db) :=
  setsStatus_updateJob
    (f := fun r => { r with
      lastMarker := marker, txCount := r.txCount + added, status := .running })
    (fun _ => rfl) (fun _ => rfl)

theorem setsStatus_completeJob (jobId : ℕ) :
    SetsStatus jobId .completed db (completeJob jobId db) :=
  setsStatus_updateJob
    (f := fun r => { r with status := .completed, lastMarker := none }) (fun _ => rfl)
    (fun _ => rfl)

theorem SetsStatus.of_same {jobId : ℕ} {status : BackfillStatus} {d d' : Archive}
    (h : SetsStatus jobId status db db') (hd : d.backfillJob = db.backfillJob)
    (hd' : d'.backfillJob = db'.backfillJob) (hseq : d.jobSeq = db.jobSeq)
    (hseq' : d'.jobSeq = db'.jobSeq) : SetsStatus jobId status d d' := by
  obtain ⟨g, hg, hset⟩ := h
  refine ⟨g, ⟨?_, hg.ids, ?_⟩, ?_⟩
  · rw [hd, hd']
    exact hg.rows
  · rw [hseq, hseq']
    exact hg.seq
  · rw [hd]
    exact hset

/-- A page transaction sets the status of its job: running, or completed by the
    last page. -/
theorem setsStatus_workerTransaction {X : Xrpl} {tracked : List TrackedIssuance}
    {job : BackfillJobRow} {page : BackfillPage} {mapped : List IngestTransaction}
    {maxLedger : ℕ}
    (h : workerTransaction X (deltaDeriver tracked) job page mapped maxLedger db
      = .ok db') :
    SetsStatus job.id (if page.marker.isNone then .completed else .running) db db' := by
  obtain ⟨d₁, h₁, h⟩ := bind_ok.mp h
  obtain ⟨d₂, h₂, h₃⟩ := bind_ok.mp h
  have hbeside : Beside db d₂ := (beside_insertTransactionRowsMany h₁).trans
    (Beside.foldlM (fun m d d' hd => beside_deltaDeriver hd) h₂)
  have hjobs : d₂.backfillJob = db.backfillJob :=
    congrArg Untouched.backfillJob hbeside.untouched
  have hseq : d₂.jobSeq = db.jobSeq := congrArg Untouched.jobSeq hbeside.untouched
  have hpoint : SetsStatus job.id .running d₂
      (checkpointJob job.id page.marker mapped.length d₂) :=
    setsStatus_checkpointJob job.id page.marker mapped.length
  unfold finishJob at h₃
  by_cases hfinal : page.marker.isNone
  · rw [if_pos hfinal] at h₃ ⊢
    cases Except.ok.inj (guarded_ok.mp h₃).2
    have hdone := hpoint.trans (setsStatus_completeJob job.id)
    exact hdone.of_same hjobs.symm rfl hseq.symm rfl
  · rw [if_neg hfinal] at h₃ ⊢
    cases Except.ok.inj h₃
    exact hpoint.of_same hjobs.symm rfl hseq.symm rfl

/-- Returning jobs to `pending` rewrites the running and failed ones. -/
theorem rewrites_reclaimStale (issuanceId : ℕ) (db : Archive) :
    Rewrites (fun r =>
      if r.issuanceId = issuanceId ∧ (r.status = .running ∨ r.status = .failed)
      then { r with status := .pending } else r) db (reclaimStale issuanceId db) := by
  refine ⟨rfl, fun r => ?_, rfl⟩
  by_cases h : r.issuanceId = issuanceId ∧ (r.status = .running ∨ r.status = .failed)
  · rw [if_pos h]
  · rw [if_neg h]

/-- A status no reclaim is due for stays. -/
theorem HasStatus.reclaim {jobId issuanceId : ℕ} {status : BackfillStatus}
    (h : HasStatus db jobId status)
    (hnot : ∀ r ∈ db.backfillJob.rows, r.id = jobId →
      ¬ (r.issuanceId = issuanceId ∧ (r.status = .running ∨ r.status = .failed))) :
    HasStatus (reclaimStale issuanceId db) jobId status :=
  h.rewrites (rewrites_reclaimStale issuanceId db) fun r hr hid hs => by
    rw [if_neg (hnot r hr hid)]
    exact hs

/-- A new job takes the next id. -/
theorem enqueue_rows {issuanceId : ℕ} {address : String} {fromLedger toLedger : Option ℕ}
    {kind : BackfillKind}
    (h : RegistrarIngest.enqueue issuanceId address fromLedger toLedger kind db = .ok db') :
    db' = db ∨ (db'.jobSeq = db.jobSeq + 1
      ∧ ∃ r, r.id = db.jobSeq ∧ db'.backfillJob.rows = db.backfillJob.rows ++ [r]) := by
  unfold RegistrarIngest.enqueue at h
  by_cases hkey : db.backfillJob.HasKey (address, issuanceId)
  · rw [if_pos hkey] at h
    exact Or.inl (Except.ok.inj h).symm
  · rw [if_neg hkey] at h
    cases Except.ok.inj (guarded_ok.mp (guarded_ok.mp h).2).2
    refine Or.inr ⟨rfl,
      { id := db.jobSeq, address, issuanceId, fromLedger, toLedger, kind }, rfl, ?_⟩
    exact Table.insertIgnore_rows hkey

theorem JobIds.enqueue (h : JobIds db)
    (hrows : db'.jobSeq = db.jobSeq + 1
      ∧ ∃ r, r.id = db.jobSeq ∧ db'.backfillJob.rows = db.backfillJob.rows ++ [r]) :
    JobIds db' := by
  obtain ⟨hseq, r, hid, hrows⟩ := hrows
  refine ⟨?_, fun x hx => ?_⟩
  · rw [hrows, List.map_append, List.map_singleton]
    refine List.nodup_append.mpr ⟨h.nodup, List.nodup_singleton _, ?_⟩
    intro id hmem id' hid' heq
    obtain ⟨x, hx, rfl⟩ := List.mem_map.mp hmem
    have := h.seq x hx
    rw [List.mem_singleton.mp hid', hid] at heq
    omega
  · rw [hrows] at hx
    rw [hseq]
    rcases List.mem_append.mp hx with hx | hx
    · have := h.seq x hx
      omega
    · rw [List.mem_singleton.mp hx, hid]
      omega

end Jobs

/-! ## The invariant -/

/-- What the status of a job is in the phases of the loop that executes it. -/
def Busy (db : Archive) : Phase → Prop
  | .executing job _ => HasStatus db job.id .running
  | .failing job => HasStatus db job.id .running ∨ HasStatus db job.id .completed
  | _ => True

theorem Busy.of_held {db db' : Archive} {p : Phase} (h : Busy db p)
    (hkeep : ∀ job status, p.held = some job → HasStatus db job.id status →
      HasStatus db' job.id status) : Busy db' p := by
  cases p with
  | executing job m => exact hkeep job _ rfl h
  | failing job => exact h.imp (hkeep job _ rfl) (hkeep job _ rfl)
  | _ => trivial

theorem Busy.exists_status {db : Archive} {p : Phase} (h : Busy db p) {job : BackfillJobRow}
    (hheld : p.held = some job) : ∃ status, status ≠ .pending ∧ HasStatus db job.id status := by
  cases p with
  | executing job' m =>
      cases hheld
      exact ⟨_, by decide, h⟩
  | failing job' =>
      cases hheld
      rcases h with h | h
      · exact ⟨_, by decide, h⟩
      · exact ⟨_, by decide, h⟩
  | _ => exact nomatch hheld

/-- **THE INVARIANT**: a job that a call in progress has claimed is executed by one of
    its loops, or stands as its run ended. -/
structure Answerable (s : Calls) : Prop where
  jobs : JobIds s.db
  busy : ∀ (l : ℕ) (w : Loop), s.loops[l]? = some w → Busy s.db w.phase
  running : ∀ l c jobId, Executing s l c jobId →
    (c, jobId) ∈ s.claimed ∧ ∀ e ∈ s.ended, e.job ≠ (c, jobId)
  apart : OneExecutor s
  claimed : s.claimed.Nodup
  sole : ∀ c c' jobId, (c, jobId) ∈ s.claimed → (c', jobId) ∈ s.claimed →
    Live s c → Live s c' → c = c'
  ended : (s.ended.map Ending.job).Nodup ∧ ∀ e ∈ s.ended, e.job ∈ s.claimed
  settled : ∀ c jobId, (c, jobId) ∈ s.claimed → Live s c →
    (∃ l, Executing s l c jobId)
      ∨ ∃ e ∈ s.ended, e.job = (c, jobId) ∧ HasStatus s.db jobId e.status
  outcome : ∀ e ∈ s.ended, e.status ≠ .pending
    ∧ (s.stopped = false → e.status = .completed ∨ e.status = .failed)
  numbered : (∀ w ∈ s.loops, w.call < s.calls) ∧ ∀ p ∈ s.claimed, p.1 < s.calls

section Loops

variable {s : Calls} {l : ℕ} {w : Loop}

/-- A loop that executes belongs to a call in progress. -/
theorem Executing.live {c jobId : ℕ} (h : Executing s l c jobId) : Live s c := by
  obtain ⟨w, job, hl, hcall, hheld, -⟩ := h
  refine ⟨w, List.mem_of_getElem? hl, hcall, fun hfin => ?_⟩
  rw [hfin] at hheld
  exact nomatch hheld

/-- Moving an unfinished loop makes no call live. -/
theorem live_of_move {p : Phase} (hl : s.loops[l]? = some w) (hw : w.phase ≠ .finished)
    {c : ℕ} (h : Live (s.move l w p) c) : Live s c := by
  obtain ⟨x, hx, hcall, hphase⟩ := h
  rcases List.mem_or_eq_of_mem_set hx with hx | rfl
  · exact ⟨x, hx, hcall, hphase⟩
  · exact ⟨w, List.mem_of_getElem? hl, hcall, hw⟩

/-- A call stays live when a loop moves to a phase that is not the last. -/
theorem live_move {p : Phase} (hl : s.loops[l]? = some w) (hp : p ≠ .finished) {c : ℕ}
    (h : Live s c) : Live (s.move l w p) c := by
  obtain ⟨x, hx, hcall, hphase⟩ := h
  obtain ⟨k, hk⟩ := List.mem_iff_getElem?.mp hx
  obtain ⟨hlt, -⟩ := List.getElem?_eq_some_iff.mp hl
  by_cases hkl : l = k
  · subst hkl
    cases Option.some.inj (hl.symm.trans hk)
    exact ⟨{ w with phase := p }, List.mem_of_getElem? (List.getElem?_set_self hlt),
      hcall, hp⟩
  · refine ⟨x, List.mem_of_getElem? (?_ : (s.loops.set l _)[k]? = some x), hcall, hphase⟩
    rw [List.getElem?_set_ne hkl]
    exact hk

/-- After a move another loop executes what it did, and the moved one what its
    phase says. -/
theorem executing_move {p : Phase} (hl : s.loops[l]? = some w) {l' c jobId : ℕ} :
    Executing (s.move l w p) l' c jobId ↔
      (l' ≠ l ∧ Executing s l' c jobId)
        ∨ (l' = l ∧ c = w.call ∧ ∃ job, p.held = some job ∧ job.id = jobId) := by
  obtain ⟨hlt, -⟩ := List.getElem?_eq_some_iff.mp hl
  have hset : (s.move l w p).loops = s.loops.set l { w with phase := p } := rfl
  unfold Executing
  rw [hset]
  by_cases h : l' = l
  · subst h
    rw [List.getElem?_set_self hlt]
    constructor
    · rintro ⟨x, job, heq, rfl, hheld, hid⟩
      cases heq
      exact Or.inr ⟨rfl, rfl, job, hheld, hid⟩
    · rintro (⟨hne, -⟩ | ⟨-, rfl, job, hheld, hid⟩)
      · exact absurd rfl hne
      · exact ⟨_, job, rfl, rfl, hheld, hid⟩
  · rw [List.getElem?_set_ne (Ne.symm h)]
    constructor
    · exact fun hx => Or.inl ⟨h, hx⟩
    · rintro (⟨-, hx⟩ | ⟨heq, -⟩)
      · exact hx
      · exact absurd heq h

/-- A loop that holds no job executes none. -/
theorem not_executing (hl : s.loops[l]? = some w) (hheld : w.phase.held = none)
    {c jobId : ℕ} : ¬ Executing s l c jobId := by
  rintro ⟨x, job, heq, -, hx, -⟩
  cases Option.some.inj (hl.symm.trans heq)
  rw [hheld] at hx
  exact nomatch hx

/-- A loop that holds a job executes that one. -/
theorem executing_iff {job : BackfillJobRow} (hl : s.loops[l]? = some w)
    (hheld : w.phase.held = some job) {c jobId : ℕ} :
    Executing s l c jobId ↔ c = w.call ∧ jobId = job.id := by
  constructor
  · rintro ⟨x, job', heq, rfl, hx, rfl⟩
    cases Option.some.inj (hl.symm.trans heq)
    cases Option.some.inj (hheld.symm.trans hx)
    exact ⟨rfl, rfl⟩
  · rintro ⟨rfl, rfl⟩
    exact ⟨w, job, hl, rfl, hheld, rfl⟩

/-- A loop that leaves its job executes nothing. -/
theorem executing_leave {jobId : ℕ} {status : BackfillStatus}
    (hl : s.loops[l]? = some w) {l' c jobId' : ℕ} :
    Executing (s.leave l w jobId status) l' c jobId' ↔
      l' ≠ l ∧ Executing s l' c jobId' := by
  refine (executing_move (p := .idle) hl).trans ⟨?_, Or.inl⟩
  rintro (h | ⟨-, -, job, heq, -⟩)
  · exact h
  · exact nomatch heq

/-- The other loops are as busy as they were. -/
theorem busy_move {db : Archive} {p : Phase}
    (h : ∀ (l' : ℕ) (x : Loop), l' ≠ l → s.loops[l']? = some x → Busy db x.phase)
    (hp : Busy db p) :
    ∀ (l' : ℕ) (x : Loop), (s.move l w p).loops[l']? = some x → Busy db x.phase := by
  intro l' x hx
  have hx : (s.loops.set l { w with phase := p })[l']? = some x := hx
  by_cases hll : l' = l
  · subst hll
    have hlt := (List.getElem?_eq_some_iff.mp hx).1
    rw [List.length_set] at hlt
    rw [List.getElem?_set_self hlt] at hx
    cases hx
    exact hp
  · rw [List.getElem?_set_ne (Ne.symm hll)] at hx
    exact h l' x hll hx

/-- A step that keeps the call live and rejects none does not end it. -/
theorem not_ends {t : Calls} {c : ℕ} (hlive : Live s c → Live t c)
    (hrejected : c ∈ t.rejected → c ∈ s.rejected) : ¬ Ends c s t := by
  rintro (⟨hl, -, hnot⟩ | ⟨hnot, hr⟩)
  · exact hnot (hlive hl)
  · exact hnot (hrejected hr)

end Loops

section Steps

variable {X : Xrpl} {s t : Calls}

/-- A job that a loop executes has a status, and is not pending. -/
theorem Answerable.executing_status (h : Answerable s) {l c jobId : ℕ}
    (hx : Executing s l c jobId) : ∃ status, status ≠ .pending ∧ HasStatus s.db jobId status := by
  obtain ⟨w, job, hl, -, hheld, rfl⟩ := hx
  exact (h.busy l w hl).exists_status hheld

/-- What a claimed job of a call in progress is not. -/
theorem Answerable.not_pending (h : Answerable s) {c jobId : ℕ}
    (hc : (c, jobId) ∈ s.claimed) (hlive : Live s c) :
    ¬ HasStatus s.db jobId .pending := by
  rintro ⟨r, hr, hid, hpending⟩
  rcases h.settled c jobId hc hlive with ⟨l, hx⟩ | ⟨e, he, -, hs⟩
  · obtain ⟨status, hne, hs⟩ := h.executing_status hx
    exact hne ((h.jobs.status_eq hs hr hid).symm.trans hpending)
  · have := h.jobs.status_eq hs hr hid
    exact (h.outcome e he).1 (this.symm.trans hpending)

/-- **A LOOP THAT FINISHES** keeps the invariant. -/
theorem Answerable.finish (h : Answerable s) {l : ℕ} {w : Loop}
    (hl : s.loops[l]? = some w) (hw : w.phase = .idle) :
    Answerable (s.move l w .finished) := by
  have hlive := fun c => @live_of_move s l w .finished hl (by rw [hw]; exact nofun) c
  have hexec : ∀ {l' c jobId}, Executing (s.move l w .finished) l' c jobId ↔
      Executing s l' c jobId := by
    intro l' c jobId
    refine (executing_move hl).trans ⟨?_, fun hx => ?_⟩
    · rintro (⟨-, hx⟩ | ⟨-, -, job, heq, -⟩)
      · exact hx
      · exact nomatch heq
    · refine Or.inl ⟨?_, hx⟩
      rintro rfl
      exact not_executing hl (by rw [hw]; rfl) hx
  exact {
    jobs := h.jobs
    busy := busy_move (fun l' x _ hx => h.busy l' x hx) trivial
    running := fun l' c jobId hx => h.running l' c jobId (hexec.mp hx)
    apart := fun l₁ l₂ c c' jobId h₁ h₂ =>
      h.apart l₁ l₂ c c' jobId (hexec.mp h₁) (hexec.mp h₂)
    claimed := h.claimed
    sole := fun c c' jobId h₁ h₂ hc hc' =>
      h.sole c c' jobId h₁ h₂ (hlive c hc) (hlive c' hc')
    ended := h.ended
    settled := fun c jobId hc hlv => by
      rcases h.settled c jobId hc (hlive c hlv) with ⟨l', hx⟩ | he
      · exact Or.inl ⟨l', hexec.mpr hx⟩
      · exact Or.inr he
    outcome := h.outcome
    numbered := by
      refine ⟨fun x hx => ?_, h.numbered.2⟩
      rcases List.mem_or_eq_of_mem_set hx with hx | rfl
      · exact h.numbered.1 x hx
      · exact h.numbered.1 w (List.mem_of_getElem? hl) }

theorem mem_nextPending {issuanceId : ℕ} {kind : BackfillKind} {db : Archive}
    {r : BackfillJobRow} (h : nextPending issuanceId kind db = some r) :
    r ∈ db.backfillJob.rows ∧ r.status = .pending := by
  have hmem := (List.mem_insertionSort _).mp (List.mem_of_head? h)
  obtain ⟨hr, hp⟩ := List.mem_filter.mp hmem
  exact ⟨hr, (of_decide_eq_true hp).1⟩

/-- **A TURN OF A LOOP THAT CLAIMS** keeps the invariant: the job it claims is
    pending, so no call in progress has claimed it. -/
theorem Answerable.claimed_job (h : Answerable s) {l : ℕ} {w : Loop}
    (hl : s.loops[l]? = some w) (hw : w.phase = .idle) {r job : BackfillJobRow}
    (hr : r ∈ s.db.backfillJob.rows) (hp : r.status = .pending) (hjob : job.id = r.id)
    {m : ℕ} :
    Answerable { s.move l w (.executing job m) with
      db := claimJob r.id s.db, claimed := s.claimed ++ [(w.call, r.id)] } := by
  have hlivew : Live s w.call :=
    ⟨w, List.mem_of_getElem? hl, rfl, by rw [hw]; exact nofun⟩
  have hpending : HasStatus s.db r.id .pending := ⟨r, hr, rfl, hp⟩
  have hset : SetsStatus r.id .running s.db (claimJob r.id s.db) := setsStatus_claimJob r.id
  -- no call in progress has claimed it
  have hfree : ∀ c, (c, r.id) ∈ s.claimed → ¬ Live s c :=
    fun c hc hlive => h.not_pending hc hlive hpending
  have hother : ∀ {l' c jobId}, Executing s l' c jobId → jobId ≠ r.id := by
    rintro l' c jobId hx rfl
    exact hfree c (h.running l' c _ hx).1 hx.live
  have hnew : (w.call, r.id) ∉ s.claimed := fun hc => hfree w.call hc hlivew
  have hlive : ∀ c, Live { s.move l w (.executing job m) with
      db := claimJob r.id s.db, claimed := s.claimed ++ [(w.call, r.id)] } c → Live s c :=
    fun c hc => live_of_move (p := .executing job m) hl (by rw [hw]; exact nofun) hc
  have hexec : ∀ {l' c jobId}, Executing { s.move l w (.executing job m) with
        db := claimJob r.id s.db, claimed := s.claimed ++ [(w.call, r.id)] } l' c jobId ↔
      (l' ≠ l ∧ Executing s l' c jobId) ∨ (l' = l ∧ c = w.call ∧ jobId = r.id) := by
    intro l' c jobId
    refine (executing_move (p := .executing job m) hl).trans (or_congr Iff.rfl ?_)
    refine and_congr_right (fun _ => and_congr_right (fun _ => ?_))
    constructor
    · rintro ⟨job', heq, rfl⟩
      cases heq
      exact hjob
    · rintro rfl
      exact ⟨job, rfl, hjob⟩
  have hidle : ∀ {l' c jobId}, Executing s l' c jobId → l' ≠ l := by
    rintro l' c jobId hx rfl
    exact not_executing hl (by rw [hw]; rfl) hx
  have hkeep : ∀ {jobId status}, HasStatus s.db jobId status → jobId ≠ r.id →
      HasStatus (claimJob r.id s.db) jobId status := by
    intro jobId status hs hne
    have := hs.set hset
    rwa [if_neg hne] at this
  exact {
    jobs := h.jobs.set hset
    busy := by
      refine busy_move (p := .executing job m) (fun l' x _ hx => ?_) ?_
      · refine (h.busy l' x hx).of_held fun job' status hheld hs => hkeep hs ?_
        exact hother ⟨x, job', hx, rfl, hheld, rfl⟩
      · show HasStatus (claimJob r.id s.db) job.id .running
        have := hpending.set hset
        rw [hjob]
        rwa [if_pos rfl] at this
    running := fun l' c jobId hx => by
      rcases hexec.mp hx with ⟨-, hx⟩ | ⟨-, rfl, rfl⟩
      · obtain ⟨hc, hout⟩ := h.running l' c jobId hx
        exact ⟨List.mem_append_left _ hc, hout⟩
      · refine ⟨List.mem_append_right _ (List.mem_singleton_self _), ?_⟩
        exact fun e he heq => hnew (heq ▸ h.ended.2 e he)
    apart := fun l₁ l₂ c c' jobId h₁ h₂ => by
      rcases hexec.mp h₁ with ⟨-, h₁⟩ | ⟨rfl, -, rfl⟩
      · rcases hexec.mp h₂ with ⟨-, h₂⟩ | ⟨-, -, rfl⟩
        · exact h.apart l₁ l₂ c c' jobId h₁ h₂
        · exact absurd rfl (hother h₁)
      · rcases hexec.mp h₂ with ⟨-, h₂⟩ | ⟨rfl, -, -⟩
        · exact absurd rfl (hother h₂)
        · rfl
    claimed := by
      refine List.nodup_append.mpr ⟨h.claimed, List.nodup_singleton _, ?_⟩
      rintro p hmem q hq rfl
      exact hnew (List.mem_singleton.mp hq ▸ hmem)
    sole := fun c c' jobId h₁ h₂ hc hc' => by
      rcases List.mem_append.mp h₁ with h₁ | h₁
      · rcases List.mem_append.mp h₂ with h₂ | h₂
        · exact h.sole c c' jobId h₁ h₂ (hlive c hc) (hlive c' hc')
        · obtain ⟨-, rfl⟩ := Prod.mk.inj (List.mem_singleton.mp h₂)
          exact absurd (hlive c hc) (hfree c h₁)
      · obtain ⟨rfl, rfl⟩ := Prod.mk.inj (List.mem_singleton.mp h₁)
        rcases List.mem_append.mp h₂ with h₂ | h₂
        · exact absurd (hlive c' hc') (hfree c' h₂)
        · exact (Prod.mk.inj (List.mem_singleton.mp h₂)).1.symm
    ended := ⟨h.ended.1, fun e he => List.mem_append_left _ (h.ended.2 e he)⟩
    settled := fun c jobId hc hlv => by
      rcases List.mem_append.mp hc with hc | hc
      · have hne : jobId ≠ r.id := by
          rintro rfl
          exact hfree c hc (hlive c hlv)
        rcases h.settled c jobId hc (hlive c hlv) with ⟨l', hx⟩ | ⟨e, he, hej, hs⟩
        · exact Or.inl ⟨l', hexec.mpr (Or.inl ⟨hidle hx, hx⟩)⟩
        · exact Or.inr ⟨e, he, hej, hkeep hs hne⟩
      · obtain ⟨rfl, rfl⟩ := Prod.mk.inj (List.mem_singleton.mp hc)
        exact Or.inl ⟨l, hexec.mpr (Or.inr ⟨rfl, rfl, rfl⟩)⟩
    outcome := h.outcome
    numbered := by
      refine ⟨fun x hx => ?_, fun p hmem => ?_⟩
      · rcases List.mem_or_eq_of_mem_set hx with hx | rfl
        · exact h.numbered.1 x hx
        · exact h.numbered.1 w (List.mem_of_getElem? hl)
      · rcases List.mem_append.mp hmem with hmem | hmem
        · exact h.numbered.2 p hmem
        · rw [List.mem_singleton.mp hmem]
          exact h.numbered.1 w (List.mem_of_getElem? hl) }

/-- Setting the status of a job that a loop executes changes no other job that one
    executes. -/
theorem Answerable.busy_set (h : Answerable s) {l : ℕ} {w : Loop} {job : BackfillJobRow}
    (hl : s.loops[l]? = some w) (hw : w.phase.held = some job) {db : Archive}
    {status : BackfillStatus} (hset : SetsStatus job.id status s.db db) {p : Phase}
    (hp : Busy db p) :
    ∀ (l' : ℕ) (x : Loop), (s.move l w p).loops[l']? = some x → Busy db x.phase := by
  refine busy_move (fun l' x hne hx => ?_) hp
  refine (h.busy l' x hx).of_held fun job' st hheld hs => ?_
  have hids : job'.id ≠ job.id := fun heq =>
    hne (h.apart l' l _ _ _ ⟨x, job', hx, rfl, hheld, rfl⟩ ⟨w, job, hl, rfl, hw, heq.symm⟩)
  have := hs.set hset
  rwa [if_neg hids] at this

/-- An entry of a call in progress is not about a job that a loop executes. -/
theorem Answerable.ended_ne (h : Answerable s) {l c c' jobId jobId' : ℕ}
    (hx : Executing s l c jobId) {e : Ending} (he : e ∈ s.ended) (hej : e.job = (c', jobId'))
    (hlive : Live s c') : jobId' ≠ jobId := by
  rintro rfl
  obtain ⟨hc, hout⟩ := h.running l c _ hx
  have := h.sole c' c _ (hej ▸ h.ended.2 e he) hc hlive hx.live
  subst this
  exact hout e he hej

/-- **A PAGE** that leaves the loop with its job keeps the invariant. -/
theorem Answerable.advance (h : Answerable s) {l : ℕ} {w : Loop} {job : BackfillJobRow}
    {p : Phase} {status : BackfillStatus} (hl : s.loops[l]? = some w)
    (hw : w.phase.held = some job) (hp : p.held = some job) {db : Archive}
    (hset : SetsStatus job.id status s.db db) (hbusy : Busy db p) :
    Answerable { s.move l w p with db } := by
  have hself : Executing s l w.call job.id := (executing_iff hl hw).mpr ⟨rfl, rfl⟩
  have hfin : w.phase ≠ .finished := by
    intro hfin
    rw [hfin] at hw
    exact nomatch hw
  have hlive : ∀ c, Live { s.move l w p with db } c → Live s c :=
    fun c hc => live_of_move (p := p) hl hfin hc
  have hexec : ∀ {l' c jobId}, Executing { s.move l w p with db } l' c jobId ↔
      Executing s l' c jobId := by
    intro l' c jobId
    refine (executing_move (p := p) hl).trans ?_
    by_cases hll : l' = l
    · subst hll
      rw [executing_iff hl hw]
      constructor
      · rintro (⟨hne, -⟩ | ⟨-, rfl, job', hheld, rfl⟩)
        · exact absurd rfl hne
        · cases hp.symm.trans hheld
          exact ⟨rfl, rfl⟩
      · rintro ⟨rfl, rfl⟩
        exact Or.inr ⟨rfl, rfl, job, hp, rfl⟩
    · exact ⟨fun hx => hx.elim And.right (fun hx => absurd hx.1 hll), fun hx => Or.inl ⟨hll, hx⟩⟩
  exact {
    jobs := h.jobs.set hset
    busy := h.busy_set hl hw hset hbusy
    running := fun l' c jobId hx => h.running l' c jobId (hexec.mp hx)
    apart := fun l₁ l₂ c c' jobId h₁ h₂ =>
      h.apart l₁ l₂ c c' jobId (hexec.mp h₁) (hexec.mp h₂)
    claimed := h.claimed
    sole := fun c c' jobId h₁ h₂ hc hc' =>
      h.sole c c' jobId h₁ h₂ (hlive c hc) (hlive c' hc')
    ended := h.ended
    settled := fun c jobId hc hlv => by
      rcases h.settled c jobId hc (hlive c hlv) with ⟨l', hx⟩ | ⟨e, he, hej, hs⟩
      · exact Or.inl ⟨l', hexec.mpr hx⟩
      · have := hs.set hset
        rw [if_neg (h.ended_ne hself he hej (hlive c hlv))] at this
        exact Or.inr ⟨e, he, hej, this⟩
    outcome := h.outcome
    numbered := by
      refine ⟨fun x hx => ?_, h.numbered.2⟩
      rcases List.mem_or_eq_of_mem_set hx with hx | rfl
      · exact h.numbered.1 x hx
      · exact h.numbered.1 w (List.mem_of_getElem? hl) }

/-- **A JOB THAT ENDS**, by its last page, a failure or a stop, keeps the
    invariant. -/
theorem Answerable.leave (h : Answerable s) {l : ℕ} {w : Loop} {job : BackfillJobRow}
    (hl : s.loops[l]? = some w) (hw : w.phase.held = some job) {db : Archive}
    {status : BackfillStatus} {stopped : Bool}
    (hset : SetsStatus job.id status s.db db) (hpending : status ≠ .pending)
    (hstop : stopped = false →
      s.stopped = false ∧ (status = .completed ∨ status = .failed)) :
    Answerable { s.leave l w job.id status with db, stopped } := by
  have hself : Executing s l w.call job.id := (executing_iff hl hw).mpr ⟨rfl, rfl⟩
  obtain ⟨hclaimed, hout⟩ := h.running l _ _ hself
  have hfin : w.phase ≠ .finished := by
    intro hfin
    rw [hfin] at hw
    exact nomatch hw
  have hlive : ∀ c, Live { s.leave l w job.id status with db, stopped } c → Live s c :=
    fun c hc => live_of_move (p := .idle) hl hfin hc
  have hexec : ∀ {l' c jobId},
      Executing { s.leave l w job.id status with db, stopped } l' c jobId ↔
        l' ≠ l ∧ Executing s l' c jobId :=
    fun {l' c jobId} => @executing_leave s l w job.id status hl l' c jobId
  have hdone : HasStatus db job.id status := by
    obtain ⟨was, -, hs⟩ := h.executing_status hself
    have := hs.set hset
    rwa [if_pos rfl] at this
  exact {
    jobs := h.jobs.set hset
    busy := h.busy_set hl hw hset (p := .idle) trivial
    running := fun l' c jobId hx => by
      obtain ⟨hne, hx⟩ := hexec.mp hx
      obtain ⟨hc, hout'⟩ := h.running l' c jobId hx
      refine ⟨hc, fun e he heq => ?_⟩
      rcases List.mem_append.mp he with he | he
      · exact hout' e he heq
      · -- another loop executes another job
        rw [List.mem_singleton.mp he] at heq
        obtain ⟨-, rfl⟩ := Prod.mk.inj heq
        exact hne (h.apart l' l c w.call _ hx hself)
    apart := fun l₁ l₂ c c' jobId h₁ h₂ =>
      h.apart l₁ l₂ c c' jobId (hexec.mp h₁).2 (hexec.mp h₂).2
    claimed := h.claimed
    sole := fun c c' jobId h₁ h₂ hc hc' =>
      h.sole c c' jobId h₁ h₂ (hlive c hc) (hlive c' hc')
    ended := by
      refine ⟨?_, fun e he => ?_⟩
      · show ((s.ended ++ [_]).map Ending.job).Nodup
        rw [List.map_append, List.map_singleton]
        refine List.nodup_append.mpr ⟨h.ended.1, List.nodup_singleton _, ?_⟩
        rintro p hmem q hq rfl
        obtain ⟨e, he, rfl⟩ := List.mem_map.mp hmem
        exact hout e he (List.mem_singleton.mp hq)
      · rcases List.mem_append.mp he with he | he
        · exact h.ended.2 e he
        · rw [List.mem_singleton.mp he]
          exact hclaimed
    settled := fun c jobId hc hlv => by
      rcases h.settled c jobId hc (hlive c hlv) with ⟨l', hx⟩ | ⟨e, he, hej, hs⟩
      · by_cases hne : l' = l
        · -- the job this loop has just left
          subst hne
          obtain ⟨rfl, rfl⟩ := (executing_iff hl hw).mp hx
          exact Or.inr ⟨⟨w.call, job.id, status⟩,
            List.mem_append_right _ (List.mem_singleton_self _), rfl, hdone⟩
        · exact Or.inl ⟨l', hexec.mpr ⟨hne, hx⟩⟩
      · have := hs.set hset
        rw [if_neg (h.ended_ne hself he hej (hlive c hlv))] at this
        exact Or.inr ⟨e, List.mem_append_left _ he, hej, this⟩
    outcome := fun e he => by
      rcases List.mem_append.mp he with he | he
      · exact ⟨(h.outcome e he).1, fun hs => (h.outcome e he).2 (hstop hs).1⟩
      · rw [List.mem_singleton.mp he]
        exact ⟨hpending, fun hs => (hstop hs).2⟩
    numbered := by
      refine ⟨fun x hx => ?_, h.numbered.2⟩
      rcases List.mem_or_eq_of_mem_set hx with hx | rfl
      · exact h.numbered.1 x hx
      · exact h.numbered.1 w (List.mem_of_getElem? hl) }

/-- What changes no status of a claimed job, and ends no loop, keeps the
    invariant. -/
theorem Answerable.of_same (h : Answerable s) {db : Archive} (hjobs : JobIds db)
    (hstatus : ∀ jobId status, (∃ c, (c, jobId) ∈ s.claimed ∧ Live s c) →
      HasStatus s.db jobId status → HasStatus db jobId status) :
    Answerable { s with db } where
  jobs := hjobs
  busy := fun l w hl => by
    refine (h.busy l w hl).of_held fun job status hheld hs => ?_
    have hx : Executing s l w.call job.id := (executing_iff hl hheld).mpr ⟨rfl, rfl⟩
    exact hstatus job.id status ⟨w.call, (h.running l _ _ hx).1, hx.live⟩ hs
  running := h.running
  apart := h.apart
  claimed := h.claimed
  sole := h.sole
  ended := h.ended
  settled := fun c jobId hc hlive => by
    rcases h.settled c jobId hc hlive with hx | ⟨e, he, hej, hs⟩
    · exact Or.inl hx
    · exact Or.inr ⟨e, he, hej, hstatus jobId _ ⟨c, hc, hlive⟩ hs⟩
  outcome := h.outcome
  numbered := h.numbered

/-- **A RECLAIM** of disowned jobs keeps the invariant. -/
theorem Answerable.reclaim (h : Answerable s) {issuanceId : ℕ}
    (hfree : Disowned s issuanceId) :
    Answerable { s with db := reclaimStale issuanceId s.db } := by
  refine h.of_same (h.jobs.rewrites (rewrites_reclaimStale issuanceId s.db)) ?_
  rintro jobId status ⟨c, hc, hlive⟩ hs
  refine hs.reclaim (fun r hr hid hstale => ?_)
  exact hfree r hr hstale.1 hstale.2 (c, jobId) hc hid.symm hlive

/-- **A NEW CALL** keeps the invariant: it has claimed nothing. -/
theorem Answerable.join (h : Answerable s) (n issuanceId : ℕ) :
    Answerable { s with
      loops := s.loops ++ List.replicate n ⟨s.calls, issuanceId, .idle⟩
      calls := s.calls + 1 } := by
  have hold : ∀ {l : ℕ} {w : Loop},
      (s.loops ++ List.replicate n ⟨s.calls, issuanceId, .idle⟩)[l]? = some w →
        s.loops[l]? = some w ∨ w.phase = .idle := by
    intro l w hl
    by_cases hlt : l < s.loops.length
    · rw [List.getElem?_append_left hlt] at hl
      exact Or.inl hl
    · rw [List.getElem?_append_right (by omega)] at hl
      rw [List.eq_of_mem_replicate (List.mem_of_getElem? hl)]
      exact Or.inr rfl
  have hexec : ∀ {l c jobId}, Executing { s with
        loops := s.loops ++ List.replicate n ⟨s.calls, issuanceId, .idle⟩
        calls := s.calls + 1 } l c jobId ↔ Executing s l c jobId := by
    intro l c jobId
    constructor
    · rintro ⟨w, job, heq, hcall, hheld, hid⟩
      rcases hold heq with heq | hidle
      · exact ⟨w, job, heq, hcall, hheld, hid⟩
      · rw [hidle] at hheld
        exact nomatch hheld
    · rintro ⟨w, job, heq, hrest⟩
      obtain ⟨hlt, -⟩ := List.getElem?_eq_some_iff.mp heq
      exact ⟨w, job, by rw [List.getElem?_append_left hlt]; exact heq, hrest⟩
  have hlive : ∀ c, c < s.calls → Live { s with
        loops := s.loops ++ List.replicate n ⟨s.calls, issuanceId, .idle⟩
        calls := s.calls + 1 } c → Live s c := by
    rintro c hc ⟨w, hw, rfl, hphase⟩
    rcases List.mem_append.mp hw with hw | hw
    · exact ⟨w, hw, rfl, hphase⟩
    · rw [List.eq_of_mem_replicate hw] at hc
      exact absurd hc (lt_irrefl _)
  have hbelow := fun {c jobId} (hc : (c, jobId) ∈ s.claimed) => h.numbered.2 _ hc
  exact {
    jobs := h.jobs
    busy := fun l w hl => by
      rcases hold hl with hl | hidle
      · exact h.busy l w hl
      · rw [hidle]
        trivial
    running := fun l c jobId hx => h.running l c jobId (hexec.mp hx)
    apart := fun l₁ l₂ c c' jobId h₁ h₂ =>
      h.apart l₁ l₂ c c' jobId (hexec.mp h₁) (hexec.mp h₂)
    claimed := h.claimed
    sole := fun c c' jobId h₁ h₂ hc hc' =>
      h.sole c c' jobId h₁ h₂ (hlive c (hbelow h₁) hc) (hlive c' (hbelow h₂) hc')
    ended := h.ended
    settled := fun c jobId hc hlv => by
      rcases h.settled c jobId hc (hlive c (hbelow hc) hlv) with ⟨l, hx⟩ | he
      · exact Or.inl ⟨l, hexec.mpr hx⟩
      · exact Or.inr he
    outcome := h.outcome
    numbered := by
      refine ⟨fun w hw => ?_, fun p hp => Nat.lt_succ_of_lt (h.numbered.2 p hp)⟩
      rcases List.mem_append.mp hw with hw | hw
      · exact Nat.lt_succ_of_lt (h.numbered.1 w hw)
      · rw [List.eq_of_mem_replicate hw]
        exact Nat.lt_succ_self _ }

/-- After a crash no call is in progress. -/
theorem Answerable.crash (h : Answerable s) : Answerable { s with loops := [] } := by
  have hexec : ∀ {l c jobId}, ¬ Executing { s with loops := [] } l c jobId := by
    rintro l c jobId ⟨w, job, heq, -⟩
    exact nomatch heq
  have hlive : ∀ {c}, ¬ Live { s with loops := [] } c := fun ⟨w, hw, _⟩ => nomatch hw
  exact {
    jobs := h.jobs
    busy := fun l w hl => (nomatch hl)
    running := fun l c jobId hx => absurd hx hexec
    apart := fun l₁ l₂ c c' jobId h₁ h₂ => absurd h₁ hexec
    claimed := h.claimed
    sole := fun c c' jobId h₁ h₂ hc hc' => absurd hc hlive
    ended := h.ended
    settled := fun c jobId hc hlv => absurd hlv hlive
    outcome := h.outcome
    numbered := ⟨fun w hw => (nomatch hw), h.numbered.2⟩ }

/-- What a step does, each action that can be taken in one of these ways. -/
inductive Turn (s : Calls) : Calls → Prop
  | write {db : Archive} (hrows : db.backfillJob.rows = s.db.backfillJob.rows)
      (hseq : db.jobSeq = s.db.jobSeq) : Turn s { s with db }
  | enqueue {db : Archive} (hrows : db.jobSeq = s.db.jobSeq + 1
      ∧ ∃ r, r.id = s.db.jobSeq
        ∧ db.backfillJob.rows = s.db.backfillJob.rows ++ [r]) : Turn s { s with db }
  | reclaim {issuanceId : ℕ} (hfree : Disowned s issuanceId) :
      Turn s { s with db := reclaimStale issuanceId s.db }
  | call {issuanceId : ℕ} (n : ℕ) (hfree : Disowned s issuanceId) : Turn s
      { s with
        db := reclaimStale issuanceId s.db
        loops := s.loops ++ List.replicate n ⟨s.calls, issuanceId, .idle⟩
        calls := s.calls + 1 }
  | finish {l : ℕ} {w : Loop} {stopped : Bool} {rejected : List ℕ}
      (hl : s.loops[l]? = some w) (hw : w.phase = .idle)
      (hstop : stopped = false → s.stopped = false)
      (hreject : ∀ c ∈ rejected, c ∈ s.rejected
        ∨ (c = w.call ∧ ∀ x ∈ s.loops, x.call = c → x.phase.held = none)) :
      Turn s { s.move l w .finished with stopped, rejected }
  | claim {l m : ℕ} {w : Loop} {r : BackfillJobRow} (job : BackfillJobRow)
      (hl : s.loops[l]? = some w) (hw : w.phase = .idle)
      (hr : r ∈ s.db.backfillJob.rows) (hp : r.status = .pending)
      (hjob : job.id = r.id) : Turn s { s.move l w (.executing job m) with
        db := claimJob r.id s.db, claimed := s.claimed ++ [(w.call, r.id)] }
  | advance {l m : ℕ} {w : Loop} {p : Phase} {job : BackfillJobRow} {db : Archive}
      {status : BackfillStatus} (hl : s.loops[l]? = some w)
      (hw : w.phase = .executing job m) (hp : p.held = some job)
      (hset : SetsStatus job.id status s.db db)
      (hstatus : status = .running ∨ (status = .completed ∧ p = .failing job)) :
      Turn s { s.move l w p with db }
  | throw {l m : ℕ} {w : Loop} {job : BackfillJobRow} (hl : s.loops[l]? = some w)
      (hw : w.phase = .executing job m) : Turn s (s.move l w (.failing job))
  | leave {l : ℕ} {w : Loop} {job : BackfillJobRow} {db : Archive}
      {status : BackfillStatus} (hl : s.loops[l]? = some w)
      (hw : w.phase.held = some job)
      (hnot : (∃ m, w.phase = .executing job m) ∨ ¬ HasStatus s.db job.id .completed)
      (hset : SetsStatus job.id status s.db db)
      (hstatus : status = .completed ∨ status = .failed) :
      Turn s { s.leave l w job.id status with db }
  | keep {l : ℕ} {w : Loop} {job : BackfillJobRow} (hl : s.loops[l]? = some w)
      (hw : w.phase = .failing job) (hs : HasStatus s.db job.id .completed) :
      Turn s (s.leave l w job.id .completed)
  | stop {l m : ℕ} {w : Loop} {job : BackfillJobRow} (hl : s.loops[l]? = some w)
      (hw : w.phase = .executing job m) :
      Turn s { s.leave l w job.id .running with stopped := true }
  | crash : Turn s { s with loops := [] }

/-- The status a page transaction sets is one the loop may go on with, even where the
    page throws. -/
theorem Busy.of_page {db db' : Archive} {job : BackfillJobRow} {status : BackfillStatus}
    {p : Phase} (hp : p.held = some job) (h : HasStatus db job.id .running)
    (hset : SetsStatus job.id status db db')
    (hstatus : status = .running ∨ (status = .completed ∧ p = .failing job)) :
    Busy db' p := by
  have hs := h.set hset
  rw [if_pos rfl] at hs
  rcases hstatus with rfl | ⟨rfl, rfl⟩
  · cases p with
    | executing job' m => cases hp; exact hs
    | failing job' => cases hp; exact Or.inl hs
    | _ => trivial
  · exact Or.inr hs

/-- A job keeps the status it has. -/
theorem setsStatus_self {db : Archive} (h : JobIds db) {jobId : ℕ} {status : BackfillStatus}
    (hs : HasStatus db jobId status) : SetsStatus jobId status db db := by
  refine ⟨id, ⟨(List.map_id _).symm, fun _ => rfl, rfl⟩, fun r hr => ?_⟩
  by_cases hid : r.id = jobId
  · rw [if_pos hid]
    exact h.status_eq hs hr hid
  · rw [if_neg hid]
    rfl

/-- An action of a loop that claims. -/
theorem idle_some {l : ℕ} {f : ℕ → ℕ → Option Calls}
    (h : (match s.loops[l]? with
      | some ⟨call, issuanceId, .idle⟩ => f call issuanceId
      | _ => none) = some t) :
    ∃ call issuanceId, s.loops[l]? = some ⟨call, issuanceId, .idle⟩
      ∧ f call issuanceId = some t := by
  cases hl : s.loops[l]? with
  | none => simp only [hl] at h; exact nomatch h
  | some w =>
      obtain ⟨call, issuanceId, phase⟩ := w
      cases phase with
      | idle =>
          simp only [hl] at h
          exact ⟨call, issuanceId, rfl, h⟩
      | _ => simp only [hl] at h; exact nomatch h

/-- An action of a loop that is in `runJob`. -/
theorem executing_some {l : ℕ} {f : ℕ → ℕ → BackfillJobRow → ℕ → Option Calls}
    (h : (match s.loops[l]? with
      | some ⟨call, issuanceId, .executing job maxLedger⟩ => f call issuanceId job maxLedger
      | _ => none) = some t) :
    ∃ call issuanceId job m, s.loops[l]? = some ⟨call, issuanceId, .executing job m⟩
      ∧ f call issuanceId job m = some t := by
  cases hl : s.loops[l]? with
  | none => simp only [hl] at h; exact nomatch h
  | some w =>
      obtain ⟨call, issuanceId, phase⟩ := w
      cases phase with
      | executing job m =>
          simp only [hl] at h
          exact ⟨call, issuanceId, job, m, rfl, h⟩
      | _ => simp only [hl] at h; exact nomatch h

/-- An action of a loop whose run has thrown. -/
theorem failing_some {l : ℕ} {f : ℕ → ℕ → BackfillJobRow → Option Calls}
    (h : (match s.loops[l]? with
      | some ⟨call, issuanceId, .failing job⟩ => f call issuanceId job
      | _ => none) = some t) :
    ∃ call issuanceId job, s.loops[l]? = some ⟨call, issuanceId, .failing job⟩
      ∧ f call issuanceId job = some t := by
  cases hl : s.loops[l]? with
  | none => simp only [hl] at h; exact nomatch h
  | some w =>
      obtain ⟨call, issuanceId, phase⟩ := w
      cases phase with
      | failing job =>
          simp only [hl] at h
          exact ⟨call, issuanceId, job, rfl, h⟩
      | _ => simp only [hl] at h; exact nomatch h

theorem turn_of_step {a : Action} (hok : Orderly s a)
    (hs : step X s a = some t) : Turn s t := by
  cases a with
  | enqueue issuanceId address fromLedger toLedger kind =>
      obtain ⟨db, hdb, rfl⟩ := Option.map_eq_some_iff.mp hs
      rcases enqueue_rows (toOption_some.mp hdb) with rfl | hrows
      · exact .write rfl rfl
      · exact .enqueue hrows
  | call issuanceId concurrency =>
      cases Option.some.inj hs
      exact .call (max 1 concurrency) hok
  | reclaim issuanceId =>
      cases Option.some.inj hs
      exact .reclaim hok
  | claim l stop =>
      obtain ⟨call, issuanceId, hl, hs⟩ := idle_some hs
      by_cases hstop : stop = true
      · rw [if_pos hstop] at hs
        cases Option.some.inj hs
        exact .finish hl rfl nofun (fun c hc => Or.inl hc)
      · rw [if_neg hstop] at hs
        cases Option.some.inj hs
        unfold claimNext
        cases hnext : nextPending issuanceId .account s.db with
        | none => exact .finish hl rfl id (fun c hc => Or.inl hc)
        | some r =>
            obtain ⟨hr, hp⟩ := mem_nextPending hnext
            exact .claim { r with status := .running } hl rfl hr hp rfl
  | rejectClaim l executed =>
      obtain ⟨call, issuanceId, hl, hs⟩ := idle_some hs
      cases Option.some.inj hs
      obtain ⟨hnone, hheld⟩ := hok _ hl
      have hpicked : (if executed = true then nextPending issuanceId .account s.db
          else none) = none := by
        by_cases hexecuted : executed = true
        · rw [if_pos hexecuted]
          exact hnone hexecuted
        · exact if_neg hexecuted
      unfold rejectClaim
      rw [hpicked]
      have hturn : Turn s { s.move l ⟨call, issuanceId, .idle⟩ .finished with
          stopped := s.stopped, rejected := s.rejected ++ [call] } := by
        refine .finish hl rfl id (fun c hc => ?_)
        rcases List.mem_append.mp hc with hc | hc
        · exact Or.inl hc
        · rw [List.mem_singleton.mp hc]
          exact Or.inr ⟨rfl, hheld⟩
      simp only [Option.elim_none, Option.map_none, Option.toList_none, List.append_nil]
      exact hturn
  | page l page seen tracked stop =>
      obtain ⟨call, issuanceId, job, m, hl, hs⟩ := executing_some hs
      obtain ⟨mapped, -, hs⟩ := Option.bind_eq_some_iff.mp hs
      by_cases hstop : stop = true
      · rw [if_pos hstop] at hs
        cases Option.some.inj hs
        exact .stop hl rfl
      · rw [if_neg hstop] at hs
        obtain ⟨db, hdb, hs⟩ := Option.map_eq_some_iff.mp hs
        have hset := setsStatus_workerTransaction (toOption_some.mp hdb)
        by_cases hfinal : page.marker.isNone
        · rw [if_pos hfinal] at hset hs
          cases hs
          exact .leave hl rfl (Or.inl ⟨m, rfl⟩) hset (Or.inl rfl)
        · rw [if_neg hfinal] at hset hs
          cases hs
          exact .advance hl rfl rfl hset (Or.inl rfl)
  | losePage l page seen tracked =>
      obtain ⟨call, issuanceId, job, m, hl, hs⟩ := executing_some hs
      obtain ⟨mapped, -, hs⟩ := Option.bind_eq_some_iff.mp hs
      obtain ⟨db, hdb, rfl⟩ := Option.map_eq_some_iff.mp hs
      refine .advance hl rfl rfl (setsStatus_workerTransaction (toOption_some.mp hdb)) ?_
      by_cases hfinal : page.marker.isNone
      · rw [if_pos hfinal]
        exact Or.inr ⟨rfl, rfl⟩
      · rw [if_neg hfinal]
        exact Or.inl rfl
  | throw l =>
      obtain ⟨call, issuanceId, job, m, hl, hs⟩ := executing_some hs
      cases Option.some.inj hs
      exact .throw hl rfl
  | fail l executed =>
      obtain ⟨call, issuanceId, job, hl, hs⟩ := failing_some hs
      cases Option.some.inj hs
      have hok := hok _ hl job rfl
      unfold failNow
      by_cases hexecuted : executed = true
      · rw [if_pos hexecuted]
        exact .leave hl rfl (Or.inr (hok.mp hexecuted)) (setsStatus_failJob job.id)
          (Or.inr rfl)
      · have hdone : HasStatus s.db job.id .completed := by
          by_contra hnot
          exact hexecuted (hok.mpr hnot)
        rw [if_neg hexecuted, if_pos hdone]
        exact .keep hl rfl hdone
  | write db =>
      obtain ⟨⟨hrows, hseq⟩, hs⟩ := Option.ite_none_right_eq_some.mp hs
      cases Option.some.inj hs
      exact .write hrows hseq
  | crash =>
      cases Option.some.inj hs
      exact .crash

/-- **THE STEP LEMMA**. -/
theorem Answerable.of_turn (h : Answerable s) (ht : Turn s t) : Answerable t := by
  cases ht with
  | write hrows hseq =>
      refine h.of_same ⟨hrows ▸ h.jobs.nodup, ?_⟩ ?_
      · rw [hrows, hseq]
        exact h.jobs.seq
      · rintro jobId status - ⟨r, hr, hrs⟩
        exact ⟨r, hrows ▸ hr, hrs⟩
  | enqueue hrows =>
      refine h.of_same (h.jobs.enqueue hrows) ?_
      rintro jobId status - ⟨r, hr, hrs⟩
      obtain ⟨-, new, -, hrows⟩ := hrows
      exact ⟨r, hrows ▸ List.mem_append_left _ hr, hrs⟩
  | reclaim hfree => exact h.reclaim hfree
  | call n hfree => exact (h.reclaim hfree).join n _
  | finish hl hw hstop hreject =>
      have hfin := h.finish hl hw
      exact { hfin with
        outcome := fun e he => ⟨(hfin.outcome e he).1,
          fun hs => (hfin.outcome e he).2 (hstop hs)⟩ }
  | claim job hl hw hr hp hjob => exact h.claimed_job hl hw hr hp hjob
  | @advance l m w p job db status hl hw hp hset hstatus =>
      have hrun : HasStatus s.db job.id .running := by
        have := h.busy l w hl
        rwa [hw] at this
      exact h.advance hl (by rw [hw]; rfl) hp hset (.of_page hp hrun hset hstatus)
  | @throw l m w job hl hw =>
      have hrun : HasStatus s.db job.id .running := by
        have := h.busy l w hl
        rwa [hw] at this
      exact h.advance hl (by rw [hw]; rfl) rfl (setsStatus_self h.jobs hrun) (Or.inl hrun)
  | leave hl hw hnot hset hstatus =>
      refine h.leave hl hw hset ?_ (fun hs => ⟨hs, hstatus⟩)
      rcases hstatus with rfl | rfl
      · exact nofun
      · exact nofun
  | keep hl hw hs =>
      exact h.leave hl (by rw [hw]; rfl) (setsStatus_self h.jobs hs) nofun
        (fun hstop => ⟨hstop, Or.inl rfl⟩)
  | @stop l m w job hl hw =>
      have hrun : HasStatus s.db job.id .running := by
        have := h.busy l w hl
        rwa [hw] at this
      exact h.leave hl (by rw [hw]; rfl) (setsStatus_self h.jobs hrun) nofun nofun
  | crash => exact h.crash

/-- A job whose status is set was claimed as pending, or is run by a loop; so it
    is not a completed one. -/
theorem Answerable.set_keepsCompleted (h : Answerable s) {jobId : ℕ} {db : Archive}
    {was status : BackfillStatus} (hwas : HasStatus s.db jobId was)
    (hnot : was ≠ .completed) (hset : SetsStatus jobId status s.db db) :
    ∀ id, HasStatus s.db id .completed → HasStatus db id .completed := by
  intro id hs
  have hne : id ≠ jobId := by
    rintro rfl
    obtain ⟨r, hr, hid, rfl⟩ := hwas
    exact hnot (h.jobs.status_eq hs hr hid)
  have := hs.set hset
  rwa [if_neg hne] at this

/-- **NO STEP CHANGES A COMPLETED JOB**. -/
theorem Answerable.keepsCompleted (h : Answerable s) (ht : Turn s t) :
    KeepsCompleted s t := by
  have hreclaim : ∀ {issuanceId : ℕ} (id : ℕ), HasStatus s.db id .completed →
      HasStatus (reclaimStale issuanceId s.db) id .completed := by
    intro issuanceId id hs
    refine hs.reclaim (fun r hr hid hstale => ?_)
    have := h.jobs.status_eq hs hr hid
    rcases hstale.2 with hst | hst
    · cases hst.symm.trans this
    · cases hst.symm.trans this
  cases ht with
  | write hrows hseq =>
      rintro id ⟨r, hr, hrs⟩
      exact ⟨r, hrows ▸ hr, hrs⟩
  | enqueue hrows =>
      rintro id ⟨r, hr, hrs⟩
      obtain ⟨-, new, -, hrows⟩ := hrows
      exact ⟨r, hrows ▸ List.mem_append_left _ hr, hrs⟩
  | reclaim hfree => exact hreclaim
  | call n hfree => exact hreclaim
  | finish hl hw hstop hreject => exact fun id hs => hs
  | claim job hl hw hr hp hjob =>
      exact h.set_keepsCompleted ⟨_, hr, rfl, hp⟩ (by decide) (setsStatus_claimJob _)
  | @advance l m w p job db status hl hw hp hset hstatus =>
      have hrun := h.busy l w hl
      rw [hw] at hrun
      exact h.set_keepsCompleted hrun (by decide) hset
  | throw hl hw => exact fun id hs => hs
  | @leave l w job db status hl hw hnot hset hstatus =>
      suffices hrun : HasStatus s.db job.id .running from
        h.set_keepsCompleted hrun (by decide) hset
      have hbusy := h.busy l w hl
      cases hphase : w.phase with
      | executing job' m =>
          rw [hphase] at hbusy hw
          cases hw
          exact hbusy
      | failing job' =>
          rw [hphase] at hbusy hw hnot
          cases hw
          refine hbusy.resolve_right (hnot.resolve_left ?_)
          rintro ⟨m, heq⟩
          exact nomatch heq
      | _ => rw [hphase] at hw; exact nomatch hw
  | keep hl hw hs => exact fun id hc => hc
  | stop hl hw => exact fun id hs => hs
  | crash => exact fun id hs => hs

/-- The step that ends a call touches no job and records no ending: the call's
    jobs have all ended. -/
theorem Answerable.endedOnce (h : Answerable s) (ht : Turn s t) {c : ℕ} (hends : Ends c s t)
    (hstop : t.stopped = false) : EndedOnce c t := by
  cases ht with
  | write hrows hseq => exact absurd hends (not_ends id (fun hx => hx))
  | enqueue hrows => exact absurd hends (not_ends id (fun hx => hx))
  | reclaim hfree => exact absurd hends (not_ends id (fun hx => hx))
  | call n hfree =>
      refine absurd hends (not_ends ?_ (fun hx => hx))
      rintro ⟨w, hw, hwc⟩
      exact ⟨w, List.mem_append_left _ hw, hwc⟩
  | @claim l m w r job hl hw hr hp hjob =>
      exact absurd hends
        (not_ends (live_move (p := .executing job m) hl nofun) (fun hx => hx))
  | @advance l m w p job db status hl hw hp hset hstatus =>
      refine absurd hends (not_ends (live_move (p := p) hl ?_) (fun hx => hx))
      rintro rfl
      exact nomatch hp
  | @throw l m w job hl hw =>
      exact absurd hends (not_ends (live_move (p := .failing job) hl nofun) (fun hx => hx))
  | leave hl hw hnot hset hstatus =>
      exact absurd hends (not_ends (live_move hl (p := .idle) nofun) (fun hx => hx))
  | keep hl hw hs =>
      exact absurd hends (not_ends (live_move hl (p := .idle) nofun) (fun hx => hx))
  | stop hl hw => exact nomatch hstop
  | crash =>
      rcases hends with ⟨-, ⟨x, hx, -⟩, -⟩ | ⟨hnot, hrejected⟩
      · exact nomatch hx
      · exact absurd hrejected hnot
  | @finish l w stopped rejected hl hw hst hreject =>
      -- no loop of the call executes a job any more
      obtain ⟨hlive, hdone⟩ : Live s c ∧ ∀ l' jobId, ¬ Executing s l' c jobId := by
        rcases hends with ⟨hlive, -, hnot⟩ | ⟨hnot, hrejected⟩
        · refine ⟨hlive, fun l' jobId hexec => ?_⟩
          have hlast := (executing_move (p := .finished) hl).mpr (Or.inl ⟨?_, hexec⟩)
          · exact absurd hlast.live hnot
          · rintro rfl
            exact not_executing hl (by rw [hw]; rfl) hexec
        · obtain ⟨rfl, hheld⟩ := (hreject c hrejected).resolve_left hnot
          refine ⟨⟨w, List.mem_of_getElem? hl, rfl, by rw [hw]; exact nofun⟩, ?_⟩
          rintro l' jobId ⟨x, job, hx, hcall, hjob, -⟩
          rw [hheld x (List.mem_of_getElem? hx) hcall] at hjob
          exact nomatch hjob
      intro jobId hc
      rcases h.settled c jobId hc hlive with ⟨l', hexec⟩ | ⟨e, he, hej, hs⟩
      · exact absurd hexec (hdone l' jobId)
      · exact ⟨List.count_eq_one_of_mem h.ended.1 (hej ▸ List.mem_map_of_mem he), e, he, hej,
          hs, (h.outcome e he).2 (hst hstop)⟩

theorem Fresh.answerable {s₀ : Calls} (h : Fresh s₀) : Answerable s₀ := by
  have hexec : ∀ {l c jobId}, ¬ Executing s₀ l c jobId := by
    rintro l c jobId ⟨w, job, heq, -⟩
    rw [h.loops] at heq
    exact nomatch heq
  exact {
    jobs := ⟨h.ids, h.seq⟩
    busy := fun l w hl => by
      rw [h.loops] at hl
      exact nomatch hl
    running := fun l c jobId hx => absurd hx hexec
    apart := fun l₁ l₂ c c' jobId h₁ h₂ => absurd h₁ hexec
    claimed := h.claimed ▸ List.nodup_nil
    sole := fun c c' jobId h₁ => by
      rw [h.claimed] at h₁
      exact nomatch h₁
    ended := by
      rw [h.ended]
      exact ⟨List.nodup_nil, fun e he => nomatch he⟩
    settled := fun c jobId hc => by
      rw [h.claimed] at hc
      exact nomatch hc
    outcome := fun e he => by
      rw [h.ended] at he
      exact nomatch he
    numbered := by
      rw [h.loops, h.claimed]
      exact ⟨fun w hw => (nomatch hw), fun p hp => (nomatch hp)⟩ }

/-- **THE RUN LEMMA**. -/
theorem Fresh.run {s₀ : Calls} (h : Fresh s₀)
    (hsteps : Steps (step X) Orderly s₀ s) : Answerable s :=
  hsteps.inv Answerable h.answerable fun _ _ _ hu hok hs => hu.of_turn (turn_of_step hok hs)

/-- **NO COMPLETED JOB RETURNS** to another status. -/
theorem Answerable.run_keepsCompleted (h : Answerable s)
    (hsteps : Steps (step X) Orderly s t) : Answerable t ∧ KeepsCompleted s t :=
  hsteps.inv (fun t => Answerable t ∧ KeepsCompleted s t) ⟨h, fun _ hs => hs⟩
    fun _ _ _ hu hok hs =>
      have hturn := turn_of_step hok hs
      ⟨hu.1.of_turn hturn, fun id hc => hu.1.keepsCompleted hturn id (hu.2 id hc)⟩

end Steps

/-- **A CLAIMED JOB HAS ONE EXECUTOR**: in every run in which nothing returns to
    `pending` a job that a call in progress has claimed, and no statement about a
    claimed job goes astray, no two loops execute one job, no completed job changes,
    and a call that ends has ended each job it claimed once, completed or failed,
    unless the stop flag was seen. -/
theorem claimed_job_has_one_executor (X : Xrpl) {s₀ s t : Calls} (hfresh : Fresh s₀)
    (hs : Steps (step X) Orderly s₀ s)
    (ht : Steps (step X) Orderly s t) :
    OneExecutor s ∧ KeepsCompleted s t
      ∧ ∀ a u c, Orderly s a → step X s a = some u → Ends c s u →
        u.stopped = false → EndedOnce c u := by
  have h := hfresh.run hs
  refine ⟨h.apart, (h.run_keepsCompleted ht).2, ?_⟩
  intro a u c hok hstep hends hstop
  exact h.endedOnce (turn_of_step hok hstep) hends hstop

/-! ## One holder, two calls -/

/-- An archive with a pending job of the one holder of an issuance. -/
def holderArchive : Archive where
  issuances := Table.empty.insertIgnore { id := 1, kind := .mpt, mptIssuanceId := some "MPT" }
  accounts := ⟨[⟨"rHolder", none⟩], by decide⟩
  backfillJob := ⟨[{ id := 1, address := "rHolder", issuanceId := 1 }], by decide⟩
  issuanceSeq := 2
  jobSeq := 2

/-- No entry decodes; the pages below have none. -/
def blankXrpl : Xrpl where
  decodeMeta _ := none
  decodeTxType _ := none
  hashSignedTx blob := blob
  encodeAccountID _ := none

def blankPage (marker : Option String) : BackfillPage := ⟨[], marker, ⟨"", ""⟩⟩

theorem holderFresh : Fresh { db := holderArchive } where
  ids := by decide
  seq := by decide
  loops := rfl
  claimed := rfl
  ended := rfl

/-- The next turn of the loop ends the call, which has claimed the job. -/
def EndsNext (s : Calls) : Prop :=
  match step blankXrpl s (.claim 0 false) with
  | none => False
  | some u => Ends 0 s u ∧ u.stopped = false ∧ (0, 1) ∈ u.claimed

instance (s : Calls) : Decidable (EndsNext s) := by
  unfold EndsNext
  cases step blankXrpl s (.claim 0 false) with
  | none => exact inferInstanceAs (Decidable False)
  | some u => exact inferInstanceAs (Decidable (_ ∧ _))

/-- A call that runs the holder's job in two pages. -/
theorem claimed_job_has_one_executor_holder : ∃ s u : Calls,
    OneExecutor s ∧ (0, 1) ∈ u.claimed ∧ EndedOnce 0 u := by
  have hrun : (runChecked (step blankXrpl) Orderly { db := holderArchive }
      [.call 1 1, .claim 0 false, .page 0 (blankPage (some "m")) [] [] false,
        .page 0 (blankPage none) [] [] false]).map (fun s => decide (EndsNext s))
      = some true := by decide +kernel
  obtain ⟨s, hs, hf⟩ := Steps.exists_of_runChecked _ hrun
  have hends := of_decide_eq_true hf
  unfold EndsNext at hends
  split at hends
  · exact nomatch hends
  · rename_i u hu
    obtain ⟨hends, hstop, hclaimed⟩ := hends
    obtain ⟨hone, -, hended⟩ :=
      claimed_job_has_one_executor blankXrpl holderFresh hs (Steps.refl s)
    exact ⟨s, u, hone, hclaimed, hended (.claim 0 false) u 0 trivial hu hends hstop⟩

/-- Loops 0 and 1 execute job 1. -/
def bothExecute (s : Calls) : Bool :=
  match s.loops with
  | [⟨_, _, .executing job _⟩, ⟨_, _, .executing job' _⟩] => job.id = 1 && job'.id = 1
  | _ => false

/-- Two holders are discovered one after the other: the second call returns the
    job of the first to `pending`, both run it, and once one has completed it the
    other sets it running again.  In a single call, a last page whose COMMIT is
    executed and its reply lost completes the job, and `jobs.fail` fails it. -/
theorem overlapping_calls_execute_one_job_twice :
    (∃ (X : Xrpl) (s₀ s t u : Calls), Fresh s₀ ∧ Steps (step X) anyStep s₀ s
      ∧ ¬ OneExecutor s ∧ Steps (step X) anyStep s₀ t ∧ Steps (step X) anyStep t u
      ∧ ¬ KeepsCompleted t u)
    ∧ ∃ (X : Xrpl) (s₀ t u : Calls), Fresh s₀ ∧ Steps (step X) anyStep s₀ t
      ∧ Steps (step X) anyStep t u ∧ u.calls = 1 ∧ ¬ KeepsCompleted t u := by
  have hrun : (run (step blankXrpl) { db := holderArchive }
      [.call 1 1, .claim 0 false, .call 1 1, .claim 1 false]).map bothExecute
      = some true := by decide +kernel
  have hrun' : (run (step blankXrpl) { db := holderArchive }
      [.call 1 1, .claim 0 false, .call 1 1, .claim 1 false,
        .page 0 (blankPage none) [] [] false]).map
          (fun t => (decide (HasStatus t.db 1 .completed),
            (step blankXrpl t (.page 1 (blankPage (some "m")) [] [] false)).map
              fun u => decide (¬ HasStatus u.db 1 .completed)))
      = some (true, some true) := by decide +kernel
  have hlost : (run (step blankXrpl) { db := holderArchive }
      [.call 1 1, .claim 0 false, .losePage 0 (blankPage none) [] []]).map
          (fun t => (decide (HasStatus t.db 1 .completed),
            (step blankXrpl t (.fail 0 true)).map
              fun u => decide (u.calls = 1 ∧ ¬ HasStatus u.db 1 .completed)))
      = some (true, some true) := by decide +kernel
  obtain ⟨s, hs, hboth⟩ := Steps.exists_of_run _ hrun
  obtain ⟨t, ht, hf⟩ := Steps.exists_of_run _ hrun'
  obtain ⟨hdone, hnext⟩ := Prod.mk.inj hf
  obtain ⟨u, hu, hnot⟩ := Option.map_eq_some_iff.mp hnext
  obtain ⟨t', ht', hf'⟩ := Steps.exists_of_run _ hlost
  obtain ⟨hdone', hnext'⟩ := Prod.mk.inj hf'
  obtain ⟨u', hu', hnot'⟩ := Option.map_eq_some_iff.mp hnext'
  obtain ⟨hcalls, hnot'⟩ := of_decide_eq_true hnot'
  refine ⟨⟨blankXrpl, _, s, t, u, holderFresh, hs, ?_, ht,
    Steps.tail _ (Steps.refl t) trivial hu, ?_⟩, blankXrpl, _, t', u', holderFresh, ht',
    Steps.tail _ (Steps.refl t') trivial hu', hcalls, ?_⟩
  · intro hone
    unfold bothExecute at hboth
    split at hboth
    · rename_i c i job m c' i' job' m' hloops
      obtain ⟨hj, hj'⟩ := Bool.and_eq_true_iff.mp hboth
      have heq : (0 : ℕ) = 1 := hone 0 1 c c' 1
        ⟨_, job, by rw [hloops]; rfl, rfl, rfl, of_decide_eq_true hj⟩
        ⟨_, job', by rw [hloops]; rfl, rfl, rfl, of_decide_eq_true hj'⟩
      exact nomatch heq
    · exact nomatch hboth
  · exact fun hkeep => of_decide_eq_true hnot (hkeep 1 (of_decide_eq_true hdone))
  · exact fun hkeep => hnot' (hkeep 1 (of_decide_eq_true hdone'))

end RegistrarJobs
