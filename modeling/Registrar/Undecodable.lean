import Registrar.ReadableBlobs
import Registrar.Scans
import Registrar.HealTail

/-! # An undecodable blob

    Ingest skips a blob that `decode` cannot read only where it derives deltas.
    The mappers of the issuer sweep and the gap heal, the filter of the
    per-holder backfill and the readers of stored blobs decode without a guard:
    one such blob ends the page, and with it every attempt of the job, or the
    whole answer.

    For each path the condition is exact.  A job or a heal runs through, with
    everything in scope stored, if and only if `decode` reads every blob it is
    given; otherwise no attempt ever completes the job. -/

namespace RegistrarUndecodable

open KeyedTable Statements Runs RegistrarMetadata RegistrarArchive RegistrarIngest
open RegistrarReads RegistrarBackfill RegistrarSweep RegistrarWritten RegistrarSchedule
open RegistrarReconciler RegistrarStateReads RegistrarRederivation RegistrarReadable
open RegistrarScans (workerBatch_keeps)
open RegistrarHealTail (healed healWrite)
open RegistrarResume hiding Upstream

/-! ## What a path decodes -/

/-- What the sweep and the heal decode of an entry decodes: its metadata, and its
    transaction where they touch a tracked issuance. -/
def SweepReads (X : Xrpl) (tracked : List TrackedIssuance) (e : BinaryTxEntry) : Prop :=
  (X.decodeMeta e.metaBlob).any (fun m =>
    decide (holdersInMeta m tracked = [] ∨ (X.decodeTxType e.txBlob).isSome)) = true

instance (X : Xrpl) (tracked : List TrackedIssuance) (e : BinaryTxEntry) :
    Decidable (SweepReads X tracked e) :=
  inferInstanceAs (Decidable (_ = true))

/-- What the worker decodes does: nothing of empty metadata, nor where nothing is
    tracked. -/
def WorkerReads (X : Xrpl) (tracked : List TrackedIssuance) (e : BinaryTxEntry) : Prop :=
  (e.metaBlob = "" ∨ tracked = []) ∨ SweepReads X tracked e

instance (X : Xrpl) (tracked : List TrackedIssuance) (e : BinaryTxEntry) :
    Decidable (WorkerReads X tracked e) :=
  inferInstanceAs (Decidable (_ ∨ _))

/-- What a job decodes of an entry decodes. -/
def JobReads (X : Xrpl) (issuance : TrackedIssuance) (tracked : List TrackedIssuance)
    (e : BinaryTxEntry) : BackfillKind → Prop
  | .issuer => SweepReads X [issuance] e
  | .account => WorkerReads X tracked e

instance (X : Xrpl) (issuance : TrackedIssuance) (tracked : List TrackedIssuance)
    (e : BinaryTxEntry) : (kind : BackfillKind) → Decidable (JobReads X issuance tracked e kind)
  | .issuer => inferInstanceAs (Decidable (SweepReads X [issuance] e))
  | .account => inferInstanceAs (Decidable (WorkerReads X tracked e))

/-- The issuances a job keeps and derives for. -/
def scope (issuance : TrackedIssuance) (tracked : List TrackedIssuance) :
    BackfillKind → List TrackedIssuance
  | .issuer => [issuance]
  | .account => tracked

/-- The page without the entries that do not read. -/
def readablePage (reads : BinaryTxEntry → Prop) [DecidablePred reads] (page : BackfillPage) :
    BackfillPage :=
  { page with entries := page.entries.filter fun e => decide (reads e) }

/-- The chain without them. -/
def readableChain (reads : BinaryTxEntry → Prop) [DecidablePred reads] (C : PageChain) :
    PageChain where
  init := C.init.map (readablePage reads)
  last := readablePage reads C.last
  marked := by
    intro p hp
    obtain ⟨q, hq, rfl⟩ := List.mem_map.mp hp
    exact C.marked q hq
  unmarked := C.unmarked
  distinct := by
    rw [List.map_map]
    exact C.distinct

/-- Every entry in scope that decodes is stored, with its deltas. -/
def StoresAll (X : Xrpl) (tracked : List TrackedIssuance) (entries : List BinaryTxEntry)
    (db : Archive) : Prop :=
  ∀ e ∈ entries, (X.decodeTxType e.txBlob).isSome → (∃ iss ∈ tracked, Touches X iss e) →
    ∀ iss ∈ tracked, StoredFor X db iss e

/-- The job runs through without an interruption and leaves such an archive. -/
def Completes (R : PageRunner) (C : PageChain) (db : Archive) (Q : Archive → Prop) : Prop :=
  ∃ u, Steps (step R C) Uninterrupted { db } u ∧ Completed R u ∧ Q u.db

section Batches

variable {X : Xrpl} {tracked : List TrackedIssuance}

theorem readablePage_eq {reads : BinaryTxEntry → Prop} [DecidablePred reads]
    {page : BackfillPage} (h : ∀ e ∈ page.entries, reads e) : readablePage reads page = page := by
  unfold readablePage
  rw [List.filter_eq_self.mpr fun e he => decide_eq_true (h e he)]

theorem readableChain_eq {reads : BinaryTxEntry → Prop} [DecidablePred reads] {C : PageChain}
    (h : ∀ p ∈ C.pages, ∀ e ∈ p.entries, reads e) : readableChain reads C = C := by
  obtain ⟨init, last, marked, unmarked, distinct⟩ := C
  have hinit : init.map (readablePage reads) = init := by
    refine (List.map_congr_left (g := id) fun p hp => ?_).trans (List.map_id init)
    exact readablePage_eq (h p (List.mem_append_left _ hp))
  have hlast : readablePage reads last = last :=
    readablePage_eq (h last (List.mem_append_right _ (List.mem_singleton_self _)))
  unfold readableChain
  simp only [hinit, hlast]

/-- A page of a sweep that maps reads all its entries. -/
theorem sweepBatch_reads {issuer : String} {page : BackfillPage} {batch : List MappedEntry}
    (h : sweepBatch X tracked issuer page = some batch) :
    ∀ e ∈ page.entries, SweepReads X tracked e := by
  intro e he
  obtain ⟨mapped, hmapped, -⟩ := Option.map_eq_some_iff.mp h
  obtain ⟨o, -, ho⟩ := exists_of_mapM_some hmapped he
  obtain ⟨m, hm, ho⟩ := Option.bind_eq_some_iff.mp ho
  unfold SweepReads
  rw [hm]
  refine decide_eq_true ?_
  by_cases hnone : holdersInMeta m tracked = []
  · exact Or.inl hnone
  · rw [if_neg hnone] at ho
    obtain ⟨row, hrow, -⟩ := Option.map_eq_some_iff.mp ho
    obtain ⟨txType, htype, -⟩ := Option.map_eq_some_iff.mp hrow
    exact Or.inr (Option.isSome_iff_exists.mpr ⟨txType, htype⟩)

/-- So does a page of a worker. -/
theorem workerBatch_reads {account : String} {page : BackfillPage}
    {mapped : List IngestTransaction} (h : workerBatch X tracked account page = some mapped) :
    ∀ e ∈ page.entries, WorkerReads X tracked e := by
  intro e he
  obtain ⟨kept, hkept, hmap⟩ := Option.bind_eq_some_iff.mp h
  obtain ⟨pair, hpair, hmapped⟩ := exists_of_mapM_some hkept he
  obtain ⟨k, hk, rfl⟩ := Option.map_eq_some_iff.mp hmapped
  by_cases hskip : e.metaBlob = "" ∨ tracked = []
  · exact Or.inl hskip
  · refine Or.inr ?_
    unfold inScopeEntry holdersInMetaBlob at hk
    rw [if_neg hskip] at hk
    obtain ⟨holders, hholders, hk⟩ := Option.map_eq_some_iff.mp hk
    obtain ⟨m, hm, rfl⟩ := Option.map_eq_some_iff.mp hholders
    unfold SweepReads
    rw [hm]
    refine decide_eq_true ?_
    by_cases hnone : holdersInMeta m tracked = []
    · exact Or.inl hnone
    · have hin : e ∈ (kept.filter (·.2)).map (·.1) :=
        List.mem_map.mpr ⟨(e, k), List.mem_filter.mpr
          ⟨hpair, hk.symm.trans (decide_eq_true hnone)⟩, rfl⟩
      obtain ⟨tx, -, hrow⟩ := exists_of_mapM_some hmap hin
      obtain ⟨txType, htype, -⟩ := Option.map_eq_some_iff.mp hrow
      exact Or.inr (Option.isSome_iff_exists.mpr ⟨txType, htype⟩)

end Batches

/-! ## What a job that completes has read and stored -/

section Jobs

variable {X : Xrpl} {issuance : TrackedIssuance} {tracked : List TrackedIssuance}
  {address : String} {kind : BackfillKind}

/-- A page that a job wrote reads all its entries. -/
theorem write_reads {fromLedger : ℕ} {page : BackfillPage} {a b : Archive}
    (h : (parts X issuance tracked address fromLedger kind).write page a = some b) :
    ∀ e ∈ page.entries, JobReads X issuance tracked e kind := by
  cases kind with
  | issuer =>
      obtain ⟨batch, hbatch, -⟩ := Option.bind_eq_some_iff.mp h
      exact sweepBatch_reads hbatch
  | account =>
      obtain ⟨mapped, hmapped, -⟩ := Option.bind_eq_some_iff.mp h
      exact workerBatch_reads hmapped

/-- What it wrote: entries of the page, those in scope among them. -/
theorem write_writes {fromLedger : ℕ} {page : BackfillPage} {a b : Archive}
    (hblob : ∀ e ∈ page.entries, e.metaBlob ≠ "")
    (h : (parts X issuance tracked address fromLedger kind).write page a = some b) :
    ∃ es, (∀ e ∈ es, e ∈ page.entries) ∧ Writes X (scope issuance tracked kind) es a b
      ∧ ∀ e ∈ page.entries, ∀ iss ∈ scope issuance tracked kind, Touches X iss e → e ∈ es := by
  cases kind with
  | issuer =>
      obtain ⟨batch, hbatch, h⟩ := Option.bind_eq_some_iff.mp h
      exact ⟨keptEntries X page batch, fun e he => (mem_keptEntries.mp he).1,
        (writes_writeBatch hbatch hblob (toOption_some.mp h)).1,
        (sweepBatch_rows hbatch hblob).2⟩
  | account =>
      obtain ⟨mapped, hmapped, h⟩ := Option.bind_eq_some_iff.mp h
      obtain ⟨d, hrows, hderive⟩ := bind_ok.mp (toOption_some.mp h)
      exact ⟨_, fun e he => (mem_keptEntries.mp he).1,
        (writes_workerPage hmapped hrows hderive).1,
        fun e he iss hiss htouch => workerBatch_keeps hmapped he (hblob e he) hiss htouch⟩

variable {db : Archive} {job : BackfillJobRow} {C : PageChain} {s : JobRun}
  {ok : JobRun → Action → Prop}

/-- A job that completes, however often it was resumed, has read every entry. -/
theorem reads_of_completed (hfresh : Fresh (runner X issuance tracked address kind) db job)
    (hrun : Steps (step (runner X issuance tracked address kind) C) ok { db } s)
    (hdone : Completed (runner X issuance tracked address kind) s) :
    ∀ p ∈ C.pages, ∀ e ∈ p.entries, JobReads X issuance tracked e kind := by
  intro p hp
  obtain ⟨d, hsaved, -, -⟩ := hfresh.completed
    (parts X issuance tracked address (job.fromLedger.getD 0) kind) hrun hdone
  obtain ⟨a, b, hwrite⟩ := PagedJob.saveAll_saved hsaved hp
  exact write_reads hwrite

/-- And it has stored every entry in scope, with its deltas. -/
theorem stored_of_completed {U : Upstream} (hU : U.Sound X)
    (hids : ∀ i ∈ scope issuance tracked kind, ∀ j ∈ scope issuance tracked kind,
      i.id = j.id → i = j)
    (hof : ∀ p ∈ C.pages, ∀ e ∈ p.entries, U.Has e)
    (hfresh : Fresh (runner X issuance tracked address kind) db job)
    (hrun : Steps (step (runner X issuance tracked address kind) C) ok { db } s)
    (hdone : Completed (runner X issuance tracked address kind) s) :
    StoresAll X (scope issuance tracked kind) (C.pages.flatMap (·.entries)) s.db := by
  rintro e he - ⟨iss₀, hiss₀, htouch⟩ iss hiss
  obtain ⟨p, hp, he⟩ := List.mem_flatMap.mp he
  obtain ⟨d, hsaved, hdata, -⟩ := hfresh.completed
    (parts X issuance tracked address (job.fromLedger.getD 0) kind) hrun hdone
  have hstored : StoredFor X d iss e := by
    refine PagedJob.saveAll_establishes (I := fun d => StoredFor X d iss e) ?_ ?_ hp hsaved
    · intro a b hwrite
      obtain ⟨es, hes, hwrites, hin⟩ := write_writes (fun e he => hU.blob (hof p hp e he)) hwrite
      exact hwrites.storesFor hU (fun e' he' => hof p hp e' (hes e' he')) hiss
        (fun j hj hid => hids j hj iss hiss hid) (hin e he iss₀ hiss₀ htouch)
    · intro q hq a b hkept hwrite
      obtain ⟨es, hes, hwrites, -⟩ := write_writes (fun e he => hU.blob (hof q hq e he)) hwrite
      exact hwrites.keeps hU (fun e' he' => hof q hq e' (hes e' he'))
        (fun j hj hid => hids j hj iss hiss hid) (hof p hp e he) hkept
  have htx : s.db.transactions = d.transactions := (congrArg Archive.transactions hdata :)
  have hdeltas : s.db.balanceDeltas = d.balanceDeltas :=
    (congrArg Archive.balanceDeltas hdata :)
  unfold StoredFor Stored at hstored ⊢
  rw [htx, hdeltas]
  exact hstored

/-- A job, and the pages upstream answers it with: a fresh row of the queue that, with
    the readable entries alone, runs through. -/
structure JobInput (X : Xrpl) (issuance : TrackedIssuance) (tracked : List TrackedIssuance)
    (address : String) (kind : BackfillKind) (db : Archive) (job : BackfillJobRow)
    (C : PageChain) : Prop where
  upstream : ∃ U : Upstream, U.Sound X ∧ ∀ p ∈ C.pages, ∀ e ∈ p.entries, U.Has e
  ids : ∀ i ∈ scope issuance tracked kind, ∀ j ∈ scope issuance tracked kind,
    i.id = j.id → i = j
  fresh : Fresh (runner X issuance tracked address kind) db job
  rest : Completes (runner X issuance tracked address kind)
    (readableChain (JobReads X issuance tracked · kind) C) db fun _ => True

/-- **A JOB** runs through with all its entries if and only if it reads them all; else
    no attempt completes it. -/
theorem job_iff (h : JobInput X issuance tracked address kind db job C) :
    (Completes (runner X issuance tracked address kind) C db
        (StoresAll X (scope issuance tracked kind) (C.pages.flatMap (·.entries)))
      ↔ ∀ p ∈ C.pages, ∀ e ∈ p.entries, JobReads X issuance tracked e kind)
    ∧ ((¬ ∀ p ∈ C.pages, ∀ e ∈ p.entries, JobReads X issuance tracked e kind) →
      ∀ s, Steps (step (runner X issuance tracked address kind) C) anyStep { db } s →
        ¬ Completed (runner X issuance tracked address kind) s) := by
  refine ⟨⟨?_, ?_⟩, ?_⟩
  · rintro ⟨u, hrun, hdone, -⟩
    exact reads_of_completed h.fresh hrun hdone
  · intro hreads
    obtain ⟨U, hU, hof⟩ := h.upstream
    obtain ⟨u, hrun, hdone, -⟩ := h.rest
    rw [readableChain_eq hreads] at hrun
    exact ⟨u, hrun, hdone, stored_of_completed hU h.ids hof h.fresh hrun hdone⟩
  · intro hnot s hrun hdone
    exact hnot (reads_of_completed h.fresh hrun hdone)

end Jobs

/-! ## What a heal that runs through has read and stored -/

section Heals

variable {X : Xrpl} {tracked : List TrackedIssuance} {pages : List (String × BackfillPage)}
  {db d : Archive}

/-- The pages of a heal without the entries that do not read. -/
def readablePages (X : Xrpl) (tracked : List TrackedIssuance)
    (pages : List (String × BackfillPage)) : List (String × BackfillPage) :=
  pages.map fun p => (p.1, readablePage (SweepReads X tracked) p.2)

theorem readablePages_eq (h : ∀ p ∈ pages, ∀ e ∈ p.2.entries, SweepReads X tracked e) :
    readablePages X tracked pages = pages := by
  refine (List.map_congr_left (g := id) fun p hp => ?_).trans (List.map_id pages)
  rw [readablePage_eq (h p hp)]
  rfl

theorem healed_cons {p : String × BackfillPage} :
    healed X tracked (p :: pages) db = some d ↔ ∃ batch u,
      sweepBatch X tracked p.1 p.2 = some batch
        ∧ perform X db (.healPage tracked (batch.map (·.row))) = .ok u
        ∧ healed X tracked pages u = some d := by
  unfold healed
  rw [List.mapM_cons]
  constructor
  · intro h
    obtain ⟨ws, hws, h⟩ := Option.bind_eq_some_iff.mp h
    obtain ⟨w, hw, hws⟩ := Option.bind_eq_some_iff.mp hws
    obtain ⟨ws', hws', hcons⟩ := Option.bind_eq_some_iff.mp hws
    cases hcons
    obtain ⟨batch, hbatch, rfl⟩ := Option.map_eq_some_iff.mp hw
    obtain ⟨u, hu, hrest⟩ := foldlM_cons_ok.mp (toOption_some.mp h)
    exact ⟨batch, u, hbatch, hu, Option.bind_eq_some_iff.mpr ⟨ws', hws', toOption_some.mpr hrest⟩⟩
  · rintro ⟨batch, u, hbatch, hu, hrest⟩
    obtain ⟨ws, hws, hrest⟩ := Option.bind_eq_some_iff.mp hrest
    have hw : healWrite X tracked p = some (.healPage tracked (batch.map (·.row))) := by
      unfold healWrite
      rw [hbatch]
      rfl
    rw [hw, hws]
    exact toOption_some.mpr (foldlM_cons_ok.mpr ⟨u, hu, toOption_some.mp hrest⟩)

/-- A heal that runs through has read every entry. -/
theorem reads_of_healed (h : healed X tracked pages db = some d) :
    ∀ p ∈ pages, ∀ e ∈ p.2.entries, SweepReads X tracked e := by
  induction pages generalizing db with
  | nil => exact fun p hp => absurd hp List.not_mem_nil
  | cons q pages ih =>
      obtain ⟨batch, u, hbatch, -, hrest⟩ := healed_cons.mp h
      intro p hp
      rcases List.mem_cons.mp hp with rfl | hp
      · exact sweepBatch_reads hbatch
      · exact ih hrest p hp

/-- What a page of a heal wrote. -/
theorem healPage_writes {p : String × BackfillPage} {batch : List MappedEntry} {u : Archive}
    (hbatch : sweepBatch X tracked p.1 p.2 = some batch)
    (hblob : ∀ e ∈ p.2.entries, e.metaBlob ≠ "")
    (h : perform X db (.healPage tracked (batch.map (·.row))) = .ok u) :
    ∃ es, (∀ e ∈ es, e ∈ p.2.entries) ∧ Writes X tracked es db u
      ∧ ∀ e ∈ p.2.entries, ∀ iss ∈ tracked, Touches X iss e → e ∈ es := by
  rw [perform_healPage hbatch hblob] at h
  exact ⟨keptEntries X p.2 batch, fun e he => (mem_keptEntries.mp he).1,
    (writes_gapTransaction hbatch hblob h).1, (sweepBatch_rows hbatch hblob).2⟩

/-- A heal keeps what is stored. -/
theorem healed_keeps {U : Upstream} (hU : U.Sound X)
    (hids : ∀ i ∈ tracked, ∀ j ∈ tracked, i.id = j.id → i = j)
    (hof : ∀ p ∈ pages, ∀ e ∈ p.2.entries, U.Has e)
    (h : healed X tracked pages db = some d) {iss : TrackedIssuance} (hiss : iss ∈ tracked)
    {e : BinaryTxEntry} (he : U.Has e) (hst : StoredFor X db iss e) : StoredFor X d iss e := by
  induction pages generalizing db with
  | nil =>
      cases h
      exact hst
  | cons p pages ih =>
      obtain ⟨batch, u, hbatch, hu, hrest⟩ := healed_cons.mp h
      have hp := hof p List.mem_cons_self
      obtain ⟨es, hes, hwrites, -⟩ := healPage_writes hbatch (fun e he => hU.blob (hp e he)) hu
      exact ih (fun q hq => hof q (List.mem_cons_of_mem p hq)) hrest
        (hwrites.keeps hU (fun e' he' => hp e' (hes e' he'))
          (fun j hj hid => hids j hj iss hiss hid) he hst)

/-- And has stored every entry in scope, with its deltas. -/
theorem stored_of_healed {U : Upstream} (hU : U.Sound X)
    (hids : ∀ i ∈ tracked, ∀ j ∈ tracked, i.id = j.id → i = j)
    (hof : ∀ p ∈ pages, ∀ e ∈ p.2.entries, U.Has e)
    (h : healed X tracked pages db = some d) :
    StoresAll X tracked (pages.flatMap (·.2.entries)) d := by
  rintro e he - ⟨iss₀, hiss₀, htouch⟩ iss hiss
  obtain ⟨p, hp, hep⟩ := List.mem_flatMap.mp he
  clear he
  induction pages generalizing db with
  | nil => exact absurd hp List.not_mem_nil
  | cons q pages ih =>
      obtain ⟨batch, u, hbatch, hu, hrest⟩ := healed_cons.mp h
      have hrestOf := fun p hp => hof p (List.mem_cons_of_mem q hp)
      rcases List.mem_cons.mp hp with rfl | hp
      · have hq := hof p List.mem_cons_self
        obtain ⟨es, hes, hwrites, hin⟩ :=
          healPage_writes hbatch (fun e he => hU.blob (hq e he)) hu
        exact healed_keeps hU hids hrestOf hrest hiss (hq e hep)
          (hwrites.storesFor hU (fun e' he' => hq e' (hes e' he')) hiss
            (fun j hj hid => hids j hj iss hiss hid) (hin e hep iss₀ hiss₀ htouch))
      · exact ih hrestOf hrest hp

/-- The pages of a heal that, with the readable entries alone, runs through. -/
structure HealInput (X : Xrpl) (tracked : List TrackedIssuance)
    (pages : List (String × BackfillPage)) (db : Archive) : Prop where
  upstream : ∃ U : Upstream, U.Sound X ∧ ∀ p ∈ pages, ∀ e ∈ p.2.entries, U.Has e
  ids : ∀ i ∈ tracked, ∀ j ∈ tracked, i.id = j.id → i = j
  rest : (healed X tracked (readablePages X tracked pages) db).isSome

/-- **A HEAL** runs through with all its entries if and only if it reads them all. -/
theorem heal_iff (h : HealInput X tracked pages db) :
    (∃ d, healed X tracked pages db = some d
        ∧ StoresAll X tracked (pages.flatMap (·.2.entries)) d)
      ↔ ∀ p ∈ pages, ∀ e ∈ p.2.entries, SweepReads X tracked e := by
  constructor
  · rintro ⟨d, hd, -⟩
    exact reads_of_healed hd
  · intro hreads
    obtain ⟨U, hU, hof⟩ := h.upstream
    have hrest := h.rest
    rw [readablePages_eq hreads] at hrest
    obtain ⟨d, hd⟩ := Option.isSome_iff_exists.mp hrest
    exact ⟨d, hd, stored_of_healed hU h.ids hof hd⟩

end Heals

/-! ## Every path -/

/-- **ONE UNDECODABLE BLOB**: every job and every heal runs through and stores what is
    in scope, and every reader answers as without the blobs that do not decode, if
    and only if it meets none of them. -/
theorem undecodable_blobs_block_iff (X : Xrpl) :
    (∀ issuance tracked address kind db job C,
      JobInput X issuance tracked address kind db job C →
        (Completes (runner X issuance tracked address kind) C db
            (StoresAll X (scope issuance tracked kind) (C.pages.flatMap (·.entries)))
          ↔ ∀ p ∈ C.pages, ∀ e ∈ p.entries, JobReads X issuance tracked e kind)
        ∧ ((¬ ∀ p ∈ C.pages, ∀ e ∈ p.entries, JobReads X issuance tracked e kind) →
          ∀ s, Steps (step (runner X issuance tracked address kind) C) anyStep { db } s →
            ¬ Completed (runner X issuance tracked address kind) s))
    ∧ (∀ tracked pages db, HealInput X tracked pages db →
        ((∃ d, healed X tracked pages db = some d
            ∧ StoresAll X tracked (pages.flatMap (·.2.entries)) d)
          ↔ ∀ p ∈ pages, ∀ e ∈ p.2.entries, SweepReads X tracked e))
    ∧ (∀ order db req,
        (handleAccountInfo X order db req = handleAccountInfo X order (readable X db) req
          ↔ AccountReads X db req)
        ∧ (handleAccountLines X order db req = handleAccountLines X order (readable X db) req
          ↔ AccountReads X db req)
        ∧ (handleMptHolders X order db req = handleMptHolders X order (readable X db) req
          ↔ HoldersReads X db req))
    ∧ (∀ db issuanceId currency issuer,
        (runIou X (readable X db) issuanceId currency issuer).isSome →
          ((runIou X db issuanceId currency issuer).map Prod.snd
              = (runIou X (readable X db) issuanceId currency issuer).map Prod.snd
            ↔ ∀ t ∈ issuanceTransactions db issuanceId, Decodes X t))
    ∧ (∀ db issuanceId mptIssuanceId,
        (runMpt X (readable X db) issuanceId mptIssuanceId).isSome →
          ((runMpt X db issuanceId mptIssuanceId).map Prod.snd
              = (runMpt X (readable X db) issuanceId mptIssuanceId).map Prod.snd
            ↔ ∀ t ∈ issuanceTransactions db issuanceId, Decodes X t))
    ∧ (∀ db iss, (rederive X iss (readable X db)).isSome →
        ((rederive X iss db).map (·.balanceDeltas)
            = (rederive X iss (readable X db)).map (·.balanceDeltas)
          ↔ ∀ t ∈ inScopeMeta db iss.id, Decodes X t)) := by
  refine ⟨?_, ?_, ?_, ?_, ?_, ?_⟩
  · intro issuance tracked address kind db job C h
    exact job_iff h
  · intro tracked pages db h
    exact heal_iff h
  · intro order db req
    exact ⟨handleAccountInfo_iff order db req, handleAccountLines_iff order db req,
      handleMptHolders_iff order db req⟩
  · intro db issuanceId currency issuer hrest
    exact runIou_iff issuanceId currency issuer hrest
  · intro db issuanceId mptIssuanceId hrest
    exact runMpt_iff issuanceId mptIssuanceId hrest
  · intro db iss hrest
    exact rederive_iff iss hrest

/-! ## A sweep past garbage -/

/-- `account_tx` of every account lists the garbage and the mint. -/
def garbageUpstream : Upstream where
  accountTx _ := [⟨"bad", "garbage", 199⟩, ⟨"tx", "mint", 200⟩]
  passed _ _ := false

theorem garbageUpstream_has {e : BinaryTxEntry} (h : garbageUpstream.Has e) :
    e = ⟨"bad", "garbage", 199⟩ ∨ e = ⟨"tx", "mint", 200⟩ := by
  obtain ⟨account, h⟩ := h
  exact List.mem_pair.mp h

theorem garbageUpstream_sound : garbageUpstream.Sound mintXrpl where
  blob := by
    intro e he
    rcases garbageUpstream_has he with rfl | rfl <;> decide
  hash := by
    intro e e' he he' hhash
    rcases garbageUpstream_has he with rfl | rfl <;>
      rcases garbageUpstream_has he' with rfl | rfl
    · rfl
    · exact absurd hhash (by decide)
    · exact absurd hhash (by decide)
    · rfl
  lists := by
    intro e iss issuer he _ _
    rcases garbageUpstream_has he with rfl | rfl <;> exact List.mem_pair.mpr (by simp)
  bounded := by
    intro e m he hm
    rcases garbageUpstream_has he with rfl | rfl
    · cases hm
    · cases hm
      decide

def mintJob : BackfillJobRow :=
  { id := 1, address := "rIssuer", issuanceId := 1, fromLedger := some 0, kind := .issuer }

/-- The sweep whose pages are the mint's, with or without the garbage. -/
theorem mint_jobInput {C : PageChain}
    (hof : ∀ p ∈ C.pages, ∀ e ∈ p.entries, garbageUpstream.Has e)
    (hrest : Completes mintRunner (readableChain (SweepReads mintXrpl [mintIssuance]) C)
      mintArchive fun _ => True) :
    JobInput mintXrpl mintIssuance [mintIssuance] "rIssuer" .issuer mintArchive mintJob C where
  upstream := ⟨garbageUpstream, garbageUpstream_sound, hof⟩
  ids := by
    intro i hi j hj _
    rw [List.mem_singleton.mp hi, List.mem_singleton.mp hj]
  fresh := mintFresh
  rest := hrest

/-- The mint alone, as a heal reads it. -/
def mintPage : BackfillPage := ⟨[⟨"tx", "mint", 200⟩], none, ⟨"clio", "now"⟩⟩

/-- Without the garbage the sweep and the heal run through, and the readers answer. -/
theorem undecodable_blobs_block_iff_mint :
    Completes mintRunner mintUpstream.chain mintArchive
        (StoresAll mintXrpl [mintIssuance] (mintUpstream.chain.pages.flatMap (·.entries)))
      ∧ (∃ d, healed mintXrpl [mintIssuance] [("rIssuer", mintPage)] mintArchive = some d
        ∧ StoresAll mintXrpl [mintIssuance] mintPage.entries d)
      ∧ (runIou mintXrpl mintArchive 1 "USD" "rIssuer").map Prod.snd
        = (runIou mintXrpl (readable mintXrpl mintArchive) 1 "USD" "rIssuer").map Prod.snd
      ∧ (runMpt mintXrpl mintArchive 1 "MPT").map Prod.snd
        = (runMpt mintXrpl (readable mintXrpl mintArchive) 1 "MPT").map Prod.snd
      ∧ (rederive mintXrpl mintIssuance mintArchive).map (·.balanceDeltas)
        = (rederive mintXrpl mintIssuance (readable mintXrpl mintArchive)).map
          (·.balanceDeltas) := by
  obtain ⟨hjobs, hheals, -, hiou, hmpt, hrederive⟩ := undecodable_blobs_block_iff mintXrpl
  have hreads : ∀ p ∈ mintUpstream.chain.pages, ∀ e ∈ p.entries,
      SweepReads mintXrpl [mintIssuance] e := by decide
  refine ⟨?_, ?_, ?_, ?_, ?_⟩
  · refine (hjobs mintIssuance [mintIssuance] "rIssuer" .issuer mintArchive mintJob _
      (mint_jobInput ?_ ?_)).1.mpr hreads
    · intro p hp e he
      rcases List.mem_pair.mp hp with rfl | rfl
      · exact ⟨"rIssuer", List.mem_cons_of_mem _ he⟩
      · cases he
    · rw [readableChain_eq hreads]
      obtain ⟨u, hrun, hend⟩ := mint_uninterrupted
      exact ⟨u, hrun, mintOutcome_completed hend, trivial⟩
  · refine (hheals [mintIssuance] _ mintArchive ⟨⟨garbageUpstream, garbageUpstream_sound, ?_⟩,
      ?_, ?_⟩).mpr ?_
    · intro p hp e he
      rw [List.mem_singleton.mp hp] at he
      exact ⟨"rIssuer", List.mem_cons_of_mem _ he⟩
    · intro i hi j hj _
      rw [List.mem_singleton.mp hi, List.mem_singleton.mp hj]
    · decide +kernel
    · decide
  · exact (hiou mintArchive 1 "USD" "rIssuer" (by decide +kernel)).mpr (by decide)
  · exact (hmpt mintArchive 1 "MPT" (by decide +kernel)).mpr (by decide)
  · exact (hrederive mintArchive mintIssuance (by decide +kernel)).mpr (by decide)

/-- One page, the garbage before the mint. -/
def garbagePage : BackfillPage :=
  ⟨[⟨"bad", "garbage", 199⟩, ⟨"tx", "mint", 200⟩], none, ⟨"clio", "now"⟩⟩

theorem garbagePage_marked : ∀ p ∈ ([] : List BackfillPage), p.marker.isSome := by decide

theorem garbagePage_unmarked : garbagePage.marker = none := rfl

theorem garbagePage_distinct : (([] : List BackfillPage).map BackfillPage.marker).Nodup := by
  decide

def garbageChain : PageChain where
  init := []
  last := garbagePage
  marked := garbagePage_marked
  unmarked := garbagePage_unmarked
  distinct := garbagePage_distinct

/-- The garbage keeps the mint out of the archive: the sweep would store it alone, and
    never completes with the two. -/
theorem garbage_blocks_sweep :
    JobInput mintXrpl mintIssuance [mintIssuance] "rIssuer" .issuer mintArchive mintJob
        garbageChain
      ∧ ¬ Completes mintRunner garbageChain mintArchive
        (StoresAll mintXrpl [mintIssuance] (garbageChain.pages.flatMap (·.entries))) := by
  refine ⟨mint_jobInput ?_ ?_, ?_⟩
  · intro p hp e he
    rw [List.mem_singleton.mp hp] at he
    exact ⟨"rIssuer", he⟩
  · obtain ⟨u, hrun, hend⟩ : ∃ u, Steps (step mintRunner
          (readableChain (SweepReads mintXrpl [mintIssuance]) garbageChain)) Uninterrupted
          { db := mintArchive } u
        ∧ mintOutcome u = (some .completed, [(200, 200), (200, 200)]) :=
      Steps.exists_of_runChecked [.start, .fetch, .commit] (by decide +kernel)
    exact ⟨u, hrun, mintOutcome_completed hend, trivial⟩
  · rintro ⟨u, hrun, hdone, -⟩
    have hread : SweepReads mintXrpl [mintIssuance] ⟨"bad", "garbage", 199⟩ :=
      reads_of_completed mintFresh hrun hdone garbageChain.last
        (List.mem_singleton_self _) _ List.mem_cons_self
    exact absurd hread (by decide)

end RegistrarUndecodable
