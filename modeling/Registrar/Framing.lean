import Registrar.Backfill

/-! # What the ingest statements leave alone

    A page is stored by a long sequence of statements.  `Frames` says that a
    statement neither reads nor writes the jobs, the coverage and the members,
    and `BesideJobs` that it does beside the jobs what it does with them. -/

namespace RegistrarFraming

open KeyedTable Statements RegistrarMetadata RegistrarArchive RegistrarIngest
open RegistrarBackfill

/-! ## Statements that leave tables alone -/

/-- The tables that storing a transaction and its deltas leaves alone. -/
structure Unread where
  jobs : Table BackfillJobRow.key
  coverage : List CoverageRow
  members : Table AccountIssuanceRow.key

def put (u : Unread) (db : Archive) : Archive :=
  { db with backfillJob := u.jobs, coverage := u.coverage, accountIssuance := u.members }

/-- A statement neither reads nor writes these tables. -/
def Frames (f : Archive → Except DbError Archive) : Prop :=
  ∀ u db, f (put u db) = (f db).map (put u)

theorem Frames.pure : Frames .ok := fun _ _ => rfl

theorem Frames.of_fun {f : Archive → Archive}
    (h : ∀ u db, f (put u db) = put u (f db)) : Frames (fun db => .ok (f db)) := by
  intro u db
  show Except.ok (f (put u db)) = Except.ok (put u (f db))
  rw [h]

theorem Frames.comp {f g : Archive → Except DbError Archive} (hf : Frames f)
    (hg : Frames g) : Frames (fun db => f db >>= g) := by
  intro u db
  show (f (put u db) >>= g) = (f db >>= g).map (put u)
  rw [hf u db]
  cases f db with
  | error e => rfl
  | ok d => exact hg u d

theorem Frames.foldlM {α : Type} {f : α → Archive → Except DbError Archive}
    (hf : ∀ a, Frames (f a)) (l : List α) :
    Frames (fun db => l.foldlM (fun db a => f a db) db) := by
  induction l with
  | nil => exact Frames.pure
  | cons a l ih => exact (hf a).comp ih

theorem Frames.guard {c : Archive → Prop} [∀ db, Decidable (c db)] {e : DbError}
    {f : Archive → Except DbError Archive} (hf : Frames f)
    (hc : ∀ u db, c (put u db) ↔ c db) :
    Frames (fun db => if c db then .error e else f db) := by
  intro u db
  show (if c (put u db) then _ else _) = Except.map _ (if c db then _ else _)
  by_cases h : c db
  · rw [if_pos h, if_pos ((hc u db).mpr h)]
    rfl
  · rw [if_neg h, if_neg (fun h' => h ((hc u db).mp h'))]
    exact hf u db

/-- A loop of infallible statements, as one. -/
theorem Frames.foldl {α : Type} {f : α → Archive → Archive}
    (hf : ∀ a u db, f a (put u db) = put u (f a db)) (l : List α) :
    Frames (fun db => .ok (l.foldl (fun db a => f a db) db)) := by
  refine Frames.of_fun ?_
  intro u db
  induction l generalizing db with
  | nil => rfl
  | cons a l ih => rw [List.foldl_cons, List.foldl_cons, hf, ih]

theorem Frames.insertChunked {α : Type} (columns : ℕ)
    {statement : List α → Archive → Except DbError Archive}
    (h : ∀ chunk, Frames (statement chunk)) (rows : List α) :
    Frames (insertChunked columns statement rows) :=
  Frames.foldlM h _

/-- A framed statement leaves the tables as they are. -/
theorem Frames.unchanged {f : Archive → Except DbError Archive} (hf : Frames f)
    {db db' : Archive} (h : f db = .ok db') :
    db' = put ⟨db.backfillJob, db.coverage, db.accountIssuance⟩ db' := by
  have hself : f db = (f db).map
      (put ⟨db.backfillJob, db.coverage, db.accountIssuance⟩) :=
    hf ⟨db.backfillJob, db.coverage, db.accountIssuance⟩ db
  rw [h] at hself
  exact Except.ok.inj hself

theorem Frames.members {f : Archive → Except DbError Archive} (hf : Frames f)
    {db db' : Archive} (h : f db = .ok db') : db'.accountIssuance = db.accountIssuance := by
  rw [hf.unchanged h]
  rfl

/-! ### The ingest statements -/

theorem frames_insertAccountTransaction (row : AccountTransactionRow) :
    Frames (insertAccountTransaction row) :=
  Frames.guard (Frames.guard (Frames.of_fun (fun _ _ => rfl)) (fun _ _ => Iff.rfl))
    (fun _ _ => Iff.rfl)

theorem frames_upsertDelta (row : BalanceDeltaRow) : Frames (upsertDelta row) :=
  Frames.guard (Frames.guard (Frames.guard (Frames.of_fun (fun _ _ => rfl))
    (fun _ _ => Iff.rfl)) (fun _ _ => Iff.rfl)) (fun _ _ => Iff.rfl)

theorem frames_insertTransactionRowsMany (txs : List IngestTransaction) :
    Frames (insertTransactionRowsMany txs) := by
  unfold insertTransactionRowsMany
  by_cases hempty : txs.isEmpty
  · simp only [hempty]
    exact Frames.pure
  · simp only [hempty]
    refine Frames.comp (Frames.insertChunked 10 (fun chunk => ?_) _)
      (Frames.comp (Frames.insertChunked 2 (fun chunk => ?_) _)
        (Frames.insertChunked 2 (fun chunk => ?_) _))
    · exact Frames.foldl (fun _ _ _ => rfl) chunk
    · unfold upsertAccounts
      exact Frames.guard (Frames.foldl (fun _ _ _ => rfl) chunk) (fun _ _ => Iff.rfl)
    · exact Frames.foldlM (fun link => frames_insertAccountTransaction link) chunk

theorem frames_insertDeltasMany (issuanceId : ℕ) (rows : List DeltaRow) :
    Frames (insertDeltasMany issuanceId rows) := by
  unfold insertDeltasMany
  by_cases hempty : rows.isEmpty
  · simp only [hempty]
    exact Frames.pure
  · simp only [hempty]
    refine Frames.comp (Frames.insertChunked 1 (fun chunk => ?_) _)
      (Frames.insertChunked 3 (fun chunk => ?_) _)
    · exact Frames.foldl (fun _ _ _ => rfl) chunk
    · unfold upsertDeltas
      exact Frames.guard (Frames.foldlM (fun r => frames_upsertDelta _) chunk)
        (fun _ _ => Iff.rfl)

theorem frames_deltaDeriver (issuances : List TrackedIssuance) (hash : String)
    (metadata : Option Meta) : Frames (deltaDeriver issuances hash metadata) := by
  cases metadata with
  | none => exact Frames.pure
  | some m => exact Frames.foldlM (fun iss => frames_insertDeltasMany iss.id _) issuances

/-! ## The archive without its jobs -/

def dropJobs (db : Archive) : Archive := { db with backfillJob := Table.empty }

/-- A statement does what it does beside the jobs, and claims no coverage. -/
def BesideJobs (f : Archive → Except DbError Archive) : Prop :=
  ∀ db db', f db = .ok db' → f (dropJobs db) = .ok (dropJobs db')
    ∧ db'.backfillJob = db.backfillJob ∧ db'.coverage = db.coverage

theorem Frames.besideJobs {f : Archive → Except DbError Archive} (hf : Frames f) :
    BesideJobs f := by
  intro db db' h
  have hsame := hf.unchanged h
  refine ⟨?_, by rw [hsame]; rfl, by rw [hsame]; rfl⟩
  have hput : f (dropJobs db) = (f db).map
      (put ⟨Table.empty, db.coverage, db.accountIssuance⟩) :=
    hf ⟨Table.empty, db.coverage, db.accountIssuance⟩ db
  rw [hput, h]
  show Except.ok (put _ db') = Except.ok (dropJobs db')
  rw [hsame]
  rfl

theorem BesideJobs.comp {f g : Archive → Except DbError Archive} (hf : BesideJobs f)
    (hg : BesideJobs g) : BesideJobs (fun db => f db >>= g) := by
  intro db db' h
  obtain ⟨d, hd, h⟩ := bind_ok.mp h
  obtain ⟨hfd, hjobs, hcov⟩ := hf db d hd
  obtain ⟨hgd, hjobs', hcov'⟩ := hg d db' h
  exact ⟨bind_ok.mpr ⟨dropJobs d, hfd, hgd⟩, hjobs'.trans hjobs, hcov'.trans hcov⟩

theorem BesideJobs.foldlM {α : Type} {f : α → Archive → Except DbError Archive}
    (hf : ∀ a, BesideJobs (f a)) (l : List α) :
    BesideJobs (fun db => l.foldlM (fun db a => f a db) db) := by
  induction l with
  | nil =>
      intro db db' h
      cases foldlM_nil_ok.mp h
      exact ⟨rfl, rfl, rfl⟩
  | cons a l ih => exact (hf a).comp ih

theorem recordHolder_ok {issuanceId : ℕ} {address : String} {ledger : ℕ}
    {db db' : Archive} :
    recordHolder issuanceId address ledger db = .ok db' ↔
      (upsertAccount ⟨address, some ledger⟩ db).accounts.HasKey address
        ∧ db.issuances.HasKey issuanceId
        ∧ db' = { upsertAccount ⟨address, some ledger⟩ db with
            accountIssuance := db.accountIssuance.upsert
              (fun old new =>
                { old with
                  firstAcquisitionLedger :=
                    least old.firstAcquisitionLedger new.firstAcquisitionLedger })
              (fun _ _ => rfl) ⟨address, issuanceId, "issuer_sweep", some ledger⟩ } := by
  unfold recordHolder upsertAccountIssuance
  rw [guarded_ok, guarded_ok, not_not, not_not]
  refine and_congr Iff.rfl (and_congr Iff.rfl ?_)
  exact ⟨fun h => (Except.ok.inj h).symm, fun h => congrArg Except.ok h.symm⟩

theorem besideJobs_recordHolder (issuanceId : ℕ) (address : String) (ledger : ℕ) :
    BesideJobs (recordHolder issuanceId address ledger) := by
  intro db db' h
  obtain ⟨hacc, hiss, rfl⟩ := recordHolder_ok.mp h
  exact ⟨recordHolder_ok.mpr ⟨hacc, hiss, rfl⟩, rfl, rfl⟩

theorem besideJobs_writeBatch (issuances : List TrackedIssuance) (issuanceId : ℕ)
    (issuer : String) (batch : List MappedEntry) :
    BesideJobs (writeBatch (deltaDeriver issuances) issuanceId issuer batch) :=
  BesideJobs.comp (frames_insertTransactionRowsMany _).besideJobs
    (BesideJobs.comp
      (Frames.foldlM (fun _ => frames_deltaDeriver issuances _ _) batch).besideJobs
      (BesideJobs.foldlM (fun _ => besideJobs_recordHolder issuanceId _ _) _))

end RegistrarFraming
