import Registrar.HistoryLinks

/-! # Streaming discovery

    A sweep records its holders in the database transaction of their balance
    changes.  A heal or an event commits the changes first; its metadata are then
    shown to `onStreamTransaction`, which starts a task for each holder that is
    neither in scope nor pending, and the task records the holder.  Between the
    commit and the record a holder is only known in memory. -/

namespace RegistrarDiscovery

open KeyedTable Runs Statements RegistrarMetadata RegistrarArchive RegistrarIngest
open RegistrarBackfill RegistrarSweep RegistrarStored RegistrarWritten
open RegistrarTail RegistrarOrder RegistrarPages RegistrarLinks

/-! ## The server -/

/-- The archive and what one process holds in memory: the issuances it derives
    for, the holders it knows to be in scope, those it is recording, and committed
    metadata not yet shown to discovery. -/
structure Server where
  db : Archive
  tracked : List TrackedIssuance := []
  inScope : List DetectedHolder := []
  pendingHolders : List DetectedHolder := []
  committed : List Meta := []

/-- `IssuanceRepository.list`, as the tracked issuances it makes. -/
def registered (db : Archive) : List TrackedIssuance := db.issuances.rows.map trackedIssuance

/-- An id is registered once. -/
theorem registered_eq {db : Archive} {iss iss' : TrackedIssuance} (h : iss ∈ registered db)
    (h' : iss' ∈ registered db) (hid : iss.id = iss'.id) : iss = iss' := by
  obtain ⟨i, hi, rfl⟩ := List.mem_map.mp h
  obtain ⟨i', hi', rfl⟩ := List.mem_map.mp h'
  exact congrArg trackedIssuance (db.issuances.eq_of_key_eq hi hi' hid)

/-- The keys of `account_issuance`. -/
def members (db : Archive) : List DetectedHolder :=
  db.accountIssuance.rows.map (fun r => ⟨r.issuanceId, r.address⟩)

/-- `IssuanceRepository.create`: the id is the next of its sequence. -/
def create (row : IssuanceRow) (db : Archive) : Archive :=
  { db with
    issuances := db.issuances.insertIgnore { row with id := db.issuanceSeq }
    issuanceSeq := db.issuanceSeq + 1 }

/-- The holders a transaction starts a task for. -/
def onStreamTransaction (s : Server) (m : Meta) : Server :=
  { s with
    pendingHolders := (holdersInMeta m s.tracked).foldl
      (fun pending h => if h ∈ s.inScope ∨ h ∈ pending then pending else pending ++ [h])
      s.pendingHolders }

/-- The first statement of `trackNewHolder`. -/
def trackNewHolder (h : DetectedHolder) (db : Archive) : Except DbError Archive :=
  recordDiscovered h.issuanceId [⟨h.holder, "stream", none⟩] db

/-- The metadata a writer shows to discovery after it commits: those of a heal and
    of the tail. -/
def shown (p : Page) (batch : List MappedEntry) : List Meta :=
  match p with
  | .sweep _ _ _ _ => []
  | .worker _ _ _ _ _ => []
  | .heal _ _ _ _ => batch.filterMap (·.metadata)
  | .event _ _ _ _ => batch.filterMap (·.metadata)

/-- A sweep is of a registered issuance and its issuer; the other writers derive for
    the tracked issuances. -/
def Offered (X : Xrpl) (s : Server) : Page → Prop
  | .sweep issuance job _ _ =>
      issuance ∈ registered s.db ∧ trackedIssuerOf X issuance = some job.address
  | .worker _ tracked _ _ _ => tracked = s.tracked
  | .heal _ tracked _ _ => tracked = s.tracked
  | .event _ tracked _ _ => tracked = s.tracked

instance (X : Xrpl) (s : Server) : (p : Page) → Decidable (Offered X s p)
  | .sweep _ _ _ _ => inferInstanceAs (Decidable (_ ∧ _))
  | .worker _ tracked _ _ _ => inferInstanceAs (Decidable (tracked = s.tracked))
  | .heal _ tracked _ _ => inferInstanceAs (Decidable (tracked = s.tracked))
  | .event _ tracked _ _ => inferInstanceAs (Decidable (tracked = s.tracked))

inductive Action
  | register (row : IssuanceRow)
  | refreshTracked
  | seedInScope
  | write (p : Page)
  -- the tail records a ledger it has seen close
  | recordLedger (row : LedgerRow)
  | discover (m : Meta)
  | record (h : DetectedHolder)
  | enqueue (h : DetectedHolder)
  -- the task of a holder ends, with or without an error
  | settle (h : DetectedHolder)
  -- a crash, and the start-up steps of the next process
  | restart

def step (X : Xrpl) (s : Server) : Action → Option Server
  | .register row => some { s with db := create row s.db }
  | .refreshTracked => some { s with tracked := registered s.db }
  | .seedInScope => some { s with inScope := members s.db }
  | .write p =>
      if Offered X s p then
        (p.batch X).bind fun batch => (p.write X s.db).map fun db =>
          { s with db, committed := s.committed ++ shown p batch }
      else none
  | .recordLedger row => some { s with db := recordLedger row s.db }
  | .discover m =>
      if m ∈ s.committed then
        some (onStreamTransaction { s with committed := s.committed.erase m } m)
      else none
  | .record h =>
      if h ∈ s.pendingHolders then
        (trackNewHolder h s.db).toOption.map fun db =>
          { s with db, inScope := h :: s.inScope }
      else none
  | .enqueue h =>
      if h ∈ s.pendingHolders then
        (enqueue h.issuanceId h.holder (some 0) none .account s.db).toOption.map fun db =>
          { s with db }
      else none
  | .settle h =>
      if h ∈ s.pendingHolders then
        some { s with pendingHolders := s.pendingHolders.filter (· ≠ h) }
      else none
  | .restart =>
      some { db := s.db, tracked := registered s.db, inScope := members s.db }

/-! ## Holders that are owed a record -/

/-- The account is a member of the issuance. -/
def Member (db : Archive) (h : DetectedHolder) : Prop :=
  db.accountIssuance.HasKey (h.holder, h.issuanceId)

instance (db : Archive) (h : DetectedHolder) : Decidable (Member db h) :=
  inferInstanceAs (Decidable (Table.HasKey _ _))

/-- The account has a balance change in the issuance, and is no member. -/
def Owed (db : Archive) (h : DetectedHolder) : Prop :=
  (∃ r ∈ db.balanceDeltas, r.address = h.holder ∧ r.issuanceId = h.issuanceId)
    ∧ ¬ Member db h

instance (db : Archive) (h : DetectedHolder) : Decidable (Owed db h) :=
  inferInstanceAs (Decidable (_ ∧ _))

/-- The process will record the holder: its task is pending, or metadata that name it
    are still to be shown. -/
def Known (s : Server) (h : DetectedHolder) : Prop :=
  h ∈ s.pendingHolders ∨ ∃ m ∈ s.committed, h ∈ holdersInMeta m s.tracked

instance (s : Server) (h : DetectedHolder) : Decidable (Known s h) :=
  inferInstanceAs (Decidable (_ ∨ _))

/-- A worker's page changes balances of members and known holders only; a task ends,
    and a process, when it is owed no record. -/
def LosesNoHolder (X : Xrpl) (s : Server) : Action → Prop
  | .write (.worker seen tracked job page maxLedger) =>
      ∀ batch ∈ (Page.worker seen tracked job page maxLedger).batch X, ∀ b ∈ batch,
        ∀ iss ∈ tracked, ∀ account ∈ changed iss b.metadata,
          Member s.db ⟨iss.id, account⟩ ∨ Known s ⟨iss.id, account⟩
  | .settle h => ¬ Owed s.db h
  | .restart =>
      (∀ h ∈ s.pendingHolders, ¬ Owed s.db h)
        ∧ ∀ m ∈ s.committed, ∀ h ∈ holdersInMeta m s.tracked, ¬ Owed s.db h
  | _ => True

instance (X : Xrpl) (s : Server) (a : Action) : Decidable (LosesNoHolder X s a) := by
  unfold LosesNoHolder
  split <;> exact inferInstance

/-- What holds of the ledger: no transaction changes a balance of the issuer in its
    own issuance. -/
def IssuerHoldsNothing (X : Xrpl) : Action → Prop
  | .write (.sweep issuance job page _) =>
      ∀ batch ∈ sweepBatch X [issuance] job.address page, ∀ b ∈ batch,
        job.address ∉ changed issuance b.metadata
  | _ => True

instance (X : Xrpl) (a : Action) : Decidable (IssuerHoldsNothing X a) := by
  unfold IssuerHoldsNothing
  split <;> exact inferInstance

/-! ## What each part does -/

/-- Tracking more issuances, a transaction touches no fewer holders. -/
theorem holdersInMeta_subset {m : Meta} {tracked tracked' : List TrackedIssuance}
    (hsub : ∀ iss ∈ tracked, iss ∈ tracked') {h : DetectedHolder}
    (hh : h ∈ holdersInMeta m tracked) : h ∈ holdersInMeta m tracked' := by
  obtain ⟨w, hw, hmem⟩ := mem_holdersInMeta.mp hh
  refine mem_holdersInMeta.mpr ⟨w, hw, (?_ : h ∈ _)⟩
  unfold nodeHolders at hmem ⊢
  split at hmem
  · exact nomatch hmem
  · obtain ⟨iss, hiss, hmap⟩ := List.mem_filterMap.mp hmem
    exact List.mem_filterMap.mpr ⟨iss, hsub iss hiss, hmap⟩

/-- A holder stays known while nothing is forgotten. -/
theorem Known.mono {s s' : Server} {h : DetectedHolder} (hk : Known s h)
    (hpending : ∀ x ∈ s.pendingHolders, x ∈ s'.pendingHolders)
    (hcommitted : ∀ m ∈ s.committed, m ∈ s'.committed)
    (htracked : ∀ iss ∈ s.tracked, iss ∈ s'.tracked) : Known s' h := by
  rcases hk with hk | ⟨m, hm, hk⟩
  · exact Or.inl (hpending h hk)
  · exact Or.inr ⟨m, hcommitted m hm, holdersInMeta_subset htracked hk⟩

/-- Discovery forgets no pending holder, and notes each holder that is not in scope. -/
theorem mem_onStreamTransaction {s : Server} {m : Meta} {h : DetectedHolder} :
    h ∈ (onStreamTransaction s m).pendingHolders ↔
      h ∈ s.pendingHolders ∨ (h ∈ holdersInMeta m s.tracked ∧ h ∉ s.inScope) := by
  have hfold : ∀ (l pending : List DetectedHolder),
      h ∈ l.foldl (fun pending h => if h ∈ s.inScope ∨ h ∈ pending then pending
          else pending ++ [h]) pending
        ↔ h ∈ pending ∨ (h ∈ l ∧ h ∉ s.inScope) := by
    intro l
    induction l with
    | nil => simp
    | cons x l ih =>
        intro pending
        rw [List.foldl_cons, ih, List.mem_cons]
        by_cases hx : x ∈ s.inScope ∨ x ∈ pending
        · rw [if_pos hx]
          constructor
          · rintro (hp | ⟨hl, hout⟩)
            · exact Or.inl hp
            · exact Or.inr ⟨Or.inr hl, hout⟩
          · rintro (hp | ⟨rfl | hl, hout⟩)
            · exact Or.inl hp
            · exact Or.inl (hx.resolve_left hout)
            · exact Or.inr ⟨hl, hout⟩
        · rw [if_neg hx, List.mem_append, List.mem_singleton]
          constructor
          · rintro ((hp | rfl) | ⟨hl, hout⟩)
            · exact Or.inl hp
            · exact Or.inr ⟨Or.inl rfl, fun hin => hx (Or.inl hin)⟩
            · exact Or.inr ⟨Or.inr hl, hout⟩
          · rintro (hp | ⟨rfl | hl, hout⟩)
            · exact Or.inl (Or.inl hp)
            · exact Or.inl (Or.inr rfl)
            · exact Or.inr ⟨hl, hout⟩
  exact hfold _ _

theorem mem_members {db : Archive} {h : DetectedHolder} : h ∈ members db ↔ Member db h := by
  constructor
  · intro hh
    obtain ⟨r, hr, rfl⟩ := List.mem_map.mp hh
    exact ⟨r, hr, rfl⟩
  · rintro ⟨r, hr, hkey⟩
    obtain ⟨haddress, hid⟩ := Prod.mk.inj hkey
    refine List.mem_map.mpr ⟨r, hr, ?_⟩
    rw [haddress, hid]

/-- A task's first statement upserts the account and its membership. -/
theorem trackNewHolder_eq (h : DetectedHolder) (db : Archive) :
    trackNewHolder h db = upsertAccountIssuance ⟨h.holder, h.issuanceId, "stream", none⟩
      (upsertAccount ⟨h.holder, none⟩ db) := by
  have hone : trackNewHolder h db = [⟨h.holder, "stream", none⟩].foldlM
      (fun db (a : DiscoveredAccount) => upsertAccountIssuance
        ⟨a.address, h.issuanceId, a.discoveredVia, a.firstAcquisitionLedger⟩
        (upsertAccount ⟨a.address, a.firstAcquisitionLedger⟩ db)) db := rfl
  rw [hone, List.foldlM_cons]
  exact bind_pure _

/-- It makes the holder a member and stores no change. -/
theorem trackNewHolder_ok {h : DetectedHolder} {db db' : Archive}
    (hok : trackNewHolder h db = .ok db') :
    Member db' h ∧ (∀ x, Member db x → Member db' x)
      ∧ db'.balanceDeltas = db.balanceDeltas ∧ db'.issuances = db.issuances := by
  rw [trackNewHolder_eq] at hok
  cases Except.ok.inj (guarded_ok.mp (guarded_ok.mp hok).2).2
  exact ⟨Table.hasKey_upsert.mpr (Or.inr rfl),
    fun x hx => Table.hasKey_upsert.mpr (Or.inl hx), rfl, rfl⟩

/-- Enqueueing writes the jobs alone. -/
theorem enqueue_ok {issuanceId : ℕ} {address : String} {fromLedger toLedger : Option ℕ}
    {kind : BackfillKind} {db db' : Archive}
    (h : enqueue issuanceId address fromLedger toLedger kind db = .ok db') :
    ∃ backfillJob jobSeq, db' = { db with backfillJob, jobSeq } := by
  unfold enqueue at h
  by_cases hkey : db.backfillJob.HasKey (address, issuanceId)
  · rw [if_pos hkey] at h
    cases Except.ok.inj h
    exact ⟨_, _, rfl⟩
  · rw [if_neg hkey] at h
    cases Except.ok.inj (guarded_ok.mp (guarded_ok.mp h).2).2
    exact ⟨_, _, rfl⟩

/-- A balance change after a write was there, or is of an account whose balance a
    transaction of the batch changes. -/
theorem write_changes {X : Xrpl} {p : Page} {db db' : Archive} {batch : List MappedEntry}
    (hbatch : p.batch X = some batch) (h : p.write X db = some db') {r : BalanceDeltaRow}
    (hr : r ∈ db'.balanceDeltas) : r ∈ db.balanceDeltas
      ∨ ∃ b ∈ batch, ∃ iss ∈ p.tracked, r.issuanceId = iss.id
          ∧ r.address ∈ changed iss b.metadata := by
  obtain ⟨batch', hbatch', hingests⟩ := p.write_ingests h
  cases hbatch.symm.trans hbatch'
  rcases hingests.mem_deltas hr with hold | hnone | ⟨b, hb, hrow⟩
  · exact Or.inl hold
  · exact absurd hnone (Set.notMem_empty r)
  · obtain ⟨m, hm, iss, hiss, d, hd, rfl⟩ := mem_derivedRows.mp hrow
    refine Or.inr ⟨b, hb, iss, hiss, rfl, ?_⟩
    rw [hm]
    exact List.mem_map_of_mem hd

/-! ## The invariant -/

/-- What is in scope is recorded, what is tracked is registered, and the account of
    every balance change is a member or known. -/
structure Inv (s : Server) : Prop where
  inScope : ∀ h ∈ s.inScope, Member s.db h
  tracked : ∀ iss ∈ s.tracked, iss ∈ registered s.db
  noted : ∀ r ∈ s.db.balanceDeltas,
    Member s.db ⟨r.issuanceId, r.address⟩ ∨ Known s ⟨r.issuanceId, r.address⟩

/-- The metadata of a batch shown to discovery name the changed accounts. -/
theorem known_of_shown {X : Xrpl} (hX : SpellsParties X) {p : Page} {batch : List MappedEntry}
    (hbatch : p.batch X = some batch) {b : MappedEntry} (hb : b ∈ batch)
    (hshown : ∀ b ∈ batch, ∀ m, b.metadata = some m → m ∈ shown p batch)
    {iss : TrackedIssuance} {tracked : List TrackedIssuance} (hiss : iss ∈ tracked)
    {account : String} (haccount : account ∈ changed iss b.metadata) :
    ∃ m ∈ shown p batch, ⟨iss.id, account⟩ ∈ holdersInMeta m tracked := by
  cases hm : b.metadata with
  | none =>
      rw [hm] at haccount
      exact nomatch haccount
  | some m =>
      rw [hm] at haccount
      exact ⟨m, hshown b hb m hm,
        holder_of_changed (batch_named hX hbatch hb hm) hiss haccount⟩

theorem Inv.write {X : Xrpl} (hX : SpellsParties X) {s : Server} {p : Page}
    {batch : List MappedEntry} {db : Archive} (hI : Inv s)
    (hledger : IssuerHoldsNothing X (.write p)) (hok : LosesNoHolder X s (.write p))
    (hoffered : Offered X s p) (hbatch : p.batch X = some batch)
    (hwrite : p.write X s.db = some db) :
    Inv { s with db, committed := s.committed ++ shown p batch } where
  inScope := fun h hh => Page.write_members hwrite (hI.inScope h hh)
  tracked := fun iss hiss => by
    obtain ⟨_, _, hingests⟩ := p.write_ingests hwrite
    have hsame : registered db = registered s.db := by
      unfold registered
      rw [hingests.issuances]
    exact hsame ▸ hI.tracked iss hiss
  noted := fun r hr => by
    rcases write_changes hbatch hwrite hr with hold | ⟨b, hb, iss, hiss, hid, haccount⟩
    · refine (hI.noted r hold).imp (Page.write_members hwrite) (fun hk => hk.mono
        (fun _ h => h) (fun m hm => List.mem_append_left _ hm) (fun _ h => h))
    · rw [hid]
      cases p with
      | sweep issuance job page highWater =>
          cases List.mem_singleton.mp hiss
          refine Or.inl (Page.sweep_members hbatch hwrite hb
            (sweepBatch_links hX hbatch hb hiss haccount) ?_)
          intro hself
          exact hledger batch hbatch b hb (hself ▸ haccount)
      | worker seen tracked job page maxLedger =>
          refine (hok batch hbatch b hb iss hiss r.address haccount).imp
            (Page.write_members hwrite) (fun hk => hk.mono (fun _ h => h)
              (fun m hm => List.mem_append_left _ hm) (fun _ h => h))
      | heal seen tracked issuer page =>
          have hiss : iss ∈ tracked := hiss
          rw [show tracked = s.tracked from hoffered] at hiss
          obtain ⟨m, hm, hholder⟩ := known_of_shown hX hbatch hb
            (fun b hb m hm => List.mem_filterMap.mpr ⟨b, hb, hm⟩) hiss haccount
          exact Or.inr (Or.inr ⟨m, List.mem_append_right _ hm, hholder⟩)
      | event seen tracked msg res =>
          have hiss : iss ∈ tracked := hiss
          rw [show tracked = s.tracked from hoffered] at hiss
          obtain ⟨m, hm, hholder⟩ := known_of_shown hX hbatch hb
            (fun b hb m hm => List.mem_filterMap.mpr ⟨b, hb, hm⟩) hiss haccount
          exact Or.inr (Or.inr ⟨m, List.mem_append_right _ hm, hholder⟩)

/-- **EVERY STEP KEEPS THE INVARIANT** when it loses no holder. -/
theorem Inv.step {X : Xrpl} (hX : SpellsParties X) {s s' : Server} {a : Action}
    (hI : Inv s) (hledger : IssuerHoldsNothing X a) (hok : LosesNoHolder X s a)
    (hs : step X s a = some s') : Inv s' := by
  cases a with
  | register row =>
      cases Option.some.inj hs
      have hkept : ∀ iss ∈ registered s.db, iss ∈ registered (create row s.db) := by
        intro iss hiss
        obtain ⟨i, hi, rfl⟩ := List.mem_map.mp hiss
        exact List.mem_map_of_mem (Table.mem_insertIgnore_of_mem hi)
      exact ⟨hI.inScope, fun iss hiss => hkept iss (hI.tracked iss hiss), hI.noted⟩
  | refreshTracked =>
      cases Option.some.inj hs
      exact ⟨hI.inScope, fun _ h => h, fun r hr => (hI.noted r hr).imp id (fun hk =>
        hk.mono (fun _ h => h) (fun _ h => h) hI.tracked)⟩
  | seedInScope =>
      cases Option.some.inj hs
      exact ⟨fun h hh => mem_members.mp hh, hI.tracked, fun r hr => (hI.noted r hr).imp id
        (fun hk => hk.mono (fun _ h => h) (fun _ h => h) (fun _ h => h))⟩
  | write p =>
      obtain ⟨hoffered, hs⟩ := Option.ite_none_right_eq_some.mp hs
      obtain ⟨batch, hbatch, hs⟩ := Option.bind_eq_some_iff.mp hs
      obtain ⟨db, hwrite, rfl⟩ := Option.map_eq_some_iff.mp hs
      exact hI.write hX hledger hok hoffered hbatch hwrite
  | recordLedger row =>
      cases Option.some.inj hs
      exact ⟨hI.inScope, hI.tracked, fun r hr => (hI.noted r hr).imp id (fun hk =>
        hk.mono (fun _ h => h) (fun _ h => h) (fun _ h => h))⟩
  | discover m =>
      obtain ⟨hm, hs⟩ := Option.ite_none_right_eq_some.mp hs
      cases Option.some.inj hs
      refine ⟨hI.inScope, hI.tracked, fun r hr => ?_⟩
      rcases hI.noted r hr with hmember | hpending | ⟨m', hm', hholder⟩
      · exact Or.inl hmember
      · exact Or.inr (Or.inl (mem_onStreamTransaction.mpr (Or.inl hpending)))
      · by_cases hsame : m' = m
        · -- shown now: in scope already, or pending from here on
          cases hsame
          by_cases hscope : ⟨r.issuanceId, r.address⟩ ∈ s.inScope
          · exact Or.inl (hI.inScope _ hscope)
          · exact Or.inr (Or.inl (mem_onStreamTransaction.mpr (Or.inr ⟨hholder, hscope⟩)))
        · exact Or.inr (Or.inr ⟨m', (List.mem_erase_of_ne hsame).mpr hm', hholder⟩)
  | record h =>
      obtain ⟨hpending, hs⟩ := Option.ite_none_right_eq_some.mp hs
      obtain ⟨db, hdb, rfl⟩ := Option.map_eq_some_iff.mp hs
      obtain ⟨hmember, hkept, hdeltas, hissuances⟩ := trackNewHolder_ok (toOption_some.mp hdb)
      refine ⟨fun x hx => ?_, fun iss hiss => ?_, fun r hr => ?_⟩
      · rcases List.mem_cons.mp hx with rfl | hx
        · exact hmember
        · exact hkept x (hI.inScope x hx)
      · have hsame : registered db = registered s.db := congrArg
          (fun t : Table IssuanceRow.id => t.rows.map trackedIssuance) hissuances
        exact hsame ▸ hI.tracked iss hiss
      · exact (hI.noted r (hdeltas ▸ hr)).imp (hkept _) (fun hk =>
          hk.mono (fun _ h => h) (fun _ h => h) (fun _ h => h))
  | enqueue h =>
      obtain ⟨hpending, hs⟩ := Option.ite_none_right_eq_some.mp hs
      obtain ⟨db, hdb, rfl⟩ := Option.map_eq_some_iff.mp hs
      obtain ⟨_, _, rfl⟩ := enqueue_ok (toOption_some.mp hdb)
      exact ⟨hI.inScope, hI.tracked, fun r hr => (hI.noted r hr).imp id (fun hk =>
        hk.mono (fun _ h => h) (fun _ h => h) (fun _ h => h))⟩
  | settle h =>
      obtain ⟨hpending, hs⟩ := Option.ite_none_right_eq_some.mp hs
      cases Option.some.inj hs
      refine ⟨hI.inScope, hI.tracked, fun r hr => ?_⟩
      rcases hI.noted r hr with hmember | hpending | hcommitted
      · exact Or.inl hmember
      · by_cases hself : (⟨r.issuanceId, r.address⟩ : DetectedHolder) = h
        · refine Or.inl (not_not.mp fun hnot => hok ?_)
          rw [← hself]
          exact ⟨⟨r, hr, rfl, rfl⟩, hnot⟩
        · exact Or.inr (Or.inl (List.mem_filter.mpr ⟨hpending, decide_eq_true hself⟩))
      · exact Or.inr (Or.inr hcommitted)
  | restart =>
      cases Option.some.inj hs
      refine ⟨fun h hh => mem_members.mp hh, fun _ h => h, fun r hr => ?_⟩
      refine Or.inl (not_not.mp fun hnot => ?_)
      have howed : Owed s.db ⟨r.issuanceId, r.address⟩ := ⟨⟨r, hr, rfl, rfl⟩, hnot⟩
      rcases hI.noted r hr with hmember | hpending | ⟨m, hm, hholder⟩
      · exact hnot hmember
      · exact hok.1 _ hpending howed
      · exact hok.2 m hm _ hholder howed

/-- A server on an archive without balance changes. -/
structure Fresh (s : Server) : Prop where
  deltas : s.db.balanceDeltas = Table.empty
  inScope : ∀ h ∈ s.inScope, Member s.db h
  tracked : ∀ iss ∈ s.tracked, iss ∈ registered s.db

/-- **NO HOLDER IS LOST**: in a run whose tasks and processes end when they are owed no
    record, and whose workers change balances of members and known holders only, every
    account with a balance change is a member once discovery has finished. -/
theorem no_holder_lost (X : Xrpl) (hX : SpellsParties X) {s₀ s : Server} (hfresh : Fresh s₀)
    (h : Steps (step X) (fun s a => IssuerHoldsNothing X a ∧ LosesNoHolder X s a) s₀ s)
    (hpending : s.pendingHolders = []) (hcommitted : s.committed = []) :
    ∀ r ∈ s.db.balanceDeltas, Member s.db ⟨r.issuanceId, r.address⟩ := by
  have hI : Inv s := by
    refine h.inv Inv ⟨hfresh.inScope, hfresh.tracked, ?_⟩
      (fun _ _ _ hI hok hs => hI.step hX hok.1 hok.2 hs)
    intro r hr
    rw [hfresh.deltas] at hr
    exact absurd hr (Table.not_mem_empty r)
  intro r hr
  rcases hI.noted r hr with hmember | hk | ⟨m, hm, -⟩
  · exact hmember
  · rw [hpending] at hk
    exact nomatch hk
  · rw [hcommitted] at hm
    exact nomatch hm

/-! ## A payment to a new holder -/

def payServer : Server := { db := payArchive, tracked := [payIssuance] }

def payMeta : Meta :=
  { affectedNodes := some [spending "rAlice" "5" "3", receipt "rBob" "2"] }

/-- The payment of `rAlice` to `rBob`, from the stream. -/
def payEvent : Page :=
  .event [payIssuance] [payIssuance] ⟨"t2", some payMeta, some 201⟩
    ⟨some "t2", some "pay", some 201, ⟨"rippled", "now"⟩⟩

/-- `rBob` is recorded and backfilled, the sweep runs, and the process is restarted. -/
def discoveryRun : List Action :=
  [.write payEvent, .discover payMeta, .record ⟨1, "rBob"⟩, .enqueue ⟨1, "rBob"⟩,
    .settle ⟨1, "rBob"⟩, .write (.sweep payIssuance sweepJob issuerPage 201), .write alicePage,
    .restart]

theorem no_holder_lost_pay : ∃ s : Server, s.db.balanceDeltas.rows.length = 3
    ∧ ∀ r ∈ s.db.balanceDeltas, Member s.db ⟨r.issuanceId, r.address⟩ := by
  have hrun : (runChecked (step payXrpl)
      (fun s a => IssuerHoldsNothing payXrpl a ∧ LosesNoHolder payXrpl s a) payServer
      discoveryRun).map (fun s => decide (s.db.balanceDeltas.rows.length = 3
        ∧ s.pendingHolders = [] ∧ s.committed = [])) = some true := by
    decide +kernel
  obtain ⟨s, hsteps, hend⟩ := Steps.exists_of_runChecked _ hrun
  obtain ⟨hlength, hpending, hcommitted⟩ := of_decide_eq_true hend
  have hfresh : Fresh payServer := ⟨rfl, nofun, by decide⟩
  exact ⟨s, hlength, no_holder_lost payXrpl payXrpl_spells hfresh hsteps hpending hcommitted⟩

/-- What start-up leaves to do is nothing: no job is left to resume, and the tail is
    anchored past every stored transaction. -/
def StartUpDone (db : Archive) : Prop :=
  (∀ j ∈ db.backfillJob, j.status = .completed)
    ∧ ∃ anchor ∈ highWater db, ∀ t ∈ db.transactions, t.ledgerIndex ≤ anchor

instance (db : Archive) : Decidable (StartUpDone db) :=
  inferInstanceAs (Decidable (_ ∧ ∃ anchor ∈ highWater db, _))

/-- The issuance just registered, with the job of its sweep. -/
def registeredServer : Server where
  db := { payArchive with
    accounts := Table.empty.insertIgnore ⟨"rIssuer", none⟩
    accountIssuance := Table.empty
    backfillJob := Table.empty.insertIgnore sweepJob
    jobSeq := 2 }
  tracked := [payIssuance]

/-- The sweep, which ends with the mint, the tail's ledger 201 and its payment, and a
    crash. -/
def crashRun : List Action :=
  [.write (.sweep payIssuance sweepJob ⟨[mintEntry], none, ⟨"clio", "now"⟩⟩ 200), .seedInScope,
    .recordLedger ⟨201, 0⟩, .write payEvent, .discover payMeta, .restart]

/-- A crash after the commit and before `rBob` is recorded leaves it with a balance
    change, no membership and no task; and start-up finds nothing to do. -/
theorem crash_loses_holder : ∃ s,
    Steps (step payXrpl) (fun _ a => IssuerHoldsNothing payXrpl a) registeredServer s
      ∧ StartUpDone s.db ∧ s.pendingHolders = [] ∧ s.committed = []
      ∧ ∃ r ∈ s.db.balanceDeltas, ¬ Member s.db ⟨r.issuanceId, r.address⟩ := by
  have hrun : (runChecked (step payXrpl) (fun _ a => IssuerHoldsNothing payXrpl a)
      registeredServer crashRun).map
      (fun s => decide (StartUpDone s.db ∧ s.pendingHolders = [] ∧ s.committed = []
        ∧ ∃ r ∈ s.db.balanceDeltas, ¬ Member s.db ⟨r.issuanceId, r.address⟩))
      = some true := by
    decide +kernel
  obtain ⟨s, hsteps, hend⟩ := Steps.exists_of_runChecked _ hrun
  exact ⟨s, hsteps, of_decide_eq_true hend⟩

end RegistrarDiscovery
