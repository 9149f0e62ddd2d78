import Registrar.JobClaims
import Registrar.Undecodable

/-! # The periodic re-scan

    `rediscover` runs the ingestion pipeline of every enabled issuance again.  Its
    job is enqueued unless there is one, returned to `pending` unless it is
    completed, and swept from its stored marker: what a pass reads is what the
    job has ahead of it, and a completed job has nothing.

    `Swept` says what reading does to the archive, for a page, a job and a pass
    alike; from it follows exactly when a pass repairs a missing transaction. -/

namespace RegistrarRescan

open KeyedTable Statements RegistrarMetadata RegistrarArchive RegistrarIngest
open RegistrarBackfill RegistrarFraming RegistrarSweep RegistrarStored RegistrarWritten
open RegistrarOrder RegistrarPages RegistrarSchedule RegistrarDiscovery RegistrarUndecodable
open RegistrarScans (Page.writes)
open RegistrarHealTail (mintEntry minted)
open RegistrarJobs (JobIds Rewrites rewrites_reclaimStale enqueue_rows)
open RegistrarResume (PageChain claim sweepRows getByAccount_reclaimStale mintXrpl mintArchive)

/-! ## The pass -/

/-- The pages with which upstream answers `account_tx` of an account from a ledger. -/
abbrev Histories := String → ℕ → PageChain

/-- Upstream answers every request, with what it lists at or above the ledger. -/
def AnswersAll (U : Upstream) (histories : Histories) : Prop :=
  ∀ account fromLedger e, (∃ p ∈ (histories account fromLedger).pages, e ∈ p.entries)
    ↔ e ∈ U.accountTx account ∧ fromLedger ≤ e.ledgerIndex

/-- The ledgers a page of the sweep raises the high water with. -/
def keptLedgers (X : Xrpl) (iss : TrackedIssuance) (issuer : String) (page : BackfillPage) :
    List ℕ :=
  ((sweepBatch X [iss] issuer page).getD []).map (·.row.ledgerIndex)

/-- The loop of `runIssuerBackfill` over the pages it is answered with; what throws
    fails the job. -/
def sweepPages (X : Xrpl) (iss : TrackedIssuance) (job : BackfillJobRow) :
    List BackfillPage → ℕ → Archive → Archive
  | [], _, db => failJob job.id db
  | page :: rest, highWater, db =>
      let highWater := raiseAll highWater (keptLedgers X iss job.address page)
      match (Page.sweep iss job page highWater).write X db with
      | none => failJob job.id db
      | some db => if page.marker.isNone then db else sweepPages X iss job rest highWater db

def runIssuerBackfill (X : Xrpl) (histories : Histories) (iss : TrackedIssuance)
    (job : BackfillJobRow) (db : Archive) : Archive :=
  let fromLedger := job.fromLedger.getD 0
  sweepPages X iss job ((histories job.address fromLedger).remaining job.lastMarker)
    fromLedger db

/-- What `ingestIssuance` writes, however it ends. -/
def ingestIssuance (X : Xrpl) (histories : Histories) (i : IssuanceRow) (db : Archive) :
    Archive :=
  match issuerOf X i with
  | none => db
  | some issuer =>
      let db := insertAccount ⟨issuer, none⟩ db
      match enqueue i.id issuer (some i.backfillFromLedger) none .issuer db with
      | .error _ => db
      | .ok db =>
          let db := reclaimStale i.id db
          match getByAccount i.id issuer db with
          | none => db
          | some job =>
              if job.status ≠ .completed then
                runIssuerBackfill X histories (trackedIssuance i) job db
              else db

/-- `IssuanceRepository.list`. -/
def list (db : Archive) : List IssuanceRow :=
  db.issuances.rows.insertionSort (fun a b => a.id ≤ b.id)

/-- The loop of `rediscover`; the failure of an issuance does not end it. -/
def rediscover (X : Xrpl) (histories : Histories) (db : Archive) : Archive :=
  ((list db).filter (·.enabled)).foldl (fun db i => ingestIssuance X histories i db) db

/-! ## What a pass reads -/

/-- The sweep can take an entry: what it decodes decodes, and no balance is changed
    twice by one derivation. -/
def Takes (X : Xrpl) (iss : TrackedIssuance) (e : BinaryTxEntry) : Prop :=
  (X.decodeMeta e.metaBlob).any (fun m =>
    decide (holdersInMeta m [iss] = [] ∨ ((X.decodeTxType e.txBlob).isSome
      ∧ ((issuanceDeltas iss m).map Prod.fst).Nodup))) = true

instance (X : Xrpl) (iss : TrackedIssuance) (e : BinaryTxEntry) : Decidable (Takes X iss e) :=
  inferInstanceAs (Decidable (_ = true))

/-- The pages an issuance's sweep has ahead of it: all of them before it has a job,
    none once that is completed, else those after its marker. -/
def ahead (X : Xrpl) (histories : Histories) (db : Archive) (i : IssuanceRow) :
    List BackfillPage :=
  match issuerOf X i with
  | none => []
  | some issuer =>
      match getByAccount i.id issuer db with
      | none => (histories issuer i.backfillFromLedger).pages
      | some job =>
          if job.status ≠ .completed then
            (histories issuer (job.fromLedger.getD 0)).remaining job.lastMarker
          else []

/-- The entries up to the first page with one that the sweep cannot take. -/
def taken (X : Xrpl) (iss : TrackedIssuance) (pages : List BackfillPage) :
    List BinaryTxEntry :=
  (pages.takeWhile (fun p => ∀ e ∈ p.entries, Takes X iss e)).flatMap (·.entries)

theorem taken_cons_of_takes {X : Xrpl} {iss : TrackedIssuance} {page : BackfillPage}
    {pages : List BackfillPage} (h : ∀ e ∈ page.entries, Takes X iss e) :
    taken X iss (page :: pages) = page.entries ++ taken X iss pages := by
  unfold taken
  rw [List.takeWhile_cons, if_pos (decide_eq_true h), List.flatMap_cons]

theorem taken_cons_of_not {X : Xrpl} {iss : TrackedIssuance} {page : BackfillPage}
    {pages : List BackfillPage} (h : ¬ ∀ e ∈ page.entries, Takes X iss e) :
    taken X iss (page :: pages) = [] := by
  unfold taken
  rw [List.takeWhile_cons, if_neg (by simpa using h)]
  rfl

/-- What the sweep of an issuance reads in a pass. -/
def readAhead (X : Xrpl) (histories : Histories) (db : Archive) (i : IssuanceRow) :
    List BinaryTxEntry :=
  taken X (trackedIssuance i) (ahead X histories db i)

/-- The account holds the issuance in the transaction. -/
def Holds (X : Xrpl) (iss : TrackedIssuance) (e : BinaryTxEntry) (account : String) : Prop :=
  ∃ m, decodeMeta X e.metaBlob = some m ∧ ∃ h ∈ holdersInMeta m [iss], h.holder = account

theorem Holds.touches {X : Xrpl} {iss : TrackedIssuance} {e : BinaryTxEntry}
    {account : String} (h : Holds X iss e account) : Touches X iss e := by
  obtain ⟨m, hm, x, hx, -⟩ := h
  exact ⟨m, hm, List.ne_nil_of_mem hx⟩

/-- The transaction is stored with its deltas for the issuance, its holders are
    members. -/
def Repaired (X : Xrpl) (db : Archive) (i : IssuanceRow) (e : BinaryTxEntry) : Prop :=
  StoredFor X db (trackedIssuance i) e
    ∧ ∀ a, Holds X (trackedIssuance i) e a → issuerOf X i ≠ some a → Member db ⟨i.id, a⟩

/-- The pass reads the transaction for the issuance; or the transaction changes no
    balance of it, is read for another issuance it touches, and its holders are
    members already or held in something that is read. -/
def Reaches (X : Xrpl) (histories : Histories) (db : Archive) (i : IssuanceRow)
    (e : BinaryTxEntry) : Prop :=
  e ∈ readAhead X histories db i
    ∨ (entryDeltas X [trackedIssuance i] e = []
      ∧ (∃ j ∈ db.issuances, j.enabled ∧ e ∈ readAhead X histories db j
          ∧ Touches X (trackedIssuance j) e)
      ∧ ∀ a, Holds X (trackedIssuance i) e a → issuerOf X i ≠ some a →
          Member db ⟨i.id, a⟩
            ∨ ∃ e' ∈ readAhead X histories db i, Holds X (trackedIssuance i) e' a)

/-! ## What reading does -/

/-- `d'` is `d` after the sweeps of issuances have read entries: those that touch the
    issuance are stored with their deltas and holders, and nothing else is. -/
structure Swept (X : Xrpl) (U : Upstream) (reads : Set (IssuanceRow × BinaryTxEntry))
    (d d' : Archive) : Prop where
  issuances : d'.issuances = d.issuances
  of : ∀ p ∈ reads, p.1 ∈ d.issuances ∧ U.Has p.2
  kept : ∀ iss ∈ registered d, ∀ e, U.Has e → StoredFor X d iss e → StoredFor X d' iss e
  stored : ∀ p ∈ reads, Touches X (trackedIssuance p.1) p.2 →
    StoredFor X d' (trackedIssuance p.1) p.2
  new : ∀ e, U.Has e → Stored X d' e →
    Stored X d e ∨ ∃ i, (i, e) ∈ reads ∧ Touches X (trackedIssuance i) e
  deltas : ∀ r ∈ d'.balanceDeltas, r ∈ d.balanceDeltas ∨ ∃ p ∈ reads,
    Touches X (trackedIssuance p.1) p.2 ∧ r.issuanceId = p.1.id
      ∧ r.hash = X.hashSignedTx p.2.txBlob
  members : ∀ h, Member d' h ↔ Member d h ∨ ∃ p ∈ reads, p.1.id = h.issuanceId
    ∧ Holds X (trackedIssuance p.1) p.2 h.holder ∧ issuerOf X p.1 ≠ some h.holder

section Swept

variable {X : Xrpl} {U : Upstream} {reads reads' : Set (IssuanceRow × BinaryTxEntry)}
  {d d' d'' : Archive}

theorem Swept.registered (h : Swept X U reads d d') :
    RegistrarDiscovery.registered d' = RegistrarDiscovery.registered d := by
  unfold RegistrarDiscovery.registered
  rw [h.issuances]

/-- What leaves the tables of the transactions and the members alone reads nothing. -/
theorem Swept.of_same (hissuances : d'.issuances = d.issuances)
    (htx : d'.transactions = d.transactions) (hdeltas : d'.balanceDeltas = d.balanceDeltas)
    (hmembers : d'.accountIssuance = d.accountIssuance) : Swept X U ∅ d d' where
  issuances := hissuances
  of := fun _ h => absurd h (Set.notMem_empty _)
  kept := by
    intro iss _ e _ h
    unfold StoredFor Stored
    rw [htx, hdeltas]
    exact h
  stored := fun _ h => absurd h (Set.notMem_empty _)
  new := by
    intro e _ h
    unfold Stored at h
    rw [htx] at h
    exact Or.inl h
  deltas := fun r hr => Or.inl (hdeltas ▸ hr)
  members := by
    intro h
    unfold Member
    rw [hmembers]
    refine ⟨Or.inl, ?_⟩
    rintro (hm | ⟨p, hp, -⟩)
    · exact hm
    · exact absurd hp (Set.notMem_empty p)

/-- **ONE SWEEP AFTER ANOTHER** reads what the two read. -/
theorem Swept.trans (h₁ : Swept X U reads d d') (h₂ : Swept X U reads' d' d'') :
    Swept X U (reads ∪ reads') d d'' where
  issuances := h₂.issuances.trans h₁.issuances
  of := by
    rintro p (hp | hp)
    · exact h₁.of p hp
    · exact h₁.issuances ▸ h₂.of p hp
  kept := fun iss hiss e he h =>
    h₂.kept iss (h₁.registered.symm ▸ hiss) e he (h₁.kept iss hiss e he h)
  stored := by
    rintro p (hp | hp) htouch
    · obtain ⟨hi, he⟩ := h₁.of p hp
      refine h₂.kept _ ?_ _ he (h₁.stored p hp htouch)
      rw [h₁.registered]
      exact List.mem_map_of_mem hi
    · exact h₂.stored p hp htouch
  new := by
    intro e he h
    rcases h₂.new e he h with h | ⟨i, hi, htouch⟩
    · rcases h₁.new e he h with h | ⟨i, hi, htouch⟩
      · exact Or.inl h
      · exact Or.inr ⟨i, Or.inl hi, htouch⟩
    · exact Or.inr ⟨i, Or.inr hi, htouch⟩
  deltas := by
    intro r hr
    rcases h₂.deltas r hr with hr | ⟨p, hp, hrest⟩
    · rcases h₁.deltas r hr with hr | ⟨p, hp, hrest⟩
      · exact Or.inl hr
      · exact Or.inr ⟨p, Or.inl hp, hrest⟩
    · exact Or.inr ⟨p, Or.inr hp, hrest⟩
  members := by
    intro h
    rw [h₂.members, h₁.members]
    constructor
    · rintro ((hm | ⟨p, hp, hrest⟩) | ⟨p, hp, hrest⟩)
      · exact Or.inl hm
      · exact Or.inr ⟨p, Or.inl hp, hrest⟩
      · exact Or.inr ⟨p, Or.inr hp, hrest⟩
    · rintro (hm | ⟨p, hp | hp, hrest⟩)
      · exact Or.inl (Or.inl hm)
      · exact Or.inl (Or.inr ⟨p, hp, hrest⟩)
      · exact Or.inr ⟨p, hp, hrest⟩

end Swept

/-! ## A page of a sweep -/

/-- The reads of one issuance. -/
def readsOf (i : IssuanceRow) (es : List BinaryTxEntry) : Set (IssuanceRow × BinaryTxEntry) :=
  {p | p.1 = i ∧ p.2 ∈ es}

theorem readsOf_append {i : IssuanceRow} {es es' : List BinaryTxEntry} :
    readsOf i (es ++ es') = readsOf i es ∪ readsOf i es' := by
  ext p
  simp only [readsOf, Set.mem_ofPred_eq, Set.mem_union, List.mem_append, and_or_left]

theorem readsOf_nil {i : IssuanceRow} : readsOf i [] = ∅ := by
  ext p
  simp [readsOf]

section Page

variable {X : Xrpl} {U : Upstream} {i : IssuanceRow} {job : BackfillJobRow}
  {page : BackfillPage} {highWater : ℕ} {d d' : Archive}

/-- What `Takes` says of an entry with metadata. -/
theorem takes_iff {iss : TrackedIssuance} {e : BinaryTxEntry} :
    Takes X iss e ↔ SweepReads X [iss] e ∧ ∀ m, X.decodeMeta e.metaBlob = some m →
      holdersInMeta m [iss] ≠ [] → ((issuanceDeltas iss m).map Prod.fst).Nodup := by
  unfold Takes SweepReads
  cases hm : X.decodeMeta e.metaBlob with
  | none => simp
  | some m =>
      simp only [Option.any_some, decide_eq_true_eq, Option.some.injEq, forall_eq']
      constructor
      · rintro (h | ⟨h, hnodup⟩)
        · exact ⟨Or.inl h, fun hne => absurd h hne⟩
        · exact ⟨Or.inr h, fun _ => hnodup⟩
      · rintro ⟨h | h, hnodup⟩
        · exact Or.inl h
        · by_cases hnone : holdersInMeta m [iss] = []
          · exact Or.inl hnone
          · exact Or.inr ⟨h, hnodup hnone⟩

/-- A page that is written has only entries that the sweep can take. -/
theorem takes_of_write (hU : U.Sound X) (hof : ∀ e ∈ page.entries, e ∈ U.accountTx job.address)
    (h : (Page.sweep (trackedIssuance i) job page highWater).write X d = some d') :
    ∀ e ∈ page.entries, Takes X (trackedIssuance i) e := by
  intro e he
  obtain ⟨es, hes, hwrites, hin⟩ := @Page.writes X U hU
    (.sweep (trackedIssuance i) job page highWater) hof d d' h
  obtain ⟨batch, hbatch, -⟩ := Option.bind_eq_some_iff.mp h
  refine takes_iff.mpr ⟨sweepBatch_reads hbatch e he, fun m hm hne => ?_⟩
  have hm : decodeMeta X e.metaBlob = some m :=
    (decodeMeta_of_ne (hU.blob ⟨_, hof e he⟩)).trans hm
  have hkept : e ∈ es := hin e he ⟨m, hm, hne⟩
  exact hwrites.once e hkept m hm (hU.bounded (hes e hkept) hm) _ (List.mem_singleton_self _)

/-- A page whose entries the sweep can take is written. -/
theorem write_of_takes (hready : Ready d d) (hi : i ∈ d.issuances)
    (haccount : d.accounts.HasKey job.address) (hblob : ∀ e ∈ page.entries, e.metaBlob ≠ "")
    (htakes : ∀ e ∈ page.entries, Takes X (trackedIssuance i) e) :
    ∃ d', (Page.sweep (trackedIssuance i) job page highWater).write X d = some d'
      ∧ Ready d d' := by
  obtain ⟨mapped, hmapped, hmem⟩ := mapM_some
    (f := issuerSweepEntryMapper X [trackedIssuance i] job.address page.provenance)
    (l := page.entries) (fun e he => by
      obtain ⟨hreads, -⟩ := takes_iff.mp (htakes e he)
      unfold SweepReads at hreads
      unfold issuerSweepEntryMapper
      cases hm : X.decodeMeta e.metaBlob with
      | none => simp [hm] at hreads
      | some m =>
          simp only [hm, Option.any_some, decide_eq_true_eq] at hreads
          simp only [Option.bind_some]
          by_cases hnone : holdersInMeta m [trackedIssuance i] = []
          · exact ⟨none, if_pos hnone⟩
          · obtain ⟨txType, htype⟩ := Option.isSome_iff_exists.mp (hreads.resolve_left hnone)
            rw [if_neg hnone]
            unfold entryRow
            rw [htype]
            exact ⟨_, rfl⟩)
  have hbatch : sweepBatch X [trackedIssuance i] job.address page
      = some (mapped.filterMap id) := by
    unfold sweepBatch
    rw [hmapped]
    rfl
  have hderivable : ∀ a ∈ (Write.sweepPage (trackedIssuance i) job page highWater
      ((mapped.filterMap id).map (·.row))).actions, Derivable X d a := by
    intro a ha
    obtain ⟨tx, htx, rfl⟩ := List.mem_map.mp ha
    obtain ⟨b, hb, rfl⟩ := List.mem_map.mp htx
    refine ⟨fun iss hiss => ?_, fun m hm iss hiss => ?_⟩
    · cases List.mem_singleton.mp hiss
      exact Table.HasKey.of_mem hi
    · cases List.mem_singleton.mp hiss
      obtain ⟨e, he, hmap⟩ := mem_sweepBatch hbatch hb
      obtain ⟨m', hm', hne, -, hrow⟩ := issuerSweepEntryMapper_row hmap
      obtain ⟨-, -, hsame, -⟩ := entryRow_some hrow
      have hm : decodeMeta X b.row.metaBlob = some m := hm
      rw [hsame, decodeMeta_of_ne (hblob e he), hm'] at hm
      cases hm
      exact (takes_iff.mp (htakes e he)).2 m hm' hne
  obtain ⟨d', hd', hready'⟩ := perform_succeeds hready hderivable (fun j hj => by
    cases hj
    exact haccount)
  rw [perform_sweepPage hbatch hblob] at hd'
  exact ⟨d', Option.bind_eq_some_iff.mpr ⟨_, hbatch, toOption_some.mpr hd'⟩, hready'⟩

/-- A row of a page's batch is that of an entry that touches the issuance; it links the
    issuer and the holders. -/
theorem entry_of_row {batch : List MappedEntry} {b : MappedEntry}
    (hblob : ∀ e ∈ page.entries, e.metaBlob ≠ "")
    (hbatch : sweepBatch X [trackedIssuance i] job.address page = some batch)
    (hb : b ∈ batch) : ∃ e ∈ page.entries, Touches X (trackedIssuance i) e
      ∧ b.row.hash = X.hashSignedTx e.txBlob
      ∧ ∀ a, a ∈ b.row.accounts ↔ a = job.address ∨ Holds X (trackedIssuance i) e a := by
  obtain ⟨e, he, hmap⟩ := mem_sweepBatch hbatch hb
  obtain ⟨m, hm, hne, -, hrow⟩ := issuerSweepEntryMapper_row hmap
  obtain ⟨hhash, -, -, haccounts⟩ := entryRow_some hrow
  have hm : decodeMeta X e.metaBlob = some m := (decodeMeta_of_ne (hblob e he)).trans hm
  refine ⟨e, he, ⟨m, hm, hne⟩, hhash, fun a => ?_⟩
  rw [haccounts, mem_distinctBy_id, List.mem_cons, List.mem_map]
  refine or_congr Iff.rfl ⟨fun h => ⟨m, hm, h⟩, ?_⟩
  rintro ⟨m', hm', h⟩
  cases hm.symm.trans hm'
  exact h

/-- Each entry that touches the issuance has a row. -/
theorem row_of_entry {batch : List MappedEntry} {e : BinaryTxEntry}
    (hblob : ∀ e ∈ page.entries, e.metaBlob ≠ "")
    (hbatch : sweepBatch X [trackedIssuance i] job.address page = some batch)
    (he : e ∈ page.entries) (htouch : Touches X (trackedIssuance i) e) :
    ∃ b ∈ batch, ∀ a, Holds X (trackedIssuance i) e a → a ∈ b.row.accounts := by
  obtain ⟨mapped, hmapped, rfl⟩ := Option.map_eq_some_iff.mp hbatch
  obtain ⟨o, ho, hmap⟩ := exists_of_mapM_some hmapped he
  obtain ⟨m, hm, hne⟩ := htouch
  have hm' : X.decodeMeta e.metaBlob = some m := (decodeMeta_of_ne (hblob e he)).symm.trans hm
  cases o with
  | none =>
      obtain ⟨m', hm'', hnone⟩ := Option.bind_eq_some_iff.mp hmap
      cases hm'.symm.trans hm''
      rw [if_neg hne] at hnone
      obtain ⟨row, -, hrow⟩ := Option.map_eq_some_iff.mp hnone
      exact nomatch hrow
  | some b =>
      refine ⟨b, List.mem_filterMap.mpr ⟨some b, ho, rfl⟩, ?_⟩
      rintro a ⟨m₁, hm₁, h, hh, rfl⟩
      cases hm.symm.trans hm₁
      obtain ⟨m₂, hm₂, -, -, -, -, haccounts⟩ := issuerSweepEntryMapper_some hmap
      cases hm'.symm.trans hm₂
      exact haccounts h hh

/-- A batch records its accounts other than the issuer, and no one else. -/
theorem members_of_write {batch : List MappedEntry}
    (hbatch : sweepBatch X [trackedIssuance i] job.address page = some batch)
    (h : (Page.sweep (trackedIssuance i) job page highWater).write X d = some d')
    {m : DetectedHolder} (hm : Member d' m) : Member d m
      ∨ (m.issuanceId = i.id ∧ m.holder ≠ job.address
        ∧ ∃ b ∈ batch, m.holder ∈ b.row.accounts) := by
  obtain ⟨batch', hbatch', h⟩ := Option.bind_eq_some_iff.mp h
  cases hbatch.symm.trans hbatch'
  obtain ⟨e, he, hsame, -⟩ := sweepTransaction_ok (toOption_some.mp h)
  unfold Member at hm
  rw [hsame.members] at hm
  obtain ⟨d₁, d₂, h₁, h₂, h₃⟩ := writeBatch_ok he
  unfold Member
  rw [← batch_members h₁ h₂]
  refine foldlM_rel (R := fun s t : Archive =>
    t.accountIssuance.HasKey (m.holder, m.issuanceId) →
      s.accountIssuance.HasKey (m.holder, m.issuanceId)
        ∨ (m.issuanceId = i.id ∧ m.holder ≠ job.address
          ∧ ∃ b ∈ batch, m.holder ∈ b.row.accounts))
    (fun _ h => Or.inl h)
    (fun _ _ _ h₁ h₂ h => (h₂ h).elim h₁ Or.inr) (fun p hp s t hs ht => ?_) h₃ hm
  obtain ⟨-, -, rfl⟩ := recordHolder_ok.mp hs
  rcases Table.hasKey_upsert.mp ht with ht | heq
  · exact Or.inl ht
  · obtain ⟨hholder, hid⟩ := Prod.mk.inj heq
    obtain ⟨tx, htx, hin, -⟩ := exists_row_of_firstLedger hp
    obtain ⟨b, hb, rfl⟩ := List.mem_map.mp htx
    have hne := (List.mem_filter.mp ((List.mem_insertionSort _).mp hp)).2
    refine Or.inr ⟨hid, ?_, b, hb, ?_⟩
    · rw [hholder]
      exact of_decide_eq_true hne
    · rw [hholder]
      exact hin

/-- **A PAGE IS READ** when it is written. -/
theorem swept_write (hU : U.Sound X) (hof : ∀ e ∈ page.entries, e ∈ U.accountTx job.address)
    (hi : i ∈ d.issuances) (hissuer : issuerOf X i = some job.address)
    (h : (Page.sweep (trackedIssuance i) job page highWater).write X d = some d') :
    Swept X U (readsOf i page.entries) d d' := by
  have hhas : ∀ e ∈ page.entries, U.Has e := fun e he => ⟨_, hof e he⟩
  have hblob : ∀ e ∈ page.entries, e.metaBlob ≠ "" := fun e he => hU.blob (hhas e he)
  have hregistered : trackedIssuance i ∈ registered d := List.mem_map_of_mem hi
  obtain ⟨es, hes, hwrites, hin⟩ := @Page.writes X U hU
    (.sweep (trackedIssuance i) job page highWater) hof d d' h
  obtain ⟨batch, hbatch, hingests⟩ := Page.write_ingests h
  have hbatch : sweepBatch X [trackedIssuance i] job.address page = some batch := hbatch
  refine ⟨hingests.issuances, ?_, ?_, ?_, ?_, ?_, fun m => ⟨?_, ?_⟩⟩
  · rintro ⟨j, e⟩ ⟨rfl, he⟩
    exact ⟨hi, hhas e he⟩
  · intro iss hiss e he hst
    refine hwrites.keeps hU hes (fun j hj hid => ?_) he hst
    cases List.mem_singleton.mp hj
    exact registered_eq hregistered hiss hid
  · rintro ⟨j, e⟩ ⟨rfl, he⟩ htouch
    refine hwrites.storesFor hU hes (List.mem_singleton_self _) (fun j hj _ => ?_)
      (hin e he htouch)
    exact List.mem_singleton.mp hj
  · rintro e he ⟨t, ht, hhash⟩
    rcases hingests.new t ht with hold | ⟨tx, htx, hrow⟩ | ⟨_, _, hnone⟩
    · exact Or.inl ⟨t, hold, hhash⟩
    · obtain ⟨b, hb, rfl⟩ := List.mem_map.mp htx
      obtain ⟨e', he', htouch, hhash', -⟩ := entry_of_row hblob hbatch hb
      have hsame : X.hashSignedTx e.txBlob = X.hashSignedTx e'.txBlob := by
        rw [← hhash, ← hhash']
        exact congrArg TransactionRow.hash hrow
      cases hU.hash he (hhas e' he') hsame
      exact Or.inr ⟨i, ⟨rfl, he'⟩, htouch⟩
    · exact absurd hnone (Set.notMem_empty _)
  · intro r hr
    rcases hingests.mem_deltas hr with hold | hnone | ⟨b, hb, hrow⟩
    · exact Or.inl hold
    · exact absurd hnone (Set.notMem_empty r)
    · obtain ⟨e, he, htouch, hhash, -⟩ := entry_of_row hblob hbatch hb
      obtain ⟨m, -, iss, hiss, c, -, rfl⟩ := mem_derivedRows.mp hrow
      cases List.mem_singleton.mp hiss
      exact Or.inr ⟨(i, e), ⟨rfl, he⟩, htouch, rfl, hhash⟩
  · intro hm
    rcases members_of_write hbatch h hm with hm | ⟨hid, hne, b, hb, haccount⟩
    · exact Or.inl hm
    · obtain ⟨e, he, htouch, -, haccounts⟩ := entry_of_row hblob hbatch hb
      refine Or.inr ⟨(i, e), ⟨rfl, he⟩, hid.symm, ?_, ?_⟩
      · exact ((haccounts m.holder).mp haccount).resolve_left hne
      · exact fun heq => hne (Option.some.inj (heq.symm.trans hissuer))
  · rintro (hm | ⟨⟨j, e⟩, ⟨rfl, he⟩, hid, hholds, hne⟩)
    · exact Page.write_members h hm
    · obtain ⟨b, hb, haccounts⟩ := row_of_entry hblob hbatch he hholds.touches
      unfold Member
      rw [← hid]
      refine Page.sweep_members hbatch h hb (haccounts _ hholds) (fun heq => hne ?_)
      rw [hissuer]
      exact congrArg some heq.symm

end Page

/-! ## The jobs -/

/-- The jobs of other issuances are kept. -/
def KeepsJobs (issuanceId : ℕ) (d d' : Archive) : Prop :=
  ∀ r : BackfillJobRow, r.issuanceId ≠ issuanceId → (r ∈ d'.backfillJob ↔ r ∈ d.backfillJob)

/-- The job of the given id, if there is one, is of the issuance. -/
def OwnJob (issuanceId jobId : ℕ) (d : Archive) : Prop :=
  ∀ r ∈ d.backfillJob, r.id = jobId → r.issuanceId = issuanceId

/-- `d'` is `d` with the job of an issuance rewritten. -/
structure RewritesJob (issuanceId jobId : ℕ) (d d' : Archive) : Prop where
  ids : JobIds d → JobIds d'
  own : OwnJob issuanceId jobId d → OwnJob issuanceId jobId d'
  others : OwnJob issuanceId jobId d → KeepsJobs issuanceId d d'

section Jobs

variable {issuanceId jobId : ℕ} {d d' d'' : Archive}

theorem KeepsJobs.trans (h₁ : KeepsJobs issuanceId d d') (h₂ : KeepsJobs issuanceId d' d'') :
    KeepsJobs issuanceId d d'' :=
  fun r hr => (h₂ r hr).trans (h₁ r hr)

theorem RewritesJob.trans (h₁ : RewritesJob issuanceId jobId d d')
    (h₂ : RewritesJob issuanceId jobId d' d'') : RewritesJob issuanceId jobId d d'' where
  ids := fun h => h₂.ids (h₁.ids h)
  own := fun h => h₂.own (h₁.own h)
  others := fun h => (h₁.others h).trans (h₂.others (h₁.own h))

theorem RewritesJob.of_same (hjobs : d'.backfillJob = d.backfillJob)
    (hseq : d'.jobSeq = d.jobSeq) : RewritesJob issuanceId jobId d d' where
  ids := by
    rintro ⟨hnodup, hlt⟩
    refine ⟨?_, ?_⟩
    · rw [hjobs]
      exact hnodup
    · rw [hjobs, hseq]
      exact hlt
  own := by
    unfold OwnJob
    rw [hjobs]
    exact id
  others := by
    intro _ r _
    rw [hjobs]

theorem mem_updateJob {f : BackfillJobRow → BackfillJobRow} {hf : ∀ r, (f r).key = r.key}
    {r : BackfillJobRow} : r ∈ (updateJob jobId f hf d).backfillJob
      ↔ ∃ r₀ ∈ d.backfillJob, (if r₀.id = jobId then f r₀ else r₀) = r := by
  rw [← Table.mem_rows]
  exact List.mem_map

theorem mem_reclaimStale {r : BackfillJobRow} :
    r ∈ (reclaimStale issuanceId d).backfillJob ↔ ∃ r₀ ∈ d.backfillJob,
      (if r₀.issuanceId = issuanceId ∧ (r₀.status = .running ∨ r₀.status = .failed)
        then { r₀ with status := .pending } else r₀) = r := by
  rw [← Table.mem_rows]
  exact List.mem_map

theorem rewritesJob_updateJob {f : BackfillJobRow → BackfillJobRow}
    {hf : ∀ r, (f r).key = r.key} (hid : ∀ r, (f r).id = r.id) :
    RewritesJob issuanceId jobId d (updateJob jobId f hf d) := by
  have hissuance : ∀ r, (f r).issuanceId = r.issuanceId := fun r => congrArg Prod.snd (hf r)
  refine ⟨fun h => h.rewrites ⟨rfl, fun r => ?_, rfl⟩, fun hown r hr hr' => ?_,
    fun hown r hr => ⟨fun hin => ?_, fun hin => ?_⟩⟩
  · by_cases h : r.id = jobId
    · simp only [if_pos h]
      exact hid r
    · simp only [if_neg h]
  · obtain ⟨r₀, hr₀, rfl⟩ := mem_updateJob.mp hr
    by_cases h : r₀.id = jobId
    · rw [if_pos h, hissuance]
      exact hown r₀ hr₀ h
    · rw [if_neg h] at hr'
      exact absurd hr' h
  · obtain ⟨r₀, hr₀, rfl⟩ := mem_updateJob.mp hin
    by_cases h : r₀.id = jobId
    · rw [if_pos h, hissuance] at hr
      exact absurd (hown r₀ hr₀ h) hr
    · rw [if_neg h]
      exact hr₀
  · exact mem_updateJob.mpr ⟨r, hin, if_neg (fun h => hr (hown r hin h))⟩

theorem rewritesJob_failJob : RewritesJob issuanceId jobId d (failJob jobId d) :=
  @rewritesJob_updateJob _ _ _ (fun r => { r with status := .failed }) (fun _ => rfl)
    (fun _ => rfl)

theorem rewritesJob_completeJob :
    RewritesJob issuanceId jobId d (completeJob jobId d) :=
  @rewritesJob_updateJob _ _ _
    (fun r => { r with status := .completed, lastMarker := none }) (fun _ => rfl)
    (fun _ => rfl)

theorem rewritesJob_checkpointJob {marker : Option String} {added : ℕ} :
    RewritesJob issuanceId jobId d (checkpointJob jobId marker added d) :=
  @rewritesJob_updateJob _ _ _
    (fun r => { r with
      lastMarker := marker, txCount := r.txCount + added, status := .running })
    (fun _ => rfl) (fun _ => rfl)

/-- A page of a sweep rewrites its job. -/
theorem rewritesJob_write {X : Xrpl} {iss : TrackedIssuance} {job : BackfillJobRow}
    {page : BackfillPage} {highWater : ℕ}
    (h : (Page.sweep iss job page highWater).write X d = some d') :
    RewritesJob issuanceId job.id d d' := by
  obtain ⟨batch, -, h⟩ := Option.bind_eq_some_iff.mp h
  obtain ⟨e, he, h⟩ := bind_ok.mp (toOption_some.mp h)
  have hbeside := (beside_writeBatch he).untouched
  have hwritten : RewritesJob issuanceId job.id d e :=
    RewritesJob.of_same (congrArg Untouched.backfillJob hbeside)
      (congrArg Untouched.jobSeq hbeside)
  have hpoint : RewritesJob issuanceId job.id d
      (checkpointJob job.id page.marker batch.length e) :=
    hwritten.trans rewritesJob_checkpointJob
  rw [finishSweep_ok h]
  by_cases hfinal : page.marker.isNone
  · rw [if_pos hfinal]
    have hclaim : RewritesJob issuanceId job.id d (claim (sweepRows iss.id job.address
        (job.fromLedger.getD 0) highWater (checkpointJob job.id page.marker batch.length e))
        (checkpointJob job.id page.marker batch.length e)) :=
      hpoint.trans (RewritesJob.of_same rfl rfl)
    exact hclaim.trans rewritesJob_completeJob
  · rw [if_neg hfinal]
    exact hpoint

/-- Returning the jobs of an issuance to `pending` keeps those of the others. -/
theorem keepsJobs_reclaimStale : KeepsJobs issuanceId d (reclaimStale issuanceId d) := by
  intro r hr
  constructor
  · intro hin
    obtain ⟨r₀, hr₀, rfl⟩ := mem_reclaimStale.mp hin
    by_cases h : r₀.issuanceId = issuanceId ∧ (r₀.status = .running ∨ r₀.status = .failed)
    · rw [if_pos h] at hr
      exact absurd h.1 hr
    · rw [if_neg h]
      exact hr₀
  · intro hin
    exact mem_reclaimStale.mpr ⟨r, hin, if_neg (fun h => hr h.1)⟩

theorem keepsJobs_enqueue {address : String} {fromLedger toLedger : Option ℕ}
    {kind : BackfillKind}
    (h : enqueue issuanceId address fromLedger toLedger kind d = .ok d') :
    KeepsJobs issuanceId d d' := by
  unfold enqueue at h
  by_cases hkey : d.backfillJob.HasKey (address, issuanceId)
  · rw [if_pos hkey] at h
    cases Except.ok.inj h
    exact fun r _ => Iff.rfl
  · rw [if_neg hkey] at h
    cases Except.ok.inj (guarded_ok.mp (guarded_ok.mp h).2).2
    intro r hr
    refine ⟨fun hin => ?_, Table.mem_insertIgnore_of_mem⟩
    rcases Table.mem_insertIgnore.mp hin with hin | ⟨rfl, -⟩
    · exact hin
    · exact absurd rfl hr

/-- A job that is kept is found. -/
theorem KeepsJobs.getByAccount (h : KeepsJobs issuanceId d d') {id : ℕ} (hne : id ≠ issuanceId)
    (address : String) : getByAccount id address d' = getByAccount id address d := by
  refine Option.ext (fun r => ?_)
  unfold RegistrarIngest.getByAccount
  rw [Table.find?_eq_some, Table.find?_eq_some]
  refine and_congr_left (fun hkey => h r ?_)
  rw [show r.issuanceId = id from congrArg Prod.snd hkey]
  exact hne

end Jobs

/-! ## A job -/

/-- The account of each member is stored, and the jobs' ids are distinct. -/
structure Orderly (d : Archive) : Prop where
  members : ∀ r ∈ d.accountIssuance, d.accounts.HasKey r.address
  ids : JobIds d

/-- What the pipeline of an issuance does: it reads, and keeps the jobs of the others. -/
structure Pipeline (X : Xrpl) (U : Upstream) (i : IssuanceRow) (es : List BinaryTxEntry)
    (d d' : Archive) : Prop where
  swept : Swept X U (readsOf i es) d d'
  jobs : KeepsJobs i.id d d'
  orderly : Orderly d'

section Job

variable {X : Xrpl} {U : Upstream} {i : IssuanceRow} {job : BackfillJobRow}
  {page : BackfillPage} {pages : List BackfillPage} {highWater : ℕ} {d d' : Archive}

theorem Orderly.ready (h : Orderly d) : Ready d d := ⟨rfl, fun _ ha => ha, h.members⟩

/-- A statement that reads nothing and keeps the jobs of the others. -/
theorem Pipeline.of_same (horderly : Orderly d') (hjobs : KeepsJobs i.id d d')
    (hissuances : d'.issuances = d.issuances) (htx : d'.transactions = d.transactions)
    (hdeltas : d'.balanceDeltas = d.balanceDeltas)
    (hmembers : d'.accountIssuance = d.accountIssuance) : Pipeline X U i [] d d' where
  swept := readsOf_nil.symm ▸ Swept.of_same hissuances htx hdeltas hmembers
  jobs := hjobs
  orderly := horderly

theorem Pipeline.trans {es es' : List BinaryTxEntry} {d'' : Archive}
    (h₁ : Pipeline X U i es d d') (h₂ : Pipeline X U i es' d' d'') :
    Pipeline X U i (es ++ es') d d'' where
  swept := readsOf_append ▸ h₁.swept.trans h₂.swept
  jobs := h₁.jobs.trans h₂.jobs
  orderly := h₂.orderly

theorem pipeline_failJob (horderly : Orderly d) (hown : OwnJob i.id job.id d) :
    Pipeline X U i [] d (failJob job.id d) :=
  have hrewrites : RewritesJob i.id job.id d (failJob job.id d) := rewritesJob_failJob
  Pipeline.of_same ⟨horderly.members, hrewrites.ids horderly.ids⟩ (hrewrites.others hown)
    rfl rfl rfl rfl

/-- What a failing page leaves. -/
theorem sweepPages_none {iss : TrackedIssuance}
    (h : (Page.sweep iss job page
      (raiseAll highWater (keptLedgers X iss job.address page))).write X d = none) :
    sweepPages X iss job (page :: pages) highWater d = failJob job.id d := by
  simp only [sweepPages, h]

/-- What a page that is written leaves to the rest. -/
theorem sweepPages_some {iss : TrackedIssuance}
    (h : (Page.sweep iss job page
      (raiseAll highWater (keptLedgers X iss job.address page))).write X d = some d') :
    sweepPages X iss job (page :: pages) highWater d
      = if page.marker.isNone then d'
        else sweepPages X iss job pages
          (raiseAll highWater (keptLedgers X iss job.address page)) d' := by
  simp only [sweepPages, h]

/-- **A JOB READS** the pages it is answered with, up to the first it cannot take. -/
theorem pipeline_sweepPages (hU : U.Sound X) (hissuer : issuerOf X i = some job.address)
    (hof : ∀ p ∈ pages, ∀ e ∈ p.entries, e ∈ U.accountTx job.address)
    (hends : ∀ before p rest, pages = before ++ p :: rest → p.marker = none → rest = [])
    (hi : i ∈ d.issuances) (haccount : d.accounts.HasKey job.address) (horderly : Orderly d)
    (hown : OwnJob i.id job.id d) :
    Pipeline X U i (taken X (trackedIssuance i) pages) d
      (sweepPages X (trackedIssuance i) job pages highWater d) := by
  induction pages generalizing highWater d with
  | nil => exact pipeline_failJob horderly hown
  | cons page pages ih =>
      have hofPage := hof page List.mem_cons_self
      have hblob : ∀ e ∈ page.entries, e.metaBlob ≠ "" := fun e he => hU.blob ⟨_, hofPage e he⟩
      by_cases htakes : ∀ e ∈ page.entries, Takes X (trackedIssuance i) e
      · rw [taken_cons_of_takes htakes]
        obtain ⟨d₁, hd₁, hready⟩ := @write_of_takes X i job page
          (raiseAll highWater (keptLedgers X (trackedIssuance i) job.address page)) d
          horderly.ready hi haccount hblob htakes
        have hrewrites := @rewritesJob_write i.id d d₁ _ _ _ _ _ hd₁
        have hpage : Pipeline X U i page.entries d d₁ :=
          ⟨swept_write hU hofPage hi hissuer hd₁, hrewrites.others hown,
            hready.members, hrewrites.ids horderly.ids⟩
        rw [sweepPages_some hd₁]
        by_cases hfinal : page.marker.isNone
        · rw [if_pos hfinal, hends [] page pages rfl (Option.isNone_iff_eq_none.mp hfinal)]
          show Pipeline X U i (page.entries ++ []) d d₁
          rw [List.append_nil]
          exact hpage
        · rw [if_neg hfinal]
          refine hpage.trans (ih (fun p hp => hof p (List.mem_cons_of_mem page hp))
            (fun before p rest hsplit => hends (page :: before) p rest ?_) ?_ ?_ hpage.orderly
            (hrewrites.own hown))
          · rw [hsplit]
            rfl
          · exact hpage.swept.issuances.symm ▸ hi
          · exact hready.accounts _ haccount
      · rw [taken_cons_of_not htakes]
        have hnone : (Page.sweep (trackedIssuance i) job page (raiseAll highWater
            (keptLedgers X (trackedIssuance i) job.address page))).write X d = none := by
          refine Option.eq_none_iff_forall_ne_some.mpr (fun d' hd' => htakes ?_)
          exact takes_of_write hU hofPage hd'
        rw [sweepPages_none hnone]
        exact pipeline_failJob horderly hown

end Job

/-! ## The pipeline of an issuance -/

section Pipeline

variable {X : Xrpl} {U : Upstream} {histories : Histories} {i : IssuanceRow} {issuer : String}
  {d d' : Archive}

/-- The job of the issuance once it is enqueued, and what it has ahead of it. -/
theorem job_of_enqueue (hissuer : issuerOf X i = some issuer)
    (h : enqueue i.id issuer (some i.backfillFromLedger) none .issuer
      (insertAccount ⟨issuer, none⟩ d) = .ok d') :
    ∃ job, getByAccount i.id issuer d' = some job ∧ job.address = issuer
      ∧ ahead X histories d i = if job.status ≠ .completed then
          (histories issuer (job.fromLedger.getD 0)).remaining job.lastMarker else [] := by
  unfold enqueue at h
  unfold ahead
  simp only [hissuer]
  by_cases hkey : (insertAccount ⟨issuer, none⟩ d).backfillJob.HasKey (issuer, i.id)
  · rw [if_pos hkey] at h
    cases Except.ok.inj h
    obtain ⟨job, hjob, hkey⟩ := hkey
    have hfound : getByAccount i.id issuer d = some job :=
      Table.find?_eq_some.mpr ⟨hjob, hkey⟩
    refine ⟨job, hfound, congrArg Prod.fst hkey, ?_⟩
    simp only [hfound]
  · rw [if_neg hkey] at h
    cases Except.ok.inj (guarded_ok.mp (guarded_ok.mp h).2).2
    have hnone : getByAccount i.id issuer d = none :=
      Table.find?_eq_none.mpr hkey
    refine ⟨_, Table.find?_eq_some.mpr ⟨Table.mem_insertIgnore.mpr (Or.inr ⟨rfl, hkey⟩), rfl⟩,
      rfl, ?_⟩
    simp only [hnone]
    rfl

/-- Enqueueing succeeds, for the issuer's account is there. -/
theorem enqueue_succeeds (hi : i ∈ d.issuances) :
    ∃ d', enqueue i.id issuer (some i.backfillFromLedger) none .issuer
      (insertAccount ⟨issuer, none⟩ d) = .ok d' := by
  have haccount : (insertAccount ⟨issuer, none⟩ d).accounts.HasKey issuer :=
    Table.hasKey_insertIgnore.mpr (Or.inr rfl)
  have hissuance : (insertAccount ⟨issuer, none⟩ d).issuances.HasKey i.id :=
    Table.HasKey.of_mem hi
  unfold enqueue
  by_cases hkey : (insertAccount ⟨issuer, none⟩ d).backfillJob.HasKey (issuer, i.id)
  · exact ⟨_, if_pos hkey⟩
  · rw [if_neg hkey, if_neg (not_not.mpr haccount), if_neg (not_not.mpr hissuance)]
    exact ⟨_, rfl⟩

/-- Up to its sweep, the pipeline reads nothing; the issuer's account is stored. -/
theorem pipeline_enqueue (horderly : Orderly d)
    (h : enqueue i.id issuer (some i.backfillFromLedger) none .issuer
      (insertAccount ⟨issuer, none⟩ d) = .ok d') :
    Pipeline X U i [] d (reclaimStale i.id d')
      ∧ (reclaimStale i.id d').accounts.HasKey issuer := by
  have hinsert : JobIds (insertAccount ⟨issuer, none⟩ d) :=
    ⟨horderly.ids.nodup, horderly.ids.seq⟩
  have hids : JobIds d' := by
    rcases enqueue_rows h with rfl | hrows
    · exact hinsert
    · exact hinsert.enqueue hrows
  have henqueue : KeepsJobs i.id (insertAccount ⟨issuer, none⟩ d) d' := keepsJobs_enqueue h
  have hkeeps : KeepsJobs i.id d (reclaimStale i.id d') :=
    KeepsJobs.trans (fun r hr => henqueue r hr) keepsJobs_reclaimStale
  obtain ⟨jobs, seq, rfl⟩ := enqueue_ok h
  refine ⟨Pipeline.of_same ⟨fun r hr => ?_, hids.rewrites (rewrites_reclaimStale i.id _)⟩
    hkeeps rfl rfl rfl rfl, ?_⟩
  · exact Table.hasKey_insertIgnore.mpr (Or.inl (horderly.members r hr))
  · exact Table.hasKey_insertIgnore.mpr (Or.inr rfl)

/-- A completed job is not reclaimed. -/
theorem getByAccount_reclaimStale_completed {job : BackfillJobRow}
    (h : getByAccount i.id issuer d = some job) (hdone : job.status = .completed) :
    getByAccount i.id issuer (reclaimStale i.id d) = some job := by
  unfold getByAccount reclaimStale
  rw [Table.find?_mapRows]
  show (getByAccount i.id issuer d).map _ = _
  rw [h, Option.map_some, if_neg]
  rintro ⟨-, hstale⟩
  rw [hdone] at hstale
  rcases hstale with hstale | hstale <;> cases hstale

/-- **THE PIPELINE OF AN ISSUANCE READS** what its sweep has ahead of it. -/
theorem pipeline_ingestIssuance (hU : U.Sound X) (hanswers : AnswersAll U histories)
    (hi : i ∈ d.issuances) (horderly : Orderly d) :
    Pipeline X U i (readAhead X histories d i) d (ingestIssuance X histories i d) := by
  unfold readAhead ingestIssuance
  cases hissuer : issuerOf X i with
  | none =>
      have hnothing : ahead X histories d i = [] := by
        unfold ahead
        simp only [hissuer]
      rw [hnothing]
      exact Pipeline.of_same horderly (fun _ _ => Iff.rfl) rfl rfl rfl rfl
  | some issuer =>
      obtain ⟨d₁, hd₁⟩ := @enqueue_succeeds i issuer d hi
      obtain ⟨job, hjob, haddress, hahead⟩ :=
        @job_of_enqueue X histories i issuer d d₁ hissuer hd₁
      obtain ⟨hpipeline, haccount⟩ := @pipeline_enqueue X U i issuer d d₁ horderly hd₁
      simp only [hd₁]
      by_cases hopen : job.status ≠ .completed
      · have hreclaimed := getByAccount_reclaimStale hjob hopen
        rw [if_pos hopen] at hahead
        simp only [hreclaimed]
        rw [if_pos (by decide), hahead]
        let job' : BackfillJobRow := { job with status := .pending }
        have hown : OwnJob i.id job'.id (reclaimStale i.id d₁) := by
          intro r hr hid
          obtain ⟨hmem, hkey⟩ := Table.find?_eq_some.mp hreclaimed
          rw [List.inj_on_of_nodup_map hpipeline.orderly.ids.nodup hr hmem hid]
          exact congrArg Prod.snd hkey
        obtain ⟨before, hsplit⟩ := (histories issuer (job.fromLedger.getD 0)).remaining_suffix
          job.lastMarker
        have hpages : ∀ p ∈ (histories issuer (job.fromLedger.getD 0)).remaining job.lastMarker,
            p ∈ (histories issuer (job.fromLedger.getD 0)).pages := by
          intro p hp
          rw [hsplit]
          exact List.mem_append_right before hp
        show Pipeline X U i _ d (runIssuerBackfill X histories (trackedIssuance i) job' _)
        unfold runIssuerBackfill
        rw [show job'.address = issuer from haddress]
        refine hpipeline.trans (pipeline_sweepPages hU (hissuer.trans
          (congrArg some haddress.symm)) ?_ ?_ (hpipeline.swept.issuances.symm ▸ hi) ?_
          hpipeline.orderly hown)
        · intro p hp e he
          rw [show job'.address = issuer from haddress]
          exact ((hanswers issuer (job.fromLedger.getD 0) e).mp ⟨p, hpages p hp, he⟩).1
        · intro before' p rest hrest hfinal
          have hall : (histories issuer (job.fromLedger.getD 0)).pages
              = (before ++ before') ++ p :: rest := by
            rw [hsplit, hrest, List.append_assoc]
          exact ((histories issuer (job.fromLedger.getD 0)).split_last hall hfinal).2.2
        · rw [show job'.address = issuer from haddress]
          exact haccount
      · have hdone : job.status = .completed := not_not.mp hopen
        simp only [getByAccount_reclaimStale_completed hjob hdone]
        rw [if_neg hopen] at hahead ⊢
        rw [hahead]
        exact hpipeline

end Pipeline

/-! ## The pass of all issuances -/

/-- What a pass over issuances reads. -/
def passReads (X : Xrpl) (histories : Histories) (db : Archive) (issuances : List IssuanceRow) :
    Set (IssuanceRow × BinaryTxEntry) :=
  {p | p.1 ∈ issuances ∧ p.2 ∈ readAhead X histories db p.1}

section Pass

variable {X : Xrpl} {U : Upstream} {histories : Histories} {db d d' : Archive}
  {i : IssuanceRow} {issuances : List IssuanceRow} {e : BinaryTxEntry}

/-- What is ahead of an issuance is left by the pipelines of the others. -/
theorem readAhead_of_keepsJobs {issuanceId : ℕ} (h : KeepsJobs issuanceId d d')
    (hne : i.id ≠ issuanceId) : readAhead X histories d' i = readAhead X histories d i := by
  unfold readAhead ahead
  cases issuerOf X i with
  | none => rfl
  | some issuer => simp only [h.getByAccount hne issuer]

/-- **A PASS READS** what each issuance has ahead of it when the pass begins. -/
theorem swept_pass (hU : U.Sound X) (hanswers : AnswersAll U histories)
    (hin : ∀ i ∈ issuances, i ∈ d.issuances) (hids : (issuances.map (·.id)).Nodup)
    (horderly : Orderly d) :
    Swept X U (passReads X histories d issuances) d
      (issuances.foldl (fun db i => ingestIssuance X histories i db) d) := by
  induction issuances generalizing d with
  | nil =>
      have hnone : passReads X histories d [] = ∅ := by
        ext p
        simp [passReads]
      rw [hnone]
      exact Swept.of_same rfl rfl rfl rfl
  | cons j issuances ih =>
      have hj := pipeline_ingestIssuance hU hanswers (hin j List.mem_cons_self) horderly
      rw [List.map_cons, List.nodup_cons] at hids
      have hrest := ih (d := ingestIssuance X histories j d)
        (fun i hi => hj.swept.issuances.symm ▸ hin i (List.mem_cons_of_mem j hi)) hids.2
        hj.orderly
      have hunion : passReads X histories d (j :: issuances)
          = readsOf j (readAhead X histories d j)
            ∪ passReads X histories (ingestIssuance X histories j d) issuances := by
        ext ⟨i, e⟩
        simp only [passReads, readsOf, Set.mem_ofPred_eq, Set.mem_union, List.mem_cons]
        constructor
        · rintro ⟨rfl | hi, he⟩
          · exact Or.inl ⟨rfl, he⟩
          · refine Or.inr ⟨hi, ?_⟩
            rw [readAhead_of_keepsJobs hj.jobs (fun heq => hids.1 (heq ▸ List.mem_map_of_mem hi))]
            exact he
        · rintro (⟨rfl, he⟩ | ⟨hi, he⟩)
          · exact ⟨Or.inl rfl, he⟩
          · rw [readAhead_of_keepsJobs hj.jobs
              (fun heq => hids.1 (heq ▸ List.mem_map_of_mem hi))] at he
            exact ⟨Or.inr hi, he⟩
      rw [List.foldl_cons, hunion]
      exact hj.swept.trans hrest

theorem mem_list {i : IssuanceRow} : i ∈ list db ↔ i ∈ db.issuances :=
  List.mem_insertionSort _

/-- What a pass of `rediscover` reads. -/
theorem swept_rediscover (hU : U.Sound X) (hanswers : AnswersAll U histories)
    (horderly : Orderly db) :
    Swept X U (passReads X histories db ((list db).filter (·.enabled))) db
      (rediscover X histories db) := by
  refine swept_pass hU hanswers (fun i hi => mem_list.mp (List.mem_of_mem_filter hi)) ?_ horderly
  have hsorted : ((list db).map (·.id)).Nodup :=
    ((List.perm_insertionSort _ _).map _).nodup_iff.mpr db.issuances.nodup
  exact hsorted.sublist (List.filter_sublist.map _)

/-- What is read for the issuance itself is what `readAhead` says. -/
theorem mem_passReads : (i, e) ∈ passReads X histories db ((list db).filter (·.enabled))
    ↔ (i ∈ db.issuances ∧ i.enabled) ∧ e ∈ readAhead X histories db i := by
  unfold passReads
  rw [Set.mem_ofPred_eq, List.mem_filter, mem_list]

/-- **EXACTLY WHEN A PASS REPAIRS** a transaction that the archive misses: when the
    issuance's own sweep reads it, or has nothing to add to what another's stores. -/
theorem rediscover_repairs_iff (hU : U.Sound X) (hanswers : AnswersAll U histories)
    (hfk : db.ForeignKeys) (hids : JobIds db) (hi : i ∈ db.issuances) (henabled : i.enabled)
    (he : U.Has e) (htouch : Touches X (trackedIssuance i) e) (hmissing : ¬ Stored X db e) :
    Repaired X (rediscover X histories db) i e ↔ Reaches X histories db i e := by
  have hswept := @swept_rediscover X U histories db hU hanswers
    ⟨hfk.accountIssuance_address, hids⟩
  -- an issuance is its id
  have hown : ∀ p ∈ passReads X histories db ((list db).filter (·.enabled)),
      p.1.id = i.id → p.1 = i := fun p hp hid =>
    db.issuances.eq_of_key_eq (mem_passReads.mp hp).1.1 hi hid
  constructor
  · rintro ⟨⟨hstored, hdeltas⟩, hmembers⟩
    by_cases hread : e ∈ readAhead X histories db i
    · exact Or.inl hread
    · refine Or.inr ⟨?_, ?_, fun a hholds hne => ?_⟩
      · refine List.eq_nil_iff_forall_not_mem.mpr (fun r hr => ?_)
        rcases hswept.deltas r (hdeltas r hr) with hold | ⟨p, hp, -, hid, hhash⟩
        · -- a stored delta is of a stored transaction
          refine hmissing ?_
          obtain ⟨m, -, iss, -, c, -, rfl⟩ := (mem_entryDeltas X).mp hr
          exact hfk.balanceDeltas_hash _ hold
        · obtain ⟨m, -, iss, hiss, c, -, rfl⟩ := (mem_entryDeltas X).mp hr
          cases List.mem_singleton.mp hiss
          have hpi := hown p hp hid.symm
          cases hU.hash he (hswept.of p hp).2 hhash
          exact hread (hpi ▸ (mem_passReads.mp hp).2)
      · rcases hswept.new e he hstored with hold | ⟨j, hj, htouch'⟩
        · exact absurd hold hmissing
        · obtain ⟨⟨hjin, hjenabled⟩, hread'⟩ := mem_passReads.mp hj
          exact ⟨j, hjin, hjenabled, hread', htouch'⟩
      · rcases (hswept.members ⟨i.id, a⟩).mp (hmembers a hholds hne) with
          hold | ⟨p, hp, hid, hholds', -⟩
        · exact Or.inl hold
        · have hpi := hown p hp hid
          rw [hpi] at hholds'
          exact Or.inr ⟨p.2, hpi ▸ (mem_passReads.mp hp).2, hholds'⟩
  · rintro (hread | ⟨hnone, ⟨j, hjin, hjenabled, hread, htouch'⟩, hholders⟩)
    · have hp : (i, e) ∈ passReads X histories db ((list db).filter (·.enabled)) :=
        mem_passReads.mpr ⟨⟨hi, henabled⟩, hread⟩
      refine ⟨hswept.stored _ hp htouch, fun a hholds hne => ?_⟩
      exact (hswept.members ⟨i.id, a⟩).mpr (Or.inr ⟨_, hp, rfl, hholds, hne⟩)
    · have hj : (j, e) ∈ passReads X histories db ((list db).filter (·.enabled)) :=
        mem_passReads.mpr ⟨⟨hjin, hjenabled⟩, hread⟩
      refine ⟨⟨(hswept.stored _ hj htouch').1, fun r hr => ?_⟩, fun a hholds hne => ?_⟩
      · rw [hnone] at hr
        exact absurd hr List.not_mem_nil
      · rw [hswept.members]
        rcases hholders a hholds hne with hold | ⟨e', he', hholds'⟩
        · exact Or.inl hold
        · exact Or.inr ⟨(i, e'), mem_passReads.mpr ⟨⟨hi, henabled⟩, he'⟩, rfl, hholds', hne⟩

end Pass

/-! ## What is ahead of a job -/

section Ahead

variable {X : Xrpl} {U : Upstream} {histories : Histories} {db : Archive} {i : IssuanceRow}
  {issuer : String} {job : BackfillJobRow} {e : BinaryTxEntry}

/-- Nothing is read again once the job is completed. -/
theorem readAhead_completed (hissuer : issuerOf X i = some issuer)
    (hjob : getByAccount i.id issuer db = some job) (hdone : job.status = .completed) :
    readAhead X histories db i = [] := by
  unfold readAhead ahead
  simp only [hissuer, hjob]
  rw [if_neg (not_not.mpr hdone)]
  rfl

/-- A job that has checkpointed no page reads all from its start, if it can take it. -/
theorem mem_readAhead (hU : U.Sound X) (hanswers : AnswersAll U histories)
    (hissuer : issuerOf X i = some issuer) (hjob : getByAccount i.id issuer db = some job)
    (hopen : job.status ≠ .completed) (hmarker : job.lastMarker = none)
    (htakes : ∀ e ∈ U.accountTx issuer, job.fromLedger.getD 0 ≤ e.ledgerIndex →
      Takes X (trackedIssuance i) e)
    (he : U.Has e) (htouch : Touches X (trackedIssuance i) e)
    (hstart : job.fromLedger.getD 0 ≤ e.ledgerIndex) : e ∈ readAhead X histories db i := by
  have hahead : ahead X histories db i = (histories issuer (job.fromLedger.getD 0)).pages := by
    unfold ahead
    simp only [hissuer, hjob]
    rw [if_pos hopen, hmarker]
    rfl
  obtain ⟨p, hp, hep⟩ := (hanswers issuer (job.fromLedger.getD 0) e).mpr
    ⟨hU.lists he htouch hissuer, hstart⟩
  unfold readAhead taken
  rw [hahead, List.takeWhile_eq_self_iff.mpr]
  · exact List.mem_flatMap.mpr ⟨p, hp, hep⟩
  · intro q hq
    refine decide_eq_true (fun e' he' => ?_)
    obtain ⟨hlisted, hfrom⟩ := (hanswers issuer (job.fromLedger.getD 0) e').mp ⟨q, hq, he'⟩
    exact htakes e' hlisted hfrom

end Ahead

/-! ## A payment the tail missed -/

theorem single_unmarked (entries : List BinaryTxEntry) :
    (BackfillPage.mk entries none ⟨"clio", "now"⟩).marker = none := rfl

/-- One page of all there is. -/
def singleChain (entries : List BinaryTxEntry) : PageChain where
  init := []
  last := ⟨entries, none, ⟨"clio", "now"⟩⟩
  marked := garbagePage_marked
  unmarked := single_unmarked entries
  distinct := garbagePage_distinct

/-- Every request is answered with one page. -/
def singlePages (U : Upstream) : Histories := fun account fromLedger =>
  singleChain ((U.accountTx account).filter (fun e => fromLedger ≤ e.ledgerIndex))

theorem answersAll_singlePages (U : Upstream) : AnswersAll U (singlePages U) := by
  intro account fromLedger e
  constructor
  · rintro ⟨p, hp, he⟩
    rw [List.mem_singleton.mp hp] at he
    obtain ⟨he, hfrom⟩ := List.mem_filter.mp he
    exact ⟨he, of_decide_eq_true hfrom⟩
  · rintro ⟨he, hfrom⟩
    exact ⟨_, List.mem_singleton_self _, List.mem_filter.mpr ⟨he, decide_eq_true hfrom⟩⟩

/-- Upstream before the mint is validated, and after. -/
def beforeMint : Upstream where
  accountTx _ := []
  passed _ _ := false

def afterMint : Upstream where
  accountTx _ := [mintEntry]
  passed _ _ := false

theorem afterMint_has {e : BinaryTxEntry} (h : afterMint.Has e) : e = mintEntry := by
  obtain ⟨account, h⟩ := h
  exact List.mem_singleton.mp h

theorem afterMint_sound : afterMint.Sound mintXrpl where
  blob := by
    intro e he
    rw [afterMint_has he]
    decide
  hash := by
    intro e e' he he' _
    rw [afterMint_has he, afterMint_has he']
  lists := by
    intro e iss issuer he _ _
    rw [afterMint_has he]
    exact List.mem_singleton_self _
  bounded := by
    intro e m he hm
    rw [afterMint_has he] at hm
    cases hm
    decide

theorem mint_touches : Touches mintXrpl (trackedIssuance minted) mintEntry :=
  ⟨_, rfl, by decide⟩

/-- Before its sweep has run, a pass repairs the mint. -/
theorem rediscover_repairs_iff_mint :
    Repaired mintXrpl (rediscover mintXrpl (singlePages afterMint) mintArchive) minted
      mintEntry :=
  (rediscover_repairs_iff afterMint_sound (answersAll_singlePages afterMint) (by decide)
    ⟨by decide, by decide⟩ (List.mem_singleton_self minted) rfl
    ⟨"rIssuer", List.mem_singleton_self _⟩ mint_touches (by decide)).mpr
    (Or.inl (mem_readAhead afterMint_sound (answersAll_singlePages afterMint) rfl rfl
      (by decide) rfl (by decide) ⟨"rIssuer", List.mem_singleton_self _⟩ mint_touches
      (by decide)))

/-- The archive of a pass before the mint, which completed the sweep. -/
def sweptArchive : Archive := rediscover mintXrpl (singlePages beforeMint) mintArchive

/-- **A COMPLETED SWEEP IS NOT REPEATED**: the mint that the tail missed since is not
    found by the next pass. -/
theorem completed_sweep_misses :
    afterMint.Sound mintXrpl ∧ AnswersAll afterMint (singlePages afterMint)
      ∧ sweptArchive.ForeignKeys ∧ JobIds sweptArchive
      ∧ minted ∈ sweptArchive.issuances ∧ minted.enabled ∧ minted.backfillFromLedger ≤ 200
      ∧ afterMint.Has mintEntry
      ∧ Touches mintXrpl (trackedIssuance minted) mintEntry
      ∧ ¬ Stored mintXrpl sweptArchive mintEntry
      ∧ ¬ Repaired mintXrpl (rediscover mintXrpl (singlePages afterMint) sweptArchive) minted
        mintEntry := by
  have hfk : sweptArchive.ForeignKeys := by decide +kernel
  have hids : JobIds sweptArchive := ⟨by decide +kernel, by decide +kernel⟩
  have hmissed : ¬ Stored mintXrpl sweptArchive mintEntry := by decide +kernel
  refine ⟨afterMint_sound, answersAll_singlePages afterMint, hfk, hids, by decide +kernel, rfl,
    Nat.zero_le _, ⟨"rIssuer", List.mem_singleton_self _⟩, mint_touches, hmissed, ?_⟩
  have hin : ∀ i ∈ sweptArchive.issuances, i = minted := by decide +kernel
  -- the sweep of the only issuance is completed
  obtain ⟨job, hjob, hdone⟩ : ∃ job, getByAccount minted.id "rIssuer" sweptArchive = some job
      ∧ job.status = .completed := ⟨_, rfl, by decide +kernel⟩
  have hmissing : ¬ Stored mintXrpl
      (rediscover mintXrpl (singlePages afterMint) sweptArchive) mintEntry := by
    intro hstored
    rcases (swept_rediscover afterMint_sound (answersAll_singlePages afterMint)
      ⟨hfk.accountIssuance_address, hids⟩).new mintEntry
        ⟨"rIssuer", List.mem_singleton_self _⟩ hstored with
      hold | ⟨j, hj, -⟩
    · exact hmissed hold
    · obtain ⟨⟨hjin, -⟩, hread⟩ := mem_passReads.mp hj
      rw [hin j hjin, readAhead_completed rfl hjob hdone] at hread
      exact absurd hread List.not_mem_nil
  exact fun h => hmissing h.1.1

end RegistrarRescan
