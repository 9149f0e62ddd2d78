import Registrar.Library.Runs
import Registrar.Pages

/-! # Balance changes in an account's history

    A derived balance change names a transaction and an account; the account's
    archived transactions are those linked to it.  The writers link different
    accounts, and all of them derive for every holder their metadata names.  The
    sweep links each of them.  A worker links its job's account alone, and a heal
    or an event the holders of the issuances tracked when it was mapped, which may
    be fewer than it derives for. -/

namespace RegistrarLinks

open KeyedTable Runs Statements RegistrarMetadata RegistrarArchive RegistrarIngest
open RegistrarBackfill RegistrarSweep RegistrarStored RegistrarWritten
open RegistrarTail RegistrarOrder RegistrarPages

/-! ## Changed accounts -/

/-- The accounts whose balance in the issuance a transaction changes. -/
def changed (iss : TrackedIssuance) (metadata : Option Meta) : List String :=
  match metadata with
  | none => []
  | some m => (issuanceDeltas iss m).map Prod.fst

/-- The account has the transaction in its history. -/
def Linked (db : Archive) (hash account : String) : Prop :=
  db.accountTransactions.HasKey (hash, account)

instance (db : Archive) (hash account : String) : Decidable (Linked db hash account) :=
  inferInstanceAs (Decidable (Table.HasKey _ _))

/-- Every account whose balance a transaction changes, in one of the issuances, is
    among `links` or has the transaction in its history. -/
def Reached (db : Archive) (issuances : List TrackedIssuance) (links : List String)
    (b : MappedEntry) : Prop :=
  ∀ iss ∈ issuances, ∀ account ∈ changed iss b.metadata,
    account ∈ links ∨ Linked db b.row.hash account

instance (db : Archive) (issuances : List TrackedIssuance) (links : List String)
    (b : MappedEntry) : Decidable (Reached db issuances links b) :=
  inferInstanceAs (Decidable (∀ iss ∈ issuances, ∀ account ∈ changed iss b.metadata,
    account ∈ links ∨ Linked db b.row.hash account))

/-- A worker's page changes balances of its job's account or of accounts linked
    before.  A heal or an event does, of the accounts it links or of accounts linked
    before, in the issuances that were not yet tracked when it was mapped; for an
    event also in the others, where the fetched metadata are not the message's. -/
def ReachesChanged (X : Xrpl) (db : Archive) (p : Page) : Prop :=
  ∀ batch ∈ p.batch X, ∀ b ∈ batch,
    match p with
    | .sweep _ _ _ _ => True
    | .worker _ tracked job _ _ => Reached db tracked [job.address] b
    | .heal seen tracked _ _ => Reached db (tracked.filter (· ∉ seen)) b.row.accounts b
    | .event seen tracked msg _ =>
        Reached db (tracked.filter (fun iss => iss ∉ seen ∨ msg.metadata ≠ b.metadata))
          b.row.accounts b

instance (X : Xrpl) (db : Archive) (p : Page) : Decidable (ReachesChanged X db p) := by
  unfold ReachesChanged
  cases p <;> exact inferInstance

/-! ## What a writer links -/

/-- `decode` names the parties of trust lines. -/
def SpellsParties (X : Xrpl) : Prop :=
  ∀ blob m, X.decodeMeta blob = some m → NamesParties m

theorem SpellsParties.of_decodeMeta {X : Xrpl} (hX : SpellsParties X) {blob : String} {m : Meta}
    (h : decodeMeta X blob = some m) : NamesParties m := by
  unfold decodeMeta at h
  by_cases hblob : blob = ""
  · rw [if_pos hblob] at h
    exact nomatch h
  · rw [if_neg hblob] at h
    exact hX blob m h

/-- A changed account is a holder, whatever else is tracked. -/
theorem holder_of_changed {m : Meta} (hm : NamesParties m) {tracked : List TrackedIssuance}
    {iss : TrackedIssuance} (hiss : iss ∈ tracked) {account : String}
    (h : account ∈ changed iss (some m)) : ⟨iss.id, account⟩ ∈ holdersInMeta m tracked := by
  obtain ⟨d, hd, rfl⟩ := List.mem_map.mp h
  exact holdersInMeta_mono hiss (holder_of_delta hd (account_ne_of_delta hm hd))

/-- The metadata of a batch name the parties of trust lines. -/
theorem batch_named {X : Xrpl} (hX : SpellsParties X) {p : Page} {batch : List MappedEntry}
    (hbatch : p.batch X = some batch) {b : MappedEntry} (hb : b ∈ batch) {m : Meta}
    (hm : b.metadata = some m) : NamesParties m := by
  have hsweep : ∀ {tracked issuer page}, sweepBatch X tracked issuer page = some batch →
      NamesParties m := by
    intro tracked issuer page h
    obtain ⟨e, -, hmap⟩ := mem_sweepBatch h hb
    obtain ⟨m', hm', -, hmeta, -⟩ := issuerSweepEntryMapper_row hmap
    cases hm.symm.trans hmeta
    exact hX _ m hm'
  cases p with
  | sweep issuance job page highWater => exact hsweep hbatch
  | worker seen tracked job page maxLedger =>
      obtain ⟨mapped, -, rfl⟩ := Option.map_eq_some_iff.mp hbatch
      obtain ⟨tx, -, rfl⟩ := List.mem_map.mp hb
      exact hX.of_decodeMeta hm
  | heal seen tracked issuer page => exact hsweep hbatch
  | event seen tracked msg res =>
      obtain ⟨ev, -, rfl⟩ := Option.map_eq_some_iff.mp hbatch
      cases List.mem_singleton.mp hb
      exact hX.of_decodeMeta hm

/-- The rows of an issuer's page link the changed accounts of every issuance it
    was mapped with. -/
theorem sweepBatch_links {X : Xrpl} (hX : SpellsParties X) {tracked : List TrackedIssuance}
    {issuer : String} {page : BackfillPage} {batch : List MappedEntry}
    (h : sweepBatch X tracked issuer page = some batch) {b : MappedEntry} (hb : b ∈ batch)
    {iss : TrackedIssuance} (hiss : iss ∈ tracked) {account : String}
    (haccount : account ∈ changed iss b.metadata) : account ∈ b.row.accounts := by
  obtain ⟨e, -, hmap⟩ := mem_sweepBatch h hb
  obtain ⟨m, hm, -, hmeta, hrow⟩ := issuerSweepEntryMapper_row hmap
  obtain ⟨-, -, -, haccounts⟩ := entryRow_some hrow
  rw [hmeta] at haccount
  rw [haccounts]
  exact mem_distinctBy_id.mpr (List.mem_cons_of_mem issuer
    (List.mem_map_of_mem (holder_of_changed (hX _ m hm) hiss haccount)))

/-- The rows of a worker's page link the job's account. -/
theorem workerBatch_links {X : Xrpl} {tracked : List TrackedIssuance} {account : String}
    {page : BackfillPage} {mapped : List IngestTransaction}
    (h : workerBatch X tracked account page = some mapped) {tx : IngestTransaction}
    (htx : tx ∈ mapped) : tx.accounts = [account] := by
  obtain ⟨kept, -, hmap⟩ := Option.bind_eq_some_iff.mp h
  obtain ⟨e, -, he⟩ := mem_of_mapM_some hmap htx
  exact (entryRow_some he).2.2.2

/-- The accounts of a message hold every holder it touches. -/
theorem mem_issuanceScope {X : Xrpl} {tracked : List TrackedIssuance} {m : Meta}
    {touched : List String} (h : issuanceScope X tracked (some m) = some touched)
    {d : DetectedHolder} (hd : d ∈ holdersInMeta m tracked) : d.holder ∈ touched := by
  obtain ⟨lists, hlists, rfl⟩ := Option.map_eq_some_iff.mp h
  obtain ⟨l, hl, hdl⟩ := exists_of_mapM_some hlists hd
  refine mem_distinctBy_id.mpr (List.mem_flatten.mpr ⟨l, hl, ?_⟩)
  unfold holderAccounts at hdl
  cases hfind : tracked.reverse.find? (fun iss => decide (iss.id = d.issuanceId)) with
  | none =>
      rw [hfind] at hdl
      cases Option.some.inj hdl
      exact List.mem_cons_self
  | some iss =>
      rw [hfind] at hdl
      obtain ⟨issuer, -, rfl⟩ := Option.map_eq_some_iff.mp hdl
      exact List.mem_cons_self

theorem streamEvent_some {X : Xrpl} {tracked : List TrackedIssuance} {msg : StreamMessage}
    {res : TxResult} {ev : TransactionEvent} (h : streamEvent X tracked msg res = some ev) :
    issuanceScope X tracked msg.metadata = some ev.accounts := by
  obtain ⟨touched, htouched, h⟩ := Option.bind_eq_some_iff.mp h
  obtain ⟨-, h⟩ := Option.ite_none_left_eq_some.mp h
  unfold transactionEvent at h
  split at h
  · obtain ⟨txType, -, rfl⟩ := Option.map_eq_some_iff.mp h
    exact htouched
  · exact nomatch h

/-- **WHAT A WRITER DERIVES IT LINKS**, where it reaches the changed accounts. -/
theorem reached_of_batch {X : Xrpl} (hX : SpellsParties X) {db : Archive} {p : Page}
    {batch : List MappedEntry} (hbatch : p.batch X = some batch) (h : ReachesChanged X db p)
    {b : MappedEntry} (hb : b ∈ batch) : Reached db p.tracked b.row.accounts b := by
  intro iss hiss account haccount
  have hreach := h batch hbatch b hb
  cases p with
  | sweep issuance job page highWater =>
      exact Or.inl (sweepBatch_links hX hbatch hb hiss haccount)
  | worker seen tracked job page maxLedger =>
      obtain ⟨mapped, hmapped, rfl⟩ := Option.map_eq_some_iff.mp hbatch
      obtain ⟨tx, htx, rfl⟩ := List.mem_map.mp hb
      rw [workerBatch_links hmapped htx]
      exact hreach iss hiss account haccount
  | heal seen tracked issuer page =>
      by_cases hseen : iss ∈ seen
      · exact Or.inl (sweepBatch_links hX hbatch hb hseen haccount)
      · exact hreach iss (List.mem_filter.mpr ⟨hiss, decide_eq_true hseen⟩) account haccount
  | event seen tracked msg res =>
      obtain ⟨ev, hev, rfl⟩ := Option.map_eq_some_iff.mp hbatch
      cases List.mem_singleton.mp hb
      by_cases hseen : iss ∉ seen ∨ msg.metadata ≠ decodeMeta X ev.metaBlob
      · exact hreach iss (List.mem_filter.mpr ⟨hiss, decide_eq_true hseen⟩) account haccount
      · obtain ⟨hseen, hmeta⟩ := not_or.mp hseen
        have hscope := streamEvent_some hev
        rw [not_not.mp hmeta] at hscope
        cases hm : decodeMeta X ev.metaBlob with
        | none =>
            rw [hm] at haccount
            exact nomatch haccount
        | some m =>
            rw [hm] at hscope haccount
            exact Or.inl (mem_issuanceScope hscope
              (holder_of_changed (hX.of_decodeMeta hm) (not_not.mp hseen) haccount))

/-! ## Every state -/

/-- Every balance change is in its account's history. -/
def HistoryLinked (db : Archive) : Prop :=
  ∀ r ∈ db.balanceDeltas, Linked db r.hash r.address

/-- A writer that reaches the changed accounts keeps the history linked. -/
theorem HistoryLinked.write {X : Xrpl} (hX : SpellsParties X) {db db' : Archive} {p : Page}
    (h : HistoryLinked db) (hp : ReachesChanged X db p) (hw : p.write X db = some db') :
    HistoryLinked db' := by
  obtain ⟨batch, hbatch, hingests⟩ := p.write_ingests hw
  have hkept : ∀ {hash account}, Linked db hash account → Linked db' hash account := by
    rintro hash account ⟨l, hl, hkey⟩
    exact ⟨l, (hingests.links l).mpr (Or.inl hl), hkey⟩
  intro r hr
  rcases hingests.mem_deltas hr with hold | hnew
  · exact hkept (h r hold)
  · rcases hnew with hnone | ⟨b, hb, hrow⟩
    · exact absurd hnone (Set.notMem_empty r)
    · obtain ⟨m, hm, iss, hiss, d, hd, rfl⟩ := mem_derivedRows.mp hrow
      have haccount : d.1 ∈ changed iss b.metadata := by
        rw [hm]
        exact List.mem_map_of_mem hd
      rcases reached_of_batch hX hbatch hp hb iss hiss d.1 haccount with hlink | hlinked
      · refine ⟨⟨b.row.hash, d.1⟩, (hingests.links _).mpr (Or.inr (Or.inl ?_)), rfl⟩
        exact ⟨b.row, List.mem_map_of_mem hb, rfl, hlink⟩
      · exact hkept hlinked

/-- **EVERY BALANCE CHANGE IS IN ITS ACCOUNT'S HISTORY**, in every state reached from
    an archive without transactions by writers that reach the changed accounts. -/
theorem balance_changes_linked (X : Xrpl) (hX : SpellsParties X) {db₀ db : Archive}
    (hempty : db₀.balanceDeltas = Table.empty)
    (h : Steps (fun db p => Page.write X db p) (ReachesChanged X) db₀ db) :
    ∀ r ∈ db.balanceDeltas, Linked db r.hash r.address := by
  refine h.inv HistoryLinked ?_ (fun _ _ _ hI hok hs => hI.write hX hok hs)
  intro r hr
  rw [hempty] at hr
  exact absurd hr (Table.not_mem_empty r)

/-! ## A payment between two holders -/

def receipt (account : String) (amount : String) : Option AffectedNode :=
  some { createdNode := some {
    ledgerEntryType := some "MPToken", ledgerIndex := some account
    newFields := some {
      account := some account, mptokenIssuanceID := some "MPT", mptAmount := some amount } } }

def spending (account : String) (before amount : String) : Option AffectedNode :=
  some { modifiedNode := some {
    ledgerEntryType := some "MPToken", ledgerIndex := some account
    finalFields := some {
      account := some account, mptokenIssuanceID := some "MPT", mptAmount := some amount }
    previousFields := some { mptAmount := some before } } }

/-- A stub of `xrpl` with two blobs: `mint` gives 5 to `rAlice`, who pays 2 of them
    to `rBob` in `pay`. -/
def payXrpl : Xrpl where
  decodeMeta blob :=
    if blob = "mint" then some { affectedNodes := some [receipt "rAlice" "5"] }
    else if blob = "pay" then
      some { affectedNodes := some [spending "rAlice" "5" "3", receipt "rBob" "2"] }
    else none
  decodeTxType _ := some (some "Payment")
  hashSignedTx blob := blob
  encodeAccountID _ := some "rIssuer"

def payIssuance : TrackedIssuance := { id := 1, kind := .mpt, mptIssuanceId := some "MPT" }

def sweepJob : BackfillJobRow :=
  { id := 1, address := "rIssuer", issuanceId := 1, fromLedger := some 0, kind := .issuer }

def aliceJob : BackfillJobRow :=
  { id := 2, address := "rAlice", issuanceId := 1, fromLedger := some 0 }

/-- The issuance with the job of its sweep and one of `rAlice`. -/
def payArchive : Archive where
  issuances := Table.empty.insertIgnore { id := 1, kind := .mpt, mptIssuanceId := some "MPT" }
  accounts := { rows := [⟨"rIssuer", none⟩, ⟨"rAlice", none⟩], nodup := by decide }
  accountIssuance := { rows := [⟨"rAlice", 1, "stream", none⟩], nodup := by decide }
  backfillJob := { rows := [sweepJob, aliceJob], nodup := by decide }
  issuanceSeq := 2
  jobSeq := 3

def mintEntry : BinaryTxEntry := ⟨"t1", "mint", 200⟩

def payEntry : BinaryTxEntry := ⟨"t2", "pay", 201⟩

def alicePage : Page :=
  .worker [payIssuance] [payIssuance] aliceJob
    ⟨[mintEntry, payEntry], none, ⟨"clio", "now"⟩⟩ 201

def issuerPage : BackfillPage := ⟨[mintEntry, payEntry], none, ⟨"clio", "now"⟩⟩

/-- The sweep's page, then the worker's, a heal over both and the last payment from
    the stream. -/
def payRun : List Page :=
  [.sweep payIssuance sweepJob issuerPage 201, alicePage,
    .heal [payIssuance] [payIssuance] "rIssuer" issuerPage,
    .event [payIssuance] [payIssuance] ⟨"t2", payXrpl.decodeMeta "pay", some 201⟩
      ⟨some "t2", some "pay", some 201, ⟨"rippled", "later"⟩⟩]

theorem payXrpl_spells : SpellsParties payXrpl := by
  intro blob m h w hw node hnode fields hfields
  have hm : m = { affectedNodes := some [receipt "rAlice" "5"] }
      ∨ m = { affectedNodes := some [spending "rAlice" "5" "3", receipt "rBob" "2"] } := by
    simp only [payXrpl] at h
    by_cases hmint : blob = "mint"
    · rw [if_pos hmint] at h
      exact Or.inl (Option.some.inj h).symm
    · rw [if_neg hmint] at h
      obtain ⟨-, h⟩ := Option.ite_none_right_eq_some.mp h
      exact Or.inr (Option.some.inj h).symm
  rcases hm with rfl | rfl
  · cases List.mem_singleton.mp hw
    cases hnode
    cases hfields
    exact ⟨nofun, nofun⟩
  · rcases List.mem_pair.mp hw with rfl | rfl <;> cases hnode <;> cases hfields <;>
      exact ⟨nofun, nofun⟩

/-- The run derives three changes, and each is in its account's history. -/
theorem balance_changes_linked_pay : ∃ db, db.balanceDeltas.rows.length = 3
    ∧ ∀ r ∈ db.balanceDeltas, Linked db r.hash r.address := by
  have hrun : (runChecked (fun db p => Page.write payXrpl db p) (ReachesChanged payXrpl)
      payArchive payRun).map (fun db => db.balanceDeltas.rows.length) = some 3 := by
    decide +kernel
  obtain ⟨db, hsteps, hlength⟩ := Steps.exists_of_runChecked _ hrun
  exact ⟨db, hlength, balance_changes_linked payXrpl payXrpl_spells rfl hsteps⟩

/-- The worker's page of `rAlice` stores a change of `rBob`, whose history lacks the
    payment. -/
theorem worker_page_leaves_change_unlinked : ∃ db,
    Steps (fun db p => Page.write payXrpl db p) anyStep payArchive db
      ∧ (∃ r ∈ db.balanceDeltas, r.hash = "t2" ∧ r.address = "rBob")
      ∧ ¬ Linked db "t2" "rBob" := by
  have hrun : (run (fun db p => Page.write payXrpl db p) payArchive [alicePage]).map
      (fun db => decide ((∃ r ∈ db.balanceDeltas, r.hash = "t2" ∧ r.address = "rBob")
        ∧ ¬ Linked db "t2" "rBob")) = some true := by
    decide +kernel
  obtain ⟨db, hsteps, hend⟩ := Steps.exists_of_run _ hrun
  exact ⟨db, hsteps, of_decide_eq_true hend⟩

end RegistrarLinks
