import Registrar.ExactBalances
import Registrar.Restarts

/-! # Balances across sweeps, tails and restarts

    Whatever order the writers of a server run in, and however often it restarts, the
    archive holds nothing but what upstream has, in its ledger; and of a swept issuance
    it holds all of it up to the ledgers that are passed.  A reported balance is then
    that of the ledger. -/

namespace RegistrarTrueBalances

open KeyedTable Runs Statements Grouping RegistrarMetadata RegistrarArchive RegistrarIngest
open RegistrarBackfill RegistrarReads RegistrarTail RegistrarSweep RegistrarStored
open RegistrarWritten RegistrarOrder RegistrarPages RegistrarStation
open RegistrarDiscovery (registered registered_eq)
open RegistrarProgress (Tail)
open RegistrarScans (Site Scan)
open RegistrarLinks (SpellsParties changed payXrpl payXrpl_spells payIssuance mintEntry payEntry)
open RegistrarExact (gained)
open RegistrarCovered (touches_of_changed payUpstream payUpstream_has payUpstream_sound payRow
  payJob sweepBegins balanceOf)
open RegistrarRestarts (payStation payStation_fresh)

/-! ## Nothing but what upstream has -/

/-- The row is that of the entry, in its ledger. -/
def RowOf (X : Xrpl) (e : BinaryTxEntry) (b : MappedEntry) : Prop :=
  IsRowOf X e b ∧ b.row.ledgerIndex = e.ledgerIndex

/-- Stored transactions have the ledgers they have upstream, and each delta is that of
    an upstream transaction for a registered issuance. -/
structure Genuine (X : Xrpl) (U : Upstream) (db : Archive) : Prop where
  ledger : ∀ t ∈ db.transactions, ∀ e, U.Has e → t.hash = X.hashSignedTx e.txBlob →
    t.ledgerIndex = e.ledgerIndex
  deltas : ∀ r ∈ db.balanceDeltas, ∃ iss ∈ registered db, ∃ e, U.Has e
    ∧ r ∈ entryDeltas X [iss] e

section Genuine

variable {X : Xrpl} {U : Upstream} {db db' : Archive}

theorem Genuine.same (h : Genuine X U db) (hsame : SameData db db') : Genuine X U db' where
  ledger := by
    rw [hsame.transactions]
    exact h.ledger
  deltas := by
    intro r hr
    rw [hsame.deltas] at hr
    obtain ⟨iss, hiss, hof⟩ := h.deltas r hr
    exact ⟨iss, hsame.registered iss hiss, hof⟩

/-- **A GENUINE BATCH** keeps the archive genuine. -/
theorem Genuine.batch (hU : U.Sound X) (h : Genuine X U db) {tracked : List TrackedIssuance}
    (htracked : ∀ iss ∈ tracked, iss ∈ registered db) {batch : List MappedEntry}
    (hbatch : ∀ b ∈ batch, ∃ e, U.Has e ∧ RowOf X e b)
    (hingests : Ingests (batchFacts tracked batch) db db') : Genuine X U db' := by
  have hregistered : registered db' = registered db := by
    unfold registered
    rw [hingests.issuances]
  refine ⟨fun t ht e he hhash => ?_, fun r hr => ?_⟩
  · rcases hingests.new t ht with hold | ⟨tx, htx, hbare⟩ | ⟨b, -, hnone⟩
    · exact h.ledger t hold e he hhash
    · obtain ⟨b, hb, rfl⟩ := List.mem_map.mp htx
      obtain ⟨e', he', ⟨hhash', -⟩, hledger⟩ := hbatch b hb
      have hsame : t.hash = b.row.hash := congrArg TransactionRow.hash hbare
      cases hU.hash he he' (hhash.symm.trans (hsame.trans hhash'))
      exact (congrArg TransactionRow.ledgerIndex hbare).trans hledger
    · exact absurd hnone (Set.notMem_empty _)
  · obtain ⟨rows, hrows, hdeltas⟩ := hingests.deltas
    rw [hdeltas] at hr
    rw [hregistered]
    rcases mem_of_mem_foldl_putDelta hr with hnew | hold
    · rcases (hrows r).mp hnew with hnone | ⟨b, hb, hrow⟩
      · exact absurd hnone (Set.notMem_empty _)
      · obtain ⟨e, he, ⟨hhash, hmeta⟩, -⟩ := hbatch b hb
        have hrow : r ∈ derivedRows tracked b.row.hash b.metadata := hrow
        obtain ⟨m, hm, iss, hiss, d, hd, rfl⟩ := mem_derivedRows.mp hrow
        refine ⟨iss, htracked iss hiss, e, he, (mem_entryDeltas X).mpr ⟨m, hmeta ▸ hm, iss,
          List.mem_singleton_self _, d, hd, ?_⟩⟩
        rw [hhash]
    · exact h.deltas r hold

/-- The batch of an issuer's page has rows of its entries. -/
theorem rowOf_sweepBatch {tracked : List TrackedIssuance} {issuer : String}
    {page : BackfillPage} {batch : List MappedEntry}
    (h : sweepBatch X tracked issuer page = some batch)
    (hblob : ∀ e ∈ page.entries, e.metaBlob ≠ "") {b : MappedEntry} (hb : b ∈ batch) :
    ∃ e ∈ page.entries, RowOf X e b := by
  obtain ⟨e, he, hmap⟩ := mem_sweepBatch h hb
  obtain ⟨m, hm, -, hmeta, hrow⟩ := issuerSweepEntryMapper_row hmap
  obtain ⟨hhash, hledger, -, -⟩ := entryRow_some hrow
  refine ⟨e, he, ⟨hhash, ?_⟩, hledger⟩
  rw [hmeta, decodeMeta_of_ne (hblob e he), hm]

/-- And so has that of an account's page. -/
theorem rowOf_workerBatch {tracked : List TrackedIssuance} {account : String}
    {page : BackfillPage} {mapped : List IngestTransaction}
    (h : workerBatch X tracked account page = some mapped) {b : MappedEntry}
    (hb : b ∈ workerEntries X mapped) : ∃ e ∈ page.entries, RowOf X e b := by
  obtain ⟨tx, htx, rfl⟩ := List.mem_map.mp hb
  obtain ⟨kept, hkept, hmap⟩ := Option.bind_eq_some_iff.mp h
  obtain ⟨e, he, hmapped⟩ := mem_of_mapM_some hmap htx
  obtain ⟨⟨e', k⟩, hek, rfl⟩ := List.mem_map.mp he
  obtain ⟨e'', he'', hpair⟩ := mem_of_mapM_some hkept (List.mem_of_mem_filter hek)
  obtain ⟨k', -, hpair⟩ := Option.map_eq_some_iff.mp hpair
  cases hpair
  obtain ⟨hhash, hledger, hblob, -⟩ := entryRow_some hmapped
  refine ⟨e', he'', ⟨hhash, ?_⟩, hledger⟩
  show decodeMeta X tx.metaBlob = _
  rw [hblob]

/-- So a page of a scan or of a heal keeps the archive genuine. -/
theorem Genuine.wrote (hU : U.Sound X) (h : Genuine X U db) {p : Page}
    (hwrote : Wrote X U p db db') (hlisted : Listed p) : Genuine X U db' := by
  obtain ⟨batch, hbatch, hingests⟩ := p.write_ingests hwrote.write
  have hof := hwrote.of
  refine h.batch hU hwrote.tracked (fun b hb => ?_) hingests
  cases p with
  | sweep issuance job page highWater =>
      have hof : ∀ e ∈ page.entries, e ∈ U.accountTx job.address := hof
      obtain ⟨e, he, hrow⟩ := rowOf_sweepBatch hbatch (fun e he => hU.blob ⟨_, hof e he⟩) hb
      exact ⟨e, ⟨_, hof e he⟩, hrow⟩
  | worker seen tracked job page maxLedger =>
      have hof : ∀ e ∈ page.entries, e ∈ U.accountTx job.address := hof
      obtain ⟨mapped, hmapped, rfl⟩ := Option.map_eq_some_iff.mp hbatch
      obtain ⟨e, he, hrow⟩ := rowOf_workerBatch hmapped hb
      exact ⟨e, ⟨_, hof e he⟩, hrow⟩
  | heal seen tracked issuer page =>
      have hof : ∀ e ∈ page.entries, e ∈ U.accountTx issuer := hof
      obtain ⟨e, he, hrow⟩ := rowOf_sweepBatch hbatch (fun e he => hU.blob ⟨_, hof e he⟩) hb
      exact ⟨e, ⟨_, hof e he⟩, hrow⟩
  | event seen tracked msg res => exact absurd hlisted id

end Genuine

/-! ## Every run -/

/-- `tx` answers with the ledger of the transaction. -/
def Answered (X : Xrpl) : Action → Prop
  | .tail (.fetched f res) =>
      ∀ ev ∈ transactionEvent X f.msg.hash f.touched f.msg.ledgerIndex res,
        ev.ledgerIndex = f.entry.ledgerIndex
  | _ => True

instance (X : Xrpl) : (a : Action) → Decidable (Answered X a)
  | .tail (.fetched ..) => inferInstanceAs (Decidable (∀ ev ∈ _, _ = _))
  | .tail (.ledgerClosed ..) | .tail (.transaction ..) | .tail (.fetchFailed _)
  | .tail .consume | .tail .observe | .tail .healed | .tail .healFailed | .tail (.write _)
  | .tail (.lookUp _) | .tail (.register _) | .tail .refreshTracked | .tail .restart
  | .site _ | .message .. | .mended .. | .restart => instDecidableTrue

/-- The archive is genuine, and so are the queued events. -/
structure Clean (X : Xrpl) (U : Upstream) (s : Station) : Prop where
  db : Genuine X U s.tail.db
  queue : ∀ ev, .transaction ev ∈ s.tail.queue → ∀ e, U.Has e → IsEventOf X e ev →
    ev.ledgerIndex = e.ledgerIndex

section Clean

variable {X : Xrpl} {U : Upstream} {R : Storage} {s : Station}

/-- A streamed transaction of its ledger. -/
theorem Genuine.ingestEvent (hU : U.Sound X) {db db' : Archive} (h : Genuine X U db)
    {tracked : List TrackedIssuance} (htracked : ∀ iss ∈ tracked, iss ∈ registered db)
    {ev : TransactionEvent} {e : BinaryTxEntry} (he : U.Has e) (hev : IsEventOf X e ev)
    (hledger : ev.ledgerIndex = e.ledgerIndex)
    (hingest : RegistrarTail.ingestEvent X tracked ev db = .ok db') : Genuine X U db' := by
  refine h.batch hU htracked (fun b hb => ?_) (ingests_ingestEvent hingest)
  cases List.mem_singleton.mp hb
  refine ⟨e, he, ⟨hev.1, ?_⟩, hledger⟩
  show decodeMeta X ev.metaBlob = _
  rw [hev.2]

/-- The tail takes the first event. -/
theorem Clean.consume (hU : U.Sound X) (h : Clean X U s) (hI : Inv X U R s) {item : TailEvent}
    {queue : List TailEvent} {phase : RegistrarProgress.Phase}
    (hqueue : s.tail.queue = item :: queue) :
    Clean X U { s with
      tail := RegistrarProgress.consumeEvent X { s.tail with queue, phase } item } := by
  have hrest : ∀ ev, TailEvent.transaction ev ∈ queue → ∀ e, U.Has e → IsEventOf X e ev →
      ev.ledgerIndex = e.ledgerIndex := by
    intro ev hev
    exact h.queue ev (hqueue ▸ List.mem_cons_of_mem item hev)
  cases item with
  | ledger n closeTime => exact ⟨h.db.same (sameData_recordEvent n closeTime), hrest⟩
  | transaction ev =>
      have hin : TailEvent.transaction ev ∈ s.tail.queue := hqueue ▸ List.mem_cons_self
      obtain ⟨e, he, hev⟩ := hI.queue ev hin
      have hledger := h.queue ev hin e he hev
      cases hingest : RegistrarTail.ingestEvent X s.tail.tracked ev s.tail.db with
      | ok db =>
          have hafter : RegistrarProgress.consumeEvent X { s.tail with queue, phase }
              (.transaction ev) = { s.tail with db, queue, phase } := by
            simp only [RegistrarProgress.consumeEvent, hingest]
          rw [hafter]
          exact ⟨h.db.ingestEvent hU hI.site.tracked he hev hledger hingest, hrest⟩
      | error err =>
          have hafter : RegistrarProgress.consumeEvent X { s.tail with queue, phase }
              (.transaction ev) = { s.tail with queue, phase := .stopped } := by
            simp only [RegistrarProgress.consumeEvent, hingest]
          rw [hafter]
          exact ⟨h.db, hrest⟩

/-- A step of the tail's own. -/
theorem Clean.atTail (hU : U.Sound X) (h : Clean X U s) (hI : Inv X U R s)
    {a : RegistrarProgress.Action} (hof : OfTail a) (hanswered : Answered X (.tail a))
    {tail : Tail} (hstep : RegistrarProgress.step X s.tail a = some tail) :
    Clean X U { s with
      tail, since := s.sinceAfter a, abandoned := s.abandonedAfter a } := by
  cases tailStep_of_step hof hstep with
  | ledgerClosed n closeTime =>
      refine ⟨h.db, fun ev hev => ?_⟩
      rcases List.mem_append.mp hev with hev | hev
      · exact h.queue ev hev
      · exact absurd (List.mem_singleton.mp hev) (by simp)
  | fetched f res hf hevent =>
      refine ⟨h.db, fun ev hev e he hof => ?_⟩
      rcases List.mem_append.mp hev with hev | hev
      · exact h.queue ev hev e he hof
      · obtain ⟨ev', hev', heq⟩ := List.mem_map.mp hev
        cases heq
        have hin := Option.mem_toList.mp hev'
        -- the event is that of the transaction requested
        cases hU.hash (hI.fetching f hf) he ((hevent ev hin).1.symm.trans hof.1)
        exact hanswered ev hin
  | fetchFailed f => exact ⟨h.db, h.queue⟩
  | consume item queue hphase hqueue => exact h.consume hU hI hqueue
  | observe n hphase => exact ⟨h.db, h.queue⟩
  | healed gap hphase => exact ⟨h.db, h.queue⟩
  | healFailed gap hphase => exact ⟨h.db, h.queue⟩

/-- **WHAT EVERY STEP KEEPS**. -/
theorem Clean.step (hU : U.Sound X) (h : Clean X U s) (hI : Inv X U R s) {s' : Station}
    {a : Action} (hanswered : Answered X a) (hstep : RegistrarStation.step X U s a = some s') :
    Clean X U s' := by
  cases a with
  | site a =>
      obtain ⟨hof, hstep⟩ := Option.ite_none_right_eq_some.mp hstep
      obtain ⟨site, hsite, rfl⟩ := Option.map_eq_some_iff.mp hstep
      refine ⟨?_, h.queue⟩
      show Genuine X U site.db
      rcases site_cases hI.site hsite with hsame | ⟨p, hwrote, hlisted⟩
      · exact h.db.same hsame
      · exact h.db.wrote hU hwrote (hlisted hof)
  | message account e msg =>
      obtain ⟨-, hstep⟩ := Option.ite_none_right_eq_some.mp hstep
      obtain ⟨tail, htail, rfl⟩ := Option.map_eq_some_iff.mp hstep
      obtain ⟨touched, -, htail⟩ := Option.bind_eq_some_iff.mp htail
      obtain ⟨-, htail⟩ := Option.ite_none_left_eq_some.mp htail
      cases Option.some.inj htail
      exact ⟨h.db, h.queue⟩
  | tail a =>
      obtain ⟨hof, hstep⟩ := Option.ite_none_right_eq_some.mp hstep
      obtain ⟨tail, htail, rfl⟩ := Option.map_eq_some_iff.mp hstep
      exact h.atTail hU hI hof hanswered htail
  | mended iss range =>
      obtain ⟨-, hstep⟩ := Option.ite_none_right_eq_some.mp hstep
      cases Option.some.inj hstep
      exact ⟨h.db, h.queue⟩
  | restart =>
      cases Option.some.inj hstep
      exact ⟨h.db, fun ev hev => absurd hev List.not_mem_nil⟩

end Clean

/-! ## The ledger -/

/-- The balance changes of the issuance in a transaction. -/
def changesOf (X : Xrpl) (iss : TrackedIssuance) (e : BinaryTxEntry) : List (String × ℚ) :=
  match decodeMeta X e.metaBlob with
  | none => []
  | some m => issuanceDeltas iss m

/-- The transactions of an issuance upstream, none of which changes a balance twice. -/
structure TransactionsOf (X : Xrpl) (U : Upstream) (iss : TrackedIssuance)
    (txs : List BinaryTxEntry) : Prop where
  nodup : txs.Nodup
  all : ∀ e, e ∈ txs ↔ U.Has e ∧ Touches X iss e
  once : ∀ e ∈ txs, ((changesOf X iss e).map Prod.fst).Nodup

/-- What the accounts that meet `p` hold after a ledger. -/
def held (X : Xrpl) (iss : TrackedIssuance) (txs : List BinaryTxEntry) (p : String → Prop)
    [DecidablePred p] (ledger : ℕ) : ℚ :=
  ((txs.filter (fun e => e.ledgerIndex ≤ ledger)).map
    (fun e => gained p (changesOf X iss e))).sum

/-- The delta rows of a transaction. -/
def rowsOf (X : Xrpl) (iss : TrackedIssuance) (e : BinaryTxEntry) : List BalanceDeltaRow :=
  (changesOf X iss e).map (fun c => ⟨X.hashSignedTx e.txBlob, c.1, iss.id, c.2⟩)

section Held

variable {X : Xrpl} {U : Upstream} {iss : TrackedIssuance} {txs : List BinaryTxEntry}
  {db : Archive} {ledger : ℕ}

theorem mem_rowsOf {e : BinaryTxEntry} {r : BalanceDeltaRow} :
    r ∈ rowsOf X iss e ↔ r ∈ entryDeltas X [iss] e := by
  rw [mem_entryDeltas]
  unfold rowsOf changesOf
  rw [List.mem_map]
  cases decodeMeta X e.metaBlob with
  | none => simp
  | some m =>
      constructor
      · rintro ⟨c, hc, rfl⟩
        exact ⟨m, rfl, iss, List.mem_singleton_self iss, c, hc, rfl⟩
      · rintro ⟨m', hm', i, hi, c, hc, rfl⟩
        cases hm'
        cases List.mem_singleton.mp hi
        exact ⟨c, hc, rfl⟩

/-- A row of a transaction names one of its changes, so it touches the issuance. -/
theorem touches_of_mem_rowsOf (hX : SpellsParties X) {e : BinaryTxEntry} {r : BalanceDeltaRow}
    (h : r ∈ rowsOf X iss e) : Touches X iss e := by
  obtain ⟨c, hc, rfl⟩ := List.mem_map.mp h
  have hchanged : c.1 ∈ changed iss (decodeMeta X e.metaBlob) := by
    unfold changed
    unfold changesOf at hc
    cases hm : decodeMeta X e.metaBlob with
    | none =>
        rw [hm] at hc
        exact absurd hc List.not_mem_nil
    | some m =>
        rw [hm] at hc
        exact List.mem_map_of_mem hc
  exact touches_of_changed hX hchanged

/-- Each change of each transaction is a row of its own. -/
theorem TransactionsOf.rows_nodup (hU : U.Sound X) (h : TransactionsOf X U iss txs) :
    ((txs.filter (fun e => e.ledgerIndex ≤ ledger)).flatMap (rowsOf X iss)).Nodup := by
  refine List.nodup_flatMap.mpr ⟨fun e he => ?_, (h.nodup.filter _).imp_of_mem ?_⟩
  · have hone := h.once e (List.mem_of_mem_filter he)
    refine List.Nodup.map_on (fun c hc c' hc' heq => ?_) (List.Nodup.of_map _ hone)
    have haccount : c.1 = c'.1 := congrArg BalanceDeltaRow.address heq
    exact List.inj_on_of_nodup_map hone hc hc' haccount
  · intro e e' he he' hne
    show List.Disjoint _ _
    intro r hr hr'
    obtain ⟨c, -, rfl⟩ := List.mem_map.mp hr
    obtain ⟨c', -, heq⟩ := List.mem_map.mp hr'
    have hhas := ((h.all e).mp (List.mem_of_mem_filter he)).1
    have hhas' := ((h.all e').mp (List.mem_of_mem_filter he')).1
    exact hne (hU.hash hhas hhas' (congrArg BalanceDeltaRow.hash heq).symm)

/-- **THE STORED DELTAS UP TO A LEDGER** are the rows of the transactions up to it, where
    the archive is genuine and complete that far. -/
theorem deltasUpTo_perm (hX : SpellsParties X) (hU : U.Sound X) (hdb : Genuine X U db)
    (htxs : TransactionsOf X U iss txs) (hiss : iss ∈ registered db)
    (hcomplete : ∀ e ∈ txs, e.ledgerIndex ≤ ledger → StoredFor X db iss e) :
    (deltasUpTo db iss.id ledger).Perm
      ((txs.filter (fun e => e.ledgerIndex ≤ ledger)).flatMap (rowsOf X iss)) := by
  have hrows : (deltasUpTo db iss.id ledger).Nodup :=
    (List.Nodup.of_map _ db.balanceDeltas.nodup).filter _
  refine (List.perm_ext_iff_of_nodup hrows (htxs.rows_nodup hU)).mpr fun r => ?_
  unfold deltasUpTo
  rw [List.mem_filter, decide_eq_true_eq, Table.mem_rows, List.mem_flatMap]
  constructor
  · rintro ⟨hr, hid, t, ht, hhash, hle⟩
    obtain ⟨j, hj, e, he, hof⟩ := hdb.deltas r hr
    have hjid : j.id = iss.id := by
      obtain ⟨m, -, i, hi, c, -, rfl⟩ := (mem_entryDeltas X).mp hof
      cases List.mem_singleton.mp hi
      exact hid
    cases registered_eq hj hiss hjid
    have hin := mem_rowsOf.mpr hof
    obtain ⟨c, -, rfl⟩ := List.mem_map.mp hin
    have hledger := hdb.ledger t ht e he hhash
    refine ⟨e, List.mem_filter.mpr ⟨(htxs.all e).mpr ⟨he, ?_⟩, ?_⟩, hin⟩
    · exact touches_of_mem_rowsOf hX hin
    · exact decide_eq_true (hledger ▸ hle)
  · rintro ⟨e, he, hin⟩
    obtain ⟨he, hle⟩ := List.mem_filter.mp he
    have hle : e.ledgerIndex ≤ ledger := of_decide_eq_true hle
    obtain ⟨hstored, hdeltas⟩ := hcomplete e he hle
    have hr := hdeltas r (mem_rowsOf.mp hin)
    obtain ⟨t, ht, hhash⟩ := hstored
    obtain ⟨c, -, rfl⟩ := List.mem_map.mp hin
    refine ⟨hr, rfl, t, ht, hhash, ?_⟩
    rw [hdb.ledger t ht e ((htxs.all e).mp he).1 hhash]
    exact hle

/-- So the accounts' deltas add up to what they hold. -/
theorem sum_deltasUpTo (hX : SpellsParties X) (hU : U.Sound X) (hdb : Genuine X U db)
    (htxs : TransactionsOf X U iss txs) (hiss : iss ∈ registered db)
    (hcomplete : ∀ e ∈ txs, e.ledgerIndex ≤ ledger → StoredFor X db iss e)
    (p : String → Prop) [DecidablePred p] :
    (((deltasUpTo db iss.id ledger).filter (fun r => p r.address)).map (·.delta)).sum
      = held X iss txs p ledger := by
  have hperm := deltasUpTo_perm hX hU hdb htxs hiss hcomplete
  rw [((hperm.filter _).map _).sum_eq, sum_filter_flatMap]
  unfold held
  refine congrArg List.sum (List.map_congr_left fun e _ => ?_)
  unfold rowsOf gained
  rw [List.filter_map, List.map_map]
  rfl

end Held

/-! ## Reported balances -/

/-- **BALANCES OF THE LEDGER**: in every run of a server, across restarts, what
    `archive_balance_at` and `gateway_balances` report of a swept issuance at a ledger up to
    which all is passed is what is held on the ledger then. -/
theorem reported_balances_of_the_ledger (X : Xrpl) (U : Upstream) (hX : SpellsParties X)
    (hU : U.Sound X) {s₀ s : Station} (hstart : Fresh s₀) (hgenuine : Genuine X U s₀.tail.db)
    (hrun : Steps (step X U)
      (fun s a => (Assumed X U (StoredFor X) s a ∧ Anchored s a) ∧ Answered X a) s₀ s)
    {f : RegistrarScans.Finished} (hf : f ∈ s.finished) (hkind : f.kind = .issuer)
    {txs : List BinaryTxEntry} (htxs : TransactionsOf X U f.issuance txs)
    (hfrom : ∀ e ∈ txs, f.fromLedger ≤ e.ledgerIndex) {ledger : ℕ}
    (hpassed : ∀ m ≤ ledger, f.fromLedger ≤ m → Passed s f m) :
    (∀ resolveTime req answer row, handleBalanceAt s.tail.db resolveTime req = .ok answer →
      resolveIssuance s.tail.db req = some row → row.id = f.issuance.id →
      answer.ledgerIndex = ledger →
      answer.balance = held X f.issuance txs (· = answer.account) ledger)
    ∧ ∀ req answer hotwallets row, handleGatewayBalances s.tail.db req = .ok answer →
      req.hotwallet = some hotwallets → row ∈ gatewayIssuances s.tail.db answer.account →
      (∀ i ∈ gatewayIssuances s.tail.db answer.account,
        currencyToWire (i.currency.getD "") = currencyToWire (row.currency.getD "") →
        i = row) →
      row.id = f.issuance.id → answer.ledgerIndex = ledger →
      answer.reported (currencyToWire (row.currency.getD ""))
        = held X f.issuance txs (fun a => a ≠ answer.account ∧ a ∉ hotwallets) ledger := by
  have hI : Inv X U (StoredFor X) s ∧ Clean X U s := by
    refine hrun.inv (fun s => Inv X U (StoredFor X) s ∧ Clean X U s) ⟨hstart.inv, hgenuine, ?_⟩ ?_
    · intro ev hev
      rw [hstart.tail.queue] at hev
      exact absurd hev List.not_mem_nil
    · rintro s a s' ⟨hI, hclean⟩ ⟨⟨hassumed, hanchored⟩, hanswered⟩ hs
      exact ⟨hI.step hU (lasting_storedFor X U) hassumed hanchored hs,
        hclean.step hU hI hanswered hs⟩
  obtain ⟨hI, hclean⟩ := hI
  have hcomplete : ∀ e ∈ txs, e.ledgerIndex ≤ ledger → StoredFor X s.tail.db f.issuance e := by
    intro e he hle
    obtain ⟨hhas, htouch⟩ := (htxs.all e).mp he
    exact hI.passed hU (lasting_storedFor X U) hf hkind hhas htouch (hfrom e he)
      (hpassed e.ledgerIndex hle (hfrom e he))
  have hsum := fun (p : String → Prop) [DecidablePred p] =>
    sum_deltasUpTo hX hU hclean.db htxs (hI.site.finished f hf).registered hcomplete p
  refine ⟨?_, ?_⟩
  · intro resolveTime req answer row hanswer hrow hid hledger
    obtain ⟨row', hrow', -, hbalance, -⟩ := handleBalanceAt_ok hanswer
    cases Option.some.inj (hrow.symm.trans hrow')
    rw [hbalance, hid, hledger, balanceAt]
    exact hsum (· = answer.account)
  · intro req answer hotwallets row hanswer hhot hrow hunique hid hledger
    obtain ⟨hotwallets', hhot', hreported⟩ :=
      handleGatewayBalances_reported hanswer hrow hunique
    cases Option.some.inj (hhot.symm.trans hhot')
    rw [hreported, obligation_eq, hid, hledger]
    exact hsum (fun a => a ≠ answer.account ∧ a ∉ hotwallets)

/-! ## A payment that is streamed -/

theorem payTransactions :
    TransactionsOf payXrpl payUpstream payIssuance [mintEntry, payEntry] where
  nodup := by decide
  all := by
    intro e
    constructor
    · intro he
      refine ⟨⟨"rIssuer", he⟩, ?_⟩
      rcases List.mem_pair.mp he with rfl | rfl <;> decide +kernel
    · rintro ⟨he, -⟩
      rcases payUpstream_has he with rfl | rfl <;> decide
  once := by decide +kernel

theorem payStation_genuine : Genuine payXrpl payUpstream payStation.tail.db where
  ledger := by
    intro t ht
    exact absurd ht (Table.not_mem_empty t)
  deltas := by
    intro r hr
    exact absurd hr (Table.not_mem_empty r)

def payMessage : StreamMessage := ⟨"t2", payXrpl.decodeMeta "pay", some 201⟩

/-- The sweep ends at the mint and the tail takes its ledger; the payment is streamed
    before its own, and the process ends. -/
def streamedRun : List Action :=
  sweepBegins.map .site ++
    [.site (.read (Scan.begin .issuer payIssuance payJob) []
      ⟨[mintEntry], none, ⟨"clio", "now"⟩⟩ 200),
    .tail (.ledgerClosed 200 (some 0)), .message "rAlice" payEntry payMessage, .tail .consume,
    .tail .observe,
    .tail (.fetched ⟨payEntry, payMessage, ["rAlice", "rIssuer", "rBob"]⟩
      ⟨some "t2", some "pay", some 201, ⟨"rippled", "later"⟩⟩),
    .tail (.ledgerClosed 201 (some 9)), .tail .consume, .tail .consume, .tail .observe, .restart]

/-- Both transactions are in the balance of `rAlice`. -/
theorem reported_balances_of_the_ledger_pay : ∃ (s : Station) (answer : BalanceAtAnswer),
    handleBalanceAt s.tail.db (fun _ => none) (balanceOf "rAlice") = .ok answer
      ∧ s.starts.length = 1 ∧ answer.balance
        = held payXrpl payIssuance [mintEntry, payEntry] (· = answer.account) 201 := by
  have hrun : (runChecked (step payXrpl payUpstream) (fun s a =>
      (Assumed payXrpl payUpstream (StoredFor payXrpl) s a ∧ Anchored s a) ∧ Answered payXrpl a)
      payStation streamedRun).map (fun s => decide (
        (handleBalanceAt s.tail.db (fun _ => none) (balanceOf "rAlice")).toOption
            = some ⟨"rAlice", 201, 3, some ⟨200, 200⟩⟩
          ∧ resolveIssuance s.tail.db (balanceOf "rAlice") = some payRow ∧ s.starts.length = 1
          ∧ ∃ f ∈ s.finished, f.kind = .issuer ∧ f.issuance = payIssuance ∧ f.fromLedger = 0
            ∧ ∀ m ≤ 201, Passed s f m)) = some true := by
    decide +kernel
  obtain ⟨s, hsteps, hend⟩ := Steps.exists_of_runChecked _ hrun
  obtain ⟨hanswer, hresolve, hstarts, f, hf, hkind, hissuance, hfrom, hpassed⟩ :=
    of_decide_eq_true hend
  have hok := toOption_some.mp hanswer
  have htxs : TransactionsOf payXrpl payUpstream f.issuance [mintEntry, payEntry] := by
    rw [hissuance]
    exact payTransactions
  have hbalance := (reported_balances_of_the_ledger payXrpl payUpstream payXrpl_spells
    payUpstream_sound payStation_fresh payStation_genuine hsteps hf hkind htxs
    (fun e _ => hfrom ▸ Nat.zero_le _) (fun m hm _ => hpassed m hm)).1
    (fun _ => none) (balanceOf "rAlice") _ payRow hok hresolve (by rw [hissuance]; rfl) rfl
  rw [hissuance] at hbalance
  exact ⟨s, _, hok, hstarts, hbalance⟩

end RegistrarTrueBalances
