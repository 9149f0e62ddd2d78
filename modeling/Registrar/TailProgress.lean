import Registrar.Discovery

/-! # The tail's progress

    The source queues a ledger event as it arrives, a transaction event only after its
    `tx` request; the tail consumes the queue.  A recorded ledger is not ahead of the
    transactions delivered for it where each of them is queued before the ledger, or
    lies in a gap that is reported. -/

namespace RegistrarProgress

open KeyedTable Runs Statements RegistrarMetadata RegistrarArchive RegistrarIngest
open RegistrarBackfill RegistrarReads RegistrarTail RegistrarWritten RegistrarPages
open RegistrarDiscovery (registered create)
open RegistrarLinks (payXrpl payIssuance payArchive mintEntry payEntry issuerPage)

/-! ## The source and the tail -/

/-- A validated message in scope, its `tx` request under way; `entry` is the
    transaction it is about. -/
structure Fetch where
  entry : BinaryTxEntry
  msg : StreamMessage
  touched : List String
  deriving DecidableEq

/-- Where the loop of `run` stands: it awaits an event, has handled the close time of a
    ledger, awaits a heal, or has thrown. -/
inductive Phase
  | idle
  | observing (ledgerIndex : ℕ)
  | healing (range : LedgerRange)
  | stopped
  deriving DecidableEq

/-- A ledger recorded by the tail, and how many gaps were reported by then. -/
structure Recorded where
  ledger : ℕ
  reports : ℕ
  deriving DecidableEq

/-- One process's queue, requests and gap tracker.  `delivered` are the transactions in
    scope the stream brought, `recorded` the ledgers the tail recorded and `reports` the
    gaps it reported, over all processes. -/
structure Tail where
  db : Archive
  tracked : List TrackedIssuance := []
  gaps : GapTracker := ⟨none⟩
  queue : List TailEvent := []
  fetching : List Fetch := []
  phase : Phase := .idle
  delivered : List BinaryTxEntry := []
  recorded : List Recorded := []
  reports : List LedgerRange := []

inductive Action
  | ledgerClosed (ledgerIndex : ℕ) (closeTime : Option ℕ)
  | transaction (e : BinaryTxEntry) (msg : StreamMessage)
  | fetched (f : Fetch) (res : TxResult)
  | fetchFailed (f : Fetch)
  | consume
  | observe
  | healed
  | healFailed
  -- a page of the heal, or of another writer
  | write (p : Page)
  -- a close time looked up for a query
  | lookUp (row : LedgerRow)
  | register (row : IssuanceRow)
  | refreshTracked
  -- a crash, and the start of the next process
  | restart

/-- The tail takes the first event of the queue. -/
def consumeEvent (X : Xrpl) (s : Tail) : TailEvent → Tail
  | .ledger ledgerIndex closeTime =>
      { s with
        db := recordEvent ledgerIndex closeTime s.db
        recorded := s.recorded ++ closeTime.toList.map fun _ => ⟨ledgerIndex, s.reports.length⟩
        phase := .observing ledgerIndex }
  | .transaction ev =>
      match ingestEvent X s.tracked ev s.db with
      | .ok db => { s with db }
      | .error _ => { s with phase := .stopped }

/-- Taking an event shows nothing to the tracker, brings nothing and tracks nothing. -/
theorem consumeEvent_same (X : Xrpl) (s : Tail) (item : TailEvent) :
    (consumeEvent X s item).gaps = s.gaps ∧ (consumeEvent X s item).reports = s.reports
      ∧ (consumeEvent X s item).delivered = s.delivered
      ∧ (consumeEvent X s item).tracked = s.tracked := by
  cases item with
  | ledger n closeTime => exact ⟨rfl, rfl, rfl, rfl⟩
  | transaction ev =>
      cases hingest : ingestEvent X s.tracked ev s.db with
      | ok db =>
          simp only [consumeEvent, hingest]
          exact ⟨trivial, trivial, trivial, trivial⟩
      | error err =>
          simp only [consumeEvent, hingest]
          exact ⟨trivial, trivial, trivial, trivial⟩

/-- The phase after a ledger is shown to the tracker. -/
def phaseAfter : Option LedgerRange → Phase
  | none => .idle
  | some gap => .healing gap

def step (X : Xrpl) (s : Tail) : Action → Option Tail
  | .ledgerClosed ledgerIndex closeTime =>
      some { s with queue := s.queue ++ [.ledger ledgerIndex closeTime] }
  | .transaction e msg =>
      (issuanceScope X s.tracked msg.metadata).bind fun touched =>
        if touched = [] then none
        else some { s with
          delivered := s.delivered ++ [e]
          fetching := s.fetching ++ [⟨e, msg, touched⟩] }
  | .fetched f res =>
      let event := transactionEvent X f.msg.hash f.touched f.msg.ledgerIndex res
      if f ∈ s.fetching ∧ ∀ ev ∈ event, IsEventOf X f.entry ev then
        some { s with
          fetching := s.fetching.erase f
          queue := s.queue ++ event.toList.map .transaction }
      else none
  | .fetchFailed f =>
      if f ∈ s.fetching then some { s with fetching := s.fetching.erase f } else none
  | .consume =>
      match s.phase, s.queue with
      | .idle, ev :: queue => some (consumeEvent X { s with queue } ev)
      | _, _ => none
  | .observe =>
      match s.phase with
      | .observing ledgerIndex =>
          let (gap, gaps) := s.gaps.observe ledgerIndex
          some { s with gaps, reports := s.reports ++ gap.toList, phase := phaseAfter gap }
      | _ => none
  | .healed =>
      match s.phase with
      | .healing _ => some { s with phase := .idle }
      | _ => none
  | .healFailed =>
      match s.phase with
      | .healing _ => some { s with phase := .stopped }
      | _ => none
  | .write p => (p.write X s.db).map fun db => { s with db }
  | .lookUp row => some { s with db := recordLedger row s.db }
  | .register row => some { s with db := create row s.db }
  | .refreshTracked => some { s with tracked := registered s.db }
  | .restart =>
      some { s with
        tracked := registered s.db
        gaps := ⟨highWater s.db⟩
        queue := []
        fetching := []
        phase := .idle }

/-! ## Reports to come -/

/-- The ledgers of the queue. -/
def ledgersOf (queue : List TailEvent) : List ℕ :=
  queue.filterMap fun
    | .ledger ledgerIndex _ => some ledgerIndex
    | .transaction _ => none

/-- The gap that the ledger being observed is about to reveal. -/
def Tail.toReport (s : Tail) : List LedgerRange :=
  match s.phase with
  | .observing ledgerIndex => (s.gaps.observe ledgerIndex).1.toList
  | _ => []

/-- The gap reports after a ledger was recorded, the one about to be made included. -/
def Tail.reportsAfter (s : Tail) (w : Recorded) : List LedgerRange :=
  s.reports.drop w.reports ++ s.toReport

/-- The gap being healed. -/
def Tail.healing (s : Tail) : List LedgerRange :=
  match s.phase with
  | .healing gap => [gap]
  | _ => []

/-- The tracker once the ledger being observed is shown to it. -/
def Tail.tracker (s : Tail) : GapTracker :=
  match s.phase with
  | .observing ledgerIndex => (s.gaps.observe ledgerIndex).2
  | _ => s.gaps

/-- The gaps being reported or healed and those the queue is about to reveal. -/
def Tail.awaited (s : Tail) : List LedgerRange :=
  s.toReport ++ s.healing ++ (s.tracker.observeAll (ledgersOf s.queue)).1

/-- The ledger lies in one of the ranges. -/
def InRanges (ranges : List LedgerRange) (ledger : ℕ) : Prop := ∃ r ∈ ranges, r.Covers ledger

instance (ranges : List LedgerRange) (ledger : ℕ) : Decidable (InRanges ranges ledger) :=
  inferInstanceAs (Decidable (∃ r ∈ ranges, _))

/-- The queued event is that of the transaction. -/
def Carries (X : Xrpl) (e : BinaryTxEntry) : TailEvent → Prop
  | .ledger _ _ => False
  | .transaction ev => IsEventOf X e ev

instance (X : Xrpl) (e : BinaryTxEntry) : (item : TailEvent) → Decidable (Carries X e item)
  | .ledger _ _ => inferInstanceAs (Decidable False)
  | .transaction ev => inferInstanceAs (Decidable (IsEventOf X e ev))

/-- A ledger event that will be recorded reaches the ledger. -/
def Reaches (ledger : ℕ) : TailEvent → Prop
  | .ledger n closeTime => closeTime ≠ none ∧ ledger ≤ n
  | .transaction _ => False

instance (ledger : ℕ) : (item : TailEvent) → Decidable (Reaches ledger item)
  | .ledger _ _ => inferInstanceAs (Decidable (_ ∧ _))
  | .transaction _ => inferInstanceAs (Decidable False)

/-- The order of events in which no ledger runs ahead of its transactions. -/
def InOrder (X : Xrpl) (s : Tail) : Action → Prop
  -- each transaction delivered for the ledgers up to it is stored or queued, or in a gap
  | .ledgerClosed ledgerIndex closeTime =>
      s.phase = .stopped ∨ closeTime = none ∨
        ∀ e ∈ s.delivered, e.ledgerIndex ≤ ledgerIndex →
          Stored X s.db e ∨ (∃ item ∈ s.queue, Carries X e item)
            ∨ InRanges (Tail.awaited { s with
                queue := s.queue ++ [TailEvent.ledger ledgerIndex closeTime] }) e.ledgerIndex
  -- no ledger recorded or queued reaches it
  | .transaction e _ =>
      e ∈ s.delivered ∨ Stored X s.db e ∨ InRanges s.awaited e.ledgerIndex
        ∨ ((∀ w ∈ s.recorded, w.ledger < e.ledgerIndex)
          ∧ (s.phase = .stopped ∨ ∀ item ∈ s.queue, ¬ Reaches e.ledgerIndex item))
  -- a heal that returns has stored what was delivered of its range
  | .healed => ∀ e ∈ s.delivered, InRanges s.healing e.ledgerIndex → Stored X s.db e
  -- no process ends between recording a ledger and reporting the gap it reveals
  | .restart => ∀ e ∈ s.delivered, InRanges s.toReport e.ledgerIndex → Stored X s.db e
  | _ => True

instance (X : Xrpl) (s : Tail) (a : Action) : Decidable (InOrder X s a) := by
  unfold InOrder
  cases a <;> exact inferInstance

/-! ## The gap tracker and the queue -/

/-- Showing a ledger leaves the tracker at it or above. -/
theorem le_observe_last (g : GapTracker) (n : ℕ) :
    ∃ last, (g.observe n).2.last = some last ∧ n ≤ last
      ∧ ∀ l, g.last = some l → l ≤ last := by
  obtain ⟨_ | last⟩ := g
  · exact ⟨n, rfl, le_rfl, nofun⟩
  · refine ⟨max last n, ?_, le_max_right last n, ?_⟩
    · rw [GapTracker.observe_last]
    · intro l hl
      cases hl
      exact le_max_left last n

/-- A gap lies above the tracker and below the ledger that reveals it. -/
theorem observe_gap {g : GapTracker} {n m : ℕ} (h : InRanges (g.observe n).1.toList m) :
    0 < m ∧ m < n ∧ ∀ l, g.last = some l → l < m := by
  obtain ⟨r, hr, hcovers⟩ := h
  obtain ⟨_ | last⟩ := g
  · exact absurd hr List.not_mem_nil
  · rcases GapTracker.observe_cases last n with ⟨-, ho⟩ | ⟨-, ho⟩ | ⟨-, ho⟩
    · rw [ho] at hr
      exact absurd hr List.not_mem_nil
    · rw [ho] at hr
      exact absurd hr List.not_mem_nil
    · rw [ho] at hr
      cases List.mem_singleton.mp hr
      obtain ⟨hfrom, hto⟩ : last + 1 ≤ m ∧ m ≤ n - 1 := hcovers
      refine ⟨by omega, by omega, fun l hl => ?_⟩
      cases hl
      omega

/-- The gaps a list of ledgers reveals lie above the tracker. -/
theorem observeAll_gap {g : GapTracker} {ns : List ℕ} {m : ℕ}
    (h : InRanges (g.observeAll ns).1 m) : 0 < m ∧ ∀ l, g.last = some l → l < m := by
  induction ns generalizing g with
  | nil =>
      obtain ⟨r, hr, -⟩ := h
      exact absurd hr List.not_mem_nil
  | cons n ns ih =>
      obtain ⟨r, hr, hcovers⟩ := h
      have hsplit : (g.observeAll (n :: ns)).1
          = (g.observe n).1.toList ++ ((g.observe n).2.observeAll ns).1 := rfl
      rw [hsplit] at hr
      rcases List.mem_append.mp hr with hr | hr
      · obtain ⟨hpos, -, hlast⟩ := observe_gap ⟨r, hr, hcovers⟩
        exact ⟨hpos, hlast⟩
      · obtain ⟨hpos, hlast⟩ := ih ⟨r, hr, hcovers⟩
        obtain ⟨last, hobs, -, hge⟩ := le_observe_last g n
        exact ⟨hpos, fun l hl => (hge l hl).trans_lt (hlast last hobs)⟩

/-- The queue brings the transaction before each ledger that reaches it, or the ledger
    reveals a gap around it. -/
def InTime (X : Xrpl) (e : BinaryTxEntry) : GapTracker → List TailEvent → Prop
  | _, [] => True
  | g, .ledger n closeTime :: queue =>
      InRanges (g.observe n).1.toList e.ledgerIndex
        ∨ (¬ Reaches e.ledgerIndex (.ledger n closeTime) ∧ InTime X e (g.observe n).2 queue)
  | g, .transaction ev :: queue => IsEventOf X e ev ∨ InTime X e g queue

/-- Queueing a transaction. -/
theorem InTime.push_transaction {X : Xrpl} {e : BinaryTxEntry} {ev : TransactionEvent}
    {g : GapTracker} {queue : List TailEvent} (h : InTime X e g queue) :
    InTime X e g (queue ++ [.transaction ev]) := by
  induction queue generalizing g with
  | nil => exact Or.inr trivial
  | cons item queue ih =>
      cases item with
      | ledger n closeTime => exact h.imp id (fun h => ⟨h.1, ih h.2⟩)
      | transaction ev' => exact h.imp id ih

/-- Queueing a ledger: it reveals a gap around the transaction, or the transaction is
    queued, unless it does not reach it. -/
theorem InTime.push_ledger {X : Xrpl} {e : BinaryTxEntry} {n : ℕ} {closeTime : Option ℕ}
    {g : GapTracker} {queue : List TailEvent} (h : InTime X e g queue)
    (hnew : Reaches e.ledgerIndex (.ledger n closeTime) → (∃ item ∈ queue, Carries X e item)
      ∨ InRanges (g.observeAll (ledgersOf (queue ++ [.ledger n closeTime]))).1 e.ledgerIndex) :
    InTime X e g (queue ++ [.ledger n closeTime]) := by
  induction queue generalizing g with
  | nil =>
      by_cases hreach : Reaches e.ledgerIndex (.ledger n closeTime)
      · rcases hnew hreach with ⟨item, hitem, -⟩ | hgap
        · exact absurd hitem List.not_mem_nil
        · refine Or.inl ?_
          have hone : (g.observeAll (ledgersOf ([] ++ [.ledger n closeTime]))).1
              = (g.observe n).1.toList ++ [] := rfl
          rw [hone, List.append_nil] at hgap
          exact hgap
      · exact Or.inr ⟨hreach, trivial⟩
  | cons item queue ih =>
      cases item with
      | ledger a c =>
          rcases h with hgap | ⟨hnot, h⟩
          · exact Or.inl hgap
          · by_cases hgap : InRanges (g.observe a).1.toList e.ledgerIndex
            · exact Or.inl hgap
            · refine Or.inr ⟨hnot, ih h fun hreach => ?_⟩
              rcases hnew hreach with ⟨item, hitem, hcarries⟩ | ⟨r, hr, hcovers⟩
              · rcases List.mem_cons.mp hitem with rfl | hitem
                · exact absurd hcarries id
                · exact Or.inl ⟨item, hitem, hcarries⟩
              · rcases List.mem_append.mp hr with hr | hr
                · exact absurd ⟨r, hr, hcovers⟩ hgap
                · exact Or.inr ⟨r, hr, hcovers⟩
      | transaction ev =>
          rcases h with hev | h
          · exact Or.inl hev
          · by_cases hev : IsEventOf X e ev
            · exact Or.inl hev
            · refine Or.inr (ih h fun hreach => ?_)
              rcases hnew hreach with ⟨item, hitem, hcarries⟩ | hgap
              · rcases List.mem_cons.mp hitem with rfl | hitem
                · exact absurd hcarries hev
                · exact Or.inl ⟨item, hitem, hcarries⟩
              · exact Or.inr hgap

/-- A transaction that no queued ledger reaches is in time. -/
theorem InTime.of_not_reached {X : Xrpl} {e : BinaryTxEntry} {g : GapTracker}
    {queue : List TailEvent} (h : ∀ item ∈ queue, ¬ Reaches e.ledgerIndex item) :
    InTime X e g queue := by
  induction queue generalizing g with
  | nil => exact trivial
  | cons item queue ih =>
      have hrest : ∀ g, InTime X e g queue :=
        fun g => @ih g fun x hx => h x (List.mem_cons_of_mem item hx)
      cases item with
      | ledger n closeTime => exact Or.inr ⟨h _ List.mem_cons_self, hrest _⟩
      | transaction ev => exact Or.inr (hrest g)

/-- One in a gap the queue is about to reveal is in time. -/
theorem InTime.of_gap {X : Xrpl} {e : BinaryTxEntry} {g : GapTracker}
    {queue : List TailEvent} (h : InRanges (g.observeAll (ledgersOf queue)).1 e.ledgerIndex) :
    InTime X e g queue := by
  induction queue generalizing g with
  | nil => exact trivial
  | cons item queue ih =>
      cases item with
      | ledger n closeTime =>
          obtain ⟨r, hr, hcovers⟩ := h
          rcases List.mem_append.mp hr with hr | hr
          · exact Or.inl ⟨r, hr, hcovers⟩
          · -- the tracker passes the ledger before it reveals the gap
            obtain ⟨last, hobs, hle, -⟩ := le_observe_last g n
            have hlast : last < e.ledgerIndex := (observeAll_gap ⟨r, hr, hcovers⟩).2 last hobs
            refine Or.inr ⟨fun hreach => ?_, ih ⟨r, hr, hcovers⟩⟩
            exact absurd (hle.trans_lt hlast) (not_lt.mpr hreach.2)
      | transaction ev => exact Or.inr (ih h)

/-! ## The invariant -/

/-- The transaction lies in the gap being reported or healed, or the queue brings it in
    time. -/
def Upcoming (X : Xrpl) (s : Tail) (e : BinaryTxEntry) : Prop :=
  s.phase = .stopped ∨ InRanges (s.toReport ++ s.healing) e.ledgerIndex
    ∨ InTime X e s.tracker s.queue

/-- Each recorded ledger that reaches the transaction is followed by a report of it. -/
def Reported (s : Tail) (e : BinaryTxEntry) : Prop :=
  ∀ w ∈ s.recorded, e.ledgerIndex ≤ w.ledger → InRanges (s.reportsAfter w) e.ledgerIndex

/-- The transaction is stored, or each recorded ledger that reaches it is followed by a
    report of it and the queue will bring it in time. -/
def Kept (X : Xrpl) (s : Tail) (e : BinaryTxEntry) : Prop :=
  Stored X s.db e ∨ (Reported s e ∧ Upcoming X s e)

/-- The tail has shown each recorded ledger to the tracker, or is about to. -/
def Shown (s : Tail) (w : Recorded) : Prop :=
  w.ledger = 0 ∨ (∃ last, s.gaps.last = some last ∧ w.ledger ≤ last)
    ∨ s.phase = .observing w.ledger

structure Inv (X : Xrpl) (s : Tail) : Prop where
  kept : ∀ e ∈ s.delivered, Kept X s e
  shown : ∀ w ∈ s.recorded, Shown s w
  rows : ∀ w ∈ s.recorded, s.db.ledgers.HasKey w.ledger
  counted : ∀ w ∈ s.recorded, w.reports ≤ s.reports.length
  reporting : ∀ w ∈ s.recorded, ∀ gap ∈ s.healing, gap ∈ s.reports.drop w.reports

/-- A statement that keeps transactions and ledgers. -/
structure Grows (db db' : Archive) : Prop where
  transactions : ∀ hash, db.transactions.HasKey hash → db'.transactions.HasKey hash
  ledgers : ∀ n, db.ledgers.HasKey n → db'.ledgers.HasKey n

theorem Grows.stored {X : Xrpl} {db db' : Archive} (h : Grows db db') {e : BinaryTxEntry}
    (hst : Stored X db e) : Stored X db' e := h.transactions _ hst

theorem grows_recordLedger (row : LedgerRow) (db : Archive) : Grows db (recordLedger row db) :=
  ⟨fun _ h => h, fun _ h => Table.hasKey_insertIgnore.mpr (Or.inl h)⟩

theorem grows_write {X : Xrpl} {p : Page} {db db' : Archive} (h : p.write X db = some db') :
    Grows db db' := by
  obtain ⟨_, -, hingests⟩ := p.write_ingests h
  refine ⟨fun hash hk => ?_, fun n hn => (Page.write_coverage h).2.symm ▸ hn⟩
  obtain ⟨t, ht, hkey⟩ := hk
  exact ⟨t, hingests.kept t ht, hkey⟩

theorem grows_ingestEvent {X : Xrpl} {tracked : List TrackedIssuance} {ev : TransactionEvent}
    {db db' : Archive} (h : ingestEvent X tracked ev db = .ok db') : Grows db db' := by
  have hingests := ingests_ingestEvent h
  have hledgers : db'.ledgers = db.ledgers :=
    congrArg Untouched.ledgers (beside_ingestEvent h).untouched
  refine ⟨fun hash hk => ?_, fun n hn => hledgers.symm ▸ hn⟩
  obtain ⟨t, ht, hkey⟩ := hk
  exact ⟨t, hingests.kept t ht, hkey⟩

/-- Where only the archive grows, everything is kept. -/
theorem Inv.grow {X : Xrpl} {s : Tail} (hI : Inv X s) {db : Archive} (h : Grows s.db db) :
    Inv X { s with db } where
  kept := fun e he => (hI.kept e he).imp h.stored id
  shown := hI.shown
  rows := fun w hw => h.ledgers _ (hI.rows w hw)
  counted := hI.counted
  reporting := hI.reporting

/-- The tracker has passed every recorded ledger. -/
theorem Shown.lt {s : Tail} {w : Recorded} (h : Shown s w) {m : ℕ} (hpos : 0 < m)
    (hlast : ∀ l, s.tracker.last = some l → l < m) : w.ledger < m := by
  rcases h with hzero | ⟨last, hgaps, hle⟩ | hphase
  · omega
  · refine hle.trans_lt ?_
    cases hphase : s.phase with
    | observing n =>
        obtain ⟨last', hobs, -, hge⟩ := le_observe_last s.gaps n
        have htracker : s.tracker = (s.gaps.observe n).2 := by
          unfold Tail.tracker
          rw [hphase]
        exact (hge last hgaps).trans_lt (hlast last' (htracker ▸ hobs))
    | _ =>
        have htracker : s.tracker = s.gaps := by
          unfold Tail.tracker
          rw [hphase]
        exact hlast last (htracker ▸ hgaps)
  · obtain ⟨last, hobs, hle, -⟩ := le_observe_last s.gaps w.ledger
    have htracker : s.tracker = (s.gaps.observe w.ledger).2 := by
      unfold Tail.tracker
      rw [hphase]
    exact hle.trans_lt (hlast last (htracker ▸ hobs))

/-- A transaction in a gap that is awaited is kept. -/
theorem kept_of_awaited {X : Xrpl} {s : Tail} (hI : Inv X s) {e : BinaryTxEntry}
    (h : InRanges s.awaited e.ledgerIndex) : Reported s e ∧ Upcoming X s e := by
  obtain ⟨r, hr, hcovers⟩ := h
  rcases List.mem_append.mp hr with hnow | hlater
  · refine ⟨fun w hw _ => ⟨r, ?_, hcovers⟩, Or.inr (Or.inl ⟨r, hnow, hcovers⟩)⟩
    rcases List.mem_append.mp hnow with hreport | hhealing
    · exact List.mem_append_right _ hreport
    · exact List.mem_append_left _ (hI.reporting w hw r hhealing)
  · obtain ⟨hpos, hlast⟩ := observeAll_gap ⟨r, hlater, hcovers⟩
    refine ⟨fun w hw hle => ?_, Or.inr (Or.inr (InTime.of_gap ⟨r, hlater, hcovers⟩))⟩
    exact absurd ((hI.shown w hw).lt hpos hlast) (not_lt.mpr hle)

/-! ## Every step -/

/-- A ledger closes. -/
theorem Inv.ledgerClosed {X : Xrpl} {s : Tail} (hI : Inv X s) {n : ℕ} {closeTime : Option ℕ}
    (hok : InOrder X s (.ledgerClosed n closeTime)) :
    Inv X { s with queue := s.queue ++ [.ledger n closeTime] } := by
  refine ⟨fun e he => ?_, hI.shown, hI.rows, hI.counted, hI.reporting⟩
  by_cases hst : Stored X s.db e
  · exact Or.inl hst
  obtain ⟨hreported, hupcoming⟩ := (hI.kept e he).resolve_left hst
  refine Or.inr ⟨hreported, ?_⟩
  rcases hupcoming with hstopped | hnow | hintime
  · exact Or.inl hstopped
  · exact Or.inr (Or.inl hnow)
  by_cases hnow : InRanges (s.toReport ++ s.healing) e.ledgerIndex
  · exact Or.inr (Or.inl hnow)
  rcases hok with hstopped | hnone | hdelivered
  · exact Or.inl hstopped
  · refine Or.inr (Or.inr (hintime.push_ledger fun hreach => absurd hnone hreach.1))
  · refine Or.inr (Or.inr (hintime.push_ledger fun hreach => ?_))
    rcases hdelivered e he hreach.2 with hst' | hqueued | ⟨r, hr, hcovers⟩
    · exact absurd hst' hst
    · exact Or.inl hqueued
    · rcases List.mem_append.mp hr with hr | hr
      · exact absurd ⟨r, hr, hcovers⟩ hnow
      · exact Or.inr ⟨r, hr, hcovers⟩

/-- A message in scope arrives. -/
theorem Inv.transaction {X : Xrpl} {s : Tail} (hI : Inv X s) {e : BinaryTxEntry}
    {msg : StreamMessage} (hok : InOrder X s (.transaction e msg)) (f : Fetch) :
    Inv X { s with delivered := s.delivered ++ [e], fetching := s.fetching ++ [f] } := by
  refine ⟨fun x hx => ?_, hI.shown, hI.rows, hI.counted, hI.reporting⟩
  have hkept : Kept X s x := by
    rcases List.mem_append.mp hx with hx | hx
    · exact hI.kept x hx
    · cases List.mem_singleton.mp hx
      rcases hok with he | hst | hgap | ⟨hrecorded, hqueue⟩
      · exact hI.kept e he
      · exact Or.inl hst
      · exact Or.inr (kept_of_awaited hI hgap)
      · refine Or.inr ⟨fun w hw hle => ?_, ?_⟩
        · exact absurd (hrecorded w hw) (not_lt.mpr hle)
        · rcases hqueue with hstopped | hqueue
          · exact Or.inl hstopped
          · exact Or.inr (Or.inr (InTime.of_not_reached hqueue))
  exact hkept

/-- A request ends. -/
theorem Inv.fetched {X : Xrpl} {s : Tail} (hI : Inv X s) (fetching : List Fetch)
    (event : Option TransactionEvent) :
    Inv X { s with fetching, queue := s.queue ++ event.toList.map .transaction } := by
  refine ⟨fun e he => ?_, hI.shown, hI.rows, hI.counted, hI.reporting⟩
  rcases hI.kept e he with hst | ⟨hreported, hupcoming⟩
  · exact Or.inl hst
  · refine Or.inr ⟨hreported, hupcoming.imp id (Or.imp id fun hintime => ?_)⟩
    cases event with
    | none =>
        show InTime X e s.tracker (s.queue ++ [])
        rw [List.append_nil]
        exact hintime
    | some ev => exact hintime.push_transaction

theorem not_inRanges_nil {m : ℕ} : ¬ InRanges [] m := by
  rintro ⟨r, hr, -⟩
  exact absurd hr List.not_mem_nil

/-- While the loop awaits an event, what is to come is in the queue. -/
theorem Upcoming.of_idle {X : Xrpl} {s : Tail} {e : BinaryTxEntry} (h : Upcoming X s e)
    (hphase : s.phase = .idle) : InTime X e s.gaps s.queue := by
  unfold Upcoming Tail.toReport Tail.healing Tail.tracker at h
  simp only [hphase] at h
  rcases h with hstopped | hnow | hintime
  · exact absurd hstopped (by decide)
  · exact absurd hnow not_inRanges_nil
  · exact hintime

/-- The ledgers a ledger event records. -/
theorem mem_recorded {recorded : List Recorded} {n reports : ℕ} {closeTime : Option ℕ}
    {w : Recorded} (hw : w ∈ recorded ++ closeTime.toList.map fun _ => ⟨n, reports⟩) :
    w ∈ recorded ∨ (closeTime ≠ none ∧ w = ⟨n, reports⟩) := by
  rcases List.mem_append.mp hw with hw | hw
  · exact Or.inl hw
  · obtain ⟨t, ht, rfl⟩ := List.mem_map.mp hw
    exact Or.inr ⟨Option.ne_none_iff_exists'.mpr ⟨t, Option.mem_toList.mp ht⟩, rfl⟩

theorem grows_recordEvent (n : ℕ) (closeTime : Option ℕ) (db : Archive) :
    Grows db (recordEvent n closeTime db) := by
  cases closeTime with
  | none => exact ⟨fun _ h => h, fun _ h => h⟩
  | some t => exact grows_recordLedger ⟨n, t⟩ db

/-- The tail takes a ledger. -/
theorem Inv.consume_ledger {X : Xrpl} {s : Tail} (hI : Inv X s) (hphase : s.phase = .idle)
    {n : ℕ} {closeTime : Option ℕ} {queue : List TailEvent}
    (hqueue : s.queue = .ledger n closeTime :: queue) :
    Inv X (consumeEvent X { s with queue } (.ledger n closeTime)) := by
  have hgrows := grows_recordEvent n closeTime s.db
  have hnone : s.toReport = [] := by
    unfold Tail.toReport
    rw [hphase]
  refine ⟨fun e he => ?_, fun w hw => ?_, fun w hw => ?_, fun w hw => ?_, nofun⟩
  · rcases hI.kept e he with hst | ⟨hreported, hupcoming⟩
    · exact Or.inl (hgrows.stored hst)
    have hintime := hupcoming.of_idle hphase
    rw [hqueue] at hintime
    rcases hintime with ⟨r, hr, hcovers⟩ | ⟨hnot, hintime⟩
    · -- the ledger reveals a gap around the transaction
      refine Or.inr ⟨fun w _ _ => ⟨r, List.mem_append_right _ hr, hcovers⟩, ?_⟩
      exact Or.inr (Or.inl ⟨r, List.mem_append_left _ hr, hcovers⟩)
    · refine Or.inr ⟨fun w hw hle => ?_, Or.inr (Or.inr hintime)⟩
      rcases mem_recorded hw with hw | ⟨hsome, rfl⟩
      · obtain ⟨r, hr, hcovers⟩ := hreported w hw hle
        unfold Tail.reportsAfter at hr
        rw [hnone, List.append_nil] at hr
        exact ⟨r, List.mem_append_left _ hr, hcovers⟩
      · exact absurd ⟨hsome, hle⟩ hnot
  · rcases mem_recorded hw with hw | ⟨-, rfl⟩
    · rcases hI.shown w hw with hzero | hlast | hobserving
      · exact Or.inl hzero
      · exact Or.inr (Or.inl hlast)
      · exact absurd (hphase.symm.trans hobserving) (by simp)
    · exact Or.inr (Or.inr rfl)
  · rcases mem_recorded hw with hw | ⟨hsome, rfl⟩
    · exact hgrows.ledgers _ (hI.rows w hw)
    · obtain ⟨t, rfl⟩ := Option.ne_none_iff_exists'.mp hsome
      exact Table.hasKey_insertIgnore.mpr (Or.inr rfl)
  · rcases mem_recorded hw with hw | ⟨-, rfl⟩
    · exact hI.counted w hw
    · exact le_rfl

/-- The tail takes a transaction. -/
theorem Inv.consume_transaction {X : Xrpl} {s : Tail} (hI : Inv X s) (hphase : s.phase = .idle)
    {ev : TransactionEvent} {queue : List TailEvent}
    (hqueue : s.queue = .transaction ev :: queue) :
    Inv X (consumeEvent X { s with queue } (.transaction ev)) := by
  have hnone : s.toReport = [] := by
    unfold Tail.toReport
    rw [hphase]
  cases hingest : ingestEvent X s.tracked ev s.db with
  | ok db =>
      have hafter : consumeEvent X { s with queue } (.transaction ev) = { s with db, queue } := by
        simp only [consumeEvent, hingest]
      rw [hafter]
      have hgrows := grows_ingestEvent hingest
      refine ⟨fun e he => ?_, hI.shown, fun w hw => hgrows.ledgers _ (hI.rows w hw), hI.counted,
        hI.reporting⟩
      rcases hI.kept e he with hst | ⟨hreported, hupcoming⟩
      · exact Or.inl (hgrows.stored hst)
      have hintime := hupcoming.of_idle hphase
      rw [hqueue] at hintime
      rcases hintime with hev | hintime
      · exact Or.inl ((writes_ingestEvent hev hingest).1.stored e (List.mem_singleton_self e))
      · refine Or.inr ⟨hreported, Or.inr (Or.inr ?_)⟩
        show InTime X e (Tail.tracker { s with db, queue }) queue
        unfold Tail.tracker
        rw [hphase]
        exact hintime
  | error err =>
      have hafter : consumeEvent X { s with queue } (.transaction ev)
          = { s with queue, phase := .stopped } := by
        simp only [consumeEvent, hingest]
      rw [hafter]
      -- the loop throws; the recorded ledgers have been shown
      refine ⟨fun e he => ?_, fun w hw => ?_, hI.rows, hI.counted,
        fun _ _ _ hgap => absurd hgap List.not_mem_nil⟩
      · rcases hI.kept e he with hst | ⟨hreported, -⟩
        · exact Or.inl hst
        · refine Or.inr ⟨fun w hw hle => ?_, Or.inl rfl⟩
          have hafter := hreported w hw hle
          unfold Tail.reportsAfter at hafter
          rw [hnone] at hafter
          exact hafter
      · rcases hI.shown w hw with hzero | hlast | hobserving
        · exact Or.inl hzero
        · exact Or.inr (Or.inl hlast)
        · exact absurd (hphase.symm.trans hobserving) (by simp)

/-- Once the ledger is shown, the loop heals the gap it revealed, or awaits an event. -/
theorem after_observe {s : Tail} {gap : Option LedgerRange} (h : s.phase = phaseAfter gap) :
    s.toReport = [] ∧ s.healing = gap.toList ∧ s.tracker = s.gaps := by
  unfold Tail.toReport Tail.healing Tail.tracker
  rw [h]
  cases gap with
  | none => exact ⟨rfl, rfl, rfl⟩
  | some r => exact ⟨rfl, rfl, rfl⟩

/-- The ledger is shown to the tracker, and a gap reported. -/
theorem Inv.observe {X : Xrpl} {s : Tail} (hI : Inv X s) {n : ℕ}
    (hphase : s.phase = .observing n) :
    Inv X { s with
      gaps := (s.gaps.observe n).2
      reports := s.reports ++ (s.gaps.observe n).1.toList
      phase := phaseAfter (s.gaps.observe n).1 } := by
  have hreport : s.toReport = (s.gaps.observe n).1.toList := by
    unfold Tail.toReport
    rw [hphase]
  have hnone : s.healing = [] := by
    unfold Tail.healing
    rw [hphase]
  have htracker : s.tracker = (s.gaps.observe n).2 := by
    unfold Tail.tracker
    rw [hphase]
  obtain ⟨last, hobs, hle, hge⟩ := le_observe_last s.gaps n
  have hdrop : ∀ w ∈ s.recorded, (s.reports ++ (s.gaps.observe n).1.toList).drop w.reports
      = s.reportsAfter w := by
    intro w hw
    rw [List.drop_append_of_le_length (hI.counted w hw), ← hreport]
    rfl
  have hshown : ∀ w ∈ s.recorded, w.ledger = 0 ∨ w.ledger ≤ last := by
    intro w hw
    rcases hI.shown w hw with hzero | ⟨l, hl, hwl⟩ | hobserving
    · exact Or.inl hzero
    · exact Or.inr (hwl.trans (hge l hl))
    · cases hphase.symm.trans hobserving
      exact Or.inr hle
  let t : Tail := { s with
    gaps := (s.gaps.observe n).2
    reports := s.reports ++ (s.gaps.observe n).1.toList
    phase := phaseAfter (s.gaps.observe n).1 }
  obtain ⟨hnone', hhealing', htracker'⟩ := @after_observe t _ rfl
  refine ⟨fun e he => ?_, fun w hw => ?_, hI.rows, fun w hw => ?_, fun w hw gap hgap => ?_⟩
  · rcases hI.kept e he with hst | ⟨hreported, hupcoming⟩
    · exact Or.inl hst
    refine Or.inr ⟨fun w hw hwle => ?_, ?_⟩
    · obtain ⟨r, hr, hcovers⟩ := hreported w hw hwle
      refine ⟨r, List.mem_append_left _ ?_, hcovers⟩
      rw [hdrop w hw]
      exact hr
    · rcases hupcoming with hstopped | hnow | hintime
      · exact absurd (hphase.symm.trans hstopped) (by simp)
      · refine Or.inr (Or.inl ?_)
        rw [hreport, hnone, List.append_nil] at hnow
        rw [hnone', hhealing']
        exact hnow
      · refine Or.inr (Or.inr ?_)
        rw [htracker] at hintime
        rw [htracker']
        exact hintime
  · rcases hshown w hw with hzero | hwl
    · exact Or.inl hzero
    · exact Or.inr (Or.inl ⟨last, hobs, hwl⟩)
  · exact (hI.counted w hw).trans (by simp)
  · rw [hhealing'] at hgap
    show gap ∈ (s.reports ++ (s.gaps.observe n).1.toList).drop w.reports
    rw [hdrop w hw]
    refine List.mem_append_right _ ?_
    rw [hreport]
    exact hgap

/-- The heal returns or throws. -/
theorem Inv.endHeal {X : Xrpl} {s : Tail} (hI : Inv X s) {gap : LedgerRange}
    (hphase : s.phase = .healing gap) {phase : Phase}
    (hend : phase = .stopped ∨ (phase = .idle ∧ InOrder X s .healed)) :
    Inv X { s with phase } := by
  have hnone : s.toReport = [] := by
    unfold Tail.toReport
    rw [hphase]
  have htracker : s.tracker = s.gaps := by
    unfold Tail.tracker
    rw [hphase]
  let t : Tail := { s with phase }
  have hquiet : t.toReport = [] ∧ t.healing = [] ∧ t.tracker = s.gaps := by
    unfold Tail.toReport Tail.healing Tail.tracker
    rcases hend with hphase' | ⟨hphase', -⟩
    · cases hphase'
      exact ⟨rfl, rfl, rfl⟩
    · cases hphase'
      exact ⟨rfl, rfl, rfl⟩
  obtain ⟨hnone', hhealing', htracker'⟩ := hquiet
  refine ⟨fun e he => ?_, fun w hw => ?_, hI.rows, hI.counted, fun w hw gap hgap => ?_⟩
  · by_cases hst : Stored X s.db e
    · exact Or.inl hst
    obtain ⟨hreported, hupcoming⟩ := (hI.kept e he).resolve_left hst
    refine Or.inr ⟨fun w hw hle => ?_, ?_⟩
    · have hafter := hreported w hw hle
      unfold Tail.reportsAfter at hafter ⊢
      rw [hnone] at hafter
      rw [hnone']
      exact hafter
    · rcases hend with hstopped | ⟨-, hhealed⟩
      · exact Or.inl hstopped
      · rcases hupcoming with hstopped | hnow | hintime
        · exact absurd (hphase.symm.trans hstopped) (by simp)
        · rw [hnone] at hnow
          exact absurd (hhealed e he hnow) hst
        · refine Or.inr (Or.inr ?_)
          rw [htracker] at hintime
          rw [htracker']
          exact hintime
  · rcases hI.shown w hw with hzero | hlast | hobserving
    · exact Or.inl hzero
    · exact Or.inr (Or.inl hlast)
    · exact absurd (hphase.symm.trans hobserving) (by simp)
  · rw [hhealing'] at hgap
    exact absurd hgap List.not_mem_nil

/-- A process ends and the next one starts at the high water. -/
theorem Inv.restart {X : Xrpl} {s : Tail} (hI : Inv X s) (hok : InOrder X s .restart) :
    Inv X { s with
      tracked := registered s.db, gaps := ⟨highWater s.db⟩, queue := [], fetching := []
      phase := .idle } := by
  refine ⟨fun e he => ?_, fun w hw => ?_, hI.rows, hI.counted,
    fun _ _ _ hgap => absurd hgap List.not_mem_nil⟩
  · by_cases hst : Stored X s.db e
    · exact Or.inl hst
    obtain ⟨hreported, -⟩ := (hI.kept e he).resolve_left hst
    refine Or.inr ⟨fun w hw hle => ?_, Or.inr (Or.inr trivial)⟩
    obtain ⟨r, hr, hcovers⟩ := hreported w hw hle
    rcases List.mem_append.mp hr with hr | hr
    · exact ⟨r, List.mem_append_left _ hr, hcovers⟩
    · exact absurd (hok e he ⟨r, hr, hcovers⟩) hst
  · by_cases hzero : w.ledger = 0
    · exact Or.inl hzero
    · obtain ⟨row, hrow, hkey⟩ := hI.rows w hw
      have hkey : row.ledgerIndex = w.ledger := hkey
      obtain ⟨anchor, hanchor, hle⟩ := le_highWater_of_recorded hrow (by omega)
      exact Or.inr (Or.inl ⟨anchor, hanchor, hkey ▸ hle⟩)

/-- **WHAT EVERY STEP KEEPS**. -/
theorem Inv.step {X : Xrpl} {s s' : Tail} {a : Action} (hI : Inv X s) (hok : InOrder X s a)
    (h : RegistrarProgress.step X s a = some s') : Inv X s' := by
  cases a with
  | ledgerClosed n closeTime =>
      cases Option.some.inj h
      exact hI.ledgerClosed hok
  | transaction e msg =>
      obtain ⟨touched, -, h⟩ := Option.bind_eq_some_iff.mp h
      obtain ⟨-, h⟩ := Option.ite_none_left_eq_some.mp h
      cases Option.some.inj h
      exact hI.transaction hok _
  | fetched f res =>
      obtain ⟨-, h⟩ := Option.ite_none_right_eq_some.mp h
      cases Option.some.inj h
      exact hI.fetched _ _
  | fetchFailed f =>
      obtain ⟨-, h⟩ := Option.ite_none_right_eq_some.mp h
      cases Option.some.inj h
      exact ⟨hI.kept, hI.shown, hI.rows, hI.counted, hI.reporting⟩
  | consume =>
      unfold RegistrarProgress.step at h
      cases hphase : s.phase with
      | idle =>
          cases hqueue : s.queue with
          | nil =>
              simp only [hphase, hqueue] at h
              cases h
          | cons item queue =>
              simp only [hphase, hqueue] at h
              cases Option.some.inj h
              cases item with
              | ledger n closeTime => exact hI.consume_ledger hphase hqueue
              | transaction ev =>
                  have hnext := hI.consume_transaction hphase hqueue
                  rw [hphase] at hnext
                  exact hnext
      | _ =>
          simp only [hphase] at h
          cases h
  | observe =>
      unfold RegistrarProgress.step at h
      cases hphase : s.phase with
      | observing n =>
          simp only [hphase] at h
          cases Option.some.inj h
          exact hI.observe hphase
      | _ =>
          simp only [hphase] at h
          cases h
  | healed =>
      unfold RegistrarProgress.step at h
      cases hphase : s.phase with
      | healing gap =>
          simp only [hphase] at h
          cases Option.some.inj h
          exact hI.endHeal hphase (Or.inr ⟨rfl, hok⟩)
      | _ =>
          simp only [hphase] at h
          cases h
  | healFailed =>
      unfold RegistrarProgress.step at h
      cases hphase : s.phase with
      | healing gap =>
          simp only [hphase] at h
          cases Option.some.inj h
          exact hI.endHeal hphase (Or.inl rfl)
      | _ =>
          simp only [hphase] at h
          cases h
  | write p =>
      obtain ⟨db, hdb, rfl⟩ := Option.map_eq_some_iff.mp h
      exact hI.grow (grows_write hdb)
  | lookUp row =>
      cases Option.some.inj h
      exact hI.grow (grows_recordLedger row s.db)
  | register row =>
      cases Option.some.inj h
      exact hI.grow ⟨fun _ h => h, fun _ h => h⟩
  | refreshTracked =>
      cases Option.some.inj h
      exact ⟨hI.kept, hI.shown, hI.rows, hI.counted, hI.reporting⟩
  | restart =>
      cases Option.some.inj h
      exact hI.restart hok

/-- The first process starts at the high water of the archive. -/
structure Started (s : Tail) : Prop where
  gaps : s.gaps = ⟨highWater s.db⟩
  queue : s.queue = []
  fetching : s.fetching = []
  phase : s.phase = .idle
  delivered : s.delivered = []
  recorded : s.recorded = []

theorem Started.inv {X : Xrpl} {s : Tail} (hs : Started s) : Inv X s := by
  obtain ⟨-, -, -, -, hdelivered, hrecorded⟩ := hs
  refine ⟨fun e he => ?_, fun w hw => ?_, fun w hw => ?_, fun w hw => ?_, fun w hw => ?_⟩
  · exact absurd (hdelivered ▸ he) List.not_mem_nil
  all_goals exact absurd (hrecorded ▸ hw) List.not_mem_nil

/-- **NO LEDGER AHEAD OF ITS TRANSACTIONS**: in every run whose events come in order, each
    transaction delivered for a ledger at or below a recorded one is stored, or lies in a
    gap reported after that. -/
theorem recorded_ledger_has_transactions (X : Xrpl) {s₀ s : Tail} (hstart : Started s₀)
    (hrun : Steps (step X) (InOrder X) s₀ s) :
    ∀ w ∈ s.recorded, ∀ e ∈ s.delivered, e.ledgerIndex ≤ w.ledger →
      Stored X s.db e ∨ InRanges (s.reportsAfter w) e.ledgerIndex := by
  have hI : Inv X s := hrun.inv (Inv X) hstart.inv (fun _ _ _ hI hok hs => hI.step hok hs)
  intro w hw e he hle
  exact (hI.kept e he).imp id (fun hreported => hreported.1 w hw hle)

/-! ## A transaction and its ledger -/

/-- The message of the mint, and the answer of `tx` for it. -/
def mintMessage : StreamMessage := ⟨"t1", payXrpl.decodeMeta "mint", some 200⟩

def mintAnswer : TxResult := ⟨some "t1", some "mint", some 200, ⟨"rippled", "now"⟩⟩

def mintFetch : Fetch := ⟨mintEntry, mintMessage, ["rAlice", "rIssuer"]⟩

/-- The tail of an archive with one recorded ledger. -/
def payTail : Tail where
  db := recordLedger ⟨199, 0⟩ payArchive
  tracked := [payIssuance]
  gaps := ⟨some 199⟩

theorem payTail_started : Started payTail :=
  ⟨by decide +kernel, rfl, rfl, rfl, rfl, rfl⟩

/-- The mint is queued before its ledger, then two ledgers are skipped and healed. -/
def inOrderRun : List Action :=
  [.transaction mintEntry mintMessage, .fetched mintFetch mintAnswer,
    .ledgerClosed 200 (some 0), .consume, .consume, .observe,
    .ledgerClosed 203 (some 9), .transaction payEntry ⟨"t2", payXrpl.decodeMeta "pay", some 201⟩,
    .consume, .observe, .write (.heal [payIssuance] [payIssuance] "rIssuer" issuerPage), .healed,
    .restart]

theorem recorded_ledger_has_transactions_mint : ∃ s : Tail,
    s.recorded.map (·.ledger) = [200, 203] ∧ s.delivered = [mintEntry, payEntry]
      ∧ ∀ w ∈ s.recorded, ∀ e ∈ s.delivered, e.ledgerIndex ≤ w.ledger →
        Stored payXrpl s.db e ∨ InRanges (s.reportsAfter w) e.ledgerIndex := by
  have hrun : (runChecked (step payXrpl) (InOrder payXrpl) payTail inOrderRun).map
      (fun s => decide (s.recorded.map (·.ledger) = [200, 203]
        ∧ s.delivered = [mintEntry, payEntry])) = some true := by
    decide +kernel
  obtain ⟨s, hsteps, hend⟩ := Steps.exists_of_runChecked _ hrun
  obtain ⟨hrecorded, hdelivered⟩ := of_decide_eq_true hend
  exact ⟨s, hrecorded, hdelivered,
    recorded_ledger_has_transactions payXrpl payTail_started hsteps⟩

/-- The ledger closes while the `tx` request of its transaction is under way, and the
    process ends: the ledger is recorded, the transaction is not stored, and the next
    process starts above it. -/
theorem ledger_recorded_ahead : ∃ s : Tail,
    Steps (step payXrpl) anyStep payTail s ∧ s.gaps.last = some 200
      ∧ ∃ w ∈ s.recorded, ∃ e ∈ s.delivered, e.ledgerIndex ≤ w.ledger
        ∧ ¬ (Stored payXrpl s.db e ∨ InRanges (s.reportsAfter w) e.ledgerIndex) := by
  have hrun : (run (step payXrpl) payTail [.transaction mintEntry mintMessage,
      .ledgerClosed 200 (some 0), .consume, .observe, .restart]).map (fun s => decide (
        s.gaps.last = some 200 ∧ ∃ w ∈ s.recorded, ∃ e ∈ s.delivered,
          e.ledgerIndex ≤ w.ledger ∧ ¬ (Stored payXrpl s.db e
            ∨ InRanges (s.reportsAfter w) e.ledgerIndex))) = some true := by
    decide +kernel
  obtain ⟨s, hsteps, hend⟩ := Steps.exists_of_run _ hrun
  exact ⟨s, hsteps, of_decide_eq_true hend⟩

end RegistrarProgress
