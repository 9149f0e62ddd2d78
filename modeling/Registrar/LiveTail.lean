import Registrar.Stored
import Registrar.Reads

/-! # The live tail

    The tail consumes a queue of ledger and transaction events.  A transaction
    event is stored with its deltas; a ledger event records the ledger's close
    time and is shown to the gap tracker, which reports the ledgers the stream
    skipped so that they can be healed. -/

namespace RegistrarTail

open KeyedTable Statements RegistrarMetadata RegistrarArchive RegistrarIngest
open RegistrarBackfill RegistrarReads

/-! ## The gap tracker -/

/-- An inclusive ledger range. -/
structure LedgerRange where
  fromLedger : ℕ
  toLedger : ℕ
  deriving DecidableEq

/-- The ledger lies in the range. -/
def LedgerRange.Covers (r : LedgerRange) (ledger : ℕ) : Prop :=
  r.fromLedger ≤ ledger ∧ ledger ≤ r.toLedger

instance (r : LedgerRange) (ledger : ℕ) : Decidable (r.Covers ledger) :=
  inferInstanceAs (Decidable (_ ∧ _))

/-- `last` is the highest ledger observed, or `none` before the first. -/
structure GapTracker where
  last : Option ℕ
  deriving DecidableEq

/-- Observe a validated ledger: the gap it reveals, and the tracker after it. -/
def GapTracker.observe (g : GapTracker) (ledgerIndex : ℕ) :
    Option LedgerRange × GapTracker :=
  match g.last with
  | none => (none, ⟨some ledgerIndex⟩)
  | some last =>
      if ledgerIndex ≤ last then (none, g)
      else if ledgerIndex = last + 1 then (none, ⟨some ledgerIndex⟩)
      else (some ⟨last + 1, ledgerIndex - 1⟩, ⟨some ledgerIndex⟩)

/-- Observe ledgers one after the other, collecting the gaps. -/
def GapTracker.observeAll : GapTracker → List ℕ → List LedgerRange × GapTracker
  | g, [] => ([], g)
  | g, n :: ns =>
      let (gap, g') := g.observe n
      let (gaps, g'') := g'.observeAll ns
      (gap.toList ++ gaps, g'')

/-- What one observation does to an anchored tracker. -/
theorem GapTracker.observe_cases (last n : ℕ) :
    (n ≤ last ∧ (⟨some last⟩ : GapTracker).observe n = (none, ⟨some last⟩))
      ∨ (n = last + 1 ∧ (⟨some last⟩ : GapTracker).observe n = (none, ⟨some n⟩))
      ∨ (last + 1 < n ∧ (⟨some last⟩ : GapTracker).observe n
          = (some ⟨last + 1, n - 1⟩, ⟨some n⟩)) := by
  unfold observe
  by_cases hold : n ≤ last
  · exact Or.inl ⟨hold, if_pos hold⟩
  · by_cases hnext : n = last + 1
    · exact Or.inr (Or.inl ⟨hnext, (if_neg hold).trans (if_pos hnext)⟩)
    · exact Or.inr (Or.inr ⟨by omega, (if_neg hold).trans (if_neg hnext)⟩)

/-- An anchored tracker is at the higher of its position and the ledger. -/
theorem GapTracker.observe_last (last n : ℕ) :
    ((⟨some last⟩ : GapTracker).observe n).2 = ⟨some (max last n)⟩ := by
  rcases observe_cases last n with ⟨h, ho⟩ | ⟨h, ho⟩ | ⟨h, ho⟩
  · rw [ho, max_eq_left h]
  · rw [ho, max_eq_right (by omega)]
  · rw [ho, max_eq_right (by omega)]

/-- The gaps of a run are those of its parts. -/
theorem GapTracker.observeAll_append (g : GapTracker) (ns ms : List ℕ) :
    g.observeAll (ns ++ ms) = ((g.observeAll ns).1 ++ ((g.observeAll ns).2.observeAll ms).1,
      ((g.observeAll ns).2.observeAll ms).2) := by
  induction ns generalizing g with
  | nil => rfl
  | cons n ns ih =>
      show ((g.observe n).1.toList ++ ((g.observe n).2.observeAll (ns ++ ms)).1,
        ((g.observe n).2.observeAll (ns ++ ms)).2) = _
      rw [ih, ← List.append_assoc]
      rfl

/-- **NO LEDGER IS SKIPPED UNSEEN**: a ledger above the anchor that the tracker
    has passed was observed, or lies in a gap it reported. -/
theorem GapTracker.observed_or_reported {last : ℕ} {ns : List ℕ} {reached m : ℕ}
    (h : ((⟨some last⟩ : GapTracker).observeAll ns).2.last = some reached)
    (hlast : last < m) (hm : m ≤ reached) :
    m ∈ ns ∨ ∃ r ∈ ((⟨some last⟩ : GapTracker).observeAll ns).1, r.Covers m := by
  induction ns generalizing last with
  | nil =>
      cases h
      omega
  | cons n ns ih =>
      by_cases hmn : m = n
      · exact Or.inl (hmn ▸ List.mem_cons_self)
      -- the rest of the run starts where `n` leaves the tracker
      have hrest : ((⟨some (max last n)⟩ : GapTracker).observeAll ns).2.last
          = some reached := by
        rw [← GapTracker.observe_last]
        exact h
      have hgaps : ((⟨some last⟩ : GapTracker).observeAll (n :: ns)).1
          = ((⟨some last⟩ : GapTracker).observe n).1.toList
            ++ ((⟨some (max last n)⟩ : GapTracker).observeAll ns).1 := by
        rw [← GapTracker.observe_last]
        rfl
      rw [hgaps]
      by_cases hpassed : max last n < m
      · rcases ih hrest hpassed with hin | ⟨r, hr, hcov⟩
        · exact Or.inl (List.mem_cons_of_mem n hin)
        · exact Or.inr ⟨r, List.mem_append_right _ hr, hcov⟩
      · rcases GapTracker.observe_cases last n with ⟨ho, -⟩ | ⟨ho, -⟩ | ⟨ho, hgap⟩
        · omega
        · omega
        · refine Or.inr ⟨⟨last + 1, n - 1⟩, List.mem_append_left _ ?_, ?_⟩
          · rw [hgap]
            exact List.mem_singleton_self _
          · show last + 1 ≤ m ∧ m ≤ n - 1
            omega

/-! ## Events -/

/-- A validated transaction touching in-scope accounts. -/
structure TransactionEvent where
  hash : String
  ledgerIndex : ℕ
  txType : String
  accounts : List String
  txBlob : String
  metaBlob : String
  provenance : Provenance
  deriving DecidableEq

/-- A queued event; a ledger event has a close time when the stream gives
    one. -/
inductive TailEvent
  | ledger (ledgerIndex : ℕ) (closeTime : Option ℕ)
  | transaction (ev : TransactionEvent)
  deriving DecidableEq

def eventToIngest (ev : TransactionEvent) : IngestTransaction where
  hash := ev.hash
  ledgerIndex := ev.ledgerIndex
  txType := ev.txType
  txBlob := ev.txBlob
  metaBlob := ev.metaBlob
  provenance := ev.provenance
  accounts := ev.accounts

/-- A detected holder and the issuer of its issuance; of two issuances of one id
    the map keeps the last. -/
def holderAccounts (X : Xrpl) (tracked : List TrackedIssuance) (h : DetectedHolder) :
    Option (List String) :=
  match tracked.reverse.find? (fun iss => decide (iss.id = h.issuanceId)) with
  | none => some [h.holder]
  | some iss => (trackedIssuerOf X iss).map fun issuer => [h.holder, issuer]

/-- The accounts of a streamed transaction the tail tracks: the holders it
    touches and their issuers.  `none` where an issuer does not decode. -/
def issuanceScope (X : Xrpl) (tracked : List TrackedIssuance) (metadata : Option Meta) :
    Option (List String) :=
  match metadata with
  | none => some []
  | some m =>
      ((holdersInMeta m tracked).mapM (holderAccounts X tracked)).map
        fun accounts => distinctBy id accounts.flatten

/-- What `tx` answers for a hash. -/
structure TxResult where
  txBlob : Option String
  metaBlob : Option String
  ledgerIndex : Option ℕ
  provenance : Provenance

/-- The event of a fetched transaction; `recordLedger` is the ledger of the
    stream message.  No event without both blobs. -/
def transactionEvent (X : Xrpl) (hash : String) (touched : List String)
    (recordLedger : Option ℕ) (res : TxResult) : Option TransactionEvent :=
  match res.txBlob.filter (fun s => decide (s ≠ "")),
      res.metaBlob.filter (fun s => decide (s ≠ "")) with
  | some txBlob, some metaBlob =>
      (X.decodeTxType txBlob).map fun txType =>
        { hash, ledgerIndex := (res.ledgerIndex.or recordLedger).getD 0
          txType := txType.getD "unknown", accounts := touched
          txBlob, metaBlob, provenance := res.provenance }
  | _, _ => none

/-! ## Storing events -/

/-- The database transaction of a transaction event. -/
def ingestEvent (X : Xrpl) (tracked : List TrackedIssuance) (ev : TransactionEvent)
    (db : Archive) : Except DbError Archive := do
  let db ← insertTransactionRows (eventToIngest ev) db
  deltaDeriver tracked ev.hash (decodeMeta X ev.metaBlob) db

/-- A ledger event with a close time is recorded. -/
def recordEvent (ledgerIndex : ℕ) (closeTime : Option ℕ) (db : Archive) : Archive :=
  match closeTime with
  | none => db
  | some t => recordLedger ⟨ledgerIndex, t⟩ db

/-! ## Healing -/

/-- The issuer to sweep for an issuance, when it names one. -/
def issuerAddress (X : Xrpl) (i : TrackedIssuance) : Option (List String) :=
  match i.kind with
  | .mpt =>
      match i.mptIssuanceId.filter (fun s => decide (s ≠ "")) with
      | none => some []
      | some id => (decodeMptIssuer X id).map fun a => [a]
  | .iou =>
      match i.issuer.filter (fun s => decide (s ≠ "")) with
      | none => some []
      | some a => some [a]

/-- The issuers of the tracked issuances, each once. -/
def issuerAddresses (X : Xrpl) (tracked : List TrackedIssuance) :
    Option (List String) :=
  (tracked.mapM (issuerAddress X)).map fun issuers => distinctBy id issuers.flatten

/-- The issuance names its issuer, by a text that is not empty.  The identity
    constraint of the schema asks for the text; the empty one, which neither it nor
    `registerIssuance` refuses, is left out. -/
def NamesIssuer (i : TrackedIssuance) : Prop :=
  match i.kind with
  | .mpt => ∃ id, i.mptIssuanceId = some id ∧ id ≠ ""
  | .iou => ∃ a, i.issuer = some a ∧ a ≠ ""

theorem issuerAddress_eq {X : Xrpl} {i : TrackedIssuance} (hnames : NamesIssuer i) :
    issuerAddress X i = (trackedIssuerOf X i).map fun a => [a] := by
  unfold NamesIssuer at hnames
  unfold issuerAddress trackedIssuerOf
  cases hkind : i.kind with
  | mpt =>
      rw [hkind] at hnames
      obtain ⟨id, hid, hne⟩ := hnames
      have hkept : (some id).filter (fun s => decide (s ≠ "")) = some id :=
        Option.filter_some_pos (decide_eq_true hne)
      simp only [hid, hkept, Option.getD_some]
  | iou =>
      rw [hkind] at hnames
      obtain ⟨a, ha, hne⟩ := hnames
      have hkept : (some a).filter (fun s => decide (s ≠ "")) = some a :=
        Option.filter_some_pos (decide_eq_true hne)
      simp only [ha, hkept, Option.getD_some, Option.map_some]

/-- The issuer of a tracked issuance is swept. -/
theorem mem_issuerAddresses {X : Xrpl} {tracked : List TrackedIssuance}
    {issuers : List String} (h : issuerAddresses X tracked = some issuers)
    {i : TrackedIssuance} (hi : i ∈ tracked) (hnames : NamesIssuer i) :
    ∃ a, trackedIssuerOf X i = some a ∧ a ∈ issuers := by
  obtain ⟨lists, hlists, rfl⟩ := Option.map_eq_some_iff.mp h
  obtain ⟨l, hl, hil⟩ := exists_of_mapM_some hlists hi
  rw [issuerAddress_eq hnames] at hil
  obtain ⟨a, ha, rfl⟩ := Option.map_eq_some_iff.mp hil
  refine ⟨a, ha, RegistrarSweep.mem_distinctBy_id.mpr ?_⟩
  exact List.mem_flatten.mpr ⟨[a], hl, List.mem_singleton_self a⟩

/-- The database transaction of a page of a heal. -/
def gapTransaction (tracked : List TrackedIssuance) (batch : List MappedEntry)
    (db : Archive) : Except DbError Archive := do
  if batch.isEmpty then return db
  let db ← insertTransactionRowsMany (batch.map (·.row)) db
  batch.foldlM (fun db b => deltaDeriver tracked b.row.hash b.metadata db) db

/-! ## Start-up -/

/-- `max(to_ledger)` of `coverage`, zero when there is none. -/
def coverageHigh (db : Archive) : ℕ := ((db.coverage.map (·.toLedger)).max?).getD 0

/-- The anchor of the gap tracker; a zero is no anchor. -/
def highWater (db : Archive) : Option ℕ :=
  let high := max (coverageHigh db) ((tailHighWater db).getD 0)
  if high = 0 then none else some high

/-- The accounts to subscribe: every account and every tracked issuer. -/
def subscriptionSet (X : Xrpl) (tracked : List TrackedIssuance) (db : Archive) :
    Option (List String) :=
  (issuerAddresses X tracked).map fun issuers =>
    distinctBy id ((db.accounts.rows.map (·.address)).insertionSort (· ≤ ·) ++ issuers)

/-- A recorded ledger is at or below the anchor. -/
theorem le_highWater_of_recorded {db : Archive} {r : LedgerRow} (hr : r ∈ db.ledgers)
    (hpos : 0 < r.ledgerIndex) : ∃ a, highWater db = some a ∧ r.ledgerIndex ≤ a := by
  have hle : r.ledgerIndex ≤ (tailHighWater db).getD 0 := by
    have hmem : r.ledgerIndex ∈ db.ledgers.rows.map (·.ledgerIndex) :=
      List.mem_map_of_mem hr
    unfold tailHighWater
    cases hmax : (db.ledgers.rows.map (·.ledgerIndex)).max? with
    | none =>
        rw [List.max?_eq_none_iff.mp hmax] at hmem
        exact nomatch hmem
    | some a => exact (List.max?_eq_some_iff.mp hmax).2 _ hmem
  have hne : max (coverageHigh db) ((tailHighWater db).getD 0) ≠ 0 := by omega
  refine ⟨max (coverageHigh db) ((tailHighWater db).getD 0), ?_, by omega⟩
  exact if_neg hne

end RegistrarTail
