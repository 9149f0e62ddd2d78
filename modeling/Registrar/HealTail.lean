import Registrar.ScopeFilter

/-! # Healing a gap and tailing it

    A transaction reaches the archive through the tail, when it is streamed, or
    through a heal, when the tail missed it and the issuers are swept.  Both store
    it if it touches a tracked issuance, with the deltas of all of them.  The tail
    links the holders it touches and the issuers of what it touches; a heal links
    the holders and the issuer whose sweep listed it, which need not be one of
    them. -/

namespace RegistrarHealTail

open KeyedTable Statements RegistrarMetadata RegistrarArchive RegistrarIngest
open RegistrarBackfill RegistrarSweep RegistrarStored RegistrarWritten RegistrarTail
open RegistrarOrder RegistrarPages RegistrarSchedule RegistrarKeys RegistrarFilter
open RegistrarResume (mintXrpl)

/-! ## The two paths -/

/-- What the tail writes for a streamed transaction: the stream carries the metadata
    and `tx` answers the blobs.  No write where it touches nothing tracked, `none`
    where an issuer or the transaction does not decode. -/
def tailWrite (X : Xrpl) (tracked : List TrackedIssuance) (provenance : Provenance)
    (e : BinaryTxEntry) : Option (Option Write) :=
  (issuanceScope X tracked (X.decodeMeta e.metaBlob)).bind fun touched =>
    if touched = [] then some none
    else (transactionEvent X (X.hashSignedTx e.txBlob) touched (some e.ledgerIndex)
      ⟨some e.txBlob, some e.metaBlob, some e.ledgerIndex, provenance⟩).map fun ev =>
        some (.tailEvent tracked ev)

/-- Tail the transactions.  The mapping reads nothing from the database, so it is
    done first. -/
def tailed (X : Xrpl) (tracked : List TrackedIssuance) (provenance : Provenance)
    (txs : List BinaryTxEntry) (db : Archive) : Option Archive :=
  (txs.mapM (tailWrite X tracked provenance)).bind fun ws =>
    (performAll X (ws.filterMap id) db).toOption

/-- What a heal writes for a page of an issuer's sweep. -/
def healWrite (X : Xrpl) (tracked : List TrackedIssuance) (p : String × BackfillPage) :
    Option Write :=
  (sweepBatch X tracked p.1 p.2).map fun batch => .healPage tracked (batch.map (·.row))

/-- Heal with the given pages, in the order they are committed. -/
def healed (X : Xrpl) (tracked : List TrackedIssuance) (pages : List (String × BackfillPage))
    (db : Archive) : Option Archive :=
  (pages.mapM (healWrite X tracked)).bind fun ws => (performAll X ws db).toOption

/-! ## What a transaction concerns -/

/-- The metadata touch a tracked issuance. -/
def Touches (tracked : List TrackedIssuance) (m : Meta) : Prop := holdersInMeta m tracked ≠ []

/-- The account is a holder the metadata touch, or the issuer of an issuance they
    touch. -/
def Concerns (X : Xrpl) (tracked : List TrackedIssuance) (m : Meta) (account : String) : Prop :=
  ∃ h ∈ holdersInMeta m tracked, account = h.holder
    ∨ ∃ iss ∈ tracked, iss.id = h.issuanceId ∧ trackedIssuerOf X iss = some account

/-- A gap and its transactions, as the ledger has them, with what upstream lists for
    each issuer that is swept. -/
structure Gap (X : Xrpl) (tracked : List TrackedIssuance) (txs : List BinaryTxEntry)
    (issuers : List String) (listed : String → List BinaryTxEntry) : Prop where
  ids : (tracked.map (·.id)).Nodup
  names : ∀ iss ∈ tracked, NamesIssuer iss
  swept : issuerAddresses X tracked = some issuers
  blobs : ∀ e ∈ txs, e.txBlob ≠ "" ∧ e.metaBlob ≠ ""
  decodes : ∀ e ∈ txs, (X.decodeMeta e.metaBlob).isSome ∧ (X.decodeTxType e.txBlob).isSome
  wellFormed : ∀ e ∈ txs, ∀ m, X.decodeMeta e.metaBlob = some m → WellFormed m
  hashes : ∀ e ∈ txs, ∀ e' ∈ txs, X.hashSignedTx e.txBlob = X.hashSignedTx e'.txBlob → e = e'
  /-- Nothing else is listed, and what touches an issuance is listed for its issuer. -/
  sound : ∀ a ∈ issuers, ∀ e ∈ listed a, e ∈ txs
  complete : ∀ e ∈ txs, ∀ m, X.decodeMeta e.metaBlob = some m → ∀ iss ∈ tracked,
    ∀ holder, HoldsIn iss m holder → ∀ a, trackedIssuerOf X iss = some a → e ∈ listed a

/-- The pages of a heal: those of each issuer have what upstream lists for it. -/
structure Sweeps (issuers : List String) (listed : String → List BinaryTxEntry)
    (pages : List (String × BackfillPage)) : Prop where
  sweeps : ∀ p ∈ pages, p.1 ∈ issuers
  reads : ∀ a ∈ issuers, ∀ e, e ∈ listed a ↔ ∃ p ∈ pages, p.1 = a ∧ e ∈ p.2.entries

/-- The same transactions up to provenance, the same links and the same deltas. -/
structure SameStored (d d' : Archive) : Prop where
  transactions : ∀ hash, (d.transactions.find? hash).map bare
    = (d'.transactions.find? hash).map bare
  links : ∀ r, r ∈ d.accountTransactions ↔ r ∈ d'.accountTransactions
  deltas : ∀ r, r ∈ d.balanceDeltas ↔ r ∈ d'.balanceDeltas

/-! ## The actions of each path -/

/-- The row of an entry, linked to the accounts, up to provenance. -/
def entryTransaction (X : Xrpl) (e : BinaryTxEntry) (accounts : List String) :
    IngestTransaction where
  hash := X.hashSignedTx e.txBlob
  ledgerIndex := e.ledgerIndex
  txType := ((X.decodeTxType e.txBlob).getD none).getD "unknown"
  txBlob := e.txBlob
  metaBlob := e.metaBlob
  provenance := ⟨"", ""⟩
  accounts := accounts

/-- The event of an entry. -/
def entryEvent (X : Xrpl) (e : BinaryTxEntry) (accounts : List String)
    (provenance : Provenance) : TransactionEvent where
  hash := X.hashSignedTx e.txBlob
  ledgerIndex := e.ledgerIndex
  txType := ((X.decodeTxType e.txBlob).getD none).getD "unknown"
  accounts := accounts
  txBlob := e.txBlob
  metaBlob := e.metaBlob
  provenance := provenance

/-- The action of an entry. -/
def entryAction (X : Xrpl) (tracked : List TrackedIssuance) (e : BinaryTxEntry)
    (accounts : Set String) : IngestAction where
  row := (entryTransaction X e []).row
  accounts := accounts
  issuances := {iss | iss ∈ tracked}

/-- The accounts a heal links: the issuer that is swept and the holders. -/
def healAccounts (tracked : List TrackedIssuance) (issuer : String) (m : Meta) : Set String :=
  {a | a = issuer ∨ ∃ h ∈ holdersInMeta m tracked, a = h.holder}

section Paths

variable {X : Xrpl} {tracked : List TrackedIssuance} {txs : List BinaryTxEntry}
variable {issuers : List String} {listed : String → List BinaryTxEntry}

theorem Gap.issuerOf (hgap : Gap X tracked txs issuers listed) {iss : TrackedIssuance}
    (hiss : iss ∈ tracked) : ∃ a ∈ issuers, trackedIssuerOf X iss = some a := by
  obtain ⟨a, ha, hmem⟩ := mem_issuerAddresses hgap.swept hiss (hgap.names iss hiss)
  exact ⟨a, hmem, ha⟩

/-- What the tail links of a touched transaction. -/
theorem scope_of_gap (hgap : Gap X tracked txs issuers listed) (m : Meta) :
    ∃ touched, issuanceScope X tracked (some m) = some touched
      ∧ (touched = [] ↔ ¬ Touches tracked m)
      ∧ ∀ a, a ∈ touched ↔ Concerns X tracked m a := by
  have hfound : ∀ h ∈ holdersInMeta m tracked, ∃ iss ∈ tracked, iss.id = h.issuanceId
      ∧ ∃ a, trackedIssuerOf X iss = some a
        ∧ holderAccounts X tracked h = some [h.holder, a] := by
    intro h hh
    obtain ⟨-, iss, hiss, hid, -⟩ := mem_holdersInMeta_iff.mp hh
    obtain ⟨a, -, ha⟩ := hgap.issuerOf hiss
    refine ⟨iss, hiss, hid, a, ha, ?_⟩
    unfold holderAccounts
    cases hfind : tracked.reverse.find? (fun iss => decide (iss.id = h.issuanceId)) with
    | none =>
        have hno := List.find?_eq_none.mp hfind iss (List.mem_reverse.mpr hiss)
        exact absurd (decide_eq_true hid) hno
    | some iss' =>
        have hmem := List.mem_reverse.mp (List.mem_of_find?_eq_some hfind)
        have hid' : iss'.id = h.issuanceId := by
          have := List.find?_some hfind
          exact of_decide_eq_true this
        cases List.inj_on_of_nodup_map hgap.ids hmem hiss (hid'.trans hid.symm)
        exact congrArg (Option.map (fun issuer => [h.holder, issuer])) ha
  obtain ⟨lists, hlists, hmem⟩ := mapM_some
    (fun h hh => by
      obtain ⟨-, -, -, a, -, ha⟩ := hfound h hh
      exact ⟨_, ha⟩)
  have hin : ∀ a, a ∈ distinctBy id lists.flatten ↔ Concerns X tracked m a := by
    intro a
    rw [mem_distinctBy_id, List.mem_flatten]
    constructor
    · rintro ⟨l, hl, hal⟩
      obtain ⟨h, hh, hlist⟩ := (hmem l).mp hl
      obtain ⟨iss, hiss, hid, issuer, hissuer, hlist'⟩ := hfound h hh
      cases Option.some.inj (hlist.symm.trans hlist')
      rcases List.mem_pair.mp hal with rfl | rfl
      · exact ⟨h, hh, Or.inl rfl⟩
      · exact ⟨h, hh, Or.inr ⟨iss, hiss, hid, hissuer⟩⟩
    · rintro ⟨h, hh, ha⟩
      obtain ⟨iss, hiss, hid, issuer, hissuer, hlist⟩ := hfound h hh
      refine ⟨_, (hmem _).mpr ⟨h, hh, hlist⟩, List.mem_pair.mpr ?_⟩
      rcases ha with ha | ⟨iss', hiss', hid', ha⟩
      · exact Or.inl ha
      · cases List.inj_on_of_nodup_map hgap.ids hiss' hiss (hid'.trans hid.symm)
        exact Or.inr (Option.some.inj (ha.symm.trans hissuer))
  refine ⟨distinctBy id lists.flatten, congrArg (Option.map fun accounts : List (List String) =>
    distinctBy id accounts.flatten) hlists, ?_, hin⟩
  constructor
  · intro hempty htouches
    obtain ⟨h, hh⟩ := List.exists_mem_of_ne_nil _ htouches
    have hmem := (hin h.holder).mpr ⟨h, hh, Or.inl rfl⟩
    rw [hempty] at hmem
    exact absurd hmem List.not_mem_nil
  · intro hnone
    refine List.eq_nil_iff_forall_not_mem.mpr (fun a ha => ?_)
    obtain ⟨h, hh, -⟩ := (hin a).mp ha
    exact hnone (List.ne_nil_of_mem hh)

/-- The write of a streamed transaction. -/
theorem tailWrite_of_gap (hgap : Gap X tracked txs issuers listed) (provenance : Provenance)
    {e : BinaryTxEntry} (he : e ∈ txs) {m : Meta} (hm : X.decodeMeta e.metaBlob = some m) :
    ∃ o, tailWrite X tracked provenance e = some o
      ∧ (o = none ∧ ¬ Touches tracked m
        ∨ Touches tracked m ∧ ∃ w, o = some w ∧ w.job = none
          ∧ w.actions = [entryAction X tracked e {a | Concerns X tracked m a}]) := by
  obtain ⟨touched, hscope, hempty, hmem⟩ := scope_of_gap hgap m
  have hbind : tailWrite X tracked provenance e
      = if touched = [] then some none
        else (transactionEvent X (X.hashSignedTx e.txBlob) touched (some e.ledgerIndex)
          ⟨some e.txBlob, some e.metaBlob, some e.ledgerIndex, provenance⟩).map fun ev =>
            some (.tailEvent tracked ev) := by
    unfold tailWrite
    rw [hm, hscope, Option.bind_some]
  by_cases hnone : touched = []
  · exact ⟨none, hbind.trans (if_pos hnone), Or.inl ⟨rfl, hempty.mp hnone⟩⟩
  · obtain ⟨txType, htype⟩ := Option.isSome_iff_exists.mp (hgap.decodes e he).2
    have htx : (some e.txBlob).filter (fun s => decide (s ≠ "")) = some e.txBlob :=
      Option.filter_some_pos (decide_eq_true (hgap.blobs e he).1)
    have hmeta : (some e.metaBlob).filter (fun s => decide (s ≠ "")) = some e.metaBlob :=
      Option.filter_some_pos (decide_eq_true (hgap.blobs e he).2)
    have hevent : transactionEvent X (X.hashSignedTx e.txBlob) touched (some e.ledgerIndex)
        ⟨some e.txBlob, some e.metaBlob, some e.ledgerIndex, provenance⟩
        = some (entryEvent X e touched provenance) := by
      unfold transactionEvent entryEvent
      simp only [htx, hmeta, htype]
      rfl
    rw [hevent, Option.map_some] at hbind
    refine ⟨_, hbind.trans (if_neg hnone), Or.inr ⟨not_not.mp (fun h => hnone (hempty.mpr h)),
      _, rfl, rfl, ?_⟩⟩
    refine congrArg (fun a => [a]) (IngestAction.ext rfl (Set.ext fun a => ?_) rfl)
    exact hmem a

/-- The write of a page that lists transactions of the gap. -/
theorem healWrite_of_gap (hgap : Gap X tracked txs issuers listed)
    {p : String × BackfillPage} (hp : ∀ e ∈ p.2.entries, e ∈ txs) :
    ∃ w, healWrite X tracked p = some w ∧ w.job = none
      ∧ ∀ a, a ∈ w.actions ↔ ∃ e ∈ p.2.entries, ∃ m, X.decodeMeta e.metaBlob = some m
        ∧ Touches tracked m ∧ a = entryAction X tracked e (healAccounts tracked p.1 m) := by
  have hmap : ∀ e ∈ p.2.entries, ∃ m, X.decodeMeta e.metaBlob = some m
      ∧ issuerSweepEntryMapper X tracked p.1 p.2.provenance e
        = some (if holdersInMeta m tracked = [] then none
          else some ⟨{ entryTransaction X e
            (distinctBy id (p.1 :: (holdersInMeta m tracked).map (·.holder))) with
              provenance := p.2.provenance }, some m⟩) := by
    intro e he
    obtain ⟨m, hm⟩ := Option.isSome_iff_exists.mp (hgap.decodes e (hp e he)).1
    obtain ⟨txType, htype⟩ := Option.isSome_iff_exists.mp (hgap.decodes e (hp e he)).2
    refine ⟨m, hm, ?_⟩
    unfold issuerSweepEntryMapper
    rw [hm, Option.bind_some]
    by_cases hnone : holdersInMeta m tracked = []
    · rw [if_pos hnone, if_pos hnone]
    · rw [if_neg hnone, if_neg hnone]
      unfold entryRow entryTransaction
      rw [htype]
      rfl
  obtain ⟨mapped, hmapped, hmem⟩ := mapM_some
    (fun e he => by
      obtain ⟨m, -, hm⟩ := hmap e he
      exact ⟨_, hm⟩)
  have hwrite : healWrite X tracked p
      = some (.healPage tracked ((mapped.filterMap id).map (·.row))) := by
    unfold healWrite sweepBatch
    rw [hmapped]
    rfl
  refine ⟨_, hwrite, rfl, fun a => ?_⟩
  show a ∈ ((mapped.filterMap id).map (·.row)).map (actionOf tracked) ↔ _
  rw [List.map_map, List.mem_map]
  have haction : ∀ (e : BinaryTxEntry) (m : Meta), actionOf tracked
      { entryTransaction X e (distinctBy id (p.1 :: (holdersInMeta m tracked).map (·.holder))) with
        provenance := p.2.provenance } = entryAction X tracked e (healAccounts tracked p.1 m) := by
    intro e m
    refine IngestAction.ext rfl (Set.ext fun a => ?_) rfl
    show a ∈ distinctBy id (p.1 :: (holdersInMeta m tracked).map (·.holder)) ↔ _
    rw [mem_distinctBy_id, List.mem_cons, List.mem_map]
    exact or_congr Iff.rfl (exists_congr fun h => and_congr Iff.rfl eq_comm)
  constructor
  · rintro ⟨b, hb, rfl⟩
    obtain ⟨o, ho, hob⟩ := List.mem_filterMap.mp hb
    obtain ⟨e, he, heo⟩ := (hmem o).mp ho
    obtain ⟨m, hm, hmapper⟩ := hmap e he
    have hob : o = some b := hob
    rw [hob, hmapper] at heo
    obtain ⟨hne, hrow⟩ := Option.ite_none_left_eq_some.mp (Option.some.inj heo)
    cases Option.some.inj hrow
    exact ⟨e, he, m, hm, hne, haction e m⟩
  · rintro ⟨e, he, m, hm, hne, rfl⟩
    obtain ⟨m', hm', hmapper⟩ := hmap e he
    cases Option.some.inj (hm.symm.trans hm')
    rw [if_neg hne] at hmapper
    refine ⟨_, List.mem_filterMap.mpr ⟨_, (hmem _).mpr ⟨e, he, hmapper⟩, rfl⟩, ?_⟩
    exact haction e m

/-! ## One archive -/

/-- What the tail carries out. -/
theorem tailed_of_gap (hgap : Gap X tracked txs issuers listed) (provenance : Provenance) :
    ∃ ws, txs.mapM (tailWrite X tracked provenance) = some ws
      ∧ (∀ w ∈ ws.filterMap id, w.job = none)
      ∧ ∀ a, a ∈ actionsOf (ws.filterMap id) ↔ ∃ e ∈ txs, ∃ m, X.decodeMeta e.metaBlob = some m
        ∧ Touches tracked m ∧ a = entryAction X tracked e {a | Concerns X tracked m a} := by
  have hmap : ∀ e ∈ txs, ∃ m, X.decodeMeta e.metaBlob = some m :=
    fun e he => Option.isSome_iff_exists.mp (hgap.decodes e he).1
  obtain ⟨ws, hws, hmem⟩ := mapM_some
    (fun e he => by
      obtain ⟨m, hm⟩ := hmap e he
      obtain ⟨o, ho, -⟩ := tailWrite_of_gap hgap provenance he hm
      exact ⟨o, ho⟩)
  have hwrite : ∀ w, w ∈ ws.filterMap id ↔ ∃ e ∈ txs, tailWrite X tracked provenance e
      = some (some w) := by
    intro w
    rw [List.mem_filterMap]
    constructor
    · rintro ⟨o, ho, hw⟩
      have hw : o = some w := hw
      rw [hw] at ho
      exact (hmem _).mp ho
    · exact fun hw => ⟨some w, (hmem _).mpr hw, rfl⟩
  refine ⟨ws, hws, ?_, ?_⟩
  · intro w hw
    obtain ⟨e, he, hew⟩ := (hwrite w).mp hw
    obtain ⟨m, hm⟩ := hmap e he
    obtain ⟨o, ho, hcases⟩ := tailWrite_of_gap hgap provenance he hm
    cases Option.some.inj (ho.symm.trans hew)
    rcases hcases with ⟨hnone, -⟩ | ⟨-, w', hw', hjob, -⟩
    · cases hnone
    · cases Option.some.inj hw'
      exact hjob
  · intro a
    show a ∈ (ws.filterMap id).flatMap Write.actions ↔ _
    rw [List.mem_flatMap]
    constructor
    · rintro ⟨w, hw, ha⟩
      obtain ⟨e, he, hew⟩ := (hwrite w).mp hw
      obtain ⟨m, hm⟩ := hmap e he
      obtain ⟨o, ho, hcases⟩ := tailWrite_of_gap hgap provenance he hm
      cases Option.some.inj (ho.symm.trans hew)
      rcases hcases with ⟨hnone, -⟩ | ⟨htouches, w', hw', -, hactions⟩
      · cases hnone
      · cases Option.some.inj hw'
        rw [hactions] at ha
        exact ⟨e, he, m, hm, htouches, List.mem_singleton.mp ha⟩
    · rintro ⟨e, he, m, hm, htouches, rfl⟩
      obtain ⟨o, ho, hcases⟩ := tailWrite_of_gap hgap provenance he hm
      rcases hcases with ⟨-, hno⟩ | ⟨-, w, rfl, -, hactions⟩
      · exact absurd htouches hno
      · refine ⟨w, (hwrite w).mpr ⟨e, he, ho⟩, ?_⟩
        rw [hactions]
        exact List.mem_singleton_self _

/-- What a heal carries out. -/
theorem healed_of_gap (hgap : Gap X tracked txs issuers listed)
    {pages : List (String × BackfillPage)} (hpages : Sweeps issuers listed pages) :
    ∃ ws, pages.mapM (healWrite X tracked) = some ws ∧ (∀ w ∈ ws, w.job = none)
      ∧ ∀ a, a ∈ actionsOf ws ↔ ∃ issuer ∈ issuers, ∃ e ∈ listed issuer, ∃ m,
        X.decodeMeta e.metaBlob = some m ∧ Touches tracked m
        ∧ a = entryAction X tracked e (healAccounts tracked issuer m) := by
  have hpage : ∀ p ∈ pages, ∀ e ∈ p.2.entries, e ∈ txs := fun p hp e he =>
    hgap.sound p.1 (hpages.sweeps p hp) e
      ((hpages.reads p.1 (hpages.sweeps p hp) e).mpr ⟨p, hp, rfl, he⟩)
  obtain ⟨ws, hws, hmem⟩ := mapM_some
    (fun p hp => by
      obtain ⟨w, hw, -⟩ := healWrite_of_gap hgap (hpage p hp)
      exact ⟨w, hw⟩)
  refine ⟨ws, hws, ?_, ?_⟩
  · intro w hw
    obtain ⟨p, hp, hpw⟩ := (hmem w).mp hw
    obtain ⟨w', hw', hjob, -⟩ := healWrite_of_gap hgap (hpage p hp)
    cases Option.some.inj (hw'.symm.trans hpw)
    exact hjob
  · intro a
    show a ∈ ws.flatMap Write.actions ↔ _
    rw [List.mem_flatMap]
    constructor
    · rintro ⟨w, hw, ha⟩
      obtain ⟨p, hp, hpw⟩ := (hmem w).mp hw
      obtain ⟨w', hw', -, hactions⟩ := healWrite_of_gap hgap (hpage p hp)
      cases Option.some.inj (hw'.symm.trans hpw)
      obtain ⟨e, he, m, hm, htouches, hae⟩ := (hactions a).mp ha
      exact ⟨p.1, hpages.sweeps p hp, e, (hpages.reads p.1 (hpages.sweeps p hp) e).mpr
        ⟨p, hp, rfl, he⟩, m, hm, htouches, hae⟩
    · rintro ⟨issuer, hissuer, e, he, m, hm, htouches, rfl⟩
      obtain ⟨p, hp, rfl, hep⟩ := (hpages.reads issuer hissuer e).mp he
      obtain ⟨w, hw, -, hactions⟩ := healWrite_of_gap hgap (hpage p hp)
      exact ⟨w, (hmem w).mpr ⟨p, hp, hw⟩,
        (hactions _).mpr ⟨e, hep, m, hm, htouches, rfl⟩⟩

/-- A touched transaction is listed for a swept issuer of an issuance it touches. -/
theorem Gap.listed_touched (hgap : Gap X tracked txs issuers listed) {e : BinaryTxEntry}
    (he : e ∈ txs) {m : Meta} (hm : X.decodeMeta e.metaBlob = some m)
    {h : DetectedHolder} (hh : h ∈ holdersInMeta m tracked) :
    ∀ iss ∈ tracked, iss.id = h.issuanceId → ∀ a, trackedIssuerOf X iss = some a →
      a ∈ issuers ∧ e ∈ listed a := by
  intro iss hiss hid a ha
  obtain ⟨-, iss', hiss', hid', hholds⟩ := mem_holdersInMeta_iff.mp hh
  cases List.inj_on_of_nodup_map hgap.ids hiss hiss' (hid.trans hid'.symm)
  obtain ⟨a', ha', hissuer⟩ := hgap.issuerOf hiss
  cases Option.some.inj (ha.symm.trans hissuer)
  exact ⟨ha', hgap.complete e he m hm iss hiss h.holder hholds a ha⟩

/-- Actions of touched transactions of the gap agree. -/
theorem Gap.agreeing (hgap : Gap X tracked txs issuers listed) {db : Archive}
    (hregistered : ∀ iss ∈ tracked, ∃ r ∈ db.issuances, trackedIssuance r = iss)
    (hone : ∀ e ∈ txs, ∀ m, X.decodeMeta e.metaBlob = some m → Touches tracked m →
      ∀ iss ∈ tracked, ¬ ConflatedChange iss m) {actions : List IngestAction}
    (hactions : ∀ a ∈ actions, ∃ e ∈ txs, ∃ m, X.decodeMeta e.metaBlob = some m
      ∧ Touches tracked m ∧ ∃ accounts, a = entryAction X tracked e accounts) :
    Agreeing X db actions where
  rows := by
    intro a ha a' ha' hhash
    obtain ⟨e, he, -, -, -, accounts, rfl⟩ := hactions a ha
    obtain ⟨e', he', -, -, -, accounts', rfl⟩ := hactions a' ha'
    have heq := hgap.hashes e he e' he' hhash
    rw [heq]
    rfl
  registered := by
    intro a ha iss hiss
    obtain ⟨e, -, -, -, -, accounts, rfl⟩ := hactions a ha
    exact hregistered iss hiss
  once := by
    intro a ha m hm iss hiss
    obtain ⟨e, he, m', hm', htouches, accounts, rfl⟩ := hactions a ha
    have hblob : decodeMeta X e.metaBlob = some m := hm
    rw [decodeMeta_of_ne (hgap.blobs e he).2] at hblob
    cases Option.some.inj (hm'.symm.trans hblob)
    exact (issuanceDeltas_nodup_iff (hgap.wellFormed e he m hm') iss).mpr
      (hone e he m hm' htouches iss hiss)

/-- A write that went through derived each account of an issuance once. -/
theorem perform_once {w : Write} (hjob : w.job = none) {db db' : Archive}
    (h : perform X db w = .ok db') {a : IngestAction} (ha : a ∈ w.actions) {m : Meta}
    (hm : decodeMeta X a.row.metaBlob = some m) (hsize : m.nodes.length ≤ 20000)
    {iss : TrackedIssuance} (hiss : iss ∈ a.issuances) :
    ((issuanceDeltas iss m).map Prod.fst).Nodup := by
  cases w with
  | sweepPage issuance job page highWater txs => cases hjob
  | workerPage seen job page maxLedger txs => cases hjob
  | healPage tracked txs =>
      obtain ⟨tx, htx, rfl⟩ := List.mem_map.mp ha
      have h : gapTransaction tracked (workerEntries X txs) db = .ok db' := h
      have hne : ¬ (workerEntries X txs).isEmpty = true := by
        intro hempty
        have hnil := List.map_eq_nil_iff.mp (List.isEmpty_iff.mp hempty)
        rw [hnil] at htx
        exact absurd htx List.not_mem_nil
      unfold gapTransaction at h
      simp only [hne] at h
      obtain ⟨d, -, h₂⟩ := bind_ok.mp h
      obtain ⟨u, v, huv⟩ := foldlM_ran
        (List.mem_map_of_mem (f := fun tx => MappedEntry.mk tx (decodeMeta X tx.metaBlob)) htx) h₂
      have hm : decodeMeta X tx.metaBlob = some m := hm
      have huv : deltaDeriver tracked tx.hash (decodeMeta X tx.metaBlob) u = .ok v := huv
      rw [hm] at huv
      exact deltaDeriver_once hsize huv iss hiss
  | tailEvent tracked ev =>
      cases List.mem_singleton.mp ha
      obtain ⟨d, -, h₂⟩ := bind_ok.mp h
      have hm : decodeMeta X ev.metaBlob = some m := hm
      rw [hm] at h₂
      exact deltaDeriver_once hsize h₂ iss hiss

theorem performAll_once {ws : List Write} (hjobs : ∀ w ∈ ws, w.job = none) {db d : Archive}
    (h : performAll X ws db = .ok d) {a : IngestAction} (ha : a ∈ actionsOf ws) {m : Meta}
    (hm : decodeMeta X a.row.metaBlob = some m) (hsize : m.nodes.length ≤ 20000)
    {iss : TrackedIssuance} (hiss : iss ∈ a.issuances) :
    ((issuanceDeltas iss m).map Prod.fst).Nodup := by
  obtain ⟨w, hw, haw⟩ := List.mem_flatMap.mp ha
  obtain ⟨u, v, huv⟩ := foldlM_ran hw h
  exact perform_once (hjobs w hw) huv haw hm hsize hiss

/-- Every account a heal links is one the tail links, or has the transaction already. -/
def LinksAgree (X : Xrpl) (tracked : List TrackedIssuance) (issuers : List String)
    (listed : String → List BinaryTxEntry) (db : Archive) : Prop :=
  ∀ issuer ∈ issuers, ∀ e ∈ listed issuer, ∀ m, X.decodeMeta e.metaBlob = some m →
    Touches tracked m → Concerns X tracked m issuer
      ∨ db.accountTransactions.HasKey (X.hashSignedTx e.txBlob, issuer)

/-- Two archives that ingested what the tail and a heal carry out hold the same if and
    only if the links agree. -/
theorem same_iff_links (hgap : Gap X tracked txs issuers listed) {db d d' : Archive}
    {tail heal : List IngestAction} (hagree : Agreeing X db tail)
    (htail : ∀ a, a ∈ tail ↔ ∃ e ∈ txs, ∃ m, X.decodeMeta e.metaBlob = some m
      ∧ Touches tracked m ∧ a = entryAction X tracked e {a | Concerns X tracked m a})
    (hheal : ∀ a, a ∈ heal ↔ ∃ issuer ∈ issuers, ∃ e ∈ listed issuer, ∃ m,
      X.decodeMeta e.metaBlob = some m ∧ Touches tracked m
      ∧ a = entryAction X tracked e (healAccounts tracked issuer m))
    (hd : Ingests (Facts.all tail (IngestAction.facts X)) db d)
    (hd' : Ingests (Facts.all heal (IngestAction.facts X)) db d') :
    SameStored d d' ↔ LinksAgree X tracked issuers listed db := by
  -- a touched transaction is carried out by both
  have hlisted : ∀ e ∈ txs, ∀ m, X.decodeMeta e.metaBlob = some m → Touches tracked m →
      ∃ issuer ∈ issuers, e ∈ listed issuer := by
    intro e he m hm htouches
    obtain ⟨h, hh⟩ := List.exists_mem_of_ne_nil _ htouches
    obtain ⟨-, iss, hiss, hid, -⟩ := mem_holdersInMeta_iff.mp hh
    obtain ⟨a, -, ha⟩ := hgap.issuerOf hiss
    exact ⟨a, hgap.listed_touched he hm hh iss hiss hid a ha⟩
  have hrows : (Facts.all tail (IngestAction.facts X)).rows
      = (Facts.all heal (IngestAction.facts X)).rows := by
    ext t
    constructor
    · rintro ⟨a, ha, rfl⟩
      obtain ⟨e, he, m, hm, htouches, rfl⟩ := (htail a).mp ha
      obtain ⟨issuer, hissuer, hlist⟩ := hlisted e he m hm htouches
      exact ⟨_, (hheal _).mpr ⟨issuer, hissuer, e, hlist, m, hm, htouches, rfl⟩, rfl⟩
    · rintro ⟨a, ha, rfl⟩
      obtain ⟨issuer, hissuer, e, he, m, hm, htouches, rfl⟩ := (hheal a).mp ha
      exact ⟨_, (htail _).mpr ⟨e, hgap.sound issuer hissuer e he, m, hm, htouches, rfl⟩, rfl⟩
  have hdeltas : (Facts.all tail (IngestAction.facts X)).deltas
      = (Facts.all heal (IngestAction.facts X)).deltas := by
    ext r
    constructor
    · rintro ⟨a, ha, hr⟩
      obtain ⟨e, he, m, hm, htouches, rfl⟩ := (htail a).mp ha
      obtain ⟨issuer, hissuer, hlist⟩ := hlisted e he m hm htouches
      exact ⟨_, (hheal _).mpr ⟨issuer, hissuer, e, hlist, m, hm, htouches, rfl⟩, hr⟩
    · rintro ⟨a, ha, hr⟩
      obtain ⟨issuer, hissuer, e, he, m, hm, htouches, rfl⟩ := (hheal a).mp ha
      exact ⟨_, (htail _).mpr ⟨e, hgap.sound issuer hissuer e he, m, hm, htouches, rfl⟩, hr⟩
  have hconsistent := hagree.consistent
  constructor
  · intro hsame issuer hissuer e he m hm htouches
    have hlink : (⟨X.hashSignedTx e.txBlob, issuer⟩ : AccountTransactionRow)
        ∈ d'.accountTransactions := (hd'.links _).mpr (Or.inr
      ⟨_, (hheal _).mpr ⟨issuer, hissuer, e, he, m, hm, htouches, rfl⟩, rfl, Or.inl rfl⟩)
    rcases (hd.links _).mp ((hsame.links _).mpr hlink) with hold | ⟨a, ha, hhash, hacc⟩
    · exact Or.inr ⟨_, hold, rfl⟩
    · obtain ⟨e', he', m', hm', -, rfl⟩ := (htail a).mp ha
      cases hgap.hashes e (hgap.sound issuer hissuer e he) e' he' hhash
      cases Option.some.inj (hm.symm.trans hm')
      exact Or.inl hacc
  · intro hagrees
    refine ⟨Ingests.same_transactions hrows hconsistent.rows hd hd', fun r => ?_,
      Ingests.same_deltas hdeltas hconsistent.deltas hd hd'⟩
    rw [hd.links, hd'.links]
    constructor
    · rintro (hold | ⟨a, ha, hhash, hacc⟩)
      · exact Or.inl hold
      · obtain ⟨e, he, m, hm, htouches, rfl⟩ := (htail a).mp ha
        obtain ⟨h, hh, haccount⟩ : Concerns X tracked m r.address := hacc
        refine Or.inr ?_
        rcases haccount with haccount | ⟨iss, hiss, hid, hissuer⟩
        · obtain ⟨issuer, hmem, hlist⟩ := hlisted e he m hm htouches
          exact ⟨_, (hheal _).mpr ⟨issuer, hmem, e, hlist, m, hm, htouches, rfl⟩, hhash,
            Or.inr ⟨h, hh, haccount⟩⟩
        · obtain ⟨hmem, hlist⟩ := hgap.listed_touched he hm hh iss hiss hid _ hissuer
          exact ⟨_, (hheal _).mpr ⟨r.address, hmem, e, hlist, m, hm, htouches, rfl⟩, hhash,
            Or.inl rfl⟩
    · rintro (hold | ⟨a, ha, hhash, hacc⟩)
      · exact Or.inl hold
      · obtain ⟨issuer, hissuer, e, he, m, hm, htouches, rfl⟩ := (hheal a).mp ha
        have hin : ∀ account, Concerns X tracked m account → r.address = account →
            ∃ a ∈ tail, r ∈ (IngestAction.facts X a).links := by
          rintro account hconcerns rfl
          exact ⟨_, (htail _).mpr ⟨e, hgap.sound issuer hissuer e he, m, hm, htouches, rfl⟩,
            hhash, hconcerns⟩
        rcases hacc with haccount | ⟨h, hh, haccount⟩
        · rcases hagrees issuer hissuer e he m hm htouches with hconcerns | ⟨l, hl, hkey⟩
          · exact Or.inr (hin issuer hconcerns haccount)
          · obtain ⟨hlhash, hladdress⟩ := Prod.mk.inj hkey
            have heq : l = r := by
              cases l
              cases r
              simp only at hlhash hladdress hhash haccount
              rw [hlhash, hladdress, hhash, haccount]
              rfl
            exact Or.inl (heq ▸ hl)
        · exact Or.inr (hin h.holder ⟨h, hh, Or.inl rfl⟩ haccount)

/-- **HEALING IS TAILING**, where the links agree: if no touched transaction changes
    lines whose codes are conflated, both paths run through, and they leave the same
    transactions, links and deltas if and only if every swept issuer that lists a
    touched transaction holds or issues what it touches, or is linked to it already.
    If one does (and is of ordinary size), neither path runs through. -/
theorem heal_equals_tail_iff (hgap : Gap X tracked txs issuers listed)
    {pages : List (String × BackfillPage)} (hpages : Sweeps issuers listed pages)
    {db : Archive} (hfk : db.ForeignKeys)
    (hregistered : ∀ iss ∈ tracked, ∃ r ∈ db.issuances, trackedIssuance r = iss)
    (provenance : Provenance) :
    ((∀ e ∈ txs, ∀ m, X.decodeMeta e.metaBlob = some m → Touches tracked m →
        ∀ iss ∈ tracked, ¬ ConflatedChange iss m) →
      ∃ d d', tailed X tracked provenance txs db = some d
        ∧ healed X tracked pages db = some d'
        ∧ (SameStored d d' ↔ LinksAgree X tracked issuers listed db))
      ∧ ∀ e ∈ txs, ∀ m, X.decodeMeta e.metaBlob = some m → Touches tracked m →
        m.nodes.length ≤ 20000 → ∀ iss ∈ tracked, ConflatedChange iss m →
        tailed X tracked provenance txs db = none ∧ healed X tracked pages db = none := by
  obtain ⟨tail, htail, htailJobs, htailActions⟩ := tailed_of_gap hgap provenance
  obtain ⟨heal, hheal, hhealJobs, hhealActions⟩ := healed_of_gap hgap hpages
  have htailed : tailed X tracked provenance txs db
      = (performAll X (tail.filterMap id) db).toOption := by
    unfold tailed
    rw [htail, Option.bind_some]
  have hhealed : healed X tracked pages db = (performAll X heal db).toOption := by
    unfold healed
    rw [hheal, Option.bind_some]
  constructor
  · intro hone
    have htailAgree : Agreeing X db (actionsOf (tail.filterMap id)) :=
      hgap.agreeing hregistered hone (fun a ha => by
        obtain ⟨e, he, m, hm, htouches, rfl⟩ := (htailActions a).mp ha
        exact ⟨e, he, m, hm, htouches, _, rfl⟩)
    have hhealAgree : Agreeing X db (actionsOf heal) :=
      hgap.agreeing hregistered hone (fun a ha => by
        obtain ⟨issuer, hissuer, e, he, m, hm, htouches, rfl⟩ := (hhealActions a).mp ha
        exact ⟨e, hgap.sound issuer hissuer e he, m, hm, htouches, _, rfl⟩)
    have hnojob : ∀ {ws : List Write}, (∀ w ∈ ws, w.job = none) → ∀ w ∈ ws, ∀ job ∈ w.job,
        ∃ r ∈ db.backfillJob, r.address = job.address := by
      intro ws hjobs w hw job hjob
      rw [hjobs w hw] at hjob
      cases hjob
    obtain ⟨d, hd⟩ := performAll_succeeds hfk htailAgree (hnojob htailJobs)
    obtain ⟨d', hd'⟩ := performAll_succeeds hfk hhealAgree (hnojob hhealJobs)
    refine ⟨d, d', ?_, ?_, ?_⟩
    · rw [htailed, hd]
      rfl
    · rw [hhealed, hd']
      rfl
    · exact same_iff_links hgap htailAgree htailActions hhealActions (performAll_ingests hd)
        (performAll_ingests hd')
  · intro e he m hm htouches hsize iss hiss hconflated
    have hblob : decodeMeta X e.metaBlob = some m := by
      rw [decodeMeta_of_ne (hgap.blobs e he).2, hm]
    have hno : ∀ {ws : List Write}, (∀ w ∈ ws, w.job = none) →
        (∃ accounts, entryAction X tracked e accounts ∈ actionsOf ws) →
        (performAll X ws db).toOption = none := by
      rintro ws hjobs ⟨accounts, haction⟩
      by_contra hsome
      obtain ⟨d, hd⟩ := Option.ne_none_iff_exists'.mp hsome
      have hnodup := performAll_once hjobs (toOption_some.mp hd) haction hblob hsize hiss
      exact (issuanceDeltas_nodup_iff (hgap.wellFormed e he m hm) iss).mp hnodup hconflated
    constructor
    · rw [htailed]
      exact hno htailJobs ⟨_, (htailActions _).mpr ⟨e, he, m, hm, htouches, rfl⟩⟩
    · rw [hhealed]
      obtain ⟨h, hh⟩ := List.exists_mem_of_ne_nil _ htouches
      obtain ⟨-, i, hi, hid, -⟩ := mem_holdersInMeta_iff.mp hh
      obtain ⟨a, -, ha⟩ := hgap.issuerOf hi
      obtain ⟨hissuer, hlist⟩ := hgap.listed_touched he hm hh i hi hid a ha
      exact hno hhealJobs ⟨_, (hhealActions _).mpr
        ⟨a, hissuer, e, hlist, m, hm, htouches, rfl⟩⟩

end Paths

/-! ## A mint that another issuer signs -/

/-- The transaction of `mintXrpl` that mints to `rAlice`. -/
def mintEntry : BinaryTxEntry := ⟨"tx", "mint", 200⟩

/-- The issuance of `rIssuer` that is minted. -/
def minted : IssuanceRow := { id := 1, kind := .mpt, mptIssuanceId := some "MPT" }

/-- An issuance of another issuer. -/
def other : IssuanceRow :=
  { id := 2, kind := .iou, currency := some "USD", issuerAccount := some "rOther" }

def gapArchive : Archive where
  issuances := (Table.empty.insertIgnore minted).insertIgnore other

/-- The sweeps of both issuers list the transaction. -/
def mintListed (_ : String) : List BinaryTxEntry := [mintEntry]

def mintPages (issuers : List String) : List (String × BackfillPage) :=
  issuers.map fun issuer => (issuer, ⟨[mintEntry], none, ⟨"clio", "now"⟩⟩)

theorem mint_gap {tracked : List TrackedIssuance} {issuers : List String}
    (hids : (tracked.map (·.id)).Nodup) (hnames : ∀ iss ∈ tracked, NamesIssuer iss)
    (hswept : issuerAddresses mintXrpl tracked = some issuers) :
    Gap mintXrpl tracked [mintEntry] issuers mintListed where
  ids := hids
  names := hnames
  swept := hswept
  blobs := by decide
  decodes := by
    intro e he
    rw [List.mem_singleton.mp he]
    exact ⟨rfl, rfl⟩
  wellFormed := by
    intro e he m hm
    rw [List.mem_singleton.mp he] at hm
    cases hm
    decide
  hashes := by
    intro e he e' he' _
    rw [List.mem_singleton.mp he, List.mem_singleton.mp he']
  sound := fun _ _ _ h => h
  complete := fun _ h _ _ _ _ _ _ _ _ => h

theorem mint_sweeps (issuers : List String) : Sweeps issuers mintListed (mintPages issuers) where
  sweeps := by
    intro p hp
    obtain ⟨issuer, hissuer, rfl⟩ := List.mem_map.mp hp
    exact hissuer
  reads := by
    intro a ha e
    constructor
    · exact fun he => ⟨_, List.mem_map_of_mem ha, rfl, he⟩
    · rintro ⟨p, hp, -, he⟩
      obtain ⟨issuer, -, rfl⟩ := List.mem_map.mp hp
      exact he

/-- With the minted issuance alone tracked, the heal leaves what the tail does. -/
theorem heal_equals_tail_iff_mint : ∃ d d',
    tailed mintXrpl [trackedIssuance minted] ⟨"rippled", "later"⟩ [mintEntry] gapArchive = some d
      ∧ healed mintXrpl [trackedIssuance minted] (mintPages ["rIssuer"]) gapArchive = some d'
      ∧ SameStored d d' := by
  have hgap : Gap mintXrpl [trackedIssuance minted] [mintEntry] ["rIssuer"] mintListed := by
    refine mint_gap (by decide) ?_ (by decide)
    intro iss hiss
    rw [List.mem_singleton.mp hiss]
    exact ⟨"MPT", rfl, by decide⟩
  obtain ⟨d, d', hd, hd', hsame⟩ := (heal_equals_tail_iff hgap (mint_sweeps ["rIssuer"])
    (by decide : gapArchive.ForeignKeys) (by
      intro iss hiss
      rw [List.mem_singleton.mp hiss]
      exact ⟨minted, by decide, rfl⟩) ⟨"rippled", "later"⟩).1 (by
      rintro e - m - - iss hiss ⟨hiou, -⟩
      rw [List.mem_singleton.mp hiss] at hiou
      cases hiou)
  refine ⟨d, d', hd, hd', hsame.mpr ?_⟩
  intro issuer hissuer e he m hm htouches
  rw [List.mem_singleton.mp he] at hm
  cases hm
  rw [List.mem_singleton.mp hissuer]
  exact Or.inl ⟨⟨1, "rAlice"⟩, by decide, Or.inr ⟨trackedIssuance minted, by decide, rfl, rfl⟩⟩

/-- With an issuance of `rOther` tracked too, whose `account_tx` lists the mint, the
    heal links `rOther` to it and the tail does not. -/
theorem heal_links_other : ∃ d d',
    Gap mintXrpl [trackedIssuance minted, trackedIssuance other] [mintEntry]
        ["rIssuer", "rOther"] mintListed
      ∧ Sweeps ["rIssuer", "rOther"] mintListed (mintPages ["rIssuer", "rOther"])
      ∧ tailed mintXrpl [trackedIssuance minted, trackedIssuance other]
          ⟨"rippled", "later"⟩ [mintEntry] gapArchive = some d
      ∧ healed mintXrpl [trackedIssuance minted, trackedIssuance other]
          (mintPages ["rIssuer", "rOther"]) gapArchive = some d'
      ∧ ¬ SameStored d d' := by
  have hgap : Gap mintXrpl [trackedIssuance minted, trackedIssuance other] [mintEntry]
      ["rIssuer", "rOther"] mintListed := by
    refine mint_gap (by decide) ?_ (by decide)
    intro iss hiss
    rcases List.mem_pair.mp hiss with rfl | rfl
    · exact ⟨"MPT", rfl, by decide⟩
    · exact ⟨"rOther", rfl, by decide⟩
  have htail : (tailed mintXrpl [trackedIssuance minted, trackedIssuance other]
      ⟨"rippled", "later"⟩ [mintEntry] gapArchive).map (fun d =>
        decide (⟨"tx", "rOther"⟩ ∈ d.accountTransactions)) = some false := by
    decide +kernel
  have hheal : (healed mintXrpl [trackedIssuance minted, trackedIssuance other]
      (mintPages ["rIssuer", "rOther"]) gapArchive).map (fun d =>
        decide (⟨"tx", "rOther"⟩ ∈ d.accountTransactions)) = some true := by
    decide +kernel
  obtain ⟨d, hd, hno⟩ := Option.map_eq_some_iff.mp htail
  obtain ⟨d', hd', hyes⟩ := Option.map_eq_some_iff.mp hheal
  refine ⟨d, d', hgap, mint_sweeps _, hd, hd', fun hsame => ?_⟩
  exact of_decide_eq_false hno ((hsame.links _).mpr (of_decide_eq_true hyes))

end RegistrarHealTail
