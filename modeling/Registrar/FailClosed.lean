import Registrar.GatewayIsolation
import Registrar.Station

/-! # What a total rests on

    `gateway_balances` refuses a ledger outside the window it computes from the coverage
    rows of an issuance's holders and the highest row of `ledgers`.  The rows are of
    accounts and may be of another issuance, and a row of `ledgers` may be a close time
    looked up: a total is complete where a sweep of the issuance has come to its end, it
    or the tail has been at the ledger, and what came after its last page is stored. -/

namespace RegistrarFailClosed

open KeyedTable Runs Statements RegistrarMetadata RegistrarArchive RegistrarIngest
open RegistrarBackfill RegistrarReads RegistrarTail RegistrarWritten RegistrarStation
open RegistrarScans (Site Scan Finished)
open RegistrarStored (mem_holdersInMeta)
open RegistrarGateway (trustLine linesXrpl usdIssuance eurIssuance)

/-! ## What a total claims -/

/-- A sweep of the issuance has come to its end. -/
structure Swept (s : Station) (i : IssuanceRow) (f : Finished) : Prop where
  finished : f ∈ s.finished
  kind : f.kind = .issuer
  issuance : f.issuance = trackedIssuance i

/-- The tail has recorded the ledger or a later one. -/
def Tailed (s : Station) (ledger : ℕ) : Prop := ∃ w ∈ s.tail.recorded, ledger ≤ w.ledger

instance (s : Station) (ledger : ℕ) : Decidable (Tailed s ledger) :=
  inferInstanceAs (Decidable (∃ w ∈ s.tail.recorded, _))

/-- Every upstream transaction that touches the issuance, from its configured start on,
    above one ledger and up to another, is stored with its deltas. -/
def StoredAfter (X : Xrpl) (U : Upstream) (db : Archive) (i : IssuanceRow) (after upTo : ℕ) :
    Prop :=
  ∀ e, U.Has e → Touches X (trackedIssuance i) e → i.backfillFromLedger ≤ e.ledgerIndex →
    after < e.ledgerIndex → e.ledgerIndex ≤ upTo → StoredFor X db (trackedIssuance i) e

/-- Every upstream transaction that touches the issuance, from its configured start up to
    the ledger, is stored with its deltas. -/
def Complete (X : Xrpl) (U : Upstream) (db : Archive) (i : IssuanceRow) (ledger : ℕ) : Prop :=
  ∀ e, U.Has e → Touches X (trackedIssuance i) e → i.backfillFromLedger ≤ e.ledgerIndex →
    e.ledgerIndex ≤ ledger → StoredFor X db (trackedIssuance i) e

/-- **NOTHING PARTIAL**: each enabled IOU issuance of the issuer is complete up to the
    ledger, has been swept, and the ledger is one that its sweep or the tail has been
    at. -/
structure FailsClosed (X : Xrpl) (U : Upstream) (s : Station) (issuer : String)
    (ledger : ℕ) : Prop where
  complete : ∀ i ∈ gatewayIssuances s.tail.db issuer, Complete X U s.tail.db i ledger
  swept : ∀ i ∈ gatewayIssuances s.tail.db issuer, ∃ f, Swept s i f
  reached : ∀ i ∈ gatewayIssuances s.tail.db issuer,
    (∃ f, Swept s i f ∧ ledger ≤ f.validated) ∨ Tailed s ledger

/-- A sweep of the issuance has come to its end and either read up to the ledger, or the
    tail has been there and what came after the last page of the sweep is stored. -/
def Scanned (X : Xrpl) (U : Upstream) (s : Station) (i : IssuanceRow) (ledger : ℕ) : Prop :=
  ∃ f, Swept s i f ∧ (ledger ≤ f.validated
    ∨ (Tailed s ledger ∧ StoredAfter X U s.tail.db i f.validated ledger))

section Totals

variable {X : Xrpl} {U : Upstream} {s : Station} {i : IssuanceRow} {ledger : ℕ}

/-- What a sweep has read is stored for its issuance. -/
theorem Swept.complete (hU : U.Sound X) (hI : RegistrarScans.Inv X U s.site)
    (hi : i ∈ s.tail.db.issuances) {f : Finished} (hf : Swept s i f) :
    Complete X U s.tail.db i f.validated := by
  obtain ⟨hfinished, hkind, hissuance⟩ := hf
  have hok := hI.finished f hfinished
  intro e he htouch hfrom hto
  rw [← hissuance] at htouch ⊢
  have hstart : f.fromLedger ≤ e.ledgerIndex :=
    (hok.start i hi (congrArg TrackedIssuance.id hissuance).symm).trans hfrom
  exact hok.complete e (hU.lists he htouch (hok.issuer hkind)) hstart hto htouch

theorem Complete.mono {ledger' : ℕ} (h : Complete X U s.tail.db i ledger')
    (hle : ledger ≤ ledger') : Complete X U s.tail.db i ledger :=
  fun e he htouch hfrom hto => h e he htouch hfrom (hto.trans hle)

/-- Up to its last page by the sweep, after it by the tail. -/
theorem Scanned.complete (hU : U.Sound X) (hI : RegistrarScans.Inv X U s.site)
    (hi : i ∈ s.tail.db.issuances) (h : Scanned X U s i ledger) :
    Complete X U s.tail.db i ledger := by
  obtain ⟨f, hf, hreached⟩ := h
  have hread := hf.complete hU hI hi
  rcases hreached with hle | ⟨-, hafter⟩
  · exact hread.mono hle
  · intro e he htouch hfrom hto
    by_cases hle : e.ledgerIndex ≤ f.validated
    · exact hread e he htouch hfrom hle
    · exact hafter e he htouch hfrom (not_le.mp hle) hto

theorem mem_issuances_of_gateway {db : Archive} {issuer : String}
    (h : i ∈ gatewayIssuances db issuer) : i ∈ db.issuances := by
  unfold gatewayIssuances at h
  exact (List.mem_filter.mp ((List.mem_insertionSort _).mp h)).1

/-- **A TOTAL IS NOT PARTIAL** exactly where each issuance is scanned. -/
theorem failsClosed_iff (hU : U.Sound X) (hI : RegistrarScans.Inv X U s.site)
    (issuer : String) (ledger : ℕ) : FailsClosed X U s issuer ledger ↔
      ∀ i ∈ gatewayIssuances s.tail.db issuer, Scanned X U s i ledger := by
  constructor
  · intro h i hi
    have hafter : ∀ after, StoredAfter X U s.tail.db i after ledger :=
      fun after e he htouch hfrom _ hto => h.complete i hi e he htouch hfrom hto
    rcases h.reached i hi with ⟨f, hf, hle⟩ | htailed
    · exact ⟨f, hf, Or.inl hle⟩
    · obtain ⟨f, hf⟩ := h.swept i hi
      exact ⟨f, hf, Or.inr ⟨htailed, hafter f.validated⟩⟩
  · intro h
    refine ⟨fun i hi => ?_, fun i hi => ?_, fun i hi => ?_⟩
    · exact (h i hi).complete hU hI (mem_issuances_of_gateway hi)
    · obtain ⟨f, hf, -⟩ := h i hi
      exact ⟨f, hf⟩
    · obtain ⟨f, hf, hle | ⟨htailed, -⟩⟩ := h i hi
      · exact Or.inl ⟨f, hf, hle⟩
      · exact Or.inr htailed

/-- Where the tail brings what it watches, it is enough that the ledgers are passed. -/
theorem scanned_of_passed (hU : U.Sound X) (hI : Inv X U (StoredFor X) s)
    (hi : i ∈ s.tail.db.issuances) {f : Finished} (hf : Swept s i f)
    (htailed : ledger ≤ f.validated ∨ Tailed s ledger)
    (hpassed : ∀ m, f.validated < m → m ≤ ledger → Passed s f m) :
    Scanned X U s i ledger := by
  refine ⟨f, hf, htailed.imp_right fun htailed => ⟨htailed, ?_⟩⟩
  intro e he htouch hfrom hafter hto
  have hok := hI.site.finished f hf.finished
  have hstart : f.fromLedger ≤ e.ledgerIndex :=
    (hok.start i hi (congrArg TrackedIssuance.id hf.issuance).symm).trans hfrom
  rw [← hf.issuance] at htouch ⊢
  exact hI.passed hU (lasting_storedFor X U) hf.finished hf.kind he htouch hstart
    (hpassed e.ledgerIndex hafter hto)

end Totals

/-- What holds of the writers in every run. -/
theorem site_of_steps {X : Xrpl} {U : Upstream} (hU : U.Sound X) {s₀ s : Station}
    (hstart : Fresh s₀) (hrun : Steps (step X U) anyStep s₀ s) :
    RegistrarScans.Inv X U s.site :=
  (hrun.inv (Inv X U anyStorage) hstart.inv
    (fun _ _ _ hI _ hs => hI.unassumed hU hs)).site

/-- An answer is about an issuer of some issuance. -/
theorem gatewayIssuances_ne_nil {db : Archive} {req : GatewayRequest} {answer : GatewayAnswer}
    (h : handleGatewayBalances db req = .ok answer) :
    gatewayIssuances db answer.account ≠ [] := by
  obtain ⟨account, hotwallets, ledger, -, hsome, -, hanswer⟩ := handleGatewayBalances_ok h
  have haccount : answer.account = account := by
    rw [hanswer]
    exact (foldl_addIssuance_fields db account hotwallets ledger _ _).1
  rw [haccount]
  exact hsome

def usdEntry : BinaryTxEntry := ⟨"t1", "usd", 100⟩

def usdLater : BinaryTxEntry := ⟨"t2", "usd2", 300⟩

def eurEntry : BinaryTxEntry := ⟨"t3", "eur", 150⟩

def eurLater : BinaryTxEntry := ⟨"t4", "eur2", 160⟩

/-- The parties' `account_tx`; the marker `next` lies between the euros. -/
def linesUpstream : Upstream where
  accountTx account :=
    if account = "rUsd" then [usdEntry, usdLater]
    else if account = "rEur" then [eurEntry, eurLater]
    else if account = "rHolder" then [usdEntry, eurEntry]
    else if account = "rOther" then [usdLater, eurLater]
    else []
  passed marker e := marker = "next" && e = eurEntry

theorem linesUpstream_has {e : BinaryTxEntry} (h : linesUpstream.Has e) :
    e ∈ [usdEntry, usdLater, eurEntry, eurLater] := by
  obtain ⟨account, h⟩ := h
  unfold linesUpstream at h
  dsimp only at h
  split at h
  · rcases List.mem_pair.mp h with rfl | rfl <;> decide
  split at h
  · rcases List.mem_pair.mp h with rfl | rfl <;> decide
  split at h
  · rcases List.mem_pair.mp h with rfl | rfl <;> decide
  split at h
  · rcases List.mem_pair.mp h with rfl | rfl <;> decide
  · exact nomatch h

/-- What a trust line touches is issued by one of its parties. -/
theorem trustLine_issuer {X : Xrpl} {currency issuer holder : String} {value : ℚ}
    {w : AffectedNode} (hw : trustLine currency issuer holder value = some w)
    {iss : TrackedIssuance} {d : DetectedHolder} (h : d ∈ nodeHolders [iss] w) :
    trackedIssuerOf X iss = some holder ∨ trackedIssuerOf X iss = some issuer := by
  cases Option.some.inj hw
  obtain ⟨i, hi, hmap⟩ := List.mem_filterMap.mp h
  cases List.mem_singleton.mp hi
  obtain ⟨name, hname, -⟩ := Option.map_eq_some_iff.mp hmap
  obtain ⟨hname, -⟩ := Option.filter_eq_some_iff.mp hname
  cases hkind : iss.kind with
  | mpt => exact absurd hname (by simp [hkind])
  | iou =>
      simp only [hkind] at hname
      obtain ⟨info, hinfo, -⟩ : ∃ info, holderInfo _ (iss.issuer.getD "")
        (iss.currency.getD "") = some info ∧ info.holder = name := by simpa using hname
      unfold holderInfo at hinfo
      obtain ⟨-, hinfo⟩ := Option.ite_none_left_eq_some.mp hinfo
      have hissuer : trackedIssuerOf X iss = some (iss.issuer.getD "") := by
        unfold trackedIssuerOf
        rw [hkind]
      rw [hissuer]
      by_cases hlow : holder = iss.issuer.getD ""
      · exact Or.inl (congrArg some hlow.symm)
      · by_cases hhigh : issuer = iss.issuer.getD ""
        · exact Or.inr (congrArg some hhigh.symm)
        · exact absurd hinfo (by simp [amountIssuer, hlow, hhigh])

/-- Each transaction is one trust line, which its parties' `account_tx` list. -/
theorem linesUpstream_line {e : BinaryTxEntry} (he : linesUpstream.Has e) :
    ∃ currency issuer holder value, decodeMeta linesXrpl e.metaBlob
        = some { affectedNodes := some [trustLine currency issuer holder value] }
      ∧ e ∈ linesUpstream.accountTx issuer ∧ e ∈ linesUpstream.accountTx holder := by
  have he := linesUpstream_has he
  simp only [List.mem_cons, List.not_mem_nil, or_false] at he
  rcases he with rfl | rfl | rfl | rfl
  · exact ⟨"USD", "rUsd", "rHolder", 5, rfl, by decide, by decide⟩
  · exact ⟨"USD", "rUsd", "rOther", 3, rfl, by decide, by decide⟩
  · exact ⟨"EUR", "rEur", "rHolder", 7, rfl, by decide, by decide⟩
  · exact ⟨"EUR", "rEur", "rOther", 1, rfl, by decide, by decide⟩

theorem linesUpstream_sound : linesUpstream.Sound linesXrpl where
  blob := by
    intro e he
    have hall : ∀ e ∈ [usdEntry, usdLater, eurEntry, eurLater], e.metaBlob ≠ "" := by decide
    exact hall e (linesUpstream_has he)
  hash := by
    intro e e' he he' hhash
    have hall : ∀ e ∈ [usdEntry, usdLater, eurEntry, eurLater],
        ∀ e' ∈ [usdEntry, usdLater, eurEntry, eurLater], e.txBlob = e'.txBlob → e = e' := by
      decide
    exact hall e (linesUpstream_has he) e' (linesUpstream_has he') hhash
  lists := by
    intro e iss issuer he htouch hissuer
    obtain ⟨m, hm, hne⟩ := htouch
    obtain ⟨d, hd⟩ := List.exists_mem_of_ne_nil _ hne
    obtain ⟨w, hw, hd⟩ := mem_holdersInMeta.mp hd
    obtain ⟨currency, issuer', holder, value, hline, hbyIssuer, hbyHolder⟩ :=
      linesUpstream_line he
    cases hm.symm.trans hline
    cases List.mem_singleton.mp hw
    rcases trustLine_issuer (X := linesXrpl) rfl hd with h | h
    · cases Option.some.inj (hissuer.symm.trans h)
      exact hbyHolder
    · cases Option.some.inj (hissuer.symm.trans h)
      exact hbyIssuer
  bounded := by
    intro e m he hm
    obtain ⟨currency, issuer, holder, value, hline, -⟩ := linesUpstream_line he
    cases hm.symm.trans hline
    show 1 ≤ 20000
    decide

def usdRow : IssuanceRow :=
  { id := 1, kind := .iou, currency := some "USD", issuerAccount := some "rUsd" }

def eurRow : IssuanceRow :=
  { id := 2, kind := .iou, currency := some "EUR", issuerAccount := some "rEur" }

def sweepJob (id : ℕ) (issuer : String) : BackfillJobRow :=
  { id, address := issuer, issuanceId := id, fromLedger := some 0, kind := .issuer }

/-- An issuance is registered, and its sweep reads a page. -/
def sweeps (i : IssuanceRow) (issuer : String) (entries : List BinaryTxEntry)
    (marker : Option String) : List Action :=
  [.site (.register i), .site (.insertAccount issuer), .site (.enqueue i issuer .issuer),
    .site (.begin .issuer (trackedIssuance i) (sweepJob i.id issuer)),
    .site (.read (Scan.begin .issuer (trackedIssuance i) (sweepJob i.id issuer)) []
      ⟨entries, marker, ⟨"clio", "now"⟩⟩ 300)]

def linesStation : Station where
  tail := { db := {} }
  validated := 300
  since := fun _ => 0

theorem linesStation_fresh : Fresh linesStation where
  site := ⟨nofun, rfl, rfl, rfl⟩
  tail := ⟨by decide, rfl, rfl, rfl, rfl, rfl⟩
  since := nofun
  mended := rfl
  starts := rfl

def totalOf (issuer : String) : GatewayRequest :=
  { account := some issuer, ledgerIndex := some (.index 200) }

end RegistrarFailClosed
