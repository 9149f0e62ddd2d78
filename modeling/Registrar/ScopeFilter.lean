import Registrar.DeltaKeys
import Registrar.HistoryLinks

/-! # The scope filter

    Three functions walk the affected nodes of a transaction: `mptDeltas` and
    `iouDeltas` for balance changes, `holdersInMeta` for the holders it touches.
    The sweep keeps an entry, and the tail an event, for what the last one finds.
    `mem_holdersInMeta_iff` says what it finds in terms of the nodes, and with it
    that no balance change is dropped. -/

namespace RegistrarFilter

open Statements RegistrarMetadata RegistrarArchive RegistrarIngest RegistrarBackfill
open RegistrarSweep RegistrarStored RegistrarTail RegistrarKeys RegistrarLinks

/-! ## Holders by the nodes -/

/-- The transaction touches the account's `MPToken` of the issuance, or its
    `RippleState` with the issuer in the issuance's currency. -/
inductive HoldsIn (iss : TrackedIssuance) (m : Meta) (holder : String) : Prop
  | token (w : AffectedNode) (node : Node) (fields : Fields) (hw : w ∈ m.nodes)
      (hnode : w.node = some node) (hfields : node.fields = some fields)
      (hkind : iss.kind = .mpt) (htype : node.ledgerEntryType = some "MPToken")
      (hid : fields.mptokenIssuanceID = some (iss.mptIssuanceId.getD ""))
      (hholder : fields.account = some holder)
  | line (w : AffectedNode) (node : Node) (fields : Fields) (hw : w ∈ m.nodes)
      (hnode : w.node = some node) (hfields : node.fields = some fields)
      (hkind : iss.kind = .iou) (htype : node.ledgerEntryType = some "RippleState")
      (hcurrency : balanceCurrency fields = some (iss.currency.getD ""))
      (hparties : (amountIssuer fields.lowLimit = some (iss.issuer.getD "")
          ∧ amountIssuer fields.highLimit = some holder)
        ∨ (amountIssuer fields.lowLimit = some holder
          ∧ amountIssuer fields.highLimit = some (iss.issuer.getD "")))

theorem nodeHolder_iff {iss : TrackedIssuance} {type : Option String} {fields : Fields}
    {holder : String} :
    nodeHolder iss type fields = some holder ↔ holder ≠ "" ∧
      ((iss.kind = .mpt ∧ type = some "MPToken"
          ∧ fields.mptokenIssuanceID = some (iss.mptIssuanceId.getD "")
          ∧ fields.account = some holder)
        ∨ (iss.kind = .iou ∧ type = some "RippleState"
          ∧ ∃ info, holderInfo fields (iss.issuer.getD "") (iss.currency.getD "") = some info
            ∧ info.holder = holder)) := by
  unfold nodeHolder
  rw [Option.filter_eq_some_iff, decide_eq_true_eq, and_comm]
  refine and_congr_right (fun _ => ?_)
  by_cases htoken : iss.kind = .mpt ∧ type = some "MPToken"
      ∧ fields.mptokenIssuanceID = some (iss.mptIssuanceId.getD "")
  · rw [if_pos htoken]
    obtain ⟨hkind, htype, hid⟩ := htoken
    constructor
    · exact fun haccount => Or.inl ⟨hkind, htype, hid, haccount⟩
    · rintro (⟨-, -, -, haccount⟩ | ⟨hiou, -⟩)
      · exact haccount
      · rw [hkind] at hiou
        cases hiou
  · rw [if_neg htoken]
    by_cases hline : iss.kind = .iou ∧ type = some "RippleState"
    · rw [if_pos hline, Option.map_eq_some_iff]
      constructor
      · exact fun hinfo => Or.inr ⟨hline.1, hline.2, hinfo⟩
      · rintro (⟨hkind, htype, hid, -⟩ | ⟨-, -, hinfo⟩)
        · exact absurd ⟨hkind, htype, hid⟩ htoken
        · exact hinfo
    · rw [if_neg hline]
      constructor
      · intro hnone
        cases hnone
      · rintro (⟨hkind, htype, hid, -⟩ | ⟨hkind, htype, -⟩)
        · exact absurd ⟨hkind, htype, hid⟩ htoken
        · exact absurd ⟨hkind, htype⟩ hline

/-- **WHAT THE DETECTOR REPORTS**: the named holders of the tracked issuances whose
    objects the transaction touches. -/
theorem mem_holdersInMeta_iff {m : Meta} {tracked : List TrackedIssuance} {d : DetectedHolder} :
    d ∈ holdersInMeta m tracked ↔
      d.holder ≠ "" ∧ ∃ iss ∈ tracked, iss.id = d.issuanceId ∧ HoldsIn iss m d.holder := by
  rw [mem_holdersInMeta]
  constructor
  · rintro ⟨w, hw, hd⟩
    unfold nodeHolders at hd
    cases hnode : w.node with
    | none =>
        rw [hnode, Option.bind_none] at hd
        exact absurd hd List.not_mem_nil
    | some node =>
        rw [hnode, Option.bind_some] at hd
        cases hfields : node.fields with
        | none =>
            rw [hfields, Option.map_none] at hd
            exact absurd hd List.not_mem_nil
        | some fields =>
            rw [hfields, Option.map_some] at hd
            obtain ⟨iss, hiss, hd⟩ := List.mem_filterMap.mp hd
            obtain ⟨holder, hholder, rfl⟩ := Option.map_eq_some_iff.mp hd
            obtain ⟨hne, ⟨hkind, htype, hid, haccount⟩ | ⟨hkind, htype, hinfo⟩⟩ :=
              nodeHolder_iff.mp hholder
            · exact ⟨hne, iss, hiss, rfl,
                .token w node fields hw hnode hfields hkind htype hid haccount⟩
            · obtain ⟨hcurrency, hparties⟩ := holderInfo_iff.mp hinfo
              exact ⟨hne, iss, hiss, rfl,
                .line w node fields hw hnode hfields hkind htype hcurrency hparties⟩
  · rintro ⟨hne, iss, hiss, hid, hholds⟩
    have hmem : ∀ (w : AffectedNode) (node : Node) (fields : Fields), w.node = some node →
        node.fields = some fields →
        nodeHolder iss node.ledgerEntryType fields = some d.holder →
        d ∈ nodeHolders tracked w := by
      intro w node fields hnode hfields hholder
      unfold nodeHolders
      rw [hnode, Option.bind_some, hfields, Option.map_some]
      refine List.mem_filterMap.mpr ⟨iss, hiss, ?_⟩
      rw [hholder, Option.map_some, hid]
    cases hholds with
    | token w node fields hw hnode hfields hkind htype hissuance haccount =>
        exact ⟨w, hw, hmem w node fields hnode hfields
          (nodeHolder_iff.mpr ⟨hne, Or.inl ⟨hkind, htype, hissuance, haccount⟩⟩)⟩
    | line w node fields hw hnode hfields hkind htype hcurrency hparties =>
        exact ⟨w, hw, hmem w node fields hnode hfields (nodeHolder_iff.mpr
          ⟨hne, Or.inr ⟨hkind, htype, holderInfo_iff.mpr ⟨hcurrency, hparties⟩⟩⟩)⟩

/-- Each pair is reported once. -/
theorem holdersInMeta_nodup (m : Meta) (tracked : List TrackedIssuance) :
    (holdersInMeta m tracked).Nodup := by
  have hfold : ∀ l out : List DetectedHolder, out.Nodup →
      (l.foldl (fun out h => if h ∈ out then out else out ++ [h]) out).Nodup := by
    intro l
    induction l with
    | nil => exact fun out hout => hout
    | cons h l ih =>
        intro out hout
        rw [List.foldl_cons]
        by_cases hin : h ∈ out
        · rw [if_pos hin]
          exact ih out hout
        · rw [if_neg hin]
          exact ih _ (hout.append (List.nodup_singleton h) (List.disjoint_singleton.mpr hin))
  exact hfold _ [] List.nodup_nil

/-! ## What is kept and linked -/

/-- An account with a balance change is reported. -/
theorem reported_of_delta {m : Meta} {tracked : List TrackedIssuance} {iss : TrackedIssuance}
    (hiss : iss ∈ tracked) {d : String × ℚ} (hd : d ∈ issuanceDeltas iss m) (hne : d.1 ≠ "") :
    ⟨iss.id, d.1⟩ ∈ holdersInMeta m tracked :=
  RegistrarWritten.holdersInMeta_mono hiss (holder_of_delta hd hne)

/-- The sweep keeps an entry that touches a holder, and links each of them. -/
theorem mapper_keeps {X : Xrpl} {m : Meta} {tracked : List TrackedIssuance}
    {entry : BinaryTxEntry} (hmeta : X.decodeMeta entry.metaBlob = some m)
    (htx : (X.decodeTxType entry.txBlob).isSome) (hne : holdersInMeta m tracked ≠ [])
    (issuer : String) (provenance : Provenance) :
    ∃ b, issuerSweepEntryMapper X tracked issuer provenance entry = some (some b)
      ∧ ∀ h ∈ holdersInMeta m tracked, h.holder ∈ b.row.accounts := by
  obtain ⟨txType, htype⟩ := Option.isSome_iff_exists.mp htx
  have hrow : ∀ accounts, ∃ row, entryRow X entry provenance accounts = some row := by
    intro accounts
    unfold entryRow
    rw [htype, Option.map_some]
    exact ⟨_, rfl⟩
  obtain ⟨row, hrow⟩ := hrow
    (distinctBy id (issuer :: (holdersInMeta m tracked).map (·.holder)))
  have hmap : issuerSweepEntryMapper X tracked issuer provenance entry
      = some (some ⟨row, some m⟩) := by
    unfold issuerSweepEntryMapper
    rw [hmeta, Option.bind_some]
    exact (if_neg hne).trans (by rw [hrow, Option.map_some])
  refine ⟨_, hmap, fun h hh => ?_⟩
  obtain ⟨m', hm', -, -, -, -, hlinks⟩ := issuerSweepEntryMapper_some hmap
  cases Option.some.inj (hmeta.symm.trans hm')
  exact hlinks h hh

/-- The issuance ids of the metadata have 48 digits, as `decode` spells them. -/
def SpellsIssuances (m : Meta) : Prop :=
  ∀ w ∈ m.nodes, ∀ node, w.node = some node → ∀ fields, node.fields = some fields →
    ∀ id, fields.mptokenIssuanceID = some id → id.length = 48

theorem length_hexToBytes (n : ℕ) (l : List Char) (h : l.length = 2 * n) :
    (hexToBytes l).length = n := by
  induction n generalizing l with
  | zero =>
      cases List.length_eq_zero_iff.mp h
      rfl
  | succ n ih =>
      rcases l with _ | ⟨hi, _ | ⟨lo, rest⟩⟩
      · exact absurd h (by simp)
      · exact absurd h (by simp; omega)
      · simp only [List.length_cons] at h
        rw [hexToBytes, List.length_cons, ih rest (by omega)]

/-- The issuer of an issuance that is touched decodes. -/
theorem issuer_of_held {X : Xrpl} (hX : ∀ bytes, bytes.length = 20 →
      (X.encodeAccountID bytes).isSome) {m : Meta} (hm : SpellsIssuances m)
    {iss : TrackedIssuance} {holder : String} (h : HoldsIn iss m holder) :
    (trackedIssuerOf X iss).isSome := by
  unfold trackedIssuerOf
  cases h with
  | token w node fields hw hnode hfields hkind htype hid hholder =>
      simp only [hkind]
      refine hX _ (length_hexToBytes 20 _ ?_)
      rw [List.length_drop, String.length_toList,
        hm w hw node hnode fields hfields _ hid]
  | line w node fields hw hnode hfields hkind htype hcurrency hparties =>
      simp only [hkind]
      rfl

/-- The tail's filter returns: it decodes the issuers of touched issuances only. -/
theorem issuanceScope_isSome {X : Xrpl} (hX : ∀ bytes, bytes.length = 20 →
      (X.encodeAccountID bytes).isSome) {m : Meta} (hm : SpellsIssuances m)
    {tracked : List TrackedIssuance} (hids : (tracked.map (·.id)).Nodup) :
    ∃ accounts, issuanceScope X tracked (some m) = some accounts := by
  have hdecode : ∀ h ∈ holdersInMeta m tracked, ∃ l, holderAccounts X tracked h = some l := by
    intro h hh
    obtain ⟨-, iss, hiss, hid, hholds⟩ := mem_holdersInMeta_iff.mp hh
    unfold holderAccounts
    cases hfind : tracked.reverse.find? (fun iss => decide (iss.id = h.issuanceId)) with
    | none => exact ⟨_, rfl⟩
    | some iss' =>
        have hmem := List.mem_reverse.mp (List.mem_of_find?_eq_some hfind)
        have hid' : iss'.id = h.issuanceId := by
          have := List.find?_some hfind
          exact of_decide_eq_true this
        cases List.inj_on_of_nodup_map hids hmem hiss (hid'.trans hid.symm)
        obtain ⟨issuer, hissuer⟩ := Option.isSome_iff_exists.mp (issuer_of_held hX hm hholds)
        exact ⟨[h.holder, issuer],
          congrArg (Option.map (fun issuer => [h.holder, issuer])) hissuer⟩
  obtain ⟨lists, hlists, -⟩ := mapM_some hdecode
  exact ⟨_, congrArg (Option.map fun accounts : List (List String) =>
    distinctBy id accounts.flatten) hlists⟩

/-- **THE FILTER NEVER DROPS A BALANCE CHANGE**: every named account with a delta of a
    tracked issuance is reported, each pair once, and so is a holder whose balance did
    not change; and the sweep and the tail keep the transaction and link the account. -/
theorem scope_keeps_changes (X : Xrpl) (m : Meta) (tracked : List TrackedIssuance) :
    (∀ iss ∈ tracked, ∀ d ∈ issuanceDeltas iss m, d.1 ≠ "" →
        ⟨iss.id, d.1⟩ ∈ holdersInMeta m tracked)
      ∧ (holdersInMeta m tracked).Nodup
      ∧ (∀ iss ∈ tracked, ∀ holder, HoldsIn iss m holder → holder ≠ "" →
          ⟨iss.id, holder⟩ ∈ holdersInMeta m tracked)
      ∧ (∀ entry issuer provenance, X.decodeMeta entry.metaBlob = some m →
          (X.decodeTxType entry.txBlob).isSome →
          (∃ iss ∈ tracked, ∃ d ∈ issuanceDeltas iss m, d.1 ≠ "") →
          ∃ b, issuerSweepEntryMapper X tracked issuer provenance entry = some (some b)
            ∧ ∀ iss ∈ tracked, ∀ d ∈ issuanceDeltas iss m, d.1 ≠ "" → d.1 ∈ b.row.accounts)
      ∧ (∀ accounts, issuanceScope X tracked (some m) = some accounts →
          ∀ iss ∈ tracked, ∀ d ∈ issuanceDeltas iss m, d.1 ≠ "" → d.1 ∈ accounts)
      ∧ ((∀ bytes, bytes.length = 20 → (X.encodeAccountID bytes).isSome) →
          SpellsIssuances m → (tracked.map (·.id)).Nodup →
          ∃ accounts, issuanceScope X tracked (some m) = some accounts) := by
  refine ⟨fun iss hiss d hd hne => reported_of_delta hiss hd hne, holdersInMeta_nodup m tracked,
    fun iss hiss holder hholds hne => mem_holdersInMeta_iff.mpr ⟨hne, iss, hiss, rfl, hholds⟩,
    ?_, ?_, fun hX hm hids => issuanceScope_isSome hX hm hids⟩
  · rintro entry issuer provenance hmeta htx ⟨iss, hiss, d, hd, hne⟩
    have hsome : holdersInMeta m tracked ≠ [] :=
      List.ne_nil_of_mem (reported_of_delta hiss hd hne)
    obtain ⟨b, hmap, hlinks⟩ := mapper_keeps hmeta htx hsome issuer provenance
    exact ⟨b, hmap, fun iss hiss d hd hne => hlinks _ (reported_of_delta hiss hd hne)⟩
  · intro accounts hscope iss hiss d hd hne
    exact mem_issuanceScope hscope (reported_of_delta hiss hd hne)

/-! ### A receipt -/

/-- The 48 digits of an issuance. -/
def mintedId : String := "00000001" ++ String.ofList (List.replicate 40 '0')

/-- `rAlice` receives 5. -/
def minted : Meta where
  affectedNodes := some [some { createdNode := some {
    ledgerEntryType := some "MPToken", ledgerIndex := some "K"
    newFields := some {
      account := some "rAlice", mptokenIssuanceID := some mintedId, mptAmount := some "5" } } }]

def mintedXrpl : Xrpl where
  decodeMeta _ := some minted
  decodeTxType _ := some (some "Payment")
  hashSignedTx := id
  encodeAccountID _ := some "rIssuer"

def mintedIssuance : TrackedIssuance := { id := 1, kind := .mpt, mptIssuanceId := some mintedId }

/-- The sweep keeps it and the tail sees it, both for `rAlice`. -/
theorem scope_keeps_changes_minted :
    (∃ b, issuerSweepEntryMapper mintedXrpl [mintedIssuance] "rIssuer" ⟨"clio", "now"⟩
        ⟨"t1", "mint", 200⟩ = some (some b) ∧ "rAlice" ∈ b.row.accounts)
      ∧ ∃ accounts, issuanceScope mintedXrpl [mintedIssuance] (some minted) = some accounts
        ∧ "rAlice" ∈ accounts := by
  have hdelta : ("rAlice", 5) ∈ issuanceDeltas mintedIssuance minted := by decide +kernel
  have hin : mintedIssuance ∈ [mintedIssuance] := List.mem_singleton_self _
  obtain ⟨-, -, -, hsweep, htail, hdecodes⟩ :=
    scope_keeps_changes mintedXrpl minted [mintedIssuance]
  constructor
  · obtain ⟨b, hb, hlinks⟩ := hsweep ⟨"t1", "mint", 200⟩ "rIssuer" ⟨"clio", "now"⟩ rfl rfl
      ⟨mintedIssuance, hin, _, hdelta, by decide⟩
    exact ⟨b, hb, hlinks mintedIssuance hin _ hdelta (by decide)⟩
  · have hspells : SpellsIssuances minted := by
      intro w hw node hnode fields hfields id hid
      cases List.mem_singleton.mp hw
      cases hnode
      cases hfields
      cases hid
      decide
    obtain ⟨accounts, haccounts⟩ := hdecodes (fun _ _ => rfl) hspells (by decide)
    exact ⟨accounts, haccounts, htail accounts haccounts mintedIssuance hin _ hdelta (by decide)⟩

end RegistrarFilter
