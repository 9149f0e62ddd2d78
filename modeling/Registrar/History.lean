import Registrar.Library.Grouping
import Registrar.Library.ObjectLog
import Registrar.Metadata

/-! # Transaction histories with well-formed metadata

    A `History` is the sequence of the ledger's transactions together with what
    each of them did to the ledger objects of one type.  Its fields say that
    the metadata is well formed: the transactions stand in ledger order, every
    affected node of the type shows one object's change as rippled writes it,
    and each change starts from the state the earlier ones left.

    `mem_latestObjects` connects the reconstruction of object state to such a
    history: whatever part of it is archived in whatever order, a live object
    reconstructed for a holder is the one the ledger holds. -/

namespace RegistrarHistory

open KeyedTable ObjectLog RegistrarMetadata

/-! ## Positions -/

/-- A place in the ledger's history: ledger, then place in the ledger. -/
abbrev Position := ℕ ×ₗ ℕ

/-- Where a transaction stands. -/
def position (e : MetaEntry) : Position := toLex (e.ledgerIndex, e.transactionIndex)

theorem isNewer_iff {a b : ObjectState} :
    isNewer a b ↔ toLex (a.ledgerIndex, a.transactionIndex)
      < toLex (b.ledgerIndex, b.transactionIndex) := by
  rw [Prod.Lex.toLex_lt_toLex]
  exact or_congr Iff.rfl (and_congr eq_comm Iff.rfl)

/-! ## What metadata shows of a change -/

/-- How a node of a `type` object shows its change: the object's fields in
    `FinalFields` or `NewFields`, and `PreviousFields` as `records` says. -/
inductive Shows (type : String) (records : Fields → Fields → Option Fields → Prop) :
    AffectedNode → String × Change Fields → Prop
  | created {id : String} {new : Fields} {node : Node} :
      node.ledgerEntryType = some type → node.ledgerIndex = some id → id ≠ "" →
      node.fields = some new →
      Shows type records { createdNode := some node } (id, .created new)
  | modified {id : String} {old new : Fields} {node : Node} :
      node.ledgerEntryType = some type → node.ledgerIndex = some id → id ≠ "" →
      node.fields = some new → records old new node.previousFields →
      Shows type records { modifiedNode := some node } (id, .modified old new)
  | deleted {id : String} {old final : Fields} {node : Node} :
      node.ledgerEntryType = some type → node.ledgerIndex = some id → id ≠ "" →
      node.fields = some final → records old final node.previousFields →
      Shows type records { deletedNode := some node } (id, .deleted old final)

/-- The affected nodes of a transaction show exactly these changes of `type`
    objects; nodes of other types are of any shape. -/
inductive Reads (type : String) (records : Fields → Fields → Option Fields → Prop) :
    List AffectedNode → List (String × Change Fields) → Prop
  | nil : Reads type records [] []
  | other {w ws cs} : (∀ node, w.node = some node → node.ledgerEntryType ≠ some type) →
      Reads type records ws cs → Reads type records (w :: ws) cs
  | shown {w ws c cs} : Shows type records w c → Reads type records ws cs →
      Reads type records (w :: ws) (c :: cs)

/-- A sum over the nodes is the sum over the changes they show. -/
theorem Reads.sum_map {V : Type} [AddCommMonoid V] {type : String}
    {records : Fields → Fields → Option Fields → Prop} {ws : List AffectedNode}
    {cs : List (String × Change Fields)} {f : AffectedNode → V}
    {g : String × Change Fields → V} (hr : Reads type records ws cs)
    (hother : ∀ w, (∀ node, w.node = some node → node.ledgerEntryType ≠ some type) →
      f w = 0)
    (hshown : ∀ w, ∀ c ∈ cs, Shows type records w c → f w = g c) :
    (ws.map f).sum = (cs.map g).sum := by
  induction hr with
  | nil => rfl
  | other hw _ ih =>
      rw [List.map_cons, List.sum_cons, hother _ hw, ih hshown, zero_add]
  | shown hw _ ih =>
      rw [List.map_cons, List.map_cons, List.sum_cons, List.sum_cons,
        hshown _ _ List.mem_cons_self hw,
        ih (fun w c hc => hshown w c (List.mem_cons_of_mem _ hc))]

/-- The edits of the transactions, one after the other. -/
def logOf (entries : List MetaEntry)
    (changes : MetaEntry → List (String × Change Fields)) :
    List (Edit String Position Fields) :=
  entries.flatMap fun e => (changes e).map fun c => ⟨c.1, position e, c.2⟩

theorem logOf_append (es fs : List MetaEntry)
    (changes : MetaEntry → List (String × Change Fields)) :
    logOf (es ++ fs) changes = logOf es changes ++ logOf fs changes :=
  List.flatMap_append ..

theorem mem_logOf {entries : List MetaEntry}
    {changes : MetaEntry → List (String × Change Fields)}
    {x : Edit String Position Fields} :
    x ∈ logOf entries changes ↔
      ∃ e ∈ entries, ∃ c ∈ changes e, x = ⟨c.1, position e, c.2⟩ := by
  unfold logOf
  rw [List.mem_flatMap]
  refine exists_congr fun e => and_congr Iff.rfl ?_
  rw [List.mem_map]
  exact exists_congr fun c => and_congr Iff.rfl eq_comm

/-! ## Histories -/

/-- A history of transactions with well-formed metadata for the objects of one
    type. -/
structure History (type : String)
    (records : Fields → Fields → Option Fields → Prop) where
  entries : List MetaEntry
  /-- The changes each transaction made to the objects. -/
  changes : MetaEntry → List (String × Change Fields)
  sorted : entries.Pairwise (fun a b => position a < position b)
  reads : ∀ e ∈ entries, Reads type records e.metadata.nodes (changes e)
  distinct : ∀ e ∈ entries, ((changes e).map Prod.fst).Nodup
  follows : Follows (fun _ => none) (logOf entries changes)

namespace History

variable {type : String} {records : Fields → Fields → Option Fields → Prop}

/-- The edits of the history. -/
def log (H : History type records) : List (Edit String Position Fields) :=
  logOf H.entries H.changes

/-- The objects of the ledger after the history. -/
def store (H : History type records) : String → Option Fields :=
  replay (fun _ => none) H.log

/-- A property of the objects' identity. -/
def Keeps (H : History type records) (P : Fields → Prop) : Prop :=
  ∀ e ∈ H.log, e.change.Keeps P

theorem ordered_log (H : History type records) : Ordered H.log := by
  refine List.pairwise_flatMap.mpr ⟨?_, H.sorted.imp ?_⟩
  · intro e he
    refine List.pairwise_map.mpr ?_
    refine (List.pairwise_map.mp (H.distinct e he)).imp ?_
    intro c d hne hid
    exact absurd hid hne
  · rintro a b hab x hx y hy -
    obtain ⟨c, -, rfl⟩ := List.mem_map.mp hx
    obtain ⟨d, -, rfl⟩ := List.mem_map.mp hy
    exact hab

/-- A transaction is known by its position. -/
theorem eq_of_position_eq (H : History type records) {a b : MetaEntry}
    (ha : a ∈ H.entries) (hb : b ∈ H.entries) (h : position a = position b) :
    a = b := by
  have hnodup : (H.entries.map position).Nodup :=
    (List.pairwise_map.mpr H.sorted).imp ne_of_lt
  exact List.inj_on_of_nodup_map hnodup ha hb h

/-! ### The history up to a ledger -/

/-- The transactions up to a ledger. -/
def entriesUpTo (H : History type records) (ledger : ℕ) : List MetaEntry :=
  H.entries.filter (fun e => e.ledgerIndex ≤ ledger)

/-- Ledger order puts the transactions up to a ledger before the others. -/
theorem entries_split (H : History type records) (ledger : ℕ) :
    H.entries = H.entriesUpTo ledger
      ++ H.entries.filter (fun e => ¬ e.ledgerIndex ≤ ledger) := by
  refine Grouping.filter_split (H.sorted.imp ?_)
  intro a b hab hb
  rw [position, position, Prod.Lex.toLex_lt_toLex] at hab
  omega

/-- The history up to a ledger is a history. -/
def upTo (H : History type records) (ledger : ℕ) : History type records where
  entries := H.entriesUpTo ledger
  changes := H.changes
  sorted := H.sorted.filter _
  reads := fun e he => H.reads e (List.mem_of_mem_filter he)
  distinct := fun e he => H.distinct e (List.mem_of_mem_filter he)
  follows := by
    have h := H.follows
    rw [H.entries_split ledger, logOf_append] at h
    exact (follows_append.mp h).1

theorem mem_upTo {H : History type records} {ledger : ℕ} {e : MetaEntry} :
    e ∈ (H.upTo ledger).entries ↔ e ∈ H.entries ∧ e.ledgerIndex ≤ ledger := by
  show e ∈ H.entries.filter _ ↔ _
  rw [List.mem_filter, decide_eq_true_eq]

theorem log_upTo_subset {H : History type records} {ledger : ℕ}
    {x : Edit String Position Fields} (h : x ∈ (H.upTo ledger).log) :
    x ∈ H.log := by
  obtain ⟨e, he, c, hc, rfl⟩ := mem_logOf.mp h
  exact mem_logOf.mpr ⟨e, (mem_upTo.mp he).1, c, hc, rfl⟩

/-- No transaction comes after its last ledger. -/
theorem exists_upTo_eq (H : History type records) :
    ∃ ledger, (H.upTo ledger).entries = H.entries := by
  refine ⟨(H.entries.map (·.ledgerIndex)).sum, List.filter_eq_self.mpr ?_⟩
  intro e he
  refine decide_eq_true ?_
  exact List.single_le_sum (fun _ _ => Nat.zero_le _) _ (List.mem_map_of_mem he)

/-! ### Reconstructed objects are the ledger's -/

/-- What a change looks like to the reconstruction. -/
def observed (type : String) (e : MetaEntry) (c : String × Change Fields) :
    ObjectState where
  objectId := c.1
  entryType := type
  fields := c.2.shown
  deleted := c.2.after.isNone
  ledgerIndex := e.ledgerIndex
  transactionIndex := e.transactionIndex

theorem extractNode_shown {e : MetaEntry} {w : AffectedNode}
    {c : String × Change Fields} (htype : type ≠ "")
    (h : Shows type records w c) : extractNode e w = some (observed type e c) := by
  cases h with
  | created ht hi hid hf =>
      simp [extractNode, ht, hi, htype, hid, hf, observed, Change.shown, Change.after]
  | modified ht hi hid hf =>
      simp [extractNode, ht, hi, htype, hid, hf, observed, Change.shown, Change.after]
  | deleted ht hi hid hf =>
      simp [extractNode, ht, hi, htype, hid, hf, observed, Change.shown, Change.after]

theorem live_or_deleted (w : AffectedNode) :
    ((w.createdNode <|> w.modifiedNode) <|> w.deletedNode) = w.node := by
  cases w with
  | mk c m d => cases c <;> cases m <;> rfl

theorem extractNode_other {e : MetaEntry} {w : AffectedNode}
    (hw : ∀ node, w.node = some node → node.ledgerEntryType ≠ some type)
    {o : ObjectState} (h : extractNode e w = some o) : o.entryType ≠ type := by
  simp only [extractNode, live_or_deleted] at h
  cases hn : w.node with
  | none =>
      rw [hn] at h
      exact nomatch h
  | some node =>
      rw [hn] at h
      cases ht : node.ledgerEntryType with
      | none => simp [ht] at h
      | some t =>
          cases hi : node.ledgerIndex with
          | none => simp [ht, hi] at h
          | some id =>
              simp only [ht, hi] at h
              by_cases hempty : t = "" ∨ id = ""
              · rw [if_pos hempty] at h
                exact nomatch h
              · rw [if_neg hempty] at h
                cases h
                intro ho
                exact hw node hn (ht.trans (congrArg some ho))

theorem extractNodes_reads {e : MetaEntry} (htype : type ≠ "")
    {ws : List AffectedNode} {cs : List (String × Change Fields)}
    (h : Reads type records ws cs) {o : ObjectState} :
    (o ∈ ws.filterMap (extractNode e) ∧ o.entryType = type) ↔
      ∃ c ∈ cs, o = observed type e c := by
  induction h with
  | nil => simp
  | other hw _ ih =>
      rw [← ih, List.mem_filterMap, List.mem_filterMap, List.exists_mem_cons_iff]
      constructor
      · rintro ⟨h | h, ho⟩
        · exact absurd ho (extractNode_other hw h)
        · exact ⟨h, ho⟩
      · rintro ⟨h, ho⟩
        exact ⟨Or.inr h, ho⟩
  | shown hw _ ih =>
      rw [List.exists_mem_cons_iff, ← ih, List.mem_filterMap, List.mem_filterMap,
        List.exists_mem_cons_iff, extractNode_shown htype hw]
      constructor
      · rintro ⟨h | h, ho⟩
        · exact Or.inl (Option.some.inj h).symm
        · exact Or.inr ⟨h, ho⟩
      · rintro (rfl | ⟨h, ho⟩)
        · exact ⟨Or.inl rfl, rfl⟩
        · exact ⟨Or.inr h, ho⟩

theorem mem_extractNodes (H : History type records) (htype : type ≠ "")
    {e : MetaEntry} (he : e ∈ H.entries) {o : ObjectState} :
    (o ∈ extractNodes e ∧ o.entryType = type) ↔
      ∃ c ∈ H.changes e, o = observed type e c :=
  extractNodes_reads htype (H.reads e he)

/-- The observations the reconstruction filters by a predicate. -/
theorem mem_observations (H : History type records) (htype : type ≠ "")
    {stored : List MetaEntry} (hsub : ∀ e ∈ stored, e ∈ H.entries)
    {P : Fields → Prop} [DecidablePred P] {o : ObjectState} :
    o ∈ (stored.flatMap extractNodes).filter
        (fun o => decide (o.entryType = type ∧ P o.fields)) ↔
      ∃ e ∈ stored, ∃ c ∈ H.changes e, P c.2.shown ∧ o = observed type e c := by
  rw [List.mem_filter, List.mem_flatMap, decide_eq_true_eq]
  constructor
  · rintro ⟨⟨e, he, ho⟩, ht, hP⟩
    obtain ⟨c, hc, rfl⟩ := (H.mem_extractNodes htype (hsub e he)).mp ⟨ho, ht⟩
    exact ⟨e, he, c, hc, hP, rfl⟩
  · rintro ⟨e, he, c, hc, hP, rfl⟩
    have h := (H.mem_extractNodes htype (hsub e he)).mpr ⟨c, hc, rfl⟩
    exact ⟨⟨e, he, h.1⟩, h.2, hP⟩

theorem isNewer_observed {a b : MetaEntry} {c d : String × Change Fields} :
    isNewer (observed type a c) (observed type b d) ↔ position a < position b :=
  isNewer_iff

/-- Two changes of one object that stand at one place are one change. -/
theorem change_eq (H : History type records) {a b : MetaEntry}
    (ha : a ∈ H.entries) (hb : b ∈ H.entries) {c d : String × Change Fields}
    (hc : c ∈ H.changes a) (hd : d ∈ H.changes b) (hid : c.1 = d.1)
    (hpos : position a = position b) : a = b ∧ c = d := by
  cases H.eq_of_position_eq ha hb hpos
  exact ⟨rfl, List.inj_on_of_nodup_map (H.distinct a ha) hc hd hid⟩

/-- The reconstruction keeps the newest observation of each object. -/
theorem mem_latestObjects (H : History type records) (htype : type ≠ "")
    {stored : List MetaEntry} (hsub : ∀ e ∈ stored, e ∈ H.entries)
    {P : Fields → Prop} [DecidablePred P] {o : ObjectState} :
    o ∈ latestObjects stored (fun t f => decide (t = type ∧ P f)) ↔
      ∃ e ∈ stored, ∃ c ∈ H.changes e, P c.2.shown ∧ o = observed type e c
        ∧ ∀ e' ∈ stored, ∀ c' ∈ H.changes e', c'.1 = c.1 → P c'.2.shown →
            ¬ position e < position e' := by
  have htotal : ∀ a ∈ (stored.flatMap extractNodes).filter
      (fun o => decide (o.entryType = type ∧ P o.fields)),
      ∀ b ∈ (stored.flatMap extractNodes).filter
        (fun o => decide (o.entryType = type ∧ P o.fields)),
      a.objectId = b.objectId → isNewer a b ∨ a = b ∨ isNewer b a := by
    intro a ha b hb hid
    obtain ⟨e, he, c, hc, -, rfl⟩ := (H.mem_observations htype hsub).mp ha
    obtain ⟨e', he', c', hc', -, rfl⟩ := (H.mem_observations htype hsub).mp hb
    rw [isNewer_observed, isNewer_observed]
    rcases lt_trichotomy (position e) (position e') with h | h | h
    · exact Or.inl h
    · obtain ⟨rfl, rfl⟩ := H.change_eq (hsub e he) (hsub e' he') hc hc' hid h
      exact Or.inr (Or.inl rfl)
    · exact Or.inr (Or.inr h)
  have hnewest : o ∈ latestObjects stored (fun t f => decide (t = type ∧ P f)) ↔
      Table.NewestIn ObjectState.objectId isNewer
        ((stored.flatMap extractNodes).filter
          (fun o => decide (o.entryType = type ∧ P o.fields))) o := by
    refine Table.mem_foldl_newest ?_ ?_ ?_ htotal
    · intro old new hid
      rw [hid]
    · intro a h
      exact lt_irrefl _ (isNewer_iff.mp h)
    · intro a b c hab hbc
      exact isNewer_iff.mpr (lt_trans (isNewer_iff.mp hab) (isNewer_iff.mp hbc))
  rw [hnewest]
  constructor
  · rintro ⟨ho, hmax⟩
    obtain ⟨e, he, c, hc, hP, rfl⟩ := (H.mem_observations htype hsub).mp ho
    refine ⟨e, he, c, hc, hP, rfl, ?_⟩
    intro e' he' c' hc' hid hP' hlt
    exact hmax _ ((H.mem_observations htype hsub).mpr
      ⟨e', he', c', hc', hP', rfl⟩) hid (isNewer_observed.mpr hlt)
  · rintro ⟨e, he, c, hc, hP, rfl, hmax⟩
    refine ⟨(H.mem_observations htype hsub).mpr ⟨e, he, c, hc, hP, rfl⟩, ?_⟩
    intro y hy hid
    obtain ⟨e', he', c', hc', hP', rfl⟩ := (H.mem_observations htype hsub).mp hy
    rw [isNewer_observed]
    exact hmax e' he' c' hc' hid hP'

/-- **RECONSTRUCTION IS SOUND**: over any part of the history that has every
    transaction showing `Q`, a live reconstructed object with `Q` is the one
    the ledger holds, and each such object of the ledger is reconstructed. -/
theorem latestObjects_live (H : History type records) (htype : type ≠ "")
    {P Q : Fields → Prop} [DecidablePred P] (hP : H.Keeps P) (hQ : H.Keeps Q)
    (hQP : ∀ f, Q f → P f) {stored : List MetaEntry}
    (hsub : ∀ e ∈ stored, e ∈ H.entries)
    (hall : ∀ e ∈ H.entries, (∃ c ∈ H.changes e, Q c.2.shown) → e ∈ stored)
    {k : String} {f : Fields} (hf : Q f) :
    (∃ o ∈ latestObjects stored (fun t f => decide (t = type ∧ P f)),
        o.deleted = false ∧ o.objectId = k ∧ o.fields = f) ↔ H.store k = some f := by
  constructor
  · rintro ⟨o, ho, hlive, rfl, rfl⟩
    obtain ⟨e, he, c, hc, -, rfl, hmax⟩ := (H.mem_latestObjects htype hsub).mp ho
    obtain ⟨f, hafter⟩ : ∃ f, c.2.after = some f :=
      Option.isSome_iff_exists.mp (by simpa [observed] using hlive)
    have hshown : c.2.shown = f := Change.shown_of_after hafter
    have hnew : Newest Q H.log ⟨c.1, position e, c.2⟩ := by
      refine ⟨mem_logOf.mpr ⟨e, hsub e he, c, hc, rfl⟩, hf, ?_⟩
      intro x hx hid hQx
      obtain ⟨e', he', c', hc', rfl⟩ := mem_logOf.mp hx
      exact hmax e' (hall e' he' ⟨c', hc', hQx⟩) c' hc' hid (hQP _ hQx)
    have h := (replay_eq_newest H.follows H.ordered_log hQ).mpr
      ⟨_, hnew, rfl, hafter⟩
    show H.store c.1 = some c.2.shown
    rw [hshown]
    exact h.1
  · intro hstore
    obtain ⟨x, ⟨hx, -, hmax⟩, rfl, hafter⟩ :=
      (replay_eq_newest H.follows H.ordered_log hP).mp ⟨hstore, hQP f hf⟩
    obtain ⟨e, he, c, hc, rfl⟩ := mem_logOf.mp hx
    have hshown : c.2.shown = f := Change.shown_of_after hafter
    have hQc : Q c.2.shown := hshown ▸ hf
    refine ⟨observed type e c, (H.mem_latestObjects htype hsub).mpr
      ⟨e, hall e he ⟨c, hc, hQc⟩, c, hc, hQP _ hQc, rfl, ?_⟩, ?_, rfl, hshown⟩
    · intro e' he' c' hc' hid hP'
      exact hmax _ (mem_logOf.mpr ⟨e', hsub e' he', c', hc', rfl⟩) hid hP'
    · show c.2.after.isNone = false
      rw [hafter]
      rfl

/-! ### What a holder has on the ledger -/

section Holdings

variable {V : Type} [AddCommGroup V]

/-- What the object is worth to `h`: its value when `h` is its holder. -/
def heldBy (holderOf : Fields → Option String) (value : Fields → V) (h : String)
    (f : Fields) : V :=
  if holderOf f = some h then value f else 0

/-- What `h` has on the ledger after the history. -/
def balanceOn (H : History type records) (holderOf : Fields → Option String)
    (value : Fields → V) (h : String) : V :=
  ∑ k ∈ (H.log.map Edit.id).toFinset, measure (heldBy holderOf value h) (H.store k)

/-- Nobody holds two objects at once. -/
def OneEach (H : History type records) (holderOf : Fields → Option String) : Prop :=
  ∀ k k' f f' h, H.store k = some f → H.store k' = some f' →
    holderOf f = some h → holderOf f' = some h → k = k'

theorem id_mem_of_store {H : History type records} {k : String} {f : Fields}
    (h : H.store k = some f) : k ∈ (H.log.map Edit.id).toFinset := by
  rw [List.mem_toFinset]
  by_contra hout
  have hnone : H.store k = none :=
    replay_of_not_mem (fun e he hk => hout (List.mem_map.mpr ⟨e, he, hk⟩))
  exact nomatch hnone.symm.trans h

/-- A history of one object leaves nobody two. -/
theorem oneEach_of_one_id {H : History type records} (id : String)
    (h : ∀ x ∈ H.log, x.id = id) (holderOf : Fields → Option String) :
    H.OneEach holderOf := by
  have hid : ∀ k f, H.store k = some f → k = id := by
    intro k f hk
    obtain ⟨x, hx, rfl⟩ := List.mem_map.mp (List.mem_toFinset.mp (id_mem_of_store hk))
    exact h x hx
  intro k k' f f' _ hk hk' _ _
  rw [hid k f hk, hid k' f' hk']

theorem balanceOn_of_store {H : History type records}
    {holderOf : Fields → Option String} {value : Fields → V} {k h : String}
    {f : Fields} (hone : H.OneEach holderOf) (hk : H.store k = some f)
    (hf : holderOf f = some h) : H.balanceOn holderOf value h = value f := by
  unfold balanceOn
  rw [Finset.sum_eq_single k ?_ (fun hout => absurd (id_mem_of_store hk) hout), hk]
  · exact if_pos hf
  · intro k' _ hne
    cases hk' : H.store k' with
    | none => rfl
    | some f' => exact if_neg (fun hf' => hne (hone k' k f' f h hk' hk hf' hf))

theorem balanceOn_of_no_store {H : History type records}
    {holderOf : Fields → Option String} {value : Fields → V} {h : String}
    (hno : ∀ k f, H.store k = some f → holderOf f ≠ some h) :
    H.balanceOn holderOf value h = 0 := by
  refine Finset.sum_eq_zero ?_
  intro k _
  cases hk : H.store k with
  | none => rfl
  | some f => exact if_neg (hno k f hk)

/-- **RECONSTRUCTED BALANCES ARE THE LEDGER'S**: a list of balances taken from
    the live reconstructed objects has what the holder has on the ledger, and
    lists the holder if that is not zero. -/
theorem live_balances (H : History type records) (htype : type ≠ "")
    {holderOf : Fields → Option String} {value : Fields → V}
    {P : Fields → Prop} [DecidablePred P] {h : String} (hP : H.Keeps P)
    (hQ : H.Keeps (fun f => holderOf f = some h))
    (hQP : ∀ f, holderOf f = some h → P f) (hone : H.OneEach holderOf)
    {stored : List MetaEntry} (hsub : ∀ e ∈ stored, e ∈ H.entries)
    (hall : ∀ e ∈ H.entries, (∃ c ∈ H.changes e, holderOf c.2.shown = some h) →
      e ∈ stored) {l : List (AccountBalance V)}
    (hl : ∀ b, b ∈ l ↔ ∃ o ∈ latestObjects stored (fun t f => decide (t = type ∧ P f)),
      o.deleted = false ∧ holderOf o.fields = some b.account ∧ b.balance = value o.fields) :
    (∀ b ∈ l, b.account = h → b.balance = H.balanceOn holderOf value h)
      ∧ ((∀ b ∈ l, b.account ≠ h) → H.balanceOn holderOf value h = 0) := by
  constructor
  · rintro b hb rfl
    obtain ⟨o, ho, hdel, hholder, hbal⟩ := (hl b).mp hb
    have hstore := (H.latestObjects_live htype hP hQ hQP hsub hall hholder).mp
      ⟨o, ho, hdel, rfl, rfl⟩
    rw [hbal, balanceOn_of_store hone hstore hholder]
  · intro hno
    refine balanceOn_of_no_store ?_
    intro k f hk hf
    obtain ⟨o, ho, hdel, -, rfl⟩ :=
      (H.latestObjects_live htype hP hQ hQP hsub hall hf).mpr hk
    exact hno ⟨h, value o.fields⟩ ((hl _).mpr ⟨o, ho, hdel, hf, rfl⟩) rfl

/-- **SUMS OF REPORTED DELTAS**: where each transaction reports what its
    changes did to the holder plus an error, the reports add up to what the
    holder has on the ledger plus the errors. -/
theorem sum_reported (H : History type records) {holderOf : Fields → Option String}
    {value : Fields → V} {h : String} {reported : MetaEntry → V}
    {error : Change Fields → V}
    (hrep : ∀ e ∈ H.entries, reported e = ((H.changes e).map
      (fun c => c.2.gain (heldBy holderOf value h) + error c.2)).sum) :
    (H.entries.map reported).sum
      = H.balanceOn holderOf value h + (H.log.map (fun x => error x.change)).sum := by
  have hlog : (H.entries.map reported).sum
      = (H.log.map (fun x => x.change.gain (heldBy holderOf value h)
          + error x.change)).sum := by
    unfold log logOf
    rw [List.map_flatMap, List.flatMap_def, List.sum_flatten, List.map_map]
    refine congrArg List.sum (List.map_congr_left ?_)
    intro e he
    rw [hrep e he, Function.comp_apply, List.map_map]
    rfl
  have hids : ∀ x ∈ H.log, x.id ∈ (H.log.map Edit.id).toFinset :=
    fun x hx => List.mem_toFinset.mpr (List.mem_map_of_mem hx)
  have htel := sum_replay (heldBy holderOf value h) H.follows hids
  have hzero : ∑ k ∈ (H.log.map Edit.id).toFinset,
      measure (heldBy holderOf value h) ((fun _ => none : String → Option Fields) k) = 0 :=
    Finset.sum_eq_zero (fun _ _ => rfl)
  rw [hzero, zero_add] at htel
  rw [hlog, List.sum_map_add]
  exact congrArg (· + _) htel.symm

end Holdings

end History

end RegistrarHistory
