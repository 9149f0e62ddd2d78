import Registrar.Reads
import Registrar.Ingest
import Registrar.Library.Bisection

/-! # Resolving a timestamp to a ledger

    The two resolvers of the reporting methods: one reads the close times the
    `ledgers` table has, the other bisects the archived ledgers and asks the
    upstream for a close time it lacks.

    A ledger without a close time sends the bisection to older ledgers, so the
    ledger it finds is the one in effect exactly when it knows each close time
    at or before the timestamp on its way. -/

namespace RegistrarLedgerTimes

open KeyedTable RegistrarArchive RegistrarIngest RegistrarReads Bisection

/-! ## The resolvers -/

/-- What the resolvers take from outside the archive; `none` is a throw. -/
structure Upstream where
  /-- `close_time_iso` of the answer to a `ledger` request. -/
  closeTimeIso : ℕ → Option (Option String)
  /-- The database's `::timestamptz`. -/
  timestamptz : String → Option ℕ

/-- A resolver, with the archive it leaves: the ledger in effect or null, or
    `none` for a throw. -/
abbrev LedgerTimeResolver := Archive → String → Archive × Option (Option ℕ)

/-- `LedgerTimeRepository.resolveAtOrBefore`. -/
def resolveAtOrBefore (db : Archive) (t : ℕ) : Option ℕ :=
  ((db.ledgers.rows.filter fun r => decide (r.closeTime ≤ t)).map (·.ledgerIndex)).max?

/-- The cached close times only. -/
def tableLedgerTimeResolver (U : Upstream) : LedgerTimeResolver := fun db iso =>
  (db, (U.timestamptz iso).map (resolveAtOrBefore db))

/-- The oldest and the newest ledger with an archived transaction. -/
def archiveBounds (db : Archive) : Option (ℕ × ℕ) :=
  match (db.transactions.rows.map (·.ledgerIndex)).min?,
      (db.transactions.rows.map (·.ledgerIndex)).max? with
  | some lo, some hi => some (lo, hi)
  | _, _ => none

/-- Whether the cached close time of `mid` is at or before `t`. -/
def compare (db : Archive) (t mid : ℕ) : Option Bool :=
  (db.ledgers.find? mid).map fun r => decide (r.closeTime ≤ t)

/-- Is ledger `mid`'s close time at or before `iso`?  Cached, else fetched and
    cached; null when the ledger has no close time. -/
def atOrBefore (U : Upstream) (iso : String) (db : Archive) (mid : ℕ) :
    Archive × Option (Option Bool) :=
  match U.timestamptz iso with
  | none => (db, none)
  | some t =>
      match compare db t mid with
      | some le => (db, some (some le))
      | none =>
          match U.closeTimeIso mid with
          | none => (db, none)
          | some answer =>
              match answer.filter (fun s => decide (s ≠ "")) with
              | none => (db, some none)
              | some closeIso =>
                  match U.timestamptz closeIso with
                  | none => (db, none)
                  | some closeTime =>
                      (recordLedger ⟨mid, closeTime⟩ db,
                        some (compare (recordLedger ⟨mid, closeTime⟩ db) t mid))

/-- The binary search of the archived ledgers, with the ledgers it probes. -/
def searchLedgers (U : Upstream) (db : Archive) (iso : String) : Found Archive :=
  match archiveBounds db with
  | none => ⟨db, [], some none⟩
  | some (lo, hi) => bisect (fun db mid => atOrBefore U iso db mid.toNat) db lo hi none

/-- The resolver `serve` injects. -/
def lazyLedgerTimeResolver (U : Upstream) : LedgerTimeResolver := fun db iso =>
  ((searchLedgers U db iso).state,
    (searchLedgers U db iso).answer.map fun answer => answer.map Int.toNat)

/-! ## The ledger in effect -/

/-- `r` is the last ledger of `S` that closed at or before `t`, or null without
    one. -/
def InEffect (close : ℕ → ℕ) (S : Set ℕ) (t : ℕ) : Option ℕ → Prop
  | none => ∀ L ∈ S, t < close L
  | some L => IsGreatest {L | L ∈ S ∧ close L ≤ t} L

/-- The upstream answers for `L`, if with a close time then with the true
    one. -/
def Truthful (U : Upstream) (close : ℕ → ℕ) (L : ℕ) : Prop :=
  ∃ answer, U.closeTimeIso L = some answer
    ∧ ∀ iso ∈ answer, iso ≠ "" → U.timestamptz iso = some (close L)

/-- The close time of `L` is cached, or the upstream has it. -/
def HasCloseTime (U : Upstream) (db : Archive) (L : ℕ) : Prop :=
  db.ledgers.HasKey L
    ∨ ((U.closeTimeIso L).join.filter (fun s => decide (s ≠ ""))).isSome

instance (U : Upstream) (db : Archive) (L : ℕ) : Decidable (HasCloseTime U db L) :=
  inferInstanceAs (Decidable (_ ∨ _))

/-- The cached close times are true. -/
def TrueTimes (close : ℕ → ℕ) (db : Archive) : Prop :=
  ∀ r ∈ db.ledgers, r.closeTime = close r.ledgerIndex

/-- The ledgers a bisection of `lo..hi` for `t` comes by when it knows every
    close time. -/
def wayTo (close : ℕ → ℕ) (lo hi t : ℕ) : List ℕ :=
  (way (fun m => close m.toNat ≤ t) lo hi).map Int.toNat

/-! ## What a probe does -/

section Probes

variable {U : Upstream} {close : ℕ → ℕ} {db₀ db : Archive} {iso : String} {t lo hi L : ℕ}

/-- What the probes of a search make of the archive it starts at: close times
    are added to the cache, the true ones, and only where there is one. -/
structure Probed (U : Upstream) (close : ℕ → ℕ) (db₀ db : Archive) : Prop where
  frame : db = { db₀ with ledgers := db.ledgers }
  kept : ∀ r ∈ db₀.ledgers, r ∈ db.ledgers
  trueTimes : TrueTimes close db
  known : ∀ L, db.ledgers.HasKey L → HasCloseTime U db₀ L

theorem Probed.refl (h : TrueTimes close db) : Probed U close db db where
  frame := rfl
  kept _ hr := hr
  trueTimes := h
  known _ hL := Or.inl hL

theorem Probed.trans {db' : Archive} (h : Probed U close db₀ db) (h' : Probed U close db db') :
    Probed U close db₀ db' where
  frame := by
    rw [h'.frame, h.frame]
  kept r hr := h'.kept r (h.kept r hr)
  trueTimes := h'.trueTimes
  known L hL := by
    rcases h'.known L hL with hL | hL
    · exact h.known L hL
    · exact Or.inr hL

/-- A close time known at first stays known. -/
theorem Probed.hasCloseTime (h : Probed U close db₀ db) (hL : HasCloseTime U db₀ L) :
    HasCloseTime U db L := by
  rcases hL with ⟨r, hr, hkey⟩ | hL
  · exact Or.inl ⟨r, h.kept r hr, hkey⟩
  · exact Or.inr hL

/-- A fetched close time, true and cached. -/
theorem Probed.record (h : Probed U close db₀ db) (hL : HasCloseTime U db₀ L) :
    Probed U close db₀ (recordLedger ⟨L, close L⟩ db) where
  frame := by
    rw [h.frame]
    rfl
  kept r hr := Table.mem_insertIgnore_of_mem (h.kept r hr)
  trueTimes r hr := by
    rcases Table.mem_insertIgnore.mp hr with hr | ⟨rfl, -⟩
    · exact h.trueTimes r hr
    · rfl
  known L' hL' := by
    rcases Table.hasKey_insertIgnore.mp hL' with hL' | rfl
    · exact h.known L' hL'
    · exact hL

theorem compare_some {le : Bool} (h : compare db t L = some le) :
    ∃ r ∈ db.ledgers, r.ledgerIndex = L ∧ le = decide (r.closeTime ≤ t) := by
  obtain ⟨r, hr, rfl⟩ := Option.map_eq_some_iff.mp h
  obtain ⟨hmem, hkey⟩ := Table.find?_eq_some.mp hr
  exact ⟨r, hmem, hkey, rfl⟩

theorem compare_none (h : compare db t L = none) : ¬ db.ledgers.HasKey L :=
  Table.find?_eq_none.mp (Option.map_eq_none_iff.mp h)

/-- A close time just cached is compared. -/
theorem compare_recordLedger (h : ¬ db.ledgers.HasKey L) (closeTime : ℕ) :
    compare (recordLedger ⟨L, closeTime⟩ db) t L = some (decide (closeTime ≤ t)) := by
  have hfind : (recordLedger ⟨L, closeTime⟩ db).ledgers.find? L = some ⟨L, closeTime⟩ :=
    Table.find?_eq_some.mpr ⟨Table.mem_insertIgnore.mpr (Or.inr ⟨rfl, h⟩), rfl⟩
  unfold compare
  rw [hfind]
  rfl

theorem atOrBefore_cached {le : Bool} (hiso : U.timestamptz iso = some t)
    (h : compare db t L = some le) : atOrBefore U iso db L = (db, some (some le)) := by
  unfold atOrBefore
  simp only [hiso, h]

theorem atOrBefore_unknown {answer : Option String} (hiso : U.timestamptz iso = some t)
    (h : compare db t L = none) (hanswer : U.closeTimeIso L = some answer)
    (hclose : answer.filter (fun s => decide (s ≠ "")) = none) :
    atOrBefore U iso db L = (db, some none) := by
  unfold atOrBefore
  simp only [hiso, h, hanswer, hclose]

theorem atOrBefore_fetched {answer : Option String} {closeIso : String} {closeTime : ℕ}
    (hiso : U.timestamptz iso = some t) (h : compare db t L = none)
    (hanswer : U.closeTimeIso L = some answer)
    (hclose : answer.filter (fun s => decide (s ≠ "")) = some closeIso)
    (htime : U.timestamptz closeIso = some closeTime) :
    atOrBefore U iso db L
      = (recordLedger ⟨L, closeTime⟩ db, some (some (decide (closeTime ≤ t)))) := by
  unfold atOrBefore
  simp only [hiso, h, hanswer, hclose, htime]
  rw [compare_recordLedger (compare_none h)]

/-- A probe tells whether the ledger closed at or before `t`, if there is a
    close time, and adds to the cache. -/
theorem atOrBefore_probed (hiso : U.timestamptz iso = some t) (htrue : Truthful U close L)
    (h : Probed U close db₀ db) :
    Probed U close db₀ (atOrBefore U iso db L).1
      ∧ (atOrBefore U iso db L).2
        = some (if HasCloseTime U db₀ L then some (decide (close L ≤ t)) else none) := by
  cases hcompare : compare db t L with
  | some le =>
      obtain ⟨r, hr, rfl, rfl⟩ := compare_some hcompare
      rw [atOrBefore_cached hiso hcompare, if_pos (h.known _ (Table.HasKey.of_mem hr)),
        h.trueTimes r hr]
      exact ⟨h, rfl⟩
  | none =>
      obtain ⟨answer, hanswer, htrue⟩ := htrue
      cases hclose : answer.filter (fun s => decide (s ≠ "")) with
      | none =>
          have hunknown : ¬ HasCloseTime U db₀ L := by
            rintro (⟨r, hr, hkey⟩ | hsome)
            · exact compare_none hcompare ⟨r, h.kept r hr, hkey⟩
            · rw [hanswer, Option.join_some, hclose] at hsome
              cases hsome
          rw [atOrBefore_unknown hiso hcompare hanswer hclose, if_neg hunknown]
          exact ⟨h, rfl⟩
      | some closeIso =>
          obtain ⟨hsome, hne⟩ := Option.filter_eq_some_iff.mp hclose
          have hL : HasCloseTime U db₀ L := by
            refine Or.inr ?_
            rw [hanswer, Option.join_some, hclose]
            rfl
          rw [atOrBefore_fetched hiso hcompare hanswer hclose
            (htrue closeIso hsome (of_decide_eq_true hne)), if_pos hL]
          exact ⟨h.record hL, rfl⟩

/-- The probes of the archived ledgers answer for their close times. -/
theorem answers_atOrBefore (db₀ : Archive) (hiso : U.timestamptz iso = some t)
    (hmono : MonotoneOn close (Set.Icc lo hi))
    (htrue : ∀ L ∈ Set.Icc lo hi, Truthful U close L) :
    Answers (fun db mid => atOrBefore U iso db mid.toNat) (Probed U close db₀)
      (fun m => HasCloseTime U db₀ m.toNat) (fun m => close m.toNat ≤ t) lo hi := by
  have hnat : ∀ m ∈ Set.Icc (lo : ℤ) hi, m.toNat ∈ Set.Icc lo hi := by
    intro m hm
    have := hm.1
    have := hm.2
    exact ⟨by omega, by omega⟩
  refine ⟨?_, ?_, ?_⟩
  · intro db m hdb hm
    exact (atOrBefore_probed hiso (htrue _ (hnat m hm)) hdb).1
  · intro db m hdb hm
    exact (atOrBefore_probed hiso (htrue _ (hnat m hm)) hdb).2
  · intro m hm m' hm' hle hp
    exact (hmono (hnat m hm) (hnat m' hm') (Int.toNat_le_toNat hle)).trans hp

end Probes

/-! ## The ledger the search finds -/

section Search

variable {U : Upstream} {close : ℕ → ℕ} {db : Archive} {iso : String} {t lo hi : ℕ}

/-- The last position of the bisection is the ledger in effect. -/
theorem inEffect_iff {r : Option ℤ} (hr : r = none ∨ ∃ m ∈ Set.Icc (lo : ℤ) hi, r = some m) :
    InEffect close (Set.Icc lo hi) t (r.map Int.toNat)
      ↔ IsLast (fun m => close m.toNat ≤ t) lo hi none r := by
  have hint : ∀ m ∈ Set.Icc (lo : ℤ) hi, m.toNat ∈ Set.Icc lo hi := by
    intro m hm
    have := hm.1
    have := hm.2
    exact ⟨by omega, by omega⟩
  have hnat : ∀ L ∈ Set.Icc lo hi, (L : ℤ) ∈ Set.Icc (lo : ℤ) hi := by
    intro L hL
    exact ⟨Int.ofNat_le.mpr hL.1, Int.ofNat_le.mpr hL.2⟩
  rcases hr with rfl | ⟨m, hm, rfl⟩
  · constructor
    · intro h
      exact Or.inl ⟨rfl, fun m hm => not_le.mpr (h m.toNat (hint m hm))⟩
    · rintro (⟨-, hnone⟩ | ⟨m, hm, -⟩)
      · intro L hL
        exact not_le.mp (hnone L (hnat L hL))
      · cases hm
  · have hcast : ((m.toNat : ℕ) : ℤ) = m := Int.toNat_of_nonneg (by have := hm.1; omega)
    constructor
    · rintro ⟨⟨-, hclose⟩, hgreatest⟩
      refine Or.inr ⟨m, rfl, ⟨hm, hclose⟩, ?_⟩
      rintro m' ⟨hm', hclose'⟩
      have hle : m'.toNat ≤ m.toNat := hgreatest ⟨hint m' hm', hclose'⟩
      have := hm'.1
      omega
    · rintro (⟨hr, -⟩ | ⟨m', hr, ⟨⟨hmem, hclose⟩, hgreatest⟩⟩)
      · cases hr
      · cases hr
        refine ⟨⟨hint m hmem, hclose⟩, ?_⟩
        rintro L ⟨hL, hL'⟩
        have hle : (L : ℤ) ≤ m := hgreatest ⟨hnat L hL, hL'⟩
        show L ≤ m.toNat
        omega

theorem searchLedgers_eq (hbounds : archiveBounds db = some (lo, hi)) :
    searchLedgers U db iso
      = bisect (fun db mid => atOrBefore U iso db mid.toNat) db lo hi none := by
  unfold searchLedgers
  rw [hbounds]

/-- What a search does to the archive. -/
theorem searchLedgers_probed (hbounds : archiveBounds db = some (lo, hi))
    (hiso : U.timestamptz iso = some t) (hmono : MonotoneOn close (Set.Icc lo hi))
    (htrue : ∀ L ∈ Set.Icc lo hi, Truthful U close L) (hcached : TrueTimes close db) :
    Probed U close db (searchLedgers U db iso).state := by
  rw [searchLedgers_eq hbounds]
  exact bisect_invariant (answers_atOrBefore db hiso hmono htrue).keeps (Probed.refl hcached) none

/-- It finds the ledger in effect when it knows the close times at or before
    `t` on its way, and only then. -/
theorem searchLedgers_inEffect (hbounds : archiveBounds db = some (lo, hi))
    (hiso : U.timestamptz iso = some t) (hmono : MonotoneOn close (Set.Icc lo hi))
    (htrue : ∀ L ∈ Set.Icc lo hi, Truthful U close L) (hcached : TrueTimes close db) :
    ∃ r, (lazyLedgerTimeResolver U db iso).2 = some r
      ∧ (InEffect close (Set.Icc lo hi) t r
        ↔ ∀ L ∈ wayTo close lo hi t, close L ≤ t → HasCloseTime U db L) := by
  have hnone : ∀ a ∈ (none : Option ℤ), a < (lo : ℤ) := fun a ha => by cases ha
  obtain ⟨r, hr, hfound, hiff⟩ := bisect_isLast (Probed.refl hcached)
    (answers_atOrBefore db hiso hmono htrue) hnone
  refine ⟨r.map Int.toNat, ?_, ?_⟩
  · unfold lazyLedgerTimeResolver
    rw [searchLedgers_eq hbounds, hr]
    rfl
  · rw [inEffect_iff hfound, hiff]
    unfold wayTo
    rw [List.forall_mem_map]

/-- With a close time for every ledger it finds the one in effect. -/
theorem searchLedgers_known (hbounds : archiveBounds db = some (lo, hi))
    (hiso : U.timestamptz iso = some t) (hmono : MonotoneOn close (Set.Icc lo hi))
    (htrue : ∀ L ∈ Set.Icc lo hi, Truthful U close L) (hcached : TrueTimes close db)
    (hknown : ∀ L ∈ Set.Icc lo hi, HasCloseTime U db L) :
    ∃ r, (lazyLedgerTimeResolver U db iso).2 = some r
      ∧ InEffect close (Set.Icc lo hi) t r := by
  obtain ⟨r, hr, hiff⟩ := searchLedgers_inEffect hbounds hiso hmono htrue hcached
  refine ⟨r, hr, hiff.mpr fun L hL _ => hknown L ?_⟩
  obtain ⟨m, hm, rfl⟩ := List.mem_map.mp hL
  have hbound := mem_of_mem_way hm
  exact ⟨by have := hbound.1; omega, by have := hbound.2; omega⟩

theorem archiveBounds_le (hbounds : archiveBounds db = some (lo, hi)) : lo ≤ hi := by
  unfold archiveBounds at hbounds
  cases hmin : (db.transactions.rows.map (·.ledgerIndex)).min? with
  | none =>
      rw [hmin] at hbounds
      cases hbounds
  | some a =>
      cases hmax : (db.transactions.rows.map (·.ledgerIndex)).max? with
      | none =>
          rw [hmin, hmax] at hbounds
          cases hbounds
      | some b =>
          rw [hmin, hmax] at hbounds
          cases hbounds
          exact (List.min?_eq_some_iff.mp hmin).2 _ (List.max?_eq_some_iff.mp hmax).1

/-- A search makes `⌊log₂ (hi - lo + 1)⌋ + 1` probes at most. -/
theorem searchLedgers_probed_length (hbounds : archiveBounds db = some (lo, hi)) :
    (searchLedgers U db iso).probed.length ≤ Nat.log 2 (hi - lo + 1) + 1 := by
  have hle := archiveBounds_le hbounds
  rw [searchLedgers_eq hbounds]
  refine (probed_length_le _ db lo hi none).trans ?_
  rw [Nat.size_le, show ((hi : ℤ) + 1 - lo).toNat = hi - lo + 1 by omega]
  exact Nat.lt_pow_succ_log_self (by decide) _

/-- **THE LEDGER IN EFFECT**: the lazy resolver makes logarithmically many
    probes and caches true close times; its answer is the last archived ledger
    that closed at or before the timestamp, or null without one, exactly when
    every such ledger on the bisection's way has a close time. -/
theorem ledger_in_effect_iff (hbounds : archiveBounds db = some (lo, hi))
    (hiso : U.timestamptz iso = some t) (hmono : MonotoneOn close (Set.Icc lo hi))
    (htrue : ∀ L ∈ Set.Icc lo hi, Truthful U close L) (hcached : TrueTimes close db) :
    (searchLedgers U db iso).probed.length ≤ Nat.log 2 (hi - lo + 1) + 1
      ∧ TrueTimes close (lazyLedgerTimeResolver U db iso).1
      ∧ ((∃ r, (lazyLedgerTimeResolver U db iso).2 = some r
          ∧ InEffect close (Set.Icc lo hi) t r)
        ↔ ∀ L ∈ wayTo close lo hi t, close L ≤ t → HasCloseTime U db L) := by
  refine ⟨searchLedgers_probed_length hbounds,
    (searchLedgers_probed hbounds hiso hmono htrue hcached).trueTimes, ?_⟩
  obtain ⟨r, hr, hiff⟩ := searchLedgers_inEffect hbounds hiso hmono htrue hcached
  rw [← hiff, hr]
  constructor
  · rintro ⟨r', hr', hright⟩
    cases hr'
    exact hright
  · intro hright
    exact ⟨r, rfl, hright⟩

end Search

/-! ## A ledger without a close time in the middle of the archive -/

/-- Ledgers 100 to 102 close ten seconds apart. -/
def tenSecondsApart (L : ℕ) : ℕ := 10 * (L - 100)

/-- The upstream has no close time of ledger 101. -/
def forgetful : Upstream where
  closeTimeIso L := some
    (if L = 100 then some "2026-01-01T00:00:00Z"
      else if L = 102 then some "2026-01-01T00:00:20Z" else none)
  timestamptz iso :=
    if iso = "2026-01-01T00:00:00Z" then some 0
    else if iso = "2026-01-01T00:00:20Z" then some 20
    else none

/-- Transactions in the first and the last of them. -/
def endsArchived : Archive where
  transactions := (Table.empty.insertIgnore
    ⟨"T100", 100, "Payment", "", "", ⟨"upstream", "2026-01-02"⟩, none, none, none⟩).insertIgnore
    ⟨"T102", 102, "Payment", "", "", ⟨"upstream", "2026-01-02"⟩, none, none, none⟩

theorem tenSecondsApart_monotone (S : Set ℕ) : MonotoneOn tenSecondsApart S := by
  intro L _ L' _ hle
  unfold tenSecondsApart
  omega

theorem forgetful_truthful : ∀ L ∈ Set.Icc 100 102, Truthful forgetful tenSecondsApart L := by
  rintro L ⟨hlo, hhi⟩
  refine ⟨_, rfl, ?_⟩
  have hcases : L = 100 ∨ L = 101 ∨ L = 102 := by omega
  rcases hcases with rfl | rfl | rfl
  · rintro iso hiso -
    cases hiso
    rfl
  · rintro iso hiso -
    cases hiso
  · rintro iso hiso -
    cases hiso
    rfl

/-- At the close of ledger 102 the resolver says ledger 100: the unknown close
    time of 101 hides the ledgers after it. -/
theorem unknown_close_time_hides_newer : ¬ ∀ (U : Upstream) (close : ℕ → ℕ) (db : Archive)
    (iso : String) (t lo hi : ℕ), archiveBounds db = some (lo, hi) →
      U.timestamptz iso = some t → MonotoneOn close (Set.Icc lo hi) →
      (∀ L ∈ Set.Icc lo hi, Truthful U close L) → TrueTimes close db →
      (searchLedgers U db iso).probed.length ≤ Nat.log 2 (hi - lo + 1) + 1
        ∧ TrueTimes close (lazyLedgerTimeResolver U db iso).1
        ∧ ∃ r, (lazyLedgerTimeResolver U db iso).2 = some r
          ∧ InEffect close (Set.Icc lo hi) t r := by
  intro h
  obtain ⟨-, -, r, hr, hright⟩ := h forgetful tenSecondsApart endsArchived
    "2026-01-01T00:00:20Z" 20 100 102 (by decide +kernel) (by decide)
    (tenSecondsApart_monotone _) forgetful_truthful
    (fun r hr => absurd hr (Table.not_mem_empty r))
  have hfound : (lazyLedgerTimeResolver forgetful endsArchived "2026-01-01T00:00:20Z").2
      = some (some 100) := by decide +kernel
  rw [hfound] at hr
  cases hr
  have hle : 102 ≤ 100 := hright.2 ⟨⟨by decide, by decide⟩, by decide⟩
  omega

/-- Ledger 100 in effect, found by coming by it. -/
theorem ledger_in_effect_iff_first :
    ∃ r, (lazyLedgerTimeResolver forgetful endsArchived "2026-01-01T00:00:00Z").2 = some r
      ∧ InEffect tenSecondsApart (Set.Icc 100 102) 0 r :=
  (ledger_in_effect_iff (by decide +kernel) (by decide) (tenSecondsApart_monotone _)
    forgetful_truthful (fun r hr => absurd hr (Table.not_mem_empty r))).2.2.mpr
    (by decide +kernel)

end RegistrarLedgerTimes
