import Registrar.Written

/-! # Ingesting in any order

    Every ingest path performs actions: store a transaction, link accounts to it,
    derive its deltas for some issuances.  The rules of the four tables differ:
    the first transaction row wins, links are a union, the least ledger wins, a
    delta is overwritten.  `Facts` is what a set of actions says, without order or
    repetition, and `Ingests` that a state has come to hold those facts.  A
    schedule ingests the facts of its actions, and facts that agree leave one
    outcome (`ingest_order_independent`). -/

namespace RegistrarOrder

open KeyedTable Statements RegistrarMetadata RegistrarArchive RegistrarIngest
open RegistrarBackfill RegistrarFraming RegistrarSweep RegistrarStored RegistrarWritten
open RegistrarTail

/-! ## Facts -/

/-- A transaction row without its provenance. -/
def bare (t : TransactionRow) : TransactionRow := { t with provenance := ⟨"", ""⟩ }

/-- The bare transaction rows, the links, the addresses seen at a ledger or named
    by a delta, and the deltas that a set of actions calls for. -/
@[ext] structure Facts where
  rows : Set TransactionRow := ∅
  links : Set AccountTransactionRow := ∅
  seen : Set (String × ℕ) := ∅
  named : Set String := ∅
  deltas : Set BalanceDeltaRow := ∅

def Facts.none : Facts := {}

def Facts.union (F G : Facts) : Facts where
  rows := F.rows ∪ G.rows
  links := F.links ∪ G.links
  seen := F.seen ∪ G.seen
  named := F.named ∪ G.named
  deltas := F.deltas ∪ G.deltas

/-- The facts of every element of a list. -/
def Facts.all {α : Type} (l : List α) (F : α → Facts) : Facts where
  rows := {x | ∃ a ∈ l, x ∈ (F a).rows}
  links := {x | ∃ a ∈ l, x ∈ (F a).links}
  seen := {x | ∃ a ∈ l, x ∈ (F a).seen}
  named := {x | ∃ a ∈ l, x ∈ (F a).named}
  deltas := {x | ∃ a ∈ l, x ∈ (F a).deltas}

/-- One row for a hash and one delta for a key. -/
structure Facts.Consistent (F : Facts) : Prop where
  rows : ∀ t ∈ F.rows, ∀ t' ∈ F.rows, t.hash = t'.hash → t = t'
  deltas : ∀ r ∈ F.deltas, ∀ r' ∈ F.deltas, r.key = r'.key → r = r'

theorem Facts.all_nil {α : Type} (F : α → Facts) : Facts.all [] F = Facts.none := by
  ext x <;> simp [Facts.all, Facts.none]

theorem Facts.all_cons {α : Type} (a : α) (l : List α) (F : α → Facts) :
    Facts.all (a :: l) F = (F a).union (Facts.all l F) := by
  ext x <;> simp [Facts.all, Facts.union]

theorem Facts.union_none (F : Facts) : F.union Facts.none = F := by
  ext x <;> simp [Facts.union, Facts.none]

theorem Facts.all_all {α β : Type} (l : List α) (f : α → List β) (F : β → Facts) :
    Facts.all l (fun a => Facts.all (f a) F) = Facts.all (l.flatMap f) F := by
  ext x <;> simp only [Facts.all, List.mem_flatMap] <;>
  · constructor
    · rintro ⟨a, ha, b, hb, hx⟩
      exact ⟨b, ⟨a, ha, hb⟩, hx⟩
    · rintro ⟨b, ⟨a, ha, hb⟩, hx⟩
      exact ⟨a, ha, b, hb, hx⟩

/-! ## When an account is first seen -/

/-- The account is recorded as seen at or before the ledger. -/
def Sees (t : Table AccountRow.address) (address : String) (ledger : ℕ) : Prop :=
  ∃ r ∈ t, r.address = address ∧ ∃ x, r.firstSeenLedger = some x ∧ x ≤ ledger

theorem least_eq_some_le {a b : Option ℕ} {ledger : ℕ} :
    (∃ x, least a b = some x ∧ x ≤ ledger) ↔
      (∃ x, a = some x ∧ x ≤ ledger) ∨ ∃ x, b = some x ∧ x ≤ ledger := by
  cases a with
  | none => simp [least]
  | some a =>
      cases b with
      | none => simp [least]
      | some b => simp [least]

/-- Upserting an account adds the ledger it is seen at, if there is one. -/
theorem sees_upsertAccount {db : Archive} {row : AccountRow} {address : String} {ledger : ℕ} :
    Sees (upsertAccount row db).accounts address ledger ↔
      Sees db.accounts address ledger
        ∨ (address = row.address ∧ ∃ x, row.firstSeenLedger = some x ∧ x ≤ ledger) := by
  constructor
  · rintro ⟨r, hr, rfl, hx⟩
    rcases Table.mem_upsert.mp hr with ⟨hr, -⟩ | ⟨old, hold, hkey, rfl⟩ | ⟨rfl, -⟩
    · exact Or.inl ⟨r, hr, rfl, hx⟩
    · rcases least_eq_some_le.mp hx with hx | hx
      · exact Or.inl ⟨old, hold, rfl, hx⟩
      · exact Or.inr ⟨hkey, hx⟩
    · exact Or.inr ⟨rfl, hx⟩
  · rintro (⟨r, hr, rfl, hx⟩ | ⟨rfl, hx⟩)
    · by_cases hkey : r.address = row.address
      · exact ⟨_, Table.mem_upsert.mpr (Or.inr (Or.inl ⟨r, hr, hkey, rfl⟩)), rfl,
          least_eq_some_le.mpr (Or.inl hx)⟩
      · exact ⟨r, Table.mem_upsert.mpr (Or.inl ⟨hr, hkey⟩), rfl, hx⟩
    · by_cases hkey : db.accounts.HasKey row.address
      · obtain ⟨old, hold, hkey⟩ := hkey
        exact ⟨_, Table.mem_upsert.mpr (Or.inr (Or.inl ⟨old, hold, hkey, rfl⟩)), hkey,
          least_eq_some_le.mpr (Or.inr hx)⟩
      · exact ⟨row, Table.mem_upsert.mpr (Or.inr (Or.inr ⟨rfl, hkey⟩)), rfl, hx⟩

/-- An account inserted without a ledger is seen no earlier. -/
theorem sees_insertAccount {db : Archive} {address a : String} {ledger : ℕ} :
    Sees (insertAccount ⟨a, none⟩ db).accounts address ledger ↔
      Sees db.accounts address ledger := by
  constructor
  · rintro ⟨r, hr, rfl, x, hx, hle⟩
    rcases Table.mem_insertIgnore.mp hr with hr | ⟨rfl, -⟩
    · exact ⟨r, hr, rfl, x, hx, hle⟩
    · exact nomatch hx
  · rintro ⟨r, hr, hrest⟩
    exact ⟨r, Table.mem_insertIgnore_of_mem hr, hrest⟩

/-! ## Holding facts -/

/-- `db'` is `db` with the facts ingested. -/
structure Ingests (F : Facts) (db db' : Archive) : Prop where
  kept : ∀ t ∈ db.transactions, t ∈ db'.transactions
  new : ∀ t ∈ db'.transactions, t ∈ db.transactions ∨ bare t ∈ F.rows
  stored : ∀ t ∈ F.rows, db'.transactions.HasKey t.hash
  links : ∀ r, r ∈ db'.accountTransactions ↔ r ∈ db.accountTransactions ∨ r ∈ F.links
  sees : ∀ a n, Sees db'.accounts a n ↔
    Sees db.accounts a n ∨ ∃ m ≤ n, (a, m) ∈ F.seen
  accounts : ∀ a, db'.accounts.HasKey a ↔
    db.accounts.HasKey a ∨ (∃ m, (a, m) ∈ F.seen) ∨ a ∈ F.named
  deltas : ∃ rows : List BalanceDeltaRow, (∀ r, r ∈ rows ↔ r ∈ F.deltas)
    ∧ db'.balanceDeltas = rows.foldl putDelta db.balanceDeltas
  issuances : db'.issuances = db.issuances

theorem Ingests.refl (db : Archive) : Ingests Facts.none db db where
  kept := fun _ h => h
  new := fun _ h => Or.inl h
  stored := fun _ h => absurd h (Set.notMem_empty _)
  links := fun r => by simp [Facts.none]
  sees := fun a n => by simp [Facts.none]
  accounts := fun a => by simp [Facts.none]
  deltas := ⟨[], fun r => by simp [Facts.none], rfl⟩
  issuances := rfl

/-- **ONE INGEST AFTER ANOTHER** ingests what the two do. -/
theorem Ingests.trans {F G : Facts} {a b c : Archive} (h₁ : Ingests F a b)
    (h₂ : Ingests G b c) : Ingests (F.union G) a c where
  kept := fun t h => h₂.kept t (h₁.kept t h)
  new := fun t h => by
    rcases h₂.new t h with h | h
    · rcases h₁.new t h with h | h
      · exact Or.inl h
      · exact Or.inr (Or.inl h)
    · exact Or.inr (Or.inr h)
  stored := fun t h => by
    rcases h with h | h
    · obtain ⟨t', ht', hhash⟩ := h₁.stored t h
      exact ⟨t', h₂.kept t' ht', hhash⟩
    · exact h₂.stored t h
  links := fun r => by
    rw [h₂.links, h₁.links, or_assoc]
    exact Iff.rfl
  sees := fun a n => by
    rw [h₂.sees, h₁.sees, or_assoc]
    refine or_congr Iff.rfl ?_
    constructor
    · rintro (⟨m, hm, h⟩ | ⟨m, hm, h⟩)
      · exact ⟨m, hm, Or.inl h⟩
      · exact ⟨m, hm, Or.inr h⟩
    · rintro ⟨m, hm, h | h⟩
      · exact Or.inl ⟨m, hm, h⟩
      · exact Or.inr ⟨m, hm, h⟩
  accounts := fun a => by
    rw [h₂.accounts, h₁.accounts]
    constructor
    · rintro ((h | ⟨m, h⟩ | h) | ⟨m, h⟩ | h)
      · exact Or.inl h
      · exact Or.inr (Or.inl ⟨m, Or.inl h⟩)
      · exact Or.inr (Or.inr (Or.inl h))
      · exact Or.inr (Or.inl ⟨m, Or.inr h⟩)
      · exact Or.inr (Or.inr (Or.inr h))
    · rintro (h | ⟨m, h | h⟩ | h | h)
      · exact Or.inl (Or.inl h)
      · exact Or.inl (Or.inr (Or.inl ⟨m, h⟩))
      · exact Or.inr (Or.inl ⟨m, h⟩)
      · exact Or.inl (Or.inr (Or.inr h))
      · exact Or.inr (Or.inr h)
  deltas := by
    obtain ⟨rows₁, hrows₁, hfold₁⟩ := h₁.deltas
    obtain ⟨rows₂, hrows₂, hfold₂⟩ := h₂.deltas
    refine ⟨rows₁ ++ rows₂, fun r => ?_, ?_⟩
    · rw [List.mem_append, hrows₁, hrows₂]
      exact Iff.rfl
    · rw [hfold₂, hfold₁, List.foldl_append]
  issuances := h₂.issuances.trans h₁.issuances

/-- A loop ingests what its iterations do. -/
theorem Ingests.foldlM {α : Type} {f : Archive → α → Except DbError Archive} {F : α → Facts}
    {l : List α} (hf : ∀ a ∈ l, ∀ db db', f db a = .ok db' → Ingests (F a) db db')
    {db db' : Archive} (h : l.foldlM f db = .ok db') : Ingests (Facts.all l F) db db' := by
  induction l generalizing db with
  | nil =>
      rw [← foldlM_nil_ok.mp h, Facts.all_nil]
      exact Ingests.refl db
  | cons a l ih =>
      obtain ⟨d, hd, h⟩ := foldlM_cons_ok.mp h
      rw [Facts.all_cons]
      exact (hf a List.mem_cons_self db d hd).trans
        (ih (fun b hb => hf b (List.mem_cons_of_mem a hb)) h)

/-- More rows of the same hashes, and later ledgers of the same accounts, are
    ingested with the others. -/
theorem Ingests.widen {F G : Facts} {db db' : Archive} (h : Ingests F db db')
    (hrows : F.rows ⊆ G.rows) (hhash : ∀ t ∈ G.rows, ∃ t' ∈ F.rows, t'.hash = t.hash)
    (hlinks : ∀ r, r ∈ F.links ↔ r ∈ G.links) (hseen : F.seen ⊆ G.seen)
    (hleast : ∀ a n, (a, n) ∈ G.seen → ∃ m ≤ n, (a, m) ∈ F.seen)
    (hnamed : ∀ a, a ∈ F.named ↔ a ∈ G.named)
    (hdeltas : ∀ r, r ∈ F.deltas ↔ r ∈ G.deltas) : Ingests G db db' where
  kept := h.kept
  new := fun t ht => (h.new t ht).imp id (fun ht => hrows ht)
  stored := fun t ht => by
    obtain ⟨t', ht', heq⟩ := hhash t ht
    exact heq ▸ h.stored t' ht'
  links := fun r => by rw [h.links, hlinks]
  sees := fun a n => by
    rw [h.sees]
    refine or_congr Iff.rfl ⟨fun ⟨m, hm, hin⟩ => ⟨m, hm, hseen hin⟩, ?_⟩
    rintro ⟨m, hm, hin⟩
    obtain ⟨m', hm', hin'⟩ := hleast a m hin
    exact ⟨m', hm'.trans hm, hin'⟩
  accounts := fun a => by
    rw [h.accounts, hnamed]
    refine or_congr Iff.rfl (or_congr ⟨fun ⟨m, hin⟩ => ⟨m, hseen hin⟩, ?_⟩ Iff.rfl)
    rintro ⟨m, hin⟩
    obtain ⟨m', -, hin'⟩ := hleast a m hin
    exact ⟨m', hin'⟩
  deltas := by
    obtain ⟨rows, hmem, hfold⟩ := h.deltas
    exact ⟨rows, fun r => (hmem r).trans (hdeltas r), hfold⟩
  issuances := h.issuances

/-- What agrees on the four tables and the issuances ingests the same. -/
theorem Ingests.of_same {F : Facts} {db d d' : Archive} (h : Ingests F db d)
    (htx : d'.transactions = d.transactions)
    (hlinks : d'.accountTransactions = d.accountTransactions)
    (haccounts : d'.accounts = d.accounts) (hdeltas : d'.balanceDeltas = d.balanceDeltas)
    (hissuances : d'.issuances = d.issuances) : Ingests F db d' where
  kept := fun t ht => htx ▸ h.kept t ht
  new := fun t ht => h.new t (htx ▸ ht)
  stored := fun t ht => htx ▸ h.stored t ht
  links := fun r => hlinks ▸ h.links r
  sees := fun a n => haccounts ▸ h.sees a n
  accounts := fun a => haccounts ▸ h.accounts a
  deltas := hdeltas ▸ h.deltas
  issuances := hissuances.trans h.issuances

/-! ## One outcome -/

/-- The four tables hold the same rows, transactions up to provenance. -/
structure SameIngest (d d' : Archive) : Prop where
  transactions : ∀ hash, (d.transactions.find? hash).map bare
    = (d'.transactions.find? hash).map bare
  links : ∀ r, r ∈ d.accountTransactions ↔ r ∈ d'.accountTransactions
  accounts : ∀ r, r ∈ d.accounts ↔ r ∈ d'.accounts
  deltas : ∀ r, r ∈ d.balanceDeltas ↔ r ∈ d'.balanceDeltas

/-- Consistent rows are all there, beside the rows of other keys. -/
theorem mem_foldl_putDelta_consistent {rows : List BalanceDeltaRow}
    (hone : ∀ r ∈ rows, ∀ r' ∈ rows, r.key = r'.key → r = r')
    {t : Table BalanceDeltaRow.key} {x : BalanceDeltaRow} :
    x ∈ rows.foldl putDelta t ↔ x ∈ rows ∨ (x ∈ t ∧ ∀ r ∈ rows, r.key ≠ x.key) := by
  induction rows generalizing t with
  | nil => simp
  | cons r rows ih =>
      have hrest := ih (fun a ha b hb => hone a (List.mem_cons_of_mem r ha) b
        (List.mem_cons_of_mem r hb)) (t := putDelta t r)
      rw [List.foldl_cons, hrest, mem_putDelta, List.mem_cons]
      constructor
      · rintro (h | ⟨rfl | ⟨hx, hne⟩, hall⟩)
        · exact Or.inl (Or.inr h)
        · exact Or.inl (Or.inl rfl)
        · refine Or.inr ⟨hx, fun r' hr' => ?_⟩
          rcases List.mem_cons.mp hr' with rfl | hr'
          · exact Ne.symm hne
          · exact hall r' hr'
      · rintro ((rfl | h) | ⟨hx, hall⟩)
        · by_cases hin : ∃ r' ∈ rows, r'.key = x.key
          · obtain ⟨r', hr', hkey⟩ := hin
            have heq := hone r' (List.mem_cons_of_mem x hr') x List.mem_cons_self hkey
            exact Or.inl (heq ▸ hr')
          · exact Or.inr ⟨Or.inl rfl, fun r' hr' hkey => hin ⟨r', hr', hkey⟩⟩
        · exact Or.inl h
        · exact Or.inr ⟨Or.inr ⟨hx, Ne.symm (hall r List.mem_cons_self)⟩,
            fun r' hr' => hall r' (List.mem_cons_of_mem r hr')⟩

/-- A delta row after an ingest was there or is one of its facts. -/
theorem Ingests.mem_deltas {F : Facts} {db db' : Archive} (h : Ingests F db db')
    {r : BalanceDeltaRow} (hr : r ∈ db'.balanceDeltas) : r ∈ db.balanceDeltas ∨ r ∈ F.deltas := by
  obtain ⟨rows, hrows, hfold⟩ := h.deltas
  rw [hfold] at hr
  rcases mem_of_mem_foldl_putDelta hr with hr | hr
  · exact Or.inr ((hrows r).mp hr)
  · exact Or.inl hr

/-- A ledger bound for every bound is the ledger. -/
theorem firstSeen_eq {a b : Option ℕ}
    (h : ∀ n, (∃ x, a = some x ∧ x ≤ n) ↔ ∃ x, b = some x ∧ x ≤ n) : a = b := by
  cases a with
  | none =>
      cases b with
      | none => rfl
      | some y =>
          obtain ⟨x, hx, -⟩ := (h y).mpr ⟨y, rfl, le_rfl⟩
          exact nomatch hx
  | some x =>
      obtain ⟨y, hy, hle⟩ := (h x).mp ⟨x, rfl, le_rfl⟩
      obtain ⟨x', hx', hle'⟩ := (h y).mpr ⟨y, hy, le_rfl⟩
      cases Option.some.inj hx'
      rw [hy, le_antisymm hle hle']

/-- Of each hash both hold a row, the same up to provenance, where the rows of their
    facts are the same and consistent. -/
theorem Ingests.same_transactions {F G : Facts} (hrows : F.rows = G.rows)
    (hF : ∀ t ∈ F.rows, ∀ t' ∈ F.rows, t.hash = t'.hash → t = t') {db d d' : Archive}
    (h : Ingests F db d) (h' : Ingests G db d') (hash : String) :
    (d.transactions.find? hash).map bare = (d'.transactions.find? hash).map bare := by
  have htx : ∀ {F G : Facts} {e e' : Archive}, F.rows = G.rows →
      (∀ t ∈ F.rows, ∀ t' ∈ F.rows, t.hash = t'.hash → t = t') →
      Ingests F db e → Ingests G db e' → ∀ {hash t}, e.transactions.find? hash = some t →
      ∃ t', e'.transactions.find? hash = some t' ∧ bare t = bare t' := by
    intro F G e e' hrows hF he he' hash t ht
    obtain ⟨hmem, hhash⟩ := Table.find?_eq_some.mp ht
    rcases he.new t hmem with hold | hnew
    · exact ⟨t, Table.find?_eq_some.mpr ⟨he'.kept t hold, hhash⟩, rfl⟩
    · obtain ⟨t', ht', hhash'⟩ := he'.stored _ (hrows ▸ hnew)
      have hhash' : t'.hash = hash := hhash'.trans hhash
      refine ⟨t', Table.find?_eq_some.mpr ⟨ht', hhash'⟩, ?_⟩
      rcases he'.new t' ht' with hold | hnew'
      · -- the row was stored before, and both keep it
        rw [e.transactions.eq_of_key_eq hmem (he.kept t' hold) (hhash.trans hhash'.symm)]
      · exact hF _ hnew _ (hrows ▸ hnew') (hhash.trans hhash'.symm)
  cases hfind : d.transactions.find? hash with
  | none =>
      cases hfind' : d'.transactions.find? hash with
      | none => rfl
      | some t' =>
          obtain ⟨t, ht, -⟩ := htx hrows.symm (hrows ▸ hF) h' h hfind'
          exact nomatch hfind.symm.trans ht
  | some t =>
      obtain ⟨t', ht', hbare⟩ := htx hrows hF h h' hfind
      rw [ht', Option.map_some, Option.map_some, hbare]

/-- Both hold the same deltas, where those of their facts are the same and
    consistent. -/
theorem Ingests.same_deltas {F G : Facts} (hdeltas : F.deltas = G.deltas)
    (hF : ∀ r ∈ F.deltas, ∀ r' ∈ F.deltas, r.key = r'.key → r = r') {db d d' : Archive}
    (h : Ingests F db d) (h' : Ingests G db d') (r : BalanceDeltaRow) :
    r ∈ d.balanceDeltas ↔ r ∈ d'.balanceDeltas := by
  obtain ⟨rows, hrows, hfold⟩ := h.deltas
  obtain ⟨rows', hrows', hfold'⟩ := h'.deltas
  rw [← hdeltas] at hrows'
  have hone : ∀ {l : List BalanceDeltaRow}, (∀ r, r ∈ l ↔ r ∈ F.deltas) →
      ∀ r ∈ l, ∀ r' ∈ l, r.key = r'.key → r = r' :=
    fun hl r hr r' hr' => hF r ((hl r).mp hr) r' ((hl r').mp hr')
  rw [hfold, hfold', mem_foldl_putDelta_consistent (hone hrows),
    mem_foldl_putDelta_consistent (hone hrows')]
  simp only [hrows, hrows']

/-- Both hold the same accounts, each first seen at the same ledger. -/
theorem Ingests.same_accounts {F : Facts} {db d d' : Archive} (h : Ingests F db d)
    (h' : Ingests F db d') (r : AccountRow) : r ∈ d.accounts ↔ r ∈ d'.accounts := by
  have haccount : ∀ {e e' : Archive}, Ingests F db e → Ingests F db e' → ∀ {r},
      r ∈ e.accounts → r ∈ e'.accounts := by
    intro e e' he he' r hr
    obtain ⟨r', hr', haddress⟩ :=
      (he'.accounts r.address).mpr ((he.accounts r.address).mp ⟨r, hr, rfl⟩)
    have hsees : ∀ {e : Archive} {r : AccountRow}, r ∈ e.accounts → ∀ n,
        Sees e.accounts r.address n ↔ ∃ x, r.firstSeenLedger = some x ∧ x ≤ n := by
      intro e r hr n
      constructor
      · rintro ⟨r₁, hr₁, haddr, hx⟩
        rwa [e.accounts.eq_of_key_eq hr₁ hr haddr] at hx
      · exact fun hx => ⟨r, hr, rfl, hx⟩
    have hfirst : r.firstSeenLedger = r'.firstSeenLedger := by
      refine firstSeen_eq (fun n => ?_)
      rw [← hsees hr n, ← hsees hr' n, haddress, he.sees, he'.sees]
    have heq : r = r' := by
      cases r
      cases r'
      simp only at haddress hfirst
      rw [haddress, hfirst]
    exact heq ▸ hr'
  exact ⟨haccount h h', haccount h' h⟩

/-- **FACTS THAT AGREE LEAVE ONE OUTCOME**. -/
theorem Ingests.same {F : Facts} (hF : F.Consistent) {db d d' : Archive}
    (h : Ingests F db d) (h' : Ingests F db d') : SameIngest d d' := by
  refine ⟨Ingests.same_transactions rfl hF.rows h h', fun r => ?_, h.same_accounts h',
    Ingests.same_deltas rfl hF.deltas h h'⟩
  rw [h.links, h'.links]

/-! ## What each statement ingests -/

theorem ingests_insertTransaction (row : TransactionRow) (db : Archive) :
    Ingests { rows := {bare row} } db (insertTransaction row db) where
  kept := fun t h => Table.mem_insertIgnore_of_mem h
  new := fun t h => by
    rcases Table.mem_insertIgnore.mp h with h | ⟨rfl, -⟩
    · exact Or.inl h
    · exact Or.inr rfl
  stored := fun t h => by
    cases h
    exact Table.hasKey_insertIgnore.mpr (Or.inr rfl)
  links := fun r => by simp [insertTransaction]
  sees := fun a n => by simp [insertTransaction]
  accounts := fun a => by simp [insertTransaction]
  deltas := ⟨[], fun r => by simp, rfl⟩
  issuances := rfl

theorem ingests_upsertAccount (a : String) (ledger : ℕ) (db : Archive) :
    Ingests { seen := {(a, ledger)} } db (upsertAccount ⟨a, some ledger⟩ db) where
  kept := fun t h => h
  new := fun t h => Or.inl h
  stored := fun t h => absurd h (Set.notMem_empty t)
  links := fun r => by simp [upsertAccount]
  sees := fun b n => by
    rw [sees_upsertAccount]
    refine or_congr Iff.rfl ⟨?_, ?_⟩
    · rintro ⟨rfl, x, hx, hle⟩
      cases Option.some.inj hx
      exact ⟨ledger, hle, rfl⟩
    · rintro ⟨m, hm, hin⟩
      obtain ⟨rfl, rfl⟩ := Prod.mk.inj hin
      exact ⟨rfl, m, rfl, hm⟩
  accounts := fun b => by
    refine Table.hasKey_upsert.trans (or_congr Iff.rfl ⟨?_, ?_⟩)
    · rintro rfl
      exact Or.inl ⟨ledger, rfl⟩
    · rintro (⟨m, hin⟩ | hin)
      · exact (Prod.mk.inj hin).1
      · exact absurd hin (Set.notMem_empty b)
  deltas := ⟨[], fun r => by simp, rfl⟩
  issuances := rfl

theorem ingests_insertAccount (a : String) (db : Archive) :
    Ingests { named := {a} } db (insertAccount ⟨a, none⟩ db) where
  kept := fun t h => h
  new := fun t h => Or.inl h
  stored := fun t h => absurd h (Set.notMem_empty t)
  links := fun r => by simp [insertAccount]
  sees := fun b n => by simp [sees_insertAccount]
  accounts := fun b => by
    refine Table.hasKey_insertIgnore.trans (or_congr Iff.rfl ⟨fun h => Or.inr h, ?_⟩)
    rintro (⟨m, hin⟩ | hin)
    · exact absurd hin (Set.notMem_empty _)
    · exact hin
  deltas := ⟨[], fun r => by simp, rfl⟩
  issuances := rfl

theorem ingests_insertAccountTransaction {link : AccountTransactionRow} {db db' : Archive}
    (h : insertAccountTransaction link db = .ok db') :
    Ingests { links := {link} } db db' := by
  cases Except.ok.inj (guarded_ok.mp (guarded_ok.mp h).2).2
  exact {
    kept := fun t h => h
    new := fun t h => Or.inl h
    stored := fun t h => absurd h (Set.notMem_empty t)
    links := fun r => by
      refine Table.mem_insertIgnore.trans ⟨fun h => h.imp id And.left, ?_⟩
      rintro (h | rfl)
      · exact Or.inl h
      · by_cases hkey : db.accountTransactions.HasKey r.key
        · -- a link is its key
          obtain ⟨r', hr', hk⟩ := hkey
          obtain ⟨hhash, haddress⟩ := Prod.mk.inj hk
          have heq : r' = r := by
            cases r
            cases r'
            simp only at hhash haddress
            rw [hhash, haddress]
          exact Or.inl (heq ▸ hr')
        · exact Or.inr ⟨rfl, hkey⟩
    sees := fun a n => by simp
    accounts := fun a => by simp
    deltas := ⟨[], fun r => by simp, rfl⟩
    issuances := rfl }

theorem ingests_upsertDelta {row : BalanceDeltaRow} {db db' : Archive}
    (h : upsertDelta row db = .ok db') : Ingests { deltas := {row} } db db' := by
  cases Except.ok.inj (guarded_ok.mp (guarded_ok.mp (guarded_ok.mp h).2).2).2
  exact {
    kept := fun t h => h
    new := fun t h => Or.inl h
    stored := fun t h => absurd h (Set.notMem_empty t)
    links := fun r => by simp
    sees := fun a n => by simp
    accounts := fun a => by simp
    deltas := ⟨[row], fun r => by simp, rfl⟩
    issuances := rfl }

/-- The facts of transactions and their links. -/
def txFacts (txs : List IngestTransaction) : Facts where
  rows := {t | ∃ tx ∈ txs, t = bare tx.row}
  links := {r | ∃ tx ∈ txs, r.hash = tx.hash ∧ r.address ∈ tx.accounts}
  seen := {p | ∃ tx ∈ txs, p.1 ∈ tx.accounts ∧ p.2 = tx.ledgerIndex}

/-- An earliest ledger is that of a transaction. -/
theorem exists_tx_of_earliest {txs : List IngestTransaction} {e : String × ℕ}
    (h : e ∈ earliestLedgers txs) : ∃ tx ∈ txs, e.1 ∈ tx.accounts ∧ e.2 = tx.ledgerIndex := by
  have hfold : ∀ (l : List (String × ℕ)) (t : Table (Prod.fst : String × ℕ → String)),
      e ∈ l.foldl (fun t e => t.upsert (fun old new => (old.1, min old.2 new.2))
        (fun _ _ => rfl) e) t →
      e ∈ t ∨ e ∈ l := by
    intro l
    induction l with
    | nil => exact fun t h => Or.inl h
    | cons x l ih =>
        intro t h
        rcases ih _ h with h | h
        · rcases Table.mem_upsert.mp h with ⟨h, -⟩ | ⟨old, hold, hkey, rfl⟩ | ⟨rfl, -⟩
          · exact Or.inl h
          · rcases min_choice old.2 x.2 with hmin | hmin
            · rw [hmin]
              exact Or.inl hold
            · rw [hmin, hkey]
              exact Or.inr List.mem_cons_self
          · exact Or.inr List.mem_cons_self
        · exact Or.inr (List.mem_cons_of_mem x h)
  rcases hfold _ _ h with h | h
  · exact nomatch h
  · obtain ⟨tx, htx, he⟩ := List.mem_flatMap.mp h
    obtain ⟨a, ha, rfl⟩ := List.mem_map.mp he
    exact ⟨tx, htx, ha, rfl⟩

/-- Only a link itself has its key. -/
theorem mem_distinct_links {l : List AccountTransactionRow} {r : AccountTransactionRow} :
    r ∈ distinctBy AccountTransactionRow.key l ↔ r ∈ l := by
  refine ⟨mem_of_mem_distinctBy, fun h => ?_⟩
  obtain ⟨r', hr', hkey⟩ := @exists_mem_distinctBy _ _ _ AccountTransactionRow.key l r h
  obtain ⟨hhash, haddress⟩ := Prod.mk.inj hkey
  have heq : r' = r := by
    cases r
    cases r'
    simp only at hhash haddress
    rw [hhash, haddress]
  exact heq ▸ hr'

/-- **WHAT A BATCH OF TRANSACTIONS INGESTS**. -/
theorem ingests_insertTransactionRowsMany {txs : List IngestTransaction} {db db' : Archive}
    (h : insertTransactionRowsMany txs db = .ok db') : Ingests (txFacts txs) db db' := by
  unfold insertTransactionRowsMany at h
  by_cases hempty : txs.isEmpty
  · simp only [hempty] at h
    cases Except.ok.inj h
    rw [List.isEmpty_iff.mp hempty]
    have hnone : txFacts [] = Facts.none := by
      ext x <;> simp [txFacts, Facts.none]
    rw [hnone]
    exact Ingests.refl db
  · simp only [hempty] at h
    obtain ⟨d₁, h₁, h⟩ := bind_ok.mp h
    obtain ⟨d₂, h₂, h₃⟩ := bind_ok.mp h
    have h₁ := insertChunked_ok (fun _ _ _ h => foldl_ok h) h₁
    have h₂ : _ = Except.ok d₂ :=
      insertChunked_ok (fun _ _ _ h => foldl_ok (guarded_ok.mp h).2) h₂
    have h₃ := insertChunked_ok (fun _ _ _ h => h) h₃
    have hrows := Ingests.foldlM (F := fun tx : IngestTransaction => { rows := {bare tx.row} })
      (fun tx _ d d' hd => by
        cases Except.ok.inj hd
        exact ingests_insertTransaction tx.row d) h₁
    have haccounts := Ingests.foldlM (F := fun r : String × ℕ => { seen := {(r.1, r.2)} })
      (fun r _ d d' hd => by
        cases Except.ok.inj hd
        exact ingests_upsertAccount r.1 r.2 d) h₂
    have hlinks := Ingests.foldlM (F := fun r : AccountTransactionRow => { links := {r} })
      (fun r _ d d' hd => ingests_insertAccountTransaction hd) h₃
    refine ((hrows.trans haccounts).trans hlinks).widen ?_ ?_ ?_ ?_ ?_ ?_ ?_
    · rintro t ((⟨tx, htx, ht⟩ | ⟨_, _, h⟩) | ⟨_, _, h⟩)
      · exact ⟨tx, mem_of_mem_distinctBy ((List.mem_insertionSort _).mp htx), ht⟩
      · exact absurd h (Set.notMem_empty t)
      · exact absurd h (Set.notMem_empty t)
    · rintro t ⟨tx, htx, rfl⟩
      obtain ⟨tx', htx', hhash⟩ :=
        @exists_mem_distinctBy _ _ _ IngestTransaction.hash txs tx htx
      exact ⟨bare tx'.row,
        Or.inl (Or.inl ⟨tx', (List.mem_insertionSort _).mpr htx', rfl⟩), hhash⟩
    · intro r
      constructor
      · rintro ((⟨_, _, h⟩ | ⟨_, _, h⟩) | ⟨r', hr', h⟩)
        · exact absurd h (Set.notMem_empty r)
        · exact absurd h (Set.notMem_empty r)
        · cases h
          obtain ⟨tx, htx, hr⟩ := List.mem_flatMap.mp
            (mem_distinct_links.mp ((List.mem_insertionSort _).mp hr'))
          obtain ⟨a, ha, rfl⟩ := List.mem_map.mp hr
          exact ⟨tx, htx, rfl, ha⟩
      · rintro ⟨tx, htx, hhash, ha⟩
        refine Or.inr ⟨r, (List.mem_insertionSort _).mpr (mem_distinct_links.mpr ?_), rfl⟩
        refine List.mem_flatMap.mpr ⟨tx, htx, List.mem_map.mpr ⟨r.address, ha, ?_⟩⟩
        rw [← hhash]
    · rintro p ((⟨_, _, h⟩ | ⟨e, he, h⟩) | ⟨_, _, h⟩)
      · exact absurd h (Set.notMem_empty p)
      · cases h
        exact exists_tx_of_earliest ((List.mem_insertionSort _).mp he)
      · exact absurd h (Set.notMem_empty p)
    · rintro a n ⟨tx, htx, ha, rfl⟩
      obtain ⟨m, hm, hmem⟩ := earliestLedgers_le htx ha
      exact ⟨m, hm, Or.inl (Or.inr ⟨(a, m), (List.mem_insertionSort _).mpr hmem, rfl⟩)⟩
    · intro a
      simp [Facts.union, Facts.all, txFacts]
    · intro r
      simp [Facts.union, Facts.all, txFacts]

/-- What a single transaction ingests. -/
theorem ingests_insertTransactionRows {tx : IngestTransaction} {db db' : Archive}
    (h : insertTransactionRows tx db = .ok db') : Ingests (txFacts [tx]) db db' := by
  have hlinks := Ingests.foldlM
    (F := fun a : String => Facts.union { seen := {(a, tx.ledgerIndex)} }
      { links := {(⟨tx.hash, a⟩ : AccountTransactionRow)} })
    (fun a _ d d' hd => (ingests_upsertAccount a tx.ledgerIndex d).trans
      (ingests_insertAccountTransaction hd)) h
  refine ((ingests_insertTransaction tx.row db).trans hlinks).widen ?_ ?_ ?_ ?_ ?_ ?_ ?_
  · rintro t (h | ⟨_, _, h | h⟩)
    · exact ⟨tx, List.mem_singleton_self tx, h⟩
    · exact absurd h (Set.notMem_empty t)
    · exact absurd h (Set.notMem_empty t)
  · rintro t ⟨tx', htx', rfl⟩
    cases List.mem_singleton.mp htx'
    exact ⟨bare tx.row, Or.inl rfl, rfl⟩
  · intro r
    constructor
    · rintro (h | ⟨a, ha, h | h⟩)
      · exact absurd h (Set.notMem_empty r)
      · exact absurd h (Set.notMem_empty r)
      · cases h
        exact ⟨tx, List.mem_singleton_self tx, rfl, (List.mem_insertionSort _).mp ha⟩
    · rintro ⟨tx', htx', hhash, ha⟩
      cases List.mem_singleton.mp htx'
      refine Or.inr ⟨r.address, (List.mem_insertionSort _).mpr ha, Or.inr ?_⟩
      show r = _
      rw [← hhash]
  · rintro p (h | ⟨a, ha, h | h⟩)
    · exact absurd h (Set.notMem_empty p)
    · cases h
      exact ⟨tx, List.mem_singleton_self tx, (List.mem_insertionSort _).mp ha, rfl⟩
    · exact absurd h (Set.notMem_empty p)
  · rintro a n ⟨tx', htx', ha, rfl⟩
    cases List.mem_singleton.mp htx'
    exact ⟨tx.ledgerIndex, le_rfl, Or.inr ⟨a, (List.mem_insertionSort _).mpr ha, Or.inl rfl⟩⟩
  · intro a
    simp [Facts.union, Facts.all, txFacts]
  · intro r
    simp [Facts.union, Facts.all, txFacts]

/-- The facts of delta rows. -/
def deltaFacts (rows : List BalanceDeltaRow) : Facts where
  named := {a | ∃ r ∈ rows, r.address = a}
  deltas := {r | r ∈ rows}

/-- What a batch of deltas ingests. -/
theorem ingests_insertDeltasMany {issuanceId : ℕ} {rows : List DeltaRow} {db db' : Archive}
    (h : insertDeltasMany issuanceId rows db = .ok db') :
    Ingests (deltaFacts (rows.map fun r => ⟨r.hash, r.address, issuanceId, r.delta⟩))
      db db' := by
  unfold insertDeltasMany at h
  by_cases hempty : rows.isEmpty
  · simp only [hempty] at h
    cases Except.ok.inj h
    rw [List.isEmpty_iff.mp hempty]
    have hnone : deltaFacts ([] : List BalanceDeltaRow) = Facts.none := by
      ext x <;> simp [deltaFacts, Facts.none]
    exact hnone ▸ Ingests.refl db
  · simp only [hempty] at h
    obtain ⟨d₁, h₁, h₂⟩ := bind_ok.mp h
    have h₁ := insertChunked_ok (fun _ _ _ h => foldl_ok h) h₁
    have h₂ := insertChunked_ok (fun _ _ _ h => (guarded_ok.mp h).2) h₂
    have haccounts := Ingests.foldlM (F := fun a : String => { named := {a} })
      (fun a _ d d' hd => by
        cases Except.ok.inj hd
        exact ingests_insertAccount a d) h₁
    have hdeltas := Ingests.foldlM
      (F := fun r : DeltaRow => { deltas := {⟨r.hash, r.address, issuanceId, r.delta⟩} })
      (fun r _ d d' hd => ingests_upsertDelta hd) h₂
    refine (haccounts.trans hdeltas).widen ?_ ?_ ?_ ?_ ?_ ?_ ?_
    · rintro t (⟨_, _, h⟩ | ⟨_, _, h⟩) <;> exact absurd h (Set.notMem_empty t)
    · exact fun t ht => absurd ht (Set.notMem_empty t)
    · intro r
      simp [Facts.union, Facts.all, deltaFacts]
    · rintro p (⟨_, _, h⟩ | ⟨_, _, h⟩) <;> exact absurd h (Set.notMem_empty p)
    · exact fun a n ht => absurd ht (Set.notMem_empty _)
    · intro a
      constructor
      · rintro (⟨a', ha', h⟩ | ⟨_, _, h⟩)
        · cases h
          obtain ⟨r, hr, rfl⟩ := List.mem_map.mp
            (mem_distinctBy_id.mp ((List.mem_insertionSort _).mp ha'))
          exact ⟨_, List.mem_map_of_mem hr, rfl⟩
        · exact absurd h (Set.notMem_empty a)
      · rintro ⟨r, hr, rfl⟩
        obtain ⟨d, hd, rfl⟩ := List.mem_map.mp hr
        refine Or.inl ⟨d.address, (List.mem_insertionSort _).mpr ?_, rfl⟩
        exact mem_distinctBy_id.mpr (List.mem_map_of_mem hd)
    · intro r
      constructor
      · rintro (⟨_, _, h⟩ | ⟨d, hd, h⟩)
        · exact absurd h (Set.notMem_empty r)
        · cases h
          exact List.mem_map.mpr ⟨d, (List.mem_insertionSort _).mp hd, rfl⟩
      · intro hr
        obtain ⟨d, hd, rfl⟩ := List.mem_map.mp hr
        exact Or.inr ⟨d, (List.mem_insertionSort _).mpr hd, rfl⟩

/-- **WHAT A DERIVATION INGESTS**. -/
theorem ingests_deltaDeriver {issuances : List TrackedIssuance} {hash : String}
    {metadata : Option Meta} {db db' : Archive}
    (h : deltaDeriver issuances hash metadata db = .ok db') :
    Ingests (deltaFacts (derivedRows issuances hash metadata)) db db' := by
  cases metadata with
  | none =>
      cases Except.ok.inj h
      have hnone : deltaFacts (derivedRows issuances hash none) = Facts.none := by
        ext x <;> simp [deltaFacts, derivedRows, Facts.none]
      exact hnone ▸ Ingests.refl db
  | some m =>
      have h : issuances.foldlM (fun db iss => insertDeltasMany iss.id
        ((issuanceDeltas iss m).map (fun d => ⟨hash, d.1, d.2⟩)) db) db = .ok db' := h
      have hall := Ingests.foldlM (fun iss _ d d' hd => ingests_insertDeltasMany hd) h
      have hmem : ∀ r : BalanceDeltaRow, r ∈ derivedRows issuances hash (some m) ↔
          ∃ iss ∈ issuances, r ∈ ((issuanceDeltas iss m).map
            (fun d => DeltaRow.mk hash d.1 d.2)).map
              (fun d => ⟨d.hash, d.address, iss.id, d.delta⟩) := by
        intro r
        refine List.mem_flatMap.trans (exists_congr (fun iss => and_congr Iff.rfl ?_))
        rw [(issuanceRows_perm hash m iss).mem_iff, List.map_map]
        rfl
      refine hall.widen ?_ ?_ ?_ ?_ ?_ ?_ ?_
      · rintro t ⟨_, _, h⟩
        exact absurd h (Set.notMem_empty t)
      · exact fun t ht => absurd ht (Set.notMem_empty t)
      · intro r
        simp [Facts.all, deltaFacts]
      · rintro p ⟨_, _, h⟩
        exact absurd h (Set.notMem_empty p)
      · exact fun a n ht => absurd ht (Set.notMem_empty _)
      · intro a
        constructor
        · rintro ⟨iss, hiss, r, hr, rfl⟩
          exact ⟨r, (hmem r).mpr ⟨iss, hiss, hr⟩, rfl⟩
        · rintro ⟨r, hr, rfl⟩
          obtain ⟨iss, hiss, hr⟩ := (hmem r).mp hr
          exact ⟨iss, hiss, r, hr, rfl⟩
      · exact fun r => (hmem r).symm

theorem ingests_recordHolder {issuanceId ledger : ℕ} {address : String} {db db' : Archive}
    (h : recordHolder issuanceId address ledger db = .ok db') :
    Ingests { seen := {(address, ledger)} } db db' := by
  obtain ⟨-, -, rfl⟩ := recordHolder_ok.mp h
  have hupsert := ingests_upsertAccount address ledger db
  exact ⟨hupsert.kept, hupsert.new, hupsert.stored, hupsert.links, hupsert.sees,
    hupsert.accounts, hupsert.deltas, hupsert.issuances⟩

/-! ## No statement fails -/

/-- A chunked statement succeeds when it does on every part of its rows. -/
theorem insertChunked_succeeds {α : Type} {columns : ℕ}
    {statement : List α → Archive → Except DbError Archive} {P : Archive → Prop}
    {rows : List α} {db : Archive}
    (hstep : ∀ chunk : List α, chunk.Sublist rows → ∀ d, P d →
      ∃ d', statement chunk d = .ok d' ∧ P d') (hP : P db) :
    ∃ db', insertChunked columns statement rows db = .ok db' ∧ P db' := by
  refine foldlM_succeeds (fun chunk hchunk d hd => hstep chunk ?_ d hd) hP
  obtain ⟨k, -, rfl⟩ := List.mem_map.mp hchunk
  exact (List.take_sublist _ _).trans (List.drop_sublist _ _)

theorem insertAccountTransaction_succeeds {link : AccountTransactionRow} {db : Archive}
    (htx : db.transactions.HasKey link.hash) (hacc : db.accounts.HasKey link.address) :
    ∃ db', insertAccountTransaction link db = .ok db'
      ∧ db'.transactions = db.transactions ∧ db'.accounts = db.accounts := by
  refine ⟨{ db with accountTransactions := db.accountTransactions.insertIgnore link },
    ?_, rfl, rfl⟩
  unfold insertAccountTransaction
  rw [if_neg (not_not.mpr htx), if_neg (not_not.mpr hacc)]

theorem upsertDelta_succeeds {row : BalanceDeltaRow} {db : Archive}
    (htx : db.transactions.HasKey row.hash) (hacc : db.accounts.HasKey row.address)
    (hissuance : db.issuances.HasKey row.issuanceId) :
    ∃ db', upsertDelta row db = .ok db' ∧ db'.transactions = db.transactions
      ∧ db'.accounts = db.accounts ∧ db'.issuances = db.issuances := by
  refine ⟨{ db with balanceDeltas := putDelta db.balanceDeltas row }, ?_, rfl, rfl, rfl⟩
  unfold upsertDelta
  rw [if_neg (not_not.mpr htx), if_neg (not_not.mpr hacc), if_neg (not_not.mpr hissuance)]
  rfl

theorem foldl_insertAccount_keeps (addresses : List String) (db : Archive) :
    (addresses.foldl (fun db a => insertAccount ⟨a, none⟩ db) db).transactions
        = db.transactions
      ∧ (addresses.foldl (fun db a => insertAccount ⟨a, none⟩ db) db).issuances
        = db.issuances := by
  induction addresses generalizing db with
  | nil => exact ⟨rfl, rfl⟩
  | cons a addresses ih => exact ih (insertAccount ⟨a, none⟩ db)

theorem insertTransactionRowsMany_succeeds (txs : List IngestTransaction) (db : Archive) :
    ∃ db', insertTransactionRowsMany txs db = .ok db' := by
  unfold insertTransactionRowsMany
  by_cases hempty : txs.isEmpty
  · exact ⟨db, by rw [if_pos hempty]; rfl⟩
  · simp only [hempty]
    let txRows := (distinctBy IngestTransaction.hash txs).insertionSort
      (fun a b => a.hash ≤ b.hash)
    obtain ⟨d₁, h₁, -⟩ := @insertChunked_succeeds _ 10
      (fun chunk db => .ok (chunk.foldl (fun db tx => insertTransaction tx.row db) db))
      (fun _ => True) txRows db (fun chunk _ d _ => ⟨_, rfl, trivial⟩) trivial
    let accounts := (earliestLedgers txs).insertionSort (fun a b => a.1 ≤ b.1)
    have hkeys : (accounts.map Prod.fst).Nodup :=
      ((List.perm_insertionSort _ (earliestLedgers txs)).map Prod.fst).nodup_iff.mpr
        (Table.nodup _)
    obtain ⟨d₂, h₂, -⟩ := @insertChunked_succeeds _ 2 upsertAccounts (fun _ => True) accounts
      d₁ (fun chunk hchunk d _ =>
        ⟨_, if_neg (not_not.mpr ((hchunk.map Prod.fst).nodup hkeys)), trivial⟩) trivial
    -- both ends of every link are there by now
    have hrows := Ingests.foldlM (F := fun tx : IngestTransaction => { rows := {bare tx.row} })
      (fun tx _ d d' hd => by
        cases Except.ok.inj hd
        exact ingests_insertTransaction tx.row d)
      (insertChunked_ok (fun _ _ _ h => foldl_ok h) h₁)
    have haccounts := Ingests.foldlM (F := fun r : String × ℕ => { seen := {(r.1, r.2)} })
      (fun r _ d d' hd => by
        cases Except.ok.inj hd
        exact ingests_upsertAccount r.1 r.2 d)
      (insertChunked_ok (fun _ _ _ h => foldl_ok (guarded_ok.mp h).2) h₂)
    let links := (distinctBy AccountTransactionRow.key
      (txs.flatMap (fun tx => tx.accounts.map (fun a => ⟨tx.hash, a⟩)))).insertionSort
        (fun a b => a.hash < b.hash ∨ (a.hash = b.hash ∧ a.address ≤ b.address))
    have hends : ∀ link ∈ links,
        d₂.transactions.HasKey link.hash ∧ d₂.accounts.HasKey link.address := by
      intro link hlink
      obtain ⟨tx, htx, hl⟩ := List.mem_flatMap.mp
        (mem_distinct_links.mp ((List.mem_insertionSort _).mp hlink))
      obtain ⟨a, ha, rfl⟩ := List.mem_map.mp hl
      constructor
      · obtain ⟨tx', htx', hhash⟩ :=
          @exists_mem_distinctBy _ _ _ IngestTransaction.hash txs tx htx
        obtain ⟨t, ht, heq⟩ := hrows.stored (bare tx'.row)
          ⟨tx', (List.mem_insertionSort _).mpr htx', rfl⟩
        exact ⟨t, haccounts.kept t ht, heq.trans hhash⟩
      · obtain ⟨m, -, hmem⟩ := earliestLedgers_le htx ha
        exact (haccounts.accounts a).mpr
          (Or.inr (Or.inl ⟨m, (a, m), (List.mem_insertionSort _).mpr hmem, rfl⟩))
    obtain ⟨d₃, h₃, -⟩ := @insertChunked_succeeds _ 2
      (fun chunk db => chunk.foldlM (fun db link => insertAccountTransaction link db) db)
      (fun d => d.transactions = d₂.transactions ∧ d.accounts = d₂.accounts) links d₂
      (fun chunk hchunk d hd => foldlM_succeeds (fun link hlink e he => by
        obtain ⟨htx, hacc⟩ := hends link (hchunk.subset hlink)
        obtain ⟨e', he', htx', hacc'⟩ :=
          insertAccountTransaction_succeeds (he.1 ▸ htx) (he.2 ▸ hacc)
        exact ⟨e', he', htx'.trans he.1, hacc'.trans he.2⟩) hd) ⟨rfl, rfl⟩
    exact ⟨d₃, bind_ok.mpr ⟨d₁, h₁, bind_ok.mpr ⟨d₂, h₂, h₃⟩⟩⟩

theorem insertTransactionRows_succeeds (tx : IngestTransaction) (db : Archive) :
    ∃ db', insertTransactionRows tx db = .ok db' := by
  obtain ⟨db', h, -⟩ := foldlM_succeeds (ε := DbError)
    (f := fun db address => insertAccountTransaction ⟨tx.hash, address⟩
      (upsertAccount ⟨address, some tx.ledgerIndex⟩ db))
    (P := fun d => d.transactions.HasKey tx.hash) (l := tx.accounts.insertionSort (· ≤ ·))
    (s := insertTransaction tx.row db) (fun a _ d hd => by
      have hacc : (upsertAccount ⟨a, some tx.ledgerIndex⟩ d).accounts.HasKey a :=
        Table.hasKey_upsert.mpr (Or.inr rfl)
      obtain ⟨d', hd', htx, -⟩ := @insertAccountTransaction_succeeds ⟨tx.hash, a⟩
        (upsertAccount ⟨a, some tx.ledgerIndex⟩ d) hd hacc
      exact ⟨d', hd', htx ▸ hd⟩)
    (Table.hasKey_insertIgnore.mpr (Or.inr rfl))
  exact ⟨db', h⟩

/-- Deltas of a stored transaction for a registered issuance, one of a holder. -/
theorem insertDeltasMany_succeeds {issuanceId : ℕ} {rows : List DeltaRow} {db : Archive}
    (htx : ∀ r ∈ rows, db.transactions.HasKey r.hash)
    (hissuance : db.issuances.HasKey issuanceId)
    (honce : (rows.map (fun r => (r.hash, r.address))).Nodup) :
    ∃ db', insertDeltasMany issuanceId rows db = .ok db' := by
  unfold insertDeltasMany
  by_cases hempty : rows.isEmpty
  · exact ⟨db, by rw [if_pos hempty]; rfl⟩
  · simp only [hempty]
    let addresses := (distinctBy id (rows.map (·.address))).insertionSort (· ≤ ·)
    obtain ⟨d₁, h₁, htx₁, hiss₁⟩ := @insertChunked_succeeds _ 1
      (fun chunk db => .ok (chunk.foldl (fun db a => insertAccount ⟨a, none⟩ db) db))
      (fun d => d.transactions = db.transactions ∧ d.issuances = db.issuances) addresses db
      (fun chunk _ d hd => by
        have hkeep := foldl_insertAccount_keeps chunk d
        exact ⟨_, rfl, hkeep.1.trans hd.1, hkeep.2.trans hd.2⟩) ⟨rfl, rfl⟩
    have haccounts := Ingests.foldlM (F := fun a : String => { named := {a} })
      (fun a _ d d' hd => by
        cases Except.ok.inj hd
        exact ingests_insertAccount a d)
      (insertChunked_ok (fun _ _ _ h => foldl_ok h) h₁)
    let ordered := rows.insertionSort
      (fun a b => a.hash < b.hash ∨ (a.hash = b.hash ∧ a.address ≤ b.address))
    have hordered : (ordered.map (fun r => (r.hash, r.address))).Nodup :=
      ((List.perm_insertionSort _ rows).map _).nodup_iff.mpr honce
    have hkeys : ∀ r ∈ ordered, d₁.transactions.HasKey r.hash
        ∧ d₁.accounts.HasKey r.address := by
      intro r hr
      have hr := (List.mem_insertionSort _).mp hr
      refine ⟨htx₁ ▸ htx r hr, (haccounts.accounts r.address).mpr (Or.inr (Or.inr ?_))⟩
      exact ⟨r.address, (List.mem_insertionSort _).mpr
        (mem_distinctBy_id.mpr (List.mem_map_of_mem hr)), rfl⟩
    obtain ⟨d₂, h₂, -⟩ := @insertChunked_succeeds _ 3 (upsertDeltas issuanceId)
      (fun d => d.transactions = d₁.transactions ∧ d.accounts = d₁.accounts
        ∧ d.issuances = d₁.issuances) ordered d₁
      (fun chunk hchunk d hd => by
        unfold upsertDeltas
        rw [if_neg (not_not.mpr ((hchunk.map _).nodup hordered))]
        refine foldlM_succeeds (fun r hr e he => ?_) hd
        obtain ⟨hrtx, hracc⟩ := hkeys r (hchunk.subset hr)
        have hiss : e.issuances.HasKey issuanceId := by
          rw [he.2.2, hiss₁]
          exact hissuance
        obtain ⟨e', he', htx', hacc', hiss'⟩ := @upsertDelta_succeeds
          ⟨r.hash, r.address, issuanceId, r.delta⟩ e (he.1 ▸ hrtx) (he.2.1 ▸ hracc) hiss
        exact ⟨e', he', htx'.trans he.1, hacc'.trans he.2.1, hiss'.trans he.2.2⟩)
      ⟨rfl, rfl, rfl⟩
    exact ⟨d₂, bind_ok.mpr ⟨d₁, h₁, h₂⟩⟩

/-- A derivation of a stored transaction for registered issuances. -/
theorem deltaDeriver_succeeds {issuances : List TrackedIssuance} {hash : String}
    {metadata : Option Meta} {db : Archive} (htx : db.transactions.HasKey hash)
    (hissuances : ∀ iss ∈ issuances, db.issuances.HasKey iss.id)
    (honce : ∀ m, metadata = some m → ∀ iss ∈ issuances,
      ((issuanceDeltas iss m).map Prod.fst).Nodup) :
    ∃ db', deltaDeriver issuances hash metadata db = .ok db' := by
  cases metadata with
  | none => exact ⟨db, rfl⟩
  | some m =>
      obtain ⟨db', h, -⟩ := foldlM_succeeds (ε := DbError)
        (f := fun db (iss : TrackedIssuance) => insertDeltasMany iss.id
          ((issuanceDeltas iss m).map (fun d => ⟨hash, d.1, d.2⟩)) db)
        (P := fun d => d.transactions = db.transactions ∧ d.issuances = db.issuances)
        (l := issuances) (s := db) (fun iss hiss d hd => by
          have hrows : ∀ r ∈ (issuanceDeltas iss m).map (fun d => DeltaRow.mk hash d.1 d.2),
              d.transactions.HasKey r.hash := by
            intro r hr
            obtain ⟨x, -, rfl⟩ := List.mem_map.mp hr
            exact hd.1 ▸ htx
          have hnodup : (((issuanceDeltas iss m).map (fun d => DeltaRow.mk hash d.1 d.2)).map
              (fun r => (r.hash, r.address))).Nodup := by
            rw [List.map_map]
            refine List.Nodup.of_map Prod.snd ?_
            rw [List.map_map]
            exact honce m rfl iss hiss
          obtain ⟨d', hd'⟩ := insertDeltasMany_succeeds hrows (hd.2 ▸ hissuances iss hiss) hnodup
          have hok := insertDeltasMany_ok hd'
          exact ⟨d', hd', hok.2.1.trans hd.1, hok.2.2.trans hd.2⟩) ⟨rfl, rfl⟩
      exact ⟨db', h⟩

end RegistrarOrder
