import Registrar.Library.Runs

/-! # Migrations

    Every process that opens the archive applies the migrations it knows and does not
    find recorded, in a transaction each.  However many start at one time, of whatever
    releases, and wherever they fail, each migration is committed once and in order of
    its id.  Under the lock of a networked engine none is ever tried twice. -/

namespace RegistrarMigrations

open Runs

/-! ## Processes and their database -/

structure Migration where
  id : ℕ
  name : String
  sql : String
  deriving DecidableEq

/-- A row of `schema_migrations`, `applied_at` left out. -/
structure AppliedRow where
  id : ℕ
  name : String
  deriving DecidableEq

def Migration.row (m : Migration) : AppliedRow := ⟨m.id, m.name⟩

/-- `schema_migrations`, before and after it is created, and the scripts that are
    committed, in order. -/
structure SchemaDb where
  schemaMigrations : Option (List AppliedRow) := none
  scripts : List String := []
  deriving DecidableEq

def SchemaDb.rows (db : SchemaDb) : List AppliedRow := db.schemaMigrations.getD []

/-- The id is recorded. -/
def SchemaDb.HasId (db : SchemaDb) (id : ℕ) : Prop := ∃ r ∈ db.rows, r.id = id

instance (db : SchemaDb) (id : ℕ) : Decidable (db.HasId id) :=
  inferInstanceAs (Decidable (∃ r ∈ db.rows, _))

/-- `CREATE TABLE IF NOT EXISTS`. -/
def createLedger (db : SchemaDb) : SchemaDb := { db with schemaMigrations := some db.rows }

/-- By id; the sort is stable. -/
def sortById (migrations : List Migration) : List Migration :=
  migrations.insertionSort (fun a b => a.id ≤ b.id)

/-- The migrations that are not recorded. -/
def pendingOf (migrations : List Migration) (db : SchemaDb) : List Migration :=
  (sortById migrations).filter (fun m => ¬ db.HasId m.id)

/-- The transaction of a migration; `none` where its id is recorded. -/
def applyMigration (m : Migration) (db : SchemaDb) : Option SchemaDb :=
  if db.HasId m.id then none
  else some ⟨some (db.rows ++ [m.row]), db.scripts ++ [m.sql]⟩

/-- Where a call of `runMigrations` stands. -/
inductive Phase
  -- awaits the lock
  | waiting
  -- in `applyMigrations`
  | entered
  | created
  | applying (rest : List Migration) (pending : ℕ)
  | returned (applied : ℕ)
  | threw
  deriving DecidableEq

structure Process where
  migrations : List Migration
  phase : Phase
  deriving DecidableEq

/-- The database, its processes and the one that holds the lock; `locking` says whether
    the engine has one.  `log` records who committed what. -/
structure Host where
  db : SchemaDb
  locking : Bool
  processes : List Process := []
  lock : Option ℕ := none
  log : List (ℕ × Migration) := []
  deriving DecidableEq

inductive Action
  | start (migrations : List Migration)
  | acquire (p : ℕ)
  | create (p : ℕ)
  | read (p : ℕ)
  | apply (p : ℕ)
  | return (p : ℕ)
  -- a statement fails, or the process ends
  | fail (p : ℕ)
  -- the session that holds the lock ends, the process goes on
  | lose (p : ℕ)

/-- The call is over, and the session of its lock ends. -/
def Host.leave (s : Host) (p : ℕ) (w : Process) (phase : Phase) : Host :=
  { s with
    processes := s.processes.set p { w with phase }
    lock := if s.lock = some p then none else s.lock }

def Host.move (s : Host) (p : ℕ) (w : Process) (phase : Phase) : Host :=
  { s with processes := s.processes.set p { w with phase } }

/-- The call is under way. -/
def Phase.Open : Phase → Prop
  | .returned _ => False
  | .threw => False
  | _ => True

instance (phase : Phase) : Decidable phase.Open := by
  unfold Phase.Open
  cases phase <;> exact inferInstance

def step (s : Host) : Action → Option Host
  | .start migrations =>
      some { s with processes :=
        s.processes ++ [⟨migrations, if s.locking then .waiting else .entered⟩] }
  | .acquire p =>
      s.processes[p]?.bind fun w =>
        if w.phase = .waiting ∧ s.lock = none then
          some { s.move p w .entered with lock := some p }
        else none
  | .create p =>
      s.processes[p]?.bind fun w =>
        if w.phase = .entered then some { s.move p w .created with db := createLedger s.db }
        else none
  | .read p =>
      s.processes[p]?.bind fun w =>
        if w.phase = .created then
          let pending := pendingOf w.migrations s.db
          some (s.move p w (.applying pending pending.length))
        else none
  | .apply p =>
      s.processes[p]?.bind fun w =>
        match w.phase with
        | .applying (m :: rest) pending =>
            match applyMigration m s.db with
            | some db =>
                some { s.move p w (.applying rest pending) with
                  db, log := s.log ++ [(p, m)] }
            | none => some (s.leave p w .threw)
        | _ => none
  | .return p =>
      s.processes[p]?.bind fun w =>
        match w.phase with
        | .applying [] pending => some (s.leave p w (.returned pending))
        | _ => none
  | .fail p =>
      s.processes[p]?.bind fun w =>
        if w.phase.Open then some (s.leave p w .threw) else none
  | .lose p =>
      if s.lock = some p then some { s with lock := none } else none

/-! ## Releases -/

/-- The migrations of all releases, in order of their ids. -/
def Ordered (all : List Migration) : Prop := all.Pairwise (fun m m' => m.id < m'.id)

instance (all : List Migration) : Decidable (Ordered all) :=
  inferInstanceAs (Decidable (List.Pairwise _ _))

/-- A release knows the migrations of those before it. -/
def Released (all : List Migration) : Host → Action → Prop
  | _, .start migrations => sortById migrations <+: all
  | _, _ => True

instance (all : List Migration) (s : Host) (a : Action) : Decidable (Released all s a) := by
  unfold Released
  cases a <;> exact inferInstance

/-- The first `k` migrations are recorded and committed. -/
def Upto (all : List Migration) (k : ℕ) (db : SchemaDb) : Prop :=
  db.rows = (all.take k).map Migration.row ∧ db.scripts = (all.take k).map (·.sql)

section Upto

variable {all : List Migration} {k : ℕ} {db : SchemaDb}

theorem Upto.hasId_iff (h : Upto all k db) {id : ℕ} :
    db.HasId id ↔ ∃ m ∈ all.take k, m.id = id := by
  unfold SchemaDb.HasId
  rw [h.1]
  constructor
  · rintro ⟨r, hr, rfl⟩
    obtain ⟨m, hm, rfl⟩ := List.mem_map.mp hr
    exact ⟨m, hm, rfl⟩
  · rintro ⟨m, hm, rfl⟩
    exact ⟨m.row, List.mem_map_of_mem hm, rfl⟩

/-- Of those a release knows, the first `k` are recorded and no other. -/
theorem Upto.hasId_take (h : Upto all k db) {known : List Migration} (hknown : known <+: all)
    {m : Migration} (hm : m ∈ known.take k) : db.HasId m.id :=
  h.hasId_iff.mpr ⟨m, (hknown.take k).subset hm, rfl⟩

theorem Upto.not_hasId_drop (h : Upto all k db) (hall : Ordered all) {known : List Migration}
    (hknown : known <+: all) {m : Migration} (hm : m ∈ known.drop k) : ¬ db.HasId m.id := by
  intro hhas
  obtain ⟨m', hm', hid⟩ := h.hasId_iff.mp hhas
  have hlater : m ∈ all.drop k := (hknown.drop k).subset hm
  have hsplit : Ordered (all.take k ++ all.drop k) := by
    rw [List.take_append_drop]
    exact hall
  have hlt := (List.pairwise_append.mp hsplit).2.2 m' hm' m hlater
  omega

/-- **WHAT IS PENDING** are the known ones from the `k`-th on. -/
theorem Upto.pendingOf (h : Upto all k db) (hall : Ordered all) {migrations : List Migration}
    (hknown : sortById migrations <+: all) :
    pendingOf migrations db = (sortById migrations).drop k := by
  unfold RegistrarMigrations.pendingOf
  conv_lhs => rw [← List.take_append_drop k (sortById migrations)]
  rw [List.filter_append]
  have hfirst : ((sortById migrations).take k).filter (fun m => ¬ db.HasId m.id) = [] := by
    refine List.filter_eq_nil_iff.mpr fun m hm => ?_
    have hhas := h.hasId_take hknown hm
    simpa using hhas
  have hrest : ((sortById migrations).drop k).filter (fun m => ¬ db.HasId m.id)
      = (sortById migrations).drop k := by
    refine List.filter_eq_self.mpr fun m hm => ?_
    have hno := h.not_hasId_drop hall hknown hm
    simpa using hno
  rw [hfirst, hrest, List.nil_append]

/-- **A MIGRATION IS APPLIED** only when it is the next of all. -/
theorem Upto.apply (h : Upto all k db) {known rest : List Migration} {m : Migration} {i : ℕ}
    (hknown : known <+: all) (hik : i ≤ k) (hrest : m :: rest = known.drop i) {db' : SchemaDb}
    (happly : applyMigration m db = some db') :
    i = k ∧ Upto all (k + 1) db' ∧ all.take (k + 1) = all.take k ++ [m]
      ∧ rest = known.drop (i + 1) ∧ i < known.length := by
  obtain ⟨hno, happly⟩ := Option.ite_none_left_eq_some.mp happly
  have hi : i < known.length := by
    by_contra hle
    rw [List.drop_eq_nil_of_le (not_lt.mp hle)] at hrest
    exact List.cons_ne_nil _ _ hrest
  have hget : known[i] = m ∧ known.drop (i + 1) = rest := by
    rw [List.drop_eq_getElem_cons hi] at hrest
    exact ⟨(List.cons.inj hrest).1.symm, (List.cons.inj hrest).2.symm⟩
  have hik : i = k := by
    by_contra hne
    refine hno (h.hasId_take hknown ?_)
    rw [← hget.1]
    exact List.mem_take_iff_getElem.mpr ⟨i, by omega, rfl⟩
  subst hik
  have hnext : all.take (i + 1) = all.take i ++ [m] := by
    have hlt : i < all.length := hi.trans_le hknown.length_le
    rw [List.take_succ_eq_append_getElem hlt, ← hknown.getElem hi, hget.1]
  cases Option.some.inj happly
  refine ⟨rfl, ⟨?_, ?_⟩, hnext, hget.2.symm, hi⟩
  · rw [hnext, List.map_append, ← h.1]
    rfl
  · rw [hnext, List.map_append, ← h.2]
    rfl

end Upto

/-! ## The invariant -/

/-- How many migrations the process has committed. -/
def commits (log : List (ℕ × Migration)) (p : ℕ) : ℕ := log.countP (fun x => x.1 = p)

/-- What a call has done when `k` migrations are applied: a suffix of those it knows is
    left, all before it are applied. -/
def PhaseOk (known : List Migration) (k done : ℕ) : Phase → Prop
  | .applying rest pending => ∃ i ≤ k, rest = known.drop i ∧ done + rest.length = pending
  | .returned applied => known.length ≤ k ∧ done = applied
  | .threw => True
  | _ => done = 0

structure Inv (all : List Migration) (k₀ : ℕ) (s : Host) : Prop where
  upto : Upto all s.db.rows.length s.db
  log : s.log.map (·.2) = (all.take s.db.rows.length).drop k₀
  since : k₀ ≤ s.db.rows.length
  logged : ∀ x ∈ s.log, x.1 < s.processes.length
  processes : ∀ (p : ℕ) (w : Process), s.processes[p]? = some w → sortById w.migrations <+: all
    ∧ PhaseOk (sortById w.migrations) s.db.rows.length (commits s.log p) w.phase

section Invariant

variable {all : List Migration} {k₀ : ℕ} {s s' : Host}

/-- Progress of others is no harm. -/
theorem PhaseOk.mono {known : List Migration} {k k' done : ℕ} {phase : Phase} (hle : k ≤ k')
    (h : PhaseOk known k done phase) : PhaseOk known k' done phase := by
  cases phase with
  | applying rest pending =>
      obtain ⟨i, hi, hrest⟩ := h
      exact ⟨i, hi.trans hle, hrest⟩
  | returned applied => exact ⟨h.1.trans hle, h.2⟩
  | _ => exact h

/-- One process has moved. -/
theorem forall_set {α : Type} {l : List α} {p : ℕ} {x y : α} (hx : l[p]? = some x)
    {P : ℕ → α → Prop} (hnew : P p y) (hold : ∀ q z, q ≠ p → l[q]? = some z → P q z) :
    ∀ q z, (l.set p y)[q]? = some z → P q z := by
  intro q z hz
  obtain ⟨hlt, -⟩ := List.getElem?_eq_some_iff.mp hx
  by_cases heq : q = p
  · subst heq
    rw [List.getElem?_set_self hlt] at hz
    cases Option.some.inj hz
    exact hnew
  · rw [List.getElem?_set_ne (fun h => heq h.symm)] at hz
    exact hold q z heq hz

/-- A process moves on, or its call is over, and the database is as it was. -/
theorem Inv.moved (hI : Inv all k₀ s) {p : ℕ} {w : Process} (hw : s.processes[p]? = some w)
    {phase : Phase} {lock : Option ℕ}
    (hok : PhaseOk (sortById w.migrations) s.db.rows.length (commits s.log p) phase) :
    Inv all k₀ { s with processes := s.processes.set p { w with phase }, lock } where
  upto := hI.upto
  log := hI.log
  since := hI.since
  logged := by
    intro x hx
    rw [List.length_set]
    exact hI.logged x hx
  processes := forall_set hw ⟨(hI.processes p w hw).1, hok⟩ (fun q u _ hu => hI.processes q u hu)

/-- A migration is committed. -/
theorem Inv.applied (hI : Inv all k₀ s) {p : ℕ} {w : Process}
    (hw : s.processes[p]? = some w) {m : Migration} {rest : List Migration} {pending : ℕ}
    (hphase : w.phase = .applying (m :: rest) pending) {db : SchemaDb}
    (happly : applyMigration m s.db = some db) :
    Inv all k₀ { s.move p w (.applying rest pending) with db, log := s.log ++ [(p, m)] } := by
  obtain ⟨hknown, hok⟩ := hI.processes p w hw
  rw [hphase] at hok
  obtain ⟨i, hi, hrest, hcount⟩ := hok
  obtain ⟨rfl, hupto, hnext, hrest', hlt⟩ := hI.upto.apply hknown hi hrest happly
  have hlength : db.rows.length = s.db.rows.length + 1 := by
    rw [hupto.1, hnext, List.map_append, ← hI.upto.1, List.length_append]
    rfl
  refine ⟨?_, ?_, ?_, ?_, ?_⟩
  · show Upto all db.rows.length db
    rw [hlength]
    exact hupto
  · show (s.log ++ [(p, m)]).map (·.2) = (all.take db.rows.length).drop k₀
    have hk₀ : k₀ ≤ (all.take s.db.rows.length).length := by
      rw [List.length_take, min_eq_left (hlt.le.trans hknown.length_le)]
      exact hI.since
    rw [hlength, hnext, List.map_append, hI.log, List.drop_append_of_le_length hk₀]
    rfl
  · show k₀ ≤ db.rows.length
    exact hI.since.trans (by omega)
  · intro x hx
    show x.1 < (s.processes.set p _).length
    rw [List.length_set]
    rcases List.mem_append.mp hx with hold | hnew
    · exact hI.logged x hold
    · cases List.mem_singleton.mp hnew
      exact (List.getElem?_eq_some_iff.mp hw).1
  · have hcommits : ∀ q, commits (s.log ++ [(p, m)]) q
        = commits s.log q + if p = q then 1 else 0 := by
      intro q
      unfold commits
      rw [List.countP_append, List.countP_singleton]
      simp only [decide_eq_true_eq]
    refine forall_set hw ⟨hknown, ?_⟩ fun q u hne hu => ?_
    · refine ⟨s.db.rows.length + 1, hlength.ge, hrest', ?_⟩
      show commits (s.log ++ [(p, m)]) p + rest.length = pending
      rw [hcommits p, if_pos rfl]
      have hcount : commits s.log p + (rest.length + 1) = pending := hcount
      omega
    · obtain ⟨hknown', hok'⟩ := hI.processes q u hu
      refine ⟨hknown', ?_⟩
      show PhaseOk _ db.rows.length (commits (s.log ++ [(p, m)]) q) u.phase
      rw [hcommits q, if_neg (fun h => hne h.symm)]
      exact hok'.mono (by omega)

/-- **WHAT EVERY STEP KEEPS**. -/
theorem Inv.step (hall : Ordered all) (hI : Inv all k₀ s) {a : Action}
    (hreleased : Released all s a) (h : RegistrarMigrations.step s a = some s') :
    Inv all k₀ s' := by
  cases a with
  | start migrations =>
      cases Option.some.inj h
      have hnone : commits s.log s.processes.length = 0 := by
        refine List.countP_eq_zero.mpr fun x hx => ?_
        have hlt := hI.logged x hx
        rw [decide_eq_true_eq]
        omega
      refine ⟨hI.upto, hI.log, hI.since, fun x hx => ?_, fun q u hu => ?_⟩
      · rw [List.length_append]
        exact Nat.lt_add_right 1 (hI.logged x hx)
      · by_cases hold : q < s.processes.length
        · rw [List.getElem?_append_left hold] at hu
          exact hI.processes q u hu
        · rw [List.getElem?_append_right (not_lt.mp hold)] at hu
          obtain ⟨hlt, -⟩ := List.getElem?_eq_some_iff.mp hu
          have hq : q = s.processes.length := by
            have : q - s.processes.length < 1 := hlt
            omega
          rw [hq, Nat.sub_self] at hu
          cases Option.some.inj hu
          rw [hq]
          refine ⟨hreleased, ?_⟩
          show PhaseOk _ _ (commits s.log s.processes.length)
            (if s.locking then Phase.waiting else .entered)
          rw [hnone]
          cases s.locking <;> rfl
  | acquire p =>
      obtain ⟨w, hw, h⟩ := Option.bind_eq_some_iff.mp h
      obtain ⟨⟨hphase, -⟩, h⟩ := Option.ite_none_right_eq_some.mp h
      cases Option.some.inj h
      have hok := (hI.processes p w hw).2
      rw [hphase] at hok
      exact hI.moved hw hok
  | create p =>
      obtain ⟨w, hw, h⟩ := Option.bind_eq_some_iff.mp h
      obtain ⟨hphase, h⟩ := Option.ite_none_right_eq_some.mp h
      cases Option.some.inj h
      have hok := (hI.processes p w hw).2
      rw [hphase] at hok
      have hmoved : Inv all k₀ { s.move p w .created with lock := s.lock } := hI.moved hw hok
      exact ⟨hmoved.upto, hmoved.log, hmoved.since, hmoved.logged, hmoved.processes⟩
  | read p =>
      obtain ⟨w, hw, h⟩ := Option.bind_eq_some_iff.mp h
      obtain ⟨hphase, h⟩ := Option.ite_none_right_eq_some.mp h
      cases Option.some.inj h
      obtain ⟨hknown, hok⟩ := hI.processes p w hw
      rw [hphase] at hok
      have hok : commits s.log p = 0 := hok
      refine hI.moved hw ⟨_, le_rfl, hI.upto.pendingOf hall hknown, ?_⟩
      rw [hok, Nat.zero_add]
  | apply p =>
      obtain ⟨w, hw, h⟩ := Option.bind_eq_some_iff.mp h
      split at h
      · rename_i m rest pending hphase
        split at h
        · rename_i db happly
          cases Option.some.inj h
          exact hI.applied hw hphase happly
        · cases Option.some.inj h
          exact hI.moved hw trivial
      · cases h
  | «return» p =>
      obtain ⟨w, hw, h⟩ := Option.bind_eq_some_iff.mp h
      split at h
      · rename_i pending hphase
        cases Option.some.inj h
        have hok := (hI.processes p w hw).2
        rw [hphase] at hok
        obtain ⟨i, hi, hrest, hcount⟩ := hok
        exact hI.moved hw ⟨(List.drop_eq_nil_iff.mp hrest.symm).trans hi, hcount⟩
      · cases h
  | fail p =>
      obtain ⟨w, hw, h⟩ := Option.bind_eq_some_iff.mp h
      obtain ⟨-, h⟩ := Option.ite_none_right_eq_some.mp h
      cases Option.some.inj h
      exact hI.moved hw trivial
  | lose p =>
      obtain ⟨-, h⟩ := Option.ite_none_right_eq_some.mp h
      cases Option.some.inj h
      exact ⟨hI.upto, hI.log, hI.since, hI.logged, hI.processes⟩

end Invariant

/-! ## Under the lock -/

/-- The call is in `applyMigrations`. -/
def Phase.Inside : Phase → Prop
  | .entered => True
  | .created => True
  | .applying _ _ => True
  | _ => False

instance (phase : Phase) : Decidable phase.Inside := by
  unfold Phase.Inside
  cases phase <;> exact inferInstance

/-- No session that holds the lock ends before its call is over. -/
def Unlost : Action → Prop
  | .lose _ => False
  | _ => True

instance (a : Action) : Decidable (Unlost a) := by
  unfold Unlost
  cases a <;> exact inferInstance

/-- Who is inside holds the lock, and what it has left is what is left to apply. -/
structure Locked (s : Host) : Prop where
  locking : s.locking = true
  holder : ∀ (p : ℕ) (w : Process), s.processes[p]? = some w → w.phase.Inside → s.lock = some p
  rest : ∀ (p : ℕ) (w : Process), s.processes[p]? = some w → ∀ rest pending,
    w.phase = .applying rest pending → rest = (sortById w.migrations).drop s.db.rows.length

section Locked

variable {all : List Migration} {k₀ : ℕ} {s s' : Host}

/-- The process that holds the lock, or takes it, moves on. -/
theorem Locked.inside (h : Locked s) {p : ℕ} {w : Process} (hw : s.processes[p]? = some w)
    (hheld : s.lock = some p ∨ s.lock = none) {phase : Phase} {db : SchemaDb}
    {log : List (ℕ × Migration)}
    (hrest : ∀ rest pending, phase = .applying rest pending →
      rest = (sortById w.migrations).drop db.rows.length) :
    Locked { s with
      processes := s.processes.set p { w with phase }, db, lock := some p, log } := by
  have hothers : ∀ (q : ℕ) (u : Process), q ≠ p → s.processes[q]? = some u →
      ¬ u.phase.Inside := by
    intro q u hne hu hin
    have hq := h.holder q u hu hin
    rcases hheld with hp | hnone
    · exact hne (Option.some.inj (hq.symm.trans hp))
    · exact absurd (hq.symm.trans hnone) (by simp)
  refine ⟨h.locking, forall_set hw (fun _ => rfl) ?_, forall_set hw hrest ?_⟩
  · exact fun q u hne hu hin => absurd hin (hothers q u hne hu)
  · intro q u hne hu rest pending hphase
    have hin : u.phase.Inside := by
      rw [hphase]
      exact trivial
    exact absurd hin (hothers q u hne hu)

/-- A call is over. -/
theorem Locked.leave (h : Locked s) {p : ℕ} {w : Process} (hw : s.processes[p]? = some w)
    {phase : Phase} (hout : ¬ phase.Inside) : Locked (s.leave p w phase) := by
  refine ⟨h.locking, forall_set hw (fun hin => absurd hin hout) ?_, forall_set hw ?_ ?_⟩
  · intro q u hne hu hin
    have hq := h.holder q u hu hin
    have hnot : s.lock ≠ some p := by
      rw [hq]
      exact fun heq => hne (Option.some.inj heq)
    exact (if_neg hnot).trans hq
  · intro rest pending hphase
    have hphase : phase = .applying rest pending := hphase
    rw [hphase] at hout
    exact absurd trivial hout
  · exact fun q u _ hu => h.rest q u hu

theorem Locked.step (hall : Ordered all) (hI : Inv all k₀ s) (h : Locked s) {a : Action}
    (hunlost : Unlost a) (hstep : RegistrarMigrations.step s a = some s') : Locked s' := by
  cases a with
  | start migrations =>
      cases Option.some.inj hstep
      have hnew : ∀ (q : ℕ) (u : Process),
          (s.processes ++ [⟨migrations, if s.locking then .waiting else .entered⟩])[q]?
            = some u → s.processes[q]? = some u ∨ u.phase = .waiting := by
        intro q u hu
        by_cases hold : q < s.processes.length
        · rw [List.getElem?_append_left hold] at hu
          exact Or.inl hu
        · rw [List.getElem?_append_right (not_lt.mp hold)] at hu
          have hin := List.mem_singleton.mp (List.mem_of_getElem? hu)
          refine Or.inr ?_
          rw [hin, h.locking]
          rfl
      refine ⟨h.locking, fun q u hu hin => ?_, fun q u hu rest pending hphase => ?_⟩
      · rcases hnew q u hu with hold | hwaiting
        · exact h.holder q u hold hin
        · rw [hwaiting] at hin
          exact absurd hin id
      · rcases hnew q u hu with hold | hwaiting
        · exact h.rest q u hold rest pending hphase
        · exact absurd (hwaiting.symm.trans hphase) (by simp)
  | acquire p =>
      obtain ⟨w, hw, hstep⟩ := Option.bind_eq_some_iff.mp hstep
      obtain ⟨⟨-, hnone⟩, hstep⟩ := Option.ite_none_right_eq_some.mp hstep
      cases Option.some.inj hstep
      exact h.inside hw (Or.inr hnone) (fun rest pending hphase => absurd hphase (by simp))
  | create p =>
      obtain ⟨w, hw, hstep⟩ := Option.bind_eq_some_iff.mp hstep
      obtain ⟨hphase, hstep⟩ := Option.ite_none_right_eq_some.mp hstep
      cases Option.some.inj hstep
      have hlock : s.lock = some p := h.holder p w hw (by rw [hphase]; exact trivial)
      have hin : Locked { s with
          processes := s.processes.set p { w with phase := .created }, db := createLedger s.db
          lock := some p, log := s.log } :=
        h.inside hw (Or.inl hlock) (fun rest pending hphase => absurd hphase (by simp))
      rw [← hlock] at hin
      exact hin
  | read p =>
      obtain ⟨w, hw, hstep⟩ := Option.bind_eq_some_iff.mp hstep
      obtain ⟨hphase, hstep⟩ := Option.ite_none_right_eq_some.mp hstep
      cases Option.some.inj hstep
      have hlock : s.lock = some p := h.holder p w hw (by rw [hphase]; exact trivial)
      have hpending := hI.upto.pendingOf hall (hI.processes p w hw).1
      have hin : Locked { s with
          processes := s.processes.set p { w with
            phase :=
              .applying (pendingOf w.migrations s.db) (pendingOf w.migrations s.db).length }
          db := s.db, lock := some p, log := s.log } := by
        refine h.inside hw (Or.inl hlock) fun rest pending hphase => ?_
        cases hphase
        exact hpending
      rw [← hlock] at hin
      exact hin
  | apply p =>
      obtain ⟨w, hw, hstep⟩ := Option.bind_eq_some_iff.mp hstep
      split at hstep
      · rename_i m rest pending hphase
        split at hstep
        · rename_i db happly
          cases Option.some.inj hstep
          have hlock : s.lock = some p := h.holder p w hw (by rw [hphase]; exact trivial)
          obtain ⟨hknown, hok⟩ := hI.processes p w hw
          rw [hphase] at hok
          obtain ⟨i, hi, hrest, -⟩ := hok
          obtain ⟨rfl, hupto, hnext, hrest', hlt⟩ := hI.upto.apply hknown hi hrest happly
          have hlength : db.rows.length = s.db.rows.length + 1 := by
            rw [hupto.1, hnext, List.map_append, ← hI.upto.1, List.length_append]
            rfl
          have hin : Locked { s with
              processes := s.processes.set p { w with phase := .applying rest pending }
              db, lock := some p, log := s.log ++ [(p, m)] } := by
            refine h.inside hw (Or.inl hlock) fun rest pending hphase => ?_
            cases hphase
            rw [hlength]
            exact hrest'
          rw [← hlock] at hin
          exact hin
        · cases Option.some.inj hstep
          exact h.leave hw id
      · cases hstep
  | «return» p =>
      obtain ⟨w, hw, hstep⟩ := Option.bind_eq_some_iff.mp hstep
      split at hstep
      · cases Option.some.inj hstep
        exact h.leave hw id
      · cases hstep
  | fail p =>
      obtain ⟨w, hw, hstep⟩ := Option.bind_eq_some_iff.mp hstep
      obtain ⟨-, hstep⟩ := Option.ite_none_right_eq_some.mp hstep
      cases Option.some.inj hstep
      exact h.leave hw id
  | lose p => exact absurd hunlost id

end Locked

/-! ## Every run -/

/-- An archive at a release, before any process opens it. -/
structure Closed (all : List Migration) (k₀ : ℕ) (s : Host) : Prop where
  upto : Upto all k₀ s.db
  release : k₀ ≤ all.length
  processes : s.processes = []
  log : s.log = []

section Runs

variable {all : List Migration} {k₀ : ℕ} {s₀ s : Host}

theorem Closed.inv (h : Closed all k₀ s) : Inv all k₀ s := by
  have hlength : s.db.rows.length = k₀ := by
    rw [h.upto.1, List.length_map, List.length_take, min_eq_left h.release]
  refine ⟨?_, ?_, hlength.ge, ?_, ?_⟩
  · rw [hlength]
    exact h.upto
  · rw [hlength, h.log, List.drop_take, Nat.sub_self, List.take_zero]
    rfl
  · rw [h.log]
    exact fun _ hx => absurd hx List.not_mem_nil
  · rw [h.processes]
    exact fun p w hw => absurd hw (by simp)

theorem Closed.locked (h : Closed all k₀ s) (hlocking : s.locking = true) : Locked s := by
  refine ⟨hlocking, ?_, ?_⟩
  · rw [h.processes]
    exact fun p w hw => absurd hw (by simp)
  · rw [h.processes]
    exact fun p w hw => absurd hw (by simp)

/-- **EACH MIGRATION ONCE, IN ORDER**: whatever processes of whatever releases open an
    archive, together or one after the other, locked out or not, and wherever they fail,
    what is committed is an initial part of all migrations, each once; `schema_migrations`
    lists it, and a call that returns `n` has found or applied all it knows, `n` of them
    itself. -/
theorem each_migration_once (hall : Ordered all) (hstart : Closed all k₀ s₀)
    (hrun : Steps step (Released all) s₀ s) :
    (∃ k, k₀ ≤ k ∧ k ≤ all.length ∧ Upto all k s.db
        ∧ s.log.map (·.2) = (all.take k).drop k₀)
      ∧ ∀ (p : ℕ) (w : Process) n, s.processes[p]? = some w → w.phase = .returned n →
        n = commits s.log p ∧ ∀ m ∈ w.migrations, m.row ∈ s.db.rows := by
  have hI : Inv all k₀ s :=
    hrun.inv (Inv all k₀) hstart.inv (fun _ _ _ hI hok hs => hI.step hall hok hs)
  refine ⟨⟨s.db.rows.length, hI.since, ?_, hI.upto, hI.log⟩, fun p w n hw hphase => ?_⟩
  · conv_lhs => rw [hI.upto.1, List.length_map, List.length_take]
    exact min_le_right _ _
  · obtain ⟨hknown, hok⟩ := hI.processes p w hw
    rw [hphase] at hok
    obtain ⟨hle, hcount⟩ := hok
    refine ⟨hcount.symm, fun m hm => ?_⟩
    have hsorted : m ∈ sortById w.migrations := (List.mem_insertionSort _).mpr hm
    have htaken : m ∈ all.take s.db.rows.length := by
      rw [← List.take_of_length_le hle] at hsorted
      exact (hknown.take _).subset hsorted
    rw [hI.upto.1]
    exact List.mem_map_of_mem htaken

/-- **ONE AT A TIME**: on an engine with a lock, while no session that holds it is lost, one
    call at most is in `applyMigrations`, and no migration it goes on to apply is recorded. -/
theorem locked_calls_never_collide (hall : Ordered all) (hstart : Closed all k₀ s₀)
    (hlocking : s₀.locking = true)
    (hrun : Steps step (fun s a => Released all s a ∧ Unlost a) s₀ s) :
    (∀ (p q : ℕ) (w u : Process), s.processes[p]? = some w → s.processes[q]? = some u →
        w.phase.Inside → u.phase.Inside → p = q)
      ∧ ∀ (p : ℕ) (w : Process) m rest pending, s.processes[p]? = some w →
        w.phase = .applying (m :: rest) pending → ∃ db, applyMigration m s.db = some db := by
  have hI : Inv all k₀ s ∧ Locked s := by
    refine hrun.inv (fun s => Inv all k₀ s ∧ Locked s) ⟨hstart.inv, hstart.locked hlocking⟩ ?_
    rintro s a s' ⟨hI, hlocked⟩ ⟨hreleased, hunlost⟩ hs
    exact ⟨hI.step hall hreleased hs, hlocked.step hall hI hunlost hs⟩
  obtain ⟨hI, hlocked⟩ := hI
  refine ⟨fun p q w u hw hu hin hin' => ?_, fun p w m rest pending hw hphase => ?_⟩
  · exact Option.some.inj ((hlocked.holder p w hw hin).symm.trans (hlocked.holder q u hu hin'))
  · have hrest := hlocked.rest p w hw _ pending hphase
    have hm : m ∈ (sortById w.migrations).drop s.db.rows.length :=
      hrest ▸ List.mem_cons_self
    have hno := hI.upto.not_hasId_drop hall (hI.processes p w hw).1 hm
    exact ⟨_, if_neg hno⟩

end Runs

/-! ## Two processes -/

def coreSchema : Migration := ⟨1, "core_schema", "CREATE TABLE issuances"⟩

def ledgersSchema : Migration := ⟨2, "ledgers", "CREATE TABLE ledgers"⟩

def perfIndexes : Migration := ⟨3, "perf_indexes", "CREATE INDEX"⟩

def emptyHost (locking : Bool) : Host := ⟨{}, locking, [], none, []⟩

theorem emptyHost_closed (locking : Bool) :
    Closed [coreSchema, ledgersSchema, perfIndexes] 0 (emptyHost locking) :=
  ⟨⟨rfl, rfl⟩, Nat.zero_le _, rfl, rfl⟩

/-- Without a lock the older release loses a race, and the newer one goes on. -/
theorem each_migration_once_race : ∃ s : Host,
    s.db.scripts = ["CREATE TABLE issuances", "CREATE TABLE ledgers", "CREATE INDEX"]
      ∧ s.processes.map (·.phase) = [.threw, .returned 3]
      ∧ ∃ k, 0 ≤ k ∧ k ≤ 3 ∧ Upto [coreSchema, ledgersSchema, perfIndexes] k s.db
        ∧ s.log.map (·.2) = ([coreSchema, ledgersSchema, perfIndexes].take k).drop 0 := by
  have hrun : (runChecked step (Released [coreSchema, ledgersSchema, perfIndexes])
      (emptyHost false) [.start [ledgersSchema, coreSchema],
        .start [coreSchema, ledgersSchema, perfIndexes], .create 0, .create 1, .read 0, .read 1,
        .apply 1, .apply 0, .apply 1, .apply 1, .return 1]).map (fun s => decide (
          s.db.scripts = ["CREATE TABLE issuances", "CREATE TABLE ledgers", "CREATE INDEX"]
            ∧ s.processes.map (·.phase) = [.threw, .returned 3])) = some true := by
    decide +kernel
  obtain ⟨s, hsteps, hend⟩ := Steps.exists_of_runChecked _ hrun
  obtain ⟨hscripts, hphases⟩ := of_decide_eq_true hend
  exact ⟨s, hscripts, hphases,
    (each_migration_once (by decide) (emptyHost_closed false) hsteps).1⟩

/-- Under the lock the second call waits, and finds what the first has applied. -/
theorem locked_calls_never_collide_pair : ∃ s : Host,
    s.processes.map (·.phase) = [.returned 2, .applying [perfIndexes] 1]
      ∧ ∀ (p : ℕ) (w : Process) m rest pending, s.processes[p]? = some w →
        w.phase = .applying (m :: rest) pending → ∃ db, applyMigration m s.db = some db := by
  have hrun : (runChecked step
      (fun s a => Released [coreSchema, ledgersSchema, perfIndexes] s a ∧ Unlost a)
      (emptyHost true) [.start [ledgersSchema, coreSchema],
        .start [coreSchema, ledgersSchema, perfIndexes], .acquire 0, .create 0, .read 0,
        .apply 0, .apply 0, .return 0, .acquire 1, .create 1, .read 1]).map (fun s => decide (
          s.processes.map (·.phase) = [.returned 2, .applying [perfIndexes] 1])) = some true := by
    decide +kernel
  obtain ⟨s, hsteps, hend⟩ := Steps.exists_of_runChecked _ hrun
  exact ⟨s, of_decide_eq_true hend,
    (locked_calls_never_collide (by decide) (emptyHost_closed true) rfl hsteps).2⟩

end RegistrarMigrations
