import Mathlib
import Registrar.Library.Runs

/-! # Resumable paged jobs

    A job reads a finite chain of pages and commits them one by one.  With each
    page it stores the cursor of the next, so that after a crash a new attempt
    goes on where the stored cursor points; what an attempt keeps in its local
    variables is gone with it.

    `Inv` ties the stored data to the pages already committed.  Its consequence
    `completed` says what a finished job has stored: the data every schedule of
    failures leaves before the last page, finished with the local value of the
    attempt that completed it. -/

namespace PagedJob

open Runs

variable {P κ A L : Type}

/-! ## Chains of pages -/

/-- The pages after the one whose cursor for the next page is `m`. -/
def after [DecidableEq κ] (next : P → Option κ) (m : κ) : List P → List P
  | [] => []
  | p :: ps => if next p = some m then ps else after next m ps

/-- A finite chain of pages: all but the last name the next one, by distinct
    cursors. -/
structure Chain (next : P → Option κ) where
  init : List P
  last : P
  marked : ∀ p ∈ init, (next p).isSome
  unmarked : next last = none
  distinct : (init.map next).Nodup

namespace Chain

variable {next : P → Option κ}

def pages (C : Chain next) : List P := C.init ++ [C.last]

/-- The pages that remain from a cursor; without one, all of them. -/
def remaining [DecidableEq κ] (C : Chain next) : Option κ → List P
  | none => C.pages
  | some m => after next m C.pages

theorem distinct_pages (C : Chain next) : (C.pages.map next).Nodup := by
  unfold pages
  rw [List.map_append]
  refine List.nodup_append.mpr ⟨C.distinct, List.nodup_singleton _, ?_⟩
  rintro k hk k' hk' rfl
  obtain ⟨p, hp, rfl⟩ := List.mem_map.mp hk
  have hsome := C.marked p hp
  rw [List.mem_singleton.mp hk', C.unmarked] at hsome
  exact nomatch hsome

theorem after_append [DecidableEq κ] {next : P → Option κ} {m : κ} {before : List P} {p : P}
    {rest : List P} (hp : next p = some m) (hne : ∀ q ∈ before, next q ≠ some m) :
    after next m (before ++ p :: rest) = rest := by
  induction before with
  | nil => exact if_pos hp
  | cons q before ih =>
      show (if next q = some m then _ else _) = rest
      rw [if_neg (hne q List.mem_cons_self)]
      exact ih (fun q' hq' => hne q' (List.mem_cons_of_mem q hq'))

/-- The cursor a page stores leads to the page after it. -/
theorem remaining_next [DecidableEq κ] (C : Chain next) {before rest : List P} {p : P} {m : κ}
    (hpages : C.pages = before ++ p :: rest) (hp : next p = some m) :
    C.remaining (some m) = rest := by
  show after next m C.pages = rest
  rw [hpages]
  refine after_append hp ?_
  intro q hq hqm
  have hnodup := C.distinct_pages
  rw [hpages, List.map_append, List.map_cons] at hnodup
  exact (List.nodup_append.mp hnodup).2.2 (next q) (List.mem_map_of_mem hq) (next p)
    List.mem_cons_self (hqm.trans hp.symm)

/-- A page without a cursor is the last one. -/
theorem split_last (C : Chain next) {before rest : List P} {p : P}
    (hpages : C.pages = before ++ p :: rest) (hp : next p = none) :
    before = C.init ∧ p = C.last ∧ rest = [] := by
  rcases List.eq_nil_or_concat rest with rfl | ⟨rest, q, rfl⟩
  · obtain ⟨hinit, hlast⟩ := List.append_inj' hpages rfl
    exact ⟨hinit.symm, (List.cons.inj hlast).1.symm, rfl⟩
  · have hpages : C.init ++ [C.last] = (before ++ p :: rest) ++ [q] := by
      rw [List.concat_eq_append] at hpages
      rw [List.append_assoc]
      exact hpages
    have hinit := (List.append_inj' hpages rfl).1
    have hmem : p ∈ C.init := by
      rw [hinit]
      exact List.mem_append_right _ List.mem_cons_self
    have hsome := C.marked p hmem
    rw [hp] at hsome
    exact nomatch hsome

/-- A page with a cursor is not the last one. -/
theorem split_marked (C : Chain next) {before rest : List P} {p : P} {m : κ}
    (hpages : C.pages = before ++ p :: rest) (hp : next p = some m) : rest ≠ [] := by
  rintro rfl
  have hlast := (List.append_inj' hpages rfl).2
  rw [← (List.cons.inj hlast).1, C.unmarked] at hp
  exact nomatch hp

/-- What remains from a cursor is an end of the chain. -/
theorem remaining_suffix [DecidableEq κ] (C : Chain next) (k : Option κ) :
    ∃ before, C.pages = before ++ C.remaining k := by
  cases k with
  | none => exact ⟨[], rfl⟩
  | some m =>
      show ∃ before, C.pages = before ++ after next m C.pages
      generalize C.pages = ps
      induction ps with
      | nil => exact ⟨[], rfl⟩
      | cons p ps ih =>
          by_cases hp : next p = some m
          · refine ⟨[p], ?_⟩
            rw [after, if_pos hp]
            rfl
          · obtain ⟨before, hps⟩ := ih
            refine ⟨p :: before, ?_⟩
            rw [after, if_neg hp]
            exact congrArg (p :: ·) hps

/-- A page is the last one, or its cursor leads to those after it. -/
theorem split_cases [DecidableEq κ] (C : Chain next) {before rest : List P} {p : P}
    (hpages : C.pages = before ++ p :: rest) :
    (rest = [] ∧ p = C.last)
      ∨ (rest ≠ [] ∧ ∃ m, next p = some m ∧ C.remaining (some m) = rest) := by
  cases hp : next p with
  | none =>
      obtain ⟨-, hlast, hrest⟩ := C.split_last hpages hp
      exact Or.inl ⟨hrest, hlast⟩
  | some m => exact Or.inr ⟨C.split_marked hpages hp, m, rfl, C.remaining_next hpages hp⟩

end Chain

/-! ## The job and its attempts -/

/-- What a job does with a page: what it adds to its local value, what it
    stores, and how the last page finishes the job. -/
structure Work (P κ A L : Type) where
  next : P → Option κ
  size : P → ℕ
  start : L
  absorb : L → P → L
  save : P → A → Option A
  finish : L → P → A → Option A

/-- A running attempt: the cursor it requests next, its local value, and the
    page it has fetched but not committed. -/
structure Attempt (P κ L : Type) where
  cursor : Option κ
  value : L
  page : Option P

/-- The stored data and job, and the attempt that runs, if any.  `started` is
    the cursor the newest attempt started from. -/
structure State (P κ A L : Type) where
  data : A
  cursor : Option κ := none
  count : ℕ := 0
  completed : Bool := false
  started : Option κ := none
  attempt : Option (Attempt P κ L) := none

/-- What can happen: an attempt starts, fetches, commits, has its transaction
    retried, or is lost to a failure or a crash. -/
inductive Action
  | start
  | fetch
  | retry
  | commit
  | lose
  deriving DecidableEq

/-- Commit the fetched page. -/
def commit (W : Work P κ A L) (s : State P κ A L) (value : L) (p : P) :
    Option (State P κ A L) :=
  match W.next p with
  | some m => (W.save p s.data).map fun data =>
      { s with data, cursor := some m, count := s.count + W.size p
               attempt := some ⟨some m, value, none⟩ }
  | none => (W.finish value p s.data).map fun data =>
      { s with data, cursor := none, count := s.count + W.size p, completed := true
               attempt := none }

def step [DecidableEq κ] (W : Work P κ A L) (C : Chain W.next) (s : State P κ A L) :
    Action → Option (State P κ A L)
  | .start =>
      match s.attempt with
      | some _ => none
      | none =>
          if s.completed then none
          else some { s with started := s.cursor
                             attempt := some ⟨s.cursor, W.start, none⟩ }
  | .fetch =>
      match s.attempt with
      | some ⟨cursor, value, none⟩ =>
          (C.remaining cursor).head?.map fun p =>
            { s with attempt := some ⟨cursor, W.absorb value p, some p⟩ }
      | _ => none
  | .retry =>
      match s.attempt with
      | some ⟨_, _, some _⟩ => some s
      | _ => none
  | .commit =>
      match s.attempt with
      | some ⟨_, value, some p⟩ => commit W s value p
      | _ => none
  | .lose =>
      match s.attempt with
      | some _ => some { s with attempt := none }
      | none => none

/-! ## What is stored -/

/-- Save pages one after the other. -/
def saveAll (W : Work P κ A L) : List P → A → Option A
  | [], a => some a
  | p :: ps, a => (W.save p a).bind (saveAll W ps)

/-- The local value after pages. -/
def absorbAll (W : Work P κ A L) (ps : List P) : L := ps.foldl W.absorb W.start

def sizeAll (W : Work P κ A L) (ps : List P) : ℕ := (ps.map W.size).sum

theorem saveAll_concat {W : Work P κ A L} {ps : List P} {p : P} {a : A} :
    saveAll W (ps ++ [p]) a = (saveAll W ps a).bind (W.save p) := by
  induction ps generalizing a with
  | nil =>
      show (W.save p a).bind some = W.save p a
      cases W.save p a <;> rfl
  | cons q ps ih =>
      show (W.save q a).bind (saveAll W (ps ++ [p])) = _
      cases h : W.save q a with
      | none => simp [saveAll, h]
      | some b => simp [saveAll, h, ih]

theorem absorbAll_concat {W : Work P κ A L} {ps : List P} {p : P} :
    absorbAll W (ps ++ [p]) = W.absorb (absorbAll W ps) p :=
  List.foldl_append ..

theorem sizeAll_concat {W : Work P κ A L} {ps : List P} {p : P} :
    sizeAll W (ps ++ [p]) = sizeAll W ps + W.size p := by
  unfold sizeAll
  rw [List.map_append, List.sum_append, List.map_singleton, List.sum_singleton]

/-- What each saved page keeps is kept by all of them. -/
theorem saveAll_keeps {W : Work P κ A L} {I : A → Prop} {ps : List P}
    (hstep : ∀ p ∈ ps, ∀ a b, I a → W.save p a = some b → I b) {a b : A}
    (ha : I a) (h : saveAll W ps a = some b) : I b := by
  induction ps generalizing a with
  | nil =>
      cases h
      exact ha
  | cons p ps ih =>
      obtain ⟨c, hc, h⟩ := Option.bind_eq_some_iff.mp h
      have hrest := fun q hq => hstep q (List.mem_cons_of_mem p hq)
      exact ih hrest (hstep p List.mem_cons_self a c ha hc) h

/-- What saving one of the pages establishes, and the others keep, holds after
    all of them. -/
theorem saveAll_establishes {W : Work P κ A L} {I : A → Prop} {p : P} {ps : List P}
    (hpage : ∀ a b, W.save p a = some b → I b)
    (hstep : ∀ q ∈ ps, ∀ a b, I a → W.save q a = some b → I b) (hp : p ∈ ps)
    {a b : A} (h : saveAll W ps a = some b) : I b := by
  induction ps generalizing a with
  | nil => exact absurd hp List.not_mem_nil
  | cons q ps ih =>
      obtain ⟨c, hc, hrest⟩ := Option.bind_eq_some_iff.mp h
      have hkeep := fun q' hq' => hstep q' (List.mem_cons_of_mem q hq')
      rcases List.mem_cons.mp hp with rfl | hmem
      · exact saveAll_keeps hkeep (hpage a c hc) hrest
      · exact ih hkeep hmem hrest

/-- Each of the pages was saved. -/
theorem saveAll_saved {W : Work P κ A L} {ps : List P} {a b : A}
    (h : saveAll W ps a = some b) {p : P} (hp : p ∈ ps) : ∃ c d, W.save p c = some d :=
  saveAll_establishes (I := fun _ => ∃ c d, W.save p c = some d)
    (fun c d hcd => ⟨c, d, hcd⟩) (fun _ _ _ _ hsaved _ => hsaved) hp h

/-! ## The invariant -/

variable [DecidableEq κ]

/-- The attempt at work has absorbed the pages since it started. -/
def AttemptOk (W : Work P κ A L) (s : State P κ A L) (worked todo : List P) : Prop :=
  ∀ w, s.attempt = some w → w.cursor = s.cursor
    ∧ match w.page with
      | none => w.value = absorbAll W worked
      | some p => w.value = absorbAll W (worked ++ [p]) ∧ todo.head? = some p

/-- Before completion: the pages split into those committed and those the
    cursor leads to. -/
structure Open (W : Work P κ A L) (C : Chain W.next) (a₀ : A) (s : State P κ A L)
    (skipped worked todo : List P) : Prop where
  pages : C.pages = (skipped ++ worked) ++ todo
  more : todo ≠ []
  cursor : C.remaining s.cursor = todo
  started : C.remaining s.started = worked ++ todo
  data : saveAll W (skipped ++ worked) a₀ = some s.data
  count : s.count = sizeAll W (skipped ++ worked)
  going : s.completed = false
  attempt : AttemptOk W s worked todo

/-- After completion: all pages but the last are saved, and the last finished
    with the local value of the completing attempt. -/
structure Done (W : Work P κ A L) (C : Chain W.next) (a₀ : A) (s : State P κ A L) :
    Prop where
  data : ∃ a, saveAll W C.init a₀ = some a
    ∧ W.finish (absorbAll W (C.remaining s.started)) C.last a = some s.data
  count : s.count = sizeAll W C.pages
  cursor : s.cursor = none
  completed : s.completed = true
  attempt : s.attempt = none

/-- The invariant of the job. -/
def Inv (W : Work P κ A L) (C : Chain W.next) (a₀ : A) (s : State P κ A L) : Prop :=
  (∃ skipped worked todo, Open W C a₀ s skipped worked todo) ∨ Done W C a₀ s

theorem inv_initial (W : Work P κ A L) (C : Chain W.next) (a₀ : A) :
    Inv W C a₀ { data := a₀ } := by
  refine Or.inl ⟨[], [], C.pages, rfl, ?_, rfl, rfl, rfl, rfl, rfl, ?_⟩
  · unfold Chain.pages
    simp
  · intro w hw
    exact nomatch hw

theorem Open.start {W : Work P κ A L} {C : Chain W.next} {a₀ : A} {s : State P κ A L}
    {skipped worked todo : List P} (h : Open W C a₀ s skipped worked todo) :
    Open W C a₀ { s with started := s.cursor
                         attempt := some ⟨s.cursor, W.start, none⟩ }
      (skipped ++ worked) [] todo where
  pages := by rw [List.append_nil]; exact h.pages
  more := h.more
  cursor := h.cursor
  started := h.cursor
  data := by rw [List.append_nil]; exact h.data
  count := by rw [List.append_nil]; exact h.count
  going := h.going
  attempt := by
    intro w hw
    cases hw
    exact ⟨rfl, rfl⟩

theorem Open.lose {W : Work P κ A L} {C : Chain W.next} {a₀ : A} {s : State P κ A L}
    {skipped worked todo : List P} (h : Open W C a₀ s skipped worked todo) :
    Open W C a₀ { s with attempt := none } skipped worked todo where
  pages := h.pages
  more := h.more
  cursor := h.cursor
  started := h.started
  data := h.data
  count := h.count
  going := h.going
  attempt := fun _ hw => nomatch hw

theorem Open.fetch {W : Work P κ A L} {C : Chain W.next} {a₀ : A} {s : State P κ A L}
    {skipped worked todo : List P} (h : Open W C a₀ s skipped worked todo)
    {cursor : Option κ} {value : L} (hw : s.attempt = some ⟨cursor, value, none⟩)
    {p : P} (hp : (C.remaining cursor).head? = some p) :
    Open W C a₀ { s with attempt := some ⟨cursor, W.absorb value p, some p⟩ }
      skipped worked todo where
  pages := h.pages
  more := h.more
  cursor := h.cursor
  started := h.started
  data := h.data
  count := h.count
  going := h.going
  attempt := by
    intro w hw'
    cases hw'
    obtain ⟨hcur, hval⟩ := h.attempt _ hw
    have hval : value = absorbAll W worked := hval
    have hcur : cursor = s.cursor := hcur
    refine ⟨hcur, ?_, ?_⟩
    · show W.absorb value p = absorbAll W (worked ++ [p])
      rw [absorbAll_concat, hval]
    · rw [hcur, h.cursor] at hp
      exact hp

/-- A committed page moves from the pages to do to those done, or was the
    last. -/
theorem Open.commit {W : Work P κ A L} {C : Chain W.next} {a₀ : A} {s s' : State P κ A L}
    {skipped worked todo : List P} (h : Open W C a₀ s skipped worked todo)
    {cursor : Option κ} {value : L} {p : P}
    (hw : s.attempt = some ⟨cursor, value, some p⟩)
    (hs : PagedJob.commit W s value p = some s') : Inv W C a₀ s' := by
  obtain ⟨-, hval, hhead⟩ := h.attempt _ hw
  obtain ⟨rest, rfl⟩ : ∃ rest, todo = p :: rest := by
    cases todo with
    | nil => exact nomatch hhead
    | cons q rest => exact ⟨rest, by rw [Option.some.inj hhead]⟩
  unfold PagedJob.commit at hs
  cases hn : W.next p with
  | some m =>
      rw [hn] at hs
      obtain ⟨a, ha, rfl⟩ := Option.map_eq_some_iff.mp hs
      refine Or.inl ⟨skipped, worked ++ [p], rest, ?_, ?_, ?_, ?_, ?_, ?_, h.going, ?_⟩
      · rw [h.pages]
        simp
      · exact C.split_marked h.pages hn
      · exact C.remaining_next h.pages hn
      · show C.remaining s.started = _
        rw [h.started]
        simp
      · show saveAll W (skipped ++ (worked ++ [p])) a₀ = some a
        rw [← List.append_assoc, saveAll_concat, h.data]
        exact ha
      · show s.count + W.size p = _
        rw [← List.append_assoc, sizeAll_concat, h.count]
      · intro w hw'
        cases hw'
        exact ⟨rfl, hval⟩
  | none =>
      rw [hn] at hs
      obtain ⟨a, ha, rfl⟩ := Option.map_eq_some_iff.mp hs
      obtain ⟨hinit, hlast, hrest⟩ := C.split_last h.pages hn
      subst hrest
      refine Or.inr ⟨⟨s.data, ?_, ?_⟩, ?_, rfl, rfl, rfl⟩
      · rw [← hinit]
        exact h.data
      · show W.finish (absorbAll W (C.remaining s.started)) C.last s.data = some a
        rw [h.started, ← hlast, ← hval]
        exact ha
      · show s.count + W.size p = _
        rw [h.count, h.pages, sizeAll_concat]

/-- Every step keeps the invariant. -/
theorem Inv.step {W : Work P κ A L} {C : Chain W.next} {a₀ : A} {s s' : State P κ A L}
    (a : Action) (h : Inv W C a₀ s) (hs : PagedJob.step W C s a = some s') :
    Inv W C a₀ s' := by
  rcases h with ⟨skipped, worked, todo, h⟩ | h
  · cases a with
    | start =>
        cases hw : s.attempt with
        | some w => simp [PagedJob.step, hw] at hs
        | none =>
            simp only [PagedJob.step, hw] at hs
            rw [if_neg (by simp [h.going])] at hs
            cases hs
            exact Or.inl ⟨_, _, _, h.start⟩
    | fetch =>
        cases hw : s.attempt with
        | none => simp [PagedJob.step, hw] at hs
        | some w =>
            obtain ⟨cursor, value, page⟩ := w
            cases page with
            | some p => simp [PagedJob.step, hw] at hs
            | none =>
                simp only [PagedJob.step, hw] at hs
                obtain ⟨p, hp, rfl⟩ := Option.map_eq_some_iff.mp hs
                exact Or.inl ⟨_, _, _, h.fetch hw hp⟩
    | retry =>
        cases hw : s.attempt with
        | none => simp [PagedJob.step, hw] at hs
        | some w =>
            obtain ⟨cursor, value, page⟩ := w
            cases page with
            | none => simp [PagedJob.step, hw] at hs
            | some p =>
                simp only [PagedJob.step, hw] at hs
                cases hs
                exact Or.inl ⟨_, _, _, h⟩
    | commit =>
        cases hw : s.attempt with
        | none => simp [PagedJob.step, hw] at hs
        | some w =>
            obtain ⟨cursor, value, page⟩ := w
            cases page with
            | none => simp [PagedJob.step, hw] at hs
            | some p =>
                simp only [PagedJob.step, hw] at hs
                exact h.commit hw hs
    | lose =>
        cases hw : s.attempt with
        | none => simp [PagedJob.step, hw] at hs
        | some w =>
            simp only [PagedJob.step, hw] at hs
            cases hs
            exact Or.inl ⟨_, _, _, h.lose⟩
  · -- a completed job has no attempt, and starts none
    cases a <;> simp [PagedJob.step, h.attempt, h.completed] at hs

/-- **WHAT A COMPLETED JOB HAS STORED**, whatever failed on the way. -/
theorem completed {W : Work P κ A L} {C : Chain W.next} {a₀ : A} {s : State P κ A L}
    {ok : State P κ A L → Action → Prop}
    (hrun : Steps (PagedJob.step W C) ok { data := a₀ } s) (hs : s.completed = true) :
    Done W C a₀ s := by
  have hinv : Inv W C a₀ s := hrun.inv (Inv W C a₀) (inv_initial W C a₀)
    (fun _ a _ h _ hstep => h.step a hstep)
  rcases hinv with ⟨_, _, _, h⟩ | h
  · exact nomatch h.going.symm.trans hs
  · exact h

/-! ## Runs in which nothing is lost -/

/-- A job of which no attempt is lost runs in one attempt, from the start. -/
def OneAttempt (s : State P κ A L) : Prop :=
  s.started = none ∧ (s.attempt = none → s.completed = false → s.cursor = none)

theorem OneAttempt.step {W : Work P κ A L} {C : Chain W.next} {s s' : State P κ A L}
    {a : Action} (h : OneAttempt s) (ha : a ≠ .lose)
    (hs : PagedJob.step W C s a = some s') : OneAttempt s' := by
  obtain ⟨hstarted, hcursor⟩ := h
  cases a with
  | lose => exact absurd rfl ha
  | start =>
      cases hw : s.attempt with
      | some w => simp [PagedJob.step, hw] at hs
      | none =>
          by_cases hc : s.completed = true
          · simp [PagedJob.step, hw, hc] at hs
          · simp only [PagedJob.step, hw, if_neg hc] at hs
            cases hs
            exact ⟨hcursor hw (Bool.eq_false_iff.mpr hc), fun h => nomatch h⟩
  | fetch =>
      cases hw : s.attempt with
      | none => simp [PagedJob.step, hw] at hs
      | some w =>
          obtain ⟨cursor, value, _ | p⟩ := w
          · simp only [PagedJob.step, hw] at hs
            obtain ⟨p, -, rfl⟩ := Option.map_eq_some_iff.mp hs
            exact ⟨hstarted, fun h => nomatch h⟩
          · simp [PagedJob.step, hw] at hs
  | retry =>
      cases hw : s.attempt with
      | none => simp [PagedJob.step, hw] at hs
      | some w =>
          obtain ⟨cursor, value, _ | p⟩ := w
          · simp [PagedJob.step, hw] at hs
          · simp only [PagedJob.step, hw] at hs
            cases hs
            exact ⟨hstarted, hcursor⟩
  | commit =>
      cases hw : s.attempt with
      | none => simp [PagedJob.step, hw] at hs
      | some w =>
          obtain ⟨cursor, value, _ | p⟩ := w
          · simp [PagedJob.step, hw] at hs
          · simp only [PagedJob.step, hw, PagedJob.commit] at hs
            cases hn : W.next p with
            | some m =>
                rw [hn] at hs
                obtain ⟨a, -, rfl⟩ := Option.map_eq_some_iff.mp hs
                exact ⟨hstarted, fun h => nomatch h⟩
            | none =>
                rw [hn] at hs
                obtain ⟨a, -, rfl⟩ := Option.map_eq_some_iff.mp hs
                exact ⟨hstarted, fun _ h => nomatch h⟩

/-- An uninterrupted run started at the first page. -/
theorem started_none {W : Work P κ A L} {C : Chain W.next} {a₀ : A}
    {s : State P κ A L}
    (hrun : Steps (PagedJob.step W C) (fun _ a => a ≠ .lose) { data := a₀ } s) :
    s.started = none := by
  have hone : OneAttempt s := hrun.inv OneAttempt ⟨rfl, fun _ _ => rfl⟩
    (fun _ _ _ h ha hs => h.step ha hs)
  exact hone.1

end PagedJob
