import Mathlib

/-! # Logs of object changes

    A store maps ids to objects, and a log is the sequence of edits that made
    it: an object is created, modified any number of times, deleted, and may be
    created again.  `Follows s es` says that every edit of `es` starts from the
    state the earlier ones left, and `replay s es` is the store after them.

    Two ways of reading a log meet here:

    * `sum_replay`: adding up what each edit did to a measure of the objects
      gives the measure of the store, so differences telescope;
    * `replay_eq_newest`: the store holds the object that the newest edit of an
      id shows, unless that edit removed it.  -/

namespace ObjectLog

variable {κ π O : Type}

/-! ## Changes -/

/-- What an edit does to one object.  A deletion shows the object as it was
    when it went, which may differ from what it was before the edit. -/
inductive Change (O : Type)
  | created (new : O)
  | modified (old new : O)
  | deleted (old final : O)
  deriving DecidableEq

namespace Change

/-- The object before the edit. -/
def before : Change O → Option O
  | created _ => none
  | modified old _ => some old
  | deleted old _ => some old

/-- The object after the edit. -/
def after : Change O → Option O
  | created new => some new
  | modified _ new => some new
  | deleted _ _ => none

/-- The object as the edit shows it. -/
def shown : Change O → O
  | created new => new
  | modified _ new => new
  | deleted _ final => final

/-- `P` is a property of the object's identity: it does not change while the
    object lives. -/
def Keeps (P : O → Prop) : Change O → Prop
  | created _ => True
  | modified old new => P old ↔ P new
  | deleted old final => P old ↔ P final

/-- What depends on a feature of the object that is kept is kept. -/
theorem keeps_of_feature {F : Type} {feature : O → F} {P : O → Prop}
    (hP : ∀ o o', feature o = feature o' → (P o ↔ P o')) {c : Change O}
    (hc : ∀ x, c.Keeps (fun o => feature o = x)) : c.Keeps P := by
  cases c with
  | created new => trivial
  | modified old new => exact hP old new ((hc (feature new)).mpr rfl)
  | deleted old final => exact hP old final ((hc (feature final)).mpr rfl)

theorem shown_of_after {c : Change O} {o : O} (h : c.after = some o) :
    c.shown = o := by
  cases c with
  | created new => exact Option.some.inj h
  | modified old new => exact Option.some.inj h
  | deleted old final => exact nomatch h

/-- An identity property that the edit shows and that held before it. -/
theorem keeps_before {P : O → Prop} {c : Change O} {o : O}
    (hk : c.Keeps P) (hb : c.before = some o) : P o ↔ P c.shown := by
  cases c with
  | created new => exact nomatch hb
  | modified old new => cases hb; exact hk
  | deleted old final => cases hb; exact hk

end Change

/-! ## Logs and their replay -/

/-- One edit of the log: what happened to the object `id`, at which place. -/
structure Edit (κ π O : Type) where
  id : κ
  pos : π
  change : Change O

variable [DecidableEq κ]

/-- The store after one edit. -/
def Edit.apply (s : κ → Option O) (e : Edit κ π O) : κ → Option O :=
  Function.update s e.id e.change.after

/-- The store after a log. -/
def replay (s : κ → Option O) (es : List (Edit κ π O)) : κ → Option O :=
  es.foldl Edit.apply s

/-- Every edit starts from the state the earlier ones left. -/
def Follows : (κ → Option O) → List (Edit κ π O) → Prop
  | _, [] => True
  | s, e :: es => s e.id = e.change.before ∧ Follows (e.apply s) es

theorem replay_append (s : κ → Option O) (es fs : List (Edit κ π O)) :
    replay s (es ++ fs) = replay (replay s es) fs :=
  List.foldl_append ..

theorem replay_concat (s : κ → Option O) (es : List (Edit κ π O))
    (e : Edit κ π O) : replay s (es ++ [e]) = e.apply (replay s es) :=
  replay_append s es [e]

theorem follows_append {s : κ → Option O} {es fs : List (Edit κ π O)} :
    Follows s (es ++ fs) ↔ Follows s es ∧ Follows (replay s es) fs := by
  induction es generalizing s with
  | nil => exact ⟨fun h => ⟨trivial, h⟩, And.right⟩
  | cons e es ih =>
      show s e.id = _ ∧ Follows (e.apply s) (es ++ fs) ↔ _
      rw [ih]
      exact and_assoc.symm

theorem follows_concat {s : κ → Option O} {es : List (Edit κ π O)}
    {e : Edit κ π O} :
    Follows s (es ++ [e]) ↔
      Follows s es ∧ replay s es e.id = e.change.before := by
  rw [follows_append]
  exact and_congr Iff.rfl ⟨And.left, fun h => ⟨h, trivial⟩⟩

theorem apply_self (s : κ → Option O) (e : Edit κ π O) :
    e.apply s e.id = e.change.after :=
  Function.update_self ..

theorem apply_of_ne (s : κ → Option O) {e : Edit κ π O} {k : κ}
    (h : k ≠ e.id) : e.apply s k = s k :=
  Function.update_of_ne h ..

/-- An id that no edit names keeps its object. -/
theorem replay_of_not_mem {s : κ → Option O} {es : List (Edit κ π O)} {k : κ}
    (h : ∀ e ∈ es, e.id ≠ k) : replay s es k = s k := by
  induction es generalizing s with
  | nil => rfl
  | cons e es ih =>
      have hne : k ≠ e.id := fun hk => h e List.mem_cons_self hk.symm
      show replay (e.apply s) es k = s k
      rw [ih (fun e' he' => h e' (List.mem_cons_of_mem e he'))]
      exact apply_of_ne s hne

/-! ## Differences telescope -/

section Measure

variable {M : Type} [AddCommGroup M]

/-- A measure of objects, zero where there is none. -/
def measure (v : O → M) (o : Option O) : M := o.elim 0 v

@[simp] theorem measure_none (v : O → M) : measure v none = 0 := rfl

@[simp] theorem measure_some (v : O → M) (o : O) : measure v (some o) = v o := rfl

/-- What an edit adds to the measure. -/
def Change.gain (v : O → M) (c : Change O) : M :=
  measure v c.after - measure v c.before

/-- One edit moves the measure of the store by what it adds. -/
theorem sum_apply (v : O → M) {s : κ → Option O} {e : Edit κ π O}
    (hb : s e.id = e.change.before) {ids : Finset κ} (hmem : e.id ∈ ids) :
    ∑ k ∈ ids, measure v (e.apply s k)
      = ∑ k ∈ ids, measure v (s k) + e.change.gain v := by
  have hrest : ∑ k ∈ ids.erase e.id, measure v (e.apply s k)
      = ∑ k ∈ ids.erase e.id, measure v (s k) := by
    refine Finset.sum_congr rfl ?_
    intro k hk
    rw [apply_of_ne s (Finset.ne_of_mem_erase hk)]
  rw [← Finset.add_sum_erase ids _ hmem,
    ← Finset.add_sum_erase ids (fun k => measure v (s k)) hmem]
  simp only [hrest, apply_self, hb, Change.gain]
  abel

/-- **TELESCOPING**: over a set of ids that has all the ids of the log, the
    measure of the store moves by the sum of what the edits add. -/
theorem sum_replay (v : O → M) {s : κ → Option O} {es : List (Edit κ π O)}
    (hf : Follows s es) {ids : Finset κ} (hids : ∀ e ∈ es, e.id ∈ ids) :
    ∑ k ∈ ids, measure v (replay s es k)
      = ∑ k ∈ ids, measure v (s k)
        + (es.map (fun e => e.change.gain v)).sum := by
  induction es generalizing s with
  | nil =>
      show _ = _ + (0 : M)
      rw [add_zero]
      rfl
  | cons e es ih =>
      have htail : ∀ e' ∈ es, e'.id ∈ ids :=
        fun e' he' => hids e' (List.mem_cons_of_mem e he')
      show ∑ k ∈ ids, measure v (replay (e.apply s) es k) = _
      rw [ih hf.2 htail, sum_apply v hf.1 (hids e List.mem_cons_self),
        List.map_cons, List.sum_cons, add_assoc]

end Measure

/-! ## The newest edit decides -/

variable [Preorder π]

/-- Edits of one object stand at increasing places. -/
def Ordered (es : List (Edit κ π O)) : Prop :=
  es.Pairwise (fun a b => a.id = b.id → a.pos < b.pos)

/-- `e` is the newest edit of its object that shows `P`. -/
def Newest (P : O → Prop) (es : List (Edit κ π O)) (e : Edit κ π O) : Prop :=
  e ∈ es ∧ P e.change.shown
    ∧ ∀ e' ∈ es, e'.id = e.id → P e'.change.shown → ¬ e.pos < e'.pos

omit [DecidableEq κ] in
theorem newest_concat_of_id_ne {P : O → Prop} {es : List (Edit κ π O)}
    {x e : Edit κ π O} (hne : x.id ≠ e.id) :
    Newest P (es ++ [x]) e ↔ Newest P es e := by
  constructor
  · rintro ⟨hmem, hP, hnew⟩
    rcases List.mem_append.mp hmem with hmem | hmem
    · refine ⟨hmem, hP, ?_⟩
      intro e' he'
      exact hnew e' (List.mem_append_left _ he')
    · cases List.mem_singleton.mp hmem
      exact absurd rfl hne
  · rintro ⟨hmem, hP, hnew⟩
    refine ⟨List.mem_append_left _ hmem, hP, ?_⟩
    intro e' he' hid
    rcases List.mem_append.mp he' with he' | he'
    · exact hnew e' he' hid
    · cases List.mem_singleton.mp he'
      exact absurd hid hne

/-- **THE NEWEST EDIT DECIDES**: for a property of the objects' identity, the
    store holds exactly what the newest edit showing the property left. -/
theorem replay_eq_newest {P : O → Prop} {es : List (Edit κ π O)}
    (hf : Follows (fun _ => none) es) (ho : Ordered es)
    (hP : ∀ e ∈ es, e.change.Keeps P) {k : κ} {o : O} :
    (replay (fun _ => none) es k = some o ∧ P o) ↔
      ∃ e, Newest P es e ∧ e.id = k ∧ e.change.after = some o := by
  induction es using List.reverseRecOn generalizing o with
  | nil =>
      constructor
      · rintro ⟨h, -⟩; exact nomatch h
      · rintro ⟨e, ⟨h, -⟩, -⟩; exact nomatch h
  | append_singleton es x ih =>
      obtain ⟨hf, hstart⟩ := follows_concat.mp hf
      obtain ⟨ho, -, hlast⟩ := List.pairwise_append.mp ho
      have hbefore : ∀ e ∈ es, e.id = x.id → e.pos < x.pos :=
        fun e he => hlast e he x (List.mem_singleton_self x)
      have hPx : x.change.Keeps P :=
        hP x (List.mem_append_right _ (List.mem_singleton_self x))
      have ih := @ih hf ho (fun e he => hP e (List.mem_append_left _ he))
      rw [replay_concat]
      by_cases hk : k = x.id
      · subst hk
        rw [apply_self]
        constructor
        · rintro ⟨hafter, hPo⟩
          have hshown := Change.shown_of_after hafter
          refine ⟨x, ⟨List.mem_append_right _ (List.mem_singleton_self x),
            hshown ▸ hPo, ?_⟩, rfl, hafter⟩
          intro e' he' hid _ hlt
          rcases List.mem_append.mp he' with he' | he'
          · exact lt_asymm hlt (hbefore e' he' hid)
          · cases List.mem_singleton.mp he'
            exact lt_irrefl _ hlt
        · rintro ⟨e, ⟨hmem, hPe, hnew⟩, hid, hafter⟩
          rcases List.mem_append.mp hmem with hmem | hmem
          · -- an older edit is the newest only if `x` does not show `P`
            by_cases hshow : P x.change.shown
            · exact absurd (hbefore e hmem hid)
                (hnew x (List.mem_append_right _ (List.mem_singleton_self x))
                  hid.symm hshow)
            · have hlive := ih.mpr ⟨e, ⟨hmem, hPe, fun e' he' =>
                hnew e' (List.mem_append_left _ he')⟩, hid, hafter⟩
              have hb : x.change.before = some o := hstart.symm.trans hlive.1
              exact absurd ((Change.keeps_before hPx hb).mp hlive.2) hshow
          · cases List.mem_singleton.mp hmem
            exact ⟨hafter, Change.shown_of_after hafter ▸ hPe⟩
      · rw [apply_of_ne _ hk, ih]
        constructor
        · rintro ⟨e, hnew, rfl, hafter⟩
          exact ⟨e, (newest_concat_of_id_ne (Ne.symm hk)).mpr hnew, rfl, hafter⟩
        · rintro ⟨e, hnew, rfl, hafter⟩
          exact ⟨e, (newest_concat_of_id_ne (Ne.symm hk)).mp hnew, rfl, hafter⟩

end ObjectLog
