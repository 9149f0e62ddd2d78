import Mathlib

/-! # Chains and cycles

    Following a relation from a point of a finite type comes to an end on every
    path exactly when no point that is reached lies on a cycle. -/

namespace Cycles

open Relation

variable {α : Type*} {r : α → α → Prop}

/-- A point from which every path ends does not lie on a cycle. -/
theorem not_transGen_of_acc {a : α} (h : Acc (flip r) a) : ¬ TransGen r a a := by
  induction h with
  | intro a _ ih =>
      intro hcycle
      obtain ⟨b, hab, hba⟩ := TransGen.head'_iff.mp hcycle
      -- the cycle, entered one step later
      exact ih b hab (TransGen.tail'_iff.mpr ⟨a, hba, hab⟩)

/-- Nor does a point that it reaches. -/
theorem acc_of_reflTransGen {a b : α} (h : Acc (flip r) a) (hab : ReflTransGen r a b) :
    Acc (flip r) b := by
  induction hab with
  | refl => exact h
  | tail _ hbc ih => exact ih.inv hbc

/-- In a finite type the paths from a point end if none of them enters a cycle. -/
theorem acc_of_no_cycle [Finite α] {a : α}
    (h : ∀ b, ReflTransGen r a b → ¬ TransGen r b b) : Acc (flip r) a := by
  -- the relation between the points that `a` reaches has no cycle at all
  let reached : α → α → Prop := fun c b => r b c ∧ ReflTransGen r a b
  have hwf : WellFounded (TransGen reached) := by
    have htrans : IsTrans α (TransGen reached) := ⟨fun _ _ _ => TransGen.trans⟩
    have hirrefl : Std.Irrefl (TransGen reached) := by
      refine ⟨fun c hc => ?_⟩
      have hcycle : TransGen (flip r) c c := TransGen.mono (fun _ _ hstep => hstep.1) c c hc
      obtain ⟨b, -, hbc⟩ := TransGen.tail'_iff.mp hc
      exact h c hbc.2 (transGen_swap.mp hcycle)
    exact Finite.wellFounded_of_trans_of_irrefl _
  have hacc : ∀ b, ReflTransGen r a b → Acc (flip r) b := by
    intro b
    induction b using hwf.induction with
    | h b ih =>
        intro hab
        refine Acc.intro b fun c hbc => ?_
        exact ih c (TransGen.single ⟨hbc, hab⟩) (hab.tail hbc)
  exact hacc a ReflTransGen.refl

/-- **CHAINS END EXACTLY WHERE NO CYCLE IS REACHED.** -/
theorem acc_iff_no_cycle [Finite α] {a : α} :
    Acc (flip r) a ↔ ∀ b, ReflTransGen r a b → ¬ TransGen r b b :=
  ⟨fun h _ hab => not_transGen_of_acc (acc_of_reflTransGen h hab), acc_of_no_cycle⟩

end Cycles
