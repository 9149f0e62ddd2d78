import Mathlib

/-! # Double precision numbers

    The finite doubles are rationals.  `toDouble` rounds a rational to the nearest of
    them, ties to even, and to an infinity past the largest; rounding is monotone.  The
    operations are those of a runtime that has doubles only: an exact result, rounded
    once. -/

namespace Doubles

/-- The doubles other than NaN; the two zeros are one. -/
abbrev Extended := WithBot (WithTop ℚ)

/-- The doubles; `none` is NaN. -/
abbrev Number := Option Extended

/-! ## Rounding -/

/-- The nearest integer, the even one of two. -/
def roundEven (x : ℚ) : ℤ :=
  if x - ⌊x⌋ < 1 / 2 then ⌊x⌋
  else if 1 / 2 < x - ⌊x⌋ then ⌊x⌋ + 1
  else if ⌊x⌋ % 2 = 0 then ⌊x⌋
  else ⌊x⌋ + 1

/-- The exponent of the distance between the doubles at a magnitude: 53 bits of it, or
    fewer below the normal numbers. -/
def spacing (x : ℚ) : ℤ := max (Int.log 2 x) (-1022) - 52

/-- A magnitude, rounded. -/
def magnitude (x : ℚ) : ℚ := roundEven (x / 2 ^ spacing x) * 2 ^ spacing x

/-- The nearest double, had they no largest. -/
def nearest (x : ℚ) : ℚ := if x < 0 then -magnitude (-x) else magnitude x

def finite (x : ℚ) : Extended := WithBot.some (WithTop.some x)

/-- The double nearest to a rational. -/
def toDouble (x : ℚ) : Extended :=
  if nearest x ≤ -2 ^ 1024 then ⊥
  else if nearest x < 2 ^ 1024 then finite (nearest x)
  else ⊤

/-! ## Rounding is monotone -/

theorem roundEven_bounds (x : ℚ) : ⌊x⌋ ≤ roundEven x ∧ roundEven x ≤ ⌊x⌋ + 1 := by
  unfold roundEven
  split_ifs <;> omega

theorem roundEven_mono {x y : ℚ} (h : x ≤ y) : roundEven x ≤ roundEven y := by
  rcases (Int.floor_le_floor h).lt_or_eq with hlt | heq
  · exact (roundEven_bounds x).2.trans ((Int.add_one_le_iff.mpr hlt).trans
      (roundEven_bounds y).1)
  · unfold roundEven
    rw [heq]
    have hsub : x - ⌊y⌋ ≤ y - ⌊y⌋ := sub_le_sub_right h _
    split_ifs <;> first | omega | linarith

theorem roundEven_intCast (n : ℤ) : roundEven n = n := by
  unfold roundEven
  rw [Int.floor_intCast, sub_self, if_pos (by norm_num)]

/-- A power of two on the grid is not passed by rounding on it. -/
theorem zpow_div {s L : ℤ} (h : s ≤ L) :
    (2 : ℚ) ^ L / 2 ^ s = ((2 ^ (L - s).toNat : ℤ) : ℚ) := by
  rw [← zpow_sub₀ two_ne_zero]
  push_cast
  rw [← zpow_natCast, Int.toNat_of_nonneg (sub_nonneg.mpr h)]

theorem magnitude_le {x : ℚ} {L : ℤ} (h : spacing x ≤ L) (hx : x ≤ 2 ^ L) :
    magnitude x ≤ 2 ^ L := by
  have hpos : (0 : ℚ) < 2 ^ spacing x := by positivity
  have hround : roundEven (x / 2 ^ spacing x) ≤ 2 ^ (L - spacing x).toNat := by
    rw [← roundEven_intCast (2 ^ (L - spacing x).toNat), ← zpow_div h]
    exact roundEven_mono (div_le_div_of_nonneg_right hx hpos.le)
  calc magnitude x ≤ ((2 ^ (L - spacing x).toNat : ℤ) : ℚ) * 2 ^ spacing x :=
        mul_le_mul_of_nonneg_right (Int.cast_le.mpr hround) hpos.le
    _ = 2 ^ L := by rw [← zpow_div h, div_mul_cancel₀ _ hpos.ne']

theorem le_magnitude {x : ℚ} {L : ℤ} (h : spacing x ≤ L) (hx : 2 ^ L ≤ x) :
    2 ^ L ≤ magnitude x := by
  have hpos : (0 : ℚ) < 2 ^ spacing x := by positivity
  have hround : 2 ^ (L - spacing x).toNat ≤ roundEven (x / 2 ^ spacing x) := by
    rw [← roundEven_intCast (2 ^ (L - spacing x).toNat), ← zpow_div h]
    exact roundEven_mono (div_le_div_of_nonneg_right hx hpos.le)
  calc (2 : ℚ) ^ L = ((2 ^ (L - spacing x).toNat : ℤ) : ℚ) * 2 ^ spacing x := by
        rw [← zpow_div h, div_mul_cancel₀ _ hpos.ne']
    _ ≤ magnitude x := mul_le_mul_of_nonneg_right (Int.cast_le.mpr hround) hpos.le

theorem magnitude_nonneg {x : ℚ} (h : 0 ≤ x) : 0 ≤ magnitude x := by
  have hround : roundEven 0 ≤ roundEven (x / 2 ^ spacing x) :=
    roundEven_mono (div_nonneg h (by positivity))
  have hzero : roundEven 0 = 0 := by exact_mod_cast roundEven_intCast 0
  rw [hzero] at hround
  exact mul_nonneg (Int.cast_nonneg hround) (by positivity)

theorem magnitude_zero : magnitude 0 = 0 := by
  have hzero : roundEven 0 = 0 := by exact_mod_cast roundEven_intCast 0
  unfold magnitude
  rw [zero_div, hzero, Int.cast_zero, zero_mul]

theorem magnitude_mono {x y : ℚ} (hx : 0 ≤ x) (h : x ≤ y) : magnitude x ≤ magnitude y := by
  rcases hx.eq_or_lt with rfl | hx
  · rw [magnitude_zero]
    exact magnitude_nonneg h
  have hlog : Int.log 2 x ≤ Int.log 2 y := Int.log_mono_right hx h
  have hspacing : spacing x ≤ spacing y := by
    unfold spacing
    omega
  rcases hspacing.eq_or_lt with heq | hlt
  · have hpos : (0 : ℚ) < 2 ^ spacing y := by positivity
    unfold magnitude
    rw [heq]
    exact mul_le_mul_of_nonneg_right
      (Int.cast_le.mpr (roundEven_mono (div_le_div_of_nonneg_right h hpos.le))) hpos.le
  · -- a power of two lies between them, and is on both grids
    have hL : Int.log 2 x + 1 ≤ Int.log 2 y ∧ spacing y ≤ Int.log 2 y := by
      unfold spacing at hlt ⊢
      omega
    have hbelow : x ≤ 2 ^ Int.log 2 y :=
      (Int.lt_zpow_succ_log_self one_lt_two x).le.trans
        (zpow_le_zpow_right₀ one_le_two hL.1)
    have habove : (2 : ℚ) ^ Int.log 2 y ≤ y :=
      Int.zpow_log_le_self one_lt_two (hx.trans_le h)
    exact (magnitude_le (hspacing.trans hL.2) hbelow).trans (le_magnitude hL.2 habove)

theorem nearest_mono {x y : ℚ} (h : x ≤ y) : nearest x ≤ nearest y := by
  unfold nearest
  by_cases hy : y < 0
  · rw [if_pos (h.trans_lt hy), if_pos hy]
    exact neg_le_neg (magnitude_mono (by linarith) (by linarith))
  · have hpos := magnitude_nonneg (not_lt.mp hy)
    rw [if_neg hy]
    by_cases hx : x < 0
    · rw [if_pos hx]
      have := magnitude_nonneg (x := -x) (by linarith)
      linarith
    · rw [if_neg hx]
      exact magnitude_mono (not_lt.mp hx) h

theorem finite_le {x y : ℚ} : finite x ≤ finite y ↔ x ≤ y :=
  WithBot.coe_le_coe.trans WithTop.coe_le_coe

/-- **ROUNDING IS MONOTONE**, infinities included. -/
theorem toDouble_mono {x y : ℚ} (h : x ≤ y) : toDouble x ≤ toDouble y := by
  have hnear := nearest_mono h
  unfold toDouble
  by_cases hbot : nearest x ≤ -2 ^ 1024
  · rw [if_pos hbot]
    exact bot_le
  · rw [if_neg hbot, if_neg (fun hy => hbot (hnear.trans hy))]
    by_cases hfin : nearest y < 2 ^ 1024
    · rw [if_pos hfin, if_pos (hnear.trans_lt hfin)]
      exact finite_le.mpr hnear
    · rw [if_neg hfin]
      exact le_top

/-! ## Operations -/

/-- The product of a finite double and another; zero times an infinity is NaN. -/
def times (x : ℚ) : Extended → Number
  | ⊥ => if x = 0 then none else some (if x < 0 then ⊤ else ⊥)
  | WithBot.some (WithTop.some y) => some (toDouble (x * y))
  | WithBot.some ⊤ => if x = 0 then none else some (if x < 0 then ⊥ else ⊤)

/-- The sum of a finite double and another. -/
def plus (x : ℚ) : Extended → Extended
  | ⊥ => ⊥
  | WithBot.some (WithTop.some y) => toDouble (x + y)
  | WithBot.some ⊤ => ⊤

/-- The nearest integer, the upper one of two, which is a double. -/
def roundUp : Extended → Extended
  | ⊥ => ⊥
  | WithBot.some (WithTop.some x) => finite ⌊x + 1 / 2⌋
  | WithBot.some ⊤ => ⊤

/-- `a <= b`: no comparison with NaN holds. -/
def AtMost (a b : Number) : Prop := ∃ x ∈ a, ∃ y ∈ b, x ≤ y

instance (a b : Number) : Decidable (AtMost a b) :=
  inferInstanceAs (Decidable (∃ x ∈ a, ∃ y ∈ b, x ≤ y))

theorem AtMost.map {a b : Number} (h : AtMost a b) {f : Extended → Extended}
    (hf : Monotone f) : AtMost (a.map f) (b.map f) := by
  obtain ⟨x, hx, y, hy, hle⟩ := h
  exact ⟨f x, Option.mem_map_of_mem f hx, f y, Option.mem_map_of_mem f hy, hf hle⟩

theorem roundUp_mono : Monotone roundUp := by
  intro x y h
  match x, y, h with
  | ⊥, _, _ => exact bot_le
  | _, WithBot.some ⊤, _ => exact le_top
  | WithBot.some (WithTop.some x), WithBot.some (WithTop.some y), h =>
      refine finite_le.mpr (Int.cast_le.mpr (Int.floor_le_floor ?_))
      exact add_le_add_left (finite_le.mp h) _
  | WithBot.some x, ⊥, h => exact absurd h (WithBot.not_coe_le_bot x)
  | WithBot.some ⊤, WithBot.some (WithTop.some y), h =>
      exact absurd (WithBot.coe_le_coe.mp h) (WithTop.not_top_le_coe y)

/-- A product with a positive double grows with its other factor; so does one with zero,
    as long as that is finite. -/
theorem times_mono {x : ℚ} {y z : Extended} (hy : finite 0 ≤ y) (h : y ≤ z) (hx : 0 ≤ x)
    (hzero : x = 0 → z ≠ ⊤) : AtMost (times x y) (times x z) := by
  match y, z, hy, h with
  | ⊥, _, hy, _ => exact absurd hy (WithBot.not_coe_le_bot _)
  | WithBot.some _, ⊥, _, h => exact absurd h (WithBot.not_coe_le_bot _)
  | WithBot.some ⊤, WithBot.some (WithTop.some z), _, h =>
      exact absurd (WithBot.coe_le_coe.mp h) (WithTop.not_top_le_coe z)
  | WithBot.some (WithTop.some y), WithBot.some (WithTop.some z), _, h =>
      exact ⟨_, rfl, _, rfl, toDouble_mono (mul_le_mul_of_nonneg_left (finite_le.mp h) hx)⟩
  | WithBot.some y, WithBot.some ⊤, _, _ =>
      have hne : x ≠ 0 := fun h => hzero h rfl
      have htop : times x (WithBot.some ⊤) = some ⊤ := by
        show (if x = 0 then none else some (if x < 0 then ⊥ else ⊤)) = some ⊤
        rw [if_neg hne, if_neg (not_lt.mpr hx)]
      rw [htop]
      match y with
      | ⊤ => exact ⟨⊤, htop, ⊤, rfl, le_refl _⟩
      | WithTop.some y => exact ⟨_, rfl, ⊤, rfl, le_top⟩

end Doubles
