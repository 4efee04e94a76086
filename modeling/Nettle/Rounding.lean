-- Numbers of a fixed precision. A rational number is rounded to the nearest
-- one that has so many binary digits, and in a tie to the even one. Exponents
-- have no bounds.
import Mathlib.Algebra.Order.Floor.Ring
import Mathlib.Algebra.Order.Round
import Mathlib.Data.Int.Log
import Mathlib.Data.Rat.Floor
import Mathlib.Tactic.FieldSimp
import Mathlib.Tactic.Linarith
import Mathlib.Tactic.NormNum
import Mathlib.Tactic.Positivity
import Mathlib.Tactic.Ring

namespace rounding

/-! ## To the nearest integer -/

def nearest (x : ℚ) : ℤ :=
  let n := ⌊x⌋
  if x - n < 1 / 2 ∨ x - n = 1 / 2 ∧ n % 2 = 0 then n else n + 1

theorem nearest_le {x : ℚ} {n : ℤ} (h : x ≤ n) : nearest x ≤ n := by
  unfold nearest
  have hfloor : ⌊x⌋ ≤ n := by
    have := (Int.floor_le x).trans h
    exact_mod_cast this
  simp only
  split_ifs with hlow
  · exact hfloor
  · by_contra hlt
    have heq : ⌊x⌋ = n := by omega
    rw [heq] at hlow
    apply hlow
    left
    linarith

theorem le_nearest {x : ℚ} {n : ℤ} (h : (n : ℚ) ≤ x) : n ≤ nearest x := by
  unfold nearest
  have hfloor : n ≤ ⌊x⌋ := Int.le_floor.mpr h
  simp only
  split_ifs
  · exact hfloor
  · omega

theorem nearest_le_add (x : ℚ) : (nearest x : ℚ) ≤ x + 1 / 2 := by
  unfold nearest
  have hfloor := Int.floor_le x
  simp only
  split_ifs with hlow
  · linarith
  · rw [not_or, not_lt] at hlow
    push_cast
    linarith [hlow.1]

/-! ## To a number of digits -/

/-- The place value of the last of `digits` binary digits. -/
def last_place (digits : Nat) (x : ℚ) : ℚ := 2 ^ (Int.log 2 |x| + 1 - digits)

/-- The number next to `x` that has so many binary digits. -/
def round_to (digits : Nat) (x : ℚ) : ℚ :=
  nearest (x / last_place digits x) * last_place digits x

section

variable {digits : Nat} {x : ℚ}

theorem last_place_pos (digits : Nat) (x : ℚ) : 0 < last_place digits x :=
  zpow_pos (by norm_num) _

/-- Twice a number has its digits one place further up. -/
theorem last_place_two_mul (hx : x ≠ 0) :
    last_place digits (2 * x) = 2 * last_place digits x := by
  have hlog : Int.log 2 |2 * x| = Int.log 2 |x| + 1 := by
    have hpos := abs_pos.mpr hx
    have hlow := Int.zpow_log_le_self (by norm_num : 1 < 2) hpos
    have hhigh := Int.lt_zpow_succ_log_self (by norm_num : 1 < 2) |x|
    have htwo : |2 * x| = 2 * |x| := by rw [abs_mul, abs_two]
    have hstep : ∀ e : ℤ, ((2 : ℕ) : ℚ) ^ (e + 1) = 2 * ((2 : ℕ) : ℚ) ^ e := fun e => by
      rw [zpow_add₀ (by norm_num), zpow_one, mul_comm]
      norm_num
    apply le_antisymm
    · apply Int.lt_add_one_iff.mp
      rw [← Int.lt_zpow_iff_log_lt (by norm_num) (abs_pos.mpr (mul_ne_zero two_ne_zero hx)),
        hstep, htwo]
      linarith
    · rw [← Int.zpow_le_iff_le_log (by norm_num) (abs_pos.mpr (mul_ne_zero two_ne_zero hx)),
        hstep, htwo]
      linarith
  unfold last_place
  rw [hlog, show Int.log 2 |x| + 1 + 1 - (digits : ℤ) = (Int.log 2 |x| + 1 - digits) + 1 by ring,
    zpow_add₀ two_ne_zero, zpow_one, mul_comm]

theorem round_to_two_mul (digits : Nat) (x : ℚ) : round_to digits (2 * x) = 2 * round_to digits x := by
  by_cases hx : x = 0
  · subst hx
    simp [round_to, nearest]
  · unfold round_to
    rw [last_place_two_mul hx, mul_div_mul_left _ _ two_ne_zero]
    ring

theorem round_to_zero (digits : Nat) : round_to digits 0 = 0 := by
  simp [round_to, nearest]

/-- Below `2 ^ digits` natural numbers are on the grid of every number with no larger exponent. -/
theorem natCast_on_grid (n : Nat) (hlog : Int.log 2 |x| + 1 ≤ digits) :
    ∃ m : ℤ, (n : ℚ) = m * last_place digits x := by
  obtain ⟨k, hk⟩ := Int.eq_ofNat_of_zero_le (show 0 ≤ (digits : ℤ) - (Int.log 2 |x| + 1) by omega)
  refine ⟨n * 2 ^ k, ?_⟩
  unfold last_place
  rw [show Int.log 2 |x| + 1 - (digits : ℤ) = -(k : ℤ) by omega, zpow_neg, zpow_natCast]
  push_cast
  field_simp

/-- So is the power of two below a number. -/
theorem zpow_on_grid (hdigits : 0 < digits) :
    ∃ m : ℤ, (2 : ℚ) ^ Int.log 2 |x| = m * last_place digits x := by
  refine ⟨2 ^ (digits - 1), ?_⟩
  unfold last_place
  push_cast
  rw [← zpow_natCast, ← zpow_add₀ two_ne_zero]
  congr 1
  omega

/-- Rounding does not go over what is on the grid. -/
theorem round_to_le_grid {y : ℚ} {m : ℤ} (hy : y = m * last_place digits x) (h : x ≤ y) :
    round_to digits x ≤ y := by
  have hpos := last_place_pos digits x
  have hle : nearest (x / last_place digits x) ≤ m := by
    apply nearest_le
    rw [div_le_iff₀ hpos, ← hy]
    exact h
  rw [hy]
  exact mul_le_mul_of_nonneg_right (by exact_mod_cast hle) hpos.le

theorem grid_le_round_to {y : ℚ} {m : ℤ} (hy : y = m * last_place digits x) (h : y ≤ x) :
    y ≤ round_to digits x := by
  have hpos := last_place_pos digits x
  have hle : m ≤ nearest (x / last_place digits x) := by
    apply le_nearest
    rw [le_div_iff₀ hpos, ← hy]
    exact h
  rw [hy]
  exact mul_le_mul_of_nonneg_right (by exact_mod_cast hle) hpos.le

theorem zpow_log_le (hx : 0 < x) : (2 : ℚ) ^ Int.log 2 |x| ≤ x := by
  rw [abs_of_pos hx]
  exact_mod_cast Int.zpow_log_le_self (by norm_num : 1 < 2) hx

/-- A large exponent leaves no room under `2 ^ digits`. -/
theorem two_pow_le (hlog : ¬Int.log 2 |x| + 1 ≤ digits) :
    ((2 ^ digits : Nat) : ℚ) ≤ 2 ^ Int.log 2 |x| := by
  push_cast
  rw [← zpow_natCast]
  exact zpow_le_zpow_right₀ one_le_two (by omega)

/-- Rounding goes neither over nor under a natural number that has so many digits. -/
theorem round_to_le (hdigits : 0 < digits) {n : Nat} (hn : n ≤ 2 ^ digits) (hx : 0 ≤ x)
    (h : x ≤ n) : round_to digits x ≤ n := by
  rcases hx.eq_or_lt with rfl | hx
  · rw [round_to_zero]
    exact Nat.cast_nonneg n
  · by_cases hlog : Int.log 2 |x| + 1 ≤ digits
    · obtain ⟨m, hm⟩ := natCast_on_grid n hlog
      exact round_to_le_grid hm h
    · obtain ⟨m, hm⟩ := zpow_on_grid (x := x) hdigits
      have hn' : (n : ℚ) ≤ 2 ^ Int.log 2 |x| :=
        le_trans (by exact_mod_cast hn) (two_pow_le hlog)
      have hsame : (n : ℚ) = 2 ^ Int.log 2 |x| := le_antisymm hn' ((zpow_log_le hx).trans h)
      exact round_to_le_grid (hsame.trans hm) h

theorem le_round_to (hdigits : 0 < digits) {n : Nat} (hn : n ≤ 2 ^ digits) (hx : 0 < x)
    (h : (n : ℚ) ≤ x) : (n : ℚ) ≤ round_to digits x := by
  by_cases hlog : Int.log 2 |x| + 1 ≤ digits
  · obtain ⟨m, hm⟩ := natCast_on_grid n hlog
    exact grid_le_round_to hm h
  · obtain ⟨m, hm⟩ := zpow_on_grid (x := x) hdigits
    have hn' : (n : ℚ) ≤ 2 ^ Int.log 2 |x| := le_trans (by exact_mod_cast hn) (two_pow_le hlog)
    exact hn'.trans (grid_le_round_to hm (zpow_log_le hx))

theorem round_to_natCast (hdigits : 0 < digits) {n : Nat} (hn : n ≤ 2 ^ digits) :
    round_to digits n = n := by
  rcases Nat.eq_zero_or_pos n with rfl | hpos
  · rw [Nat.cast_zero]
    exact round_to_zero digits
  · apply le_antisymm
    · exact round_to_le hdigits hn (Nat.cast_nonneg n) le_rfl
    · exact le_round_to hdigits hn (Nat.cast_pos.mpr hpos) le_rfl

/-- What is added in rounding. -/
theorem round_to_le_add (hx : 0 < x) : round_to digits x ≤ x + x / 2 ^ digits := by
  have hpos := last_place_pos digits x
  have hnearest := mul_le_mul_of_nonneg_right (nearest_le_add (x / last_place digits x)) hpos.le
  rw [add_mul, div_mul_cancel₀ _ hpos.ne'] at hnearest
  have hhalf : 1 / 2 * last_place digits x = 2 ^ Int.log 2 |x| / 2 ^ digits := by
    unfold last_place
    rw [show Int.log 2 |x| + 1 - (digits : ℤ) = (Int.log 2 |x| - digits) + 1 by ring,
      zpow_add₀ two_ne_zero, zpow_sub₀ two_ne_zero, zpow_natCast, zpow_one]
    ring
  have hle : (2 : ℚ) ^ Int.log 2 |x| / 2 ^ digits ≤ x / 2 ^ digits :=
    div_le_div_of_nonneg_right (zpow_log_le hx) (by positivity)
  unfold round_to
  linarith

end

/-! ## Products -/

/-- The product of a natural number and a fraction, both numbers rounded. -/
def product (digits n : Nat) (factor : ℚ) : ℚ := round_to digits (round_to digits n * factor)

section

variable {digits n : Nat} {factor : ℚ}

theorem product_two_mul (digits n : Nat) (factor : ℚ) :
    product digits (2 * n) factor = 2 * product digits n factor := by
  unfold product
  rw [Nat.cast_mul, Nat.cast_two, round_to_two_mul, mul_assoc, round_to_two_mul]

/-- A product with no more than 1 does not exceed a number that has so many digits. -/
theorem product_le (hdigits : 0 < digits) (hn : n ≤ 2 ^ digits) (hfactor : 0 ≤ factor ∧ factor ≤ 1) :
    product digits n factor ≤ n := by
  unfold product
  rw [round_to_natCast hdigits hn]
  exact round_to_le hdigits hn (mul_nonneg (Nat.cast_nonneg n) hfactor.1)
    (mul_le_of_le_one_right (Nat.cast_nonneg n) hfactor.2)

end

end rounding
