import AnySketchCorrectness.RandomGenerator
import AnySketchCorrectness.Library.DoubleRounding
import Mathlib.Tactic.FieldSimp
import Mathlib.Tactic.Ring

/-!
# The sizes of samples

Both samplers ask for more elements than are missing, because some will be rejected. The number is
computed in `double`. It grows with the number of missing elements, and is greater than that one
while the numbers are exact as doubles. Large numbers can be rounded down, by less than `2 ^ 9`.
-/

namespace AnySketchCorrectness

open UniformPseudorandomGenerator DoubleRounding

/-- The number of elements that are expected to be rejected. -/
def expectedSurplus (round : ℚ → ℚ) (failureRate currentSize : ℚ) : ℚ :=
  round (round (failureRate * round currentSize) / round (1 - failureRate))

theorem expectedSampleSize_eq (round : ℚ → ℚ) (failureRate currentSize : ℚ) :
    expectedSampleSize round failureRate currentSize
      = round (round (round currentSize + 1) + expectedSurplus round failureRate currentSize) := rfl

theorem tdiv_eq_floor {x : ℚ} (hx : 0 ≤ x) : x.num.tdiv x.den = ⌊x⌋₊ := by
  rw [Int.tdiv_eq_ediv_of_nonneg (Rat.num_nonneg.mpr hx), ← Rat.floor_def',
    Int.natCast_floor_eq_floor hx]

section Rate

variable {round : ℚ → ℚ} (hround : IsDoubleRounding round) {failureRate : ℚ}
  (hrate : 0 ≤ failureRate) (hhalf : failureRate ≤ 1 / 2)
include hround

theorem round_half : round (1 / 2) = 1 / 2 := by
  simpa using hround.round_div_two_pow (m := 1) (k := 1) (by decide) (by decide)

include hhalf

theorem half_le_round_sub : 1 / 2 ≤ round (1 - failureRate) := by
  rw [← round_half hround]
  exact hround.mono (by linarith)

/-- The bound is a double, and so is twice the bound. -/
theorem expectedSurplus_le {currentSize bound : ℚ} (hle : failureRate * round currentSize ≤ bound)
    (hbound : round bound = bound) (hdouble : round (2 * bound) = 2 * bound) (hnonneg : 0 ≤ bound) :
    expectedSurplus round failureRate currentSize ≤ 2 * bound := by
  have hcomplement := half_le_round_sub hround hhalf
  have hproduct : round (failureRate * round currentSize) ≤ bound :=
    (hround.mono hle).trans_eq hbound
  rw [expectedSurplus, ← hdouble]
  apply hround.mono
  rw [div_le_iff₀ (by linarith)]
  calc round (failureRate * round currentSize) ≤ bound := hproduct
    _ = 2 * bound * (1 / 2) := by ring
    _ ≤ 2 * bound * round (1 - failureRate) := by gcongr

include hrate

theorem expectedSurplus_mono {currentSize currentSize' : ℚ} (hle : currentSize ≤ currentSize') :
    expectedSurplus round failureRate currentSize
      ≤ expectedSurplus round failureRate currentSize' := by
  have hcomplement := half_le_round_sub hround hhalf
  apply hround.mono
  apply div_le_div_of_nonneg_right _ (by linarith)
  apply hround.mono
  exact mul_le_mul_of_nonneg_left (hround.mono hle) hrate

theorem expectedSurplus_nonneg {currentSize : ℚ} (hnonneg : 0 ≤ currentSize) :
    0 ≤ expectedSurplus round failureRate currentSize := by
  have hcomplement := half_le_round_sub hround hhalf
  apply hround.nonneg
  apply div_nonneg _ (by linarith)
  exact hround.nonneg (mul_nonneg hrate (hround.nonneg hnonneg))

theorem expectedSampleSize_mono {currentSize currentSize' : ℚ} (hle : currentSize ≤ currentSize') :
    expectedSampleSize round failureRate currentSize
      ≤ expectedSampleSize round failureRate currentSize' := by
  rw [expectedSampleSize_eq, expectedSampleSize_eq]
  apply hround.mono
  apply add_le_add (hround.mono _) (expectedSurplus_mono hround hrate hhalf hle)
  linarith [hround.mono hle]

theorem add_one_le_expectedSampleSize {n : ℕ} (hn : n < 2 ^ 53) :
    (n : ℚ) + 1 ≤ expectedSampleSize round failureRate n := by
  have hsurplus := expectedSurplus_nonneg hround hrate hhalf (Nat.cast_nonneg n)
  have hsucc : round (n + 1) = n + 1 := by
    exact_mod_cast hround.round_nat (Nat.succ_le_of_lt hn)
  rw [expectedSampleSize_eq, hround.round_nat hn.le, hsucc]
  calc (n : ℚ) + 1 = round (n + 1) := hsucc.symm
    _ ≤ round (n + 1 + expectedSurplus round failureRate n) := hround.mono (by linarith)

omit hrate in
/-- At most one more element than twice the number of missing ones is asked for. -/
theorem expectedSampleSize_le_two_mul {n : ℕ} (hn : n < 2 ^ 52) :
    expectedSampleSize round failureRate n ≤ 2 * n + 1 := by
  have hexact := hround.round_nat (show n ≤ 2 ^ 53 by omega)
  have hsucc : round (n + 1) = n + 1 := by
    exact_mod_cast hround.round_nat (show n + 1 ≤ 2 ^ 53 by omega)
  have hsum : round (2 * n + 1) = 2 * n + 1 := by
    exact_mod_cast hround.round_nat (show 2 * n + 1 ≤ 2 ^ 53 by omega)
  have hsurplus : expectedSurplus round failureRate n ≤ 2 * (n / 2 : ℚ) := by
    have htwice : 2 * (n / 2 : ℚ) = n := by ring
    apply expectedSurplus_le hround hhalf
    · rw [hexact, div_eq_mul_one_div, mul_comm]
      exact mul_le_mul_of_nonneg_left hhalf (Nat.cast_nonneg n)
    · have hshifted := hround.round_div_two_pow (m := n) (k := 1) (by
        rw [Nat.abs_cast]
        exact_mod_cast (show n ≤ 2 ^ 53 by omega)) (by decide)
      rwa [Int.cast_natCast, pow_one] at hshifted
    · rw [htwice, hexact]
    · positivity
  rw [expectedSampleSize_eq, hexact, hsucc, ← hsum]
  apply hround.mono
  linarith

section Large

variable {n : ℕ} (hn : n < 2 ^ 61)
include hn

omit hrate hhalf in
theorem round_le_two_pow : round n ≤ 2 ^ 61 := by
  rw [← hround.round_two_pow (show 61 ≤ 970 by decide)]
  exact hround.mono (by exact_mod_cast hn.le)

omit hrate hhalf in
theorem round_succ_le : round (round n + 1) ≤ 2 ^ 61 + 2 ^ 9 := by
  have hexact := hround.round_mul_two_pow (m := 2 ^ 52 + 1) (k := 9) (by decide) (by decide)
  have hle := round_le_two_pow hround hn
  calc round (round n + 1) ≤ round (((2 ^ 52 + 1 : ℤ) : ℚ) * 2 ^ 9) :=
        hround.mono (by push_cast; linarith)
    _ = 2 ^ 61 + 2 ^ 9 := by
        rw [hexact]
        norm_num

omit hrate in
theorem expectedSampleSize_le_two_pow :
    expectedSampleSize round failureRate n ≤ 2 ^ 62 + 2 ^ 10 := by
  have hexact := hround.round_mul_two_pow (m := 2 ^ 52 + 1) (k := 10) (by decide) (by decide)
  have hsucc := round_succ_le hround hn
  have hsurplus : expectedSurplus round failureRate n ≤ 2 * 2 ^ 60 := by
    apply expectedSurplus_le hround hhalf
    · have hle := round_le_two_pow hround hn
      have hnonneg := hround.nonneg (Nat.cast_nonneg (α := ℚ) n)
      nlinarith only [hle, hnonneg, hhalf]
    · exact hround.round_two_pow (by decide)
    · rw [← pow_succ']
      exact hround.round_two_pow (by decide)
    · positivity
  rw [expectedSampleSize_eq]
  calc round (round (round n + 1) + expectedSurplus round failureRate n)
      ≤ round (((2 ^ 52 + 1 : ℤ) : ℚ) * 2 ^ 10) := hround.mono (by push_cast; linarith)
    _ = 2 ^ 62 + 2 ^ 10 := by
        rw [hexact]
        norm_num

omit hrate hhalf in
/-- What is lost by rounding is less than `2 ^ 9`. -/
theorem multiple_le_expectedSampleSize {surplus : ℕ} (hsmall : surplus ≤ 2 ^ 52)
    (hsurplus : (2 ^ 9 * surplus : ℚ) ≤ expectedSurplus round failureRate n) :
    (2 ^ 9 * (n / 2 ^ 9 + surplus : ℕ) : ℚ) ≤ expectedSampleSize round failureRate n := by
  have hmultiple : ∀ k : ℕ, k ≤ 2 ^ 53 → round (2 ^ 9 * k) = 2 ^ 9 * k := by
    intro k hk
    rw [mul_comm]
    exact_mod_cast hround.round_mul_two_pow (m := k) (k := 9) (by
      rw [Nat.abs_cast]
      exact_mod_cast hk) (by decide)
  have hquotient : n / 2 ^ 9 < 2 ^ 52 := Nat.div_lt_of_lt_mul (by omega)
  have hfloor : (2 ^ 9 * (n / 2 ^ 9 : ℕ) : ℚ) ≤ n := by
    exact_mod_cast Nat.mul_div_le n (2 ^ 9)
  have hcurrent : (2 ^ 9 * (n / 2 ^ 9 : ℕ) : ℚ) ≤ round n := by
    rw [← hmultiple _ (by omega)]
    exact hround.mono hfloor
  have hsucc : (2 ^ 9 * (n / 2 ^ 9 : ℕ) : ℚ) ≤ round (round n + 1) := by
    rw [← hmultiple _ (by omega)]
    exact hround.mono (by linarith)
  rw [expectedSampleSize_eq, ← hmultiple _ (by omega)]
  apply hround.mono
  push_cast
  linarith

end Large

end Rate

end AnySketchCorrectness
