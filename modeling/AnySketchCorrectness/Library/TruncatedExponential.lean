import Mathlib.Analysis.SpecialFunctions.Log.Basic

/-!
# The truncated exponential distribution

The exponential distribution with a given rate, cut off at 1 and scaled to the unit interval. Its
quantile function inverts the cumulative distribution: it grows from 0 to 1 and takes the value 1 at
the right end only. So a point drawn from the half-open unit interval falls into one of `n` equal
cells, and the point 1 would fall behind the last of them.
-/

namespace TruncatedExponential

open Real

noncomputable def quantile (rate u : ℝ) : ℝ :=
  1 - log (exp rate + u * (1 - exp rate)) / rate

variable {rate : ℝ} (hrate : 0 < rate)

theorem quantile_one : quantile rate 1 = 1 := by
  have harg : exp rate + 1 * (1 - exp rate) = 1 := by ring
  rw [quantile, harg, log_one, zero_div, sub_zero]

include hrate

theorem quantile_zero : quantile rate 0 = 0 := by
  rw [quantile, zero_mul, add_zero, log_exp, div_self hrate.ne', sub_self]

theorem quantile_strictMonoOn : StrictMonoOn (quantile rate) (Set.Iic 1) := by
  intro u _ v hv huv
  have hexp : 1 < exp rate := one_lt_exp_iff.mpr hrate
  have hpositive : 0 < exp rate + v * (1 - exp rate) := by
    have hv : v ≤ 1 := hv
    nlinarith only [hexp, hv]
  have hlt : exp rate + v * (1 - exp rate) < exp rate + u * (1 - exp rate) := by
    nlinarith only [hexp, huv]
  have hlog := div_lt_div_of_pos_right (log_lt_log hpositive hlt) hrate
  exact sub_lt_sub_left hlog 1

theorem quantile_nonneg {u : ℝ} (hu : 0 ≤ u) (hu' : u ≤ 1) : 0 ≤ quantile rate u := by
  have hmono := (quantile_strictMonoOn hrate).monotoneOn (Set.mem_Iic.mpr zero_le_one)
    (Set.mem_Iic.mpr hu') hu
  rwa [quantile_zero hrate] at hmono

theorem quantile_lt_one {u : ℝ} (hu : u < 1) : quantile rate u < 1 := by
  have hstrict := quantile_strictMonoOn hrate (Set.mem_Iic.mpr hu.le)
    (Set.mem_Iic.mpr le_rfl) hu
  rwa [quantile_one] at hstrict

/-! ### Cells -/

section Cells

variable {n : ℤ} (hn : 1 ≤ n)
include hn

theorem floor_quantile_nonneg {u : ℝ} (hu : 0 ≤ u) (hu' : u ≤ 1) :
    0 ≤ ⌊quantile rate u * n⌋ := by
  have hcast : (0 : ℝ) ≤ n := by exact_mod_cast zero_le_one.trans hn
  exact Int.floor_nonneg.mpr (mul_nonneg (quantile_nonneg hrate hu hu') hcast)

theorem floor_quantile_lt {u : ℝ} (hu : u < 1) : ⌊quantile rate u * n⌋ < n := by
  have hcast : (0 : ℝ) < n := by exact_mod_cast zero_lt_one.trans_le hn
  rw [Int.floor_lt]
  calc quantile rate u * n
      < 1 * n := mul_lt_mul_of_pos_right (quantile_lt_one hrate hu) hcast
    _ = n := one_mul _

theorem floor_quantile_mono {u v : ℝ} (huv : u ≤ v) (hv : v ≤ 1) :
    ⌊quantile rate u * n⌋ ≤ ⌊quantile rate v * n⌋ := by
  have hcast : (0 : ℝ) ≤ n := by exact_mod_cast zero_le_one.trans hn
  have hmono := (quantile_strictMonoOn hrate).monotoneOn (Set.mem_Iic.mpr (huv.trans hv))
    (Set.mem_Iic.mpr hv) huv
  exact Int.floor_mono (mul_le_mul_of_nonneg_right hmono hcast)

omit hrate hn in
theorem floor_quantile_one : ⌊quantile rate 1 * n⌋ = n := by
  rw [quantile_one, one_mul, Int.floor_intCast]

end Cells

end TruncatedExponential
