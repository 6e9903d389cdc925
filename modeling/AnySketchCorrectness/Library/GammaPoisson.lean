import Mathlib.Probability.Distributions.Gamma
import Mathlib.Probability.Distributions.Geometric
import Mathlib.Probability.Distributions.Poisson.Basic

/-!
# Counts with an exponential mean

A Poisson count whose mean is drawn from a gamma distribution with shape 1 has a geometric
distribution.
-/

namespace GammaPoisson

open MeasureTheory ProbabilityTheory
open scoped ENNReal Nat

/-- The Gamma integral, over the density of the mean times the chance of the count. -/
theorem integral_exponential_mul_poisson {rate : ℝ} (hrate : 0 < rate) (k : ℕ) :
    ∫ mean in Set.Ioi (0 : ℝ), rate * Real.exp (-(rate * mean))
        * (Real.exp (-mean) * mean ^ k / k !)
      = rate * (1 / (rate + 1)) ^ (k + 1) := by
  have hfactorial : (0 : ℝ) < k ! := by exact_mod_cast k.factorial_pos
  have hintegrand : ∀ mean ∈ Set.Ioi (0 : ℝ),
      rate * Real.exp (-(rate * mean)) * (Real.exp (-mean) * mean ^ k / k !)
        = rate / k ! * (mean ^ (((k + 1 : ℕ) : ℝ) - 1) * Real.exp (-((rate + 1) * mean))) := by
    intro mean _
    have hpow : mean ^ (((k + 1 : ℕ) : ℝ) - 1) = mean ^ k := by
      rw [Nat.cast_succ, add_sub_cancel_right, Real.rpow_natCast]
    have hexp : Real.exp (-((rate + 1) * mean))
        = Real.exp (-(rate * mean)) * Real.exp (-mean) := by
      rw [← Real.exp_add]
      congr 1
      ring
    rw [hpow, hexp]
    ring
  rw [setIntegral_congr_fun measurableSet_Ioi hintegrand, integral_const_mul,
    Real.integral_rpow_mul_exp_neg_mul_Ioi (by positivity) (by positivity), Real.rpow_natCast,
    Nat.cast_succ, Real.Gamma_nat_eq_factorial]
  field_simp

theorem lintegral_exponential_poisson {rate : ℝ} (hrate : 0 < rate) (k : ℕ) :
    ∫⁻ mean, poissonMeasure mean.toNNReal {k} ∂(gammaMeasure 1 rate)
      = ENNReal.ofReal (rate * (1 / (rate + 1)) ^ (k + 1)) := by
  let density : ℝ → ℝ := fun mean =>
    rate * Real.exp (-(rate * mean)) * (Real.exp (-mean) * mean ^ k / k !)
  have hintegral := integral_exponential_mul_poisson hrate k
  have hpositive : 0 < rate * (1 / (rate + 1)) ^ (k + 1) := by positivity
  have hintegrable : IntegrableOn density (Set.Ioi 0) :=
    Integrable.of_integral_ne_zero (by rw [hintegral]; exact hpositive.ne')
  have hnonneg : ∀ mean ∈ Set.Ioi (0 : ℝ), 0 ≤ density mean := by
    intro mean hmean
    have hmean : (0 : ℝ) < mean := hmean
    positivity
  have hproduct : ∀ mean : ℝ, gammaPDF 1 rate mean * poissonMeasure mean.toNNReal {k}
      = (Set.Ici (0 : ℝ)).indicator (fun mean => ENNReal.ofReal (density mean)) mean := by
    intro mean
    by_cases hmean : 0 ≤ mean
    · rw [Set.indicator_of_mem (Set.mem_Ici.mpr hmean), gammaPDF_of_nonneg hmean,
        poissonMeasure_singleton, Real.coe_toNNReal _ hmean, ← ENNReal.ofReal_mul (by positivity),
        Real.rpow_one, Real.Gamma_one, div_one, sub_self, Real.rpow_zero, mul_one]
    · rw [Set.indicator_of_notMem (by simpa using hmean), gammaPDF_of_neg (by linarith), zero_mul]
  calc ∫⁻ mean, poissonMeasure mean.toNNReal {k} ∂(gammaMeasure 1 rate)
      = ∫⁻ mean, gammaPDF 1 rate mean * poissonMeasure mean.toNNReal {k} := by
        rw [gammaMeasure, lintegral_withDensity_eq_lintegral_mul₀]
        · rfl
        · exact (measurable_gammaPDFReal 1 rate).ennreal_ofReal.aemeasurable
        · simp only [poissonMeasure_singleton]
          fun_prop
    _ = ∫⁻ mean in Set.Ioi 0, ENNReal.ofReal (density mean) := by
        simp only [hproduct]
        rw [lintegral_indicator measurableSet_Ici]
        exact setLIntegral_congr Ioi_ae_eq_Ici.symm
    _ = ENNReal.ofReal (∫ mean in Set.Ioi 0, density mean) :=
        (ofReal_integral_eq_lintegral_ofReal hintegrable
          ((ae_restrict_iff' measurableSet_Ioi).mpr (ae_of_all _ hnonneg))).symm
    _ = ENNReal.ofReal (rate * (1 / (rate + 1)) ^ (k + 1)) := by rw [hintegral]

/-- **The mixture is geometric.** In terms of the scale `p / (1 - p)` of the gamma distribution. -/
theorem lintegral_poisson_geometric {p : ℝ} (hpos : 0 < p) (hlt : p < 1) (k : ℕ) :
    ∫⁻ mean, poissonMeasure mean.toNNReal {k} ∂(gammaMeasure 1 (p / (1 - p))⁻¹)
      = ENNReal.ofReal (p ^ k * (1 - p)) := by
  have hcomplement : 0 < 1 - p := by linarith
  rw [lintegral_exponential_poisson (by positivity)]
  congr 1
  have hsum : 1 / ((p / (1 - p))⁻¹ + 1) = p := by
    field_simp
    ring
  rw [hsum, inv_div, pow_succ]
  field_simp

theorem ae_pos_gammaMeasure (shape rate : ℝ) : ∀ᵐ mean ∂(gammaMeasure shape rate), 0 < mean := by
  have hset : {mean : ℝ | ¬ 0 < mean} = Set.Iic 0 := by
    ext mean
    exact not_lt
  rw [ae_iff, hset, gammaMeasure, withDensity_apply _ measurableSet_Iic,
    setLIntegral_congr Iio_ae_eq_Iic.symm]
  exact lintegral_gammaPDF_of_nonpos le_rfl

end GammaPoisson
