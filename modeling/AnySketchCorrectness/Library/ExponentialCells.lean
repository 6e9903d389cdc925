import AnySketchCorrectness.Library.TruncatedExponential
import AnySketchCorrectness.Library.ExponentialIntegral
import Mathlib.Analysis.SumIntegralComparisons

/-!
# Cells of the unit interval under a truncated exponential distribution

Points with a truncated exponential distribution fall into `m` equal cells. If they are a Poisson
number, the expected number of cells that are hit is a sum over the cells. The sum is close to an
integral over the interval, however many cells and points there are, and the integral has a closed
form in terms of the exponential integral.
-/

namespace TruncatedExponential

open Real

noncomputable def cdf (rate x : ℝ) : ℝ :=
  (exp rate - exp (rate * (1 - x))) / (exp rate - 1)

noncomputable def density (rate x : ℝ) : ℝ :=
  rate * exp (rate * (1 - x)) / (exp rate - 1)

/-- The fraction of the interval that is hit, when `t` points are expected in it. -/
noncomputable def activeFraction (rate t : ℝ) : ℝ :=
  1 - ∫ x in (0 : ℝ)..1, exp (-(t * density rate x))

variable {rate : ℝ} (hrate : 0 < rate)
include hrate

theorem exp_sub_one_pos : 0 < exp rate - 1 :=
  sub_pos.mpr (one_lt_exp_iff.mpr hrate)

theorem le_quantile_iff {u : ℝ} (hu : u ≤ 1) (x : ℝ) : x ≤ quantile rate u ↔ cdf rate x ≤ u := by
  have hexp := exp_sub_one_pos hrate
  have hpositive : 0 < exp rate + u * (1 - exp rate) := by nlinarith only [hexp, hu]
  rw [quantile, cdf, div_le_iff₀ hexp, le_sub_comm, div_le_iff₀ hrate, log_le_iff_le_exp hpositive,
    mul_comm (1 - x)]
  constructor
  · intro hle
    linarith
  · intro hle
    linarith

omit hrate in
theorem cdf_zero : cdf rate 0 = 0 := by
  rw [cdf, sub_zero, mul_one, sub_self, zero_div]

theorem cdf_one : cdf rate 1 = 1 := by
  rw [cdf, sub_self, mul_zero, exp_zero, div_self (exp_sub_one_pos hrate).ne']

theorem density_pos (x : ℝ) : 0 < density rate x :=
  div_pos (mul_pos hrate (exp_pos _)) (exp_sub_one_pos hrate)

theorem density_antitone : Antitone (density rate) := by
  intro x y hxy
  have hexp := exp_sub_one_pos hrate
  rw [density, density]
  gcongr

/-! ### The chance of a cell -/

theorem cdf_sub_le (x y : ℝ) : cdf rate y - cdf rate x ≤ density rate x * (y - x) := by
  have hexp := exp_sub_one_pos hrate
  have hfactor : exp (rate * (1 - y)) = exp (rate * (1 - x)) * exp (-(rate * (y - x))) := by
    rw [← exp_add]
    congr 1
    ring
  have hlinear := add_one_le_exp (-(rate * (y - x)))
  have hdifference : cdf rate y - cdf rate x
      = exp (rate * (1 - x)) * (1 - exp (-(rate * (y - x)))) / (exp rate - 1) := by
    rw [cdf, cdf, hfactor]
    ring
  rw [hdifference, density, div_mul_eq_mul_div]
  refine div_le_div_of_nonneg_right ?_ hexp.le
  calc exp (rate * (1 - x)) * (1 - exp (-(rate * (y - x))))
      ≤ exp (rate * (1 - x)) * (rate * (y - x)) := by
        refine mul_le_mul_of_nonneg_left ?_ (exp_pos _).le
        linarith
    _ = rate * exp (rate * (1 - x)) * (y - x) := by ring

theorem le_cdf_sub (x y : ℝ) : density rate y * (y - x) ≤ cdf rate y - cdf rate x := by
  have hle := cdf_sub_le hrate y x
  linarith

theorem cdf_mono : Monotone (cdf rate) := by
  intro x y hxy
  have hle := le_cdf_sub hrate x y
  have hdensity := mul_nonneg (density_pos hrate y).le (sub_nonneg.mpr hxy)
  linarith

/-! ### The number of cells that are hit -/

section Active

variable {t : ℝ} (ht : 0 ≤ t)
include ht

theorem exp_neg_density_monotone : Monotone fun x => exp (-(t * density rate x)) := by
  intro x y hxy
  exact exp_le_exp.mpr (neg_le_neg (mul_le_mul_of_nonneg_left (density_antitone hrate hxy) ht))

/-- Both are between the sums over the left ends and over the right ends of the cells. -/
theorem abs_sum_sub_activeFraction_le {m : ℕ} (hm : 0 < m) :
    |∑ i ∈ Finset.range m,
        (1 - exp (-(t * m * (cdf rate ((i + 1 : ℕ) / m) - cdf rate ((i : ℕ) / m)))))
      - m * activeFraction rate t| ≤ 1 := by
  have hcast : (0 : ℝ) < m := by exact_mod_cast hm
  let value : ℝ → ℝ := fun y => exp (-(t * density rate (y / m)))
  have hmonotone : Monotone value := fun x y hxy =>
    exp_neg_density_monotone hrate ht (div_le_div_of_nonneg_right hxy hcast.le)
  have hwidth : ∀ i : ℕ, ((i + 1 : ℕ) : ℝ) / m - (i : ℝ) / m = 1 / m := by
    intro i
    rw [Nat.cast_succ]
    ring
  have hlower : ∀ i : ℕ, value i
      ≤ exp (-(t * m * (cdf rate ((i + 1 : ℕ) / m) - cdf rate ((i : ℕ) / m)))) := by
    intro i
    refine exp_le_exp.mpr (neg_le_neg ?_)
    have hcell := cdf_sub_le hrate ((i : ℝ) / m) (((i + 1 : ℕ) : ℝ) / m)
    rw [hwidth] at hcell
    calc t * m * (cdf rate ((i + 1 : ℕ) / m) - cdf rate ((i : ℕ) / m))
        ≤ t * m * (density rate ((i : ℝ) / m) * (1 / m)) := by gcongr
      _ = t * density rate ((i : ℝ) / m) := by field_simp
  have hupper : ∀ i : ℕ,
      exp (-(t * m * (cdf rate ((i + 1 : ℕ) / m) - cdf rate ((i : ℕ) / m))))
        ≤ value (i + 1 : ℕ) := by
    intro i
    refine exp_le_exp.mpr (neg_le_neg ?_)
    have hcell := le_cdf_sub hrate ((i : ℝ) / m) (((i + 1 : ℕ) : ℝ) / m)
    rw [hwidth] at hcell
    calc t * density rate (((i + 1 : ℕ) : ℝ) / m)
        = t * m * (density rate (((i + 1 : ℕ) : ℝ) / m) * (1 / m)) := by field_simp
      _ ≤ t * m * (cdf rate ((i + 1 : ℕ) / m) - cdf rate ((i : ℕ) / m)) := by gcongr
  have hintegral : ∫ y in (0 : ℝ)..m, value y
      = m * ∫ x in (0 : ℝ)..1, exp (-(t * density rate x)) := by
    have hscale := intervalIntegral.integral_comp_div (a := 0) (b := m)
      (fun x => exp (-(t * density rate x))) hcast.ne'
    rw [zero_div, div_self hcast.ne', smul_eq_mul] at hscale
    exact hscale
  have hleft : ∑ i ∈ Finset.range m, value i ≤ ∫ y in (0 : ℝ)..m, value y := by
    simpa using (hmonotone.monotoneOn (Set.Icc (0 : ℝ) (0 + m))).sum_le_integral
  have hright : ∫ y in (0 : ℝ)..m, value y ≤ ∑ i ∈ Finset.range m, value (i + 1 : ℕ) := by
    simpa using (hmonotone.monotoneOn (Set.Icc (0 : ℝ) (0 + m))).integral_le_sum
  have htelescope : ∑ i ∈ Finset.range m, value (i + 1 : ℕ)
      - ∑ i ∈ Finset.range m, value i ≤ 1 := by
    rw [← Finset.sum_sub_distrib, Finset.sum_range_sub fun i : ℕ => value i]
    have hend : value m ≤ 1 := exp_le_one_iff.mpr
      (neg_nonpos.mpr (mul_nonneg ht (density_pos hrate _).le))
    have hstart : 0 < value (0 : ℕ) := exp_pos _
    linarith
  have hsumLower := Finset.sum_le_sum fun i (_ : i ∈ Finset.range m) => hlower i
  have hsumUpper := Finset.sum_le_sum fun i (_ : i ∈ Finset.range m) => hupper i
  rw [activeFraction, Finset.sum_sub_distrib, Finset.sum_const, Finset.card_range, nsmul_eq_mul,
    mul_one, mul_sub, mul_one, ← hintegral, abs_le]
  constructor
  · linarith
  · linarith

/-! ### The fraction that is hit -/

theorem intervalIntegrable_exp_neg_density :
    IntervalIntegrable (fun x => exp (-(t * density rate x))) MeasureTheory.volume 0 1 :=
  (exp_neg_density_monotone hrate ht).intervalIntegrable

theorem activeFraction_mono {t' : ℝ} (hle : t ≤ t') :
    activeFraction rate t ≤ activeFraction rate t' := by
  refine sub_le_sub_left (intervalIntegral.integral_mono zero_le_one
    (intervalIntegrable_exp_neg_density hrate (ht.trans hle))
    (intervalIntegrable_exp_neg_density hrate ht) fun x => ?_) 1
  exact exp_le_exp.mpr (neg_le_neg (mul_le_mul_of_nonneg_right hle (density_pos hrate x).le))

theorem activeFraction_nonneg : 0 ≤ activeFraction rate t := by
  refine sub_nonneg.mpr ?_
  calc ∫ x in (0 : ℝ)..1, exp (-(t * density rate x)) ≤ ∫ _x in (0 : ℝ)..1, (1 : ℝ) := by
        refine intervalIntegral.integral_mono zero_le_one
          (intervalIntegrable_exp_neg_density hrate ht) intervalIntegrable_const fun x => ?_
        exact exp_le_one_iff.mpr (neg_nonpos.mpr (mul_nonneg ht (density_pos hrate x).le))
    _ = 1 := by simp

theorem activeFraction_lt_one : activeFraction rate t < 1 :=
  sub_lt_self 1 (intervalIntegral.intervalIntegral_pos_of_pos
    (intervalIntegrable_exp_neg_density hrate ht) (fun _ => exp_pos _) zero_lt_one)

/-- The density is least at the right end. -/
theorem le_activeFraction : 1 - exp (-(t * (rate / (exp rate - 1)))) ≤ activeFraction rate t := by
  refine sub_le_sub_left ?_ 1
  calc ∫ x in (0 : ℝ)..1, exp (-(t * density rate x))
      ≤ ∫ _x in (0 : ℝ)..1, exp (-(t * (rate / (exp rate - 1)))) := by
        refine intervalIntegral.integral_mono_on zero_le_one
          (intervalIntegrable_exp_neg_density hrate ht) intervalIntegrable_const fun x hx => ?_
        have hend : density rate 1 = rate / (exp rate - 1) := by
          rw [density, sub_self, mul_zero, exp_zero, mul_one]
        rw [← hend]
        exact exp_neg_density_monotone hrate ht hx.2
    _ = exp (-(t * (rate / (exp rate - 1)))) := by simp

/-- The density is greatest at the left end. -/
theorem activeFraction_le : activeFraction rate t ≤ t * density rate 0 := by
  have hlower : 1 - t * density rate 0 ≤ ∫ x in (0 : ℝ)..1, exp (-(t * density rate x)) := by
    calc 1 - t * density rate 0 = ∫ _x in (0 : ℝ)..1, (1 - t * density rate 0) := by simp
      _ ≤ ∫ x in (0 : ℝ)..1, exp (-(t * density rate x)) := by
          refine intervalIntegral.integral_mono_on zero_le_one intervalIntegrable_const
            (intervalIntegrable_exp_neg_density hrate ht) fun x hx => ?_
          have hdensity := mul_le_mul_of_nonneg_left (density_antitone hrate hx.1) ht
          linarith [one_sub_le_exp_neg (t * density rate x)]
  rw [activeFraction]
  linarith

omit ht in
/-- **The closed form.** -/
theorem activeFraction_eq (ht : 0 < t) :
    activeFraction rate t = 1 - (ExponentialIntegral.negativeEi
        (-(rate * exp rate * t / (exp rate - 1)))
      - ExponentialIntegral.negativeEi (-(rate * t / (exp rate - 1)))) / rate := by
  have hexp := exp_sub_one_pos hrate
  have hscale : 0 < rate * t / (exp rate - 1) := by positivity
  have hintegrand : ∀ x, t * density rate x
      = rate * t / (exp rate - 1) * exp (rate * (1 - x)) := by
    intro x
    rw [density]
    ring
  have hend : rate * exp rate * t / (exp rate - 1) = rate * t / (exp rate - 1) * exp rate := by
    ring
  rw [activeFraction, hend, ← ExponentialIntegral.integral_exp_neg_mul_exp hrate hscale]
  simp only [hintegrand]

end Active

end TruncatedExponential
