import Mathlib.Analysis.SpecialFunctions.ImproperIntegrals

/-!
# The exponential integral

For a negative argument the exponential integral is the integral of `exp (-v) / v` over a half-line,
with the sign changed. A difference of two of them is what is left of an exponential that is itself
in an exponent.
-/

namespace ExponentialIntegral

open MeasureTheory intervalIntegral Real

/-- `Ei`, for negative arguments. -/
noncomputable def negativeEi (x : ℝ) : ℝ :=
  -∫ v in Set.Ioi (-x), exp (-v) / v

theorem integrableOn_exp_neg_div {s : ℝ} (hs : 0 < s) :
    IntegrableOn (fun v => exp (-v) / v) (Set.Ioi s) := by
  have hbound : IntegrableOn (fun v => s⁻¹ * exp (-v)) (Set.Ioi s) := by
    have hexp := integrableOn_exp_neg_Ioi s
    exact hexp.const_mul s⁻¹
  refine Integrable.mono' hbound ?_ ?_
  · exact (measurable_neg.exp.div measurable_id).aestronglyMeasurable
  · refine (ae_restrict_iff' measurableSet_Ioi).mpr (ae_of_all _ fun v hv => ?_)
    have hv : s < v := hv
    rw [norm_of_nonneg (div_nonneg (exp_pos _).le (hs.trans hv).le), div_eq_inv_mul]
    gcongr

theorem negativeEi_sub {s s' : ℝ} (hs : 0 < s) (hle : s ≤ s') :
    negativeEi (-s') - negativeEi (-s) = ∫ v in s..s', exp (-v) / v := by
  rw [negativeEi, negativeEi, neg_neg, neg_neg, neg_sub_neg,
    integral_Ioi_sub_Ioi (integrableOn_exp_neg_div hs) hle]

/-- The substitution `v = s * exp (rate * (1 - x))`. -/
theorem integral_exp_neg_mul_exp {rate s : ℝ} (hrate : 0 < rate) (hs : 0 < s) :
    ∫ x in (0 : ℝ)..1, exp (-(s * exp (rate * (1 - x))))
      = (negativeEi (-(s * exp rate)) - negativeEi (-s)) / rate := by
  let substitution : ℝ → ℝ := fun x => s * exp (rate * (1 - x))
  have hderiv : ∀ x ∈ Set.uIcc (0 : ℝ) 1,
      HasDerivAt substitution (-rate * substitution x) x := by
    intro x _
    have hlinear : HasDerivAt (fun x : ℝ => rate * (1 - x)) (-rate) x := by
      have := ((hasDerivAt_id x).const_sub 1).const_mul rate
      simpa using this
    refine (hlinear.exp.const_mul s).congr_deriv ?_
    change _ = -rate * (s * exp (rate * (1 - x)))
    ring
  have hpositive : ∀ x, 0 < substitution x := fun x => mul_pos hs (exp_pos _)
  have hchange := integral_comp_mul_deriv' hderiv
    (by fun_prop) (show ContinuousOn (fun v => exp (-v) / v) _ by
      refine ContinuousOn.div (by fun_prop) continuousOn_id ?_
      rintro v ⟨x, -, rfl⟩
      exact (hpositive x).ne')
  have hintegrand : ∀ x : ℝ, ((fun v => exp (-v) / v) ∘ substitution) x * (-rate * substitution x)
      = -rate * exp (-(s * exp (rate * (1 - x)))) := by
    intro x
    have := (hpositive x).ne'
    simp only [Function.comp_apply]
    field_simp
    rfl
  simp only [hintegrand] at hchange
  have hzero : substitution 0 = s * exp rate := by
    simp [substitution]
  have hone : substitution 1 = s := by
    simp [substitution]
  rw [intervalIntegral.integral_const_mul, hzero, hone, integral_symm s] at hchange
  rw [negativeEi_sub hs (le_mul_of_one_le_right hs.le (one_le_exp hrate.le)), eq_div_iff hrate.ne']
  linarith

end ExponentialIntegral
