import AnySketchCorrectness.Library.DifferentialPrivacy
import Mathlib.Data.Int.Interval

/-!
# Differences of truncated geometric samples

A sample is at most a bound, and the chance of a value falls off geometrically up to there; drawing
it may fail. If a value is hidden behind the difference of two samples, a shift of the value is
hidden too: one of the two samples makes up for it, unless it is too close to its bound.
-/

namespace TruncatedGeometric

open DifferentialPrivacy
open scoped ENNReal

variable {ε γ : Type} {p factor : ℝ≥0∞} {bound : ℤ} {μ : PMF (Except ε ℤ)}

structure IsTruncatedGeometric (μ : PMF (Except ε ℤ)) (p : ℝ≥0∞) (bound : ℤ) : Prop where
  apply_ok : ∀ a, 0 ≤ a → a ≤ bound → μ (.ok a) = μ (.ok 0) * p ^ a.toNat
  apply_eq_zero : ∀ a, ¬ (0 ≤ a ∧ a ≤ bound) → μ (.ok a) = 0

/-- Each of the `k` values within `k` of the bound is about as unlikely as the bound. -/
theorem IsTruncatedGeometric.tail_le (hlaw : IsTruncatedGeometric μ p bound) (hp : p ≤ 1) (k : ℕ) :
    μ.toOuterMeasure {result | ∃ a, result = .ok a ∧ ¬ (0 ≤ a ∧ a + k ≤ bound)}
      ≤ k * p ^ (bound - k).toNat := by
  let near : Finset (Except ε ℤ) :=
    (Finset.Ioc (bound - k) bound).map ⟨Except.ok, fun _ _ heq => Except.ok.inj heq⟩
  have hsubset : {result : Except ε ℤ | ∃ a, result = .ok a ∧ ¬ (0 ≤ a ∧ a + k ≤ bound)}
      ∩ μ.support ⊆ near := by
    rintro result ⟨⟨a, rfl, hfar⟩, hsupport⟩
    have hrange : 0 ≤ a ∧ a ≤ bound := by
      by_contra hout
      exact (PMF.mem_support_iff _ _).mp hsupport (hlaw.apply_eq_zero a hout)
    exact Finset.mem_coe.mpr (Finset.mem_map_of_mem _ (Finset.mem_Ioc.mpr (by omega)))
  have hunlikely : ∀ a ∈ Finset.Ioc (bound - k) bound,
      μ (.ok a) ≤ p ^ (bound - k).toNat := by
    intro a ha
    obtain ⟨hlower, hupper⟩ := Finset.mem_Ioc.mp ha
    by_cases hnonneg : 0 ≤ a
    · calc μ (.ok a) = μ (.ok 0) * p ^ a.toNat := hlaw.apply_ok a hnonneg hupper
        _ ≤ 1 * p ^ a.toNat := by gcongr; exact μ.coe_le_one _
        _ = p ^ a.toNat := one_mul _
        _ ≤ p ^ (bound - k).toNat := pow_le_pow_right_of_le_one' hp (by omega)
    · rw [hlaw.apply_eq_zero a (by omega)]
      exact zero_le
  calc μ.toOuterMeasure {result | ∃ a, result = .ok a ∧ ¬ (0 ≤ a ∧ a + k ≤ bound)}
      ≤ μ.toOuterMeasure near := by
        rw [← PMF.toOuterMeasure_apply_inter_support]
        exact MeasureTheory.measure_mono hsubset
    _ = ∑ a ∈ Finset.Ioc (bound - k) bound, μ (.ok a) := by
        rw [PMF.toOuterMeasure_apply_finset, Finset.sum_map]
        rfl
    _ ≤ ∑ _a ∈ Finset.Ioc (bound - k) bound, p ^ (bound - k).toNat := Finset.sum_le_sum hunlikely
    _ = k * p ^ (bound - k).toNat := by
        rw [Finset.sum_const, Int.card_Ioc, nsmul_eq_mul]
        congr 2
        omega

/-- What is observed of a sample is observed of a sample that is larger by `k`. -/
theorem IsTruncatedGeometric.indistinguishable_shift (hlaw : IsTruncatedGeometric μ p bound)
    (hp : p ≤ 1) {k : ℕ} (hfactor : 1 ≤ factor * p ^ k) {f g : Except ε ℤ → γ}
    (hok : ∀ a : ℤ, f (.ok a) = g (.ok (a + k))) (herror : ∀ e, f (.error e) = g (.error e)) :
    Indistinguishable factor (k * p ^ (bound - k).toNat) (μ.map f) (μ.map g) := by
  refine indistinguishable_of_match {result | ∃ a, result = .ok a ∧ ¬ (0 ≤ a ∧ a + k ≤ bound)}ᶜ
    (Except.map (· + (k : ℤ))) ?_ ?_ ?_ ?_
  · rintro (e | a) - (e' | a') - heq
    · exact congrArg Except.error (Except.error.inj heq)
    · cases heq
    · cases heq
    · exact congrArg Except.ok (add_right_cancel (Except.ok.inj heq))
  · rintro (e | a) -
    · exact herror e
    · exact hok a
  · have hone : 1 ≤ factor :=
      hfactor.trans (by
        calc factor * p ^ k ≤ factor * 1 := by gcongr; exact pow_le_one' hp k
          _ = factor := mul_one _)
    rintro (e | a) hgood
    · calc μ (.error e) = 1 * μ (.error e) := (one_mul _).symm
        _ ≤ factor * μ (.error e) := by gcongr
    · have hrange : 0 ≤ a ∧ a + k ≤ bound := by
        by_contra hfar
        exact hgood ⟨a, rfl, hfar⟩
      have htoNat : (a + k).toNat = a.toNat + k := by omega
      calc μ (.ok a) = 1 * (μ (.ok 0) * p ^ a.toNat) := by
            rw [one_mul, hlaw.apply_ok a hrange.1 (by omega)]
        _ ≤ factor * p ^ k * (μ (.ok 0) * p ^ a.toNat) := by gcongr
        _ = factor * (μ (.ok 0) * p ^ (a + k).toNat) := by
            rw [htoNat, pow_add]
            ring
        _ = factor * μ (.ok (a + k)) := by
            rw [hlaw.apply_ok (a + k) (by omega) hrange.2]
  · rw [compl_compl]
    exact hlaw.tail_le hp k

/-- The value plus the first sample minus the second one. The first error counts. -/
def hide (value : ℤ) : Except ε ℤ → Except ε ℤ → Except ε ℤ
  | .ok a, .ok b => .ok (value + a - b)
  | .error e, _ => .error e
  | .ok _, .error e => .error e

noncomputable def hiddenLaw (μ : PMF (Except ε ℤ)) (value : ℤ) : PMF (Except ε ℤ) :=
  μ.bind fun first => μ.map fun second => hide value first second

/-- **Neighbouring values are hidden.** A larger value is made up for by the second sample, a
smaller one by the first. -/
theorem IsTruncatedGeometric.indistinguishable_hidden (hlaw : IsTruncatedGeometric μ p bound)
    (hp : p ≤ 1) {value value' : ℤ} (hfactor : 1 ≤ factor * p ^ (value - value').natAbs) :
    Indistinguishable factor
      ((value - value').natAbs * p ^ (bound - (value - value').natAbs).toNat)
      (hiddenLaw μ value) (hiddenLaw μ value') := by
  generalize hk : (value - value').natAbs = k at hfactor ⊢
  rcases le_total value value' with hle | hle
  · refine Indistinguishable.bind (fun first => ?_) μ
    refine hlaw.indistinguishable_shift hp hfactor (fun b => ?_) fun e => ?_
    · cases first with
      | error e => rfl
      | ok a =>
          refine congrArg Except.ok ?_
          omega
    · cases first with
      | error e' => rfl
      | ok a => rfl
  · have hswap : ∀ value, hiddenLaw μ value
        = μ.bind fun second => μ.map fun first => hide value first second := fun value =>
      PMF.bind_comm μ μ fun first second => PMF.pure (hide value first second)
    rw [hswap, hswap]
    refine Indistinguishable.bind (fun second => ?_) μ
    refine hlaw.indistinguishable_shift hp hfactor (fun a => ?_) fun e => ?_
    · cases second with
      | error e => rfl
      | ok b =>
          refine congrArg Except.ok ?_
          omega
    · cases second with
      | error e' => rfl
      | ok b => rfl

end TruncatedGeometric
