import Mathlib.Probability.ProbabilityMassFunction.Constructions
import Mathlib.Probability.Distributions.Uniform

/-!
# Laws that are nearly the same

Two laws are near if no event is much more likely under one of them. It is enough that no single
outcome is much rarer under the first law than under the second: what is missing there in total is
all that other outcomes can have in excess.
-/

namespace StatisticalDistance

open scoped ENNReal

variable {α β : Type} {ε ε' : ℝ≥0∞} {left between right : PMF α}

/-- The chances of an event differ by at most `ε`. -/
def Near (ε : ℝ≥0∞) (left right : PMF α) : Prop :=
  ∀ event : Set α, left.toOuterMeasure event ≤ right.toOuterMeasure event + ε ∧
    right.toOuterMeasure event ≤ left.toOuterMeasure event + ε

theorem Near.symm (hnear : Near ε left right) : Near ε right left :=
  fun event => (hnear event).symm

theorem Near.trans (hfirst : Near ε left between) (hsecond : Near ε' between right) :
    Near (ε + ε') left right := by
  intro event
  obtain ⟨hfirstLe, hfirstGe⟩ := hfirst event
  obtain ⟨hsecondLe, hsecondGe⟩ := hsecond event
  constructor
  · calc left.toOuterMeasure event ≤ between.toOuterMeasure event + ε := hfirstLe
      _ ≤ right.toOuterMeasure event + ε' + ε := by gcongr
      _ = right.toOuterMeasure event + (ε + ε') := by rw [add_assoc, add_comm ε']
  · calc right.toOuterMeasure event ≤ between.toOuterMeasure event + ε' := hsecondGe
      _ ≤ left.toOuterMeasure event + ε + ε' := by gcongr
      _ = left.toOuterMeasure event + (ε + ε') := add_assoc _ _ _

theorem Near.map (hnear : Near ε left right) (f : α → β) : Near ε (left.map f) (right.map f) := by
  intro event
  rw [PMF.toOuterMeasure_map_apply, PMF.toOuterMeasure_map_apply]
  exact hnear _

theorem toOuterMeasure_add_compl (law : PMF α) (event : Set α) :
    law.toOuterMeasure event + law.toOuterMeasure eventᶜ = 1 := by
  rw [PMF.toOuterMeasure_apply, PMF.toOuterMeasure_apply, ← ENNReal.tsum_add, ← law.tsum_coe]
  exact tsum_congr fun a => congrFun (Set.indicator_self_add_compl event law) a

theorem toOuterMeasure_le_one (law : PMF α) (event : Set α) : law.toOuterMeasure event ≤ 1 :=
  le_self_add.trans_eq (toOuterMeasure_add_compl law event)

/-- **No outcome is much rarer.** -/
theorem near_of_le (hle : ∀ a, right a ≤ left a + ε * right a) : Near ε left right := by
  have hevent : ∀ event : Set α,
      right.toOuterMeasure event ≤ left.toOuterMeasure event + ε := by
    intro event
    calc right.toOuterMeasure event
        ≤ left.toOuterMeasure event + ε * right.toOuterMeasure event := by
          simp only [PMF.toOuterMeasure_apply]
          rw [← ENNReal.tsum_mul_left, ← ENNReal.tsum_add]
          refine ENNReal.tsum_le_tsum fun a => ?_
          by_cases ha : a ∈ event
          · simpa [ha] using hle a
          · simp [ha]
      _ ≤ left.toOuterMeasure event + ε * 1 := by
          gcongr
          exact toOuterMeasure_le_one right event
      _ = left.toOuterMeasure event + ε := by rw [mul_one]
  intro event
  refine ⟨?_, hevent event⟩
  -- what the event has in excess, its complement lacks
  have hfinite : left.toOuterMeasure eventᶜ ≠ ⊤ :=
    ne_top_of_le_ne_top ENNReal.one_ne_top (toOuterMeasure_le_one left _)
  refine (ENNReal.add_le_add_iff_right hfinite).mp ?_
  calc left.toOuterMeasure event + left.toOuterMeasure eventᶜ
      = right.toOuterMeasure event + right.toOuterMeasure eventᶜ := by
        rw [toOuterMeasure_add_compl, toOuterMeasure_add_compl]
    _ ≤ right.toOuterMeasure event + (left.toOuterMeasure eventᶜ + ε) := by
        gcongr
        exact hevent eventᶜ
    _ = right.toOuterMeasure event + ε + left.toOuterMeasure eventᶜ := by
        rw [add_comm (left.toOuterMeasure eventᶜ), add_assoc]

end StatisticalDistance
