import Mathlib.Probability.ProbabilityMassFunction.Constructions
import Mathlib.Topology.Algebra.InfiniteSum.ENNReal

/-!
# Laws that can hardly be told apart

One law is indistinguishable from another if every event is at most a factor more likely under it,
up to a slack. Differential privacy asks this of the outputs for neighbouring inputs. It survives
whatever is computed from an output, and it can be shown by matching the outcomes one by one.
-/

namespace DifferentialPrivacy

open scoped ENNReal

variable {α β γ : Type} {factor slack : ℝ≥0∞}

def Indistinguishable (factor slack : ℝ≥0∞) (μ ν : PMF α) : Prop :=
  ∀ event : Set α, μ.toOuterMeasure event ≤ factor * ν.toOuterMeasure event + slack

theorem toOuterMeasure_le_one (μ : PMF α) (event : Set α) : μ.toOuterMeasure event ≤ 1 := by
  calc μ.toOuterMeasure event ≤ μ.toOuterMeasure Set.univ :=
        MeasureTheory.measure_mono (Set.subset_univ event)
    _ = 1 := (PMF.toOuterMeasure_apply_eq_one_iff _ _).mpr (Set.subset_univ _)

theorem Indistinguishable.map {μ ν : PMF α} (hclose : Indistinguishable factor slack μ ν)
    (f : α → β) : Indistinguishable factor slack (μ.map f) (ν.map f) := by
  intro event
  rw [PMF.toOuterMeasure_map_apply, PMF.toOuterMeasure_map_apply]
  exact hclose _

/-- A common choice may come first. -/
theorem Indistinguishable.bind {μ ν : γ → PMF α}
    (hclose : ∀ c, Indistinguishable factor slack (μ c) (ν c)) (law : PMF γ) :
    Indistinguishable factor slack (law.bind μ) (law.bind ν) := by
  intro event
  calc (law.bind μ).toOuterMeasure event
      = tsum fun c => law c * (μ c).toOuterMeasure event := PMF.toOuterMeasure_bind_apply ..
    _ ≤ tsum fun c => law c * (factor * (ν c).toOuterMeasure event + slack) := by
        gcongr with c
        exact hclose c event
    _ = factor * (tsum fun c => law c * (ν c).toOuterMeasure event) + slack := by
        simp only [mul_add]
        rw [ENNReal.tsum_add, ENNReal.tsum_mul_right, PMF.tsum_coe, one_mul,
          ← ENNReal.tsum_mul_left]
        congr 2
        funext c
        ring
    _ = factor * (law.bind ν).toOuterMeasure event + slack := by
        rw [PMF.toOuterMeasure_bind_apply]

/-- **Matching outcomes.** The good outcomes are matched one to one with outcomes that are observed
alike and are not much less likely; the others are unlikely. -/
theorem indistinguishable_of_match {μ : PMF α} {ν : PMF β} {f : α → γ} {g : β → γ}
    (good : Set α) (partner : α → β) (hinjective : Set.InjOn partner good)
    (hobserved : ∀ a ∈ good, f a = g (partner a))
    (hlikely : ∀ a ∈ good, μ a ≤ factor * ν (partner a))
    (hbad : μ.toOuterMeasure (goodᶜ) ≤ slack) :
    Indistinguishable factor slack (μ.map f) (ν.map g) := by
  intro event
  rw [PMF.toOuterMeasure_map_apply, PMF.toOuterMeasure_map_apply]
  let matched : Set α := Set.preimage f event ∩ good
  have hmatched : μ.toOuterMeasure matched ≤ factor * ν.toOuterMeasure (Set.preimage g event) := by
    let partnerOf : matched → Set.preimage g event := fun a => ⟨partner a, by
      rw [Set.mem_preimage, ← hobserved a a.2.2]
      exact a.2.1⟩
    have hpartnerOf : Function.Injective partnerOf := fun a a' heq =>
      Subtype.ext (hinjective a.2.2 a'.2.2 (congrArg Subtype.val heq))
    calc μ.toOuterMeasure matched = tsum fun a : matched => μ a := by
          rw [PMF.toOuterMeasure_apply, tsum_subtype]
      _ ≤ tsum fun a : matched => factor * ν (partnerOf a) := by
          gcongr with a
          exact hlikely a a.2.2
      _ = factor * tsum fun a : matched => ν (partnerOf a) := ENNReal.tsum_mul_left
      _ ≤ factor * tsum fun b : Set.preimage g event => ν b := by
          gcongr
          exact ENNReal.tsum_comp_le_tsum_of_injective hpartnerOf
            fun b : Set.preimage g event => ν b
      _ = factor * ν.toOuterMeasure (Set.preimage g event) := by
          rw [PMF.toOuterMeasure_apply, tsum_subtype]
  calc μ.toOuterMeasure (Set.preimage f event)
      ≤ μ.toOuterMeasure (matched ∪ goodᶜ) := by
        refine MeasureTheory.measure_mono fun a ha => ?_
        by_cases hgood : a ∈ good
        · exact Or.inl ⟨ha, hgood⟩
        · exact Or.inr hgood
    _ ≤ μ.toOuterMeasure matched + μ.toOuterMeasure (goodᶜ) :=
        MeasureTheory.measure_union_le _ _
    _ ≤ factor * ν.toOuterMeasure (Set.preimage g event) + slack := add_le_add hmatched hbad

end DifferentialPrivacy
