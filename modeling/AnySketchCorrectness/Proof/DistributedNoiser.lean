import AnySketchCorrectness.DistributedNoiser
import Mathlib.Data.UInt
import Mathlib.Algebra.Group.Nat.Defs

/-!
# The noise is not negative

The noise is the shift plus the difference of two samples. Neither sample is negative, and neither
is above the threshold, so a shift that is the threshold makes up for the sample that is subtracted.
-/

namespace AnySketchCorrectness.DistributedGeometricNoiser

open StateInvariant

variable {Double Rng : Type} [Sub Double] [Div Double] [OfScientific Double] [LE Double]
  [DecidableLE Double] {rand : RandSource Rng} {distributions : RandomDistributions Double Rng}

/-! ### One sample -/

section Samples

variable (hpoisson : ∀ mean rng, 0 ≤ (distributions.poissonDistribution mean rng).1)
include hpoisson

theorem getPolyaRandomVariable_nonneg (r p : Double) :
    Keeps (fun _ => True) (getPolyaRandomVariable distributions r p)
      fun polya => 0 ≤ polya.toInt := by
  unfold getPolyaRandomVariable
  split
  · exact keeps_bind (Q := fun _ => False) (keeps_throw _) fun _ hfalse => hfalse.elim
  · refine keeps_bind (Q := fun _ => True) (keeps_modifyGet fun _ _ => ⟨trivial, trivial⟩)
      fun mean _ => ?_
    refine keeps_bind (keeps_modifyGet fun rng _ => ⟨trivial, hpoisson mean rng⟩)
      fun polya hnonneg => keeps_pure ?_
    rw [Int32.toInt_toInt64]
    rwa [Int32.le_iff_toInt_le, Int32.toInt_zero] at hnonneg

/-- Without a negative threshold, what comes out of the attempts is a sample that is accepted. -/
theorem getTruncatedPolyaRandomVariable_bounds {truncateThreshold : Int64}
    (hthreshold : 0 ≤ truncateThreshold.toInt) (r p : Double) :
    Keeps (fun _ => True) (getTruncatedPolyaRandomVariable distributions truncateThreshold r p)
      fun polya => 0 ≤ polya.toInt ∧ polya.toInt ≤ truncateThreshold.toInt := by
  unfold getTruncatedPolyaRandomVariable
  have htruncates : ¬ truncateThreshold < 0 := by
    rw [Int64.lt_iff_toInt_lt, Int64.toInt_zero]
    omega
  rw [if_neg htruncates]
  refine (Attempts.keeps_firstAccepted (getPolyaRandomVariable_nonneg hpoisson r p) _ _ _).mono ?_
  rintro polya ⟨hnonneg, haccept⟩
  exact ⟨hnonneg, Int64.le_iff_toInt_le.mp (of_decide_eq_true haccept)⟩

end Samples

/-! ### The noise -/

/-- Nothing wraps around when the shift and the threshold leave room for each other. -/
theorem noise_bounds {shiftOffset truncateThreshold polyaA polyaB : Int64}
    (hshift : 0 ≤ shiftOffset.toInt)
    (hroom : shiftOffset.toInt + truncateThreshold.toInt < 2 ^ 63)
    (hA : 0 ≤ polyaA.toInt ∧ polyaA.toInt ≤ truncateThreshold.toInt)
    (hB : 0 ≤ polyaB.toInt ∧ polyaB.toInt ≤ truncateThreshold.toInt) :
    shiftOffset.toInt - truncateThreshold.toInt ≤ (shiftOffset + polyaA - polyaB).toInt ∧
    (shiftOffset + polyaA - polyaB).toInt ≤ shiftOffset.toInt + truncateThreshold.toInt := by
  obtain ⟨hAnonneg, hAle⟩ := hA
  obtain ⟨hBnonneg, hBle⟩ := hB
  have hsum : (shiftOffset + polyaA).toInt = shiftOffset.toInt + polyaA.toInt := by
    rw [Int64.toInt_add]
    exact Int.bmod_eq_of_le (by omega) (by omega)
  have hnoise : (shiftOffset + polyaA - polyaB).toInt
      = shiftOffset.toInt + polyaA.toInt - polyaB.toInt := by
    rw [Int64.toInt_sub, hsum]
    exact Int.bmod_eq_of_le (by omega) (by omega)
  rw [hnoise]
  omega

variable [IntCast Double]

theorem generateNoiseComponent_bounds
    (hpoisson : ∀ mean rng, 0 ≤ (distributions.poissonDistribution mean rng).1)
    {options : DistributedGeometricNoiseComponentOptions Double}
    (hthreshold : 0 ≤ options.truncateThreshold.toInt) (hshift : 0 ≤ options.shiftOffset.toInt)
    (hroom : options.shiftOffset.toInt + options.truncateThreshold.toInt < 2 ^ 63) :
    Keeps (fun _ => True) (generateNoiseComponent rand distributions options) fun noise =>
      options.shiftOffset.toInt - options.truncateThreshold.toInt ≤ noise.toInt ∧
      noise.toInt ≤ options.shiftOffset.toInt + options.truncateThreshold.toInt := by
  unfold generateNoiseComponent
  split
  · exact keeps_bind (Q := fun _ => False) (keeps_throw _) fun _ hfalse => hfalse.elim
  refine keeps_bind keeps_get fun rng _ => ?_
  split
  · exact keeps_bind (Q := fun _ => False) (keeps_throw _) fun _ hfalse => hfalse.elim
  have htruncated : Keeps (fun _ => True) (getTruncatedPolyaRandomVariable distributions
      options.truncateThreshold (1.0 / (options.contributorCount.toInt : Double)) options.p) _ :=
    getTruncatedPolyaRandomVariable_bounds hpoisson hthreshold _ _
  exact keeps_bind htruncated fun polyaA hA => keeps_bind htruncated fun polyaB hB =>
    keeps_pure (noise_bounds hshift hroom hA hB)

variable [Add Double] [Mul Double] [Neg Double]

/-- The options for publishers use one `int` as threshold and as shift. -/
theorem generateNoiseComponent_publisher_bounds
    (hpoisson : ∀ mean rng, 0 ≤ (distributions.poissonDistribution mean rng).1)
    {cmath : Cmath Double} {params : DifferentialPrivacyParams Double} {publisherCount : Int32}
    (hoffset : 0 ≤ (getGeometricPublisherNoiseOptions cmath params publisherCount).shiftOffset) :
    Keeps (fun _ => True) (generateNoiseComponent rand distributions
      (getGeometricPublisherNoiseOptions cmath params publisherCount)) fun noise =>
        0 ≤ noise.toInt ∧ noise.toInt ≤ 2 * (getGeometricPublisherNoiseOptions cmath params
          publisherCount).shiftOffset.toInt := by
  set options := getGeometricPublisherNoiseOptions cmath params publisherCount with hoptions
  rw [Int64.le_iff_toInt_le, Int64.toInt_zero] at hoffset
  have hthreshold : options.truncateThreshold = options.shiftOffset := rfl
  have hlt : options.shiftOffset.toInt < 2 ^ 31 := by
    rw [hoptions, getGeometricPublisherNoiseOptions, Int32.toInt_toInt64]
    exact Int32.toInt_lt _
  refine (generateNoiseComponent_bounds hpoisson (hthreshold ▸ hoffset) hoffset
    (by rw [hthreshold]; omega)).mono ?_
  rintro noise ⟨hlower, hupper⟩
  rw [hthreshold] at hlower hupper
  omega

end AnySketchCorrectness.DistributedGeometricNoiser
