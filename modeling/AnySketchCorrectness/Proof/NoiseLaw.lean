import AnySketchCorrectness.NoiseLaw
import AnySketchCorrectness.Library.GammaPoisson
import AnySketchCorrectness.Library.TruncatedGeometric
import Mathlib.Data.UInt

/-!
# The law of the noise

A sample of the noiser is a Poisson count with an exponential mean, which is a geometric count, and
the attempts truncate it. The noise is the difference of two such samples, shifted, so a count with
noise is hidden behind the difference.
-/

namespace AnySketchCorrectness.DistributedGeometricNoiser

open MeasureTheory ProbabilityTheory RandomSource StateInvariant Attempts TruncatedGeometric
open scoped ENNReal

instance countable_int32 : Countable Int32 :=
  Function.Injective.countable fun _ _ => Int32.toInt.inj

instance countable_int64 : Countable Int64 :=
  Function.Injective.countable fun _ _ => Int64.toInt.inj

/-! ### One sample -/

section Sample

variable {Rng : Type} (distributions : RandomDistributions ℝ Rng)

/-- The two draws behind a sample. -/
noncomputable def polyaDraw (r p : ℝ) (rng : Rng) : Int64 × Rng :=
  let mean := distributions.gammaDistribution r (p / (1.0 - p)) rng
  let polya := distributions.poissonDistribution mean.1 mean.2
  (polya.1.toInt64, polya.2)

theorem getPolyaRandomVariable_eq (r : ℝ) {p : ℝ} (hpos : 0 < p) (hlt : p < 1) :
    getPolyaRandomVariable distributions r p = modifyGet (polyaDraw distributions r p) := by
  have hvalid : ¬ (p ≤ 0.0 ∨ 1.0 ≤ p) := by
    norm_num
    exact ⟨hpos, hlt⟩
  unfold getPolyaRandomVariable
  rw [if_neg hvalid]
  rfl

end Sample

theorem toInt_intOfCount (count : ℕ) :
    (intOfCount count).toInt64.toInt = min count (2 ^ 31 - 1) := by
  rw [Int32.toInt_toInt64, intOfCount, Int32.toInt_ofNat_of_lt (by omega)]

noncomputable def polyaLaw (success : unitInterval) : PMF Int64 :=
  (geometricMeasure success).toPMF.map fun count => (intOfCount count).toInt64

theorem polyaLaw_apply {success : unitInterval} (hsuccess : success ≠ 0) {a : Int64}
    (hnonneg : 0 ≤ a.toInt) (hlt : a.toInt < 2 ^ 31 - 1) :
    polyaLaw success a = ENNReal.ofReal ((1 - success) ^ a.toInt.toNat * success) := by
  have hevent : {count : ℕ | a = (intOfCount count).toInt64} = {a.toInt.toNat} := by
    ext count
    rw [Set.mem_ofPred_eq, ← Int64.toInt_inj, toInt_intOfCount, Set.mem_singleton_iff]
    omega
  rw [polyaLaw, map_apply_eq_tsum, hevent, tsum_singleton, Measure.toPMF_apply,
    geometricMeasure_singleton hsuccess]

theorem polyaLaw_eq_zero (success : unitInterval) {a : Int64} (hneg : a.toInt < 0) :
    polyaLaw success a = 0 := by
  have hevent : {count : ℕ | a = (intOfCount count).toInt64} = ∅ := by
    refine Set.eq_empty_of_forall_notMem fun count hcount => ?_
    rw [Set.mem_ofPred_eq, ← Int64.toInt_inj, toInt_intOfCount] at hcount
    omega
  rw [polyaLaw, map_apply_eq_tsum, hevent, tsum_empty]

section Sample

variable {Rng : Type} [MeasurableSpace Rng] {source : ℕ → Measure Rng}
  [∀ n, IsProbabilityMeasure (source n)] {distributions : RandomDistributions ℝ Rng}

theorem draws_polyaDraw (hsamples : SamplesFrom source distributions) {success : unitInterval}
    (hpos : 0 < success) (hlt : success < 1) :
    Draws (fun n => source (2 * n)) (polyaDraw distributions 1 (1 - success))
      (polyaLaw success) := by
  have hfailure : (0 : ℝ) < 1 - success := by
    have : (success : ℝ) < 1 := hlt
    linarith
  have hfailureLt : (1 - success : ℝ) < 1 := by
    have : (0 : ℝ) < success := hpos
    linarith
  have hscale : (0 : ℝ) < (1 - success) / (1.0 - (1 - success)) := by
    norm_num
    exact div_pos hfailure hpos
  have := isProbabilityMeasure_gammaMeasure one_pos (inv_pos.mpr hscale)
  have hmixture : ∀ sample, ∫⁻ mean, poissonLaw mean sample
      ∂(gammaMeasure 1 ((1 - success : ℝ) / (1.0 - (1 - success)))⁻¹)
        = (geometricMeasure success).toPMF.map intOfCount sample := by
    refine lintegral_map_apply (fun count => ?_) fun count => ?_
    · simp only [Measure.toPMF_apply, poissonMeasure_singleton]
      fun_prop
    · simp only [Measure.toPMF_apply]
      rw [geometricMeasure_singleton hpos.ne',
        show (1.0 : ℝ) - (1 - success) = 1 - (1 - success) by norm_num,
        GammaPoisson.lintegral_poisson_geometric hfailure hfailureLt, sub_sub_cancel]
  intro n
  have hdraw := (independentDraw_mixture (hsamples.gamma 1 _ one_pos hscale (2 * n + 1))
    hsamples.poisson_measurable ((GammaPoisson.ae_pos_gammaMeasure _ _).mono fun mean hmean =>
      hsamples.poisson mean hmean (2 * n)) hmixture).map Int32.toInt64
  rw [PMF.map_comp] at hdraw
  exact hdraw

end Sample

/-! ### One truncated sample -/

noncomputable def truncatedPolyaLaw (truncateThreshold : Int64) (success : unitInterval) :
    PMF (StatusOr Int64) :=
  firstAcceptedLaw (polyaLaw success) (fun polya => polya ≤ truncateThreshold)
    (.internal "Failed to create the polya random variable within the attempt limit.")
    maximumAttempts

theorem truncatedPolyaLaw_ok (success : unitInterval) {truncateThreshold a : Int64}
    (hle : a ≤ truncateThreshold) :
    truncatedPolyaLaw truncateThreshold success (.ok a) = polyaLaw success a
      * ∑ i ∈ Finset.range maximumAttempts,
          rejection (polyaLaw success) (fun polya => polya ≤ truncateThreshold) ^ i := by
  rw [truncatedPolyaLaw]
  exact firstAcceptedLaw_ok _ (fun polya : Int64 => decide (polya ≤ truncateThreshold)) _
    (decide_eq_true hle) _

/-- A sample that comes out is in range. -/
theorem truncatedPolyaLaw_eq_zero (success : unitInterval) {truncateThreshold a : Int64}
    (hout : ¬ (0 ≤ a.toInt ∧ a.toInt ≤ truncateThreshold.toInt)) :
    truncatedPolyaLaw truncateThreshold success (.ok a) = 0 := by
  by_cases hle : a ≤ truncateThreshold
  · have hneg : a.toInt < 0 := by
      rw [Int64.le_iff_toInt_le] at hle
      omega
    rw [truncatedPolyaLaw_ok success hle, polyaLaw_eq_zero success hneg, zero_mul]
  · refine firstAcceptedLaw_eq_zero _ _ _ (by rintro ⟨⟩) (fun b haccept heq => ?_) _
    rw [← Except.ok.inj heq] at haccept
    exact hle (of_decide_eq_true haccept)

noncomputable def sampleLaw (truncateThreshold : Int64) (success : unitInterval) :
    PMF (StatusOr ℤ) :=
  (truncatedPolyaLaw truncateThreshold success).map (Except.map Int64.toInt)

theorem sampleLaw_ok (truncateThreshold : Int64) (success : unitInterval) (a : Int64) :
    sampleLaw truncateThreshold success (.ok a.toInt)
      = truncatedPolyaLaw truncateThreshold success (.ok a) := by
  have hevent : {result : StatusOr Int64 | .ok a.toInt = Except.map Int64.toInt result}
      = {.ok a} := by
    ext result
    rw [Set.mem_ofPred_eq, Set.mem_singleton_iff]
    cases result with
    | error e => constructor <;> rintro ⟨⟩
    | ok b =>
        constructor
        · intro heq
          exact congrArg Except.ok (Int64.toInt.inj (Except.ok.inj heq)).symm
        · rintro ⟨⟩
          rfl
  rw [sampleLaw, map_apply_eq_tsum, hevent, tsum_singleton]

theorem isTruncatedGeometric_sampleLaw {truncateThreshold : Int64} {success : unitInterval}
    (hsuccess : success ≠ 0) (hnonneg : 0 ≤ truncateThreshold.toInt)
    (hfits : truncateThreshold.toInt < 2 ^ 31 - 1) :
    IsTruncatedGeometric (sampleLaw truncateThreshold success) (ENNReal.ofReal (1 - success))
      truncateThreshold.toInt := by
  have hfailure : (0 : ℝ) ≤ 1 - success := sub_nonneg.mpr success.2.2
  constructor
  · intro a ha hle
    obtain ⟨a, rfl⟩ : ∃ a' : Int64, a'.toInt = a :=
      ⟨Int64.ofInt a, Int64.toInt_ofInt_of_le (by omega) (by omega)⟩
    have hzero : (0 : ℤ) = (0 : Int64).toInt := rfl
    have hzeroLe : 0 ≤ truncateThreshold := Int64.le_iff_toInt_le.mpr hnonneg
    rw [hzero, sampleLaw_ok, sampleLaw_ok, truncatedPolyaLaw_ok success
      (Int64.le_iff_toInt_le.mpr hle), truncatedPolyaLaw_ok success hzeroLe,
      polyaLaw_apply hsuccess ha (by omega), polyaLaw_apply hsuccess le_rfl (by decide),
      ENNReal.ofReal_mul (by positivity), ENNReal.ofReal_mul (by positivity),
      ENNReal.ofReal_pow hfailure, ENNReal.ofReal_pow hfailure]
    simp only [Int64.toInt_zero, Int.toNat_zero, pow_zero]
    ring
  · intro a hout
    by_cases hint : ∃ a' : Int64, a'.toInt = a
    · obtain ⟨a, rfl⟩ := hint
      rw [sampleLaw_ok, truncatedPolyaLaw_eq_zero success hout]
    · refine (PMF.apply_eq_zero_iff _ _).mpr fun hsupport => ?_
      obtain ⟨result, -, hresult⟩ := (PMF.mem_support_map_iff _ _ _).mp hsupport
      cases result with
      | error e => cases hresult
      | ok b => exact hint ⟨b, Except.ok.inj hresult⟩

/-! ### The noise -/

noncomputable def noiseLaw (truncateThreshold shiftOffset : Int64) (success : unitInterval) :
    PMF (StatusOr Int64) :=
  (truncatedPolyaLaw truncateThreshold success).bind (onOk fun polyaA =>
    (truncatedPolyaLaw truncateThreshold success).bind (onOk fun polyaB =>
      PMF.pure (.ok (shiftOffset + polyaA - polyaB))))

section Noise

variable {Rng : Type} [MeasurableSpace Rng] {source : ℕ → Measure Rng}
  [∀ n, IsProbabilityMeasure (source n)] {distributions : RandomDistributions ℝ Rng}
  {rand : RandSource Rng} {success : unitInterval}

/-- Two draws for an attempt, and two samples. -/
theorem hasLaw_generateNoiseComponent (hsamples : SamplesFrom source distributions)
    (hstatus : ∀ rng, rand.status rng = 1) (hpos : 0 < success) (hlt : success < 1)
    {truncateThreshold : Int64} (hthreshold : 0 ≤ truncateThreshold) (shiftOffset : Int64) :
    HasLaw (source 80) (generateNoiseComponent rand distributions
        { contributorCount := 1, p := 1 - success, truncateThreshold, shiftOffset })
      (noiseLaw truncateThreshold shiftOffset success) := by
  have hfailure : (0 : ℝ) < 1 - success := by
    have : (success : ℝ) < 1 := hlt
    linarith
  have hfailureLt : (1 - success : ℝ) < 1 := by
    have : (0 : ℝ) < success := hpos
    linarith
  let sample : NoiserM Rng Int64 :=
    firstAccepted (modifyGet (polyaDraw distributions 1 (1 - success)))
      (fun polya => polya ≤ truncateThreshold)
      (.internal "Failed to create the polya random variable within the attempt limit.")
      maximumAttempts
  have hsample : getTruncatedPolyaRandomVariable distributions truncateThreshold
      (1.0 / (((1 : Int64).toInt : ℤ) : ℝ)) (1 - success) = sample := by
    have hshape : (1.0 : ℝ) / (((1 : Int64).toInt : ℤ) : ℝ) = 1 := by
      rw [Int64.toInt_one]
      norm_num
    rw [hshape, getTruncatedPolyaRandomVariable, if_neg (Int64.not_lt.mpr hthreshold),
      getPolyaRandomVariable_eq distributions 1 hfailure hfailureLt]
  have hprogram : generateNoiseComponent rand distributions
      { contributorCount := 1, p := 1 - success, truncateThreshold, shiftOffset }
      = sample >>= fun polyaA => sample >>= fun polyaB =>
          pure (shiftOffset + polyaA - polyaB) := by
    unfold generateNoiseComponent
    simp only [hstatus]
    rw [hsample]
    rfl
  rw [hprogram]
  have hdraws := draws_polyaDraw hsamples hpos hlt
  exact hasLaw_firstAccepted_bind (n := 20) (m := 40) hdraws _ _ (fun polyaA m hm =>
    hasLaw_firstAccepted_bind (n := 0) hdraws _ _ (fun polyaB m' _ => hasLaw_pure _) _ hm) _ le_rfl

end Noise

theorem truncatedPolyaLaw_range {success : unitInterval} {truncateThreshold a : Int64}
    (hpossible : .ok a ∈ (truncatedPolyaLaw truncateThreshold success).support) :
    0 ≤ a.toInt ∧ a.toInt ≤ truncateThreshold.toInt := by
  by_contra hout
  exact (PMF.mem_support_iff _ _).mp hpossible (truncatedPolyaLaw_eq_zero success hout)

theorem toInt_noise {shiftOffset polyaA polyaB : Int64}
    (hshift : 0 ≤ shiftOffset.toInt ∧ shiftOffset.toInt < 2 ^ 31)
    (hA : 0 ≤ polyaA.toInt ∧ polyaA.toInt < 2 ^ 31)
    (hB : 0 ≤ polyaB.toInt ∧ polyaB.toInt < 2 ^ 31) :
    (shiftOffset + polyaA - polyaB).toInt = shiftOffset.toInt + polyaA.toInt - polyaB.toInt := by
  have hsum : (shiftOffset + polyaA).toInt = shiftOffset.toInt + polyaA.toInt := by
    rw [Int64.toInt_add]
    exact Int.bmod_eq_of_le (by omega) (by omega)
  rw [Int64.toInt_sub, hsum]
  exact Int.bmod_eq_of_le (by omega) (by omega)

/-- The count is hidden behind the difference of two samples. -/
theorem noiseLaw_map {success : unitInterval} {truncateThreshold shiftOffset : Int64}
    (hfits : truncateThreshold.toInt < 2 ^ 31)
    (hshift : 0 ≤ shiftOffset.toInt ∧ shiftOffset.toInt < 2 ^ 31) (count : ℤ) :
    (noiseLaw truncateThreshold shiftOffset success).map
        (Except.map fun noise => count + noise.toInt)
      = hiddenLaw (sampleLaw truncateThreshold success) (count + shiftOffset.toInt) := by
  rw [hiddenLaw, sampleLaw, PMF.bind_map, noiseLaw, PMF.map_bind]
  refine bind_congr_support fun resultA hresultA => ?_
  rw [Function.comp_apply, PMF.map_comp]
  cases resultA with
  | error e =>
      rw [onOk, PMF.pure_map]
      exact (PMF.map_const _ _).symm
  | ok polyaA =>
      obtain ⟨hA, hAle⟩ := truncatedPolyaLaw_range hresultA
      rw [onOk, PMF.map_bind]
      refine bind_congr_support fun resultB hresultB => ?_
      cases resultB with
      | error e =>
          rw [onOk, PMF.pure_map]
          rfl
      | ok polyaB =>
          obtain ⟨hB, hBle⟩ := truncatedPolyaLaw_range hresultB
          have hnoise : count + (shiftOffset + polyaA - polyaB).toInt
              = count + shiftOffset.toInt + polyaA.toInt - polyaB.toInt := by
            rw [toInt_noise hshift ⟨hA, by omega⟩ ⟨hB, by omega⟩]
            omega
          rw [onOk, PMF.pure_map]
          exact congrArg (fun noisy => PMF.pure (Except.ok noisy : StatusOr ℤ)) hnoise

/-- A source that is good for more draws. -/
theorem samplesFrom_add {Rng : Type} [MeasurableSpace Rng] {source : ℕ → Measure Rng}
    {distributions : RandomDistributions ℝ Rng} (hsamples : SamplesFrom source distributions)
    (extra : ℕ) : SamplesFrom (fun n => source (extra + n)) distributions where
  gamma shape scale hshape hscale n := hsamples.gamma shape scale hshape hscale (extra + n)
  poisson mean hmean n := hsamples.poisson mean hmean (extra + n)
  poisson_measurable := hsamples.poisson_measurable

theorem measure_noisyCount {Rng : Type} [MeasurableSpace Rng] {source : ℕ → Measure Rng}
    [∀ n, IsProbabilityMeasure (source n)] {distributions : RandomDistributions ℝ Rng}
    {rand : RandSource Rng} {success : unitInterval} (hsamples : SamplesFrom source distributions)
    (hstatus : ∀ rng, rand.status rng = 1) (hpos : 0 < success) (hlt : success < 1)
    {truncateThreshold shiftOffset : Int64}
    (hthreshold : 0 ≤ truncateThreshold.toInt ∧ truncateThreshold.toInt < 2 ^ 31)
    (hshift : 0 ≤ shiftOffset.toInt ∧ shiftOffset.toInt < 2 ^ 31) (count : ℤ)
    {n : ℕ} (hn : 80 ≤ n) (event : Set (StatusOr ℤ)) :
    source n {rng | noisyCount (generateNoiseComponent rand distributions
        { contributorCount := 1, p := 1 - success, truncateThreshold, shiftOffset })
        count rng ∈ event}
      = (hiddenLaw (sampleLaw truncateThreshold success)
          (count + shiftOffset.toInt)).toOuterMeasure event := by
  obtain ⟨extra, rfl⟩ := Nat.exists_eq_add_of_le' hn
  have hlaw := hasLaw_generateNoiseComponent (samplesFrom_add hsamples extra) hstatus hpos hlt
    (Int64.le_iff_toInt_le.mpr hthreshold.1) shiftOffset
  rw [← noiseLaw_map hthreshold.2 hshift, PMF.toOuterMeasure_map_apply]
  exact hlaw.apply_event (Set.preimage (Except.map fun noise => count + noise.toInt) event)

end AnySketchCorrectness.DistributedGeometricNoiser
