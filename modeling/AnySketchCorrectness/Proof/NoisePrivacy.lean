import AnySketchCorrectness.Proof.NoiseLaw
import AnySketchCorrectness.Library.InverseTransform
import Mathlib.Analysis.Complex.ExponentialBounds

/-!
# The noise of a publisher is differentially private

With the parameters that are chosen for a publisher, the noise hides any change of the count up to
the number of publishers: the samples are about as likely after such a shift, and the chance to be
too close to the threshold is what the threshold is chosen for.
-/

namespace AnySketchCorrectness.DistributedGeometricNoiser

open MeasureTheory ProbabilityTheory RandomSource TruncatedGeometric
open scoped ENNReal

/-! ### The parameters of a publisher -/

section Parameters

variable {epsilon delta sensitivity : ℝ} (hepsilon : 0 < epsilon) (hdelta : 0 < delta)
  (hsensitivity : 0 < sensitivity)
include hepsilon hdelta hsensitivity

/-- The bound of the samples is chosen for this chance. -/
theorem exp_neg_bound_le {bound : ℝ}
    (hbound : Real.log (2 * sensitivity * (1 + Real.exp epsilon) / delta) / (epsilon / sensitivity)
      ≤ bound) :
    Real.exp (-(epsilon / sensitivity * bound))
      ≤ delta / (2 * sensitivity * (1 + Real.exp epsilon)) := by
  have hratio : 0 < epsilon / sensitivity := by positivity
  have hchance : 0 < 2 * sensitivity * (1 + Real.exp epsilon) / delta := by positivity
  have hlog : Real.log (2 * sensitivity * (1 + Real.exp epsilon) / delta)
      ≤ epsilon / sensitivity * bound := by
    rw [div_le_iff₀ hratio] at hbound
    linarith
  calc Real.exp (-(epsilon / sensitivity * bound))
      ≤ Real.exp (-Real.log (2 * sensitivity * (1 + Real.exp epsilon) / delta)) :=
        Real.exp_le_exp.mpr (neg_le_neg hlog)
    _ = delta / (2 * sensitivity * (1 + Real.exp epsilon)) := by
        rw [Real.exp_neg, Real.exp_log hchance, inv_div]

theorem near_bound_le {bound : ℤ} {k : ℕ} (hk : k ≤ sensitivity)
    (hbound : Real.log (2 * sensitivity * (1 + Real.exp epsilon) / delta) / (epsilon / sensitivity)
      ≤ bound) :
    k * Real.exp (-epsilon / sensitivity) ^ (bound - k).toNat ≤ delta := by
  have hratio : 0 < epsilon / sensitivity := by positivity
  have hmono : (bound - k : ℝ) ≤ ((bound - k).toNat : ℕ) := by
    exact_mod_cast Int.self_le_toNat (bound - k)
  have hshift : epsilon / sensitivity * k ≤ epsilon := by
    calc epsilon / sensitivity * k ≤ epsilon / sensitivity * sensitivity := by gcongr
      _ = epsilon := by field_simp
  have hpow : Real.exp (-epsilon / sensitivity) ^ (bound - k).toNat
      ≤ Real.exp epsilon * Real.exp (-(epsilon / sensitivity * bound)) := by
    rw [← Real.exp_nat_mul, ← Real.exp_add]
    refine Real.exp_le_exp.mpr ?_
    have := mul_le_mul_of_nonneg_left hmono hratio.le
    calc ((bound - k).toNat : ℝ) * (-epsilon / sensitivity)
        = -(epsilon / sensitivity * ((bound - k).toNat : ℕ)) := by ring
      _ ≤ -(epsilon / sensitivity * (bound - k)) := neg_le_neg this
      _ = epsilon / sensitivity * k + -(epsilon / sensitivity * bound) := by ring
      _ ≤ epsilon + -(epsilon / sensitivity * bound) := by linarith
  calc k * Real.exp (-epsilon / sensitivity) ^ (bound - k).toNat
      ≤ sensitivity * (Real.exp epsilon
          * (delta / (2 * sensitivity * (1 + Real.exp epsilon)))) := by
        gcongr
        exact hpow.trans (mul_le_mul_of_nonneg_left
          (exp_neg_bound_le hepsilon hdelta hsensitivity hbound) (Real.exp_pos _).le)
    _ = delta * (Real.exp epsilon / (2 * (1 + Real.exp epsilon))) := by
        field_simp
    _ ≤ delta * 1 := by
        have hpositive := Real.exp_pos epsilon
        gcongr
        rw [div_le_one (by positivity)]
        linarith
    _ = delta := mul_one delta

omit hdelta in
theorem one_le_exp_mul_pow {k : ℕ} (hk : k ≤ sensitivity) :
    1 ≤ Real.exp epsilon * Real.exp (-epsilon / sensitivity) ^ k := by
  rw [← Real.exp_nat_mul, ← Real.exp_add]
  refine Real.one_le_exp ?_
  have hshift : epsilon / sensitivity * k ≤ epsilon := by
    calc epsilon / sensitivity * k ≤ epsilon / sensitivity * sensitivity := by gcongr
      _ = epsilon := by field_simp
  calc (0 : ℝ) ≤ epsilon - epsilon / sensitivity * k := by linarith
    _ = epsilon + k * (-epsilon / sensitivity) := by ring

end Parameters

theorem toInt_intOfReal_intCast {x : ℤ} (hlower : -2 ^ 31 ≤ x) (hupper : x < 2 ^ 31) :
    (intOfReal x).toInt = x := by
  rw [intOfReal, Int.floor_intCast, Int.ceil_intCast, ite_self]
  exact Int32.toInt_ofInt_of_le hlower hupper

/-! ### Privacy -/

section Privacy

variable {Rng : Type} [MeasurableSpace Rng] {source : ℕ → Measure Rng}
  [∀ n, IsProbabilityMeasure (source n)] {distributions : RandomDistributions ℝ Rng}
  {rand : RandSource Rng} {publisherCount : Int32}

/-- The logarithm is positive unless any answer would be private. -/
theorem computateMuPolya_toInt {params : DifferentialPrivacyParams ℝ}
    (hepsilon : 0 < params.epsilon) (hdelta : 0 < params.delta)
    (hsmall : params.delta < 1) (hpublisherCount : 0 < publisherCount)
    (hfits : Real.log (2 * publisherCount.toInt * (1 + Real.exp params.epsilon) / params.delta)
      / (params.epsilon / publisherCount.toInt) ≤ 2 ^ 31 - 2) :
    (computateMuPolya realCmath params.epsilon params.delta publisherCount 1).toInt
      = ⌈Real.log (2 * publisherCount.toInt * (1 + Real.exp params.epsilon) / params.delta)
          / (params.epsilon / publisherCount.toInt)⌉ ∧
    0 ≤ (computateMuPolya realCmath params.epsilon params.delta publisherCount 1).toInt ∧
    (computateMuPolya realCmath params.epsilon params.delta publisherCount 1).toInt
      < 2 ^ 31 - 1 := by
  have hcount : (1 : ℝ) ≤ publisherCount.toInt := by
    exact_mod_cast Int32.lt_iff_toInt_lt.mp hpublisherCount
  set quotient := Real.log (2 * publisherCount.toInt * (1 + Real.exp params.epsilon)
    / params.delta) / (params.epsilon / publisherCount.toInt) with hquotient
  have hexp := Real.exp_pos params.epsilon
  have hpositive : 0 < quotient := by
    refine div_pos (Real.log_pos ?_) (by positivity)
    rw [lt_div_iff₀ hdelta]
    nlinarith
  have hceil : ⌈quotient⌉ ≤ 2 ^ 31 - 2 := Int.ceil_le.mpr (by exact_mod_cast hfits)
  have hceilPos : 0 < ⌈quotient⌉ := Int.ceil_pos.mpr hpositive
  have hmu : computateMuPolya realCmath params.epsilon params.delta publisherCount 1
      = intOfReal ((⌈quotient⌉ : ℤ) : ℝ) := by
    have hargument : (2.0 : ℝ) * (((1 : Int32).toInt : ℤ) : ℝ) * publisherCount.toInt
        * (1.0 + Real.exp params.epsilon) / params.delta
        = 2 * publisherCount.toInt * (1 + Real.exp params.epsilon) / params.delta := by
      rw [Int32.toInt_one]
      norm_num
    rw [hquotient, ← hargument]
    rfl
  rw [hmu, toInt_intOfReal_intCast (by omega) (by omega)]
  exact ⟨rfl, hceilPos.le, by omega⟩

/-- **The published count is differentially private.** -/
theorem generateNoiseComponent_private (params : DifferentialPrivacyParams ℝ)
    (hsamples : SamplesFrom source distributions) (hstatus : ∀ rng, rand.status rng = 1)
    (hepsilon : 0 < params.epsilon) (hdelta : 0 < params.delta)
    (hpublisherCount : 0 < publisherCount)
    (hfits : Real.log (2 * publisherCount.toInt * (1 + Real.exp params.epsilon) / params.delta)
      / (params.epsilon / publisherCount.toInt) ≤ 2 ^ 31 - 2)
    {count count' : ℤ} (hclose : (count - count').natAbs ≤ publisherCount.toInt)
    {n : ℕ} (hn : 80 ≤ n) (event : Set (StatusOr ℤ)) :
    source n {rng | noisyCount (generateNoiseComponent rand distributions
        (getGeometricPublisherNoiseOptions realCmath params publisherCount)) count rng ∈ event}
      ≤ ENNReal.ofReal (Real.exp params.epsilon)
          * source n {rng | noisyCount (generateNoiseComponent rand distributions
              (getGeometricPublisherNoiseOptions realCmath params publisherCount))
              count' rng ∈ event}
        + ENNReal.ofReal params.delta := by
  by_cases hsmall : params.delta < 1
  swap
  · exact (prob_le_one.trans (ENNReal.one_le_ofReal.mpr (not_lt.mp hsmall))).trans le_add_self
  have hcount : (0 : ℝ) < publisherCount.toInt := by
    exact_mod_cast Int32.lt_iff_toInt_lt.mp hpublisherCount
  obtain ⟨hoffset, hnonneg, hlt⟩ :=
    computateMuPolya_toInt hepsilon hdelta hsmall hpublisherCount hfits
  set offset := computateMuPolya realCmath params.epsilon params.delta publisherCount 1
  set p := Real.exp (-params.epsilon / publisherCount.toInt) with hp
  have hpLt : p < 1 := Real.exp_lt_one_iff.mpr (div_neg_of_neg_of_pos (by linarith) hcount)
  have hpPos : 0 < p := Real.exp_pos _
  let success : unitInterval := ⟨1 - p, by constructor <;> linarith⟩
  have hfailure : 1 - (success : ℝ) = p := sub_sub_cancel 1 p
  have hsuccessPos : 0 < success := Subtype.mk_lt_mk.mpr (sub_pos.mpr hpLt)
  have hsuccessLt : success < 1 := Subtype.mk_lt_mk.mpr (by linarith)
  have hoptions : getGeometricPublisherNoiseOptions realCmath params publisherCount
      = { contributorCount := 1, p := 1 - success, truncateThreshold := offset.toInt64
          shiftOffset := offset.toInt64 } := by
    rw [hfailure]
    rfl
  rw [← Int32.toInt_toInt64] at hnonneg hlt hoffset
  rw [hoptions, measure_noisyCount hsamples hstatus hsuccessPos hsuccessLt
    ⟨hnonneg, by omega⟩ ⟨hnonneg, by omega⟩ count hn,
    measure_noisyCount hsamples hstatus hsuccessPos hsuccessLt
    ⟨hnonneg, by omega⟩ ⟨hnonneg, by omega⟩ count' hn]
  have hk : ((count - count').natAbs : ℝ) ≤ publisherCount.toInt := by
    rw [← Int.cast_natCast]
    exact Int.cast_le.mpr hclose
  have hdifference : (count + offset.toInt64.toInt - (count' + offset.toInt64.toInt)).natAbs
      = (count - count').natAbs := by
    rw [add_sub_add_right_eq_sub]
  have hlikely : 1 ≤ ENNReal.ofReal (Real.exp params.epsilon)
      * ENNReal.ofReal (1 - success) ^ (count - count').natAbs := by
    rw [hfailure, ← ENNReal.ofReal_pow hpPos.le, ← ENNReal.ofReal_mul (Real.exp_pos _).le,
      ENNReal.one_le_ofReal]
    exact one_le_exp_mul_pow hepsilon hcount hk
  have hunlikely : (count - count').natAbs * ENNReal.ofReal (1 - success)
      ^ (offset.toInt64.toInt - (count - count').natAbs).toNat ≤ ENNReal.ofReal params.delta := by
    rw [hfailure, ← ENNReal.ofReal_natCast, ← ENNReal.ofReal_pow hpPos.le,
      ← ENNReal.ofReal_mul (Nat.cast_nonneg _)]
    refine ENNReal.ofReal_le_ofReal (near_bound_le hepsilon hdelta hcount hk ?_)
    rw [hoffset]
    exact Int.le_ceil _
  rw [← hdifference] at hlikely hunlikely
  have hhidden := (isTruncatedGeometric_sampleLaw hsuccessPos.ne' hnonneg
    hlt).indistinguishable_hidden (ENNReal.ofReal_le_one.mpr (by rw [hfailure]; exact hpLt.le))
    hlikely
  exact (hhidden event).trans (add_le_add_right hunlikely _)

end Privacy

/-! ### A source for the distributions -/

section Stream

open InverseTransform

noncomputable def poissonMass (mean : ℝ) (count : ℕ) : ℝ :=
  Real.exp (-mean.toNNReal) * (mean.toNNReal : ℝ) ^ count / count.factorial

noncomputable def streamDistributions : RandomDistributions ℝ (ℕ → ℝ) where
  gammaDistribution shape scale := readNumber (quantile (gammaMeasure shape scale⁻¹))
  poissonDistribution mean := readNumber fun u => intOfCount (countQuantile (poissonMass mean) u)

theorem samplesFrom_stream : SamplesFrom stream streamDistributions where
  gamma shape scale hshape hscale n := by
    have := isProbabilityMeasure_gammaMeasure hshape (inv_pos.mpr hscale)
    have hdraw := independentDrawFrom_readNumber
      (measurable_quantile (gammaMeasure shape scale⁻¹)) n
    rwa [uniform_map_quantile] at hdraw
  poisson mean hmean := by
    have hcounts : Draws stream (readNumber (countQuantile (poissonMass mean)))
        (poissonMeasure mean.toNNReal).toPMF := by
      refine draws_readNumber measurableSet_countQuantile fun count => ?_
      rw [Measure.toPMF_apply, poissonMeasure_singleton]
      refine uniform_countQuantile_eq (fun count => ?_)
        (hasSum_one_poissonMeasure mean.toNNReal) count
      exact div_nonneg (by positivity) (by positivity)
    exact fun n => (hcounts n).map intOfCount
  poisson_measurable sample rest hrest := by
    have hcount : ∀ count, MeasurableSet {x : ℝ × (ℕ → ℝ) |
        countQuantile (poissonMass x.1) (x.2 0) = count} := by
      intro count
      have hpair : Measurable fun x : ℝ × (ℕ → ℝ) => (x.1, x.2 0) :=
        measurable_fst.prodMk ((measurable_pi_apply 0).comp measurable_snd)
      refine hpair (measurableSet_countQuantile_eq (fun count => ?_) count)
      unfold poissonMass
      fun_prop
    have hset : {x : ℝ × (ℕ → ℝ) | (streamDistributions.poissonDistribution x.1 x.2).1 = sample ∧
        (streamDistributions.poissonDistribution x.1 x.2).2 ∈ rest}
        = (⋃ count ∈ {count | intOfCount count = sample},
            {x | countQuantile (poissonMass x.1) (x.2 0) = count})
          ∩ {x | (fun i => x.2 (i + 1)) ∈ rest} := by
      ext x
      simp [streamDistributions, readNumber]
    rw [hset]
    exact (MeasurableSet.biUnion (Set.to_countable _) fun count _ => hcount count).inter
      (measurable_tail.comp measurable_snd hrest)

/-- Counts for three publishers, with numbers from a generator that is always seeded. -/
theorem generateNoiseComponent_private_three :
    stream 80 {numbers | noisyCount (generateNoiseComponent ⟨fun _ => 1, fun s _ => (1, [], s)⟩
        streamDistributions (getGeometricPublisherNoiseOptions realCmath ⟨1, 1 / 1000⟩ 3))
        10 numbers ∈ ({.ok 40} : Set (StatusOr ℤ))}
      ≤ ENNReal.ofReal (Real.exp 1)
          * stream 80 {numbers | noisyCount
              (generateNoiseComponent ⟨fun _ => 1, fun s _ => (1, [], s)⟩ streamDistributions
                (getGeometricPublisherNoiseOptions realCmath ⟨1, 1 / 1000⟩ 3))
              12 numbers ∈ ({.ok 40} : Set (StatusOr ℤ))}
        + ENNReal.ofReal (1 / 1000) := by
  have hfits : Real.log (2 * ((3 : Int32).toInt : ℝ) * (1 + Real.exp 1) / (1 / 1000))
      / (1 / ((3 : Int32).toInt : ℝ)) ≤ 2 ^ 31 - 2 := by
    have hthree : ((3 : Int32).toInt : ℝ) = 3 := by
      rw [show (3 : Int32).toInt = 3 by decide]
      norm_num
    have hexp := Real.exp_one_lt_three
    have hpositive := Real.exp_pos 1
    have hlog := Real.log_le_self
      (show (0 : ℝ) ≤ 2 * 3 * (1 + Real.exp 1) / (1 / 1000) by positivity)
    rw [hthree]
    calc Real.log (2 * 3 * (1 + Real.exp 1) / (1 / 1000)) / (1 / 3)
        ≤ 2 * 3 * (1 + Real.exp 1) / (1 / 1000) / (1 / 3) := by gcongr
      _ ≤ 2 ^ 31 - 2 := by
          norm_num
          linarith
  exact generateNoiseComponent_private ⟨1, 1 / 1000⟩ samplesFrom_stream (fun _ => rfl)
    one_pos (by norm_num) (by decide) hfits (by decide) le_rfl _

end Stream

end AnySketchCorrectness.DistributedGeometricNoiser
