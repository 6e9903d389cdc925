import AnySketchCorrectness.Proof.GaussianLaw
import AnySketchCorrectness.Library.InverseTransform

/-!
# The discrete Gaussian noise

Every attempt of the loop ends with a difference, and with success, in proportion to the weight of
the difference. So the loop ends with a value in proportion to its weight, whatever number of
attempts it takes.
-/

namespace AnySketchCorrectness.DistributedDiscreteGaussianNoiser

open MeasureTheory RandomSource StateInvariant Attempts
open DistributedGeometricNoiser (countable_int32 countable_int64)
open scoped ENNReal

/-! ### The loop -/

section Loop

variable {truncateThreshold : Int64} (hthreshold : 0 ≤ truncateThreshold.toInt)
include hthreshold

theorem accepts_iff (attempted : Int64 × Int32) :
    accepts truncateThreshold attempted = true ↔ attempted.2 = 1 ∧
      -truncateThreshold.toInt ≤ attempted.1.toInt ∧
      attempted.1.toInt ≤ truncateThreshold.toInt := by
  have hlt := truncateThreshold.toInt_lt
  have hneg : (-truncateThreshold).toInt = -truncateThreshold.toInt := by
    rw [Int64.toInt_neg]
    exact Int.bmod_eq_of_le (by omega) (by omega)
  have htruncates : ¬ truncateThreshold < 0 := by
    rw [Int64.lt_iff_toInt_lt, Int64.toInt_zero]
    omega
  rw [accepts, decide_eq_true_iff, Int64.le_iff_toInt_le, Int64.le_iff_toInt_le, hneg]
  tauto

noncomputable def acceptedAttempts (truncateThreshold : Int64) : Finset (Int64 × Int32) :=
  open Classical in
  (Finset.Icc (-truncateThreshold.toInt) truncateThreshold.toInt).image
    fun y => (Int64.ofInt y, 1)

theorem toInt_ofInt_of_mem {y : ℤ}
    (hy : y ∈ Finset.Icc (-truncateThreshold.toInt) truncateThreshold.toInt) :
    (Int64.ofInt y).toInt = y := by
  have hlt := truncateThreshold.toInt_lt
  obtain ⟨hlower, hupper⟩ := Finset.mem_Icc.mp hy
  exact Int64.toInt_ofInt_of_le (by omega) (by omega)

theorem mem_acceptedAttempts (attempted : Int64 × Int32) :
    attempted ∈ acceptedAttempts truncateThreshold ↔
      accepts truncateThreshold attempted = true := by
  classical
  rw [accepts_iff hthreshold, acceptedAttempts, Finset.mem_image]
  constructor
  · rintro ⟨y, hy, rfl⟩
    have hrange := Finset.mem_Icc.mp hy
    refine ⟨rfl, ?_⟩
    rwa [toInt_ofInt_of_mem hthreshold hy]
  · rintro ⟨htrial, hrange⟩
    refine ⟨attempted.1.toInt, Finset.mem_Icc.mpr hrange, Prod.ext ?_ htrial.symm⟩
    exact Int64.ofInt_toInt attempted.1

theorem sum_acceptedAttempts (weight : ℤ → ℝ) :
    ∑ attempted ∈ acceptedAttempts truncateThreshold, weight attempted.1.toInt
      = ∑ y ∈ Finset.Icc (-truncateThreshold.toInt) truncateThreshold.toInt, weight y := by
  classical
  rw [acceptedAttempts, Finset.sum_image]
  · exact Finset.sum_congr rfl fun y hy =>
      congrArg weight (toInt_ofInt_of_mem hthreshold hy)
  · intro y hy y' hy' heq
    rw [← toInt_ofInt_of_mem hthreshold hy, ← toInt_ofInt_of_mem hthreshold hy',
      show Int64.ofInt y = Int64.ofInt y' from congrArg Prod.fst heq]

end Loop

/-! ### Where the noise is -/

section Offset

variable {Double Rng : Type} [Add Double] [Sub Double] [Mul Double] [Div Double] [Neg Double]
  [OfScientific Double] [IntCast Double] [LE Double] [DecidableLE Double]
  {cmath : GaussianCmath Double} {rand : RandSource Rng}
  {distributions : GaussianDistributions Double Rng}

/-- The options for publishers use one `int` as threshold and as shift. Whatever the arithmetic and
the samples are, the condition of the `break` is enough. -/
theorem generateNoiseComponent_le_two_mul {params : DifferentialPrivacyParams Double}
    {contributorCount : Int64}
    (hoffset : 0 ≤ (getDiscreteGaussianPublisherNoiseOptions cmath params
      contributorCount).shiftOffset) (fuel : ℕ) :
    Keeps (fun _ => True) (generateNoiseComponent cmath rand distributions fuel
      (getDiscreteGaussianPublisherNoiseOptions cmath params contributorCount)) fun noise =>
        0 ≤ noise.toInt ∧ noise.toInt ≤ 2 * (getDiscreteGaussianPublisherNoiseOptions cmath params
          contributorCount).shiftOffset.toInt := by
  set options := getDiscreteGaussianPublisherNoiseOptions cmath params contributorCount
    with hoptions
  rw [Int64.le_iff_toInt_le, Int64.toInt_zero] at hoffset
  have hthreshold : options.truncateThreshold = options.shiftOffset := rfl
  have hlt : options.shiftOffset.toInt < 2 ^ 31 := by
    rw [hoptions, getDiscreteGaussianPublisherNoiseOptions, Int32.toInt_toInt64]
    exact Int32.toInt_lt _
  unfold generateNoiseComponent
  refine keeps_bind keeps_get fun rng _ => ?_
  split
  · exact keeps_bind (Q := fun _ => False) (keeps_throw _) fun _ hfalse => hfalse.elim
  dsimp only
  split
  · exact keeps_bind (Q := fun _ => False) (keeps_throw _) fun _ hfalse => hfalse.elim
  refine keeps_bind (keeps_firstAccepted (Q := fun _ => True)
    (fun _ _ => ⟨trivial, fun _ _ _ => trivial⟩) _ _ fuel) ?_
  rintro ⟨y, trial⟩ ⟨-, haccept⟩
  obtain ⟨-, hlower, hupper⟩ := (accepts_iff (hthreshold ▸ hoffset) _).mp haccept
  simp only [hthreshold] at hlower hupper
  refine keeps_pure ?_
  have hnoise : (options.shiftOffset + y).toInt = options.shiftOffset.toInt + y.toInt := by
    rw [Int64.toInt_add]
    exact Int.bmod_eq_of_le (by omega) (by omega)
  rw [hnoise]
  omega

end Offset

/-- The values that four publishers come by, to six digits. -/
def sampleGaussianCmath : GaussianCmath ℚ where
  exp x := if x < 0 then 0.606531 else 2.718282
  log x := if x < 100 then 3.218876 else 5.695289
  ceil x := ⌈x⌉
  toInt x := Int32.ofInt ⌊x⌋
  floor x := ⌊x⌋
  sqrt x := if x < 5 then 2 else if x < 10 then 2.537273 else 3.374993
  pow x _ := x * x

/-- The generator counts up, and its samples are small. -/
def sampleGaussianDistributions : GaussianDistributions ℚ ℕ where
  geometricDistribution _ n := (Int32.ofNat (n % 4), n + 1)
  binomialDistribution _ _ n := (Int32.ofNat (n % 2), n + 1)

theorem generateNoiseComponent_le_two_mul_sample :
    Keeps (fun _ => True) (generateNoiseComponent sampleGaussianCmath
      ⟨fun _ => 1, fun n _ => (1, [], n)⟩ sampleGaussianDistributions 3
      (getDiscreteGaussianPublisherNoiseOptions sampleGaussianCmath ⟨1, 0.1⟩ 4)) fun noise =>
        0 ≤ noise.toInt ∧ noise.toInt ≤ 2 * (getDiscreteGaussianPublisherNoiseOptions
          sampleGaussianCmath ⟨1, 0.1⟩ 4).shiftOffset.toInt :=
  generateNoiseComponent_le_two_mul (by decide +kernel) 3

/-! ### The noise -/

theorem law_zero_ne_zero {law : PMF Int32} {p : ℝ} (hlaw : IsGeometricLaw law p) : law 0 ≠ 0 := by
  intro hzero
  obtain ⟨k, hk⟩ := law.support_nonempty
  refine (PMF.mem_support_iff _ _).mp hk ?_
  by_cases hnonneg : 0 ≤ k.toInt
  · rw [hlaw.apply_nonneg k hnonneg, hzero, zero_mul]
  · exact hlaw.apply_neg k (not_le.mp hnonneg)

noncomputable def noiseLaw (truncateThreshold shiftOffset : Int64) (law : PMF Int32)
    (trialLaw : Int64 → PMF Int32) (fuel : ℕ) : PMF (StatusOr Int64) :=
  (firstAcceptedLaw (attemptLaw law trialLaw) (accepts truncateThreshold) Failure.outOfFuel
      fuel).bind
    (onOk fun attempted => PMF.pure (.ok (shiftOffset + attempted.1)))

/-- Only the difference that gives the noise, and only if the trial succeeds. -/
theorem noiseLaw_ok (truncateThreshold shiftOffset : Int64) (law : PMF Int32)
    (trialLaw : Int64 → PMF Int32) (fuel : ℕ) (noise : Int64) :
    noiseLaw truncateThreshold shiftOffset law trialLaw fuel (.ok noise)
      = firstAcceptedLaw (attemptLaw law trialLaw) (accepts truncateThreshold) Failure.outOfFuel
          fuel (.ok (noise - shiftOffset, 1)) := by
  rw [noiseLaw, PMF.bind_apply]
  refine (tsum_eq_single (.ok (noise - shiftOffset, 1)) fun result hne => ?_).trans ?_
  · cases result with
    | error e => rw [onOk, PMF.pure_apply_of_ne _ _ (by rintro ⟨⟩), mul_zero]
    | ok attempted =>
        obtain ⟨y, trial⟩ := attempted
        by_cases hnoise : noise = shiftOffset + y
        · have htrial : trial ≠ 1 := by
            rintro rfl
            refine hne (congrArg (fun y => Except.ok (y, 1)) ?_)
            grind
          rw [firstAcceptedLaw_eq_zero _ _ _ (by rintro ⟨⟩), zero_mul]
          intro attempted haccept heq
          rw [← Except.ok.inj heq, accepts, decide_eq_true_iff] at haccept
          exact htrial haccept.1
        · rw [onOk, PMF.pure_apply_of_ne _ _ fun heq => hnoise (Except.ok.inj heq), mul_zero]
  · have hnoise : noise = shiftOffset + (noise - shiftOffset) := by grind
    rw [onOk, ← hnoise, PMF.pure_apply_self, mul_one]

theorem noiseLaw_outOfFuel (truncateThreshold shiftOffset : Int64) (law : PMF Int32)
    (trialLaw : Int64 → PMF Int32) (fuel : ℕ) :
    noiseLaw truncateThreshold shiftOffset law trialLaw fuel (.error .outOfFuel)
      = rejection (attemptLaw law trialLaw) (accepts truncateThreshold) ^ fuel := by
  rw [noiseLaw, PMF.bind_apply, ← firstAcceptedLaw_error _ _ Failure.outOfFuel]
  refine (tsum_eq_single (.error .outOfFuel) fun result hne => ?_).trans ?_
  · cases result with
    | error e =>
        have hother : (.error .outOfFuel : StatusOr Int64) ≠ .error e := by
          rintro ⟨⟩
          exact hne rfl
        rw [onOk, PMF.pure_apply_of_ne _ _ hother, mul_zero]
    | ok attempted => rw [onOk, PMF.pure_apply_of_ne _ _ (by rintro ⟨⟩), mul_zero]
  · rw [onOk, PMF.pure_apply_self, mul_one]

section Noise

variable {Rng : Type} [MeasurableSpace Rng] {source : ℕ → Measure Rng}
  {distributions : GaussianDistributions ℝ Rng} {rand : RandSource Rng}

theorem hasLaw_generateNoiseComponent [∀ n, IsProbabilityMeasure (source n)]
    (hsamples : GaussianSamplesFrom source distributions) (hstatus : ∀ rng, rand.status rng = 1)
    {options : DistributedDiscreteGaussianNoiseComponentOptions ℝ}
    (hsigma : 0 < options.sigmaDistributed) :
    ∃ law trialLaw, IsGeometricLaw law (1 - Real.exp (-1 / (⌊options.sigmaDistributed⌋ + 1))) ∧
      (∀ y, trialLaw y 1 = ENNReal.ofReal (pBernoulli realGaussianCmath
        (options.sigmaDistributed * options.sigmaDistributed)
        (⌊options.sigmaDistributed⌋ + 1) y)) ∧
      ∀ fuel n, 3 * fuel ≤ n →
        HasLaw (source n)
          (generateNoiseComponent realGaussianCmath rand distributions fuel options)
          (noiseLaw options.truncateThreshold options.shiftOffset law trialLaw fuel) := by
  set sigma := options.sigmaDistributed
  have hfloor : (0 : ℝ) ≤ ⌊sigma⌋ := by exact_mod_cast Int.floor_nonneg.mpr hsigma.le
  have hexpLt : Real.exp (-1 / (⌊sigma⌋ + 1 : ℝ)) < 1 :=
    Real.exp_lt_one_iff.mpr (div_neg_of_neg_of_pos (by norm_num) (by linarith))
  have hexpPos := Real.exp_pos (-1 / (⌊sigma⌋ + 1 : ℝ))
  obtain ⟨law, hlaw, hgeometric⟩ :=
    hsamples.geometric (1 - Real.exp (-1 / (⌊sigma⌋ + 1))) (by linarith) (by linarith)
  have htrials : ∀ y, ∃ trialLaw : PMF Int32,
      trialLaw 1 = ENNReal.ofReal (pBernoulli realGaussianCmath (sigma * sigma) (⌊sigma⌋ + 1) y) ∧
      Draws source (distributions.binomialDistribution 1
        (pBernoulli realGaussianCmath (sigma * sigma) (⌊sigma⌋ + 1) y)) trialLaw := by
    intro y
    have hle : pBernoulli realGaussianCmath (sigma * sigma) (⌊sigma⌋ + 1) y ≤ 1 := by
      rw [pBernoulli_eq, Real.exp_le_one_iff]
      exact div_nonpos_of_nonpos_of_nonneg (neg_nonpos.mpr (sq_nonneg _)) (by positivity)
    obtain ⟨trialLaw, -, hone, hdraws⟩ := hsamples.binomial _ (by
      rw [pBernoulli_eq]
      exact (Real.exp_pos _).le) hle
    exact ⟨trialLaw, hone, hdraws⟩
  choose trialLaw hone htrial using htrials
  refine ⟨law, trialLaw, hlaw, hone, fun fuel n hn => ?_⟩
  obtain ⟨extra, rfl⟩ := Nat.exists_eq_add_of_le' hn
  have hprogram : generateNoiseComponent realGaussianCmath rand distributions fuel options
      = firstAccepted (modifyGet (attemptDraw distributions (sigma * sigma) (⌊sigma⌋ + 1)
          (1 - Real.exp (-1 / (⌊sigma⌋ + 1))))) (accepts options.truncateThreshold) .outOfFuel fuel
        >>= fun attempted => pure (options.shiftOffset + attempted.1) := by
    have hvalid : ¬ ((1.0 : ℝ) - Real.exp (-1.0 / ((⌊sigma⌋ : ℝ) + 1.0)) ≤ 0.0 ∨
        (1.0 : ℝ) ≤ 1.0 - Real.exp (-1.0 / ((⌊sigma⌋ : ℝ) + 1.0))) := by
      norm_num
      exact ⟨by simpa [neg_div] using hexpLt, Real.exp_pos _⟩
    unfold generateNoiseComponent
    simp only [hstatus]
    change (if (1.0 : ℝ) - Real.exp (-1.0 / ((⌊sigma⌋ : ℝ) + 1.0)) ≤ 0.0 ∨
        (1.0 : ℝ) ≤ 1.0 - Real.exp (-1.0 / ((⌊sigma⌋ : ℝ) + 1.0)) then _ else _) = _
    rw [if_neg hvalid, show (1.0 : ℝ) = 1 by norm_num]
    rfl
  rw [hprogram]
  have hgeometric : Draws (fun n => source (extra + n)) _ law := fun n => hgeometric (extra + n)
  have hdraws := draws_attemptDraw hgeometric fun y n => htrial y (extra + n)
  exact hasLaw_firstAccepted_bind (n := 0) (m := fuel) hdraws _ _
    (fun attempted m _ => hasLaw_pure _) fuel (by omega)

/-- **The noise is discrete Gaussian.** What is left out is that the loop is still running. -/
theorem generateNoiseComponent_gaussian [∀ n, IsProbabilityMeasure (source n)]
    (hsamples : GaussianSamplesFrom source distributions) (hstatus : ∀ rng, rand.status rng = 1)
    {options : DistributedDiscreteGaussianNoiseComponentOptions ℝ}
    (hsigma : 0 < options.sigmaDistributed) (hthreshold : 0 ≤ options.truncateThreshold.toInt) :
    ∃ rejected < (1 : ℝ≥0∞), ∀ fuel n, 3 * fuel ≤ n →
      source n {rng | answer ((generateNoiseComponent realGaussianCmath rand distributions fuel
        options).run rng) = .error .outOfFuel} = rejected ^ fuel ∧
      ∀ noise : Int64,
        (noise.toInt - options.shiftOffset.toInt).natAbs ≤ options.truncateThreshold.toInt →
        source n {rng | answer ((generateNoiseComponent realGaussianCmath rand distributions fuel
            options).run rng) = .ok noise}
          = (1 - rejected ^ fuel) * ENNReal.ofReal
              (gaussianWeight options.sigmaDistributed (noise.toInt - options.shiftOffset.toInt)
                / ∑ y ∈ Finset.Icc (-options.truncateThreshold.toInt)
                    options.truncateThreshold.toInt,
                  gaussianWeight options.sigmaDistributed y) := by
  obtain ⟨law, trialLaw, hlaw, htrial, hrun⟩ :=
    hasLaw_generateNoiseComponent hsamples hstatus hsigma
  have hsuccess := attemptLaw_success hsigma hlaw htrial
  have hzeroMem : (0 : ℤ) ∈ Finset.Icc (-options.truncateThreshold.toInt)
      options.truncateThreshold.toInt := Finset.mem_Icc.mpr ⟨by omega, hthreshold⟩
  have htotal : 0 < ∑ y ∈ Finset.Icc (-options.truncateThreshold.toInt)
      options.truncateThreshold.toInt, gaussianWeight options.sigmaDistributed y :=
    Finset.sum_pos' (fun y _ => gaussianWeight_nonneg hsigma y)
      ⟨0, hzeroMem, gaussianWeight_zero_pos hsigma⟩
  rw [← sum_acceptedAttempts hthreshold] at htotal
  have hproportional : ∀ attempted ∈ acceptedAttempts options.truncateThreshold,
      attemptLaw law trialLaw attempted
        = law 0 ^ 2 * ENNReal.ofReal (Real.exp (-(options.sigmaDistributed ^ 2)
            / (2 * (⌊options.sigmaDistributed⌋ + 1) ^ 2))
              / (1 - Real.exp (-2 / (⌊options.sigmaDistributed⌋ + 1))))
          * ENNReal.ofReal (gaussianWeight options.sigmaDistributed attempted.1.toInt) := by
    rintro ⟨y, trial⟩ hmem
    obtain ⟨rfl, -⟩ := (accepts_iff hthreshold _).mp ((mem_acceptedAttempts hthreshold _).mp hmem)
    exact hsuccess y
  refine ⟨rejection (attemptLaw law trialLaw) (accepts options.truncateThreshold), ?_, ?_⟩
  · refine rejection_lt_one _ _ (a := (0, 1)) ((accepts_iff hthreshold _).mpr
      ⟨rfl, Finset.mem_Icc.mp hzeroMem⟩) ?_
    have hscale : 0 < Real.exp (-(options.sigmaDistributed ^ 2)
        / (2 * (⌊options.sigmaDistributed⌋ + 1) ^ 2))
          / (1 - Real.exp (-2 / (⌊options.sigmaDistributed⌋ + 1))) :=
      div_pos (Real.exp_pos _) (sub_pos.mpr (exp_floor_lt_one hsigma))
    rw [hsuccess]
    exact mul_ne_zero (mul_ne_zero (pow_ne_zero 2 (law_zero_ne_zero hlaw))
      (ENNReal.ofReal_pos.mpr hscale).ne')
      (ENNReal.ofReal_pos.mpr (gaussianWeight_zero_pos hsigma)).ne'
  · intro fuel n hn
    refine ⟨((hrun fuel n hn).apply _).trans (noiseLaw_outOfFuel _ _ _ _ _), fun noise hnoise => ?_⟩
    have hdifference : (noise - options.shiftOffset).toInt
        = noise.toInt - options.shiftOffset.toInt := by
      have hlt := options.truncateThreshold.toInt_lt
      rw [Int64.toInt_sub]
      exact Int.bmod_eq_of_le (by omega) (by omega)
    have haccept : (noise - options.shiftOffset, 1)
        ∈ acceptedAttempts options.truncateThreshold := by
      rw [mem_acceptedAttempts hthreshold, accepts_iff hthreshold, hdifference]
      exact ⟨rfl, by omega, by omega⟩
    rw [(hrun fuel n hn).apply, noiseLaw_ok, firstAcceptedLaw_ok_of_proportional _ _ _
      (mem_acceptedAttempts hthreshold)
      (fun attempted => gaussianWeight_nonneg hsigma attempted.1.toInt) htotal
      hproportional haccept, hdifference, sum_acceptedAttempts hthreshold]

end Noise

/-! ### A source for the distributions -/

section Stream

open InverseTransform

/-- The geometric distribution on the counts below a bound. -/
noncomputable def boundedMass (bound : ℕ) (p : ℝ) (k : ℕ) : ℝ :=
  if k < bound then p / (1 - (1 - p) ^ bound) * (1 - p) ^ k else 0

section BoundedMass

variable {bound : ℕ} (hbound : bound ≠ 0) {p : ℝ} (hpos : 0 < p) (hlt : p < 1)
include hbound hpos hlt

theorem boundedMass_scale_pos : 0 < p / (1 - (1 - p) ^ bound) :=
  div_pos hpos (sub_pos.mpr (pow_lt_one₀ (by linarith) (by linarith) hbound))

theorem boundedMass_nonneg (k : ℕ) : 0 ≤ boundedMass bound p k := by
  rw [boundedMass]
  split
  · exact mul_nonneg (boundedMass_scale_pos hbound hpos hlt).le (pow_nonneg (by linarith) k)
  · exact le_rfl

theorem hasSum_boundedMass : HasSum (boundedMass bound p) 1 := by
  have hsum : ∑ k ∈ Finset.range bound, boundedMass bound p k = 1 := by
    have hterm : ∀ k ∈ Finset.range bound,
        boundedMass bound p k = p / (1 - (1 - p) ^ bound) * (1 - p) ^ k := fun k hk =>
      if_pos (Finset.mem_range.mp hk)
    have hne : (1 : ℝ) - (1 - p) ^ bound ≠ 0 :=
      (sub_pos.mpr (pow_lt_one₀ (by linarith) (by linarith) hbound)).ne'
    rw [Finset.sum_congr rfl hterm, ← Finset.mul_sum, geom_sum_eq (by linarith),
      show 1 - p - 1 = -p by ring]
    field_simp
    ring
  rw [← hsum]
  exact hasSum_sum_of_ne_finset_zero fun k hk => if_neg (by simpa using hk)

end BoundedMass

theorem isGeometricLaw_boundedMass {p : ℝ} (hpos : 0 < p) (hlt : p < 1) :
    IsGeometricLaw ((countLaw (boundedMass_nonneg (Nat.two_pow_pos 31).ne' hpos hlt)
      (hasSum_boundedMass (Nat.two_pow_pos 31).ne' hpos hlt)).map Int32.ofNat) p := by
  set law := countLaw (boundedMass_nonneg (Nat.two_pow_pos 31).ne' hpos hlt)
    (hasSum_boundedMass (Nat.two_pow_pos 31).ne' hpos hlt)
  have hlarge : ∀ k, 2 ^ 31 ≤ k → law k = 0 := fun k hk =>
    ENNReal.ofReal_eq_zero.mpr (if_neg (by omega)).le
  have happly : ∀ k : Int32, 0 ≤ k.toInt → law.map Int32.ofNat k
      = ENNReal.ofReal (p / (1 - (1 - p) ^ 2 ^ 31)) * ENNReal.ofReal ((1 - p) ^ k.toInt.toNat) := by
    intro k hk
    have hkLt := k.toInt_lt
    have hother : ∀ j : ℕ, j ≠ k.toInt.toNat → k = Int32.ofNat j → law j = 0 := by
      intro j hne heq
      refine hlarge j (not_lt.mp fun hj => hne ?_)
      rw [heq, Int32.toInt_ofNat_of_lt hj]
      omega
    rw [map_apply_eq_tsum, tsum_subtype, tsum_eq_single k.toInt.toNat fun j hne =>
      Set.indicator_apply_eq_zero.mpr (hother j hne), Set.indicator_of_mem]
    · rw [← ENNReal.ofReal_mul (boundedMass_scale_pos (Nat.two_pow_pos 31).ne' hpos hlt).le]
      exact congrArg ENNReal.ofReal (if_pos (by omega))
    · refine Int32.toInt.inj ?_
      rw [Int32.toInt_ofNat_of_lt (by omega)]
      omega
  constructor
  · intro k hk
    rw [happly k hk, happly 0 le_rfl, Int32.toInt_zero, Int.toNat_zero, pow_zero,
      ENNReal.ofReal_one, mul_one]
  · intro k hneg
    rw [map_apply_eq_tsum, tsum_subtype, ENNReal.tsum_eq_zero]
    refine fun j => Set.indicator_apply_eq_zero.mpr fun heq => hlarge j (not_lt.mp fun hj => ?_)
    rw [show k = Int32.ofNat j from heq, Int32.toInt_ofNat_of_lt hj] at hneg
    omega

noncomputable def trialMass (p : ℝ) (trial : Int32) : ℝ≥0∞ :=
  if trial = 1 then ENNReal.ofReal p else if trial = 0 then ENNReal.ofReal (1 - p) else 0

noncomputable def trialLaw {p : ℝ} (hnonneg : 0 ≤ p) (hle : p ≤ 1) : PMF Int32 :=
  PMF.ofFinset (trialMass p) {1, 0}
    (by
      rw [Finset.sum_pair (by decide), trialMass, if_pos rfl, trialMass, if_neg (by decide),
        if_pos rfl, ← ENNReal.ofReal_add hnonneg (sub_nonneg.mpr hle), add_sub_cancel,
        ENNReal.ofReal_one])
    fun trial hout => by
      rw [Finset.mem_insert, Finset.mem_singleton, not_or] at hout
      rw [trialMass, if_neg hout.1, if_neg hout.2]

theorem draws_trial {p : ℝ} (hnonneg : 0 ≤ p) (hle : p ≤ 1) :
    Draws stream (readNumber fun u => if u ≤ p then (1 : Int32) else 0) (trialLaw hnonneg hle) := by
  have hset : ∀ trial : Int32, {u : ℝ | (if u ≤ p then (1 : Int32) else 0) = trial}
      = if trial = 1 then Set.Iic p else if trial = 0 then (Set.Iic p)ᶜ else ∅ := by
    intro trial
    ext u
    by_cases hu : u ≤ p
    · by_cases hone : trial = 1
      · simp [hu, hone]
      · simp [hu, hone, Ne.symm hone]
    · by_cases hzero : trial = 0
      · simp [hzero]
      · simp [hu, hzero, Ne.symm hzero]
  refine draws_readNumber (fun trial => ?_) fun trial => ?_
  · rw [hset]
    split
    · exact measurableSet_Iic
    · split
      · exact measurableSet_Iic.compl
      · exact MeasurableSet.empty
  · change _ = trialMass p trial
    rw [hset, trialMass]
    split
    · exact uniform_Iic hle
    · split
      · rw [prob_compl_eq_one_sub measurableSet_Iic, uniform_Iic hle, ENNReal.ofReal_sub _ hnonneg,
          ENNReal.ofReal_one]
      · exact measure_empty

noncomputable def streamDistributions : GaussianDistributions ℝ (ℕ → ℝ) where
  geometricDistribution p :=
    readNumber fun u => Int32.ofNat (countQuantile (boundedMass (2 ^ 31) p) u)
  binomialDistribution _ p := readNumber fun u => if u ≤ p then 1 else 0

theorem gaussianSamplesFrom_stream : GaussianSamplesFrom stream streamDistributions where
  geometric _ hpos hlt :=
    ⟨_, isGeometricLaw_boundedMass hpos hlt, fun n => (draws_countQuantile _ _ n).map Int32.ofNat⟩
  binomial _ hnonneg hle :=
    ⟨trialLaw hnonneg hle, rfl, rfl, draws_trial hnonneg hle⟩

/-- The options of a test, with numbers from a generator that is always seeded. -/
theorem generateNoiseComponent_gaussian_stream :
    ∃ rejected < (1 : ℝ≥0∞), ∀ fuel n, 3 * fuel ≤ n →
      stream n {numbers | answer ((generateNoiseComponent realGaussianCmath
        ⟨fun _ => 1, fun s _ => (1, [], s)⟩ streamDistributions fuel ⟨1, 5, 10, 10⟩).run numbers)
          = .error .outOfFuel} = rejected ^ fuel ∧
      ∀ noise : Int64, (noise.toInt - (10 : Int64).toInt).natAbs ≤ (10 : Int64).toInt →
        stream n {numbers | answer ((generateNoiseComponent realGaussianCmath
            ⟨fun _ => 1, fun s _ => (1, [], s)⟩ streamDistributions fuel
              ⟨1, 5, 10, 10⟩).run numbers) = .ok noise}
          = (1 - rejected ^ fuel) * ENNReal.ofReal
              (gaussianWeight 5 (noise.toInt - (10 : Int64).toInt)
                / ∑ y ∈ Finset.Icc (-(10 : Int64).toInt) (10 : Int64).toInt, gaussianWeight 5 y) :=
  generateNoiseComponent_gaussian gaussianSamplesFrom_stream (fun _ => rfl)
    (show (0 : ℝ) < 5 by norm_num) (show 0 ≤ (10 : Int64).toInt by decide)

end Stream

end AnySketchCorrectness.DistributedDiscreteGaussianNoiser
