import AnySketchCorrectness.Proof.NoiseLaw

/-!
# The law of an attempt of the discrete Gaussian noiser

The difference of two geometric samples falls off on both sides, and the trial that decides about it
corrects this to the weight of a discrete Gaussian distribution.
-/

namespace AnySketchCorrectness.DistributedDiscreteGaussianNoiser

open MeasureTheory RandomSource
open DistributedGeometricNoiser (countable_int32 countable_int64)
open scoped ENNReal

/-! ### The difference of two samples -/

noncomputable def differenceLaw (law : PMF Int32) : PMF Int64 :=
  law.bind fun first => law.map fun second => (first - second).toInt64

theorem toInt_difference {first second : Int32} (hfirst : 0 ≤ first.toInt)
    (hsecond : 0 ≤ second.toInt) :
    (first - second).toInt64.toInt = first.toInt - second.toInt := by
  have hfirstLt := first.toInt_lt
  have hsecondLt := second.toInt_lt
  rw [Int32.toInt_toInt64, Int32.toInt_sub]
  exact Int.bmod_eq_of_le (by omega) (by omega)

/-- The pairs with a difference are found by counting up from the least of them. -/
theorem differenceLaw_apply {law : PMF Int32} {p : ℝ} (hlaw : IsGeometricLaw law p) (hle : p ≤ 1)
    (y : Int64) :
    differenceLaw law y = law 0 ^ 2 * ENNReal.ofReal ((1 - p) ^ y.toInt.natAbs
      * ∑ k ∈ Finset.range (2 ^ 31 - y.toInt.natAbs), ((1 - p) ^ 2) ^ k) := by
  classical
  have hfactor : 0 ≤ 1 - p := sub_nonneg.mpr hle
  let first : ℕ → Int32 := fun k => Int32.ofNat (k + y.toInt.toNat)
  let second : ℕ → Int32 := fun k => Int32.ofNat (k + (-y.toInt).toNat)
  let pairs : Finset (Int32 × Int32) :=
    (Finset.range (2 ^ 31 - y.toInt.natAbs)).image fun k => (first k, second k)
  have htoInt : ∀ k ∈ Finset.range (2 ^ 31 - y.toInt.natAbs),
      (first k).toInt = k + y.toInt.toNat ∧ (second k).toInt = k + (-y.toInt).toNat := by
    intro k hk
    have := Finset.mem_range.mp hk
    exact ⟨Int32.toInt_ofNat_of_lt (by omega), Int32.toInt_ofNat_of_lt (by omega)⟩
  have hdifference : differenceLaw law = (law.bind fun first => law.map (Prod.mk first)).map
      fun pair => (pair.1 - pair.2).toInt64 := by
    rw [PMF.map_bind]
    simp only [PMF.map_comp]
    rfl
  have hother : ∀ pair : Int32 × Int32, pair ∉ pairs →
      {pair : Int32 × Int32 | y = (pair.1 - pair.2).toInt64}.indicator
        (law.bind fun first => law.map (Prod.mk first)) pair = 0 := by
    rintro ⟨i, j⟩ hout
    refine Set.indicator_apply_eq_zero.mpr fun hy => ?_
    rw [bind_map_mk_apply]
    by_cases hi : 0 ≤ i.toInt
    · by_cases hj : 0 ≤ j.toInt
      · refine absurd ?_ hout
        have hi' := i.toInt_lt
        have hj' := j.toInt_lt
        have hy : y.toInt = i.toInt - j.toInt := by
          rw [show y = (i - j).toInt64 from hy, toInt_difference hi hj]
        refine Finset.mem_image.mpr ⟨min i.toInt.toNat j.toInt.toNat,
          Finset.mem_range.mpr (by omega), Prod.ext ?_ ?_⟩
        · refine Int32.toInt.inj ((Int32.toInt_ofNat_of_lt (by omega)).trans ?_)
          change _ = i.toInt
          omega
        · refine Int32.toInt.inj ((Int32.toInt_ofNat_of_lt (by omega)).trans ?_)
          change _ = j.toInt
          omega
      · rw [hlaw.apply_neg j (not_le.mp hj), mul_zero]
    · rw [hlaw.apply_neg i (not_le.mp hi), zero_mul]
  have hpair : ∀ k ∈ Finset.range (2 ^ 31 - y.toInt.natAbs),
      {pair : Int32 × Int32 | y = (pair.1 - pair.2).toInt64}.indicator
        (law.bind fun first => law.map (Prod.mk first)) (first k, second k)
        = law 0 ^ 2 * ENNReal.ofReal ((1 - p) ^ y.toInt.natAbs * ((1 - p) ^ 2) ^ k) := by
    intro k hk
    obtain ⟨hfirst, hsecond⟩ := htoInt k hk
    have hmem : y = (first k - second k).toInt64 := by
      refine Int64.toInt.inj ?_
      rw [toInt_difference (by omega) (by omega)]
      omega
    rw [Set.indicator_of_mem (show (first k, second k) ∈ _ from hmem), bind_map_mk_apply,
      hlaw.apply_nonneg (first k) (by omega), hlaw.apply_nonneg (second k) (by omega),
      mul_mul_mul_comm, ← sq, ← ENNReal.ofReal_mul (by positivity), ← pow_add, ← pow_mul,
      ← pow_add]
    congr 3
    omega
  have hinjective : Set.InjOn (fun k => (first k, second k))
      (Finset.range (2 ^ 31 - y.toInt.natAbs)) := by
    intro k hk k' hk' heq
    have hfirst := congrArg (fun pair : Int32 × Int32 => pair.1.toInt) heq
    simp only at hfirst
    rw [(htoInt k hk).1, (htoInt k' hk').1] at hfirst
    omega
  rw [hdifference, map_apply_eq_tsum, tsum_subtype, tsum_eq_sum fun pair hout => hother pair hout,
    Finset.sum_image hinjective, Finset.sum_congr rfl hpair, ← Finset.mul_sum,
    ← ENNReal.ofReal_sum_of_nonneg fun k _ => by positivity, ← Finset.mul_sum]

/-! ### One attempt -/

section Attempt

variable {Rng : Type}

noncomputable def attemptDraw (distributions : GaussianDistributions ℝ Rng)
    (sigmaSq t pGeometric : ℝ) (rng : Rng) : (Int64 × Int32) × Rng :=
  let first := distributions.geometricDistribution pGeometric rng
  let second := distributions.geometricDistribution pGeometric first.2
  let y := (first.1 - second.1).toInt64
  let trial := distributions.binomialDistribution 1 (pBernoulli realGaussianCmath sigmaSq t y)
    second.2
  ((y, trial.1), trial.2)

noncomputable def attemptLaw (law : PMF Int32) (trialLaw : Int64 → PMF Int32) :
    PMF (Int64 × Int32) :=
  (differenceLaw law).bind fun y => (trialLaw y).map (Prod.mk y)

theorem draws_attemptDraw [MeasurableSpace Rng] {source : ℕ → Measure Rng}
    {distributions : GaussianDistributions ℝ Rng} {sigmaSq t pGeometric : ℝ} {law : PMF Int32}
    {trialLaw : Int64 → PMF Int32}
    (hgeometric : Draws source (distributions.geometricDistribution pGeometric) law)
    (htrial : ∀ y, Draws source (distributions.binomialDistribution 1
      (pBernoulli realGaussianCmath sigmaSq t y)) (trialLaw y)) :
    Draws (fun n => source (3 * n)) (attemptDraw distributions sigmaSq t pGeometric)
      (attemptLaw law trialLaw) := by
  intro n
  have hdifference := (hgeometric (3 * n + 2)).bind fun first =>
    (hgeometric (3 * n + 1)).map fun second => (first - second).toInt64
  exact hdifference.bind fun y => (htrial y (3 * n)).map (Prod.mk y)

end Attempt

/-! ### The weight of a value -/

section Weight

variable {sigma t : ℝ}

theorem pBernoulli_eq (y : Int64) :
    pBernoulli realGaussianCmath (sigma * sigma) t y
      = Real.exp (-(y.toInt.natAbs - sigma ^ 2 / t) ^ 2 / (2 * sigma ^ 2)) := by
  have hpow : ((((y.toInt.natAbs : ℕ) : ℤ) : ℝ) - sigma * sigma / t) ^ (2.0 : ℝ)
      = (y.toInt.natAbs - sigma ^ 2 / t) ^ 2 := by
    rw [show (2.0 : ℝ) = ((2 : ℕ) : ℝ) by norm_num, Real.rpow_natCast, Int.cast_natCast, sq sigma]
  change Real.exp (-((((y.toInt.natAbs : ℕ) : ℤ) : ℝ) - sigma * sigma / t) ^ (2.0 : ℝ) * 0.5
    / (sigma * sigma)) = _
  rw [hpow]
  congr 1
  rw [show (0.5 : ℝ) = 1 / 2 by norm_num]
  ring

/-- Completing the square. -/
theorem exp_mul_exp_eq (hsigma : 0 < sigma) (ht : 0 < t) (n : ℕ) :
    Real.exp (-1 / t) ^ n * Real.exp (-(n - sigma ^ 2 / t) ^ 2 / (2 * sigma ^ 2))
      = Real.exp (-(sigma ^ 2) / (2 * t ^ 2)) * Real.exp (-(n : ℝ) ^ 2 / (2 * sigma ^ 2)) := by
  rw [← Real.exp_nat_mul, ← Real.exp_add, ← Real.exp_add]
  congr 1
  field_simp
  ring

theorem exp_sq_eq (t : ℝ) : Real.exp (-1 / t) ^ 2 = Real.exp (-2 / t) := by
  rw [← Real.exp_nat_mul]
  congr 1
  ring

theorem sum_geometric_eq (ht : 0 < t) (m : ℕ) :
    ∑ k ∈ Finset.range m, (Real.exp (-1 / t) ^ 2) ^ k
      = (1 - Real.exp (-2 / t) ^ m) / (1 - Real.exp (-2 / t)) := by
  have hne : Real.exp (-2 / t) ≠ 1 :=
    (Real.exp_lt_one_iff.mpr (div_neg_of_neg_of_pos (by norm_num) ht)).ne
  rw [exp_sq_eq, geom_sum_eq hne, ← neg_sub, ← neg_sub 1, neg_div_neg_eq]

theorem gaussianWeight_eq (sigma : ℝ) (y : ℤ) :
    gaussianWeight sigma y = Real.exp (-(y.natAbs : ℝ) ^ 2 / (2 * sigma ^ 2))
      * (1 - Real.exp (-2 / (⌊sigma⌋ + 1)) ^ (2 ^ 31 - y.natAbs)) := by
  have hexponent : -(y : ℝ) ^ 2 * 0.5 / sigma ^ 2 = -(y.natAbs : ℝ) ^ 2 / (2 * sigma ^ 2) := by
    rw [Nat.cast_natAbs, Int.cast_abs, sq_abs, show (0.5 : ℝ) = 1 / 2 by norm_num]
    ring
  rw [gaussianWeight, hexponent, pow_mul, exp_sq_eq]

theorem exp_floor_lt_one (hsigma : 0 < sigma) : Real.exp (-2 / (⌊sigma⌋ + 1)) < 1 := by
  have hfloor : (0 : ℝ) ≤ ⌊sigma⌋ := by exact_mod_cast Int.floor_nonneg.mpr hsigma.le
  exact Real.exp_lt_one_iff.mpr (div_neg_of_neg_of_pos (by norm_num) (by linarith))

theorem gaussianWeight_nonneg (hsigma : 0 < sigma) (y : ℤ) : 0 ≤ gaussianWeight sigma y := by
  rw [gaussianWeight_eq]
  refine mul_nonneg (Real.exp_pos _).le (sub_nonneg.mpr (pow_le_one₀ (Real.exp_pos _).le ?_))
  exact (exp_floor_lt_one hsigma).le

theorem gaussianWeight_zero_pos (hsigma : 0 < sigma) : 0 < gaussianWeight sigma 0 := by
  rw [gaussianWeight_eq]
  refine mul_pos (Real.exp_pos _) (sub_pos.mpr (pow_lt_one₀ (Real.exp_pos _).le
    (exp_floor_lt_one hsigma) ?_))
  rw [Int.natAbs_zero, Nat.sub_zero]
  exact Nat.two_pow_pos 31 |>.ne'

/-- An attempt ends with a value, and with success, in proportion to the weight of the value. -/
theorem attemptLaw_success (hsigma : 0 < sigma) {law : PMF Int32} {trialLaw : Int64 → PMF Int32}
    (hlaw : IsGeometricLaw law (1 - Real.exp (-1 / (⌊sigma⌋ + 1))))
    (htrial : ∀ y, trialLaw y 1 = ENNReal.ofReal
      (pBernoulli realGaussianCmath (sigma * sigma) (⌊sigma⌋ + 1) y)) (y : Int64) :
    attemptLaw law trialLaw (y, 1)
      = law 0 ^ 2 * ENNReal.ofReal (Real.exp (-(sigma ^ 2) / (2 * (⌊sigma⌋ + 1) ^ 2))
          / (1 - Real.exp (-2 / (⌊sigma⌋ + 1))))
        * ENNReal.ofReal (gaussianWeight sigma y.toInt) := by
  have hfloor : (0 : ℝ) ≤ ⌊sigma⌋ := by exact_mod_cast Int.floor_nonneg.mpr hsigma.le
  have ht : (0 : ℝ) < ⌊sigma⌋ + 1 := by linarith
  generalize hn : y.toInt.natAbs = n
  have hweight : gaussianWeight sigma y.toInt = Real.exp (-(n : ℝ) ^ 2 / (2 * sigma ^ 2))
      * (1 - Real.exp (-2 / (⌊sigma⌋ + 1)) ^ (2 ^ 31 - n)) := by
    rw [gaussianWeight_eq, hn]
  have hreal : Real.exp (-1 / (⌊sigma⌋ + 1)) ^ n
      * (∑ k ∈ Finset.range (2 ^ 31 - n), (Real.exp (-1 / (⌊sigma⌋ + 1)) ^ 2) ^ k)
      * Real.exp (-(n - sigma ^ 2 / (⌊sigma⌋ + 1)) ^ 2 / (2 * sigma ^ 2))
      = Real.exp (-(sigma ^ 2) / (2 * (⌊sigma⌋ + 1) ^ 2)) / (1 - Real.exp (-2 / (⌊sigma⌋ + 1)))
        * gaussianWeight sigma y.toInt := by
    rw [mul_right_comm, exp_mul_exp_eq hsigma ht, sum_geometric_eq ht, hweight]
    ring
  rw [attemptLaw, bind_map_mk_apply, differenceLaw_apply hlaw (by
      have := Real.exp_pos (-1 / (⌊sigma⌋ + 1 : ℝ))
      linarith), htrial, pBernoulli_eq, sub_sub_cancel, hn, mul_assoc, mul_assoc,
    ← ENNReal.ofReal_mul (by positivity), hreal, ← ENNReal.ofReal_mul]
  exact div_nonneg (Real.exp_pos _).le (sub_nonneg.mpr (exp_floor_lt_one hsigma).le)

end Weight

end AnySketchCorrectness.DistributedDiscreteGaussianNoiser
