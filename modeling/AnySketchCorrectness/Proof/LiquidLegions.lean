import AnySketchCorrectness.Proof.Estimators
import AnySketchCorrectness.Proof.ExpectedRegisters
import Mathlib.Analysis.Complex.ExponentialBounds

/-!
# Estimates of real sketches

What the search inverts is the expected number of registers of a sketch, up to a few registers. So
the estimate is a number of items between those for which fewer and those for which more registers
are expected than were seen. With a sampling rate, the items are those that were sampled.
-/

namespace AnySketchCorrectness.Estimation

open TruncatedExponential ExponentialIntegral DoubleRounding

/-- The arithmetic is exact, so the estimate is a floor. -/
theorem scaledCardinality_id {cardinality : UInt64} (hcardinality : cardinality.toNat ≤ 2 ^ 62)
    (samplingRate : ℚ) :
    scaledCardinality id samplingRate cardinality.toNat = cardinality.toNat / samplingRate := by
  have hinteger := toInt_truncate_round isDoubleRounding_id hcardinality
  simp only [id, Int.floor_natCast] at hinteger
  simp only [scaledCardinality, id, hinteger, Int.cast_natCast]

section Expected

variable {expint : ℝ → ℝ} (hexpint : ∀ x < 0, expint x = negativeEi x) {decayRate : ℝ}
  (hrate : 0 < decayRate) {numOfTotalRegisters : UInt64} (htotal : 0 < numOfTotalRegisters.toNat)
include hexpint hrate htotal

theorem getExpectedActiveRegisterCount_mono {cardinality cardinality' : UInt64}
    (hle : cardinality ≤ cardinality') :
    getExpectedActiveRegisterCount (realEstimatorCmath expint) decayRate numOfTotalRegisters
        cardinality
      ≤ getExpectedActiveRegisterCount (realEstimatorCmath expint) decayRate numOfTotalRegisters
        cardinality' := by
  rw [UInt64.le_iff_toNat_le] at hle ⊢
  rw [toNat_getExpectedActiveRegisterCount hexpint hrate htotal,
    toNat_getExpectedActiveRegisterCount hexpint hrate htotal]
  apply Nat.floor_mono
  apply mul_le_mul_of_nonneg_left _ (Nat.cast_nonneg _)
  apply activeFraction_mono hrate (by positivity)
  gcongr

/-- In the range of the search the expected number of registers gets as close to all of them as the
rounding allows. -/
theorem exists_le_getExpectedActiveRegisterCount {activeRegisterCount : UInt64}
    (hactive : activeRegisterCount < numOfTotalRegisters)
    (hrange : numOfTotalRegisters.toNat * (Real.exp decayRate - 1)
      * Real.log numOfTotalRegisters.toNat ≤ 2 ^ 62 * decayRate) :
    ∃ cardinality, cardinality.toNat ≤ 2 ^ 62 ∧ activeRegisterCount
      ≤ getExpectedActiveRegisterCount (realEstimatorCmath expint) decayRate numOfTotalRegisters
        cardinality := by
  have hcardinality : (UInt64.ofNat (2 ^ 62)).toNat = 2 ^ 62 := by decide
  have hcast : (0 : ℝ) < numOfTotalRegisters.toNat := Nat.cast_pos.mpr htotal
  have hexp := exp_sub_one_pos hrate
  refine ⟨UInt64.ofNat (2 ^ 62), hcardinality.le, ?_⟩
  rw [UInt64.le_iff_toNat_le, toNat_getExpectedActiveRegisterCount hexpint hrate htotal,
    hcardinality]
  have hexponent : Real.log numOfTotalRegisters.toNat
      ≤ (2 ^ 62 : ℕ) / numOfTotalRegisters.toNat * (decayRate / (Real.exp decayRate - 1)) := by
    rw [div_mul_div_comm, le_div_iff₀ (by positivity)]
    push_cast
    linarith
  have hmissing : numOfTotalRegisters.toNat * Real.exp (-((2 ^ 62 : ℕ) / numOfTotalRegisters.toNat
      * (decayRate / (Real.exp decayRate - 1)))) ≤ 1 := by
    calc numOfTotalRegisters.toNat * Real.exp (-((2 ^ 62 : ℕ) / numOfTotalRegisters.toNat
          * (decayRate / (Real.exp decayRate - 1))))
        ≤ numOfTotalRegisters.toNat * Real.exp (-Real.log numOfTotalRegisters.toNat) := by
          gcongr
      _ = 1 := by
          rw [Real.exp_neg, Real.exp_log hcast, mul_inv_cancel₀ hcast.ne']
  have hfraction := le_activeFraction hrate
    (show 0 ≤ ((2 ^ 62 : ℕ) : ℝ) / numOfTotalRegisters.toNat by positivity)
  have hsucc : ((activeRegisterCount.toNat + 1 : ℕ) : ℝ) ≤ numOfTotalRegisters.toNat :=
    Nat.cast_le.mpr (UInt64.lt_iff_toNat_lt.mp hactive)
  apply Nat.le_floor
  rw [Nat.cast_succ] at hsucc
  have hscaled := mul_le_mul_of_nonneg_left hfraction hcast.le
  linarith

end Expected

/-- If a quotient does not fit, its conversion is negative, and no number of items is below it. -/
theorem add_one_le_of_le_truncate {quotient samplingRate : ℚ} (hsampling : 0 < samplingRate)
    (hquotient : 0 ≤ quotient) {n : ℕ}
    (hle : (n + 1 : ℚ) ≤ (truncate quotient).toInt * samplingRate) :
    (n + 1 : ℚ) ≤ quotient * samplingRate := by
  have hn : (0 : ℚ) ≤ n := Nat.cast_nonneg n
  rcases lt_or_ge quotient (2 ^ 63) with hfits | hoverflow
  · rw [toInt_truncate hquotient hfits] at hle
    exact hle.trans (mul_le_mul_of_nonneg_right (Int.floor_le quotient) hsampling.le)
  · exfalso
    have hnegative : ((Int64.minValue.toInt : ℤ) : ℚ) * samplingRate ≤ 0 :=
      mul_nonpos_of_nonpos_of_nonneg (Int.cast_nonpos.mpr (by decide)) hsampling.le
    rw [truncate_of_overflow hoverflow] at hle
    linarith

/-- The numbers of sampled items that are below or above an estimate are so for the result of the
search, too. -/
theorem estimate_cases {samplingRate : ℚ} (hsampling : 0 < samplingRate) (cardinality n : ℕ) :
    ((n + 1 : ℚ) ≤ (truncate (cardinality / samplingRate)).toInt * samplingRate →
      n + 1 ≤ cardinality) ∧
    ((cardinality / samplingRate : ℚ) < 2 ^ 63 →
      ((truncate (cardinality / samplingRate)).toInt + 1 : ℚ) * samplingRate ≤ n →
      cardinality + 1 ≤ n) := by
  have hquotient : 0 ≤ (cardinality : ℚ) / samplingRate :=
    div_nonneg (Nat.cast_nonneg _) hsampling.le
  constructor
  · intro hle
    have hbelow := add_one_le_of_le_truncate hsampling hquotient hle
    rw [div_mul_cancel₀ _ hsampling.ne'] at hbelow
    exact_mod_cast hbelow
  · intro hfits hle
    have hfloorLt := Int.lt_floor_add_one ((cardinality : ℚ) / samplingRate)
    rw [div_lt_iff₀ hsampling] at hfloorLt
    rw [toInt_truncate hquotient hfits] at hle
    exact_mod_cast hfloorLt.trans_le hle

/-! A sketch of 100000 registers with decay rate 12 is within the range of the search. -/

theorem range_twelve : ((100000 : Int64).toInt.toNat : ℝ) * (Real.exp 12 - 1)
    * Real.log (100000 : Int64).toInt.toNat ≤ 2 ^ 62 * 12 := by
  have hsize : ((100000 : Int64).toInt.toNat : ℝ) = 100000 := by
    norm_cast
  have hexp : Real.exp 12 ≤ 3 ^ 12 := by
    calc Real.exp 12 = Real.exp 1 ^ 12 := by
          rw [← Real.exp_nat_mul]
          norm_num
      _ ≤ 3 ^ 12 := by
          gcongr
          exact Real.exp_one_lt_three.le
  have hlog := Real.log_le_sub_one_of_pos (show (0 : ℝ) < 100000 by norm_num)
  rw [hsize]
  calc (100000 : ℝ) * (Real.exp 12 - 1) * Real.log 100000
      ≤ 100000 * 3 ^ 12 * (100000 - 1) := by
        gcongr
        linarith
    _ ≤ 2 ^ 62 * 12 := by norm_num

/-- **The estimate is between the numbers of items that explain the registers.** Both loops end.
Fewer sampled items than the estimate says have at most the seen number of registers in expectation,
and more have at least that if the quotient fits into an `int64_t`, with an error of a few
registers. -/
theorem estimateCardinalityLiquidLegions_brackets {expint : ℝ → ℝ}
    (hexpint : ∀ x < 0, expint x = negativeEi x) {decayRate : ℝ} (hrate : 0 < decayRate)
    {size : Int64} (hsize : 1 ≤ size) {activeRegisterCount : UInt64}
    (hactive : activeRegisterCount < size.toUInt64)
    (hrange : size.toInt.toNat * (Real.exp decayRate - 1) * Real.log size.toInt.toNat
      ≤ 2 ^ 62 * decayRate)
    {samplingRate : ℚ} (hsampling : 0 < samplingRate) :
    ∃ cardinality estimate, cardinality.toNat ≤ 2 ^ 62 ∧
      (∀ fuel, 62 ≤ fuel →
        invertMonotonic
          (getExpectedActiveRegisterCount (realEstimatorCmath expint) decayRate size.toUInt64)
          activeRegisterCount fuel = .ok cardinality ∧
        estimateCardinalityLiquidLegions id
          (getExpectedActiveRegisterCount (realEstimatorCmath expint) decayRate size.toUInt64)
          activeRegisterCount samplingRate fuel = .ok estimate) ∧
      ∀ {n : ℕ} {items : Fin n → ByteString} {sketch : (Fin n → Fin (2 ^ 64)) → AnySketch},
        (∀ fingerprints,
          AnySketch.SketchesItems decayRate size items fingerprints (sketch fingerprints)) →
        ((n + 1 : ℚ) ≤ estimate.toInt * samplingRate → AnySketch.expectedRegisterCount sketch
          ≤ activeRegisterCount.toNat + 3 + 2 * n * size.toInt.toNat / 2 ^ 64) ∧
        ((cardinality.toNat / samplingRate : ℚ) < 2 ^ 63 →
          (estimate.toInt + 1 : ℚ) * samplingRate ≤ n → activeRegisterCount.toNat
          ≤ AnySketch.expectedRegisterCount sketch + 2 + 2 * n * size.toInt.toNat / 2 ^ 64) := by
  have htoNat := toNat_toUInt64_size hsize
  have htotal : 0 < size.toUInt64.toNat := by
    rw [Int64.le_iff_toInt_le, Int64.toInt_one] at hsize
    omega
  have hcast : (0 : ℝ) < size.toInt.toNat := Nat.cast_pos.mpr (htoNat ▸ htotal)
  have hmono : ∀ x y : UInt64, x ≤ y →
      getExpectedActiveRegisterCount (realEstimatorCmath expint) decayRate size.toUInt64 x
        ≤ getExpectedActiveRegisterCount (realEstimatorCmath expint) decayRate size.toUInt64 y :=
    fun _ _ => getExpectedActiveRegisterCount_mono hexpint hrate htotal
  have hzero : getExpectedActiveRegisterCount (realEstimatorCmath expint) decayRate size.toUInt64 0
      ≤ activeRegisterCount := by
    rw [getExpectedActiveRegisterCount, if_pos rfl]
    exact UInt64.zero_le
  obtain ⟨k, cut, result, hinverted, hrun⟩ := exists_inverted hmono hzero
    (exists_le_getExpectedActiveRegisterCount hexpint hrate htotal hactive (htoNat.symm ▸ hrange))
  have hone := hinverted.one_le
  have hpred : (result - 1).toNat = result.toNat - 1 :=
    UInt64.toNat_sub_of_le _ _ (UInt64.le_iff_toNat_le.mpr hone)
  have hsucc : (result + 1).toNat = result.toNat + 1 := by
    rw [UInt64.toNat_add, UInt64.toNat_one, Nat.mod_eq_of_lt hinverted.succ_lt]
  have hbelow := UInt64.le_iff_toNat_le.mp hinverted.pred_le
  have habove := UInt64.le_iff_toNat_le.mp (hinverted.le_succ hmono)
  rw [toNat_getExpectedActiveRegisterCount hexpint hrate htotal, htoNat] at hbelow habove
  rw [hpred] at hbelow
  rw [hsucc] at habove
  have hscaled := scaledCardinality_id hinverted.le_two_pow_62 samplingRate
  refine ⟨result, truncate (result.toNat / samplingRate), hinverted.le_two_pow_62,
    fun fuel hfuel => ⟨hrun fuel hfuel, ?_⟩, ?_⟩
  · rw [← hscaled]
    exact estimateCardinalityLiquidLegions_of_run (hrun fuel hfuel)
  intro n items sketch hsketch
  have hnear := abs_le.mp (AnySketch.abs_expectedRegisterCount_sub_le hrate hsize hsketch)
  obtain ⟨hfewer, hmore⟩ := estimate_cases hsampling result.toNat n
  have hfraction : ∀ x y : ℕ, x ≤ y →
      size.toInt.toNat * activeFraction decayRate (x / size.toInt.toNat)
        ≤ size.toInt.toNat * activeFraction decayRate (y / size.toInt.toNat) := by
    intro x y hle
    apply mul_le_mul_of_nonneg_left _ hcast.le
    apply activeFraction_mono hrate (by positivity)
    gcongr
  constructor
  · intro hle
    have hn : n ≤ result.toNat - 1 := Nat.le_sub_of_add_le (hfewer hle)
    have hfloor : size.toInt.toNat
          * activeFraction decayRate ((result.toNat - 1 : ℕ) / size.toInt.toNat)
        < activeRegisterCount.toNat + 1 := by
      refine (Nat.lt_floor_add_one _).trans_le ?_
      exact_mod_cast Nat.succ_le_succ hbelow
    linarith [hfraction n _ hn, hnear.2]
  · intro hfits hle
    have hfloor : (activeRegisterCount.toNat : ℝ) ≤ size.toInt.toNat
          * activeFraction decayRate ((result.toNat + 1 : ℕ) / size.toInt.toNat) := by
      refine (Nat.cast_le.mpr habove).trans (Nat.floor_le ?_)
      exact mul_nonneg hcast.le (activeFraction_nonneg hrate (by positivity))
    linarith [hfraction _ n (hmore hfits hle), hnear.1]

theorem estimateCardinalityLiquidLegions_brackets_two : ∃ estimate : Int64,
    (∀ fuel, 62 ≤ fuel → estimateCardinalityLiquidLegions id
      (getExpectedActiveRegisterCount (realEstimatorCmath negativeEi) 12 100000) 1 1 fuel
        = .ok estimate) ∧
    (3 ≤ estimate.toInt → AnySketch.expectedRegisterCount (twoItemSketch 12 100000) ≤ 5) ∧
    (estimate.toInt ≤ 1 →
      1 ≤ AnySketch.expectedRegisterCount (twoItemSketch 12 100000) + 3) := by
  have hsize : ((100000 : Int64).toInt.toNat : ℝ) = 100000 := by
    norm_cast
  obtain ⟨cardinality, estimate, hbound, hestimate, hitems⟩ :=
    estimateCardinalityLiquidLegions_brackets
    (fun _ _ => rfl) (show (0 : ℝ) < 12 by norm_num) (show (1 : Int64) ≤ 100000 by decide)
    (show (1 : UInt64) < (100000 : Int64).toUInt64 by decide) range_twelve zero_lt_one
  obtain ⟨hfewer, hmore⟩ := hitems (sketchesItems_twoItemSketch 12 100000)
  have hactive : ((1 : UInt64).toNat : ℝ) = 1 := by
    norm_cast
  rw [hsize, hactive, Nat.cast_two] at hfewer hmore
  refine ⟨estimate, fun fuel hfuel => (hestimate fuel hfuel).2, fun hle => ?_, fun hle => ?_⟩
  · have hthree : (3 : ℚ) ≤ estimate.toInt := by exact_mod_cast hle
    have hexpected := hfewer (by linarith)
    linarith
  · have hone : (estimate.toInt : ℚ) ≤ 1 := by exact_mod_cast hle
    have hfits : (cardinality.toNat : ℚ) < 2 ^ 63 := by
      exact_mod_cast hbound.trans_lt (by norm_num)
    have hexpected := hmore (by rwa [div_one]) (by linarith)
    linarith

/-! ### A quotient that does not fit -/

/-- The first region holds the inverse of `0`, and the search leaves its left end out. -/
theorem Inverted.eq_one {function : UInt64 → UInt64} {k cut : ℕ} {result : UInt64}
    (hinverted : Inverted function 0 k cut result) : result = 1 := by
  have hk : k = 0 := by
    by_contra hk
    exact UInt64.not_lt_zero (hinverted.lt_target hk)
  subst hk
  rw [← UInt64.toNat_inj]
  exact Nat.le_antisymm hinverted.le_two_pow hinverted.one_le

theorem toNat_getExpectedActiveRegisterCount_twelve_le (cardinality : UInt64) :
    (getExpectedActiveRegisterCount (realEstimatorCmath negativeEi) 12 100000 cardinality).toNat
      ≤ 13 * cardinality.toNat := by
  have hrate : (0 : ℝ) < 12 := by norm_num
  have htotal : ((100000 : UInt64).toNat : ℝ) = 100000 := by
    norm_cast
  have hexp : (13 : ℝ) ≤ Real.exp 12 := by
    linarith [Real.add_one_le_exp (12 : ℝ)]
  have hdensity : density 12 0 ≤ 13 := by
    rw [density, sub_zero, mul_one, div_le_iff₀ (exp_sub_one_pos hrate)]
    linarith
  have hfraction := activeFraction_le hrate
    (show 0 ≤ (cardinality.toNat : ℝ) / 100000 by positivity)
  rw [toNat_getExpectedActiveRegisterCount (fun _ _ => rfl) hrate (by decide), htotal]
  apply Nat.floor_le_of_le
  calc (100000 : ℝ) * activeFraction 12 (cardinality.toNat / 100000)
      ≤ 100000 * (cardinality.toNat / 100000 * 13) := by
        gcongr
        exact hfraction.trans (mul_le_mul_of_nonneg_left hdensity (by positivity))
    _ = (13 * cardinality.toNat : ℕ) := by
        push_cast
        ring

/-- With 40 of 100000 registers and a small sampling rate the quotient overflows, and the estimate
is smaller than with none. -/
theorem not_estimateCardinalityLiquidLegions_monotone :
    ¬ ∀ (function : UInt64 → UInt64) (target target' : UInt64) (samplingRate : ℚ),
      (∀ x y, x ≤ y → function x ≤ function y) → function 0 ≤ target → target ≤ target' →
      (∃ x, x.toNat ≤ 2 ^ 62 ∧ target' ≤ function x) → 0 < samplingRate → samplingRate ≤ 1 →
      ∀ estimate estimate', (∀ fuel, 62 ≤ fuel →
        estimateCardinalityLiquidLegions roundToDouble function target samplingRate fuel
            = .ok estimate ∧
        estimateCardinalityLiquidLegions roundToDouble function target' samplingRate fuel
            = .ok estimate') → estimate ≤ estimate' := by
  intro hmonotone
  have hrate : (0 : ℝ) < 12 := by norm_num
  have htotal : 0 < (100000 : UInt64).toNat := by decide
  have hmono : ∀ x y : UInt64, x ≤ y →
      getExpectedActiveRegisterCount (realEstimatorCmath negativeEi) 12 100000 x
        ≤ getExpectedActiveRegisterCount (realEstimatorCmath negativeEi) 12 100000 y :=
    fun _ _ => getExpectedActiveRegisterCount_mono (fun _ _ => rfl) hrate htotal
  have hzero : ∀ target : UInt64,
      getExpectedActiveRegisterCount (realEstimatorCmath negativeEi) 12 100000 0 ≤ target := by
    intro target
    rw [getExpectedActiveRegisterCount, if_pos rfl]
    exact UInt64.zero_le
  have hreached := exists_le_getExpectedActiveRegisterCount (fun _ _ => rfl) hrate htotal
    (show (40 : UInt64) < 100000 by decide) range_twelve
  obtain ⟨k, cut, result, hinverted, hrun⟩ :=
    exists_inverted hmono (hzero 0) ⟨0, Nat.zero_le _, UInt64.zero_le⟩
  obtain ⟨k', cut', result', hinverted', hrun'⟩ :=
    exists_inverted hmono (hzero 40) hreached
  have hround := isDoubleRounding_roundToDouble
  have hscaled : ∀ x : UInt64, x.toNat ≤ 2 ^ 53 →
      scaledCardinality roundToDouble (1 / 2 ^ 62) (roundToDouble x.toNat) = x.toNat * 2 ^ 62 := by
    intro x hx
    rw [scaledCardinality_of_exact hround hx, div_div_eq_mul_div, div_one]
    exact_mod_cast hround.round_mul_two_pow (m := x.toNat) (k := 62)
      (by rw [Nat.abs_cast]; exact_mod_cast hx) (by decide)
  have hone : scaledCardinality roundToDouble (1 / 2 ^ 62) (roundToDouble result.toNat)
      = 2 ^ 62 := by
    rw [hscaled result (hinverted.eq_one ▸ by decide), hinverted.eq_one, UInt64.toNat_one,
      Nat.cast_one, one_mul]
  have htwo : 2 ≤ result' := by
    have hcover := UInt64.le_iff_toNat_le.mp (hinverted'.le_succ hmono)
    have hexpected := toNat_getExpectedActiveRegisterCount_twelve_le (result' + 1)
    have hsucc := hinverted'.succ_lt
    rw [UInt64.toNat_add, UInt64.toNat_one, Nat.mod_eq_of_lt hsucc] at hexpected
    rw [UInt64.le_iff_toNat_le]
    change 40 ≤ _ at hcover
    change 2 ≤ _
    omega
  have hoverflow : 2 ^ 63
      ≤ scaledCardinality roundToDouble (1 / 2 ^ 62) (roundToDouble result'.toNat) := by
    calc (2 : ℚ) ^ 63 = scaledCardinality roundToDouble (1 / 2 ^ 62)
          (roundToDouble (2 : UInt64).toNat) := by
          rw [hscaled 2 (by decide), show (2 : UInt64).toNat = 2 from rfl]
          norm_num
      _ ≤ _ := scaledCardinality_le hround (by norm_num) htwo hinverted'.le_two_pow_62
  have hle := hmonotone _ 0 40 (1 / 2 ^ 62) hmono (hzero 0) (by decide) hreached (by norm_num)
    (by norm_num) _ _ fun fuel hfuel =>
      ⟨estimateCardinalityLiquidLegions_of_run (hrun fuel hfuel),
        estimateCardinalityLiquidLegions_of_run (hrun' fuel hfuel)⟩
  rw [hone, truncate_of_overflow hoverflow, Int64.le_iff_toInt_le,
    toInt_truncate (by norm_num) (by norm_num)] at hle
  have hfloor : (0 : ℤ) ≤ ⌊(2 : ℚ) ^ 62⌋ := Int.floor_nonneg.mpr (by norm_num)
  have hnegative : Int64.minValue.toInt < 0 := by decide
  omega

end AnySketchCorrectness.Estimation
