import AnySketchCorrectness.ExponentialDistribution

/-!
# The range of the exponential distribution

The value of an item is the cell of `size` equal ones into which the quantile of its fingerprint
falls. The largest fingerprint has the quantile 1, and there is no cell for that.
-/

namespace AnySketchCorrectness

open TruncatedExponential

theorem exponentialValue_eq (rate : ℝ) (size : Int64) (fingerprint : UInt64) :
    exponentialValue rate size fingerprint
      = ⌊quantile rate (exponentialUniform fingerprint) * (size.toInt : ℝ)⌋ := rfl

theorem exponentialUniform_nonneg (fingerprint : UInt64) : 0 ≤ exponentialUniform fingerprint :=
  div_nonneg (Nat.cast_nonneg _) (by norm_num)

theorem exponentialUniform_mono {fingerprint fingerprint' : UInt64}
    (hle : fingerprint ≤ fingerprint') :
    exponentialUniform fingerprint ≤ exponentialUniform fingerprint' := by
  rw [UInt64.le_iff_toNat_le] at hle
  exact div_le_div_of_nonneg_right (Nat.cast_le.mpr hle) (by norm_num)

theorem exponentialUniform_lt_one {fingerprint : UInt64}
    (hne : fingerprint.toNat ≠ 2 ^ 64 - 1) : exponentialUniform fingerprint < 1 := by
  have hlt : fingerprint.toNat < 2 ^ 64 - 1 := by
    have hbound := fingerprint.toNat_lt
    omega
  have hcast : (fingerprint.toNat : ℝ) < 2 ^ 64 - 1 := by
    calc (fingerprint.toNat : ℝ)
        < ((2 ^ 64 - 1 : ℕ) : ℝ) := Nat.cast_lt.mpr hlt
      _ = 2 ^ 64 - 1 := by norm_num
  rw [exponentialUniform, div_lt_one (by norm_num)]
  exact hcast

theorem exponentialUniform_eq_one {fingerprint : UInt64}
    (heq : fingerprint.toNat = 2 ^ 64 - 1) : exponentialUniform fingerprint = 1 := by
  rw [exponentialUniform, heq]
  norm_num

theorem exponentialUniform_le_one (fingerprint : UInt64) : exponentialUniform fingerprint ≤ 1 := by
  by_cases heq : fingerprint.toNat = 2 ^ 64 - 1
  · exact (exponentialUniform_eq_one heq).le
  · exact (exponentialUniform_lt_one heq).le

/-- The computed value is in the range, and it is what `Apply` returns for every item with this
fingerprint. -/
structure AppliesInRange (rate : ℝ) (size : Int64) (fingerprint : UInt64) : Prop where
  value_nonneg : 0 ≤ exponentialValue rate size fingerprint
  value_le : exponentialValue rate size fingerprint ≤ size.toInt - 1
  apply_ok : ∀ (fingerprinter : Fingerprinter) item itemMetadata,
    fingerprinter item = fingerprint → ∃ value,
      (getExponentialDistribution fingerprinter rate size).apply item itemMetadata = .ok value
        ∧ value.toInt = exponentialValue rate size fingerprint

section Range

variable {rate : ℝ} {size : Int64} (hrate : 0 < rate) (hsize : 1 ≤ size)

theorem getExponentialDistribution_apply (fingerprinter : Fingerprinter) (item : ByteString)
    (itemMetadata : ItemMetadata) (value : Int64) :
    (getExponentialDistribution fingerprinter rate size).apply item itemMetadata = .ok value
      ↔ Int64.ofInt (exponentialValue rate size (fingerprinter item)) = value
        ∧ 0 ≤ value ∧ value ≤ size - 1 := by
  have hsizeEq : size - 1 - 0 + 1 = size := by
    rw [Int64.sub_zero, Int64.sub_add_cancel]
  rw [getExponentialDistribution, BaseDistributionImpl.toBaseDistribution,
    BaseDistributionImpl.apply_eq_ok_iff]
  change exponentialApplyToFingerprint rate 0 (size - 1) (fingerprinter item) itemMetadata
    = .ok value ∧ _ ↔ _
  rw [exponentialApplyToFingerprint, hsizeEq, Except.ok.injEq]

include hrate hsize

theorem appliesInRange_of_ne {fingerprint : UInt64} (hne : fingerprint.toNat ≠ 2 ^ 64 - 1) :
    AppliesInRange rate size fingerprint := by
  have hone : 1 ≤ size.toInt := by rwa [Int64.le_iff_toInt_le, Int64.toInt_one] at hsize
  have hnonneg : 0 ≤ exponentialValue rate size fingerprint :=
    floor_quantile_nonneg hrate hone (exponentialUniform_nonneg fingerprint)
      (exponentialUniform_le_one fingerprint)
  have hlt : exponentialValue rate size fingerprint < size.toInt :=
    floor_quantile_lt hrate hone (exponentialUniform_lt_one hne)
  refine ⟨hnonneg, by omega, ?_⟩
  rintro fingerprinter item itemMetadata rfl
  have hbound := size.toInt_lt
  have hmax : (size - 1).toInt = size.toInt - 1 := by
    rw [Int64.toInt_sub, Int64.toInt_one, Int.bmod_def]
    omega
  have htoInt : (Int64.ofInt (exponentialValue rate size (fingerprinter item))).toInt
      = exponentialValue rate size (fingerprinter item) :=
    Int64.toInt_ofInt_of_le (by omega) (by omega)
  refine ⟨_, (getExponentialDistribution_apply _ _ _ _).mpr ⟨rfl, ?_, ?_⟩, htoInt⟩
  · rw [Int64.le_iff_toInt_le, htoInt, Int64.toInt_zero]
    exact hnonneg
  · rw [Int64.le_iff_toInt_le, htoInt, hmax]
    omega

/-- **The exponential distribution stays in its range, except on the largest fingerprint.** -/
theorem appliesInRange_iff :
    (∀ fingerprint, AppliesInRange rate size fingerprint ↔ fingerprint.toNat ≠ 2 ^ 64 - 1) ∧
    ∀ fingerprint fingerprint', fingerprint ≤ fingerprint' →
      exponentialValue rate size fingerprint ≤ exponentialValue rate size fingerprint' := by
  have hone : 1 ≤ size.toInt := by rwa [Int64.le_iff_toInt_le, Int64.toInt_one] at hsize
  constructor
  · intro fingerprint
    refine ⟨fun happlies heq => ?_, appliesInRange_of_ne hrate hsize⟩
    have hle := happlies.value_le
    rw [exponentialValue_eq, exponentialUniform_eq_one heq, floor_quantile_one] at hle
    omega
  · intro fingerprint fingerprint' hle
    exact floor_quantile_mono hrate hone (exponentialUniform_mono hle)
      (exponentialUniform_le_one fingerprint')

end Range

theorem appliesInRange_iff_two : AppliesInRange 2 10 50 :=
  ((appliesInRange_iff two_pos (by decide)).1 50).mpr (by decide)

/-- The largest fingerprint, for the distribution of the repository's own test. -/
theorem exponentialValue_out_of_range :
    exponentialValue 2 10 (UInt64.ofNat (2 ^ 64 - 1)) = 10 ∧
    (getExponentialDistribution (fun _ => UInt64.ofNat (2 ^ 64 - 1)) 2 10).maxValue = 9 ∧
    ∀ value, (getExponentialDistribution (fun _ => UInt64.ofNat (2 ^ 64 - 1)) 2 10).apply []
      (fun _ => none) ≠ .ok value := by
  have hvalue : exponentialValue 2 10 (UInt64.ofNat (2 ^ 64 - 1)) = 10 := by
    rw [exponentialValue_eq, exponentialUniform_eq_one (by decide), floor_quantile_one]
    decide
  refine ⟨hvalue, rfl, fun value hok => ?_⟩
  obtain ⟨hresult, -, hmax⟩ := (getExponentialDistribution_apply _ _ _ _).mp hok
  rw [hvalue] at hresult
  rw [← hresult] at hmax
  revert hmax
  decide

end AnySketchCorrectness
