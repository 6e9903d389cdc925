import AnySketchCorrectness.FingerprintingDistributions
import AnySketchCorrectness.Library.FisherYates

/-!
# The uniform distribution

The remainder is taken in `uint64_t` and a minimum that may be negative is added to it, all modulo
`2 ^ 64`. The result is the right one because it lies between the bounds. Only on the full range of
`int64_t` does the size not fit even an unsigned 64-bit number: it is zero there.
-/

namespace AnySketchCorrectness

/-- The number of values between the bounds, in unbounded integers. -/
def rangeSize (minValue maxValue : Int64) : ℕ :=
  (maxValue.toInt - minValue.toInt + 1).toNat

/-- **What a uniform distribution is meant to be**: every item is mapped into the range, and the
`2 ^ 64` fingerprints are spread over the values as evenly as possible. -/
structure IsUniform (minValue maxValue : Int64) : Prop where
  apply_ok : ∀ fingerprinter item itemMetadata, ∃ value,
    (getUniformDistribution fingerprinter minValue maxValue).apply item itemMetadata = .ok value
      ∧ minValue ≤ value ∧ value ≤ maxValue
  card_fingerprints : ∀ item itemMetadata value, minValue ≤ value → value ≤ maxValue →
    {fingerprint : Fin (2 ^ 64) |
      (getUniformDistribution (fun _ => UInt64.ofNat fingerprint) minValue maxValue).apply item
        itemMetadata = .ok value}.ncard
      ∈ ({2 ^ 64 / rangeSize minValue maxValue, 2 ^ 64 ⌈/⌉ rangeSize minValue maxValue} : Set ℕ)

theorem toNat_toUInt64 (x : Int64) : (x.toUInt64.toNat : ℤ) = x.toInt % 2 ^ 64 := by
  have htoInt : x.toInt = Int.bmod (x.toUInt64.toNat : ℤ) (2 ^ 64) :=
    BitVec.toInt_eq_toNat_bmod x.toBitVec
  have hlt := x.toUInt64.toNat_lt
  rw [htoInt, Int.bmod_def]
  omega

section Range

variable {minValue maxValue : Int64} (hle : minValue ≤ maxValue)
include hle

theorem rangeSize_eq :
    (rangeSize minValue maxValue : ℤ) = maxValue.toInt - minValue.toInt + 1 := by
  rw [Int64.le_iff_toInt_le] at hle
  exact Int.toNat_of_nonneg (by omega)

theorem rangeSize_pos : 0 < rangeSize minValue maxValue := by
  have hrange := rangeSize_eq hle
  rw [Int64.le_iff_toInt_le] at hle
  omega

/-- The size as the code computes it. -/
theorem toNat_size :
    (maxValue - minValue + 1).toUInt64.toNat = rangeSize minValue maxValue % 2 ^ 64 := by
  have hsize := toNat_toUInt64 (maxValue - minValue + 1)
  have hrange := rangeSize_eq hle
  rw [Int64.toInt_add, Int64.toInt_sub, Int64.toInt_one, Int.bmod_def, Int.bmod_def] at hsize
  omega

theorem uniformApplyToFingerprint_eq (hsize : rangeSize minValue maxValue < 2 ^ 64)
    (fingerprint : UInt64) (itemMetadata : ItemMetadata) :
    ∃ value, uniformApplyToFingerprint minValue maxValue fingerprint itemMetadata = .ok value
      ∧ value.toInt
        = minValue.toInt + (fingerprint.toNat % rangeSize minValue maxValue : ℕ) := by
  have htoNat := toNat_size hle
  rw [Nat.mod_eq_of_lt hsize] at htoNat
  have hrange := rangeSize_eq hle
  have hpositive := rangeSize_pos hle
  have hne : (maxValue - minValue + 1).toUInt64 ≠ 0 := by
    intro hzero
    rw [hzero] at htoNat
    exact hpositive.ne htoNat
  refine ⟨(fingerprint % (maxValue - minValue + 1).toUInt64 + minValue.toUInt64).toInt64,
    if_neg hne, ?_⟩
  have hremainder := Nat.mod_lt fingerprint.toNat hpositive
  have hmin := minValue.le_toInt
  have hmax := maxValue.toInt_lt
  have hpart : (fingerprint % (maxValue - minValue + 1).toUInt64).toInt64.toInt
      = Int.bmod ((fingerprint.toNat % rangeSize minValue maxValue : ℕ) : ℤ) (2 ^ 64) := by
    rw [← htoNat, ← UInt64.toNat_mod]
    exact BitVec.toInt_eq_toNat_bmod _
  have hsum : (fingerprint % (maxValue - minValue + 1).toUInt64 + minValue.toUInt64).toInt64
      = (fingerprint % (maxValue - minValue + 1).toUInt64).toInt64 + minValue := rfl
  rw [hsum, Int64.toInt_add, hpart, Int.bmod_def, Int.bmod_def]
  omega

/-- A fingerprint is mapped to a value exactly when its remainder is the value's distance from the
minimum. -/
theorem getUniformDistribution_apply_eq_ok_iff (hsize : rangeSize minValue maxValue < 2 ^ 64)
    (fingerprinter : Fingerprinter) (item : ByteString) (itemMetadata : ItemMetadata)
    (value : Int64) :
    (getUniformDistribution fingerprinter minValue maxValue).apply item itemMetadata = .ok value
      ↔ value.toInt = minValue.toInt
        + ((fingerprinter item).toNat % rangeSize minValue maxValue : ℕ) := by
  obtain ⟨result, hresult, htoInt⟩ :=
    uniformApplyToFingerprint_eq hle hsize (fingerprinter item) itemMetadata
  have hrange := rangeSize_eq hle
  have hremainder := Nat.mod_lt (fingerprinter item).toNat (rangeSize_pos hle)
  rw [getUniformDistribution_apply, hresult, ← htoInt, Int64.toInt_inj, Except.ok.injEq]
  constructor
  · rintro ⟨rfl, -⟩
    rfl
  · rintro rfl
    rw [Int64.le_iff_toInt_le, Int64.le_iff_toInt_le]
    exact ⟨rfl, by omega, by omega⟩

theorem isUniform_of_rangeSize_lt (hsize : rangeSize minValue maxValue < 2 ^ 64) :
    IsUniform minValue maxValue := by
  have hrange := rangeSize_eq hle
  constructor
  · intro fingerprinter item itemMetadata
    obtain ⟨value, -, htoInt⟩ :=
      uniformApplyToFingerprint_eq hle hsize (fingerprinter item) itemMetadata
    have hok := (getUniformDistribution_apply_eq_ok_iff hle hsize fingerprinter item itemMetadata
      value).mpr htoInt
    exact ⟨value, hok, ((getUniformDistribution_apply _ _ _ _ _ _).mp hok).2⟩
  · intro item itemMetadata value hmin hmax
    rw [Int64.le_iff_toInt_le] at hmin hmax
    obtain ⟨remainder, hremainder⟩ :=
      Int.eq_ofNat_of_zero_le (show 0 ≤ value.toInt - minValue.toInt by omega)
    have hlt : remainder < rangeSize minValue maxValue := by omega
    have hset : {fingerprint : Fin (2 ^ 64) |
        (getUniformDistribution (fun _ => UInt64.ofNat fingerprint) minValue maxValue).apply item
          itemMetadata = .ok value}
        = (Finset.univ.filter fun fingerprint : Fin (2 ^ 64) =>
            (fingerprint : ℕ) % rangeSize minValue maxValue = remainder) := by
      ext fingerprint
      rw [Set.mem_ofPred_eq, getUniformDistribution_apply_eq_ok_iff hle hsize,
        UInt64.toNat_ofNat_of_lt' fingerprint.isLt, Finset.mem_coe, Finset.mem_filter,
        and_iff_right (Finset.mem_univ fingerprint)]
      omega
    rw [hset, Set.ncard_coe_finset]
    exact FisherYates.card_filter_mod_mem (rangeSize_pos hle) (2 ^ 64) hlt

/-- **A uniform distribution works exactly when its range is not all of `int64_t`.** There the size
is zero, and every application divides by it. -/
theorem isUniform_iff : IsUniform minValue maxValue ↔ rangeSize minValue maxValue < 2 ^ 64 := by
  refine ⟨fun huniform => ?_, isUniform_of_rangeSize_lt hle⟩
  by_contra hlarge
  have hrange := rangeSize_eq hle
  have hmin := minValue.le_toInt
  have hmax := maxValue.toInt_lt
  have hsize := toNat_size hle
  have hfull : rangeSize minValue maxValue = 2 ^ 64 := by omega
  rw [hfull, Nat.mod_self] at hsize
  obtain ⟨value, hok, -⟩ := huniform.apply_ok (fun _ => 0) [] fun _ => none
  rw [getUniformDistribution_apply, uniformApplyToFingerprint,
    if_pos (UInt64.toNat_inj.mp hsize)] at hok
  cases hok.1

end Range

/-- Bounds of both signs. -/
theorem isUniform_iff_signed : IsUniform (-3) 4 :=
  (isUniform_iff (by decide)).mpr (by decide)

/-- The range that `sketch.proto` documents as the default. -/
theorem getUniformDistribution_divides_by_zero :
    (getUniformDistribution (fun _ => 5) Int64.minValue Int64.maxValue).apply [] (fun _ => none)
      = .error .divisionByZero ∧
    ¬ IsUniform Int64.minValue Int64.maxValue := by
  have herror : (getUniformDistribution (fun _ => 5) Int64.minValue Int64.maxValue).apply []
      (fun _ => none) = .error .divisionByZero := by
    rfl
  refine ⟨herror, fun huniform => ?_⟩
  obtain ⟨value, hok, -⟩ := huniform.apply_ok (fun _ => 5) [] fun _ => none
  rw [herror] at hok
  cases hok

end AnySketchCorrectness
