import AnySketchCorrectness.Distributions

/-!
# Fingerprinting distributions

These distributions look at an item only through its 64-bit fingerprint. The fingerprinter comes
from the `common_cpp` library, and is a parameter.
-/

namespace AnySketchCorrectness

abbrev Fingerprinter := ByteString → UInt64

/-- `FingerprintingDistribution::ApplyInternal`. -/
def fingerprintingApplyInternal (fingerprinter : Fingerprinter)
    (applyToFingerprint : UInt64 → ItemMetadata → StatusOr Int64) (item : ByteString)
    (itemMetadata : ItemMetadata) : StatusOr Int64 :=
  applyToFingerprint (fingerprinter item) itemMetadata

/-- `UniformDistribution::ApplyToFingerprint`. The fingerprint is a `uint64_t`, so `size()` and
`min_value()` are converted to that type. -/
def uniformApplyToFingerprint (minValue maxValue : Int64) (fingerprint : UInt64)
    (_itemMetadata : ItemMetadata) : StatusOr Int64 :=
  let size := (maxValue - minValue + 1).toUInt64
  if size = 0 then .error .divisionByZero
  else .ok (fingerprint % size + minValue.toUInt64).toInt64

def getUniformDistribution (fingerprinter : Fingerprinter) (minValue maxValue : Int64) :
    BaseDistribution :=
  BaseDistributionImpl.toBaseDistribution
    { minValue, maxValue
      applyInternal :=
        fingerprintingApplyInternal fingerprinter (uniformApplyToFingerprint minValue maxValue) }

theorem getUniformDistribution_apply (fingerprinter : Fingerprinter) (minValue maxValue : Int64)
    (item : ByteString) (itemMetadata : ItemMetadata) (value : Int64) :
    (getUniformDistribution fingerprinter minValue maxValue).apply item itemMetadata = .ok value
      ↔ uniformApplyToFingerprint minValue maxValue (fingerprinter item) itemMetadata = .ok value
        ∧ minValue ≤ value ∧ value ≤ maxValue := by
  rw [getUniformDistribution, BaseDistributionImpl.toBaseDistribution,
    BaseDistributionImpl.apply_eq_ok_iff]
  rfl

def countTrailingZeros (n : UInt64) : Int32 :=
  if n = 0 then 64
  else
    let c := 63
    let n := n &&& (~~~n + 1)
    let c := if n &&& 0x00000000FFFFFFFF ≠ 0 then c - 32 else c
    let c := if n &&& 0x0000FFFF0000FFFF ≠ 0 then c - 16 else c
    let c := if n &&& 0x00FF00FF00FF00FF ≠ 0 then c - 8 else c
    let c := if n &&& 0x0F0F0F0F0F0F0F0F ≠ 0 then c - 4 else c
    let c := if n &&& 0x3333333333333333 ≠ 0 then c - 2 else c
    if n &&& 0x5555555555555555 ≠ 0 then c - 1 else c

/-- `GeometricDistribution::ApplyToFingerprint`. -/
def geometricApplyToFingerprint (minValue maxValue : Int64) (fingerprint : UInt64)
    (_itemMetadata : ItemMetadata) : StatusOr Int64 :=
  let trailingZeroes := countTrailingZeros fingerprint
  .ok (min maxValue (minValue + trailingZeroes.toInt64))

def getGeometricDistribution (fingerprinter : Fingerprinter) (minValue maxValue : Int64) :
    BaseDistribution :=
  BaseDistributionImpl.toBaseDistribution
    { minValue, maxValue
      applyInternal :=
        fingerprintingApplyInternal fingerprinter (geometricApplyToFingerprint minValue maxValue) }

theorem getGeometricDistribution_apply (fingerprinter : Fingerprinter) (minValue maxValue : Int64)
    (item : ByteString) (itemMetadata : ItemMetadata) (value : Int64) :
    (getGeometricDistribution fingerprinter minValue maxValue).apply item itemMetadata = .ok value
      ↔ min maxValue (minValue + (countTrailingZeros (fingerprinter item)).toInt64) = value
        ∧ minValue ≤ value ∧ value ≤ maxValue := by
  rw [getGeometricDistribution, BaseDistributionImpl.toBaseDistribution,
    BaseDistributionImpl.apply_eq_ok_iff]
  change geometricApplyToFingerprint minValue maxValue (fingerprinter item) itemMetadata = .ok value
    ∧ _ ↔ _
  rw [geometricApplyToFingerprint, Except.ok.injEq]

end AnySketchCorrectness
