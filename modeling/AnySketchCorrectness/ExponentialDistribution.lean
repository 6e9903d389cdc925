import AnySketchCorrectness.FingerprintingDistributions
import AnySketchCorrectness.Library.TruncatedExponential

/-!
# The exponential distribution

`ExponentialDistribution` computes in `double`. Here its arithmetic is that of the real numbers.
-/

namespace AnySketchCorrectness

/-- The fingerprint as a fraction of the largest one. -/
noncomputable def exponentialUniform (fingerprint : UInt64) : ℝ :=
  fingerprint.toNat / (2 ^ 64 - 1)

noncomputable def exponentialValue (rate : ℝ) (size : Int64) (fingerprint : UInt64) : ℤ :=
  let u := exponentialUniform fingerprint
  let x := 1 - Real.log (Real.exp rate + u * (1 - Real.exp rate)) / rate
  ⌊x * (size.toInt : ℝ)⌋

/-- `ExponentialDistribution::ApplyToFingerprint`. -/
noncomputable def exponentialApplyToFingerprint (rate : ℝ) (minValue maxValue : Int64)
    (fingerprint : UInt64) (_itemMetadata : ItemMetadata) : StatusOr Int64 :=
  .ok (Int64.ofInt (exponentialValue rate (maxValue - minValue + 1) fingerprint))

noncomputable def getExponentialDistribution (fingerprinter : Fingerprinter) (rate : ℝ)
    (size : Int64) : BaseDistribution :=
  BaseDistributionImpl.toBaseDistribution
    { minValue := 0, maxValue := size - 1
      applyInternal := fingerprintingApplyInternal fingerprinter
        (exponentialApplyToFingerprint rate 0 (size - 1)) }

end AnySketchCorrectness
