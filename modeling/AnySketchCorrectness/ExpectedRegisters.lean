import AnySketchCorrectness.Estimators
import AnySketchCorrectness.ExponentialDistribution
import AnySketchCorrectness.SketchRuns
import AnySketchCorrectness.Library.ExponentialIntegral
import Mathlib.Data.Fintype.Pi
import Mathlib.Algebra.BigOperators.Fin

/-!
# The expected number of active registers

`GetExpectedActiveRegisterCount` computes in `double`, with the exponential integral of the standard
library. It is about sketches with one index, which has an exponential distribution: if the
fingerprints of the items are independent and uniform, the number of registers has an expectation.
-/

namespace AnySketchCorrectness

namespace Estimation

/-- The functions of `<cmath>`, and the conversions between `double` and `uint64_t`. -/
structure EstimatorCmath (Double : Type) where
  exp : Double → Double
  expint : Double → Double
  ofUInt64 : UInt64 → Double
  toUInt64 : Double → UInt64

def getExpectedActiveRegisterCount {Double : Type} [Add Double] [Sub Double] [Mul Double]
    [Div Double] [Neg Double] [OfScientific Double] (cmath : EstimatorCmath Double)
    (decayRate : Double) (numOfTotalRegisters cardinality : UInt64) : UInt64 :=
  if cardinality = 0 then 0
  else
    let exponentialOfDecay := cmath.exp decayRate
    let t := cmath.ofUInt64 cardinality / cmath.ofUInt64 numOfTotalRegisters
    let negativeTerm := -cmath.expint ((-decayRate * t) / (exponentialOfDecay - 1.0))
    let positiveTerm :=
      cmath.expint ((-decayRate * exponentialOfDecay * t) / (exponentialOfDecay - 1.0))
    cmath.toUInt64 ((1.0 - (negativeTerm + positiveTerm) / decayRate)
      * cmath.ofUInt64 numOfTotalRegisters)

/-- The arithmetic of the real numbers. -/
noncomputable def realEstimatorCmath (expint : ℝ → ℝ) : EstimatorCmath ℝ where
  exp := Real.exp
  expint
  ofUInt64 x := x.toNat
  toUInt64 x := UInt64.ofNat ⌊x⌋₊

end Estimation

namespace AnySketch

variable {n : ℕ}

/-- A sketch with one index, which has an exponential distribution, and into which `n` items went:
each of them at least once, in any order, directly or through sketches that were merged into it. The
fingerprints of the items are given, and the value columns do not fail. -/
def SketchesItems (decayRate : ℝ) (size : Int64) (items : Fin n → ByteString)
    (fingerprints : Fin n → Fin (2 ^ 64)) (sketch : AnySketch) : Prop :=
  ∃ (fingerprinter : Fingerprinter) (values : List ValueFunction) (insertions : List Insertion),
    (∀ k, fingerprinter (items k) = UInt64.ofNat (fingerprints k)) ∧
    Built [getExponentialDistribution fingerprinter decayRate size] values insertions sketch ∧
    (∀ item, (∃ insertion ∈ insertions, insertion.item = item) ↔ ∃ k, items k = item) ∧
    ∀ insertion ∈ insertions, ∃ newValues, applyValues insertion values = .ok newValues

/-- The mean over all fingerprints of the items. -/
noncomputable def expectedRegisterCount (sketch : (Fin n → Fin (2 ^ 64)) → AnySketch) : ℝ :=
  (∑ fingerprints, ((sketch fingerprints).registers.keys.length : ℝ)) / (2 ^ 64 : ℕ) ^ n

end AnySketch

end AnySketchCorrectness
