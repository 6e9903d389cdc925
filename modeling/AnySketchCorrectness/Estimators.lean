import AnySketchCorrectness.Status
import AnySketchCorrectness.Library.WhileLoop
import Mathlib.Data.Rat.Floor

/-!
# The cardinality estimator

`EstimateCardinalityLiquidLegions` looks for the cardinality at which the expected number of active
registers is the number seen. The expected number is computed in floating point, and is a parameter
here. The search, `InvertMonotonic`, is about any function from `uint64_t` to `uint64_t`.
-/

namespace AnySketchCorrectness.Estimation

/-- The variables of the first loop of `InvertMonotonic`, which finds a region with the solution. -/
structure Region where
  left : UInt64
  right : UInt64
  deriving DecidableEq, Repr

/-- The variables of the second loop. -/
structure Search where
  left : UInt64
  right : UInt64
  mid : UInt64
  deriving DecidableEq, Repr

section InvertMonotonic

variable (function : UInt64 → UInt64) (target : UInt64)

def regionGuard (region : Region) : Bool :=
  function region.right < target

def growRegion (region : Region) : Region :=
  { left := region.right, right := region.right * 2 }

def startSearch (region : Region) : Search :=
  { left := region.left, right := region.right, mid := (region.right + region.left) / 2 }

def searchGuard (search : Search) : Bool :=
  search.left < search.right

def searchStep (search : Search) : Search :=
  if target < function search.mid then
    startSearch { left := search.left, right := search.mid - 1 }
  else
    startSearch { left := search.mid + 1, right := search.right }

/-- The assertion that `function(0)` is at most the target is a precondition. -/
def invertMonotonic (fuel : Nat) : StatusOr UInt64 :=
  match WhileLoop.run (regionGuard function target) growRegion fuel { left := 0, right := 1 } with
  | none => .error .outOfFuel
  | some region =>
      match WhileLoop.run searchGuard (searchStep function target) fuel (startSearch region) with
      | none => .error .outOfFuel
      | some search => .ok search.mid

end InvertMonotonic

/-- The conversion of a `double` to `int64_t`. It is undefined for a number that does not fit; x86
answers with the smallest integer then. -/
def truncate (x : ℚ) : Int64 :=
  let integer := if 0 ≤ x then ⌊x⌋ else ⌈x⌉
  if -2 ^ 63 ≤ integer ∧ integer < 2 ^ 63 then Int64.ofInt integer else Int64.minValue

/-- A `double` is a rational number, and `round` takes the exact result of an operation to the
`double` that is returned. -/
def getCardinality (round : ℚ → ℚ) (inverseCardinalityEstimator : UInt64 → UInt64)
    (activeRegisterCount : UInt64) (fuel : Nat) : StatusOr ℚ := do
  let cardinality ← invertMonotonic inverseCardinalityEstimator activeRegisterCount fuel
  return round cardinality.toNat

/-- `sampled_cardinality / sampling_rate`. -/
def scaledCardinality (round : ℚ → ℚ) (samplingRate cardinality : ℚ) : ℚ :=
  let sampledCardinality := truncate cardinality
  round (round sampledCardinality.toInt / samplingRate)

def estimateCardinalityLiquidLegions (round : ℚ → ℚ)
    (getExpectedActiveRegisterCount : UInt64 → UInt64) (activeRegisterCount : UInt64)
    (samplingRate : ℚ) (fuel : Nat) : StatusOr Int64 := do
  let cardinality ←
    getCardinality round getExpectedActiveRegisterCount activeRegisterCount fuel
  return truncate (scaledCardinality round samplingRate cardinality)

end AnySketchCorrectness.Estimation
