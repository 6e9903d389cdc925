import AnySketchCorrectness.OpenSsl
import AnySketchCorrectness.Library.Attempts
import Mathlib.Data.Int.Cast.Defs

/-!
# The distributed geometric noiser

How many noise registers a publisher adds is random. The parameters of the distribution are computed
in `double` from the differential privacy parameters, and the noiser draws two truncated samples and
shifts their difference. The arithmetic of `double` and the samples of the two distributions are
parameters here, and nothing is assumed of them. The assertions of the source are preconditions.
-/

namespace AnySketchCorrectness

structure DifferentialPrivacyParams (Double : Type) where
  epsilon : Double
  delta : Double
  deriving DecidableEq, Repr

/-- The functions of `<cmath>`, and the conversion of a `double` to `int`. -/
structure Cmath (Double : Type) where
  exp : Double → Double
  log : Double → Double
  ceil : Double → Double
  toInt : Double → Int32

/-- The distributions that are sampled, with the generator of the process. -/
structure RandomDistributions (Double Rng : Type) where
  -- `std::gamma_distribution<double>` with a shape and a scale.
  gammaDistribution : Double → Double → Rng → Double × Rng
  -- `absl::poisson_distribution<int>` with a mean.
  poissonDistribution : Double → Rng → Int32 × Rng

/-- A negative threshold indicates no truncation. -/
structure DistributedGeometricNoiseComponentOptions (Double : Type) where
  contributorCount : Int64
  p : Double
  truncateThreshold : Int64
  shiftOffset : Int64
  deriving DecidableEq, Repr

variable {Double : Type} [Add Double] [Sub Double] [Mul Double] [Div Double] [Neg Double]
  [OfScientific Double] [IntCast Double]

section NoiseParameters

variable (cmath : Cmath Double)

def computateMuPolya (epsilon delta : Double) (sensitivity n : Int32) : Int32 :=
  cmath.toInt (cmath.ceil
    (cmath.log (2.0 * (n.toInt : Double) * (sensitivity.toInt : Double) * (1.0 + cmath.exp epsilon)
        / delta)
      / (epsilon / (sensitivity.toInt : Double))))

def getGeometricPublisherNoiseOptions (params : DifferentialPrivacyParams Double)
    (publisherCount : Int32) : DistributedGeometricNoiseComponentOptions Double :=
  let successRatio := cmath.exp (-params.epsilon / (publisherCount.toInt : Double))
  let offset := computateMuPolya cmath params.epsilon params.delta publisherCount 1
  { contributorCount := 1, p := successRatio
    truncateThreshold := offset.toInt64, shiftOffset := offset.toInt64 }

end NoiseParameters

namespace DistributedGeometricNoiser

variable {Rng : Type} [LE Double] [DecidableLE Double] (rand : RandSource Rng)
  (distributions : RandomDistributions Double Rng)

abbrev NoiserM (Rng α : Type) := EStateM Failure Rng α

def maximumAttempts : Nat := 20

def getPolyaRandomVariable (r p : Double) : NoiserM Rng Int64 := do
  if p ≤ 0.0 ∨ 1.0 ≤ p then
    throw (.invalidArgument "Probability p should be in (0,1).")
  let mean ← modifyGet (distributions.gammaDistribution r (p / (1.0 - p)))
  let polya ← modifyGet (distributions.poissonDistribution mean)
  return polya.toInt64

def getTruncatedPolyaRandomVariable (truncateThreshold : Int64) (r p : Double) :
    NoiserM Rng Int64 :=
  if truncateThreshold < 0 then getPolyaRandomVariable distributions r p
  else
    Attempts.firstAccepted (getPolyaRandomVariable distributions r p)
      (fun polya => polya ≤ truncateThreshold)
      (.internal "Failed to create the polya random variable within the attempt limit.")
      maximumAttempts

def generateNoiseComponent (options : DistributedGeometricNoiseComponentOptions Double) :
    NoiserM Rng Int64 := do
  if options.contributorCount < 1 then
    throw (.invalidArgument "The contributor_count should be positive.")
  if rand.status (← get) ≠ 1 then
    throw (.internal "Failed to seed random generator.")
  let polyaA ← getTruncatedPolyaRandomVariable distributions options.truncateThreshold
    (1.0 / (options.contributorCount.toInt : Double)) options.p
  let polyaB ← getTruncatedPolyaRandomVariable distributions options.truncateThreshold
    (1.0 / (options.contributorCount.toInt : Double)) options.p
  return options.shiftOffset + polyaA - polyaB

end DistributedGeometricNoiser

end AnySketchCorrectness
