import AnySketchCorrectness.DistributedNoiser

/-!
# The distributed discrete Gaussian noiser

The difference of two geometric samples is accepted with a probability that turns its distribution
into a discrete Gaussian one. The loop runs until a difference is accepted that is not truncated, so
here it has fuel.
-/

namespace AnySketchCorrectness

/-- More functions of `<cmath>`. -/
structure GaussianCmath (Double : Type) extends Cmath Double where
  floor : Double → Double
  sqrt : Double → Double
  pow : Double → Double → Double

structure GaussianDistributions (Double Rng : Type) where
  -- `std::geometric_distribution<int>` with a probability of success.
  geometricDistribution : Double → Rng → Int32 × Rng
  -- `std::binomial_distribution<int>` with a number of trials and a probability of success.
  binomialDistribution : Int32 → Double → Rng → Int32 × Rng

/-- A negative threshold indicates no truncation. -/
structure DistributedDiscreteGaussianNoiseComponentOptions (Double : Type) where
  contributorCount : Int64
  sigmaDistributed : Double
  truncateThreshold : Int64
  shiftOffset : Int64
  deriving DecidableEq, Repr

variable {Double : Type} [Add Double] [Sub Double] [Mul Double] [Div Double] [Neg Double]
  [OfScientific Double] [IntCast Double] (cmath : GaussianCmath Double)

section NoiseParameters

def computeMuDiscreteGaussian (epsilon delta sigmaDistributed : Double)
    (contributorCount : Int64) : Int32 :=
  let delta2 := 0.5 * delta
  cmath.toInt (cmath.ceil
    (sigmaDistributed * cmath.sqrt (2.0 * cmath.log
      ((contributorCount.toInt : Double) * (1.0 + cmath.exp epsilon) / delta2))))

def getDiscreteGaussianPublisherNoiseOptions (params : DifferentialPrivacyParams Double)
    (contributorCount : Int64) : DistributedDiscreteGaussianNoiseComponentOptions Double :=
  let delta1 := 0.5 * params.delta
  let sigma := cmath.sqrt (2.0 * cmath.log (1.25 / delta1)) / params.epsilon
  let sigmaDistributed := sigma / cmath.sqrt (contributorCount.toInt : Double)
  let offset := computeMuDiscreteGaussian cmath params.epsilon params.delta sigmaDistributed
    contributorCount
  { contributorCount, sigmaDistributed, truncateThreshold := offset.toInt64
    shiftOffset := offset.toInt64 }

end NoiseParameters

namespace DistributedDiscreteGaussianNoiser

open DistributedGeometricNoiser (NoiserM)

variable {Rng : Type} [LE Double] [DecidableLE Double] (rand : RandSource Rng)
  (distributions : GaussianDistributions Double Rng)

def pBernoulli (sigmaSq t : Double) (y : Int64) : Double :=
  cmath.exp (-cmath.pow (((y.toInt.natAbs : Int) : Double) - sigmaSq / t) 2.0 * 0.5 / sigmaSq)

/-- The body of the loop: the difference, and the outcome of the trial that decides about it. -/
def attempt (sigmaSq t pGeometric : Double) : NoiserM Rng (Int64 × Int32) := do
  let first ← modifyGet (distributions.geometricDistribution pGeometric)
  let second ← modifyGet (distributions.geometricDistribution pGeometric)
  let y := (first - second).toInt64
  let trial ← modifyGet (distributions.binomialDistribution 1 (pBernoulli cmath sigmaSq t y))
  return (y, trial)

/-- The condition of the `break`. -/
def accepts (truncateThreshold : Int64) (attempted : Int64 × Int32) : Bool :=
  attempted.2 = 1 ∧ (truncateThreshold < 0 ∨
    (-truncateThreshold ≤ attempted.1 ∧ attempted.1 ≤ truncateThreshold))

def generateNoiseComponent (fuel : Nat)
    (options : DistributedDiscreteGaussianNoiseComponentOptions Double) : NoiserM Rng Int64 := do
  if rand.status (← get) ≠ 1 then
    throw (.internal "Failed to seed random generator.")
  let sigmaSq := options.sigmaDistributed * options.sigmaDistributed
  let t := cmath.floor options.sigmaDistributed + 1.0
  let pGeometric := 1.0 - cmath.exp (-1.0 / t)
  if pGeometric ≤ 0.0 ∨ 1.0 ≤ pGeometric then
    throw (.invalidArgument "Probability p_geometric should be in (0,1).")
  let (y, _) ← Attempts.firstAccepted (attempt cmath distributions sigmaSq t pGeometric)
    (accepts options.truncateThreshold) .outOfFuel fuel
  return options.shiftOffset + y

end DistributedDiscreteGaussianNoiser

end AnySketchCorrectness
