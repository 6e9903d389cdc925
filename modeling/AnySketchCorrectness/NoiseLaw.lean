import AnySketchCorrectness.DiscreteGaussianNoiser
import AnySketchCorrectness.Library.RandomSource
import Mathlib.Probability.Distributions.Gamma
import Mathlib.Probability.Distributions.Poisson.Basic

/-!
# Noise in exact arithmetic

The noisers compute in `double` and sample from distributions of the standard library and of Abseil.
Here the arithmetic is that of the real numbers, and the samples are independent and have exactly
the distributions they stand for. What the noise then does for privacy is a fact about its law.
-/

namespace AnySketchCorrectness

open MeasureTheory ProbabilityTheory RandomSource StateInvariant

/-- The conversion to `int` discards the fractional part. -/
noncomputable def intOfReal (x : ℝ) : Int32 :=
  Int32.ofInt (if 0 ≤ x then ⌊x⌋ else ⌈x⌉)

noncomputable def realCmath : Cmath ℝ where
  exp := Real.exp
  log := Real.log
  ceil x := ⌈x⌉
  toInt := intOfReal

/-- A count as an `int`. The counts that do not fit are one value. -/
def intOfCount (count : ℕ) : Int32 :=
  Int32.ofNat (min count (2 ^ 31 - 1))

noncomputable def poissonLaw (mean : ℝ) : PMF Int32 :=
  (poissonMeasure mean.toNNReal).toPMF.map intOfCount

variable {Rng : Type}

/-- A count with noise, which is what is published in its place. -/
def noisyCount (noiser : DistributedGeometricNoiser.NoiserM Rng Int64) (count : ℤ) (rng : Rng) :
    StatusOr ℤ :=
  (answer (noiser.run rng)).map fun noise => count + noise.toInt

variable [MeasurableSpace Rng]

/-- The generator of the process, as a source for the two distributions. -/
structure SamplesFrom (source : ℕ → Measure Rng) (distributions : RandomDistributions ℝ Rng) :
    Prop where
  gamma : ∀ shape scale, 0 < shape → 0 < scale → ∀ n,
    IndependentDrawFrom (source (n + 1)) (source n) (distributions.gammaDistribution shape scale)
      (gammaMeasure shape scale⁻¹)
  poisson : ∀ mean, 0 < mean →
    Draws source (distributions.poissonDistribution mean) (poissonLaw mean)
  poisson_measurable : ∀ sample (rest : Set Rng), MeasurableSet rest →
    MeasurableSet {x : ℝ × Rng | (distributions.poissonDistribution x.1 x.2).1 = sample ∧
      (distributions.poissonDistribution x.1 x.2).2 ∈ rest}

/-! ### The discrete Gaussian noiser -/

noncomputable def realGaussianCmath : GaussianCmath ℝ where
  toCmath := realCmath
  floor x := ⌊x⌋
  sqrt := Real.sqrt
  pow x y := x ^ y

/-- The chance falls off by the same factor from one `int` to the next. -/
structure IsGeometricLaw (law : PMF Int32) (p : ℝ) : Prop where
  apply_nonneg : ∀ k, 0 ≤ k.toInt → law k = law 0 * ENNReal.ofReal ((1 - p) ^ k.toInt.toNat)
  apply_neg : ∀ k, k.toInt < 0 → law k = 0

structure GaussianSamplesFrom (source : ℕ → Measure Rng)
    (distributions : GaussianDistributions ℝ Rng) : Prop where
  geometric : ∀ p, 0 < p → p < 1 →
    ∃ law, IsGeometricLaw law p ∧ Draws source (distributions.geometricDistribution p) law
  binomial : ∀ p, 0 ≤ p → p ≤ 1 →
    ∃ law, law 0 = ENNReal.ofReal (1 - p) ∧ law 1 = ENNReal.ofReal p ∧
      Draws source (distributions.binomialDistribution 1 p) law

/-- The weight of a value in the discrete Gaussian distribution. It is corrected for the pairs of
samples with this difference that do not fit into an `int`. -/
noncomputable def gaussianWeight (sigma : ℝ) (y : ℤ) : ℝ :=
  Real.exp (-(y : ℝ) ^ 2 * 0.5 / sigma ^ 2)
    * (1 - Real.exp (-1 / (⌊sigma⌋ + 1)) ^ (2 * (2 ^ 31 - y.natAbs)))

end AnySketchCorrectness
