import AnySketchCorrectness.Library.StateInvariant
import AnySketchCorrectness.Proof.Destroyed
import AnySketchCorrectness.CipherSketch
import AnySketchCorrectness.Proof.CipherSketch
import AnySketchCorrectness.Proof.ConflictingKeys
import AnySketchCorrectness.OpenSsl
import AnySketchCorrectness.RandomGenerator
import AnySketchCorrectness.SecretShares
import AnySketchCorrectness.Shuffle
import AnySketchCorrectness.Library.Masking
import AnySketchCorrectness.Proof.SecretShares
import AnySketchCorrectness.Keystream
import AnySketchCorrectness.Proof.Keystream
import AnySketchCorrectness.Proof.Masking
import AnySketchCorrectness.Library.Reindexing
import AnySketchCorrectness.Proof.Shuffle
import AnySketchCorrectness.Library.MixedRadix
import AnySketchCorrectness.Linearization
import AnySketchCorrectness.Proof.Linearization
import AnySketchCorrectness.Library.Bisection
import AnySketchCorrectness.Library.DoubleRounding
import AnySketchCorrectness.Estimators
import AnySketchCorrectness.Proof.InverseSearch
import AnySketchCorrectness.Proof.Estimators
import AnySketchCorrectness.ElGamalKeys
import AnySketchCorrectness.Proof.ElGamalKeys
import AnySketchCorrectness.Proof.Acceptance
import AnySketchCorrectness.Library.PrefixCode
import AnySketchCorrectness.Proof.EncodingInjective
import AnySketchCorrectness.Library.BigEndian
import AnySketchCorrectness.Sampling
import AnySketchCorrectness.Proof.SampleSizes
import AnySketchCorrectness.Proof.SamplingParameters
import AnySketchCorrectness.Proof.RejectionSampling
import AnySketchCorrectness.Proof.UniformSampling
import AnySketchCorrectness.Proof.SampledValues
import AnySketchCorrectness.Library.FisherYates
import AnySketchCorrectness.Proof.ShuffleBias
import AnySketchCorrectness.Proof.CachedPoints
import AnySketchCorrectness.Proof.RegisterWidths
import AnySketchCorrectness.Proof.SetUnion
import AnySketchCorrectness.Proof.SketchSize
import AnySketchCorrectness.Proof.SingleKey
import AnySketchCorrectness.FingerprintingDistributions
import AnySketchCorrectness.Proof.UniformDistribution
import AnySketchCorrectness.ExponentialDistribution
import AnySketchCorrectness.Proof.ExponentialDistribution
import AnySketchCorrectness.Library.RunningProduct
import AnySketchCorrectness.Proof.IndexCollisions
import AnySketchCorrectness.DistributedNoiser
import AnySketchCorrectness.EncryptSketch
import AnySketchCorrectness.Proof.DistributedNoiser
import AnySketchCorrectness.Proof.EncryptedLength
import AnySketchCorrectness.Proof.NoiseRegisters
import AnySketchCorrectness.Library.LowestBit
import AnySketchCorrectness.Proof.GeometricDistribution
import AnySketchCorrectness.Proof.UniqueRange
import AnySketchCorrectness.Library.Refill
import AnySketchCorrectness.Proof.NonZeroSampling
import AnySketchCorrectness.Library.IndependentDraws
import AnySketchCorrectness.Library.SelectedDraws
import AnySketchCorrectness.Proof.UniformLaw
import AnySketchCorrectness.Proof.NonZeroLaw
import AnySketchCorrectness.Proof.UniformShares
import AnySketchCorrectness.GeneratorRuns
import AnySketchCorrectness.Proof.GeneratorRuns
import AnySketchCorrectness.Proof.ShareShuffle
import AnySketchCorrectness.Library.DifferentialPrivacy
import AnySketchCorrectness.Library.RandomSource
import AnySketchCorrectness.Library.GammaPoisson
import AnySketchCorrectness.Library.TruncatedGeometric
import AnySketchCorrectness.NoiseLaw
import AnySketchCorrectness.Proof.NoisePrivacy
import AnySketchCorrectness.Proof.GaussianLaw
import AnySketchCorrectness.Proof.GaussianNoise
import AnySketchCorrectness.Library.ExponentialCells
import AnySketchCorrectness.Library.Occupancy
import AnySketchCorrectness.ExpectedRegisters
import AnySketchCorrectness.Proof.ExpectedRegisters
import AnySketchCorrectness.Proof.LiquidLegions
import AnySketchCorrectness.Library.StatisticalDistance
import AnySketchCorrectness.Proof.ShuffleLaw
import AnySketchCorrectness.FrequencyHistogram
import AnySketchCorrectness.Library.SolitaryDraws
import AnySketchCorrectness.Proof.CombinedKeys
import AnySketchCorrectness.Proof.EncryptedInsertions
import AnySketchCorrectness.Proof.FrequencyHistogram
