import AnySketchCorrectness.Sampling
import AnySketchCorrectness.Proof.SecretShares
import AnySketchCorrectness.Library.IndependentDraws
import Mathlib.Probability.Distributions.Uniform

/-!
# Random keystreams

If the bytes of a keystream are independent and uniform, what a generator returns has a
distribution. The values should then be uniform, as far as the call completes.
-/

namespace AnySketchCorrectness

open UniformPseudorandomGenerator IndependentDraws
open scoped ENNReal

noncomputable def uniformByte : PMF UInt8 :=
  (PMF.uniformOfFintype (Fin UInt8.size)).map UInt8.ofFin

noncomputable def uniformBytes (count : Nat) : PMF ByteString :=
  draws uniformByte count

/-- The number of values that a pass of the non-zero sampler asks for when so many are missing. -/
def requested (round : ℚ → ℚ) (modulus : UInt32) (missing : Nat) : Nat :=
  ⌊expectedSampleSize round (nonZeroFailureRate round modulus) missing⌋₊

variable {Ctx : Type}

/-- The contexts of a generator, one for each string with which its keystream can begin. -/
structure KeystreamFamily (remaining : Ctx → Stream' UInt8) (length : Nat) where
  ctxOf : ByteString → Ctx
  take_remaining : ∀ bytes, bytes.length = length → (remaining (ctxOf bytes)).take length = bytes

/-- What a program returns when the keystream begins with uniform bytes. -/
noncomputable def answerLaw {α : Type} {remaining : Ctx → Stream' UInt8} {length : Nat}
    (contexts : KeystreamFamily remaining length) (program : GeneratorM Ctx α) :
    PMF (StatusOr α) :=
  (uniformBytes length).map fun bytes => evaluate program (contexts.ctxOf bytes)

/-- Vectors below the modulus, each with the same chance: that of completing, divided by their
number. -/
structure IsUniformOnVectors (modulus : UInt32) (n : Nat) (law : PMF (StatusOr (List UInt32))) :
    Prop where
  vector : ∀ values, law (.ok values) ≠ 0 → IsVectorBelow modulus n values
  equal : ∀ values, IsVectorBelow modulus n values →
    law (.ok values) * modulus.toNat ^ n
      = law.toOuterMeasure {answer | ∃ values, answer = .ok values}

/-- Lists of so many values in `[1, modulus)`. -/
def IsNonZeroVectorBelow (modulus : UInt32) (n : Nat) (values : List UInt32) : Prop :=
  values.length = n ∧ ∀ value ∈ values, 1 ≤ value ∧ value < modulus

/-- The same for values other than zero. -/
structure IsUniformOnNonZeroVectors (modulus : UInt32) (n : Nat)
    (law : PMF (StatusOr (List UInt32))) : Prop where
  vector : ∀ values, law (.ok values) ≠ 0 → IsNonZeroVectorBelow modulus n values
  equal : ∀ values, IsNonZeroVectorBelow modulus n values →
    law (.ok values) * (modulus.toNat - 1 : ℕ) ^ n
      = law.toOuterMeasure {answer | ∃ values, answer = .ok values}

end AnySketchCorrectness
