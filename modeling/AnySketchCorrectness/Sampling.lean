import AnySketchCorrectness.Keystream
import AnySketchCorrectness.Library.FixedWidth
import Mathlib.Data.Rat.Floor
import Mathlib.Data.Set.Card

/-!
# What uniform sampling is meant to do

`GenerateUniformRandomRange` should cut the keystream into chunks, read each as a number of as many
bits as the modulus has, and keep the numbers below the modulus. How it sizes its batches should not
show.
-/

namespace AnySketchCorrectness

open UniformPseudorandomGenerator CounterMode

/-- The parameters computed from the modulus are sound for requests of this size. -/
structure SoundParameters (modulus : UInt32) (size : Int64) : Prop where
  shift_lt : bitLength modulus < 32
  mask_eq : (mask modulus).toNat = 2 ^ bitLength modulus - 1
  lt_modulus : 2 ^ (bitLength modulus - 1) < modulus.toNat
  modulus_le : modulus.toNat ≤ 2 ^ bitLength modulus
  chunks : ∀ value < modulus, {chunk : ByteString | chunk.length = bytesPerValue modulus
      ∧ ∃ candidate, readCandidate chunk 0 (bytesPerValue modulus) = .ok candidate
        ∧ candidate &&& mask modulus = value}.ncard
    = 2 ^ (8 * bytesPerValue modulus - bitLength modulus)
  -- the arithmetic is exact; from `2 ^ 61` values on no pass of the loop is reached, since there is
  -- no room for so many
  asks : size < 2 ^ 61 → ∀ currentSize : UInt64, 1 ≤ currentSize.toNat →
    currentSize.toNat ≤ size.toNatClampNeg → 1 ≤ (sampleSize id modulus currentSize).toNat

def chunkValue (modulus : UInt32) (chunk : ByteString) : UInt32 :=
  UInt32.ofNat (ofBigEndian chunk % 2 ^ bitLength modulus)

/-- The values accepted from the whole chunks of a string, in order. -/
def acceptedValues (modulus : UInt32) (bytes : ByteString) : List UInt32 :=
  ((FixedWidth.records (bytesPerValue modulus) bytes).map (chunkValue modulus)).filter
    (· < modulus)

/-- These are the first `size` values accepted from the stream. -/
def IsFirstAccepted (modulus : UInt32) (stream : Stream' UInt8) (size : Nat)
    (values : List UInt32) : Prop :=
  values.length = size ∧ ∃ count, values
    = (acceptedValues modulus (stream.take (bytesPerValue modulus * count))).take size

/-- The number of candidates that a pass asks for when so many values are missing. It is
`sample_size`, as long as that fits. -/
def candidates (round : ℚ → ℚ) (modulus : UInt32) (missing : Nat) : Nat :=
  ⌊expectedSampleSize round (failureRate round modulus) missing⌋₊

/-- The number of bytes that a pass asks for when so many values are missing. -/
def batchLength (round : ℚ → ℚ) (modulus : UInt32) (missing : Nat) : Nat :=
  bytesPerValue modulus * candidates round modulus missing

/-- A request of so many bytes is refused: the number is negative as an `int64_t` or as an `int`. -/
def IsRefused (length : Nat) : Prop :=
  2 ^ 63 ≤ length ∨ 2 ^ 31 ≤ length % 2 ^ 32

/-- The answer to a request that is not refused. From `2 ^ 32` bytes on it ends with zeros. -/
def answerTo (stream : Stream' UInt8) (length : Nat) : ByteString :=
  stream.take (length % 2 ^ 32) ++ List.replicate (length - length % 2 ^ 32) 0

section Call

variable (round : ℚ → ℚ) (modulus : UInt32) (size : Int64)

/-- No pass of the loop runs out of chunks: there is none, or it is refused, or the first one
accepts enough values. -/
def FirstBatchSuffices (stream : Stream' UInt8) : Prop :=
  size = 0 ∨ 2 ^ 61 ≤ size ∨ IsRefused (batchLength round modulus size.toNatClampNeg)
    ∨ size.toNatClampNeg ≤ (acceptedValues modulus
        (answerTo stream (batchLength round modulus size.toNatClampNeg))).length

/-- No request is answered with zeros: there is none, or its length fits into 32 bits, or it is
refused. Or the zeros are never returned, since the batch is too short and is read past its end. -/
def FirstBatchSurvives : Prop :=
  2 ^ 61 ≤ size ∨ batchLength round modulus size.toNatClampNeg < 2 ^ 32
    ∨ IsRefused (batchLength round modulus size.toNatClampNeg)
    ∨ bytesPerValue modulus ≠ 1 ∧ candidates round modulus size.toNatClampNeg < size.toNatClampNeg

/-- Every completed call returns the first values accepted from the keystream, and those of a
smaller size are a prefix of those of a larger one. -/
def SamplesKeystream : Prop :=
  ∀ (Ctx : Type) (evp : EvpCipher Ctx) (aes256 : ByteString → AesBlock → AesBlock)
    (remaining : Ctx → Stream' UInt8), evp.IsAes256Ctr aes256 remaining →
    ∀ (ctx ctx' : Ctx) (fuel : Nat) (values : List UInt32),
      (generateUniformRandomRange round evp fuel size modulus).run ctx = .ok values ctx' →
      IsFirstAccepted modulus (remaining ctx) size.toNatClampNeg values
        ∧ ∀ (smallerSize : Int64) (smallerFuel : Nat) (smallerValues : List UInt32)
            (smallerCtx' : Ctx), smallerSize ≤ size →
            (generateUniformRandomRange round evp smallerFuel smallerSize modulus).run ctx
              = .ok smallerValues smallerCtx' →
            smallerValues <+: values

end Call

end AnySketchCorrectness
