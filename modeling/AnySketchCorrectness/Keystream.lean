import AnySketchCorrectness.RandomGenerator
import AnySketchCorrectness.Library.CounterMode

/-!
# The keystream behind a generator

A generator hands out the keystream of AES-256 in counter mode, from its key and with its IV as the
first counter. However the bytes are asked for, they should come out as one contiguous string.
-/

namespace AnySketchCorrectness

open UniformPseudorandomGenerator CounterMode

abbrev AesBlock := Vector UInt8 16

variable {Ctx : Type}

/-- **What the generator relies on** from OpenSSL. `aes256` encrypts one block under a key, and
`remaining` is the part of the keystream that a context has not used yet. An update takes its length
as an `int`: it encrypts that many bytes, none if it is 0, and rejects a negative length before it
touches the keystream. -/
structure EvpCipher.IsAes256Ctr (evp : EvpCipher Ctx) (aes256 : ByteString → AesBlock → AesBlock)
    (remaining : Ctx → Stream' UInt8) : Prop where
  aes256_injective : ∀ key, key.length = bytesPerAes256Key → Function.Injective (aes256 key)
  encryptInit : ∀ {ctx ctx' key iv}, key.length = bytesPerAes256Key →
    iv.length = bytesPerAes256Iv → evp.encryptInit ctx key iv = (1, ctx') →
      remaining ctx' = keystream (aes256 key) (ofBigEndian iv)
  encryptUpdate : ∀ ctx input (inl : Int32), 0 ≤ inl → inl.toNatClampNeg ≤ input.length →
    ∃ ctx', evp.encryptUpdate ctx input inl
        = (1, List.zipWith (· ^^^ ·) (input.take inl.toNatClampNeg)
            ((remaining ctx).take inl.toNatClampNeg), ctx')
      ∧ remaining ctx' = (remaining ctx).drop inl.toNatClampNeg
  encryptUpdate_neg : ∀ ctx input (inl : Int32), inl < 0 →
    ∃ code written ctx', evp.encryptUpdate ctx input inl = (code, written, ctx') ∧ code ≠ 1
      ∧ remaining ctx' = remaining ctx
  encryptFinal : ∀ ctx, ∃ ctx', evp.encryptFinal ctx = (1, [], ctx')
    ∧ remaining ctx' = remaining ctx

def generateAll (evp : EvpCipher Ctx) : List Int64 → Ctx → List (StatusOr ByteString)
  | [], _ => []
  | size :: sizes, ctx =>
      match (generatePseudorandomBytes evp size).run ctx with
      | .ok bytes ctx' => .ok bytes :: generateAll evp sizes ctx'
      | .error e ctx' => .error e :: generateAll evp sizes ctx'

def concatenation (results : List (StatusOr ByteString)) : ByteString :=
  (results.filterMap Except.toOption).flatten

/-- Every successful call returned as many bytes as it was asked for, and together they are the
first bytes of the keystream. -/
structure SplitsKeystream (stream : Stream' UInt8) (sizes : List Int64)
    (results : List (StatusOr ByteString)) : Prop where
  lengths : List.Forall₂ (fun size result => ∀ bytes, result = .ok bytes →
    bytes.length = size.toNatClampNeg) sizes results
  prefix_eq : concatenation results = stream.take (concatenation results).length

/-- The length of a request survives its conversion to `int`, or becomes negative. -/
def SizeSurvives (size : Int64) : Prop :=
  size.toNatClampNeg < 2 ^ 32 ∨ 2 ^ 31 ≤ size.toNatClampNeg % 2 ^ 32

end AnySketchCorrectness
