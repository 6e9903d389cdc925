import AnySketchCorrectness.Keystream
import AnySketchCorrectness.Library.StreamReader

/-!
# Runs of one generator

A generator can be asked for bytes and for values in any order, and it is asked again after a call
that failed. The requests of a run should be answered from successive segments of the keystream.
-/

namespace AnySketchCorrectness

open UniformPseudorandomGenerator StreamReader

/-- A call of one of the three methods of the generator. -/
inductive Request
  | pseudorandomBytes (size : Int64)
  | uniformRandomRange (size : Int64) (modulus : UInt32)
  | nonZeroUniformRandomRange (size : Int64) (modulus : UInt32)
  deriving DecidableEq, Repr

inductive Answer
  | bytes (bytes : ByteString)
  | values (values : List UInt32)
  deriving DecidableEq, Repr

/-- An implementation of AES-256 in counter mode, with its contexts. -/
structure CtrImplementation (aes256 : ByteString → AesBlock → AesBlock) where
  Ctx : Type
  evp : EvpCipher Ctx
  remaining : Ctx → Stream' UInt8
  isAes256Ctr : evp.IsAes256Ctr aes256 remaining

def serve {Ctx : Type} (round : ℚ → ℚ) (evp : EvpCipher Ctx) (innerFuel fuel : Nat) :
    Request → GeneratorM Ctx Answer
  | .pseudorandomBytes size => do
      return .bytes (← generatePseudorandomBytes evp size)
  | .uniformRandomRange size modulus => do
      return .values (← generateUniformRandomRange round evp fuel size modulus)
  | .nonZeroUniformRandomRange size modulus => do
      return .values (← generateNonZeroUniformRandomRange round evp innerFuel fuel size modulus)

/-- The answers to a run of requests, and the context after it. -/
def serveAll {Ctx : Type} (round : ℚ → ℚ) (evp : EvpCipher Ctx) (innerFuel fuel : Nat)
    (requests : List Request) (ctx : Ctx) : List (StatusOr Answer) × Ctx :=
  runAll (requests.map (serve round evp innerFuel fuel)) ctx

/-- The part of the keystream that a context has not used yet. -/
abbrev keystreamLeft (aes256 : ByteString → AesBlock → AesBlock)
    (implementation : CtrImplementation aes256) : implementation.Ctx → Stream' UInt8 :=
  implementation.remaining

/-- The segment decides the answer, for every implementation and whatever follows it, and is used
up. -/
def AnsweredFrom (round : ℚ → ℚ) (aes256 : ByteString → AesBlock → AesBlock)
    (innerFuel fuel : Nat) (request : Request) (segment : ByteString)
    (result : StatusOr Answer) : Prop :=
  Uses (keystreamLeft aes256)
    (fun implementation => serve round implementation.evp innerFuel fuel request) segment result

end AnySketchCorrectness
