import AnySketchCorrectness.Library.StateInvariant
import AnySketchCorrectness.OpenSsl
import Mathlib.Data.Nat.Log
import Mathlib.Data.Rat.Defs

/-!
# The uniform pseudorandom generator

`OpenSslUniformPseudorandomGenerator` turns a key and an IV into a string of bytes, the keystream of
AES-256 in counter mode, and samples from it by rejection. Its only state is the cipher context. A
failing call keeps what it did to that context.
-/

namespace AnySketchCorrectness

def bytesPerAes256Key : Nat := 32

def bytesPerAes256Iv : Nat := 16

structure PrngSeed where
  key : ByteString
  iv : ByteString
  deriving DecidableEq, Repr

namespace UniformPseudorandomGenerator

abbrev GeneratorM (Ctx α : Type) := EStateM Failure Ctx α

variable {Ctx : Type} (round : ℚ → ℚ) (evp : EvpCipher Ctx)

/-- What a call on a generator returns, when the generator is not used again. -/
def evaluate {α : Type} (program : GeneratorM Ctx α) (prng : Ctx) : StatusOr α :=
  StateInvariant.answer (program.run prng)

def create (key iv : ByteString) : StatusOr Ctx :=
  if key.length ≠ bytesPerAes256Key then
    .error (.invalidArgument ("The uniform pseudorandom generator key has length of "
      ++ toString key.length ++ " bytes but " ++ toString bytesPerAes256Key
      ++ " bytes are required."))
  else if iv.length ≠ bytesPerAes256Iv then
    .error (.invalidArgument ("The uniform pseudorandom generator IV has length of "
      ++ toString iv.length ++ " bytes but " ++ toString bytesPerAes256Iv
      ++ " bytes are required."))
  else
    match evp.ctxNew with
    | none =>
        .error (.internal "Error creating context for the uniform pseudorandom generator.")
    | some ctx =>
        let (code, ctx) := evp.encryptInit ctx key iv
        if code ≠ 1 then
          .error (.internal "Error initializing the uniform pseudorandom generator context.")
        else .ok ctx

def createPrngFromSeed (seed : PrngSeed) : StatusOr Ctx :=
  create evp seed.key seed.iv

/-- A buffer after `written` went to it from `position` on. -/
def overwrite (buffer : ByteString) (position : Nat) (written : ByteString) : ByteString :=
  buffer.take position ++ written ++ buffer.drop (position + written.length)

def generatePseudorandomBytes (size : Int64) : GeneratorM Ctx ByteString := do
  if size < 0 then
    throw (.invalidArgument "Number of pseudorandom bytes must be a non-negative value.")
  else if size = 0 then
    return []
  else
    let ret := List.replicate size.toNatClampNeg 0
    -- `ret.size()` is converted to the `int` that the call takes
    let (code, written, ctx) := evp.encryptUpdate (← get) ret (Int32.ofNat ret.length)
    set ctx
    if code ≠ 1 then
      throw (.internal "Error updating the uniform pseudorandom generator context.")
    else
      let ret := overwrite ret 0 written
      let (code, writtenFinal, ctx) := evp.encryptFinal (← get)
      set ctx
      if code ≠ 1 then
        throw (.internal "Error finalizing the generating random bytes.")
      else
        return overwrite ret written.length writtenFinal

/-! ### Rejection sampling -/

/-- `std::ceil(std::log2(modulus))`. -/
def bitLength (modulus : UInt32) : Nat :=
  Nat.clog 2 modulus.toNat

def bytesPerValue (modulus : UInt32) : Nat :=
  (bitLength modulus + 7) / 8

/-- `1 << bit_length` in `int`. A shift by 32 is undefined; shift instructions use the count modulo
32, and so does `<<<`. -/
def shiftedOne (modulus : UInt32) : Int32 :=
  1 <<< Int32.ofNat (bitLength modulus)

def mask (modulus : UInt32) : UInt32 :=
  (shiftedOne modulus - 1).toUInt32

/-- `failure_rate`, with the subtraction in `uint32_t`. A `double` is a rational number, and `round`
takes the exact result of an operation to the `double` that is returned. -/
def failureRate (modulus : UInt32) : ℚ :=
  round (((shiftedOne modulus).toUInt32 - modulus).toNat / (shiftedOne modulus).toInt)

/-- `current_size + 1.0 + failure_rate * current_size / (1 - failure_rate)`. -/
def expectedSampleSize (failureRate currentSize : ℚ) : ℚ :=
  let currentSize := round currentSize
  round (round (currentSize + 1)
    + round (round (failureRate * currentSize) / round (1 - failureRate)))

/-- `sample_size`, which is converted to `uint64_t`. -/
def sampleSize (modulus : UInt32) (currentSize : UInt64) : UInt64 :=
  let expected := expectedSampleSize round (failureRate round modulus) currentSize.toNat
  UInt64.ofInt (expected.num.tdiv expected.den)

def readCandidate (arr : ByteString) (start bytesPerValue : Nat) : StatusOr UInt32 :=
  (List.range bytesPerValue).foldlM
    (fun temp j =>
      match arr[start + j]? with
      | some byte => .ok ((temp <<< 8) + byte.toUInt32)
      | none => .error .outOfRange)
    0

/-- The rejection sampling step: candidates are read until `size` values are accepted, at most one
for each byte. -/
def rejectionSample (modulus : UInt32) (size : Nat) (arr : ByteString) (ret : List UInt32) :
    StatusOr (List UInt32) :=
  (List.range arr.length).foldlM
    (fun ret i =>
      if size ≤ ret.length then .ok ret
      else do
        let candidate ← readCandidate arr (i * bytesPerValue modulus) (bytesPerValue modulus)
        let temp := candidate &&& mask modulus
        return if temp < modulus then ret ++ [temp] else ret)
    ret

/-- The `while` loop of `GenerateUniformRandomRange`. -/
def sampleUntil (modulus : UInt32) (size : Nat) : Nat → List UInt32 → GeneratorM Ctx (List UInt32)
  | fuel, ret =>
      if size ≤ ret.length then return ret
      else
        match fuel with
        | 0 => throw .outOfFuel
        | fuel + 1 => do
            let currentSize := UInt64.ofNat (size - ret.length)
            let arr ← generatePseudorandomBytes evp
              (sampleSize round modulus currentSize * UInt64.ofNat (bytesPerValue modulus)).toInt64
            let ret ← MonadExcept.ofExcept (rejectionSample modulus size arr ret)
            sampleUntil modulus size fuel ret

def generateUniformRandomRange (fuel : Nat) (size : Int64) (modulus : UInt32) :
    GeneratorM Ctx (List UInt32) :=
  if modulus ≤ 1 then throw (.invalidArgument "The modulus must be greater than 1.")
  else if size < 0 then
    throw (.invalidArgument "Number of pseudorandom elements must be a non-negative value.")
  else if 2 ^ 61 ≤ size then throw .lengthError
  else sampleUntil round evp modulus size.toNatClampNeg fuel []

/-! ### Values other than zero -/

/-- `failure_rate` of `GenerateNonZeroUniformRandomRange`. -/
def nonZeroFailureRate (modulus : UInt32) : ℚ :=
  round (1 / modulus.toNat)

/-- `sample_size`, which is converted to `int64_t`. -/
def nonZeroSampleSize (modulus : UInt32) (currentSize : Int64) : Int64 :=
  let expected := expectedSampleSize round (nonZeroFailureRate round modulus) currentSize.toInt
  Int64.ofInt (expected.num.tdiv expected.den)

/-- The rejection sampling step: values other than zero are taken over until there are `size`. -/
def nonZeroSample (size : Nat) (arr ret : List UInt32) : List UInt32 :=
  arr.foldl
    (fun ret value =>
      if size ≤ ret.length then ret else if 0 < value then ret ++ [value] else ret)
    ret

/-- The `while` loop of `GenerateNonZeroUniformRandomRange`. The inner calls have fuel of their
own. -/
def sampleNonZeroUntil (innerFuel : Nat) (modulus : UInt32) (size : Nat) :
    Nat → List UInt32 → GeneratorM Ctx (List UInt32)
  | fuel, ret =>
      if size ≤ ret.length then return ret
      else
        match fuel with
        | 0 => throw .outOfFuel
        | fuel + 1 => do
            let currentSize := Int64.ofNat (size - ret.length)
            let arr ← generateUniformRandomRange round evp innerFuel
              (nonZeroSampleSize round modulus currentSize) modulus
            sampleNonZeroUntil innerFuel modulus size fuel (nonZeroSample size arr ret)

def generateNonZeroUniformRandomRange (innerFuel fuel : Nat) (size : Int64) (modulus : UInt32) :
    GeneratorM Ctx (List UInt32) :=
  if modulus ≤ 1 then throw (.invalidArgument "The modulus must be greater than 1.")
  else if size < 0 then
    throw (.invalidArgument "Number of pseudorandom elements must be a non-negative value.")
  else if 2 ^ 61 ≤ size then throw .lengthError
  else sampleNonZeroUntil round evp innerFuel modulus size.toNatClampNeg fuel []

end UniformPseudorandomGenerator

end AnySketchCorrectness
