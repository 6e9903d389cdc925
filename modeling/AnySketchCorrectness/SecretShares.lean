import AnySketchCorrectness.RandomGenerator

/-!
# Secret shares

`GenerateSecretShares` splits a vector into two additive shares. The first is a random seed, which
stands for the vector it expands to; the second is the input minus that vector.
-/

namespace AnySketchCorrectness

open UniformPseudorandomGenerator

structure SecretShareParameter where
  modulus : UInt32
  deriving DecidableEq, Repr

structure SecretShare where
  shareSeed : PrngSeed
  shareVector : List UInt32
  deriving DecidableEq, Repr

def subMod (x y modulus : UInt32) : StatusOr UInt32 :=
  if modulus ≤ x ∨ modulus ≤ y then
    .error (.invalidArgument ("Inputs must be less than the modulus, which is "
      ++ toString modulus.toNat ++ "."))
  else
    let cmp : UInt32 := if x < y then 1 else 0
    .ok (x - y + cmp * modulus)

/-- The loop that computes `share_vector_2[i]` from `input[i]` and `share_vector_1[i]`. Its counter
is an `int`, which is enough for a share vector: that is a `repeated` field. -/
def computeShareVector (modulus : UInt32) : List UInt32 → List UInt32 → StatusOr (List UInt32)
  | [], _ => .ok []
  | _ :: _, [] => .error .outOfRange
  | x :: input, y :: shareVector1 => do
      let share ← subMod x y modulus
      let shares ← computeShareVector modulus input shareVector1
      return share :: shares

def generateSecretShares {Ctx Rng : Type} (round : ℚ → ℚ) (evp : EvpCipher Ctx)
    (rand : RandSource Rng) (fuel : Nat) (secretShareParameter : SecretShareParameter)
    (input : List UInt32) : EStateM Failure Rng SecretShare := do
  if input.length = 0 then
    throw (.invalidArgument "Input must be a non-empty vector.")
  else if secretShareParameter.modulus ≤ 1 then
    throw (.invalidArgument "The modulus must be greater than 1.")
  else if rand.status (← get) ≠ 1 then
    throw (.internal "OpenSSL random generator has not been seeded with enough entropy.")
  else
    let (code, key, rng) := rand.bytes (← get) bytesPerAes256Key
    set rng
    if code ≠ 1 then
      throw (.internal "Failed to sample the AES 256 key.")
    else
      let (code, iv, rng) := rand.bytes (← get) bytesPerAes256Iv
      set rng
      if code ≠ 1 then
        throw (.internal "Failed to sample the AES 256 IV.")
      else
        let prng ← MonadExcept.ofExcept (create evp key iv)
        let shareVector1 ← MonadExcept.ofExcept (evaluate (generateUniformRandomRange round evp fuel
          (Int64.ofNat input.length) secretShareParameter.modulus) prng)
        let shareVector2 ← MonadExcept.ofExcept
          (computeShareVector secretShareParameter.modulus input shareVector1)
        return { shareSeed := { key, iv }, shareVector := shareVector2 }

end AnySketchCorrectness
