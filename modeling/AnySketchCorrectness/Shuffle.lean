import AnySketchCorrectness.RandomGenerator

/-!
# The seeded shuffle

`SecureShuffleWithSeed` is a Fisher-Yates shuffle whose swap indices are read from the keystream of
a seed. It works on the vector in place, so the vector is the state.
-/

namespace AnySketchCorrectness

open UniformPseudorandomGenerator

/-- `sizeof(absl::uint128)`. -/
def bytesPerUint128 : Nat := 16

def littleEndian (bytes : ByteString) : Nat :=
  bytes.foldr (fun byte n => byte.toNat + 256 * n) 0

/-- `rand[i]`, where `rand` is the byte string read as an array of `absl::uint128`. -/
def randAt (arr : ByteString) (i : Nat) : StatusOr Nat :=
  if bytesPerUint128 * (i + 1) ≤ arr.length then
    .ok (littleEndian ((arr.drop (bytesPerUint128 * i)).take bytesPerUint128))
  else .error .outOfRange

def swapIndex (rand numElements i : Nat) : Nat :=
  i + rand % (numElements - i)

/-- One round of the loop of `SecureShuffleWithSeed`. -/
def shuffleStep (arr : ByteString) (numElements i : Nat) :
    EStateM Failure (Array UInt32) Unit := do
  let rand ← MonadExcept.ofExcept (randAt arr i)
  modify fun data => data.swapIfInBounds i (swapIndex rand numElements i)

/-- The loop of `SecureShuffleWithSeed`. -/
def shuffleLoop (arr : ByteString) (numElements : Nat) : EStateM Failure (Array UInt32) Unit :=
  forM (List.range (numElements - 1)) (shuffleStep arr numElements)

def secureShuffleWithSeed {Ctx : Type} (evp : EvpCipher Ctx) (seed : PrngSeed) :
    EStateM Failure (Array UInt32) Unit := do
  let data ← get
  if data.size ≤ 1 then return ()
  else
    let prng ← MonadExcept.ofExcept (createPrngFromSeed evp seed)
    let arr ← MonadExcept.ofExcept (evaluate (generatePseudorandomBytes evp
      (UInt64.ofNat data.size * UInt64.ofNat bytesPerUint128).toInt64) prng)
    shuffleLoop arr data.size

end AnySketchCorrectness
