import AnySketchCorrectness.SketchEncrypter
import AnySketchCorrectness.Library.FixedWidth
import Mathlib.Algebra.Group.Basic

/-!
# What an encrypted sketch holds

An encrypted sketch is read word by word. Each word is an ElGamal ciphertext of two compressed
points, and decrypts to the point that was encrypted. `registerPoints` says which points the words
of one register are meant to be.
-/

namespace AnySketchCorrectness

variable {Point Rng : Type}

def bytesPerEcPoint : Nat := 33

def decryptWords (decrypt : ByteString → ByteString → Point) (encryptedSketch : ByteString) :
    List Point :=
  (FixedWidth.records bytesPerCipherText encryptedSketch).map fun word =>
    decrypt (word.take bytesPerEcPoint) (word.drop bytesPerEcPoint)

/-- A UNIQUE column of the register holds a value that is not positive. -/
def IsDestroyed (reg : Register) (sketchConfig : SketchConfig) : Prop :=
  ∃ (column : Nat) (valueSpec : ValueSpec) (value : Int64),
    sketchConfig.values[column]? = some valueSpec ∧ reg.values[column]? = some value
      ∧ valueSpec.aggregator = .unique ∧ value ≤ 0

theorem isDestroyed_iff_zip {reg : Register} {sketchConfig : SketchConfig} :
    IsDestroyed reg sketchConfig ↔ ∃ entry ∈ sketchConfig.values.zip reg.values,
      entry.1.aggregator = .unique ∧ entry.2 ≤ 0 := by
  simp only [IsDestroyed, List.mem_iff_getElem?, List.getElem?_zip_eq_some, Prod.exists]
  constructor
  · rintro ⟨column, valueSpec, value, hspec, hvalue, hdestroyed⟩
    exact ⟨valueSpec, value, ⟨column, hspec, hvalue⟩, hdestroyed⟩
  · rintro ⟨valueSpec, value, ⟨column, hspec, hvalue⟩, hdestroyed⟩
    exact ⟨column, valueSpec, value, hspec, hvalue, hdestroyed⟩

instance (reg : Register) (sketchConfig : SketchConfig) :
    Decidable (IsDestroyed reg sketchConfig) :=
  decidable_of_iff' _ isDestroyed_iff_zip

section Points

variable [AddCommGroup Point]

/-- **What the encrypter relies on** from the elliptic curve and the cipher: hashing to the curve is
the function `H`, multiplication is that of the group of points, and a ciphertext of a compressed
point is two strings of 33 bytes that decrypt to that point. Each call may also fail. -/
structure EcLibrary.Correct (ec : EcLibrary Point Rng) (H : String → Point)
    (decrypt : ByteString → ByteString → Point) : Prop where
  hashToCurve_eq : ∀ {s P}, ec.hashToCurve s = .ok P → P = H s
  mul_eq : ∀ {P n Q}, ec.mul P n = .ok Q → Q = n.toNat • P
  encrypt_eq : ∀ {P ecPoint rng u e rng'}, ec.toBytesCompressed P = .ok ecPoint →
    ec.encrypt rng ecPoint = (.ok (u, e), rng') →
      u.length = bytesPerEcPoint ∧ e.length = bytesPerEcPoint ∧ decrypt u e = P

/-- The point of a counter, capped just above the maximum. -/
def counterPoint (H : String → Point) (maxCounterValue : UInt64) (n : Nat) : Point :=
  min n (maxCounterValue.toNat + 1) • H unitECPointSeed

def integerPoint (H : String → Point) (n : Int64) : Point :=
  H (toString n.toInt)

def valuePoint (H : String → Point) (maxCounterValue : UInt64) (valueSpec : ValueSpec)
    (value : Int64) : Point :=
  match valueSpec.aggregator with
  | .unique => integerPoint H value
  | .sum => counterPoint H maxCounterValue value.toInt.toNat
  | _ => 0

def destroyedRegisterPoints (H : String → Point) (maxCounterValue : UInt64)
    (destroyedRegisterStrategy : DestroyedRegisterStrategy) (reg : Register) : List Point :=
  match destroyedRegisterStrategy with
  | .flaggedKey =>
      integerPoint H reg.index :: List.replicate reg.values.length (H destroyedRegisterKey)
  | .conflictingKeys =>
      (integerPoint H reg.index
          :: List.replicate reg.values.length (counterPoint H maxCounterValue 1))
        ++ integerPoint H reg.index
          :: List.replicate reg.values.length (counterPoint H maxCounterValue 2)
  | _ => []

def registerPoints (H : String → Point) (maxCounterValue : UInt64) (sketchConfig : SketchConfig)
    (destroyedRegisterStrategy : DestroyedRegisterStrategy) (reg : Register) : List Point :=
  if IsDestroyed reg sketchConfig then
    destroyedRegisterPoints H maxCounterValue destroyedRegisterStrategy reg
  else
    integerPoint H reg.index
      :: List.zipWith (valuePoint H maxCounterValue) sketchConfig.values reg.values

end Points

end AnySketchCorrectness
