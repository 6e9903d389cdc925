import AnySketchCorrectness.SketchProto
import Mathlib.Data.List.AList

/-!
# The sketch encrypter

`SketchEncrypterImpl` turns a plaintext sketch into a string of ElGamal ciphertexts, one for each
word. Its state is the two caches and the randomness that encryption draws from. A failing call
keeps what it did to that state, which is what `EStateM` provides.

The elliptic curve and the cipher come from the `private_join_and_compute` library, and are a
parameter.
-/

namespace AnySketchCorrectness

/-- The calls of `private_join_and_compute` that the encrypter makes. `Rng` is the state of the
randomness they consume. -/
structure EcLibrary (Point Rng : Type) where
  -- `ECGroup::GetPointByHashingToCurveSha256`.
  hashToCurve : String → StatusOr Point
  -- `ECPoint::Mul`.
  mul : Point → UInt64 → StatusOr Point
  -- `ECPoint::ToBytesCompressed`.
  toBytesCompressed : Point → StatusOr ByteString
  -- `CommutativeElGamal::Encrypt`.
  encrypt : Rng → ByteString → StatusOr (ByteString × ByteString) × Rng
  -- `ECGroup::GeneratePrivateKey` and its decimal string.
  generatePrivateKey : Rng → String × Rng

def bytesPerCipherText : Nat := 66

def unitECPointSeed : String := "unit_ec_point"

def destroyedRegisterKey : String := "destroyed_register_key"

def publisherNoiseRegisterId : String := "publisher_noise_register_id"

def validateSketch (sketch : Sketch) : Bool :=
  sketch.registers.all fun reg => sketch.config.values.length == reg.values.length

/-- The loop of `IsRegisterDestroyed`, which reads `sketch_config.values(i)` and `reg.values(i)`
side by side. -/
def hasDestroyedValue : List ValueSpec → List Int64 → StatusOr Bool
  | _, [] => .ok false
  | [], _ :: _ => .error .outOfRange
  | valueSpec :: valueSpecs, value :: values =>
      if valueSpec.aggregator = .unique ∧ value ≤ 0 then .ok true
      else hasDestroyedValue valueSpecs values

def isRegisterDestroyed (reg : Register) (sketchConfig : SketchConfig) : StatusOr Bool :=
  hasDestroyedValue sketchConfig.values reg.values

structure SketchEncrypterImpl (Rng : Type) where
  rng : Rng
  maxCounterValue : UInt64
  integerToEcPointMap : AList fun _ : UInt64 => ByteString
  destroyedRegisterKeyEc : ByteString

def createWithPublicKey {Rng : Type} (rng : Rng) (maxCounterValue : UInt64) :
    SketchEncrypterImpl Rng :=
  { rng, maxCounterValue, integerToEcPointMap := ∅, destroyedRegisterKeyEc := [] }

namespace SketchEncrypterImpl

abbrev EncrypterM (Rng α : Type) := EStateM Failure (SketchEncrypterImpl Rng) α

variable {Point Rng : Type} (ec : EcLibrary Point Rng)

/-- `std::string::reserve`, which throws when asked for more than `max_size()`. -/
def reserve (newCapacity : UInt64) : EncrypterM Rng Unit :=
  if Int64.maxValue.toUInt64 < newCapacity then throw .lengthError else pure ()

def mapToCurve (plaintext : String) : StatusOr ByteString := do
  let ecPoint ← ec.hashToCurve plaintext
  ec.toBytesCompressed ecPoint

def mapIntegerToCurve (plaintext : Int64) : StatusOr ByteString :=
  mapToCurve ec (toString plaintext.toInt)

/-- The point `n` times the unit point, as `GetECPointForInteger` computes it. -/
def computeECPointForInteger (n : UInt64) : StatusOr ByteString :=
  if n = 0 then throw (.internal "n shouldn't be 0 for GetECPointForInteger().")
  else if n = 1 then mapToCurve ec unitECPointSeed
  else do
    let ec1 ← ec.hashToCurve unitECPointSeed
    let ecN ← ec.mul ec1 n
    ec.toBytesCompressed ecN

/-- The part of `GetECPointForInteger` after the cap: compute the point and cache it. -/
def insertECPointForInteger (n : UInt64) : EncrypterM Rng ByteString := do
  let ecPointString ← MonadExcept.ofExcept (computeECPointForInteger ec n)
  modify fun encrypter => { encrypter with
    integerToEcPointMap := encrypter.integerToEcPointMap.insert n ecPointString }
  return ecPointString

def getECPointForInteger (n : UInt64) : EncrypterM Rng ByteString := do
  let encrypter ← get
  match encrypter.integerToEcPointMap.lookup n with
  | some ecPoint => return ecPoint
  | none =>
      let capped := encrypter.maxCounterValue + 1
      if capped < n then
        -- the recursive call, which is not capped again
        match encrypter.integerToEcPointMap.lookup capped with
        | some ecPoint => return ecPoint
        | none => insertECPointForInteger ec capped
      else
        insertECPointForInteger ec n

def encryptAdditionalECPoint (ecPoint encryptedSketch : ByteString) :
    EncrypterM Rng ByteString := do
  let encrypter ← get
  let (result, rng) := ec.encrypt encrypter.rng ecPoint
  set { encrypter with rng }
  let ciphertext ← MonadExcept.ofExcept result
  return encryptedSketch ++ ciphertext.1 ++ ciphertext.2

/-- The loops that append the encryption of one point several times. -/
def encryptRepeatedECPoint (ecPoint : ByteString) (count : Nat) (encryptedSketch : ByteString) :
    EncrypterM Rng ByteString :=
  (List.replicate count ecPoint).foldlM
    (fun encryptedSketch ecPoint => encryptAdditionalECPoint ec ecPoint encryptedSketch)
    encryptedSketch

def appendEncryptedRegisterWithSameValue (indexEc : ByteString) (numOfValues : Nat) (n : UInt64)
    (encryptedSketch : ByteString) : EncrypterM Rng ByteString := do
  let encryptedSketch ← encryptAdditionalECPoint ec indexEc encryptedSketch
  let valueEc ← getECPointForInteger ec n
  encryptRepeatedECPoint ec valueEc numOfValues encryptedSketch

/-- The cached point of `KDestroyedRegisterKey`, mapped to the curve if there is none. -/
def getDestroyedRegisterKeyEc : EncrypterM Rng ByteString := do
  let encrypter ← get
  if encrypter.destroyedRegisterKeyEc.isEmpty then
    let ecPoint ← MonadExcept.ofExcept (mapToCurve ec destroyedRegisterKey)
    modify fun encrypter => { encrypter with destroyedRegisterKeyEc := ecPoint }
    return ecPoint
  else
    return encrypter.destroyedRegisterKeyEc

def appendFlaggedDestroyedRegister (indexEc : ByteString) (numOfValues : Nat)
    (encryptedSketch : ByteString) : EncrypterM Rng ByteString := do
  let encryptedSketch ← encryptAdditionalECPoint ec indexEc encryptedSketch
  let keyEc ← getDestroyedRegisterKeyEc ec
  encryptRepeatedECPoint ec keyEc numOfValues encryptedSketch

def encryptDestroyedRegister (reg : Register)
    (destroyedRegisterStrategy : DestroyedRegisterStrategy) (encryptedSketch : ByteString) :
    EncrypterM Rng ByteString := do
  let indexEc ← MonadExcept.ofExcept (mapIntegerToCurve ec reg.index)
  match destroyedRegisterStrategy with
  | .conflictingKeys =>
      let encryptedSketch ←
        appendEncryptedRegisterWithSameValue ec indexEc reg.values.length 1 encryptedSketch
      appendEncryptedRegisterWithSameValue ec indexEc reg.values.length 2 encryptedSketch
  | .flaggedKey => appendFlaggedDestroyedRegister ec indexEc reg.values.length encryptedSketch
  | _ => throw (.invalidArgument "Invalid DestroyedRegisterStrategy.")

/-- One round of the loop of `EncryptNonDestroyedRegister`. -/
def encryptValue (valueSpec : ValueSpec) (value : Int64) (encryptedSketch : ByteString) :
    EncrypterM Rng ByteString :=
  match valueSpec.aggregator with
  | .unique => do
      let ecPoint ← MonadExcept.ofExcept (mapIntegerToCurve ec value)
      encryptAdditionalECPoint ec ecPoint encryptedSketch
  | .sum =>
      if value ≤ 0 then throw (.invalidArgument "A SUM value should be positive.")
      else do
        let ecPoint ← getECPointForInteger ec value.toUInt64
        encryptAdditionalECPoint ec ecPoint encryptedSketch
  | _ => throw (.invalidArgument "Invalid Aggregator type.")

def encryptValues : List ValueSpec → List Int64 → ByteString → EncrypterM Rng ByteString
  | _, [], encryptedSketch => return encryptedSketch
  | [], _ :: _, _ => throw .outOfRange
  | valueSpec :: valueSpecs, value :: values, encryptedSketch => do
      let encryptedSketch ← encryptValue ec valueSpec value encryptedSketch
      encryptValues valueSpecs values encryptedSketch

def encryptNonDestroyedRegister (reg : Register) (sketchConfig : SketchConfig)
    (encryptedSketch : ByteString) : EncrypterM Rng ByteString := do
  let indexEc ← MonadExcept.ofExcept (mapIntegerToCurve ec reg.index)
  let encryptedSketch ← encryptAdditionalECPoint ec indexEc encryptedSketch
  encryptValues ec sketchConfig.values reg.values encryptedSketch

def encryptAdditionalRegister (reg : Register) (sketchConfig : SketchConfig)
    (destroyedRegisterStrategy : DestroyedRegisterStrategy) (encryptedSketch : ByteString) :
    EncrypterM Rng ByteString := do
  if ← MonadExcept.ofExcept (isRegisterDestroyed reg sketchConfig) then
    encryptDestroyedRegister ec reg destroyedRegisterStrategy encryptedSketch
  else
    encryptNonDestroyedRegister ec reg sketchConfig encryptedSketch

/-- `total_cipher_sketch_bytes`, computed in `int`. -/
def totalCipherSketchBytes (sketch : Sketch) : Int32 :=
  let numRegisters := Int32.ofNat sketch.registers.length
  let registerSize :=
    Int32.ofNat sketch.config.indexes.length + Int32.ofNat sketch.config.values.length
  numRegisters * registerSize * Int32.ofNat bytesPerCipherText

def encrypt (sketch : Sketch) (destroyedRegisterStrategy : DestroyedRegisterStrategy) :
    EncrypterM Rng ByteString := do
  if !validateSketch sketch then
    throw (.internal "Sketch data doesn't match the config.")
  reserve (totalCipherSketchBytes sketch).toInt64.toUInt64
  sketch.registers.foldlM
    (fun encryptedSketch reg =>
      encryptAdditionalRegister ec reg sketch.config destroyedRegisterStrategy encryptedSketch)
    []

/-- One round of the loop of `AppendNoiseRegisters`. -/
def appendNoiseRegister (publisherNoiseRegisterIdEc : ByteString) (valueCount : Nat)
    (encryptedSketch : ByteString) : EncrypterM Rng ByteString := do
  let encryptedSketch ← encryptAdditionalECPoint ec publisherNoiseRegisterIdEc encryptedSketch
  let encrypter ← get
  let (privateKey, rng) := ec.generatePrivateKey encrypter.rng
  set { encrypter with rng }
  let randomValueEc ← MonadExcept.ofExcept (mapToCurve ec privateKey)
  encryptRepeatedECPoint ec randomValueEc valueCount encryptedSketch

/-- `AppendNoiseRegisters`, for the noiser made from the publisher noise parameter. -/
def appendNoiseRegisters (generateNoiseComponent : Rng → StatusOr Int64 × Rng) (valueCount : Int32)
    (encryptedSketch : ByteString) : EncrypterM Rng ByteString := do
  if valueCount < 1 then
    throw (.invalidArgument "value_count should be positive.")
  let encrypter ← get
  let (result, rng) := generateNoiseComponent encrypter.rng
  set { encrypter with rng }
  let noiseCount ← MonadExcept.ofExcept result
  if noiseCount < 1 then
    return encryptedSketch
  let publisherNoiseRegisterIdEc ←
    MonadExcept.ofExcept (mapToCurve ec publisherNoiseRegisterId)
  let noiseRegisterBytes :=
    noiseCount * (valueCount + 1).toInt64 * Int64.ofNat bytesPerCipherText
  reserve (UInt64.ofNat encryptedSketch.length + noiseRegisterBytes.toUInt64)
  (List.replicate noiseCount.toNatClampNeg publisherNoiseRegisterIdEc).foldlM
    (fun encryptedSketch idEc =>
      appendNoiseRegister ec idEc valueCount.toNatClampNeg encryptedSketch)
    encryptedSketch

/-- The states an encrypter can be in: freshly created, or left behind by a call that succeeded or
failed. -/
inductive Reachable (maxCounterValue : UInt64) : SketchEncrypterImpl Rng → Prop
  | create (rng : Rng) : Reachable maxCounterValue (createWithPublicKey rng maxCounterValue)
  | encrypt {encrypter result encrypter'} (sketch : Sketch)
      (destroyedRegisterStrategy : DestroyedRegisterStrategy) :
      Reachable maxCounterValue encrypter →
      (encrypt ec sketch destroyedRegisterStrategy).run encrypter = .ok result encrypter' →
      Reachable maxCounterValue encrypter'
  | encryptFailed {encrypter failure encrypter'} (sketch : Sketch)
      (destroyedRegisterStrategy : DestroyedRegisterStrategy) :
      Reachable maxCounterValue encrypter →
      (encrypt ec sketch destroyedRegisterStrategy).run encrypter = .error failure encrypter' →
      Reachable maxCounterValue encrypter'
  | appendNoise {encrypter result encrypter'}
      (generateNoiseComponent : Rng → StatusOr Int64 × Rng) (valueCount : Int32)
      (encryptedSketch : ByteString) :
      Reachable maxCounterValue encrypter →
      (appendNoiseRegisters ec generateNoiseComponent valueCount encryptedSketch).run encrypter
        = .ok result encrypter' →
      Reachable maxCounterValue encrypter'
  | appendNoiseFailed {encrypter failure encrypter'}
      (generateNoiseComponent : Rng → StatusOr Int64 × Rng) (valueCount : Int32)
      (encryptedSketch : ByteString) :
      Reachable maxCounterValue encrypter →
      (appendNoiseRegisters ec generateNoiseComponent valueCount encryptedSketch).run encrypter
        = .error failure encrypter' →
      Reachable maxCounterValue encrypter'

end SketchEncrypterImpl

end AnySketchCorrectness
