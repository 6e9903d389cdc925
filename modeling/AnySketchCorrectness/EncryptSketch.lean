import AnySketchCorrectness.DistributedNoiser
import AnySketchCorrectness.ElGamalKeys
import AnySketchCorrectness.SketchEncrypter
import Mathlib.Algebra.Group.Nat.Defs

/-!
# Encrypting a sketch on request

`EncryptSketch` serves one serialized request: it creates an encrypter, encrypts the sketch, and
appends noise registers if the request has a noise parameter. Reading and writing the messages is
left to the protobuf library, and is a parameter.
-/

namespace AnySketchCorrectness

structure PublisherNoiseParameter (Double : Type) where
  epsilon : Double
  delta : Double
  publisherCount : Int32
  deriving DecidableEq, Repr

/-- A repeated field counts its elements in an `int`. -/
structure EncryptSketchRequest (Double : Type) where
  sketch : Sketch
  elGamalKeys : ElGamalPublicKey
  curveId : Int64
  maximumValue : Int32
  destroyedRegisterStrategy : DestroyedRegisterStrategy
  noiseParameter : Option (PublisherNoiseParameter Double)
  valuesSize_lt : sketch.config.values.length < 2 ^ 31

structure EncryptSketchResponse where
  encryptedSketch : ByteString
  deriving DecidableEq, Repr

/-- What the protobuf library does with the messages of `EncryptSketch`. -/
structure EncryptSketchCodec (Double : Type) where
  -- `EncryptSketchRequest::ParseFromString`.
  parseFromString : ByteString → Option (EncryptSketchRequest Double)
  -- `EncryptSketchResponse::SerializeAsString`.
  serializeAsString : EncryptSketchResponse → ByteString

/-- `ECGroup::Create` and `CommutativeElGamal::CreateFromPublicKey`, which `CreateWithPublicKey`
calls for a curve and the generator and element of a public key. -/
abbrev CreateEcLibrary (Point Rng : Type) :=
  Int32 → ByteString → ByteString → StatusOr (EcLibrary Point Rng)

variable {Double Point Rng : Type} [Add Double] [Sub Double] [Mul Double] [Div Double] [Neg Double]
  [OfScientific Double] [IntCast Double] [LE Double] [DecidableLE Double]
  (cmath : Cmath Double) (rand : RandSource Rng) (distributions : RandomDistributions Double Rng)

/-- The options of the noiser that `AppendNoiseRegisters` makes. -/
def publisherNoiseOptions (publisherNoiseParameter : PublisherNoiseParameter Double) :
    DistributedGeometricNoiseComponentOptions Double :=
  let params : DifferentialPrivacyParams Double :=
    { epsilon := publisherNoiseParameter.epsilon, delta := publisherNoiseParameter.delta }
  getGeometricPublisherNoiseOptions cmath params publisherNoiseParameter.publisherCount

/-- One call of the noiser that `AppendNoiseRegisters` makes. -/
def publisherNoise (publisherNoiseParameter : PublisherNoiseParameter Double) (rng : Rng) :
    StatusOr Int64 × Rng :=
  let options := publisherNoiseOptions cmath publisherNoiseParameter
  match (DistributedGeometricNoiser.generateNoiseComponent rand distributions options).run rng with
  | .ok noiseCount rng => (.ok noiseCount, rng)
  | .error failure rng => (.error failure, rng)

/-- The calls that `EncryptSketch` makes on the encrypter it created. -/
def encryptRequested (ec : EcLibrary Point Rng) (request : EncryptSketchRequest Double) :
    SketchEncrypterImpl.EncrypterM Rng ByteString := do
  let encryptedSketch ←
    SketchEncrypterImpl.encrypt ec request.sketch request.destroyedRegisterStrategy
  match request.noiseParameter with
  | none => return encryptedSketch
  | some noiseParameter =>
      SketchEncrypterImpl.appendNoiseRegisters ec
        (publisherNoise cmath rand distributions noiseParameter)
        (Int32.ofNat request.sketch.config.values.length) encryptedSketch

/-- `EncryptSketch` on a request that was parsed. -/
def encryptSketchResponse (createEcLibrary : CreateEcLibrary Point Rng)
    (request : EncryptSketchRequest Double) (rng : Rng) : StatusOr EncryptSketchResponse := do
  let ec ← createEcLibrary request.curveId.toInt32 request.elGamalKeys.generator
    request.elGamalKeys.element
  let encrypter := createWithPublicKey rng request.maximumValue.toInt64.toUInt64
  match (encryptRequested cmath rand distributions ec request).run encrypter with
  | .ok encryptedSketch _ => return { encryptedSketch }
  | .error failure _ => throw failure

def encryptSketch (codec : EncryptSketchCodec Double)
    (createEcLibrary : CreateEcLibrary Point Rng) (serializedRequest : ByteString) (rng : Rng) :
    StatusOr ByteString :=
  match codec.parseFromString serializedRequest with
  | none => throw (.invalidArgument "failed to parse the EncryptSketchRequest proto.")
  | some request => do
      let response ←
        encryptSketchResponse cmath rand distributions createEcLibrary request rng
      return codec.serializeAsString response

end AnySketchCorrectness
