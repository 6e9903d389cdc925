import AnySketchCorrectness.Status

/-!
# Combining ElGamal public keys

The public keys of several parties are combined into one by adding their elements on the curve. The
curve comes from the `private_join_and_compute` library, and is a parameter.
-/

namespace AnySketchCorrectness

structure ElGamalPublicKey where
  generator : ByteString
  element : ByteString
  deriving DecidableEq, Repr

/-- The calls of an `ECGroup` and its points. -/
structure EcGroup (Point : Type) where
  -- `ECGroup::CreateECPoint`.
  createECPoint : ByteString → StatusOr Point
  -- `ECPoint::Add`.
  add : Point → Point → StatusOr Point
  -- `ECPoint::ToBytesCompressed`.
  toBytesCompressed : Point → StatusOr ByteString

structure EcGroupLibrary (Point : Type) where
  -- `ECGroup::Create`.
  create : Int32 → StatusOr (EcGroup Point)
  -- What `ASSIGN_OR_RETURN_ERROR` makes of an error and its message.
  returnedError : Failure → String → Failure

/-- The characters that `absl::StrCat` appends for a string of bytes. -/
def toText (bytes : ByteString) : String :=
  String.ofList (bytes.map fun byte => Char.ofNat byte.toNat)

variable {Point : Type} (library : EcGroupLibrary Point)

def assignOrReturnError {α : Type} (rexpr : StatusOr α) (message : String) : StatusOr α :=
  match rexpr with
  | .error failure => .error (library.returnedError failure message)
  | .ok a => .ok a

/-- One round of the loop of `CombineElGamalPublicKeys`. -/
def combineElement (ecGroup : EcGroup Point) (generator : ByteString) (combinedElementEc : Point)
    (key : ElGamalPublicKey) : StatusOr Point := do
  if key.generator ≠ generator then
    throw (.invalidArgument
      ("Generators don't match" ++ toText key.generator ++ " vs " ++ toText generator))
  let elementEc ← assignOrReturnError library (ecGroup.createECPoint key.element)
    ("Invalid ECPoint: " ++ toText key.element)
  ecGroup.add combinedElementEc elementEc

/-- `CombineElGamalPublicKeys` after its two checks of the number of keys. -/
def combineKeys (curveId : Int32) (first : ElGamalPublicKey) (rest : List ElGamalPublicKey) :
    StatusOr ElGamalPublicKey := do
  let ecGroup ← assignOrReturnError library (library.create curveId)
    ("Invalid Curve_id: " ++ toString curveId.toInt)
  let firstElementEc ← assignOrReturnError library (ecGroup.createECPoint first.element)
    ("Invalid ECPoint: " ++ toText first.element)
  let combinedElementEc ←
    rest.foldlM (combineElement library ecGroup first.generator) firstElementEc
  let element ← ecGroup.toBytesCompressed combinedElementEc
  return { generator := first.generator, element }

def combineElGamalPublicKeys (curveId : Int32) (keys : List ElGamalPublicKey) :
    StatusOr ElGamalPublicKey :=
  match keys with
  | [] => throw (.invalidArgument "Keys cannot be empty")
  | [key] => return key
  | first :: rest => combineKeys library curveId first rest

end AnySketchCorrectness
