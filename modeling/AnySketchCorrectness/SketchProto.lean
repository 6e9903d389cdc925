import AnySketchCorrectness.Status

/-!
# The sketch messages

The messages of `sketch.proto` and `sketch_encryption_methods.proto`, with the fields that the
encrypter reads. A `repeated` field is a list; an enum keeps the values its definition does not
name, which proto3 lets through.
-/

namespace AnySketchCorrectness

inductive ValueSpecAggregator where
  | aggregatorUnspecified
  | sum
  | unique
  | unrecognized (number : Int32)
  deriving DecidableEq, Repr

structure ValueSpec where
  name : String
  aggregator : ValueSpecAggregator
  deriving DecidableEq, Repr

structure IndexSpec where
  name : String
  deriving DecidableEq, Repr

structure SketchConfig where
  indexes : List IndexSpec
  values : List ValueSpec
  deriving DecidableEq, Repr

structure Register where
  index : Int64
  values : List Int64
  deriving DecidableEq, Repr

structure Sketch where
  config : SketchConfig
  registers : List Register
  deriving DecidableEq, Repr

inductive DestroyedRegisterStrategy where
  | unspecified
  | conflictingKeys
  | flaggedKey
  | unrecognized (number : Int32)
  deriving DecidableEq, Repr

end AnySketchCorrectness
