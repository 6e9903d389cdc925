import AnySketchCorrectness.Aggregators
import AnySketchCorrectness.Distributions
import Mathlib.Data.List.AList

/-!
# AnySketch

The sketch itself: a map from linearized indexes to tuples of values, and the operations that fill
it. A failing call returns its status next to the sketch it leaves behind.
-/

namespace AnySketchCorrectness

/-- `absl::FixedArray<ValueType>`. -/
abbrev FixedArray := List Int64

/-- `absl::flat_hash_map<uint64_t, absl::FixedArray<ValueType>>`. The order of the entries is the
order in which an iteration visits them. -/
abbrev RegisterMap := AList fun _ : UInt64 => FixedArray

structure ValueFunction where
  name : String
  aggregatorType : AggregatorType
  distribution : BaseDistribution

structure AnySketch where
  registers : RegisterMap
  indexes : List BaseDistribution
  values : List ValueFunction

/-- An item with its metadata, the argument of one `Insert` call. -/
structure Insertion where
  item : ByteString
  itemMetadata : ItemMetadata

namespace AnySketch

def new (indexes : List BaseDistribution) (values : List ValueFunction) : AnySketch :=
  { registers := ∅, indexes, values }

def registerSize (sketch : AnySketch) : Nat := sketch.values.length

/-- The merging loop of `AggregateIntoRegister`: `register_values[i]` becomes the aggregate of
itself and `new_values[i]`. -/
def aggregateValues : List ValueFunction → FixedArray → FixedArray → FixedArray
  | valueFunction :: values, registerValue :: registerValues, newValue :: newValues =>
      (getAggregator valueFunction.aggregatorType).aggregate registerValue newValue
        :: aggregateValues values registerValues newValues
  | _, _, _ => []

def aggregateIntoRegister (sketch : AnySketch) (index : Int64) (newValues : FixedArray) :
    StatusOr Unit × AnySketch :=
  if newValues.length ≠ sketch.registerSize then
    (.error (.invalidArgument s!"Input has wrong dimension. Expected {
      sketch.registerSize} but got {newValues.length}"), sketch)
  else
    match sketch.registers.lookup index.toUInt64 with
    | none =>
        -- `try_emplace` inserted the register: the values are copied raw
        (.ok (), { sketch with registers := sketch.registers.insert index.toUInt64 newValues })
    | some registerValues =>
        (.ok (), { sketch with
          registers := sketch.registers.insert index.toUInt64
            (aggregateValues sketch.values registerValues newValues) })

/-- The loop of `GetIndex` with its two accumulators. -/
def getIndexLoop (item : ByteString) (itemMetadata : ItemMetadata) :
    List BaseDistribution → (product linearizedIndex : UInt64) → StatusOr UInt64
  | [], _, linearizedIndex => .ok linearizedIndex
  | distribution :: indexes, product, linearizedIndex => do
      let distributionValue ← distribution.apply item itemMetadata
      let indexPart := distributionValue - distribution.minValue
      getIndexLoop item itemMetadata indexes (product * distribution.size.toUInt64)
        (product * linearizedIndex + indexPart.toUInt64)

def getIndex (indexes : List BaseDistribution) (insertion : Insertion) : StatusOr Int64 := do
  let linearizedIndex ← getIndexLoop insertion.item insertion.itemMetadata indexes 1 0
  return linearizedIndex.toInt64

def applyValues (insertion : Insertion) : List ValueFunction → StatusOr FixedArray
  | [] => .ok []
  | valueFunction :: values => do
      let value ← valueFunction.distribution.apply insertion.item insertion.itemMetadata
      let rest ← applyValues insertion values
      return value :: rest

theorem applyValues_cons_eq_ok {insertion : Insertion} {valueFunction : ValueFunction}
    {values : List ValueFunction} {newValues : FixedArray} :
    applyValues insertion (valueFunction :: values) = .ok newValues ↔ ∃ value rest,
      valueFunction.distribution.apply insertion.item insertion.itemMetadata = .ok value
        ∧ applyValues insertion values = .ok rest ∧ newValues = value :: rest := by
  rw [applyValues, StatusOr.bind_eq_ok]
  constructor
  · rintro ⟨value, happly, hcolumns⟩
    obtain ⟨rest, hrest, hnew⟩ := StatusOr.bind_eq_ok.mp hcolumns
    cases hnew
    exact ⟨value, rest, happly, hrest, rfl⟩
  · rintro ⟨value, rest, happly, hrest, rfl⟩
    exact ⟨value, happly, StatusOr.bind_eq_ok.mpr ⟨rest, hrest, rfl⟩⟩

def insert (sketch : AnySketch) (insertion : Insertion) : StatusOr Unit × AnySketch :=
  match getIndex sketch.indexes insertion with
  | .error failure => (.error failure, sketch)
  | .ok index =>
      match applyValues insertion sketch.values with
      | .error failure => (.error failure, sketch)
      | .ok newValues => sketch.aggregateIntoRegister index newValues

def mergeEntries (sketch : AnySketch) :
    List (Σ _ : UInt64, FixedArray) → StatusOr Unit × AnySketch
  | [] => (.ok (), sketch)
  | ⟨item, newValues⟩ :: entries =>
      match sketch.aggregateIntoRegister item.toInt64 newValues with
      | (.error failure, sketch) => (.error failure, sketch)
      | (.ok (), sketch) => sketch.mergeEntries entries

def merge (sketch other : AnySketch) : StatusOr Unit × AnySketch :=
  sketch.mergeEntries other.registers.entries

def mergeAll (sketch : AnySketch) : List AnySketch → StatusOr Unit × AnySketch
  | [] => (.ok (), sketch)
  | other :: others =>
      match sketch.merge other with
      | (.error failure, sketch) => (.error failure, sketch)
      | (.ok (), sketch) => sketch.mergeAll others

def insertAll (sketch : AnySketch) (insertions : List Insertion) : AnySketch :=
  insertions.foldl (fun sketch insertion => (sketch.insert insertion).2) sketch

end AnySketch

end AnySketchCorrectness
