import Mathlib.Init

/-!
# Aggregators

How two values of one column are combined, and how a column's value is written to a sketch proto.
-/

namespace AnySketchCorrectness

inductive AggregatorType where
  | sum
  | unique
  deriving DecidableEq, Repr

def uniqueAggregatorDestroyedValue : Int64 := -1

structure Aggregator where
  aggregate : Int64 → Int64 → Int64
  encodeToProtoValue : Int64 → Int64 := fun value => value
  decodeFromProtoValue : Int64 → Int64 := fun value => value

def sumAggregator : Aggregator where
  aggregate value1 value2 := value1 + value2

def uniqueAggregator : Aggregator where
  aggregate value1 value2 := if value1 = value2 then value1 else uniqueAggregatorDestroyedValue
  encodeToProtoValue value := value + 1
  decodeFromProtoValue value := value - 1

def getAggregator : AggregatorType → Aggregator
  | .sum => sumAggregator
  | .unique => uniqueAggregator

namespace Aggregator

@[simp]
theorem sum_aggregate (value1 value2 : Int64) :
    (getAggregator .sum).aggregate value1 value2 = value1 + value2 := rfl

@[simp]
theorem unique_aggregate (value1 value2 : Int64) :
    (getAggregator .unique).aggregate value1 value2
      = if value1 = value2 then value1 else uniqueAggregatorDestroyedValue := rfl

@[simp]
theorem decode_encode (type : AggregatorType) (value : Int64) :
    (getAggregator type).decodeFromProtoValue ((getAggregator type).encodeToProtoValue value)
      = value := by
  cases type with
  | sum => rfl
  | unique =>
      change value + 1 - 1 = value
      exact Int64.add_sub_cancel value 1

theorem unique_aggregate_self (value : Int64) :
    (getAggregator .unique).aggregate value value = value := by
  simp

theorem aggregate_comm (type : AggregatorType) (a b : Int64) :
    (getAggregator type).aggregate a b = (getAggregator type).aggregate b a := by
  cases type with
  | sum => exact Int64.add_comm a b
  | unique =>
      by_cases hab : a = b
      · rw [hab]
      · simp [hab, Ne.symm hab]

/-- The destroyed value absorbs every other value, so grouping does not matter for UNIQUE either. -/
theorem aggregate_assoc (type : AggregatorType) (a b c : Int64) :
    (getAggregator type).aggregate ((getAggregator type).aggregate a b) c
      = (getAggregator type).aggregate a ((getAggregator type).aggregate b c) := by
  cases type with
  | sum => exact Int64.add_assoc a b c
  | unique =>
      simp only [unique_aggregate]
      grind

end Aggregator

end AnySketchCorrectness
