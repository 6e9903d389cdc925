import AnySketchCorrectness.Status
import Mathlib.Data.List.Basic

/-!
# Distributions

A distribution maps an item and its metadata to a number in a range it announces. The interface
promises the range and `BaseDistributionImpl::Apply` checks it, so here the range is a field of the
interface that the checked implementation has to prove.
-/

namespace AnySketchCorrectness

/-- `absl::flat_hash_map<std::string, int64_t>`, of which only `find` is used. -/
abbrev ItemMetadata := String → Option Int64

structure BaseDistribution where
  minValue : Int64
  maxValue : Int64
  apply : ByteString → ItemMetadata → StatusOr Int64
  apply_mem : ∀ {item itemMetadata value}, apply item itemMetadata = .ok value →
    minValue ≤ value ∧ value ≤ maxValue

namespace BaseDistribution

def size (distribution : BaseDistribution) : Int64 :=
  distribution.maxValue - distribution.minValue + 1

end BaseDistribution

/-- `BaseDistributionImpl`: the subclass computes a value and `Apply` checks its range. -/
structure BaseDistributionImpl where
  minValue : Int64
  maxValue : Int64
  applyInternal : ByteString → ItemMetadata → StatusOr Int64

namespace BaseDistributionImpl

def apply (distribution : BaseDistributionImpl) (item : ByteString) (itemMetadata : ItemMetadata) :
    StatusOr Int64 := do
  let value ← distribution.applyInternal item itemMetadata
  if value < distribution.minValue then
    throw (.invalidArgument s!"Returned value {value} is less than minimum value {
      distribution.minValue}")
  if distribution.maxValue < value then
    throw (.invalidArgument s!"Returned value {value} is greater than maximum value {
      distribution.maxValue}")
  return value

theorem apply_eq_ok_iff (distribution : BaseDistributionImpl) (item : ByteString)
    (itemMetadata : ItemMetadata) (value : Int64) :
    distribution.apply item itemMetadata = .ok value
      ↔ distribution.applyInternal item itemMetadata = .ok value
        ∧ distribution.minValue ≤ value ∧ value ≤ distribution.maxValue := by
  rw [apply, StatusOr.bind_eq_ok]
  constructor
  · rintro ⟨internal, hinternal, hchecks⟩
    by_cases hmin : internal < distribution.minValue
    · simp [hmin, bind, Except.bind, throw, throwThe, MonadExceptOf.throw] at hchecks
    by_cases hmax : distribution.maxValue < internal
    · simp [hmin, hmax, bind, Except.bind, throw, throwThe, MonadExceptOf.throw] at hchecks
    have hvalue : internal = value := by
      simpa [hmin, hmax, pure, Except.pure] using hchecks
    subst hvalue
    exact ⟨hinternal, Int64.not_lt.mp hmin, Int64.not_lt.mp hmax⟩
  · rintro ⟨hinternal, hmin, hmax⟩
    refine ⟨value, hinternal, ?_⟩
    simp [Int64.not_lt.mpr hmin, Int64.not_lt.mpr hmax, pure, Except.pure]

def toBaseDistribution (distribution : BaseDistributionImpl) : BaseDistribution where
  minValue := distribution.minValue
  maxValue := distribution.maxValue
  apply := distribution.apply
  apply_mem happly := ((apply_eq_ok_iff distribution _ _ _).mp happly).2

end BaseDistributionImpl

def oracleApplyInternal (featureName : String) (_item : ByteString) (itemMetadata : ItemMetadata) :
    StatusOr Int64 :=
  match itemMetadata featureName with
  | some value => .ok value
  | none => .error (.invalidArgument s!"Could not find key {featureName} in item_metadata")

def getOracleDistribution (featureName : String) (minValue maxValue : Int64) : BaseDistribution :=
  BaseDistributionImpl.toBaseDistribution
    { minValue, maxValue, applyInternal := oracleApplyInternal featureName }

theorem oracle_apply_eq_ok_iff (featureName : String) (minValue maxValue value : Int64)
    (item : ByteString) (itemMetadata : ItemMetadata) :
    (getOracleDistribution featureName minValue maxValue).apply item itemMetadata = .ok value
      ↔ itemMetadata featureName = some value ∧ minValue ≤ value ∧ value ≤ maxValue := by
  rw [getOracleDistribution, BaseDistributionImpl.toBaseDistribution,
    BaseDistributionImpl.apply_eq_ok_iff]
  refine and_congr_left fun _ => ?_
  change oracleApplyInternal featureName item itemMetadata = .ok value ↔ _
  cases hfind : itemMetadata featureName <;> simp [oracleApplyInternal, hfind]

end AnySketchCorrectness
