import AnySketchCorrectness.CipherSketch
import AnySketchCorrectness.Proof.Columns

/-!
# The destroyed marker, from the aggregator to the encrypter

The UNIQUE aggregator writes `-1`, the proto encoding shifts every UNIQUE value by one, and the
encrypter looks for values that are at most `0`. These agree on columns whose values are not
negative: a register is destroyed for the encrypter exactly when two different values went into one
of its UNIQUE columns.
-/

namespace AnySketchCorrectness

open KeyedMerge AnySketch

/-! ### What is decided -/

theorem hasDestroyedValue_ok {valueSpecs : List ValueSpec} {registerValues : List Int64}
    {destroyed : Bool} (hresult : hasDestroyedValue valueSpecs registerValues = .ok destroyed) :
    destroyed = true ↔ ∃ entry ∈ valueSpecs.zip registerValues,
      entry.1.aggregator = .unique ∧ entry.2 ≤ 0 := by
  induction valueSpecs, registerValues using hasDestroyedValue.induct with
  | case1 valueSpecs =>
      rw [hasDestroyedValue] at hresult
      cases hresult
      simp
  | case2 => cases hresult
  | case3 valueSpec valueSpecs value values hhead =>
      rw [hasDestroyedValue, if_pos hhead] at hresult
      cases hresult
      exact iff_of_true rfl ⟨_, List.mem_cons_self, hhead⟩
  | case4 valueSpec valueSpecs value values hhead ih =>
      rw [hasDestroyedValue, if_neg hhead] at hresult
      simp only [ih hresult, List.zip_cons_cons, List.mem_cons, or_and_right, exists_or,
        exists_eq_left]
      exact (or_iff_right hhead).symm

theorem exists_hasDestroyedValue {valueSpecs : List ValueSpec} {registerValues : List Int64}
    (hlength : registerValues.length ≤ valueSpecs.length) :
    ∃ destroyed, hasDestroyedValue valueSpecs registerValues = .ok destroyed := by
  induction valueSpecs, registerValues using hasDestroyedValue.induct with
  | case1 valueSpecs => exact ⟨false, by rw [hasDestroyedValue]⟩
  | case2 => cases hlength
  | case3 valueSpec valueSpecs value values hhead => exact ⟨true, if_pos hhead⟩
  | case4 valueSpec valueSpecs value values hhead ih =>
      rw [hasDestroyedValue, if_neg hhead]
      exact ih (Nat.le_of_succ_le_succ hlength)

theorem isRegisterDestroyed_ok {reg : Register} {sketchConfig : SketchConfig} {destroyed : Bool}
    (hresult : isRegisterDestroyed reg sketchConfig = .ok destroyed) :
    destroyed = true ↔ IsDestroyed reg sketchConfig := by
  rw [isDestroyed_iff_zip]
  exact hasDestroyedValue_ok hresult

/-- **What `IsRegisterDestroyed` decides**, on a register as long as the config. -/
theorem isRegisterDestroyed_eq {reg : Register} {sketchConfig : SketchConfig}
    (hlength : reg.values.length = sketchConfig.values.length) :
    isRegisterDestroyed reg sketchConfig = .ok (decide (IsDestroyed reg sketchConfig)) := by
  obtain ⟨destroyed, hresult⟩ := exists_hasDestroyedValue (Nat.le_of_eq hlength)
  have hiff := isRegisterDestroyed_ok hresult
  rw [isRegisterDestroyed, hresult]
  exact congrArg _ (Bool.eq_iff_iff.mpr (hiff.trans decide_eq_true_iff.symm))

/-! ### A register as a proto -/

def AggregatorType.toProto : AggregatorType → ValueSpecAggregator
  | .sum => .sum
  | .unique => .unique

def protoConfig (indexes : List BaseDistribution) (values : List ValueFunction) : SketchConfig where
  indexes := indexes.map fun _ => ⟨""⟩
  values := values.map fun valueFunction =>
    ⟨valueFunction.name, valueFunction.aggregatorType.toProto⟩

def protoRegister (values : List ValueFunction) (key : UInt64) (registerValues : FixedArray) :
    Register where
  index := key.toInt64
  values := List.zipWith (fun valueFunction value =>
    (getAggregator valueFunction.aggregatorType).encodeToProtoValue value) values registerValues

theorem protoRegister_getElem? {values : List ValueFunction} {key : UInt64}
    {registerValues : FixedArray} {column : Nat} {valueFunction : ValueFunction} {value : Int64}
    (hcolumn : values[column]? = some valueFunction)
    (hvalue : registerValues[column]? = some value) :
    (protoRegister values key registerValues).values[column]?
      = some ((getAggregator valueFunction.aggregatorType).encodeToProtoValue value) := by
  simp [protoRegister, List.getElem?_zipWith, hcolumn, hvalue]

/-! ### The values that reach a column -/

theorem applyValues_getElem? {insertion : Insertion} {values : List ValueFunction}
    {newValues : FixedArray} {column : Nat} {valueFunction : ValueFunction} {value : Int64}
    (happly : applyValues insertion values = .ok newValues)
    (hcolumn : values[column]? = some valueFunction) (hvalue : newValues[column]? = some value) :
    valueFunction.distribution.apply insertion.item insertion.itemMetadata = .ok value := by
  induction values generalizing newValues column with
  | nil => simp at hcolumn
  | cons head values ih =>
      obtain ⟨first, rest, hfirst, hrest, rfl⟩ := applyValues_cons_eq_ok.mp happly
      cases column with
      | zero =>
          simp only [List.getElem?_cons_zero, Option.some.injEq] at hcolumn hvalue
          rw [← hcolumn, ← hvalue]
          exact hfirst
      | succ column =>
          simp only [List.getElem?_cons_succ] at hcolumn hvalue
          exact ih hrest hcolumn hvalue

theorem contributedValues_apply {indexes : List BaseDistribution} {values : List ValueFunction}
    {insertions : List Insertion} {key : UInt64} {column : Nat} {valueFunction : ValueFunction}
    {value : Int64} (hcolumn : values[column]? = some valueFunction)
    (hmem : value ∈ contributedValues indexes values insertions key column) :
    ∃ item itemMetadata, valueFunction.distribution.apply item itemMetadata = .ok value := by
  rw [contributedValues, List.mem_filterMap] at hmem
  obtain ⟨newValues, htuple, hvalue⟩ := hmem
  obtain ⟨insertion, -, happly⟩ := AnySketch.applyValues_of_mem_contributedTuples htuple
  exact ⟨insertion.item, insertion.itemMetadata, applyValues_getElem? happly hcolumn hvalue⟩

theorem encode_unique_nonpos_iff {value : Int64}
    (hvalue : value = uniqueAggregatorDestroyedValue ∨ 0 ≤ value.toInt ∧ value.toInt ≤ 2 ^ 63 - 2) :
    (getAggregator .unique).encodeToProtoValue value ≤ 0
      ↔ value = uniqueAggregatorDestroyedValue := by
  change value + 1 ≤ 0 ↔ _
  rcases hvalue with rfl | ⟨hnonneg, hle⟩
  · exact iff_of_true (by decide) rfl
  · refine iff_of_false ?_ ?_
    · rw [Int64.le_iff_toInt_le, Int64.toInt_add,
        Int.bmod_eq_of_le (by simp only [Int64.toInt_one]; omega)
          (by simp only [Int64.toInt_one]; omega), Int64.toInt_one, Int64.toInt_zero]
      omega
    · rintro rfl
      exact absurd hnonneg (by decide)

section Runs

variable {indexes : List BaseDistribution} {values : List ValueFunction}
  {insertions : List Insertion} {sketch : AnySketch} {key : UInt64} {registerValues : FixedArray}

/-- Two different values went into some UNIQUE column of the register. -/
def HasConflict (indexes : List BaseDistribution) (values : List ValueFunction)
    (insertions : List Insertion) (key : UInt64) : Prop :=
  ∃ column valueFunction, values[column]? = some valueFunction
    ∧ valueFunction.aggregatorType = .unique
    ∧ ∃ v ∈ contributedValues indexes values insertions key column,
        ∃ w ∈ contributedValues indexes values insertions key column, v ≠ w

/-- A UNIQUE column is the destroyed value exactly when two of its contributions differ, and
otherwise it is their common value. -/
theorem AnySketch.Built.unique_column {column : Nat} {valueFunction : ValueFunction} {value : Int64}
    (hbuilt : Built indexes values insertions sketch)
    (hregister : sketch.registers.lookup key = some registerValues)
    (hcolumn : values[column]? = some valueFunction)
    (hunique : valueFunction.aggregatorType = .unique)
    (hvalue : registerValues[column]? = some value) :
    (value = uniqueAggregatorDestroyedValue
        ∧ ∃ v ∈ contributedValues indexes values insertions key column,
            ∃ w ∈ contributedValues indexes values insertions key column, v ≠ w)
      ∨ (value ∈ contributedValues indexes values insertions key column
        ∧ ∀ v ∈ contributedValues indexes values insertions key column, v = value) := by
  have hcombine := hbuilt.column_eq hregister hcolumn
  rw [hunique, hvalue] at hcombine
  obtain ⟨first, hfirst⟩ := List.exists_mem_of_ne_nil _
    (hbuilt.contributedValues_ne_nil hregister hcolumn)
  rcases combine_unique_cases hcombine.symm with hall | hdestroyed
  · exact Or.inr ⟨hall first hfirst ▸ hfirst, hall⟩
  · by_cases hagree : ∀ v ∈ contributedValues indexes values insertions key column, v = first
    · -- all contributions agree, so the column holds a value of the distribution, not the marker
      have hcommon := combine_unique_of_all_eq (List.ne_nil_of_mem hfirst) hagree
      rw [hcommon, Option.some.injEq] at hcombine
      exact Or.inr ⟨hcombine ▸ hfirst, fun v hv => (hagree v hv).trans hcombine.symm⟩
    · push Not at hagree
      obtain ⟨v, hv, hne⟩ := hagree
      exact Or.inl ⟨hdestroyed, v, hv, first, hfirst, hne⟩

theorem AnySketch.Built.exists_value {column : Nat} {valueFunction : ValueFunction}
    (hbuilt : Built indexes values insertions sketch)
    (hregister : sketch.registers.lookup key = some registerValues)
    (hcolumn : values[column]? = some valueFunction) :
    ∃ value : Int64, registerValues[column]? = some value := by
  have hlt : column < registerValues.length := by
    rw [hbuilt.register_length hregister]
    exact (List.getElem?_eq_some_iff.mp hcolumn).1
  exact ⟨registerValues.get ⟨column, hlt⟩, List.getElem?_eq_getElem hlt⟩

theorem AnySketch.Built.isDestroyed_iff (hbuilt : Built indexes values insertions sketch)
    (hrange : ∀ valueFunction ∈ values, valueFunction.aggregatorType = .unique →
      ∀ item itemMetadata v, valueFunction.distribution.apply item itemMetadata = .ok v →
        0 ≤ v.toInt ∧ v.toInt ≤ 2 ^ 63 - 2)
    (hregister : sketch.registers.lookup key = some registerValues) :
    IsDestroyed (protoRegister values key registerValues) (protoConfig indexes values)
      ↔ HasConflict indexes values insertions key := by
  constructor
  · rintro ⟨column, valueSpec, protoValue, hspec, hproto, hunique, hnonpos⟩
    simp only [protoConfig, List.getElem?_map, Option.map_eq_some_iff] at hspec
    obtain ⟨valueFunction, hcolumn, rfl⟩ := hspec
    have htype : valueFunction.aggregatorType = .unique := by
      cases htype : valueFunction.aggregatorType with
      | sum => simp [htype, AggregatorType.toProto] at hunique
      | unique => rfl
    obtain ⟨value, hvalue⟩ := hbuilt.exists_value hregister hcolumn
    rw [protoRegister_getElem? hcolumn hvalue, Option.some.injEq, htype] at hproto
    rcases hbuilt.unique_column hregister hcolumn htype hvalue with
      ⟨_, hdiffer⟩ | ⟨hcontributed, _⟩
    · exact ⟨column, valueFunction, hcolumn, htype, hdiffer⟩
    · -- a value of the distribution is encoded to a positive one
      obtain ⟨item, itemMetadata, happly⟩ := contributedValues_apply hcolumn hcontributed
      have hmem : valueFunction ∈ values := List.mem_of_getElem? hcolumn
      have hbounds := hrange valueFunction hmem htype item itemMetadata value happly
      rw [← hproto, encode_unique_nonpos_iff (Or.inr hbounds)] at hnonpos
      rw [hnonpos] at hbounds
      exact absurd hbounds.1 (by decide)
  · rintro ⟨column, valueFunction, hcolumn, htype, v, hv, w, hw, hne⟩
    obtain ⟨value, hvalue⟩ := hbuilt.exists_value hregister hcolumn
    have hmarker : value = uniqueAggregatorDestroyedValue := by
      have hcombine := hbuilt.column_eq hregister hcolumn
      rw [hvalue, htype, combine_unique_of_ne hv hw hne, Option.some.injEq] at hcombine
      exact hcombine
    refine ⟨column, _, _, by simp [protoConfig, hcolumn]; rfl,
      protoRegister_getElem? hcolumn hvalue, by simp [htype, AggregatorType.toProto], ?_⟩
    rw [htype, encode_unique_nonpos_iff (Or.inl hmarker)]
    exact hmarker

theorem AnySketch.Built.isRegisterDestroyed_eq (hbuilt : Built indexes values insertions sketch)
    (hregister : sketch.registers.lookup key = some registerValues) :
    isRegisterDestroyed (protoRegister values key registerValues) (protoConfig indexes values)
      = .ok (decide (IsDestroyed (protoRegister values key registerValues)
          (protoConfig indexes values))) := by
  apply AnySketchCorrectness.isRegisterDestroyed_eq
  simp [protoConfig, protoRegister, hbuilt.register_length hregister]

/-- **The destroyed marker means a conflict.** Whatever the run, `IsRegisterDestroyed` on the proto
register tells whether two different values went into one of its UNIQUE columns, and when none did
every UNIQUE column decodes to the value that went into it. -/
theorem isRegisterDestroyed_iff_conflict (hbuilt : Built indexes values insertions sketch)
    (hrange : ∀ valueFunction ∈ values, valueFunction.aggregatorType = .unique →
      ∀ item itemMetadata v, valueFunction.distribution.apply item itemMetadata = .ok v →
        0 ≤ v.toInt ∧ v.toInt ≤ 2 ^ 63 - 2)
    (hregister : sketch.registers.lookup key = some registerValues) :
    (isRegisterDestroyed (protoRegister values key registerValues) (protoConfig indexes values)
        = .ok true ↔ HasConflict indexes values insertions key) ∧
    (isRegisterDestroyed (protoRegister values key registerValues) (protoConfig indexes values)
        = .ok false ↔ ¬ HasConflict indexes values insertions key) ∧
    (isRegisterDestroyed (protoRegister values key registerValues) (protoConfig indexes values)
        = .ok false →
      ∀ column valueFunction, values[column]? = some valueFunction →
        valueFunction.aggregatorType = .unique →
        contributedValues indexes values insertions key column ≠ [] ∧
        ∀ v ∈ contributedValues indexes values insertions key column,
          ((protoRegister values key registerValues).values[column]?).map
            (getAggregator valueFunction.aggregatorType).decodeFromProtoValue = some v) := by
  have hconflict := hbuilt.isDestroyed_iff hrange hregister
  rw [hbuilt.isRegisterDestroyed_eq hregister, Except.ok.injEq, Except.ok.injEq,
    decide_eq_true_iff, decide_eq_false_iff_not]
  refine ⟨hconflict, hconflict.not, ?_⟩
  · intro hkept column valueFunction hcolumn htype
    refine ⟨hbuilt.contributedValues_ne_nil hregister hcolumn, fun v hv => ?_⟩
    obtain ⟨value, hvalue⟩ := hbuilt.exists_value hregister hcolumn
    rw [protoRegister_getElem? hcolumn hvalue, Option.map_some, Aggregator.decode_encode]
    rcases hbuilt.unique_column hregister hcolumn htype hvalue with ⟨_, hdiffer⟩ | ⟨_, hall⟩
    · exact absurd (hconflict.mpr ⟨column, valueFunction, hcolumn, htype, hdiffer⟩) hkept
    · rw [hall v hv]

end Runs

theorem sampleValues_range : ∀ valueFunction ∈ sampleValues,
    valueFunction.aggregatorType = .unique →
    ∀ item itemMetadata v, valueFunction.distribution.apply item itemMetadata = .ok v →
      0 ≤ v.toInt ∧ v.toInt ≤ 2 ^ 63 - 2 := by
  intro valueFunction hmem _ item itemMetadata v happly
  have hbounds : 0 ≤ v ∧ v ≤ 9 := by
    rw [sampleValues, List.mem_cons, List.mem_singleton] at hmem
    rcases hmem with rfl | rfl
    · exact ((oracle_apply_eq_ok_iff _ _ _ _ _ _).mp happly).2
    · exact ((oracle_apply_eq_ok_iff _ _ _ _ _ _).mp happly).2
  rw [Int64.le_iff_toInt_le, Int64.le_iff_toInt_le] at hbounds
  have hzero : (0 : Int64).toInt = 0 := rfl
  have hnine : (9 : Int64).toInt = 9 := rfl
  omega

/-- Two merged sketches whose shared register saw the values 1 and 2. -/
theorem isRegisterDestroyed_iff_conflict_merged_pair :
    isRegisterDestroyed (protoRegister sampleValues 3 [-1, 2])
      (protoConfig sampleIndexes sampleValues) = .ok true := by
  have hmerged : Built sampleIndexes sampleValues [sampleInsertion 3 1, sampleInsertion 3 2]
      ((sampleSketch (sampleInsertion 3 1)).merge (sampleSketch (sampleInsertion 3 2))).2 :=
    .merge (.insert (sampleInsertion 3 1) .new) (.insert (sampleInsertion 3 2) .new)
  exact (isRegisterDestroyed_iff_conflict hmerged sampleValues_range rfl).1.mpr
    ⟨0, _, rfl, rfl, 1, by decide, 2, by decide, by decide⟩

end AnySketchCorrectness
