import AnySketchCorrectness.Proof.Registers
import Mathlib.Algebra.Ring.Int.Defs

/-!
# What a column holds

A register combines tuples, and a tuple is combined column by column, so each column holds the
combination of the values contributed to it: their sum for SUM, and for UNIQUE the value they all
have, or the destroyed value when two of them differ.
-/

namespace AnySketchCorrectness.AnySketch

open KeyedMerge

theorem aggregateValues_getElem? {values : List ValueFunction} {a b : FixedArray} {column : Nat}
    {valueFunction : ValueFunction} {x y : Int64} (hcolumn : values[column]? = some valueFunction)
    (hx : a[column]? = some x) (hy : b[column]? = some y) :
    (aggregateValues values a b)[column]?
      = some ((getAggregator valueFunction.aggregatorType).aggregate x y) := by
  induction values generalizing a b column with
  | nil => simp at hcolumn
  | cons head values ih =>
      cases a with
      | nil => simp at hx
      | cons x' a =>
          cases b with
          | nil => simp at hy
          | cons y' b =>
              rw [aggregateValues]
              cases column with
              | zero =>
                  simp only [List.getElem?_cons_zero, Option.some.injEq] at hcolumn hx hy ⊢
                  rw [hcolumn, hx, hy]
              | succ column =>
                  simp only [List.getElem?_cons_succ] at hcolumn hx hy ⊢
                  exact ih hcolumn hx hy

theorem combine_getElem? {values : List ValueFunction} {tuples : List FixedArray}
    {result : FixedArray} {column : Nat} {valueFunction : ValueFunction}
    (hcolumn : values[column]? = some valueFunction)
    (hlength : ∀ tuple ∈ tuples, tuple.length = values.length)
    (hresult : combine (aggregateValues values) tuples = some result) :
    result[column]? = combine (getAggregator valueFunction.aggregatorType).aggregate
      (tuples.filterMap fun tuple => tuple[column]?) := by
  have hlt : column < values.length := (List.getElem?_eq_some_iff.mp hcolumn).1
  induction tuples generalizing result with
  | nil => simp [combine] at hresult
  | cons tuple tuples ih =>
      have hhead : column < tuple.length := by
        rw [hlength tuple List.mem_cons_self]
        exact hlt
      have hvalue : tuple[column]? = some tuple[column] := List.getElem?_eq_getElem hhead
      have htail : ∀ t ∈ tuples, t.length = values.length := fun t ht =>
        hlength t (List.mem_cons_of_mem _ ht)
      rw [List.filterMap_cons_some (f := fun tuple : FixedArray => tuple[column]?) hvalue, combine]
      cases hrest : combine (aggregateValues values) tuples with
      | none =>
          rw [combine, hrest, Option.merge_none_right] at hresult
          cases hresult
          rw [combine_eq_none.mp hrest]
          simpa only [combine, Option.merge_none_right, List.filterMap_nil] using hvalue
      | some rest =>
          rw [combine, hrest, Option.merge_some_some] at hresult
          cases hresult
          have hcombined := ih htail hrest
          have hrestLength : rest.length = values.length :=
            combine_induction (P := fun t => t.length = values.length)
              (fun a b ha hb => by
                rw [aggregateValues_length, ha, hb, Nat.min_self, Nat.min_self])
              htail hrest
          have hrestValue : rest[column]? = some (rest.get ⟨column, by omega⟩) :=
            List.getElem?_eq_getElem (by omega)
          rw [aggregateValues_getElem? hcolumn hvalue hrestValue, ← hcombined, hrestValue,
            Option.merge_some_some]

/-! ### The two aggregators -/

theorem combine_sum {column : List Int64} (hne : column ≠ []) :
    combine (getAggregator .sum).aggregate column
      = some (Int64.ofInt (column.map Int64.toInt).sum) := by
  induction column with
  | nil => exact absurd rfl hne
  | cons value column ih =>
      cases column with
      | nil => simp [combine]
      | cons next column =>
          calc combine (getAggregator .sum).aggregate (value :: next :: column)
              = some (value + Int64.ofInt ((next :: column).map Int64.toInt).sum) := by
                rw [combine, ih (List.cons_ne_nil _ _), Option.merge_some_some,
                  Aggregator.sum_aggregate]
            _ = some (Int64.ofInt ((value :: next :: column).map Int64.toInt).sum) := by
                rw [List.map_cons (a := value), List.sum_cons (a := value.toInt), Int64.ofInt_add,
                  Int64.ofInt_toInt]

theorem combine_unique_cases {column : List Int64} {result : Int64}
    (hresult : combine (getAggregator .unique).aggregate column = some result) :
    (∀ value ∈ column, value = result) ∨ result = uniqueAggregatorDestroyedValue := by
  induction column generalizing result with
  | nil => simp [combine] at hresult
  | cons value column ih =>
      rw [combine] at hresult
      cases hrest : combine (getAggregator .unique).aggregate column with
      | none =>
          rw [hrest, Option.merge_none_right] at hresult
          left
          intro v hv
          rw [combine_eq_none.mp hrest] at hv
          rw [List.mem_singleton.mp hv]
          exact Option.some.inj hresult
      | some rest =>
          rw [hrest, Option.merge_some_some, Option.some.injEq] at hresult
          by_cases heq : value = rest
          · have hvalue : value = result := by simpa [heq] using hresult
            rcases ih hrest with hall | hdestroyed
            · left
              intro v hv
              rcases List.mem_cons.mp hv with rfl | hv
              · exact hvalue
              · rw [hall v hv, ← heq, hvalue]
            · right
              rw [← hvalue, heq, hdestroyed]
          · right
            simpa [heq] using hresult.symm

theorem combine_unique_of_all_eq {column : List Int64} {value : Int64} (hne : column ≠ [])
    (hall : ∀ v ∈ column, v = value) :
    combine (getAggregator .unique).aggregate column = some value := by
  induction column with
  | nil => exact absurd rfl hne
  | cons head column ih =>
      have hhead : head = value := hall head List.mem_cons_self
      cases column with
      | nil => simp [combine, hhead]
      | cons next column =>
          rw [combine, ih (List.cons_ne_nil _ _) fun v hv => hall v (List.mem_cons_of_mem _ hv),
            Option.merge_some_some, hhead, Aggregator.unique_aggregate_self]

theorem combine_unique_of_ne {column : List Int64} {v w : Int64} (hv : v ∈ column)
    (hw : w ∈ column) (hne : v ≠ w) :
    combine (getAggregator .unique).aggregate column = some uniqueAggregatorDestroyedValue := by
  cases hresult : combine (getAggregator .unique).aggregate column with
  | none =>
      rw [combine_eq_none.mp hresult] at hv
      cases hv
  | some result =>
      rcases combine_unique_cases hresult with hall | hdestroyed
      · exact absurd ((hall v hv).trans (hall w hw).symm) hne
      · rw [hdestroyed]

/-! ### Columns of a run -/

section Runs

variable {indexes : List BaseDistribution} {values : List ValueFunction}

/-- **A column combines the values contributed to it.** -/
theorem Built.column_eq {insertions : List Insertion} {sketch : AnySketch} {key : UInt64}
    {registerValues : FixedArray} {column : Nat} {valueFunction : ValueFunction}
    (hbuilt : Built indexes values insertions sketch)
    (hregister : sketch.registers.lookup key = some registerValues)
    (hcolumn : values[column]? = some valueFunction) :
    registerValues[column]? = combine (getAggregator valueFunction.aggregatorType).aggregate
      (contributedValues indexes values insertions key column) := by
  have htable := hbuilt.lookup_eq key
  rw [hregister, contributionTable_apply] at htable
  exact combine_getElem? hcolumn (fun _ => contributedTuples_length) htable.symm

theorem Built.register_length {insertions : List Insertion} {sketch : AnySketch} {key : UInt64}
    {registerValues : FixedArray} (hbuilt : Built indexes values insertions sketch)
    (hregister : sketch.registers.lookup key = some registerValues) :
    registerValues.length = values.length := by
  rw [hbuilt.lookup_eq key] at hregister
  exact contributionTable_wellSized insertions key registerValues hregister

theorem Built.contributedValues_ne_nil {insertions : List Insertion} {sketch : AnySketch}
    {key : UInt64} {registerValues : FixedArray} {column : Nat} {valueFunction : ValueFunction}
    (hbuilt : Built indexes values insertions sketch)
    (hregister : sketch.registers.lookup key = some registerValues)
    (hcolumn : values[column]? = some valueFunction) :
    contributedValues indexes values insertions key column ≠ [] := by
  intro hnil
  have hlt : column < registerValues.length := by
    rw [hbuilt.register_length hregister]
    exact (List.getElem?_eq_some_iff.mp hcolumn).1
  have hvalue := hbuilt.column_eq hregister hcolumn
  rw [hnil, combine, List.getElem?_eq_getElem hlt] at hvalue
  cases hvalue

/-- **The registers after a sequence of `Insert` calls.** A register exists for the index of every
call that succeeds and for no other, and each of its columns holds the sum modulo `2 ^ 64`, or the
common value, of what those calls computed. -/
theorem insertAll_registers (indexes : List BaseDistribution) (values : List ValueFunction)
    (insertions : List Insertion) :
    (∀ sketch : AnySketch, sketch.indexes = indexes → sketch.values = values →
      ∀ insertion, (sketch.insert insertion).1 = .ok ()
        ↔ (contribution indexes values insertion).isSome) ∧
    (∀ key, (((new indexes values).insertAll insertions).registers.lookup key).isSome
      ↔ ∃ insertion ∈ insertions, (contribution indexes values insertion).isSome
        ∧ getIndex indexes insertion = .ok key.toInt64) ∧
    ∀ key registerValues,
      ((new indexes values).insertAll insertions).registers.lookup key = some registerValues →
      registerValues.length = values.length ∧
      ∀ column valueFunction, values[column]? = some valueFunction →
        (valueFunction.aggregatorType = .sum →
          registerValues[column]? = some (Int64.ofInt
            ((contributedValues indexes values insertions key column).map Int64.toInt).sum)) ∧
        (valueFunction.aggregatorType = .unique →
          (∀ value, (∀ v ∈ contributedValues indexes values insertions key column, v = value) →
            registerValues[column]? = some value) ∧
          ((¬ ∃ value, ∀ v ∈ contributedValues indexes values insertions key column, v = value) →
            registerValues[column]? = some (-1))) := by
  have hbuilt : Built indexes values insertions ((new indexes values).insertAll insertions) :=
    built_insertAll insertions
  refine ⟨?_, ?_, ?_⟩
  · rintro sketch rfl rfl insertion
    exact insert_ok_iff sketch insertion
  · intro key
    rw [hbuilt.register_isSome]
    refine exists_congr fun insertion => and_congr_right fun _ => ?_
    exact contribution_key_iff
  · intro key registerValues hregister
    refine ⟨hbuilt.register_length hregister, fun column valueFunction hcolumn => ?_⟩
    have hvalue := hbuilt.column_eq hregister hcolumn
    have hne := hbuilt.contributedValues_ne_nil hregister hcolumn
    refine ⟨fun hsum => ?_, fun hunique => ⟨fun value hall => ?_, fun hdiffer => ?_⟩⟩
    · rw [hvalue, hsum, combine_sum hne]
    · rw [hvalue, hunique, combine_unique_of_all_eq hne hall]
    · rw [hvalue, hunique]
      cases hresult : combine (getAggregator .unique).aggregate
          (contributedValues indexes values insertions key column) with
      | none => exact absurd (combine_eq_none.mp hresult) hne
      | some result =>
          rcases combine_unique_cases hresult with hall | hdestroyed
          · exact absurd ⟨result, hall⟩ hdiffer
          · rw [hdestroyed, uniqueAggregatorDestroyedValue]

end Runs

end AnySketchCorrectness.AnySketch
