import AnySketchCorrectness.Proof.Registers

/-!
# Merging as set union

`Merge` promises the sketch of the union of the sets, and a set has no repetitions. Where the two
sets overlap, an item goes into the result twice. That does not show when all columns are aggregated
with UNIQUE: aggregating a tuple with itself changes nothing, not even if the register it meets is
destroyed. So the registers depend only on which pairs were inserted, not on how often.
-/

namespace AnySketchCorrectness.AnySketch

open KeyedMerge

section Unique

variable {indexes : List BaseDistribution} {values : List ValueFunction}
  (hunique : ∀ valueFunction ∈ values, valueFunction.aggregatorType = .unique)
include hunique

theorem aggregateValues_self {tuple : FixedArray} (hlength : tuple.length = values.length) :
    aggregateValues values tuple tuple = tuple := by
  induction values generalizing tuple with
  | nil =>
      rw [List.length_nil, List.length_eq_zero_iff] at hlength
      rw [hlength, aggregateValues]
      exact fun _ _ _ _ _ _ hcons => by cases hcons
  | cons valueFunction values ih =>
      cases tuple with
      | nil => cases hlength
      | cons value tuple =>
          obtain ⟨hhead, htail⟩ := List.forall_mem_cons.mp hunique
          rw [aggregateValues, hhead, Aggregator.unique_aggregate_self,
            ih htail (Nat.succ.inj hlength)]

/-- The table of some insertions depends only on which they are. -/
theorem contributionTable_eq_of_mem_iff {left right : List Insertion}
    (hmem : ∀ insertion, insertion ∈ left ↔ insertion ∈ right) :
    contributionTable indexes values left = contributionTable indexes values right := by
  refine tally_eq_of_mem_iff _ ?_ ?_
  · intro entry hentry
    obtain ⟨insertion, -, hcontribution⟩ := List.mem_filterMap.mp hentry
    exact aggregateValues_self hunique (applyValues_length
      (applyValues_of_contribution hcontribution))
  · intro entry
    rw [List.mem_filterMap, List.mem_filterMap]
    simp only [hmem]

theorem Built.registerTable_eq {left right : List Insertion} {sketch other : AnySketch}
    (hsketch : Built indexes values left sketch) (hother : Built indexes values right other)
    (hmem : ∀ insertion, insertion ∈ left ↔ insertion ∈ right) :
    sketch.registerTable = other.registerTable := by
  rw [hsketch.holds.table_eq, hother.holds.table_eq]
  exact contributionTable_eq_of_mem_iff hunique hmem

/-- **With UNIQUE columns, `Merge` is set union**, also where the sets overlap. Merging a sketch of
`B` into one of `A` gives the registers of inserting each pair of the union once. So inserting a
pair again, or merging a sketch again, changes nothing. -/
theorem merge_registerTable_eq_union {A B union : List Insertion} {sketch other : AnySketch}
    (hsketch : Built indexes values A sketch) (hother : Built indexes values B other)
    (hunion : ∀ insertion, insertion ∈ union ↔ insertion ∈ A ∨ insertion ∈ B) :
    (sketch.merge other).1 = .ok () ∧
    (sketch.merge other).2.registerTable
      = ((new indexes values).insertAll union).registerTable ∧
    (∀ insertion ∈ A, (sketch.insert insertion).2.registerTable = sketch.registerTable) ∧
    ((sketch.merge other).2.merge other).2.registerTable
      = (sketch.merge other).2.registerTable := by
  refine ⟨(hsketch.holds.merge hother.holds).1, ?_, ?_, ?_⟩
  · refine (hsketch.merge hother).registerTable_eq hunique (built_insertAll union) ?_
    intro insertion
    rw [List.mem_append, hunion]
  · intro insertion hinsertion
    refine (hsketch.insert insertion).registerTable_eq hunique hsketch ?_
    intro insertion'
    rw [List.mem_append, List.mem_singleton, or_iff_left_iff_imp]
    rintro rfl
    exact hinsertion
  · refine ((hsketch.merge hother).merge hother).registerTable_eq hunique
      (hsketch.merge hother) ?_
    intro insertion
    rw [List.mem_append, List.mem_append, or_assoc, or_self]

end Unique

def sampleUniqueValues : List ValueFunction := [⟨"id", .unique, getOracleDistribution "id" 0 9⟩]

/-- Two sketches that share a pair, in whose register two identifiers meet. -/
theorem merge_registerTable_eq_union_overlap :
    (((new sampleIndexes sampleUniqueValues).insertAll
        [sampleInsertion 3 1, sampleInsertion 3 2]).merge
      ((new sampleIndexes sampleUniqueValues).insertAll
        [sampleInsertion 3 2, sampleInsertion 4 5])).2.registerTable
      = ((new sampleIndexes sampleUniqueValues).insertAll
          [sampleInsertion 3 1, sampleInsertion 3 2, sampleInsertion 4 5]).registerTable := by
  have hunique : ∀ valueFunction ∈ sampleUniqueValues, valueFunction.aggregatorType = .unique :=
    List.forall_mem_singleton.mpr rfl
  refine (merge_registerTable_eq_union hunique (built_insertAll _) (built_insertAll _)
    fun insertion => ?_).2.1
  simp only [List.mem_cons]
  tauto

end AnySketchCorrectness.AnySketch
