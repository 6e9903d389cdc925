import AnySketchCorrectness.Proof.RegisterWidths
import Mathlib.Algebra.Ring.Int.Defs
import Mathlib.Data.List.Induction

/-!
# The values of UNIQUE columns

The contract of the UNIQUE aggregator is that negatives and values above `2 ^ 32` are replaced with
the destroyed value. Nothing in the code replaces them. The aggregator answers with one of its
arguments or the destroyed value, so a register that meets the contract goes on meeting it; but the
first tuple of a register is copied raw, by `Insert` as it comes from the distributions and by
`Merge` as it stands in the other sketch. The contract holds as long as these copies meet it.
-/

namespace AnySketchCorrectness

open KeyedMerge

/-- A valid value, or the one that stands for all others. -/
def IsUniqueValue (value : Int64) : Prop :=
  value = uniqueAggregatorDestroyedValue ∨ 0 ≤ value.toInt ∧ value.toInt ≤ 2 ^ 32

instance : DecidablePred IsUniqueValue := fun _ => inferInstanceAs (Decidable (_ ∨ _))

theorem isUniqueValue_of_apply {distribution : BaseDistribution}
    (hmin : -1 ≤ distribution.minValue.toInt) (hmax : distribution.maxValue.toInt ≤ 2 ^ 32)
    {item : ByteString} {itemMetadata : ItemMetadata} {value : Int64}
    (happly : distribution.apply item itemMetadata = .ok value) : IsUniqueValue value := by
  have hrange := distribution.apply_mem happly
  rw [Int64.le_iff_toInt_le, Int64.le_iff_toInt_le] at hrange
  by_cases hnegative : value.toInt = -1
  · exact Or.inl (Int64.toInt_inj.mp hnegative)
  · exact Or.inr (by omega)

/-- The contract, for one register. -/
def UniqueColumns (values : List ValueFunction) (registerValues : FixedArray) : Prop :=
  ∀ column ∈ values.zip registerValues,
    column.1.aggregatorType = .unique → IsUniqueValue column.2

instance (values : List ValueFunction) (registerValues : FixedArray) :
    Decidable (UniqueColumns values registerValues) :=
  inferInstanceAs (Decidable (∀ _ ∈ _, _))

/-- Only the left argument counts: the aggregator keeps it or destroys it. -/
theorem UniqueColumns.aggregateValues {values : List ValueFunction} {a : FixedArray}
    (ha : UniqueColumns values a) (b : FixedArray) :
    UniqueColumns values (AnySketch.aggregateValues values a b) := by
  induction values generalizing a b with
  | nil => exact fun column hcolumn => absurd hcolumn List.not_mem_nil
  | cons valueFunction values ih =>
      cases a with
      | nil => exact ha
      | cons registerValue a =>
          cases b with
          | nil => exact fun column hcolumn => absurd hcolumn List.not_mem_nil
          | cons newValue b =>
              obtain ⟨hvalue, ha⟩ := List.forall_mem_cons.mp ha
              refine List.forall_mem_cons.mpr ⟨fun hunique => ?_, ih ha b⟩
              change IsUniqueValue
                ((getAggregator valueFunction.aggregatorType).aggregate registerValue newValue)
              rw [hunique, Aggregator.unique_aggregate]
              by_cases heq : registerValue = newValue
              · rw [if_pos heq]
                exact hvalue hunique
              · rw [if_neg heq]
                exact Or.inl rfl

/-- The configuration never asks for more than the contract allows. -/
def UniqueRanges (values : List ValueFunction) : Prop :=
  ∀ valueFunction ∈ values, valueFunction.aggregatorType = .unique →
    -1 ≤ valueFunction.distribution.minValue.toInt
      ∧ valueFunction.distribution.maxValue.toInt ≤ 2 ^ 32

instance (values : List ValueFunction) : Decidable (UniqueRanges values) :=
  inferInstanceAs (Decidable (∀ _ ∈ _, _))

theorem UniqueRanges.applyValues {values : List ValueFunction} (hranges : UniqueRanges values)
    {insertion : Insertion} {newValues : FixedArray}
    (happly : AnySketch.applyValues insertion values = .ok newValues) :
    UniqueColumns values newValues := by
  induction values generalizing newValues with
  | nil => exact fun column hcolumn => absurd hcolumn List.not_mem_nil
  | cons valueFunction values ih =>
      obtain ⟨hrange, hranges⟩ := List.forall_mem_cons.mp hranges
      obtain ⟨value, rest, hvalue, hrest, rfl⟩ := AnySketch.applyValues_cons_eq_ok.mp happly
      refine List.forall_mem_cons.mpr ⟨fun hunique => ?_, ih hranges hrest⟩
      obtain ⟨hmin, hmax⟩ := hrange hunique
      exact isUniqueValue_of_apply hmin hmax hvalue

namespace AnySketch

/-- The contract, for every register. -/
def MeetsContract (sketch : AnySketch) : Prop :=
  ∀ key registerValues, sketch.registers.lookup key = some registerValues →
    UniqueColumns sketch.values registerValues

/-! ### What is copied -/

/-- If the insertion opens a register, its values meet the contract. -/
def InsertsContract (sketch : AnySketch) (insertion : Insertion) : Prop :=
  ∀ key newValues,
    contribution sketch.indexes sketch.values insertion = some (key, newValues) →
      sketch.registers.lookup key = none → UniqueColumns sketch.values newValues

/-- The registers that the other sketch has and this one lacks meet the contract. A sketch of
another width is not merged. -/
def MergesContract (sketch other : AnySketch) : Prop :=
  other.registerSize = sketch.registerSize → ∀ key newValues,
    other.registers.lookup key = some newValues →
      sketch.registers.lookup key = none → UniqueColumns sketch.values newValues

def Call.CopiesContract (sketch : AnySketch) : Call → Prop
  | .insert insertion => InsertsContract sketch insertion
  | .merge other => MergesContract sketch other
  | .mergeAll others => ∀ before other, before ++ [other] <+: others →
      (sketch.mergeAll before).1 = .ok () → MergesContract (sketch.mergeAll before).2 other

/-- Every call of the run copies only values that meet the contract. -/
def CopiesContract (sketch : AnySketch) : List Call → Prop
  | [] => True
  | call :: calls => call.CopiesContract sketch ∧ CopiesContract (call.perform sketch).2 calls

/-! ### One call -/

theorem merge_of_ne {sketch other : AnySketch} (hother : other.Sized)
    (hwidth : other.registerSize ≠ sketch.registerSize) : (sketch.merge other).2 = sketch := by
  rcases merge_cases sketch hother with ⟨hempty | hequal, -⟩ | ⟨-, failure, herror⟩
  · rw [AnySketch.merge, hempty]
    rfl
  · exact absurd hequal hwidth
  · rw [herror]

section Calls

variable {sketch other : AnySketch} (hsketch : sketch.MeetsContract)
include hsketch

/-- Joining a table to the registers. -/
theorem meetsContract_join_iff {registers : RegisterMap} {table : Table UInt64 FixedArray}
    (htable : registerTable { sketch with registers }
      = join (aggregateValues sketch.values) sketch.registerTable table) :
    MeetsContract { sketch with registers }
      ↔ ∀ key newValues, table key = some newValues → sketch.registers.lookup key = none →
        UniqueColumns sketch.values newValues := by
  change (∀ key registerValues,
    registerTable { sketch with registers } key = some registerValues →
      UniqueColumns sketch.values registerValues) ↔ _
  rw [htable]
  exact forall_join_iff (fun _ b ha => UniqueColumns.aggregateValues ha b) hsketch

theorem meetsContract_insert_iff (insertion : Insertion) :
    (sketch.insert insertion).2.MeetsContract ↔ InsertsContract sketch insertion := by
  obtain ⟨registers, hinsert, htable⟩ := insert_spec sketch insertion
  rw [hinsert, meetsContract_join_iff hsketch htable, InsertsContract]
  refine forall₂_congr fun key newValues => imp_congr_left ?_
  cases contribution sketch.indexes sketch.values insertion with
  | none => simp [empty]
  | some entry =>
      rw [Option.toList_some, tally_cons, tally_nil, join_empty_right, point]
      grind

theorem meetsContract_merge_iff (hother : other.Sized) :
    (sketch.merge other).2.MeetsContract ↔ MergesContract sketch other := by
  by_cases hwidth : other.registerSize = sketch.registerSize
  · have hwellSized : WellSized sketch.values other.registerTable :=
      fun key registerValues hlookup => (hother key registerValues hlookup).trans hwidth
    obtain ⟨registers, hmerge, htable⟩ := merge_spec sketch other hwellSized
    rw [hmerge, meetsContract_join_iff hsketch htable, MergesContract, imp_iff_right hwidth]
    rfl
  · rw [merge_of_ne hother hwidth]
    exact iff_of_true hsketch fun heq => absurd heq hwidth

end Calls

/-! ### Several sketches -/

/-- The last sketch is merged if the ones before it were. -/
theorem mergeAll_concat (sketch : AnySketch) (before : List AnySketch) (other : AnySketch) :
    (sketch.mergeAll (before ++ [other])).2 = if (sketch.mergeAll before).1 = .ok ()
      then ((sketch.mergeAll before).2.merge other).2 else (sketch.mergeAll before).2 := by
  induction before generalizing sketch with
  | nil =>
      rw [List.nil_append, mergeAll, mergeAll, if_pos rfl]
      rcases sketch.merge other with ⟨failure | _, sketch'⟩
      · rfl
      · rfl
  | cons first before ih =>
      rw [List.cons_append]
      rcases hmerge : sketch.merge first with ⟨failure | _, sketch'⟩
      · rw [mergeAll_cons_error _ hmerge, mergeAll_cons_error _ hmerge, if_neg]
        rintro ⟨⟩
      · rw [mergeAll_cons_ok _ hmerge, mergeAll_cons_ok _ hmerge]
        exact ih sketch'

/-- Between the merges too, the contract holds exactly if each merge copies only values that meet
it. -/
theorem meetsContract_mergeAll_iff {sketch : AnySketch} (hsketch : sketch.MeetsContract)
    {others : List AnySketch} (hothers : ∀ other ∈ others, other.Sized) :
    (∀ before, before <+: others → (sketch.mergeAll before).2.MeetsContract)
      ↔ Call.CopiesContract sketch (.mergeAll others) := by
  constructor
  · intro hstates before other hinit hok
    have hother := hothers other (hinit.subset List.mem_concat_self)
    have hmerged := hstates _ hinit
    rw [mergeAll_concat, if_pos hok] at hmerged
    have hbefore := hstates before ((List.prefix_append before [other]).trans hinit)
    exact (meetsContract_merge_iff hbefore hother).mp hmerged
  · intro hcopies before
    induction before using List.reverseRecOn with
    | nil => exact fun _ => hsketch
    | append_singleton before other ih =>
        intro hinit
        have hother := hothers other (hinit.subset List.mem_concat_self)
        have hbefore := ih ((List.prefix_append before [other]).trans hinit)
        rw [mergeAll_concat]
        by_cases hok : (sketch.mergeAll before).1 = .ok ()
        · rw [if_pos hok]
          exact (meetsContract_merge_iff hbefore hother).mpr (hcopies before other hinit hok)
        · rw [if_neg hok]
          exact hbefore

/-! ### Whole runs -/

theorem meetsContract_perform {sketch : AnySketch} (hsketch : sketch.MeetsContract) {call : Call}
    (hothers : ∀ other ∈ call.others, other.Sized) (hcopies : call.CopiesContract sketch) :
    (call.perform sketch).2.MeetsContract := by
  cases call with
  | insert insertion => exact (meetsContract_insert_iff hsketch insertion).mpr hcopies
  | merge other =>
      exact (meetsContract_merge_iff hsketch (hothers other List.mem_cons_self)).mpr hcopies
  | mergeAll others =>
      exact (meetsContract_mergeAll_iff hsketch hothers).mpr hcopies others List.prefix_rfl

theorem copiesContract_of_visits {sketch : AnySketch} (hsketch : sketch.MeetsContract) {call : Call}
    {calls : List Call} (hothers : ∀ other ∈ call.others, other.Sized)
    (hstates : ∀ state, Visits sketch (call :: calls) state → state.MeetsContract) :
    call.CopiesContract sketch := by
  have hafter := hstates _ (.later (.start _ calls))
  cases call with
  | insert insertion => exact (meetsContract_insert_iff hsketch insertion).mp hafter
  | merge other =>
      exact (meetsContract_merge_iff hsketch (hothers other List.mem_cons_self)).mp hafter
  | mergeAll others =>
      exact (meetsContract_mergeAll_iff hsketch hothers).mp
        fun before hinit => hstates _ (.between calls hinit)

/-- By induction on the calls, from any state in which the contract holds. -/
theorem forall_visits_iff {sketch : AnySketch} (hsketch : sketch.MeetsContract) {calls : List Call}
    (hcalls : ∀ call ∈ calls, ∀ other ∈ call.others, other.Sized) :
    (∀ state, Visits sketch calls state → state.MeetsContract) ↔ CopiesContract sketch calls := by
  induction calls generalizing sketch with
  | nil =>
      refine iff_of_true (fun state hvisits => ?_) trivial
      cases hvisits
      exact hsketch
  | cons call calls ih =>
      obtain ⟨hothers, hcalls⟩ := List.forall_mem_cons.mp hcalls
      constructor
      · intro hstates
        have hafter := hstates _ (.later (.start _ calls))
        exact ⟨copiesContract_of_visits hsketch hothers hstates,
          (ih hafter hcalls).mp fun state hvisits => hstates state (.later hvisits)⟩
      · rintro ⟨hcopies, hrest⟩ state hvisits
        cases hvisits with
        | start => exact hsketch
        | between _ hinit =>
            exact (meetsContract_mergeAll_iff hsketch hothers).mpr hcopies _ hinit
        | later hvisits =>
            have hafter := meetsContract_perform hsketch hothers hcopies
            exact (ih hafter hcalls).mpr hrest state hvisits

theorem meetsContract_new (indexes : List BaseDistribution) (values : List ValueFunction) :
    (new indexes values).MeetsContract := by
  intro key registerValues hlookup
  simp [AnySketch.new] at hlookup

/-- **The contract holds in every state of a run exactly if every call copies only values that meet
it**, whatever sketches are merged. -/
theorem uniqueColumns_of_run_iff (indexes : List BaseDistribution) (values : List ValueFunction)
    {calls : List Call} (hcalls : ∀ call ∈ calls, ∀ other ∈ call.others, Reachable other) :
    (∀ state, Visits (new indexes values) calls state → state.MeetsContract)
      ↔ CopiesContract (new indexes values) calls :=
  forall_visits_iff (meetsContract_new indexes values)
    fun call hcall other hother => (hcalls call hcall other hother).sized

/-! ### Where the contract is safe -/

theorem insertsContract_of_ranges {sketch : AnySketch} (hranges : UniqueRanges sketch.values)
    (insertion : Insertion) : InsertsContract sketch insertion := by
  intro key newValues hcontribution _
  exact hranges.applyValues (applyValues_of_contribution hcontribution)

/-- Merging sketches of one configuration brings nothing new. -/
theorem MeetsContract.mergesContract {sketch other : AnySketch} (hother : other.MeetsContract)
    (hvalues : other.values = sketch.values) : MergesContract sketch other :=
  fun _ key newValues hlookup _ => hvalues ▸ hother key newValues hlookup

/-- Sketches of a configuration with such ranges meet the contract, merged or not. -/
theorem Built.meetsContract {indexes : List BaseDistribution} {values : List ValueFunction}
    (hranges : UniqueRanges values) {insertions : List Insertion} {sketch : AnySketch}
    (hbuilt : Built indexes values insertions sketch) : sketch.MeetsContract := by
  intro key registerValues hlookup
  rw [hbuilt.lookup_eq key, contributionTable_apply] at hlookup
  rw [hbuilt.holds.values_eq]
  refine combine_induction (P := UniqueColumns values)
    (fun _ b ha _ => UniqueColumns.aggregateValues ha b) (fun newValues hmem => ?_) hlookup
  obtain ⟨insertion, -, happly⟩ := applyValues_of_mem_contributedTuples hmem
  exact hranges.applyValues happly

/-! ### Two runs -/

theorem uniqueRanges_sampleValues : UniqueRanges sampleValues := by
  decide

/-- Two insertions, the second through another sketch. -/
theorem uniqueColumns_of_run_sample :
    ((sampleSketch (sampleInsertion 3 1)).merge
      (sampleSketch (sampleInsertion 4 2))).2.MeetsContract := by
  have hcalls : ∀ call ∈ [Call.insert (sampleInsertion 3 1),
      .merge (sampleSketch (sampleInsertion 4 2))], ∀ other ∈ call.others, Reachable other :=
    List.forall_mem_cons.mpr ⟨fun other hother => absurd hother List.not_mem_nil,
      List.forall_mem_singleton.mpr
        (List.forall_mem_singleton.mpr (sampleSketch_reachable (sampleInsertion 4 2)))⟩
  have hother : (sampleSketch (sampleInsertion 4 2)).MeetsContract :=
    Built.meetsContract uniqueRanges_sampleValues (.insert (sampleInsertion 4 2) .new)
  exact (uniqueColumns_of_run_iff sampleIndexes sampleValues hcalls).mpr
    ⟨insertsContract_of_ranges uniqueRanges_sampleValues _, hother.mergesContract rfl, trivial⟩ _
    (.later (.later (.start _ [])))

/-- A column that may be negative. -/
def signedValues : List ValueFunction := [⟨"id", .unique, getOracleDistribution "id" (-10) 10⟩]

/-- A negative value that is not replaced. -/
theorem not_meetsContract_negative :
    Visits (new sampleIndexes signedValues) [.insert (sampleInsertion 3 (-5))]
      ((new sampleIndexes signedValues).insert (sampleInsertion 3 (-5))).2 ∧
    ((new sampleIndexes signedValues).insert (sampleInsertion 3 (-5))).2.registers.lookup 3
      = some [-5] ∧
    ¬ ((new sampleIndexes signedValues).insert (sampleInsertion 3 (-5))).2.MeetsContract := by
  refine ⟨.later (.start _ []), rfl, fun hmeets => ?_⟩
  have hregister : UniqueColumns signedValues [-5] := hmeets 3 [-5] rfl
  revert hregister
  decide

end AnySketch

end AnySketchCorrectness
