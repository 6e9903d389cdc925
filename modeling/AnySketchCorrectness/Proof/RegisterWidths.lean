import AnySketchCorrectness.Proof.Registers

/-!
# How wide the registers are

`Merge` checks the number of values register by register, and could stop halfway. It does not,
because all registers of a sketch have as many values as its configuration has columns. Either all
of the other sketch's registers pass the check or none does.
-/

namespace AnySketchCorrectness.AnySketch

open KeyedMerge

/-! ### Tables of one width -/

section Tables

variable {values : List ValueFunction}

theorem wellSized_point (key : UInt64) {newValues : FixedArray}
    (hlength : newValues.length = values.length) : WellSized values (point key newValues) := by
  intro k registerValues hlookup
  by_cases hkey : k = key
  · subst hkey
    rw [point_self, Option.some.injEq] at hlookup
    rw [← hlookup, hlength]
  · rw [point_of_ne hkey] at hlookup
    cases hlookup

theorem WellSized.join {left right : Table UInt64 FixedArray} (hleft : WellSized values left)
    (hright : WellSized values right) :
    WellSized values (join (aggregateValues values) left right) := by
  intro key registerValues hlookup
  rcases join_cases hlookup with ⟨-, hr⟩ | ⟨hl, -⟩ | ⟨a, b, hl, hr, rfl⟩
  · exact hright key registerValues hr
  · exact hleft key registerValues hl
  · rw [aggregateValues_length, hleft key a hl, hright key b hr, Nat.min_self, Nat.min_self]

end Tables

/-- Every register has as many values as the sketch has columns. -/
def Sized (sketch : AnySketch) : Prop :=
  WellSized sketch.values sketch.registerTable

/-- The other sketch has no register that fails the check of its size. -/
def Compatible (sketch other : AnySketch) : Prop :=
  other.registers.entries = [] ∨ other.registerSize = sketch.registerSize

/-! ### One call -/

section Calls

variable {sketch other : AnySketch}

theorem aggregateIntoRegister_of_ne (index : Int64) {newValues : FixedArray}
    (hlength : newValues.length ≠ sketch.registerSize) :
    ∃ failure, sketch.aggregateIntoRegister index newValues = (.error failure, sketch) :=
  ⟨_, if_pos hlength⟩

theorem aggregateIntoRegister_error {index : Int64} {newValues : FixedArray} {failure : Failure}
    {sketch' : AnySketch}
    (hstep : sketch.aggregateIntoRegister index newValues = (.error failure, sketch')) :
    sketch' = sketch := by
  by_cases hlength : newValues.length = sketch.registerSize
  · obtain ⟨registers, hok, -⟩ := aggregateIntoRegister_spec sketch index hlength
    rw [hok] at hstep
    cases hstep
  · obtain ⟨failure', herror⟩ := aggregateIntoRegister_of_ne index hlength
    rw [herror] at hstep
    cases hstep
    rfl

theorem Sized.aggregateIntoRegister (hsized : sketch.Sized) (index : Int64)
    (newValues : FixedArray) : (sketch.aggregateIntoRegister index newValues).2.Sized := by
  by_cases hlength : newValues.length = sketch.registerSize
  · obtain ⟨registers, hok, htable⟩ := aggregateIntoRegister_spec sketch index hlength
    rw [hok, Sized, htable]
    exact hsized.join (wellSized_point _ hlength)
  · obtain ⟨failure, herror⟩ := aggregateIntoRegister_of_ne index hlength
    rw [herror]
    exact hsized

/-- An insertion fails before it touches the map, or it is one aggregation. -/
theorem insert_cases (sketch : AnySketch) (insertion : Insertion) :
    (∃ failure, sketch.insert insertion = (.error failure, sketch))
      ∨ ∃ index newValues,
          sketch.insert insertion = sketch.aggregateIntoRegister index newValues := by
  rw [AnySketch.insert]
  cases getIndex sketch.indexes insertion with
  | error failure => exact Or.inl ⟨failure, rfl⟩
  | ok index =>
      cases applyValues insertion sketch.values with
      | error failure => exact Or.inl ⟨failure, rfl⟩
      | ok newValues => exact Or.inr ⟨index, newValues, rfl⟩

theorem insert_error {insertion : Insertion} {failure : Failure} {sketch' : AnySketch}
    (hinsert : sketch.insert insertion = (.error failure, sketch')) : sketch' = sketch := by
  rcases insert_cases sketch insertion with ⟨failure', herror⟩ | ⟨index, newValues, hstep⟩
  · rw [herror] at hinsert
    cases hinsert
    rfl
  · rw [hstep] at hinsert
    exact aggregateIntoRegister_error hinsert

theorem Sized.insert (hsized : sketch.Sized) (insertion : Insertion) :
    (sketch.insert insertion).2.Sized := by
  rcases insert_cases sketch insertion with ⟨failure, herror⟩ | ⟨index, newValues, hstep⟩
  · rw [herror]
    exact hsized
  · rw [hstep]
    exact hsized.aggregateIntoRegister index newValues

theorem Sized.entries_length (hsized : other.Sized) {entry : Σ _ : UInt64, FixedArray}
    (hentry : entry ∈ other.registers.entries) : entry.2.length = other.registerSize :=
  hsized entry.1 entry.2 (List.mem_dlookup other.registers.nodupKeys hentry)

/-- **Merging all or nothing.** A compatible sketch is merged completely; of another one, not even
the first register gets in. -/
theorem merge_cases (sketch : AnySketch) (hother : other.Sized) :
    (Compatible sketch other ∧ ∃ registers, sketch.merge other = (.ok (), { sketch with registers })
      ∧ (sketch.Sized → Sized { sketch with registers }))
      ∨ (¬ Compatible sketch other ∧ ∃ failure, sketch.merge other = (.error failure, sketch)) := by
  by_cases hwidth : other.registerSize = sketch.registerSize
  · have hwellSized : WellSized sketch.values other.registerTable := by
      intro key registerValues hlookup
      exact (hother key registerValues hlookup).trans hwidth
    obtain ⟨registers, hok, htable⟩ := merge_spec sketch other hwellSized
    refine Or.inl ⟨Or.inr hwidth, registers, hok, fun hsized => ?_⟩
    rw [Sized, htable]
    exact hsized.join hwellSized
  · cases hentries : other.registers.entries with
    | nil =>
        refine Or.inl ⟨Or.inl hentries, sketch.registers, ?_, id⟩
        rw [AnySketch.merge, hentries]
        rfl
    | cons entry entries =>
        have hne : entry.2.length ≠ sketch.registerSize := by
          rw [hother.entries_length (hentries ▸ List.mem_cons_self)]
          exact hwidth
        refine Or.inr ⟨fun hcompatible => ?_, ?_⟩
        · rcases hcompatible with hempty | hequal
          · rw [hentries] at hempty
            cases hempty
          · exact hwidth hequal
        · obtain ⟨failure, herror⟩ := aggregateIntoRegister_of_ne entry.1.toInt64 hne
          refine ⟨failure, ?_⟩
          rw [AnySketch.merge, hentries, mergeEntries, herror]

theorem merge_error (hother : other.Sized) {failure : Failure} {sketch' : AnySketch}
    (hmerge : sketch.merge other = (.error failure, sketch')) : sketch' = sketch := by
  rcases merge_cases sketch hother with ⟨-, registers, hok, -⟩ | ⟨-, failure', herror⟩
  · rw [hok] at hmerge
    cases hmerge
  · rw [herror] at hmerge
    cases hmerge
    rfl

theorem Sized.merge (hsized : sketch.Sized) (hother : other.Sized) :
    (sketch.merge other).2.Sized := by
  rcases merge_cases sketch hother with ⟨-, registers, hok, hmerged⟩ | ⟨-, failure, herror⟩
  · rw [hok]
    exact hmerged hsized
  · rw [herror]
    exact hsized

end Calls

/-! ### Several sketches -/

theorem mergeAll_cons_ok {sketch sketch' other : AnySketch} (others : List AnySketch)
    (hmerge : sketch.merge other = (.ok (), sketch')) :
    sketch.mergeAll (other :: others) = sketch'.mergeAll others := by
  rw [mergeAll, hmerge]

theorem mergeAll_cons_error {sketch sketch' other : AnySketch} (others : List AnySketch)
    {failure : Failure} (hmerge : sketch.merge other = (.error failure, sketch')) :
    sketch.mergeAll (other :: others) = (.error failure, sketch') := by
  rw [mergeAll, hmerge]

theorem Sized.mergeAll {sketch : AnySketch} (hsized : sketch.Sized) {others : List AnySketch}
    (hothers : ∀ other ∈ others, other.Sized) : (sketch.mergeAll others).2.Sized := by
  induction others generalizing sketch with
  | nil => exact hsized
  | cons other others ih =>
      obtain ⟨hother, hothers⟩ := List.forall_mem_cons.mp hothers
      rcases merge_cases sketch hother with ⟨-, registers, hok, hmerged⟩ | ⟨-, failure, herror⟩
      · rw [mergeAll_cons_ok others hok]
        exact ih (hmerged hsized) hothers
      · rw [mergeAll_cons_error others herror]
        exact hsized

/-! ### Whole runs -/

/-- By induction on the run: every call, successful or not, keeps the registers at the width of its
sketch's configuration. -/
theorem Reachable.sized {sketch : AnySketch} (hreachable : Reachable sketch) : sketch.Sized := by
  induction hreachable with
  | new indexes values =>
      intro key registerValues hlookup
      simp [registerTable, AnySketch.new] at hlookup
  | aggregateIntoRegister index newValues _ ih => exact ih.aggregateIntoRegister index newValues
  | insert insertion _ ih => exact ih.insert insertion
  | merge _ _ ih ih' => exact ih.merge ih'
  | mergeAll others _ _ ih ihs => exact ih.mergeAll ihs
  | reorder _ hperm ih =>
      intro key registerValues hlookup
      rw [registerTable, AList.perm_lookup hperm] at hlookup
      exact ih key registerValues hlookup

/-- **The registers are as wide as their sketch, and a failing call leaves them alone**, whatever
calls went before, failed ones and ones between sketches of other configurations included. -/
theorem reachable_registers {sketch : AnySketch} (hreachable : Reachable sketch) :
    (∀ key registerValues, sketch.registers.lookup key = some registerValues →
      registerValues.length = sketch.values.length) ∧
    (∀ index newValues failure sketch',
      sketch.aggregateIntoRegister index newValues = (.error failure, sketch') →
        sketch'.registers = sketch.registers) ∧
    (∀ insertion failure sketch', sketch.insert insertion = (.error failure, sketch') →
      sketch'.registers = sketch.registers) ∧
    (∀ other failure sketch', Reachable other → sketch.merge other = (.error failure, sketch') →
      sketch'.registers = sketch.registers) := by
  refine ⟨hreachable.sized, ?_, ?_, ?_⟩
  · intro index newValues failure sketch' hstep
    rw [aggregateIntoRegister_error hstep]
  · intro insertion failure sketch' hinsert
    rw [insert_error hinsert]
  · intro other failure sketch' hother hmerge
    rw [merge_error hother.sized hmerge]

/-- A sketch with a single column. -/
def sampleNarrowSketch : AnySketch :=
  ((new sampleIndexes [⟨"count", .sum, getOracleDistribution "count" 0 9⟩]).aggregateIntoRegister
    7 [1]).2

theorem sampleNarrowSketch_reachable : Reachable sampleNarrowSketch :=
  .aggregateIntoRegister 7 [1] (.new _ _)

theorem sampleSketch_reachable (insertion : Insertion) : Reachable (sampleSketch insertion) :=
  .insert insertion (.new _ _)

/-- Merging a sketch with one column into a sketch with two. -/
theorem reachable_registers_narrow :
    ((sampleSketch (sampleInsertion 3 1)).merge sampleNarrowSketch).2.registers
      = (sampleSketch (sampleInsertion 3 1)).registers := by
  obtain ⟨-, -, -, hmerge⟩ := reachable_registers (sampleSketch_reachable (sampleInsertion 3 1))
  exact hmerge sampleNarrowSketch
    (.invalidArgument "Input has wrong dimension. Expected 2 but got 1") _
    sampleNarrowSketch_reachable rfl

/-! ### Where `MergeAll` stops -/

/-- **`MergeAll` stops at the first sketch that is not compatible.** The sketches before it are
merged completely, it and those after it add nothing. -/
theorem mergeAll_error {sketch : AnySketch} {others : List AnySketch}
    (hothers : ∀ other ∈ others, Reachable other) {failure : Failure} {sketch' : AnySketch}
    (hmergeAll : sketch.mergeAll others = (.error failure, sketch')) :
    ∃ before stop after, others = before ++ stop :: after ∧
      (∀ other ∈ before, Compatible sketch other) ∧ ¬ Compatible sketch stop ∧
      sketch.mergeAll before = (.ok (), sketch') ∧
      ((∀ other ∈ before, other.registers.entries = []) →
        sketch'.registers = sketch.registers) := by
  induction others generalizing sketch with
  | nil => cases hmergeAll
  | cons other others ih =>
      obtain ⟨hother, hothers⟩ := List.forall_mem_cons.mp hothers
      rcases merge_cases sketch hother.sized with
        ⟨hcompatible, registers, hok, -⟩ | ⟨hincompatible, failure', herror⟩
      · rw [mergeAll_cons_ok others hok] at hmergeAll
        obtain ⟨before, stop, after, rfl, hbefore, hstop, hrun, hunchanged⟩ :=
          ih hothers hmergeAll
        refine ⟨other :: before, stop, after, rfl,
          List.forall_mem_cons.mpr ⟨hcompatible, hbefore⟩, hstop, ?_, ?_⟩
        · rw [mergeAll_cons_ok before hok]
          exact hrun
        · intro hempty
          obtain ⟨hotherEmpty, hbeforeEmpty⟩ := List.forall_mem_cons.mp hempty
          have hsame : registers = sketch.registers := by
            rw [AnySketch.merge, hotherEmpty, mergeEntries] at hok
            exact (congrArg (fun result => result.2.registers) hok).symm
          rw [hunchanged hbeforeEmpty, hsame]
      · rw [mergeAll_cons_error others herror] at hmergeAll
        cases hmergeAll
        refine ⟨[], other, others, rfl, fun _ hmem => absurd hmem List.not_mem_nil, hincompatible,
          rfl, fun _ => rfl⟩

theorem mergeAll_error_narrow : ∃ before stop after,
    [sampleSketch (sampleInsertion 3 1), sampleNarrowSketch] = before ++ stop :: after ∧
      ¬ Compatible (new sampleIndexes sampleValues) stop ∧
      (new sampleIndexes sampleValues).mergeAll before
        = (.ok (), ((new sampleIndexes sampleValues).mergeAll
            [sampleSketch (sampleInsertion 3 1), sampleNarrowSketch]).2) := by
  have hothers : ∀ other ∈ [sampleSketch (sampleInsertion 3 1), sampleNarrowSketch],
      Reachable other :=
    List.forall_mem_cons.mpr ⟨sampleSketch_reachable _,
      List.forall_mem_singleton.mpr sampleNarrowSketch_reachable⟩
  have hmergeAll : (new sampleIndexes sampleValues).mergeAll
      [sampleSketch (sampleInsertion 3 1), sampleNarrowSketch]
        = (.error (.invalidArgument "Input has wrong dimension. Expected 2 but got 1"), _) := rfl
  obtain ⟨before, stop, after, hsplit, -, hstop, hrun, -⟩ := mergeAll_error hothers hmergeAll
  exact ⟨before, stop, after, hsplit, hstop, hrun⟩

/-- A sketch with two columns and then one with a single column are merged into an empty sketch with
two columns. The call fails, and the first sketch's register stays. -/
theorem mergeAll_leaves_registers :
    Reachable (new sampleIndexes sampleValues) ∧
    Reachable (sampleSketch (sampleInsertion 3 1)) ∧ Reachable sampleNarrowSketch ∧
    ((new sampleIndexes sampleValues).mergeAll
      [sampleSketch (sampleInsertion 3 1), sampleNarrowSketch]).1
        = .error (.invalidArgument "Input has wrong dimension. Expected 2 but got 1") ∧
    ((new sampleIndexes sampleValues).mergeAll
      [sampleSketch (sampleInsertion 3 1), sampleNarrowSketch]).2.registers
        ≠ (new sampleIndexes sampleValues).registers := by
  refine ⟨.new _ _, sampleSketch_reachable _, sampleNarrowSketch_reachable, rfl,
    fun hregisters => ?_⟩
  have hlookup := congrArg (AList.lookup 3) hregisters
  revert hlookup
  decide

end AnySketchCorrectness.AnySketch
