import AnySketchCorrectness.SketchRuns

/-!
# The registers as a table

A sketch's registers denote a table, and every operation joins something to it: `Insert` the one
entry it contributes, `Merge` the other sketch's table. Aggregation is commutative and associative
in every column, so the table of a sketch is the tally of the contributions that went into it,
whatever the order of the calls and the tree of the merges.
-/

namespace AnySketchCorrectness.AnySketch

open KeyedMerge

/-! ### Aggregating tuples -/

theorem aggregateValues_comm (values : List ValueFunction) (a b : FixedArray) :
    aggregateValues values a b = aggregateValues values b a := by
  induction values generalizing a b with
  | nil => cases a <;> cases b <;> rfl
  | cons valueFunction values ih =>
      cases a <;> cases b <;> simp [aggregateValues, ih, Aggregator.aggregate_comm]

theorem aggregateValues_assoc (values : List ValueFunction) (a b c : FixedArray) :
    aggregateValues values (aggregateValues values a b) c
      = aggregateValues values a (aggregateValues values b c) := by
  induction values generalizing a b c with
  | nil => rfl
  | cons valueFunction values ih =>
      cases a <;> cases b <;> cases c <;>
        simp [aggregateValues, ih, Aggregator.aggregate_assoc]

instance (values : List ValueFunction) : Std.Commutative (aggregateValues values) :=
  ⟨aggregateValues_comm values⟩

instance (values : List ValueFunction) : Std.Associative (aggregateValues values) :=
  ⟨aggregateValues_assoc values⟩

theorem aggregateValues_length (values : List ValueFunction) (a b : FixedArray) :
    (aggregateValues values a b).length = min values.length (min a.length b.length) := by
  induction values generalizing a b with
  | nil => simp [aggregateValues]
  | cons valueFunction values ih =>
      cases a <;> cases b <;> simp [aggregateValues, ih]

theorem applyValues_length {insertion : Insertion} {values : List ValueFunction}
    {newValues : FixedArray} (happly : applyValues insertion values = .ok newValues) :
    newValues.length = values.length := by
  induction values generalizing newValues with
  | nil =>
      cases happly
      rfl
  | cons valueFunction values ih =>
      obtain ⟨value, rest, -, hrest, rfl⟩ := applyValues_cons_eq_ok.mp happly
      rw [List.length_cons, List.length_cons, ih hrest]

theorem applyValues_of_contribution {indexes : List BaseDistribution} {values : List ValueFunction}
    {insertion : Insertion} {key : UInt64} {newValues : FixedArray}
    (hcontribution : contribution indexes values insertion = some (key, newValues)) :
    applyValues insertion values = .ok newValues := by
  rw [contribution] at hcontribution
  split at hcontribution
  · rename_i index tuple _ happly
    cases hcontribution
    exact happly
  · cases hcontribution

theorem applyValues_of_mem_contributedTuples {indexes : List BaseDistribution}
    {values : List ValueFunction} {insertions : List Insertion} {key : UInt64}
    {newValues : FixedArray} (hmem : newValues ∈ contributedTuples indexes values insertions key) :
    ∃ insertion ∈ insertions, applyValues insertion values = .ok newValues := by
  rw [contributedTuples, List.mem_map] at hmem
  obtain ⟨entry, hentry, rfl⟩ := hmem
  obtain ⟨insertion, hinsertion, hcontribution⟩ :=
    List.mem_filterMap.mp (List.mem_filter.mp hentry).1
  exact ⟨insertion, hinsertion, applyValues_of_contribution hcontribution⟩

theorem contribution_key_iff {indexes : List BaseDistribution} {values : List ValueFunction}
    {insertion : Insertion} {key : UInt64} :
    (∃ newValues, contribution indexes values insertion = some (key, newValues))
      ↔ (contribution indexes values insertion).isSome
        ∧ getIndex indexes insertion = .ok key.toInt64 := by
  rw [contribution]
  split
  · rename_i index newValues hindex happly
    constructor
    · rintro ⟨_, hcontribution⟩
      cases hcontribution
      exact ⟨rfl, by rw [hindex, Int64.toInt64_toUInt64]⟩
    · rintro ⟨_, hkey⟩
      rw [hindex] at hkey
      cases hkey
      exact ⟨newValues, by rw [UInt64.toUInt64_toInt64]⟩
  · simp

/-! ### One step -/

def registerTable (sketch : AnySketch) : Table UInt64 FixedArray :=
  fun key => sketch.registers.lookup key

/-- **Aggregating into a register joins one entry.** The first tuple of a register is copied and the
later ones are aggregated, and both are what the join of a one-entry table does. -/
theorem aggregateIntoRegister_spec (sketch : AnySketch) (index : Int64) {newValues : FixedArray}
    (hlength : newValues.length = sketch.registerSize) :
    ∃ registers, sketch.aggregateIntoRegister index newValues
        = (.ok (), { sketch with registers })
      ∧ registerTable { sketch with registers }
        = join (aggregateValues sketch.values) sketch.registerTable
            (point index.toUInt64 newValues) := by
  cases hlookup : sketch.registers.lookup index.toUInt64 with
  | none =>
      refine ⟨sketch.registers.insert index.toUInt64 newValues, ?_, ?_⟩
      · simp [aggregateIntoRegister, hlength, hlookup]
      · funext key
        by_cases hkey : key = index.toUInt64
        · subst hkey
          simp [registerTable, join, hlookup]
        · simp [registerTable, join, point_of_ne hkey, AList.lookup_insert_ne hkey]
  | some registerValues =>
      refine ⟨sketch.registers.insert index.toUInt64
        (aggregateValues sketch.values registerValues newValues), ?_, ?_⟩
      · simp [aggregateIntoRegister, hlength, hlookup]
      · funext key
        by_cases hkey : key = index.toUInt64
        · subst hkey
          simp [registerTable, join, hlookup]
        · simp [registerTable, join, point_of_ne hkey, AList.lookup_insert_ne hkey]

/-- **Inserting joins what the call contributes.** A failing call contributes nothing. -/
theorem insert_spec (sketch : AnySketch) (insertion : Insertion) :
    ∃ registers, (sketch.insert insertion).2 = { sketch with registers }
      ∧ registerTable { sketch with registers }
        = join (aggregateValues sketch.values) sketch.registerTable
            (tally (aggregateValues sketch.values)
              (contribution sketch.indexes sketch.values insertion).toList) := by
  cases hindex : getIndex sketch.indexes insertion with
  | error failure =>
      exact ⟨sketch.registers, by simp [insert, hindex], by simp [contribution, hindex]⟩
  | ok index =>
      cases happly : applyValues insertion sketch.values with
      | error failure =>
          exact ⟨sketch.registers, by simp [insert, hindex, happly],
            by simp [contribution, hindex, happly]⟩
      | ok newValues =>
          obtain ⟨registers, hstep, htable⟩ :=
            aggregateIntoRegister_spec sketch index (applyValues_length happly)
          refine ⟨registers, by simp [insert, hindex, happly, hstep], ?_⟩
          rw [htable, contribution, hindex, happly]
          simp [tally_cons]

theorem insert_ok_iff (sketch : AnySketch) (insertion : Insertion) :
    (sketch.insert insertion).1 = .ok ()
      ↔ (contribution sketch.indexes sketch.values insertion).isSome := by
  cases hindex : getIndex sketch.indexes insertion with
  | error failure => simp [insert, contribution, hindex]
  | ok index =>
      cases happly : applyValues insertion sketch.values with
      | error failure => simp [insert, contribution, hindex, happly]
      | ok newValues =>
          obtain ⟨registers, hstep, _⟩ :=
            aggregateIntoRegister_spec sketch index (applyValues_length happly)
          simp [insert, contribution, hindex, happly, hstep]

def WellSized (values : List ValueFunction) (table : Table UInt64 FixedArray) : Prop :=
  ∀ key registerValues, table key = some registerValues → registerValues.length = values.length

theorem mergeEntries_spec (sketch : AnySketch) (entries : List (Σ _ : UInt64, FixedArray))
    (hsized : ∀ entry ∈ entries, entry.2.length = sketch.registerSize) :
    ∃ registers, sketch.mergeEntries entries = (.ok (), { sketch with registers })
      ∧ registerTable { sketch with registers }
        = join (aggregateValues sketch.values) sketch.registerTable
            (tally (aggregateValues sketch.values)
              (entries.map fun entry => (entry.1, entry.2))) := by
  induction entries generalizing sketch with
  | nil => exact ⟨sketch.registers, rfl, by simp⟩
  | cons entry entries ih =>
      obtain ⟨key, newValues⟩ := entry
      obtain ⟨registers, hstep, htable⟩ := aggregateIntoRegister_spec sketch key.toInt64
        (hsized ⟨key, newValues⟩ List.mem_cons_self)
      obtain ⟨registers', hrest, htable'⟩ := ih { sketch with registers }
        fun entry hentry => hsized entry (List.mem_cons_of_mem _ hentry)
      refine ⟨registers', ?_, ?_⟩
      · rw [mergeEntries, hstep]
        exact hrest
      · let op := aggregateValues sketch.values
        let rest := tally op (entries.map fun entry => (entry.1, entry.2))
        calc registerTable { sketch with registers := registers' }
            = join op (join op sketch.registerTable (point key.toInt64.toUInt64 newValues))
                rest := by
              rw [htable', htable]
          _ = join op sketch.registerTable (join op (point key newValues) rest) := by
              rw [join_assoc, UInt64.toUInt64_toInt64]
          _ = join op sketch.registerTable (tally op
                ((⟨key, newValues⟩ :: entries : List (Σ _ : UInt64, FixedArray)).map
                  fun entry => (entry.1, entry.2))) := by
              rw [List.map_cons, tally_cons]

/-- **Merging joins the other sketch's table.** -/
theorem merge_spec (sketch other : AnySketch)
    (hsized : WellSized sketch.values other.registerTable) :
    ∃ registers, sketch.merge other = (.ok (), { sketch with registers })
      ∧ registerTable { sketch with registers }
        = join (aggregateValues sketch.values) sketch.registerTable other.registerTable := by
  have hentries : ∀ entry ∈ other.registers.entries, entry.2.length = sketch.registerSize := by
    intro entry hentry
    refine hsized entry.1 entry.2 ?_
    exact List.mem_dlookup other.registers.nodupKeys hentry
  have htally := tally_entries (aggregateValues sketch.values) other.registers.entries
    other.registers.nodupKeys
  obtain ⟨registers, hstep, htable⟩ := mergeEntries_spec sketch other.registers.entries hentries
  refine ⟨registers, hstep, ?_⟩
  rw [htable, htally]
  rfl

/-! ### Whole runs -/

section Runs

variable {indexes : List BaseDistribution} {values : List ValueFunction}

variable (indexes values) in
def contributionTable (insertions : List Insertion) : Table UInt64 FixedArray :=
  tally (aggregateValues values) (insertions.filterMap (contribution indexes values))

theorem contributionTable_append (left right : List Insertion) :
    contributionTable indexes values (left ++ right)
      = join (aggregateValues values) (contributionTable indexes values left)
          (contributionTable indexes values right) := by
  rw [contributionTable, List.filterMap_append, tally_append]
  rfl

theorem contributionTable_perm {left right : List Insertion} (hperm : left.Perm right) :
    contributionTable indexes values left = contributionTable indexes values right :=
  tally_perm _ (hperm.filterMap _)

theorem contributionTable_apply (insertions : List Insertion) (key : UInt64) :
    contributionTable indexes values insertions key
      = combine (aggregateValues values) (contributedTuples indexes values insertions key) :=
  tally_apply _ _ key

theorem contributedTuples_length {insertions : List Insertion} {key : UInt64}
    {newValues : FixedArray} (hmem : newValues ∈ contributedTuples indexes values insertions key) :
    newValues.length = values.length := by
  obtain ⟨insertion, -, happly⟩ := applyValues_of_mem_contributedTuples hmem
  exact applyValues_length happly

theorem contributionTable_wellSized (insertions : List Insertion) :
    WellSized values (contributionTable indexes values insertions) := by
  intro key registerValues hregister
  rw [contributionTable_apply] at hregister
  refine combine_induction (P := fun tuple => tuple.length = values.length) ?_
    (fun _ => contributedTuples_length) hregister
  intro a b ha hb
  rw [aggregateValues_length, ha, hb, Nat.min_self, Nat.min_self]

/-- What a run establishes about its sketch: the configuration and the table of the insertions. -/
structure Holds (indexes : List BaseDistribution) (values : List ValueFunction)
    (insertions : List Insertion) (sketch : AnySketch) : Prop where
  indexes_eq : sketch.indexes = indexes
  values_eq : sketch.values = values
  table_eq : sketch.registerTable = contributionTable indexes values insertions

theorem Holds.insert {insertions : List Insertion} {sketch : AnySketch}
    (hsketch : Holds indexes values insertions sketch) (insertion : Insertion) :
    Holds indexes values (insertions ++ [insertion]) (sketch.insert insertion).2 := by
  obtain ⟨rfl, rfl, htable⟩ := hsketch
  obtain ⟨registers, hstep, hregisters⟩ := insert_spec sketch insertion
  rw [hstep]
  refine ⟨rfl, rfl, ?_⟩
  rw [hregisters, htable, contributionTable_append]
  cases hcontribution : contribution sketch.indexes sketch.values insertion <;>
    simp [contributionTable, hcontribution]

theorem Holds.merge {insertions insertions' : List Insertion} {sketch other : AnySketch}
    (hsketch : Holds indexes values insertions sketch)
    (hother : Holds indexes values insertions' other) :
    (sketch.merge other).1 = .ok ()
      ∧ Holds indexes values (insertions ++ insertions') (sketch.merge other).2 := by
  obtain ⟨rfl, rfl, htable⟩ := hsketch
  obtain ⟨_, _, htable'⟩ := hother
  have hsized : WellSized sketch.values other.registerTable := by
    rw [htable']
    exact contributionTable_wellSized insertions'
  obtain ⟨registers, hstep, hregisters⟩ := merge_spec sketch other hsized
  rw [hstep]
  refine ⟨rfl, rfl, rfl, ?_⟩
  calc registerTable { sketch with registers }
      = join (aggregateValues sketch.values) sketch.registerTable other.registerTable := hregisters
    _ = join (aggregateValues sketch.values)
          (contributionTable sketch.indexes sketch.values insertions)
          (contributionTable sketch.indexes sketch.values insertions') := by rw [htable, htable']
    _ = contributionTable sketch.indexes sketch.values (insertions ++ insertions') :=
        (contributionTable_append insertions insertions').symm

theorem Holds.mergeAll {insertions : List Insertion} {sketch : AnySketch}
    (hsketch : Holds indexes values insertions sketch)
    (others : List (List Insertion × AnySketch))
    (hothers : ∀ other ∈ others, Holds indexes values other.1 other.2) :
    (sketch.mergeAll (others.map Prod.snd)).1 = .ok ()
      ∧ Holds indexes values (insertions ++ others.flatMap Prod.fst)
          (sketch.mergeAll (others.map Prod.snd)).2 := by
  induction others generalizing insertions sketch with
  | nil => exact ⟨rfl, by simpa [AnySketch.mergeAll] using hsketch⟩
  | cons other others ih =>
      obtain ⟨hok, hmerged⟩ := hsketch.merge (hothers other List.mem_cons_self)
      have hrest := ih hmerged fun o ho => hothers o (List.mem_cons_of_mem _ ho)
      have hstep : sketch.mergeAll ((other :: others).map Prod.snd)
          = (sketch.merge other.2).2.mergeAll (others.map Prod.snd) := by
        rw [List.map_cons, AnySketch.mergeAll]
        split
        · rename_i failure sketch' herror
          rw [herror] at hok
          cases hok
        · rename_i sketch' hmerge
          rw [hmerge]
      rw [hstep, List.flatMap_cons, ← List.append_assoc]
      exact hrest

/-- **A run computes the table of its insertions.** By induction on the run: each call adds to the
table what its insertions contribute. -/
theorem Built.holds {insertions : List Insertion} {sketch : AnySketch}
    (hbuilt : Built indexes values insertions sketch) :
    Holds indexes values insertions sketch := by
  induction hbuilt with
  | new => exact ⟨rfl, rfl, rfl⟩
  | insert insertion _ ih => exact ih.insert insertion
  | merge _ _ ih ih' => exact (ih.merge ih').2
  | mergeAll others _ _ ih ihs => exact (ih.mergeAll others ihs).2
  | reorder _ hperm ih =>
      refine ⟨ih.indexes_eq, ih.values_eq, ?_⟩
      rw [← ih.table_eq]
      funext key
      exact AList.perm_lookup hperm

theorem Built.lookup_eq {insertions : List Insertion} {sketch : AnySketch}
    (hbuilt : Built indexes values insertions sketch) (key : UInt64) :
    sketch.registers.lookup key = contributionTable indexes values insertions key :=
  congrFun hbuilt.holds.table_eq key

theorem Built.insertAll {insertions : List Insertion} {sketch : AnySketch}
    (hbuilt : Built indexes values insertions sketch) (more : List Insertion) :
    Built indexes values (insertions ++ more) (sketch.insertAll more) := by
  induction more generalizing insertions sketch with
  | nil => simpa [AnySketch.insertAll] using hbuilt
  | cons insertion more ih => simpa [AnySketch.insertAll] using ih (hbuilt.insert insertion)

theorem built_insertAll (insertions : List Insertion) :
    Built indexes values insertions ((new indexes values).insertAll insertions) := by
  simpa using Built.new.insertAll insertions

theorem Built.register_isSome {insertions : List Insertion} {sketch : AnySketch}
    (hbuilt : Built indexes values insertions sketch) (key : UInt64) :
    (sketch.registers.lookup key).isSome
      ↔ ∃ insertion ∈ insertions, ∃ newValues,
          contribution indexes values insertion = some (key, newValues) := by
  rw [hbuilt.lookup_eq key, contributionTable, tally_isSome]
  constructor
  · rintro ⟨⟨entryKey, newValues⟩, hentry, rfl⟩
    obtain ⟨insertion, hinsertion, hcontribution⟩ := List.mem_filterMap.mp hentry
    exact ⟨insertion, hinsertion, newValues, hcontribution⟩
  · rintro ⟨insertion, hinsertion, newValues, hcontribution⟩
    exact ⟨(key, newValues), List.mem_filterMap.mpr ⟨insertion, hinsertion, hcontribution⟩, rfl⟩

/-- **How the insertions are spread over sketches does not matter.** However they are distributed,
ordered and merged, and in whatever order the hash maps are iterated, the final registers are those
of a single sketch into which all of them are inserted. -/
theorem built_lookup_eq_insertAll {insertions order : List Insertion} {sketch : AnySketch}
    (hbuilt : Built indexes values insertions sketch) (hperm : order.Perm insertions)
    (key : UInt64) :
    sketch.registers.lookup key
      = ((new indexes values).insertAll order).registers.lookup key := by
  have hinserted : Built indexes values order ((new indexes values).insertAll order) :=
    built_insertAll order
  calc sketch.registers.lookup key
      = contributionTable indexes values insertions key := hbuilt.lookup_eq key
    _ = contributionTable indexes values order key := by
        rw [contributionTable_perm hperm]
    _ = ((new indexes values).insertAll order).registers.lookup key :=
        (hinserted.lookup_eq key).symm

end Runs

/-! A small configuration: one index and two columns, all read from the metadata. -/

def sampleIndexes : List BaseDistribution := [getOracleDistribution "bucket" 0 9]

def sampleValues : List ValueFunction :=
  [⟨"id", .unique, getOracleDistribution "id" 0 9⟩,
    ⟨"count", .sum, getOracleDistribution "count" 0 9⟩]

def sampleInsertion (bucket id : Int64) : Insertion where
  item := []
  itemMetadata name := if name = "bucket" then some bucket else if name = "id" then some id
    else some 1

def sampleSketch (insertion : Insertion) : AnySketch :=
  ((new sampleIndexes sampleValues).insert insertion).2

/-- Two sketches that share a register, one merged into the other. -/
theorem built_lookup_eq_insertAll_merged_pair :
    ((sampleSketch (sampleInsertion 3 1)).merge
        (sampleSketch (sampleInsertion 3 2))).2.registers.lookup 3
      = ((new sampleIndexes sampleValues).insertAll
          [sampleInsertion 3 2, sampleInsertion 3 1]).registers.lookup 3 :=
  built_lookup_eq_insertAll (.merge (.insert _ .new) (.insert _ .new)) (List.Perm.swap _ _ _) 3

end AnySketchCorrectness.AnySketch
