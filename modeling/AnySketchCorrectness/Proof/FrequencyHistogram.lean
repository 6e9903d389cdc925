import AnySketchCorrectness.FrequencyHistogram
import AnySketchCorrectness.ExponentialDistribution
import AnySketchCorrectness.Library.SolitaryDraws

/-!
# What the surviving registers show

A register survives exactly if one item fell into it alone, and then its SUM columns hold what was
counted for that item. Every item has the same chance of that, whatever is counted for it, so the
histogram of the surviving registers is on average that of the items, scaled down by one factor.
-/

namespace AnySketchCorrectness.AnySketch

open KeyedMerge Occupancy

variable {indexes : List BaseDistribution} {values : List ValueFunction}
  {insertions order : List Insertion} {sketch : AnySketch} {key : UInt64} {column : ℕ}

/-! ### Contributions by item -/

theorem contribution_eq {insertion : Insertion} {newValues : FixedArray}
    (happly : applyValues insertion values = .ok newValues) :
    contribution indexes values insertion
      = (registerKey (getIndex indexes insertion)).map fun key => (key, newValues) := by
  unfold contribution registerKey
  rw [happly]
  cases getIndex indexes insertion with
  | error failure => rfl
  | ok index => rfl

theorem mem_contributedValues {value : Int64} :
    value ∈ contributedValues indexes values insertions key column
      ↔ ∃ insertion ∈ insertions, ∃ newValues : FixedArray,
          contribution indexes values insertion = some (key, newValues)
            ∧ newValues[column]? = some value := by
  simp only [contributedValues, contributedTuples, List.mem_filterMap, List.mem_map,
    List.mem_filter, decide_eq_true_eq]
  constructor
  · rintro ⟨_, ⟨⟨key', newValues⟩, ⟨⟨insertion, hinsertion, hcontribution⟩, rfl⟩, rfl⟩, hvalue⟩
    exact ⟨insertion, hinsertion, newValues, hcontribution, hvalue⟩
  · rintro ⟨insertion, hinsertion, newValues, hcontribution, hvalue⟩
    exact ⟨newValues, ⟨(key, newValues), ⟨⟨insertion, hinsertion, hcontribution⟩, rfl⟩, rfl⟩,
      hvalue⟩

/-- What comes to a register that exactly the insertions of one item go to. -/
theorem contributedValues_eq_itemValues {item : ByteString}
    (hsucceeds : ∀ insertion ∈ insertions, ∃ newValues,
      applyValues insertion values = .ok newValues)
    (hkey : ∀ insertion ∈ insertions,
      registerKey (getIndex indexes insertion) = some key ↔ insertion.item = item) :
    contributedValues indexes values insertions key column
      = itemValues values insertions column item := by
  unfold contributedValues contributedTuples itemValues
  rw [List.filterMap_map, List.filterMap_filter, List.filterMap_filterMap, List.filterMap_filter]
  apply List.filterMap_congr
  intro insertion hinsertion
  obtain ⟨newValues, happly⟩ := hsucceeds insertion hinsertion
  have hiff := hkey insertion hinsertion
  rw [contribution_eq happly, happly]
  cases hindex : registerKey (getIndex indexes insertion) with
  | none =>
      have hitem : insertion.item ≠ item := fun hitem => by simp [hindex, hitem] at hiff
      simp [hitem]
  | some key' =>
      rw [hindex, Option.some.injEq] at hiff
      by_cases hitem : insertion.item = item
      · rw [hiff.mpr hitem]
        simp [hitem, Except.toOption]
      · simp [hitem, mt hiff.mp hitem]

/-! ### Registers and items -/

section Items

variable {n : ℕ} {items : Fin n → ByteString} {cell : Fin n → Option UInt64}
  (hidentified : Identified values insertions)
  (hitems : ∀ item, (∃ insertion ∈ insertions, insertion.item = item) ↔ ∃ k, items k = item)
  (hcell : ∀ insertion ∈ insertions, ∀ k, insertion.item = items k →
    registerKey (getIndex indexes insertion) = cell k)
include hidentified hitems hcell

theorem exists_contribution_iff (k : Fin n) :
    (∃ insertion ∈ insertions, insertion.item = items k ∧
        ∃ newValues, contribution indexes values insertion = some (key, newValues))
      ↔ cell k = some key := by
  constructor
  · rintro ⟨insertion, hinsertion, hitem, newValues, hcontribution⟩
    obtain ⟨newValues', happly⟩ := hidentified.succeeds insertion hinsertion
    rw [contribution_eq happly, hcell insertion hinsertion k hitem, Option.map_eq_some_iff]
      at hcontribution
    obtain ⟨key', hkey, hentry⟩ := hcontribution
    rw [hkey, (Prod.mk.inj hentry).1]
  · intro hkey
    obtain ⟨insertion, hinsertion, hitem⟩ := (hitems (items k)).mpr ⟨k, rfl⟩
    obtain ⟨newValues, happly⟩ := hidentified.succeeds insertion hinsertion
    refine ⟨insertion, hinsertion, hitem, newValues, ?_⟩
    rw [contribution_eq happly, hcell insertion hinsertion k hitem, hkey]
    rfl

/-- Whoever contributes to the register of a solitary item has that item. -/
theorem item_eq_of_isSolitary {k : Fin n} (hsolitary : IsSolitary id cell k key)
    {insertion : Insertion} (hinsertion : insertion ∈ insertions) {newValues : FixedArray}
    (hcontribution : contribution indexes values insertion = some (key, newValues)) :
    insertion.item = items k := by
  obtain ⟨k', hk'⟩ := (hitems insertion.item).mp ⟨insertion, hinsertion, rfl⟩
  have hkey := (exists_contribution_iff hidentified hitems hcell k').mp
    ⟨insertion, hinsertion, hk'.symm, newValues, hcontribution⟩
  by_contra hne
  refine hsolitary.2 k' ?_ hkey
  rintro rfl
  exact hne hk'.symm

/-- **A register is without conflict exactly if one item is alone in it.** -/
theorem not_hasConflict_iff (hinjective : Function.Injective items)
    (hexists : ∃ k, cell k = some key) :
    ¬ HasConflict indexes values insertions key ↔ ∃ k, IsSolitary id cell k key := by
  constructor
  · intro hagree
    obtain ⟨k, hk⟩ := hexists
    refine ⟨k, hk, fun k' hne hk' => hagree ?_⟩
    obtain ⟨a, ha, haItem, s, hs⟩ :=
      (exists_contribution_iff hidentified hitems hcell k).mpr hk
    obtain ⟨b, hb, hbItem, t, ht⟩ :=
      (exists_contribution_iff hidentified hitems hcell k').mpr hk'
    have hsApply := applyValues_of_contribution hs
    have htApply := applyValues_of_contribution ht
    have hitem : a.item ≠ b.item := by
      rw [haItem, hbItem]
      exact fun heq => hne (hinjective heq).symm
    have hdiffer := mt (hidentified.unique_eq_iff a ha b hb s t hsApply htApply).mp hitem
    push Not at hdiffer
    obtain ⟨column, valueFunction, hcolumn, htype, hvalues⟩ := hdiffer
    have hlt : column < values.length := (List.getElem?_eq_some_iff.mp hcolumn).1
    have hsLength := applyValues_length hsApply
    have htLength := applyValues_length htApply
    have hv : s[column]? = some (s.get ⟨column, by omega⟩) := List.getElem?_eq_getElem (by omega)
    have hw : t[column]? = some (t.get ⟨column, by omega⟩) := List.getElem?_eq_getElem (by omega)
    refine ⟨column, valueFunction, hcolumn, htype, _, mem_contributedValues.mpr ⟨a, ha, s, hs, hv⟩,
      _, mem_contributedValues.mpr ⟨b, hb, t, ht, hw⟩, fun heq => hvalues ?_⟩
    rw [hv, hw, heq]
  · rintro ⟨k, hsolitary⟩ ⟨column, valueFunction, hcolumn, htype, v, hv, w, hw, hne⟩
    obtain ⟨a, ha, s, hs, hv⟩ := mem_contributedValues.mp hv
    obtain ⟨b, hb, t, ht, hw⟩ := mem_contributedValues.mp hw
    have haItem := item_eq_of_isSolitary hidentified hitems hcell hsolitary ha hs
    have hbItem := item_eq_of_isSolitary hidentified hitems hcell hsolitary hb ht
    have hsame := (hidentified.unique_eq_iff a ha b hb s t (applyValues_of_contribution hs)
      (applyValues_of_contribution ht)).mpr (haItem.trans hbItem.symm)
    have hvalue := hsame column valueFunction hcolumn htype
    rw [hv, hw, Option.some.injEq] at hvalue
    exact hne hvalue

theorem isSome_lookup_iff (hbuilt : Built indexes values insertions sketch) :
    (sketch.registers.lookup key).isSome ↔ ∃ k, cell k = some key := by
  rw [hbuilt.register_isSome]
  constructor
  · rintro ⟨insertion, hinsertion, newValues, hcontribution⟩
    obtain ⟨k, hk⟩ := (hitems insertion.item).mp ⟨insertion, hinsertion, rfl⟩
    exact ⟨k, (exists_contribution_iff hidentified hitems hcell k).mp
      ⟨insertion, hinsertion, hk.symm, newValues, hcontribution⟩⟩
  · rintro ⟨k, hk⟩
    obtain ⟨insertion, hinsertion, -, newValues, hcontribution⟩ :=
      (exists_contribution_iff hidentified hitems hcell k).mpr hk
    exact ⟨insertion, hinsertion, newValues, hcontribution⟩

theorem isRegisterDestroyed_eq_false_iff (hinjective : Function.Injective items)
    (hrange : ∀ valueFunction ∈ values, valueFunction.aggregatorType = .unique →
      ∀ item itemMetadata v, valueFunction.distribution.apply item itemMetadata = .ok v →
        0 ≤ v.toInt ∧ v.toInt ≤ 2 ^ 63 - 2)
    (hbuilt : Built indexes values insertions sketch) {registerValues : FixedArray}
    (hregister : sketch.registers.lookup key = some registerValues) :
    isRegisterDestroyed (protoRegister values key registerValues) (protoConfig indexes values)
        = .ok false ↔ ∃ k, IsSolitary id cell k key := by
  have hexists : ∃ k, cell k = some key := by
    rw [← isSome_lookup_iff hidentified hitems hcell hbuilt, hregister]
    rfl
  rw [hbuilt.isRegisterDestroyed_eq hregister, Except.ok.injEq, decide_eq_false_iff_not,
    hbuilt.isDestroyed_iff hrange hregister,
    not_hasConflict_iff hidentified hitems hcell hinjective hexists]

/-- The register of a solitary item counts for that item. -/
theorem column_of_isSolitary (hbuilt : Built indexes values insertions sketch)
    {registerValues : FixedArray} (hregister : sketch.registers.lookup key = some registerValues)
    {valueFunction : ValueFunction} (hcolumn : values[column]? = some valueFunction)
    (hsum : valueFunction.aggregatorType = .sum) {k : Fin n}
    (hsolitary : IsSolitary id cell k key) :
    registerValues[column]? = some (itemTotal values insertions column (items k)) := by
  have hkey : ∀ insertion ∈ insertions,
      registerKey (getIndex indexes insertion) = some key ↔ insertion.item = items k := by
    intro insertion hinsertion
    constructor
    · intro hindex
      obtain ⟨newValues, happly⟩ := hidentified.succeeds insertion hinsertion
      have hcontribution : contribution indexes values insertion = some (key, newValues) := by
        rw [contribution_eq happly, hindex]
        rfl
      exact item_eq_of_isSolitary hidentified hitems hcell hsolitary hinsertion hcontribution
    · intro hitem
      rw [hcell insertion hinsertion k hitem]
      exact hsolitary.1
  rw [hbuilt.column_eq hregister hcolumn, hsum,
    combine_sum (hbuilt.contributedValues_ne_nil hregister hcolumn),
    contributedValues_eq_itemValues hidentified.succeeds hkey, itemTotal]

variable (hinjective : Function.Injective items)
  (hrange : ∀ valueFunction ∈ values, valueFunction.aggregatorType = .unique →
    ∀ item itemMetadata v, valueFunction.distribution.apply item itemMetadata = .ok v →
      0 ≤ v.toInt ∧ v.toInt ≤ 2 ^ 63 - 2)
  (hbuilt : Built indexes values insertions sketch) {valueFunction : ValueFunction}
  (hcolumn : values[column]? = some valueFunction)
  (hsum : valueFunction.aggregatorType = .sum) (count : Int64)
include hinjective hrange hbuilt hcolumn hsum

/-- The key of a register that survives with a count is that of an item that is alone and has it. -/
theorem mem_survivingRegisters_iff :
    key ∈ (sketch.survivingRegisters column count).map Sigma.fst
      ↔ ∃ k, itemTotal values insertions column (items k) = count
        ∧ IsSolitary id cell k key := by
  have hkept : ∀ {registerValues}, sketch.registers.lookup key = some registerValues →
      (isRegisterDestroyed (protoRegister values key registerValues) (protoConfig indexes values)
        = .ok false ↔ ∃ k, IsSolitary id cell k key) :=
    isRegisterDestroyed_eq_false_iff hidentified hitems hcell hinjective hrange hbuilt
  obtain ⟨hindexes, hvalues, -⟩ := hbuilt.holds
  simp only [survivingRegisters, List.mem_map, List.mem_filter, decide_eq_true_eq, hindexes,
    hvalues]
  constructor
  · rintro ⟨⟨key', registerValues⟩, ⟨hentry, hfalse, hcount⟩, rfl⟩
    have hregister := AList.mem_lookup_iff.mpr hentry
    obtain ⟨k, hsolitary⟩ := (hkept hregister).mp hfalse
    rw [column_of_isSolitary hidentified hitems hcell hbuilt hregister hcolumn hsum hsolitary,
      Option.some.injEq] at hcount
    exact ⟨k, hcount, hsolitary⟩
  · rintro ⟨k, rfl, hsolitary⟩
    obtain ⟨registerValues, hregister⟩ := Option.isSome_iff_exists.mp
      ((isSome_lookup_iff hidentified hitems hcell hbuilt).mpr ⟨k, hsolitary.1⟩)
    exact ⟨⟨key, registerValues⟩, ⟨AList.mem_lookup_iff.mp hregister,
      (hkept hregister).mpr ⟨k, hsolitary⟩,
      column_of_isSolitary hidentified hitems hcell hbuilt hregister hcolumn hsum hsolitary⟩, rfl⟩

/-- **The surviving registers are the items that are alone.** Whatever the order of the insertions
and the tree of merges, as many registers survive with a count as there are items that no other item
shares a register with and for which this count was inserted in total. -/
theorem length_survivingRegisters :
    (sketch.survivingRegisters column count).length
      = Set.ncard {k | itemTotal values insertions column (items k) = count
          ∧ ∃ key, IsSolitary id cell k key} := by
  classical
  let alone : Finset (Fin n) := {k | itemTotal values insertions column (items k) = count
    ∧ ∃ key, IsSolitary id cell k key}
  have hnodup : ((sketch.survivingRegisters column count).map Sigma.fst).Nodup :=
    (List.Sublist.map Sigma.fst List.filter_sublist).nodup sketch.registers.nodupKeys
  have hkeys : ((sketch.survivingRegisters column count).map Sigma.fst).toFinset
      = alone.image fun k => (cell k).getD 0 := by
    ext key
    rw [List.mem_toFinset, Finset.mem_image,
      mem_survivingRegisters_iff hidentified hitems hcell hinjective hrange hbuilt hcolumn hsum]
    constructor
    · rintro ⟨k, hcount, hsolitary⟩
      exact ⟨k, (Finset.mem_filter_univ k).mpr ⟨hcount, key, hsolitary⟩, by
        rw [show cell k = some key from hsolitary.1, Option.getD_some]⟩
    · rintro ⟨k, hk, rfl⟩
      obtain ⟨hcount, key, hsolitary⟩ := (Finset.mem_filter_univ k).mp hk
      refine ⟨k, hcount, ?_⟩
      rwa [show cell k = some key from hsolitary.1, Option.getD_some]
  have hinjOn : Set.InjOn (fun k => (cell k).getD 0) alone := by
    intro k hk k' hk' heq
    obtain ⟨-, key, hsolitary⟩ := (Finset.mem_filter_univ k).mp hk
    obtain ⟨-, key', hsolitary'⟩ := (Finset.mem_filter_univ k').mp hk'
    simp only [show cell k = some key from hsolitary.1,
      show cell k' = some key' from hsolitary'.1, Option.getD_some] at heq
    by_contra hne
    exact hsolitary'.2 k hne (heq ▸ hsolitary.1)
  calc (sketch.survivingRegisters column count).length
      = ((sketch.survivingRegisters column count).map Sigma.fst).toFinset.card := by
        rw [List.toFinset_card_of_nodup hnodup, List.length_map]
    _ = alone.card := by rw [hkeys, Finset.card_image_of_injOn hinjOn]
    _ = Set.ncard {k | itemTotal values insertions column (items k) = count
          ∧ ∃ key, IsSolitary id cell k key} := by
        rw [← Set.ncard_coe_finset, Finset.coe_filter_univ]

end Items

/-! ### Fingerprints -/

theorem isFingerprinting_of_applyToFingerprint (minValue maxValue : Int64)
    {applyToFingerprint : UInt64 → ItemMetadata → StatusOr Int64}
    (hmetadata : ∀ fingerprint itemMetadata itemMetadata',
      applyToFingerprint fingerprint itemMetadata
        = applyToFingerprint fingerprint itemMetadata') :
    IsFingerprinting fun fingerprinter => BaseDistributionImpl.toBaseDistribution
      { minValue, maxValue
        applyInternal := fingerprintingApplyInternal fingerprinter applyToFingerprint } where
  minValue_eq _ _ := rfl
  maxValue_eq _ _ := rfl
  apply_eq fingerprinter fingerprinter' item item' itemMetadata itemMetadata' heq := by
    simp only [BaseDistributionImpl.toBaseDistribution, BaseDistributionImpl.apply,
      fingerprintingApplyInternal, heq, hmetadata _ itemMetadata itemMetadata']

theorem isFingerprinting_uniform (minValue maxValue : Int64) :
    IsFingerprinting fun fingerprinter => getUniformDistribution fingerprinter minValue maxValue :=
  isFingerprinting_of_applyToFingerprint minValue maxValue fun _ _ _ => rfl

theorem isFingerprinting_geometric (minValue maxValue : Int64) :
    IsFingerprinting fun fingerprinter =>
      getGeometricDistribution fingerprinter minValue maxValue :=
  isFingerprinting_of_applyToFingerprint minValue maxValue fun _ _ _ => rfl

theorem isFingerprinting_exponential (rate : ℝ) (size : Int64) :
    IsFingerprinting fun fingerprinter => getExponentialDistribution fingerprinter rate size :=
  isFingerprinting_of_applyToFingerprint 0 (size - 1) fun _ _ _ => rfl

theorem getIndexLoop_fingerprint {distributions : List (Fingerprinter → BaseDistribution)}
    (hfingerprinting : ∀ distribution ∈ distributions, IsFingerprinting distribution)
    {fingerprinter fingerprinter' : Fingerprinter} {item item' : ByteString}
    {itemMetadata itemMetadata' : ItemMetadata} (heq : fingerprinter item = fingerprinter' item')
    (product linearizedIndex : UInt64) :
    getIndexLoop item itemMetadata (fingerprintIndexes distributions fingerprinter) product
        linearizedIndex
      = getIndexLoop item' itemMetadata' (fingerprintIndexes distributions fingerprinter') product
          linearizedIndex := by
  induction distributions generalizing product linearizedIndex with
  | nil => rfl
  | cons distribution distributions ih =>
      obtain ⟨hdistribution, hrest⟩ := List.forall_mem_cons.mp hfingerprinting
      have happly := hdistribution.apply_eq fingerprinter fingerprinter' item item' itemMetadata
        itemMetadata' heq
      simp only [fingerprintIndexes, List.map_cons, getIndexLoop, BaseDistribution.size, happly,
        hdistribution.minValue_eq fingerprinter fingerprinter',
        hdistribution.maxValue_eq fingerprinter fingerprinter']
      congr 1
      funext value
      exact ih hrest _ _

theorem registerKey_getIndex {distributions : List (Fingerprinter → BaseDistribution)}
    (hfingerprinting : ∀ distribution ∈ distributions, IsFingerprinting distribution)
    {fingerprinter : Fingerprinter} {insertion : Insertion} {fingerprint : Fin (2 ^ 64)}
    (heq : fingerprinter insertion.item = UInt64.ofNat fingerprint) :
    registerKey (getIndex (fingerprintIndexes distributions fingerprinter) insertion)
      = fingerprintKey distributions fingerprint := by
  have hloop := @getIndexLoop_fingerprint distributions hfingerprinting fingerprinter
    (fun _ => UInt64.ofNat fingerprint) insertion.item [] insertion.itemMetadata (fun _ => none) heq
  rw [fingerprintKey, getIndex, getIndex, hloop]

theorem Identified.perm (hidentified : Identified values insertions)
    (hperm : order.Perm insertions) : Identified values order where
  succeeds insertion hinsertion := hidentified.succeeds insertion (hperm.mem_iff.mp hinsertion)
  unique_eq_iff a ha b hb :=
    hidentified.unique_eq_iff a (hperm.mem_iff.mp ha) b (hperm.mem_iff.mp hb)

theorem itemTotal_perm (hperm : order.Perm insertions) (item : ByteString) :
    itemTotal values order column item = itemTotal values insertions column item := by
  unfold itemTotal itemValues
  rw [(((hperm.filter _).filterMap _).map _).sum_eq]

/-- **The histogram of the surviving registers.** Over independent fingerprints of the items, the
mean number of registers that survive with a count is the number of items with this count, times a
factor that is the same for all counts. -/
theorem expectedSurvivors_eq {n : ℕ} {items : Fin n → ByteString}
    {distributions : List (Fingerprinter → BaseDistribution)}
    {sketch : (Fin n → Fin (2 ^ 64)) → AnySketch}
    (hfingerprinting : ∀ distribution ∈ distributions, IsFingerprinting distribution)
    (hidentified : Identified values insertions)
    (hitems : ∀ item, (∃ insertion ∈ insertions, insertion.item = item) ↔ ∃ k, items k = item)
    (hinjective : Function.Injective items)
    (hrange : ∀ valueFunction ∈ values, valueFunction.aggregatorType = .unique →
      ∀ item itemMetadata v, valueFunction.distribution.apply item itemMetadata = .ok v →
        0 ≤ v.toInt ∧ v.toInt ≤ 2 ^ 63 - 2)
    (hsketch : ∀ fingerprints, ∃ fingerprinter order,
      (∀ k, fingerprinter (items k) = UInt64.ofNat (fingerprints k)) ∧ order.Perm insertions ∧
      Built (fingerprintIndexes distributions fingerprinter) values order (sketch fingerprints))
    {valueFunction : ValueFunction} (hcolumn : values[column]? = some valueFunction)
    (hsum : valueFunction.aggregatorType = .sum) (count : Int64) :
    expectedSurvivors sketch column count
      = Set.ncard {k | itemTotal values insertions column (items k) = count}
        * solitaryChance (fingerprintKey distributions) n := by
  classical
  have hlength : ∀ fingerprints,
      ((sketch fingerprints).survivingRegisters column count).length
        = Set.ncard {k | itemTotal values insertions column (items k) = count
            ∧ ∃ key, IsSolitary (fingerprintKey distributions) fingerprints k key} := by
    intro fingerprints
    obtain ⟨fingerprinter, order, hfingerprinter, hperm, hbuilt⟩ := hsketch fingerprints
    have hcell : ∀ insertion ∈ order, ∀ k, insertion.item = items k →
        registerKey (getIndex (fingerprintIndexes distributions fingerprinter) insertion)
          = fingerprintKey distributions (fingerprints k) := by
      intro insertion _ k hitem
      exact registerKey_getIndex hfingerprinting (hitem ▸ hfingerprinter k)
    have hitems' : ∀ item, (∃ insertion ∈ order, insertion.item = item) ↔ ∃ k, items k = item := by
      intro item
      simp only [hperm.mem_iff, hitems]
    rw [length_survivingRegisters (hidentified.perm hperm) hitems' hcell hinjective hrange hbuilt
      hcolumn hsum]
    simp only [itemTotal_perm hperm]
    rfl
  have hmean := expectedSolitary_eq (fingerprintKey distributions)
    fun k => itemTotal values insertions column (items k) = count
  simp only [Fintype.card_fin, ← Set.ncard_coe_finset, Finset.coe_filter_univ] at hmean
  rw [expectedSurvivors, Finset.sum_congr rfl fun fingerprints _ => by rw [hlength fingerprints]]
  exact hmean

/-! Two items, the first of them inserted twice. -/

def countedInsertion (byte : UInt8) (bucket id : Int64) : Insertion where
  item := [byte]
  itemMetadata := (sampleInsertion bucket id).itemMetadata

def countedInsertions : List Insertion :=
  [countedInsertion 0 3 1, countedInsertion 1 5 2, countedInsertion 0 3 1]

def countedItems (k : Fin 2) : ByteString := [UInt8.ofNat k]

theorem countedItems_injective : Function.Injective countedItems := by
  intro k k' heq
  fin_cases k <;> fin_cases k' <;> simp_all [countedItems]

theorem mem_countedItems (item : ByteString) :
    (∃ insertion ∈ countedInsertions, insertion.item = item) ↔ ∃ k, countedItems k = item := by
  simp only [countedItems, countedInsertions, Fin.exists_fin_two, List.exists_mem_cons_iff]
  simp [countedInsertion, eq_comm]
  tauto

theorem applyValues_counted : ∀ insertion ∈ countedInsertions, applyValues insertion sampleValues
    = .ok [if insertion.item = [0] then 1 else 2, 1] := by
  intro insertion hinsertion
  simp only [countedInsertions, List.mem_cons, List.not_mem_nil, or_false] at hinsertion
  rcases hinsertion with rfl | rfl | rfl
  · rfl
  · rfl
  · rfl

theorem countedInsertions_identified : Identified sampleValues countedInsertions where
  succeeds insertion hinsertion := ⟨_, applyValues_counted insertion hinsertion⟩
  unique_eq_iff a ha b hb s t hs ht := by
    rw [applyValues_counted a ha, Except.ok.injEq] at hs
    rw [applyValues_counted b hb, Except.ok.injEq] at ht
    obtain ⟨k, hk⟩ := (mem_countedItems a.item).mp ⟨a, ha, rfl⟩
    obtain ⟨k', hk'⟩ := (mem_countedItems b.item).mp ⟨b, hb, rfl⟩
    rw [← hs, ← ht, ← hk, ← hk']
    constructor
    · intro hsame
      have hid := hsame 0 _ rfl rfl
      fin_cases k <;> fin_cases k' <;> simp_all [countedItems]
    · intro heq column valueFunction _ _
      rw [heq]

theorem length_survivingRegisters_counted :
    (((new sampleIndexes sampleValues).insertAll countedInsertions).survivingRegisters 1 2).length
      = Set.ncard {k | itemTotal sampleValues countedInsertions 1 (countedItems k) = 2
          ∧ ∃ key, IsSolitary id (fun k : Fin 2 => some (UInt64.ofNat (3 + 2 * k))) k key} := by
  refine length_survivingRegisters countedInsertions_identified mem_countedItems ?_
    countedItems_injective sampleValues_range (built_insertAll countedInsertions)
    (show sampleValues[1]? = some _ from rfl) rfl 2
  intro insertion hinsertion k hitem
  simp only [countedInsertions, List.mem_cons, List.not_mem_nil, or_false] at hinsertion
  rcases hinsertion with rfl | rfl | rfl <;> fin_cases k <;>
    first | rfl | simp [countedItems, countedInsertion] at hitem

noncomputable def countedSketch (fingerprints : Fin 2 → Fin (2 ^ 64)) : AnySketch :=
  (new (fingerprintIndexes [fun fingerprinter => getExponentialDistribution fingerprinter 12 100000]
      fun item => UInt64.ofNat (fingerprints ⟨(item.headD 0).toNat % 2, Nat.mod_lt _ Nat.two_pos⟩))
    sampleValues).insertAll countedInsertions

theorem expectedSurvivors_counted :
    expectedSurvivors countedSketch 1 2
      = Set.ncard {k | itemTotal sampleValues countedInsertions 1 (countedItems k) = 2}
        * solitaryChance (fingerprintKey
            [fun fingerprinter => getExponentialDistribution fingerprinter 12 100000]) 2 := by
  refine expectedSurvivors_eq (List.forall_mem_singleton.mpr (isFingerprinting_exponential _ _))
    countedInsertions_identified mem_countedItems countedItems_injective sampleValues_range
    (fun fingerprints => ⟨_, countedInsertions, fun k => ?_, List.Perm.refl _,
      built_insertAll countedInsertions⟩) (show sampleValues[1]? = some _ from rfl) rfl 2
  fin_cases k
  · rfl
  · rfl

end AnySketchCorrectness.AnySketch
