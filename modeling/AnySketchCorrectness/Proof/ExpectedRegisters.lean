import AnySketchCorrectness.ExpectedRegisters
import AnySketchCorrectness.Proof.ExponentialDistribution
import AnySketchCorrectness.Proof.Linearization
import AnySketchCorrectness.Proof.Registers
import AnySketchCorrectness.Library.ExponentialCells
import AnySketchCorrectness.Library.Occupancy

/-!
# What the estimator inverts

A register is active if the fingerprint of an item falls into its cell, and the chance of that is
that of a cell of the unit interval, but for the rounding of the fingerprints. So the expected
number of registers of a sketch is the expected number of occupied cells, and
`GetExpectedActiveRegisterCount` computes it with an error that does not grow with the number of
registers.
-/

namespace AnySketchCorrectness.AnySketch

open TruncatedExponential Occupancy

/-! ### The registers of a sketch -/

/-- The register that a fingerprint activates. The largest fingerprint is out of range. -/
noncomputable def registerOf (decayRate : ℝ) (size : Int64) (fingerprint : Fin (2 ^ 64)) :
    Option ℕ :=
  if fingerprint.val = 2 ^ 64 - 1 then none
  else some (exponentialValue decayRate size (UInt64.ofNat fingerprint)).toNat

theorem toNat_ofNat_fingerprint (fingerprint : Fin (2 ^ 64)) :
    (UInt64.ofNat fingerprint).toNat = fingerprint :=
  UInt64.toNat_ofNat_of_lt' fingerprint.isLt

section Registers

variable {decayRate : ℝ} {size : Int64} (hrate : 0 < decayRate) (hsize : 1 ≤ size)
  {fingerprinter : Fingerprinter} {values : List ValueFunction}
include hrate hsize

theorem apply_exponential_iff {fingerprint : Fin (2 ^ 64)} {insertion : Insertion}
    (hfingerprint : fingerprinter insertion.item = UInt64.ofNat fingerprint) (value : Int64) :
    (getExponentialDistribution fingerprinter decayRate size).apply insertion.item
        insertion.itemMetadata = .ok value
      ↔ fingerprint.val ≠ 2 ^ 64 - 1
        ∧ value.toInt = exponentialValue decayRate size (UInt64.ofNat fingerprint) := by
  by_cases hlargest : fingerprint.val = 2 ^ 64 - 1
  · have hout := (appliesInRange_iff hrate hsize).1 (UInt64.ofNat fingerprint)
    have hvalue : exponentialValue decayRate size (UInt64.ofNat fingerprint) = size.toInt := by
      rw [exponentialValue_eq, exponentialUniform_eq_one
        ((toNat_ofNat_fingerprint fingerprint).trans hlargest), floor_quantile_one]
    rw [getExponentialDistribution_apply, hfingerprint, hvalue, Int64.ofInt_toInt]
    refine iff_of_false ?_ fun himpossible => himpossible.1 hlargest
    rintro ⟨rfl, -, hle⟩
    rw [Int64.le_iff_toInt_le, Int64.toInt_one] at hsize
    rw [Int64.le_iff_toInt_le, Int64.toInt_sub, Int64.toInt_one, Int.bmod_def] at hle
    have hlt := size.toInt_lt
    omega
  · obtain ⟨-, -, happly⟩ := appliesInRange_of_ne hrate hsize
      (by rwa [toNat_ofNat_fingerprint] : (UInt64.ofNat fingerprint).toNat ≠ 2 ^ 64 - 1)
    obtain ⟨result, hresult, hvalue⟩ := happly fingerprinter insertion.item insertion.itemMetadata
      hfingerprint
    rw [hresult, Except.ok.injEq, ← Int64.toInt_inj, hvalue, eq_comm]
    exact (and_iff_right hlargest).symm

omit hrate hsize in
/-- There is one index and its smallest value is 0, so it is the linearized index. -/
theorem getIndex_singleton (insertion : Insertion) (key : UInt64) :
    getIndex [getExponentialDistribution fingerprinter decayRate size] insertion
        = .ok key.toInt64
      ↔ ∃ value, (getExponentialDistribution fingerprinter decayRate size).apply insertion.item
          insertion.itemMetadata = .ok value ∧ value.toUInt64 = key := by
  have hpart : ∀ value : Int64, 1 * 0 + (value - 0).toUInt64 = value.toUInt64 := by
    intro value
    rw [UInt64.mul_zero, UInt64.zero_add, Int64.sub_zero]
  rw [getIndex, StatusOr.bind_eq_ok]
  simp only [getIndexLoop]
  constructor
  · rintro ⟨linearizedIndex, hloop, hindex⟩
    obtain ⟨value, happly, hlinearized⟩ := StatusOr.bind_eq_ok.mp hloop
    cases hlinearized
    cases hindex
    exact ⟨value, happly, (hpart value).symm⟩
  · rintro ⟨value, happly, rfl⟩
    exact ⟨value.toUInt64, StatusOr.bind_eq_ok.mpr ⟨value, happly, congrArg _ (hpart value)⟩, rfl⟩

theorem getIndex_exponential_iff {fingerprint : Fin (2 ^ 64)} {insertion : Insertion}
    (hfingerprint : fingerprinter insertion.item = UInt64.ofNat fingerprint) (key : UInt64) :
    getIndex [getExponentialDistribution fingerprinter decayRate size] insertion
        = .ok key.toInt64
      ↔ registerOf decayRate size fingerprint = some key.toNat := by
  rw [getIndex_singleton, registerOf]
  simp only [apply_exponential_iff hrate hsize hfingerprint]
  by_cases hlargest : fingerprint.val = 2 ^ 64 - 1
  · rw [if_pos hlargest]
    refine iff_of_false ?_ (Option.some_ne_none _).symm
    rintro ⟨_, ⟨hne, -⟩, -⟩
    exact hne hlargest
  · obtain ⟨hnonneg, hle, -⟩ := appliesInRange_of_ne hrate hsize
      (by rwa [toNat_ofNat_fingerprint] : (UInt64.ofNat fingerprint).toNat ≠ 2 ^ 64 - 1)
    have hsizeLt := size.toInt_lt
    have hlt : (exponentialValue decayRate size (UInt64.ofNat fingerprint)).toNat < 2 ^ 64 := by
      omega
    rw [if_neg hlargest, Option.some.injEq]
    constructor
    · rintro ⟨value, ⟨-, hvalue⟩, rfl⟩
      rw [toUInt64_eq_ofNat (hvalue ▸ hnonneg), hvalue, UInt64.toNat_ofNat_of_lt' hlt]
    · intro hkey
      have hvalue : (Int64.ofInt (exponentialValue decayRate size (UInt64.ofNat fingerprint))).toInt
          = exponentialValue decayRate size (UInt64.ofNat fingerprint) :=
        Int64.toInt_ofInt_of_le (by omega) (by omega)
      refine ⟨_, ⟨hlargest, hvalue⟩, ?_⟩
      rw [toUInt64_eq_ofNat (hnonneg.trans_eq hvalue.symm), hvalue, hkey, UInt64.ofNat_toNat]

theorem registerOf_lt {fingerprint : Fin (2 ^ 64)} {register : ℕ}
    (hregister : registerOf decayRate size fingerprint = some register) :
    register < size.toInt.toNat := by
  rw [registerOf] at hregister
  split at hregister
  · cases hregister
  · rename_i hlargest
    obtain ⟨hnonneg, hle, -⟩ := appliesInRange_of_ne hrate hsize
      (by rwa [toNat_ofNat_fingerprint] : (UInt64.ofNat fingerprint).toNat ≠ 2 ^ 64 - 1)
    cases hregister
    omega

/-- A register exists if the fingerprint of some item activates it. -/
theorem SketchesItems.mem_keys_iff {n : ℕ} {items : Fin n → ByteString}
    {fingerprints : Fin n → Fin (2 ^ 64)} {sketch : AnySketch}
    (hsketch : SketchesItems decayRate size items fingerprints sketch) (key : UInt64) :
    key ∈ sketch.registers.keys
      ↔ ∃ k, registerOf decayRate size (fingerprints k) = some key.toNat := by
  obtain ⟨fingerprinter, values, insertions, hfingerprints, hbuilt, hitems, hvalues⟩ := hsketch
  rw [← AList.mem_keys, ← AList.lookup_isSome, hbuilt.register_isSome]
  constructor
  · rintro ⟨insertion, hinsertion, hcontribution⟩
    obtain ⟨-, hindex⟩ := contribution_key_iff.mp hcontribution
    obtain ⟨k, hk⟩ := (hitems insertion.item).mp ⟨insertion, hinsertion, rfl⟩
    have hfingerprint : fingerprinter insertion.item = UInt64.ofNat (fingerprints k) := by
      rw [← hk, hfingerprints]
    exact ⟨k, (getIndex_exponential_iff hrate hsize hfingerprint key).mp hindex⟩
  · rintro ⟨k, hregister⟩
    obtain ⟨insertion, hinsertion, hitem⟩ := (hitems (items k)).mpr ⟨k, rfl⟩
    have hfingerprint : fingerprinter insertion.item = UInt64.ofNat (fingerprints k) := by
      rw [hitem, hfingerprints]
    have hindex := (getIndex_exponential_iff hrate hsize hfingerprint key).mpr hregister
    obtain ⟨newValues, happly⟩ := hvalues insertion hinsertion
    refine ⟨insertion, hinsertion, newValues, ?_⟩
    simp [contribution, hindex, happly]

theorem SketchesItems.length_keys {n : ℕ} {items : Fin n → ByteString}
    {fingerprints : Fin n → Fin (2 ^ 64)} {sketch : AnySketch}
    (hsketch : SketchesItems decayRate size items fingerprints sketch) :
    sketch.registers.keys.length
      = (occupied (registerOf decayRate size) fingerprints).card := by
  have hoccupied : occupied (registerOf decayRate size) fingerprints
      = sketch.registers.keys.toFinset.image UInt64.toNat := by
    ext register
    simp only [mem_occupied, Finset.mem_image, List.mem_toFinset,
      hsketch.mem_keys_iff hrate hsize]
    constructor
    · rintro ⟨k, hregister⟩
      have hlt := registerOf_lt hrate hsize hregister
      have hsizeLt := size.toInt_lt
      have htoNat : (UInt64.ofNat register).toNat = register :=
        UInt64.toNat_ofNat_of_lt' (show register < 2 ^ 64 by omega)
      exact ⟨UInt64.ofNat register, ⟨k, htoNat.symm ▸ hregister⟩, htoNat⟩
    · rintro ⟨key, ⟨k, hregister⟩, rfl⟩
      exact ⟨k, hregister⟩
  rw [hoccupied, Finset.card_image_of_injective _ fun _ _ heq => UInt64.toNat_inj.mp heq,
    List.toFinset_card_of_nodup sketch.registers.keys_nodup]

theorem expectedRegisterCount_eq {n : ℕ} {items : Fin n → ByteString}
    {sketch : (Fin n → Fin (2 ^ 64)) → AnySketch}
    (hsketch : ∀ fingerprints,
      SketchesItems decayRate size items fingerprints (sketch fingerprints)) :
    expectedRegisterCount sketch = expectedOccupied (registerOf decayRate size) n := by
  rw [expectedRegisterCount, expectedOccupied, Fintype.card_fin,
    Finset.sum_congr rfl fun fingerprints _ => by
      rw [(hsketch fingerprints).length_keys hrate hsize]]

/-! ### The chance of a register -/

/-- Where a cell starts, in fingerprints. -/
noncomputable def cellStart (decayRate : ℝ) (size : Int64) (register : ℕ) : ℕ :=
  ⌈(2 ^ 64 - 1 : ℕ) * cdf decayRate (register / size.toInt.toNat)⌉₊

omit hrate hsize in
theorem cellStart_eq (decayRate : ℝ) (size : Int64) (register : ℕ) :
    cellStart decayRate size register
      = ⌈(2 ^ 64 - 1) * cdf decayRate (register / size.toInt.toNat)⌉₊ := by
  have hlargest : ((2 ^ 64 - 1 : ℕ) : ℝ) = 2 ^ 64 - 1 := by norm_num
  rw [cellStart, hlargest]

omit hrate in
theorem cast_size : ((size.toInt.toNat : ℕ) : ℝ) = size.toInt := by
  rw [Int64.le_iff_toInt_le, Int64.toInt_one] at hsize
  have htoNat := Int.toNat_of_nonneg (zero_le_one.trans hsize)
  exact_mod_cast congrArg (Int.cast : ℤ → ℝ) htoNat

omit hrate in
theorem cast_size_pos : (0 : ℝ) < size.toInt := by
  rw [Int64.le_iff_toInt_le, Int64.toInt_one] at hsize
  exact_mod_cast zero_lt_one.trans_le hsize

theorem cellStart_le_iff (fingerprint : Fin (2 ^ 64)) (register : ℕ) :
    cellStart decayRate size register ≤ fingerprint
      ↔ (register : ℝ) ≤ quantile decayRate (exponentialUniform (UInt64.ofNat fingerprint))
        * (size.toInt : ℝ) := by
  rw [← div_le_iff₀ (cast_size_pos hsize),
    le_quantile_iff hrate (exponentialUniform_le_one _), exponentialUniform,
    toNat_ofNat_fingerprint, le_div_iff₀' (by norm_num), cellStart_eq, Nat.ceil_le, cast_size hsize]

omit hsize in
theorem cellStart_le {register : ℕ} (hle : register ≤ size.toInt.toNat) :
    cellStart decayRate size register ≤ 2 ^ 64 - 1 := by
  have hfraction : (register : ℝ) / size.toInt.toNat ≤ 1 :=
    div_le_one_of_le₀ (Nat.cast_le.mpr hle) (Nat.cast_nonneg _)
  have hcdf := (cdf_mono hrate hfraction).trans_eq (cdf_one hrate)
  rw [cellStart_eq, Nat.ceil_le]
  calc (2 ^ 64 - 1 : ℝ) * cdf decayRate (register / size.toInt.toNat)
      ≤ (2 ^ 64 - 1) * 1 := mul_le_mul_of_nonneg_left hcdf (by norm_num)
    _ = ((2 ^ 64 - 1 : ℕ) : ℝ) := by norm_num

theorem registerOf_eq_some_iff (fingerprint : Fin (2 ^ 64)) {register : ℕ}
    (hregister : register < size.toInt.toNat) :
    registerOf decayRate size fingerprint = some register
      ↔ cellStart decayRate size register ≤ fingerprint
        ∧ fingerprint.val < cellStart decayRate size (register + 1) := by
  rw [registerOf]
  split
  · rename_i hlargest
    have hle : cellStart decayRate size (register + 1) ≤ 2 ^ 64 - 1 :=
      cellStart_le hrate hregister
    refine iff_of_false (Option.some_ne_none _).symm ?_
    omega
  · rename_i hlargest
    obtain ⟨hnonneg, -, -⟩ := appliesInRange_of_ne hrate hsize
      (by rwa [toNat_ofNat_fingerprint] : (UInt64.ofNat fingerprint).toNat ≠ 2 ^ 64 - 1)
    have hfloor : (exponentialValue decayRate size (UInt64.ofNat fingerprint)).toNat = register
        ↔ exponentialValue decayRate size (UInt64.ofNat fingerprint) = register := by
      omega
    rw [Option.some.injEq, hfloor, exponentialValue_eq, Int.floor_eq_iff,
      cellStart_le_iff hrate hsize, ← not_le (a := cellStart decayRate size (register + 1)),
      cellStart_le_iff hrate hsize, not_le, Int.cast_natCast, Nat.cast_succ]

theorem card_registerOf {register : ℕ} (hregister : register < size.toInt.toNat) :
    Finset.card {fingerprint | registerOf decayRate size fingerprint = some register}
      = cellStart decayRate size (register + 1) - cellStart decayRate size register := by
  have hle : cellStart decayRate size (register + 1) ≤ 2 ^ 64 - 1 := cellStart_le hrate hregister
  have hmap : Finset.map Fin.valEmbedding
        {fingerprint | registerOf decayRate size fingerprint = some register}
      = Finset.Ico (cellStart decayRate size register)
          (cellStart decayRate size (register + 1)) := by
    ext fingerprint
    simp only [Finset.mem_map, Finset.mem_filter_univ,
      registerOf_eq_some_iff hrate hsize _ hregister, Finset.mem_Ico, Fin.valEmbedding_apply]
    constructor
    · rintro ⟨fingerprint, hcell, rfl⟩
      exact hcell
    · intro hcell
      exact ⟨⟨fingerprint, by omega⟩, hcell, rfl⟩
  rw [← Finset.card_map Fin.valEmbedding, hmap, Nat.card_Ico]

/-- The chance of a register is the chance of its cell, but for the rounding at both ends and the
one fingerprint that has no register. -/
theorem abs_chance_sub_le {register : ℕ} (hregister : register < size.toInt.toNat) :
    |chance (registerOf decayRate size) register
      - (cdf decayRate ((register + 1 : ℕ) / size.toInt.toNat)
        - cdf decayRate (register / size.toInt.toNat))| ≤ 2 / 2 ^ 64 := by
  let start : ℕ → ℝ := fun register => cdf decayRate (register / size.toInt.toNat)
  have hdivide : (register : ℝ) / size.toInt.toNat ≤ (register + 1 : ℕ) / size.toInt.toNat := by
    gcongr
    exact Nat.le_succ register
  have hle : start register ≤ start (register + 1) := cdf_mono hrate hdivide
  have hzero : 0 ≤ start register :=
    (cdf_zero : cdf decayRate 0 = 0).symm.trans_le (cdf_mono hrate (by positivity))
  have hone : start (register + 1) ≤ 1 := by
    refine (cdf_mono hrate ?_).trans_eq (cdf_one hrate)
    exact div_le_one_of_le₀ (Nat.cast_le.mpr hregister) (Nat.cast_nonneg _)
  have hceil : ∀ register', 0 ≤ start register' →
      (2 ^ 64 - 1) * start register' ≤ cellStart decayRate size register' ∧
      (cellStart decayRate size register' : ℝ) < (2 ^ 64 - 1) * start register' + 1 := by
    intro register' hnonneg
    have hscaled : (0 : ℝ) ≤ (2 ^ 64 - 1) * start register' := mul_nonneg (by norm_num) hnonneg
    rw [cellStart_eq]
    exact ⟨Nat.le_ceil _, Nat.ceil_lt_add_one hscaled⟩
  obtain ⟨hlow, hlow'⟩ := hceil register hzero
  obtain ⟨hhigh, hhigh'⟩ := hceil (register + 1) (hzero.trans hle)
  have hstarts : cellStart decayRate size register ≤ cellStart decayRate size (register + 1) :=
    Nat.ceil_mono (mul_le_mul_of_nonneg_left hle (by norm_num))
  have hcard := card_registerOf hrate hsize hregister
  have hchance : chance (registerOf decayRate size) register
      = (cellStart decayRate size (register + 1) - cellStart decayRate size register : ℝ)
        / 2 ^ 64 := by
    rw [chance, hcard, Nat.cast_sub hstarts, Fintype.card_fin]
    norm_num
  change |_ - (start (register + 1) - start register)| ≤ _
  rw [hchance, abs_le]
  constructor
  · linarith
  · linarith

/-- One register comes from the Poisson counts and one from the integral over the cells. The rest
is the rounding of the fingerprints. -/
theorem abs_expectedRegisterCount_sub_le {n : ℕ} {items : Fin n → ByteString}
    {sketch : (Fin n → Fin (2 ^ 64)) → AnySketch}
    (hsketch : ∀ fingerprints,
      SketchesItems decayRate size items fingerprints (sketch fingerprints)) :
    |expectedRegisterCount sketch
      - size.toInt.toNat * activeFraction decayRate (n / size.toInt.toNat)|
      ≤ 2 + 2 * n * size.toInt.toNat / 2 ^ 64 := by
  have hpositive : 0 < size.toInt.toNat := by
    rw [Int64.le_iff_toInt_le, Int64.toInt_one] at hsize
    omega
  have hcast : (0 : ℝ) < size.toInt.toNat := Nat.cast_pos.mpr hpositive
  let cells := Finset.range size.toInt.toNat
  let point : ℕ → ℝ := fun register =>
    cdf decayRate ((register + 1 : ℕ) / size.toInt.toNat)
      - cdf decayRate (register / size.toInt.toNat)
  have hcells : ∀ fingerprint register, registerOf decayRate size fingerprint = some register →
      register ∈ cells := fun _ _ hregister =>
    Finset.mem_range.mpr (registerOf_lt hrate hsize hregister)
  have hpoisson := abs_expectedOccupied_sub_le (registerOf decayRate size) hcells n
  have hintegral := abs_sum_sub_activeFraction_le hrate
    (t := n / size.toInt.toNat) (by positivity) hpositive
  have hexponent : (n : ℝ) / size.toInt.toNat * size.toInt.toNat = n := div_mul_cancel₀ _ hcast.ne'
  rw [hexponent] at hintegral
  have hrounding : |∑ register ∈ cells,
        (1 - Real.exp (-(n * chance (registerOf decayRate size) register)))
      - ∑ register ∈ cells, (1 - Real.exp (-(n * point register)))|
      ≤ 2 * n * size.toInt.toNat / 2 ^ 64 := by
    have hpoint : ∀ register ∈ cells, 0 ≤ point register := by
      intro register _
      refine sub_nonneg.mpr (cdf_mono hrate ?_)
      gcongr
      exact Nat.le_succ register
    calc _ ≤ (cells.card : ℝ) * (n * (2 / 2 ^ 64)) :=
          abs_sum_one_sub_exp_sub_le (fun register _ => chance_nonneg _ register) hpoint
            (fun register hregister =>
              abs_chance_sub_le hrate hsize (Finset.mem_range.mp hregister)) n
      _ = 2 * n * size.toInt.toNat / 2 ^ 64 := by
          rw [Finset.card_range]
          ring
  rw [expectedRegisterCount_eq hrate hsize hsketch]
  rw [abs_le] at hpoisson hintegral hrounding ⊢
  constructor
  · linarith
  · linarith

end Registers

end AnySketchCorrectness.AnySketch

namespace AnySketchCorrectness.Estimation

open TruncatedExponential ExponentialIntegral

/-! ### The estimator -/

section Expected

variable {expint : ℝ → ℝ} (hexpint : ∀ x < 0, expint x = negativeEi x) {decayRate : ℝ}
  (hrate : 0 < decayRate) {numOfTotalRegisters : UInt64} (htotal : 0 < numOfTotalRegisters.toNat)
include hexpint hrate htotal

omit htotal in
theorem expected_fraction {t : ℝ} (ht : 0 < t) :
    (1.0 - (-expint (-decayRate * t / (Real.exp decayRate - 1.0))
        + expint (-decayRate * Real.exp decayRate * t / (Real.exp decayRate - 1.0))) / decayRate)
      = activeFraction decayRate t := by
  have hone : (1.0 : ℝ) = 1 := by norm_num
  have hexp := exp_sub_one_pos hrate
  have hfirst : -decayRate * t / (Real.exp decayRate - 1)
      = -(decayRate * t / (Real.exp decayRate - 1)) := by ring
  have hsecond : -decayRate * Real.exp decayRate * t / (Real.exp decayRate - 1)
      = -(decayRate * Real.exp decayRate * t / (Real.exp decayRate - 1)) := by ring
  rw [hone, hfirst, hsecond, hexpint _ (neg_lt_zero.mpr (by positivity)),
    hexpint _ (neg_lt_zero.mpr (by positivity)), activeFraction_eq hrate ht]
  ring

theorem toNat_getExpectedActiveRegisterCount (cardinality : UInt64) :
    (getExpectedActiveRegisterCount (realEstimatorCmath expint) decayRate numOfTotalRegisters
        cardinality).toNat
      = ⌊numOfTotalRegisters.toNat * activeFraction decayRate
          (cardinality.toNat / numOfTotalRegisters.toNat)⌋₊ := by
  have hcast : (0 : ℝ) < numOfTotalRegisters.toNat := Nat.cast_pos.mpr htotal
  rw [getExpectedActiveRegisterCount]
  split
  · rename_i hzero
    rw [hzero, UInt64.toNat_zero, Nat.cast_zero, zero_div, activeFraction]
    simp
  · rename_i hne
    have hcardinality : (0 : ℝ) < cardinality.toNat := by
      rw [Nat.cast_pos, Nat.pos_iff_ne_zero]
      exact fun hzero => hne (UInt64.toNat_inj.mp hzero)
    have hpositive : (0 : ℝ) < cardinality.toNat / numOfTotalRegisters.toNat :=
      div_pos hcardinality hcast
    have hbound : ⌊numOfTotalRegisters.toNat * activeFraction decayRate
        (cardinality.toNat / numOfTotalRegisters.toNat)⌋₊ < 2 ^ 64 := by
      refine lt_trans (Nat.floor_lt' htotal.ne' |>.mpr ?_) numOfTotalRegisters.toNat_lt
      exact mul_lt_of_lt_one_right hcast (activeFraction_lt_one hrate hpositive.le)
    have hfraction := expected_fraction hexpint hrate hpositive
    simp only [realEstimatorCmath]
    rw [hfraction, mul_comm, UInt64.toNat_ofNat_of_lt' hbound]

omit hexpint hrate htotal in
theorem toNat_toUInt64_size {size : Int64} (hsize : 1 ≤ size) :
    size.toUInt64.toNat = size.toInt.toNat := by
  rw [Int64.le_iff_toInt_le, Int64.toInt_one] at hsize
  have hlt := size.toInt_lt
  rw [AnySketch.toUInt64_eq_ofNat (zero_le_one.trans hsize),
    UInt64.toNat_ofNat_of_lt' (show size.toInt.toNat < 2 ^ 64 by omega)]

omit htotal in
/-- **The estimator computes the expected number of registers.** It is about the sketches of `n`
items under any order of insertions and merges. -/
theorem getExpectedActiveRegisterCount_near {size : Int64} (hsize : 1 ≤ size) {n : ℕ}
    (hn : n < 2 ^ 64) {items : Fin n → ByteString} {sketch : (Fin n → Fin (2 ^ 64)) → AnySketch}
    (hsketch : ∀ fingerprints,
      AnySketch.SketchesItems decayRate size items fingerprints (sketch fingerprints)) :
    |AnySketch.expectedRegisterCount sketch
      - (getExpectedActiveRegisterCount (realEstimatorCmath expint) decayRate size.toUInt64
          (UInt64.ofNat n)).toNat|
      ≤ 3 + 2 * n * size.toInt.toNat / 2 ^ 64 := by
  have htoNat := toNat_toUInt64_size hsize
  have hpositive : 0 < size.toUInt64.toNat := by
    rw [Int64.le_iff_toInt_le, Int64.toInt_one] at hsize
    omega
  have hfraction : 0 ≤ size.toInt.toNat * activeFraction decayRate (n / size.toInt.toNat) :=
    mul_nonneg (Nat.cast_nonneg _) (activeFraction_nonneg hrate (by positivity))
  have hnear := AnySketch.abs_expectedRegisterCount_sub_le hrate hsize hsketch
  have hfloor := Nat.floor_le hfraction
  have hfloorLt := Nat.lt_floor_add_one
    (size.toInt.toNat * activeFraction decayRate (n / size.toInt.toNat))
  rw [toNat_getExpectedActiveRegisterCount hexpint hrate hpositive,
    UInt64.toNat_ofNat_of_lt' hn, htoNat]
  rw [abs_le] at hnear ⊢
  constructor
  · linarith
  · linarith

end Expected

/-! Two items go into one sketch, the first of them twice. -/

def twoItems (k : Fin 2) : ByteString :=
  if k = 0 then [0] else [1]

noncomputable def twoItemSketch (decayRate : ℝ) (size : Int64)
    (fingerprints : Fin 2 → Fin (2 ^ 64)) : AnySketch :=
  (AnySketch.new [getExponentialDistribution
      (fun item => UInt64.ofNat (fingerprints (if item = [0] then 0 else 1))) decayRate size]
    []).insertAll [⟨[0], fun _ => none⟩, ⟨[1], fun _ => none⟩, ⟨[0], fun _ => none⟩]

theorem sketchesItems_twoItemSketch (decayRate : ℝ) (size : Int64)
    (fingerprints : Fin 2 → Fin (2 ^ 64)) :
    AnySketch.SketchesItems decayRate size twoItems fingerprints
      (twoItemSketch decayRate size fingerprints) := by
  refine ⟨_, [], _, fun k => ?_, AnySketch.built_insertAll _, fun item => ?_, fun _ _ => ⟨[], rfl⟩⟩
  · fin_cases k
    · rfl
    · rfl
  · simp only [twoItems, Fin.exists_fin_two, List.exists_mem_cons_iff]
    simp [eq_comm]
    tauto

theorem getExpectedActiveRegisterCount_near_two :
    |AnySketch.expectedRegisterCount (twoItemSketch 12 100000)
      - (getExpectedActiveRegisterCount (realEstimatorCmath negativeEi) 12 100000 2).toNat|
        ≤ 4 := by
  have hnear := getExpectedActiveRegisterCount_near (fun _ _ => rfl) (by norm_num)
    (show (1 : Int64) ≤ 100000 by decide) (by norm_num) (sketchesItems_twoItemSketch 12 100000)
  refine hnear.trans ?_
  have hsize : ((100000 : Int64).toInt.toNat : ℝ) = 100000 := by
    norm_cast
  rw [hsize]
  norm_num

end AnySketchCorrectness.Estimation
