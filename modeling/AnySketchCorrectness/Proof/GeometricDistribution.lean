import AnySketchCorrectness.FingerprintingDistributions
import AnySketchCorrectness.Library.LowestBit

/-!
# The geometric distribution

`CountTrailingZeros` keeps the lowest set bit of a word and finds its position with one mask for
each bit of the position. So a word has at least `k` trailing zeros exactly when `2 ^ k` divides it,
and the word zero, which has no lowest bit, counts as 64. Every further zero halves the number of
fingerprints, up to the width of the range, where the maximum cuts off.
-/

namespace AnySketchCorrectness

/-! ### Trailing zeros -/

theorem toNat_and_negation {n : UInt64} (hn : n ≠ 0) :
    (n &&& (~~~n + 1)).toNat = n.toNat &&& (2 ^ 64 - n.toNat) := by
  have hpositive : n.toNat ≠ 0 := fun hzero => hn (UInt64.toNat_inj.mp hzero)
  have hlt := n.toNat_lt
  have hsize : UInt64.size = 2 ^ 64 := rfl
  rw [UInt64.toNat_and, UInt64.toNat_add, UInt64.toNat_not, UInt64.toNat_one, hsize]
  congr 1
  omega

/-- Only the lowest set bit counts. -/
theorem countTrailingZeros_congr {n n' : UInt64} (hn : n ≠ 0) (hn' : n' ≠ 0)
    (heq : n &&& (~~~n + 1) = n' &&& (~~~n' + 1)) :
    countTrailingZeros n = countTrailingZeros n' := by
  rw [countTrailingZeros, countTrailingZeros, if_neg hn, if_neg hn', heq]

/-- The masks at work: each of the six tests decides one bit of the position. -/
theorem countTrailingZeros_two_pow : ∀ position : Fin 64,
    (countTrailingZeros (UInt64.ofNat (2 ^ (position : ℕ)))).toInt = position := by
  decide

theorem countTrailingZeros_of_ne_zero {n : UInt64} (hn : n ≠ 0) {position m : ℕ}
    (heq : n.toNat = 2 ^ position * m) (hodd : Odd m) :
    position < 64 ∧ (countTrailingZeros n).toInt = position := by
  have hpower : 2 ^ position < 2 ^ 64 :=
    (heq ▸ Nat.le_mul_of_pos_right _ hodd.pos : 2 ^ position ≤ n.toNat).trans_lt n.toNat_lt
  have hposition : position < 64 := (Nat.pow_lt_pow_iff_right Nat.one_lt_two).mp hpower
  have htoNat : (UInt64.ofNat (2 ^ position)).toNat = 2 ^ position :=
    UInt64.toNat_ofNat_of_lt' hpower
  have hne : UInt64.ofNat (2 ^ position) ≠ 0 := by
    intro hzero
    rw [hzero] at htoNat
    exact (Nat.two_pow_pos position).ne htoNat
  have hlowest : n &&& (~~~n + 1)
      = UInt64.ofNat (2 ^ position) &&& (~~~UInt64.ofNat (2 ^ position) + 1) := by
    apply UInt64.toNat_inj.mp
    rw [toNat_and_negation hn, toNat_and_negation hne,
      LowestBit.and_two_pow_sub heq hodd n.toNat_lt, htoNat,
      LowestBit.and_two_pow_sub (Nat.mul_one _).symm odd_one hpower]
  rw [countTrailingZeros_congr hn hne hlowest]
  exact ⟨hposition, countTrailingZeros_two_pow ⟨position, hposition⟩⟩

/-- **What `CountTrailingZeros` returns**: the largest exponent, up to 64, of a power of two that
divides the word. -/
theorem countTrailingZeros_spec (n : UInt64) :
    ∃ zeroes : ℕ, (countTrailingZeros n).toInt = zeroes ∧ zeroes ≤ 64
      ∧ ∀ k ≤ 64, k ≤ zeroes ↔ 2 ^ k ∣ n.toNat := by
  by_cases hn : n = 0
  · subst hn
    exact ⟨64, rfl, Nat.le_refl 64, fun k hk => iff_of_true hk (Nat.dvd_zero _)⟩
  · have hne : n.toNat ≠ 0 := fun hzero => hn (UInt64.toNat_inj.mp hzero)
    obtain ⟨position, m, hodd, heq⟩ := Nat.exists_eq_two_pow_mul_odd hne
    obtain ⟨hposition, hcount⟩ := countTrailingZeros_of_ne_zero hn heq hodd
    exact ⟨position, hcount, hposition.le, fun k _ => (LowestBit.two_pow_dvd_iff heq hodd).symm⟩

/-! ### Probability classes -/

/-- The fingerprints that get a value with the given property, among all `2 ^ 64`. -/
def fingerprintsWith (minValue maxValue : Int64) (item : ByteString) (itemMetadata : ItemMetadata)
    (p : ℤ → Prop) : Set (Fin (2 ^ 64)) :=
  {fingerprint | ∃ value,
    (getGeometricDistribution (fun _ => UInt64.ofNat fingerprint) minValue maxValue).apply item
      itemMetadata = .ok value ∧ p value.toInt}

theorem mem_fingerprintsWith {minValue maxValue : Int64} {item : ByteString}
    {itemMetadata : ItemMetadata} {fingerprint : Fin (2 ^ 64)} {value : Int64} {p : ℤ → Prop}
    (hok : (getGeometricDistribution (fun _ => UInt64.ofNat fingerprint) minValue maxValue).apply
      item itemMetadata = .ok value) :
    fingerprint ∈ fingerprintsWith minValue maxValue item itemMetadata p ↔ p value.toInt := by
  constructor
  · rintro ⟨result, hresult, hp⟩
    obtain rfl : value = result := Except.ok.inj (hok.symm.trans hresult)
    exact hp
  · intro hp
    exact ⟨value, hok, hp⟩

/-- **What a geometric distribution is meant to be**: each step takes half of the fingerprints that
are left, and the last value takes all that remain. -/
structure IsGeometric (minValue maxValue : Int64) : Prop where
  apply_ok : ∀ fingerprinter item itemMetadata, ∃ value,
    (getGeometricDistribution fingerprinter minValue maxValue).apply item itemMetadata = .ok value
      ∧ minValue.toInt ≤ value.toInt
      ∧ value.toInt ≤ minValue.toInt + min 64 (maxValue.toInt - minValue.toInt)
  card_at_least : ∀ item itemMetadata (k : ℕ), (k : ℤ) ≤ min 64 (maxValue.toInt - minValue.toInt) →
    (fingerprintsWith minValue maxValue item itemMetadata (minValue.toInt + k ≤ ·)).ncard
      = 2 ^ (64 - k)
  card_step : ∀ item itemMetadata (k : ℕ), (k : ℤ) < min 64 (maxValue.toInt - minValue.toInt) →
    (fingerprintsWith minValue maxValue item itemMetadata (· = minValue.toInt + k)).ncard
      = 2 ^ (63 - k)
  card_last : ∀ item itemMetadata (k : ℕ), (k : ℤ) = min 64 (maxValue.toInt - minValue.toInt) →
    (fingerprintsWith minValue maxValue item itemMetadata (· = minValue.toInt + k)).ncard
      = 2 ^ (64 - k)

/-- The sum does not overflow, and the maximum cuts it off. -/
theorem toInt_min_add {minValue : Int64} (hmin : minValue.toInt ≤ 2 ^ 63 - 65) (maxValue : Int64)
    {zeroes : ℕ} (hzeroes : zeroes ≤ 64) {steps : Int64} (hsteps : steps.toInt = zeroes) :
    (min maxValue (minValue + steps)).toInt
      = minValue.toInt + min (zeroes : ℤ) (maxValue.toInt - minValue.toInt) := by
  have hlower := minValue.le_toInt
  have hsum : (minValue + steps).toInt = minValue.toInt + zeroes := by
    rw [Int64.toInt_add, hsteps, Int.bmod_eq_of_le (by omega) (by omega)]
  change (if maxValue ≤ minValue + steps then maxValue else minValue + steps).toInt = _
  by_cases hcut : maxValue ≤ minValue + steps
  · rw [if_pos hcut]
    rw [Int64.le_iff_toInt_le] at hcut
    omega
  · rw [if_neg hcut, hsum]
    rw [Int64.le_iff_toInt_le] at hcut
    omega

section Range

variable {minValue maxValue : Int64} (hle : minValue ≤ maxValue)
  (hmin : minValue.toInt ≤ 2 ^ 63 - 65)
include hle hmin

/-- Every fingerprint gets the value that is its number of trailing zeros above the minimum, or the
maximum. -/
theorem getGeometricDistribution_apply_ok (fingerprinter : Fingerprinter) (item : ByteString)
    (itemMetadata : ItemMetadata) :
    ∃ value, ∃ zeroes : ℕ, zeroes ≤ 64
      ∧ (∀ k ≤ 64, k ≤ zeroes ↔ 2 ^ k ∣ (fingerprinter item).toNat)
      ∧ (getGeometricDistribution fingerprinter minValue maxValue).apply item itemMetadata
        = .ok value
      ∧ value.toInt = minValue.toInt + min (zeroes : ℤ) (maxValue.toInt - minValue.toInt) := by
  obtain ⟨zeroes, hcount, hzeroes, hdvd⟩ := countTrailingZeros_spec (fingerprinter item)
  have hsteps : (countTrailingZeros (fingerprinter item)).toInt64.toInt = zeroes := by
    rw [Int32.toInt_toInt64, hcount]
  have hvalue := toInt_min_add hmin maxValue hzeroes hsteps
  refine ⟨_, zeroes, hzeroes, hdvd, (getGeometricDistribution_apply _ _ _ _ _ _).mpr
    ⟨rfl, ?_, ?_⟩, hvalue⟩
  · rw [Int64.le_iff_toInt_le] at hle ⊢
    omega
  · rw [Int64.le_iff_toInt_le] at hle ⊢
    omega

theorem mem_fingerprintsWith_at_least (item : ByteString) (itemMetadata : ItemMetadata) (k : ℕ)
    (hk : (k : ℤ) ≤ min 64 (maxValue.toInt - minValue.toInt)) (fingerprint : Fin (2 ^ 64)) :
    fingerprint ∈ fingerprintsWith minValue maxValue item itemMetadata (minValue.toInt + k ≤ ·)
      ↔ 2 ^ k ∣ (fingerprint : ℕ) := by
  obtain ⟨value, zeroes, -, hdvd, hok, hvalue⟩ := getGeometricDistribution_apply_ok hle hmin
    (fun _ => UInt64.ofNat fingerprint) item itemMetadata
  rw [UInt64.toNat_ofNat_of_lt' fingerprint.isLt] at hdvd
  rw [mem_fingerprintsWith hok, ← hdvd k (by omega)]
  omega

theorem ncard_fingerprintsWith_at_least (item : ByteString) (itemMetadata : ItemMetadata) (k : ℕ)
    (hk : (k : ℤ) ≤ min 64 (maxValue.toInt - minValue.toInt)) :
    (fingerprintsWith minValue maxValue item itemMetadata (minValue.toInt + k ≤ ·)).ncard
      = 2 ^ (64 - k) := by
  have hset : fingerprintsWith minValue maxValue item itemMetadata (minValue.toInt + k ≤ ·)
      = (Finset.univ.filter fun fingerprint : Fin (2 ^ 64) => 2 ^ k ∣ (fingerprint : ℕ)) := by
    ext fingerprint
    rw [mem_fingerprintsWith_at_least hle hmin item itemMetadata k hk, Finset.mem_coe,
      Finset.mem_filter, and_iff_right (Finset.mem_univ fingerprint)]
  rw [hset, Set.ncard_coe_finset]
  exact LowestBit.card_filter_two_pow_dvd (by omega)

/-- A value at least `k` steps up that is not more than that is `k` steps up. -/
theorem ncard_fingerprintsWith_step (item : ByteString) (itemMetadata : ItemMetadata) (k : ℕ)
    (hk : (k : ℤ) < min 64 (maxValue.toInt - minValue.toInt)) :
    (fingerprintsWith minValue maxValue item itemMetadata (· = minValue.toInt + k)).ncard
      = 2 ^ (63 - k) := by
  have hsucc : ((k + 1 : ℕ) : ℤ) ≤ min 64 (maxValue.toInt - minValue.toInt) := by omega
  have hdifference : fingerprintsWith minValue maxValue item itemMetadata (· = minValue.toInt + k)
      = fingerprintsWith minValue maxValue item itemMetadata (minValue.toInt + k ≤ ·)
        \ fingerprintsWith minValue maxValue item itemMetadata
          (minValue.toInt + (k + 1 : ℕ) ≤ ·) := by
    ext fingerprint
    obtain ⟨value, -, -, -, hok, -⟩ := getGeometricDistribution_apply_ok hle hmin
      (fun _ => UInt64.ofNat fingerprint) item itemMetadata
    simp only [Set.mem_sdiff, mem_fingerprintsWith hok]
    omega
  have hsubset : fingerprintsWith minValue maxValue item itemMetadata
      (minValue.toInt + (k + 1 : ℕ) ≤ ·)
        ⊆ fingerprintsWith minValue maxValue item itemMetadata (minValue.toInt + k ≤ ·) := by
    rintro fingerprint ⟨value, hok, hvalue⟩
    exact ⟨value, hok, by omega⟩
  have hexponent : 64 - (k + 1) = 63 - k := by omega
  have hpower : 2 ^ (64 - k) = 2 ^ (63 - k) + 2 ^ (63 - k) := by
    rw [← two_mul, ← pow_succ']
    congr 1
    omega
  rw [hdifference, Set.ncard_sdiff hsubset (Set.toFinite _),
    ncard_fingerprintsWith_at_least hle hmin item itemMetadata k hk.le,
    ncard_fingerprintsWith_at_least hle hmin item itemMetadata (k + 1) hsucc, hexponent, hpower]
  exact Nat.add_sub_cancel _ _

/-- No value lies above the last one. -/
theorem ncard_fingerprintsWith_last (item : ByteString) (itemMetadata : ItemMetadata) (k : ℕ)
    (hk : (k : ℤ) = min 64 (maxValue.toInt - minValue.toInt)) :
    (fingerprintsWith minValue maxValue item itemMetadata (· = minValue.toInt + k)).ncard
      = 2 ^ (64 - k) := by
  rw [← ncard_fingerprintsWith_at_least hle hmin item itemMetadata k hk.le]
  congr 1
  ext fingerprint
  obtain ⟨value, zeroes, hzeroes, -, hok, hvalue⟩ := getGeometricDistribution_apply_ok hle hmin
    (fun _ => UInt64.ofNat fingerprint) item itemMetadata
  rw [mem_fingerprintsWith hok, mem_fingerprintsWith hok]
  omega

/-- **Each step halves.** -/
theorem isGeometric : IsGeometric minValue maxValue := by
  refine ⟨fun fingerprinter item itemMetadata => ?_, ncard_fingerprintsWith_at_least hle hmin,
    ncard_fingerprintsWith_step hle hmin, ncard_fingerprintsWith_last hle hmin⟩
  obtain ⟨value, zeroes, hzeroes, -, hok, hvalue⟩ :=
    getGeometricDistribution_apply_ok hle hmin fingerprinter item itemMetadata
  rw [Int64.le_iff_toInt_le] at hle
  exact ⟨value, hok, by omega, by omega⟩

end Range

/-- Bounds of both signs, and a range that is cut off. -/
theorem isGeometric_signed : IsGeometric (-3) 4 :=
  isGeometric (by decide) (by decide)

end AnySketchCorrectness
