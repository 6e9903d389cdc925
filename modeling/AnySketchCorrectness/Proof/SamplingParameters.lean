import AnySketchCorrectness.Sampling
import AnySketchCorrectness.Library.BigEndian
import AnySketchCorrectness.Proof.SampleSizes
import Mathlib.Data.UInt

/-!
# The parameters of rejection sampling

The mask and the failure rate come from `1 << bit_length` in `int`. Up to a modulus of `2 ^ 31` the
bit length is at most 31 and the mask has that many ones, the last time by way of a negative number.
Above it the shift count is the width of `int`.
-/

namespace AnySketchCorrectness

open UniformPseudorandomGenerator CounterMode BigEndian DoubleRounding

variable {modulus : UInt32}

/-! ### The bit length -/

theorem modulus_le_two_pow (modulus : UInt32) : modulus.toNat ≤ 2 ^ bitLength modulus :=
  Nat.le_pow_clog Nat.one_lt_two _

theorem two_pow_lt_modulus (hmodulus : 1 < modulus) :
    2 ^ (bitLength modulus - 1) < modulus.toNat :=
  Nat.pow_pred_clog_lt_self Nat.one_lt_two (UInt32.lt_iff_toNat_lt.mp hmodulus)

theorem bitLength_pos (hmodulus : 1 < modulus) : 0 < bitLength modulus :=
  Nat.clog_pos Nat.one_lt_two (UInt32.lt_iff_toNat_lt.mp hmodulus)

theorem bitLength_le_iff (bits : ℕ) : bitLength modulus ≤ bits ↔ modulus.toNat ≤ 2 ^ bits :=
  Nat.clog_le_iff_le_pow Nat.one_lt_two

theorem bitLength_lt_iff : bitLength modulus < 32 ↔ modulus ≤ 2 ^ 31 := by
  rw [Nat.lt_succ_iff, bitLength_le_iff, UInt32.le_iff_toNat_le]
  rfl

theorem bitLength_lt_of_le (hle : modulus ≤ 2 ^ 30) : bitLength modulus < 31 :=
  Nat.lt_succ_of_le ((bitLength_le_iff 30).mpr (UInt32.le_iff_toNat_le.mp hle))

theorem bitLength_le (modulus : UInt32) : bitLength modulus ≤ 32 :=
  (bitLength_le_iff 32).mpr modulus.toNat_lt.le

theorem bitLength_le_bytes (modulus : UInt32) : bitLength modulus ≤ 8 * bytesPerValue modulus := by
  rw [bytesPerValue]
  omega

theorem bytesPerValue_pos (hmodulus : 1 < modulus) : 0 < bytesPerValue modulus := by
  have hpos := bitLength_pos hmodulus
  rw [bytesPerValue]
  omega

theorem bytesPerValue_eq_one_iff (hmodulus : 1 < modulus) :
    bytesPerValue modulus = 1 ↔ modulus ≤ 256 := by
  have hpos := bitLength_pos hmodulus
  rw [UInt32.le_iff_toNat_le, show (256 : UInt32).toNat = 2 ^ 8 from rfl, ← bitLength_le_iff,
    bytesPerValue]
  omega

theorem bytesPerValue_le (modulus : UInt32) : bytesPerValue modulus ≤ 4 := by
  have hle := bitLength_le modulus
  rw [bytesPerValue]
  omega

/-! ### The mask -/

theorem shift_sub_one_toNat : ∀ bits < 32,
    ((1 : Int32) <<< Int32.ofNat bits - 1).toUInt32.toNat = 2 ^ bits - 1 := by
  decide

theorem mask_toNat (hbits : bitLength modulus < 32) :
    (mask modulus).toNat = 2 ^ bitLength modulus - 1 :=
  shift_sub_one_toNat (bitLength modulus) hbits

theorem ofNat_and_mask (hbits : bitLength modulus < 32) (n : ℕ) :
    UInt32.ofNat n &&& mask modulus = UInt32.ofNat (n % 2 ^ bitLength modulus) := by
  have hdvd : 2 ^ bitLength modulus ∣ 2 ^ 32 := Nat.pow_dvd_pow 2 hbits.le
  rw [← UInt32.toNat_inj, UInt32.toNat_and, mask_toNat hbits, Nat.and_two_pow_sub_one_eq_mod,
    UInt32.toNat_ofNat', UInt32.toNat_ofNat', Nat.mod_mod_of_dvd n hdvd]
  exact (Nat.mod_eq_of_lt ((Nat.mod_lt n (Nat.two_pow_pos _)).trans_le
    (Nat.pow_le_pow_right Nat.two_pos hbits.le))).symm

/-! ### Candidates -/

theorem shiftLeft_add_byte (n : ℕ) (byte : UInt8) :
    (UInt32.ofNat n <<< 8) + byte.toUInt32 = UInt32.ofNat (256 * n + byte.toNat) := by
  rw [← UInt32.toNat_inj, UInt32.toNat_add, UInt32.toNat_shiftLeft, UInt32.toNat_ofNat',
    UInt32.toNat_ofNat', UInt8.toNat_toUInt32, Nat.shiftLeft_eq]
  change (n % 2 ^ 32 * 2 ^ 8 % 2 ^ 32 + byte.toNat) % 2 ^ 32 = _
  omega

/-- A candidate inside the string is read as a big-endian number. -/
theorem readCandidate_eq {arr : ByteString} {start count : ℕ} (hin : start + count ≤ arr.length) :
    readCandidate arr start count
      = .ok (UInt32.ofNat (ofBigEndian ((arr.drop start).take count))) := by
  induction count with
  | zero => rfl
  | succ count ih =>
      have hindex : start + count < arr.length := hin
      have htake : (arr.drop start).take (count + 1)
          = (arr.drop start).take count ++ [arr[start + count]] := by
        rw [List.take_succ_eq_append_getElem (by rw [List.length_drop]; omega), List.getElem_drop]
      have ih := ih (by omega)
      rw [readCandidate] at ih ⊢
      rw [List.range_succ, List.foldlM_append, ih, htake, ofBigEndian_concat, ← shiftLeft_add_byte]
      simp only [List.foldlM_cons, List.foldlM_nil, List.getElem?_eq_getElem hindex]
      rfl

theorem readCandidate_outOfRange {arr : ByteString} {start count : ℕ}
    (hcount : 0 < count) (hstart : arr.length ≤ start) :
    readCandidate arr start count = .error .outOfRange := by
  obtain ⟨count, rfl⟩ := Nat.exists_eq_succ_of_ne_zero hcount.ne'
  have hnone : arr[start + 0]? = none := List.getElem?_eq_none hstart
  rw [readCandidate, List.range_succ_eq_map, List.foldlM_cons]
  simp only [hnone]
  rfl

theorem candidate_and_mask (hbits : bitLength modulus < 32) (chunk : ByteString) :
    UInt32.ofNat (ofBigEndian chunk) &&& mask modulus = chunkValue modulus chunk :=
  ofNat_and_mask hbits (ofBigEndian chunk)

theorem chunkValue_toNat (modulus : UInt32) (chunk : ByteString) :
    (chunkValue modulus chunk).toNat = ofBigEndian chunk % 2 ^ bitLength modulus := by
  apply UInt32.toNat_ofNat_of_lt'
  exact (Nat.mod_lt _ (Nat.two_pow_pos _)).trans_le
    (Nat.pow_le_pow_right Nat.two_pos (bitLength_le modulus))

theorem ncard_chunks (hbits : bitLength modulus < 32) {value : UInt32} (hvalue : value < modulus) :
    {chunk : ByteString | chunk.length = bytesPerValue modulus
      ∧ ∃ candidate, readCandidate chunk 0 (bytesPerValue modulus) = .ok candidate
        ∧ candidate &&& mask modulus = value}.ncard
      = 2 ^ (8 * bytesPerValue modulus - bitLength modulus) := by
  have hlt : value.toNat < 2 ^ bitLength modulus :=
    (UInt32.lt_iff_toNat_lt.mp hvalue).trans_le (modulus_le_two_pow modulus)
  rw [← ncard_ofBigEndian_mod (bitLength_le_bytes modulus) hlt]
  congr 1
  ext chunk
  refine and_congr_right fun hlength => ?_
  have hread : readCandidate chunk 0 (bytesPerValue modulus)
      = .ok (UInt32.ofNat (ofBigEndian chunk)) := by
    rw [readCandidate_eq (by omega), List.drop_zero, List.take_of_length_le hlength.le]
  rw [← chunkValue_toNat, UInt32.toNat_inj]
  constructor
  · rintro ⟨candidate, hcandidate, hmasked⟩
    rw [hread, Except.ok.injEq] at hcandidate
    rw [← hmasked, ← hcandidate, candidate_and_mask hbits]
  · intro hchunk
    exact ⟨_, hread, (candidate_and_mask hbits chunk).trans hchunk⟩

/-! ### The number of candidates -/

theorem ofInt_natCast (n : ℕ) : UInt64.ofInt (n : ℤ) = UInt64.ofNat n := by
  rw [← UInt64.toNat_inj, UInt64.ofInt, UInt64.toNat_ofNat', UInt64.toNat_ofNat']
  omega

theorem sampleSize_toNat_eq_floor {round : ℚ → ℚ} {currentSize : UInt64} {expected : ℚ}
    (hexpected : expectedSampleSize round (failureRate round modulus) currentSize.toNat = expected)
    (hnonneg : 0 ≤ expected) (hlt : expected < 2 ^ 64) :
    (sampleSize round modulus currentSize).toNat = ⌊expected⌋₊ := by
  simp only [sampleSize, hexpected, tdiv_eq_floor hnonneg, ofInt_natCast]
  apply UInt64.toNat_ofNat_of_lt'
  exact (Nat.floor_lt hnonneg).mpr (by exact_mod_cast hlt)

theorem shift_toInt : ∀ bits < 31, ((1 : Int32) <<< Int32.ofNat bits).toInt = 2 ^ bits := by
  decide

theorem shift_toUInt32_toNat : ∀ bits < 32,
    ((1 : Int32) <<< Int32.ofNat bits).toUInt32.toNat = 2 ^ bits := by
  decide

theorem failureRate_numerator (hbits : bitLength modulus < 32) :
    ((shiftedOne modulus).toUInt32 - modulus).toNat = 2 ^ bitLength modulus - modulus.toNat := by
  have hshift : (shiftedOne modulus).toUInt32.toNat = 2 ^ bitLength modulus :=
    shift_toUInt32_toNat _ hbits
  rw [UInt32.toNat_sub_of_le _ _ (UInt32.le_iff_toNat_le.mpr ?_), hshift]
  rw [hshift]
  exact modulus_le_two_pow modulus

/-- The failure rate is a fraction of at most 30 bits, which is a double. -/
theorem failureRate_eq {round : ℚ → ℚ} (hround : IsDoubleRounding round)
    (hbits : bitLength modulus < 31) :
    failureRate round modulus
      = (2 ^ bitLength modulus - modulus.toNat : ℕ) / 2 ^ bitLength modulus := by
  have hshift : (shiftedOne modulus).toInt = 2 ^ bitLength modulus := shift_toInt _ hbits
  have hpow : 2 ^ bitLength modulus ≤ 2 ^ 30 :=
    Nat.pow_le_pow_right Nat.two_pos (Nat.le_of_lt_succ hbits)
  have hexact := hround.round_div_two_pow
    (m := (2 ^ bitLength modulus - modulus.toNat : ℕ)) (k := bitLength modulus) (by
      rw [Nat.abs_cast]
      exact_mod_cast (show 2 ^ bitLength modulus - modulus.toNat ≤ 2 ^ 53 by omega)) (by omega)
  rw [Int.cast_natCast] at hexact
  rw [failureRate, failureRate_numerator (by omega), hshift]
  push_cast
  exact hexact

section Candidates

variable {round : ℚ → ℚ} (hround : IsDoubleRounding round) (hmodulus : 1 < modulus)
  (hbits : bitLength modulus < 31)
include hround hbits

theorem failureRate_nonneg : 0 ≤ failureRate round modulus := by
  rw [failureRate_eq hround hbits]
  positivity

theorem one_sub_failureRate :
    1 - failureRate round modulus = modulus.toNat / 2 ^ bitLength modulus := by
  rw [failureRate_eq hround hbits, Nat.cast_sub (modulus_le_two_pow modulus)]
  push_cast
  field_simp
  ring

include hmodulus

/-- More than half of the candidates are accepted. -/
theorem failureRate_le : failureRate round modulus ≤ 1 / 2 - 1 / 2 ^ 30 := by
  have hlt := two_pow_lt_modulus hmodulus
  have hpow : (2 : ℚ) ^ bitLength modulus = 2 * 2 ^ (bitLength modulus - 1) := by
    rw [← pow_succ', Nat.sub_add_cancel (bitLength_pos hmodulus)]
  have hhalf : (2 : ℚ) ^ (bitLength modulus - 1) + 1 ≤ modulus.toNat := by exact_mod_cast hlt
  have hsmall : (2 : ℚ) ^ (bitLength modulus - 1) ≤ 2 ^ 29 :=
    pow_le_pow_right₀ one_le_two (by omega)
  have hpositive : (0 : ℚ) < 2 ^ (bitLength modulus - 1) := by positivity
  have hcomplement := one_sub_failureRate hround hbits
  have haccepted : 1 / 2 + 1 / 2 ^ 30 ≤ (modulus.toNat : ℚ) / 2 ^ bitLength modulus := by
    rw [hpow, le_div_iff₀ (by positivity)]
    linarith
  linarith

theorem failureRate_le_half : failureRate round modulus ≤ 1 / 2 := by
  have hle := failureRate_le hround hmodulus hbits
  have hpositive : (0 : ℚ) ≤ 1 / 2 ^ 30 := by positivity
  linarith

theorem candidates_mono {missing missing' : ℕ} (hle : missing ≤ missing') :
    candidates round modulus missing ≤ candidates round modulus missing' :=
  Nat.floor_mono (expectedSampleSize_mono hround (failureRate_nonneg hround hbits)
    (failureRate_le_half hround hmodulus hbits) (Nat.cast_le.mpr hle))

/-- A pass asks for more candidates than it needs values, if their number is exact as a double. -/
theorem lt_candidates {missing : ℕ} (hmissing : missing < 2 ^ 53) :
    missing < candidates round modulus missing := by
  apply Nat.le_floor
  push_cast
  exact add_one_le_expectedSampleSize hround (failureRate_nonneg hround hbits)
    (failureRate_le_half hround hmodulus hbits) hmissing

theorem candidates_pos (missing : ℕ) : 0 < candidates round modulus missing :=
  (lt_candidates hround hmodulus hbits (Nat.two_pow_pos 53)).trans_le
    (candidates_mono hround hmodulus hbits (Nat.zero_le missing))

theorem candidates_le {missing : ℕ} (hmissing : missing < 2 ^ 52) :
    candidates round modulus missing ≤ 2 * missing + 1 := by
  apply Nat.floor_le_of_le
  push_cast
  exact expectedSampleSize_le_two_mul hround (failureRate_le_half hround hmodulus hbits) hmissing

theorem lt_candidates_add {missing : ℕ} (hmissing : missing < 2 ^ 61) :
    missing < candidates round modulus missing + 2 ^ 9 := by
  have hsurplus := expectedSurplus_nonneg hround (failureRate_nonneg hround hbits)
    (failureRate_le_half hround hmodulus hbits) (Nat.cast_nonneg missing)
  have hle := multiple_le_expectedSampleSize hround hmissing (Nat.zero_le (2 ^ 52))
    (by rwa [Nat.cast_zero, mul_zero])
  have hfloor : 2 ^ 9 * (missing / 2 ^ 9 + 0) ≤ candidates round modulus missing :=
    Nat.le_floor (by exact_mod_cast hle)
  omega

theorem expectedSampleSize_lt {missing : ℕ} (hmissing : missing < 2 ^ 61) :
    expectedSampleSize round (failureRate round modulus) missing < 2 ^ 62 := by
  have hsucc := round_succ_le hround hmissing
  have hexact := hround.round_mul_two_pow (m := 2 ^ 31 - 1) (k := 31) (by decide) (by decide)
  have hsurplus : expectedSurplus round (failureRate round modulus) missing
      ≤ 2 * (2 ^ 60 - 2 ^ 31) := by
    apply expectedSurplus_le hround (failureRate_le_half hround hmodulus hbits)
    · calc failureRate round modulus * round missing
          ≤ (1 / 2 - 1 / 2 ^ 30) * 2 ^ 61 :=
            mul_le_mul (failureRate_le hround hmodulus hbits) (round_le_two_pow hround hmissing)
              (hround.nonneg (Nat.cast_nonneg _)) (by norm_num)
        _ = 2 ^ 60 - 2 ^ 31 := by norm_num
    · have hbound := hround.round_mul_two_pow (m := 2 ^ 29 - 1) (k := 31) (by decide) (by decide)
      norm_num at hbound ⊢
      exact hbound
    · have hbound := hround.round_mul_two_pow (m := 2 ^ 29 - 1) (k := 32) (by decide) (by decide)
      norm_num at hbound ⊢
      exact hbound
    · norm_num
  rw [expectedSampleSize_eq]
  calc round (round (round missing + 1) + expectedSurplus round (failureRate round modulus) missing)
      ≤ round (((2 ^ 31 - 1 : ℤ) : ℚ) * 2 ^ 31) := hround.mono (by push_cast; linarith)
    _ < 2 ^ 62 := by
        rw [hexact]
        norm_num

theorem candidates_lt {missing : ℕ} (hmissing : missing < 2 ^ 61) :
    candidates round modulus missing < 2 ^ 62 := by
  have hlt := expectedSampleSize_lt hround hmodulus hbits hmissing
  exact Nat.floor_lt' (by decide) |>.mpr (by exact_mod_cast hlt)

/-- The conversion to `uint64_t` takes the number of candidates as it is. -/
theorem sampleSize_toNat {currentSize : UInt64} (hsize : currentSize.toNat < 2 ^ 61) :
    (sampleSize round modulus currentSize).toNat = candidates round modulus currentSize.toNat := by
  have hnonneg : 0 ≤ expectedSampleSize round (failureRate round modulus) currentSize.toNat := by
    have hmono := expectedSampleSize_mono hround (failureRate_nonneg hround hbits)
      (failureRate_le_half hround hmodulus hbits) (Nat.cast_nonneg currentSize.toNat)
    have hzero := add_one_le_expectedSampleSize hround (failureRate_nonneg hround hbits)
      (failureRate_le_half hround hmodulus hbits) (Nat.two_pow_pos 53)
    rw [Nat.cast_zero] at hzero
    linarith
  have hlt := expectedSampleSize_lt hround hmodulus hbits hsize
  exact sampleSize_toNat_eq_floor rfl hnonneg (hlt.trans (by norm_num))

end Candidates

-- the exact sum is a little less, and is rounded up
example : sampleSize roundToDouble 536871125 8821826 = 17643646 := by decide +kernel

theorem toNatClampNeg_lt {size : Int64} (hsmall : size < 2 ^ 61) :
    size.toNatClampNeg < 2 ^ 61 := by
  have htoInt : (2 ^ 61 : Int64).toInt = 2 ^ 61 := by decide +kernel
  rw [Int64.lt_iff_toInt_lt, htoInt] at hsmall
  rw [Int64.toNatClampNeg]
  omega

/-- Between `2 ^ 30` and `2 ^ 31`, the failure rate is negative: `1 << 31` is the least `int`. -/
theorem failureRate_id_eq (hbits : bitLength modulus = 31) :
    failureRate id modulus = (modulus.toNat - 2 ^ 31) / 2 ^ 31 := by
  have hle : modulus.toNat ≤ 2 ^ 31 := hbits ▸ modulus_le_two_pow modulus
  have hnumerator := failureRate_numerator (show bitLength modulus < 32 by omega)
  have hshift : (shiftedOne modulus).toInt = -2 ^ 31 := by
    rw [shiftedOne, hbits]
    decide
  rw [hbits] at hnumerator
  rw [failureRate, hnumerator, hshift, Nat.cast_sub hle]
  push_cast
  simp only [id]
  ring

theorem one_le_sampleSize_of_bitLength_eq (hbits : bitLength modulus = 31) {currentSize : UInt64}
    (hsize : currentSize.toNat < 2 ^ 61) : 1 ≤ (sampleSize id modulus currentSize).toNat := by
  have hle : (modulus.toNat : ℚ) ≤ 2 ^ 31 := by
    exact_mod_cast hbits ▸ modulus_le_two_pow modulus
  have hnonneg : (0 : ℚ) ≤ modulus.toNat := Nat.cast_nonneg _
  have hcurrent : (0 : ℚ) ≤ currentSize.toNat := Nat.cast_nonneg _
  have hrate : failureRate id modulus ≤ 0 := by
    rw [failureRate_id_eq hbits]
    exact div_nonpos_of_nonpos_of_nonneg (by linarith) (by positivity)
  have hcomplement : (0 : ℚ) < 1 - failureRate id modulus := by linarith
  have hexpected : expectedSampleSize id (failureRate id modulus) currentSize.toNat
      = 1 + currentSize.toNat / (1 - failureRate id modulus) := by
    simp only [expectedSampleSize, id]
    field_simp
    ring
  have hquotient : currentSize.toNat / (1 - failureRate id modulus) ≤ currentSize.toNat := by
    rw [div_le_iff₀ hcomplement]
    nlinarith only [hcurrent, hrate]
  have hpositive : 0 ≤ currentSize.toNat / (1 - failureRate id modulus) :=
    div_nonneg hcurrent hcomplement.le
  have hbound : (currentSize.toNat : ℚ) < 2 ^ 61 := by exact_mod_cast hsize
  rw [sampleSize_toNat_eq_floor hexpected (by linarith) (by linarith)]
  exact Nat.le_floor (by push_cast; linarith)

theorem one_le_sampleSize (hmodulus : 1 < modulus) (hbits : bitLength modulus < 32)
    {currentSize : UInt64} (hsize : currentSize.toNat < 2 ^ 61) :
    1 ≤ (sampleSize id modulus currentSize).toNat := by
  rcases Nat.lt_or_eq_of_le (Nat.le_of_lt_succ hbits) with hsmall | hlarge
  · rw [sampleSize_toNat isDoubleRounding_id hmodulus hsmall hsize]
    exact candidates_pos isDoubleRounding_id hmodulus hsmall _
  · exact one_le_sampleSize_of_bitLength_eq hlarge hsize

/-- **When the parameters are sound.** For every modulus and size that are accepted, exactly if the
modulus is at most `2 ^ 31`. -/
theorem soundParameters_iff (hmodulus : 1 < modulus) (size : Int64) :
    SoundParameters modulus size ↔ modulus ≤ 2 ^ 31 := by
  rw [← bitLength_lt_iff]
  refine ⟨SoundParameters.shift_lt, fun hbits => ?_⟩
  refine ⟨hbits, mask_toNat hbits, two_pow_lt_modulus hmodulus, modulus_le_two_pow modulus,
    fun value hvalue => ncard_chunks hbits hvalue, fun hsmall currentSize _ hle => ?_⟩
  exact one_le_sampleSize hmodulus hbits (hle.trans_lt (toNatClampNeg_lt hsmall))

theorem soundParameters_mersenne : SoundParameters 2147483647 1000 :=
  (soundParameters_iff (by decide) 1000).mpr (by decide +kernel)

/-- For `2 ^ 32 - 1` the mask is `0`, so that every candidate is `0`, and a pass for one value asks
for no bytes at all. -/
theorem not_soundParameters :
    mask 4294967295 = 0 ∧ sampleSize id 4294967295 1 = 0 ∧ ¬ SoundParameters 4294967295 1 := by
  refine ⟨by decide +kernel, by decide +kernel, fun hsound => ?_⟩
  have hmodulus := bitLength_lt_iff.mp hsound.shift_lt
  revert hmodulus
  decide +kernel

end AnySketchCorrectness
