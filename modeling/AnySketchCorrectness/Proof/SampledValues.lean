import AnySketchCorrectness.Proof.UniformSampling

/-!
# The values that are sampled

Every pass continues where the one before it stopped, in the keystream and in the values accepted
from it, so a completed call returns the first values accepted. A batch that ends with zeros breaks
this for some keystream: zeros are accepted whatever comes next.
-/

namespace AnySketchCorrectness

open UniformPseudorandomGenerator CounterMode BigEndian DoubleRounding

variable {round : ℚ → ℚ} {modulus : UInt32} {stream : Stream' UInt8}

/-! ### The accepted values of a stream -/

theorem acceptedValues_take_add (modulus : UInt32) (stream : Stream' UInt8) (count count' : ℕ) :
    acceptedValues modulus (stream.take (bytesPerValue modulus * (count + count')))
      = acceptedValues modulus (stream.take (bytesPerValue modulus * count))
        ++ acceptedValues modulus ((stream.drop (bytesPerValue modulus * count)).take
          (bytesPerValue modulus * count')) := by
  rw [Nat.mul_add, take_add, acceptedValues_append]
  rw [Stream'.length_take]
  exact Nat.dvd_mul_right _ _

theorem acceptedValues_take_isPrefix (modulus : UInt32) (stream : Stream' UInt8) {count count' : ℕ}
    (hle : count ≤ count') :
    acceptedValues modulus (stream.take (bytesPerValue modulus * count))
      <+: acceptedValues modulus (stream.take (bytesPerValue modulus * count')) := by
  obtain ⟨rest, rfl⟩ := Nat.exists_eq_add_of_le hle
  rw [acceptedValues_take_add]
  exact List.prefix_append _ _

theorem IsFirstAccepted.isPrefix {size size' : ℕ} {values values' : List UInt32}
    (hfirst : IsFirstAccepted modulus stream size values)
    (hfirst' : IsFirstAccepted modulus stream size' values') (hle : size' ≤ size) :
    values' <+: values := by
  obtain ⟨hlength, count, hvalues⟩ := hfirst
  obtain ⟨hlength', count', hvalues'⟩ := hfirst'
  have hcommon : values
      <+: acceptedValues modulus (stream.take (bytesPerValue modulus * max count count')) := by
    rw [hvalues]
    exact (List.take_prefix _ _).trans
      (acceptedValues_take_isPrefix modulus stream (le_max_left count count'))
  have hcommon' : values'
      <+: acceptedValues modulus (stream.take (bytesPerValue modulus * max count count')) := by
    rw [hvalues']
    exact (List.take_prefix _ _).trans
      (acceptedValues_take_isPrefix modulus stream (le_max_right count count'))
  exact List.prefix_of_prefix_length_le hcommon' hcommon (by rw [hlength, hlength']; exact hle)

/-! ### Batches that survive -/

section Survives

variable {Ctx : Type} {evp : EvpCipher Ctx} {aes256 : ByteString → AesBlock → AesBlock}
  {remaining : Ctx → Stream' UInt8} {size fuel consumed : ℕ} {ret values : List UInt32}

theorem isFirstAccepted_of_full (hfull : size ≤ ret.length)
    (hret : ret = (acceptedValues modulus
      (stream.take (bytesPerValue modulus * consumed))).take size) :
    IsFirstAccepted modulus stream size ret := by
  have hle : ret.length ≤ size := by
    rw [hret]
    exact List.length_take_le _ _
  exact ⟨hle.antisymm hfull, consumed, hret⟩

/-- One pass moves both ahead by the same chunks. -/
theorem take_append_acceptedValues (hshort : ret.length < size)
    (hret : ret = (acceptedValues modulus
      (stream.take (bytesPerValue modulus * consumed))).take size) (count : ℕ) :
    (ret ++ acceptedValues modulus ((stream.drop (bytesPerValue modulus * consumed)).take
        (bytesPerValue modulus * count))).take size
      = (acceptedValues modulus
          (stream.take (bytesPerValue modulus * (consumed + count)))).take size := by
  have hall : (acceptedValues modulus
      (stream.take (bytesPerValue modulus * consumed))).length ≤ size := by
    rw [hret, List.length_take] at hshort
    omega
  rw [List.take_of_length_le hall] at hret
  rw [acceptedValues_take_add, ← hret]

/-- **The passes follow the keystream.** The values so far are those accepted from the part of the
keystream that is used up. -/
theorem sampleUntil_isFirstAccepted (hround : IsDoubleRounding round)
    (hevp : evp.IsAes256Ctr aes256 remaining) (hmodulus : 1 < modulus)
    (hbits : bitLength modulus < 31) (hsize : size < 2 ^ 61)
    (hsurvives : batchLength round modulus size < 2 ^ 32)
    (hret : ret = (acceptedValues modulus
      (stream.take (bytesPerValue modulus * consumed))).take size)
    {ctx ctx' : Ctx} (hremaining : remaining ctx = stream.drop (bytesPerValue modulus * consumed))
    (hrun : (sampleUntil round evp modulus size fuel ret).run ctx = .ok values ctx') :
    IsFirstAccepted modulus stream size values := by
  induction fuel using Nat.strong_induction_on generalizing ret consumed ctx with
  | _ fuel ih =>
      rcases run_sampleUntil_cases hround hevp hmodulus hbits hsize fuel ret ctx with
        ⟨hfull, hdone⟩ | ⟨-, -, e, ctx₁, -, hfailed⟩
          | ⟨hshort, -, fuel, ctx₁, rfl, hremaining₁, hpass⟩
      · rw [hdone] at hrun
        cases hrun
        exact isFirstAccepted_of_full hfull hret
      · rw [hfailed] at hrun
        cases hrun
      · have hlength : batchLength round modulus (size - ret.length) < 2 ^ 32 :=
          (batchLength_mono hround hmodulus hbits (Nat.sub_le _ _)).trans_lt hsurvives
        rw [Nat.mod_eq_of_lt hlength, hremaining, Stream'.drop_drop, batchLength,
          ← Nat.mul_add] at hremaining₁
        rw [hpass] at hrun
        rcases rejectionSample_cases hmodulus (by omega) hshort.le (dvd_length_answerTo _ _ _ _)
          (length_answerTo_pos hround hmodulus hbits (remaining ctx) (size - ret.length)) with
          ⟨-, hsample⟩ | ⟨-, -, hsample⟩
        · rw [hsample, answerTo_of_lt _ hlength, hremaining, batchLength,
            take_append_acceptedValues hshort hret] at hrun
          exact ih fuel (Nat.lt_succ_self fuel) rfl hremaining₁ hrun
        · rw [hsample] at hrun
          cases hrun

/-- What a completed call says about its first pass. -/
theorem sampleUntil_nil_ok (hround : IsDoubleRounding round)
    (hevp : evp.IsAes256Ctr aes256 remaining) (hmodulus : 1 < modulus)
    (hbits : bitLength modulus < 31) (hsize : size < 2 ^ 61) (hpositive : 0 < size)
    {ctx ctx' : Ctx}
    (hrun : (sampleUntil round evp modulus size fuel []).run ctx = .ok values ctx') :
    ¬ IsRefused (batchLength round modulus size)
      ∧ (bytesPerValue modulus = 1 ∨ size ≤ candidates round modulus size) := by
  rcases run_sampleUntil_cases hround hevp hmodulus hbits hsize fuel [] ctx with
    ⟨hfull, -⟩ | ⟨-, -, e, ctx₁, -, hfailed⟩ | ⟨-, hanswered, fuel, ctx₁, rfl, -, hpass⟩
  · exact absurd hpositive (Nat.not_lt.mpr hfull)
  · rw [hfailed] at hrun
    cases hrun
  · refine ⟨hanswered, ?_⟩
    have hnone : ([] : List UInt32).length ≤ size := Nat.zero_le size
    rcases rejectionSample_cases hmodulus (by omega) hnone
      (dvd_length_answerTo _ _ _ _)
      (length_answerTo_pos hround hmodulus hbits (remaining ctx) size) with
      ⟨henough, -⟩ | ⟨-, -, hsample⟩
    · refine henough.imp_right fun hle => hle.trans ?_
      calc ([] ++ acceptedValues modulus
            (answerTo (remaining ctx) (batchLength round modulus size))).length
          ≤ (answerTo (remaining ctx) (batchLength round modulus size)).length
              / bytesPerValue modulus := length_acceptedValues_le modulus _
        _ = candidates round modulus size := by
            rw [length_answerTo, batchLength,
              Nat.mul_div_cancel_left _ (bytesPerValue_pos hmodulus)]
    · rw [List.length_nil, Nat.sub_zero, hsample] at hpass
      rw [hpass] at hrun
      cases hrun

theorem run_generateUniformRandomRange_ok {size : Int64} {ctx ctx' : Ctx}
    (hrun : (generateUniformRandomRange round evp fuel size modulus).run ctx = .ok values ctx') :
    0 ≤ size ∧ size < 2 ^ 61
      ∧ (sampleUntil round evp modulus size.toNatClampNeg fuel []).run ctx = .ok values ctx' := by
  unfold generateUniformRandomRange at hrun
  exact (run_checks_ok hrun).2

theorem isFirstAccepted_of_run (hround : IsDoubleRounding round)
    (hevp : evp.IsAes256Ctr aes256 remaining) (hmodulus : 1 < modulus)
    (hbits : bitLength modulus < 31) {size : Int64}
    (hlength : batchLength round modulus size.toNatClampNeg < 2 ^ 32) {ctx ctx' : Ctx}
    (hrun : (generateUniformRandomRange round evp fuel size modulus).run ctx = .ok values ctx') :
    IsFirstAccepted modulus (remaining ctx) size.toNatClampNeg values := by
  obtain ⟨-, hsmall, hloop⟩ := run_generateUniformRandomRange_ok hrun
  have hnone : ([] : List UInt32) = (acceptedValues modulus
      ((remaining ctx).take (bytesPerValue modulus * 0))).take size.toNatClampNeg := by
    rw [Nat.mul_zero, Stream'.take_zero, acceptedValues_nil, List.take_nil]
  exact sampleUntil_isFirstAccepted hround hevp hmodulus hbits (toNatClampNeg_lt hsmall) hlength
    hnone (by rw [Nat.mul_zero]; rfl) hloop

theorem toNatClampNeg_le {size size' : Int64} (hle : size ≤ size') :
    size.toNatClampNeg ≤ size'.toNatClampNeg := by
  rw [Int64.le_iff_toInt_le] at hle
  exact Int.toNat_le_toNat hle

theorem samplesKeystream_of_survives (hround : IsDoubleRounding round) (hmodulus : 1 < modulus)
    (hle : modulus ≤ 2 ^ 30) {size : Int64} (hsurvives : FirstBatchSurvives round modulus size) :
    SamplesKeystream round modulus size := by
  intro Ctx evp aes256 remaining hevp ctx ctx' fuel values hrun
  have hbits := bitLength_lt_of_le hle
  obtain ⟨hsize, hsmall, hloop⟩ := run_generateUniformRandomRange_ok hrun
  have hlength : batchLength round modulus size.toNatClampNeg < 2 ^ 32 := by
    by_cases hzero : size = 0
    · calc batchLength round modulus size.toNatClampNeg
          ≤ 4 * candidates round modulus size.toNatClampNeg :=
            Nat.mul_le_mul_right _ (bytesPerValue_le modulus)
        _ < 2 ^ 32 := by
            have hcandidates := candidates_le hround hmodulus hbits (Nat.two_pow_pos 52)
            rw [hzero, show (0 : Int64).toNatClampNeg = 0 from rfl]
            omega
    · obtain ⟨hanswered, henough⟩ := sampleUntil_nil_ok hround hevp hmodulus hbits
        (toNatClampNeg_lt hsmall) ((toNatClampNeg_pos_iff hsize).mpr hzero) hloop
      rcases hsurvives with hlarge | hfits | hrefused | ⟨hbytes, hshort⟩
      · exact absurd hlarge (Int64.not_le.mpr hsmall)
      · exact hfits
      · exact absurd hrefused hanswered
      · exact absurd hshort (Nat.not_lt.mpr (henough.resolve_left hbytes))
  have hfirst := isFirstAccepted_of_run hround hevp hmodulus hbits hlength hrun
  refine ⟨hfirst, fun smallerSize smallerFuel smallerValues smallerCtx' hsmaller hsmallerRun => ?_⟩
  have hclamped := toNatClampNeg_le hsmaller
  have hsmallerFirst := isFirstAccepted_of_run hround hevp hmodulus hbits
    ((batchLength_mono hround hmodulus hbits hclamped).trans_lt hlength) hsmallerRun
  exact hfirst.isPrefix hsmallerFirst hclamped

end Survives

/-! ### Batches that end with zeros -/

theorem ofBigEndian_replicate_zero (count : ℕ) : ofBigEndian (List.replicate count 0) = 0 := by
  induction count with
  | zero => rfl
  | succ count ih =>
      rw [List.replicate_succ', ofBigEndian_concat, ih]
      rfl

theorem acceptedValues_zeros (hmodulus : 1 < modulus) (count : ℕ) :
    acceptedValues modulus (List.replicate (bytesPerValue modulus * count) 0)
      = List.replicate count 0 := by
  induction count with
  | zero => exact acceptedValues_nil modulus
  | succ count ih =>
      have hzero : chunkValue modulus (List.replicate (bytesPerValue modulus) 0) = 0 := by
        rw [chunkValue, ofBigEndian_replicate_zero, Nat.zero_mod]
        rfl
      have haccepted : (0 : UInt32) < modulus := UInt32.lt_trans (by decide) hmodulus
      rw [Nat.mul_succ, List.replicate_add, acceptedValues_append, ih,
        acceptedValues_chunk hmodulus List.length_replicate, hzero, if_pos haccepted,
        ← List.replicate_succ']
      rw [List.length_replicate]
      exact Nat.dvd_mul_right _ _

/-- Zeros, but for a one just before the position. -/
def lateOne (position : ℕ) : Stream' UInt8 :=
  fun i => if i + 1 = position then 1 else 0

theorem take_lateOne {n position : ℕ} (hlt : n < position) :
    (lateOne position).take n = List.replicate n 0 := by
  induction n with
  | zero => rfl
  | succ n ih =>
      have hzero : (lateOne position).get n = 0 := if_neg hlt.ne
      rw [Stream'.take_succ', ih (Nat.lt_of_succ_lt hlt), hzero, ← List.replicate_succ']

theorem take_lateOne_self (n : ℕ) :
    (lateOne (n + 1)).take (n + 1) = List.replicate n 0 ++ [1] := by
  have hone : (lateOne (n + 1)).get n = 1 := if_pos rfl
  rw [Stream'.take_succ', take_lateOne (Nat.lt_succ_self n), hone]

theorem drop_lateOne (n position : ℕ) :
    (lateOne (n + position)).drop n = lateOne position := by
  funext i
  have hposition : i + n + 1 = n + position ↔ i + 1 = position := by omega
  exact if_congr hposition rfl rfl

theorem acceptedValues_lateOne (hmodulus : 1 < modulus) (n : ℕ) :
    acceptedValues modulus ((lateOne (bytesPerValue modulus * (n + 1))).take
        (bytesPerValue modulus * (n + 1)))
      = List.replicate n 0 ++ [1] := by
  have hfront : bytesPerValue modulus * n < bytesPerValue modulus * (n + 1) :=
    Nat.mul_lt_mul_of_pos_left (Nat.lt_succ_self n) (bytesPerValue_pos hmodulus)
  rw [acceptedValues_take_add, take_lateOne hfront, acceptedValues_zeros hmodulus,
    Nat.mul_one, Nat.mul_add_one, drop_lateOne]
  obtain ⟨last, hlast⟩ := Nat.exists_eq_add_of_lt (bytesPerValue_pos hmodulus)
  have hchunk : chunkValue modulus (List.replicate last 0 ++ [1]) = 1 := by
    have hbits : 1 < 2 ^ bitLength modulus := Nat.one_lt_two_pow (bitLength_pos hmodulus).ne'
    rw [chunkValue, ofBigEndian_concat, ofBigEndian_replicate_zero]
    change UInt32.ofNat (1 % _) = 1
    rw [Nat.mod_eq_of_lt hbits]
    rfl
  rw [hlast, Nat.zero_add, take_lateOne_self, acceptedValues_chunk hmodulus, hchunk,
    if_pos hmodulus]
  rw [List.length_append, List.length_replicate, List.length_singleton, hlast, Nat.zero_add]

section Zeros

variable {Ctx : Type} {evp : EvpCipher Ctx} {aes256 : ByteString → AesBlock → AesBlock}
  {remaining : Ctx → Stream' UInt8} {size : ℕ}

/-- A batch of zeros is accepted as it is. -/
theorem run_sampleUntil_zeros_pass (hround : IsDoubleRounding round)
    (hevp : evp.IsAes256Ctr aes256 remaining) (hmodulus : 1 < modulus)
    (hbits : bitLength modulus < 31) (hsize : size < 2 ^ 61) {k : ℕ} (hk : k < size)
    (hanswered : ¬ IsRefused (batchLength round modulus (size - k)))
    (henough : bytesPerValue modulus = 1 ∨ size ≤ k + candidates round modulus (size - k))
    {ctx : Ctx} (hzeros : answerTo (remaining ctx) (batchLength round modulus (size - k))
      = List.replicate (batchLength round modulus (size - k)) 0) (fuel : ℕ) :
    ∃ ctx', remaining ctx'
        = (remaining ctx).drop (batchLength round modulus (size - k) % 2 ^ 32)
      ∧ (sampleUntil round evp modulus size (fuel + 1) (List.replicate k 0)).run ctx
        = (sampleUntil round evp modulus size fuel
            (List.replicate (min size (k + candidates round modulus (size - k))) 0)).run ctx' := by
  have haccepted : acceptedValues modulus
      (List.replicate (batchLength round modulus (size - k)) 0)
      = List.replicate (candidates round modulus (size - k)) 0 :=
    acceptedValues_zeros hmodulus _
  have hshort : (List.replicate k (0 : UInt32)).length < size := by rwa [List.length_replicate]
  obtain ⟨ctx', hremaining, hpass⟩ := run_sampleUntil_pass hround hevp hmodulus hbits hsize hshort
    (by rwa [List.length_replicate]) fuel ctx
  rw [List.length_replicate] at hremaining hpass
  refine ⟨ctx', hremaining, ?_⟩
  rw [hpass, hzeros, rejectionSample_ok hmodulus (by omega)
    (by rw [List.length_replicate]; exact hk.le)
    (by rw [List.length_replicate]; exact Nat.dvd_mul_right _ _), haccepted,
    ← List.replicate_add, List.take_replicate]
  rwa [haccepted, ← List.replicate_add, List.length_replicate]

theorem run_sampleUntil_zeros (hround : IsDoubleRounding round)
    (hevp : evp.IsAes256Ctr aes256 remaining) (hmodulus : 1 < modulus)
    (hbits : bitLength modulus < 31) (hsize : size < 2 ^ 61) (hpositive : 0 < size)
    (hanswered : ¬ IsRefused (batchLength round modulus size))
    (henough : size ≤ candidates round modulus size) {ctx : Ctx}
    (hzeros : answerTo (remaining ctx) (batchLength round modulus size)
      = List.replicate (batchLength round modulus size) 0) :
    ∃ ctx', (sampleUntil round evp modulus size 1 []).run ctx
      = .ok (List.replicate size 0) ctx' := by
  obtain ⟨ctx', -, hpass⟩ := run_sampleUntil_zeros_pass hround hevp hmodulus hbits hsize
    hpositive hanswered (Or.inr (by rwa [Nat.sub_zero, Nat.zero_add])) hzeros 0
  rw [Nat.sub_zero, Nat.zero_add (candidates round modulus size), Nat.min_eq_left henough] at hpass
  refine ⟨ctx', hpass.trans (run_sampleUntil_full ?_ 0 ctx')⟩
  rw [List.length_replicate]

/-- If a candidate is one byte, the batch can be too short, by fewer than `2 ^ 9` values. These are
sampled in another pass. -/
theorem run_sampleUntil_lateOne (hround : IsDoubleRounding round)
    (hevp : evp.IsAes256Ctr aes256 remaining) (hmodulus : 1 < modulus)
    (hbits : bitLength modulus < 31) (hsize : size < 2 ^ 61) (hbyte : bytesPerValue modulus = 1)
    (hlong : 2 ^ 32 ≤ batchLength round modulus size)
    (hanswered : ¬ IsRefused (batchLength round modulus size))
    (hfew : candidates round modulus size < size) {ctx : Ctx}
    (hlate : remaining ctx = lateOne size)
    (hzeros : answerTo (remaining ctx) (batchLength round modulus size)
      = List.replicate (batchLength round modulus size) 0) :
    ∃ ctx', (sampleUntil round evp modulus size 2 []).run ctx
      = .ok (List.replicate size 0) ctx' := by
  have hmissing := lt_candidates_add hround hmodulus hbits hsize
  have hbatch (missing : ℕ) :
      batchLength round modulus missing = candidates round modulus missing := by
    rw [batchLength, hbyte, Nat.one_mul]
  obtain ⟨ctx₁, hremaining₁, hpass₁⟩ := run_sampleUntil_zeros_pass hround hevp hmodulus hbits
    hsize (Nat.zero_lt_of_lt hfew) hanswered (Or.inl hbyte) hzeros 1
  rw [Nat.sub_zero, Nat.zero_add (candidates round modulus size), Nat.min_eq_right hfew.le]
    at hpass₁
  rw [IsRefused, hbatch] at hanswered
  rw [hbatch] at hlong
  rw [hlate, Nat.sub_zero, hbatch] at hremaining₁
  -- what is left of the keystream begins with more zeros than the second pass reads
  set used := candidates round modulus size % 2 ^ 32
  obtain ⟨rest, hrest⟩ := Nat.exists_eq_add_of_le (show used ≤ size by omega)
  obtain ⟨missing, heq⟩ : ∃ missing, missing = size - candidates round modulus size := ⟨_, rfl⟩
  have hsecond := candidates_le hround hmodulus hbits (show missing < 2 ^ 52 by omega)
  have henough := lt_candidates hround hmodulus hbits (show missing < 2 ^ 53 by omega)
  have hzeros₁ : answerTo (remaining ctx₁) (batchLength round modulus missing)
      = List.replicate (batchLength round modulus missing) 0 := by
    rw [answerTo_of_lt _ (by rw [hbatch]; omega), hremaining₁, hrest, drop_lateOne,
      take_lateOne (by rw [hbatch]; omega)]
  obtain ⟨ctx₂, -, hpass₂⟩ := run_sampleUntil_zeros_pass hround hevp hmodulus hbits hsize hfew
    (by rw [IsRefused, hbatch, ← heq]; omega) (Or.inl hbyte) (by rwa [← heq]) 0
  rw [← heq, Nat.min_eq_left (by omega)] at hpass₂
  refine ⟨ctx₂, hpass₁.trans (hpass₂.trans (run_sampleUntil_full ?_ 0 ctx₂))⟩
  rw [List.length_replicate]

end Zeros

/-- The part of the batch that is read from the keystream is shorter than what has to be read. -/
theorem batchLength_mod_lt (hround : IsDoubleRounding round) (hmodulus : 1 < modulus)
    (hbits : bitLength modulus < 31) {missing : ℕ}
    (hlong : 2 ^ 32 ≤ batchLength round modulus missing)
    (hanswered : ¬ IsRefused (batchLength round modulus missing)) :
    batchLength round modulus missing % 2 ^ 32 < bytesPerValue modulus * missing := by
  have hpositive := bytesPerValue_pos hmodulus
  have hbytes := bytesPerValue_le modulus
  have hle : missing ≤ bytesPerValue modulus * missing := Nat.le_mul_of_pos_left _ hpositive
  rw [IsRefused] at hanswered
  rcases Nat.lt_or_ge missing (2 ^ 31) with hsmall | hlarge
  · have hbound : batchLength round modulus missing
        ≤ 2 * (bytesPerValue modulus * missing) + bytesPerValue modulus := by
      calc batchLength round modulus missing ≤ bytesPerValue modulus * (2 * missing + 1) :=
            Nat.mul_le_mul_left _ (candidates_le hround hmodulus hbits (by omega))
        _ = 2 * (bytesPerValue modulus * missing) + bytesPerValue modulus := by ring
    omega
  · omega

/-- The batches are all zeros, but the last of the values that should be accepted is a one. -/
theorem not_samplesKeystream_of_not_survives (hround : IsDoubleRounding round)
    (hmodulus : 1 < modulus) (hle : modulus ≤ 2 ^ 30) {size : Int64} (hsize : 0 ≤ size)
    (hsurvives : ¬ FirstBatchSurvives round modulus size) :
    ¬ SamplesKeystream round modulus size := by
  intro hsamples
  rw [FirstBatchSurvives, not_or, not_or, not_or, not_and_or, not_not, Int64.not_le, Nat.not_lt,
    Nat.not_lt] at hsurvives
  obtain ⟨hsmall, hlong, hanswered, henough⟩ := hsurvives
  have hbits := bitLength_lt_of_le hle
  have hbound := toNatClampNeg_lt hsmall
  have hshort := batchLength_mod_lt hround hmodulus hbits hlong hanswered
  obtain ⟨n, hn⟩ : ∃ n, size.toNatClampNeg = n + 1 := by
    refine Nat.exists_eq_succ_of_ne_zero fun hzero => ?_
    rw [hzero, Nat.mul_zero] at hshort
    exact Nat.not_lt_zero _ hshort
  set stream := lateOne (bytesPerValue modulus * size.toNatClampNeg) with hstream
  have hzeros : answerTo stream (batchLength round modulus size.toNatClampNeg)
      = List.replicate (batchLength round modulus size.toNatClampNeg) 0 := by
    rw [answerTo, take_lateOne hshort, ← List.replicate_add, Nat.add_sub_of_le (Nat.mod_le _ _)]
  obtain ⟨fuel, ctx', hrun⟩ : ∃ fuel ctx',
      (sampleUntil round (ctrEvp testAes256) modulus size.toNatClampNeg fuel []).run stream
        = .ok (List.replicate size.toNatClampNeg 0) ctx' := by
    rcases Nat.lt_or_ge (candidates round modulus size.toNatClampNeg) size.toNatClampNeg with
      hfew | hmany
    · have hbyte := henough.resolve_right (Nat.not_le.mpr hfew)
      exact ⟨2, run_sampleUntil_lateOne hround testEvp_isAes256Ctr hmodulus hbits hbound hbyte
        hlong hanswered hfew (by rw [hstream, hbyte, Nat.one_mul]; rfl) hzeros⟩
    · exact ⟨1, run_sampleUntil_zeros hround testEvp_isAes256Ctr hmodulus hbits hbound (by omega)
        hanswered hmany hzeros⟩
  rw [← generateUniformRandomRange_eq hmodulus hsize hsmall] at hrun
  have hfirst := (hsamples _ _ _ _ testEvp_isAes256Ctr _ _ _ _ hrun).1
  have hlate : IsFirstAccepted modulus stream size.toNatClampNeg (List.replicate n 0 ++ [1]) := by
    refine ⟨?_, n + 1, ?_⟩
    · rw [List.length_append, List.length_replicate, List.length_singleton, hn]
    · rw [hstream, hn, acceptedValues_lateOne hmodulus, List.take_of_length_le]
      rw [List.length_append, List.length_replicate, List.length_singleton]
  have hone : (1 : UInt32) ∈ List.replicate size.toNatClampNeg 0 :=
    (hfirst.isPrefix hlate le_rfl).subset (List.mem_append_right _ List.mem_cons_self)
  exact absurd (List.eq_of_mem_replicate hone) (by decide)

/-- **When batches are invisible.** For every modulus and size, completed calls return the first
values accepted from every keystream exactly if the first batch survives. -/
theorem samplesKeystream_iff (hround : IsDoubleRounding round) (hmodulus : 1 < modulus)
    (hle : modulus ≤ 2 ^ 30) {size : Int64} (hsize : 0 ≤ size) :
    SamplesKeystream round modulus size ↔ FirstBatchSurvives round modulus size := by
  refine ⟨fun hsamples => ?_, samplesKeystream_of_survives hround hmodulus hle⟩
  by_contra hsurvives
  exact not_samplesKeystream_of_not_survives hround hmodulus hle hsize hsurvives hsamples

theorem samplesKeystream_thousand : SamplesKeystream roundToDouble 257 1000 :=
  (samplesKeystream_iff isDoubleRounding_roundToDouble (by decide) (by decide) (by decide)).mpr
    (Or.inr (Or.inl (by decide +kernel)))

/-- For `2 ^ 32 - 1` values below 2 the first request has `2 ^ 32` bytes, and all values come out
zero. The keystream starts with `0x0b`, so the first one should be 1. -/
theorem not_samplesKeystream :
    create (ctrEvp testAes256) testKey testIv = .ok testStream ∧
    (∃ fuel stream, (generateUniformRandomRange roundToDouble (ctrEvp testAes256) fuel 4294967295
      2).run testStream = .ok (List.replicate 4294967295 0) stream) ∧
    IsFirstAccepted 2 testStream 1 [1] ∧
    ¬ SamplesKeystream roundToDouble 2 4294967295 := by
  have hmodulus : (1 : UInt32) < 2 := by decide
  have hbits : bitLength 2 < 31 := bitLength_lt_of_le (by decide)
  have hlength : batchLength roundToDouble 2 4294967295 = 2 ^ 32 := by decide +kernel
  have hanswered : ¬ IsRefused (batchLength roundToDouble 2 4294967295) := by
    rw [hlength, IsRefused]
    decide
  have hclamped : (4294967295 : Int64).toNatClampNeg = 4294967295 := by decide
  have hsmall : (4294967295 : Int64) < 2 ^ 61 := by decide +kernel
  have hzeros : answerTo testStream (batchLength roundToDouble 2 4294967295)
      = List.replicate (batchLength roundToDouble 2 4294967295) 0 := by
    rw [hlength, answerTo, Nat.mod_self, Stream'.take_zero, List.nil_append, Nat.sub_zero]
  have hfirst : IsFirstAccepted 2 testStream 1 [1] := ⟨rfl, 1, by decide +kernel⟩
  obtain ⟨stream, hrun⟩ : ∃ stream,
      (sampleUntil roundToDouble (ctrEvp testAes256) 2 4294967295 1 []).run testStream
        = .ok (List.replicate 4294967295 0) stream :=
    run_sampleUntil_zeros isDoubleRounding_roundToDouble testEvp_isAes256Ctr hmodulus hbits
      (by omega) (by omega) hanswered (by decide +kernel) hzeros
  rw [← hclamped, ← generateUniformRandomRange_eq hmodulus (by decide) hsmall, hclamped] at hrun
  refine ⟨create_testEvp, ⟨1, stream, hrun⟩, hfirst, fun hsamples => ?_⟩
  have hvalues := (hsamples _ _ _ _ testEvp_isAes256Ctr _ _ _ _ hrun).1
  have hle : 1 ≤ (4294967295 : Int64).toNatClampNeg := by decide
  have hone : (1 : UInt32) ∈ List.replicate 4294967295 0 :=
    (hvalues.isPrefix hfirst hle).subset List.mem_cons_self
  exact absurd (List.eq_of_mem_replicate hone) (by decide)

end AnySketchCorrectness
