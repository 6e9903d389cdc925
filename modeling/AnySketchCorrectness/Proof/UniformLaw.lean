import AnySketchCorrectness.RandomKeystream
import AnySketchCorrectness.Proof.SampledValues
import AnySketchCorrectness.Proof.NonZeroSampling
import AnySketchCorrectness.Proof.Masking

/-!
# Uniform values from uniform bytes

Whether a call completes depends only on which candidates are below the modulus, and not on what
they are. Every value below the modulus is spelled by equally many candidates, so exchanging values
of accepted candidates shows that all vectors are equally likely.
-/

namespace AnySketchCorrectness

open UniformPseudorandomGenerator CounterMode IndependentDraws DoubleRounding
open scoped ENNReal

variable {round : ℚ → ℚ} {modulus : UInt32}

/-! ### One candidate -/

theorem uniformByte_apply (byte : UInt8) : uniformByte byte = (256 : ℝ≥0∞)⁻¹ := by
  rw [uniformByte, PMF.map_apply, tsum_eq_single byte.toFin]
  · rw [if_pos (UInt8.ofFin_toFin byte).symm, PMF.uniformOfFintype_apply, Fintype.card_fin]
    rfl
  · intro digit hne
    rw [if_neg]
    rintro rfl
    exact hne (UInt8.toFin_ofFin digit).symm

/-- The value of a candidate, if it is accepted. -/
def offer (modulus : UInt32) (chunk : ByteString) : Option UInt32 :=
  if chunkValue modulus chunk < modulus then some (chunkValue modulus chunk) else none

theorem offer_eq_some_iff {chunk : ByteString} {value : UInt32} (hvalue : value < modulus) :
    offer modulus chunk = some value ↔ chunkValue modulus chunk = value := by
  unfold offer
  constructor
  · intro hoffer
    split at hoffer
    · exact Option.some.inj hoffer
    · cases hoffer
  · rintro rfl
    exact if_pos hvalue

noncomputable def offerLaw (modulus : UInt32) : PMF (Option UInt32) :=
  (uniformBytes (bytesPerValue modulus)).map (offer modulus)

theorem offerLaw_apply {value : UInt32} (hvalue : value < modulus) :
    offerLaw modulus (some value)
      = (2 ^ (8 * bytesPerValue modulus - bitLength modulus) : ℕ)
        * ((256 : ℝ≥0∞)⁻¹) ^ bytesPerValue modulus := by
  set event := {chunk : ByteString | chunk.length = bytesPerValue modulus
    ∧ ofBigEndian chunk % 2 ^ bitLength modulus = value.toNat} with hevent
  have hlt : value.toNat < 2 ^ bitLength modulus :=
    (UInt32.lt_iff_toNat_lt.mp hvalue).trans_le (modulus_le_two_pow modulus)
  have hcard : event.ncard = 2 ^ (8 * bytesPerValue modulus - bitLength modulus) :=
    BigEndian.ncard_ofBigEndian_mod (bitLength_le_bytes modulus) hlt
  have hfinite : event.Finite :=
    Set.finite_of_ncard_pos (by rw [hcard]; exact Nat.two_pow_pos _)
  calc offerLaw modulus (some value)
      = (uniformBytes (bytesPerValue modulus)).toOuterMeasure
          (Set.preimage (offer modulus) {some value}) := by
        rw [← PMF.toOuterMeasure_apply_singleton, offerLaw, PMF.toOuterMeasure_map_apply]
    _ = (uniformBytes (bytesPerValue modulus)).toOuterMeasure event := by
        apply PMF.toOuterMeasure_apply_eq_of_inter_support_eq
        ext chunk
        refine and_congr_left fun hsupport => ?_
        have hlength := length_of_mem_support _ hsupport
        rw [Set.mem_preimage, Set.mem_singleton_iff, offer_eq_some_iff hvalue, hevent,
          ← UInt32.toNat_inj, chunkValue_toNat]
        exact (and_iff_right hlength).symm
    _ = event.encard * ((256 : ℝ≥0∞)⁻¹) ^ bytesPerValue modulus :=
        toOuterMeasure_draws_const _ uniformByte_apply fun _ hchunk => hchunk.1
    _ = _ := by rw [← hfinite.cast_ncard_eq, hcard, ENat.toENNReal_coe]

theorem offerLaw_ne_zero {value : UInt32} (hvalue : value < modulus) :
    offerLaw modulus (some value) ≠ 0 := by
  rw [offerLaw_apply hvalue]
  exact mul_ne_zero (by simp) (pow_ne_zero _ (by simp))

theorem draws_offerLaw_ne_zero {count : ℕ} {values : List UInt32}
    (hlength : (values.map some).length = count) (hvalues : ∀ value ∈ values, value < modulus) :
    draws (offerLaw modulus) count (values.map some) ≠ 0 := by
  rw [draws_apply _ _ hlength]
  refine List.prod_ne_zero fun hmem => ?_
  obtain ⟨offer, hoffer, hnever⟩ := List.mem_map.mp hmem
  obtain ⟨value, hvalue, rfl⟩ := List.mem_map.mp hoffer
  exact offerLaw_ne_zero (hvalues value hvalue) hnever

theorem fair_offerLaw (modulus : UInt32) : Fair (offerLaw modulus) (· < modulus) :=
  fun _ _ hvalue hvalue' => (offerLaw_apply hvalue).trans (offerLaw_apply hvalue').symm

/-! ### Chunks -/

theorem records_flatten (hmodulus : 1 < modulus) {chunks : List ByteString}
    (hchunks : ∀ chunk ∈ chunks, chunk.length = bytesPerValue modulus) :
    FixedWidth.records (bytesPerValue modulus) chunks.flatten = chunks := by
  induction chunks with
  | nil => simp [FixedWidth.records]
  | cons chunk chunks ih =>
      obtain ⟨hchunk, hrest⟩ := List.forall_mem_cons.mp hchunks
      rw [List.flatten_cons, FixedWidth.records_append (dvd_of_eq hchunk.symm), ih hrest,
        FixedWidth.records_self (bytesPerValue_pos hmodulus) hchunk]
      rfl

theorem acceptedValues_flatten (hmodulus : 1 < modulus) {chunks : List ByteString}
    (hchunks : ∀ chunk ∈ chunks, chunk.length = bytesPerValue modulus) :
    acceptedValues modulus chunks.flatten = (chunks.map (offer modulus)).filterMap id := by
  rw [acceptedValues, records_flatten hmodulus hchunks, List.filterMap_map]
  induction chunks with
  | nil => rfl
  | cons chunk chunks ih =>
      have ih := ih (List.forall_mem_cons.mp hchunks).2
      by_cases hlt : chunkValue modulus chunk < modulus
      · simp [offer, hlt, ih]
      · simp [offer, hlt, ih]

theorem offered_map_some {β : Type} (values : List β) :
    offered (values.map some) = List.replicate values.length true := by
  rw [offered, List.map_map, List.eq_replicate_iff]
  refine ⟨List.length_map _, fun place hplace => ?_⟩
  obtain ⟨value, -, rfl⟩ := List.mem_map.mp hplace
  rfl

theorem length_filterMap_id (offers : List (Option UInt32)) :
    (offers.filterMap id).length = (offered offers).count true := by
  induction offers with
  | nil => rfl
  | cons offer offers ih =>
      cases offer with
      | none => simpa [offered] using ih
      | some value => simpa [offered] using ih

/-! ### Completing -/

/-- Whether so many missing values are found, depending on where candidates are accepted. -/
def Completes (round : ℚ → ℚ) (modulus : UInt32) : Nat → Nat → List Bool → Prop
  | 0, missing, _ => missing = 0
  | fuel + 1, missing, places =>
      missing = 0 ∨
        ((bytesPerValue modulus = 1
            ∨ missing ≤ (places.take (candidates round modulus missing)).count true)
          ∧ Completes round modulus fuel
            (missing - (places.take (candidates round modulus missing)).count true)
            (places.drop (candidates round modulus missing)))

theorem completes_zero (fuel : ℕ) (places : List Bool) : Completes round modulus fuel 0 places := by
  cases fuel with
  | zero => rfl
  | succ fuel => exact Or.inl rfl

/-- The candidates that the passes of a call read if it completes. -/
def consumed (round : ℚ → ℚ) (modulus : UInt32) : Nat → Nat → List Bool → Nat
  | 0, _, _ => 0
  | fuel + 1, missing, places =>
      if missing = 0 then 0
      else
        candidates round modulus missing + consumed round modulus fuel
          (missing - (places.take (candidates round modulus missing)).count true)
          (places.drop (candidates round modulus missing))

theorem consumed_zero (fuel : ℕ) (places : List Bool) :
    consumed round modulus fuel 0 places = 0 := by
  cases fuel with
  | zero => rfl
  | succ fuel => exact if_pos rfl

theorem completes_replicate {fuel missing count : ℕ} (hfuel : 0 < fuel)
    (hmissing : missing ≤ candidates round modulus missing)
    (hcount : candidates round modulus missing ≤ count) :
    Completes round modulus fuel missing (List.replicate count true) := by
  obtain ⟨fuel, rfl⟩ := Nat.exists_eq_succ_of_ne_zero hfuel.ne'
  rw [Completes, List.take_replicate, Nat.min_eq_left hcount, List.count_replicate_self,
    Nat.sub_eq_zero_of_le hmissing]
  exact Or.inr ⟨Or.inr hmissing, completes_zero fuel _⟩

theorem completes_succ {fuel missing : ℕ} (hmissing : missing ≠ 0) {chunks : List ByteString} :
    Completes round modulus (fuel + 1) missing (offered (chunks.map (offer modulus)))
      ↔ (bytesPerValue modulus = 1
          ∨ missing ≤ (((chunks.take (candidates round modulus missing)).map
            (offer modulus)).filterMap id).length)
        ∧ Completes round modulus fuel
          (missing - (((chunks.take (candidates round modulus missing)).map
            (offer modulus)).filterMap id).length)
          (offered ((chunks.drop (candidates round modulus missing)).map (offer modulus))) := by
  rw [Completes, or_iff_right hmissing, length_filterMap_id, offered, offered, offered,
    ← List.map_take, ← List.map_take, ← List.map_drop, ← List.map_drop]

theorem consumed_succ {fuel missing : ℕ} (hmissing : missing ≠ 0) {chunks : List ByteString} :
    consumed round modulus (fuel + 1) missing (offered (chunks.map (offer modulus)))
      = candidates round modulus missing + consumed round modulus fuel
          (missing - (((chunks.take (candidates round modulus missing)).map
            (offer modulus)).filterMap id).length)
          (offered ((chunks.drop (candidates round modulus missing)).map (offer modulus))) := by
  rw [consumed, if_neg hmissing, length_filterMap_id, offered, offered, offered,
    ← List.map_take, ← List.map_take, ← List.map_drop, ← List.map_drop]

theorem filterMap_split (chunks : List ByteString) (count : ℕ) :
    (chunks.map (offer modulus)).filterMap id
      = ((chunks.take count).map (offer modulus)).filterMap id
        ++ ((chunks.drop count).map (offer modulus)).filterMap id := by
  rw [← List.filterMap_append, ← List.map_append, List.take_append_drop]

/-! ### The passes of the loop -/

/-- Chunks at the front of a stream are split where the stream is. -/
theorem take_drop_eq_flatten {width count : ℕ} {chunks : List ByteString} {stream : Stream' UInt8}
    (hchunks : ∀ chunk ∈ chunks, chunk.length = width) (hcount : count ≤ chunks.length)
    (hstream : stream.take (width * chunks.length) = chunks.flatten) :
    stream.take (width * count) = (chunks.take count).flatten
      ∧ (stream.drop (width * count)).take (width * (chunks.drop count).length)
        = (chunks.drop count).flatten := by
  have hsplit : width * chunks.length = width * count + width * (chunks.drop count).length := by
    rw [List.length_drop, ← Nat.mul_add, Nat.add_sub_of_le hcount]
  have hboth : stream.take (width * count)
      ++ (stream.drop (width * count)).take (width * (chunks.drop count).length)
      = (chunks.take count).flatten ++ (chunks.drop count).flatten := by
    rw [← take_add, ← hsplit, hstream, ← List.flatten_append, List.take_append_drop]
  refine List.append_inj hboth ?_
  rw [Stream'.length_take,
    FixedWidth.length_flatten fun chunk hmem => hchunks chunk (List.mem_of_mem_take hmem),
    List.length_take, Nat.min_eq_left hcount]

section Runs

variable {Ctx : Type} {evp : EvpCipher Ctx} {aes256 : ByteString → AesBlock → AesBlock}
  {remaining : Ctx → Stream' UInt8} {size fuel : ℕ} {ret values : List UInt32}
  {chunks : List ByteString}

theorem not_isRefused_of_lt {length : ℕ} (hlength : length < 2 ^ 31) : ¬ IsRefused length := by
  rw [IsRefused]
  omega

/-- **What a run of the loop returns.** It completes if the candidates are accepted at the right
places, and then it returns the values offered, in order. What is left of the keystream depends
only on these places, too. -/
theorem run_sampleUntil_ok_iff (hround : IsDoubleRounding round)
    (hevp : evp.IsAes256Ctr aes256 remaining) (hmodulus : 1 < modulus)
    (hbits : bitLength modulus < 31) (hserved : batchLength round modulus size < 2 ^ 31)
    (hsize : size < 2 ^ 61)
    (hchunks : ∀ chunk ∈ chunks, chunk.length = bytesPerValue modulus)
    (hcount : fuel * candidates round modulus size ≤ chunks.length) (hret : ret.length ≤ size)
    {ctx : Ctx}
    (hctx : (remaining ctx).take (bytesPerValue modulus * chunks.length) = chunks.flatten)
    (left : Stream' UInt8 → Prop) :
    (∃ ctx', (sampleUntil round evp modulus size fuel ret).run ctx = .ok values ctx'
        ∧ left (remaining ctx'))
      ↔ (Completes round modulus fuel (size - ret.length) (offered (chunks.map (offer modulus)))
        ∧ values = ret
          ++ ((chunks.map (offer modulus)).filterMap id).take (size - ret.length))
        ∧ left ((remaining ctx).drop (bytesPerValue modulus
          * consumed round modulus fuel (size - ret.length)
            (offered (chunks.map (offer modulus))))) := by
  induction fuel using Nat.strong_induction_on generalizing ret chunks ctx with
  | _ fuel ih =>
      rcases run_sampleUntil_cases hround hevp hmodulus hbits hsize fuel ret ctx with
        ⟨hfull, hrun⟩ | ⟨hshort, hstuck, e, ctx₁, -, hrun⟩
          | ⟨hshort, -, fuel, ctx₁, rfl, hremaining₁, hrun⟩
      · have hzero : size - ret.length = 0 := by omega
        rw [hrun, hzero, List.take_zero, List.append_nil, and_iff_right (completes_zero _ _),
          consumed_zero, Nat.mul_zero, Stream'.drop_zero]
        constructor
        · rintro ⟨ctx', ⟨⟩, hleft⟩
          exact ⟨rfl, hleft⟩
        · rintro ⟨rfl, hleft⟩
          exact ⟨ctx, rfl, hleft⟩
      · have hanswered := not_isRefused_of_lt
          ((batchLength_mono hround hmodulus hbits (Nat.sub_le size ret.length)).trans_lt hserved)
        obtain rfl := hstuck.resolve_right hanswered
        rw [hrun]
        refine iff_of_false (by rintro ⟨ctx', ⟨⟩, -⟩) fun hcompletes => ?_
        have hzero : size - ret.length = 0 := hcompletes.1.1
        omega
      · set missing := size - ret.length with hmissing
        set count := candidates round modulus missing
        have hfew : count ≤ candidates round modulus size :=
          candidates_mono hround hmodulus hbits (Nat.sub_le _ _)
        rw [Nat.succ_mul] at hcount
        have hin : count ≤ chunks.length := by omega
        have hlength : batchLength round modulus missing < 2 ^ 32 :=
          ((batchLength_mono hround hmodulus hbits (Nat.sub_le _ _)).trans_lt hserved).trans
            (by decide)
        rw [Nat.mod_eq_of_lt hlength] at hremaining₁
        obtain ⟨hfront, hback⟩ := take_drop_eq_flatten hchunks hin hctx
        have hctx₁ : (remaining ctx₁).take (bytesPerValue modulus * (chunks.drop count).length)
            = (chunks.drop count).flatten := by
          rw [hremaining₁]
          exact hback
        have hbackCount : fuel * candidates round modulus size ≤ (chunks.drop count).length := by
          rw [List.length_drop]
          omega
        have harr : acceptedValues modulus
              (answerTo (remaining ctx) (batchLength round modulus missing))
            = ((chunks.take count).map (offer modulus)).filterMap id := by
          rw [answerTo_of_lt _ hlength, ← acceptedValues_flatten hmodulus fun chunk hmem =>
            hchunks chunk (List.mem_of_mem_take hmem), ← hfront]
          rfl
        rw [completes_succ (by omega), consumed_succ (by omega), filterMap_split chunks count, hrun]
        set taken := ((chunks.take count).map (offer modulus)).filterMap id
        have hsample := rejectionSample_cases hmodulus (by omega) hshort.le
          (dvd_length_answerTo _ _ (remaining ctx) missing)
          (length_answerTo_pos hround hmodulus hbits (remaining ctx) missing)
        rw [harr, List.length_append] at hsample
        rcases hsample with ⟨henough, hsample⟩ | ⟨hbytes, hscarce, hsample⟩
        · have hleft : size - ((ret ++ taken).take size).length = missing - taken.length := by
            rw [List.length_take, List.length_append]
            omega
          have hall : ∀ rest, ret ++ (taken ++ rest).take missing
              = (ret ++ taken).take size ++ rest.take (missing - taken.length) := by
            intro rest
            rw [List.take_append, List.take_append, List.take_of_length_le hret,
              List.append_assoc]
          have hmet : bytesPerValue modulus = 1 ∨ missing ≤ taken.length :=
            henough.imp_right fun hle => by omega
          have hdrop : ∀ rest, (remaining ctx).drop (bytesPerValue modulus * (count + rest))
              = (remaining ctx₁).drop (bytesPerValue modulus * rest) := by
            intro rest
            rw [hremaining₁, Stream'.drop_drop, Nat.mul_add]
            rfl
          rw [hsample, and_iff_right hmet, hall, hdrop, ← hleft]
          exact ih fuel (Nat.lt_succ_self fuel)
            (fun chunk hmem => hchunks chunk (List.mem_of_mem_drop hmem)) hbackCount
            (List.length_take_le _ _) hctx₁
        · rw [hsample]
          refine iff_of_false (by rintro ⟨ctx', ⟨⟩, -⟩) fun hcompletes => ?_
          have hmet := hcompletes.1.1.1.resolve_left hbytes
          omega

end Runs

/-! ### The whole call -/

section Law

variable {Ctx : Type} {evp : EvpCipher Ctx} {aes256 : ByteString → AesBlock → AesBlock}
  {remaining : Ctx → Stream' UInt8} {fuel count : ℕ} {size : Int64}

theorem evaluate_generateUniformRandomRange_vector {ctx : Ctx} {values : List UInt32}
    (hanswer : evaluate (generateUniformRandomRange round evp fuel size modulus) ctx = .ok values) :
    IsVectorBelow modulus size.toNatClampNeg values := by
  obtain ⟨ctx', hrun⟩ := evaluate_eq_ok_iff.mp hanswer
  exact ((keeps_generateUniformRandomRange round evp fuel size modulus).result trivial hrun).2

theorem exists_evaluate_of_answerLaw_ne_zero {α : Type} {program : GeneratorM Ctx α} {length : ℕ}
    {contexts : KeystreamFamily remaining length} {answer : StatusOr α}
    (hne : answerLaw contexts program answer ≠ 0) :
    ∃ bytes, evaluate program (contexts.ctxOf bytes) = answer := by
  rw [← PMF.mem_support_iff, answerLaw, PMF.mem_support_map_iff] at hne
  obtain ⟨bytes, -, hanswer⟩ := hne
  exact ⟨bytes, hanswer⟩

/-- What a program returns, if only the offers matter. -/
theorem answerLaw_apply_ok {program : GeneratorM Ctx (List UInt32)} {count : ℕ}
    {contexts : KeystreamFamily remaining (bytesPerValue modulus * count)} {values : List UInt32}
    {event : Set (List (Option UInt32))}
    (hprogram : ∀ chunks : List ByteString, chunks.length = count →
      (∀ chunk ∈ chunks, chunk.length = bytesPerValue modulus) →
      (evaluate program (contexts.ctxOf chunks.flatten) = .ok values
        ↔ chunks.map (offer modulus) ∈ event)) :
    answerLaw contexts program (.ok values)
      = (draws (offerLaw modulus) count).toOuterMeasure event := by
  let reply := fun bytes => evaluate program (contexts.ctxOf bytes)
  let chunkLaw := draws (uniformBytes (bytesPerValue modulus)) count
  calc answerLaw contexts program (.ok values)
      = (uniformBytes (bytesPerValue modulus * count)).toOuterMeasure
          (Set.preimage reply {.ok values}) := by
        rw [← PMF.toOuterMeasure_apply_singleton, answerLaw, PMF.toOuterMeasure_map_apply]
    _ = chunkLaw.toOuterMeasure
          (Set.preimage List.flatten (Set.preimage reply {.ok values})) := by
        rw [uniformBytes, draws_mul, PMF.toOuterMeasure_map_apply]
        rfl
    _ = chunkLaw.toOuterMeasure (Set.preimage (List.map (offer modulus)) event) := by
        apply PMF.toOuterMeasure_apply_eq_of_inter_support_eq
        ext chunks
        refine and_congr_left fun hsupport => ?_
        exact hprogram chunks (length_of_mem_support _ hsupport) fun chunk hmem =>
          length_of_mem_support _ (mem_support_of_mem _ hsupport hmem)
    _ = (draws (offerLaw modulus) count).toOuterMeasure event := by
        rw [← PMF.toOuterMeasure_map_apply, draws_map]
        rfl

theorem size_lt_of_served (hround : IsDoubleRounding round) (hmodulus : 1 < modulus)
    (hbits : bitLength modulus < 31)
    (hserved : batchLength round modulus size.toNatClampNeg < 2 ^ 31) : size < 2 ^ 61 := by
  have hclamped := lt_of_served hround hmodulus hbits hserved
  have htoInt : (2 ^ 61 : Int64).toInt = 2 ^ 61 := by decide +kernel
  rw [Int64.lt_iff_toInt_lt, htoInt]
  rw [Int64.toNatClampNeg] at hclamped
  omega

theorem take_remaining_flatten {length : ℕ}
    (contexts : KeystreamFamily remaining (bytesPerValue modulus * length))
    {chunks : List ByteString} (hlength : chunks.length = length)
    (hchunks : ∀ chunk ∈ chunks, chunk.length = bytesPerValue modulus) :
    (remaining (contexts.ctxOf chunks.flatten)).take (bytesPerValue modulus * chunks.length)
      = chunks.flatten := by
  have htake := contexts.take_remaining chunks.flatten
    ((FixedWidth.length_flatten hchunks).trans (by rw [hlength]))
  rwa [hlength]

theorem run_generateUniformRandomRange_ok_iff (hround : IsDoubleRounding round)
    (hevp : evp.IsAes256Ctr aes256 remaining) (hmodulus : 1 < modulus)
    (hbits : bitLength modulus < 31) {request : Int64} {values : List UInt32}
    {chunks : List ByteString} (hrequest : 0 ≤ request)
    (hserved : batchLength round modulus request.toNatClampNeg < 2 ^ 31)
    (hchunks : ∀ chunk ∈ chunks, chunk.length = bytesPerValue modulus)
    (hcount : fuel * candidates round modulus request.toNatClampNeg ≤ chunks.length) {ctx : Ctx}
    (hctx : (remaining ctx).take (bytesPerValue modulus * chunks.length) = chunks.flatten)
    (left : Stream' UInt8 → Prop) :
    (∃ ctx', (generateUniformRandomRange round evp fuel request modulus).run ctx = .ok values ctx'
        ∧ left (remaining ctx'))
      ↔ (Completes round modulus fuel request.toNatClampNeg (offered (chunks.map (offer modulus)))
        ∧ values = ((chunks.map (offer modulus)).filterMap id).take request.toNatClampNeg)
        ∧ left ((remaining ctx).drop (bytesPerValue modulus
          * consumed round modulus fuel request.toNatClampNeg
            (offered (chunks.map (offer modulus))))) := by
  have hsmall := size_lt_of_served hround hmodulus hbits hserved
  rw [generateUniformRandomRange_eq hmodulus hrequest hsmall]
  exact run_sampleUntil_ok_iff hround hevp hmodulus hbits hserved (toNatClampNeg_lt hsmall) hchunks
    hcount (Nat.zero_le _) hctx left

variable (hround : IsDoubleRounding round) (hevp : evp.IsAes256Ctr aes256 remaining)
  (hmodulus : 1 < modulus) (hbits : bitLength modulus < 31) (hsize : 0 ≤ size)
  (hserved : batchLength round modulus size.toNatClampNeg < 2 ^ 31)
  (hcount : fuel * candidates round modulus size.toNatClampNeg ≤ count)
  (contexts : KeystreamFamily remaining (bytesPerValue modulus * count))

include hround hevp hmodulus hbits hsize hserved hcount

theorem evaluate_flatten_eq_ok_iff {chunks : List ByteString} (hlength : chunks.length = count)
    (hchunks : ∀ chunk ∈ chunks, chunk.length = bytesPerValue modulus) {values : List UInt32}
    (hvalues : values.length = size.toNatClampNeg) :
    evaluate (generateUniformRandomRange round evp fuel size modulus)
        (contexts.ctxOf chunks.flatten) = .ok values
      ↔ chunks.map (offer modulus)
        ∈ Yields {places | Completes round modulus fuel size.toNatClampNeg places} values := by
  have hctx := take_remaining_flatten contexts hlength hchunks
  rw [evaluate_eq_ok_iff]
  refine (exists_congr fun ctx' => (and_iff_left trivial).symm).trans
    ((run_generateUniformRandomRange_ok_iff hround hevp hmodulus hbits hsize hserved hchunks
      (hlength ▸ hcount) hctx fun _ => True).trans ?_)
  rw [and_iff_left trivial, Yields, hvalues]
  exact and_congr_right fun _ => eq_comm

theorem answerLaw_ok {values : List UInt32} (hvalues : values.length = size.toNatClampNeg) :
    answerLaw contexts (generateUniformRandomRange round evp fuel size modulus) (.ok values)
      = (draws (offerLaw modulus) count).toOuterMeasure
          (Yields {places | Completes round modulus fuel size.toNatClampNeg places} values) := by
  apply answerLaw_apply_ok
  intro chunks hlength hchunks
  exact evaluate_flatten_eq_ok_iff hround hevp hmodulus hbits hsize hserved hcount contexts hlength
    hchunks hvalues

/-- Accepting every candidate completes in the first pass, with any values. -/
theorem answerLaw_ok_ne_zero (hfuel : 0 < fuel) {values : List UInt32}
    (hvalues : IsVectorBelow modulus size.toNatClampNeg values) :
    answerLaw contexts (generateUniformRandomRange round evp fuel size modulus) (.ok values)
      ≠ 0 := by
  have hzero : (0 : UInt32) < modulus := UInt32.lt_trans (by decide) hmodulus
  have hfirst : candidates round modulus size.toNatClampNeg ≤ count :=
    (Nat.le_mul_of_pos_left _ hfuel).trans hcount
  have hfew := lt_candidates hround hmodulus hbits
    ((lt_of_served hround hmodulus hbits hserved).trans (by decide))
  let offers := (values ++ List.replicate (count - size.toNatClampNeg) 0).map some
  have hlength : offers.length = count := by
    simp only [offers, List.length_map, List.length_append, List.length_replicate, hvalues.1]
    omega
  have hyields : offers
      ∈ Yields {places | Completes round modulus fuel size.toNatClampNeg places} values := by
    refine ⟨?_, by simp [offers]⟩
    rw [offered_map_some, ← List.length_map some, hlength]
    exact completes_replicate hfuel hfew.le hfirst
  have hchance : draws (offerLaw modulus) count offers ≠ 0 := by
    refine draws_offerLaw_ne_zero hlength fun value hmem => ?_
    rcases List.mem_append.mp hmem with hvalue | hfill
    · exact hvalues.2 value hvalue
    · rw [List.eq_of_mem_replicate hfill]
      exact hzero
  rw [answerLaw_ok hround hevp hmodulus hbits hsize hserved hcount contexts hvalues.1, ne_eq,
    PMF.toOuterMeasure_apply_eq_zero_iff]
  exact fun hdisjoint => Set.disjoint_left.mp hdisjoint hchance hyields

theorem answerLaw_ok_eq {values values' : List UInt32}
    (hvalues : IsVectorBelow modulus size.toNatClampNeg values)
    (hvalues' : IsVectorBelow modulus size.toNatClampNeg values') :
    answerLaw contexts (generateUniformRandomRange round evp fuel size modulus) (.ok values)
      = answerLaw contexts (generateUniformRandomRange round evp fuel size modulus)
          (.ok values') := by
  rw [answerLaw_ok hround hevp hmodulus hbits hsize hserved hcount contexts hvalues.1,
    answerLaw_ok hround hevp hmodulus hbits hsize hserved hcount contexts hvalues'.1]
  exact toOuterMeasure_yields_eq (fair_offerLaw modulus) count _
    (hvalues.1.trans hvalues'.1.symm) hvalues.2 hvalues'.2

end Law

/-! ### The number of vectors -/

theorem vectorOf_injective (modulus : UInt32) (n : ℕ) :
    Function.Injective (vectorOf modulus : (Fin n → Fin modulus.toNat) → List UInt32) := by
  intro entries entries' heq
  funext i
  have hentry := congrFun (List.ofFn_injective heq) i
  apply Fin.ext
  rw [← toNat_ofNat_entry (entries i), ← toNat_ofNat_entry (entries' i)]
  exact congrArg UInt32.toNat hentry

theorem encard_vectors (modulus : UInt32) (n : ℕ) :
    {values | IsVectorBelow modulus n values}.encard = (modulus.toNat ^ n : ℕ) := by
  have hrange : {values | IsVectorBelow modulus n values}
      = Set.range (vectorOf modulus : (Fin n → Fin modulus.toNat) → List UInt32) := by
    ext values
    constructor
    · intro hvalues
      obtain ⟨entries, rfl⟩ := exists_vectorOf hvalues
      exact ⟨entries, rfl⟩
    · rintro ⟨entries, rfl⟩
      exact vectorOf_isVectorBelow entries
  rw [hrange, ← Set.image_univ, (vectorOf_injective modulus n).encard_image, Set.encard_univ,
    ENat.card_eq_coe_fintype_card, Fintype.card_fun, Fintype.card_fin, Fintype.card_fin]

/-- Where all the answers are equally likely, the chance of completing is split among them. -/
theorem apply_ok_mul_encard {vectors : Set (List UInt32)} {law : PMF (StatusOr (List UInt32))}
    (hvector : ∀ values, law (.ok values) ≠ 0 → values ∈ vectors)
    (hequal : ∀ values ∈ vectors, ∀ values' ∈ vectors, law (.ok values) = law (.ok values'))
    {values : List UInt32} (hvalues : values ∈ vectors) :
    law (.ok values) * vectors.encard
      = law.toOuterMeasure {answer | ∃ values, answer = .ok values} := by
  let answers : Set (StatusOr (List UInt32)) := Set.image Except.ok vectors
  have hanswers : law.toOuterMeasure {answer | ∃ values, answer = .ok values}
      = law.toOuterMeasure answers := by
    apply PMF.toOuterMeasure_apply_eq_of_inter_support_eq
    ext answer
    refine and_congr_left fun hsupport => ?_
    constructor
    · rintro ⟨values', rfl⟩
      exact ⟨values', hvector values' hsupport, rfl⟩
    · rintro ⟨values', -, rfl⟩
      exact ⟨values', rfl⟩
  have hconst : ∀ answer ∈ answers, law answer = law (.ok values) := by
    rintro _ ⟨values', hvalues', rfl⟩
    exact hequal values' hvalues' values hvalues
  have hinjective : Function.Injective (Except.ok : List UInt32 → StatusOr (List UInt32)) :=
    fun _ _ => Except.ok.inj
  rw [hanswers, toOuterMeasure_const law hconst, hinjective.encard_image, mul_comm]

theorem isUniformOnVectors_of_equal {n : ℕ} {law : PMF (StatusOr (List UInt32))}
    (hvector : ∀ values, law (.ok values) ≠ 0 → IsVectorBelow modulus n values)
    (hequal : ∀ values values', IsVectorBelow modulus n values → IsVectorBelow modulus n values' →
      law (.ok values) = law (.ok values')) : IsUniformOnVectors modulus n law := by
  refine ⟨hvector, fun values hvalues => ?_⟩
  rw [← Nat.cast_pow, ← ENat.toENNReal_coe, ← encard_vectors]
  exact apply_ok_mul_encard hvector
    (fun values hvalues values' hvalues' => hequal values values' hvalues hvalues') hvalues

/-! ### The law of the values -/

section Uniform

variable {Ctx : Type} {evp : EvpCipher Ctx} {aes256 : ByteString → AesBlock → AesBlock}
  {remaining : Ctx → Stream' UInt8} {fuel count : ℕ} {size : Int64}

theorem uniformOnVectors_answerLaw (hround : IsDoubleRounding round)
    (hevp : evp.IsAes256Ctr aes256 remaining) (hmodulus : 1 < modulus) (hle : modulus ≤ 2 ^ 30)
    (hsize : 0 ≤ size)
    (hserved : batchLength round modulus size.toNatClampNeg < 2 ^ 31)
    (hcount : fuel * candidates round modulus size.toNatClampNeg ≤ count)
    (contexts : KeystreamFamily remaining (bytesPerValue modulus * count)) :
    IsUniformOnVectors modulus size.toNatClampNeg
      (answerLaw contexts (generateUniformRandomRange round evp fuel size modulus)) := by
  have hbits := bitLength_lt_of_le hle
  refine isUniformOnVectors_of_equal (fun values hne => ?_) fun values values' =>
    answerLaw_ok_eq hround hevp hmodulus hbits hsize hserved hcount contexts
  obtain ⟨bytes, hanswer⟩ := exists_evaluate_of_answerLaw_ne_zero hne
  exact evaluate_generateUniformRandomRange_vector hanswer

/-- **The values are uniform.** If the keystream begins with uniform bytes, enough for all passes,
the values that a call returns are below the modulus, all vectors of such values are equally likely,
and none is impossible. -/
theorem generateUniformRandomRange_uniform (hround : IsDoubleRounding round)
    (hevp : evp.IsAes256Ctr aes256 remaining) (hmodulus : 1 < modulus) (hle : modulus ≤ 2 ^ 30)
    (hsize : 0 ≤ size)
    (hserved : batchLength round modulus size.toNatClampNeg < 2 ^ 31)
    (hcount : fuel * candidates round modulus size.toNatClampNeg ≤ count)
    (contexts : KeystreamFamily remaining (bytesPerValue modulus * count)) :
    IsUniformOnVectors modulus size.toNatClampNeg
      (answerLaw contexts (generateUniformRandomRange round evp fuel size modulus)) ∧
    (0 < fuel → ∀ values, IsVectorBelow modulus size.toNatClampNeg values →
      answerLaw contexts (generateUniformRandomRange round evp fuel size modulus) (.ok values)
        ≠ 0) :=
  ⟨uniformOnVectors_answerLaw hround hevp hmodulus hle hsize hserved hcount contexts,
    fun hfuel _ => answerLaw_ok_ne_zero hround hevp hmodulus (bitLength_lt_of_le hle) hsize
      hserved hcount contexts hfuel⟩

end Uniform

/-- The cipher whose contexts are streams has a context for every string. -/
def paddedStreams (length : ℕ) : KeystreamFamily (id : Stream' UInt8 → Stream' UInt8) length where
  ctxOf bytes := bytes ++ₛ Stream'.const 0
  take_remaining bytes hlength := by
    rw [id, ← hlength, ← Nat.add_zero bytes.length, ← Stream'.append_take, Stream'.take_zero,
      List.append_nil]

theorem generateUniformRandomRange_uniform_three :
    IsUniformOnVectors 257 3 (answerLaw (paddedStreams (bytesPerValue 257 * 6))
      (generateUniformRandomRange roundToDouble (ctrEvp testAes256) 1 3 257)) :=
  (generateUniformRandomRange_uniform isDoubleRounding_roundToDouble testEvp_isAes256Ctr
    (show (1 : UInt32) < 257 by decide) (by decide) (show (0 : Int64) ≤ 3 by decide)
    (by decide +kernel) (by decide +kernel) (paddedStreams (bytesPerValue 257 * 6))).1

end AnySketchCorrectness
