import AnySketchCorrectness.Proof.RejectionSampling
import AnySketchCorrectness.Proof.Keystream

/-!
# Uniform sampling from the keystream

A pass of the loop asks for at least one candidate more than it needs values, unless it needs so
many that their number is rounded. While its request survives the conversion to `int`, the batch is
the next part of the keystream, and the values accepted so far are those accepted from the part that
is used up. A request that does not survive can have its values accepted from zeros.
-/

namespace AnySketchCorrectness

open UniformPseudorandomGenerator CounterMode DoubleRounding

variable {modulus : UInt32} {round : ℚ → ℚ}

/-! ### The length of a batch -/

theorem request_toNat (hround : IsDoubleRounding round) (hmodulus : 1 < modulus)
    (hbits : bitLength modulus < 31) {missing : ℕ} (hmissing : missing < 2 ^ 61) :
    (sampleSize round modulus (UInt64.ofNat missing) * UInt64.ofNat (bytesPerValue modulus)).toNat
      = batchLength round modulus missing := by
  have hcurrent : (UInt64.ofNat missing).toNat = missing :=
    UInt64.toNat_ofNat_of_lt' (hmissing.trans (by decide))
  have hbytes : (UInt64.ofNat (bytesPerValue modulus)).toNat = bytesPerValue modulus :=
    UInt64.toNat_ofNat_of_lt' ((bytesPerValue_le modulus).trans_lt (by decide))
  have hlt : batchLength round modulus missing < 2 ^ 64 := by
    calc batchLength round modulus missing ≤ 4 * candidates round modulus missing :=
          Nat.mul_le_mul_right _ (bytesPerValue_le modulus)
      _ < 2 ^ 64 := by
          have hcandidates := candidates_lt hround hmodulus hbits hmissing
          omega
  rw [UInt64.toNat_mul, hbytes, sampleSize_toNat hround hmodulus hbits (hcurrent.trans_lt hmissing),
    hcurrent, Nat.mul_comm]
  exact Nat.mod_eq_of_lt hlt

theorem toInt64_cases (n : UInt64) :
    (2 ^ 63 ≤ n.toNat ∧ n.toInt64 < 0)
      ∨ (n.toNat < 2 ^ 63 ∧ 0 ≤ n.toInt64 ∧ n.toInt64.toNatClampNeg = n.toNat) := by
  have hlt := n.toNat_lt
  have hvalue : n.toInt64.toInt = (n.toNat : Int).bmod (2 ^ 64) := BitVec.toInt_eq_toNat_bmod _
  rw [Int64.le_iff_toInt_le, Int64.lt_iff_toInt_lt, Int64.toInt_zero, Int64.toNatClampNeg, hvalue,
    Int.bmod_def]
  omega

theorem batchLength_mono (hround : IsDoubleRounding round) (hmodulus : 1 < modulus)
    (hbits : bitLength modulus < 31) {missing missing' : ℕ} (hle : missing ≤ missing') :
    batchLength round modulus missing ≤ batchLength round modulus missing' :=
  Nat.mul_le_mul_left _ (candidates_mono hround hmodulus hbits hle)

theorem candidates_le_batchLength (hmodulus : 1 < modulus) (missing : ℕ) :
    candidates round modulus missing ≤ batchLength round modulus missing :=
  Nat.le_mul_of_pos_left _ (bytesPerValue_pos hmodulus)

/-- A request that is served is for few values. -/
theorem lt_of_served (hround : IsDoubleRounding round) (hmodulus : 1 < modulus)
    (hbits : bitLength modulus < 31) {missing : ℕ}
    (hserved : batchLength round modulus missing < 2 ^ 31) : missing < 2 ^ 31 := by
  by_contra hlarge
  have hfew := (candidates_le_batchLength hmodulus missing).trans_lt hserved
  have hmany := lt_candidates hround hmodulus hbits (show 2 ^ 31 < 2 ^ 53 by decide)
  have hmono := candidates_mono hround hmodulus hbits (Nat.not_lt.mp hlarge)
  omega

theorem length_answerTo (stream : Stream' UInt8) (length : ℕ) :
    (answerTo stream length).length = length := by
  have hle : length % 2 ^ 32 ≤ length := Nat.mod_le _ _
  rw [answerTo, List.length_append, Stream'.length_take, List.length_replicate]
  omega

theorem answerTo_of_lt (stream : Stream' UInt8) {length : ℕ} (hlength : length < 2 ^ 32) :
    answerTo stream length = stream.take length := by
  rw [answerTo, Nat.mod_eq_of_lt hlength, Nat.sub_self, List.replicate_zero, List.append_nil]

theorem dvd_length_answerTo (round : ℚ → ℚ) (modulus : UInt32) (stream : Stream' UInt8)
    (missing : ℕ) :
    bytesPerValue modulus ∣ (answerTo stream (batchLength round modulus missing)).length := by
  rw [length_answerTo]
  exact Nat.dvd_mul_right _ _

theorem length_answerTo_pos (hround : IsDoubleRounding round) (hmodulus : 1 < modulus)
    (hbits : bitLength modulus < 31) (stream : Stream' UInt8) (missing : ℕ) :
    0 < (answerTo stream (batchLength round modulus missing)).length := by
  rw [length_answerTo]
  exact Nat.mul_pos (bytesPerValue_pos hmodulus) (candidates_pos hround hmodulus hbits missing)

/-! ### One pass -/

section Pass

variable {Ctx : Type} {evp : EvpCipher Ctx} {aes256 : ByteString → AesBlock → AesBlock}
  {remaining : Ctx → Stream' UInt8} {missing : ℕ}

theorem run_generatePseudorandomBytes_ne_outOfRange (evp : EvpCipher Ctx) (size : Int64)
    (ctx ctx' : Ctx) :
    (generatePseudorandomBytes evp size).run ctx ≠ .error .outOfRange ctx' := by
  unfold generatePseudorandomBytes
  split
  · rintro ⟨⟩
  split
  · rintro ⟨⟩
  simp only [EStateM.run_bind, EStateM.run_get, EStateM.run_set]
  split
  · rintro ⟨⟩
  simp only [EStateM.run_bind, EStateM.run_get, EStateM.run_set]
  split
  · rintro ⟨⟩
  · rintro ⟨⟩

section Loop

variable {size fuel : ℕ} {ret : List UInt32}

theorem run_sampleUntil_full (hfull : size ≤ ret.length) (fuel : ℕ) (ctx : Ctx) :
    (sampleUntil round evp modulus size fuel ret).run ctx = .ok ret ctx := by
  unfold sampleUntil
  rw [if_pos hfull]
  rfl

theorem run_sampleUntil_outOfFuel (hshort : ret.length < size) (ctx : Ctx) :
    (sampleUntil round evp modulus size 0 ret).run ctx = .error .outOfFuel ctx := by
  unfold sampleUntil
  rw [if_neg (Nat.not_le.mpr hshort)]
  rfl

theorem run_sampleUntil_refused (hround : IsDoubleRounding round)
    (hevp : evp.IsAes256Ctr aes256 remaining) (hmodulus : 1 < modulus)
    (hbits : bitLength modulus < 31) (hsize : size < 2 ^ 61) (hshort : ret.length < size)
    (hrefused : IsRefused (batchLength round modulus (size - ret.length))) (ctx : Ctx) :
    ∃ e ctx', (sampleUntil round evp modulus size (fuel + 1) ret).run ctx = .error e ctx'
      ∧ e ≠ .outOfRange := by
  have hlength := request_toNat hround hmodulus hbits ((Nat.sub_le size ret.length).trans_lt hsize)
  rw [IsRefused, ← hlength] at hrefused
  have hcases := toInt64_cases (sampleSize round modulus (UInt64.ofNat (size - ret.length))
    * UInt64.ofNat (bytesPerValue modulus))
  obtain ⟨e, ctx', hrun, -⟩ := run_generatePseudorandomBytes_error hevp (by
    rcases hcases with ⟨-, hnegative⟩ | ⟨hsmall, -, hclamped⟩
    · exact Or.inl hnegative
    · rw [← hclamped] at hrefused hsmall
      exact Or.inr (hrefused.resolve_left (Nat.not_le.mpr hsmall))) ctx
  refine ⟨e, ctx', ?_, ?_⟩
  · unfold sampleUntil
    rw [if_neg (Nat.not_le.mpr hshort)]
    simp only [EStateM.run_bind, hrun]
  · rintro rfl
    exact run_generatePseudorandomBytes_ne_outOfRange _ _ _ _ hrun

theorem run_sampleUntil_pass (hround : IsDoubleRounding round)
    (hevp : evp.IsAes256Ctr aes256 remaining) (hmodulus : 1 < modulus)
    (hbits : bitLength modulus < 31) (hsize : size < 2 ^ 61) (hshort : ret.length < size)
    (hanswered : ¬ IsRefused (batchLength round modulus (size - ret.length))) (fuel : ℕ)
    (ctx : Ctx) :
    ∃ ctx', remaining ctx'
        = (remaining ctx).drop (batchLength round modulus (size - ret.length) % 2 ^ 32)
      ∧ (sampleUntil round evp modulus size (fuel + 1) ret).run ctx
        = match rejectionSample modulus size
            (answerTo (remaining ctx) (batchLength round modulus (size - ret.length))) ret with
          | .ok ret => (sampleUntil round evp modulus size fuel ret).run ctx'
          | .error e => .error e ctx' := by
  have hlength := request_toNat hround hmodulus hbits ((Nat.sub_le size ret.length).trans_lt hsize)
  rw [IsRefused, not_or, Nat.not_le, Nat.not_le] at hanswered
  rcases toInt64_cases (sampleSize round modulus (UInt64.ofNat (size - ret.length))
    * UInt64.ofNat (bytesPerValue modulus)) with ⟨hlarge, -⟩ | ⟨-, hpositive, hclamped⟩
  · omega
  rw [hlength] at hclamped
  obtain ⟨ctx', hrun, hremaining⟩ := run_generatePseudorandomBytes_ok hevp hpositive
    (hclamped ▸ hanswered.2) ctx
  rw [hclamped] at hrun hremaining
  refine ⟨ctx', hremaining, ?_⟩
  rw [sampleUntil, if_neg (Nat.not_le.mpr hshort)]
  simp only [EStateM.run_bind, hrun, answerTo]
  cases rejectionSample modulus size _ ret with
  | ok values => rfl
  | error e => rfl

/-- **What a pass can do.** It is not made, or it fails inside the batch, or it takes the next part
of the keystream. -/
theorem run_sampleUntil_cases (hround : IsDoubleRounding round)
    (hevp : evp.IsAes256Ctr aes256 remaining) (hmodulus : 1 < modulus)
    (hbits : bitLength modulus < 31) (hsize : size < 2 ^ 61) (fuel : ℕ) (ret : List UInt32)
    (ctx : Ctx) :
    (size ≤ ret.length ∧ (sampleUntil round evp modulus size fuel ret).run ctx = .ok ret ctx)
      ∨ (ret.length < size ∧ (fuel = 0 ∨ IsRefused (batchLength round modulus (size - ret.length)))
        ∧ ∃ e ctx', e ≠ .outOfRange
          ∧ (sampleUntil round evp modulus size fuel ret).run ctx = .error e ctx')
      ∨ (ret.length < size ∧ ¬ IsRefused (batchLength round modulus (size - ret.length))
        ∧ ∃ fuel' ctx', fuel = fuel' + 1
          ∧ remaining ctx'
            = (remaining ctx).drop (batchLength round modulus (size - ret.length) % 2 ^ 32)
          ∧ (sampleUntil round evp modulus size fuel ret).run ctx
            = match rejectionSample modulus size
                (answerTo (remaining ctx) (batchLength round modulus (size - ret.length))) ret with
              | .ok ret => (sampleUntil round evp modulus size fuel' ret).run ctx'
              | .error e => .error e ctx') := by
  rcases Nat.lt_or_ge ret.length size with hshort | hfull
  · cases fuel with
    | zero =>
        exact Or.inr (Or.inl ⟨hshort, Or.inl rfl, .outOfFuel, ctx, by decide,
          run_sampleUntil_outOfFuel hshort ctx⟩)
    | succ fuel =>
        by_cases hrefused : IsRefused (batchLength round modulus (size - ret.length))
        · obtain ⟨e, ctx', hrun, hne⟩ :=
            run_sampleUntil_refused hround hevp hmodulus hbits hsize hshort hrefused ctx
          exact Or.inr (Or.inl ⟨hshort, Or.inr hrefused, e, ctx', hne, hrun⟩)
        · obtain ⟨ctx', hremaining, hrun⟩ :=
            run_sampleUntil_pass hround hevp hmodulus hbits hsize hshort hrefused fuel ctx
          exact Or.inr (Or.inr ⟨hshort, hrefused, fuel, ctx', rfl, hremaining, hrun⟩)
  · exact Or.inl ⟨hfull, run_sampleUntil_full hfull fuel ctx⟩

theorem run_sampleUntil_first (hround : IsDoubleRounding round)
    (hevp : evp.IsAes256Ctr aes256 remaining) (hmodulus : 1 < modulus)
    (hbits : bitLength modulus < 31) (hsize : size < 2 ^ 61) (hpositive : 0 < size)
    (hanswered : ¬ IsRefused (batchLength round modulus size)) (ctx : Ctx) :
    ∃ ctx', (sampleUntil round evp modulus size (fuel + 1) []).run ctx
      = match rejectionSample modulus size
          (answerTo (remaining ctx) (batchLength round modulus size)) [] with
        | .ok ret => (sampleUntil round evp modulus size fuel ret).run ctx'
        | .error e => .error e ctx' := by
  have hshort : ([] : List UInt32).length < size := hpositive
  obtain ⟨ctx', -, hpass⟩ :=
    run_sampleUntil_pass hround hevp hmodulus hbits hsize hshort hanswered fuel ctx
  exact ⟨ctx', hpass⟩

theorem run_sampleUntil_enough (hround : IsDoubleRounding round)
    (hevp : evp.IsAes256Ctr aes256 remaining) (hmodulus : 1 < modulus)
    (hbits : bitLength modulus < 31) (hsize : size < 2 ^ 61) (hpositive : 0 < size)
    (hanswered : ¬ IsRefused (batchLength round modulus size)) {ctx : Ctx}
    (henough : size ≤ (acceptedValues modulus
      (answerTo (remaining ctx) (batchLength round modulus size))).length) :
    ∃ ctx', (sampleUntil round evp modulus size (fuel + 1) []).run ctx
      = .ok ((acceptedValues modulus
          (answerTo (remaining ctx) (batchLength round modulus size))).take size) ctx' := by
  obtain ⟨ctx', hpass⟩ :=
    run_sampleUntil_first hround hevp hmodulus hbits hsize hpositive hanswered ctx
  refine ⟨ctx', ?_⟩
  rw [hpass, rejectionSample_ok hmodulus (by omega) (Nat.zero_le size) (dvd_length_answerTo _ _ _ _)
    (Or.inr henough)]
  apply run_sampleUntil_full
  rw [List.length_take]
  exact Nat.le_min.mpr ⟨le_rfl, henough⟩

/-! ### Reads outside the batch -/

theorem sampleUntil_ne_outOfRange (hround : IsDoubleRounding round)
    (hevp : evp.IsAes256Ctr aes256 remaining) (hmodulus : 1 < modulus)
    (hbits : bitLength modulus < 31) (hbyte : bytesPerValue modulus = 1)
    (hsize : size < 2 ^ 61) (hret : ret.length ≤ size) (ctx ctx' : Ctx) :
    (sampleUntil round evp modulus size fuel ret).run ctx ≠ .error .outOfRange ctx' := by
  induction fuel using Nat.strong_induction_on generalizing ret ctx with
  | _ fuel ih =>
      rcases run_sampleUntil_cases hround hevp hmodulus hbits hsize fuel ret ctx with
        ⟨-, hrun⟩ | ⟨-, -, e, ctx₁, hne, hrun⟩ | ⟨-, -, fuel, ctx₁, rfl, -, hrun⟩
      · rw [hrun]
        rintro ⟨⟩
      · rw [hrun]
        rintro ⟨⟩
        exact hne rfl
      · rw [hrun, rejectionSample_ok hmodulus (by omega) hret (dvd_length_answerTo _ _ _ _)
          (Or.inl hbyte)]
        exact ih fuel (Nat.lt_succ_self fuel) (List.length_take_le _ _) ctx₁

/-- With more bytes to a candidate, the first pass decides. -/
theorem sampleUntil_nil_outOfRange_iff (hround : IsDoubleRounding round)
    (hevp : evp.IsAes256Ctr aes256 remaining) (hmodulus : 1 < modulus)
    (hbits : bitLength modulus < 31) (hbytes : bytesPerValue modulus ≠ 1)
    (hpositive : 0 < size) (hsize : size < 2 ^ 61) (ctx : Ctx) :
    (∃ fuel ctx', (sampleUntil round evp modulus size fuel []).run ctx = .error .outOfRange ctx')
      ↔ ¬ IsRefused (batchLength round modulus size)
        ∧ (acceptedValues modulus
            (answerTo (remaining ctx) (batchLength round modulus size))).length < size := by
  constructor
  · rintro ⟨fuel, ctx', hrun⟩
    rcases run_sampleUntil_cases hround hevp hmodulus hbits hsize fuel [] ctx with
      ⟨hfull, -⟩ | ⟨-, -, e, ctx₁, hne, hrefusal⟩ | ⟨-, hanswered, fuel, ctx₁, rfl, -, -⟩
    · exact absurd hpositive (Nat.not_lt.mpr hfull)
    · rw [hrefusal] at hrun
      cases hrun
      exact absurd rfl hne
    · refine ⟨hanswered, Nat.lt_of_not_le fun henough => ?_⟩
      obtain ⟨ctx₂, hpass⟩ :=
        run_sampleUntil_enough hround hevp hmodulus hbits hsize hpositive hanswered henough
      rw [hpass] at hrun
      cases hrun
  · rintro ⟨hanswered, hrejected⟩
    obtain ⟨ctx₁, hpass⟩ :=
      run_sampleUntil_first hround hevp hmodulus hbits hsize hpositive hanswered ctx
    refine ⟨1, ctx₁, ?_⟩
    rw [hpass, rejectionSample_outOfRange hmodulus (by omega) (dvd_length_answerTo _ _ _ _)
      (length_answerTo_pos hround hmodulus hbits _ _) hbytes hrejected]

end Loop

/-! ### The whole call -/

/-- A call that completes passes the checks with which it begins. -/
theorem run_checks_ok {α : Type} {size : Int64} {program : GeneratorM Ctx α} {e e' e'' : Failure}
    {ctx ctx' : Ctx} {a : α}
    (hrun : (if modulus ≤ 1 then throw e else if size < 0 then throw e'
      else if 2 ^ 61 ≤ size then throw e'' else program : GeneratorM Ctx α).run ctx = .ok a ctx') :
    1 < modulus ∧ 0 ≤ size ∧ size < 2 ^ 61 ∧ program.run ctx = .ok a ctx' := by
  split at hrun
  · cases hrun
  rename_i hmodulus
  split at hrun
  · cases hrun
  rename_i hsize
  split at hrun
  · cases hrun
  rename_i hsmall
  exact ⟨UInt32.not_le.mp hmodulus, Int64.not_lt.mp hsize, Int64.not_le.mp hsmall, hrun⟩

theorem generateUniformRandomRange_eq {size : Int64} (hmodulus : 1 < modulus) (hsize : 0 ≤ size)
    (hsmall : size < 2 ^ 61) (fuel : ℕ) :
    generateUniformRandomRange round evp fuel size modulus
      = sampleUntil round evp modulus size.toNatClampNeg fuel [] := by
  rw [generateUniformRandomRange, if_neg (UInt32.not_le.mpr hmodulus),
    if_neg (Int64.not_lt.mpr hsize), if_neg (Int64.not_le.mpr hsmall)]

theorem run_generateUniformRandomRange_lengthError {size : Int64} (hmodulus : 1 < modulus)
    (hsize : 0 ≤ size) (hlarge : 2 ^ 61 ≤ size) (fuel : ℕ) (ctx : Ctx) :
    (generateUniformRandomRange round evp fuel size modulus).run ctx = .error .lengthError ctx := by
  rw [generateUniformRandomRange, if_neg (UInt32.not_le.mpr hmodulus),
    if_neg (Int64.not_lt.mpr hsize), if_pos hlarge]
  rfl

theorem toNatClampNeg_pos_iff {size : Int64} (hsize : 0 ≤ size) :
    0 < size.toNatClampNeg ↔ size ≠ 0 := by
  rw [Int64.le_iff_toInt_le, Int64.toInt_zero] at hsize
  rw [ne_eq, ← Int64.toInt_inj, Int64.toInt_zero, Int64.toNatClampNeg]
  omega

/-- **When every read is inside its batch.** For every keystream, exactly if a candidate is one byte
or no pass runs out of chunks. -/
theorem generateUniformRandomRange_inBatch_iff (hround : IsDoubleRounding round)
    (hevp : evp.IsAes256Ctr aes256 remaining) (hmodulus : 1 < modulus) (hle : modulus ≤ 2 ^ 30)
    {size : Int64} (hsize : 0 ≤ size) (ctx : Ctx) :
    (∀ fuel ctx', (generateUniformRandomRange round evp fuel size modulus).run ctx
        ≠ .error .outOfRange ctx')
      ↔ modulus ≤ 256 ∨ FirstBatchSuffices round modulus size (remaining ctx) := by
  have hbits := bitLength_lt_of_le hle
  rw [← bytesPerValue_eq_one_iff hmodulus, FirstBatchSuffices]
  by_cases hlarge : 2 ^ 61 ≤ size
  · refine iff_of_true (fun fuel ctx' => ?_) (Or.inr (Or.inr (Or.inl hlarge)))
    rw [run_generateUniformRandomRange_lengthError hmodulus hsize hlarge]
    rintro ⟨⟩
  have hsmall := Int64.not_le.mp hlarge
  have hbound := toNatClampNeg_lt hsmall
  simp only [generateUniformRandomRange_eq hmodulus hsize hsmall]
  by_cases hbyte : bytesPerValue modulus = 1
  · refine iff_of_true (fun fuel ctx' => ?_) (Or.inl hbyte)
    exact sampleUntil_ne_outOfRange hround hevp hmodulus hbits hbyte hbound (Nat.zero_le _) ctx
      ctx'
  by_cases hzero : size = 0
  · refine iff_of_true (fun fuel ctx' => ?_) (Or.inr (Or.inl hzero))
    rw [hzero, run_sampleUntil_full (Nat.le_refl 0)]
    rintro ⟨⟩
  have hfirst := sampleUntil_nil_outOfRange_iff hround hevp hmodulus hbits hbyte
    ((toNatClampNeg_pos_iff hsize).mpr hzero) hbound ctx
  rw [← not_iff_not, not_or, not_or, not_or, not_or, Nat.not_le]
  simp only [hlarge, hbyte, hzero, not_false_eq_true, true_and, ← hfirst, not_forall, not_not]

/-- The first two bytes of the test vector's keystream, `0x0bdf`, are accepted below 1000. -/
theorem generateUniformRandomRange_inBatch_iff_testBlock :
    FirstBatchSuffices roundToDouble 1000 1 testStream ∧
    ∀ fuel stream,
      (generateUniformRandomRange roundToDouble (ctrEvp testAes256) fuel 1 1000).run testStream
        ≠ .error .outOfRange stream := by
  have hsuffices : FirstBatchSuffices roundToDouble 1000 1 testStream :=
    Or.inr (Or.inr (Or.inr (by decide +kernel)))
  refine ⟨hsuffices, ?_⟩
  exact (generateUniformRandomRange_inBatch_iff isDoubleRounding_roundToDouble testEvp_isAes256Ctr
    (by decide) (by decide) (by decide) testStream).mpr (Or.inr hsuffices)

/-- Below 257 the two candidates of the first pass, `0x0bdf` and `0x7df1`, are rejected, and the
third is read from the four bytes that follow the batch. -/
theorem generateUniformRandomRange_outOfRange :
    create (ctrEvp testAes256) testKey testIv = .ok testStream ∧
    ∃ fuel stream,
      (generateUniformRandomRange roundToDouble (ctrEvp testAes256) fuel 1 257).run testStream
        = .error .outOfRange stream := by
  refine ⟨create_testEvp, ?_⟩
  have hanswered : ¬ IsRefused (batchLength roundToDouble 257 1) := by
    unfold IsRefused
    decide +kernel
  simp only [generateUniformRandomRange_eq (show (1 : UInt32) < 257 by decide)
    (show (0 : Int64) ≤ 1 by decide) (show (1 : Int64) < 2 ^ 61 by decide +kernel)]
  exact (sampleUntil_nil_outOfRange_iff isDoubleRounding_roundToDouble testEvp_isAes256Ctr
    (by decide) (bitLength_lt_of_le (by decide)) (by decide +kernel) Nat.one_pos (by omega)
    testStream).mpr ⟨hanswered, by decide +kernel⟩

end Pass

end AnySketchCorrectness
