import AnySketchCorrectness.Proof.UniformLaw

/-!
# Shares from a random keystream

The mask that a seed expands to is uniform as far as the expansion completes, so the share vector,
and whether there is one, says nothing about the input. With a power of two as modulus no candidate
is rejected: the expansion always completes and the share vector is exactly uniform.
-/

namespace AnySketchCorrectness

open UniformPseudorandomGenerator CounterMode IndependentDraws StateInvariant DoubleRounding
open scoped ENNReal

variable {modulus : UInt32} {n : ℕ} {input input' : List UInt32}

/-! ### Masks that can fail -/

/-- The share vector, from what the expansion of the seed answers. -/
def shareVectorFrom (modulus : UInt32) (input : List UInt32) (mask : StatusOr (List UInt32)) :
    StatusOr (List UInt32) :=
  mask.bind (computeShareVector modulus input)

section Secrecy

variable {law : PMF (StatusOr (List UInt32))}

theorem computeShareVector_vector (hinput : IsVectorBelow modulus n input)
    {mask shares : List UInt32}
    (hmask : IsVectorBelow modulus n mask)
    (hshares : computeShareVector modulus input mask = .ok shares) :
    IsVectorBelow modulus n shares := by
  have hbelow :=
    ((computeShareVector_eq_ok_iff (hmask.1.trans hinput.1.symm)).mp hshares).2.2.1
  rwa [hinput.1] at hbelow

theorem shareVectorFrom_vector (hlaw : IsUniformOnVectors modulus n law)
    (hinput : IsVectorBelow modulus n input) {mask : StatusOr (List UInt32)}
    (hmask : mask ∈ law.support) {shares : List UInt32}
    (hshares : shareVectorFrom modulus input mask = .ok shares) :
    ∃ values, mask = .ok values ∧ IsVectorBelow modulus n values
      ∧ IsVectorBelow modulus n shares
      ∧ computeShareVector modulus input values = .ok shares := by
  cases mask with
  | error e => cases hshares
  | ok values =>
      have hvalues := hlaw.vector values hmask
      exact ⟨values, rfl, hvalues, computeShareVector_vector hinput hvalues hshares, hshares⟩

/-- A share vector is as likely as the one mask that it comes from. -/
theorem map_shareVectorFrom_ok (hlaw : IsUniformOnVectors modulus n law)
    (hinput : IsVectorBelow modulus n input) {shares : List UInt32}
    (hshares : IsVectorBelow modulus n shares) :
    law.map (shareVectorFrom modulus input) (.ok shares) * modulus.toNat ^ n
      = law.toOuterMeasure {answer | ∃ values, answer = .ok values} := by
  obtain ⟨mask, ⟨hmask, hcompute⟩, hunique⟩ := existsUnique_mask hinput hshares
  have honly : law.map (shareVectorFrom modulus input) (.ok shares) = law (.ok mask) := by
    rw [← PMF.toOuterMeasure_apply_singleton, ← PMF.toOuterMeasure_apply_singleton,
      PMF.toOuterMeasure_map_apply]
    apply PMF.toOuterMeasure_apply_eq_of_inter_support_eq
    ext answer
    refine and_congr_left fun hsupport => ?_
    constructor
    · intro hanswer
      obtain ⟨values, rfl, hvalues, -, hvalue⟩ :=
        shareVectorFrom_vector hlaw hinput hsupport hanswer
      exact congrArg Except.ok (hunique values ⟨hvalues, hvalue⟩)
    · rintro rfl
      exact hcompute
  rw [honly]
  exact hlaw.equal mask hmask

theorem map_shareVectorFrom_error (hlaw : IsUniformOnVectors modulus n law)
    (hinput : IsVectorBelow modulus n input) (e : Failure) :
    law.map (shareVectorFrom modulus input) (.error e) = law (.error e) := by
  rw [← PMF.toOuterMeasure_apply_singleton, ← PMF.toOuterMeasure_apply_singleton,
    PMF.toOuterMeasure_map_apply]
  apply PMF.toOuterMeasure_apply_eq_of_inter_support_eq
  ext answer
  refine and_congr_left fun hsupport => ?_
  cases answer with
  | error e' => exact Iff.rfl
  | ok values =>
      obtain ⟨shares, hshares⟩ := exists_computeShareVector hinput (hlaw.vector values hsupport)
      refine iff_of_false (fun herror => ?_) (by rintro ⟨⟩)
      have hmapped : computeShareVector modulus input values = .error e := herror
      rw [hshares] at hmapped
      cases hmapped

theorem pow_ne (hmodulus : 1 < modulus) (n : ℕ) :
    (modulus.toNat : ℝ≥0∞) ^ n ≠ 0 ∧ (modulus.toNat : ℝ≥0∞) ^ n ≠ ⊤ := by
  have hpositive : modulus.toNat ≠ 0 := Nat.ne_zero_of_lt (UInt32.lt_iff_toNat_lt.mp hmodulus)
  exact ⟨pow_ne_zero n (Nat.cast_ne_zero.mpr hpositive),
    ENNReal.pow_ne_top (ENNReal.natCast_ne_top _)⟩

theorem map_shareVectorFrom_never (hlaw : IsUniformOnVectors modulus n law)
    (hinput : IsVectorBelow modulus n input) {shares : List UInt32}
    (hshares : ¬ IsVectorBelow modulus n shares) :
    law.map (shareVectorFrom modulus input) (.ok shares) = 0 := by
  rw [PMF.apply_eq_zero_iff, PMF.mem_support_map_iff]
  rintro ⟨mask, hmask, hanswer⟩
  obtain ⟨values, -, -, hvector, -⟩ := shareVectorFrom_vector hlaw hinput hmask hanswer
  exact hshares hvector

/-- Masks that are uniform as far as there are any give share vectors that are. -/
theorem isUniformOnVectors_map (hmodulus : 1 < modulus) (hlaw : IsUniformOnVectors modulus n law)
    (hinput : IsVectorBelow modulus n input) :
    IsUniformOnVectors modulus n (law.map (shareVectorFrom modulus input)) := by
  refine isUniformOnVectors_of_equal (fun shares hne => ?_)
    fun shares shares' hshares hshares' => ?_
  · by_contra hvector
    exact hne (map_shareVectorFrom_never hlaw hinput hvector)
  · obtain ⟨hne, hfinite⟩ := pow_ne hmodulus n
    exact (ENNReal.mul_left_inj hne hfinite).mp ((map_shareVectorFrom_ok hlaw hinput hshares).trans
      (map_shareVectorFrom_ok hlaw hinput hshares').symm)

theorem map_shareVectorFrom_eq (hmodulus : 1 < modulus) (hlaw : IsUniformOnVectors modulus n law)
    (hinput : IsVectorBelow modulus n input) (hinput' : IsVectorBelow modulus n input') :
    law.map (shareVectorFrom modulus input) = law.map (shareVectorFrom modulus input') := by
  ext answer
  cases answer with
  | error e =>
      rw [map_shareVectorFrom_error hlaw hinput, map_shareVectorFrom_error hlaw hinput']
  | ok shares =>
      by_cases hshares : IsVectorBelow modulus n shares
      · have hboth := (map_shareVectorFrom_ok hlaw hinput hshares).trans
          (map_shareVectorFrom_ok hlaw hinput' hshares).symm
        obtain ⟨hne, hfinite⟩ := pow_ne hmodulus n
        exact (ENNReal.mul_left_inj hne hfinite).mp hboth
      · rw [map_shareVectorFrom_never hlaw hinput hshares,
          map_shareVectorFrom_never hlaw hinput' hshares]

end Secrecy

/-! ### The shares that are returned -/

section Shares

variable {Ctx Rng : Type} {round : ℚ → ℚ} {evp : EvpCipher Ctx}
  {aes256 : ByteString → AesBlock → AesBlock} {remaining : Ctx → Stream' UInt8} {fuel count : ℕ}

/-- A generator was made from the seed that the random source drew. -/
structure MakesGenerator (evp : EvpCipher Ctx) (rand : RandSource Rng) (rng : Rng) (ctx : Ctx) :
    Prop where
  status : rand.status rng = 1
  draws : ∃ key iv rng₁ rng₂, rand.bytes rng bytesPerAes256Key = (1, key, rng₁)
    ∧ rand.bytes rng₁ bytesPerAes256Iv = (1, iv, rng₂) ∧ create evp key iv = .ok ctx

theorem generateSecretShares_shareVector {rand : RandSource Rng} {rng : Rng} {ctx : Ctx}
    (hmodulus : 1 < modulus) (hinput : input ≠ []) (hmakes : MakesGenerator evp rand rng ctx) :
    (evaluate (generateSecretShares round evp rand fuel ⟨modulus⟩ input) rng).map
        SecretShare.shareVector
      = shareVectorFrom modulus input (evaluate
          (generateUniformRandomRange round evp fuel (Int64.ofNat input.length) modulus) ctx) := by
  obtain ⟨hstatus, key, iv, rng₁, rng₂, hkey, hiv, hcreate⟩ := hmakes
  generalize hmask : evaluate
    (generateUniformRandomRange round evp fuel (Int64.ofNat input.length) modulus) ctx = mask
  unfold evaluate generateSecretShares
  rw [if_neg (by rwa [List.length_eq_zero_iff]), if_neg (UInt32.not_le.mpr hmodulus)]
  simp only [EStateM.run_bind, EStateM.run_get, EStateM.run_set, run_ofExcept_ok, hstatus, hkey,
    hiv, hcreate, hmask, ne_eq, not_true_eq_false, if_false]
  cases mask with
  | error e => rfl
  | ok mask =>
      simp only [shareVectorFrom, Except.bind, run_ofExcept_ok]
      cases computeShareVector modulus input mask with
      | error e => rfl
      | ok shares => rfl

theorem toNatClampNeg_ofNat {n : ℕ} (hn : n < 2 ^ 63) : (Int64.ofNat n).toNatClampNeg = n := by
  rw [Int64.toNatClampNeg, Int64.toInt_ofNat_of_lt hn, Int.toNat_natCast]

theorem ofNat_nonneg {n : ℕ} (hn : n < 2 ^ 63) : 0 ≤ Int64.ofNat n := by
  rw [Int64.le_iff_toInt_le, Int64.toInt_zero, Int64.toInt_ofNat_of_lt hn]
  exact Int.natCast_nonneg n

theorem isUniformOnVectors_answerLaw (hround : IsDoubleRounding round)
    (hevp : evp.IsAes256Ctr aes256 remaining) (hmodulus : 1 < modulus) (hle : modulus ≤ 2 ^ 30)
    (hserved : batchLength round modulus n < 2 ^ 31)
    (hcount : fuel * candidates round modulus n ≤ count)
    (contexts : KeystreamFamily remaining (bytesPerValue modulus * count)) :
    IsUniformOnVectors modulus n
      (answerLaw contexts (generateUniformRandomRange round evp fuel (Int64.ofNat n) modulus)) := by
  have hn : n < 2 ^ 63 :=
    (lt_of_served hround hmodulus (bitLength_lt_of_le hle) hserved).trans (by decide)
  have hclamped := toNatClampNeg_ofNat hn
  have hlaw := uniformOnVectors_answerLaw hround hevp hmodulus hle (ofNat_nonneg hn)
    (by rwa [hclamped]) (by rwa [hclamped]) contexts
  rwa [hclamped] at hlaw

/-- **The share vector is secret.** When the seed's keystream begins with uniform bytes, the share
vector that is returned, or the error, has the same law for any two inputs of one length. -/
theorem generateSecretShares_secret (hround : IsDoubleRounding round)
    (hevp : evp.IsAes256Ctr aes256 remaining) (hmodulus : 1 < modulus) (hle : modulus ≤ 2 ^ 30)
    (hserved : batchLength round modulus n < 2 ^ 31)
    (hcount : fuel * candidates round modulus n ≤ count)
    (contexts : KeystreamFamily remaining (bytesPerValue modulus * count))
    (hinput : IsVectorBelow modulus n input) (hinput' : IsVectorBelow modulus n input')
    (hn : n ≠ 0) :
    (answerLaw contexts (generateUniformRandomRange round evp fuel (Int64.ofNat n) modulus)).map
        (shareVectorFrom modulus input)
      = (answerLaw contexts (generateUniformRandomRange round evp fuel (Int64.ofNat n) modulus)).map
          (shareVectorFrom modulus input') ∧
    ∀ {Rng : Type} (rand : RandSource Rng) (rng : Rng) (bytes : ByteString),
      MakesGenerator evp rand rng (contexts.ctxOf bytes) →
      (evaluate (generateSecretShares round evp rand fuel ⟨modulus⟩ input) rng).map
          SecretShare.shareVector
        = shareVectorFrom modulus input (evaluate
            (generateUniformRandomRange round evp fuel (Int64.ofNat n) modulus)
            (contexts.ctxOf bytes)) := by
  have hlaw := isUniformOnVectors_answerLaw hround hevp hmodulus hle hserved hcount contexts
  refine ⟨map_shareVectorFrom_eq hmodulus hlaw hinput hinput', ?_⟩
  intro Rng rand rng bytes hmakes
  have hne : input ≠ [] := by
    rintro rfl
    exact hn hinput.1.symm
  rw [generateSecretShares_shareVector hmodulus hne hmakes, hinput.1]

end Shares

theorem generateSecretShares_secret_pair :
    (answerLaw (paddedStreams (bytesPerValue 251 * 4))
        (generateUniformRandomRange roundToDouble (ctrEvp testAes256) 1 (Int64.ofNat 3) 251)).map
        (shareVectorFrom 251 [5, 250, 125])
      = (answerLaw (paddedStreams (bytesPerValue 251 * 4))
          (generateUniformRandomRange roundToDouble (ctrEvp testAes256) 1 (Int64.ofNat 3) 251)).map
          (shareVectorFrom 251 [0, 0, 0]) := by
  have hinput : IsVectorBelow 251 3 [5, 250, 125] := ⟨rfl, by simp⟩
  have hinput' : IsVectorBelow 251 3 [0, 0, 0] := ⟨rfl, by simp⟩
  exact (generateSecretShares_secret isDoubleRounding_roundToDouble testEvp_isAes256Ctr (by decide)
    (by decide) (by decide +kernel) (by decide +kernel) (paddedStreams (bytesPerValue 251 * 4))
    hinput hinput' (by decide)).1

/-! ### Powers of two -/

section TwoPow

variable {Ctx : Type} {round : ℚ → ℚ} {evp : EvpCipher Ctx}
  {aes256 : ByteString → AesBlock → AesBlock} {remaining : Ctx → Stream' UInt8} {fuel count : ℕ}

theorem acceptedValues_two_pow (hpow : modulus.toNat = 2 ^ bitLength modulus)
    (bytes : ByteString) :
    acceptedValues modulus bytes
      = (FixedWidth.records (bytesPerValue modulus) bytes).map (chunkValue modulus) := by
  refine List.filter_eq_self.mpr fun value hvalue => ?_
  obtain ⟨chunk, -, rfl⟩ := List.mem_map.mp hvalue
  rw [decide_eq_true_iff, UInt32.lt_iff_toNat_lt, chunkValue_toNat, hpow]
  exact Nat.mod_lt _ (Nat.two_pow_pos _)

theorem length_records_take (hmodulus : 1 < modulus) (stream : Stream' UInt8) (n : ℕ) :
    (FixedWidth.records (bytesPerValue modulus)
      (stream.take (bytesPerValue modulus * n))).length = n := by
  rw [FixedWidth.records, List.length_map, List.length_range, Stream'.length_take,
    Nat.mul_div_cancel_left n (bytesPerValue_pos hmodulus)]

theorem take_records (hmodulus : 1 < modulus) (stream : Stream' UInt8) {n count : ℕ}
    (hle : n ≤ count) :
    (FixedWidth.records (bytesPerValue modulus)
        (stream.take (bytesPerValue modulus * count))).take n
      = FixedWidth.records (bytesPerValue modulus) (stream.take (bytesPerValue modulus * n)) := by
  have hwhole : bytesPerValue modulus ∣ (stream.take (bytesPerValue modulus * n)).length := by
    rw [Stream'.length_take]
    exact Nat.dvd_mul_right _ _
  rw [← Nat.add_sub_cancel' hle, Nat.mul_add, take_add, FixedWidth.records_append hwhole]
  exact List.take_left' (length_records_take hmodulus stream n)

/-- No candidate is rejected, so the first pass suffices. -/
theorem evaluate_generateUniformRandomRange_two_pow (hround : IsDoubleRounding round)
    (hevp : evp.IsAes256Ctr aes256 remaining) (hmodulus : 1 < modulus) (hle : modulus ≤ 2 ^ 30)
    (hpow : modulus.toNat = 2 ^ bitLength modulus) (hserved : batchLength round modulus n < 2 ^ 31)
    (hfuel : 0 < fuel) (ctx : Ctx) :
    evaluate (generateUniformRandomRange round evp fuel (Int64.ofNat n) modulus) ctx
      = .ok ((FixedWidth.records (bytesPerValue modulus)
          ((remaining ctx).take (bytesPerValue modulus * n))).map (chunkValue modulus)) := by
  have hbits := bitLength_lt_of_le hle
  have hn := lt_of_served hround hmodulus hbits hserved
  have hsmall : n < 2 ^ 63 := hn.trans (by decide)
  have hclamped := toNatClampNeg_ofNat hsmall
  obtain ⟨fuel, rfl⟩ := Nat.exists_eq_succ_of_ne_zero hfuel.ne'
  rw [evaluate_eq_ok_iff, generateUniformRandomRange_eq hmodulus (ofNat_nonneg hsmall)
    (size_lt_of_served hround hmodulus hbits (by rwa [hclamped])), hclamped]
  rcases Nat.eq_zero_or_pos n with rfl | hpositive
  · refine ⟨ctx, (run_sampleUntil_full (Nat.zero_le _) _ ctx).trans ?_⟩
    rw [Nat.mul_zero, Stream'.take_zero, FixedWidth.records, List.length_nil, Nat.zero_div]
    rfl
  · have haccepted : acceptedValues modulus (answerTo (remaining ctx) (batchLength round modulus n))
        = (FixedWidth.records (bytesPerValue modulus) ((remaining ctx).take
            (bytesPerValue modulus * candidates round modulus n))).map (chunkValue modulus) := by
      rw [acceptedValues_two_pow hpow, answerTo_of_lt _ (hserved.trans (by decide)), batchLength]
    have hmore : n ≤ candidates round modulus n :=
      (lt_candidates hround hmodulus hbits (hn.trans (by decide))).le
    have henough : n ≤ (acceptedValues modulus
        (answerTo (remaining ctx) (batchLength round modulus n))).length := by
      rw [haccepted, List.length_map, length_records_take hmodulus]
      exact hmore
    obtain ⟨ctx', hrun⟩ := run_sampleUntil_enough hround hevp hmodulus hbits
      (hn.trans (by decide)) hpositive (not_isRefused_of_lt hserved) henough
    refine ⟨ctx', hrun.trans ?_⟩
    rw [haccepted, ← List.map_take, take_records hmodulus _ hmore]

/-! Without errors, uniform as far as the call completes is just uniform. -/

theorem uniformMask_apply (hmodulus : 1 < modulus) {values : List UInt32}
    (hvalues : IsVectorBelow modulus n values) :
    uniformMask hmodulus n values * modulus.toNat ^ n = 1 := by
  have : NeZero modulus.toNat := ⟨Nat.ne_zero_of_lt (UInt32.lt_iff_toNat_lt.mp hmodulus)⟩
  obtain ⟨entries, rfl⟩ := exists_vectorOf hvalues
  have hchance : uniformMask hmodulus n (vectorOf modulus entries)
      = PMF.uniformOfFintype (Fin n → Fin modulus.toNat) entries := by
    rw [uniformMask, PMF.map_apply, tsum_eq_single entries, if_pos rfl]
    intro entries' hne
    exact if_neg fun heq => hne (vectorOf_injective modulus n heq.symm)
  obtain ⟨hne, hfinite⟩ := pow_ne hmodulus n
  rw [hchance, PMF.uniformOfFintype_apply, Fintype.card_fun, Fintype.card_fin, Fintype.card_fin,
    Nat.cast_pow, ENNReal.inv_mul_cancel hne hfinite]

theorem isVectorBelow_of_mem_uniformMask (hmodulus : 1 < modulus) {values : List UInt32}
    (hvalues : values ∈ (uniformMask hmodulus n).support) : IsVectorBelow modulus n values := by
  obtain ⟨entries, -, rfl⟩ := (PMF.mem_support_map_iff _ _ _).mp hvalues
  exact vectorOf_isVectorBelow entries

theorem map_ok_apply (law : PMF (List UInt32)) (values : List UInt32) :
    law.map (.ok : _ → StatusOr (List UInt32)) (.ok values) = law values := by
  rw [PMF.map_apply, tsum_eq_single values, if_pos rfl]
  intro values' hne
  exact if_neg fun heq => hne (Except.ok.inj heq).symm

theorem eq_map_uniformMask {law : PMF (StatusOr (List UInt32))} (hmodulus : 1 < modulus)
    (hlaw : IsUniformOnVectors modulus n law) (htotal : ∀ e, law (.error e) = 0) :
    law = (uniformMask hmodulus n).map .ok := by
  have hcompletes : law.toOuterMeasure {answer | ∃ values, answer = .ok values} = 1 := by
    rw [PMF.toOuterMeasure_apply_eq_one_iff]
    intro answer hsupport
    cases answer with
    | error e => exact absurd (htotal e) hsupport
    | ok values => exact ⟨values, rfl⟩
  ext answer
  cases answer with
  | error e =>
      rw [htotal, eq_comm, PMF.apply_eq_zero_iff, PMF.mem_support_map_iff]
      rintro ⟨values, -, ⟨⟩⟩
  | ok values =>
      rw [map_ok_apply]
      by_cases hvalues : IsVectorBelow modulus n values
      · obtain ⟨hne, hfinite⟩ := pow_ne hmodulus n
        have hequal := (hlaw.equal values hvalues).trans hcompletes
        exact (ENNReal.mul_left_inj hne hfinite).mp
          (hequal.trans (uniformMask_apply hmodulus hvalues).symm)
      · have hnever : law (.ok values) = 0 := by
          by_contra hne
          exact hvalues (hlaw.vector values hne)
        rw [hnever, eq_comm, PMF.apply_eq_zero_iff]
        exact fun hsupport => hvalues (isVectorBelow_of_mem_uniformMask hmodulus hsupport)

/-- **Powers of two.** If the modulus is a power of two, a request that is served always completes,
and the values of a uniform keystream, as well as the share vector of any input, are exactly
uniform. -/
theorem generateUniformRandomRange_two_pow (hround : IsDoubleRounding round)
    (hevp : evp.IsAes256Ctr aes256 remaining) (hmodulus : 1 < modulus) (hle : modulus ≤ 2 ^ 30)
    (hpow : modulus.toNat = 2 ^ bitLength modulus) (hserved : batchLength round modulus n < 2 ^ 31)
    (hfuel : 0 < fuel) (hcount : fuel * candidates round modulus n ≤ count)
    (contexts : KeystreamFamily remaining (bytesPerValue modulus * count)) :
    (∀ ctx, ∃ values, evaluate
      (generateUniformRandomRange round evp fuel (Int64.ofNat n) modulus) ctx = .ok values) ∧
    answerLaw contexts (generateUniformRandomRange round evp fuel (Int64.ofNat n) modulus)
      = (uniformMask hmodulus n).map .ok ∧
    ∀ input, IsVectorBelow modulus n input →
      (answerLaw contexts (generateUniformRandomRange round evp fuel (Int64.ofNat n) modulus)).map
          (shareVectorFrom modulus input)
        = (uniformMask hmodulus n).map .ok := by
  have hlaw := isUniformOnVectors_answerLaw hround hevp hmodulus hle hserved hcount contexts
  have hcompletes :=
    evaluate_generateUniformRandomRange_two_pow hround hevp hmodulus hle hpow hserved hfuel
  have htotal : ∀ e, answerLaw contexts
      (generateUniformRandomRange round evp fuel (Int64.ofNat n) modulus) (.error e) = 0 := by
    intro e
    rw [PMF.apply_eq_zero_iff, answerLaw, PMF.mem_support_map_iff]
    rintro ⟨bytes, -, herror⟩
    rw [hcompletes] at herror
    cases herror
  refine ⟨fun ctx => ⟨_, hcompletes ctx⟩, eq_map_uniformMask hmodulus hlaw htotal, ?_⟩
  intro input hinput
  refine eq_map_uniformMask hmodulus (isUniformOnVectors_map hmodulus hlaw hinput) fun e => ?_
  rw [map_shareVectorFrom_error hlaw hinput, htotal]

theorem generateUniformRandomRange_two_pow_256 :
    answerLaw (paddedStreams (bytesPerValue 256 * 4))
        (generateUniformRandomRange roundToDouble (ctrEvp testAes256) 1 (Int64.ofNat 3) 256)
      = (uniformMask (show (1 : UInt32) < 256 by decide) 3).map .ok :=
  (generateUniformRandomRange_two_pow isDoubleRounding_roundToDouble testEvp_isAes256Ctr _
    (by decide) (by decide +kernel) (by decide +kernel) (by decide) (by decide +kernel)
    (paddedStreams (bytesPerValue 256 * 4))).2.1

end TwoPow

end AnySketchCorrectness
