import AnySketchCorrectness.Proof.UniformSampling
import AnySketchCorrectness.Library.Refill
import AnySketchCorrectness.Library.StateInvariant

/-!
# Sampling values other than zero

`GenerateNonZeroUniformRandomRange` fills up a list from the answers of
`GenerateUniformRandomRange`. A pass asks for the values that are missing, one more, and as many
again as should turn out zero. The zeros are left out and nothing else is, whatever number of passes
that takes.
-/

namespace AnySketchCorrectness

open UniformPseudorandomGenerator StateInvariant DoubleRounding

variable {Ctx : Type} {round : ℚ → ℚ} {evp : EvpCipher Ctx} {modulus : UInt32}

/-! ### The number of values asked for -/

section Requests

variable (hround : IsDoubleRounding round)
include hround

theorem nonZeroFailureRate_nonneg : 0 ≤ nonZeroFailureRate round modulus :=
  hround.nonneg (by positivity)

variable (hmodulus : 1 < modulus)
include hmodulus

theorem nonZeroFailureRate_le_half : nonZeroFailureRate round modulus ≤ 1 / 2 := by
  have htwo : (2 : ℚ) ≤ modulus.toNat := by exact_mod_cast UInt32.lt_iff_toNat_lt.mp hmodulus
  rw [← round_half hround]
  apply hround.mono
  exact one_div_le_one_div_of_le two_pos htwo

theorem le_nonZeroFailureRate : 1 / 2 ^ 32 ≤ nonZeroFailureRate round modulus := by
  have hexact := hround.round_div_two_pow (m := 1) (k := 32) (by decide) (by decide)
  have hlt : (modulus.toNat : ℚ) ≤ 2 ^ 32 := by exact_mod_cast modulus.toNat_lt.le
  have hpositive : (0 : ℚ) < modulus.toNat := by
    exact_mod_cast (UInt32.lt_iff_toNat_lt.mp hmodulus).trans' Nat.zero_lt_one
  rw [Int.cast_one] at hexact
  rw [← hexact]
  apply hround.mono
  exact one_div_le_one_div_of_le hpositive hlt

variable {missing : ℕ}

/-- Numbers that are not exact as doubles are large, and many zeros are expected. -/
theorem le_expectedSurplus (hlarge : 2 ^ 53 ≤ missing) :
    2 ^ 21 ≤ expectedSurplus round (nonZeroFailureRate round modulus) missing := by
  have hrate := le_nonZeroFailureRate hround hmodulus
  have hcomplement := half_le_round_sub hround (nonZeroFailureRate_le_half hround hmodulus)
  have hexact := hround.round_two_pow (show 21 ≤ 970 by decide)
  have hone : round (1 - nonZeroFailureRate round modulus) ≤ 1 := by
    have hle : 1 - nonZeroFailureRate round modulus ≤ 1 :=
      sub_le_self 1 (nonZeroFailureRate_nonneg hround)
    have hround_one : round 1 = 1 := by exact_mod_cast hround.round_nat (by decide : 1 ≤ 2 ^ 53)
    exact (hround.mono hle).trans_eq hround_one
  have hcurrent : 2 ^ 53 ≤ round missing := by
    rw [← hround.round_two_pow (show 53 ≤ 970 by decide)]
    exact hround.mono (by exact_mod_cast hlarge)
  have hproduct : 2 ^ 21 ≤ round (nonZeroFailureRate round modulus * round missing) := by
    rw [← hexact]
    apply hround.mono
    calc (2 : ℚ) ^ 21 = 1 / 2 ^ 32 * 2 ^ 53 := by norm_num
      _ ≤ nonZeroFailureRate round modulus * round missing := by gcongr
  rw [expectedSurplus, ← hexact]
  apply hround.mono
  rw [le_div_iff₀ (by linarith)]
  calc 2 ^ 21 * round (1 - nonZeroFailureRate round modulus) ≤ 2 ^ 21 * 1 := by gcongr
    _ ≤ round (nonZeroFailureRate round modulus * round missing) := by rwa [mul_one]

theorem add_one_le_nonZeroExpected (hmissing : missing < 2 ^ 61) :
    (missing : ℚ) + 1 ≤ expectedSampleSize round (nonZeroFailureRate round modulus) missing := by
  rcases Nat.lt_or_ge missing (2 ^ 53) with hsmall | hlarge
  · exact add_one_le_expectedSampleSize hround (nonZeroFailureRate_nonneg hround)
      (nonZeroFailureRate_le_half hround hmodulus) hsmall
  · have hsurplus := le_expectedSurplus hround hmodulus hlarge
    have hle := multiple_le_expectedSampleSize hround hmissing
      (show 2 ^ 12 ≤ 2 ^ 52 by decide) (by push_cast; linarith)
    refine le_trans ?_ hle
    exact_mod_cast (show missing + 1 ≤ 2 ^ 9 * (missing / 2 ^ 9 + 2 ^ 12) by omega)

/-- The conversion to `int64_t` takes the number of values as it is. -/
theorem nonZeroSampleSize_toInt (hmissing : missing < 2 ^ 61) :
    (nonZeroSampleSize round modulus (Int64.ofNat missing)).toInt
      = ⌊expectedSampleSize round (nonZeroFailureRate round modulus) missing⌋₊ := by
  have hcurrent : (Int64.ofNat missing).toInt = missing := Int64.toInt_ofNat_of_lt (by omega)
  have hlower := add_one_le_nonZeroExpected hround hmodulus hmissing
  have hupper := expectedSampleSize_le_two_pow hround (nonZeroFailureRate_le_half hround hmodulus)
    hmissing
  have hmissingNonneg : (0 : ℚ) ≤ missing := Nat.cast_nonneg missing
  have hfloor : ⌊expectedSampleSize round (nonZeroFailureRate round modulus) missing⌋₊
      ≤ 2 ^ 62 + 2 ^ 10 := Nat.floor_le_of_le (by exact_mod_cast hupper)
  simp only [nonZeroSampleSize, hcurrent, Int.cast_natCast, tdiv_eq_floor (show 0 ≤
    expectedSampleSize round (nonZeroFailureRate round modulus) missing by linarith)]
  exact Int64.toInt_ofInt_of_le (by omega) (by omega)

/-- Every pass asks for more values than are missing. -/
theorem lt_nonZeroSampleSize (hmissing : missing < 2 ^ 61) :
    (missing : ℤ) < (nonZeroSampleSize round modulus (Int64.ofNat missing)).toInt := by
  have hlower := add_one_le_nonZeroExpected hround hmodulus hmissing
  have hfloor : missing + 1
      ≤ ⌊expectedSampleSize round (nonZeroFailureRate round modulus) missing⌋₊ :=
    Nat.le_floor (by exact_mod_cast hlower)
  rw [nonZeroSampleSize_toInt hround hmodulus hmissing]
  omega

end Requests

/-! ### The values of a uniform range -/

section Range

variable {size : ℕ} {arr : ByteString} {ret ret' : List UInt32}

/-- What a round can do. -/
theorem rejectionRound_ok {i : ℕ} (hsample : rejectionRound modulus size arr ret i = .ok ret') :
    ret' = ret ∨ ret.length < size ∧ ∃ value < modulus, ret' = ret ++ [value] := by
  rw [rejectionRound] at hsample
  split at hsample
  · cases hsample
    exact Or.inl rfl
  · rename_i hshort
    obtain ⟨candidate, -, haccepted⟩ := StatusOr.bind_eq_ok.mp hsample
    obtain rfl : (if candidate &&& mask modulus < modulus then ret ++ [candidate &&& mask modulus]
      else ret) = ret' := Except.ok.inj haccepted
    by_cases hlt : candidate &&& mask modulus < modulus
    · rw [if_pos hlt]
      exact Or.inr ⟨Nat.not_le.mp hshort, _, hlt, rfl⟩
    · exact Or.inl (if_neg hlt)

/-- The values sampled so far are below the modulus, and not too many. -/
def IsSample (modulus : UInt32) (size : ℕ) (values : List UInt32) : Prop :=
  values.length ≤ size ∧ ∀ value ∈ values, value < modulus

theorem IsSample.foldlM_rejectionRound {rounds : List ℕ} (hret : IsSample modulus size ret)
    (hrounds : rounds.foldlM (rejectionRound modulus size arr) ret = .ok ret') :
    IsSample modulus size ret' := by
  induction rounds generalizing ret with
  | nil =>
      cases hrounds
      exact hret
  | cons i rounds ih =>
      rw [List.foldlM_cons] at hrounds
      obtain ⟨next, hsample, hrest⟩ := StatusOr.bind_eq_ok.mp hrounds
      refine ih ?_ hrest
      rcases rejectionRound_ok hsample with rfl | ⟨hshort, value, hvalue, rfl⟩
      · exact hret
      · refine ⟨?_, List.forall_mem_append.mpr ⟨hret.2, List.forall_mem_singleton.mpr hvalue⟩⟩
        rw [List.length_append, List.length_singleton]
        exact hshort

/-- The loop ends with as many values as asked for. -/
theorem keeps_sampleUntil (evp : EvpCipher Ctx) (fuel : ℕ) (hret : IsSample modulus size ret) :
    Keeps (fun _ => True) (sampleUntil round evp modulus size fuel ret)
      fun values => values.length = size ∧ ∀ value ∈ values, value < modulus := by
  induction fuel generalizing ret with
  | zero =>
      rw [sampleUntil]
      split
      · rename_i hfull
        exact keeps_pure ⟨Nat.le_antisymm hret.1 hfull, hret.2⟩
      · exact keeps_throw _
  | succ fuel ih =>
      rw [sampleUntil]
      split
      · rename_i hfull
        exact keeps_pure ⟨Nat.le_antisymm hret.1 hfull, hret.2⟩
      · exact keeps_bind (Q := fun _ => True) (fun s _ => ⟨trivial, fun _ _ _ => trivial⟩)
          fun arr _ => keeps_bind
            (keeps_ofExcept fun ret' hsample => hret.foldlM_rejectionRound hsample)
            fun ret' hret' => ih hret'

theorem keeps_generateUniformRandomRange (round : ℚ → ℚ) (evp : EvpCipher Ctx) (fuel : ℕ)
    (request : Int64) (modulus : UInt32) :
    Keeps (fun _ => True) (generateUniformRandomRange round evp fuel request modulus)
      fun values => values.length = request.toNatClampNeg ∧ ∀ value ∈ values, value < modulus := by
  unfold generateUniformRandomRange
  split
  · exact keeps_throw _
  split
  · exact keeps_throw _
  split
  · exact keeps_throw _
  exact keeps_sampleUntil evp fuel ⟨Nat.zero_le _, List.forall_mem_nil _⟩

end Range

/-! ### The outer loop -/

/-- What the outer loop accepts from the answers it got. -/
def nonZeroValues (arrs : List (List UInt32)) : List UInt32 :=
  arrs.flatten.filter (0 < ·)

theorem nonZeroSample_eq_takeOver (size : ℕ) (arr ret : List UInt32) :
    nonZeroSample size arr ret = Refill.takeOver (0 < ·) size arr ret := by
  simp only [nonZeroSample, Refill.takeOver, decide_eq_true_eq]

theorem sampleNonZeroUntil_eq_fill (round : ℚ → ℚ) (evp : EvpCipher Ctx) (innerFuel : ℕ)
    (modulus : UInt32) (size fuel : ℕ) (ret : List UInt32) :
    sampleNonZeroUntil round evp innerFuel modulus size fuel ret
      = Refill.fill (0 < ·) size (fun missing => generateUniformRandomRange round evp innerFuel
          (nonZeroSampleSize round modulus (Int64.ofNat missing)) modulus) .outOfFuel fuel ret := by
  induction fuel generalizing ret with
  | zero => rfl
  | succ fuel ih =>
      rw [sampleNonZeroUntil, Refill.fill]
      simp only [ih, nonZeroSample_eq_takeOver]

theorem run_generateNonZeroUniformRandomRange_ok {innerFuel fuel : ℕ} {size : Int64}
    {ctx ctx' : Ctx} {values : List UInt32}
    (hrun : (generateNonZeroUniformRandomRange round evp innerFuel fuel size modulus).run ctx
      = .ok values ctx') :
    1 < modulus ∧ 0 ≤ size ∧ size < 2 ^ 61
      ∧ (sampleNonZeroUntil round evp innerFuel modulus size.toNatClampNeg fuel []).run ctx
        = .ok values ctx' := by
  unfold generateNonZeroUniformRandomRange at hrun
  exact run_checks_ok hrun

theorem mem_nonZeroValues {arrs : List (List UInt32)} {value : UInt32}
    (hmem : value ∈ nonZeroValues arrs) : 1 ≤ value ∧ ∃ arr ∈ arrs, value ∈ arr := by
  rw [nonZeroValues, List.mem_filter, List.mem_flatten, decide_eq_true_iff] at hmem
  obtain ⟨harr, hpositive⟩ := hmem
  rw [UInt32.lt_iff_toNat_lt] at hpositive
  exact ⟨UInt32.le_iff_toNat_le.mpr hpositive, harr⟩

/-- **The values other than zero of all the calls, in order.** -/
theorem generateNonZeroUniformRandomRange_spec (hround : IsDoubleRounding round)
    {innerFuel fuel : ℕ} {size : Int64} {ctx ctx' : Ctx} {values : List UInt32}
    (hrun : (generateNonZeroUniformRandomRange round evp innerFuel fuel size modulus).run ctx
      = .ok values ctx') :
    values.length = size.toNatClampNeg ∧ (∀ value ∈ values, 1 ≤ value ∧ value < modulus) ∧
    ∃ (requests : List Int64) (arrs : List (List UInt32)),
      (requests.mapM fun request =>
        generateUniformRandomRange round evp innerFuel request modulus).run ctx = .ok arrs ctx' ∧
      values = (nonZeroValues arrs).take size.toNatClampNeg ∧
      ∀ (i : ℕ) (request : Int64), requests[i]? = some request → ∃ missing : ℕ,
        missing = size.toNatClampNeg - (nonZeroValues (arrs.take i)).length ∧ 0 < missing ∧
        request = nonZeroSampleSize round modulus (Int64.ofNat missing) ∧
        (missing : ℤ) < request.toInt := by
  obtain ⟨hmodulus, -, hsmall, hloop⟩ := run_generateNonZeroUniformRandomRange_ok hrun
  rw [sampleNonZeroUntil_eq_fill] at hloop
  obtain ⟨missing, arrs, hcalls, hvalues, hlength, hmissing⟩ :=
    Refill.run_fill_ok (Nat.zero_le _) hloop
  obtain ⟨requests, hrequests_eq⟩ : ∃ requests, requests
      = missing.map fun n => nonZeroSampleSize round modulus (Int64.ofNat n) := ⟨_, rfl⟩
  have hrequests : (requests.mapM fun request =>
      generateUniformRandomRange round evp innerFuel request modulus).run ctx = .ok arrs ctx' := by
    rw [hrequests_eq, List.mapM_map]
    exact hcalls
  have hanswers := ((keeps_mapM requests fun request _ =>
    (keeps_generateUniformRandomRange round evp innerFuel request modulus).mono
      fun values hvalues => hvalues.2).result trivial hrequests).2
  refine ⟨hlength, fun value hmem => ?_, _, arrs, hrequests, hvalues, fun i request hrequest => ?_⟩
  · rw [hvalues] at hmem
    obtain ⟨hpositive, arr, harr, hvalue⟩ := mem_nonZeroValues (List.mem_of_mem_take hmem)
    exact ⟨hpositive, hanswers arr harr value hvalue⟩
  · rw [hrequests_eq, List.getElem?_map, Option.map_eq_some_iff] at hrequest
    obtain ⟨n, hn, rfl⟩ := hrequest
    obtain ⟨hequal, hpositive⟩ := hmissing i n hn
    have hbound : n < 2 ^ 61 := by
      rw [hequal]
      exact (Nat.sub_le _ _).trans_lt (toNatClampNeg_lt hsmall)
    exact ⟨n, hequal, hpositive, rfl, lt_nonZeroSampleSize hround hmodulus hbound⟩

/-- Two values below 16 from the keystream of the test vector. -/
theorem generateNonZeroUniformRandomRange_spec_testBlock : ∃ values stream,
    (generateNonZeroUniformRandomRange roundToDouble (ctrEvp testAes256) 1 1 2 16).run testStream
      = .ok values stream ∧
    values.length = 2 ∧ ∀ value ∈ values, 1 ≤ value ∧ value < 16 := by
  have hsucceeds : succeeds ((generateNonZeroUniformRandomRange roundToDouble (ctrEvp testAes256)
      1 1 2 16).run testStream) = true := by
    decide +kernel
  obtain ⟨values, stream, hrun⟩ := exists_ok_of_succeeds hsucceeds
  obtain ⟨hlength, hrange, -⟩ :=
    generateNonZeroUniformRandomRange_spec isDoubleRounding_roundToDouble hrun
  exact ⟨values, stream, hrun, hlength, hrange⟩

end AnySketchCorrectness
