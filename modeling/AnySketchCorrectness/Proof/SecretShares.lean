import AnySketchCorrectness.SecretShares
import AnySketchCorrectness.Library.DoubleRounding
import AnySketchCorrectness.Library.StateInvariant
import AnySketchCorrectness.Proof.Keystream

/-!
# Secret shares add up to the input

`SubMod` computes in wrapping 32-bit arithmetic, with a multiple of the modulus added when the
subtraction goes below zero. Its result is the one value below the modulus that, added to the mask,
gives the input back, for every modulus up to the top of the range.
-/

namespace AnySketchCorrectness

open UniformPseudorandomGenerator StateInvariant DoubleRounding

theorem add_mod_of_lt {a b m : Nat} (ha : a < m) (hb : b < m) :
    (a + b) % m = if a + b < m then a + b else a + b - m := by
  split
  · rename_i hlt
    exact Nat.mod_eq_of_lt hlt
  · rename_i hge
    rw [Nat.mod_eq_sub_mod (Nat.le_of_not_lt hge), Nat.mod_eq_of_lt (by omega)]

/-! ### One entry -/

theorem subMod_toNat {x y modulus : UInt32} (hx : x < modulus) (hy : y < modulus) :
    ∃ share, subMod x y modulus = .ok share ∧
      share.toNat
        = if x.toNat < y.toNat then x.toNat + modulus.toNat - y.toNat else x.toNat - y.toNat := by
  have hvalid : ¬ (modulus ≤ x ∨ modulus ≤ y) := by
    rintro (hle | hle)
    · exact absurd hx (UInt32.not_lt.mpr hle)
    · exact absurd hy (UInt32.not_lt.mpr hle)
  refine ⟨_, if_neg hvalid, ?_⟩
  have hx' := UInt32.lt_iff_toNat_lt.mp hx
  have hy' := UInt32.lt_iff_toNat_lt.mp hy
  have hmodulus := modulus.toNat_lt
  by_cases hlt : x < y
  · have hlt' := UInt32.lt_iff_toNat_lt.mp hlt
    rw [if_pos hlt, if_pos hlt', UInt32.one_mul, UInt32.toNat_add, UInt32.toNat_sub]
    omega
  · have hle := UInt32.le_iff_toNat_le.mp (UInt32.not_lt.mp hlt)
    rw [if_neg hlt, if_neg (by omega), UInt32.zero_mul, UInt32.add_zero, UInt32.toNat_sub]
    omega

/-- **What `SubMod` returns**: the one value below the modulus that gives `x` back when added to
`y`. -/
theorem subMod_eq_ok_iff {x y modulus share : UInt32} :
    subMod x y modulus = .ok share ↔ x < modulus ∧ y < modulus ∧ share < modulus ∧
      x.toNat = (y.toNat + share.toNat) % modulus.toNat := by
  constructor
  · intro hshare
    have hvalid : x < modulus ∧ y < modulus := by
      unfold subMod at hshare
      split at hshare
      · cases hshare
      · rename_i hvalid
        rw [not_or, UInt32.not_le, UInt32.not_le] at hvalid
        exact hvalid
    obtain ⟨hx, hy⟩ := hvalid
    obtain ⟨share', hshare', hvalue⟩ := subMod_toNat hx hy
    rw [hshare', Except.ok.injEq] at hshare
    subst hshare
    rw [UInt32.lt_iff_toNat_lt] at hx hy
    have hlt : share'.toNat < modulus.toNat := by
      split at hvalue <;> omega
    refine ⟨UInt32.lt_iff_toNat_lt.mpr hx, UInt32.lt_iff_toNat_lt.mpr hy,
      UInt32.lt_iff_toNat_lt.mpr hlt, ?_⟩
    rw [add_mod_of_lt hy hlt]
    split at hvalue <;> split <;> omega
  · rintro ⟨hx, hy, hshare, hsum⟩
    obtain ⟨share', hshare', hvalue⟩ := subMod_toNat hx hy
    rw [hshare', Except.ok.injEq, ← UInt32.toNat_inj, hvalue]
    rw [UInt32.lt_iff_toNat_lt] at hx hy hshare
    rw [add_mod_of_lt hy hshare] at hsum
    split at hsum <;> split <;> omega

/-! ### A vector -/

def IsVectorBelow (modulus : UInt32) (n : Nat) (entries : List UInt32) : Prop :=
  entries.length = n ∧ ∀ entry ∈ entries, entry < modulus

section Vectors

variable {modulus : UInt32} {n : Nat} {input mask shares : List UInt32}

theorem computeShareVector_eq_ok_iff (hlength : mask.length = input.length) :
    computeShareVector modulus input mask = .ok shares ↔
      (∀ x ∈ input, x < modulus) ∧ (∀ y ∈ mask, y < modulus) ∧
      IsVectorBelow modulus input.length shares ∧
      input.map UInt32.toNat
        = List.zipWith (fun y share => (y.toNat + share.toNat) % modulus.toNat) mask shares := by
  induction input generalizing mask shares with
  | nil =>
      rw [List.eq_nil_of_length_eq_zero hlength]
      simp only [computeShareVector, Except.ok.injEq, IsVectorBelow]
      constructor
      · rintro rfl
        simp
      · rintro ⟨-, -, ⟨hshares, -⟩, -⟩
        exact (List.eq_nil_of_length_eq_zero hshares).symm
  | cons x input ih =>
      cases mask with
      | nil => cases hlength
      | cons y mask =>
          have ih := fun {shares} => @ih mask shares (Nat.succ.inj hlength)
          rw [computeShareVector, StatusOr.bind_eq_ok]
          constructor
          · rintro ⟨share, hshare, hrest⟩
            obtain ⟨rest, hshares, hcons⟩ := StatusOr.bind_eq_ok.mp hrest
            cases hcons
            obtain ⟨hx, hy, hlt, hsum⟩ := subMod_eq_ok_iff.mp hshare
            obtain ⟨hinput, hmask, ⟨hlen, hbelow⟩, hmap⟩ := ih.mp hshares
            refine ⟨List.forall_mem_cons.mpr ⟨hx, hinput⟩, List.forall_mem_cons.mpr ⟨hy, hmask⟩,
              ⟨congrArg Nat.succ hlen, List.forall_mem_cons.mpr ⟨hlt, hbelow⟩⟩, ?_⟩
            rw [List.map_cons, List.zipWith_cons_cons, hsum, hmap]
          · rintro ⟨hinput, hmask, ⟨hlen, hbelow⟩, hmap⟩
            cases shares with
            | nil => cases hlen
            | cons share shares =>
                rw [List.map_cons, List.zipWith_cons_cons, List.cons.injEq] at hmap
                rw [List.forall_mem_cons] at hinput hmask hbelow
                refine ⟨share, subMod_eq_ok_iff.mpr ⟨hinput.1, hmask.1, hbelow.1, hmap.1⟩,
                  StatusOr.bind_eq_ok.mpr ⟨shares, ih.mpr ⟨hinput.2, hmask.2,
                    ⟨Nat.succ.inj hlen, hbelow.2⟩, hmap.2⟩, rfl⟩⟩

theorem exists_computeShareVector (hinput : IsVectorBelow modulus n input)
    (hmask : IsVectorBelow modulus n mask) :
    ∃ shares, computeShareVector modulus input mask = .ok shares := by
  obtain ⟨rfl, hinput⟩ := hinput
  obtain ⟨hlength, hmask⟩ := hmask
  induction input generalizing mask with
  | nil => exact ⟨[], rfl⟩
  | cons x input ih =>
      cases mask with
      | nil => cases hlength
      | cons y mask =>
          rw [List.forall_mem_cons] at hinput hmask
          obtain ⟨share, hshare, -⟩ := subMod_toNat hinput.1 hmask.1
          obtain ⟨shares, hshares⟩ := ih hinput.2 (Nat.succ.inj hlength) hmask.2
          exact ⟨share :: shares, StatusOr.bind_eq_ok.mpr ⟨share, hshare,
            StatusOr.bind_eq_ok.mpr ⟨shares, hshares, rfl⟩⟩⟩

/-- What the loop does with any mask below the modulus, whatever the mask was expanded from. -/
theorem computeShareVector_reconstructs (hmask : IsVectorBelow modulus input.length mask) :
    ((∃ shares, computeShareVector modulus input mask = .ok shares) ↔ ∀ x ∈ input, x < modulus) ∧
    ∀ shares, computeShareVector modulus input mask = .ok shares →
      IsVectorBelow modulus input.length shares ∧
      input.map UInt32.toNat = List.zipWith
        (fun y share => (y.toNat + share.toNat) % modulus.toNat) mask shares := by
  refine ⟨⟨?_, fun hinput => exists_computeShareVector ⟨rfl, hinput⟩ hmask⟩,
    fun shares hshares => ?_⟩
  · rintro ⟨shares, hshares⟩
    exact ((computeShareVector_eq_ok_iff hmask.1).mp hshares).1
  · exact ((computeShareVector_eq_ok_iff hmask.1).mp hshares).2.2

theorem computeShareVector_symm (hlength : mask.length = input.length)
    (hshares : computeShareVector modulus input mask = .ok shares) :
    computeShareVector modulus input shares = .ok mask := by
  obtain ⟨hinput, hmask, ⟨hlen, hbelow⟩, hmap⟩ :=
    (computeShareVector_eq_ok_iff hlength).mp hshares
  refine (computeShareVector_eq_ok_iff hlen).mpr ⟨hinput, hbelow, ⟨hlength, hmask⟩, ?_⟩
  rw [hmap, List.zipWith_comm]
  simp only [Nat.add_comm]

end Vectors

/-! ### The whole function -/

section Runs

variable {Ctx Rng : Type} {round : ℚ → ℚ} {evp : EvpCipher Ctx} {rand : RandSource Rng}
  {fuel : Nat} {modulus : UInt32} {n : Nat} {rng : Rng} {seed : PrngSeed}
  {expanded input : List UInt32}

/-- From the state `rng` the calls of OpenSSL succeed: the seed drawn is `seed`, and a generator
made from it yields `expanded` for `n` values below the modulus. -/
structure Expands (round : ℚ → ℚ) (evp : EvpCipher Ctx) (rand : RandSource Rng) (fuel : Nat)
    (modulus : UInt32) (n : Nat) (rng : Rng) (seed : PrngSeed) (expanded : List UInt32) : Prop where
  status : rand.status rng = 1
  draws : ∃ rng₁ rng₂, rand.bytes rng bytesPerAes256Key = (1, seed.key, rng₁)
    ∧ rand.bytes rng₁ bytesPerAes256Iv = (1, seed.iv, rng₂)
  expands : ∃ prng, createPrngFromSeed evp seed = .ok prng
    ∧ evaluate (generateUniformRandomRange round evp fuel (Int64.ofNat n) modulus) prng
      = .ok expanded

/-- With the OpenSSL calls out of the way, only the loop over the entries is left. -/
theorem run_generateSecretShares (hmodulus : 1 < modulus) (hinput : input ≠ [])
    (hexpands : Expands round evp rand fuel modulus input.length rng seed expanded) :
    evaluate (generateSecretShares round evp rand fuel ⟨modulus⟩ input) rng
      = (computeShareVector modulus input expanded).map fun shareVector =>
          { shareSeed := seed, shareVector } := by
  obtain ⟨hstatus, ⟨rng₁, rng₂, hkey, hiv⟩, prng, hcreate, hexpand⟩ := hexpands
  rw [createPrngFromSeed] at hcreate
  unfold evaluate generateSecretShares
  rw [if_neg (by rwa [List.length_eq_zero_iff]), if_neg (UInt32.not_le.mpr hmodulus)]
  simp only [EStateM.run_bind, EStateM.run_get, EStateM.run_set, run_ofExcept_ok, hstatus, hkey,
    hiv, hcreate, hexpand, ne_eq, not_true_eq_false, if_false]
  cases computeShareVector modulus input expanded with
  | error e => rfl
  | ok shareVector => rfl

/-- **The two shares add up to the input.** Given the OpenSSL calls, the function succeeds exactly
on inputs below the modulus. Its share vector is below the modulus too, and the vector that the
returned seed expands to, added to it modulo the modulus, is the input. -/
theorem generateSecretShares_reconstructs (hmodulus : 1 < modulus) (hinput : input ≠ [])
    (hexpands : Expands round evp rand fuel modulus input.length rng seed expanded)
    (hexpanded : IsVectorBelow modulus input.length expanded) :
    ((∃ share, evaluate (generateSecretShares round evp rand fuel ⟨modulus⟩ input) rng = .ok share)
      ↔ ∀ x ∈ input, x < modulus) ∧
    ∀ share, evaluate (generateSecretShares round evp rand fuel ⟨modulus⟩ input) rng = .ok share →
      IsVectorBelow modulus input.length share.shareVector ∧
      ∃ prng share₁, createPrngFromSeed evp share.shareSeed = .ok prng ∧
        evaluate (generateUniformRandomRange round evp fuel (Int64.ofNat input.length) modulus) prng
          = .ok share₁ ∧
        input.map UInt32.toNat = List.zipWith
          (fun y share => (y.toNat + share.toNat) % modulus.toNat) share₁ share.shareVector := by
  obtain ⟨hsucceeds, hreconstructs⟩ := computeShareVector_reconstructs hexpanded
  rw [run_generateSecretShares hmodulus hinput hexpands, ← hsucceeds]
  refine ⟨⟨?_, ?_⟩, ?_⟩
  · rintro ⟨share, hshare⟩
    obtain ⟨shareVector, hvector, -⟩ := StatusOr.map_eq_ok.mp hshare
    exact ⟨shareVector, hvector⟩
  · rintro ⟨shareVector, hvector⟩
    exact ⟨_, StatusOr.map_eq_ok.mpr ⟨shareVector, hvector, rfl⟩⟩
  · intro share hshare
    obtain ⟨shareVector, hvector, hresult⟩ := StatusOr.map_eq_ok.mp hshare
    subst hresult
    obtain ⟨hshares, hsum⟩ := hreconstructs shareVector hvector
    obtain ⟨prng, hcreate, hexpand⟩ := hexpands.expands
    exact ⟨hshares, prng, expanded, hcreate, hexpand, hsum⟩

end Runs

/-! The test vector again: the random bytes are its key and its IV. -/

def testRand : RandSource Nat where
  status _ := 1
  bytes rng n := (1, if n = bytesPerAes256Key then testKey else testIv, rng + 1)

theorem testRand_expands :
    Expands roundToDouble (ctrEvp testAes256) testRand 1 251 3 0 ⟨testKey, testIv⟩
      [0x0b, 0xdf, 0x7d] where
  status := rfl
  draws := ⟨1, 2, rfl, rfl⟩
  expands := ⟨testStream, rfl, by decide +kernel⟩

theorem generateSecretShares_reconstructs_testRand :
    ∃ share, evaluate (generateSecretShares roundToDouble (ctrEvp testAes256) testRand 1 ⟨251⟩
      [5, 250, 125]) 0 = .ok share := by
  have hbelow : IsVectorBelow 251 3 [0x0b, 0xdf, 0x7d] := ⟨rfl, by simp⟩
  exact (generateSecretShares_reconstructs (by decide) (by decide) testRand_expands hbelow).1.mpr
    (by simp)

end AnySketchCorrectness
