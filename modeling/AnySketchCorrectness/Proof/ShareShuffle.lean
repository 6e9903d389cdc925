import AnySketchCorrectness.Proof.GeneratorRuns
import AnySketchCorrectness.Proof.NonZeroSampling
import AnySketchCorrectness.Proof.SecretShares
import AnySketchCorrectness.Proof.Shuffle

/-!
# Shuffling shares apart

A client splits a vector into a seed and a share vector. One worker expands the seed and shuffles
what it gets, the other shuffles the share vector, and they use one shuffle seed. The three may run
different implementations of the cipher. The sum of what the workers end with is a permutation of
the vector.
-/

namespace AnySketchCorrectness

open UniformPseudorandomGenerator StateInvariant StreamReader CounterMode Reindexing DoubleRounding

variable {round : ℚ → ℚ} {aes256 : ByteString → AesBlock → AesBlock}

/-! ### Different implementations -/

def CanCreate (implementation : CtrImplementation aes256) (seed : PrngSeed) : Prop :=
  ∃ ctx, createPrngFromSeed implementation.evp seed = .ok ctx

theorem remaining_createPrngFromSeed {implementation : CtrImplementation aes256} {seed : PrngSeed}
    {ctx : implementation.Ctx} (hcreate : createPrngFromSeed implementation.evp seed = .ok ctx) :
    implementation.remaining ctx = keystream (aes256 seed.key) (ofBigEndian seed.iv) :=
  (create_ok implementation.isAes256Ctr hcreate).2

/-- What is read from a seed is the same everywhere. -/
theorem evaluate_agrees {α : Type}
    {program : ∀ implementation : CtrImplementation aes256, GeneratorM implementation.Ctx α}
    (hreads : Reads (keystreamLeft aes256) program) {i j : CtrImplementation aes256}
    {seed : PrngSeed} {ctx : i.Ctx} {ctx' : j.Ctx}
    (hcreate : createPrngFromSeed i.evp seed = .ok ctx)
    (hcreate' : createPrngFromSeed j.evp seed = .ok ctx') :
    evaluate (program i) ctx = evaluate (program j) ctx' := by
  apply hreads.answer_eq
  exact (remaining_createPrngFromSeed hcreate).trans (remaining_createPrngFromSeed hcreate').symm

theorem shuffled_agrees {i j : CtrImplementation aes256} {seed : PrngSeed} (hi : CanCreate i seed)
    (hj : CanCreate j seed) (data : Array UInt32) :
    shuffled i.evp seed data = shuffled j.evp seed data := by
  obtain ⟨ctx, hcreate⟩ := hi
  obtain ⟨ctx', hcreate'⟩ := hj
  have hbytes := evaluate_agrees (reads_generatePseudorandomBytes
    (UInt64.ofNat data.size * UInt64.ofNat bytesPerUint128).toInt64) hcreate hcreate'
  unfold shuffled secureShuffleWithSeed
  simp only [EStateM.run_bind, EStateM.run_get, hcreate, hcreate']
  split
  · rfl
  · simp only [EStateM.run_bind, run_ofExcept_ok, hbytes]

/-! ### The shares that are returned -/

theorem generateSecretShares_ok {Ctx Rng : Type} {evp : EvpCipher Ctx} {rand : RandSource Rng}
    {fuel : Nat} {modulus : UInt32} {input : List UInt32} {rng : Rng} {share : SecretShare}
    (hshare : evaluate (generateSecretShares round evp rand fuel ⟨modulus⟩ input) rng = .ok share) :
    1 < modulus ∧ ∃ prng expanded, createPrngFromSeed evp share.shareSeed = .ok prng ∧
      evaluate (generateUniformRandomRange round evp fuel (Int64.ofNat input.length) modulus) prng
        = .ok expanded ∧
      computeShareVector modulus input expanded = .ok share.shareVector := by
  obtain ⟨rng', hrun⟩ := evaluate_eq_ok_iff.mp hshare
  unfold generateSecretShares at hrun
  split at hrun
  · cases hrun
  split at hrun
  · cases hrun
  rename_i hmodulus
  simp only [EStateM.run_bind, EStateM.run_get] at hrun
  split at hrun
  · cases hrun
  simp only [EStateM.run_bind, EStateM.run_get, EStateM.run_set] at hrun
  split at hrun
  · cases hrun
  simp only [EStateM.run_bind, EStateM.run_get, EStateM.run_set] at hrun
  split at hrun
  · cases hrun
  obtain ⟨prng, rng₁, hcreate, hrun⟩ := exists_of_run_bind_ok hrun
  obtain ⟨expanded, rng₂, hexpand, hrun⟩ := exists_of_run_bind_ok hrun
  obtain ⟨shareVector, rng₃, hvector, hrun⟩ := exists_of_run_bind_ok hrun
  cases hrun
  exact ⟨UInt32.not_le.mp hmodulus, prng, expanded, (run_ofExcept_eq_ok hcreate).1,
    (run_ofExcept_eq_ok hexpand).1, (run_ofExcept_eq_ok hvector).1⟩

theorem toNatClampNeg_ofNat_le (n : ℕ) : (Int64.ofNat n).toNatClampNeg ≤ n := by
  have hvalue : (Int64.ofNat n).toInt = (n : Int).bmod (2 ^ 64) := Int64.toInt_ofNat'
  rw [Int64.toNatClampNeg, hvalue, Int.bmod_def]
  omega

theorem length_le_of_computeShareVector {modulus : UInt32} {input mask shares : List UInt32}
    (hshares : computeShareVector modulus input mask = .ok shares) :
    input.length ≤ mask.length := by
  induction input generalizing mask shares with
  | nil => exact Nat.zero_le _
  | cons x input ih =>
      cases mask with
      | nil => cases hshares
      | cons y mask =>
          rw [computeShareVector] at hshares
          obtain ⟨share, -, hrest⟩ := StatusOr.bind_eq_ok.mp hshares
          obtain ⟨shares', hshares', -⟩ := StatusOr.bind_eq_ok.mp hrest
          exact Nat.succ_le_succ (ih hshares')

/-! ### The protocol -/

theorem addMod_toArray {modulus : UInt32} {input expanded shares : List UInt32}
    (hlength : expanded.length = input.length)
    (hshares : computeShareVector modulus input expanded = .ok shares) :
    addMod modulus.toNat expanded.toArray shares.toArray = input.toArray := by
  obtain ⟨-, -, -, hsum⟩ := (computeShareVector_eq_ok_iff hlength).mp hshares
  have hinput : input = (input.map UInt32.toNat).map UInt32.ofNat := by
    rw [List.map_map]
    exact (List.map_id'' (fun _ => UInt32.ofNat_toNat) _).symm
  rw [addMod, List.zipWith_toArray, hinput, hsum, List.map_zipWith]

/-- **Shares can be shuffled apart.** A shuffle seed and a length determine one permutation. If a
client splits a vector of this length, a worker expands the seed and shuffles the result, and
another one shuffles the share vector, then the sum of the two is the permuted vector. -/
theorem shuffledShares_sum (aes256 : ByteString → AesBlock → AesBlock) (shuffleSeed : PrngSeed)
    (n : ℕ) :
    ∃ π : Equiv.Perm (Fin n), ∀ (round : ℚ → ℚ)
      (client worker₁ worker₂ : CtrImplementation aes256) {Rng : Type} (rand : RandSource Rng)
      (fuel : ℕ) (modulus : UInt32) (input : List UInt32) (rng : Rng) (share : SecretShare),
      input.length = n →
      evaluate (generateSecretShares round client.evp rand fuel ⟨modulus⟩ input) rng = .ok share →
      CanCreate worker₁ share.shareSeed → CanCreate worker₁ shuffleSeed →
      CanCreate worker₂ shuffleSeed →
      ∃ prng expanded, createPrngFromSeed worker₁.evp share.shareSeed = .ok prng ∧
        evaluate (generateUniformRandomRange round worker₁.evp fuel (Int64.ofNat n) modulus) prng
          = .ok expanded ∧
        Reindexed π input.toArray (addMod modulus.toNat
          (shuffled worker₁.evp shuffleSeed expanded.toArray)
          (shuffled worker₂.evp shuffleSeed share.shareVector.toArray)) := by
  by_cases hcreates : ∃ worker : CtrImplementation aes256, CanCreate worker shuffleSeed
  · obtain ⟨worker, hworker⟩ := hcreates
    obtain ⟨π, hπ⟩ := exists_reindexed_shuffled worker.evp shuffleSeed n
    refine ⟨π, ?_⟩
    rintro round client worker₁ worker₂ Rng rand fuel modulus input rng share rfl hshare hseed hone
      htwo
    obtain ⟨-, clientPrng, expanded, hclient, hexpand, hvector⟩ := generateSecretShares_ok hshare
    obtain ⟨prng, hcreate⟩ := hseed
    have hsame := evaluate_agrees (reads_generateUniformRandomRange round fuel
      (Int64.ofNat input.length) modulus) hcreate hclient
    have hlength : expanded.length = input.length := by
      refine Nat.le_antisymm ?_ (length_le_of_computeShareVector hvector)
      obtain ⟨clientPrng', hrun⟩ := evaluate_eq_ok_iff.mp hexpand
      rw [((keeps_generateUniformRandomRange round client.evp fuel _ modulus).result trivial
        hrun).2.1]
      exact toNatClampNeg_ofNat_le _
    have hshares : share.shareVector.length = input.length :=
      ((computeShareVector_eq_ok_iff hlength).mp hvector).2.2.1.1
    refine ⟨prng, expanded, hcreate, hsame.trans hexpand, ?_⟩
    rw [shuffled_agrees hone hworker, shuffled_agrees htwo hworker,
      ← addMod_toArray hlength hvector]
    exact (hπ expanded.toArray hlength).zipWith _ (hπ share.shareVector.toArray hshares)
  · refine ⟨1, ?_⟩
    intro round client worker₁ worker₂ Rng rand fuel modulus input rng share _ _ _ hone
    exact absurd ⟨worker₁, hone⟩ hcreates

def testImplementation : CtrImplementation testAes256 where
  Ctx := Stream' UInt8
  evp := ctrEvp testAes256
  remaining := id
  isAes256Ctr := testEvp_isAes256Ctr

theorem canCreate_testImplementation : CanCreate testImplementation ⟨testKey, testIv⟩ :=
  ⟨testStream, create_testEvp⟩

theorem shuffledShares_sum_testRand :
    ∃ (expanded : List UInt32) (π : Equiv.Perm (Fin 3)),
      evaluate (generateSecretShares roundToDouble (ctrEvp testAes256) testRand 1 ⟨251⟩
          [5, 250, 125]) 0 = .ok ⟨⟨testKey, testIv⟩, [245, 27, 0]⟩ ∧
      Reindexed π #[5, 250, 125] (addMod 251
        (shuffled (ctrEvp testAes256) ⟨testKey, testIv⟩ expanded.toArray)
        (shuffled (ctrEvp testAes256) ⟨testKey, testIv⟩ #[245, 27, 0])) := by
  have hshare : evaluate
      (generateSecretShares roundToDouble testImplementation.evp testRand 1 ⟨251⟩ [5, 250, 125]) 0
        = .ok ⟨⟨testKey, testIv⟩, [245, 27, 0]⟩ :=
    run_generateSecretShares (show (1 : UInt32) < 251 by decide)
      (show [5, 250, 125] ≠ [] by decide) testRand_expands
  obtain ⟨π, hπ⟩ := shuffledShares_sum testAes256 ⟨testKey, testIv⟩ 3
  obtain ⟨-, expanded, -, -, hreindexed⟩ := hπ roundToDouble testImplementation
    testImplementation testImplementation testRand 1 251 [5, 250, 125] 0 _ rfl hshare
    canCreate_testImplementation canCreate_testImplementation canCreate_testImplementation
  exact ⟨expanded, π, hshare, hreindexed⟩

end AnySketchCorrectness
