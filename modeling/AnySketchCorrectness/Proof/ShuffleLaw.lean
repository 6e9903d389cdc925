import AnySketchCorrectness.RandomShuffle
import AnySketchCorrectness.Library.Masking
import AnySketchCorrectness.Proof.Keystream
import AnySketchCorrectness.Proof.ShuffleBias
import AnySketchCorrectness.Proof.UniformLaw
import AnySketchCorrectness.Proof.UniformShares

/-!
# The shuffle is nearly uniform

A permutation is left to the shuffle by at least as many sequences of random values as the rounded
down quotients allow, so none is much rarer than the others. What the shuffle makes of a vector
depends on the bytes only through the permutation. So it is nearly uniform for every vector, also
for one with equal entries, and it says nearly nothing about the order of the entries before.
-/

namespace AnySketchCorrectness

open FisherYates StateInvariant IndependentDraws Reindexing StatisticalDistance
open scoped ENNReal

variable {n : ℕ}

/-! ### One permutation for each string of bytes -/

theorem exists_permutation (n : ℕ) (bytes : ByteString) :
    ∃ π : Equiv.Perm (Fin n), ∀ data : Array UInt32, data.size = n →
      Reindexed π data (shuffledBy data bytes) := by
  obtain ⟨π, hπ⟩ := exists_reindexed_shuffleLoop bytes n
  refine ⟨π, ?_⟩
  rintro data rfl
  exact hπ data rfl

theorem reindexed_rearranged (data : Array UInt32) (π : Equiv.Perm (Fin data.size)) :
    Reindexed π data (rearranged data π) := by
  refine ⟨rfl, Array.size_ofFn, fun k => ?_⟩
  rw [rearranged, Array.getElem?_ofFn, dif_pos k.isLt, Array.getElem?_eq_getElem (π k).isLt]
  rfl

/-- A vector with different entries. -/
def positions (n : ℕ) : Array UInt32 :=
  Array.ofFn fun k : Fin n => UInt32.ofNat k

theorem size_positions (n : ℕ) : (positions n).size = n := Array.size_ofFn

theorem positions_getElem? (k : Fin n) : (positions n)[(k : ℕ)]? = some (UInt32.ofNat k) := by
  rw [positions, Array.getElem?_ofFn, dif_pos k.isLt]

section Positions

variable (hn : n < 2 ^ 32)
include hn

theorem ofNat_position_inj {k k' : Fin n} (heq : UInt32.ofNat k = UInt32.ofNat k') : k = k' := by
  have htoNat := congrArg UInt32.toNat heq
  rw [UInt32.toNat_ofNat_of_lt' (k.isLt.trans hn), UInt32.toNat_ofNat_of_lt' (k'.isLt.trans hn)]
    at htoNat
  exact Fin.ext htoNat

theorem nodup_positions : (positions n).toList.Nodup := by
  rw [positions, Array.toList_ofFn, List.nodup_ofFn]
  intro k k' heq
  exact ofNat_position_inj hn heq

theorem permutation_unique {π σ : Equiv.Perm (Fin n)} {after : Array UInt32}
    (hπ : Reindexed π (positions n) after) (hσ : Reindexed σ (positions n) after) : π = σ := by
  ext k
  have heq : some (UInt32.ofNat (π k)) = some (UInt32.ofNat (σ k)) := by
    rw [← positions_getElem?, ← positions_getElem?, ← hπ.getElem?_eq, ← hσ.getElem?_eq]
  rw [ofNat_position_inj hn (Option.some.inj heq)]

end Positions

theorem exists_target (σ : Equiv.Perm (Fin n)) :
    ∃ target : Array UInt32, target.Perm (positions n) ∧ Reindexed σ (positions n) target := by
  refine ⟨Array.ofFn fun k => UInt32.ofNat (σ k), ?_, size_positions n, Array.size_ofFn,
    fun k => ?_⟩
  · rw [Array.perm_iff_toList_perm, positions, Array.toList_ofFn, Array.toList_ofFn]
    exact σ.ofFn_comp_perm fun k : Fin n => UInt32.ofNat k
  · rw [Array.getElem?_ofFn, dif_pos k.isLt, positions_getElem?]

/-! ### The chance of a permutation -/

theorem length_wordBytes {count : ℕ} (words : Fin count → Fin (2 ^ 128)) :
    (wordBytes words).length = bytesPerUint128 * count := by
  have hwidth : ∀ chunk ∈ List.ofFn fun i => littleEndianBytes bytesPerUint128 (words i),
      chunk.length = bytesPerUint128 := by
    rw [List.forall_mem_ofFn_iff]
    exact fun i => length_littleEndianBytes _ _
  rw [wordBytes, FixedWidth.length_flatten hwidth, List.length_ofFn]

theorem wordBytes_injective {count : ℕ} :
    Function.Injective (wordBytes : (Fin count → Fin (2 ^ 128)) → ByteString) := by
  intro words words' heq
  funext i
  have hword := randAt_wordBytes words [] i
  rw [heq, randAt_wordBytes, Except.ok.injEq] at hword
  exact Fin.ext hword.symm

/-- The last random value is not used. -/
theorem shuffledBy_of_mem_wordsFor {data target : Array UInt32}
    {words : Fin (data.size - 1) → Fin (2 ^ 128)} (hwords : words ∈ wordsFor data target [])
    (rest : ByteString) : shuffledBy data (wordBytes words ++ rest) = target := by
  obtain ⟨offset, hrun, hoffset⟩ := run_shuffleLoop_words words []
  obtain ⟨offset', hrun', hoffset'⟩ := run_shuffleLoop_words words rest
  have hsame : rounds offset' data (data.size - 1) = rounds offset data (data.size - 1) :=
    rounds_congr (fun i hi => (hoffset' ⟨i, hi⟩).trans (hoffset ⟨i, hi⟩).symm) data
  rw [wordsFor, Set.mem_ofPred_eq, hrun, EStateM.Result.ok.injEq] at hwords
  rw [shuffledBy, hrun', hsame, hwords.2]
  rfl

theorem prod_div_le_ncard_wordsFor {data target : Array UInt32} (hdistinct : data.toList.Nodup)
    (hperm : target.Perm data) (rest : ByteString) :
    ∏ i : Fin (data.size - 1), 2 ^ 128 / (data.size - i)
      ≤ (wordsFor data target rest).ncard := by
  obtain ⟨offsets, hoffsets⟩ := exists_mem_wordsFor_iff hdistinct hperm rest
  rw [show wordsFor data target rest
    = {words | ∀ i, words i % (data.size - i) = (offsets i : ℕ)} from Set.ext hoffsets]
  exact (card_remainders_bounds (2 ^ 128) (fun i => data.size - i) (fun i => offsets i)
    fun i => (offsets i).isLt).1

theorem le_toOuterMeasure_shuffledBy {data target : Array UInt32}
    (hdistinct : data.toList.Nodup) (hperm : target.Perm data) :
    (∏ i : Fin (data.size - 1), 2 ^ 128 / (data.size - i) : ℕ)
        * ((256 : ℝ≥0∞)⁻¹) ^ (bytesPerUint128 * (data.size - 1))
      ≤ (uniformBytes (bytesPerUint128 * data.size)).toOuterMeasure
          {bytes | shuffledBy data bytes = target} := by
  set used := bytesPerUint128 * (data.size - 1) with hused
  let spelled : Set ByteString := wordBytes '' wordsFor data target []
  have hlength : bytesPerUint128 * data.size = used + (bytesPerUint128 * data.size - used) :=
    (Nat.add_sub_cancel' (Nat.mul_le_mul_left _ (Nat.sub_le _ _))).symm
  have hcount : spelled.encard = (wordsFor data target []).ncard := by
    rw [wordBytes_injective.encard_image, (Set.toFinite _).cast_ncard_eq]
  have hspelled : ∀ bytes ∈ spelled, bytes.length = used := by
    rintro _ ⟨words, -, rfl⟩
    exact length_wordBytes words
  have hevent : Set.preimage (List.take used) spelled
      ⊆ {bytes | shuffledBy data bytes = target} := by
    rintro bytes ⟨words, hwords, htake⟩
    rw [Set.mem_ofPred_eq, ← List.take_append_drop used bytes, ← htake]
    exact shuffledBy_of_mem_wordsFor hwords _
  calc (∏ i : Fin (data.size - 1), 2 ^ 128 / (data.size - i) : ℕ) * ((256 : ℝ≥0∞)⁻¹) ^ used
      ≤ ((wordsFor data target []).ncard : ℝ≥0∞) * ((256 : ℝ≥0∞)⁻¹) ^ used := by
        gcongr
        exact prod_div_le_ncard_wordsFor hdistinct hperm []
    _ = (uniformBytes used).toOuterMeasure spelled := by
        rw [uniformBytes, toOuterMeasure_draws_const _ uniformByte_apply hspelled, hcount,
          ENat.toENNReal_coe]
    _ = (uniformBytes (bytesPerUint128 * data.size)).toOuterMeasure
          (Set.preimage (List.take used) spelled) := by
        rw [hlength, ← PMF.toOuterMeasure_map_apply, uniformBytes, uniformBytes, draws_map_take]
    _ ≤ (uniformBytes (bytesPerUint128 * data.size)).toOuterMeasure
          {bytes | shuffledBy data bytes = target} :=
        MeasureTheory.measure_mono hevent

/-! ### How rare a permutation can be -/

theorem prod_size_sub (n : ℕ) : ∏ i : Fin (n - 1), (n - i) = n.factorial := by
  rw [Fin.prod_univ_eq_prod_range (fun i => n - i), ← Nat.descFactorial_eq_prod_range]
  cases n with
  | zero => rfl
  | succ n =>
      have hall := Nat.factorial_mul_descFactorial (Nat.le_succ n)
      rwa [Nat.succ_sub (Nat.le_refl n), Nat.sub_self, Nat.factorial_one, one_mul] at hall

theorem sum_size_sub_le (n : ℕ) : ∑ i : Fin (n - 1), (n - i) ≤ n ^ 2 := by
  calc ∑ i : Fin (n - 1), (n - i) ≤ ∑ _i : Fin (n - 1), n :=
        Finset.sum_le_sum fun i _ => Nat.sub_le n i
    _ = (n - 1) * n := by simp
    _ ≤ n * n := Nat.mul_le_mul_right n (Nat.sub_le n 1)
    _ = n ^ 2 := (Nat.pow_two n).symm

theorem inv_le_of_pow_le {total kept bound lost k : ℕ} (htotal : 0 < total) (hbound : 0 < bound)
    (hle : bound ^ (k + 1) ≤ kept * total * bound + lost * bound ^ k) :
    (total : ℝ≥0∞)⁻¹ ≤ kept * ((bound : ℝ≥0∞)⁻¹) ^ k + lost / bound * (total : ℝ≥0∞)⁻¹ := by
  have htotalReal : (0 : ℝ) < total := Nat.cast_pos.mpr htotal
  have hboundReal : (0 : ℝ) < bound := Nat.cast_pos.mpr hbound
  have hleReal : (bound : ℝ) ^ (k + 1) ≤ kept * total * bound + lost * bound ^ k := by
    exact_mod_cast hle
  have hreal : (total : ℝ)⁻¹ ≤ kept * ((bound : ℝ)⁻¹) ^ k + lost / bound * (total : ℝ)⁻¹ := by
    have hcommon : (kept : ℝ) * ((bound : ℝ)⁻¹) ^ k + lost / bound * (total : ℝ)⁻¹
        = (kept * total * bound + lost * bound ^ k) / (total * bound ^ (k + 1)) := by
      rw [inv_pow]
      field_simp
      ring
    rw [hcommon, le_div_iff₀ (by positivity), ← mul_assoc, inv_mul_cancel₀ htotalReal.ne', one_mul]
    exact hleReal
  have htotalNe : (total : ℝ≥0∞) ≠ 0 := Nat.cast_ne_zero.mpr htotal.ne'
  have hboundNe : (bound : ℝ≥0∞) ≠ 0 := Nat.cast_ne_zero.mpr hbound.ne'
  have hkept : (kept : ℝ≥0∞) * ((bound : ℝ≥0∞)⁻¹) ^ k ≠ ⊤ :=
    ENNReal.mul_ne_top (ENNReal.natCast_ne_top _)
      (ENNReal.pow_ne_top (ENNReal.inv_ne_top.mpr hboundNe))
  have hlost : (lost : ℝ≥0∞) / bound * (total : ℝ≥0∞)⁻¹ ≠ ⊤ :=
    ENNReal.mul_ne_top (ENNReal.div_ne_top (ENNReal.natCast_ne_top _) hboundNe)
      (ENNReal.inv_ne_top.mpr htotalNe)
  rw [← ENNReal.toReal_le_toReal (ENNReal.inv_ne_top.mpr htotalNe)
    (ENNReal.add_ne_top.mpr ⟨hkept, hlost⟩), ENNReal.toReal_add hkept hlost]
  simpa using hreal

/-- No permutation is much rarer than it should be. -/
theorem inv_factorial_le (n : ℕ) :
    ((n.factorial : ℕ) : ℝ≥0∞)⁻¹
      ≤ (∏ i : Fin (n - 1), 2 ^ 128 / (n - i) : ℕ)
          * ((256 : ℝ≥0∞)⁻¹) ^ (bytesPerUint128 * (n - 1))
        + shuffleBias n * ((n.factorial : ℕ) : ℝ≥0∞)⁻¹ := by
  have hcount := pow_succ_le_prod_div (2 ^ 128) (fun i : Fin (n - 1) => n - i) fun i => by omega
  rw [prod_size_sub] at hcount
  have hbytes : ((256 : ℝ≥0∞)⁻¹) ^ (bytesPerUint128 * (n - 1))
      = (((2 ^ 128 : ℕ) : ℝ≥0∞)⁻¹) ^ (n - 1) := by
    rw [pow_mul]
    congr 1
    rw [← ENNReal.inv_pow, bytesPerUint128]
    congr 1
    norm_num
  rw [hbytes, shuffleBias]
  refine inv_le_of_pow_le n.factorial_pos (Nat.two_pow_pos 128) (hcount.trans ?_)
  exact Nat.add_le_add_left (Nat.mul_le_mul_right _ (sum_size_sub_le n)) _

/-! ### The law of the shuffled vector -/

theorem near_shuffleLaw {data : Array UInt32} (hsize : data.size < 2 ^ 32) :
    Near (shuffleBias data.size) (shuffleLaw data) (arrangementLaw data) := by
  choose permutation hpermutation using exists_permutation data.size
  have hrearranged : shuffledBy data = rearranged data ∘ permutation := by
    funext bytes
    exact (hpermutation bytes data rfl).unique (reindexed_rearranged data _)
  have hnear : Near (shuffleBias data.size)
      ((uniformBytes (bytesPerUint128 * data.size)).map permutation)
      (PMF.uniformOfFintype (Equiv.Perm (Fin data.size))) := by
    refine near_of_le fun σ => ?_
    obtain ⟨target, hperm, htarget⟩ := exists_target σ
    have hchance := le_toOuterMeasure_shuffledBy (nodup_positions hsize) hperm
    rw [size_positions] at hchance
    have hevent : {bytes | shuffledBy (positions data.size) bytes = target}
        ⊆ Set.preimage permutation {σ} := by
      rintro bytes rfl
      exact permutation_unique hsize (hpermutation bytes _ (size_positions _)) htarget
    rw [PMF.uniformOfFintype_apply, Fintype.card_perm, Fintype.card_fin]
    calc ((data.size.factorial : ℕ) : ℝ≥0∞)⁻¹
        ≤ (uniformBytes (bytesPerUint128 * data.size)).toOuterMeasure
              {bytes | shuffledBy (positions data.size) bytes = target}
            + shuffleBias data.size * ((data.size.factorial : ℕ) : ℝ≥0∞)⁻¹ := by
          refine (inv_factorial_le data.size).trans ?_
          gcongr
      _ ≤ (uniformBytes (bytesPerUint128 * data.size)).map permutation σ
            + shuffleBias data.size * ((data.size.factorial : ℕ) : ℝ≥0∞)⁻¹ := by
          rw [← PMF.toOuterMeasure_apply_singleton, PMF.toOuterMeasure_map_apply]
          gcongr
  rw [shuffleLaw, arrangementLaw, hrearranged, ← PMF.map_comp]
  exact hnear.map _

theorem arrangementLaw_eq {data data' : Array UInt32} {σ : Equiv.Perm (Fin data.size)}
    (hσ : Reindexed σ data data') : arrangementLaw data' = arrangementLaw data := by
  let compose : Equiv.Perm (Fin data'.size) ≃ Equiv.Perm (Fin data.size) :=
    (finCongr hσ.size_after).permCongr.trans (Equiv.mulLeft σ)
  have hrearranged : rearranged data' = rearranged data ∘ compose := by
    funext τ
    have hτ : Reindexed (compose τ) data (rearranged data' τ) := by
      refine ⟨rfl, Array.size_ofFn.trans hσ.size_after, fun k => ?_⟩
      have hentry := (reindexed_rearranged data' τ).getElem?_eq ((finCongr hσ.size_after).symm k)
      exact hentry.trans (hσ.getElem?_eq (finCongr hσ.size_after (τ _)))
    exact hτ.unique (reindexed_rearranged data _)
  rw [arrangementLaw, arrangementLaw, hrearranged, ← PMF.map_comp, Masking.map_uniformOfFintype]

/-! ### The function -/

section Shuffle

variable {Ctx : Type} {evp : EvpCipher Ctx} {aes256 : ByteString → AesBlock → AesBlock}
  {remaining : Ctx → Stream' UInt8}

theorem run_secureShuffleWithSeed (hevp : evp.IsAes256Ctr aes256 remaining) {data : Array UInt32}
    (hsize : data.size < 2 ^ 27) {seed : PrngSeed} {ctx : Ctx}
    (hcreate : UniformPseudorandomGenerator.createPrngFromSeed evp seed = .ok ctx) :
    (secureShuffleWithSeed evp seed).run data
      = .ok () (shuffledBy data ((remaining ctx).take (bytesPerUint128 * data.size))) := by
  rw [secureShuffleWithSeed, EStateM.run_bind, EStateM.run_get]
  dsimp only
  split
  · rename_i hsmall
    have hnone : data.size - 1 = 0 := Nat.sub_eq_zero_of_le hsmall
    rw [shuffledBy, shuffleLoop, hnone]
    rfl
  · have hrequest : (UInt64.ofNat data.size * UInt64.ofNat bytesPerUint128).toInt64
        = Int64.ofNat (bytesPerUint128 * data.size) := by
      rw [← UInt64.ofNat_mul, Nat.mul_comm]
      rfl
    have hbytes : bytesPerUint128 * data.size < 2 ^ 31 := by
      rw [bytesPerUint128]
      omega
    have hclamped := toNatClampNeg_ofNat (hbytes.trans (by decide))
    obtain ⟨ctx', hgenerate, -⟩ := run_generatePseudorandomBytes_ok hevp
      (ofNat_nonneg (hbytes.trans (by decide))) (by rw [hclamped]; omega) ctx
    rw [hclamped, Nat.mod_eq_of_lt (hbytes.trans (by decide)), Nat.sub_self, List.replicate_zero,
      List.append_nil] at hgenerate
    have hanswer : UniformPseudorandomGenerator.evaluate
        (UniformPseudorandomGenerator.generatePseudorandomBytes evp
          (UInt64.ofNat data.size * UInt64.ofNat bytesPerUint128).toInt64) ctx
        = .ok ((remaining ctx).take (bytesPerUint128 * data.size)) := by
      rw [hrequest, evaluate_eq_ok_iff]
      exact ⟨ctx', hgenerate⟩
    have hrand : ∀ i < data.size - 1,
        randAt ((remaining ctx).take (bytesPerUint128 * data.size)) i
          = .ok (littleEndian ((((remaining ctx).take (bytesPerUint128 * data.size)).drop
              (bytesPerUint128 * i)).take bytesPerUint128)) := by
      intro i hi
      rw [randAt, if_pos]
      rw [Stream'.length_take]
      exact Nat.mul_le_mul_left _ (by omega)
    rw [shuffledBy, run_shuffleLoop hrand]
    simp only [EStateM.run_bind, hcreate, hanswer, run_ofExcept_ok, run_shuffleLoop hrand]
    rfl

/-- **The shuffle is nearly uniform.** A call that has a generator shuffles by the first bytes of
its keystream. If these are uniform, the vector becomes each of its arrangements with nearly the
same chance, and whatever the order of the entries was before, the result has nearly the same
law. -/
theorem secureShuffleWithSeed_near_uniform (hevp : evp.IsAes256Ctr aes256 remaining)
    {data : Array UInt32} (hsize : data.size < 2 ^ 27) :
    (∀ seed ctx, UniformPseudorandomGenerator.createPrngFromSeed evp seed = .ok ctx →
      (secureShuffleWithSeed evp seed).run data
        = .ok () (shuffledBy data ((remaining ctx).take (bytesPerUint128 * data.size)))) ∧
    Near (shuffleBias data.size) (shuffleLaw data) (arrangementLaw data) ∧
    ∀ data' (σ : Equiv.Perm (Fin data.size)), Reindexed σ data data' →
      Near (shuffleBias data.size + shuffleBias data.size) (shuffleLaw data')
        (shuffleLaw data) := by
  have hsmall : data.size < 2 ^ 32 := hsize.trans (by decide)
  have hnear := near_shuffleLaw hsmall
  refine ⟨fun seed ctx => run_secureShuffleWithSeed hevp hsize, hnear, fun data' σ hσ => ?_⟩
  have hnear' := near_shuffleLaw (hσ.size_after.trans_lt hsmall)
  rw [arrangementLaw_eq hσ, hσ.size_after] at hnear'
  exact hnear'.trans hnear.symm

end Shuffle

theorem secureShuffleWithSeed_near_uniform_three :
    Near (shuffleBias 3) (shuffleLaw #[10, 20, 20]) (arrangementLaw #[10, 20, 20]) :=
  (secureShuffleWithSeed_near_uniform testEvp_isAes256Ctr
    (show (#[10, 20, 20] : Array UInt32).size < 2 ^ 27 by decide)).2.1

end AnySketchCorrectness
