import AnySketchCorrectness.Proof.Shuffle
import AnySketchCorrectness.Library.FisherYates
import AnySketchCorrectness.Library.FixedWidth

/-!
# The bias of the shuffle

The words of the keystream decide the swap offsets by their remainders. Each permutation of
different elements has exactly one vector of offsets, so it comes from as many sequences of words as
have these remainders. Permutations differ in that number only by the rounding of
`2 ^ 128 / (n - i)` in each round.
-/

namespace AnySketchCorrectness

open FisherYates FixedWidth

/-! ### Words as bytes -/

/-- The first bytes of a number in little-endian order. -/
def littleEndianBytes (width n : ℕ) : ByteString :=
  (List.range width).map fun k => UInt8.ofNat (n / 256 ^ k)

theorem length_littleEndianBytes (width n : ℕ) : (littleEndianBytes width n).length = width := by
  rw [littleEndianBytes, List.length_map, List.length_range]

theorem littleEndian_littleEndianBytes (width n : ℕ) :
    littleEndian (littleEndianBytes width n) = n % 256 ^ width := by
  induction width generalizing n with
  | zero => exact (Nat.mod_one n).symm
  | succ width ih =>
      have htail : littleEndianBytes (width + 1) n
          = UInt8.ofNat n :: littleEndianBytes width (n / 256) := by
        rw [littleEndianBytes, List.range_succ_eq_map, List.map_cons, List.map_map, Nat.pow_zero,
          Nat.div_one, littleEndianBytes]
        congr 1
        apply List.map_congr_left
        intro k _
        rw [Function.comp_apply, Nat.div_div_eq_div_mul, ← Nat.pow_succ']
      rw [htail, Nat.pow_succ', Nat.mod_mul, ← ih]
      rfl

/-- The words of a keystream as the bytes that `rand` points to. -/
def wordBytes {count : ℕ} (words : Fin count → Fin (2 ^ 128)) : ByteString :=
  (List.ofFn fun i => littleEndianBytes bytesPerUint128 (words i)).flatten

theorem randAt_wordBytes {count : ℕ} (words : Fin count → Fin (2 ^ 128)) (rest : ByteString)
    (i : Fin count) : randAt (wordBytes words ++ rest) i = .ok (words i) := by
  set chunks := List.ofFn fun i => littleEndianBytes bytesPerUint128 (words i) with hchunks
  have hwidth : ∀ chunk ∈ chunks, chunk.length = bytesPerUint128 := by
    rw [hchunks, List.forall_mem_ofFn_iff]
    exact fun i => length_littleEndianBytes _ _
  have hlength : chunks.length = count := List.length_ofFn
  have hi : (i : ℕ) < chunks.length := hlength.symm ▸ i.isLt
  have hin : bytesPerUint128 * (i + 1) ≤ (wordBytes words ++ rest).length := by
    rw [List.length_append, wordBytes, FixedWidth.length_flatten hwidth]
    exact (Nat.mul_le_mul_left _ hi).trans (Nat.le_add_right _ _)
  rw [randAt, if_pos hin, wordBytes, take_drop_flatten hwidth rest hi, List.getElem_ofFn,
    littleEndian_littleEndianBytes]
  exact congrArg _ (Nat.mod_eq_of_lt (words i).isLt)

/-! ### The loop -/

theorem run_forM_shuffleStep {arr : ByteString} {rand : ℕ → ℕ} {count : ℕ}
    (hrand : ∀ i < count, randAt arr i = .ok (rand i)) (n : ℕ) (data : Array UInt32) :
    (forM (List.range count) (shuffleStep arr n)).run data
      = .ok () (rounds (fun i => rand i % (n - i)) data count) := by
  induction count with
  | zero => rfl
  | succ count ih =>
      rw [List.range_succ, List.forM_append, EStateM.run_bind,
        ih fun i hi => hrand i (Nat.lt_succ_of_lt hi)]
      dsimp only
      rw [List.forM_cons, EStateM.run_bind, run_shuffleStep (hrand count (Nat.lt_succ_self count))]
      rfl

theorem run_shuffleLoop {arr : ByteString} {rand : ℕ → ℕ} {n : ℕ}
    (hrand : ∀ i < n - 1, randAt arr i = .ok (rand i)) (data : Array UInt32) :
    (shuffleLoop arr n).run data = .ok () (rounds (fun i => rand i % (n - i)) data (n - 1)) :=
  run_forM_shuffleStep hrand n data

/-- The words for which the loop turns one vector into the other. The rest are the bytes behind
them, of which the code asks for one more word. -/
def wordsFor (data target : Array UInt32) (rest : ByteString) :
    Set (Fin (data.size - 1) → Fin (2 ^ 128)) :=
  {words | (shuffleLoop (wordBytes words ++ rest) data.size).run data = .ok () target}

theorem run_shuffleLoop_words {data : Array UInt32} (words : Fin (data.size - 1) → Fin (2 ^ 128))
    (rest : ByteString) :
    ∃ offset, (shuffleLoop (wordBytes words ++ rest) data.size).run data
        = .ok () (rounds offset data (data.size - 1))
      ∧ ∀ i : Fin (data.size - 1), offset i = words i % (data.size - i) := by
  let rand (i : ℕ) : ℕ := if hi : i < data.size - 1 then words ⟨i, hi⟩ else 0
  have hrand : ∀ i < data.size - 1, randAt (wordBytes words ++ rest) i = .ok (rand i) := by
    intro i hi
    rw [show rand i = words ⟨i, hi⟩ from dif_pos hi]
    exact randAt_wordBytes words rest ⟨i, hi⟩
  refine ⟨fun i => rand i % (data.size - i), run_shuffleLoop hrand data, fun i => ?_⟩
  exact congrArg (· % (data.size - i)) (show rand i = words i from dif_pos i.isLt)

theorem exists_mem_wordsFor_iff {data target : Array UInt32} (hdistinct : data.toList.Nodup)
    (hperm : target.Perm data) (rest : ByteString) :
    ∃ offsets : (i : Fin (data.size - 1)) → Fin (data.size - i), ∀ words,
      words ∈ wordsFor data target rest ↔ ∀ i, words i % (data.size - i) = (offsets i : ℕ) := by
  have htarget : target.toList.Nodup := hperm.toList.nodup_iff.mpr hdistinct
  obtain ⟨offsets, hin, hunique⟩ := exists_offsets_eq hperm htarget
  have hbound : ∀ i : Fin (data.size - 1), offsets i < data.size - i := fun i => by
    have hi := hin i i.isLt
    omega
  refine ⟨fun i => ⟨offsets i, hbound i⟩, fun words => ?_⟩
  obtain ⟨offset, hrun, hoffset⟩ := run_shuffleLoop_words words rest
  have hoffsetIn : InBounds offset data.size (data.size - 1) := fun i hi => by
    have heq : offset i = words ⟨i, hi⟩ % (data.size - i) := hoffset ⟨i, hi⟩
    have hlt := Nat.mod_lt (words ⟨i, hi⟩) (show 0 < data.size - i by omega)
    omega
  rw [wordsFor, Set.mem_ofPred_eq, hrun, EStateM.Result.ok.injEq]
  simp only [true_and]
  rw [hunique offset hoffsetIn]
  constructor
  · intro heq i
    rw [← hoffset i]
    exact heq i i.isLt
  · intro heq i hi
    rw [hoffset ⟨i, hi⟩]
    exact heq ⟨i, hi⟩

/-- **Exactly one vector of swap offsets for each permutation**, and so as many sequences of words
as leave these remainders. -/
theorem shuffle_bias {data target : Array UInt32} (hsize : data.size < 2 ^ 63)
    (hdistinct : data.toList.Nodup) (hperm : target.Perm data) (rest : ByteString) :
    (∃! offsets : (i : Fin (data.size - 1)) → Fin (data.size - i), ∀ words,
        words ∈ wordsFor data target rest ↔ ∀ i, words i % (data.size - i) = (offsets i : ℕ)) ∧
    ∏ i : Fin (data.size - 1), 2 ^ 128 / (data.size - i) ≤ (wordsFor data target rest).ncard ∧
    (wordsFor data target rest).ncard ≤ ∏ i : Fin (data.size - 1), 2 ^ 128 ⌈/⌉ (data.size - i) := by
  obtain ⟨offsets, hoffsets⟩ := exists_mem_wordsFor_iff hdistinct hperm rest
  refine ⟨⟨offsets, hoffsets, fun offsets' hoffsets' => ?_⟩, ?_⟩
  · let words (i : Fin (data.size - 1)) : Fin (2 ^ 128) := ⟨offsets i, by
      have hlt := (offsets i).isLt
      omega⟩
    have hwords : ∀ i, words i % (data.size - i) = (offsets i : ℕ) := fun i =>
      Nat.mod_eq_of_lt (offsets i).isLt
    have hwords' := (hoffsets' words).mp ((hoffsets words).mpr hwords)
    funext i
    exact Fin.ext ((hwords' i).symm.trans (hwords i))
  · have hset : wordsFor data target rest
        = {words | ∀ i, words i % (data.size - i) = (offsets i : ℕ)} := Set.ext hoffsets
    rw [hset]
    exact card_remainders_bounds (2 ^ 128) (fun i => data.size - i) (fun i => offsets i)
      fun i => (offsets i).isLt

theorem shuffle_bias_three :
    2 ^ 128 / 3 * (2 ^ 128 / 2) ≤ (wordsFor #[10, 20, 30] #[30, 10, 20] []).ncard ∧
    (wordsFor #[10, 20, 30] #[30, 10, 20] []).ncard ≤ (2 ^ 128 ⌈/⌉ 3) * (2 ^ 128 ⌈/⌉ 2) := by
  have hsize : (#[10, 20, 30] : Array UInt32).size < 2 ^ 63 := by decide
  have hperm : (#[30, 10, 20] : Array UInt32).Perm #[10, 20, 30] :=
    Array.perm_iff_toList_perm.mpr (by decide)
  have hbias := (shuffle_bias hsize (by decide) hperm []).2
  have hlower := Fin.prod_univ_two fun i : Fin 2 => 2 ^ 128 / (3 - (i : ℕ))
  have hupper := Fin.prod_univ_two fun i : Fin 2 => 2 ^ 128 ⌈/⌉ (3 - (i : ℕ))
  exact ⟨hlower.ge.trans hbias.1, hbias.2.trans hupper.le⟩

end AnySketchCorrectness
