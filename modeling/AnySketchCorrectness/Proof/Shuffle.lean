import AnySketchCorrectness.Shuffle
import AnySketchCorrectness.Library.Reindexing
import AnySketchCorrectness.Library.StateInvariant

/-!
# The shuffle is one permutation for each seed

The swap indices are read from the keystream and never from the data, so the rounds compose to a
permutation that only the seed and the length determine. Two share vectors shuffled apart with one
seed are therefore still shares of the shuffled vector.
-/

namespace AnySketchCorrectness

open UniformPseudorandomGenerator StateInvariant Reindexing

variable {Ctx : Type} {n : Nat}

theorem swapIndex_range (rand : Nat) {i : Nat} (hi : i < n - 1) :
    i ≤ swapIndex rand n i ∧ swapIndex rand n i ≤ n - 1 := by
  have hlt : rand % (n - i) < n - i := Nat.mod_lt rand (by omega)
  rw [swapIndex]
  omega

theorem run_shuffleStep {arr : ByteString} {rand i : Nat} (hrand : randAt arr i = .ok rand)
    (n : Nat) (data : Array UInt32) :
    (shuffleStep arr n i).run data = .ok () (data.swapIfInBounds i (swapIndex rand n i)) := by
  rw [shuffleStep, hrand, EStateM.run_bind, run_ofExcept_ok]
  rfl

theorem exists_reindexed_rounds (arr : ByteString) (rounds : List Nat)
    (hrounds : ∀ i ∈ rounds, i < n - 1) :
    ∃ π : Equiv.Perm (Fin n), ∀ data : Array UInt32, data.size = n →
      Reindexed π data (finalState ((forM rounds (shuffleStep arr n)).run data)) := by
  induction rounds with
  | nil => exact ⟨1, fun data hsize => Reindexed.refl hsize⟩
  | cons i rounds ih =>
      obtain ⟨hi, hrounds⟩ := List.forall_mem_cons.mp hrounds
      obtain ⟨π, hπ⟩ := ih hrounds
      cases hrand : randAt arr i with
      | error e =>
          refine ⟨1, fun data hsize => ?_⟩
          have hrun : (forM (i :: rounds) (shuffleStep arr n)).run data = .error e data := by
            rw [List.forM_cons, EStateM.run_bind, shuffleStep, hrand, EStateM.run_bind,
              run_ofExcept_error]
          rw [hrun]
          exact Reindexed.refl hsize
      | ok rand =>
          have hrange := swapIndex_range rand hi
          let left : Fin n := ⟨i, by omega⟩
          let right : Fin n := ⟨swapIndex rand n i, by omega⟩
          refine ⟨Equiv.swap left right * π, fun data hsize => ?_⟩
          have hswap := Reindexed.swap hsize left right
          have hrun : (forM (i :: rounds) (shuffleStep arr n)).run data
              = (forM rounds (shuffleStep arr n)).run
                  (data.swapIfInBounds i (swapIndex rand n i)) := by
            rw [List.forM_cons, EStateM.run_bind, run_shuffleStep hrand]
          rw [hrun]
          exact hswap.trans (hπ _ hswap.size_after)

theorem exists_reindexed_shuffleLoop (arr : ByteString) (n : Nat) :
    ∃ π : Equiv.Perm (Fin n), ∀ data : Array UInt32, data.size = n →
      Reindexed π data (finalState ((shuffleLoop arr n).run data)) :=
  exists_reindexed_rounds arr (List.range (n - 1)) fun _ hi => List.mem_range.mp hi

/-- The vector that a call leaves behind, whether it succeeds or fails. -/
def shuffled (evp : EvpCipher Ctx) (seed : PrngSeed) (data : Array UInt32) : Array UInt32 :=
  finalState ((secureShuffleWithSeed evp seed).run data)

theorem exists_reindexed_shuffled (evp : EvpCipher Ctx) (seed : PrngSeed) (n : Nat) :
    ∃ π : Equiv.Perm (Fin n), ∀ data : Array UInt32, data.size = n →
      Reindexed π data (shuffled evp seed data) := by
  by_cases hsmall : n ≤ 1
  · refine ⟨1, fun data hsize => ?_⟩
    have hrun : (secureShuffleWithSeed evp seed).run data = .ok () data := by
      rw [secureShuffleWithSeed, EStateM.run_bind, EStateM.run_get]
      simp only [hsize, if_pos hsmall]
      rfl
    rw [shuffled, hrun]
    exact Reindexed.refl hsize
  -- the seed and the length determine the words, and whether there are any
  have hrun : ∀ data : Array UInt32, data.size = n → (secureShuffleWithSeed evp seed).run data
      = (do
          let prng ← MonadExcept.ofExcept (createPrngFromSeed evp seed)
          let arr ← MonadExcept.ofExcept (evaluate (generatePseudorandomBytes evp
            (UInt64.ofNat n * UInt64.ofNat bytesPerUint128).toInt64) prng)
          shuffleLoop arr n : EStateM Failure (Array UInt32) Unit).run data := by
    intro data hsize
    rw [secureShuffleWithSeed, EStateM.run_bind, EStateM.run_get]
    simp only [hsize, if_neg hsmall]
  cases hcreate : createPrngFromSeed evp seed with
  | error e =>
      refine ⟨1, fun data hsize => ?_⟩
      rw [shuffled, hrun data hsize, hcreate, EStateM.run_bind, run_ofExcept_error]
      exact Reindexed.refl hsize
  | ok prng =>
      cases hwords : evaluate (generatePseudorandomBytes evp
          (UInt64.ofNat n * UInt64.ofNat bytesPerUint128).toInt64) prng with
      | error e =>
          refine ⟨1, fun data hsize => ?_⟩
          rw [shuffled, hrun data hsize, hcreate, EStateM.run_bind, run_ofExcept_ok]
          simp only [EStateM.run_bind, hwords, run_ofExcept_error]
          exact Reindexed.refl hsize
      | ok arr =>
          obtain ⟨π, hπ⟩ := exists_reindexed_shuffleLoop arr n
          refine ⟨π, fun data hsize => ?_⟩
          rw [shuffled, hrun data hsize, hcreate, EStateM.run_bind, run_ofExcept_ok]
          simp only [EStateM.run_bind, hwords, run_ofExcept_ok]
          exact hπ data hsize

/-- The sums of two share vectors modulo `modulus`, computed without wrapping. -/
def addMod (modulus : Nat) (a b : Array UInt32) : Array UInt32 :=
  Array.zipWith (fun x y => UInt32.ofNat ((x.toNat + y.toNat) % modulus)) a b

/-- **One permutation for each seed and length.** Every vector of that length is reindexed by it, no
swap leaves the part of the vector that is still to be shuffled, and adding two shuffled share
vectors is the same as shuffling their sum. -/
theorem secureShuffleWithSeed_reindexes (evp : EvpCipher Ctx) (seed : PrngSeed) (n : Nat) :
    ∃ π : Equiv.Perm (Fin n),
      (∀ data : Array UInt32, data.size = n → (shuffled evp seed data).size = n ∧
        ∀ k : Fin n, (shuffled evp seed data)[(k : Nat)]? = data[(π k : Nat)]?) ∧
      (∀ rand i, i < n - 1 → i ≤ swapIndex rand n i ∧ swapIndex rand n i ≤ n - 1) ∧
      ∀ (modulus : Nat) (a b : Array UInt32), a.size = n → b.size = n →
        addMod modulus (shuffled evp seed a) (shuffled evp seed b)
          = shuffled evp seed (addMod modulus a b) := by
  obtain ⟨π, hπ⟩ := exists_reindexed_shuffled evp seed n
  refine ⟨π, ?_, fun rand i hi => swapIndex_range rand hi, ?_⟩
  · intro data hsize
    have hreindexed := hπ data hsize
    exact ⟨hreindexed.size_after, hreindexed.getElem?_eq⟩
  · intro modulus a b ha hb
    have hsum : Reindexed π (addMod modulus a b)
        (addMod modulus (shuffled evp seed a) (shuffled evp seed b)) :=
      (hπ a ha).zipWith _ (hπ b hb)
    exact hsum.unique (hπ _ hsum.size_before)

end AnySketchCorrectness
