import Mathlib.Algebra.Ring.Parity
import Mathlib.Data.Nat.Factorization.Basic
import Mathlib.Data.UInt
import AnySketchCorrectness.Library.FisherYates

/-!
# The lowest set bit

A number other than zero is a power of two times an odd number, and that power is its lowest set
bit. A machine word meets its two's complement in this bit alone: below it both have zeros, above it
each bit of the one is the opposite of the other's.
-/

namespace LowestBit

variable {n position m width k : ℕ}

/-- The power of two that is left of a number and its negation modulo `2 ^ width`. -/
theorem and_two_pow_sub (hn : n = 2 ^ position * m) (hodd : Odd m) (hlt : n < 2 ^ width) :
    n &&& (2 ^ width - n) = 2 ^ position := by
  obtain ⟨quotient, rfl⟩ := hodd
  have hpositive := Nat.two_pow_pos position
  have hbit : n = 2 ^ (position + 1) * quotient + 2 ^ position := by
    rw [hn]
    ring
  have hbelow : n - 1 = 2 ^ (position + 1) * quotient + (2 ^ position - 1) := by omega
  have hpower : 2 ^ position < 2 ^ (position + 1) :=
    Nat.pow_lt_pow_right Nat.one_lt_two (Nat.lt_succ_self position)
  have hnegation : 2 ^ width - n = 2 ^ width - (n - 1 + 1) := by omega
  apply Nat.eq_of_testBit_eq
  intro i
  rw [hnegation, Nat.testBit_and, Nat.testBit_two_pow_sub_succ (by omega), hbelow, hbit,
    Nat.testBit_two_pow_mul_add _ hpower, Nat.testBit_two_pow_mul_add _ (by omega),
    Nat.testBit_two_pow, Nat.testBit_two_pow_sub_one]
  by_cases hi : i < position + 1
  · have hwidth : position < width := by
      rw [← Nat.pow_lt_pow_iff_right Nat.one_lt_two]
      omega
    rw [if_pos hi, if_pos hi]
    by_cases heq : position = i
    · simp [heq ▸ hwidth, heq]
    · simp [heq]
  · rw [if_neg hi, if_neg hi]
    have hne : position ≠ i := by omega
    cases quotient.testBit (i - (position + 1)) <;> simp [hne]

theorem two_pow_dvd_iff (hn : n = 2 ^ position * m) (hodd : Odd m) :
    2 ^ k ∣ n ↔ k ≤ position := by
  have hcoprime : Nat.Coprime (2 ^ k) m := Nat.Coprime.pow_left k (Nat.coprime_two_left.mpr hodd)
  rw [hn, hcoprime.dvd_mul_right, Nat.pow_dvd_pow_iff_le_right Nat.one_lt_two]

/-- **Each further zero at the end halves the number of words.** -/
theorem card_filter_two_pow_dvd (hk : k ≤ width) :
    (Finset.univ.filter fun n : Fin (2 ^ width) => 2 ^ k ∣ (n : ℕ)).card = 2 ^ (width - k) := by
  have hdvd : 2 ^ k ∣ 2 ^ width := pow_dvd_pow 2 hk
  have hcount := FisherYates.card_filter_mod (2 ^ k) (Nat.two_pow_pos k) (2 ^ width) 0
    (Nat.two_pow_pos k)
  rw [Nat.mod_eq_zero_of_dvd hdvd, if_neg (Nat.lt_irrefl 0), Nat.add_zero,
    Nat.pow_div hk Nat.zero_lt_two] at hcount
  rw [← hcount]
  simp only [Nat.dvd_iff_mod_eq_zero]

end LowestBit
