import Mathlib.Algebra.Group.Nat.Defs
import Mathlib.Data.Nat.Log
import Mathlib.Tactic.Common

/-!
# Bisection that leaves out the midpoint

A bisection of an interval of naturals tests the midpoint and goes on with the part below it or the
part above it, leaving out the midpoint both times. Every number of the interval is either the
midpoint of some round or is never tested. The result is the last number below the cut, except when
the number after it is never tested: then the interval shrinks to that number, which is returned.

An interval is given by its first number and its size, so an empty interval has a place too.
-/

namespace Bisection

/-- The result for the numbers from `left` on; those above the cut satisfy `above`. -/
def bisect (above : ℕ → Prop) [DecidablePred above] (left size : ℕ) : ℕ :=
  if 2 ≤ size then
    let half := (size - 1) / 2
    if above (left + half) then bisect above left half
    else bisect above (left + half + 1) (size / 2)
  else left + size - 1
termination_by size
decreasing_by all_goals omega

/-- No round tests the number at this offset. -/
def Untested (size offset : ℕ) : Prop :=
  if 2 ≤ size then
    let half := (size - 1) / 2
    (offset < half ∧ Untested half offset)
      ∨ (half < offset ∧ Untested (size / 2) (offset - half - 1))
  else size = 1 ∧ offset = 0
termination_by size
decreasing_by all_goals omega

theorem untested_of_lt_two {size : ℕ} (hsize : size < 2) (offset : ℕ) :
    Untested size offset ↔ size = 1 ∧ offset = 0 := by
  rw [Untested, if_neg (Nat.not_le.mpr hsize)]

theorem untested_of_two_le {size : ℕ} (hsize : 2 ≤ size) (offset : ℕ) :
    Untested size offset ↔
      (offset < (size - 1) / 2 ∧ Untested ((size - 1) / 2) offset)
        ∨ ((size - 1) / 2 < offset ∧ Untested (size / 2) (offset - (size - 1) / 2 - 1)) := by
  rw [Untested, if_pos hsize]

theorem Untested.lt {size offset : ℕ} (huntested : Untested size offset) : offset < size := by
  induction size using Nat.strong_induction_on generalizing offset with
  | _ size ih =>
      rcases Nat.lt_or_ge size 2 with hsmall | hlarge
      · obtain ⟨rfl, rfl⟩ := (untested_of_lt_two hsmall offset).mp huntested
        exact Nat.one_pos
      · rcases (untested_of_two_le hlarge offset).mp huntested with ⟨hlt, -⟩ | ⟨hgt, hrest⟩
        · omega
        · have hlt := ih (size / 2) (by omega) hrest
          omega

/-! ### The result -/

section Result

variable {above : ℕ → Prop} [DecidablePred above]

theorem bisect_of_lt_two {left size : ℕ} (hsize : size < 2) :
    bisect above left size = left + size - 1 := by
  rw [bisect, if_neg (Nat.not_le.mpr hsize)]

theorem bisect_of_above {left size : ℕ} (hsize : 2 ≤ size)
    (habove : above (left + (size - 1) / 2)) :
    bisect above left size = bisect above left ((size - 1) / 2) := by
  rw [bisect, if_pos hsize]
  exact if_pos habove

theorem bisect_of_not_above {left size : ℕ} (hsize : 2 ≤ size)
    (habove : ¬ above (left + (size - 1) / 2)) :
    bisect above left size = bisect above (left + (size - 1) / 2 + 1) (size / 2) := by
  rw [bisect, if_pos hsize]
  exact if_neg habove

/-- **Where a bisection ends.** If `cut` is the last number below the cut, the result is `cut`, or
the number after it in case that is never tested. -/
theorem bisect_eq {left size cut : ℕ} (habove : ∀ x, above x ↔ cut < x) (hleft : left ≤ cut + 1)
    (hright : cut + 1 ≤ left + size) :
    (Untested size (cut + 1 - left) ∧ bisect above left size = cut + 1)
      ∨ (¬ Untested size (cut + 1 - left) ∧ bisect above left size = cut) := by
  induction size using Nat.strong_induction_on generalizing left with
  | _ size ih =>
      rcases Nat.lt_or_ge size 2 with hsmall | hlarge
      · rw [untested_of_lt_two hsmall, bisect_of_lt_two hsmall]
        omega
      · rw [untested_of_two_le hlarge]
        by_cases hmid : above (left + (size - 1) / 2)
        · rw [bisect_of_above hlarge hmid]
          rw [habove] at hmid
          -- the number after the cut is tested now or in the part below
          have hoffset : Untested ((size - 1) / 2) (cut + 1 - left)
              ↔ (cut + 1 - left < (size - 1) / 2 ∧ Untested ((size - 1) / 2) (cut + 1 - left))
                ∨ ((size - 1) / 2 < cut + 1 - left
                  ∧ Untested (size / 2) (cut + 1 - left - (size - 1) / 2 - 1)) := by
            constructor
            · intro huntested
              exact Or.inl ⟨huntested.lt, huntested⟩
            · rintro (⟨-, huntested⟩ | ⟨hgt, -⟩)
              · exact huntested
              · omega
          rw [← hoffset]
          exact ih ((size - 1) / 2) (by omega) hleft (by omega)
        · rw [bisect_of_not_above hlarge hmid]
          rw [habove] at hmid
          have hoffset : Untested (size / 2) (cut + 1 - (left + (size - 1) / 2 + 1))
              ↔ (cut + 1 - left < (size - 1) / 2 ∧ Untested ((size - 1) / 2) (cut + 1 - left))
                ∨ ((size - 1) / 2 < cut + 1 - left
                  ∧ Untested (size / 2) (cut + 1 - left - (size - 1) / 2 - 1)) := by
            have hshift : cut + 1 - (left + (size - 1) / 2 + 1)
                = cut + 1 - left - (size - 1) / 2 - 1 := by omega
            rw [hshift]
            constructor
            · intro huntested
              exact Or.inr ⟨by omega, huntested⟩
            · rintro (⟨hlt, -⟩ | ⟨-, huntested⟩)
              · omega
              · exact huntested
          rw [← hoffset]
          exact ih (size / 2) (by omega) (by omega) (by omega)

end Result

/-! ### Intervals between powers of two -/

theorem untested_two_pow_sub_one {p : ℕ} (hp : 0 < p) (offset : ℕ) :
    Untested (2 ^ p - 1) offset ↔ offset % 2 = 0 ∧ offset + 1 < 2 ^ p := by
  induction p, hp using Nat.le_induction generalizing offset with
  | base =>
      rw [untested_of_lt_two (by decide)]
      omega
  | succ p hp ih =>
      have hpow : 2 ^ (p + 1) = 2 * 2 ^ p := Nat.pow_succ'
      have heven : 2 ^ p % 2 = 0 := by
        obtain ⟨q, rfl⟩ := Nat.exists_eq_add_of_le' hp
        rw [Nat.pow_succ, Nat.mul_mod_left]
      have htwo : 2 ≤ 2 ^ p := Nat.le_self_pow (Nat.ne_of_gt hp) 2
      have hhalf : (2 ^ (p + 1) - 1 - 1) / 2 = 2 ^ p - 1 := by omega
      have hrest : (2 ^ (p + 1) - 1) / 2 = 2 ^ p - 1 := by omega
      rw [untested_of_two_le (by omega), hhalf, hrest, ih, ih]
      omega

/-- The offsets that are never tested in an interval whose size is a power of two. -/
def Skipped (size offset : ℕ) : Prop :=
  offset + 1 = size ∨ (offset % 2 = 0 ∧ offset + 4 ≤ size)

theorem untested_two_pow (p offset : ℕ) : Untested (2 ^ p) offset ↔ Skipped (2 ^ p) offset := by
  unfold Skipped
  induction p generalizing offset with
  | zero =>
      rw [untested_of_lt_two (by decide)]
      omega
  | succ p ih =>
      have hpow : 2 ^ (p + 1) = 2 * 2 ^ p := Nat.pow_succ'
      have hone : 1 ≤ 2 ^ p := Nat.one_le_two_pow
      have hhalf : (2 ^ (p + 1) - 1) / 2 = 2 ^ p - 1 := by omega
      have hrest : 2 ^ (p + 1) / 2 = 2 ^ p := by omega
      rw [untested_of_two_le (by omega), hhalf, hrest, ih]
      cases p with
      | zero =>
          rw [untested_of_lt_two (by decide)]
          omega
      | succ p =>
          have heven : 2 ^ (p + 1) % 2 = 0 := by rw [Nat.pow_succ, Nat.mul_mod_left]
          rw [untested_two_pow_sub_one (Nat.succ_pos p)]
          omega

/-- The interval from one power of two to the next has its midpoint tested first. What is left is
two intervals of a power of two. -/
theorem untested_two_pow_add_one (p offset : ℕ) :
    Untested (2 ^ (p + 1) + 1) offset
      ↔ Skipped (2 ^ p) offset ∨ (2 ^ p < offset ∧ Skipped (2 ^ p) (offset - 2 ^ p - 1)) := by
  have hpow : 2 ^ (p + 1) = 2 * 2 ^ p := Nat.pow_succ'
  have hone : 1 ≤ 2 ^ p := Nat.one_le_two_pow
  have hhalf : (2 ^ (p + 1) + 1 - 1) / 2 = 2 ^ p := by omega
  have hrest : (2 ^ (p + 1) + 1) / 2 = 2 ^ p := by omega
  rw [untested_of_two_le (by omega), hhalf, hrest, untested_two_pow, untested_two_pow]
  refine or_congr_left (and_iff_right_of_imp fun hskipped => ?_)
  unfold Skipped at hskipped
  omega

end Bisection
