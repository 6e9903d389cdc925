import Mathlib.Analysis.SpecialFunctions.Exp
import Mathlib.Data.Finset.Option
import Mathlib.Algebra.BigOperators.Field
import Mathlib.Algebra.Order.Ring.Pow
import Mathlib.Data.Fintype.Pi

/-!
# Occupied cells

Independent uniform draws hit cells with certain chances. The expected number of the cells that are
hit follows by looking at one cell after the other, and is at most 1 away from what it would be if
the numbers of hits were independent Poisson counts.
-/

namespace Occupancy

open Finset

variable {Ω ι : Type} [Fintype Ω] [DecidableEq ι] (cell : Ω → Option ι)

/-- The cells that are hit. A draw may miss all of them. -/
def occupied {n : ℕ} (draws : Fin n → Ω) : Finset ι :=
  eraseNone (univ.image fun k => cell (draws k))

noncomputable def chance (i : ι) : ℝ :=
  #{ω | cell ω = some i} / Fintype.card Ω

/-- Over all sequences of `n` draws. -/
noncomputable def expectedOccupied (n : ℕ) : ℝ :=
  (∑ draws : Fin n → Ω, (#(occupied cell draws) : ℝ)) / Fintype.card Ω ^ n

omit [Fintype Ω] in
theorem mem_occupied {n : ℕ} {draws : Fin n → Ω} {i : ι} :
    i ∈ occupied cell draws ↔ ∃ k, cell (draws k) = some i := by
  simp [occupied]

/-- The draws that miss a cell are the draws from the rest. -/
theorem card_missing (n : ℕ) (i : ι) :
    #{draws : Fin n → Ω | i ∉ occupied cell draws}
      = (Fintype.card Ω - #{ω | cell ω = some i}) ^ n := by
  classical
  have hmissing : ({draws : Fin n → Ω | i ∉ occupied cell draws} : Finset _)
      = Fintype.piFinset fun _ => ({ω | cell ω = some i} : Finset Ω)ᶜ := by
    ext draws
    simp [mem_occupied]
  rw [hmissing, Fintype.card_piFinset_const, card_compl]

theorem chance_nonneg (i : ι) : 0 ≤ chance cell i :=
  div_nonneg (Nat.cast_nonneg _) (Nat.cast_nonneg _)

theorem chance_le_one (i : ι) : chance cell i ≤ 1 := by
  refine div_le_one_of_le₀ ?_ (Nat.cast_nonneg _)
  exact_mod_cast card_le_univ _

variable [Nonempty Ω]

theorem sum_chance_le_one (cells : Finset ι) : ∑ i ∈ cells, chance cell i ≤ 1 := by
  classical
  have hpositive : (0 : ℝ) < Fintype.card Ω := by exact_mod_cast Fintype.card_pos
  have hcard : ∑ i ∈ cells, #{ω | cell ω = some i} ≤ Fintype.card Ω := by
    rw [← card_biUnion]
    · exact card_le_univ _
    · intro i _ i' _ hne
      refine disjoint_left.mpr fun ω hω hω' => hne ?_
      rw [mem_filter] at hω hω'
      exact Option.some.inj (hω.2.symm.trans hω'.2)
  calc ∑ i ∈ cells, chance cell i
      = ((∑ i ∈ cells, #{ω | cell ω = some i} : ℕ) : ℝ) / Fintype.card Ω := by
        rw [Nat.cast_sum, sum_div]
        rfl
    _ ≤ 1 := by
        rw [div_le_one hpositive]
        exact_mod_cast hcard

/-- **One cell after the other.** -/
theorem expectedOccupied_eq {cells : Finset ι} (hcells : ∀ ω i, cell ω = some i → i ∈ cells)
    (n : ℕ) :
    expectedOccupied cell n = ∑ i ∈ cells, (1 - (1 - chance cell i) ^ n) := by
  classical
  have hpositive : (0 : ℝ) < Fintype.card Ω := by exact_mod_cast Fintype.card_pos
  have hcard : ∀ draws : Fin n → Ω,
      (#(occupied cell draws) : ℝ) = ∑ i ∈ cells, if i ∈ occupied cell draws then 1 else 0 := by
    intro draws
    have hsubset : occupied cell draws ⊆ cells := fun i hi => by
      obtain ⟨k, hk⟩ := (mem_occupied cell).mp hi
      exact hcells _ _ hk
    rw [sum_ite_mem, inter_eq_right.mpr hsubset, sum_const, nsmul_eq_mul, mul_one]
  have hcell : ∀ i, (∑ draws : Fin n → Ω, if i ∈ occupied cell draws then (1 : ℝ) else 0)
      = Fintype.card Ω ^ n - (Fintype.card Ω - #{ω | cell ω = some i}) ^ n := by
    intro i
    have hsplit : #{draws : Fin n → Ω | i ∈ occupied cell draws}
        + #{draws : Fin n → Ω | i ∉ occupied cell draws} = Fintype.card Ω ^ n := by
      rw [card_filter_add_card_filter_not, card_univ, Fintype.card_fun, Fintype.card_fin]
    rw [card_missing] at hsplit
    have hle : #{ω | cell ω = some i} ≤ Fintype.card Ω := card_le_univ _
    rw [sum_boole, eq_sub_iff_add_eq, ← Nat.cast_sub hle]
    exact_mod_cast hsplit
  have hterm : ∀ i, (Fintype.card Ω ^ n - (Fintype.card Ω - #{ω | cell ω = some i}) ^ n : ℝ)
      / Fintype.card Ω ^ n = 1 - (1 - chance cell i) ^ n := by
    intro i
    rw [sub_div, div_self (pow_pos hpositive n).ne', ← div_pow, sub_div, div_self hpositive.ne',
      chance]
  calc expectedOccupied cell n
      = (∑ i ∈ cells, ∑ draws : Fin n → Ω, if i ∈ occupied cell draws then (1 : ℝ) else 0)
          / Fintype.card Ω ^ n := by
        rw [expectedOccupied, sum_congr rfl fun draws _ => hcard draws, sum_comm]
    _ = ∑ i ∈ cells, (1 - (1 - chance cell i) ^ n) := by
        rw [sum_div]
        exact sum_congr rfl fun i _ => by rw [hcell, hterm]

/-! ### Poisson counts -/

section Poisson

variable {p : ℝ} (hnonneg : 0 ≤ p) (hle : p ≤ 1) (n : ℕ)
include hle

theorem pow_le_exp_neg : (1 - p) ^ n ≤ Real.exp (-(n * p)) := by
  calc (1 - p) ^ n ≤ Real.exp (-p) ^ n := by
        refine pow_le_pow_left₀ (sub_nonneg.mpr hle) ?_ n
        linarith [Real.add_one_le_exp (-p)]
    _ = Real.exp (-(n * p)) := by
        rw [← Real.exp_nat_mul, mul_neg]

include hnonneg

theorem exp_neg_sub_pow_le : Real.exp (-(n * p)) - (1 - p) ^ n ≤ p := by
  have hfactor : (1 - p ^ 2) * Real.exp (-p) ≤ 1 - p := by
    have hexp : (1 + p) * Real.exp (-p) ≤ 1 := by
      calc (1 + p) * Real.exp (-p) ≤ Real.exp p * Real.exp (-p) := by
            gcongr
            linarith [Real.add_one_le_exp p]
        _ = 1 := by rw [← Real.exp_add, add_neg_cancel, Real.exp_zero]
    calc (1 - p ^ 2) * Real.exp (-p) = (1 - p) * ((1 + p) * Real.exp (-p)) := by ring
      _ ≤ (1 - p) * 1 := mul_le_mul_of_nonneg_left hexp (sub_nonneg.mpr hle)
      _ = 1 - p := mul_one _
  have hsquare : 0 ≤ 1 - p ^ 2 := sub_nonneg.mpr (pow_le_one₀ hnonneg hle)
  have hbernoulli : 1 - n * p ^ 2 ≤ (1 - p ^ 2) ^ n := by
    have := one_add_mul_le_pow (show -2 ≤ -p ^ 2 by linarith) n
    calc 1 - n * p ^ 2 = 1 + n * -p ^ 2 := by ring
      _ ≤ (1 + -p ^ 2) ^ n := this
      _ = (1 - p ^ 2) ^ n := by rw [← sub_eq_add_neg]
  have hpow : (1 - n * p ^ 2) * Real.exp (-(n * p)) ≤ (1 - p) ^ n := by
    calc (1 - n * p ^ 2) * Real.exp (-(n * p))
        ≤ (1 - p ^ 2) ^ n * Real.exp (-(n * p)) := by gcongr
      _ = ((1 - p ^ 2) * Real.exp (-p)) ^ n := by
          rw [mul_pow, ← Real.exp_nat_mul, mul_neg]
      _ ≤ (1 - p) ^ n := pow_le_pow_left₀ (mul_nonneg hsquare (Real.exp_pos _).le) hfactor n
  have hpeak : n * p * Real.exp (-(n * p)) ≤ 1 := by
    calc n * p * Real.exp (-(n * p)) ≤ Real.exp (n * p) * Real.exp (-(n * p)) := by
          gcongr
          linarith [Real.add_one_le_exp (n * p)]
      _ = 1 := by rw [← Real.exp_add, add_neg_cancel, Real.exp_zero]
  calc Real.exp (-(n * p)) - (1 - p) ^ n
      ≤ Real.exp (-(n * p)) - (1 - n * p ^ 2) * Real.exp (-(n * p)) := by linarith
    _ = p * (n * p * Real.exp (-(n * p))) := by ring
    _ ≤ p * 1 := mul_le_mul_of_nonneg_left hpeak hnonneg
    _ = p := mul_one p

end Poisson

theorem abs_expectedOccupied_sub_le {cells : Finset ι}
    (hcells : ∀ ω i, cell ω = some i → i ∈ cells) (n : ℕ) :
    |expectedOccupied cell n - ∑ i ∈ cells, (1 - Real.exp (-(n * chance cell i)))| ≤ 1 := by
  have hdifference : expectedOccupied cell n - ∑ i ∈ cells, (1 - Real.exp (-(n * chance cell i)))
      = ∑ i ∈ cells, (Real.exp (-(n * chance cell i)) - (1 - chance cell i) ^ n) := by
    rw [expectedOccupied_eq cell hcells, ← sum_sub_distrib]
    exact sum_congr rfl fun i _ => by ring
  have hnonneg : 0 ≤ ∑ i ∈ cells, (Real.exp (-(n * chance cell i)) - (1 - chance cell i) ^ n) :=
    sum_nonneg fun i _ => sub_nonneg.mpr (pow_le_exp_neg (chance_le_one cell i) n)
  rw [hdifference, abs_of_nonneg hnonneg]
  calc ∑ i ∈ cells, (Real.exp (-(n * chance cell i)) - (1 - chance cell i) ^ n)
      ≤ ∑ i ∈ cells, chance cell i := sum_le_sum fun i _ =>
        exp_neg_sub_pow_le (chance_nonneg cell i) (chance_le_one cell i) n
    _ ≤ 1 := sum_chance_le_one cell cells

/-! ### Nearby chances -/

theorem exp_neg_sub_exp_neg_le {x : ℝ} (hx : 0 ≤ x) (y : ℝ) :
    Real.exp (-x) - Real.exp (-y) ≤ |x - y| := by
  have hfactor : Real.exp (-y) = Real.exp (-x) * Real.exp (x - y) := by
    rw [← Real.exp_add]
    congr 1
    ring
  have hlinear := mul_le_mul_of_nonneg_left (Real.add_one_le_exp (x - y)) (Real.exp_pos (-x)).le
  calc Real.exp (-x) - Real.exp (-y) ≤ Real.exp (-x) * (y - x) := by linarith
    _ ≤ Real.exp (-x) * |x - y| := by
        refine mul_le_mul_of_nonneg_left ?_ (Real.exp_pos _).le
        rw [abs_sub_comm]
        exact le_abs_self _
    _ ≤ 1 * |x - y| := by
        refine mul_le_mul_of_nonneg_right ?_ (abs_nonneg _)
        exact Real.exp_le_one_iff.mpr (neg_nonpos.mpr hx)
    _ = |x - y| := one_mul _

omit [DecidableEq ι] in
theorem abs_sum_one_sub_exp_sub_le {cells : Finset ι} {p q : ι → ℝ} {ε : ℝ}
    (hp : ∀ i ∈ cells, 0 ≤ p i) (hq : ∀ i ∈ cells, 0 ≤ q i)
    (hnear : ∀ i ∈ cells, |p i - q i| ≤ ε) (n : ℕ) :
    |∑ i ∈ cells, (1 - Real.exp (-(n * p i))) - ∑ i ∈ cells, (1 - Real.exp (-(n * q i)))|
      ≤ cells.card * (n * ε) := by
  have hcell : ∀ i ∈ cells,
      |1 - Real.exp (-(n * p i)) - (1 - Real.exp (-(n * q i)))| ≤ n * ε := by
    intro i hi
    have hscaled : |n * p i - n * q i| ≤ n * ε := by
      rw [← mul_sub, abs_mul, Nat.abs_cast]
      exact mul_le_mul_of_nonneg_left (hnear i hi) (Nat.cast_nonneg n)
    have hleft := exp_neg_sub_exp_neg_le (mul_nonneg (Nat.cast_nonneg n) (hp i hi)) (n * q i)
    have hright := exp_neg_sub_exp_neg_le (mul_nonneg (Nat.cast_nonneg n) (hq i hi)) (n * p i)
    rw [abs_sub_comm] at hright
    rw [abs_le]
    constructor
    · linarith
    · linarith
  calc |∑ i ∈ cells, (1 - Real.exp (-(n * p i))) - ∑ i ∈ cells, (1 - Real.exp (-(n * q i)))|
      = |∑ i ∈ cells, (1 - Real.exp (-(n * p i)) - (1 - Real.exp (-(n * q i))))| := by
        rw [← sum_sub_distrib]
    _ ≤ ∑ i ∈ cells, |1 - Real.exp (-(n * p i)) - (1 - Real.exp (-(n * q i)))| :=
        abs_sum_le_sum_abs _ _
    _ ≤ cells.card * (n * ε) := by
        rw [← nsmul_eq_mul]
        exact sum_le_card_nsmul _ _ _ hcell

end Occupancy
