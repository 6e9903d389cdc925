import AnySketchCorrectness.Library.Occupancy

/-!
# Draws that are alone in their cell

Each of several independent draws has the same chance to be the only one in its cell. So whatever
the draws are labelled with, the labels of those that are alone are on average the labels of all,
scaled down by one factor.
-/

namespace Occupancy

open Finset

variable {Ω ι : Type} (cell : Ω → Option ι)

/-- The draw hits this cell, and no other one does. -/
def IsSolitary {n : ℕ} (draws : Fin n → Ω) (k : Fin n) (i : ι) : Prop :=
  cell (draws k) = some i ∧ ∀ k' ≠ k, cell (draws k') ≠ some i

theorem IsSolitary.unique {n : ℕ} {draws : Fin n → Ω} {k : Fin n} {i i' : ι}
    (hsolitary : IsSolitary cell draws k i) (hsolitary' : IsSolitary cell draws k i') : i = i' :=
  Option.some.inj (hsolitary.1.symm.trans hsolitary'.1)

variable [Fintype Ω] [DecidableEq ι]

/-- The cells that a draw can hit. -/
def cells : Finset ι := eraseNone (univ.image cell)

theorem mem_cells {i : ι} : i ∈ cells cell ↔ ∃ ω, cell ω = some i := by
  simp [cells]

/-- That a given one of `n` draws is alone. -/
noncomputable def solitaryChance (n : ℕ) : ℝ :=
  ∑ i ∈ cells cell, chance cell i * (1 - chance cell i) ^ (n - 1)

open Classical in
/-- One draw from the cell, and the others from the rest. -/
theorem card_isSolitary {n : ℕ} (k : Fin n) (i : ι) :
    #{draws : Fin n → Ω | IsSolitary cell draws k i}
      = #{ω | cell ω = some i} * (Fintype.card Ω - #{ω | cell ω = some i}) ^ (n - 1) := by
  let hits : Finset Ω := {ω | cell ω = some i}
  have hhits : ∀ ω, ω ∈ hits ↔ cell ω = some i := fun ω => mem_filter_univ ω
  have hsolitary : ({draws : Fin n → Ω | IsSolitary cell draws k i} : Finset _)
      = Fintype.piFinset fun k' => if k' = k then hits else hitsᶜ := by
    ext draws
    rw [mem_filter_univ, Fintype.mem_piFinset]
    constructor
    · rintro ⟨hhit, hmiss⟩ k'
      by_cases hk : k' = k
      · rw [if_pos hk, hk]
        exact (hhits _).mpr hhit
      · rw [if_neg hk, mem_compl, hhits]
        exact hmiss k' hk
    · intro hdraws
      refine ⟨?_, fun k' hk hhit => ?_⟩
      · have hmem := hdraws k
        rwa [if_pos rfl, hhits] at hmem
      · have hmem := hdraws k'
        rw [if_neg hk, mem_compl, hhits] at hmem
        exact hmem hhit
  have hcard : ∀ k', #(if k' = k then hits else hitsᶜ) = if k' = k then hits.card else hitsᶜ.card :=
    fun k' => apply_ite card (k' = k) hits hitsᶜ
  rw [hsolitary, Fintype.card_piFinset, prod_congr rfl fun k' _ => hcard k', prod_ite,
    prod_const, prod_const, filter_eq' univ k, if_pos (mem_univ k), card_singleton, pow_one,
    filter_ne' univ k, card_erase_of_mem (mem_univ k), card_univ, Fintype.card_fin, card_compl]

variable [Nonempty Ω]

open Classical in
theorem sum_isSolitary {n : ℕ} (k : Fin n) :
    (∑ draws : Fin n → Ω, if ∃ i, IsSolitary cell draws k i then (1 : ℝ) else 0)
      = solitaryChance cell n * Fintype.card Ω ^ n := by
  have hpositive : (0 : ℝ) < Fintype.card Ω := by exact_mod_cast Fintype.card_pos
  have hcells : ∀ draws : Fin n → Ω, (if ∃ i, IsSolitary cell draws k i then (1 : ℝ) else 0)
      = ∑ i ∈ cells cell, if IsSolitary cell draws k i then 1 else 0 := by
    intro draws
    by_cases hsolitary : ∃ i, IsSolitary cell draws k i
    · obtain ⟨i, hi⟩ := hsolitary
      have hmem : i ∈ cells cell := (mem_cells cell).mpr ⟨_, hi.1⟩
      rw [if_pos ⟨i, hi⟩, sum_eq_single_of_mem i hmem fun i' _ hne =>
        if_neg fun hi' => hne (hi'.unique cell hi), if_pos hi]
    · rw [if_neg hsolitary, sum_eq_zero fun i _ => if_neg fun hi => hsolitary ⟨i, hi⟩]
  have hn : n - 1 + 1 = n := Nat.sub_add_cancel (Nat.one_le_of_lt k.isLt)
  have hcell : ∀ i, (∑ draws : Fin n → Ω, if IsSolitary cell draws k i then (1 : ℝ) else 0)
      = chance cell i * (1 - chance cell i) ^ (n - 1) * Fintype.card Ω ^ n := by
    intro i
    have hle : #{ω | cell ω = some i} ≤ Fintype.card Ω := card_le_univ _
    have hrest : (1 - chance cell i) * Fintype.card Ω
        = (Fintype.card Ω - #{ω | cell ω = some i} : ℝ) := by
      rw [chance, sub_mul, one_mul, div_mul_cancel₀ _ hpositive.ne']
    have hhits : chance cell i * Fintype.card Ω = #{ω | cell ω = some i} :=
      div_mul_cancel₀ _ hpositive.ne'
    calc (∑ draws : Fin n → Ω, if IsSolitary cell draws k i then (1 : ℝ) else 0)
        = #{ω | cell ω = some i}
            * (Fintype.card Ω - #{ω | cell ω = some i}) ^ (n - 1) := by
          rw [sum_boole, card_isSolitary, Nat.cast_mul, Nat.cast_pow, Nat.cast_sub hle]
      _ = (chance cell i * Fintype.card Ω)
            * ((1 - chance cell i) * Fintype.card Ω) ^ (n - 1) := by
          rw [hhits, hrest]
      _ = chance cell i * (1 - chance cell i) ^ (n - 1)
            * Fintype.card Ω ^ (n - 1 + 1) := by
          rw [mul_pow]
          ring
      _ = chance cell i * (1 - chance cell i) ^ (n - 1) * Fintype.card Ω ^ n := by rw [hn]
  rw [sum_congr rfl fun draws _ => hcells draws, sum_comm, solitaryChance, sum_mul]
  exact sum_congr rfl fun i _ => hcell i

open Classical in
/-- **The labels of the draws that are alone.** -/
theorem expectedSolitary_eq {n : ℕ} (labelled : Fin n → Prop) :
    (∑ draws : Fin n → Ω, (#{k | labelled k ∧ ∃ i, IsSolitary cell draws k i} : ℝ))
        / Fintype.card Ω ^ n
      = #{k | labelled k} * solitaryChance cell n := by
  have hpositive : (0 : ℝ) < Fintype.card Ω ^ n := by
    have hcard : (0 : ℝ) < Fintype.card Ω := by exact_mod_cast Fintype.card_pos
    positivity
  have hcount : ∀ draws : Fin n → Ω,
      (#{k | labelled k ∧ ∃ i, IsSolitary cell draws k i} : ℝ)
        = ∑ k with labelled k, if ∃ i, IsSolitary cell draws k i then 1 else 0 := by
    intro draws
    rw [sum_boole, filter_filter]
  rw [div_eq_iff hpositive.ne', sum_congr rfl fun draws _ => hcount draws, sum_comm,
    sum_congr rfl fun k _ => sum_isSolitary cell k, sum_const, nsmul_eq_mul, mul_assoc]

end Occupancy
