import Mathlib.Algebra.Order.BigOperators.Group.Finset
import Mathlib.Algebra.Order.Floor.Div
import Mathlib.Data.Int.CardIntervalMod
import Mathlib.Data.Nat.Count
import Mathlib.Data.Set.Card
import Mathlib.GroupTheory.GroupAction.Ring
import Mathlib.Logic.Function.Basic
import Mathlib.Algebra.BigOperators.Fin

/-!
# The Fisher-Yates shuffle

Round `k` swaps the entry at `k` with one at or behind it, and no later round touches what is in
front. So the target decides the offsets one after the other: if the entries differ, each round has
exactly one choice. Offsets are drawn as remainders, and the last section counts how many numbers
leave a given remainder.
-/

namespace FisherYates

variable {α : Type} {offset offset' : ℕ → ℕ} {data target : Array α} {k : ℕ}

/-! ### Rounds -/

def rounds (offset : ℕ → ℕ) (data : Array α) : ℕ → Array α
  | 0 => data
  | k + 1 => (rounds offset data k).swapIfInBounds k (k + offset k)

/-- The offsets of the first rounds stay inside the array. -/
def InBounds (offset : ℕ → ℕ) (n k : ℕ) : Prop :=
  ∀ i < k, i + offset i < n

theorem size_rounds (offset : ℕ → ℕ) (data : Array α) (k : ℕ) :
    (rounds offset data k).size = data.size := by
  induction k with
  | zero => rfl
  | succ k ih => rw [rounds, Array.size_swapIfInBounds, ih]

theorem swapIfInBounds_perm (current : Array α) (i j : ℕ) :
    (current.swapIfInBounds i j).Perm current := by
  rw [Array.swapIfInBounds_def]
  split
  · split
    · exact Array.swap_perm _ _
    · exact Array.Perm.refl _
  · exact Array.Perm.refl _

theorem rounds_perm (offset : ℕ → ℕ) (data : Array α) (k : ℕ) :
    (rounds offset data k).Perm data := by
  induction k with
  | zero => exact Array.Perm.refl data
  | succ k ih => exact (swapIfInBounds_perm _ _ _).trans ih

theorem rounds_congr (heq : ∀ i < k, offset i = offset' i) (data : Array α) :
    rounds offset data k = rounds offset' data k := by
  induction k with
  | zero => rfl
  | succ k ih =>
      rw [rounds, rounds, ih fun i hi => heq i (Nat.lt_succ_of_lt hi), heq k (Nat.lt_succ_self k)]

/-! ### What a round settles -/

theorem getElem?_swapIfInBounds_of_lt (current : Array α) {i j : ℕ} (hi : i < k) (hj : k ≤ j) :
    (current.swapIfInBounds k j)[i]? = current[i]? := by
  rw [Array.swapIfInBounds_def]
  split
  · split
    · rw [Array.getElem?_swap, if_neg (by omega), if_neg (by omega)]
    · rfl
  · rfl

theorem getElem?_swapIfInBounds_left {current : Array α} {j : ℕ} (hk : k < current.size)
    (hj : j < current.size) : (current.swapIfInBounds k j)[k]? = current[j]? := by
  rw [Array.swapIfInBounds_def, dif_pos hk, dif_pos hj, Array.getElem?_swap]
  split
  · rename_i heq
    subst heq
    rw [Array.getElem?_eq_getElem hk]
  · rw [if_pos rfl, Array.getElem?_eq_getElem hj]

/-- The first entries are those of the target. -/
def Agrees (k : ℕ) (current target : Array α) : Prop :=
  ∀ i < k, current[i]? = target[i]?

theorem agrees_succ : Agrees (k + 1) data target ↔ Agrees k data target ∧ data[k]? = target[k]? :=
  Nat.forall_lt_succ_right

theorem agrees_rounds_succ (hin : k + offset k < data.size) :
    Agrees (k + 1) (rounds offset data (k + 1)) target
      ↔ Agrees k (rounds offset data k) target
        ∧ (rounds offset data k)[k + offset k]? = target[k]? := by
  have hsize := size_rounds offset data k
  rw [agrees_succ, rounds, getElem?_swapIfInBounds_left (by omega) (by omega)]
  refine and_congr_left fun _ => forall₂_congr fun i hi => ?_
  rw [getElem?_swapIfInBounds_of_lt _ hi (Nat.le_add_right k _)]

/-- The next entry of the target is not among the settled ones. -/
theorem exists_position {current : Array α} (hperm : target.Perm current)
    (hdistinct : target.toList.Nodup) (hagrees : Agrees k current target) (hk : k < target.size) :
    ∃ position, k ≤ position ∧ position < current.size ∧ current[position]? = target[k]? := by
  have hmem : target[k] ∈ current := hperm.mem_iff.mp (Array.getElem_mem hk)
  obtain ⟨position, hposition, heq⟩ := Array.mem_iff_getElem.mp hmem
  have heq? : current[position]? = target[k]? := by
    rw [Array.getElem?_eq_getElem hposition, Array.getElem?_eq_getElem hk, heq]
  refine ⟨position, Nat.le_of_not_lt fun hlt => ?_, hposition, heq?⟩
  rw [hagrees position hlt, ← Array.getElem?_toList, ← Array.getElem?_toList] at heq?
  exact hlt.ne ((List.getElem?_inj (hlt.trans hk) hdistinct).mp heq?)

theorem getElem?_add_eq_iff {current : Array α} (hdistinct : current.toList.Nodup)
    {step position : ℕ} (hstep : k + step < current.size) (hle : k ≤ position) :
    current[k + step]? = current[position]? ↔ step = position - k := by
  rw [← Array.getElem?_toList, ← Array.getElem?_toList, List.getElem?_inj hstep hdistinct]
  omega

/-- **One choice in each round.** The first entries come out as in the target for exactly one choice
of the offsets. -/
theorem exists_offsets (hperm : target.Perm data) (hdistinct : target.toList.Nodup)
    (hk : k ≤ data.size) :
    ∃ offsets, InBounds offsets data.size k ∧ ∀ offset, InBounds offset data.size k →
      (Agrees k (rounds offset data k) target ↔ ∀ i < k, offset i = offsets i) := by
  induction k with
  | zero =>
      exact ⟨fun _ => 0, fun i hi => absurd hi (Nat.not_lt_zero i), fun offset _ =>
        iff_of_true (fun i hi => absurd hi (Nat.not_lt_zero i))
          (fun i hi => absurd hi (Nat.not_lt_zero i))⟩
  | succ k ih =>
      obtain ⟨offsets, hin, hunique⟩ := ih (Nat.le_of_succ_le hk)
      let current := rounds offsets data k
      have hcurrent : target.Perm current := hperm.trans (rounds_perm offsets data k).symm
      have hagrees : Agrees k current target := (hunique offsets hin).mpr fun _ _ => rfl
      have hsize : current.size = data.size := size_rounds offsets data k
      obtain ⟨position, hle, hlt, hposition⟩ :=
        exists_position hcurrent hdistinct hagrees (by rw [hperm.size_eq]; exact hk)
      have hbefore : ∀ i < k, Function.update offsets k (position - k) i = offsets i :=
        fun i hi => Function.update_of_ne hi.ne _ _
      have hat : Function.update offsets k (position - k) k = position - k :=
        Function.update_self _ _ _
      refine ⟨Function.update offsets k (position - k), fun i hi => ?_, fun offset hoffset => ?_⟩
      · rcases Nat.lt_succ_iff_lt_or_eq.mp hi with hi | rfl
        · rw [hbefore i hi]
          exact hin i hi
        · rw [hat]
          omega
      · have hoffsetAt := hoffset k (Nat.lt_succ_self k)
        have hsame : (∀ i < k, offset i = Function.update offsets k (position - k) i)
            ↔ ∀ i < k, offset i = offsets i :=
          forall₂_congr fun i hi => by rw [hbefore i hi]
        rw [agrees_rounds_succ hoffsetAt, Nat.forall_lt_succ_right, hsame, hat,
          hunique offset fun i hi => hoffset i (Nat.lt_succ_of_lt hi)]
        refine and_congr_right fun heq => ?_
        rw [rounds_congr heq, ← hposition]
        exact getElem?_add_eq_iff (hcurrent.toList.nodup_iff.mp hdistinct) (hsize ▸ hoffsetAt) hle

/-- Once all entries but the last one agree, the last one does. -/
theorem eq_of_agrees (hperm : target.Perm data) (hdistinct : target.toList.Nodup)
    (hagrees : Agrees (data.size - 1) data target) : data = target := by
  have hsize : target.size = data.size := hperm.size_eq
  apply Array.ext_getElem?
  intro i
  rcases Nat.lt_or_ge i (data.size - 1) with hi | hi
  · exact hagrees i hi
  rcases Nat.lt_or_ge i data.size with hlast | hend
  · obtain rfl : i = data.size - 1 := by omega
    obtain ⟨position, hle, hlt, hposition⟩ :=
      exists_position hperm hdistinct hagrees (by rw [hsize]; exact hlast)
    obtain rfl : position = data.size - 1 := by omega
    exact hposition
  · rw [Array.getElem?_eq_none hend, Array.getElem?_eq_none (hsize ▸ hend)]

/-- **Exactly one vector of offsets for each target.** -/
theorem exists_offsets_eq (hperm : target.Perm data) (hdistinct : target.toList.Nodup) :
    ∃ offsets, InBounds offsets data.size (data.size - 1) ∧
      ∀ offset, InBounds offset data.size (data.size - 1) →
        (rounds offset data (data.size - 1) = target
          ↔ ∀ i < data.size - 1, offset i = offsets i) := by
  obtain ⟨offsets, hin, hunique⟩ := exists_offsets hperm hdistinct (Nat.sub_le data.size 1)
  refine ⟨offsets, hin, fun offset hoffset => ?_⟩
  rw [← hunique offset hoffset]
  constructor
  · rintro rfl i -
    rfl
  · intro hagrees
    have hsize := size_rounds offset data (data.size - 1)
    refine eq_of_agrees (hperm.trans (rounds_perm _ _ _).symm) hdistinct ?_
    rw [hsize]
    exact hagrees

/-! ### Remainders -/

theorem card_filter_mod (m : ℕ) (hm : 0 < m) (bound remainder : ℕ) (hremainder : remainder < m) :
    (Finset.univ.filter fun x : Fin bound => (x : ℕ) % m = remainder).card
      = bound / m + if remainder < bound % m then 1 else 0 := by
  have hcount := Nat.count_modEq_card bound hm remainder
  rw [Nat.mod_eq_of_lt hremainder, Nat.count_eq_card_filter_range] at hcount
  rw [← hcount, Finset.card_filter, Finset.card_filter, Finset.sum_range]
  refine Finset.sum_congr rfl fun x _ => if_congr ?_ rfl rfl
  rw [Nat.ModEq, Nat.mod_eq_of_lt hremainder]

theorem div_le_card_filter_mod {m : ℕ} (hm : 0 < m) (bound : ℕ) {remainder : ℕ}
    (hremainder : remainder < m) :
    bound / m ≤ (Finset.univ.filter fun x : Fin bound => (x : ℕ) % m = remainder).card := by
  rw [card_filter_mod m hm bound remainder hremainder]
  exact Nat.le_add_right _ _

theorem card_filter_mod_le_ceilDiv {m : ℕ} (hm : 0 < m) (bound : ℕ) {remainder : ℕ}
    (hremainder : remainder < m) :
    (Finset.univ.filter fun x : Fin bound => (x : ℕ) % m = remainder).card ≤ bound ⌈/⌉ m := by
  have hdivision := Nat.div_add_mod bound m
  rw [card_filter_mod m hm bound remainder hremainder, Nat.ceilDiv_eq_add_pred_div,
    Nat.le_div_iff_mul_le hm, Nat.add_mul, Nat.mul_comm (bound / m)]
  split
  · omega
  · omega

/-- The remainders of the numbers below a bound are spread as evenly as possible. -/
theorem card_filter_mod_mem {m : ℕ} (hm : 0 < m) (bound : ℕ) {remainder : ℕ}
    (hremainder : remainder < m) :
    (Finset.univ.filter fun x : Fin bound => (x : ℕ) % m = remainder).card
      ∈ ({bound / m, bound ⌈/⌉ m} : Set ℕ) := by
  have hdivision := Nat.div_add_mod bound m
  have hmod := Nat.mod_lt bound hm
  rw [card_filter_mod m hm bound remainder hremainder, Nat.ceilDiv_eq_add_pred_div]
  split
  · right
    rw [Set.mem_singleton_iff, eq_comm]
    apply Nat.div_eq_of_lt_le
    · rw [Nat.add_mul, Nat.mul_comm (bound / m)]
      omega
    · rw [Nat.add_mul, Nat.add_mul, Nat.mul_comm (bound / m)]
      omega
  · left
    rfl

/-- **How many numbers leave given remainders.** -/
theorem card_remainders_bounds {count : ℕ} (bound : ℕ) (divisor remainder : Fin count → ℕ)
    (hremainder : ∀ i, remainder i < divisor i) :
    ∏ i, bound / divisor i
        ≤ {draws : Fin count → Fin bound | ∀ i, draws i % divisor i = remainder i}.ncard
      ∧ {draws : Fin count → Fin bound | ∀ i, draws i % divisor i = remainder i}.ncard
        ≤ ∏ i, bound ⌈/⌉ divisor i := by
  have hdivisor : ∀ i, 0 < divisor i := fun i => Nat.zero_lt_of_lt (hremainder i)
  have hset : {draws : Fin count → Fin bound | ∀ i, draws i % divisor i = remainder i}
      = Fintype.piFinset fun i =>
          Finset.univ.filter fun x : Fin bound => (x : ℕ) % divisor i = remainder i := by
    ext draws
    simp only [Set.mem_ofPred_eq, Finset.mem_coe, Fintype.mem_piFinset, Finset.mem_filter,
      Finset.mem_univ, true_and]
  rw [hset, Set.ncard_coe_finset, Fintype.card_piFinset]
  exact ⟨Finset.prod_le_prod' fun i _ => div_le_card_filter_mod (hdivisor i) bound (hremainder i),
    Finset.prod_le_prod' fun i _ => card_filter_mod_le_ceilDiv (hdivisor i) bound (hremainder i)⟩

/-- Rounding down loses little in a product. -/
theorem pow_succ_le_prod_div {count : ℕ} (bound : ℕ) (divisor : Fin count → ℕ)
    (hdivisor : ∀ i, 0 < divisor i) :
    bound ^ (count + 1) ≤ (∏ i, bound / divisor i) * (∏ i, divisor i) * bound
      + (∑ i, divisor i) * bound ^ count := by
  induction count with
  | zero => simp
  | succ count ih =>
      let rest : ℕ := (∏ i : Fin count, bound / divisor i.succ) * ∏ i : Fin count, divisor i.succ
      let total : ℕ := ∑ i : Fin count, divisor i.succ
      have hrest : rest ≤ bound ^ count := by
        calc rest = ∏ i : Fin count, bound / divisor i.succ * divisor i.succ :=
              Finset.prod_mul_distrib.symm
          _ ≤ ∏ _i : Fin count, bound :=
              Finset.prod_le_prod' fun i _ => Nat.div_mul_le_self _ _
          _ = bound ^ count := by simp
      have hfirst : bound ≤ bound / divisor 0 * divisor 0 + divisor 0 :=
        (Nat.lt_div_mul_add (hdivisor 0)).le
      have htail : bound ^ (count + 1) ≤ rest * bound + total * bound ^ count :=
        ih (fun i => divisor i.succ) fun i => hdivisor i.succ
      rw [Fin.prod_univ_succ, Fin.prod_univ_succ, Fin.sum_univ_succ]
      calc bound ^ (count + 1 + 1)
          = bound * bound ^ (count + 1) := Nat.pow_succ'
        _ ≤ bound * (rest * bound + total * bound ^ count) := Nat.mul_le_mul_left _ htail
        _ = bound * rest * bound + total * bound ^ (count + 1) := by ring
        _ ≤ (bound / divisor 0 * divisor 0 + divisor 0) * rest * bound
              + total * bound ^ (count + 1) := by gcongr
        _ = bound / divisor 0 * divisor 0 * rest * bound + divisor 0 * rest * bound
              + total * bound ^ (count + 1) := by ring
        _ ≤ bound / divisor 0 * divisor 0 * rest * bound + divisor 0 * bound ^ count * bound
              + total * bound ^ (count + 1) := by gcongr
        _ = _ := by ring

end FisherYates
