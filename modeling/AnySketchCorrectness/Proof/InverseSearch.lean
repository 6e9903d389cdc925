import AnySketchCorrectness.Estimators
import AnySketchCorrectness.Library.Bisection
import Mathlib.Data.Nat.Find

/-!
# The two loops of the inverse search

The first loop doubles until the function reaches the target, so the second one bisects an interval
between two powers of two. Neither runs more than 62 rounds, and no operation wraps.
-/

namespace AnySketchCorrectness.Estimation

open WhileLoop Bisection

variable {function : UInt64 → UInt64} {target : UInt64}

/-! ### The first loop -/

theorem toNat_two_pow {k : ℕ} (hk : k ≤ 62) : (UInt64.ofNat (2 ^ k)).toNat = 2 ^ k := by
  apply UInt64.toNat_ofNat_of_lt'
  exact (Nat.pow_le_pow_right Nat.two_pos hk).trans_lt (by decide)

/-- The region after `k` rounds, while the function has not reached the target before its end. -/
structure RegionAt (function : UInt64 → UInt64) (target : UInt64) (k : ℕ) (region : Region) :
    Prop where
  right_eq : region.right.toNat = 2 ^ k
  left_eq : region.left.toNat = 2 ^ k / 2
  left_le : function region.left ≤ target
  left_lt : k ≠ 0 → function region.left < target

theorem RegionAt.grow {k : ℕ} {region : Region} (hregion : RegionAt function target k region)
    (hk : k < 62) (hguard : regionGuard function target region = true) :
    RegionAt function target (k + 1) (growRegion region) := by
  have hlt : function region.right < target := of_decide_eq_true hguard
  have hpow : 2 ^ (k + 1) = 2 ^ k * 2 := pow_succ 2 k
  have hsmall : 2 ^ (k + 1) < 2 ^ 64 := Nat.pow_lt_pow_right (by decide) (by omega)
  refine ⟨?_, ?_, UInt64.le_of_lt hlt, fun _ => hlt⟩
  · rw [growRegion, UInt64.toNat_mul, hregion.right_eq, hpow]
    exact Nat.mod_eq_of_lt (hpow ▸ hsmall)
  · rw [growRegion, hregion.right_eq]
    omega

/-- With `n` rounds left, the region has grown the other `62 - n` times. -/
def RegionWithin (function : UInt64 → UInt64) (target : UInt64) (n : ℕ) (region : Region) : Prop :=
  ∃ k, n + k = 62 ∧ RegionAt function target k region

section FirstLoop

variable (hmono : ∀ x y, x ≤ y → function x ≤ function y) (hzero : function 0 ≤ target)
  (hreached : ∃ x, x.toNat ≤ 2 ^ 62 ∧ target ≤ function x)

include hzero in
theorem regionWithin_start : RegionWithin function target 62 { left := 0, right := 1 } :=
  ⟨0, rfl, rfl, rfl, hzero, fun hne => absurd rfl hne⟩

include hmono hreached in
theorem RegionWithin.stop {region : Region} (hregion : RegionWithin function target 0 region) :
    regionGuard function target region = false := by
  obtain ⟨k, hk, hat⟩ := hregion
  obtain ⟨x, hx, htarget⟩ := hreached
  have hle : x ≤ region.right := by
    rw [UInt64.le_iff_toNat_le, hat.right_eq, show k = 62 by omega]
    exact hx
  have hright := UInt64.le_trans htarget (hmono x region.right hle)
  exact decide_eq_false (UInt64.not_lt.mpr hright)

omit hmono hzero hreached in
theorem RegionWithin.step {n : ℕ} {region : Region}
    (hregion : RegionWithin function target (n + 1) region)
    (hguard : regionGuard function target region = true) :
    RegionWithin function target n (growRegion region) := by
  obtain ⟨k, hk, hat⟩ := hregion
  exact ⟨k + 1, by omega, hat.grow (by omega) hguard⟩

include hmono hzero hreached in
/-- No operation of the first loop wraps. -/
theorem visits_region_exact {region : Region}
    (hvisits : Visits (regionGuard function target) growRegion { left := 0, right := 1 } region) :
    region.right.toNat * 2 < 2 ^ 64 := by
  obtain ⟨n, -, hregion⟩ := hvisits.invariant (fun region => RegionWithin.stop hmono hreached)
    (fun n region => RegionWithin.step) (regionWithin_start hzero)
  obtain ⟨k, hk, hat⟩ := hregion
  have hpow : 2 ^ k ≤ 2 ^ 62 := Nat.pow_le_pow_right Nat.two_pos (by omega)
  rw [hat.right_eq]
  omega

include hmono hzero hreached in
theorem exists_region : ∃ k region, k ≤ 62 ∧ RegionAt function target k region
    ∧ target ≤ function region.right
    ∧ ∀ fuel, 62 ≤ fuel → run (regionGuard function target) growRegion fuel
        { left := 0, right := 1 } = some region := by
  obtain ⟨region, ⟨n, -, k, hk, hat⟩, hguard, hrun⟩ := exists_run
    (fun region => RegionWithin.stop hmono hreached) (fun n region => RegionWithin.step)
    (regionWithin_start hzero)
  exact ⟨k, region, by omega, hat, UInt64.not_lt.mp (of_decide_eq_false hguard), hrun⟩

end FirstLoop

/-! ### The second loop -/

/-- `cut` is the last number of the region at which the function is at most the target. -/
structure IsCut (function : UInt64 → UInt64) (target : UInt64) (k cut : ℕ) : Prop where
  left_le : 2 ^ k / 2 ≤ cut
  le_right : cut ≤ 2 ^ k
  lt_iff : ∀ x : UInt64, x.toNat ≤ 2 ^ k → (target < function x ↔ cut < x.toNat)

theorem RegionAt.exists_cut {k : ℕ} {region : Region} (hat : RegionAt function target k region)
    (hk : k ≤ 62) (hmono : ∀ x y, x ≤ y → function x ≤ function y) :
    ∃ cut, IsCut function target k cut := by
  let below : ℕ → Prop := fun n => function (UInt64.ofNat n) ≤ target
  have hbelow : DecidablePred below := fun n => inferInstanceAs (Decidable (_ ≤ _))
  have hleft : below (2 ^ k / 2) := by
    have hofNat : UInt64.ofNat (2 ^ k / 2) = region.left := by
      rw [← hat.left_eq, UInt64.ofNat_toNat]
    change function (UInt64.ofNat (2 ^ k / 2)) ≤ target
    rw [hofNat]
    exact hat.left_le
  have hhalf : 2 ^ k / 2 ≤ 2 ^ k := Nat.div_le_self _ _
  have hcut := Nat.findGreatest_spec hhalf hleft
  have hcutLe : Nat.findGreatest below (2 ^ k) ≤ 2 ^ k := Nat.findGreatest_le (2 ^ k)
  have hpow : 2 ^ k ≤ 2 ^ 62 := Nat.pow_le_pow_right Nat.two_pos hk
  refine ⟨Nat.findGreatest below (2 ^ k), Nat.le_findGreatest hhalf hleft, hcutLe, ?_⟩
  intro x hx
  constructor
  · intro habove
    by_contra hle
    have hmonoCut := hmono x (UInt64.ofNat (Nat.findGreatest below (2 ^ k))) (by
      rw [UInt64.le_iff_toNat_le, UInt64.toNat_ofNat_of_lt' (by
        change Nat.findGreatest below (2 ^ k) < 2 ^ 64
        omega)]
      omega)
    exact absurd habove (UInt64.not_lt.mpr (UInt64.le_trans hmonoCut hcut))
  · intro hlt
    have hnot := Nat.findGreatest_is_greatest hlt hx
    rw [← UInt64.not_le]
    intro hle
    apply hnot
    change function (UInt64.ofNat x.toNat) ≤ target
    rwa [UInt64.ofNat_toNat]

/-- A state of the second loop as an interval, which is empty when the ends have crossed. -/
structure SearchAt (left size : ℕ) (search : Search) : Prop where
  left_eq : search.left.toNat = left
  right_eq : search.right.toNat + 1 = left + size
  mid_eq : search.mid.toNat = (search.right.toNat + search.left.toNat) / 2
  small : left + size ≤ 2 ^ 62 + 1

theorem searchAt_startSearch {left size : ℕ} {region : Region} (hleft : region.left.toNat = left)
    (hright : region.right.toNat + 1 = left + size) (hsmall : left + size ≤ 2 ^ 62 + 1) :
    SearchAt left size (startSearch region) := by
  refine ⟨hleft, hright, ?_, hsmall⟩
  have hsum : (region.right + region.left).toNat = region.right.toNat + region.left.toNat := by
    rw [UInt64.toNat_add]
    apply Nat.mod_eq_of_lt
    omega
  rw [startSearch, UInt64.toNat_div, hsum]
  rfl

theorem SearchAt.guard_iff {left size : ℕ} {search : Search} (hat : SearchAt left size search) :
    searchGuard search = true ↔ 2 ≤ size := by
  obtain ⟨hleft, hright, -, -⟩ := hat
  rw [searchGuard, decide_eq_true_iff, UInt64.lt_iff_toNat_lt]
  omega

theorem SearchAt.mid_of_two_le {left size : ℕ} {search : Search} (hat : SearchAt left size search)
    (hsize : 2 ≤ size) : search.mid.toNat = left + (size - 1) / 2 := by
  obtain ⟨hleft, hright, hmid, -⟩ := hat
  omega

theorem SearchAt.mid_of_lt_two {left size : ℕ} {search : Search} (hat : SearchAt left size search)
    (hsize : size < 2) : search.mid.toNat = left + size - 1 := by
  obtain ⟨hleft, hright, hmid, -⟩ := hat
  omega

section SecondLoop

variable {k cut : ℕ} (hcut : IsCut function target k cut)

/-- The number of rounds left bounds the interval, and the bisection of the interval is the one of
the whole region. -/
structure SearchWithin (k cut result : ℕ) (n : ℕ) (search : Search) : Prop where
  interval : ∃ left size, SearchAt left size search ∧ size < 2 ^ (n + 1)
    ∧ left ≤ cut + 1 ∧ cut + 1 ≤ left + size ∧ left + size ≤ 2 ^ k + 1
    ∧ bisect (fun x => cut < x) left size = result

theorem SearchWithin.stop {result : ℕ} {search : Search}
    (hsearch : SearchWithin k cut result 0 search) : searchGuard search = false := by
  obtain ⟨left, size, hat, hsize, -⟩ := hsearch.interval
  rw [← Bool.not_eq_true, hat.guard_iff]
  omega

include hcut in
theorem SearchWithin.step {result n : ℕ} {search : Search}
    (hsearch : SearchWithin k cut result (n + 1) search) (hguard : searchGuard search = true) :
    SearchWithin k cut result n (searchStep function target search) := by
  obtain ⟨left, size, hat, hsize, hleft, hright, hregion, hresult⟩ := hsearch.interval
  have htwo := hat.guard_iff.mp hguard
  have hmid := hat.mid_of_two_le htwo
  have hsmall := hat.small
  have hpow : 2 ^ (n + 1 + 1) = 2 * 2 ^ (n + 1) := Nat.pow_succ'
  have hlt := hcut.lt_iff search.mid (by omega)
  unfold searchStep
  by_cases habove : target < function search.mid
  · rw [if_pos habove]
    have hmidAbove := hlt.mp habove
    have hpred : (search.mid - 1).toNat + 1 = left + (size - 1) / 2 := by
      rw [UInt64.toNat_sub_of_le _ _ (UInt64.le_iff_toNat_le.mpr (by
        rw [UInt64.toNat_one]
        omega)), UInt64.toNat_one]
      omega
    refine ⟨left, (size - 1) / 2, searchAt_startSearch hat.left_eq hpred (by omega), by omega,
      hleft, by omega, by omega, ?_⟩
    rw [← hresult, bisect_of_above htwo (by omega)]
  · rw [if_neg habove]
    have hmidBelow := hlt.not.mp habove
    have hsucc : (search.mid + 1).toNat = left + (size - 1) / 2 + 1 := by
      rw [UInt64.toNat_add, UInt64.toNat_one, hmid]
      apply Nat.mod_eq_of_lt
      omega
    refine ⟨left + (size - 1) / 2 + 1, size / 2, searchAt_startSearch hsucc ?_ (by omega),
      by omega, by omega, by omega, by omega, ?_⟩
    · have hend := hat.right_eq
      change search.right.toNat + 1 = _
      omega
    · rw [← hresult, bisect_of_not_above htwo (by omega)]

/-- The number of candidates in the region. -/
def regionSize (k : ℕ) : ℕ :=
  2 ^ k - 2 ^ k / 2 + 1

include hcut in
theorem searchWithin_start {region : Region} (hk : k ≤ 62)
    (hat : RegionAt function target k region) :
    SearchWithin k cut (bisect (fun x => cut < x) (2 ^ k / 2) (regionSize k)) 62
      (startSearch region) := by
  have hright := hat.right_eq
  have hpow : 2 ^ k ≤ 2 ^ 62 := Nat.pow_le_pow_right Nat.two_pos hk
  have hleft := hcut.left_le
  have hcutLe := hcut.le_right
  refine ⟨2 ^ k / 2, regionSize k, searchAt_startSearch hat.left_eq ?_ ?_, ?_, ?_, ?_, ?_, rfl⟩
  · unfold regionSize
    omega
  · unfold regionSize
    omega
  · unfold regionSize
    omega
  · omega
  · unfold regionSize
    omega
  · unfold regionSize
    omega

include hcut in
theorem exists_search {region : Region} (hk : k ≤ 62) (hat : RegionAt function target k region) :
    ∃ search, searchGuard search = false
      ∧ search.mid.toNat = bisect (fun x => cut < x) (2 ^ k / 2) (regionSize k)
      ∧ ∀ fuel, 62 ≤ fuel →
        run searchGuard (searchStep function target) fuel (startSearch region) = some search := by
  obtain ⟨search, ⟨n, -, hsearch⟩, hguard, hrun⟩ := exists_run
    (fun search => SearchWithin.stop) (fun n search => SearchWithin.step hcut)
    (searchWithin_start hcut hk hat)
  obtain ⟨left, size, hend, -, -, -, -, hresult⟩ := hsearch.interval
  have hsize : size < 2 := by
    rw [← Nat.not_le, ← hend.guard_iff, hguard]
    exact Bool.false_ne_true
  rw [bisect_of_lt_two hsize] at hresult
  exact ⟨search, hguard, (hend.mid_of_lt_two hsize).trans hresult, hrun⟩

include hcut in
/-- No operation of the second loop wraps. -/
theorem visits_search_exact {region : Region} (hk : k ≤ 62)
    (hat : RegionAt function target k region) (hzero : function 0 ≤ target) {search : Search}
    (hvisits : Visits searchGuard (searchStep function target) (startSearch region) search) :
    search.right.toNat + search.left.toNat < 2 ^ 64
      ∧ (searchGuard search = true →
        (target < function search.mid → 1 ≤ search.mid.toNat) ∧ search.mid.toNat + 1 < 2 ^ 64) := by
  obtain ⟨n, -, hsearch⟩ := hvisits.invariant (fun search => SearchWithin.stop)
    (fun n search => SearchWithin.step hcut) (searchWithin_start hcut hk hat)
  obtain ⟨left, size, hend, -⟩ := hsearch.interval
  have hleft := hend.left_eq
  have hright := hend.right_eq
  have hsmall := hend.small
  refine ⟨by omega, fun hguard => ⟨fun habove => ?_, ?_⟩⟩
  · rw [Nat.one_le_iff_ne_zero]
    intro hmid
    have hmidZero : search.mid = 0 := UInt64.toNat_inj.mp hmid
    rw [hmidZero] at habove
    exact absurd habove (UInt64.not_lt.mpr hzero)
  · have htwo := hend.guard_iff.mp hguard
    have hmid := hend.mid_of_two_le htwo
    omega

end SecondLoop

end AnySketchCorrectness.Estimation
