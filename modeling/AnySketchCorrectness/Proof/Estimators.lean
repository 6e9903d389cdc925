import AnySketchCorrectness.Library.DoubleRounding
import AnySketchCorrectness.Proof.InverseSearch

/-!
# What the inverse search returns

The second loop leaves out the midpoint on both sides, although the midpoint can be the answer. The
result is the last argument at which the function is at most the target, or the one after it. Which
of the two depends on the interval and that argument only.
-/

namespace AnySketchCorrectness.Estimation

open WhileLoop Bisection DoubleRounding

variable {function : UInt64 → UInt64} {target : UInt64}

/-! ### The result -/

theorem untested_two_one : Untested 2 1 := by
  rw [untested_of_two_le (Nat.le_refl 2)]
  exact Or.inr ⟨Nat.one_pos, (untested_of_lt_two (by decide) _).mpr ⟨rfl, rfl⟩⟩

/-- What the search has found: the region, the cut in it, and the bisection of the region. -/
structure Inverted (function : UInt64 → UInt64) (target : UInt64) (k cut : ℕ) (result : UInt64) :
    Prop where
  k_le : k ≤ 62
  target_le : target ≤ function (UInt64.ofNat (2 ^ k))
  lt_target : k ≠ 0 → function (UInt64.ofNat (2 ^ k / 2)) < target
  isCut : IsCut function target k cut
  result_eq : result.toNat = bisect (fun x => cut < x) (2 ^ k / 2) (regionSize k)

theorem RegionAt.inverted {k cut : ℕ} {region : Region} {result : UInt64}
    (hat : RegionAt function target k region) (hk : k ≤ 62)
    (htarget : target ≤ function region.right) (hcut : IsCut function target k cut)
    (hresult : result.toNat = bisect (fun x => cut < x) (2 ^ k / 2) (regionSize k)) :
    Inverted function target k cut result := by
  have hright : UInt64.ofNat (2 ^ k) = region.right := by
    rw [← hat.right_eq, UInt64.ofNat_toNat]
  have hleft : UInt64.ofNat (2 ^ k / 2) = region.left := by
    rw [← hat.left_eq, UInt64.ofNat_toNat]
  exact ⟨hk, hright ▸ htarget, hleft ▸ hat.left_lt, hcut, hresult⟩

theorem invertMonotonic_of_run {fuel : ℕ} {region : Region} {search : Search}
    (hregion : run (regionGuard function target) growRegion fuel { left := 0, right := 1 }
      = some region)
    (hsearch : run searchGuard (searchStep function target) fuel (startSearch region)
      = some search) : invertMonotonic function target fuel = .ok search.mid := by
  rw [invertMonotonic, hregion]
  simp only [hsearch]

section Result

variable {k cut : ℕ} {result : UInt64}

/-- The result is the cut, or the number after it if the bisection never tests that. -/
theorem Inverted.result_cases (hinverted : Inverted function target k cut result) :
    (Untested (regionSize k) (cut + 1 - 2 ^ k / 2) ∧ result.toNat = cut + 1 ∧ cut < 2 ^ k)
      ∨ (¬ Untested (regionSize k) (cut + 1 - 2 ^ k / 2) ∧ result.toNat = cut) := by
  have hleft := hinverted.isCut.left_le
  have hright := hinverted.isCut.le_right
  rw [hinverted.result_eq]
  rcases bisect_eq (fun x => Iff.rfl) (Nat.le_succ_of_le hleft)
    (show cut + 1 ≤ 2 ^ k / 2 + regionSize k by unfold regionSize; omega) with
    ⟨huntested, hresult⟩ | ⟨huntested, hresult⟩
  · have hlt := huntested.lt
    unfold regionSize at hlt
    exact Or.inl ⟨huntested, hresult, by omega⟩
  · exact Or.inr ⟨huntested, hresult⟩

theorem Inverted.cut_le (hinverted : Inverted function target k cut result) :
    cut ≤ result.toNat := by
  rcases hinverted.result_cases with ⟨-, hresult, -⟩ | ⟨-, hresult⟩
  all_goals omega

theorem Inverted.le_cut_succ (hinverted : Inverted function target k cut result) :
    result.toNat ≤ cut + 1 := by
  rcases hinverted.result_cases with ⟨-, hresult, -⟩ | ⟨-, hresult⟩
  all_goals omega

theorem Inverted.le_two_pow (hinverted : Inverted function target k cut result) :
    result.toNat ≤ 2 ^ k := by
  have hright := hinverted.isCut.le_right
  rcases hinverted.result_cases with ⟨-, hresult, hlt⟩ | ⟨-, hresult⟩
  all_goals omega

theorem Inverted.le_two_pow_62 (hinverted : Inverted function target k cut result) :
    result.toNat ≤ 2 ^ 62 :=
  hinverted.le_two_pow.trans (Nat.pow_le_pow_right Nat.two_pos hinverted.k_le)

theorem Inverted.one_le (hinverted : Inverted function target k cut result) :
    1 ≤ result.toNat := by
  cases k with
  | succ k =>
      have hpow : 2 ^ (k + 1) = 2 * 2 ^ k := Nat.pow_succ'
      have hone : 1 ≤ 2 ^ k := Nat.one_le_two_pow
      have hleft := hinverted.isCut.left_le
      have hcut := hinverted.cut_le
      omega
  | zero =>
      -- the interval is `0, 1`, and its midpoint `0` is at most the target
      have hright := hinverted.isCut.le_right
      rcases hinverted.result_cases with ⟨-, hresult, -⟩ | ⟨htested, hresult⟩
      · omega
      · rw [Nat.one_le_iff_ne_zero]
        intro hzero
        apply htested
        have hcut : cut = 0 := by omega
        subst hcut
        exact untested_two_one

theorem Inverted.succ_lt (hinverted : Inverted function target k cut result) :
    result.toNat + 1 < 2 ^ 64 := by
  have hresult := hinverted.le_two_pow_62
  omega

theorem Inverted.pred_le (hinverted : Inverted function target k cut result) :
    function (result - 1) ≤ target := by
  have hone := hinverted.one_le
  have hpow := hinverted.le_two_pow
  have hcut := hinverted.le_cut_succ
  have hpred : (result - 1).toNat = result.toNat - 1 :=
    UInt64.toNat_sub_of_le _ _ (UInt64.le_iff_toNat_le.mpr hone)
  rw [← UInt64.not_lt, hinverted.isCut.lt_iff _ (by omega), hpred]
  omega

theorem Inverted.le_succ (hinverted : Inverted function target k cut result)
    (hmono : ∀ x y, x ≤ y → function x ≤ function y) : target ≤ function (result + 1) := by
  have hcut := hinverted.cut_le
  have hsucc : (result + 1).toNat = result.toNat + 1 := by
    rw [UInt64.toNat_add, UInt64.toNat_one, Nat.mod_eq_of_lt hinverted.succ_lt]
  rcases Nat.lt_or_ge (2 ^ k) (result.toNat + 1) with hlt | hle
  · apply UInt64.le_trans hinverted.target_le
    apply hmono
    rw [UInt64.le_iff_toNat_le, toNat_two_pow hinverted.k_le, hsucc]
    exact Nat.le_of_lt hlt
  · apply UInt64.le_of_lt
    rw [hinverted.isCut.lt_iff _ (hsucc ▸ hle), hsucc]
    omega

end Result

section InvertMonotonic

variable (hmono : ∀ x y, x ≤ y → function x ≤ function y) (hzero : function 0 ≤ target)
  (hreached : ∃ x, x.toNat ≤ 2 ^ 62 ∧ target ≤ function x)

include hmono hzero hreached in
theorem exists_inverted : ∃ k cut result, Inverted function target k cut result
    ∧ ∀ fuel, 62 ≤ fuel → invertMonotonic function target fuel = .ok result := by
  obtain ⟨k, region, hk, hat, htarget, hregion⟩ := exists_region hmono hzero hreached
  obtain ⟨cut, hcut⟩ := hat.exists_cut hk hmono
  obtain ⟨search, -, hmid, hsearch⟩ := exists_search hcut hk hat
  refine ⟨k, cut, search.mid, hat.inverted hk htarget hcut hmid, fun fuel hfuel => ?_⟩
  exact invertMonotonic_of_run (hregion fuel hfuel) (hsearch fuel hfuel)

include hmono hzero hreached in
/-- Both loops end, no operation wraps, and the result is next to the target on both sides. -/
theorem invertMonotonic_brackets : ∃ region search result,
    (∀ fuel, 62 ≤ fuel → run (regionGuard function target) growRegion fuel
      { left := 0, right := 1 } = some region)
    ∧ (∀ fuel, 62 ≤ fuel → run searchGuard (searchStep function target) fuel
      (startSearch region) = some search)
    ∧ (∀ fuel, 62 ≤ fuel → invertMonotonic function target fuel = .ok result)
    ∧ (∀ visited, Visits (regionGuard function target) growRegion { left := 0, right := 1 }
      visited → visited.right.toNat * 2 < 2 ^ 64)
    ∧ (∀ visited, Visits searchGuard (searchStep function target) (startSearch region) visited →
      visited.right.toNat + visited.left.toNat < 2 ^ 64
        ∧ (searchGuard visited = true → (target < function visited.mid → 1 ≤ visited.mid.toNat)
          ∧ visited.mid.toNat + 1 < 2 ^ 64))
    ∧ 1 ≤ result.toNat ∧ result.toNat + 1 < 2 ^ 64
    ∧ function (result - 1) ≤ target ∧ target ≤ function (result + 1) := by
  obtain ⟨k, region, hk, hat, htarget, hregion⟩ := exists_region hmono hzero hreached
  obtain ⟨cut, hcut⟩ := hat.exists_cut hk hmono
  obtain ⟨search, -, hmid, hsearch⟩ := exists_search hcut hk hat
  have hinverted := hat.inverted hk htarget hcut hmid
  refine ⟨region, search, search.mid, hregion, hsearch, fun fuel hfuel => ?_,
    fun visited => visits_region_exact hmono hzero hreached,
    fun visited => visits_search_exact hcut hk hat hzero, hinverted.one_le, hinverted.succ_lt,
    hinverted.pred_le, hinverted.le_succ hmono⟩
  exact invertMonotonic_of_run (hregion fuel hfuel) (hsearch fuel hfuel)

end InvertMonotonic

theorem invertMonotonic_brackets_five : ∃ result : UInt64,
    (∀ fuel, 62 ≤ fuel → invertMonotonic (fun x => x) 5 fuel = .ok result)
      ∧ result - 1 ≤ 5 ∧ 5 ≤ result + 1 := by
  obtain ⟨-, -, result, -, -, hrun, -, -, -, -, hpred, hsucc⟩ :=
    @invertMonotonic_brackets (fun x => x) 5 (fun _ _ hle => hle) (by decide)
      ⟨5, by decide, by decide⟩
  exact ⟨result, hrun, hpred, hsucc⟩

/-! ### Two targets -/

theorem two_pow_half {k : ℕ} (hk : k ≠ 0) : 2 ^ k / 2 = 2 ^ (k - 1) := by
  cases k with
  | zero => exact absurd rfl hk
  | succ k => rw [Nat.pow_succ, Nat.mul_div_cancel _ Nat.two_pos, Nat.add_sub_cancel]

section Monotone

variable {target' : UInt64} {k k' cut cut' : ℕ} {result result' : UInt64}
  (hinverted : Inverted function target k cut result)
  (hinverted' : Inverted function target' k' cut' result')

include hinverted hinverted' in
theorem Inverted.region_le (hmono : ∀ x y, x ≤ y → function x ≤ function y)
    (htarget : target ≤ target') : k ≤ k' := by
  by_contra hlt
  have hk : 2 ^ k' ≤ 2 ^ (k - 1) := Nat.pow_le_pow_right Nat.two_pos (by omega)
  have hhalf := two_pow_half (k := k) (by omega)
  have hlow := hinverted.lt_target (by omega)
  have hle : function (UInt64.ofNat (2 ^ k')) ≤ function (UInt64.ofNat (2 ^ k / 2)) := by
    apply hmono
    have hbound : k - 1 ≤ 62 := Nat.le_trans (Nat.pred_le k) hinverted.k_le
    rw [hhalf, UInt64.le_iff_toNat_le, toNat_two_pow hinverted'.k_le, toNat_two_pow hbound]
    exact hk
  have hhigh := UInt64.le_trans htarget (UInt64.le_trans hinverted'.target_le hle)
  exact absurd hlow (UInt64.not_lt.mpr hhigh)

/-- In one region, the higher target has the higher cut. -/
theorem Inverted.cut_le_cut (hinverted : Inverted function target k cut result)
    (hinverted' : Inverted function target' k cut' result') (htarget : target ≤ target') :
    cut ≤ cut' := by
  have hpow : 2 ^ k ≤ 2 ^ 62 := Nat.pow_le_pow_right Nat.two_pos hinverted.k_le
  have hright := hinverted.isCut.le_right
  have hcut : (UInt64.ofNat cut).toNat = cut := UInt64.toNat_ofNat_of_lt' (by
    change cut < 2 ^ 64
    omega)
  have hle : function (UInt64.ofNat cut) ≤ target := by
    rw [← UInt64.not_lt, hinverted.isCut.lt_iff _ (hcut.symm ▸ hright), hcut]
    exact Nat.lt_irrefl cut
  have hle' := UInt64.le_trans hle htarget
  rw [← UInt64.not_lt, hinverted'.isCut.lt_iff _ (hcut.symm ▸ hright), hcut] at hle'
  exact Nat.le_of_not_lt hle'

include hinverted hinverted' in
theorem Inverted.result_le (hmono : ∀ x y, x ≤ y → function x ≤ function y)
    (htarget : target ≤ target') : result ≤ result' := by
  rw [UInt64.le_iff_toNat_le]
  have hupper := hinverted.le_cut_succ
  have hlower := hinverted'.cut_le
  rcases Nat.lt_or_eq_of_le (hinverted.region_le hinverted' hmono htarget) with hlt | rfl
  · -- the regions share at most one end
    have hpow : 2 ^ k ≤ 2 ^ (k' - 1) := Nat.pow_le_pow_right Nat.two_pos (by omega)
    have hhalf := two_pow_half (k := k') (by omega)
    have hend := hinverted.le_two_pow
    have hstart := hinverted'.isCut.left_le
    omega
  · have hcut := hinverted.cut_le_cut hinverted' htarget
    rcases Nat.lt_or_eq_of_le hcut with hlt | rfl
    · omega
    · rw [hinverted.result_eq, hinverted'.result_eq]

end Monotone

theorem toInt_truncate {x : ℚ} (hx : 0 ≤ x) (hfits : x < 2 ^ 63) : (truncate x).toInt = ⌊x⌋ := by
  have hnonneg : 0 ≤ ⌊x⌋ := Int.floor_nonneg.mpr hx
  have hlt : ⌊x⌋ < 2 ^ 63 := Int.floor_lt.mpr (by exact_mod_cast hfits)
  simp only [truncate, if_pos hx]
  rw [if_pos ⟨by omega, hlt⟩]
  exact Int64.toInt_ofInt_of_le (by omega) hlt

theorem truncate_le {x y : ℚ} (hx : 0 ≤ x) (hle : x ≤ y) (hfits : y < 2 ^ 63) :
    truncate x ≤ truncate y := by
  rw [Int64.le_iff_toInt_le, toInt_truncate hx (hle.trans_lt hfits),
    toInt_truncate (hx.trans hle) hfits]
  exact Int.floor_mono hle

theorem truncate_of_overflow {x : ℚ} (hx : 2 ^ 63 ≤ x) : truncate x = Int64.minValue := by
  have hfloor : 2 ^ 63 ≤ ⌊x⌋ := Int.le_floor.mpr (by exact_mod_cast hx)
  simp only [truncate, if_pos (show (0 : ℚ) ≤ x by linarith)]
  exact if_neg (by omega)

/-- The result of the search is converted to `double`, and back. -/
theorem toInt_truncate_round {round : ℚ → ℚ} (hround : IsDoubleRounding round) {x : UInt64}
    (hx : x.toNat ≤ 2 ^ 62) : (truncate (round x.toNat)).toInt = ⌊round x.toNat⌋ := by
  apply toInt_truncate (hround.nonneg (Nat.cast_nonneg _))
  calc round x.toNat ≤ round (2 ^ 62) := hround.mono (by exact_mod_cast hx)
    _ = 2 ^ 62 := hround.round_two_pow (by decide)
    _ < 2 ^ 63 := by norm_num

theorem scaledCardinality_of_exact {round : ℚ → ℚ} (hround : IsDoubleRounding round) {x : UInt64}
    (hx : x.toNat ≤ 2 ^ 53) (samplingRate : ℚ) :
    scaledCardinality round samplingRate (round x.toNat) = round (x.toNat / samplingRate) := by
  have hexact := hround.round_nat hx
  have hinteger := toInt_truncate_round hround (hx.trans (by decide))
  rw [hexact, Int.floor_natCast] at hinteger
  simp only [scaledCardinality, hexact, hinteger, Int.cast_natCast]

theorem scaledCardinality_nonneg {round : ℚ → ℚ} (hround : IsDoubleRounding round)
    {samplingRate : ℚ} (hrate : 0 < samplingRate) {x : UInt64} (hx : x.toNat ≤ 2 ^ 62) :
    0 ≤ scaledCardinality round samplingRate (round x.toNat) := by
  apply hround.nonneg
  apply div_nonneg _ hrate.le
  apply hround.nonneg
  rw [toInt_truncate_round hround hx]
  exact Int.cast_nonneg (Int.floor_nonneg.mpr (hround.nonneg (Nat.cast_nonneg _)))

theorem scaledCardinality_le {round : ℚ → ℚ} (hround : IsDoubleRounding round) {samplingRate : ℚ}
    (hrate : 0 < samplingRate) {x y : UInt64} (hle : x ≤ y) (hy : y.toNat ≤ 2 ^ 62) :
    scaledCardinality round samplingRate (round x.toNat)
      ≤ scaledCardinality round samplingRate (round y.toNat) := by
  have hx := (UInt64.le_iff_toNat_le.mp hle).trans hy
  apply hround.mono
  apply div_le_div_of_nonneg_right _ hrate.le
  apply hround.mono
  rw [toInt_truncate_round hround hx, toInt_truncate_round hround hy]
  apply Int.cast_le.mpr
  apply Int.floor_mono
  exact hround.mono (Nat.cast_le.mpr (UInt64.le_iff_toNat_le.mp hle))

theorem estimateCardinalityLiquidLegions_of_run {round : ℚ → ℚ} {samplingRate : ℚ} {fuel : ℕ}
    {result : UInt64} (hrun : invertMonotonic function target fuel = .ok result) :
    estimateCardinalityLiquidLegions round function target samplingRate fuel
      = .ok (truncate (scaledCardinality round samplingRate (round result.toNat))) := by
  rw [estimateCardinalityLiquidLegions, getCardinality, hrun]
  rfl

theorem invertMonotonic_monotone {function : UInt64 → UInt64} {target target' : UInt64}
    (hmono : ∀ x y, x ≤ y → function x ≤ function y) (hzero : function 0 ≤ target)
    (htarget : target ≤ target') (hreached : ∃ x, x.toNat ≤ 2 ^ 62 ∧ target' ≤ function x) :
    ∃ result result', result ≤ result'
      ∧ (∀ fuel, 62 ≤ fuel → invertMonotonic function target fuel = .ok result
        ∧ invertMonotonic function target' fuel = .ok result')
      ∧ ∀ (round : ℚ → ℚ) (samplingRate : ℚ), IsDoubleRounding round → 0 < samplingRate →
        scaledCardinality round samplingRate (round result'.toNat) < 2 ^ 63 →
        ∃ estimate estimate', estimate ≤ estimate' ∧ ∀ fuel, 62 ≤ fuel →
          estimateCardinalityLiquidLegions round function target samplingRate fuel = .ok estimate
          ∧ estimateCardinalityLiquidLegions round function target' samplingRate fuel
            = .ok estimate' := by
  have hreachedLow : ∃ x, x.toNat ≤ 2 ^ 62 ∧ target ≤ function x := by
    obtain ⟨x, hx, hle⟩ := hreached
    exact ⟨x, hx, UInt64.le_trans htarget hle⟩
  obtain ⟨k, cut, result, hinverted, hrun⟩ := exists_inverted hmono hzero hreachedLow
  obtain ⟨k', cut', result', hinverted', hrun'⟩ :=
    exists_inverted hmono (UInt64.le_trans hzero htarget) hreached
  have hle := hinverted.result_le hinverted' hmono htarget
  refine ⟨result, result', hle, fun fuel hfuel => ⟨hrun fuel hfuel, hrun' fuel hfuel⟩, ?_⟩
  intro round samplingRate hround hrate hfits
  have hbound' := hinverted'.le_two_pow_62
  have hbound := (UInt64.le_iff_toNat_le.mp hle).trans hbound'
  exact ⟨_, _, truncate_le (scaledCardinality_nonneg hround hrate hbound)
    (scaledCardinality_le hround hrate hle hbound') hfits, fun fuel hfuel =>
      ⟨estimateCardinalityLiquidLegions_of_run (hrun fuel hfuel),
        estimateCardinalityLiquidLegions_of_run (hrun' fuel hfuel)⟩⟩

theorem invertMonotonic_monotone_three_five : ∃ result result' : UInt64, result ≤ result'
    ∧ (∀ fuel, 62 ≤ fuel → invertMonotonic (fun x => x) 3 fuel = .ok result
      ∧ invertMonotonic (fun x => x) 5 fuel = .ok result')
    ∧ ∃ estimate estimate' : Int64, estimate ≤ estimate' ∧ ∀ fuel, 62 ≤ fuel →
      estimateCardinalityLiquidLegions roundToDouble (fun x => x) 3 1 fuel = .ok estimate
      ∧ estimateCardinalityLiquidLegions roundToDouble (fun x => x) 5 1 fuel = .ok estimate' := by
  obtain ⟨result, result', hle, hrun, hestimate⟩ := @invertMonotonic_monotone (fun x => x) 3 5
    (fun _ _ hle => hle) (by decide) (by decide) ⟨5, by decide, by decide⟩
  refine ⟨result, result', hle, hrun,
    hestimate roundToDouble 1 isDoubleRounding_roundToDouble zero_lt_one ?_⟩
  have hfive : result' = 5 := by
    have hdecide : invertMonotonic (fun x => x) 5 62 = .ok 5 := by decide
    have hresult := (hrun 62 (Nat.le_refl 62)).2
    rw [hdecide] at hresult
    exact (Except.ok.inj hresult).symm
  have hround := isDoubleRounding_roundToDouble
  have hexact : roundToDouble 5 = 5 := hround.round_nat (show 5 ≤ 2 ^ 53 by decide)
  have hscaled := scaledCardinality_of_exact hround (show (5 : UInt64).toNat ≤ 2 ^ 53 by decide) 1
  rw [hfive, hscaled, div_one]
  exact hexact.trans_lt (by norm_num)

/-! ### Exact inverses -/

/-- The bisection from `2 ^ (p + 1)` to `2 ^ (p + 2)` tests the number after this one. -/
def SuccessorTested (p x : ℕ) : Prop :=
  ¬ Skipped (2 ^ p) (x + 1 - 2 ^ (p + 1))
    ∧ (2 ^ p < x + 1 - 2 ^ (p + 1) → ¬ Skipped (2 ^ p) (x + 1 - 2 ^ (p + 1) - 2 ^ p - 1))

theorem regionSize_add_two (p : ℕ) : regionSize (p + 2) = 2 ^ (p + 1) + 1 := by
  have hpow : 2 ^ (p + 2) = 2 ^ (p + 1) * 2 := pow_succ 2 (p + 1)
  unfold regionSize
  omega

theorem successorTested_iff (p x : ℕ) :
    SuccessorTested p x ↔ ¬ Untested (regionSize (p + 2)) (x + 1 - 2 ^ (p + 2) / 2) := by
  rw [two_pow_half (Nat.succ_ne_zero (p + 1)), regionSize_add_two]
  change SuccessorTested p x ↔ ¬ Untested (2 ^ (p + 1) + 1) (x + 1 - 2 ^ (p + 1))
  rw [untested_two_pow_add_one, not_or, not_and]
  rfl

section Exact

variable {k cut : ℕ} {result : UInt64} (hinverted : Inverted function target k cut result)
  (hmono : ∀ x y, x ≤ y → function x ≤ function y)

include hinverted in
/-- The end of the region is returned if it is an inverse. -/
theorem Inverted.result_of_end_eq (hend : function (UInt64.ofNat (2 ^ k)) = target) :
    function result = target := by
  have hpow := toNat_two_pow hinverted.k_le
  have hright := hinverted.isCut.le_right
  have hlt := hinverted.isCut.lt_iff _ (hpow.le)
  rw [hend, hpow] at hlt
  have hcut : cut = 2 ^ k := by
    have hnot := hlt.not.mp (UInt64.lt_irrefl target)
    omega
  have hresult : result = UInt64.ofNat (2 ^ k) := by
    rw [← UInt64.toNat_inj, hpow]
    rcases hinverted.result_cases with ⟨-, -, hcutLt⟩ | ⟨-, hresult⟩
    · omega
    · exact hresult.trans hcut
  rw [hresult, hend]

include hinverted hmono in
theorem Inverted.lt_iff_of_lt (hend : target < function (UInt64.ofNat (2 ^ k))) (x : UInt64) :
    target < function x ↔ cut < x.toNat := by
  have hpow := toNat_two_pow hinverted.k_le
  rcases Nat.le_total x.toNat (2 ^ k) with hx | hx
  · exact hinverted.isCut.lt_iff x hx
  · have hcut := (hinverted.isCut.lt_iff _ hpow.le).mp hend
    have habove := hmono (UInt64.ofNat (2 ^ k)) x (by
      rw [UInt64.le_iff_toNat_le, hpow]
      exact hx)
    rw [hpow] at hcut
    exact iff_of_true (UInt64.lt_of_lt_of_le hend habove) (hcut.trans_le hx)

include hinverted hmono in
theorem Inverted.two_pow_ne_of_lt (hend : target < function (UInt64.ofNat (2 ^ k))) {k' : ℕ}
    (hk' : k' ≤ 62) : function (UInt64.ofNat (2 ^ k')) ≠ target := by
  rcases Nat.lt_or_ge k' k with hlt | hge
  · have hk : k ≠ 0 := Nat.ne_zero_of_lt hlt
    have hbound : k - 1 ≤ 62 := Nat.le_trans (Nat.pred_le k) hinverted.k_le
    have hbelow := hinverted.lt_target hk
    have hle := hmono (UInt64.ofNat (2 ^ k')) (UInt64.ofNat (2 ^ k / 2)) (by
      rw [two_pow_half hk, UInt64.le_iff_toNat_le, toNat_two_pow hk', toNat_two_pow hbound]
      exact Nat.pow_le_pow_right Nat.two_pos (by omega))
    exact UInt64.ne_of_lt (UInt64.lt_of_le_of_lt hle hbelow)
  · have hle := hmono (UInt64.ofNat (2 ^ k)) (UInt64.ofNat (2 ^ k')) (by
      rw [UInt64.le_iff_toNat_le, toNat_two_pow hinverted.k_le, toNat_two_pow hk']
      exact Nat.pow_le_pow_right Nat.two_pos hge)
    exact (UInt64.ne_of_lt (UInt64.lt_of_lt_of_le hend hle)).symm

include hinverted hmono in
theorem Inverted.exact_iff_of_lt (hend : target < function (UInt64.ofNat (2 ^ k)))
    (hexact : ∃ x, function x = target) :
    function result = target ↔ ¬ Untested (regionSize k) (cut + 1 - 2 ^ k / 2) := by
  have habove := hinverted.lt_iff_of_lt hmono hend
  rcases hinverted.result_cases with ⟨huntested, hresult, -⟩ | ⟨htested, hresult⟩
  · have hlt := (habove result).mpr (by omega)
    exact iff_of_false (UInt64.ne_of_lt hlt).symm (not_not_intro huntested)
  · obtain ⟨x, hx⟩ := hexact
    have hxCut := (habove x).not.mp (hx ▸ UInt64.lt_irrefl (function x))
    have hle := hmono x result (UInt64.le_iff_toNat_le.mpr (by omega))
    have hge := (habove result).not.mpr (by omega)
    rw [hx] at hle
    exact iff_of_true (UInt64.le_antisymm (UInt64.not_lt.mp hge) hle) htested

include hinverted hmono in
/-- The last inverse is the cut, when the region ends above the target. -/
theorem Inverted.toNat_eq_cut (hend : target < function (UInt64.ofNat (2 ^ k))) {x : UInt64}
    (hx : function x = target) (hsucc : target < function (x + 1)) (hsmall : x.toNat < 2 ^ 62) :
    x.toNat = cut := by
  have habove := hinverted.lt_iff_of_lt hmono hend
  have hxCut := (habove x).not.mp (hx ▸ UInt64.lt_irrefl (function x))
  have hsuccCut := (habove (x + 1)).mp hsucc
  have hsum : (x + 1).toNat = x.toNat + 1 := by
    rw [UInt64.toNat_add, UInt64.toNat_one]
    apply Nat.mod_eq_of_lt
    omega
  omega

include hinverted hmono in
theorem Inverted.exists_of_lt (hend : target < function (UInt64.ofNat (2 ^ k)))
    (hexact : ∃ x, function x = target) : ∃ x, x.toNat = cut ∧ cut < 2 ^ k
      ∧ function x = target ∧ target < function (x + 1) := by
  have habove := hinverted.lt_iff_of_lt hmono hend
  have hpow := toNat_two_pow hinverted.k_le
  have hlarge : 2 ^ k ≤ 2 ^ 62 := Nat.pow_le_pow_right Nat.two_pos hinverted.k_le
  have hcutLt := (habove _).mp hend
  rw [hpow] at hcutLt
  have hcut : (UInt64.ofNat cut).toNat = cut := UInt64.toNat_ofNat_of_lt' (by
    change cut < 2 ^ 64
    omega)
  have hsucc : (UInt64.ofNat cut + 1).toNat = cut + 1 := by
    rw [UInt64.toNat_add, UInt64.toNat_one, hcut]
    apply Nat.mod_eq_of_lt
    omega
  obtain ⟨x, hx⟩ := hexact
  have hxCut := (habove x).not.mp (hx ▸ UInt64.lt_irrefl (function x))
  have hle := hmono x (UInt64.ofNat cut) (UInt64.le_iff_toNat_le.mpr (by omega))
  have hge := (habove (UInt64.ofNat cut)).not.mpr (by omega)
  rw [hx] at hle
  exact ⟨UInt64.ofNat cut, hcut, hcutLt, UInt64.le_antisymm (UInt64.not_lt.mp hge) hle,
    (habove _).mpr (by omega)⟩

include hinverted hmono in
theorem Inverted.exact_iff_successorTested (hend : target < function (UInt64.ofNat (2 ^ k)))
    (hexact : ∃ x, function x = target) :
    function result = target ↔ ∃ p x, p ≤ 60 ∧ function x = target ∧ target < function (x + 1)
      ∧ 2 ^ (p + 1) ≤ x.toNat ∧ x.toNat < 2 ^ (p + 2) ∧ SuccessorTested p x.toNat := by
  obtain ⟨x, hx, hcutLt, hfunction, hsucc⟩ := hinverted.exists_of_lt hmono hend hexact
  have hleft := hinverted.isCut.left_le
  rw [hinverted.exact_iff_of_lt hmono hend hexact]
  constructor
  · intro htested
    match k, hinverted with
    | 0, hinverted =>
        have hcut : cut = 0 := Nat.lt_one_iff.mp hcutLt
        subst hcut
        exact absurd untested_two_one htested
    | 1, hinverted =>
        -- the left end of this interval is `1`, where the function is below the target
        have hone : x = UInt64.ofNat (2 ^ 1 / 2) := by
          rw [← UInt64.toNat_inj, hx]
          exact Nat.le_antisymm (Nat.le_of_lt_succ hcutLt) hleft
        have hbelow := hinverted.lt_target Nat.one_ne_zero
        rw [← hone, hfunction] at hbelow
        exact absurd hbelow (UInt64.lt_irrefl target)
    | p + 2, hinverted =>
        have hp := hinverted.k_le
        rw [two_pow_half (Nat.succ_ne_zero (p + 1))] at hleft
        refine ⟨p, x, by omega, hfunction, hsucc, hx ▸ hleft, hx ▸ hcutLt, ?_⟩
        rw [successorTested_iff, hx]
        exact htested
  · rintro ⟨p, y, hp, hy, hySucc, hyLeft, hyRight, htested⟩
    have hlarge : 2 ^ (p + 2) ≤ 2 ^ 62 := Nat.pow_le_pow_right Nat.two_pos (by omega)
    have hyCut := hinverted.toNat_eq_cut hmono hend hy hySucc (by omega)
    have hk : k = p + 2 := by
      have hlt : p + 1 < k :=
        (Nat.pow_lt_pow_iff_right Nat.one_lt_two).mp (hyLeft.trans_lt (hyCut ▸ hcutLt))
      rw [two_pow_half (by omega)] at hleft
      have hgt : k - 1 < p + 2 :=
        (Nat.pow_lt_pow_iff_right Nat.one_lt_two).mp (hleft.trans_lt (hyCut ▸ hyRight))
      omega
    subst hk
    rw [successorTested_iff, hyCut] at htested
    exact htested

end Exact

/-- **When the search inverts.** The result is an inverse of the target if some power of two is, or
if the successor of the last inverse is a midpoint of the bisection. -/
theorem invertMonotonic_exact_iff {function : UInt64 → UInt64} {target : UInt64}
    (hmono : ∀ x y, x ≤ y → function x ≤ function y) (hzero : function 0 ≤ target)
    (hexact : ∃ x, x.toNat ≤ 2 ^ 62 ∧ function x = target) :
    ∃ result, (∀ fuel, 62 ≤ fuel → invertMonotonic function target fuel = .ok result)
      ∧ (function result = target ↔
        (∃ k ≤ 62, function (UInt64.ofNat (2 ^ k)) = target)
        ∨ ∃ p x, p ≤ 60 ∧ function x = target ∧ target < function (x + 1)
          ∧ 2 ^ (p + 1) ≤ x.toNat ∧ x.toNat < 2 ^ (p + 2) ∧ SuccessorTested p x.toNat) := by
  have hreached : ∃ x, x.toNat ≤ 2 ^ 62 ∧ target ≤ function x := by
    obtain ⟨x, hx, rfl⟩ := hexact
    exact ⟨x, hx, UInt64.le_refl _⟩
  obtain ⟨k, cut, result, hinverted, hrun⟩ := exists_inverted hmono hzero hreached
  refine ⟨result, hrun, ?_⟩
  rcases UInt64.lt_or_eq_of_le hinverted.target_le with hend | hend
  · obtain ⟨x, -, hx⟩ := hexact
    rw [hinverted.exact_iff_successorTested hmono hend ⟨x, hx⟩, or_iff_right]
    rintro ⟨k', hk', heq⟩
    exact hinverted.two_pow_ne_of_lt hmono hend hk' heq
  · exact iff_of_true (hinverted.result_of_end_eq hend.symm)
      (Or.inl ⟨k, hinverted.k_le, hend.symm⟩)

theorem invertMonotonic_exact_five : ∃ result : UInt64,
    (∀ fuel, 62 ≤ fuel → invertMonotonic (fun x => x) 5 fuel = .ok result) ∧ result = 5 := by
  obtain ⟨result, hrun, hiff⟩ := @invertMonotonic_exact_iff (fun x => x) 5 (fun _ _ hle => hle)
    (by decide) ⟨5, by decide, rfl⟩
  refine ⟨result, hrun, hiff.mpr (Or.inr ⟨1, 5, by decide, rfl, ?_⟩)⟩
  refine ⟨by decide, by decide, by decide, ?_⟩
  unfold SuccessorTested Skipped
  decide

/-- The midpoint `3` of the interval from `2` to `4` is left out, and `4` is returned. -/
theorem not_invertMonotonic_exact : ¬ ∀ (function : UInt64 → UInt64) (target : UInt64),
    (∀ x y, x ≤ y → function x ≤ function y) → function 0 ≤ target →
    (∃ x, x.toNat ≤ 2 ^ 62 ∧ function x = target) →
    ∀ fuel result, invertMonotonic function target fuel = .ok result →
      function result = target := by
  intro hexact
  have hrun : invertMonotonic (fun x => x) 3 2 = .ok 4 := by decide
  have hthree := hexact (fun x => x) 3 (fun _ _ hle => hle) (by decide) ⟨3, by decide, rfl⟩ 2 4 hrun
  exact absurd hthree (by decide)

end AnySketchCorrectness.Estimation
