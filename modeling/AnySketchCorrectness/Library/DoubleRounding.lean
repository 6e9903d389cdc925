import Mathlib.Algebra.Order.Field.Power
import Mathlib.Algebra.Order.Floor.Ring
import Mathlib.Data.Rat.Floor
import Mathlib.Order.Monotone.Odd
import Mathlib.Tactic.Linarith
import Mathlib.Tactic.Positivity

/-!
# Rounding to doubles

The result of a floating point operation is the exact one, rounded. Two facts about the rounding are
enough for bounds: it is monotone, and it does not change a number that has a significand of 53
bits.
-/

namespace DoubleRounding

/-- The exponents are those of doubles, so that nothing is said about underflow and overflow. -/
structure IsDoubleRounding (round : ℚ → ℚ) : Prop where
  mono : Monotone round
  exact : ∀ m e : ℤ, |m| ≤ 2 ^ 53 → -1074 ≤ e → e ≤ 970 → round (m * 2 ^ e) = m * 2 ^ e

theorem isDoubleRounding_id : IsDoubleRounding id :=
  ⟨monotone_id, fun _ _ _ _ _ => rfl⟩

namespace IsDoubleRounding

variable {round : ℚ → ℚ} (hround : IsDoubleRounding round)
include hround

theorem round_int {m : ℤ} (hm : |m| ≤ 2 ^ 53) : round m = m := by
  simpa using hround.exact m 0 hm (by decide) (by decide)

theorem round_nat {n : ℕ} (hn : n ≤ 2 ^ 53) : round n = n := by
  have hround := hround.round_int (m := n) (by
    rw [Nat.abs_cast]
    exact_mod_cast hn)
  exact_mod_cast hround

theorem round_zero : round 0 = 0 := by
  exact_mod_cast hround.round_nat (Nat.zero_le _)

theorem nonneg {x : ℚ} (hx : 0 ≤ x) : 0 ≤ round x := by
  rw [← hround.round_zero]
  exact hround.mono hx

theorem round_div_two_pow {m : ℤ} {k : ℕ} (hm : |m| ≤ 2 ^ 53) (hk : k ≤ 1074) :
    round (m / 2 ^ k) = m / 2 ^ k := by
  have hexact := hround.exact m (-k) hm (by omega) (by omega)
  rwa [zpow_neg, zpow_natCast, ← div_eq_mul_inv] at hexact

theorem round_mul_two_pow {m : ℤ} {k : ℕ} (hm : |m| ≤ 2 ^ 53) (hk : k ≤ 970) :
    round (m * 2 ^ k) = m * 2 ^ k := by
  have hexact := hround.exact m k hm (by omega) (by omega)
  rwa [zpow_natCast] at hexact

theorem round_two_pow {k : ℕ} (hk : k ≤ 970) : round (2 ^ k) = 2 ^ k := by
  have hexact := hround.round_mul_two_pow (m := 1) (by decide) hk
  rwa [Int.cast_one, one_mul] at hexact

end IsDoubleRounding

/-! ### Rounding to the nearest -/

/-- The nearest integer, and the even one of two. -/
def roundEven (x : ℚ) : ℤ :=
  if 2 * Int.fract x < 1 ∨ 2 * Int.fract x = 1 ∧ Even ⌊x⌋ then ⌊x⌋ else ⌊x⌋ + 1

/-- The exponent of the greatest power of two that a positive number reaches. -/
def exponent (x : ℚ) : ℤ :=
  let estimate : ℤ := (x.num.toNat.log2 : ℤ) - x.den.log2
  if (2 : ℚ) ^ estimate ≤ x then estimate else estimate - 1

/-- The exponent of the last of 53 bits. -/
def lastPlace (x : ℚ) : ℤ :=
  exponent x - 52

def roundMagnitude (x : ℚ) : ℚ :=
  roundEven (x / 2 ^ lastPlace x) * 2 ^ lastPlace x

/-- To the nearest number with a significand of 53 bits, and to the even one of two. -/
def roundToDouble (x : ℚ) : ℚ :=
  if 0 ≤ x then roundMagnitude x else -roundMagnitude (-x)

theorem floor_le_roundEven (x : ℚ) : ⌊x⌋ ≤ roundEven x := by
  unfold roundEven
  split
  · exact le_refl _
  · exact (Int.lt_add_one_iff.mpr (le_refl _)).le

theorem roundEven_le_floor_succ (x : ℚ) : roundEven x ≤ ⌊x⌋ + 1 := by
  unfold roundEven
  split
  · exact (Int.lt_add_one_iff.mpr (le_refl _)).le
  · exact le_refl _

@[simp]
theorem roundEven_intCast (n : ℤ) : roundEven n = n := by
  simp [roundEven]

theorem roundEven_mono {x y : ℚ} (hle : x ≤ y) : roundEven x ≤ roundEven y := by
  rcases (Int.floor_mono hle).lt_or_eq with hlt | heq
  · calc roundEven x ≤ ⌊x⌋ + 1 := roundEven_le_floor_succ x
      _ ≤ ⌊y⌋ := hlt
      _ ≤ roundEven y := floor_le_roundEven y
  · have hfract : Int.fract x ≤ Int.fract y := by
      rw [Int.fract, Int.fract, heq]
      exact sub_le_sub_right hle _
    unfold roundEven
    rw [heq]
    split_ifs with hx hy hy
    · exact le_refl _
    · exact (Int.lt_add_one_iff.mpr (le_refl _)).le
    · -- `y` is rounded down and `x` up, so `x` is above `y`
      exfalso
      apply hx
      rcases hy with hy | ⟨hy, heven⟩
      · exact Or.inl (by linarith)
      · rcases hfract.lt_or_eq with hlt | heq
        · exact Or.inl (by linarith)
        · exact Or.inr ⟨heq ▸ hy, heven⟩
    · exact le_refl _

theorem two_zpow_pos (e : ℤ) : (0 : ℚ) < 2 ^ e := by
  positivity

section Exponent

variable {x : ℚ} (hx : 0 < x)
include hx

theorem num_toNat_div_den : x = (x.num.toNat : ℚ) / x.den := by
  have hnum : ((x.num.toNat : ℤ) : ℚ) = x.num := by
    rw [Int.toNat_of_nonneg (Rat.num_pos.mpr hx).le]
  rw [← Int.cast_natCast x.num.toNat, hnum, Rat.num_div_den]

theorem num_toNat_ne_zero : x.num.toNat ≠ 0 := by
  have hnum := Rat.num_pos.mpr hx
  omega

theorem lt_two_zpow_estimate :
    x < 2 ^ ((x.num.toNat.log2 : ℤ) - x.den.log2 + 1) := by
  have hden : (2 : ℚ) ^ x.den.log2 ≤ x.den := by
    exact_mod_cast Nat.log2_self_le x.den_nz
  have hnum : (x.num.toNat : ℚ) < 2 ^ (x.num.toNat.log2 + 1) := by
    exact_mod_cast Nat.lt_log2_self
  calc x = (x.num.toNat : ℚ) / x.den := num_toNat_div_den hx
    _ ≤ (x.num.toNat : ℚ) / 2 ^ x.den.log2 := by gcongr
    _ < 2 ^ (x.num.toNat.log2 + 1) / 2 ^ x.den.log2 := by gcongr
    _ = 2 ^ ((x.num.toNat.log2 : ℤ) - x.den.log2 + 1) := by
        rw [← zpow_natCast, ← zpow_natCast, ← zpow_sub₀ two_ne_zero]
        congr 1
        push_cast
        ring

theorem two_zpow_estimate_lt :
    2 ^ ((x.num.toNat.log2 : ℤ) - x.den.log2 - 1) < x := by
  have hden : (x.den : ℚ) < 2 ^ (x.den.log2 + 1) := by
    exact_mod_cast Nat.lt_log2_self
  have hnum : (2 : ℚ) ^ x.num.toNat.log2 ≤ x.num.toNat := by
    exact_mod_cast Nat.log2_self_le (num_toNat_ne_zero hx)
  have hdenPos : (0 : ℚ) < x.den := by exact_mod_cast x.den_pos
  calc (2 : ℚ) ^ ((x.num.toNat.log2 : ℤ) - x.den.log2 - 1)
      = 2 ^ x.num.toNat.log2 / 2 ^ (x.den.log2 + 1) := by
        rw [← zpow_natCast, ← zpow_natCast, ← zpow_sub₀ two_ne_zero]
        congr 1
        push_cast
        ring
    _ < 2 ^ x.num.toNat.log2 / x.den := by gcongr
    _ ≤ (x.num.toNat : ℚ) / x.den := by gcongr
    _ = x := (num_toNat_div_den hx).symm

theorem two_zpow_exponent_le : 2 ^ exponent x ≤ x := by
  simp only [exponent]
  split
  · assumption
  · exact (two_zpow_estimate_lt hx).le

theorem lt_two_zpow_exponent_succ : x < 2 ^ (exponent x + 1) := by
  simp only [exponent]
  split
  · exact lt_two_zpow_estimate hx
  · rename_i hlt
    rw [sub_add_cancel]
    exact not_le.mp hlt

theorem exponent_lt {e : ℤ} (hlt : x < 2 ^ e) : exponent x < e :=
  (zpow_lt_zpow_iff_right₀ one_lt_two).mp ((two_zpow_exponent_le hx).trans_lt hlt)

theorem exponent_mono {y : ℚ} (hle : x ≤ y) : exponent x ≤ exponent y :=
  Int.lt_add_one_iff.mp (exponent_lt hx
    (hle.trans_lt (lt_two_zpow_exponent_succ (hx.trans_le hle))))

theorem two_pow_le_scaled : (2 : ℚ) ^ 52 ≤ x / 2 ^ lastPlace x := by
  rw [le_div_iff₀ (two_zpow_pos _), lastPlace, ← zpow_natCast, ← zpow_add₀ two_ne_zero,
    Nat.cast_ofNat, add_sub_cancel]
  exact two_zpow_exponent_le hx

theorem scaled_lt_two_pow : x / 2 ^ lastPlace x < (2 : ℚ) ^ 53 := by
  rw [div_lt_iff₀ (two_zpow_pos _), lastPlace, ← zpow_natCast, ← zpow_add₀ two_ne_zero]
  have hexponent : ((53 : ℕ) : ℤ) + (exponent x - 52) = exponent x + 1 := by omega
  rw [hexponent]
  exact lt_two_zpow_exponent_succ hx

theorem two_zpow_exponent_le_roundMagnitude : (2 : ℚ) ^ exponent x ≤ roundMagnitude x := by
  have hfloor : (2 : ℤ) ^ 52 ≤ roundEven (x / 2 ^ lastPlace x) := by
    refine le_trans ?_ (floor_le_roundEven _)
    rw [Int.le_floor]
    exact_mod_cast two_pow_le_scaled hx
  calc (2 : ℚ) ^ exponent x = ((2 ^ 52 : ℤ) : ℚ) * 2 ^ lastPlace x := by
        rw [lastPlace, zpow_sub₀ two_ne_zero]
        push_cast
        field_simp
    _ ≤ roundMagnitude x :=
        mul_le_mul_of_nonneg_right (Int.cast_le.mpr hfloor) (two_zpow_pos _).le

theorem roundMagnitude_le_two_zpow : roundMagnitude x ≤ 2 ^ (exponent x + 1) := by
  have hceil : roundEven (x / 2 ^ lastPlace x) ≤ 2 ^ 53 := by
    have hmono := roundEven_mono (scaled_lt_two_pow hx).le
    rwa [show ((2 : ℚ) ^ 53) = ((2 ^ 53 : ℤ) : ℚ) by norm_cast, roundEven_intCast] at hmono
  calc roundMagnitude x ≤ ((2 ^ 53 : ℤ) : ℚ) * 2 ^ lastPlace x :=
        mul_le_mul_of_nonneg_right (Int.cast_le.mpr hceil) (two_zpow_pos _).le
    _ = 2 ^ (exponent x + 1) := by
        rw [lastPlace, zpow_sub₀ two_ne_zero, zpow_add₀ two_ne_zero]
        push_cast
        field_simp
        norm_num

end Exponent

@[simp]
theorem roundMagnitude_zero : roundMagnitude 0 = 0 := by
  simp [roundMagnitude, roundEven]

theorem roundMagnitude_mono {x y : ℚ} (hx : 0 ≤ x) (hle : x ≤ y) :
    roundMagnitude x ≤ roundMagnitude y := by
  rcases hx.eq_or_lt with rfl | hx
  · rcases hle.eq_or_lt with rfl | hy
    · exact le_refl _
    · rw [roundMagnitude_zero]
      exact (two_zpow_pos _).le.trans (two_zpow_exponent_le_roundMagnitude hy)
  · rcases (exponent_mono hx hle).lt_or_eq with hlt | heq
    · calc roundMagnitude x ≤ 2 ^ (exponent x + 1) := roundMagnitude_le_two_zpow hx
        _ ≤ 2 ^ exponent y := zpow_le_zpow_right₀ one_le_two hlt
        _ ≤ roundMagnitude y := two_zpow_exponent_le_roundMagnitude (hx.trans_le hle)
    · unfold roundMagnitude lastPlace
      rw [heq]
      apply mul_le_mul_of_nonneg_right _ (two_zpow_pos _).le
      apply Int.cast_le.mpr
      apply roundEven_mono
      exact div_le_div_of_nonneg_right hle (two_zpow_pos _).le

theorem roundMagnitude_exact_of_lt {m : ℕ} (hm : m < 2 ^ 53) (e : ℤ) :
    roundMagnitude (m * 2 ^ e) = m * 2 ^ e := by
  rcases m.eq_zero_or_pos with rfl | hpos
  · simp
  · have hx : (0 : ℚ) < m * 2 ^ e := mul_pos (Nat.cast_pos.mpr hpos) (two_zpow_pos e)
    have hplace : lastPlace (m * 2 ^ e) ≤ e := by
      have hlt : exponent ((m : ℚ) * 2 ^ e) < e + 53 := by
        apply exponent_lt hx
        rw [zpow_add₀ two_ne_zero, mul_comm]
        exact mul_lt_mul_of_pos_left (by exact_mod_cast hm) (two_zpow_pos e)
      unfold lastPlace
      omega
    -- the last place is below that of `m`, so the scaled number is an integer
    obtain ⟨k, hk⟩ := Int.eq_ofNat_of_zero_le (Int.sub_nonneg.mpr hplace)
    have hscaled : (m : ℚ) * 2 ^ e / 2 ^ lastPlace (m * 2 ^ e) = ((m * 2 ^ k : ℤ) : ℚ) := by
      rw [mul_div_assoc, ← zpow_sub₀ two_ne_zero, hk, zpow_natCast]
      push_cast
      rfl
    rw [roundMagnitude, hscaled, roundEven_intCast, ← hscaled,
      div_mul_cancel₀ _ (two_zpow_pos _).ne']

theorem roundMagnitude_exact {m : ℕ} (hm : m ≤ 2 ^ 53) (e : ℤ) :
    roundMagnitude (m * 2 ^ e) = m * 2 ^ e := by
  rcases hm.lt_or_eq with hlt | rfl
  · exact roundMagnitude_exact_of_lt hlt e
  · have hexact := roundMagnitude_exact_of_lt (m := 1) (by decide) (53 + e)
    rw [zpow_add₀ two_ne_zero] at hexact
    push_cast at hexact ⊢
    simpa using hexact

theorem roundToDouble_neg (x : ℚ) : roundToDouble (-x) = -roundToDouble x := by
  unfold roundToDouble
  rcases lt_trichotomy x 0 with hlt | rfl | hgt
  · rw [if_pos (neg_nonneg.mpr hlt.le), if_neg (not_le.mpr hlt), neg_neg]
  · simp
  · rw [if_neg (not_le.mpr (neg_neg_of_pos hgt)), if_pos hgt.le, neg_neg]

theorem roundToDouble_mono : Monotone roundToDouble := by
  apply monotone_of_odd_of_monotoneOn_nonneg roundToDouble_neg
  intro x hx y hy hle
  rw [Set.mem_Ici] at hx hy
  rw [roundToDouble, roundToDouble, if_pos hx, if_pos hy]
  exact roundMagnitude_mono hx hle

theorem isDoubleRounding_roundToDouble : IsDoubleRounding roundToDouble where
  mono := roundToDouble_mono
  exact := by
    have hnonneg : ∀ m : ℕ, m ≤ 2 ^ 53 → ∀ e : ℤ,
        roundToDouble (m * 2 ^ e) = m * 2 ^ e := by
      intro m hm e
      rw [roundToDouble, if_pos (by positivity), roundMagnitude_exact hm]
    intro m e hm _ _
    obtain ⟨n, rfl | rfl⟩ := m.eq_nat_or_neg
    · rw [Nat.abs_cast] at hm
      exact_mod_cast hnonneg n (by exact_mod_cast hm) e
    · rw [abs_neg, Nat.abs_cast] at hm
      push_cast
      rw [neg_mul, roundToDouble_neg, hnonneg n (by exact_mod_cast hm)]

end DoubleRounding
