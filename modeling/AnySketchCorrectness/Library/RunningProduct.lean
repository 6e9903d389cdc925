import Mathlib.Algebra.BigOperators.Group.List.Basic
import Mathlib.Algebra.Order.Group.Nat
import Mathlib.Data.List.Forall2

/-!
# Codes with a running product

A vector of digits is encoded digit by digit. Each step multiplies the code so far by the product of
the sizes before, and adds the next digit. As long as no size is larger than that product, the code
so far and the digit are quotient and remainder of the new code, and nothing is lost. Where a size
is larger, the digit can be as large as the product itself, and then looks like a carry.
-/

namespace RunningProduct

/-- Continues the encoding with the remaining sizes and digits. -/
def encode : ℕ → ℕ → List ℕ → List ℕ → ℕ
  | product, code, size :: sizes, digit :: digits =>
      encode (product * size) (product * code + digit) sizes digits
  | _, code, _, _ => code

@[simp]
theorem encode_cons (product code size digit : ℕ) (sizes digits : List ℕ) :
    encode product code (size :: sizes) (digit :: digits)
      = encode (product * size) (product * code + digit) sizes digits := rfl

abbrev IsDigits (sizes digits : List ℕ) : Prop :=
  List.Forall₂ (fun digit size => digit < size) digits sizes

/-- No size is larger than the product of those before it. -/
def Separated : ℕ → List ℕ → Prop
  | _, [] => True
  | product, size :: sizes => size ≤ product ∧ Separated (product * size) sizes

def UniquelyDecodable (sizes : List ℕ) : Prop :=
  ∀ digits digits', IsDigits sizes digits → IsDigits sizes digits' →
    encode 1 0 sizes digits = encode 1 0 sizes digits' → digits = digits'

variable {sizes : List ℕ}

theorem separated_iff (product : ℕ) (sizes : List ℕ) :
    Separated product sizes
      ↔ ∀ k (hk : k < sizes.length), sizes[k] ≤ product * (sizes.take k).prod := by
  induction sizes generalizing product with
  | nil => exact iff_of_true trivial fun k hk => absurd hk (Nat.not_lt_zero k)
  | cons size sizes ih =>
      rw [Separated, ih]
      constructor
      · rintro ⟨hsize, hsizes⟩ k hk
        cases k with
        | zero => simpa using hsize
        | succ k =>
            have hlater := hsizes k (Nat.succ_lt_succ_iff.mp hk)
            rwa [mul_assoc, ← List.prod_cons, ← List.take_succ_cons] at hlater
      · intro hall
        refine ⟨by simpa using hall 0 (Nat.zero_lt_succ _), fun k hk => ?_⟩
        have hlater := hall (k + 1) (Nat.succ_lt_succ hk)
        rwa [List.take_succ_cons, List.prod_cons, ← mul_assoc] at hlater

/-- One step can be undone, by division with remainder. -/
theorem step_inj {product size code code' digit digit' : ℕ} (hsize : size ≤ product)
    (hdigit : digit < size) (hdigit' : digit' < size)
    (heq : product * code + digit = product * code' + digit') : code = code' ∧ digit = digit' := by
  have hdiv := congrArg (· / product) heq
  have hmod := congrArg (· % product) heq
  simp only [Nat.mul_add_div (hdigit.trans_le hsize).pos, Nat.mul_add_mod,
    Nat.div_eq_of_lt (hdigit.trans_le hsize), Nat.div_eq_of_lt (hdigit'.trans_le hsize),
    Nat.mod_eq_of_lt (hdigit.trans_le hsize), Nat.mod_eq_of_lt (hdigit'.trans_le hsize),
    add_zero] at hdiv hmod
  exact ⟨hdiv, hmod⟩

/-- **Nothing is lost**, by induction on the remaining sizes. -/
theorem encode_inj {product code code' : ℕ} {digits digits' : List ℕ}
    (hseparated : Separated product sizes) (hdigits : IsDigits sizes digits)
    (hdigits' : IsDigits sizes digits')
    (heq : encode product code sizes digits = encode product code' sizes digits') :
    code = code' ∧ digits = digits' := by
  induction sizes generalizing product code code' digits digits' with
  | nil =>
      cases hdigits
      cases hdigits'
      exact ⟨heq, rfl⟩
  | cons size sizes ih =>
      cases hdigits with
      | cons hdigit hdigits =>
          cases hdigits' with
          | cons hdigit' hdigits' =>
              obtain ⟨hcode, hrest⟩ := ih hseparated.2 hdigits hdigits' heq
              obtain ⟨hcode, hfirst⟩ := step_inj hseparated.1 hdigit hdigit' hcode
              exact ⟨hcode, congrArg₂ List.cons hfirst hrest⟩

theorem isDigits_zeros (hpositive : ∀ size ∈ sizes, 0 < size) :
    IsDigits sizes (sizes.map fun _ => 0) := by
  induction sizes with
  | nil => exact .nil
  | cons size sizes ih =>
      obtain ⟨hhead, htail⟩ := List.forall_mem_cons.mp hpositive
      exact .cons hhead (ih htail)

/-- **Something is lost.** At the first size that is too large, the digit `product` after the code 0
gives the same as the digit 0 after the code 1. The code 1 is that of a last digit 1. -/
theorem exists_collision {product : ℕ} (htwo : ∀ size ∈ sizes, 2 ≤ size)
    (hnot : ¬ Separated product sizes) :
    ∃ code digits digits', code ≤ 1 ∧ IsDigits sizes digits ∧ IsDigits sizes digits' ∧
      encode product 0 sizes digits = encode product code sizes digits' ∧
      ¬ (code = 0 ∧ digits = digits') := by
  induction sizes generalizing product with
  | nil => exact absurd trivial hnot
  | cons size sizes ih =>
      obtain ⟨hhead, htail⟩ := List.forall_mem_cons.mp htwo
      have hzeros := isDigits_zeros fun s hs => Nat.zero_lt_of_lt (htail s hs)
      by_cases hsize : size ≤ product
      · have hlater : ¬ Separated (product * size) sizes := fun hseparated =>
          hnot ⟨hsize, hseparated⟩
        obtain ⟨code, digits, digits', hcode, hdigits, hdigits', heq, hne⟩ := ih htail hlater
        refine ⟨0, 0 :: digits, code :: digits', zero_le_one, .cons (by omega) hdigits,
          .cons (by omega) hdigits', ?_, ?_⟩
        · rw [encode_cons, encode_cons, Nat.mul_zero, Nat.zero_add, Nat.zero_add]
          exact heq
        · rintro ⟨-, hcons⟩
          obtain ⟨hhead, htail⟩ := List.cons.inj hcons
          exact hne ⟨hhead.symm, htail⟩
      · refine ⟨1, product :: sizes.map fun _ => 0, 0 :: sizes.map fun _ => 0, le_refl 1,
          .cons (Nat.lt_of_not_le hsize) hzeros, .cons (by omega) hzeros, ?_, ?_⟩
        · rw [encode_cons, encode_cons, Nat.mul_zero, Nat.mul_one, Nat.zero_add, Nat.add_zero]
        · rintro ⟨hone, -⟩
          cases hone

theorem encode_one_cons (size digit : ℕ) (sizes digits : List ℕ) :
    encode 1 0 (size :: sizes) (digit :: digits) = encode size digit sizes digits := by
  rw [encode_cons, one_mul, one_mul, zero_add]

/-- The first digit is the code when the second one comes, whatever its size. -/
theorem uniquelyDecodable_cons_iff {size : ℕ} (hsize : 2 ≤ size)
    (htwo : ∀ size ∈ sizes, 2 ≤ size) :
    UniquelyDecodable (size :: sizes) ↔ Separated size sizes := by
  constructor
  · intro hunique
    by_contra hnot
    obtain ⟨code, digits, digits', hcode, hdigits, hdigits', heq, hne⟩ :=
      exists_collision htwo hnot
    have hsame := hunique (0 :: digits) (code :: digits') (.cons (by omega) hdigits)
      (.cons (by omega) hdigits') (by rw [encode_one_cons, encode_one_cons, heq])
    obtain ⟨hcode, hdigits⟩ := List.cons.inj hsame
    exact hne ⟨hcode.symm, hdigits⟩
  · intro hseparated digits digits' hdigits hdigits' heq
    cases hdigits with
    | cons hdigit hdigits =>
        cases hdigits' with
        | cons hdigit' hdigits' =>
            rw [encode_one_cons, encode_one_cons] at heq
            obtain ⟨hfirst, hrest⟩ := encode_inj hseparated hdigits hdigits' heq
            exact congrArg₂ List.cons hfirst hrest

theorem separated_cons_iff (size : ℕ) (sizes : List ℕ) :
    Separated size sizes ↔ ∀ k, 1 ≤ k → ∀ hk : k < (size :: sizes).length,
      (size :: sizes)[k] ≤ ((size :: sizes).take k).prod := by
  rw [separated_iff]
  constructor
  · intro hall k hone hk
    obtain ⟨k, rfl⟩ := Nat.exists_eq_add_of_le' hone
    rw [List.take_succ_cons, List.prod_cons]
    exact hall k (Nat.succ_lt_succ_iff.mp hk)
  · intro hall k hk
    have hlater := hall (k + 1) (Nat.le_add_left 1 k) (Nat.succ_lt_succ hk)
    rwa [List.take_succ_cons, List.prod_cons] at hlater

/-- **When the code is unique.** -/
theorem uniquelyDecodable_iff (htwo : ∀ size ∈ sizes, 2 ≤ size) :
    UniquelyDecodable sizes
      ↔ ∀ k, 1 ≤ k → ∀ hk : k < sizes.length, sizes[k] ≤ (sizes.take k).prod := by
  cases sizes with
  | nil =>
      refine iff_of_true ?_ fun k _ hk => absurd hk (Nat.not_lt_zero k)
      intro digits digits' hdigits hdigits' _
      cases hdigits
      cases hdigits'
      rfl
  | cons size sizes =>
      obtain ⟨hhead, htail⟩ := List.forall_mem_cons.mp htwo
      rw [uniquelyDecodable_cons_iff hhead htail]
      exact separated_cons_iff size sizes

end RunningProduct
