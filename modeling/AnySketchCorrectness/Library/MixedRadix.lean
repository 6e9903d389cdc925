import Mathlib.Algebra.BigOperators.Fin
import Mathlib.Data.Fintype.BigOperators
import Mathlib.Algebra.Order.BigOperators.Group.Finset
import Mathlib.Algebra.Order.BigOperators.GroupWithZero.List
import Mathlib.Data.Nat.ModEq
import Mathlib.Tactic.Ring

/-!
# Weighted sums as numbers with mixed radices

Digits with given sizes are added up with given weights, modulo `M`. When is this a numbering of the
digit vectors, injective and below the number of vectors? Exactly when the weights are those of some
positional system: the digits can be put in an order in which each weight is the product of the
sizes before it. Digits of size 1 are always 0, so their weights do not matter.

One direction is division with remainder. For the other, the vectors on the first digits of the
order already take all values below their number `P`; the value `P` itself is then taken by a vector
with some new digit, and the weight of that digit can only be `P`.
-/

namespace MixedRadix

open Finset

variable {ι : Type} [Fintype ι] [DecidableEq ι] (sizes weights : ι → ℕ) (M : ℕ)

def value (digits : ι → ℕ) : ℕ :=
  (∑ i, weights i * digits i) % M

def InBox (digits : ι → ℕ) : Prop :=
  ∀ i, digits i < sizes i

/-- The weighted sum numbers the vectors of digits. -/
structure Numbers : Prop where
  injective : ∀ digits digits', InBox sizes digits → InBox sizes digits' →
    value weights M digits = value weights M digits' → digits = digits'
  lt_prod : ∀ digits, InBox sizes digits → value weights M digits < ∏ i, sizes i

/-- The digits of the list are those of a positional system, the last one with weight 1. -/
def IsRadixOrder : List ι → Prop
  | [] => True
  | i :: rest => (sizes i = 1 ∨ weights i % M = (rest.map sizes).prod) ∧ IsRadixOrder rest

/-- Only the digits of the list can differ from 0. -/
def Supported (order : List ι) (digits : ι → ℕ) : Prop :=
  InBox sizes digits ∧ ∀ i, i ∉ order → digits i = 0

variable {sizes weights M}

variable (weights M) in
theorem value_update_add (digits : ι → ℕ) (i : ι) (a : ℕ) :
    value weights M (Function.update digits i (digits i + a))
      = (value weights M digits + weights i % M * a) % M := by
  have hterm : ∀ j, weights j * Function.update digits i (digits i + a) j
      = weights j * digits j + if j = i then weights i * a else 0 := by
    intro j
    by_cases hj : j = i
    · subst hj
      rw [Function.update_self, if_pos rfl, Nat.mul_add]
    · rw [Function.update_of_ne hj, if_neg hj, Nat.add_zero]
  calc value weights M (Function.update digits i (digits i + a))
      = (∑ j, weights j * digits j + weights i * a) % M := by
        rw [value, sum_congr rfl fun j _ => hterm j, sum_add_distrib,
          sum_ite_eq' univ i, if_pos (mem_univ i)]
    _ = (value weights M digits + weights i % M * a) % M := by
        exact ((Nat.mod_modEq _ M).add ((Nat.mod_modEq _ M).mul_right a)).symm

omit [DecidableEq ι] in
theorem value_zero : value weights M (fun _ => 0) = 0 := by
  simp [value]

theorem value_eq_update_zero (digits : ι → ℕ) (i : ι) :
    value weights M digits
      = (value weights M (Function.update digits i 0) + weights i % M * digits i) % M := by
  have hadd := value_update_add weights M (Function.update digits i 0) i (digits i)
  rwa [Function.update_self, Nat.zero_add, Function.update_idem, Function.update_eq_self] at hadd

theorem value_single (i : ι) :
    value weights M (Function.update (fun _ => 0) i 1) = weights i % M := by
  have hadd := value_update_add weights M (fun _ => 0) i 1
  rwa [value_zero, Nat.zero_add, Nat.zero_add, Nat.mul_one, Nat.mod_mod] at hadd

omit [Fintype ι] in
theorem InBox.update {digits : ι → ℕ} (hbox : InBox sizes digits) {i : ι} {a : ℕ}
    (ha : a < sizes i) : InBox sizes (Function.update digits i a) := by
  intro j
  by_cases heq : j = i
  · subst heq
    rw [Function.update_self]
    exact ha
  · rw [Function.update_of_ne heq]
    exact hbox j

omit [Fintype ι] in
theorem Supported.update_zero {order : List ι} {i : ι} {digits : ι → ℕ}
    (hsupported : Supported sizes (i :: order) digits) :
    Supported sizes order (Function.update digits i 0) := by
  obtain ⟨hbox, hzero⟩ := hsupported
  refine ⟨hbox.update (Nat.zero_lt_of_lt (hbox i)), fun j hj => ?_⟩
  by_cases heq : j = i
  · subst heq
    exact Function.update_self ..
  · rw [Function.update_of_ne heq]
    exact hzero j fun hmem => (List.mem_cons.mp hmem).elim heq hj

/-! ### A positional system numbers its vectors -/

/-- A numbering takes every value, because there are as many vectors as values. -/
theorem Numbers.exists_value (hnumbers : Numbers sizes weights M) {v : ℕ}
    (hv : v < ∏ i, sizes i) : ∃ digits, InBox sizes digits ∧ value weights M digits = v := by
  let number : (∀ i, Fin (sizes i)) → Fin (∏ i, sizes i) := fun digits =>
    ⟨value weights M fun i => digits i, hnumbers.lt_prod _ fun i => (digits i).isLt⟩
  have hinjective : Function.Injective number := by
    intro digits digits' heq
    have hdigits := hnumbers.injective _ _ (fun i => (digits i).isLt) (fun i => (digits' i).isLt)
      (congrArg Fin.val heq)
    funext i
    exact Fin.ext (congrFun hdigits i)
  have hcard : Fintype.card (∀ i, Fin (sizes i)) = Fintype.card (Fin (∏ i, sizes i)) := by
    rw [Fintype.card_pi, Fintype.card_fin]
    exact prod_congr rfl fun i _ => Fintype.card_fin _
  obtain ⟨digits, hdigits⟩ :=
    ((Fintype.bijective_iff_injective_and_card number).mpr ⟨hinjective, hcard⟩).2 ⟨v, hv⟩
  exact ⟨fun i => digits i, fun i => (digits i).isLt, congrArg Fin.val hdigits⟩

section Order

theorem value_cons {order : List ι} {i : ι} {digits : ι → ℕ}
    (hradix : sizes i = 1 ∨ weights i % M = (order.map sizes).prod)
    (hle : ((i :: order).map sizes).prod ≤ M) (hdigit : digits i < sizes i)
    (hrest : value weights M (Function.update digits i 0) < (order.map sizes).prod) :
    value weights M digits = (order.map sizes).prod * digits i
        + value weights M (Function.update digits i 0)
      ∧ value weights M digits < ((i :: order).map sizes).prod := by
  rw [List.map_cons, List.prod_cons] at hle ⊢
  have hlt : (order.map sizes).prod * digits i + value weights M (Function.update digits i 0)
      < sizes i * (order.map sizes).prod := by
    calc (order.map sizes).prod * digits i + value weights M (Function.update digits i 0)
        < (order.map sizes).prod * digits i + (order.map sizes).prod := by omega
      _ = (digits i + 1) * (order.map sizes).prod := by ring
      _ ≤ sizes i * (order.map sizes).prod := Nat.mul_le_mul_right _ hdigit
  have hvalue : value weights M digits = (order.map sizes).prod * digits i
      + value weights M (Function.update digits i 0) := by
    rw [value_eq_update_zero digits i]
    rcases hradix with hone | hweight
    · have hzero : digits i = 0 := by omega
      rw [hzero, Nat.mul_zero, Nat.mul_zero, Nat.add_zero, Nat.zero_add]
      exact Nat.mod_mod _ _
    · rw [hweight, Nat.add_comm, Nat.mod_eq_of_lt (hlt.trans_le hle)]
  exact ⟨hvalue, hvalue ▸ hlt⟩

variable (hpositive : ∀ i, 1 ≤ sizes i)
include hpositive

omit [Fintype ι] [DecidableEq ι] in
theorem prod_map_pos (order : List ι) : 0 < (order.map sizes).prod := by
  apply List.prod_pos
  intro size hsize
  obtain ⟨i, -, rfl⟩ := List.mem_map.mp hsize
  exact hpositive i

omit [Fintype ι] [DecidableEq ι] in
theorem prod_le_prod_cons (order : List ι) (i : ι) :
    (order.map sizes).prod ≤ ((i :: order).map sizes).prod := by
  rw [List.map_cons, List.prod_cons]
  exact Nat.le_mul_of_pos_left _ (hpositive i)

theorem value_lt_of_radixOrder {order : List ι} (hradix : IsRadixOrder sizes weights M order)
    (hle : (order.map sizes).prod ≤ M) {digits : ι → ℕ}
    (hsupported : Supported sizes order digits) :
    value weights M digits < (order.map sizes).prod := by
  induction order generalizing digits with
  | nil =>
      have hzero : digits = fun _ => 0 := funext fun i => hsupported.2 i List.not_mem_nil
      rw [hzero, value_zero]
      exact Nat.one_pos
  | cons i order ih =>
      have hrest := ih hradix.2 ((prod_le_prod_cons hpositive order i).trans hle)
        hsupported.update_zero
      exact (value_cons hradix.1 hle (hsupported.1 i) hrest).2

theorem eq_of_radixOrder {order : List ι} (hradix : IsRadixOrder sizes weights M order)
    (hle : (order.map sizes).prod ≤ M) {digits digits' : ι → ℕ}
    (hsupported : Supported sizes order digits) (hsupported' : Supported sizes order digits')
    (hvalue : value weights M digits = value weights M digits') : digits = digits' := by
  induction order generalizing digits digits' with
  | nil =>
      funext i
      rw [hsupported.2 i List.not_mem_nil, hsupported'.2 i List.not_mem_nil]
  | cons i order ih =>
      have hleRest := (prod_le_prod_cons hpositive order i).trans hle
      have hrest := value_lt_of_radixOrder hpositive hradix.2 hleRest hsupported.update_zero
      have hrest' := value_lt_of_radixOrder hpositive hradix.2 hleRest hsupported'.update_zero
      rw [(value_cons hradix.1 hle (hsupported.1 i) hrest).1,
        (value_cons hradix.1 hle (hsupported'.1 i) hrest').1] at hvalue
      -- quotient and remainder by the product of the sizes before `i`
      have hposition : 0 < (order.map sizes).prod := Nat.zero_lt_of_lt hrest
      have hdigit : digits i = digits' i := by
        have hquotient := congrArg (· / (order.map sizes).prod) hvalue
        simpa only [Nat.mul_add_div hposition, Nat.div_eq_of_lt hrest, Nat.div_eq_of_lt hrest',
          Nat.add_zero] using hquotient
      have hupdate := ih hradix.2 hleRest hsupported.update_zero hsupported'.update_zero (by
        rw [hdigit] at hvalue
        exact Nat.add_left_cancel hvalue)
      funext j
      by_cases heq : j = i
      · rw [heq, hdigit]
      · have hother := congrFun hupdate j
        rwa [Function.update_of_ne heq, Function.update_of_ne heq] at hother

theorem exists_value_of_radixOrder {order : List ι} (hnodup : order.Nodup)
    (hradix : IsRadixOrder sizes weights M order) (hle : (order.map sizes).prod ≤ M) {v : ℕ}
    (hv : v < (order.map sizes).prod) :
    ∃ digits, Supported sizes order digits ∧ value weights M digits = v := by
  induction order generalizing v with
  | nil =>
      refine ⟨fun _ => 0, ⟨hpositive, fun _ _ => rfl⟩, ?_⟩
      rw [value_zero]
      exact (Nat.lt_one_iff.mp hv).symm
  | cons i order ih =>
      obtain ⟨hmem, hnodup⟩ := List.nodup_cons.mp hnodup
      have hleRest := (prod_le_prod_cons hpositive order i).trans hle
      have hposition : 0 < (order.map sizes).prod := prod_map_pos hpositive order
      obtain ⟨digits, hsupported, hvalue⟩ := ih hnodup hradix.2 hleRest
        (Nat.mod_lt v hposition)
      have hupdate : Function.update (Function.update digits i (v / (order.map sizes).prod)) i 0
          = digits := by
        rw [Function.update_idem, ← hsupported.2 i hmem, Function.update_eq_self]
      have hdigit : v / (order.map sizes).prod < sizes i := by
        rw [Nat.div_lt_iff_lt_mul hposition]
        rwa [List.map_cons, List.prod_cons] at hv
      refine ⟨Function.update digits i (v / (order.map sizes).prod), ⟨fun j => ?_, fun j hj => ?_⟩,
        ?_⟩
      · by_cases heq : j = i
        · subst heq
          rw [Function.update_self]
          exact hdigit
        · rw [Function.update_of_ne heq]
          exact hsupported.1 j
      · rw [List.mem_cons, not_or] at hj
        rw [Function.update_of_ne hj.1]
        exact hsupported.2 j hj.2
      · have hrest : value weights M
            (Function.update (Function.update digits i (v / (order.map sizes).prod)) i 0)
            < (order.map sizes).prod := by
          rw [hupdate, hvalue]
          exact Nat.mod_lt v hposition
        rw [(value_cons hradix.1 hle (by rw [Function.update_self]; exact hdigit) hrest).1, hupdate,
          hvalue, Function.update_self]
        exact Nat.div_add_mod v _

theorem prod_map_le {order : List ι} (hnodup : order.Nodup) :
    (order.map sizes).prod ≤ ∏ i, sizes i := by
  rw [← List.prod_toFinset sizes hnodup]
  exact prod_le_univ_prod_of_one_le' hpositive

theorem numbers_of_radixOrder {order : List ι} (hnodup : order.Nodup)
    (hcomplete : ∀ i, i ∈ order) (hradix : IsRadixOrder sizes weights M order)
    (hM : ∏ i, sizes i ≤ M) : Numbers sizes weights M := by
  have hle := (prod_map_le hpositive hnodup).trans hM
  have hsupported : ∀ digits, InBox sizes digits → Supported sizes order digits :=
    fun digits hbox => ⟨hbox, fun i hi => absurd (hcomplete i) hi⟩
  refine ⟨fun digits digits' hbox hbox' hvalue => ?_, fun digits hbox => ?_⟩
  · exact eq_of_radixOrder hpositive hradix hle (hsupported digits hbox)
      (hsupported digits' hbox') hvalue
  · exact (value_lt_of_radixOrder hpositive hradix hle (hsupported digits hbox)).trans_le
      (prod_map_le hpositive hnodup)

/-! ### A numbering is a positional system -/

/-- No sum of two values wraps, so taking one off a digit takes its weight off the value. -/
theorem Numbers.value_eq_pred_add (hnumbers : Numbers sizes weights M)
    (hM : 2 * ∏ i, sizes i ≤ M) {digits : ι → ℕ} (hbox : InBox sizes digits) {i : ι}
    (hdigit : digits i ≠ 0) :
    value weights M digits
      = value weights M (Function.update digits i (digits i - 1)) + weights i % M := by
  have hlt := hbox i
  have hbefore := hnumbers.lt_prod _ (hbox.update (show digits i - 1 < sizes i by omega))
  have hunit := hnumbers.lt_prod _ (InBox.update hpositive (show 1 < sizes i by omega))
  rw [value_single] at hunit
  have hadd := value_update_add weights M (Function.update digits i (digits i - 1)) i 1
  rw [Function.update_self, Function.update_idem,
    Nat.sub_add_cancel (Nat.pos_of_ne_zero hdigit), Function.update_eq_self, Nat.mul_one] at hadd
  rw [hadd, Nat.mod_eq_of_lt (by omega)]

/-- **The next digit.** As long as a positional system does not have all digits, a numbering gives
one of the others the next weight. -/
theorem Numbers.exists_next (hnumbers : Numbers sizes weights M) (hM : 2 * ∏ i, sizes i ≤ M)
    {order : List ι} (hnodup : order.Nodup) (hradix : IsRadixOrder sizes weights M order)
    {j : ι} (hj : j ∉ order) :
    ∃ i, i ∉ order ∧ IsRadixOrder sizes weights M (i :: order) := by
  by_cases hone : ∃ i, i ∉ order ∧ sizes i = 1
  · obtain ⟨i, hi, hsize⟩ := hone
    exact ⟨i, hi, Or.inl hsize, hradix⟩
  push Not at hone
  have hsize : ∀ i, i ∉ order → 2 ≤ sizes i := by
    intro i hi
    have hne := hone i hi
    have hge := hpositive i
    omega
  have hleN := prod_map_le hpositive hnodup
  have hleM : (order.map sizes).prod ≤ M := by omega
  have hltN : (order.map sizes).prod < ∏ i, sizes i := by
    have hcons := prod_map_le hpositive (List.nodup_cons.mpr ⟨hj, hnodup⟩)
    rw [List.map_cons, List.prod_cons] at hcons
    have hdouble := Nat.mul_le_mul_right (order.map sizes).prod (hsize j hj)
    have hprodPos := prod_map_pos hpositive order
    omega
  -- the first value that the system does not reach is taken by a vector with a new digit
  obtain ⟨digits, hbox, hvalue⟩ := hnumbers.exists_value hltN
  have hnew : ∃ i, i ∉ order ∧ digits i ≠ 0 := by
    by_contra hnone
    push Not at hnone
    have hlt := value_lt_of_radixOrder hpositive hradix hleM ⟨hbox, hnone⟩
    omega
  obtain ⟨i, hi, hdigit⟩ := hnew
  refine ⟨i, hi, Or.inr ?_, hradix⟩
  have hsum := hnumbers.value_eq_pred_add hpositive hM hbox hdigit
  rw [hvalue] at hsum
  by_contra hweight
  -- a smaller weight is already the value of a vector without the digit
  have hlt : weights i % M < (order.map sizes).prod := by omega
  obtain ⟨digits', hsupported', hvalue'⟩ :=
    exists_value_of_radixOrder hpositive hnodup hradix hleM hlt
  have hunitBox : InBox sizes (Function.update (fun _ => 0) i 1) :=
    InBox.update hpositive (hsize i hi)
  have heq := hnumbers.injective _ _ hsupported'.1 hunitBox (hvalue'.trans (value_single i).symm)
  have hzero := hsupported'.2 i hi
  rw [heq, Function.update_self] at hzero
  exact Nat.one_ne_zero hzero

theorem Numbers.exists_order (hnumbers : Numbers sizes weights M) (hM : 2 * ∏ i, sizes i ≤ M)
    (length : ℕ) (hlength : length ≤ Fintype.card ι) :
    ∃ order : List ι, order.Nodup ∧ order.length = length
      ∧ IsRadixOrder sizes weights M order := by
  induction length with
  | zero => exact ⟨[], List.nodup_nil, rfl, trivial⟩
  | succ length ih =>
      obtain ⟨order, hnodup, horder, hradix⟩ := ih (Nat.le_of_succ_le hlength)
      have hmissing : ∃ j, j ∉ order := by
        by_contra hnone
        push Not at hnone
        have hall : order.toFinset = univ := eq_univ_iff_forall.mpr fun j =>
          List.mem_toFinset.mpr (hnone j)
        have hcard := congrArg card hall
        rw [List.toFinset_card_of_nodup hnodup, card_univ] at hcard
        omega
      obtain ⟨j, hj⟩ := hmissing
      obtain ⟨i, hi, hnext⟩ := hnumbers.exists_next hpositive hM hnodup hradix hj
      exact ⟨i :: order, List.nodup_cons.mpr ⟨hi, hnodup⟩, congrArg Nat.succ horder, hnext⟩

/-- **Numberings are positional systems.** -/
theorem numbers_iff (hM : 2 * ∏ i, sizes i ≤ M) :
    Numbers sizes weights M ↔ ∃ order : List ι, order.Nodup ∧ (∀ i, i ∈ order)
      ∧ IsRadixOrder sizes weights M order := by
  constructor
  · intro hnumbers
    obtain ⟨order, hnodup, hlength, hradix⟩ :=
      hnumbers.exists_order hpositive hM (Fintype.card ι) le_rfl
    refine ⟨order, hnodup, fun i => ?_, hradix⟩
    have hall : order.toFinset = univ := by
      rw [← card_eq_iff_eq_univ, List.toFinset_card_of_nodup hnodup, hlength]
    exact List.mem_toFinset.mp (hall ▸ mem_univ i)
  · rintro ⟨order, hnodup, hcomplete, hradix⟩
    exact numbers_of_radixOrder hpositive hnodup hcomplete hradix (by omega)

end Order

end MixedRadix
