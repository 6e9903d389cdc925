import AnySketchCorrectness.Library.RunningProduct
import AnySketchCorrectness.Linearization
import AnySketchCorrectness.Proof.Registers
import Mathlib.Data.List.Forall2
import Mathlib.Data.List.GetD

/-!
# When the linearized index is a linearization

`GetIndex` multiplies the index so far by the product of the sizes before, and adds the next part
without a factor. What comes out is a weighted sum of the parts, but seldom one of a positional
system. It numbers the vectors of parts exactly when it is.
-/

namespace AnySketchCorrectness.AnySketch

open MixedRadix RunningProduct

/-! ### The loop on the parts -/

theorem indexPart_range {distribution : BaseDistribution} {size : ℕ}
    (hsize : distribution.size.toInt = size) (hpositive : 1 ≤ size) {insertion : Insertion}
    {value : Int64}
    (happly : distribution.apply insertion.item insertion.itemMetadata = .ok value) :
    0 ≤ (value - distribution.minValue).toInt ∧
      (value - distribution.minValue).toInt < size := by
  obtain ⟨hmin, hmax⟩ := distribution.apply_mem happly
  rw [Int64.le_iff_toInt_le] at hmin hmax
  rw [BaseDistribution.size, Int64.toInt_add, Int64.toInt_sub, Int64.toInt_one] at hsize
  have hminLe := distribution.minValue.le_toInt
  have hmaxLt := distribution.maxValue.toInt_lt
  rw [Int64.toInt_sub]
  simp only [Int.bmod_def] at hsize ⊢
  omega

theorem toUInt64_eq_ofNat {value : Int64} (hvalue : 0 ≤ value.toInt) :
    value.toUInt64 = UInt64.ofNat value.toInt.toNat := by
  apply UInt64.toNat_inj.mp
  have hle : 0 ≤ value := by rwa [Int64.le_iff_toInt_le, Int64.toInt_zero]
  have hlt := value.toInt_lt
  rw [Int64.toNat_toUInt64_of_le hle, Int64.toNatClampNeg, UInt64.toNat_ofNat_of_lt' (by
    change value.toInt.toNat < 2 ^ 64
    omega)]

theorem indexParts_range {indexes : List BaseDistribution} {sizes : List ℕ} {insertion : Insertion}
    {parts : List Int64} (hsizes : HasSizes indexes sizes) (hpositive : ∀ size ∈ sizes, 1 ≤ size)
    (hparts : indexParts insertion indexes = .ok parts) :
    IsParts sizes parts := by
  induction hsizes generalizing parts with
  | nil =>
      cases hparts
      exact .nil
  | @cons distribution size indexes sizes hsize hsizes ih =>
      obtain ⟨hhead, htail⟩ := List.forall_mem_cons.mp hpositive
      obtain ⟨value, rest, happly, hrest, rfl⟩ := indexParts_cons_eq_ok.mp hparts
      exact .cons (indexPart_range hsize hhead happly) (ih htail hrest)

theorem getIndexLoop_eq_linearizeLoop {insertion : Insertion} {indexes : List BaseDistribution}
    {parts : List Int64} (hparts : indexParts insertion indexes = .ok parts)
    (product linearizedIndex : UInt64) :
    getIndexLoop insertion.item insertion.itemMetadata indexes product linearizedIndex
      = .ok (linearizeLoop indexes parts product linearizedIndex) := by
  induction indexes generalizing parts product linearizedIndex with
  | nil =>
      cases hparts
      rfl
  | cons distribution indexes ih =>
      obtain ⟨value, rest, happly, hrest, rfl⟩ := indexParts_cons_eq_ok.mp hparts
      rw [getIndexLoop, happly]
      exact ih hrest _ _

theorem getIndex_eq_linearize {insertion : Insertion} {indexes : List BaseDistribution}
    {parts : List Int64} (hparts : indexParts insertion indexes = .ok parts) :
    getIndex indexes insertion = .ok (linearize indexes parts) := by
  rw [getIndex, getIndexLoop_eq_linearizeLoop hparts]
  rfl

/-! ### The loop as a weighted sum -/

/-- The loop encodes the parts, modulo `2 ^ 64`. -/
theorem linearizeLoop_eq {indexes : List BaseDistribution} {sizes : List ℕ}
    (hsizes : HasSizes indexes sizes) {parts : List Int64} (hparts : IsParts sizes parts)
    (product linearizedIndex : ℕ) :
    linearizeLoop indexes parts (UInt64.ofNat product) (UInt64.ofNat linearizedIndex)
      = UInt64.ofNat (encode product linearizedIndex sizes
          (parts.map fun part => part.toInt.toNat)) := by
  induction hsizes generalizing parts product linearizedIndex with
  | nil => rfl
  | @cons distribution size indexes sizes hsize hsizes ih =>
      cases hparts with
      | @cons part _ parts _ hpart hparts =>
          have hsizeNat : distribution.size.toUInt64 = UInt64.ofNat size := by
            rw [toUInt64_eq_ofNat (by omega), hsize, Int.toNat_natCast]
          rw [linearizeLoop, hsizeNat, toUInt64_eq_ofNat hpart.1, ← UInt64.ofNat_mul,
            ← UInt64.ofNat_mul, ← UInt64.ofNat_add, ih hparts]
          rfl

def dot (weights : List ℕ) (parts : List Int64) : ℕ :=
  (List.zipWith (fun weight part => weight * part.toInt.toNat) weights parts).sum

/-- The code of a vector of parts is the sum of its parts with their weights. -/
theorem encode_eq_dot {sizes : List ℕ} {parts : List Int64} (hlength : parts.length = sizes.length)
    (product linearizedIndex : ℕ) :
    encode product linearizedIndex sizes (parts.map fun part => part.toInt.toNat)
      = linearizedIndex * carry product sizes + dot (weights product sizes) parts := by
  induction sizes generalizing parts product linearizedIndex with
  | nil =>
      rw [List.eq_nil_of_length_eq_zero hlength, carry, Nat.mul_one]
      rfl
  | cons size sizes ih =>
      cases parts with
      | nil => cases hlength
      | cons part parts =>
          rw [List.map_cons, encode_cons, ih (Nat.succ.inj hlength)]
          calc (product * linearizedIndex + part.toInt.toNat) * carry (product * size) sizes
                + dot (weights (product * size) sizes) parts
              = linearizedIndex * (product * carry (product * size) sizes)
                + (carry (product * size) sizes * part.toInt.toNat
                  + dot (weights (product * size) sizes) parts) := by ring
            _ = linearizedIndex * carry product (size :: sizes)
                + dot (weights product (size :: sizes)) (part :: parts) := by
              rw [carry, weights, dot, dot, List.zipWith_cons_cons, List.sum_cons]

/-- **The loop of `GetIndex`** adds up the parts with their weights. -/
theorem getIndexLoop_eq {indexes : List BaseDistribution} {sizes : List ℕ}
    (hsizes : HasSizes indexes sizes) (hpositive : ∀ size ∈ sizes, 1 ≤ size) {insertion : Insertion}
    {parts : List Int64} (hparts : indexParts insertion indexes = .ok parts)
    (product linearizedIndex : ℕ) :
    getIndexLoop insertion.item insertion.itemMetadata indexes (UInt64.ofNat product)
        (UInt64.ofNat linearizedIndex)
      = .ok (UInt64.ofNat (linearizedIndex * carry product sizes
          + dot (weights product sizes) parts)) := by
  have hrange := indexParts_range hsizes hpositive hparts
  rw [getIndexLoop_eq_linearizeLoop hparts, linearizeLoop_eq hsizes hrange,
    encode_eq_dot hrange.length_eq]

theorem weights_length (product : ℕ) (sizes : List ℕ) :
    (weights product sizes).length = sizes.length := by
  induction sizes generalizing product with
  | nil => rfl
  | cons size sizes ih => rw [weights, List.length_cons, List.length_cons, ih]

/-! ### The parts as digits -/

theorem dot_eq_sum {n : ℕ} {weights : List ℕ} {parts : List Int64} (hweights : weights.length = n)
    (hparts : parts.length = n) :
    dot weights parts = ∑ i : Fin n, weights.getD i 0 * digitsOf parts i := by
  induction n generalizing weights parts with
  | zero =>
      rw [List.eq_nil_of_length_eq_zero hweights]
      rfl
  | succ n ih =>
      cases weights with
      | nil => cases hweights
      | cons weight weights =>
          cases parts with
          | nil => cases hparts
          | cons part parts =>
              rw [dot, List.zipWith_cons_cons, List.sum_cons, Fin.sum_univ_succ]
              congr 1
              exact ih (Nat.succ.inj hweights) (Nat.succ.inj hparts)

section Sizes

variable {indexes : List BaseDistribution} {sizes : List ℕ} {insertion : Insertion}
  {parts : List Int64}

theorem digitsOf_inBox (hrange : IsParts sizes parts) :
    InBox (sizeAt sizes) (digitsOf parts) := by
  intro i
  have hi : (i : ℕ) < parts.length := by
    rw [hrange.length_eq]
    exact i.isLt
  obtain ⟨hnonneg, hlt⟩ := hrange.get hi i.isLt
  rw [List.get_eq_getElem] at hnonneg hlt
  rw [digitsOf, List.getD_eq_getElem _ _ hi, Int.toNat_lt hnonneg]
  exact hlt

theorem digitsOf_injective {parts' : List Int64} (hrange : IsParts sizes parts)
    (hrange' : IsParts sizes parts')
    (hdigits : (digitsOf parts : Fin sizes.length → ℕ) = digitsOf parts') : parts = parts' := by
  apply List.ext_getElem (hrange.length_eq.trans hrange'.length_eq.symm)
  intro i hi hi'
  have hlt : i < sizes.length := by
    rw [← hrange.length_eq]
    exact hi
  have hpart := hrange.get hi hlt
  have hpart' := hrange'.get hi' hlt
  have hdigit := congrFun hdigits ⟨i, hlt⟩
  rw [digitsOf, digitsOf, List.getD_eq_getElem _ _ hi, List.getD_eq_getElem _ _ hi'] at hdigit
  simp only [List.get_eq_getElem] at hpart hpart'
  apply Int64.toInt_inj.mp
  omega

/-- **The linearized index is the value of the parts** for the weights of the sizes. -/
theorem getIndex_eq (hsizes : HasSizes indexes sizes) (hpositive : ∀ size ∈ sizes, 1 ≤ size)
    (hparts : indexParts insertion indexes = .ok parts) :
    ∃ index, getIndex indexes insertion = .ok index ∧
      index.toUInt64.toNat = value (weightAt sizes) (2 ^ 64) (digitsOf parts) := by
  have hloop := getIndexLoop_eq hsizes hpositive hparts 1 0
  refine ⟨(UInt64.ofNat (dot (weights 1 sizes) parts)).toInt64, ?_, ?_⟩
  · rw [getIndex]
    change (getIndexLoop insertion.item insertion.itemMetadata indexes (UInt64.ofNat 1)
      (UInt64.ofNat 0) >>= _) = _
    rw [hloop, Nat.zero_mul, Nat.zero_add]
    rfl
  · have hlength := (indexParts_range hsizes hpositive hparts).length_eq
    rw [UInt64.toUInt64_toInt64, UInt64.toNat_ofNat', dot_eq_sum (weights_length 1 sizes) hlength]
    rfl

theorem indexParts_ok_of_getIndexLoop {product linearizedIndex result : UInt64}
    (hloop : getIndexLoop insertion.item insertion.itemMetadata indexes product linearizedIndex
      = .ok result) :
    ∃ parts, indexParts insertion indexes = .ok parts := by
  induction indexes generalizing product linearizedIndex with
  | nil => exact ⟨[], rfl⟩
  | cons distribution indexes ih =>
      rw [getIndexLoop, StatusOr.bind_eq_ok] at hloop
      obtain ⟨value, happly, hloop⟩ := hloop
      obtain ⟨parts, hparts⟩ := ih hloop
      exact ⟨_, indexParts_cons_eq_ok.mpr ⟨value, parts, happly, hparts, rfl⟩⟩

theorem toNat_getIndex (hsizes : HasSizes indexes sizes) (hpositive : ∀ size ∈ sizes, 1 ≤ size)
    (hparts : indexParts insertion indexes = .ok parts) {index : Int64}
    (hindex : getIndex indexes insertion = .ok index) :
    index.toUInt64.toNat = value (weightAt sizes) (2 ^ 64) (digitsOf parts) := by
  obtain ⟨index', hindex', hvalue⟩ := getIndex_eq hsizes hpositive hparts
  rw [hindex] at hindex'
  cases hindex'
  exact hvalue

theorem index_inj {index index' : Int64}
    (heq : index.toUInt64.toNat = index'.toUInt64.toNat) : index = index' := by
  rw [← index.toInt64_toUInt64, UInt64.toNat_inj.mp heq, Int64.toInt64_toUInt64]

theorem toInt_eq_of_toNat_lt {index : Int64} (hlt : index.toUInt64.toNat < 2 ^ 63) :
    index.toInt = index.toUInt64.toNat := by
  apply BitVec.toInt_eq_toNat_of_lt
  change 2 * index.toUInt64.toNat < 2 ^ 64
  omega

theorem prod_sizeAt (sizes : List ℕ) : ∏ i, sizeAt sizes i = sizes.prod :=
  Fin.prod_univ_getElem sizes

theorem numbers_iff_isPositional (hpositive : ∀ size ∈ sizes, 1 ≤ size)
    (hprod : sizes.prod < 2 ^ 63) :
    Numbers (sizeAt sizes) (weightAt sizes) (2 ^ 64) ↔ IsPositional sizes := by
  have hM : 2 * ∏ i, sizeAt sizes i ≤ 2 ^ 64 := by
    rw [prod_sizeAt]
    omega
  exact numbers_iff (fun i => hpositive _ (List.get_mem sizes i)) hM

/-! ### Linearizations are numberings -/

theorem insert_lookup_of_ne {sketch : AnySketch} {key : UInt64}
    (hne : getIndex sketch.indexes insertion ≠ .ok key.toInt64) :
    (sketch.insert insertion).2.registers.lookup key = sketch.registers.lookup key := by
  obtain ⟨registers, hstep, htable⟩ := insert_spec sketch insertion
  have hnone : KeyedMerge.tally (aggregateValues sketch.values)
      (contribution sketch.indexes sketch.values insertion).toList key = none := by
    cases hcontribution : contribution sketch.indexes sketch.values insertion with
    | none => rfl
    | some entry =>
        obtain ⟨key', newValues⟩ := entry
        have hindex := (contribution_key_iff.mp ⟨newValues, hcontribution⟩).2
        have hkey : key ≠ key' := by
          rintro rfl
          exact hne hindex
        rw [Option.toList_some, KeyedMerge.tally_cons, KeyedMerge.tally_nil,
          KeyedMerge.join_empty_right]
        exact KeyedMerge.point_of_ne hkey newValues
  have hlookup := congrFun htable key
  rw [KeyedMerge.join, hnone, Option.merge_none_right] at hlookup
  rw [hstep]
  exact hlookup

theorem linearizes_of_numbers (hsizes : HasSizes indexes sizes)
    (hpositive : ∀ size ∈ sizes, 1 ≤ size) (hprod : sizes.prod < 2 ^ 63)
    (hnumbers : Numbers (sizeAt sizes) (weightAt sizes) (2 ^ 64)) :
    Linearizes indexes sizes := by
  have heqIff : ∀ {insertion insertion' parts parts' index index'},
      indexParts insertion indexes = .ok parts → indexParts insertion' indexes = .ok parts' →
      getIndex indexes insertion = .ok index → getIndex indexes insertion' = .ok index' →
        (index = index' ↔ parts = parts') := by
    intro insertion insertion' parts parts' index index' hparts hparts' hindex hindex'
    have hvalue := toNat_getIndex hsizes hpositive hparts hindex
    have hvalue' := toNat_getIndex hsizes hpositive hparts' hindex'
    constructor
    · rintro rfl
      have hrange := indexParts_range hsizes hpositive hparts
      have hrange' := indexParts_range hsizes hpositive hparts'
      apply digitsOf_injective hrange hrange'
      apply hnumbers.injective _ _ (digitsOf_inBox hrange) (digitsOf_inBox hrange')
      exact hvalue.symm.trans hvalue'
    · rintro rfl
      exact index_inj (hvalue.trans hvalue'.symm)
  refine ⟨heqIff, ?_, ?_⟩
  · intro insertion index hindex
    obtain ⟨linearizedIndex, hloop, -⟩ := StatusOr.bind_eq_ok.mp hindex
    obtain ⟨parts, hparts⟩ := indexParts_ok_of_getIndexLoop hloop
    have hlt := hnumbers.lt_prod _ (digitsOf_inBox (indexParts_range hsizes hpositive hparts))
    rw [← toNat_getIndex hsizes hpositive hparts hindex, prod_sizeAt] at hlt
    rw [toInt_eq_of_toNat_lt (hlt.trans hprod)]
    exact ⟨Int.natCast_nonneg _, Int.ofNat_lt.mpr hlt⟩
  · intro sketch insertion insertion' parts parts' index hindexes hparts hparts' hindex hne
    apply insert_lookup_of_ne
    rw [hindexes, Int64.toInt64_toUInt64]
    intro hindex'
    exact hne ((heqIff hparts hparts' hindex hindex').mp rfl)

theorem Linearizes.numbers (hlinearizes : Linearizes indexes sizes)
    (hexhaustive : Exhaustive indexes sizes) (hsizes : HasSizes indexes sizes)
    (hpositive : ∀ size ∈ sizes, 1 ≤ size) :
    Numbers (sizeAt sizes) (weightAt sizes) (2 ^ 64) := by
  constructor
  · intro digits digits' hbox hbox' hvalue
    obtain ⟨insertion, parts, hparts, rfl⟩ := hexhaustive digits hbox
    obtain ⟨insertion', parts', hparts', rfl⟩ := hexhaustive digits' hbox'
    obtain ⟨index, hindex, hindexValue⟩ := getIndex_eq hsizes hpositive hparts
    obtain ⟨index', hindex', hindexValue'⟩ := getIndex_eq hsizes hpositive hparts'
    have heq : index = index' := by
      apply index_inj
      rw [hindexValue, hindexValue', hvalue]
    rw [(hlinearizes.getIndex_eq_iff hparts hparts' hindex hindex').mp heq]
  · intro digits hbox
    obtain ⟨insertion, parts, hparts, rfl⟩ := hexhaustive digits hbox
    obtain ⟨index, hindex, hvalue⟩ := getIndex_eq hsizes hpositive hparts
    obtain ⟨hnonneg, hlt⟩ := hlinearizes.getIndex_range hindex
    have hnat : index.toUInt64.toNat = index.toInt.toNat := by
      rw [Int64.toNat_toUInt64_of_le (Int64.le_iff_toInt_le.mpr hnonneg)]
      rfl
    rw [prod_sizeAt, ← hvalue, hnat, Int.toNat_lt hnonneg]
    exact hlt

/-- **On distributions that give every vector**, `GetIndex` is a linearization exactly when the
weights are positional. -/
theorem linearizes_iff_of_exhaustive (hexhaustive : Exhaustive indexes sizes)
    (hsizes : HasSizes indexes sizes) (hpositive : ∀ size ∈ sizes, 1 ≤ size)
    (hprod : sizes.prod < 2 ^ 63) : Linearizes indexes sizes ↔ IsPositional sizes := by
  rw [← numbers_iff_isPositional hpositive hprod]
  constructor
  · intro hlinearizes
    exact hlinearizes.numbers hexhaustive hsizes hpositive
  · exact linearizes_of_numbers hsizes hpositive hprod

end Sizes

/-! ### The oracle distributions give every vector -/

/-- One oracle distribution for each dimension, told apart by the lengths of their names. -/
def oracleIndexes : ℕ → List ℕ → List BaseDistribution
  | _, [] => []
  | k, size :: sizes =>
      getOracleDistribution (String.ofList (List.replicate k 'f')) 0 (Int64.ofNat (size - 1))
        :: oracleIndexes (k + 1) sizes

def oracleInsertion (digits : ℕ → ℕ) : Insertion where
  item := []
  itemMetadata name := some (Int64.ofNat (digits name.length))

theorem oracleIndexes_hasSizes {sizes : List ℕ} (hpositive : ∀ size ∈ sizes, 1 ≤ size)
    (hlt : ∀ size ∈ sizes, size < 2 ^ 63) (k : ℕ) : HasSizes (oracleIndexes k sizes) sizes := by
  induction sizes generalizing k with
  | nil => exact .nil
  | cons size sizes ih =>
      obtain ⟨hhead, htail⟩ := List.forall_mem_cons.mp hpositive
      obtain ⟨hheadLt, htailLt⟩ := List.forall_mem_cons.mp hlt
      refine .cons ?_ (ih htail htailLt (k + 1))
      change (Int64.ofNat (size - 1) - 0 + 1).toInt = size
      rw [Int64.toInt_add, Int64.toInt_sub, Int64.toInt_ofNat_of_lt (by omega), Int64.toInt_zero,
        Int64.toInt_one]
      simp only [Int.bmod_def]
      omega

theorem oracleIndexes_indexParts {sizes : List ℕ} (hlt : ∀ size ∈ sizes, size < 2 ^ 63)
    {digits : ℕ → ℕ} {k : ℕ} (hdigits : ∀ i (hi : i < sizes.length), digits (k + i) < sizes[i]) :
    indexParts (oracleInsertion digits) (oracleIndexes k sizes)
      = .ok ((List.range' k sizes.length).map fun i => Int64.ofNat (digits i)) := by
  induction sizes generalizing k with
  | nil => rfl
  | cons size sizes ih =>
      obtain ⟨hheadLt, htailLt⟩ := List.forall_mem_cons.mp hlt
      have hdigit : digits k < size := hdigits 0 (Nat.zero_lt_succ _)
      have happly : (getOracleDistribution (String.ofList (List.replicate k 'f')) 0
          (Int64.ofNat (size - 1))).apply (oracleInsertion digits).item
            (oracleInsertion digits).itemMetadata = .ok (Int64.ofNat (digits k)) := by
        rw [oracle_apply_eq_ok_iff]
        refine ⟨?_, ?_, ?_⟩
        · simp [oracleInsertion]
        · rw [Int64.le_iff_toInt_le, Int64.toInt_ofNat_of_lt (by omega)]
          exact Int.natCast_nonneg _
        · rw [Int64.le_iff_toInt_le, Int64.toInt_ofNat_of_lt (by omega),
            Int64.toInt_ofNat_of_lt (by omega)]
          omega
      have hrest := ih htailLt (k := k + 1) fun i hi => by
        have hnext := hdigits (i + 1) (Nat.succ_lt_succ hi)
        rwa [← Nat.add_assoc, Nat.add_right_comm] at hnext
      apply indexParts_cons_eq_ok.mpr
      refine ⟨Int64.ofNat (digits k), _, happly, hrest, ?_⟩
      change _ = (Int64.ofNat (digits k) - 0) :: _
      rw [Int64.sub_zero]
      rfl

theorem oracleIndexes_exhaustive {sizes : List ℕ} (hlt : ∀ size ∈ sizes, size < 2 ^ 63) :
    Exhaustive (oracleIndexes 0 sizes) sizes := by
  intro digits hbox
  let extended : ℕ → ℕ := fun i => if hi : i < sizes.length then digits ⟨i, hi⟩ else 0
  have hextended : ∀ i : Fin sizes.length, extended i = digits i := fun i => dif_pos i.isLt
  refine ⟨oracleInsertion extended, _, oracleIndexes_indexParts hlt fun i hi => ?_, ?_⟩
  · rw [Nat.zero_add, hextended ⟨i, hi⟩]
    exact hbox ⟨i, hi⟩
  · funext i
    have hdigit : digits i < 2 ^ 63 := (hbox i).trans (hlt _ (List.get_mem sizes i))
    have hi : (i : ℕ) < ((List.range' 0 sizes.length).map fun i =>
        Int64.ofNat (extended i)).length := by
      rw [List.length_map, List.length_range']
      exact i.isLt
    rw [digitsOf, List.getD_eq_getElem _ _ hi, List.getElem_map, List.getElem_range', Nat.zero_add,
      Nat.one_mul, hextended, Int64.toInt_ofNat_of_lt hdigit, Int.toNat_natCast]

/-! ### When `GetIndex` is a linearization -/

theorem isPositional_singleton (size : ℕ) : IsPositional [size] := by
  refine ⟨[0], List.nodup_singleton 0, fun i => ?_, Or.inr rfl, trivial⟩
  rw [List.mem_singleton]
  exact Fin.fin_one_eq_zero i

theorem order_two {order : List (Fin 2)} (hnodup : order.Nodup) (hcomplete : ∀ i, i ∈ order) :
    order = [0, 1] ∨ order = [1, 0] := by
  have hperm : order.Perm [0, 1] := by
    rw [List.perm_ext_iff_of_nodup hnodup (by decide)]
    have hall : ∀ i : Fin 2, i ∈ [0, 1] := by decide
    exact fun i => ⟨fun _ => hall i, fun _ => hcomplete i⟩
  obtain ⟨i, j, rfl⟩ := List.length_eq_two.mp hperm.length_eq
  revert i j
  decide

/-- With two dimensions, the sizes have to be equal, unless the first is 1. -/
theorem isPositional_pair {first second : ℕ} (hfirst : first < 2 ^ 64) :
    IsPositional [first, second] ↔ first = 1 ∨ first = second := by
  have hweight : weightAt [first, second] (0 : Fin 2) % 2 ^ 64 = first := by
    change 1 * first * 1 % 2 ^ 64 = first
    rw [Nat.one_mul, Nat.mul_one, Nat.mod_eq_of_lt hfirst]
  constructor
  · rintro ⟨order, hnodup, hcomplete, hradix⟩
    rcases order_two hnodup hcomplete with rfl | rfl
    · refine hradix.1.imp_right fun hposition => ?_
      rw [← hweight, hposition]
      exact Nat.mul_one second
    · refine Or.inl (hradix.2.1.elim id fun hposition => ?_)
      rw [← hweight, hposition]
      rfl
  · intro hsizes
    have hall : ∀ i : Fin 2, i ∈ [0, 1] := by decide
    refine ⟨([0, 1] : List (Fin 2)), (by decide : ([0, 1] : List (Fin 2)).Nodup), hall,
      hsizes.imp_right fun hequal => ?_, Or.inr rfl, trivial⟩
    rw [hweight, hequal]
    exact (Nat.mul_one second).symm

/-- **`GetIndex` linearizes the parts, whatever the distributions of these sizes, exactly when the
weights of the sizes are positional.** -/
theorem linearizes_iff {sizes : List ℕ} (hpositive : ∀ size ∈ sizes, 1 ≤ size)
    (hprod : sizes.prod < 2 ^ 63) :
    (∀ indexes, HasSizes indexes sizes → Linearizes indexes sizes) ↔ IsPositional sizes := by
  have hlt : ∀ size ∈ sizes, size < 2 ^ 63 := fun size hsize =>
    (Nat.le_of_dvd (List.prod_pos hpositive) (List.dvd_prod hsize)).trans_lt hprod
  constructor
  · intro hlinearizes
    have hsizes := oracleIndexes_hasSizes hpositive hlt 0
    exact (linearizes_iff_of_exhaustive (oracleIndexes_exhaustive hlt) hsizes hpositive hprod).mp
      (hlinearizes _ hsizes)
  · intro hpositional indexes hsizes
    exact linearizes_of_numbers hsizes hpositive hprod
      ((numbers_iff_isPositional hpositive hprod).mpr hpositional)

theorem linearizes_iff_two_two_four : Linearizes (oracleIndexes 0 [2, 2, 4]) [2, 2, 4] := by
  have hpositional : IsPositional [2, 2, 4] :=
    ⟨[0, 1, 2], by decide, by decide, Or.inr rfl, Or.inr rfl, Or.inr rfl, trivial⟩
  apply (linearizes_iff (by decide) (by decide)).mpr hpositional
  exact oracleIndexes_hasSizes (by decide) (by decide) 0

/-- Two dimensions with 2 and 3 values: the parts `(0, 2)` and `(1, 0)` are both linearized to 2. -/
theorem getIndex_collides :
    HasSizes (oracleIndexes 0 [2, 3]) [2, 3]
      ∧ getIndex (oracleIndexes 0 [2, 3]) (oracleInsertion fun k => if k = 0 then 0 else 2) = .ok 2
      ∧ getIndex (oracleIndexes 0 [2, 3]) (oracleInsertion fun k => if k = 0 then 1 else 0) = .ok 2
      ∧ ¬ Linearizes (oracleIndexes 0 [2, 3]) [2, 3] := by
  have hsizes : HasSizes (oracleIndexes 0 [2, 3]) [2, 3] :=
    oracleIndexes_hasSizes (by decide) (by decide) 0
  have hindex : getIndex (oracleIndexes 0 [2, 3]) (oracleInsertion fun k => if k = 0 then 0 else 2)
      = .ok 2 := by
    rfl
  have hindex' : getIndex (oracleIndexes 0 [2, 3])
      (oracleInsertion fun k => if k = 0 then 1 else 0) = .ok 2 := by
    rfl
  refine ⟨hsizes, hindex, hindex', fun hlinearizes => ?_⟩
  have hparts : indexParts (oracleInsertion fun k => if k = 0 then 0 else 2)
      (oracleIndexes 0 [2, 3]) = .ok [0, 2] := by
    rfl
  have hparts' : indexParts (oracleInsertion fun k => if k = 0 then 1 else 0)
      (oracleIndexes 0 [2, 3]) = .ok [1, 0] := by
    rfl
  have heq := (hlinearizes.getIndex_eq_iff hparts hparts' hindex hindex').mp rfl
  revert heq
  decide

end AnySketchCorrectness.AnySketch
