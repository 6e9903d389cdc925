import AnySketchCorrectness.Proof.Linearization

/-!
# When registers do not collide

`GetIndex` computes a code with a running product. As long as the numbers fit 64 bits, different
vectors of index parts get different indexes exactly when the code is unique, which is a condition
on the sizes in the order in which the dimensions are listed.
-/

namespace AnySketchCorrectness.AnySketch

open RunningProduct

section Sizes

variable {indexes : List BaseDistribution} {sizes : List ℕ} (hsizes : HasSizes indexes sizes)
include hsizes

omit hsizes in
theorem isDigits_of_isParts {parts : List Int64} (hparts : IsParts sizes parts) :
    IsDigits sizes (parts.map fun part => part.toInt.toNat) := by
  rw [IsDigits, List.forall₂_map_left_iff]
  refine hparts.imp fun part size hpart => ?_
  rw [Int.toNat_lt hpart.1]
  exact hpart.2

omit hsizes in
theorem isParts_inj {parts parts' : List Int64} (hparts : IsParts sizes parts)
    (hparts' : IsParts sizes parts')
    (heq : parts.map (fun part => part.toInt.toNat) = parts'.map fun part => part.toInt.toNat) :
    parts = parts' := by
  induction hparts generalizing parts' with
  | nil =>
      cases hparts'
      rfl
  | @cons part _ _ _ hpart _ ih =>
      cases hparts' with
      | @cons part' _ _ _ hpart' hparts' =>
          obtain ⟨hhead, htail⟩ := List.cons.inj heq
          have hnat : part.toInt.toNat = part'.toInt.toNat := hhead
          have hsame : part = part' := Int64.toInt_inj.mp (by omega)
          rw [ih hparts' htail, hsame]

/-- Every vector of digits is one of index parts. -/
theorem exists_parts {digits : List ℕ} (hdigits : IsDigits sizes digits) :
    ∃ parts, IsParts sizes parts ∧ parts.map (fun part => part.toInt.toNat) = digits := by
  induction hsizes generalizing digits with
  | nil =>
      cases hdigits
      exact ⟨[], .nil, rfl⟩
  | @cons distribution size indexes sizes hsize hsizes ih =>
      cases hdigits with
      | @cons digit _ digits _ hdigit hdigits =>
          obtain ⟨parts, hparts, hmap⟩ := ih hdigits
          have hbound := distribution.size.toInt_lt
          have htoInt : (Int64.ofNat digit).toInt = digit := Int64.toInt_ofNat_of_lt (by omega)
          refine ⟨Int64.ofNat digit :: parts, .cons ?_ hparts, ?_⟩
          · rw [htoInt]
            omega
          · rw [List.map_cons, hmap, htoInt, Int.toNat_natCast]

section Fits

variable (hfits : ∀ digits, IsDigits sizes digits → encode 1 0 sizes digits ≤ 2 ^ 64 - 1)
include hfits

theorem toNat_linearize {parts : List Int64} (hparts : IsParts sizes parts) :
    (linearize indexes parts).toUInt64.toNat
      = encode 1 0 sizes (parts.map fun part => part.toInt.toNat) := by
  have hloop := linearizeLoop_eq hsizes hparts 1 0
  have hbound := hfits _ (isDigits_of_isParts hparts)
  rw [linearize, UInt64.toUInt64_toInt64]
  change (linearizeLoop indexes parts (UInt64.ofNat 1) (UInt64.ofNat 0)).toNat = _
  rw [hloop, UInt64.toNat_ofNat_of_lt']
  exact Nat.lt_of_le_pred (by decide) hbound

theorem linearize_separates_iff_uniquelyDecodable :
    (∀ parts parts', IsParts sizes parts → IsParts sizes parts' → parts ≠ parts' →
        linearize indexes parts ≠ linearize indexes parts') ↔ UniquelyDecodable sizes := by
  constructor
  · intro hseparates digits digits' hdigits hdigits' heq
    obtain ⟨parts, hparts, rfl⟩ := exists_parts hsizes hdigits
    obtain ⟨parts', hparts', rfl⟩ := exists_parts hsizes hdigits'
    have hindex : linearize indexes parts = linearize indexes parts' := by
      apply index_inj
      rw [toNat_linearize hsizes hfits hparts, toNat_linearize hsizes hfits hparts', heq]
    by_contra hne
    exact hseparates parts parts' hparts hparts' (fun hsame => hne (by rw [hsame])) hindex
  · intro hunique parts parts' hparts hparts' hne hindex
    apply hne
    apply isParts_inj hparts hparts'
    apply hunique _ _ (isDigits_of_isParts hparts) (isDigits_of_isParts hparts')
    rw [← toNat_linearize hsizes hfits hparts, ← toNat_linearize hsizes hfits hparts', hindex]

/-- **Exactly when registers never collide.** If no number exceeds 64 bits, different vectors of
index parts get different linearized indexes if and only if no size is larger than the product of
the sizes listed before it. -/
theorem linearize_separates_iff (htwo : ∀ size ∈ sizes, 2 ≤ size) :
    ((∀ parts parts', IsParts sizes parts → IsParts sizes parts' → parts ≠ parts' →
        linearize indexes parts ≠ linearize indexes parts')
      ↔ ∀ k, 1 ≤ k → ∀ hk : k < sizes.length, sizes[k] ≤ (sizes.take k).prod) ∧
    ∀ insertion parts, indexParts insertion indexes = .ok parts →
      IsParts sizes parts ∧ getIndex indexes insertion = .ok (linearize indexes parts) := by
  constructor
  · rw [linearize_separates_iff_uniquelyDecodable hsizes hfits]
    exact uniquelyDecodable_iff htwo
  · intro insertion parts hparts
    have hpositive : ∀ size ∈ sizes, 1 ≤ size := fun size hsize =>
      one_le_two.trans (htwo size hsize)
    exact ⟨indexParts_range hsizes hpositive hparts, getIndex_eq_linearize hparts⟩

end Fits

end Sizes

/-- Sizes 2, 2 and 4: the third is the product of the first two. -/
theorem linearize_separates_iff_two_two_four :
    linearize (oracleIndexes 0 [2, 2, 4]) [0, 1, 3]
      ≠ linearize (oracleIndexes 0 [2, 2, 4]) [1, 0, 3] := by
  have hsizes : HasSizes (oracleIndexes 0 [2, 2, 4]) [2, 2, 4] :=
    oracleIndexes_hasSizes (by decide) (by decide) 0
  have hfits : ∀ digits, IsDigits [2, 2, 4] digits → encode 1 0 [2, 2, 4] digits ≤ 2 ^ 64 - 1 := by
    rintro digits (_ | ⟨h₁, _ | ⟨h₂, _ | ⟨h₃, _ | _⟩⟩⟩)
    simp only [encode]
    omega
  have hcondition : ∀ k, 1 ≤ k → ∀ hk : k < [2, 2, 4].length,
      [2, 2, 4][k] ≤ ([2, 2, 4].take k).prod := by
    intro k hone hk
    have hlt : k < 3 := hk
    obtain rfl | rfl : k = 1 ∨ k = 2 := by omega
    · exact (by decide : 2 ≤ 2 * 1)
    · exact (by decide : 4 ≤ 2 * (2 * 1))
  exact (linearize_separates_iff hsizes hfits (by decide)).1.mpr hcondition [0, 1, 3] [1, 0, 3]
    (by decide) (by decide) (by decide)

end AnySketchCorrectness.AnySketch
