import AnySketchCorrectness.Proof.SecretShares
import AnySketchCorrectness.Library.Masking
import Mathlib.Algebra.Group.Fin.Basic
import Mathlib.Data.Fintype.Pi

/-!
# Secret shares hide the input

The mask and the share vector play the same part in the sum that gives the input, so each share
vector comes from exactly one mask, whatever the input. A uniform mask then makes the share vector
uniform.
-/

namespace AnySketchCorrectness

open UniformPseudorandomGenerator

variable {modulus : UInt32} {n : Nat} {input shares : List UInt32}

theorem existsUnique_mask (hinput : IsVectorBelow modulus n input)
    (hshares : IsVectorBelow modulus n shares) :
    ∃! mask, IsVectorBelow modulus n mask
      ∧ computeShareVector modulus input mask = .ok shares := by
  -- the mask is found by subtracting the share vector, as if that were the mask
  obtain ⟨mask, hmask⟩ := exists_computeShareVector hinput hshares
  have hlength : shares.length = input.length := hshares.1.trans hinput.1.symm
  refine ⟨mask, ⟨?_, computeShareVector_symm hlength hmask⟩, ?_⟩
  · have hbelow := ((computeShareVector_eq_ok_iff hlength).mp hmask).2.2.1
    rwa [hinput.1] at hbelow
  · rintro mask' ⟨hmask', hcompute⟩
    have hsymm := computeShareVector_symm (hmask'.1.trans hinput.1.symm) hcompute
    rw [hsymm, Except.ok.injEq] at hmask
    exact hmask

/-! ### Uniform masks -/

def vectorOf (modulus : UInt32) {n : Nat} (entries : Fin n → Fin modulus.toNat) : List UInt32 :=
  List.ofFn fun i => UInt32.ofNat (entries i)

theorem toNat_ofNat_entry (entry : Fin modulus.toNat) :
    (UInt32.ofNat entry).toNat = entry :=
  UInt32.toNat_ofNat_of_lt' (entry.isLt.trans modulus.toNat_lt)

theorem vectorOf_isVectorBelow (entries : Fin n → Fin modulus.toNat) :
    IsVectorBelow modulus n (vectorOf modulus entries) := by
  refine ⟨List.length_ofFn, ?_⟩
  intro entry hentry
  obtain ⟨i, rfl⟩ := List.mem_ofFn.mp hentry
  rw [UInt32.lt_iff_toNat_lt, toNat_ofNat_entry]
  exact (entries i).isLt

theorem exists_vectorOf (hinput : IsVectorBelow modulus n input) :
    ∃ entries : Fin n → Fin modulus.toNat, vectorOf modulus entries = input := by
  obtain ⟨rfl, hbelow⟩ := hinput
  refine ⟨fun i => ⟨input[i].toNat, UInt32.lt_iff_toNat_lt.mp (hbelow _ (List.getElem_mem _))⟩, ?_⟩
  simp [vectorOf]

section Group

variable [NeZero modulus.toNat]

theorem computeShareVector_vectorOf (entries mask : Fin n → Fin modulus.toNat) :
    computeShareVector modulus (vectorOf modulus entries) (vectorOf modulus mask)
      = .ok (vectorOf modulus (entries - mask)) := by
  have hentries := vectorOf_isVectorBelow entries
  have hmask := vectorOf_isVectorBelow mask
  have hshares := vectorOf_isVectorBelow (entries - mask)
  refine (computeShareVector_eq_ok_iff (hmask.1.trans hentries.1.symm)).mpr
    ⟨hentries.2, hmask.2, by rwa [hentries.1], ?_⟩
  apply List.ext_getElem
  · simp [vectorOf]
  · intro i hi _
    have hsum : mask ⟨i, by simpa [vectorOf] using hi⟩
        + (entries - mask) ⟨i, by simpa [vectorOf] using hi⟩
        = entries ⟨i, by simpa [vectorOf] using hi⟩ := by
      rw [Pi.sub_apply, add_sub_cancel]
    have hval := congrArg Fin.val hsum
    rw [Fin.val_add] at hval
    rw [List.getElem_map, List.getElem_zipWith]
    simp only [vectorOf, List.getElem_ofFn, toNat_ofNat_entry]
    exact hval.symm

end Group

/-- A vector of independent uniform entries below the modulus. -/
noncomputable def uniformMask (hmodulus : 1 < modulus) (n : Nat) : PMF (List UInt32) :=
  have : NeZero modulus.toNat :=
    ⟨Nat.ne_zero_of_lt (UInt32.lt_iff_toNat_lt.mp hmodulus)⟩
  (PMF.uniformOfFintype (Fin n → Fin modulus.toNat)).map (vectorOf modulus)

theorem map_uniformMask_eq (hmodulus : 1 < modulus) {input' : List UInt32}
    (hinput : IsVectorBelow modulus n input) (hinput' : IsVectorBelow modulus n input') :
    (uniformMask hmodulus n).map (computeShareVector modulus input)
      = (uniformMask hmodulus n).map (computeShareVector modulus input') := by
  have : NeZero modulus.toNat := ⟨Nat.ne_zero_of_lt (UInt32.lt_iff_toNat_lt.mp hmodulus)⟩
  obtain ⟨entries, rfl⟩ := exists_vectorOf hinput
  obtain ⟨entries', rfl⟩ := exists_vectorOf hinput'
  have hpublished : ∀ secret : Fin n → Fin modulus.toNat,
      (uniformMask hmodulus n).map (computeShareVector modulus (vectorOf modulus secret))
        = (PMF.uniformOfFintype (Fin n → Fin modulus.toNat)).map fun mask =>
            .ok (vectorOf modulus (secret - mask)) := by
    intro secret
    rw [uniformMask, PMF.map_comp]
    congr 1
    funext mask
    exact computeShareVector_vectorOf secret mask
  rw [hpublished entries, hpublished entries']
  exact Masking.map_masked_eq
    (fun difference => (Except.ok (vectorOf modulus difference) : StatusOr (List UInt32)))
    entries entries'

/-- **The share vector says nothing about the input.** For any two inputs, every share vector comes
from exactly one mask, every mask gives a share vector, and under uniform masks the two share
vectors have the same distribution. The mask of `GenerateSecretShares` is the vector that the seed
expands to. -/
theorem shareVector_masked (hmodulus : 1 < modulus) {input' : List UInt32}
    (hinput : IsVectorBelow modulus n input) (hinput' : IsVectorBelow modulus n input') :
    (∀ shares, IsVectorBelow modulus n shares →
      (∃! mask, IsVectorBelow modulus n mask
        ∧ computeShareVector modulus input mask = .ok shares) ∧
      ∃! mask', IsVectorBelow modulus n mask'
        ∧ computeShareVector modulus input' mask' = .ok shares) ∧
    (∀ mask, IsVectorBelow modulus n mask →
      ∃ shares, IsVectorBelow modulus n shares
        ∧ computeShareVector modulus input mask = .ok shares) ∧
    (uniformMask hmodulus n).map (computeShareVector modulus input)
      = (uniformMask hmodulus n).map (computeShareVector modulus input') ∧
    ∀ {Ctx Rng : Type} (round : ℚ → ℚ) (evp : EvpCipher Ctx) (rand : RandSource Rng) (fuel : Nat)
      (rng : Rng) (seed : PrngSeed) (mask : List UInt32), input ≠ [] →
      Expands round evp rand fuel modulus n rng seed mask →
      (evaluate (generateSecretShares round evp rand fuel ⟨modulus⟩ input) rng).map
        SecretShare.shareVector = computeShareVector modulus input mask := by
  refine ⟨?_, ?_, map_uniformMask_eq hmodulus hinput hinput', ?_⟩
  · intro shares hshares
    exact ⟨existsUnique_mask hinput hshares, existsUnique_mask hinput' hshares⟩
  · intro mask hmask
    obtain ⟨shares, hshares⟩ := exists_computeShareVector hinput hmask
    have hbelow := ((computeShareVector_eq_ok_iff (hmask.1.trans hinput.1.symm)).mp hshares).2.2.1
    rw [hinput.1] at hbelow
    exact ⟨shares, hbelow, hshares⟩
  · intro Ctx Rng round evp rand fuel rng seed mask hne hexpands
    rw [← hinput.1] at hexpands
    rw [run_generateSecretShares hmodulus hne hexpands]
    cases computeShareVector modulus input mask with
    | error e => rfl
    | ok shares => rfl

theorem shareVector_masked_pair :
    (uniformMask (show (1 : UInt32) < 251 by decide) 3).map (computeShareVector 251 [5, 250, 125])
      = (uniformMask (show (1 : UInt32) < 251 by decide) 3).map
          (computeShareVector 251 [0, 0, 0]) := by
  have hinput : IsVectorBelow 251 3 [5, 250, 125] := ⟨rfl, by simp⟩
  have hinput' : IsVectorBelow 251 3 [0, 0, 0] := ⟨rfl, by simp⟩
  exact (shareVector_masked (by decide) hinput hinput').2.2.1

end AnySketchCorrectness
