import AnySketchCorrectness.Proof.Acceptance

/-!
# The size that `Encrypt` reserves

The size is a product of three `int`s. The code multiplies modulo `2 ^ 32`, so what it gets is the
exact product as long as that fits an `int`, and cannot be otherwise.
-/

namespace AnySketchCorrectness

open StateInvariant SketchEncrypterImpl

def exactRegisterSize (sketch : Sketch) : Nat :=
  sketch.config.indexes.length + sketch.config.values.length

def exactCipherSketchBytes (sketch : Sketch) : Nat :=
  sketch.registers.length * exactRegisterSize sketch * bytesPerCipherText

/-- **What the size computation is meant to be**: no `int` overflows, so that the size is the exact
one, not negative, and the reservation does not throw. -/
structure ComputesSize (sketch : Sketch) : Prop where
  registerSize_eq : (Int32.ofNat sketch.config.indexes.length
    + Int32.ofNat sketch.config.values.length).toInt = exactRegisterSize sketch
  size_eq : (totalCipherSketchBytes sketch).toInt = exactCipherSketchBytes sketch
  size_nonneg : 0 ≤ (totalCipherSketchBytes sketch).toInt
  reserve_ok : ∀ {Rng : Type} (encrypter : SketchEncrypterImpl Rng),
    (reserve (totalCipherSketchBytes sketch).toInt64.toUInt64).run encrypter = .ok () encrypter

theorem totalCipherSketchBytes_eq_ofNat (sketch : Sketch) :
    totalCipherSketchBytes sketch = Int32.ofNat (exactCipherSketchBytes sketch) := by
  rw [totalCipherSketchBytes, exactCipherSketchBytes, exactRegisterSize, Int32.ofNat_mul,
    Int32.ofNat_mul, Int32.ofNat_add]

theorem toInt_ofNat_iff (n : Nat) : (Int32.ofNat n).toInt = n ↔ n < 2 ^ 31 := by
  constructor
  · intro heq
    have hlt := (Int32.ofNat n).toInt_lt
    rw [heq] at hlt
    exact Int.ofNat_lt.mp hlt
  · exact Int32.toInt_ofNat_of_lt

theorem reserve_ok_of_nonneg {Rng : Type} {totalBytes : Int32} (hnonneg : 0 ≤ totalBytes)
    (encrypter : SketchEncrypterImpl Rng) :
    (reserve totalBytes.toInt64.toUInt64).run encrypter = .ok () encrypter := by
  rw [reserve, if_neg (UInt64.not_lt.mpr ((toUInt64_toInt64_le_iff totalBytes).mpr hnonneg))]
  rfl

theorem reserve_throws_of_neg {Rng : Type} {totalBytes : Int32} (hneg : ¬ 0 ≤ totalBytes)
    (encrypter : SketchEncrypterImpl Rng) :
    (reserve totalBytes.toInt64.toUInt64).run encrypter = .error .lengthError encrypter := by
  rw [← toUInt64_toInt64_le_iff, UInt64.not_le] at hneg
  rw [reserve, if_pos hneg]
  rfl

/-- **The size is right exactly when it fits an `int`.** -/
theorem computesSize_iff (sketch : Sketch) :
    ComputesSize sketch
      ↔ exactRegisterSize sketch < 2 ^ 31 ∧ exactCipherSketchBytes sketch < 2 ^ 31 := by
  constructor
  · intro hcomputes
    have hregister := hcomputes.registerSize_eq
    have hsize := hcomputes.size_eq
    rw [← Int32.ofNat_add] at hregister
    rw [totalCipherSketchBytes_eq_ofNat] at hsize
    exact ⟨(toInt_ofNat_iff _).mp hregister, (toInt_ofNat_iff _).mp hsize⟩
  · rintro ⟨hregister, hsize⟩
    have hsizeEq : (totalCipherSketchBytes sketch).toInt = exactCipherSketchBytes sketch := by
      rw [totalCipherSketchBytes_eq_ofNat]
      exact (toInt_ofNat_iff _).mpr hsize
    have hnonneg : 0 ≤ (totalCipherSketchBytes sketch).toInt := by
      rw [hsizeEq]
      exact Int.natCast_nonneg _
    refine ⟨?_, hsizeEq, hnonneg, fun encrypter => reserve_ok_of_nonneg ?_ encrypter⟩
    · rw [← Int32.ofNat_add]
      exact (toInt_ofNat_iff _).mpr hregister
    · rwa [Int32.le_iff_toInt_le, Int32.toInt_zero]

/-- A negative size makes `Encrypt` throw. -/
theorem encrypt_throws_of_neg {Point Rng : Type} {ec : EcLibrary Point Rng} {sketch : Sketch}
    (hvalid : validateSketch sketch = true) (hneg : ¬ 0 ≤ totalCipherSketchBytes sketch)
    (destroyedRegisterStrategy : DestroyedRegisterStrategy)
    (encrypter : SketchEncrypterImpl Rng) :
    (encrypt ec sketch destroyedRegisterStrategy).run encrypter
      = .error .lengthError encrypter := by
  have hreserve := reserve_throws_of_neg hneg encrypter
  unfold encrypt
  rw [hvalid]
  change (reserve (totalCipherSketchBytes sketch).toInt64.toUInt64 >>= _ :
    EncrypterM Rng ByteString).run encrypter = _
  rw [EStateM.run_bind, hreserve]

theorem countSketch_totalCipherSketchBytes (numRegisters : Nat) :
    totalCipherSketchBytes (countSketch numRegisters)
      = Int32.ofNat numRegisters * Int32.ofNat 2 * Int32.ofNat 66 := by
  rw [totalCipherSketchBytes, countSketch, List.length_replicate]
  rfl

theorem countSketch_exactCipherSketchBytes (numRegisters : Nat) :
    exactCipherSketchBytes (countSketch numRegisters) = numRegisters * 2 * 66 := by
  rw [exactCipherSketchBytes, countSketch, List.length_replicate]
  rfl

theorem countSketch_size_neg :
    (totalCipherSketchBytes (countSketch 16269000)).toInt = -2147459296 := by
  rw [countSketch_totalCipherSketchBytes]
  decide

/-- A valid sketch with 16269000 registers: the size is negative, and `Encrypt` throws. -/
theorem not_computesSize_countSketch :
    validateSketch (countSketch 16269000) = true ∧
    (totalCipherSketchBytes (countSketch 16269000)).toInt = -2147459296 ∧
    exactCipherSketchBytes (countSketch 16269000) = 2147508000 ∧
    (encrypt sampleEc (countSketch 16269000) .flaggedKey).run (createWithPublicKey 0 5)
      = .error .lengthError (createWithPublicKey 0 5) ∧
    ¬ ComputesSize (countSketch 16269000) := by
  have hvalid : validateSketch (countSketch 16269000) = true :=
    validateSketch_iff.mpr (countSketch_acceptable 16269000).values_length
  have hneg : ¬ 0 ≤ totalCipherSketchBytes (countSketch 16269000) := by
    rw [Int32.le_iff_toInt_le, countSketch_size_neg]
    decide
  refine ⟨hvalid, countSketch_size_neg, countSketch_exactCipherSketchBytes 16269000,
    encrypt_throws_of_neg hvalid hneg .flaggedKey _, fun hcomputes => ?_⟩
  have hnonneg := hcomputes.size_nonneg
  rw [countSketch_size_neg] at hnonneg
  exact absurd hnonneg (by decide)

end AnySketchCorrectness
