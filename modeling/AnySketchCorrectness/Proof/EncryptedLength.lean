import AnySketchCorrectness.Proof.Acceptance
import AnySketchCorrectness.Proof.RegisterWords

/-!
# The length of an encrypted sketch

A receiver splits an encrypted sketch into registers by length alone, so every register has to take
up the same number of words. Whether a word is one depends only on what is encrypted being a
compressed point, and so does not depend on which point a cache holds.
-/

namespace AnySketchCorrectness

open StateInvariant SketchEncrypterImpl

variable {Point Rng : Type} {ec : EcLibrary Point Rng} {H : String → Point}
  {decrypt : ByteString → ByteString → Point} {maxCounterValue : UInt64}

/-! ### What the caches hold -/

theorem isCompressed_insertECPointForInteger (n : UInt64) :
    Keeps (CachesPoints ec maxCounterValue) (insertECPointForInteger ec n) (IsCompressed ec) := by
  refine keeps_bind (keeps_ofExcept fun ecPoint hcompute =>
    computeECPointForInteger_isCompressed hcompute) fun ecPoint hecPoint => ?_
  exact keeps_bind (keeps_modify fun encrypter hcaches => hcaches.insert hecPoint)
    fun _ _ => keeps_pure hecPoint

/-- Also for the largest `size_t`, for which the cap is 0. -/
theorem isCompressed_getECPointForInteger (n : UInt64) :
    Keeps (CachesPoints ec maxCounterValue) (getECPointForInteger ec n) (IsCompressed ec) := by
  refine keeps_bind keeps_get fun encrypter hcaches => ?_
  cases hlookup : encrypter.integerToEcPointMap.lookup n with
  | some ecPoint => exact keeps_pure (hcaches.integerToEcPointMap n ecPoint hlookup)
  | none =>
      simp only
      split
      · cases hcapped : encrypter.integerToEcPointMap.lookup (encrypter.maxCounterValue + 1) with
        | some ecPoint => exact keeps_pure (hcaches.integerToEcPointMap _ ecPoint hcapped)
        | none => exact isCompressed_insertECPointForInteger _
      · exact isCompressed_insertECPointForInteger n

/-! ### Counting words -/

/-- The string grew by `count` words. -/
def Grows (encryptedSketch : ByteString) (count : Nat) (encryptedSketch' : ByteString) : Prop :=
  encryptedSketch'.length = encryptedSketch.length + bytesPerCipherText * count

theorem Grows.trans {encryptedSketch encryptedSketch' encryptedSketch'' : ByteString}
    {count count' : Nat} (hgrows : Grows encryptedSketch count encryptedSketch')
    (hgrows' : Grows encryptedSketch' count' encryptedSketch'') :
    Grows encryptedSketch (count + count') encryptedSketch'' := by
  rw [Grows] at hgrows hgrows' ⊢
  rw [hgrows', hgrows, Nat.mul_add, Nat.add_assoc]

theorem Appends.grows {encryptedSketch encryptedSketch' : ByteString} {points : List Point}
    (happends : Appends decrypt encryptedSketch points encryptedSketch') :
    Grows encryptedSketch points.length encryptedSketch' := by
  obtain ⟨words, rfl, hencodes⟩ := happends
  rw [Grows, List.length_append, hencodes.length_eq]

variable [AddCommGroup Point]

theorem appendsWords_grows (hec : ec.Correct H decrypt) :
    AppendsWords ec (CachesPoints ec maxCounterValue) (IsCompressed ec) Grows where
  refl _ := rfl
  trans hgrows hgrows' := hgrows.trans hgrows'
  word encryptedSketch hecPoint := by
    obtain ⟨P, hpoint⟩ := hecPoint
    exact (appends_encryptAdditionalECPoint hec (fun _ rng hcaches => hcaches.setRng rng) hpoint
      encryptedSketch).mono fun _ happends => happends.grows
  mapped hmap := mapToCurve_isCompressed hmap
  counter := isCompressed_getECPointForInteger
  key := admits_getDestroyedRegisterKeyEc.keeps

/-- A receiver that knows the number of columns can split the string. -/
theorem dvd_length_encrypt (hec : ec.Correct H decrypt) (sketch : Sketch)
    (destroyedRegisterStrategy : DestroyedRegisterStrategy) :
    Keeps (CachesPoints ec maxCounterValue) (encrypt ec sketch destroyedRegisterStrategy)
      fun encryptedSketch =>
        bytesPerCipherText * (1 + sketch.config.values.length) ∣ encryptedSketch.length := by
  refine ((appendsWords_grows hec).sketch sketch destroyedRegisterStrategy).mono ?_
  rintro encryptedSketch ⟨registers, hgrows⟩
  rw [Grows, List.length_nil, Nat.zero_add, ← Nat.mul_assoc] at hgrows
  rw [hgrows]
  exact Nat.dvd_mul_right _ _

end AnySketchCorrectness
