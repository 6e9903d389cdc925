import AnySketchCorrectness.Proof.Destroyed
import AnySketchCorrectness.Library.StateInvariant
import Mathlib.Algebra.Module.ZMod

/-!
# An encrypted sketch decrypts to the points of its registers

The two caches carry points from one register to the next and from one call to the next. What holds
them together is that a cached string is always the compressed point it is cached for. Every part of
the encrypter keeps that, whether it succeeds or fails, and appends the words it is meant to append.
-/

namespace AnySketchCorrectness

open StateInvariant SketchEncrypterImpl

variable {Point Rng : Type} {ec : EcLibrary Point Rng} {H : String → Point}
  {decrypt : ByteString → ByteString → Point} {maxCounterValue : UInt64}

/-! ### Words -/

/-- The bytes written so far are whole words, and decrypt to `points`. -/
def Encodes (decrypt : ByteString → ByteString → Point) (encryptedSketch : ByteString)
    (points : List Point) : Prop :=
  bytesPerCipherText ∣ encryptedSketch.length ∧ decryptWords decrypt encryptedSketch = points

theorem encodes_nil : Encodes decrypt [] [] :=
  ⟨dvd_zero _, rfl⟩

theorem encodes_word {u e : ByteString} {P : Point} (hu : u.length = bytesPerEcPoint)
    (he : e.length = bytesPerEcPoint) (hdecrypt : decrypt u e = P) :
    Encodes decrypt (u ++ e) [P] := by
  have hlength : (u ++ e).length = bytesPerCipherText := by
    rw [List.length_append, hu, he]
    rfl
  refine ⟨?_, ?_⟩
  · rw [hlength]
  · rw [decryptWords, FixedWidth.records_self (by decide) hlength, List.map_singleton, ← hu,
      List.take_left, List.drop_left, hdecrypt]

theorem Encodes.append {words words' : ByteString} {points points' : List Point}
    (hencodes : Encodes decrypt words points) (hencodes' : Encodes decrypt words' points') :
    Encodes decrypt (words ++ words') (points ++ points') := by
  obtain ⟨hwhole, hwords⟩ := hencodes
  obtain ⟨hwhole', hwords'⟩ := hencodes'
  refine ⟨?_, ?_⟩
  · rw [List.length_append]
    exact Nat.dvd_add hwhole hwhole'
  · rw [← hwords, ← hwords', decryptWords, decryptWords, decryptWords,
      FixedWidth.records_append hwhole, List.map_append]

theorem Encodes.length_eq {words : ByteString} {points : List Point}
    (hencodes : Encodes decrypt words points) :
    words.length = bytesPerCipherText * points.length := by
  obtain ⟨hwhole, hwords⟩ := hencodes
  rw [← hwords, decryptWords, List.length_map, FixedWidth.records, List.length_map,
    List.length_range, Nat.mul_div_cancel' hwhole]

/-- What was added to the string is whole words that decrypt to `points`. -/
def Appends (decrypt : ByteString → ByteString → Point) (encryptedSketch : ByteString)
    (points : List Point) (encryptedSketch' : ByteString) : Prop :=
  ∃ words, encryptedSketch' = encryptedSketch ++ words ∧ Encodes decrypt words points

theorem appends_nil (encryptedSketch : ByteString) :
    Appends decrypt encryptedSketch [] encryptedSketch :=
  ⟨[], (List.append_nil encryptedSketch).symm, encodes_nil⟩

theorem Appends.encodes {encryptedSketch encryptedSketch' : ByteString}
    {points points' : List Point}
    (happends : Appends decrypt encryptedSketch points' encryptedSketch')
    (hencodes : Encodes decrypt encryptedSketch points) :
    Encodes decrypt encryptedSketch' (points ++ points') := by
  obtain ⟨words, rfl, hwords⟩ := happends
  exact hencodes.append hwords

theorem Appends.trans {encryptedSketch encryptedSketch' encryptedSketch'' : ByteString}
    {points points' : List Point}
    (happends : Appends decrypt encryptedSketch points encryptedSketch')
    (happends' : Appends decrypt encryptedSketch' points' encryptedSketch'') :
    Appends decrypt encryptedSketch (points ++ points') encryptedSketch'' := by
  obtain ⟨words, rfl, hencodes⟩ := happends
  obtain ⟨words', rfl, hencodes'⟩ := happends'
  exact ⟨words ++ words', List.append_assoc _ _ _, hencodes.append hencodes'⟩

/-! ### Encrypting points -/

section AnyInvariant

variable {I : SketchEncrypterImpl Rng → Prop}
  (hrng : ∀ encrypter rng, I encrypter → I { encrypter with rng })
include hrng

theorem keeps_encryptAdditionalECPoint (ecPoint encryptedSketch : ByteString) :
    Keeps I (encryptAdditionalECPoint ec ecPoint encryptedSketch)
      fun encryptedSketch' => ∃ rng u e rng', ec.encrypt rng ecPoint = (.ok (u, e), rng')
        ∧ encryptedSketch' = encryptedSketch ++ u ++ e := by
  refine keeps_bind keeps_get fun encrypter hvalid => ?_
  cases hencrypt : ec.encrypt encrypter.rng ecPoint with
  | mk result rng' =>
      refine keeps_bind (keeps_set (hrng _ rng' hvalid)) fun _ _ => ?_
      refine keeps_bind (keeps_ofExcept fun ciphertext hresult => ?_) fun ciphertext hpost =>
        keeps_pure hpost
      rw [hresult] at hencrypt
      exact ⟨encrypter.rng, ciphertext.1, ciphertext.2, rng', hencrypt, rfl⟩

theorem keeps_encryptRepeatedECPoint (ecPoint encryptedSketch : ByteString) (count : Nat) :
    Keeps I
      (encryptRepeatedECPoint ec ecPoint count encryptedSketch) fun _ => True :=
  keeps_foldlM (A := fun _ _ => True)
    (fun _ ecPoint encryptedSketch _ =>
      (keeps_encryptAdditionalECPoint hrng ecPoint encryptedSketch).mono fun _ _ => trivial)
    _ [] encryptedSketch trivial

omit hrng in
theorem keeps_reserve (newCapacity : UInt64) :
    Keeps I (reserve newCapacity) fun _ => True := by
  unfold reserve
  split
  · exact keeps_throw _
  · exact keeps_pure trivial

theorem keeps_appendNoiseRegister (ecPoint : ByteString) (valueCount : Nat)
    (encryptedSketch : ByteString) :
    Keeps I
      (appendNoiseRegister ec ecPoint valueCount encryptedSketch) fun _ => True := by
  refine keeps_bind (keeps_encryptAdditionalECPoint hrng ecPoint encryptedSketch)
    fun encryptedSketch' _ => ?_
  refine keeps_bind keeps_get fun encrypter hvalid => ?_
  refine keeps_bind (keeps_set (hrng _ _ hvalid)) fun _ _ => ?_
  exact keeps_bind (Q := fun _ => True) (keeps_ofExcept fun _ _ => trivial) fun ecPoint _ =>
    keeps_encryptRepeatedECPoint hrng ecPoint encryptedSketch' valueCount

theorem keeps_appendNoiseRegisters (generateNoiseComponent : Rng → StatusOr Int64 × Rng)
    (valueCount : Int32) (encryptedSketch : ByteString) :
    Keeps I
      (appendNoiseRegisters ec generateNoiseComponent valueCount encryptedSketch)
      fun _ => True := by
  unfold appendNoiseRegisters
  split
  · exact keeps_bind (Q := fun _ => False) (keeps_throw _) fun _ hfalse => hfalse.elim
  · refine keeps_bind keeps_get fun encrypter hvalid => ?_
    refine keeps_bind (keeps_set (hrng _ _ hvalid)) fun _ _ => ?_
    refine keeps_bind (Q := fun _ => True) (keeps_ofExcept fun _ _ => trivial)
      fun noiseCount _ => ?_
    split
    · exact keeps_pure trivial
    · refine keeps_bind (Q := fun _ => True) (keeps_ofExcept fun _ _ => trivial)
        fun idEc _ => ?_
      refine keeps_bind (keeps_reserve _) fun _ _ => ?_
      exact keeps_foldlM (A := fun _ _ => True)
        (fun _ ecPoint encryptedSketch _ =>
          keeps_appendNoiseRegister hrng ecPoint valueCount.toNatClampNeg encryptedSketch)
        _ [] encryptedSketch trivial

/-- What holds of a new encrypter, whatever randomness it has, and survives `Encrypt` holds of every
encrypter. -/
theorem SketchEncrypterImpl.Reachable.invariant
    (hcreate : ∀ rng, I (createWithPublicKey rng maxCounterValue))
    (hencrypt : ∀ sketch destroyedRegisterStrategy encrypter, I encrypter →
      I (finalState ((SketchEncrypterImpl.encrypt ec sketch destroyedRegisterStrategy).run
        encrypter)))
    {encrypter : SketchEncrypterImpl Rng} (hreachable : Reachable ec maxCounterValue encrypter) :
    I encrypter := by
  induction hreachable with
  | create rng => exact hcreate rng
  | encrypt sketch strategy _ hrun ih =>
      have hfinal := hencrypt sketch strategy _ ih
      rwa [hrun] at hfinal
  | encryptFailed sketch strategy _ hrun ih =>
      have hfinal := hencrypt sketch strategy _ ih
      rwa [hrun] at hfinal
  | appendNoise noise valueCount encryptedSketch _ hrun ih =>
      have hkeeps : Keeps I (appendNoiseRegisters ec noise valueCount encryptedSketch) _ :=
        keeps_appendNoiseRegisters hrng noise valueCount encryptedSketch
      have hfinal := hkeeps.finalState ih
      rwa [hrun] at hfinal
  | appendNoiseFailed noise valueCount encryptedSketch _ hrun ih =>
      have hkeeps : Keeps I (appendNoiseRegisters ec noise valueCount encryptedSketch) _ :=
        keeps_appendNoiseRegisters hrng noise valueCount encryptedSketch
      have hfinal := hkeeps.finalState ih
      rwa [hrun] at hfinal

end AnyInvariant

/-! ### The caches -/

variable [AddCommGroup Point]

/-- The caches hold the points they are meant to hold. -/
structure CacheValid (ec : EcLibrary Point Rng) (H : String → Point) (maxCounterValue : UInt64)
    (encrypter : SketchEncrypterImpl Rng) : Prop where
  maxCounterValue_eq : encrypter.maxCounterValue = maxCounterValue
  integerToEcPointMap : ∀ n ecPoint, encrypter.integerToEcPointMap.lookup n = some ecPoint →
    ec.toBytesCompressed (counterPoint H maxCounterValue n.toNat) = .ok ecPoint
  destroyedRegisterKeyEc : encrypter.destroyedRegisterKeyEc ≠ [] →
    ec.toBytesCompressed (H destroyedRegisterKey) = .ok encrypter.destroyedRegisterKeyEc

theorem CacheValid.create (rng : Rng) :
    CacheValid ec H maxCounterValue (createWithPublicKey rng maxCounterValue) where
  maxCounterValue_eq := rfl
  integerToEcPointMap n ecPoint hlookup := by simp [createWithPublicKey] at hlookup
  destroyedRegisterKeyEc hne := absurd rfl hne

theorem CacheValid.setRng {encrypter : SketchEncrypterImpl Rng}
    (hvalid : CacheValid ec H maxCounterValue encrypter) (rng : Rng) :
    CacheValid ec H maxCounterValue { encrypter with rng } where
  maxCounterValue_eq := hvalid.maxCounterValue_eq
  integerToEcPointMap := hvalid.integerToEcPointMap
  destroyedRegisterKeyEc := hvalid.destroyedRegisterKeyEc

theorem CacheValid.insert {encrypter : SketchEncrypterImpl Rng} {n : UInt64} {ecPoint : ByteString}
    (hvalid : CacheValid ec H maxCounterValue encrypter)
    (hecPoint : ec.toBytesCompressed (counterPoint H maxCounterValue n.toNat) = .ok ecPoint) :
    CacheValid ec H maxCounterValue { encrypter with
      integerToEcPointMap := encrypter.integerToEcPointMap.insert n ecPoint } where
  maxCounterValue_eq := hvalid.maxCounterValue_eq
  integerToEcPointMap m cached hlookup := by
    by_cases heq : m = n
    · subst heq
      rw [AList.lookup_insert, Option.some.injEq] at hlookup
      rw [← hlookup]
      exact hecPoint
    · rw [AList.lookup_insert_ne heq] at hlookup
      exact hvalid.integerToEcPointMap m cached hlookup
  destroyedRegisterKeyEc := hvalid.destroyedRegisterKeyEc

theorem CacheValid.setDestroyedRegisterKeyEc {encrypter : SketchEncrypterImpl Rng}
    {ecPoint : ByteString} (hvalid : CacheValid ec H maxCounterValue encrypter)
    (hecPoint : ec.toBytesCompressed (H destroyedRegisterKey) = .ok ecPoint) :
    CacheValid ec H maxCounterValue { encrypter with destroyedRegisterKeyEc := ecPoint } where
  maxCounterValue_eq := hvalid.maxCounterValue_eq
  integerToEcPointMap := hvalid.integerToEcPointMap
  destroyedRegisterKeyEc _ := hecPoint

/-! ### Points from strings and from counters -/

section Points

variable (hec : ec.Correct H decrypt)
include hec

theorem mapToCurve_ok {plaintext : String} {ecPoint : ByteString}
    (hmap : mapToCurve ec plaintext = .ok ecPoint) :
    ec.toBytesCompressed (H plaintext) = .ok ecPoint := by
  obtain ⟨P, hhash, hbytes⟩ := StatusOr.bind_eq_ok.mp hmap
  rw [← hec.hashToCurve_eq hhash]
  exact hbytes

theorem mapIntegerToCurve_ok {plaintext : Int64} {ecPoint : ByteString}
    (hmap : mapIntegerToCurve ec plaintext = .ok ecPoint) :
    ec.toBytesCompressed (integerPoint H plaintext) = .ok ecPoint :=
  mapToCurve_ok hec hmap

theorem computeECPointForInteger_ok {n : UInt64} {ecPoint : ByteString}
    (hcompute : computeECPointForInteger ec n = .ok ecPoint) :
    ec.toBytesCompressed (n.toNat • H unitECPointSeed) = .ok ecPoint := by
  unfold computeECPointForInteger at hcompute
  split at hcompute
  · cases hcompute
  · split at hcompute
    · rename_i hone
      have hpoint := mapToCurve_ok hec hcompute
      rw [hone, UInt64.toNat_one, one_nsmul]
      exact hpoint
    · obtain ⟨ec1, hhash, hrest⟩ := StatusOr.bind_eq_ok.mp hcompute
      obtain ⟨ecN, hmul, hbytes⟩ := StatusOr.bind_eq_ok.mp hrest
      rw [← hec.hashToCurve_eq hhash, ← hec.mul_eq hmul]
      exact hbytes

theorem keeps_insertECPointForInteger {n : UInt64} (hcap : n.toNat ≤ maxCounterValue.toNat + 1) :
    Keeps (CacheValid ec H maxCounterValue) (insertECPointForInteger ec n) fun ecPoint =>
      ec.toBytesCompressed (counterPoint H maxCounterValue n.toNat) = .ok ecPoint := by
  refine keeps_bind (keeps_ofExcept (Q := fun ecPoint =>
    ec.toBytesCompressed (counterPoint H maxCounterValue n.toNat) = .ok ecPoint) ?_)
    fun ecPoint hecPoint => ?_
  · intro ecPoint hcompute
    rw [counterPoint, Nat.min_eq_left hcap]
    exact computeECPointForInteger_ok hec hcompute
  · exact keeps_bind (keeps_modify fun encrypter hvalid => hvalid.insert hecPoint)
      fun _ _ => keeps_pure hecPoint

/-- Whether it comes from the cache or is computed, and whether it is capped or not, the string is
the point of the counter. -/
theorem keeps_getECPointForInteger (hmax : maxCounterValue.toNat < 2 ^ 64 - 1) (n : UInt64) :
    Keeps (CacheValid ec H maxCounterValue) (getECPointForInteger ec n) fun ecPoint =>
      ec.toBytesCompressed (counterPoint H maxCounterValue n.toNat) = .ok ecPoint := by
  refine keeps_bind keeps_get fun encrypter hvalid => ?_
  have hcapped : (encrypter.maxCounterValue + 1).toNat = maxCounterValue.toNat + 1 := by
    rw [hvalid.maxCounterValue_eq, UInt64.toNat_add, UInt64.toNat_one]
    exact Nat.mod_eq_of_lt (by omega)
  cases hlookup : encrypter.integerToEcPointMap.lookup n with
  | some ecPoint => exact keeps_pure (hvalid.integerToEcPointMap n ecPoint hlookup)
  | none =>
      simp only
      split
      · rename_i hlt
        rw [UInt64.lt_iff_toNat_lt, hcapped] at hlt
        have hsame : counterPoint H maxCounterValue n.toNat
            = counterPoint H maxCounterValue (encrypter.maxCounterValue + 1).toNat := by
          rw [counterPoint, counterPoint, hcapped, Nat.min_eq_right hlt.le, Nat.min_self]
        rw [hsame]
        cases hlookupCapped :
            encrypter.integerToEcPointMap.lookup (encrypter.maxCounterValue + 1) with
        | some ecPoint => exact keeps_pure (hvalid.integerToEcPointMap _ ecPoint hlookupCapped)
        | none => exact keeps_insertECPointForInteger hec hcapped.le
      · rename_i hnotLt
        rw [UInt64.lt_iff_toNat_lt, hcapped] at hnotLt
        exact keeps_insertECPointForInteger hec (by omega)

theorem keeps_getDestroyedRegisterKeyEc :
    Keeps (CacheValid ec H maxCounterValue) (getDestroyedRegisterKeyEc ec) fun ecPoint =>
      ec.toBytesCompressed (H destroyedRegisterKey) = .ok ecPoint := by
  refine keeps_bind keeps_get fun encrypter hvalid => ?_
  split
  · exact keeps_bind (keeps_ofExcept fun ecPoint hmap => mapToCurve_ok hec hmap)
      fun ecPoint hecPoint =>
        keeps_bind (keeps_modify fun encrypter hvalid => hvalid.setDestroyedRegisterKeyEc hecPoint)
          fun _ _ => keeps_pure hecPoint
  · rename_i hne
    rw [List.isEmpty_iff] at hne
    exact keeps_pure (hvalid.destroyedRegisterKeyEc hne)

end Points

section Words

variable (hec : ec.Correct H decrypt) {encryptedSketch : ByteString} {points : List Point}
include hec

section AnyInvariant

variable {I : SketchEncrypterImpl Rng → Prop}
  (hrng : ∀ encrypter rng, I encrypter → I { encrypter with rng })
include hrng

theorem appends_encryptAdditionalECPoint {P : Point} {ecPoint : ByteString}
    (hpoint : ec.toBytesCompressed P = .ok ecPoint) (encryptedSketch : ByteString) :
    Keeps I (encryptAdditionalECPoint ec ecPoint encryptedSketch)
      (Appends decrypt encryptedSketch [P]) := by
  refine (keeps_encryptAdditionalECPoint hrng ecPoint encryptedSketch).mono ?_
  rintro _ ⟨rng, u, e, rng', hencrypt, rfl⟩
  obtain ⟨hu, he, hdecrypt⟩ := hec.encrypt_eq hpoint hencrypt
  exact ⟨u ++ e, List.append_assoc _ _ _, encodes_word hu he hdecrypt⟩

theorem appends_encryptRepeatedECPoint {P : Point} {ecPoint : ByteString}
    (hpoint : ec.toBytesCompressed P = .ok ecPoint) (count : Nat) (encryptedSketch : ByteString) :
    Keeps I (encryptRepeatedECPoint ec ecPoint count encryptedSketch)
      (Appends decrypt encryptedSketch (List.replicate count P)) := by
  induction count generalizing encryptedSketch with
  | zero => exact keeps_pure (appends_nil encryptedSketch)
  | succ count ih =>
      rw [encryptRepeatedECPoint, List.replicate_succ, List.foldlM_cons, List.replicate_succ]
      exact keeps_bind (appends_encryptAdditionalECPoint hec hrng hpoint encryptedSketch)
        fun encryptedSketch' hword =>
          (ih encryptedSketch').mono fun encryptedSketch'' hwords => hword.trans hwords

end AnyInvariant

theorem encodes_encryptAdditionalECPoint {P : Point} {ecPoint : ByteString}
    (hpoint : ec.toBytesCompressed P = .ok ecPoint)
    (hencodes : Encodes decrypt encryptedSketch points) :
    Keeps (CacheValid ec H maxCounterValue) (encryptAdditionalECPoint ec ecPoint encryptedSketch)
      fun encryptedSketch' => Encodes decrypt encryptedSketch' (points ++ [P]) :=
  (appends_encryptAdditionalECPoint hec (fun _ rng hvalid => hvalid.setRng rng) hpoint
    encryptedSketch).mono fun _ happends => happends.encodes hencodes

theorem encodes_encryptRepeatedECPoint {P : Point} {ecPoint : ByteString} (count : Nat)
    (hpoint : ec.toBytesCompressed P = .ok ecPoint)
    (hencodes : Encodes decrypt encryptedSketch points) :
    Keeps (CacheValid ec H maxCounterValue)
      (encryptRepeatedECPoint ec ecPoint count encryptedSketch)
      fun encryptedSketch' =>
        Encodes decrypt encryptedSketch' (points ++ List.replicate count P) :=
  (appends_encryptRepeatedECPoint hec (fun _ rng hvalid => hvalid.setRng rng) hpoint count
    encryptedSketch).mono fun _ happends => happends.encodes hencodes

theorem encodes_appendEncryptedRegisterWithSameValue
    (hmax : maxCounterValue.toNat < 2 ^ 64 - 1) {P : Point} {indexEc : ByteString}
    (numOfValues : Nat) (n : UInt64) (hindex : ec.toBytesCompressed P = .ok indexEc)
    (hencodes : Encodes decrypt encryptedSketch points) :
    Keeps (CacheValid ec H maxCounterValue)
      (appendEncryptedRegisterWithSameValue ec indexEc numOfValues n encryptedSketch)
      fun encryptedSketch' => Encodes decrypt encryptedSketch'
        (points ++ P :: List.replicate numOfValues (counterPoint H maxCounterValue n.toNat)) := by
  refine keeps_bind (encodes_encryptAdditionalECPoint hec hindex hencodes)
    fun encryptedSketch' hencodes' => ?_
  refine keeps_bind (keeps_getECPointForInteger hec hmax n) fun valueEc hvalue => ?_
  rw [List.append_cons]
  exact encodes_encryptRepeatedECPoint hec numOfValues hvalue hencodes'

theorem encodes_appendFlaggedDestroyedRegister {P : Point} {indexEc : ByteString}
    (numOfValues : Nat) (hindex : ec.toBytesCompressed P = .ok indexEc)
    (hencodes : Encodes decrypt encryptedSketch points) :
    Keeps (CacheValid ec H maxCounterValue)
      (appendFlaggedDestroyedRegister ec indexEc numOfValues encryptedSketch)
      fun encryptedSketch' => Encodes decrypt encryptedSketch'
        (points ++ P :: List.replicate numOfValues (H destroyedRegisterKey)) := by
  refine keeps_bind (encodes_encryptAdditionalECPoint hec hindex hencodes)
    fun encryptedSketch' hencodes' => ?_
  refine keeps_bind (keeps_getDestroyedRegisterKeyEc hec) fun keyEc hkey => ?_
  rw [List.append_cons]
  exact encodes_encryptRepeatedECPoint hec numOfValues hkey hencodes'

theorem encodes_encryptDestroyedRegister (hmax : maxCounterValue.toNat < 2 ^ 64 - 1)
    (reg : Register) (destroyedRegisterStrategy : DestroyedRegisterStrategy)
    (hencodes : Encodes decrypt encryptedSketch points) :
    Keeps (CacheValid ec H maxCounterValue)
      (encryptDestroyedRegister ec reg destroyedRegisterStrategy encryptedSketch)
      fun encryptedSketch' => Encodes decrypt encryptedSketch' (points
        ++ destroyedRegisterPoints H maxCounterValue destroyedRegisterStrategy reg) := by
  refine keeps_bind (keeps_ofExcept fun indexEc hmap => mapIntegerToCurve_ok hec hmap)
    fun indexEc hindex => ?_
  cases destroyedRegisterStrategy with
  | conflictingKeys =>
      refine keeps_bind (encodes_appendEncryptedRegisterWithSameValue hec hmax reg.values.length 1
        hindex hencodes) fun encryptedSketch' hencodes' => ?_
      rw [destroyedRegisterPoints, ← List.append_assoc]
      exact encodes_appendEncryptedRegisterWithSameValue hec hmax reg.values.length 2 hindex
        hencodes'
  | flaggedKey =>
      exact encodes_appendFlaggedDestroyedRegister hec reg.values.length hindex hencodes
  | unspecified => exact keeps_throw _
  | unrecognized number => exact keeps_throw _

theorem encodes_encryptValue (hmax : maxCounterValue.toNat < 2 ^ 64 - 1) (valueSpec : ValueSpec)
    (value : Int64) (hencodes : Encodes decrypt encryptedSketch points) :
    Keeps (CacheValid ec H maxCounterValue) (encryptValue ec valueSpec value encryptedSketch)
      fun encryptedSketch' => Encodes decrypt encryptedSketch'
        (points ++ [valuePoint H maxCounterValue valueSpec value]) := by
  unfold encryptValue valuePoint
  cases valueSpec.aggregator with
  | unique =>
      exact keeps_bind (keeps_ofExcept fun ecPoint hmap => mapIntegerToCurve_ok hec hmap)
        fun ecPoint hpoint => encodes_encryptAdditionalECPoint hec hpoint hencodes
  | sum =>
      simp only
      split
      · exact keeps_throw _
      · rename_i hpositive
        have hcounter : value.toUInt64.toNat = value.toInt.toNat := by
          rw [Int64.le_iff_toInt_le, Int64.toInt_zero] at hpositive
          exact Int64.toNat_toUInt64_of_le (by rw [Int64.le_iff_toInt_le, Int64.toInt_zero]; omega)
        rw [← hcounter]
        exact keeps_bind (keeps_getECPointForInteger hec hmax value.toUInt64)
          fun ecPoint hpoint => encodes_encryptAdditionalECPoint hec hpoint hencodes
  | aggregatorUnspecified => exact keeps_throw _
  | unrecognized number => exact keeps_throw _

theorem encodes_encryptValues (hmax : maxCounterValue.toNat < 2 ^ 64 - 1)
    (valueSpecs : List ValueSpec) (registerValues : List Int64)
    (hencodes : Encodes decrypt encryptedSketch points) :
    Keeps (CacheValid ec H maxCounterValue)
      (encryptValues ec valueSpecs registerValues encryptedSketch)
      fun encryptedSketch' => Encodes decrypt encryptedSketch'
        (points ++ List.zipWith (valuePoint H maxCounterValue) valueSpecs registerValues) := by
  induction registerValues generalizing valueSpecs encryptedSketch points with
  | nil =>
      rw [encryptValues, List.zipWith_nil_right, List.append_nil]
      exact keeps_pure hencodes
  | cons value registerValues ih =>
      cases valueSpecs with
      | nil => exact keeps_throw _
      | cons valueSpec valueSpecs =>
          rw [encryptValues, List.zipWith_cons_cons, List.append_cons]
          exact keeps_bind (encodes_encryptValue hec hmax valueSpec value hencodes)
            fun encryptedSketch' hencodes' => ih valueSpecs hencodes'

theorem encodes_encryptNonDestroyedRegister (hmax : maxCounterValue.toNat < 2 ^ 64 - 1)
    (reg : Register) (sketchConfig : SketchConfig)
    (hencodes : Encodes decrypt encryptedSketch points) :
    Keeps (CacheValid ec H maxCounterValue)
      (encryptNonDestroyedRegister ec reg sketchConfig encryptedSketch)
      fun encryptedSketch' => Encodes decrypt encryptedSketch' (points ++ integerPoint H reg.index
        :: List.zipWith (valuePoint H maxCounterValue) sketchConfig.values reg.values) := by
  refine keeps_bind (keeps_ofExcept fun indexEc hmap => mapIntegerToCurve_ok hec hmap)
    fun indexEc hindex => ?_
  refine keeps_bind (encodes_encryptAdditionalECPoint hec hindex hencodes)
    fun encryptedSketch' hencodes' => ?_
  rw [List.append_cons]
  exact encodes_encryptValues hec hmax sketchConfig.values reg.values hencodes'

theorem encodes_encryptAdditionalRegister (hmax : maxCounterValue.toNat < 2 ^ 64 - 1)
    (reg : Register) (sketchConfig : SketchConfig)
    (destroyedRegisterStrategy : DestroyedRegisterStrategy)
    (hencodes : Encodes decrypt encryptedSketch points) :
    Keeps (CacheValid ec H maxCounterValue)
      (encryptAdditionalRegister ec reg sketchConfig destroyedRegisterStrategy encryptedSketch)
      fun encryptedSketch' => Encodes decrypt encryptedSketch' (points
        ++ registerPoints H maxCounterValue sketchConfig destroyedRegisterStrategy reg) := by
  refine keeps_bind (keeps_ofExcept fun destroyed hdestroyed => hdestroyed)
    fun destroyed hdestroyed => ?_
  have hiff := isRegisterDestroyed_ok hdestroyed
  rw [registerPoints]
  cases destroyed with
  | true =>
      rw [if_pos (hiff.mp rfl)]
      exact encodes_encryptDestroyedRegister hec hmax reg destroyedRegisterStrategy hencodes
  | false =>
      rw [if_neg fun hyes => Bool.noConfusion (hiff.mpr hyes)]
      exact encodes_encryptNonDestroyedRegister hec hmax reg sketchConfig hencodes

theorem encodes_encrypt (hmax : maxCounterValue.toNat < 2 ^ 64 - 1) (sketch : Sketch)
    (destroyedRegisterStrategy : DestroyedRegisterStrategy) :
    Keeps (CacheValid ec H maxCounterValue) (encrypt ec sketch destroyedRegisterStrategy)
      fun encryptedSketch => Encodes decrypt encryptedSketch (sketch.registers.flatMap
        (registerPoints H maxCounterValue sketch.config destroyedRegisterStrategy)) := by
  unfold encrypt
  split
  · exact keeps_bind (Q := fun _ => False) (keeps_throw _) fun _ hfalse => hfalse.elim
  · refine keeps_bind (keeps_reserve _) fun _ _ => ?_
    refine keeps_foldlM (A := fun done encryptedSketch =>
      Encodes decrypt encryptedSketch (done.flatMap
        (registerPoints H maxCounterValue sketch.config destroyedRegisterStrategy)))
      ?_ sketch.registers [] [] encodes_nil
    intro done reg encryptedSketch hencodes
    rw [List.flatMap_append, List.flatMap_singleton]
    exact encodes_encryptAdditionalRegister hec hmax reg sketch.config destroyedRegisterStrategy
      hencodes

/-- Whatever calls an encrypter has served, its caches are valid. -/
theorem SketchEncrypterImpl.Reachable.cacheValid (hmax : maxCounterValue.toNat < 2 ^ 64 - 1)
    {encrypter : SketchEncrypterImpl Rng} (hreachable : Reachable ec maxCounterValue encrypter) :
    CacheValid ec H maxCounterValue encrypter :=
  hreachable.invariant (fun _ rng hvalid => hvalid.setRng rng) CacheValid.create
    fun sketch strategy _ hvalid => (encodes_encrypt hec hmax sketch strategy).finalState hvalid

/-- **What an encrypted sketch decrypts to.** A successful encryption is a whole number of words,
and they decrypt in order to the points of the registers, however the two kinds of columns and of
registers are mixed and whatever the caches held before the call. -/
theorem decryptWords_encrypt (hmax : maxCounterValue.toNat < 2 ^ 64 - 1)
    {encrypter encrypter' : SketchEncrypterImpl Rng} {sketch : Sketch}
    {destroyedRegisterStrategy : DestroyedRegisterStrategy} {encryptedSketch : ByteString}
    (hreachable : Reachable ec maxCounterValue encrypter)
    (hrun : (encrypt ec sketch destroyedRegisterStrategy).run encrypter
      = .ok encryptedSketch encrypter') :
    bytesPerCipherText ∣ encryptedSketch.length ∧
    decryptWords decrypt encryptedSketch = sketch.registers.flatMap
      (registerPoints H maxCounterValue sketch.config destroyedRegisterStrategy) :=
  ((encodes_encrypt hec hmax sketch destroyedRegisterStrategy).result
    (hreachable.cacheValid hec hmax) hrun).2

end Words

/-! A small library: the integers modulo 251, and ElGamal with the private key 5. -/

def sampleHash (s : String) : ZMod 251 :=
  s.toList.foldl (fun hash c => 31 * hash + (c.toNat : ZMod 251)) 7

def sampleBytes (P : ZMod 251) : ByteString :=
  List.replicate 32 2 ++ [UInt8.ofNat P.val]

def samplePoint (bytes : ByteString) : ZMod 251 :=
  (bytes.getLastD 0).toNat

theorem samplePoint_sampleBytes (P : ZMod 251) : samplePoint (sampleBytes P) = P := by
  have hlt : P.val < 2 ^ 8 := (ZMod.val_lt P).trans (by decide)
  rw [samplePoint, sampleBytes, List.getLastD_concat, UInt8.toNat_ofNat_of_lt' hlt,
    ZMod.natCast_zmod_val]

def sampleEc : EcLibrary (ZMod 251) Nat where
  hashToCurve s := .ok (sampleHash s)
  mul P n := .ok (n.toNat • P)
  toBytesCompressed P := .ok (sampleBytes P)
  encrypt rng ecPoint :=
    (.ok (sampleBytes rng, sampleBytes (samplePoint ecPoint + 5 * rng)), rng + 1)
  generatePrivateKey rng := (toString rng, rng + 1)

def sampleDecrypt (u e : ByteString) : ZMod 251 :=
  samplePoint e - 5 * samplePoint u

theorem sampleEc_correct : sampleEc.Correct sampleHash sampleDecrypt where
  hashToCurve_eq hhash := by cases hhash; rfl
  mul_eq hmul := by cases hmul; rfl
  encrypt_eq hbytes hencrypt := by
    cases hbytes
    cases hencrypt
    refine ⟨rfl, rfl, ?_⟩
    rw [sampleDecrypt, samplePoint_sampleBytes, samplePoint_sampleBytes, samplePoint_sampleBytes]
    ring

def sampleProto : Sketch where
  config := ⟨[⟨"bucket"⟩], [⟨"id", .unique⟩, ⟨"count", .sum⟩]⟩
  registers := [⟨3, [0, 2]⟩, ⟨4, [6, 9]⟩]

theorem sampleProto_encrypts : ([0, 5] : List UInt64).all (fun maxCounterValue => succeeds
    ((encrypt sampleEc sampleProto .conflictingKeys).run
      (createWithPublicKey 0 maxCounterValue))) = true := by
  decide +kernel

theorem decryptWords_encrypt_sampleProto : ∃ encryptedSketch encrypter',
    (encrypt sampleEc sampleProto .conflictingKeys).run (createWithPublicKey 0 5)
      = .ok encryptedSketch encrypter' ∧
    bytesPerCipherText ∣ encryptedSketch.length ∧
    decryptWords sampleDecrypt encryptedSketch = sampleProto.registers.flatMap
      (registerPoints sampleHash 5 sampleProto.config .conflictingKeys) := by
  obtain ⟨encryptedSketch, encrypter', hrun⟩ := exists_ok_of_succeeds
    (List.all_eq_true.mp sampleProto_encrypts 5 (by decide))
  exact ⟨encryptedSketch, encrypter', hrun,
    decryptWords_encrypt sampleEc_correct (by decide) (.create 0) hrun⟩

end AnySketchCorrectness
