import AnySketchCorrectness.Proof.ConflictingKeys

/-!
# Which sketches are encrypted

The checks of the encrypter are spread over its parts: the sizes are checked first, the strategy for
destroyed registers only, the aggregators and the counters for the others only. When the library
calls succeed, a sketch that passes them all is encrypted, unless the `int` that holds the size of
the result overflows to a negative number: then the reservation throws.
-/

namespace AnySketchCorrectness

open StateInvariant SketchEncrypterImpl

variable {Point Rng : Type} {ec : EcLibrary Point Rng} {maxCounterValue : UInt64}

/-- The calls of the library succeed. Encryption does so on the compressed points. -/
structure EcLibrary.Succeeds (ec : EcLibrary Point Rng) : Prop where
  hashToCurve : ∀ s, ∃ P, ec.hashToCurve s = .ok P
  mul : ∀ P n, ∃ Q, ec.mul P n = .ok Q
  toBytesCompressed : ∀ P, ∃ ecPoint, ec.toBytesCompressed P = .ok ecPoint
  encrypt : ∀ {P ecPoint} rng, ec.toBytesCompressed P = .ok ecPoint →
    ∃ ciphertext rng', ec.encrypt rng ecPoint = (.ok ciphertext, rng')

/-- A value that a register which is not destroyed may have. -/
def IsEncryptable (valueSpec : ValueSpec) (value : Int64) : Prop :=
  (valueSpec.aggregator = .sum ∨ valueSpec.aggregator = .unique)
    ∧ (valueSpec.aggregator = .sum → 1 ≤ value)

/-- What the encrypter asks of a register and the strategy. -/
structure AcceptableRegister (sketchConfig : SketchConfig)
    (destroyedRegisterStrategy : DestroyedRegisterStrategy) (reg : Register) : Prop where
  destroyed : IsDestroyed reg sketchConfig →
    destroyedRegisterStrategy = .conflictingKeys ∨ destroyedRegisterStrategy = .flaggedKey
  kept : ¬ IsDestroyed reg sketchConfig → ∀ (column : Nat) (valueSpec : ValueSpec) (value : Int64),
    sketchConfig.values[column]? = some valueSpec → reg.values[column]? = some value →
      IsEncryptable valueSpec value

structure Acceptable (sketch : Sketch) (destroyedRegisterStrategy : DestroyedRegisterStrategy) :
    Prop where
  values_length : ∀ reg ∈ sketch.registers, reg.values.length = sketch.config.values.length
  register : ∀ reg ∈ sketch.registers,
    AcceptableRegister sketch.config destroyedRegisterStrategy reg

/-! ### The caches -/

def IsCompressed (ec : EcLibrary Point Rng) (ecPoint : ByteString) : Prop :=
  ∃ P, ec.toBytesCompressed P = .ok ecPoint

/-- What the caches hold can be encrypted. -/
structure CachesPoints (ec : EcLibrary Point Rng) (maxCounterValue : UInt64)
    (encrypter : SketchEncrypterImpl Rng) : Prop where
  maxCounterValue_eq : encrypter.maxCounterValue = maxCounterValue
  integerToEcPointMap : ∀ n ecPoint, encrypter.integerToEcPointMap.lookup n = some ecPoint →
    IsCompressed ec ecPoint
  destroyedRegisterKeyEc : encrypter.destroyedRegisterKeyEc ≠ [] →
    IsCompressed ec encrypter.destroyedRegisterKeyEc

theorem CachesPoints.create (rng : Rng) :
    CachesPoints ec maxCounterValue (createWithPublicKey rng maxCounterValue) where
  maxCounterValue_eq := rfl
  integerToEcPointMap n ecPoint hlookup := by simp [createWithPublicKey] at hlookup
  destroyedRegisterKeyEc hne := absurd rfl hne

theorem CachesPoints.setRng {encrypter : SketchEncrypterImpl Rng}
    (hcaches : CachesPoints ec maxCounterValue encrypter) (rng : Rng) :
    CachesPoints ec maxCounterValue { encrypter with rng } where
  maxCounterValue_eq := hcaches.maxCounterValue_eq
  integerToEcPointMap := hcaches.integerToEcPointMap
  destroyedRegisterKeyEc := hcaches.destroyedRegisterKeyEc

theorem CachesPoints.insert {encrypter : SketchEncrypterImpl Rng} {n : UInt64}
    {ecPoint : ByteString} (hcaches : CachesPoints ec maxCounterValue encrypter)
    (hecPoint : IsCompressed ec ecPoint) :
    CachesPoints ec maxCounterValue { encrypter with
      integerToEcPointMap := encrypter.integerToEcPointMap.insert n ecPoint } where
  maxCounterValue_eq := hcaches.maxCounterValue_eq
  integerToEcPointMap m cached hlookup := by
    by_cases heq : m = n
    · subst heq
      rw [AList.lookup_insert, Option.some.injEq] at hlookup
      rw [← hlookup]
      exact hecPoint
    · rw [AList.lookup_insert_ne heq] at hlookup
      exact hcaches.integerToEcPointMap m cached hlookup
  destroyedRegisterKeyEc := hcaches.destroyedRegisterKeyEc

theorem CachesPoints.setDestroyedRegisterKeyEc {encrypter : SketchEncrypterImpl Rng}
    {ecPoint : ByteString} (hcaches : CachesPoints ec maxCounterValue encrypter)
    (hecPoint : IsCompressed ec ecPoint) :
    CachesPoints ec maxCounterValue { encrypter with destroyedRegisterKeyEc := ecPoint } where
  maxCounterValue_eq := hcaches.maxCounterValue_eq
  integerToEcPointMap := hcaches.integerToEcPointMap
  destroyedRegisterKeyEc _ := hecPoint

/-! ### The parts of the encrypter -/

/-- The program succeeds when `P`, if the library calls do, and never reads out of range. -/
abbrev Admits (ec : EcLibrary Point Rng) (maxCounterValue : UInt64) {α : Type}
    (program : EncrypterM Rng α) (P : Prop) (Q : α → Prop) : Prop :=
  Accepts (CachesPoints ec maxCounterValue) ec.Succeeds Failure.outOfRange program P Q

theorem mapToCurve_isCompressed {plaintext : String} {ecPoint : ByteString}
    (hmap : mapToCurve ec plaintext = .ok ecPoint) : IsCompressed ec ecPoint := by
  obtain ⟨P, -, hbytes⟩ := StatusOr.bind_eq_ok.mp hmap
  exact ⟨P, hbytes⟩

theorem EcLibrary.Succeeds.mapToCurve (hec : ec.Succeeds) (plaintext : String) :
    ∃ ecPoint, mapToCurve ec plaintext = .ok ecPoint := by
  obtain ⟨P, hhash⟩ := hec.hashToCurve plaintext
  obtain ⟨ecPoint, hbytes⟩ := hec.toBytesCompressed P
  exact ⟨ecPoint, StatusOr.bind_eq_ok.mpr ⟨P, hhash, hbytes⟩⟩

theorem computeECPointForInteger_isCompressed {n : UInt64} {ecPoint : ByteString}
    (hcompute : computeECPointForInteger ec n = .ok ecPoint) : IsCompressed ec ecPoint := by
  unfold computeECPointForInteger at hcompute
  split at hcompute
  · cases hcompute
  · split at hcompute
    · exact mapToCurve_isCompressed hcompute
    · obtain ⟨ec1, -, hrest⟩ := StatusOr.bind_eq_ok.mp hcompute
      obtain ⟨ecN, -, hbytes⟩ := StatusOr.bind_eq_ok.mp hrest
      exact ⟨ecN, hbytes⟩

theorem EcLibrary.Succeeds.computeECPointForInteger (hec : ec.Succeeds) {n : UInt64}
    (hn : n ≠ 0) : ∃ ecPoint, computeECPointForInteger ec n = .ok ecPoint := by
  unfold SketchEncrypterImpl.computeECPointForInteger
  rw [if_neg hn]
  split
  · exact hec.mapToCurve unitECPointSeed
  · obtain ⟨ec1, hhash⟩ := hec.hashToCurve unitECPointSeed
    obtain ⟨ecN, hmul⟩ := hec.mul ec1 n
    obtain ⟨ecPoint, hbytes⟩ := hec.toBytesCompressed ecN
    exact ⟨ecPoint, StatusOr.bind_eq_ok.mpr
      ⟨ec1, hhash, StatusOr.bind_eq_ok.mpr ⟨ecN, hmul, hbytes⟩⟩⟩

/-- A library call that succeeds if the library does. -/
theorem admits_ofExcept {α : Type} {result : StatusOr α} {Q : α → Prop}
    (hpost : ∀ a, result = .ok a → Q a) (hsucceeds : ec.Succeeds → ∃ a, result = .ok a) :
    Admits ec maxCounterValue (MonadExcept.ofExcept result) True Q := by
  refine accepts_ofExcept (fun a hresult => ⟨trivial, hpost a hresult⟩) fun e hresult hec => ?_
  obtain ⟨a, hok⟩ := hsucceeds hec
  rw [hresult] at hok
  cases hok

theorem admits_mapToCurve (plaintext : String) :
    Admits ec maxCounterValue (MonadExcept.ofExcept (mapToCurve ec plaintext)) True
      (IsCompressed ec) :=
  admits_ofExcept (fun _ hmap => mapToCurve_isCompressed hmap) fun hec => hec.mapToCurve plaintext

/-- Sequencing after a program that always succeeds. -/
theorem admits_bind {α β : Type} {program : EncrypterM Rng α} {next : α → EncrypterM Rng β}
    {P : Prop} {Q : α → Prop} {Q' : β → Prop}
    (hprogram : Admits ec maxCounterValue program True Q)
    (hnext : ∀ a, Q a → Admits ec maxCounterValue (next a) P Q') :
    Admits ec maxCounterValue (program >>= next) P Q' :=
  (accepts_bind hprogram hnext).of_iff (iff_of_eq (true_and P))

theorem admits_insertECPointForInteger {n : UInt64} (hn : n ≠ 0) :
    Admits ec maxCounterValue (insertECPointForInteger ec n) True (IsCompressed ec) := by
  refine admits_bind (admits_ofExcept (Q := IsCompressed ec)
    (fun ecPoint hcompute => computeECPointForInteger_isCompressed hcompute)
    fun hec => hec.computeECPointForInteger hn) fun ecPoint hecPoint => ?_
  exact admits_bind (accepts_modify fun encrypter hcaches => hcaches.insert hecPoint)
    fun _ _ => accepts_pure trivial hecPoint

theorem admits_getECPointForInteger (hmax : maxCounterValue.toNat < 2 ^ 64 - 1) {n : UInt64}
    (hn : n ≠ 0) :
    Admits ec maxCounterValue (getECPointForInteger ec n) True (IsCompressed ec) := by
  refine admits_bind accepts_get fun encrypter hcaches => ?_
  have hcapped : encrypter.maxCounterValue + 1 ≠ 0 := by
    rw [hcaches.maxCounterValue_eq, ← UInt64.toNat_inj.ne, UInt64.toNat_add, UInt64.toNat_one,
      Nat.mod_eq_of_lt (by omega)]
    exact Nat.succ_ne_zero _
  cases hlookup : encrypter.integerToEcPointMap.lookup n with
  | some ecPoint => exact accepts_pure trivial (hcaches.integerToEcPointMap n ecPoint hlookup)
  | none =>
      simp only
      split
      · cases hlookupCapped :
            encrypter.integerToEcPointMap.lookup (encrypter.maxCounterValue + 1) with
        | some ecPoint =>
            exact accepts_pure trivial (hcaches.integerToEcPointMap _ ecPoint hlookupCapped)
        | none => exact admits_insertECPointForInteger hcapped
      · exact admits_insertECPointForInteger hn

theorem admits_getDestroyedRegisterKeyEc :
    Admits ec maxCounterValue (getDestroyedRegisterKeyEc ec) True (IsCompressed ec) := by
  refine admits_bind accepts_get fun encrypter hcaches => ?_
  split
  · exact admits_bind (admits_mapToCurve destroyedRegisterKey) fun ecPoint hecPoint =>
      admits_bind (accepts_modify fun encrypter hcaches =>
        hcaches.setDestroyedRegisterKeyEc hecPoint) fun _ _ => accepts_pure trivial hecPoint
  · rename_i hne
    rw [List.isEmpty_iff] at hne
    exact accepts_pure trivial (hcaches.destroyedRegisterKeyEc hne)

theorem admits_encryptAdditionalECPoint {ecPoint : ByteString} (hecPoint : IsCompressed ec ecPoint)
    (encryptedSketch : ByteString) :
    Admits ec maxCounterValue (encryptAdditionalECPoint ec ecPoint encryptedSketch) True
      fun _ => True := by
  refine admits_bind accepts_get fun encrypter hcaches => ?_
  cases hencrypt : ec.encrypt encrypter.rng ecPoint with
  | mk result rng' =>
      refine admits_bind (accepts_set (hcaches.setRng rng')) fun _ _ => ?_
      refine admits_bind (admits_ofExcept (Q := fun _ => True) (fun _ _ => trivial) fun hec => ?_)
        fun ciphertext _ => accepts_pure trivial trivial
      obtain ⟨P, hbytes⟩ := hecPoint
      obtain ⟨ciphertext, rng'', hok⟩ := hec.encrypt encrypter.rng hbytes
      rw [hencrypt] at hok
      exact ⟨ciphertext, congrArg Prod.fst hok⟩

theorem admits_encryptRepeatedECPoint {ecPoint : ByteString} (hecPoint : IsCompressed ec ecPoint)
    (count : Nat) (encryptedSketch : ByteString) :
    Admits ec maxCounterValue (encryptRepeatedECPoint ec ecPoint count encryptedSketch) True
      fun _ => True := by
  induction count generalizing encryptedSketch with
  | zero => exact accepts_pure trivial trivial
  | succ count ih =>
      rw [encryptRepeatedECPoint, List.replicate_succ, List.foldlM_cons]
      exact admits_bind (admits_encryptAdditionalECPoint hecPoint encryptedSketch)
        fun encryptedSketch' _ => ih encryptedSketch'

theorem admits_appendEncryptedRegisterWithSameValue (hmax : maxCounterValue.toNat < 2 ^ 64 - 1)
    {indexEc : ByteString} (hindex : IsCompressed ec indexEc) (numOfValues : Nat) {n : UInt64}
    (hn : n ≠ 0) (encryptedSketch : ByteString) :
    Admits ec maxCounterValue
      (appendEncryptedRegisterWithSameValue ec indexEc numOfValues n encryptedSketch) True
      fun _ => True :=
  admits_bind (admits_encryptAdditionalECPoint hindex encryptedSketch) fun encryptedSketch' _ =>
    admits_bind (admits_getECPointForInteger hmax hn) fun _ hvalue =>
      admits_encryptRepeatedECPoint hvalue numOfValues encryptedSketch'

theorem admits_appendFlaggedDestroyedRegister {indexEc : ByteString}
    (hindex : IsCompressed ec indexEc) (numOfValues : Nat) (encryptedSketch : ByteString) :
    Admits ec maxCounterValue
      (appendFlaggedDestroyedRegister ec indexEc numOfValues encryptedSketch) True
      fun _ => True :=
  admits_bind (admits_encryptAdditionalECPoint hindex encryptedSketch) fun encryptedSketch' _ =>
    admits_bind admits_getDestroyedRegisterKeyEc fun _ hkey =>
      admits_encryptRepeatedECPoint hkey numOfValues encryptedSketch'

theorem admits_encryptDestroyedRegister (hmax : maxCounterValue.toNat < 2 ^ 64 - 1)
    (reg : Register) (destroyedRegisterStrategy : DestroyedRegisterStrategy)
    (encryptedSketch : ByteString) :
    Admits ec maxCounterValue
      (encryptDestroyedRegister ec reg destroyedRegisterStrategy encryptedSketch)
      (destroyedRegisterStrategy = .conflictingKeys ∨ destroyedRegisterStrategy = .flaggedKey)
      fun _ => True := by
  refine admits_bind (admits_mapToCurve _) fun indexEc hindex => ?_
  cases destroyedRegisterStrategy with
  | conflictingKeys =>
      refine Accepts.of_iff (iff_of_true trivial (Or.inl rfl)) ?_
      exact admits_bind (admits_appendEncryptedRegisterWithSameValue hmax hindex reg.values.length
          (n := 1) (by decide) encryptedSketch) fun encryptedSketch' _ =>
        admits_appendEncryptedRegisterWithSameValue hmax hindex reg.values.length (n := 2)
          (by decide) encryptedSketch'
  | flaggedKey =>
      refine Accepts.of_iff (iff_of_true trivial (Or.inr rfl)) ?_
      exact admits_appendFlaggedDestroyedRegister hindex reg.values.length encryptedSketch
  | unspecified => exact accepts_throw (by simp) (by simp)
  | unrecognized number => exact accepts_throw (by simp) (by simp)

theorem one_le_iff_not_le_zero {value : Int64} : 1 ≤ value ↔ ¬ value ≤ 0 := by
  rw [Int64.le_iff_toInt_le, Int64.le_iff_toInt_le, Int64.toInt_one, Int64.toInt_zero]
  omega

theorem admits_encryptValue (hmax : maxCounterValue.toNat < 2 ^ 64 - 1) (valueSpec : ValueSpec)
    (value : Int64) (encryptedSketch : ByteString) :
    Admits ec maxCounterValue (encryptValue ec valueSpec value encryptedSketch)
      (IsEncryptable valueSpec value) fun _ => True := by
  unfold encryptValue IsEncryptable
  rw [one_le_iff_not_le_zero]
  cases valueSpec.aggregator with
  | unique =>
      refine Accepts.of_iff (iff_of_true trivial (by simp)) ?_
      exact admits_bind (admits_mapToCurve _) fun ecPoint hecPoint =>
        admits_encryptAdditionalECPoint hecPoint encryptedSketch
  | sum =>
      simp only
      split
      · rename_i hnonpositive
        exact accepts_throw (by simp [hnonpositive]) (by simp)
      · rename_i hpositive
        refine Accepts.of_iff (iff_of_true trivial (by simp [hpositive])) ?_
        have hvalue : value.toUInt64 ≠ 0 := by
          intro hzero
          apply hpositive
          rw [← Int64.toInt64_toUInt64 value, hzero]
          decide
        exact admits_bind (admits_getECPointForInteger hmax hvalue) fun ecPoint hecPoint =>
          admits_encryptAdditionalECPoint hecPoint encryptedSketch
  | aggregatorUnspecified => exact accepts_throw (by simp) (by simp)
  | unrecognized number => exact accepts_throw (by simp) (by simp)

/-- Every value of a register is one that it may have in its column. -/
def AllEncryptable (valueSpecs : List ValueSpec) (registerValues : List Int64) : Prop :=
  ∀ (column : Nat) (valueSpec : ValueSpec) (value : Int64),
    valueSpecs[column]? = some valueSpec → registerValues[column]? = some value →
      IsEncryptable valueSpec value

theorem allEncryptable_cons {valueSpec : ValueSpec} {value : Int64} {valueSpecs : List ValueSpec}
    {registerValues : List Int64} :
    AllEncryptable (valueSpec :: valueSpecs) (value :: registerValues)
      ↔ IsEncryptable valueSpec value ∧ AllEncryptable valueSpecs registerValues := by
  constructor
  · intro hall
    exact ⟨hall 0 valueSpec value rfl rfl, fun column => hall (column + 1)⟩
  · rintro ⟨hhead, htail⟩ column valueSpec' value' hspec hvalue
    cases column with
    | zero =>
        cases hspec
        cases hvalue
        exact hhead
    | succ column => exact htail column valueSpec' value' hspec hvalue

theorem admits_encryptValues (hmax : maxCounterValue.toNat < 2 ^ 64 - 1)
    {valueSpecs : List ValueSpec} {registerValues : List Int64}
    (hlength : registerValues.length = valueSpecs.length) (encryptedSketch : ByteString) :
    Admits ec maxCounterValue (encryptValues ec valueSpecs registerValues encryptedSketch)
      (AllEncryptable valueSpecs registerValues) fun _ => True := by
  induction registerValues generalizing valueSpecs encryptedSketch with
  | nil =>
      have hempty : AllEncryptable valueSpecs [] := fun column valueSpec value _ hvalue => by
        cases hvalue
      rw [encryptValues]
      exact accepts_pure hempty trivial
  | cons value registerValues ih =>
      cases valueSpecs with
      | nil => cases hlength
      | cons valueSpec valueSpecs =>
          rw [encryptValues]
          have hrest := fun encryptedSketch' => ih (Nat.succ.inj hlength) encryptedSketch'
          refine (accepts_bind (admits_encryptValue hmax valueSpec value encryptedSketch)
            fun encryptedSketch' _ => hrest encryptedSketch').of_iff ?_
          exact allEncryptable_cons.symm

theorem admits_encryptNonDestroyedRegister (hmax : maxCounterValue.toNat < 2 ^ 64 - 1)
    {reg : Register} {sketchConfig : SketchConfig}
    (hlength : reg.values.length = sketchConfig.values.length) (encryptedSketch : ByteString) :
    Admits ec maxCounterValue (encryptNonDestroyedRegister ec reg sketchConfig encryptedSketch)
      (AllEncryptable sketchConfig.values reg.values) fun _ => True :=
  admits_bind (admits_mapToCurve _) fun _ hindex =>
    admits_bind (admits_encryptAdditionalECPoint hindex encryptedSketch)
      fun encryptedSketch' _ => admits_encryptValues hmax hlength encryptedSketch'

theorem admits_encryptAdditionalRegister (hmax : maxCounterValue.toNat < 2 ^ 64 - 1)
    {reg : Register} {sketchConfig : SketchConfig}
    (hlength : reg.values.length = sketchConfig.values.length)
    (destroyedRegisterStrategy : DestroyedRegisterStrategy) (encryptedSketch : ByteString) :
    Admits ec maxCounterValue
      (encryptAdditionalRegister ec reg sketchConfig destroyedRegisterStrategy encryptedSketch)
      (AcceptableRegister sketchConfig destroyedRegisterStrategy reg) fun _ => True := by
  rw [encryptAdditionalRegister, isRegisterDestroyed_eq hlength]
  by_cases hdestroyed : IsDestroyed reg sketchConfig
  · rw [decide_eq_true hdestroyed]
    refine (admits_encryptDestroyedRegister hmax reg destroyedRegisterStrategy
      encryptedSketch).of_iff ?_
    exact ⟨fun hstrategy => ⟨fun _ => hstrategy, fun hkept => absurd hdestroyed hkept⟩,
      fun hacceptable => hacceptable.destroyed hdestroyed⟩
  · rw [decide_eq_false hdestroyed]
    refine (admits_encryptNonDestroyedRegister hmax hlength encryptedSketch).of_iff ?_
    exact ⟨fun hvalues => ⟨fun hyes => absurd hyes hdestroyed, fun _ => hvalues⟩,
      fun hacceptable => hacceptable.kept hdestroyed⟩

/-! ### The size of the result -/

theorem toUInt64_toInt64_le_iff (x : Int32) :
    x.toInt64.toUInt64 ≤ Int64.maxValue.toUInt64 ↔ 0 ≤ x := by
  have hmax : Int64.maxValue.toUInt64.toNat = 2 ^ 63 - 1 := by decide
  have hsigned : x.toInt64.toInt = if 2 * x.toInt64.toUInt64.toNat < 2 ^ 64
      then (x.toInt64.toUInt64.toNat : Int) else x.toInt64.toUInt64.toNat - (2 ^ 64 : Nat) :=
    BitVec.toInt_eq_toNat_cond x.toInt64.toBitVec
  have hbound := x.toInt64.toUInt64.toNat_lt
  rw [Int32.toInt_toInt64] at hsigned
  rw [UInt64.le_iff_toNat_le, hmax, Int32.le_iff_toInt_le, Int32.toInt_zero, hsigned]
  split
  · omega
  · omega

theorem admits_reserve (totalBytes : Int32) :
    Admits ec maxCounterValue (reserve totalBytes.toInt64.toUInt64) (0 ≤ totalBytes)
      fun _ => True := by
  rw [← toUInt64_toInt64_le_iff, reserve]
  split
  · rename_i hlt
    exact accepts_throw (UInt64.not_le.mpr hlt) (by simp)
  · rename_i hle
    exact accepts_pure (UInt64.not_lt.mp hle) trivial

theorem admits_encrypt (hmax : maxCounterValue.toNat < 2 ^ 64 - 1) (sketch : Sketch)
    (destroyedRegisterStrategy : DestroyedRegisterStrategy) :
    Admits ec maxCounterValue (encrypt ec sketch destroyedRegisterStrategy)
      (0 ≤ totalCipherSketchBytes sketch ∧ Acceptable sketch destroyedRegisterStrategy)
      fun _ => True := by
  unfold encrypt
  split
  · rename_i hinvalid
    refine Accepts.of_iff (P := False ∧ False) ?_ (accepts_bind (accepts_throw id (by simp))
      fun _ (hfalse : False) => hfalse.elim)
    refine iff_of_false And.left fun hacceptable => ?_
    rw [validateSketch_iff.mpr hacceptable.2.values_length] at hinvalid
    cases hinvalid
  · rename_i hvalid
    have hlengths := validateSketch_iff.mp (by simpa using hvalid)
    refine (accepts_bind (admits_reserve _) fun _ _ => accepts_foldlM
      (A := fun _ => True) (R := AcceptableRegister sketch.config destroyedRegisterStrategy)
      (fun encryptedSketch reg hmem _ => admits_encryptAdditionalRegister hmax
        (hlengths reg hmem) destroyedRegisterStrategy encryptedSketch) trivial).of_iff ?_
    refine and_congr_right fun _ => ?_
    exact ⟨fun hregisters => ⟨hlengths, hregisters⟩, fun hacceptable => hacceptable.register⟩

theorem SketchEncrypterImpl.Reachable.cachesPoints (hmax : maxCounterValue.toNat < 2 ^ 64 - 1)
    {encrypter : SketchEncrypterImpl Rng} (hreachable : Reachable ec maxCounterValue encrypter) :
    CachesPoints ec maxCounterValue encrypter :=
  hreachable.invariant (fun _ rng hcaches => hcaches.setRng rng) CachesPoints.create
    fun sketch strategy _ hcaches => (admits_encrypt hmax sketch strategy).finalState hcaches

/-- What the checks of the encrypter amount to, for one sketch, strategy and encrypter. -/
def AcceptsExactly (ec : EcLibrary Point Rng) (encrypter : SketchEncrypterImpl Rng)
    (sketch : Sketch) (destroyedRegisterStrategy : DestroyedRegisterStrategy) : Prop :=
  ((∃ encryptedSketch encrypter', (encrypt ec sketch destroyedRegisterStrategy).run encrypter
      = .ok encryptedSketch encrypter') ↔ Acceptable sketch destroyedRegisterStrategy)
    ∧ ∀ failure encrypter', (encrypt ec sketch destroyedRegisterStrategy).run encrypter
      = .error failure encrypter' → failure ≠ .outOfRange

theorem AcceptsExactly.size_nonneg {encrypter : SketchEncrypterImpl Rng} {sketch : Sketch}
    {destroyedRegisterStrategy : DestroyedRegisterStrategy}
    (haccepts : AcceptsExactly ec encrypter sketch destroyedRegisterStrategy)
    (hmax : maxCounterValue.toNat < 2 ^ 64 - 1)
    (hreachable : Reachable ec maxCounterValue encrypter)
    (hacceptable : Acceptable sketch destroyedRegisterStrategy) :
    0 ≤ totalCipherSketchBytes sketch := by
  obtain ⟨encryptedSketch, encrypter', hrun⟩ := haccepts.1.mpr hacceptable
  have hadmits : Admits ec maxCounterValue (encrypt ec sketch destroyedRegisterStrategy) _ _ :=
    admits_encrypt hmax sketch destroyedRegisterStrategy
  exact (hadmits.of_ok (hreachable.cachesPoints hmax) hrun).1

/-- **When the checks decide.** For every sketch and every strategy, `Encrypt` succeeds exactly on
the acceptable sketches, unless the sketch is acceptable and so large that its size overflows to a
negative `int`. -/
theorem encrypt_acceptsExactly_iff (hec : ec.Succeeds) (hmax : maxCounterValue.toNat < 2 ^ 64 - 1)
    {encrypter : SketchEncrypterImpl Rng} (hreachable : Reachable ec maxCounterValue encrypter)
    (sketch : Sketch) (destroyedRegisterStrategy : DestroyedRegisterStrategy) :
    AcceptsExactly ec encrypter sketch destroyedRegisterStrategy
      ↔ 0 ≤ totalCipherSketchBytes sketch ∨ ¬ Acceptable sketch destroyedRegisterStrategy := by
  have hadmits : Admits ec maxCounterValue (encrypt ec sketch destroyedRegisterStrategy) _ _ :=
    admits_encrypt hmax sketch destroyedRegisterStrategy
  have hcaches := hreachable.cachesPoints hmax
  constructor
  · intro haccepts
    rw [or_iff_not_imp_right, not_not]
    exact haccepts.size_nonneg hmax hreachable
  · intro hcondition
    refine ⟨(hadmits.ok_iff hec hcaches).trans ?_, fun failure encrypter' =>
      hadmits.error_ne hec hcaches⟩
    rw [and_iff_right_iff_imp]
    exact fun hacceptable => hcondition.resolve_right (not_not_intro hacceptable)

theorem sampleEc_succeeds : sampleEc.Succeeds where
  hashToCurve s := ⟨sampleHash s, rfl⟩
  mul P n := ⟨n.toNat • P, rfl⟩
  toBytesCompressed P := ⟨sampleBytes P, rfl⟩
  encrypt rng _ := ⟨_, rng + 1, rfl⟩

theorem encrypt_acceptsExactly_sampleProto :
    AcceptsExactly sampleEc (createWithPublicKey 0 5) sampleProto .unspecified :=
  (encrypt_acceptsExactly_iff sampleEc_succeeds (by decide) (.create 0) sampleProto
    .unspecified).mpr (Or.inl (by decide))

/-- A sketch with one count in each of its registers. -/
def countSketch (numRegisters : Nat) : Sketch where
  config := ⟨[⟨"bucket"⟩], [⟨"count", .sum⟩]⟩
  registers := List.replicate numRegisters ⟨1, [1]⟩

theorem countSketch_acceptable (numRegisters : Nat) :
    Acceptable (countSketch numRegisters) .flaggedKey where
  values_length reg hmem := by
    rw [List.eq_of_mem_replicate hmem]
    rfl
  register reg hmem := by
    rw [List.eq_of_mem_replicate hmem]
    refine ⟨fun _ => Or.inr rfl, fun _ => ?_⟩
    exact allEncryptable_cons.mpr
      ⟨⟨Or.inl rfl, fun _ => by decide⟩, fun _ _ _ hspec => by cases hspec⟩

/-- With 16269000 registers the size is 2147508000, and the `int` is negative. -/
theorem not_acceptsExactly_countSketch :
    ¬ AcceptsExactly sampleEc (createWithPublicKey 0 5) (countSketch 16269000) .flaggedKey := by
  intro haccepts
  have hsize := haccepts.size_nonneg (by decide) (.create 0) (countSketch_acceptable 16269000)
  rw [totalCipherSketchBytes, countSketch, List.length_replicate] at hsize
  revert hsize
  decide

end AnySketchCorrectness
