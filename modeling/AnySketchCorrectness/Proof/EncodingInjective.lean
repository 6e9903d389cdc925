import AnySketchCorrectness.Library.PrefixCode
import AnySketchCorrectness.Proof.Acceptance

/-!
# What the encoding of a sketch keeps

Two sketches have the same words when their registers agree up to the two losses that are meant: the
values of a destroyed register are dropped, and counters are capped. Under `CONFLICTING_KEYS` a
destroyed register becomes two records, but the first of them differs from every other record in the
column that destroyed it, so the words can be read from the front.
-/

namespace AnySketchCorrectness

open StateInvariant SketchEncrypterImpl

variable {Point Rng : Type}

/-- Values that come out as the same point. -/
def SameValue (maxCounterValue : UInt64) (valueSpec : ValueSpec) (value value' : Int64) : Prop :=
  (valueSpec.aggregator = .unique → value = value')
    ∧ (valueSpec.aggregator = .sum → min value.toInt (maxCounterValue.toNat + 1)
      = min value'.toInt (maxCounterValue.toNat + 1))

/-- Registers that agree but for what the encoding is meant to lose. -/
def SameRegister (maxCounterValue : UInt64) (sketchConfig : SketchConfig) (reg reg' : Register) :
    Prop :=
  reg.index = reg'.index
    ∧ ((IsDestroyed reg sketchConfig ∧ IsDestroyed reg' sketchConfig)
      ∨ (¬ IsDestroyed reg sketchConfig ∧ ¬ IsDestroyed reg' sketchConfig
        ∧ ∀ (column : Nat) (valueSpec : ValueSpec) (value value' : Int64),
          sketchConfig.values[column]? = some valueSpec → reg.values[column]? = some value →
            reg'.values[column]? = some value' →
              SameValue maxCounterValue valueSpec value value'))

/-- The strings that are hashed to the curve for a register. -/
inductive HashesString (sketchConfig : SketchConfig)
    (destroyedRegisterStrategy : DestroyedRegisterStrategy) (reg : Register) : String → Prop
  | index : HashesString sketchConfig destroyedRegisterStrategy reg (toString reg.index.toInt)
  | unique {column : Nat} {valueSpec : ValueSpec} {value : Int64} :
      ¬ IsDestroyed reg sketchConfig → sketchConfig.values[column]? = some valueSpec →
      reg.values[column]? = some value → valueSpec.aggregator = .unique →
      HashesString sketchConfig destroyedRegisterStrategy reg (toString value.toInt)
  | key : IsDestroyed reg sketchConfig → destroyedRegisterStrategy = .flaggedKey →
      HashesString sketchConfig destroyedRegisterStrategy reg destroyedRegisterKey

theorem natRepr_injective : Function.Injective Nat.repr := by
  intro m n heq
  have hdigits := congrArg (Nat.ofDigitChars 10 · 0) (congrArg String.toList heq)
  simpa only [Nat.toList_repr, Nat.ofDigitChars_ten_toDigits] using hdigits

theorem notMem_toList_repr {c : Char} (hdigit : c.isDigit = false) (m : ℕ) :
    c ∉ (Nat.repr m).toList := by
  intro hc
  rw [Nat.toList_repr] at hc
  rw [Nat.isDigit_of_mem_toDigits (by decide) (by decide) hc] at hdigit
  cases hdigit

theorem minus_append_ne_repr (s : String) (m : ℕ) : "-" ++ s ≠ Nat.repr m := by
  intro heq
  refine notMem_toList_repr (c := '-') (by decide) m ?_
  rw [← heq, String.toList_append]
  exact List.mem_append_left _ (List.mem_singleton_self _)

theorem intRepr_injective : Function.Injective Int.repr := by
  intro m n heq
  rw [Int.repr_eq_if, Int.repr_eq_if] at heq
  split at heq
  · split at heq
    · have habs := natRepr_injective heq
      omega
    · exact absurd heq.symm (minus_append_ne_repr _ _)
  · split at heq
    · exact absurd heq (minus_append_ne_repr _ _)
    · have habs := natRepr_injective ((String.append_right_inj "-").mp heq)
      omega

theorem toString_toInt_inj {x y : Int64} : toString x.toInt = toString y.toInt ↔ x = y := by
  constructor
  · intro heq
    exact Int64.toInt_inj.mp (intRepr_injective heq)
  · rintro rfl
    rfl

theorem toString_ne_of_mem {s : String} {c : Char} (hmem : c ∈ s.toList)
    (hdigit : c.isDigit = false) (hminus : c ≠ '-') (n : ℤ) : toString n ≠ s := by
  rintro rfl
  cases n with
  | ofNat n => exact notMem_toList_repr hdigit n hmem
  | negSucc n =>
      change c ∈ ("-" ++ Nat.repr (n + 1)).toList at hmem
      rw [String.toList_append, List.mem_append] at hmem
      rcases hmem with hsign | hrest
      · exact hminus (List.mem_singleton.mp hsign)
      · exact notMem_toList_repr hdigit (n + 1) hrest

theorem toString_ne_destroyedRegisterKey (n : ℤ) : toString n ≠ destroyedRegisterKey :=
  toString_ne_of_mem (c := 'd') (by decide) (by decide) (by decide) n

variable [AddCommGroup Point]

/-- The counters have different points, and none is the point of a decimal or of the key for
destroyed registers. -/
structure DistinctMultiples (H : String → Point) (maxCounterValue : UInt64) : Prop where
  injective : ∀ m n, 1 ≤ m → m ≤ max 2 (maxCounterValue.toNat + 1) → 1 ≤ n →
    n ≤ max 2 (maxCounterValue.toNat + 1) →
    m • H unitECPointSeed = n • H unitECPointSeed → m = n
  ne_decimal : ∀ n, 1 ≤ n → n ≤ max 2 (maxCounterValue.toNat + 1) → ∀ value : Int64,
    n • H unitECPointSeed ≠ H (toString value.toInt)
  ne_key : ∀ n, 1 ≤ n → n ≤ max 2 (maxCounterValue.toNat + 1) →
    n • H unitECPointSeed ≠ H destroyedRegisterKey

section Registers

variable {H : String → Point} {maxCounterValue : UInt64} {sketchConfig : SketchConfig}
  {destroyedRegisterStrategy : DestroyedRegisterStrategy} {reg reg' : Register}

/-! ### Values -/

theorem counterPoint_eq_iff (hmultiples : DistinctMultiples H maxCounterValue) {m n : ℕ}
    (hm : 1 ≤ m) (hn : 1 ≤ n) :
    counterPoint H maxCounterValue m = counterPoint H maxCounterValue n
      ↔ min m (maxCounterValue.toNat + 1) = min n (maxCounterValue.toNat + 1) := by
  constructor
  · exact hmultiples.injective _ _ (by omega) (by omega) (by omega) (by omega)
  · intro heq
    rw [counterPoint, counterPoint, heq]

theorem counterPoint_ne_integerPoint (hmultiples : DistinctMultiples H maxCounterValue) {m : ℕ}
    (hm : 1 ≤ m) (value : Int64) : counterPoint H maxCounterValue m ≠ integerPoint H value :=
  hmultiples.ne_decimal _ (by omega) (by omega) value

/-- The strings of two registers are told apart by their points. -/
def HashesApart (H : String → Point) (sketchConfig : SketchConfig)
    (destroyedRegisterStrategy : DestroyedRegisterStrategy) (reg reg' : Register) : Prop :=
  ∀ s s', HashesString sketchConfig destroyedRegisterStrategy reg s →
    HashesString sketchConfig destroyedRegisterStrategy reg' s' → H s = H s' → s = s'

theorem valuePoint_eq_iff (hmultiples : DistinctMultiples H maxCounterValue)
    (happart : HashesApart H sketchConfig destroyedRegisterStrategy reg reg')
    (hkept : ¬ IsDestroyed reg sketchConfig) (hkept' : ¬ IsDestroyed reg' sketchConfig)
    {column : ℕ} {valueSpec : ValueSpec} {value value' : Int64}
    (hspec : sketchConfig.values[column]? = some valueSpec)
    (hvalue : reg.values[column]? = some value) (hvalue' : reg'.values[column]? = some value')
    (hencryptable : IsEncryptable valueSpec value)
    (hencryptable' : IsEncryptable valueSpec value') :
    valuePoint H maxCounterValue valueSpec value = valuePoint H maxCounterValue valueSpec value'
      ↔ SameValue maxCounterValue valueSpec value value' := by
  rcases hencryptable.1 with hsum | hunique
  · have hpoint : ∀ value, valuePoint H maxCounterValue valueSpec value
        = counterPoint H maxCounterValue value.toInt.toNat := by
      intro value
      rw [valuePoint, hsum]
    have hsame : SameValue maxCounterValue valueSpec value value'
        ↔ min value.toInt (maxCounterValue.toNat + 1)
          = min value'.toInt (maxCounterValue.toNat + 1) := by
      simp [SameValue, hsum]
    have hpositive := hencryptable.2 hsum
    have hpositive' := hencryptable'.2 hsum
    rw [Int64.le_iff_toInt_le, Int64.toInt_one] at hpositive hpositive'
    rw [hpoint, hpoint, hsame, counterPoint_eq_iff hmultiples (by omega) (by omega)]
    omega
  · have hpoint : ∀ value, valuePoint H maxCounterValue valueSpec value
        = integerPoint H value := by
      intro value
      rw [valuePoint, hunique]
    have hsame : SameValue maxCounterValue valueSpec value value' ↔ value = value' := by
      simp [SameValue, hunique]
    rw [hpoint, hpoint, hsame]
    constructor
    · intro heq
      exact toString_toInt_inj.mp (happart _ _ (.unique hkept hspec hvalue hunique)
        (.unique hkept' hspec hvalue' hunique) heq)
    · rintro rfl
      rfl

theorem zipWith_eq_iff {α β γ : Type} {f : α → β → γ} {as : List α} {bs bs' : List β}
    (hlength : bs.length = as.length) (hlength' : bs'.length = as.length) :
    List.zipWith f as bs = List.zipWith f as bs' ↔ ∀ (i : ℕ) (a : α) (b b' : β),
      as[i]? = some a → bs[i]? = some b → bs'[i]? = some b' → f a b = f a b' := by
  constructor
  · intro heq i a b b' ha hb hb'
    have hi := congrArg (fun l => l[i]?) heq
    simpa [List.getElem?_zipWith, ha, hb, hb'] using hi
  · intro heq
    apply List.ext_getElem
    · rw [List.length_zipWith, List.length_zipWith, hlength, hlength']
    · intro i hi hi'
      rw [List.getElem_zipWith, List.getElem_zipWith]
      exact heq i _ _ _ (List.getElem?_eq_getElem _) (List.getElem?_eq_getElem _)
        (List.getElem?_eq_getElem _)

omit [AddCommGroup Point] in
theorem HashesApart.symm (happart : HashesApart H sketchConfig destroyedRegisterStrategy reg reg') :
    HashesApart H sketchConfig destroyedRegisterStrategy reg' reg :=
  fun s s' hs hs' heq => (happart s' s hs' hs heq.symm).symm

omit [AddCommGroup Point] in
theorem HashesApart.index_eq
    (happart : HashesApart H sketchConfig destroyedRegisterStrategy reg reg')
    (heq : integerPoint H reg.index = integerPoint H reg'.index) : reg.index = reg'.index :=
  toString_toInt_inj.mp (happart _ _ .index .index heq)

/-! ### Registers -/

theorem registerPoints_of_destroyed (hdestroyed : IsDestroyed reg sketchConfig) :
    registerPoints H maxCounterValue sketchConfig destroyedRegisterStrategy reg
      = destroyedRegisterPoints H maxCounterValue destroyedRegisterStrategy reg :=
  if_pos hdestroyed

theorem registerPoints_of_kept (hkept : ¬ IsDestroyed reg sketchConfig) :
    registerPoints H maxCounterValue sketchConfig destroyedRegisterStrategy reg
      = integerPoint H reg.index
        :: List.zipWith (valuePoint H maxCounterValue) sketchConfig.values reg.values :=
  if_neg hkept

/-- The first record of a destroyed register holds one marker in all columns. -/
theorem exists_marker (hmultiples : DistinctMultiples H maxCounterValue)
    (hdestroyed : IsDestroyed reg sketchConfig)
    (hacceptable : AcceptableRegister sketchConfig destroyedRegisterStrategy reg) :
    ∃ marker rest, destroyedRegisterPoints H maxCounterValue destroyedRegisterStrategy reg
        = (integerPoint H reg.index :: List.replicate reg.values.length marker) ++ rest
      ∧ ∀ value : Int64, marker = integerPoint H value →
        ∃ s, HashesString sketchConfig destroyedRegisterStrategy reg s
          ∧ H s = integerPoint H value ∧ s ≠ toString value.toInt := by
  rcases hacceptable.destroyed hdestroyed with rfl | rfl
  · refine ⟨counterPoint H maxCounterValue 1, _, rfl, fun value hmarker => ?_⟩
    exact absurd hmarker (counterPoint_ne_integerPoint hmultiples (Nat.le_refl 1) value)
  · refine ⟨H destroyedRegisterKey, [], (List.append_nil _).symm, fun value hmarker => ?_⟩
    exact ⟨destroyedRegisterKey, .key hdestroyed rfl, hmarker,
      (toString_ne_destroyedRegisterKey value.toInt).symm⟩

/-- The column that destroyed a register shows a marker, and that is no decimal. -/
theorem registerPoints_append_ne (hmultiples : DistinctMultiples H maxCounterValue)
    (happart : HashesApart H sketchConfig destroyedRegisterStrategy reg reg')
    (hlength : reg.values.length = sketchConfig.values.length)
    (hlength' : reg'.values.length = sketchConfig.values.length)
    (hacceptable : AcceptableRegister sketchConfig destroyedRegisterStrategy reg)
    (hdestroyed : IsDestroyed reg sketchConfig) (hkept' : ¬ IsDestroyed reg' sketchConfig)
    (text text' : List Point) :
    registerPoints H maxCounterValue sketchConfig destroyedRegisterStrategy reg ++ text
      ≠ registerPoints H maxCounterValue sketchConfig destroyedRegisterStrategy reg' ++ text' := by
  intro htext
  obtain ⟨marker, rest, hpoints, hmarker⟩ := exists_marker hmultiples hdestroyed hacceptable
  rw [registerPoints_of_destroyed hdestroyed, registerPoints_of_kept hkept',
    hpoints, List.append_assoc] at htext
  have hrecords := (List.append_inj htext (by
    simp [hlength, hlength'])).1
  have hvalues := (List.cons.inj hrecords).2
  obtain ⟨column, valueSpec, value, hspec, hvalue, hunique, -⟩ := hdestroyed
  have hcolumn : column < reg'.values.length := by
    rw [hlength', ← hlength]
    exact (List.getElem?_eq_some_iff.mp hvalue).1
  have hvalue' := List.getElem?_eq_getElem hcolumn
  have hmarkerEq : marker = integerPoint H reg'.values[column] := by
    have hshown := congrArg (fun l => l[column]?) hvalues
    have hbound : column < reg.values.length := (List.getElem?_eq_some_iff.mp hvalue).1
    simpa [List.getElem?_zipWith, List.getElem?_replicate_of_lt hbound, hspec, hvalue',
      valuePoint, hunique] using hshown
  obtain ⟨s, hs, heq, hne⟩ := hmarker _ hmarkerEq
  exact hne (happart s _ hs (.unique hkept' hspec hvalue' hunique) heq)

theorem length_destroyedRegisterPoints (hlength : reg.values.length = reg'.values.length) :
    (destroyedRegisterPoints H maxCounterValue destroyedRegisterStrategy reg).length
      = (destroyedRegisterPoints H maxCounterValue destroyedRegisterStrategy reg').length := by
  unfold destroyedRegisterPoints
  cases destroyedRegisterStrategy with
  | conflictingKeys => simp [hlength]
  | flaggedKey => simp [hlength]
  | unspecified => rfl
  | unrecognized number => rfl

theorem registerPoints_front (hmultiples : DistinctMultiples H maxCounterValue)
    (happart : HashesApart H sketchConfig destroyedRegisterStrategy reg reg')
    (hlength : reg.values.length = sketchConfig.values.length)
    (hlength' : reg'.values.length = sketchConfig.values.length)
    (hacceptable : AcceptableRegister sketchConfig destroyedRegisterStrategy reg)
    (hacceptable' : AcceptableRegister sketchConfig destroyedRegisterStrategy reg')
    {text text' : List Point}
    (htext : registerPoints H maxCounterValue sketchConfig destroyedRegisterStrategy reg ++ text
      = registerPoints H maxCounterValue sketchConfig destroyedRegisterStrategy reg' ++ text') :
    SameRegister maxCounterValue sketchConfig reg reg' ∧ text = text' := by
  by_cases hdestroyed : IsDestroyed reg sketchConfig
  · by_cases hdestroyed' : IsDestroyed reg' sketchConfig
    · rw [registerPoints_of_destroyed hdestroyed,
        registerPoints_of_destroyed hdestroyed'] at htext
      obtain ⟨hpoints, hrest⟩ := List.append_inj htext
        (length_destroyedRegisterPoints (hlength.trans hlength'.symm))
      obtain ⟨marker, rest, hmarked, -⟩ := exists_marker hmultiples hdestroyed hacceptable
      obtain ⟨marker', rest', hmarked', -⟩ := exists_marker hmultiples hdestroyed' hacceptable'
      rw [hmarked, hmarked', List.cons_append, List.cons_append, List.cons.injEq] at hpoints
      exact ⟨⟨happart.index_eq hpoints.1, Or.inl ⟨hdestroyed, hdestroyed'⟩⟩, hrest⟩
    · exact absurd htext (registerPoints_append_ne hmultiples happart hlength hlength' hacceptable
        hdestroyed hdestroyed' text text')
  · by_cases hdestroyed' : IsDestroyed reg' sketchConfig
    · exact absurd htext.symm (registerPoints_append_ne hmultiples happart.symm hlength' hlength
        hacceptable' hdestroyed' hdestroyed text' text)
    · rw [registerPoints_of_kept hdestroyed,
        registerPoints_of_kept hdestroyed'] at htext
      obtain ⟨hpoints, hrest⟩ := List.append_inj htext (by simp [hlength, hlength'])
      rw [List.cons.injEq, zipWith_eq_iff hlength hlength'] at hpoints
      refine ⟨⟨happart.index_eq hpoints.1, Or.inr ⟨hdestroyed, hdestroyed', ?_⟩⟩, hrest⟩
      intro column valueSpec value value' hspec hvalue hvalue'
      exact (valuePoint_eq_iff hmultiples happart hdestroyed hdestroyed' hspec hvalue hvalue'
        (hacceptable.kept hdestroyed _ _ _ hspec hvalue)
        (hacceptable'.kept hdestroyed' _ _ _ hspec hvalue')).mp
          (hpoints.2 column valueSpec value value' hspec hvalue hvalue')

theorem registerPoints_eq_of_same (hmultiples : DistinctMultiples H maxCounterValue)
    (happart : HashesApart H sketchConfig destroyedRegisterStrategy reg reg')
    (hlength : reg.values.length = sketchConfig.values.length)
    (hlength' : reg'.values.length = sketchConfig.values.length)
    (hacceptable : AcceptableRegister sketchConfig destroyedRegisterStrategy reg)
    (hacceptable' : AcceptableRegister sketchConfig destroyedRegisterStrategy reg')
    (hsame : SameRegister maxCounterValue sketchConfig reg reg') :
    registerPoints H maxCounterValue sketchConfig destroyedRegisterStrategy reg
      = registerPoints H maxCounterValue sketchConfig destroyedRegisterStrategy reg' := by
  obtain ⟨hindex, ⟨hdestroyed, hdestroyed'⟩ | ⟨hkept, hkept', hvalues⟩⟩ := hsame
  · rw [registerPoints_of_destroyed hdestroyed,
      registerPoints_of_destroyed hdestroyed']
    unfold destroyedRegisterPoints
    rw [hindex, hlength, hlength']
  · rw [registerPoints_of_kept hkept, registerPoints_of_kept hkept', hindex,
      List.cons.injEq, zipWith_eq_iff hlength hlength']
    refine ⟨rfl, fun column valueSpec value value' hspec hvalue hvalue' => ?_⟩
    exact (valuePoint_eq_iff hmultiples happart hkept hkept' hspec hvalue hvalue'
      (hacceptable.kept hkept _ _ _ hspec hvalue)
      (hacceptable'.kept hkept' _ _ _ hspec hvalue')).mpr
        (hvalues column valueSpec value value' hspec hvalue hvalue')

theorem registerPoints_ne_nil (hmultiples : DistinctMultiples H maxCounterValue)
    (hacceptable : AcceptableRegister sketchConfig destroyedRegisterStrategy reg) :
    registerPoints H maxCounterValue sketchConfig destroyedRegisterStrategy reg ≠ [] := by
  by_cases hdestroyed : IsDestroyed reg sketchConfig
  · obtain ⟨marker, rest, hpoints, -⟩ := exists_marker hmultiples hdestroyed hacceptable
    rw [registerPoints_of_destroyed hdestroyed, hpoints]
    exact List.cons_ne_nil _ _
  · rw [registerPoints_of_kept hdestroyed]
    exact List.cons_ne_nil _ _

end Registers

/-! ### Sketches -/

def UsesString (sketch : Sketch) (destroyedRegisterStrategy : DestroyedRegisterStrategy)
    (s : String) : Prop :=
  ∃ reg ∈ sketch.registers, HashesString sketch.config destroyedRegisterStrategy reg s

section Sketches

variable {ec : EcLibrary Point Rng} {H : String → Point}
  {decrypt : ByteString → ByteString → Point} {maxCounterValue : UInt64}
  {destroyedRegisterStrategy : DestroyedRegisterStrategy} {sketch sketch' : Sketch}

theorem readable_registerPoints (hmultiples : DistinctMultiples H maxCounterValue)
    (hconfig : sketch'.config = sketch.config)
    (hinjective : Set.InjOn H {s | UsesString sketch destroyedRegisterStrategy s
      ∨ UsesString sketch' destroyedRegisterStrategy s})
    (hacceptable : Acceptable sketch destroyedRegisterStrategy)
    (hacceptable' : Acceptable sketch' destroyedRegisterStrategy) :
    PrefixCode.Readable
      (registerPoints H maxCounterValue sketch.config destroyedRegisterStrategy)
      (SameRegister maxCounterValue sketch.config) sketch.registers sketch'.registers := by
  have hlength := hacceptable.values_length
  have hlength' := hacceptable'.values_length
  have hregister := hacceptable.register
  have hregister' := hacceptable'.register
  rw [hconfig] at hlength' hregister'
  have happart : ∀ reg ∈ sketch.registers, ∀ reg' ∈ sketch'.registers,
      HashesApart H sketch.config destroyedRegisterStrategy reg reg' := by
    intro reg hreg reg' hreg' s s' hs hs' heq
    refine hinjective (Or.inl ⟨reg, hreg, hs⟩) (Or.inr ⟨reg', hreg', ?_⟩) heq
    rw [hconfig]
    exact hs'
  constructor
  · intro reg hreg
    exact registerPoints_ne_nil hmultiples (hregister reg hreg)
  · intro reg' hreg'
    exact registerPoints_ne_nil hmultiples (hregister' reg' hreg')
  · intro reg hreg reg' hreg' text text'
    exact registerPoints_front hmultiples (happart reg hreg reg' hreg') (hlength reg hreg)
      (hlength' reg' hreg') (hregister reg hreg) (hregister' reg' hreg')
  · intro reg hreg reg' hreg'
    exact registerPoints_eq_of_same hmultiples (happart reg hreg reg' hreg') (hlength reg hreg)
      (hlength' reg' hreg') (hregister reg hreg) (hregister' reg' hreg')

variable {encrypter encrypter' final final' : SketchEncrypterImpl Rng}
  {encryptedSketch encryptedSketch' : ByteString}

/-- **What the encoding loses.** Two sketches with one config and one strategy decrypt to the same
words exactly when they have equally many registers and these agree pairwise: the index, and either
both are destroyed, or neither is and the UNIQUE values and the capped SUM values are the same. -/
theorem decryptWords_eq_iff (hec : ec.Correct H decrypt)
    (hmultiples : DistinctMultiples H maxCounterValue) (hmax : maxCounterValue.toNat < 2 ^ 64 - 1)
    (hconfig : sketch'.config = sketch.config)
    (hinjective : Set.InjOn H {s | UsesString sketch destroyedRegisterStrategy s
      ∨ UsesString sketch' destroyedRegisterStrategy s})
    (hreachable : Reachable ec maxCounterValue encrypter)
    (hrun : (encrypt ec sketch destroyedRegisterStrategy).run encrypter
      = .ok encryptedSketch final)
    (hreachable' : Reachable ec maxCounterValue encrypter')
    (hrun' : (encrypt ec sketch' destroyedRegisterStrategy).run encrypter'
      = .ok encryptedSketch' final') :
    decryptWords decrypt encryptedSketch = decryptWords decrypt encryptedSketch'
      ↔ List.Forall₂ (SameRegister maxCounterValue sketch.config) sketch.registers
        sketch'.registers := by
  have hacceptable := ((admits_encrypt hmax sketch destroyedRegisterStrategy).of_ok
    (hreachable.cachesPoints hmax) hrun).2
  have hacceptable' := ((admits_encrypt hmax sketch' destroyedRegisterStrategy).of_ok
    (hreachable'.cachesPoints hmax) hrun').2
  have hwords := ((encodes_encrypt hec hmax sketch destroyedRegisterStrategy).result
    (hreachable.cacheValid hec hmax) hrun).2.2
  have hwords' := ((encodes_encrypt hec hmax sketch' destroyedRegisterStrategy).result
    (hreachable'.cacheValid hec hmax) hrun').2.2
  rw [hwords, hwords', hconfig]
  exact (readable_registerPoints hmultiples hconfig hinjective hacceptable
    hacceptable').flatMap_eq_iff

end Sketches

/-! A hash whose values on decimals are away from the small multiples of the unit point. -/

def spreadHash (s : String) : ZMod 251 :=
  if s = unitECPointSeed then 1
  else if s = destroyedRegisterKey then 100
  else ((s.toList.foldl (fun hash c => 31 * hash + c.toNat) 7 % 150 + 101 : ℕ) : ZMod 251)

def spreadEc : EcLibrary (ZMod 251) Nat :=
  { sampleEc with hashToCurve := fun s => .ok (spreadHash s) }

theorem spreadEc_correct : spreadEc.Correct spreadHash sampleDecrypt where
  hashToCurve_eq hhash := by cases hhash; rfl
  mul_eq := sampleEc_correct.mul_eq
  encrypt_eq := sampleEc_correct.encrypt_eq

theorem nsmul_spreadHash (n : ℕ) : n • spreadHash unitECPointSeed = (n : ZMod 251) := by
  rw [spreadHash, if_pos rfl, nsmul_one]

theorem spreadHash_multiples : DistinctMultiples spreadHash 5 := by
  have hsix : max 2 ((5 : UInt64).toNat + 1) = 6 := by decide
  constructor
  · intro m n _ hm _ hn heq
    rw [nsmul_spreadHash, nsmul_spreadHash, ZMod.natCast_eq_natCast_iff'] at heq
    omega
  · intro n _ hn value heq
    have hunit : toString value.toInt ≠ unitECPointSeed :=
      toString_ne_of_mem (c := 'u') (by decide) (by decide) (by decide) value.toInt
    rw [nsmul_spreadHash, spreadHash, if_neg hunit,
      if_neg (toString_ne_destroyedRegisterKey value.toInt), ZMod.natCast_eq_natCast_iff'] at heq
    omega
  · intro n _ hn heq
    have hkey : spreadHash destroyedRegisterKey = ((100 : ℕ) : ZMod 251) := by
      rw [spreadHash, if_neg (by decide), if_pos rfl]
      rfl
    rw [nsmul_spreadHash, hkey, ZMod.natCast_eq_natCast_iff'] at heq
    omega

/-- The sample with another value in the destroyed register and another large count. -/
def alteredProto : Sketch where
  config := sampleProto.config
  registers := [⟨3, [0, 7]⟩, ⟨4, [6, 100]⟩]

theorem protos_encrypt : [sampleProto, alteredProto].all (fun sketch => succeeds
    ((encrypt spreadEc sketch .conflictingKeys).run (createWithPublicKey 0 5))) = true := by
  decide +kernel

theorem alteredRegister_destroyed (count : Int64) :
    IsDestroyed ⟨3, [0, count]⟩ sampleProto.config :=
  ⟨0, ⟨"id", .unique⟩, 0, rfl, rfl, rfl, by decide⟩

theorem alteredRegister_kept (count : Int64) :
    ¬ IsDestroyed ⟨4, [6, count]⟩ sampleProto.config := by
  rw [isDestroyed_iff_zip]
  simp [sampleProto]

theorem hashesString_altered {count count' : Int64} {s : String}
    (huses : ∃ reg ∈ [(⟨3, [0, count]⟩ : Register), ⟨4, [6, count']⟩],
      HashesString sampleProto.config .conflictingKeys reg s) : s ∈ ["3", "4", "6"] := by
  obtain ⟨reg, hreg, hs⟩ := huses
  rw [List.mem_pair] at hreg
  rcases hreg with rfl | rfl
  · cases hs with
    | index =>
        change toString (3 : Int64).toInt ∈ _
        decide
    | unique hkept => exact absurd (alteredRegister_destroyed count) hkept
    | key _ hstrategy => cases hstrategy
  · cases hs with
    | index =>
        change toString (4 : Int64).toInt ∈ _
        decide
    | @unique column _ _ _ hspec hvalue hunique =>
        match column, hspec, hvalue with
        | 0, hspec, hvalue =>
            cases hvalue
            decide
        | 1, hspec, _ =>
            cases hspec
            cases hunique
        | column + 2, hspec, _ => cases hspec
    | key _ hstrategy => cases hstrategy

theorem spreadHash_injOn : Set.InjOn spreadHash {s | UsesString sampleProto .conflictingKeys s
    ∨ UsesString alteredProto .conflictingKeys s} := by
  have hlist : ∀ s ∈ ["3", "4", "6"], ∀ s' ∈ ["3", "4", "6"],
      spreadHash s = spreadHash s' → s = s' := by
    decide +kernel
  intro s hs s' hs' heq
  refine hlist s ?_ s' ?_ heq
  · exact hs.elim hashesString_altered hashesString_altered
  · exact hs'.elim hashesString_altered hashesString_altered

theorem alteredProto_same : List.Forall₂ (SameRegister 5 sampleProto.config) sampleProto.registers
    alteredProto.registers := by
  refine .cons ⟨rfl, Or.inl ⟨alteredRegister_destroyed 2, alteredRegister_destroyed 7⟩⟩
    (.cons ⟨rfl, Or.inr ⟨alteredRegister_kept 9, alteredRegister_kept 100, ?_⟩⟩ .nil)
  intro column valueSpec value value' hspec hvalue hvalue'
  match column, hspec, hvalue, hvalue' with
  | 0, hspec, hvalue, hvalue' =>
      cases hspec
      cases hvalue
      cases hvalue'
      exact ⟨fun _ => rfl, fun hsum => (by cases hsum)⟩
  | 1, hspec, hvalue, hvalue' =>
      cases hspec
      cases hvalue
      cases hvalue'
      exact ⟨fun hunique => (by cases hunique), fun _ => by decide⟩
  | column + 2, hspec, _, _ => cases hspec

theorem decryptWords_eq_iff_alteredProto : ∃ encryptedSketch final encryptedSketch' final',
    (encrypt spreadEc sampleProto .conflictingKeys).run (createWithPublicKey 0 5)
      = .ok encryptedSketch final ∧
    (encrypt spreadEc alteredProto .conflictingKeys).run (createWithPublicKey 0 5)
      = .ok encryptedSketch' final' ∧
    decryptWords sampleDecrypt encryptedSketch = decryptWords sampleDecrypt encryptedSketch' := by
  obtain ⟨encryptedSketch, final, hrun⟩ := exists_ok_of_succeeds
    (List.all_eq_true.mp protos_encrypt sampleProto (by simp))
  obtain ⟨encryptedSketch', final', hrun'⟩ := exists_ok_of_succeeds
    (List.all_eq_true.mp protos_encrypt alteredProto (by simp))
  have hmax : (5 : UInt64).toNat < 2 ^ 64 - 1 := by decide
  have hconfig : alteredProto.config = sampleProto.config := rfl
  have hreachable : Reachable spreadEc 5 (createWithPublicKey 0 5) := .create 0
  have hiff := decryptWords_eq_iff spreadEc_correct spreadHash_multiples hmax hconfig
    spreadHash_injOn hreachable hrun hreachable hrun'
  exact ⟨encryptedSketch, final, encryptedSketch', final', hrun, hrun',
    hiff.mpr alteredProto_same⟩

end AnySketchCorrectness
