import AnySketchCorrectness.Proof.ConflictingKeys

/-!
# The words of a register

The parts of the encrypter append words: one for an index, then one for each value. What they do to
the string and to the caches follows from what appending one word does, and from what the caches
give out.
-/

namespace AnySketchCorrectness

open StateInvariant SketchEncrypterImpl

variable {Point Rng : Type}

/-- What the parts of the encrypter rely on. `R` relates a string to the one with some number of
words appended, and `IsWord` says which strings may be encrypted. -/
structure AppendsWords (ec : EcLibrary Point Rng) (I : SketchEncrypterImpl Rng → Prop)
    (IsWord : ByteString → Prop) (R : ByteString → Nat → ByteString → Prop) : Prop where
  refl : ∀ encryptedSketch, R encryptedSketch 0 encryptedSketch
  trans : ∀ {encryptedSketch encryptedSketch' encryptedSketch'' count count'},
    R encryptedSketch count encryptedSketch' → R encryptedSketch' count' encryptedSketch'' →
      R encryptedSketch (count + count') encryptedSketch''
  word : ∀ {ecPoint} encryptedSketch, IsWord ecPoint →
    Keeps I (encryptAdditionalECPoint ec ecPoint encryptedSketch) (R encryptedSketch 1)
  mapped : ∀ {plaintext ecPoint}, mapToCurve ec plaintext = .ok ecPoint → IsWord ecPoint
  counter : ∀ n, Keeps I (getECPointForInteger ec n) IsWord
  key : Keeps I (getDestroyedRegisterKeyEc ec) IsWord

namespace AppendsWords

variable {ec : EcLibrary Point Rng} {I : SketchEncrypterImpl Rng → Prop}
  {IsWord : ByteString → Prop} {R : ByteString → Nat → ByteString → Prop}
  (hwords : AppendsWords ec I IsWord R)
include hwords

theorem repeated {ecPoint : ByteString} (hecPoint : IsWord ecPoint) (count : Nat)
    (encryptedSketch : ByteString) :
    Keeps I (encryptRepeatedECPoint ec ecPoint count encryptedSketch)
      (R encryptedSketch count) := by
  induction count generalizing encryptedSketch with
  | zero => exact keeps_pure (hwords.refl encryptedSketch)
  | succ count ih =>
      rw [encryptRepeatedECPoint, List.replicate_succ, List.foldlM_cons, Nat.add_comm]
      exact keeps_bind (hwords.word encryptedSketch hecPoint) fun encryptedSketch' hfirst =>
        (ih encryptedSketch').mono fun _ hrest => hwords.trans hfirst hrest

theorem sameValue {indexEc : ByteString} (hindex : IsWord indexEc) (numOfValues : Nat)
    (n : UInt64) (encryptedSketch : ByteString) :
    Keeps I (appendEncryptedRegisterWithSameValue ec indexEc numOfValues n encryptedSketch)
      (R encryptedSketch (1 + numOfValues)) := by
  refine keeps_bind (hwords.word encryptedSketch hindex) fun encryptedSketch' hfirst => ?_
  refine keeps_bind (hwords.counter n) fun valueEc hvalue => ?_
  exact (hwords.repeated hvalue numOfValues encryptedSketch').mono
    fun _ hrest => hwords.trans hfirst hrest

theorem flagged {indexEc : ByteString} (hindex : IsWord indexEc) (numOfValues : Nat)
    (encryptedSketch : ByteString) :
    Keeps I (appendFlaggedDestroyedRegister ec indexEc numOfValues encryptedSketch)
      (R encryptedSketch (1 + numOfValues)) := by
  refine keeps_bind (hwords.word encryptedSketch hindex) fun encryptedSketch' hfirst => ?_
  refine keeps_bind hwords.key fun keyEc hkey => ?_
  exact (hwords.repeated hkey numOfValues encryptedSketch').mono
    fun _ hrest => hwords.trans hfirst hrest

theorem value (valueSpec : ValueSpec) (value : Int64) (encryptedSketch : ByteString) :
    Keeps I (encryptValue ec valueSpec value encryptedSketch) (R encryptedSketch 1) := by
  unfold encryptValue
  cases valueSpec.aggregator with
  | unique =>
      exact keeps_bind (keeps_ofExcept fun ecPoint hmap => hwords.mapped hmap)
        fun ecPoint hecPoint => hwords.word encryptedSketch hecPoint
  | sum =>
      simp only
      split
      · exact keeps_throw _
      · exact keeps_bind (hwords.counter value.toUInt64)
          fun ecPoint hecPoint => hwords.word encryptedSketch hecPoint
  | aggregatorUnspecified => exact keeps_throw _
  | unrecognized number => exact keeps_throw _

theorem values (valueSpecs : List ValueSpec) (registerValues : List Int64)
    (encryptedSketch : ByteString) :
    Keeps I (encryptValues ec valueSpecs registerValues encryptedSketch)
      (R encryptedSketch registerValues.length) := by
  induction registerValues generalizing valueSpecs encryptedSketch with
  | nil =>
      rw [encryptValues]
      exact keeps_pure (hwords.refl encryptedSketch)
  | cons value registerValues ih =>
      cases valueSpecs with
      | nil => exact keeps_throw _
      | cons valueSpec valueSpecs =>
          rw [encryptValues, List.length_cons, Nat.add_comm]
          exact keeps_bind (hwords.value valueSpec value encryptedSketch)
            fun encryptedSketch' hfirst => (ih valueSpecs encryptedSketch').mono
              fun _ hrest => hwords.trans hfirst hrest

/-- A destroyed register becomes one register or two, depending on the strategy. -/
theorem destroyed (reg : Register) (destroyedRegisterStrategy : DestroyedRegisterStrategy)
    (encryptedSketch : ByteString) :
    Keeps I (encryptDestroyedRegister ec reg destroyedRegisterStrategy encryptedSketch)
      fun encryptedSketch' => ∃ registers,
        R encryptedSketch ((1 + reg.values.length) * registers) encryptedSketch' := by
  refine keeps_bind (keeps_ofExcept fun indexEc hmap => hwords.mapped hmap)
    fun indexEc hindex => ?_
  cases destroyedRegisterStrategy with
  | conflictingKeys =>
      refine keeps_bind (hwords.sameValue hindex reg.values.length 1 encryptedSketch)
        fun encryptedSketch' hfirst => ?_
      refine (hwords.sameValue hindex reg.values.length 2 encryptedSketch').mono
        fun encryptedSketch'' hsecond => ⟨2, ?_⟩
      rw [Nat.mul_two]
      exact hwords.trans hfirst hsecond
  | flaggedKey =>
      refine (hwords.flagged hindex reg.values.length encryptedSketch).mono
        fun encryptedSketch' hwhole => ⟨1, ?_⟩
      rwa [Nat.mul_one]
  | unspecified => exact keeps_throw _
  | unrecognized number => exact keeps_throw _

theorem register (reg : Register) (sketchConfig : SketchConfig)
    (destroyedRegisterStrategy : DestroyedRegisterStrategy) (encryptedSketch : ByteString) :
    Keeps I
      (encryptAdditionalRegister ec reg sketchConfig destroyedRegisterStrategy encryptedSketch)
      fun encryptedSketch' => ∃ registers,
        R encryptedSketch ((1 + reg.values.length) * registers) encryptedSketch' := by
  refine keeps_bind (Q := fun _ => True) (keeps_ofExcept fun _ _ => trivial) fun destroyed _ => ?_
  cases destroyed with
  | true => exact hwords.destroyed reg destroyedRegisterStrategy encryptedSketch
  | false =>
      refine keeps_bind (keeps_ofExcept fun indexEc hmap => hwords.mapped hmap)
        fun indexEc hindex => ?_
      refine keeps_bind (hwords.word encryptedSketch hindex) fun encryptedSketch' hfirst => ?_
      refine (hwords.values sketchConfig.values reg.values encryptedSketch').mono
        fun encryptedSketch'' hrest => ⟨1, ?_⟩
      rw [Nat.mul_one]
      exact hwords.trans hfirst hrest

/-- **An encrypted sketch is whole registers**, each of an index and one word for every column. -/
theorem sketch (sketch : Sketch) (destroyedRegisterStrategy : DestroyedRegisterStrategy) :
    Keeps I (encrypt ec sketch destroyedRegisterStrategy) fun encryptedSketch =>
      ∃ registers, R [] ((1 + sketch.config.values.length) * registers) encryptedSketch := by
  unfold encrypt
  split
  · exact keeps_bind (Q := fun _ => False) (keeps_throw _) fun _ hfalse => hfalse.elim
  rename_i hvalid
  have hlengths := validateSketch_iff.mp (by simpa using hvalid)
  refine keeps_bind (keeps_reserve _) fun _ _ => ?_
  -- the registers done so far are whole, provided that they have a value for every column
  refine (keeps_foldlM (A := fun (done : List Register) (encryptedSketch : ByteString) =>
    (∀ reg ∈ done, reg.values.length = sketch.config.values.length) →
      ∃ registers, R [] ((1 + sketch.config.values.length) * registers) encryptedSketch)
    ?_ sketch.registers [] [] fun _ => ⟨0, hwords.refl []⟩).mono fun _ hwhole => hwhole hlengths
  intro done reg encryptedSketch hwhole
  refine (hwords.register reg sketch.config destroyedRegisterStrategy encryptedSketch).mono ?_
  rintro encryptedSketch' ⟨added, hadded⟩ hdone
  obtain ⟨hbefore, hreg⟩ := List.forall_mem_append.mp hdone
  obtain ⟨registers, hregisters⟩ := hwhole hbefore
  rw [hreg reg List.mem_cons_self] at hadded
  refine ⟨registers + added, ?_⟩
  rw [Nat.mul_add]
  exact hwords.trans hregisters hadded

end AppendsWords

end AnySketchCorrectness
