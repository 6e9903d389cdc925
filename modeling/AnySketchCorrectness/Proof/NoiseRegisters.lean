import AnySketchCorrectness.EncryptSketch
import AnySketchCorrectness.Proof.EncryptedLength
import AnySketchCorrectness.Proof.DistributedNoiser

/-!
# Noise registers

Noise registers go to the end of a string that is already there, and a receiver splits the string
into registers by length alone. So every register, real or noise, has to take up the same number of
words.
-/

namespace AnySketchCorrectness

open StateInvariant SketchEncrypterImpl

variable {Point Rng : Type} {ec : EcLibrary Point Rng} {H : String → Point}
  {decrypt : ByteString → ByteString → Point} {I : SketchEncrypterImpl Rng → Prop}

/-! ### Appending registers -/

/-- A register with one value for all its columns, under the identifier of noise registers. -/
def IsNoiseRegister (H : String → Point) (decrypt : ByteString → ByteString → Point)
    (valueCount : Nat) (block : ByteString) : Prop :=
  block.length = (valueCount + 1) * bytesPerCipherText ∧
  ∃ P, decryptWords decrypt block = H publisherNoiseRegisterId :: List.replicate valueCount P

theorem Appends.isNoiseRegister {encryptedSketch encryptedSketch' : ByteString} {valueCount : Nat}
    {P : Point} (happends : Appends decrypt encryptedSketch
      (H publisherNoiseRegisterId :: List.replicate valueCount P) encryptedSketch') :
    ∃ block, encryptedSketch' = encryptedSketch ++ block ∧
      IsNoiseRegister H decrypt valueCount block := by
  obtain ⟨block, rfl, hencodes⟩ := happends
  refine ⟨block, rfl, ?_, P, hencodes.2⟩
  rw [hencodes.length_eq, List.length_cons, List.length_replicate, Nat.mul_comm]

section AnyInvariant

variable [AddCommGroup Point] (hec : ec.Correct H decrypt)
  (hrng : ∀ encrypter rng, I encrypter → I { encrypter with rng })
include hec hrng

/-- One noise register: the identifier, and one random point as every value. -/
theorem appends_appendNoiseRegister {idEc : ByteString}
    (hid : ec.toBytesCompressed (H publisherNoiseRegisterId) = .ok idEc) (valueCount : Nat)
    (encryptedSketch : ByteString) :
    Keeps I (appendNoiseRegister ec idEc valueCount encryptedSketch) fun encryptedSketch' =>
      ∃ P, Appends decrypt encryptedSketch
        (H publisherNoiseRegisterId :: List.replicate valueCount P) encryptedSketch' := by
  refine keeps_bind (appends_encryptAdditionalECPoint hec hrng hid encryptedSketch)
    fun encryptedSketch' hword => ?_
  refine keeps_bind keeps_get fun encrypter hinv => ?_
  refine keeps_bind (keeps_set (hrng _ _ hinv)) fun _ _ => ?_
  refine keeps_bind (keeps_ofExcept fun randomValueEc hmap => mapToCurve_ok hec hmap)
    fun randomValueEc hrandom => ?_
  refine (appends_encryptRepeatedECPoint hec hrng hrandom valueCount encryptedSketch').mono ?_
  intro encryptedSketch'' hwords
  exact ⟨_, hword.trans hwords⟩

theorem appends_noiseRegisters {idEc : ByteString}
    (hid : ec.toBytesCompressed (H publisherNoiseRegisterId) = .ok idEc) (valueCount count : Nat)
    (encryptedSketch : ByteString) :
    Keeps I ((List.replicate count idEc).foldlM
      (fun encryptedSketch idEc => appendNoiseRegister ec idEc valueCount encryptedSketch)
      encryptedSketch) fun encryptedSketch' => ∃ blocks : List ByteString,
        encryptedSketch' = encryptedSketch ++ blocks.flatten ∧ blocks.length = count ∧
        ∀ block ∈ blocks, IsNoiseRegister H decrypt valueCount block := by
  induction count generalizing encryptedSketch with
  | zero => exact keeps_pure ⟨[], (List.append_nil _).symm, rfl, List.forall_mem_nil _⟩
  | succ count ih =>
      rw [List.replicate_succ, List.foldlM_cons]
      refine keeps_bind (appends_appendNoiseRegister hec hrng hid valueCount encryptedSketch)
        fun encryptedSketch' happends => ?_
      obtain ⟨P, happends⟩ := happends
      obtain ⟨block, rfl, hblock⟩ := happends.isNoiseRegister
      refine (ih (encryptedSketch ++ block)).mono ?_
      rintro _ ⟨blocks, rfl, rfl, hblocks⟩
      exact ⟨block :: blocks, by rw [List.append_assoc, List.flatten_cons], rfl,
        List.forall_mem_cons.mpr ⟨hblock, hblocks⟩⟩

/-- As many noise registers as the noiser says, or none if that is negative. -/
theorem appends_appendNoiseRegisters (generateNoiseComponent : Rng → StatusOr Int64 × Rng)
    (valueCount : Int32) (encryptedSketch : ByteString) :
    Keeps I (appendNoiseRegisters ec generateNoiseComponent valueCount encryptedSketch)
      fun encryptedSketch' => ∃ rng noiseCount rng', ∃ blocks : List ByteString,
        generateNoiseComponent rng = (.ok noiseCount, rng') ∧
        encryptedSketch' = encryptedSketch ++ blocks.flatten ∧
        blocks.length = noiseCount.toNatClampNeg ∧
        ∀ block ∈ blocks, IsNoiseRegister H decrypt valueCount.toNatClampNeg block := by
  unfold appendNoiseRegisters
  split
  · exact keeps_bind (Q := fun _ => False) (keeps_throw _) fun _ hfalse => hfalse.elim
  refine keeps_bind keeps_get fun encrypter hinv => ?_
  cases hnoise : generateNoiseComponent encrypter.rng with
  | mk result rng' =>
      refine keeps_bind (keeps_set (hrng _ rng' hinv)) fun _ _ => ?_
      refine keeps_bind (keeps_ofExcept fun noiseCount hresult => hresult)
        fun noiseCount hresult => ?_
      rw [hresult] at hnoise
      split
      · rename_i hnone
        refine keeps_pure ⟨encrypter.rng, noiseCount, rng', [], hnoise,
          (List.append_nil _).symm, ?_, List.forall_mem_nil _⟩
        rw [Int64.lt_iff_toInt_lt, Int64.toInt_one] at hnone
        rw [List.length_nil, Int64.toNatClampNeg]
        omega
      · refine keeps_bind (keeps_ofExcept fun idEc hmap => mapToCurve_ok hec hmap)
          fun idEc hid => ?_
        refine keeps_bind (keeps_reserve _) fun _ _ => ?_
        refine (appends_noiseRegisters hec hrng hid valueCount.toNatClampNeg
          noiseCount.toNatClampNeg encryptedSketch).mono ?_
        rintro encryptedSketch' ⟨blocks, hsketch, hcount, hblocks⟩
        exact ⟨encrypter.rng, noiseCount, rng', blocks, hnoise, hsketch, hcount, hblocks⟩

end AnyInvariant

/-- The noise is drawn once, from the state before the call. -/
theorem run_appendNoiseRegisters (ec : EcLibrary Point Rng)
    (generateNoiseComponent : Rng → StatusOr Int64 × Rng) (valueCount : Int32)
    (encryptedSketch : ByteString) (encrypter : SketchEncrypterImpl Rng) :
    (appendNoiseRegisters ec generateNoiseComponent valueCount encryptedSketch).run encrypter
      = (appendNoiseRegisters ec (fun _ => generateNoiseComponent encrypter.rng) valueCount
          encryptedSketch).run encrypter := by
  unfold appendNoiseRegisters
  split
  · rfl
  · rfl

/-! ### The noise of a publisher -/

section Publisher

variable {Double : Type} [Add Double] [Sub Double] [Mul Double] [Div Double] [Neg Double]
  [OfScientific Double] [IntCast Double] [LE Double] [DecidableLE Double] {cmath : Cmath Double}
  {rand : RandSource Rng} {distributions : RandomDistributions Double Rng}

theorem publisherNoise_bounds
    (hpoisson : ∀ mean rng, 0 ≤ (distributions.poissonDistribution mean rng).1)
    {publisherNoiseParameter : PublisherNoiseParameter Double}
    (hoffset : 0 ≤ (publisherNoiseOptions cmath publisherNoiseParameter).shiftOffset)
    {rng rng' : Rng} {noiseCount : Int64}
    (hnoise : publisherNoise cmath rand distributions publisherNoiseParameter rng
      = (.ok noiseCount, rng')) :
    0 ≤ noiseCount.toInt ∧ noiseCount.toInt
      ≤ 2 * (publisherNoiseOptions cmath publisherNoiseParameter).shiftOffset.toInt := by
  have hbounds : Keeps (fun _ => True) (DistributedGeometricNoiser.generateNoiseComponent rand
      distributions (publisherNoiseOptions cmath publisherNoiseParameter)) _ :=
    DistributedGeometricNoiser.generateNoiseComponent_publisher_bounds hpoisson hoffset
  simp only [publisherNoise] at hnoise
  cases hrun : (DistributedGeometricNoiser.generateNoiseComponent rand distributions
      (publisherNoiseOptions cmath publisherNoiseParameter)).run rng with
  | error failure rng'' =>
      rw [hrun] at hnoise
      cases hnoise
  | ok noise rng'' =>
      rw [hrun] at hnoise
      cases hnoise
      exact (hbounds.result trivial hrun).2

variable [AddCommGroup Point]

/-- With noise or without, the string that `EncryptSketch` answers with is whole registers. -/
theorem dvd_length_encryptRequested (hec : ec.Correct H decrypt) {maxCounterValue : UInt64}
    (request : EncryptSketchRequest Double) :
    Keeps (CachesPoints ec maxCounterValue) (encryptRequested cmath rand distributions ec request)
      fun encryptedSketch => bytesPerCipherText * (1 + request.sketch.config.values.length)
        ∣ encryptedSketch.length := by
  refine keeps_bind (dvd_length_encrypt hec request.sketch request.destroyedRegisterStrategy)
    fun encryptedSketch hwhole => ?_
  cases request.noiseParameter with
  | none => exact keeps_pure hwhole
  | some noiseParameter =>
      refine (appends_appendNoiseRegisters hec (fun _ rng hcaches => hcaches.setRng rng) _ _
        encryptedSketch).mono ?_
      rintro encryptedSketch' ⟨rng, noiseCount, rng', blocks, -, rfl, -, hblocks⟩
      have hwidth : ∀ block ∈ blocks, block.length
          = bytesPerCipherText * (1 + request.sketch.config.values.length) := by
        intro block hmem
        rw [(hblocks block hmem).1, Int32.toNatClampNeg_ofNat_of_lt request.valuesSize_lt,
          Nat.mul_comm, Nat.add_comm 1]
      rw [List.length_append, FixedWidth.length_flatten hwidth]
      exact Nat.dvd_add hwhole (Nat.dvd_mul_right _ _)

theorem dvd_length_encryptSketchResponse (hec : ec.Correct H decrypt)
    {createEcLibrary : CreateEcLibrary Point Rng} {request : EncryptSketchRequest Double}
    (hcreate : createEcLibrary request.curveId.toInt32 request.elGamalKeys.generator
      request.elGamalKeys.element = .ok ec) {rng : Rng} {response : EncryptSketchResponse}
    (hresponse : encryptSketchResponse cmath rand distributions createEcLibrary request rng
      = .ok response) :
    bytesPerCipherText * (1 + request.sketch.config.values.length)
      ∣ response.encryptedSketch.length := by
  obtain ⟨ec', hcreate', hrest⟩ := StatusOr.bind_eq_ok.mp hresponse
  rw [hcreate, Except.ok.injEq] at hcreate'
  subst hcreate'
  cases hrun : (encryptRequested cmath rand distributions ec request).run
      (createWithPublicKey rng request.maximumValue.toInt64.toUInt64) with
  | error failure encrypter' =>
      simp only [hrun] at hrest
      cases hrest
  | ok encryptedSketch encrypter' =>
      simp only [hrun] at hrest
      cases hrest
      exact ((dvd_length_encryptRequested hec request).result (CachesPoints.create rng) hrun).2

/-- **Noise registers line up with the others.** A successful `AppendNoiseRegisters` adds as many
whole registers as the noise says, at most twice the offset, each the identifier and one random
point in every column, and so every successful `EncryptSketch` is a whole number of registers. -/
theorem publisherNoise_appends_registers (hec : ec.Correct H decrypt)
    (hpoisson : ∀ mean rng, 0 ≤ (distributions.poissonDistribution mean rng).1) :
    (∀ (publisherNoiseParameter : PublisherNoiseParameter Double) (valueCount : Int32)
      (encryptedSketch encryptedSketch' : ByteString)
      (encrypter encrypter' : SketchEncrypterImpl Rng),
      0 ≤ (publisherNoiseOptions cmath publisherNoiseParameter).shiftOffset →
      (appendNoiseRegisters ec (publisherNoise cmath rand distributions publisherNoiseParameter)
        valueCount encryptedSketch).run encrypter = .ok encryptedSketch' encrypter' →
      ∃ (noiseCount : Int64) (blocks : List ByteString),
        (publisherNoise cmath rand distributions publisherNoiseParameter encrypter.rng).1
          = .ok noiseCount ∧
        encryptedSketch' = encryptedSketch ++ blocks.flatten ∧
        (blocks.length : Int) = noiseCount.toInt ∧
        noiseCount.toInt
          ≤ 2 * (publisherNoiseOptions cmath publisherNoiseParameter).shiftOffset.toInt ∧
        ∀ block ∈ blocks, IsNoiseRegister H decrypt valueCount.toNatClampNeg block) ∧
    (∀ (codec : EncryptSketchCodec Double) (createEcLibrary : CreateEcLibrary Point Rng)
      (serializedRequest : ByteString) (request : EncryptSketchRequest Double) (rng : Rng)
      (output : ByteString),
      codec.parseFromString serializedRequest = some request →
      createEcLibrary request.curveId.toInt32 request.elGamalKeys.generator
        request.elGamalKeys.element = .ok ec →
      encryptSketch cmath rand distributions codec createEcLibrary serializedRequest rng
        = .ok output →
      ∃ response,
        encryptSketchResponse cmath rand distributions createEcLibrary request rng = .ok response ∧
        output = codec.serializeAsString response ∧
        bytesPerCipherText * (1 + request.sketch.config.values.length)
          ∣ response.encryptedSketch.length) := by
  constructor
  · intro publisherNoiseParameter valueCount encryptedSketch encryptedSketch' encrypter encrypter'
      hoffset hrun
    have happends := appends_appendNoiseRegisters (I := fun _ => True) hec (fun _ _ _ => trivial)
      (fun _ => publisherNoise cmath rand distributions publisherNoiseParameter encrypter.rng)
      valueCount encryptedSketch
    rw [run_appendNoiseRegisters] at hrun
    obtain ⟨-, -, noiseCount, rng', blocks, hnoise, hsketch, hcount, hblocks⟩ :=
      happends.result trivial hrun
    obtain ⟨hnonneg, hle⟩ := publisherNoise_bounds hpoisson hoffset hnoise
    refine ⟨noiseCount, blocks, congrArg Prod.fst hnoise, hsketch, ?_, hle, hblocks⟩
    rw [hcount, Int64.toNatClampNeg, Int.toNat_of_nonneg hnonneg]
  · intro codec createEcLibrary serializedRequest request rng output hparse hcreate hanswer
    rw [encryptSketch, hparse] at hanswer
    obtain ⟨response, hresponse, houtput⟩ := StatusOr.bind_eq_ok.mp hanswer
    cases houtput
    exact ⟨response, hresponse, rfl, dvd_length_encryptSketchResponse hec hcreate hresponse⟩

end Publisher

/-! A small noiser, for `epsilon` 1, `delta` 0.5 and one publisher, which makes the offset 3. -/

def sampleCmath : Cmath ℚ where
  exp x := if x < 0 then 0.367879 else 2.718282
  log _ := 2.699556
  ceil x := ⌈x⌉
  toInt x := Int32.ofInt ⌊x⌋

def sampleRand : RandSource Nat where
  status _ := 1
  bytes rng size := (1, List.replicate size 0, rng + 1)

def sampleDistributions : RandomDistributions ℚ Nat where
  gammaDistribution shape scale rng := (shape * scale, rng + 1)
  poissonDistribution _ rng := (Int32.ofNat (rng % 3), rng + 1)

theorem sampleDistributions_nonneg (mean : ℚ) (rng : Nat) :
    0 ≤ (sampleDistributions.poissonDistribution mean rng).1 := by
  have hlt : rng % 3 < 2 ^ 31 := (Nat.mod_lt rng (by decide)).trans (by decide)
  rw [Int32.le_iff_toInt_le, Int32.toInt_zero, sampleDistributions, Int32.toInt_ofNat_of_lt hlt]
  exact Int.natCast_nonneg _

def sampleNoiseParameter : PublisherNoiseParameter ℚ where
  epsilon := 1
  delta := 0.5
  publisherCount := 1

def sampleRequest : EncryptSketchRequest ℚ where
  sketch := sampleProto
  elGamalKeys := ⟨[], []⟩
  curveId := 415
  maximumValue := 5
  destroyedRegisterStrategy := .flaggedKey
  noiseParameter := some sampleNoiseParameter
  valuesSize_lt := by decide

def sampleCodec : EncryptSketchCodec ℚ where
  parseFromString _ := some sampleRequest
  serializeAsString response := response.encryptedSketch

theorem sampleNoise_succeeds : succeeds
    ((appendNoiseRegisters sampleEc (publisherNoise sampleCmath sampleRand sampleDistributions
      sampleNoiseParameter) 2 [7]).run (createWithPublicKey 0 5)) = true := by
  decide +kernel

theorem sampleRequest_succeeds : (encryptSketch sampleCmath sampleRand sampleDistributions
    sampleCodec (fun _ _ _ => .ok sampleEc) [] 0).isOk = true := by
  decide +kernel

theorem publisherNoise_appends_registers_sampleRequest :
    (∃ encryptedSketch' encrypter',
      (appendNoiseRegisters sampleEc (publisherNoise sampleCmath sampleRand sampleDistributions
        sampleNoiseParameter) 2 [7]).run (createWithPublicKey 0 5)
          = .ok encryptedSketch' encrypter' ∧
      ∃ (noiseCount : Int64) (blocks : List ByteString),
        (publisherNoise sampleCmath sampleRand sampleDistributions sampleNoiseParameter 0).1
          = .ok noiseCount ∧
        encryptedSketch' = [7] ++ blocks.flatten ∧
        (blocks.length : Int) = noiseCount.toInt ∧
        noiseCount.toInt
          ≤ 2 * (publisherNoiseOptions sampleCmath sampleNoiseParameter).shiftOffset.toInt ∧
        ∀ block ∈ blocks, IsNoiseRegister sampleHash sampleDecrypt 2 block) ∧
    ∃ output, encryptSketch sampleCmath sampleRand sampleDistributions sampleCodec
      (fun _ _ _ => .ok sampleEc) [] 0 = .ok output ∧ bytesPerCipherText * 3 ∣ output.length := by
  refine ⟨?_, ?_⟩
  · obtain ⟨encryptedSketch', encrypter', hrun⟩ := exists_ok_of_succeeds sampleNoise_succeeds
    exact ⟨encryptedSketch', encrypter', hrun,
      (publisherNoise_appends_registers sampleEc_correct sampleDistributions_nonneg).1
        sampleNoiseParameter 2 [7] encryptedSketch' _ encrypter' (by decide +kernel) hrun⟩
  · cases hrun : encryptSketch sampleCmath sampleRand sampleDistributions sampleCodec
        (fun _ _ _ => .ok sampleEc) [] 0 with
    | error failure =>
        have hok := sampleRequest_succeeds
        rw [hrun] at hok
        cases hok
    | ok output =>
        obtain ⟨response, -, houtput, hwhole⟩ :=
          (publisherNoise_appends_registers sampleEc_correct sampleDistributions_nonneg).2
            sampleCodec (fun _ _ _ => .ok sampleEc) [] sampleRequest 0 output rfl rfl hrun
        exact ⟨output, rfl, houtput ▸ hwhole⟩

end AnySketchCorrectness
