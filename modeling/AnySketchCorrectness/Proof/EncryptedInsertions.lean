import AnySketchCorrectness.Proof.Destroyed
import AnySketchCorrectness.Proof.NoiseRegisters

/-!
# From the insertions to the encrypted sketch

A sketch is filled and merged in the clear, written as a message and encrypted on request. What the
answer decrypts to can be told from the insertions alone: one group of points for each register that
they contribute to, and the noise behind them. Neither the order of the insertions nor the sketches
they were spread over, the iteration order of the hash map or the state of the caches shows in it,
but for the order of the groups.
-/

namespace AnySketchCorrectness

open StateInvariant SketchEncrypterImpl AnySketch

variable {Point Rng : Type} {ec : EcLibrary Point Rng} {H : String → Point}
  {decrypt : ByteString → ByteString → Point} {maxCounterValue : UInt64}
  {destroyedRegisterStrategy : DestroyedRegisterStrategy} {indexes : List BaseDistribution}
  {values : List ValueFunction} {insertions order : List Insertion} {sketch : AnySketch}
  {key : UInt64} {registerValues : FixedArray}

/-- The sketch as a message, with the registers in the order of an iteration. -/
def protoSketch (sketch : AnySketch) : Sketch where
  config := protoConfig sketch.indexes sketch.values
  registers := sketch.registers.entries.map fun entry =>
    protoRegister sketch.values entry.1 entry.2

section Contributed

variable [AddCommGroup Point] (H : String → Point) (maxCounterValue : UInt64)
  (destroyedRegisterStrategy : DestroyedRegisterStrategy) (indexes : List BaseDistribution)
  (values : List ValueFunction) (insertions : List Insertion)

/-- The point of a column without conflict: one more than the common value for UNIQUE, as `0` is
not a value there, and the sum for SUM. -/
def columnPoint (valueFunction : ValueFunction) (contributed : List Int64) : Point :=
  match valueFunction.aggregatorType with
  | .unique => integerPoint H (contributed.headD 0 + 1)
  | .sum =>
      counterPoint H maxCounterValue
        (Int64.ofInt (contributed.map Int64.toInt).sum).toInt.toNat

open Classical in
/-- The points of one register, from the insertions that contribute to it. -/
noncomputable def contributedPoints (key : UInt64) : List Point :=
  if HasConflict indexes values insertions key then
    destroyedRegisterPoints H maxCounterValue destroyedRegisterStrategy
      { index := key.toInt64, values := values.map fun _ => uniqueAggregatorDestroyedValue }
  else
    integerPoint H key.toInt64 :: values.mapIdx fun column valueFunction =>
      columnPoint H maxCounterValue valueFunction
        (contributedValues indexes values insertions key column)

/-- The points of a noise register with this value in every column. -/
def noisePoints (P : Point) : List Point :=
  H publisherNoiseRegisterId :: List.replicate values.length P

end Contributed

theorem headD_eq_of_forall_eq {column : List Int64} {value : Int64} (hne : column ≠ [])
    (hall : ∀ v ∈ column, v = value) : column.headD 0 = value := by
  cases column with
  | nil => exact absurd rfl hne
  | cons head column => exact hall head List.mem_cons_self

variable [AddCommGroup Point]

/-! ### One register -/

theorem destroyedRegisterPoints_congr {reg reg' : Register} (hindex : reg.index = reg'.index)
    (hlength : reg.values.length = reg'.values.length) :
    destroyedRegisterPoints H maxCounterValue destroyedRegisterStrategy reg
      = destroyedRegisterPoints H maxCounterValue destroyedRegisterStrategy reg' := by
  cases destroyedRegisterStrategy with
  | unspecified => rfl
  | conflictingKeys => simp [destroyedRegisterPoints, hindex, hlength]
  | flaggedKey => simp [destroyedRegisterPoints, hindex, hlength]
  | unrecognized number => rfl

/-- A column that is not destroyed. -/
theorem valuePoint_column (hbuilt : Built indexes values insertions sketch)
    (hregister : sketch.registers.lookup key = some registerValues)
    (hagree : ¬ HasConflict indexes values insertions key) {column : ℕ}
    {valueFunction : ValueFunction} {value : Int64}
    (hcolumn : values[column]? = some valueFunction)
    (hvalue : registerValues[column]? = some value) :
    valuePoint H maxCounterValue
        ⟨valueFunction.name, valueFunction.aggregatorType.toProto⟩
        ((getAggregator valueFunction.aggregatorType).encodeToProtoValue value)
      = columnPoint H maxCounterValue valueFunction
          (contributedValues indexes values insertions key column) := by
  have hne := hbuilt.contributedValues_ne_nil hregister hcolumn
  cases htype : valueFunction.aggregatorType with
  | sum =>
      have hcombine := hbuilt.column_eq hregister hcolumn
      rw [hvalue, htype, combine_sum hne, Option.some.injEq] at hcombine
      rw [columnPoint, htype, hcombine]
      rfl
  | unique =>
      rcases hbuilt.unique_column hregister hcolumn htype hvalue with ⟨_, hdiffer⟩ | ⟨_, hall⟩
      · exact absurd ⟨column, valueFunction, hcolumn, htype, hdiffer⟩ hagree
      · rw [columnPoint, htype, headD_eq_of_forall_eq hne hall]
        rfl

/-- **One register.** Its points are those that the insertions contribute. -/
theorem registerPoints_protoRegister (hbuilt : Built indexes values insertions sketch)
    (hrange : ∀ valueFunction ∈ values, valueFunction.aggregatorType = .unique →
      ∀ item itemMetadata v, valueFunction.distribution.apply item itemMetadata = .ok v →
        0 ≤ v.toInt ∧ v.toInt ≤ 2 ^ 63 - 2)
    (hregister : sketch.registers.lookup key = some registerValues) :
    registerPoints H maxCounterValue (protoConfig indexes values) destroyedRegisterStrategy
        (protoRegister values key registerValues)
      = contributedPoints H maxCounterValue destroyedRegisterStrategy indexes values insertions
          key := by
  have hiff := hbuilt.isDestroyed_iff hrange hregister
  have hlength := hbuilt.register_length hregister
  rw [registerPoints, contributedPoints]
  by_cases hconflict : HasConflict indexes values insertions key
  · rw [if_pos (hiff.mpr hconflict), if_pos hconflict]
    apply destroyedRegisterPoints_congr
    · rfl
    · simp [protoRegister, hlength]
  · rw [if_neg (hiff.not.mpr hconflict), if_neg hconflict]
    congr 1
    apply List.ext_getElem?
    intro column
    rw [List.getElem?_zipWith, List.getElem?_mapIdx, protoConfig, List.getElem?_map]
    cases hcolumn : values[column]? with
    | none => simp
    | some valueFunction =>
        obtain ⟨value, hvalue⟩ := hbuilt.exists_value hregister hcolumn
        rw [protoRegister_getElem? hcolumn hvalue]
        exact congrArg some (valuePoint_column hbuilt hregister hconflict hcolumn hvalue)

/-- The same insertions in another order have the same registers, and so the same points. -/
theorem registerPoints_of_perm (hbuilt : Built indexes values insertions sketch)
    (hperm : order.Perm insertions)
    (hrange : ∀ valueFunction ∈ values, valueFunction.aggregatorType = .unique →
      ∀ item itemMetadata v, valueFunction.distribution.apply item itemMetadata = .ok v →
        0 ≤ v.toInt ∧ v.toInt ≤ 2 ^ 63 - 2)
    (hregister : sketch.registers.lookup key = some registerValues) :
    registerPoints H maxCounterValue (protoConfig indexes values) destroyedRegisterStrategy
        (protoRegister values key registerValues)
      = contributedPoints H maxCounterValue destroyedRegisterStrategy indexes values order key := by
  have hinserted : Built indexes values order ((new indexes values).insertAll order) :=
    built_insertAll order
  refine registerPoints_protoRegister hinserted hrange ?_
  rw [hinserted.lookup_eq, contributionTable_perm hperm, ← hbuilt.lookup_eq, hregister]

/-! ### All registers -/

theorem keys_nodup_and_mem (hbuilt : Built indexes values insertions sketch) :
    sketch.registers.keys.Nodup ∧ ∀ key, key ∈ sketch.registers.keys
      ↔ ∃ insertion ∈ insertions, ∃ newValues,
          contribution indexes values insertion = some (key, newValues) := by
  refine ⟨sketch.registers.keys_nodup, fun key => ?_⟩
  rw [← hbuilt.register_isSome key, AList.lookup_isSome, AList.mem_keys]

/-- The registers in the order of an iteration are the keys in that order. -/
theorem flatMap_registerPoints (hbuilt : Built indexes values insertions sketch)
    (hperm : order.Perm insertions)
    (hrange : ∀ valueFunction ∈ values, valueFunction.aggregatorType = .unique →
      ∀ item itemMetadata v, valueFunction.distribution.apply item itemMetadata = .ok v →
        0 ≤ v.toInt ∧ v.toInt ≤ 2 ^ 63 - 2) :
    (protoSketch sketch).registers.flatMap (registerPoints H maxCounterValue
        (protoSketch sketch).config destroyedRegisterStrategy)
      = sketch.registers.keys.flatMap (contributedPoints H maxCounterValue
          destroyedRegisterStrategy indexes values order) := by
  obtain ⟨rfl, rfl, -⟩ := hbuilt.holds
  rw [protoSketch, AList.keys, List.keys, List.flatMap_map, List.flatMap_map]
  apply List.flatMap_congr
  intro entry hentry
  have hregister : sketch.registers.lookup entry.1 = some entry.2 :=
    AList.mem_lookup_iff.mpr hentry
  exact registerPoints_of_perm hbuilt hperm hrange hregister

/-! ### The noise -/

omit [AddCommGroup Point] in
theorem encodes_noiseRegisters {blocks : List ByteString}
    (hblocks : ∀ block ∈ blocks, IsNoiseRegister H decrypt values.length block) :
    ∃ noise : List Point, noise.length = blocks.length ∧
      Encodes decrypt blocks.flatten (noise.flatMap (noisePoints H values)) := by
  induction blocks with
  | nil => exact ⟨[], rfl, encodes_nil⟩
  | cons block blocks ih =>
      obtain ⟨⟨hlength, P, hpoints⟩, hrest⟩ := List.forall_mem_cons.mp hblocks
      obtain ⟨noise, hcount, hencodes⟩ := ih hrest
      refine ⟨P :: noise, by rw [List.length_cons, hcount, List.length_cons], ?_⟩
      rw [List.flatten_cons, List.flatMap_cons]
      refine Encodes.append ⟨?_, hpoints⟩ hencodes
      rw [hlength]
      exact Nat.dvd_mul_left _ _

/-! ### The request -/

theorem toNat_maxCounterValue_lt {maximumValue : Int32} (hmaximum : maximumValue ≠ -1) :
    maximumValue.toInt64.toUInt64.toNat < 2 ^ 64 - 1 := by
  by_contra hlarge
  have hlt := UInt64.toNat_lt maximumValue.toInt64.toUInt64
  have hmax : maximumValue.toInt64.toUInt64 = (-1 : Int64).toUInt64 := by
    apply UInt64.toNat_inj.mp
    rw [show (-1 : Int64).toUInt64.toNat = 2 ^ 64 - 1 from rfl]
    omega
  have hminus := congrArg UInt64.toInt64 hmax
  rw [Int64.toInt64_toUInt64, Int64.toInt64_toUInt64] at hminus
  apply hmaximum
  apply Int32.toInt_inj.mp
  rw [← Int32.toInt_toInt64, hminus]
  rfl

section Publisher

variable {Double : Type} [Add Double] [Sub Double] [Mul Double] [Div Double] [Neg Double]
  [OfScientific Double] [IntCast Double] [LE Double] [DecidableLE Double] {cmath : Cmath Double}
  {rand : RandSource Rng} {distributions : RandomDistributions Double Rng}

/-- The registers, and behind them noise if the request asks for it. -/
theorem encodes_encryptRequested (hec : ec.Correct H decrypt)
    (hpoisson : ∀ mean rng, 0 ≤ (distributions.poissonDistribution mean rng).1)
    (hmax : maxCounterValue.toNat < 2 ^ 64 - 1) (request : EncryptSketchRequest Double)
    (hwidth : request.sketch.config.values.length = values.length) :
    Keeps (CacheValid ec H maxCounterValue) (encryptRequested cmath rand distributions ec request)
      fun encryptedSketch => ∃ noise : List Point,
        Encodes decrypt encryptedSketch (request.sketch.registers.flatMap (registerPoints H
            maxCounterValue request.sketch.config request.destroyedRegisterStrategy)
          ++ noise.flatMap (noisePoints H values)) ∧
        (request.noiseParameter = none → noise = []) ∧
        ∀ noiseParameter, request.noiseParameter = some noiseParameter →
          0 ≤ (publisherNoiseOptions cmath noiseParameter).shiftOffset →
          (noise.length : ℤ)
            ≤ 2 * (publisherNoiseOptions cmath noiseParameter).shiftOffset.toInt := by
  refine keeps_bind (encodes_encrypt hec hmax request.sketch request.destroyedRegisterStrategy)
    fun encryptedSketch hencodes => ?_
  cases hparameter : request.noiseParameter with
  | none =>
      refine keeps_pure ⟨[], ?_, fun _ => rfl, fun _ hsome => by cases hsome⟩
      rwa [List.flatMap_nil, List.append_nil]
  | some noiseParameter =>
      refine (appends_appendNoiseRegisters hec (fun _ rng hvalid => hvalid.setRng rng) _ _
        encryptedSketch).mono ?_
      rintro _ ⟨rng, noiseCount, rng', blocks, hnoise, rfl, hcount, hblocks⟩
      rw [Int32.toNatClampNeg_ofNat_of_lt request.valuesSize_lt, hwidth] at hblocks
      obtain ⟨noise, hlength, hwords⟩ := encodes_noiseRegisters hblocks
      refine ⟨noise, hencodes.append hwords, fun hnone => absurd hnone (Option.some_ne_none _), ?_⟩
      rintro _ ⟨⟩ hoffset
      obtain ⟨hnonneg, hle⟩ := publisherNoise_bounds hpoisson hoffset hnoise
      rwa [hlength, hcount, Int64.toNatClampNeg, Int.toNat_of_nonneg hnonneg]

/-- **From the insertions to the encrypted sketch.** However the insertions were ordered and spread
over sketches that were merged, the answer to a request for the resulting sketch decrypts to one
group of points for each key that they contribute to, followed by the noise. The groups are given by
the insertions in any order. -/
theorem encryptSketch_insertions (hec : ec.Correct H decrypt)
    (hpoisson : ∀ mean rng, 0 ≤ (distributions.poissonDistribution mean rng).1)
    (hrange : ∀ valueFunction ∈ values, valueFunction.aggregatorType = .unique →
      ∀ item itemMetadata v, valueFunction.distribution.apply item itemMetadata = .ok v →
        0 ≤ v.toInt ∧ v.toInt ≤ 2 ^ 63 - 2)
    (hbuilt : Built indexes values insertions sketch) (hperm : order.Perm insertions)
    {codec : EncryptSketchCodec Double} {createEcLibrary : CreateEcLibrary Point Rng}
    {serializedRequest output : ByteString} {request : EncryptSketchRequest Double} {rng : Rng}
    (hparse : codec.parseFromString serializedRequest = some request)
    (hsketch : request.sketch = protoSketch sketch) (hmaximum : request.maximumValue ≠ -1)
    (hcreate : createEcLibrary request.curveId.toInt32 request.elGamalKeys.generator
      request.elGamalKeys.element = .ok ec)
    (hanswer : encryptSketch cmath rand distributions codec createEcLibrary serializedRequest rng
      = .ok output) :
    ∃ (encryptedSketch : ByteString) (keys : List UInt64) (noise : List Point),
      output = codec.serializeAsString { encryptedSketch } ∧
      keys.Nodup ∧
      (∀ key, key ∈ keys ↔ ∃ insertion ∈ insertions, ∃ newValues,
        contribution indexes values insertion = some (key, newValues)) ∧
      bytesPerCipherText ∣ encryptedSketch.length ∧
      decryptWords decrypt encryptedSketch
        = keys.flatMap (contributedPoints H request.maximumValue.toInt64.toUInt64
            request.destroyedRegisterStrategy indexes values order)
          ++ noise.flatMap (noisePoints H values) ∧
      (request.noiseParameter = none → noise = []) ∧
      ∀ noiseParameter, request.noiseParameter = some noiseParameter →
        0 ≤ (publisherNoiseOptions cmath noiseParameter).shiftOffset →
        (noise.length : ℤ)
          ≤ 2 * (publisherNoiseOptions cmath noiseParameter).shiftOffset.toInt := by
  rw [encryptSketch, hparse] at hanswer
  obtain ⟨response, hresponse, houtput⟩ := StatusOr.bind_eq_ok.mp hanswer
  obtain ⟨ec', hcreate', hrest⟩ := StatusOr.bind_eq_ok.mp hresponse
  rw [hcreate, Except.ok.injEq] at hcreate'
  subst hcreate'
  have hwidth : request.sketch.config.values.length = values.length := by
    obtain ⟨-, rfl, -⟩ := hbuilt.holds
    simp [hsketch, protoSketch, protoConfig]
  cases hrun : (encryptRequested cmath rand distributions ec request).run
      (createWithPublicKey rng request.maximumValue.toInt64.toUInt64) with
  | error failure encrypter' =>
      simp only [hrun] at hrest
      cases hrest
  | ok encryptedSketch encrypter' =>
      simp only [hrun] at hrest
      cases hrest
      cases houtput
      obtain ⟨-, noise, ⟨hwhole, hpoints⟩, hnone, hsome⟩ :=
        (encodes_encryptRequested hec hpoisson (toNat_maxCounterValue_lt hmaximum) request
          hwidth).result (CacheValid.create rng) hrun
      obtain ⟨hnodup, hkeys⟩ := keys_nodup_and_mem hbuilt
      rw [hsketch, flatMap_registerPoints hbuilt hperm hrange] at hpoints
      exact ⟨encryptedSketch, sketch.registers.keys, noise, rfl, hnodup, hkeys, hwhole, hpoints,
        hnone, hsome⟩

end Publisher

/-! Two merged sketches: one register saw two identifiers, the other one saw one. -/

def mergedSketch : AnySketch :=
  (((new sampleIndexes sampleValues).insertAll [sampleInsertion 3 1, sampleInsertion 5 7]).merge
    (sampleSketch (sampleInsertion 3 2))).2

theorem mergedSketch_built : Built sampleIndexes sampleValues
    [sampleInsertion 3 1, sampleInsertion 5 7, sampleInsertion 3 2] mergedSketch :=
  .merge (built_insertAll [sampleInsertion 3 1, sampleInsertion 5 7])
    (.insert (sampleInsertion 3 2) .new)

def mergedRequest : EncryptSketchRequest ℚ :=
  { sampleRequest with sketch := protoSketch mergedSketch, valuesSize_lt := by decide }

def mergedCodec : EncryptSketchCodec ℚ where
  parseFromString _ := some mergedRequest
  serializeAsString response := response.encryptedSketch

theorem mergedRequest_succeeds : (encryptSketch sampleCmath sampleRand sampleDistributions
    mergedCodec (fun _ _ _ => .ok sampleEc) [] 0).isOk = true := by
  decide +kernel

theorem encryptSketch_insertions_merged : ∃ (encryptedSketch : ByteString) (keys : List UInt64)
    (noise : List (ZMod 251)),
    encryptSketch sampleCmath sampleRand sampleDistributions mergedCodec
      (fun _ _ _ => .ok sampleEc) [] 0 = .ok encryptedSketch ∧
    (∀ key, key ∈ keys ↔ ∃ insertion ∈ [sampleInsertion 3 1, sampleInsertion 5 7,
      sampleInsertion 3 2], ∃ newValues,
        contribution sampleIndexes sampleValues insertion = some (key, newValues)) ∧
    decryptWords sampleDecrypt encryptedSketch
      = keys.flatMap (contributedPoints sampleHash 5 .flaggedKey sampleIndexes sampleValues
          [sampleInsertion 3 1, sampleInsertion 3 2, sampleInsertion 5 7])
        ++ noise.flatMap (noisePoints sampleHash sampleValues) := by
  have hparse : mergedCodec.parseFromString [] = some mergedRequest := rfl
  cases hrun : encryptSketch sampleCmath sampleRand sampleDistributions mergedCodec
      (fun _ _ _ => .ok sampleEc) [] 0 with
  | error failure =>
      have hok := mergedRequest_succeeds
      rw [hrun] at hok
      cases hok
  | ok output =>
      obtain ⟨encryptedSketch, keys, noise, houtput, -, hkeys, -, hpoints, -⟩ :=
        encryptSketch_insertions sampleEc_correct sampleDistributions_nonneg sampleValues_range
          mergedSketch_built (List.Perm.cons _ (List.Perm.swap _ _ _))
          hparse rfl (by decide) rfl hrun
      exact ⟨encryptedSketch, keys, noise, congrArg Except.ok houtput, hkeys, hpoints⟩

end AnySketchCorrectness
