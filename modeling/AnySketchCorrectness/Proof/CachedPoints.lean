import AnySketchCorrectness.Proof.RegisterWords

/-!
# The caches of an encrypter do not show

Whether a point is cached depends on everything the encrypter was asked before, including calls that
failed halfway. Curve operations may fail at one call and succeed at the next, so the library is not
the same at every call. All that the libraries share is what they compute when they do not fail.
-/

namespace AnySketchCorrectness

open StateInvariant SketchEncrypterImpl

variable {Point Rng : Type}

/-! ### Invariants of the encrypter -/

/-- What survives new randomness and the use of either cache survives `Encrypt`. -/
theorem keeps_encrypt {ec : EcLibrary Point Rng} {I : SketchEncrypterImpl Rng → Prop}
    (hrng : ∀ encrypter rng, I encrypter → I { encrypter with rng })
    (hcounter : ∀ n, Keeps I (getECPointForInteger ec n) fun _ => True)
    (hkey : Keeps I (getDestroyedRegisterKeyEc ec) fun _ => True) (sketch : Sketch)
    (destroyedRegisterStrategy : DestroyedRegisterStrategy) :
    Keeps I (encrypt ec sketch destroyedRegisterStrategy) fun _ => True := by
  have hwords : AppendsWords ec I (fun _ => True) fun _ _ _ => True :=
    { refl := fun _ => trivial
      trans := fun _ _ => trivial
      word := fun encryptedSketch _ =>
        (keeps_encryptAdditionalECPoint hrng _ encryptedSketch).mono fun _ _ => trivial
      mapped := fun _ => trivial
      counter := hcounter
      key := hkey }
  exact (hwords.sketch sketch destroyedRegisterStrategy).mono fun _ _ => trivial

/-! ### What the caches hold -/

section Caches

variable [AddCommGroup Point] {ec : EcLibrary Point Rng} {H : String → Point}
  {compress : Point → ByteString} {maxCounterValue : UInt64}

/-- The library hashes to the curve as `H`, multiplies and compresses, or fails. -/
structure EcLibrary.Computes (ec : EcLibrary Point Rng) (H : String → Point)
    (compress : Point → ByteString) : Prop where
  hashToCurve_eq : ∀ {s P}, ec.hashToCurve s = .ok P → P = H s
  mul_eq : ∀ {P n Q}, ec.mul P n = .ok Q → Q = n.toNat • P
  toBytesCompressed_eq : ∀ {P ecPoint}, ec.toBytesCompressed P = .ok ecPoint →
    ecPoint = compress P

/-- The states of an encrypter whose calls, succeeding or failing, each find the library as it is at
that moment. -/
inductive Served (H : String → Point) (compress : Point → ByteString) (maxCounterValue : UInt64) :
    SketchEncrypterImpl Rng → Prop
  | create (rng : Rng) :
      Served H compress maxCounterValue (createWithPublicKey rng maxCounterValue)
  | encrypt {encrypter} {ec : EcLibrary Point Rng} (sketch : Sketch)
      (destroyedRegisterStrategy : DestroyedRegisterStrategy) :
      ec.Computes H compress → Served H compress maxCounterValue encrypter →
      Served H compress maxCounterValue
        (finalState ((encrypt ec sketch destroyedRegisterStrategy).run encrypter))
  | appendNoiseRegisters {encrypter} {ec : EcLibrary Point Rng}
      (generateNoiseComponent : Rng → StatusOr Int64 × Rng) (valueCount : Int32)
      (encryptedSketch : ByteString) :
      ec.Computes H compress → Served H compress maxCounterValue encrypter →
      Served H compress maxCounterValue (finalState
        ((appendNoiseRegisters ec generateNoiseComponent valueCount encryptedSketch).run encrypter))

/-- The caches hold the points of counters up to the cap, and the key of destroyed registers. -/
structure HoldsPoints (H : String → Point) (compress : Point → ByteString)
    (maxCounterValue : UInt64) (encrypter : SketchEncrypterImpl Rng) : Prop where
  maxCounterValue_eq : encrypter.maxCounterValue = maxCounterValue
  integerToEcPointMap : ∀ n ecPoint, encrypter.integerToEcPointMap.lookup n = some ecPoint →
    1 ≤ n.toNat ∧ n.toNat ≤ maxCounterValue.toNat + 1
      ∧ ecPoint = compress (n.toNat • H unitECPointSeed)
  destroyedRegisterKeyEc : encrypter.destroyedRegisterKeyEc = []
    ∨ encrypter.destroyedRegisterKeyEc = compress (H destroyedRegisterKey)

theorem HoldsPoints.create (rng : Rng) :
    HoldsPoints H compress maxCounterValue (createWithPublicKey rng maxCounterValue) where
  maxCounterValue_eq := rfl
  integerToEcPointMap n ecPoint hlookup := by simp [createWithPublicKey] at hlookup
  destroyedRegisterKeyEc := Or.inl rfl

theorem HoldsPoints.setRng {encrypter : SketchEncrypterImpl Rng}
    (hholds : HoldsPoints H compress maxCounterValue encrypter) (rng : Rng) :
    HoldsPoints H compress maxCounterValue { encrypter with rng } where
  maxCounterValue_eq := hholds.maxCounterValue_eq
  integerToEcPointMap := hholds.integerToEcPointMap
  destroyedRegisterKeyEc := hholds.destroyedRegisterKeyEc

theorem HoldsPoints.insert {encrypter : SketchEncrypterImpl Rng} {n : UInt64}
    (hholds : HoldsPoints H compress maxCounterValue encrypter) (hone : 1 ≤ n.toNat)
    (hcap : n.toNat ≤ maxCounterValue.toNat + 1) :
    HoldsPoints H compress maxCounterValue { encrypter with
      integerToEcPointMap := encrypter.integerToEcPointMap.insert n
        (compress (n.toNat • H unitECPointSeed)) } where
  maxCounterValue_eq := hholds.maxCounterValue_eq
  integerToEcPointMap m cached hlookup := by
    by_cases heq : m = n
    · subst heq
      rw [AList.lookup_insert, Option.some.injEq] at hlookup
      exact ⟨hone, hcap, hlookup.symm⟩
    · rw [AList.lookup_insert_ne heq] at hlookup
      exact hholds.integerToEcPointMap m cached hlookup
  destroyedRegisterKeyEc := hholds.destroyedRegisterKeyEc

/-- Distinct counters between 1 and the cap: that bounds the size of the map. -/
theorem HoldsPoints.entries_length_le {encrypter : SketchEncrypterImpl Rng}
    (hholds : HoldsPoints H compress maxCounterValue encrypter) :
    encrypter.integerToEcPointMap.entries.length ≤ maxCounterValue.toNat + 1 := by
  have hnodup : (encrypter.integerToEcPointMap.keys.map UInt64.toNat).Nodup :=
    encrypter.integerToEcPointMap.keys_nodup.map fun _ _ => UInt64.toNat_inj.mp
  have hsubset : encrypter.integerToEcPointMap.keys.map UInt64.toNat
      ⊆ List.range' 1 (maxCounterValue.toNat + 1) := by
    intro i hmem
    obtain ⟨n, hn, rfl⟩ := List.mem_map.mp hmem
    obtain ⟨ecPoint, hlookup⟩ := Option.isSome_iff_exists.mp
      (AList.lookup_isSome.mpr (AList.mem_keys.mpr hn))
    obtain ⟨hone, hcap, -⟩ := hholds.integerToEcPointMap n ecPoint hlookup
    rw [List.mem_range'_1]
    omega
  have hlength := (hnodup.subperm hsubset).length_le
  rwa [List.length_map, List.length_range', AList.keys, List.keys, List.length_map] at hlength

theorem Served.of_reachable (hec : ec.Computes H compress) {encrypter : SketchEncrypterImpl Rng}
    (hreachable : Reachable ec maxCounterValue encrypter) :
    Served H compress maxCounterValue encrypter := by
  induction hreachable with
  | create rng => exact .create rng
  | encrypt sketch strategy _ hrun ih =>
      have hserved := ih.encrypt sketch strategy hec
      rwa [hrun] at hserved
  | encryptFailed sketch strategy _ hrun ih =>
      have hserved := ih.encrypt sketch strategy hec
      rwa [hrun] at hserved
  | appendNoise noise valueCount encryptedSketch _ hrun ih =>
      have hserved := ih.appendNoiseRegisters noise valueCount encryptedSketch hec
      rwa [hrun] at hserved
  | appendNoiseFailed noise valueCount encryptedSketch _ hrun ih =>
      have hserved := ih.appendNoiseRegisters noise valueCount encryptedSketch hec
      rwa [hrun] at hserved

/-! ### Using the caches -/

/-- The counter that a request for `n` is capped to. -/
def cappedCounter (maxCounterValue n : UInt64) : UInt64 :=
  if maxCounterValue + 1 < n then maxCounterValue + 1 else n

theorem cappedCounter_toNat (hmax : maxCounterValue.toNat < 2 ^ 64 - 1) (n : UInt64) :
    (cappedCounter maxCounterValue n).toNat = min n.toNat (maxCounterValue.toNat + 1) := by
  have hcap : (maxCounterValue + 1).toNat = maxCounterValue.toNat + 1 := by
    rw [UInt64.toNat_add, UInt64.toNat_one]
    exact Nat.mod_eq_of_lt (by omega)
  rw [cappedCounter]
  split
  · rename_i hlt
    rw [UInt64.lt_iff_toNat_lt, hcap] at hlt
    rw [hcap, Nat.min_eq_right hlt.le]
  · rename_i hnotLt
    rw [UInt64.lt_iff_toNat_lt, hcap] at hnotLt
    rw [Nat.min_eq_left (by omega)]

theorem computeECPointForInteger_eq (hec : ec.Computes H compress) {n : UInt64}
    {ecPoint : ByteString} (hcompute : computeECPointForInteger ec n = .ok ecPoint) :
    1 ≤ n.toNat ∧ ecPoint = compress (n.toNat • H unitECPointSeed) := by
  unfold computeECPointForInteger at hcompute
  split at hcompute
  · cases hcompute
  · rename_i hzero
    have hone : 1 ≤ n.toNat := by
      rw [Nat.one_le_iff_ne_zero]
      exact fun htoNat => hzero (UInt64.toNat_inj.mp htoNat)
    refine ⟨hone, ?_⟩
    split at hcompute
    · rename_i heq
      obtain ⟨P, hhash, hbytes⟩ := StatusOr.bind_eq_ok.mp hcompute
      rw [hec.toBytesCompressed_eq hbytes, hec.hashToCurve_eq hhash, heq, UInt64.toNat_one,
        one_nsmul]
    · obtain ⟨ec1, hhash, hrest⟩ := StatusOr.bind_eq_ok.mp hcompute
      obtain ⟨ecN, hmul, hbytes⟩ := StatusOr.bind_eq_ok.mp hrest
      rw [hec.toBytesCompressed_eq hbytes, hec.mul_eq hmul, hec.hashToCurve_eq hhash]

theorem holds_insertECPointForInteger (hec : ec.Computes H compress) {n : UInt64}
    (hcap : n.toNat ≤ maxCounterValue.toNat + 1) :
    Keeps (HoldsPoints H compress maxCounterValue) (insertECPointForInteger ec n)
      fun _ => True := by
  refine keeps_bind (keeps_ofExcept fun ecPoint hcompute =>
    computeECPointForInteger_eq hec hcompute) fun ecPoint hpoint => ?_
  obtain ⟨hone, rfl⟩ := hpoint
  exact keeps_bind (keeps_modify fun encrypter hholds => hholds.insert hone hcap)
    fun _ _ => keeps_pure trivial

theorem holds_getECPointForInteger (hec : ec.Computes H compress)
    (hmax : maxCounterValue.toNat < 2 ^ 64 - 1) (n : UInt64) :
    Keeps (HoldsPoints H compress maxCounterValue) (getECPointForInteger ec n) fun _ => True := by
  refine keeps_bind keeps_get fun encrypter hholds => ?_
  obtain rfl := hholds.maxCounterValue_eq
  have hcapped : (cappedCounter encrypter.maxCounterValue n).toNat
      ≤ encrypter.maxCounterValue.toNat + 1 := by
    rw [cappedCounter_toNat hmax]
    exact Nat.min_le_right _ _
  rw [cappedCounter] at hcapped
  cases encrypter.integerToEcPointMap.lookup n with
  | some ecPoint => exact keeps_pure trivial
  | none =>
      simp only
      split
      · rename_i hlt
        rw [if_pos hlt] at hcapped
        cases encrypter.integerToEcPointMap.lookup (encrypter.maxCounterValue + 1) with
        | some ecPoint => exact keeps_pure trivial
        | none => exact holds_insertECPointForInteger hec hcapped
      · rename_i hnotLt
        rw [if_neg hnotLt] at hcapped
        exact holds_insertECPointForInteger hec hcapped

theorem holds_getDestroyedRegisterKeyEc (hec : ec.Computes H compress) :
    Keeps (HoldsPoints H compress maxCounterValue) (getDestroyedRegisterKeyEc ec)
      fun _ => True := by
  refine keeps_bind keeps_get fun encrypter hholds => ?_
  split
  · refine keeps_bind (keeps_ofExcept (Q := fun ecPoint =>
      ecPoint = compress (H destroyedRegisterKey)) fun ecPoint hmap => ?_) fun ecPoint hpoint => ?_
    · obtain ⟨P, hhash, hbytes⟩ := StatusOr.bind_eq_ok.mp hmap
      rw [hec.toBytesCompressed_eq hbytes, hec.hashToCurve_eq hhash]
    · exact keeps_bind (keeps_modify fun encrypter hholds =>
        ⟨hholds.maxCounterValue_eq, hholds.integerToEcPointMap, Or.inr hpoint⟩)
          fun _ _ => keeps_pure trivial
  · exact keeps_pure trivial

/-- Whatever calls an encrypter has served, its caches hold points they are meant to hold. -/
theorem Served.holdsPoints (hmax : maxCounterValue.toNat < 2 ^ 64 - 1)
    {encrypter : SketchEncrypterImpl Rng} (hserved : Served H compress maxCounterValue encrypter) :
    HoldsPoints H compress maxCounterValue encrypter := by
  induction hserved with
  | create rng => exact .create rng
  | encrypt sketch strategy hec _ ih =>
      exact (keeps_encrypt (fun _ rng hholds => hholds.setRng rng)
        (holds_getECPointForInteger hec hmax) (holds_getDestroyedRegisterKeyEc hec) sketch
        strategy).finalState ih
  | appendNoiseRegisters noise valueCount encryptedSketch _ _ ih =>
      exact (keeps_appendNoiseRegisters (fun _ rng hholds => hholds.setRng rng) noise valueCount
        encryptedSketch).finalState ih

/-! ### What is answered -/

omit [AddCommGroup Point] in
theorem answer_insertECPointForInteger (encrypter : SketchEncrypterImpl Rng) (n : UInt64) :
    answer ((insertECPointForInteger ec n).run encrypter) = computeECPointForInteger ec n := by
  rw [insertECPointForInteger, EStateM.run_bind]
  cases computeECPointForInteger ec n with
  | ok ecPoint => rfl
  | error failure => rfl

/-- A request is answered with the cached point of the capped counter, or by computing it. -/
theorem answer_getECPointForInteger (hmax : maxCounterValue.toNat < 2 ^ 64 - 1)
    {encrypter : SketchEncrypterImpl Rng}
    (hholds : HoldsPoints H compress maxCounterValue encrypter) (n : UInt64) :
    answer ((getECPointForInteger ec n).run encrypter)
        = .ok (compress (min n.toNat (maxCounterValue.toNat + 1) • H unitECPointSeed))
      ∨ answer ((getECPointForInteger ec n).run encrypter)
        = computeECPointForInteger ec (cappedCounter maxCounterValue n) := by
  obtain rfl := hholds.maxCounterValue_eq
  have hcapped := cappedCounter_toNat hmax n
  rw [← hcapped]
  unfold getECPointForInteger
  rw [EStateM.run_bind, EStateM.run_get]
  cases hlookup : encrypter.integerToEcPointMap.lookup n with
  | some ecPoint =>
      obtain ⟨-, hcap, hpoint⟩ := hholds.integerToEcPointMap n ecPoint hlookup
      left
      rw [hcapped, Nat.min_eq_left hcap, ← hpoint]
      simp only [hlookup]
      rfl
  | none =>
      simp only [hlookup]
      rw [cappedCounter]
      split
      · cases hlookupCapped :
            encrypter.integerToEcPointMap.lookup (encrypter.maxCounterValue + 1) with
        | some ecPoint =>
            obtain ⟨-, -, hpoint⟩ := hholds.integerToEcPointMap _ ecPoint hlookupCapped
            left
            rw [← hpoint]
            rfl
        | none => exact Or.inr (answer_insertECPointForInteger encrypter _)
      · exact Or.inr (answer_insertECPointForInteger encrypter n)

omit [AddCommGroup Point] in
theorem answer_getECPointForInteger_fresh (rng : Rng) (n : UInt64) :
    answer ((getECPointForInteger ec n).run (createWithPublicKey rng maxCounterValue))
      = computeECPointForInteger ec (cappedCounter maxCounterValue n) := by
  have hrun : (getECPointForInteger ec n).run (createWithPublicKey rng maxCounterValue)
      = (if maxCounterValue + 1 < n then insertECPointForInteger ec (maxCounterValue + 1)
          else insertECPointForInteger ec n : EncrypterM Rng ByteString).run
            (createWithPublicKey rng maxCounterValue) := rfl
  rw [hrun, cappedCounter]
  split
  · exact answer_insertECPointForInteger _ _
  · exact answer_insertECPointForInteger _ n

/-- **The caches do not show.** Whatever calls an encrypter has served, failed ones included, its
map holds points of counters from 1 to the cap, one entry each at most, and the key of destroyed
registers is absent or right. A request for a counter is answered with the point of that counter up
to the cap. A fresh encrypter that answers at all gives the same answer, and a request that fails
fails on a fresh encrypter in the same way. -/
theorem caches_do_not_show (hmax : maxCounterValue.toNat < 2 ^ 64 - 1)
    {encrypter : SketchEncrypterImpl Rng} (hserved : Served H compress maxCounterValue encrypter) :
    (∀ n ecPoint, encrypter.integerToEcPointMap.lookup n = some ecPoint →
      1 ≤ n.toNat ∧ n.toNat ≤ maxCounterValue.toNat + 1
        ∧ ecPoint = compress (n.toNat • H unitECPointSeed)) ∧
    (encrypter.destroyedRegisterKeyEc = []
      ∨ encrypter.destroyedRegisterKeyEc = compress (H destroyedRegisterKey)) ∧
    (∀ (ec : EcLibrary Point Rng) (n : UInt64) (rng : Rng), ec.Computes H compress →
      match answer ((getECPointForInteger ec n).run encrypter),
        answer ((getECPointForInteger ec n).run (createWithPublicKey rng maxCounterValue)) with
        | .ok ecPoint, .ok fresh =>
            ecPoint = compress (min n.toNat (maxCounterValue.toNat + 1) • H unitECPointSeed)
              ∧ fresh = ecPoint
        | .ok ecPoint, .error _ =>
            ecPoint = compress (min n.toNat (maxCounterValue.toNat + 1) • H unitECPointSeed)
        | .error failure, fresh => fresh = .error failure) ∧
    encrypter.integerToEcPointMap.entries.length ≤ maxCounterValue.toNat + 1 := by
  have hholds := hserved.holdsPoints hmax
  refine ⟨hholds.integerToEcPointMap, hholds.destroyedRegisterKeyEc, ?_, hholds.entries_length_le⟩
  intro ec n rng hec
  have hfresh : answer
      ((getECPointForInteger ec n).run (createWithPublicKey rng maxCounterValue)) = _ :=
    answer_getECPointForInteger_fresh rng n
  have hcomputed : ∀ ecPoint,
      computeECPointForInteger ec (cappedCounter maxCounterValue n) = .ok ecPoint →
      ecPoint = compress (min n.toNat (maxCounterValue.toNat + 1) • H unitECPointSeed) := by
    intro ecPoint hcompute
    rw [← cappedCounter_toNat hmax]
    exact (computeECPointForInteger_eq hec hcompute).2
  rw [hfresh]
  have hanswers : answer ((getECPointForInteger ec n).run encrypter) = _ ∨ _ :=
    answer_getECPointForInteger hmax hholds n
  rcases hanswers with hcached | hanswer
  · rw [hcached]
    cases hcompute : computeECPointForInteger ec (cappedCounter maxCounterValue n) with
    | ok fresh => exact ⟨rfl, hcomputed fresh hcompute⟩
    | error failure => rfl
  · rw [hanswer]
    cases hcompute : computeECPointForInteger ec (cappedCounter maxCounterValue n) with
    | ok fresh => exact ⟨hcomputed fresh hcompute, rfl⟩
    | error failure => rfl

end Caches

theorem sampleEc_computes : sampleEc.Computes sampleHash sampleBytes where
  hashToCurve_eq hhash := by cases hhash; rfl
  mul_eq hmul := by cases hmul; rfl
  toBytesCompressed_eq hbytes := by cases hbytes; rfl

/-- A call without a strategy for destroyed registers, which fails, and one with a strategy. -/
def sampleServed : SketchEncrypterImpl Nat :=
  finalState ((encrypt sampleEc sampleProto .conflictingKeys).run
    (finalState ((encrypt sampleEc sampleProto .unspecified).run (createWithPublicKey 0 5))))

theorem caches_do_not_show_sampleProto :
    (sampleServed.destroyedRegisterKeyEc = []
      ∨ sampleServed.destroyedRegisterKeyEc = sampleBytes (sampleHash destroyedRegisterKey)) ∧
    sampleServed.integerToEcPointMap.entries.length ≤ 6 := by
  have hserved : Served sampleHash sampleBytes 5 sampleServed :=
    .encrypt sampleProto .conflictingKeys sampleEc_computes
      (.encrypt sampleProto .unspecified sampleEc_computes (.create 0))
  obtain ⟨-, hkey, -, hlength⟩ := caches_do_not_show (by decide) hserved
  exact ⟨hkey, hlength⟩

end AnySketchCorrectness
