import AnySketchCorrectness.Proof.CipherSketch

/-!
# When conflicting keys conflict

`CONFLICTING_KEYS` turns a destroyed register into two registers with the same index and the values
1 and 2, so that the later aggregation sees two different keys and destroys it again. The values are
counters, though, and go through the cap on counters. With a maximum of 0, which is what a request
without a `maximum_value` supplies, both are capped to 1 and the two registers are equal.
-/

namespace AnySketchCorrectness

open StateInvariant SketchEncrypterImpl

variable {Point Rng : Type}

/-- The `int32 maximum_value` of a request, as the `size_t` that `CreateWithPublicKey` takes. -/
def maxCounterValueOf (maximumValue : Int32) : UInt64 :=
  maximumValue.toInt64.toUInt64

/-- The words of a sketch in which every destroyed register became two registers with one index and,
column by column, different values, and every other register became one. -/
inductive ConflictingRegisters (sketchConfig : SketchConfig) : List Register → List Point → Prop
  | nil : ConflictingRegisters sketchConfig [] []
  | kept {reg regs index values points} :
      ¬ IsDestroyed reg sketchConfig →
      values.length = reg.values.length →
      ConflictingRegisters sketchConfig regs points →
      ConflictingRegisters sketchConfig (reg :: regs) ((index :: values) ++ points)
  | destroyed {reg regs index values values' points} :
      IsDestroyed reg sketchConfig →
      values.length = reg.values.length →
      values'.length = reg.values.length →
      (∀ column < reg.values.length, values[column]? ≠ values'[column]?) →
      ConflictingRegisters sketchConfig regs points →
      ConflictingRegisters sketchConfig (reg :: regs)
        ((index :: values) ++ (index :: values') ++ points)

theorem ConflictingRegisters.of_kept {sketchConfig : SketchConfig} {reg : Register}
    {regs : List Register} {index : Point} {values points : List Point}
    (hconflicting : ConflictingRegisters sketchConfig (reg :: regs) ((index :: values) ++ points))
    (hkept : ¬ IsDestroyed reg sketchConfig)
    (hlength : values.length = reg.values.length) :
    ConflictingRegisters sketchConfig regs points := by
  generalize hwords : (index :: values) ++ points = words at hconflicting
  cases hconflicting with
  | kept _ hlength' hrest =>
      obtain ⟨-, hpoints⟩ := List.append_inj hwords (by simp [hlength, hlength'])
      rw [hpoints]
      exact hrest
  | destroyed hdestroyed => exact absurd hdestroyed hkept

theorem ConflictingRegisters.of_destroyed {sketchConfig : SketchConfig} {reg : Register}
    {regs : List Register} {index index' : Point} {values values' points : List Point}
    (hconflicting : ConflictingRegisters sketchConfig (reg :: regs)
      ((index :: values) ++ (index' :: values') ++ points))
    (hdestroyed : IsDestroyed reg sketchConfig)
    (hlength : values.length = reg.values.length) (hlength' : values'.length = reg.values.length) :
    ∀ column < reg.values.length, values[column]? ≠ values'[column]? := by
  generalize hwords : (index :: values) ++ (index' :: values') ++ points = words at hconflicting
  cases hconflicting with
  | kept hkept => exact absurd hdestroyed hkept
  | destroyed _ hfirst hsecond hne hrest =>
      obtain ⟨hboth, -⟩ := List.append_inj hwords (by simp [hlength, hlength', hfirst, hsecond])
      obtain ⟨hindexed, hindexed'⟩ := List.append_inj hboth (by simp [hlength, hfirst])
      cases hindexed
      cases hindexed'
      exact hne

theorem validateSketch_iff {sketch : Sketch} : validateSketch sketch = true
    ↔ ∀ reg ∈ sketch.registers, reg.values.length = sketch.config.values.length := by
  rw [validateSketch, List.all_eq_true]
  refine forall₂_congr fun reg _ => ?_
  rw [beq_iff_eq]
  exact eq_comm

theorem validateSketch_of_run {ec : EcLibrary Point Rng} {sketch : Sketch}
    {destroyedRegisterStrategy : DestroyedRegisterStrategy}
    {encrypter encrypter' : SketchEncrypterImpl Rng} {encryptedSketch : ByteString}
    (hrun : (encrypt ec sketch destroyedRegisterStrategy).run encrypter
      = .ok encryptedSketch encrypter') :
    ∀ reg ∈ sketch.registers, reg.values.length = sketch.config.values.length := by
  by_cases hvalid : validateSketch sketch = true
  · exact validateSketch_iff.mp hvalid
  · unfold encrypt at hrun
    rw [if_pos (by simpa using hvalid)] at hrun
    cases hrun

theorem values_length_pos_of_destroyed {reg : Register} {sketchConfig : SketchConfig}
    (hdestroyed : IsDestroyed reg sketchConfig) : 0 < reg.values.length := by
  obtain ⟨column, _, value, _, hvalue, _⟩ := hdestroyed
  exact Nat.zero_lt_of_lt (List.getElem?_eq_some_iff.mp hvalue).1

section Points

variable [AddCommGroup Point] {H : String → Point} {maxCounterValue : UInt64}
  {sketchConfig : SketchConfig} {regs : List Register}

/-! What the words of one register say about a sketch that begins with it. -/

theorem ConflictingRegisters.cons_destroyed {reg : Register} {points : List Point}
    (hdestroyed : IsDestroyed reg sketchConfig)
    (hne : counterPoint H maxCounterValue 1 ≠ counterPoint H maxCounterValue 2)
    (hrest : ConflictingRegisters sketchConfig regs points) :
    ConflictingRegisters sketchConfig (reg :: regs)
      (registerPoints H maxCounterValue sketchConfig .conflictingKeys reg ++ points) := by
  rw [registerPoints, if_pos hdestroyed, destroyedRegisterPoints]
  refine .destroyed hdestroyed List.length_replicate List.length_replicate ?_ hrest
  intro column hcolumn
  rw [List.getElem?_replicate_of_lt hcolumn, List.getElem?_replicate_of_lt hcolumn]
  exact fun heq => hne (Option.some.inj heq)

theorem ConflictingRegisters.counterPoint_ne {reg : Register} {points : List Point}
    (hdestroyed : IsDestroyed reg sketchConfig)
    (hconflicting : ConflictingRegisters sketchConfig (reg :: regs)
      (registerPoints H maxCounterValue sketchConfig .conflictingKeys reg ++ points)) :
    counterPoint H maxCounterValue 1 ≠ counterPoint H maxCounterValue 2 := by
  rw [registerPoints, if_pos hdestroyed, destroyedRegisterPoints] at hconflicting
  have hpositive := values_length_pos_of_destroyed hdestroyed
  -- the first column tells the two markers apart
  have hfirst := hconflicting.of_destroyed hdestroyed List.length_replicate
    List.length_replicate 0 hpositive
  rw [List.getElem?_replicate_of_lt hpositive, List.getElem?_replicate_of_lt hpositive] at hfirst
  exact fun heq => hfirst (congrArg some heq)

theorem conflictingRegisters_cons_kept_iff {reg : Register} {points : List Point}
    (hreg : reg.values.length = sketchConfig.values.length)
    (hkept : ¬ IsDestroyed reg sketchConfig) :
    ConflictingRegisters sketchConfig (reg :: regs)
        (registerPoints H maxCounterValue sketchConfig .conflictingKeys reg ++ points)
      ↔ ConflictingRegisters sketchConfig regs points := by
  have hlength : (List.zipWith (valuePoint H maxCounterValue) sketchConfig.values
      reg.values).length = reg.values.length := by
    rw [List.length_zipWith, hreg, Nat.min_self]
  rw [registerPoints, if_neg hkept]
  exact ⟨fun hconflicting => hconflicting.of_kept hkept hlength, .kept hkept hlength⟩

/-- Different marker points are enough, and are needed only if some register is destroyed. -/
theorem conflictingRegisters_flatMap_iff
    (hvalid : ∀ reg ∈ regs, reg.values.length = sketchConfig.values.length) :
    ConflictingRegisters sketchConfig regs
        (regs.flatMap (registerPoints H maxCounterValue sketchConfig .conflictingKeys))
      ↔ counterPoint H maxCounterValue 1 ≠ counterPoint H maxCounterValue 2
        ∨ ∀ reg ∈ regs, ¬ IsDestroyed reg sketchConfig := by
  induction regs with
  | nil => exact iff_of_true .nil (Or.inr (by simp))
  | cons reg regs ih =>
      obtain ⟨hreg, hvalid⟩ := List.forall_mem_cons.mp hvalid
      have ih := ih hvalid
      rw [List.flatMap_cons, List.forall_mem_cons]
      by_cases hdestroyed : IsDestroyed reg sketchConfig
      · constructor
        · exact fun hconflicting => Or.inl (hconflicting.counterPoint_ne hdestroyed)
        · rintro (hne | ⟨hkept, -⟩)
          · exact .cons_destroyed hdestroyed hne (ih.mpr (Or.inl hne))
          · exact absurd hdestroyed hkept
      · rw [conflictingRegisters_cons_kept_iff hreg hdestroyed, and_iff_right hdestroyed, ih]

theorem maxCounterValueOf_toNat {maximumValue : Int32} (hmaximum : 0 ≤ maximumValue) :
    (maxCounterValueOf maximumValue).toNat = maximumValue.toInt.toNat := by
  rw [Int32.le_iff_toInt_le, Int32.toInt_zero] at hmaximum
  rw [maxCounterValueOf, Int64.toNat_toUInt64_of_le, Int64.toNatClampNeg, Int32.toInt_toInt64]
  rw [Int64.le_iff_toInt_le, Int64.toInt_zero, Int32.toInt_toInt64]
  exact hmaximum

theorem counterPoint_markers_ne_iff {maximumValue : Int32} (hmaximum : 0 ≤ maximumValue)
    (hunit : 1 • H unitECPointSeed ≠ 2 • H unitECPointSeed) :
    counterPoint H (maxCounterValueOf maximumValue) 1
        ≠ counterPoint H (maxCounterValueOf maximumValue) 2 ↔ 1 ≤ maximumValue := by
  rw [counterPoint, counterPoint, maxCounterValueOf_toNat hmaximum, Int32.le_iff_toInt_le,
    Int32.toInt_one, Nat.min_eq_left (by omega)]
  by_cases hone : 1 ≤ maximumValue.toInt
  · rw [Nat.min_eq_left (by omega)]
    exact iff_of_true hunit hone
  · rw [Nat.min_eq_right (by omega), show maximumValue.toInt.toNat + 1 = 1 by omega]
    exact iff_of_false (fun hne => hne rfl) hone

variable {ec : EcLibrary Point Rng} {decrypt : ByteString → ByteString → Point}
  {encrypter encrypter' : SketchEncrypterImpl Rng} {sketch : Sketch} {encryptedSketch : ByteString}

theorem conflictingRegisters_decryptWords_iff (hec : ec.Correct H decrypt)
    (hmax : maxCounterValue.toNat < 2 ^ 64 - 1)
    (hreachable : Reachable ec maxCounterValue encrypter)
    (hrun : (encrypt ec sketch .conflictingKeys).run encrypter = .ok encryptedSketch encrypter') :
    ConflictingRegisters sketch.config sketch.registers (decryptWords decrypt encryptedSketch)
      ↔ counterPoint H maxCounterValue 1 ≠ counterPoint H maxCounterValue 2
        ∨ ∀ reg ∈ sketch.registers, ¬ IsDestroyed reg sketch.config := by
  obtain ⟨-, -, hwords⟩ := (encodes_encrypt hec hmax sketch .conflictingKeys).result
    (hreachable.cacheValid hec hmax) hrun
  rw [hwords]
  exact conflictingRegisters_flatMap_iff (validateSketch_of_run hrun)

/-- **When a destroyed register stays destroyed.** For every maximum a request can supply and every
sketch, the destroyed registers come out as pairs with conflicting keys exactly when the maximum is
at least 1 or there is no destroyed register. -/
theorem encrypt_conflictingKeys_iff {maximumValue : Int32} (hec : ec.Correct H decrypt)
    (hunit : 1 • H unitECPointSeed ≠ 2 • H unitECPointSeed) (hmaximum : 0 ≤ maximumValue)
    (hreachable : Reachable ec (maxCounterValueOf maximumValue) encrypter)
    (hrun : (encrypt ec sketch .conflictingKeys).run encrypter = .ok encryptedSketch encrypter') :
    ConflictingRegisters sketch.config sketch.registers (decryptWords decrypt encryptedSketch)
      ↔ 1 ≤ maximumValue
        ∨ ∀ reg ∈ sketch.registers, ¬ IsDestroyed reg sketch.config := by
  have hmax : (maxCounterValueOf maximumValue).toNat < 2 ^ 64 - 1 := by
    have hlt := maximumValue.toInt_lt
    rw [maxCounterValueOf_toNat hmaximum]
    omega
  rw [conflictingRegisters_decryptWords_iff hec hmax hreachable hrun,
    counterPoint_markers_ne_iff hmaximum hunit]

end Points

theorem encrypt_conflictingKeys_iff_sampleProto : ∃ encryptedSketch encrypter',
    (encrypt sampleEc sampleProto .conflictingKeys).run
      (createWithPublicKey 0 (maxCounterValueOf 5)) = .ok encryptedSketch encrypter' ∧
    ConflictingRegisters sampleProto.config sampleProto.registers
      (decryptWords sampleDecrypt encryptedSketch) := by
  obtain ⟨encryptedSketch, encrypter', hrun⟩ := exists_ok_of_succeeds
    (List.all_eq_true.mp sampleProto_encrypts (maxCounterValueOf 5) (by decide))
  exact ⟨encryptedSketch, encrypter', hrun,
    (encrypt_conflictingKeys_iff sampleEc_correct (by decide +kernel) (by decide) (.create 0)
      hrun).mpr (Or.inl (by decide))⟩

/-- A request without a `maximum_value`: the destroyed register of the sample is encrypted twice,
but both times with the same key. -/
theorem encrypt_conflictingKeys_agree : ∃ encryptedSketch encrypter',
    (encrypt sampleEc sampleProto .conflictingKeys).run
      (createWithPublicKey 0 (maxCounterValueOf 0)) = .ok encryptedSketch encrypter' ∧
    ¬ ConflictingRegisters sampleProto.config sampleProto.registers
      (decryptWords sampleDecrypt encryptedSketch) := by
  obtain ⟨encryptedSketch, encrypter', hrun⟩ := exists_ok_of_succeeds
    (List.all_eq_true.mp sampleProto_encrypts (maxCounterValueOf 0) (by decide))
  refine ⟨encryptedSketch, encrypter', hrun, ?_⟩
  rw [conflictingRegisters_decryptWords_iff sampleEc_correct (by decide) (.create 0) hrun]
  rintro (hne | hkept)
  · exact hne rfl
  · exact absurd (hkept _ List.mem_cons_self) (by decide)

end AnySketchCorrectness
