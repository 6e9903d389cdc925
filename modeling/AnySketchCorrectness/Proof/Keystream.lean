import AnySketchCorrectness.Keystream
import Mathlib.Data.List.Forall2

/-!
# Splitting a request

A request of less than `2 ^ 32` bytes is either answered with the next bytes of the keystream or
rejected, so splitting it changes nothing. From `2 ^ 32` bytes on the length that OpenSSL sees is
the remainder modulo `2 ^ 32`. When that remainder is not negative as an `int` the call succeeds,
and all but the first bytes of its result are the zeros that the buffer was filled with.
-/

namespace AnySketchCorrectness

open UniformPseudorandomGenerator CounterMode

variable {Ctx : Type} {evp : EvpCipher Ctx} {aes256 : ByteString → AesBlock → AesBlock}
  {remaining : Ctx → Stream' UInt8}

/-! ### One call -/

theorem evaluate_eq_ok_iff {α : Type} {program : GeneratorM Ctx α} {ctx : Ctx} {a : α} :
    evaluate program ctx = .ok a ↔ ∃ ctx', program.run ctx = .ok a ctx' :=
  StateInvariant.answer_eq_ok_iff

theorem int32_ofNat_cases (n : Nat) :
    (n % 2 ^ 32 < 2 ^ 31 ∧ 0 ≤ Int32.ofNat n ∧ (Int32.ofNat n).toNatClampNeg = n % 2 ^ 32)
      ∨ (2 ^ 31 ≤ n % 2 ^ 32 ∧ Int32.ofNat n < 0) := by
  have hvalue : (Int32.ofNat n).toInt = (n : Int).bmod (2 ^ 32) := Int32.toInt_ofNat'
  rw [Int32.le_iff_toInt_le, Int32.lt_iff_toInt_lt, Int32.toInt_zero, Int32.toNatClampNeg, hvalue,
    Int.bmod_def]
  omega

theorem zipWith_xor_replicate_zero {bytes : ByteString} {n : Nat} (hlength : bytes.length = n) :
    List.zipWith (· ^^^ ·) (List.replicate n 0) bytes = bytes := by
  subst hlength
  induction bytes with
  | nil => rfl
  | cons byte bytes ih =>
      rw [List.length_cons, List.replicate_succ, List.zipWith_cons_cons, ih, UInt8.zero_xor]

theorem overwrite_overwrite (buffer written : ByteString) :
    overwrite (overwrite buffer 0 written) written.length []
      = written ++ buffer.drop written.length := by
  simp [overwrite]

theorem run_generatePseudorandomBytes_ok (hevp : evp.IsAes256Ctr aes256 remaining) {size : Int64}
    (hsize : 0 ≤ size) (htruncated : size.toNatClampNeg % 2 ^ 32 < 2 ^ 31) (ctx : Ctx) :
    ∃ ctx', (generatePseudorandomBytes evp size).run ctx
        = .ok ((remaining ctx).take (size.toNatClampNeg % 2 ^ 32)
            ++ List.replicate (size.toNatClampNeg - size.toNatClampNeg % 2 ^ 32) 0) ctx'
      ∧ remaining ctx' = (remaining ctx).drop (size.toNatClampNeg % 2 ^ 32) := by
  by_cases hzero : size = 0
  · subst hzero
    exact ⟨ctx, rfl, rfl⟩
  rcases int32_ofNat_cases size.toNatClampNeg with ⟨-, hnonneg, hvalue⟩ | ⟨hlarge, -⟩
  · have hle : size.toNatClampNeg % 2 ^ 32 ≤ size.toNatClampNeg := Nat.mod_le _ _
    have hwritten : List.zipWith (· ^^^ ·)
        ((List.replicate size.toNatClampNeg 0).take (size.toNatClampNeg % 2 ^ 32))
        ((remaining ctx).take (size.toNatClampNeg % 2 ^ 32))
        = (remaining ctx).take (size.toNatClampNeg % 2 ^ 32) := by
      rw [List.take_replicate, Nat.min_eq_left hle]
      exact zipWith_xor_replicate_zero (Stream'.length_take _ _)
    obtain ⟨ctx₁, hupdate, hremaining₁⟩ := hevp.encryptUpdate ctx
      (List.replicate size.toNatClampNeg 0) (Int32.ofNat size.toNatClampNeg) hnonneg
      (by rw [hvalue, List.length_replicate]; exact hle)
    obtain ⟨ctx₂, hfinal, hremaining₂⟩ := hevp.encryptFinal ctx₁
    refine ⟨ctx₂, ?_, by rw [hremaining₂, hremaining₁, hvalue]⟩
    unfold generatePseudorandomBytes
    rw [if_neg (Int64.not_lt.mpr hsize), if_neg hzero]
    rw [hvalue, hwritten] at hupdate
    simp only [List.length_replicate, EStateM.run_bind, EStateM.run_get, EStateM.run_set, hupdate,
      hfinal, ne_eq, not_true_eq_false, if_false, overwrite_overwrite, EStateM.run_pure]
    rw [List.drop_replicate, Stream'.length_take]
  · omega

theorem run_generatePseudorandomBytes_refused (hevp : evp.IsAes256Ctr aes256 remaining)
    {size : Int64} (hsize : 0 ≤ size) (hrefused : 2 ^ 31 ≤ size.toNatClampNeg % 2 ^ 32)
    (ctx : Ctx) :
    ∃ ctx', (generatePseudorandomBytes evp size).run ctx
        = .error (.internal "Error updating the uniform pseudorandom generator context.") ctx'
      ∧ remaining ctx' = remaining ctx := by
  have hzero : size ≠ 0 := by
    rintro rfl
    exact absurd hrefused (by decide)
  rcases int32_ofNat_cases size.toNatClampNeg with ⟨hsmall, -⟩ | ⟨-, hinl⟩
  · omega
  · obtain ⟨code, written, ctx', hupdate, hcode, hremaining⟩ := hevp.encryptUpdate_neg ctx
      (List.replicate size.toNatClampNeg 0) (Int32.ofNat size.toNatClampNeg) hinl
    refine ⟨ctx', ?_, hremaining⟩
    unfold generatePseudorandomBytes
    rw [if_neg (Int64.not_lt.mpr hsize), if_neg hzero]
    simp only [List.length_replicate, EStateM.run_bind, EStateM.run_get, EStateM.run_set, hupdate,
      ne_eq, hcode, not_false_eq_true, if_true]
    rfl

theorem run_generatePseudorandomBytes_error (hevp : evp.IsAes256Ctr aes256 remaining) {size : Int64}
    (hsize : size < 0 ∨ 2 ^ 31 ≤ size.toNatClampNeg % 2 ^ 32) (ctx : Ctx) :
    ∃ e ctx', (generatePseudorandomBytes evp size).run ctx = .error e ctx'
      ∧ remaining ctx' = remaining ctx := by
  by_cases hneg : size < 0
  · unfold generatePseudorandomBytes
    rw [if_pos hneg]
    exact ⟨_, ctx, rfl, rfl⟩
  · exact ⟨_, run_generatePseudorandomBytes_refused hevp (Int64.not_lt.mp hneg)
      (hsize.resolve_left hneg) ctx⟩

theorem run_generatePseudorandomBytes_cases (hevp : evp.IsAes256Ctr aes256 remaining)
    (size : Int64) (ctx : Ctx) :
    (∃ e ctx', (generatePseudorandomBytes evp size).run ctx = .error e ctx'
        ∧ remaining ctx' = remaining ctx)
      ∨ size.toNatClampNeg % 2 ^ 32 < 2 ^ 31 ∧
        ∃ ctx', (generatePseudorandomBytes evp size).run ctx
            = .ok ((remaining ctx).take (size.toNatClampNeg % 2 ^ 32)
                ++ List.replicate (size.toNatClampNeg - size.toNatClampNeg % 2 ^ 32) 0) ctx'
          ∧ remaining ctx' = (remaining ctx).drop (size.toNatClampNeg % 2 ^ 32) := by
  by_cases hrejected : size < 0 ∨ 2 ^ 31 ≤ size.toNatClampNeg % 2 ^ 32
  · exact Or.inl (run_generatePseudorandomBytes_error hevp hrejected ctx)
  · rw [not_or, Int64.not_lt, Nat.not_le] at hrejected
    exact Or.inr ⟨hrejected.2,
      run_generatePseudorandomBytes_ok hevp hrejected.1 hrejected.2 ctx⟩

/-! ### A sequence of calls -/

theorem concatenation_ok (bytes : ByteString) (results : List (StatusOr ByteString)) :
    concatenation (.ok bytes :: results) = bytes ++ concatenation results := rfl

theorem generateAll_lengths (hevp : evp.IsAes256Ctr aes256 remaining) (sizes : List Int64)
    (ctx : Ctx) :
    List.Forall₂ (fun size result => ∀ bytes, result = .ok bytes →
      bytes.length = size.toNatClampNeg) sizes (generateAll evp sizes ctx) := by
  induction sizes generalizing ctx with
  | nil => exact .nil
  | cons size sizes ih =>
      rw [generateAll]
      rcases run_generatePseudorandomBytes_cases hevp size ctx with
        ⟨e, ctx', hrun, -⟩ | ⟨-, ctx', hrun, -⟩
      · rw [hrun]
        exact .cons (fun bytes hbytes => by cases hbytes) (ih ctx')
      · rw [hrun]
        refine .cons (fun bytes hbytes => ?_) (ih ctx')
        cases hbytes
        have hle : size.toNatClampNeg % 2 ^ 32 ≤ size.toNatClampNeg := Nat.mod_le _ _
        rw [List.length_append, Stream'.length_take, List.length_replicate]
        omega

/-- While the sizes survive, each call continues where the one before it stopped. -/
theorem generateAll_prefix (hevp : evp.IsAes256Ctr aes256 remaining) {sizes : List Int64}
    (hsizes : ∀ size ∈ sizes, SizeSurvives size) (ctx : Ctx) :
    concatenation (generateAll evp sizes ctx)
      = (remaining ctx).take (concatenation (generateAll evp sizes ctx)).length := by
  induction sizes generalizing ctx with
  | nil => rfl
  | cons size sizes ih =>
      rw [List.forall_mem_cons] at hsizes
      rw [generateAll]
      rcases run_generatePseudorandomBytes_cases hevp size ctx with
        ⟨e, ctx', hrun, hremaining⟩ | ⟨htruncated, ctx', hrun, hremaining⟩
      · have htail := ih hsizes.2 ctx'
        rw [hremaining] at htail
        rw [hrun]
        exact htail
      · have hsmall : size.toNatClampNeg < 2 ^ 32 :=
          hsizes.1.resolve_right (Nat.not_le.mpr htruncated)
        have htail := ih hsizes.2 ctx'
        rw [Nat.mod_eq_of_lt hsmall] at hrun hremaining
        rw [hremaining] at htail
        rw [hrun, Nat.sub_self, List.replicate_zero, List.append_nil, concatenation_ok]
        let rest := concatenation (generateAll evp sizes ctx')
        calc (remaining ctx).take size.toNatClampNeg ++ rest
            = (remaining ctx).take size.toNatClampNeg
                ++ ((remaining ctx).drop size.toNatClampNeg).take rest.length := by rw [← htail]
          _ = (remaining ctx).take (size.toNatClampNeg + rest.length) := (take_add _ _ _).symm
          _ = (remaining ctx).take ((remaining ctx).take size.toNatClampNeg ++ rest).length := by
            rw [List.length_append, Stream'.length_take]

/-- Requests below `2 ^ 31` bytes all succeed, and together they are the front of the keystream. -/
theorem generateAll_served (hevp : evp.IsAes256Ctr aes256 remaining) {sizes : List Int64}
    (hsizes : ∀ size ∈ sizes, 0 ≤ size ∧ size.toNatClampNeg < 2 ^ 31) (ctx : Ctx) :
    (∀ result ∈ generateAll evp sizes ctx, ∃ bytes, result = .ok bytes) ∧
    concatenation (generateAll evp sizes ctx)
      = (remaining ctx).take (sizes.map Int64.toNatClampNeg).sum := by
  induction sizes generalizing ctx with
  | nil => exact ⟨List.forall_mem_nil _, rfl⟩
  | cons size sizes ih =>
      obtain ⟨⟨hsize, hlt⟩, hsizes⟩ := List.forall_mem_cons.mp hsizes
      have hmod : size.toNatClampNeg % 2 ^ 32 = size.toNatClampNeg :=
        Nat.mod_eq_of_lt (hlt.trans (by decide))
      obtain ⟨ctx', hrun, hremaining⟩ :=
        run_generatePseudorandomBytes_ok hevp hsize (hmod.trans_lt hlt) ctx
      obtain ⟨hserved, hrest⟩ := ih hsizes ctx'
      rw [hmod, Nat.sub_self, List.replicate_zero, List.append_nil] at hrun
      rw [hremaining, hmod] at hrest
      rw [generateAll, hrun]
      refine ⟨List.forall_mem_cons.mpr ⟨⟨_, rfl⟩, hserved⟩, ?_⟩
      rw [concatenation_ok, hrest, List.map_cons, List.sum_cons, take_add]

theorem exists_zeros_of_mem (hevp : evp.IsAes256Ctr aes256 remaining) {sizes : List Int64}
    {size : Int64} (hmem : size ∈ sizes) (hsize : ¬ SizeSurvives size) (ctx : Ctx) :
    ∃ front back, concatenation (generateAll evp sizes ctx)
      = front ++ List.replicate (2 ^ 32) 0 ++ back := by
  induction sizes generalizing ctx with
  | nil => cases hmem
  | cons head sizes ih =>
      rw [generateAll]
      rcases List.mem_cons.mp hmem with rfl | htail
      · rw [SizeSurvives, not_or, Nat.not_lt, Nat.not_le] at hsize
        have hpositive : 0 ≤ size := by
          rw [← Int64.not_lt, Int64.lt_iff_toInt_lt, Int64.toInt_zero]
          intro hneg
          have hclamped : size.toNatClampNeg = 0 := Int.toNat_of_nonpos hneg.le
          omega
        obtain ⟨ctx', hrun, -⟩ := run_generatePseudorandomBytes_ok hevp hpositive hsize.2 ctx
        have hzeros : size.toNatClampNeg - size.toNatClampNeg % 2 ^ 32
            = 2 ^ 32 + (size.toNatClampNeg - size.toNatClampNeg % 2 ^ 32 - 2 ^ 32) := by omega
        rw [hrun, concatenation_ok, hzeros, List.replicate_add]
        refine ⟨(remaining ctx).take (size.toNatClampNeg % 2 ^ 32),
          List.replicate (size.toNatClampNeg - size.toNatClampNeg % 2 ^ 32 - 2 ^ 32) 0
            ++ concatenation (generateAll evp sizes ctx'), ?_⟩
        simp only [List.append_assoc]
      · cases hrun : (generatePseudorandomBytes evp head).run ctx with
        | ok bytes ctx' =>
            obtain ⟨front, back, hzeros⟩ := ih htail ctx'
            refine ⟨bytes ++ front, back, ?_⟩
            rw [concatenation_ok, hzeros]
            simp only [List.append_assoc]
        | error e ctx' => exact ih htail ctx'

theorem not_prefix_of_zeros {key : ByteString} {counter : Nat} {front back : ByteString}
    (hinjective : Function.Injective (aes256 key)) :
    front ++ List.replicate (2 ^ 32) 0 ++ back
      ≠ (keystream (aes256 key) counter).take
          (front ++ List.replicate (2 ^ 32) 0 ++ back).length := by
  intro hprefix
  apply keystream_not_constant hinjective front.length 0
  intro i hi
  have hlt : i < 2 ^ 32 := by omega
  have hbyte := congrArg (fun bytes : ByteString => bytes[front.length + i]?) hprefix
  simp only [List.length_append, List.length_replicate] at hbyte
  rw [Stream'.getElem?_take (by omega), List.append_assoc, List.getElem?_append_right (by omega),
    Nat.add_sub_cancel_left, List.getElem?_append_left (by rw [List.length_replicate]; exact hlt),
    List.getElem?_replicate_of_lt hlt, Option.some.injEq] at hbyte
  exact hbyte.symm

theorem create_ok {key iv : ByteString} {ctx : Ctx} (hevp : evp.IsAes256Ctr aes256 remaining)
    (hcreate : create evp key iv = .ok ctx) :
    key.length = bytesPerAes256Key ∧ remaining ctx = keystream (aes256 key) (ofBigEndian iv) := by
  unfold create at hcreate
  split at hcreate
  · cases hcreate
  rename_i hkey
  split at hcreate
  · cases hcreate
  rename_i hiv
  rw [not_not] at hkey hiv
  split at hcreate
  · cases hcreate
  rename_i ctx₀ _
  cases hinit : evp.encryptInit ctx₀ key iv with
  | mk code ctx' =>
      simp only [hinit] at hcreate
      split at hcreate
      · cases hcreate
      · rename_i hcode
        rw [not_not] at hcode
        subst hcode
        cases hcreate
        exact ⟨hkey, hevp.encryptInit hkey hiv hinit⟩

theorem not_splitsKeystream_of_mem (hevp : evp.IsAes256Ctr aes256 remaining) {key iv : ByteString}
    {ctx : Ctx} (hcreate : create evp key iv = .ok ctx) {sizes : List Int64} {size : Int64}
    (hmem : size ∈ sizes) (hsize : ¬ SizeSurvives size) :
    ¬ SplitsKeystream (keystream (aes256 key) (ofBigEndian iv)) sizes
      (generateAll evp sizes ctx) := by
  intro hsplits
  obtain ⟨front, back, hzeros⟩ := exists_zeros_of_mem hevp hmem hsize ctx
  have hprefix := hsplits.prefix_eq
  rw [hzeros] at hprefix
  exact not_prefix_of_zeros (hevp.aes256_injective key (create_ok hevp hcreate).1) hprefix

/-- **When splitting a request changes nothing.** For every generator and every sequence of
requests, the results are the contiguous keystream exactly when the length of every request survives
its conversion to `int` or becomes negative. -/
theorem generateAll_splitsKeystream_iff (hevp : evp.IsAes256Ctr aes256 remaining)
    {key iv : ByteString} {ctx : Ctx} (hcreate : create evp key iv = .ok ctx)
    (sizes : List Int64) :
    SplitsKeystream (keystream (aes256 key) (ofBigEndian iv)) sizes (generateAll evp sizes ctx)
      ↔ ∀ size ∈ sizes, SizeSurvives size := by
  constructor
  · intro hsplits size hmem
    by_contra hsize
    exact not_splitsKeystream_of_mem hevp hcreate hmem hsize hsplits
  · intro hsizes
    have hprefix := generateAll_prefix hevp hsizes ctx
    rw [(create_ok hevp hcreate).2] at hprefix
    exact ⟨generateAll_lengths hevp sizes ctx, hprefix⟩

/-! The cipher as OpenSSL implements it, with the first block of the test vector of the
repository's tests in place of AES. -/

def ctrEvp (aes256 : ByteString → AesBlock → AesBlock) : EvpCipher (Stream' UInt8) where
  ctxNew := some (Stream'.const 0)
  encryptInit _ key iv := (1, keystream (aes256 key) (ofBigEndian iv))
  encryptUpdate stream input inl :=
    if inl < 0 then (0, [], stream)
    else (1, List.zipWith (· ^^^ ·) (input.take inl.toNatClampNeg)
      (stream.take inl.toNatClampNeg), stream.drop inl.toNatClampNeg)
  encryptFinal stream := (1, [], stream)

theorem ctrEvp_isAes256Ctr
    (hinjective : ∀ key, key.length = bytesPerAes256Key → Function.Injective (aes256 key)) :
    (ctrEvp aes256).IsAes256Ctr aes256 id where
  aes256_injective := hinjective
  encryptInit _ _ hinit := by
    cases hinit
    rfl
  encryptUpdate stream input inl hinl _ := by
    refine ⟨stream.drop inl.toNatClampNeg, ?_, rfl⟩
    simp only [ctrEvp, id]
    rw [if_neg (Int32.not_lt.mpr hinl)]
  encryptUpdate_neg stream input inl hinl := by
    refine ⟨0, [], stream, ?_, by decide, rfl⟩
    simp only [ctrEvp]
    rw [if_pos hinl]
  encryptFinal stream := ⟨stream, rfl, rfl⟩

def testKey : ByteString :=
  [0x60, 0x3d, 0xeb, 0x10, 0x15, 0xca, 0x71, 0xbe, 0x2b, 0x73, 0xae, 0xf0, 0x85, 0x7d, 0x77, 0x81,
    0x1f, 0x35, 0x2c, 0x07, 0x3b, 0x61, 0x08, 0xd7, 0x2d, 0x98, 0x10, 0xa3, 0x09, 0x14, 0xdf, 0xf4]

def testIv : ByteString :=
  [0xf0, 0xf1, 0xf2, 0xf3, 0xf4, 0xf5, 0xf6, 0xf7, 0xf8, 0xf9, 0xfa, 0xfb, 0xfc, 0xfd, 0xfe, 0xff]

def testBlock : AesBlock :=
  #v[0x0b, 0xdf, 0x7d, 0xf1, 0x59, 0x17, 0x16, 0x33, 0x5e, 0x9a, 0x8b, 0x15, 0xc8, 0x60, 0xc5, 0x02]

def testAes256 (_ : ByteString) : AesBlock → AesBlock :=
  Equiv.swap (counterBlock 16 (ofBigEndian testIv)) testBlock

def testStream : Stream' UInt8 :=
  keystream (testAes256 testKey) (ofBigEndian testIv)

theorem testEvp_isAes256Ctr : (ctrEvp testAes256).IsAes256Ctr testAes256 id :=
  ctrEvp_isAes256Ctr fun _ _ => (Equiv.swap _ _).injective

theorem create_testEvp : create (ctrEvp testAes256) testKey testIv = .ok testStream := rfl

theorem generateAll_splitsKeystream_iff_testBlock :
    SplitsKeystream testStream [5, 11] (generateAll (ctrEvp testAes256) [5, 11] testStream) := by
  refine (generateAll_splitsKeystream_iff testEvp_isAes256Ctr create_testEvp [5, 11]).mpr ?_
  intro size hmem
  rw [List.mem_cons, List.mem_singleton] at hmem
  rcases hmem with rfl | rfl
  · exact Or.inl (by decide)
  · exact Or.inl (by decide)

/-- A request for `2 ^ 32` bytes succeeds with nothing but zeros. -/
theorem generateAll_not_splitsKeystream :
    create (ctrEvp testAes256) testKey testIv = .ok testStream ∧
    (∃ stream, (generatePseudorandomBytes (ctrEvp testAes256) (2 ^ 32)).run testStream
      = .ok (List.replicate (2 ^ 32) 0) stream) ∧
    ¬ SplitsKeystream testStream [2 ^ 32]
      (generateAll (ctrEvp testAes256) [2 ^ 32] testStream) := by
  refine ⟨create_testEvp, ?_, not_splitsKeystream_of_mem testEvp_isAes256Ctr create_testEvp
    List.mem_cons_self (by unfold SizeSurvives; decide)⟩
  have hclamped : (2 ^ 32 : Int64).toNatClampNeg = 2 ^ 32 := by decide
  obtain ⟨stream, hrun, -⟩ := run_generatePseudorandomBytes_ok testEvp_isAes256Ctr
    (show (0 : Int64) ≤ 2 ^ 32 by decide) (by rw [hclamped]; decide) testStream
  rw [hclamped, Nat.mod_self, Nat.sub_zero, Stream'.take_zero, List.nil_append] at hrun
  exact ⟨stream, hrun⟩

end AnySketchCorrectness
