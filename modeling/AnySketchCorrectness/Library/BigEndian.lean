import AnySketchCorrectness.Library.CounterMode
import Mathlib.Data.Set.Card

/-!
# Big-endian numbers

A string of bytes is read as a number in base 256. The strings of one length and the numbers below
the power of 256 correspond one to one, so the strings whose number has a given residue modulo a
power of two are equally many for every residue.
-/

namespace BigEndian

open CounterMode

theorem ofBigEndian_concat (bytes : List UInt8) (byte : UInt8) :
    ofBigEndian (bytes ++ [byte]) = 256 * ofBigEndian bytes + byte.toNat := by
  rw [ofBigEndian, ofBigEndian, List.foldl_append, List.foldl_cons, List.foldl_nil]

theorem ofBigEndian_lt (bytes : List UInt8) : ofBigEndian bytes < 256 ^ bytes.length := by
  induction bytes using List.reverseRecOn with
  | nil => exact Nat.one_pos
  | append_singleton bytes byte ih =>
      have hbyte := byte.toNat_lt
      rw [ofBigEndian_concat, List.length_append, List.length_singleton, pow_succ]
      omega

theorem ofBigEndian_inj {bytes bytes' : List UInt8} (hlength : bytes.length = bytes'.length)
    (heq : ofBigEndian bytes = ofBigEndian bytes') : bytes = bytes' := by
  induction bytes using List.reverseRecOn generalizing bytes' with
  | nil => exact (List.eq_nil_of_length_eq_zero hlength.symm).symm
  | append_singleton bytes byte ih =>
      rcases List.eq_nil_or_concat bytes' with rfl | ⟨bytes', byte', rfl⟩
      · simp at hlength
      · rw [List.concat_eq_append] at hlength heq ⊢
        rw [ofBigEndian_concat, ofBigEndian_concat] at heq
        have hbyte := byte.toNat_lt
        have hbyte' := byte'.toNat_lt
        have hlast : byte = byte' := UInt8.toNat_inj.mp (by omega)
        rw [ih (by simpa using hlength) (by omega), hlast]

/-- The bytes of a number, for a given length. -/
theorem exists_ofBigEndian_eq {length n : ℕ} (hn : n < 256 ^ length) :
    ∃ bytes : List UInt8, bytes.length = length ∧ ofBigEndian bytes = n := by
  induction length generalizing n with
  | zero => exact ⟨[], rfl, (Nat.lt_one_iff.mp hn).symm⟩
  | succ length ih =>
      rw [pow_succ] at hn
      obtain ⟨bytes, hlength, heq⟩ := ih (n := n / 256) (by omega)
      have hbyte : (UInt8.ofNat (n % 256)).toNat = n % 256 :=
        UInt8.toNat_ofNat_of_lt' (Nat.mod_lt n (by decide))
      refine ⟨bytes ++ [UInt8.ofNat (n % 256)], by rw [List.length_append, hlength]; rfl, ?_⟩
      rw [ofBigEndian_concat, heq, hbyte]
      omega

/-- **Equally many strings for every residue.** -/
theorem ncard_ofBigEndian_mod {length bits value : ℕ} (hbits : bits ≤ 8 * length)
    (hvalue : value < 2 ^ bits) :
    {bytes : List UInt8 | bytes.length = length ∧ ofBigEndian bytes % 2 ^ bits = value}.ncard
      = 2 ^ (8 * length - bits) := by
  have hpow : 256 ^ length = 2 ^ bits * 2 ^ (8 * length - bits) := by
    rw [← pow_add, Nat.add_sub_of_le hbits, pow_mul]
    rfl
  have hinjective : Set.InjOn ofBigEndian
      {bytes : List UInt8 | bytes.length = length ∧ ofBigEndian bytes % 2 ^ bits = value} :=
    fun bytes hbytes bytes' hbytes' heq => ofBigEndian_inj (hbytes.1.trans hbytes'.1.symm) heq
  have himage : ofBigEndian ''
      {bytes : List UInt8 | bytes.length = length ∧ ofBigEndian bytes % 2 ^ bits = value}
      = (fun k => 2 ^ bits * k + value) '' Finset.range (2 ^ (8 * length - bits)) := by
    ext n
    constructor
    · rintro ⟨bytes, ⟨hlength, hmod⟩, rfl⟩
      have hlt := ofBigEndian_lt bytes
      rw [hlength, hpow] at hlt
      refine ⟨ofBigEndian bytes / 2 ^ bits, ?_, ?_⟩
      · exact Finset.mem_coe.mpr (Finset.mem_range.mpr (Nat.div_lt_of_lt_mul hlt))
      · rw [← hmod]
        exact Nat.div_add_mod _ _
    · rintro ⟨k, hk, rfl⟩
      have hk := Finset.mem_range.mp (Finset.mem_coe.mp hk)
      have hlt : 2 ^ bits * k + value < 256 ^ length := by
        calc 2 ^ bits * k + value < 2 ^ bits * k + 2 ^ bits := Nat.add_lt_add_left hvalue _
          _ = 2 ^ bits * (k + 1) := (Nat.mul_succ _ _).symm
          _ ≤ 2 ^ bits * 2 ^ (8 * length - bits) := Nat.mul_le_mul_left _ hk
          _ = 256 ^ length := hpow.symm
      obtain ⟨bytes, hlength, heq⟩ := exists_ofBigEndian_eq hlt
      refine ⟨bytes, ⟨hlength, ?_⟩, heq⟩
      rw [heq, Nat.mul_add_mod, Nat.mod_eq_of_lt hvalue]
  have hinjectiveNumber : Function.Injective fun k => 2 ^ bits * k + value :=
    fun k k' heq => Nat.eq_of_mul_eq_mul_left (Nat.two_pow_pos bits) (Nat.add_right_cancel heq)
  rw [← hinjective.ncard_image, himage, Set.ncard_image_of_injective _ hinjectiveNumber,
    Set.ncard_coe_finset, Finset.card_range]

end BigEndian
