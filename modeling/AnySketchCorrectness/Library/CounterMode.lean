import Mathlib.Data.Stream.Init
import Mathlib.Data.Nat.Basic
import Mathlib.Tactic.Ring

/-!
# Counter mode

A block cipher in counter mode encrypts the blocks that spell successive numbers, and the encrypted
blocks one after the other are the keystream. Because the cipher is injective, neighbouring blocks
of the keystream differ, so no byte is repeated through three whole blocks.
-/

namespace CounterMode

/-! ### Numbers as blocks -/

/-- The `width` bytes of a number in big-endian order. -/
def counterBlock (width n : ℕ) : Vector UInt8 width :=
  Vector.ofFn fun j => UInt8.ofNat (n / 256 ^ (width - 1 - j))

def ofBigEndian (bytes : List UInt8) : ℕ :=
  bytes.foldl (fun n byte => 256 * n + byte.toNat) 0

theorem mod_pow_eq_of_digits {n m width : ℕ}
    (hdigits : ∀ k < width, n / 256 ^ k % 256 = m / 256 ^ k % 256) :
    n % 256 ^ width = m % 256 ^ width := by
  induction width with
  | zero => rw [Nat.pow_zero, Nat.mod_one, Nat.mod_one]
  | succ width ih =>
      rw [Nat.mod_pow_succ, Nat.mod_pow_succ, hdigits width (Nat.lt_succ_self width),
        ih fun k hk => hdigits k (Nat.lt_succ_of_lt hk)]

theorem counterBlock_eq {width n m : ℕ} (heq : counterBlock width n = counterBlock width m) :
    n % 256 ^ width = m % 256 ^ width := by
  apply mod_pow_eq_of_digits
  intro k hk
  have hindex : width - 1 - k < width := by omega
  have hexponent : width - 1 - (width - 1 - k) = k := by omega
  have hbyte := congrArg (fun block : Vector UInt8 width => block[width - 1 - k].toNat) heq
  simpa only [counterBlock, Vector.getElem_ofFn, hexponent, UInt8.toNat_ofNat'] using hbyte

theorem counterBlock_succ_ne {width : ℕ} (hwidth : 0 < width) (n : ℕ) :
    counterBlock width n ≠ counterBlock width (n + 1) := by
  intro heq
  have hmod := counterBlock_eq heq
  have hlarge : 1 < 256 ^ width := Nat.one_lt_pow hwidth.ne' (by decide)
  have hdifference := Nat.sub_mod_eq_zero_of_mod_eq hmod.symm
  rw [Nat.add_sub_cancel_left, Nat.mod_eq_of_lt hlarge] at hdifference
  omega

/-! ### The keystream -/

section Keystream

variable {width : ℕ} [NeZero width]

/-- The keystream of a block cipher from a counter on. -/
def keystream (encryptBlock : Vector UInt8 width → Vector UInt8 width) (counter : ℕ) :
    Stream' UInt8 :=
  fun i => (encryptBlock (counterBlock width (counter + i / width))).get (Fin.ofNat width i)

variable {encryptBlock : Vector UInt8 width → Vector UInt8 width} {counter : ℕ}

theorem keystream_get (block : ℕ) (j : Fin width) :
    (keystream encryptBlock counter).get (width * block + j)
      = (encryptBlock (counterBlock width (counter + block))).get j := by
  have hwidth : 0 < width := Nat.pos_of_neZero width
  have hindex : Fin.ofNat width (width * block + j) = j := by
    apply Fin.ext
    rw [Fin.val_ofNat, Nat.mul_add_mod, Nat.mod_eq_of_lt j.isLt]
  unfold Stream'.get keystream
  rw [hindex, Nat.mul_add_div hwidth, Nat.div_eq_of_lt j.isLt, Nat.add_zero]

/-- **The keystream of an injective cipher has no long constant run.** -/
theorem keystream_not_constant (hinjective : Function.Injective encryptBlock) (start : ℕ)
    (c : UInt8) : ¬ ∀ i < 3 * width, (keystream encryptBlock counter).get (start + i) = c := by
  intro hconstant
  have hwidth : 0 < width := Nat.pos_of_neZero width
  have hbelow : width * (start / width) ≤ start := Nat.mul_div_le start width
  have habove : start < width * (start / width) + width := by
    rw [← Nat.mul_succ]
    exact Nat.lt_mul_div_succ start hwidth
  -- the run covers the two blocks after the one it starts in
  have hbyte : ∀ offset < 2, ∀ j : Fin width,
      (encryptBlock (counterBlock width (counter + (start / width + 1 + offset)))).get j = c := by
    intro offset hoffset j
    have hposition : width * (start / width + 1 + offset) + j
        = start + (width * (start / width) + width + width * offset + j - start) := by
      have hexpand : width * (start / width + 1 + offset)
          = width * (start / width) + width + width * offset := by ring
      omega
    have hle : width * offset ≤ width := by
      calc width * offset ≤ width * 1 := Nat.mul_le_mul_left width (by omega)
        _ = width := Nat.mul_one width
    rw [← keystream_get, hposition]
    exact hconstant _ (by omega)
  have hblocks : encryptBlock (counterBlock width (counter + (start / width + 1)))
      = encryptBlock (counterBlock width (counter + (start / width + 1) + 1)) := by
    apply Vector.ext
    intro j hj
    exact (hbyte 0 (by decide) ⟨j, hj⟩).trans (hbyte 1 (by decide) ⟨j, hj⟩).symm
  exact counterBlock_succ_ne hwidth _ (hinjective hblocks)

end Keystream

/-! ### Parts of a stream -/

theorem take_add {α : Type} (m n : ℕ) (stream : Stream' α) :
    stream.take (m + n) = stream.take m ++ (stream.drop m).take n := by
  induction n with
  | zero => rw [Nat.add_zero, Stream'.take_zero, List.append_nil]
  | succ n ih =>
      calc stream.take (m + n + 1)
          = stream.take (m + n) ++ [stream.get (m + n)] := Stream'.take_succ' (m + n)
        _ = stream.take m ++ ((stream.drop m).take n ++ [(stream.drop m).get n]) := by
          rw [ih, List.append_assoc, Stream'.get_drop]
        _ = stream.take m ++ (stream.drop m).take (n + 1) := by rw [Stream'.take_succ']

end CounterMode
