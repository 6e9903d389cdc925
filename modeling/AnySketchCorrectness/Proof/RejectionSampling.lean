import AnySketchCorrectness.Proof.SamplingParameters
import AnySketchCorrectness.Proof.Keystream

/-!
# Rejection sampling of a batch

The inner loop of `GenerateUniformRandomRange` counts its candidates up to the number of bytes of
the batch. A batch has that many candidates only if they are single bytes. With more bytes to a
candidate the loop is saved by its other exit, as long as the batch has enough values below the
modulus; if it has not, the next candidate is read past the end.
-/

namespace AnySketchCorrectness

open UniformPseudorandomGenerator CounterMode

variable {modulus : UInt32}

/-! ### Accepted values -/

theorem acceptedValues_append {front : ByteString}
    (hwhole : bytesPerValue modulus ∣ front.length) (back : ByteString) :
    acceptedValues modulus (front ++ back)
      = acceptedValues modulus front ++ acceptedValues modulus back := by
  rw [acceptedValues, FixedWidth.records_append hwhole, List.map_append, List.filter_append]
  rfl

theorem acceptedValues_chunk (hmodulus : 1 < modulus) {chunk : ByteString}
    (hlength : chunk.length = bytesPerValue modulus) :
    acceptedValues modulus chunk
      = if chunkValue modulus chunk < modulus then [chunkValue modulus chunk] else [] := by
  rw [acceptedValues, FixedWidth.records_self (bytesPerValue_pos hmodulus) hlength,
    List.map_singleton]
  by_cases hlt : chunkValue modulus chunk < modulus
  · rw [if_pos hlt]
    exact List.filter_cons_of_pos (decide_eq_true hlt)
  · rw [if_neg hlt]
    exact List.filter_cons_of_neg (by simpa using hlt)

theorem acceptedValues_nil (modulus : UInt32) : acceptedValues modulus [] = [] := by
  rw [acceptedValues, FixedWidth.records, List.length_nil, Nat.zero_div]
  rfl

theorem length_acceptedValues_le (modulus : UInt32) (bytes : ByteString) :
    (acceptedValues modulus bytes).length ≤ bytes.length / bytesPerValue modulus := by
  rw [acceptedValues]
  refine (List.length_filter_le _ _).trans ?_
  rw [List.length_map, FixedWidth.records, List.length_map, List.length_range]

theorem length_acceptedValues_take_le (hmodulus : 1 < modulus) (bytes : ByteString) :
    (acceptedValues modulus (bytes.take (bytesPerValue modulus))).length ≤ 1 := by
  have hlength := List.length_take_le (bytesPerValue modulus) bytes
  calc (acceptedValues modulus (bytes.take (bytesPerValue modulus))).length
      ≤ (bytes.take (bytesPerValue modulus)).length / bytesPerValue modulus :=
        length_acceptedValues_le modulus _
    _ ≤ bytesPerValue modulus / bytesPerValue modulus := Nat.div_le_div_right hlength
    _ = 1 := Nat.div_self (bytesPerValue_pos hmodulus)

/-! ### One batch -/

/-- One round of the rejection sampling step. -/
def rejectionRound (modulus : UInt32) (size : Nat) (arr : ByteString) (ret : List UInt32)
    (i : Nat) : StatusOr (List UInt32) :=
  if size ≤ ret.length then .ok ret
  else do
    let candidate ← readCandidate arr (i * bytesPerValue modulus) (bytesPerValue modulus)
    let temp := candidate &&& mask modulus
    return if temp < modulus then ret ++ [temp] else ret

theorem rejectionSample_eq_foldlM (modulus : UInt32) (size : Nat) (arr : ByteString)
    (ret : List UInt32) :
    rejectionSample modulus size arr ret
      = (List.range arr.length).foldlM (rejectionRound modulus size arr) ret := rfl

section Batch

variable {size : ℕ} {arr : ByteString} {ret : List UInt32}

theorem rejectionRound_full (hfull : size ≤ ret.length) (i : ℕ) :
    rejectionRound modulus size arr ret i = .ok ret :=
  if_pos hfull

theorem foldlM_rejectionRound_full (hfull : size ≤ ret.length) (rounds : List ℕ) :
    rounds.foldlM (rejectionRound modulus size arr) ret = .ok ret := by
  induction rounds with
  | nil => rfl
  | cons i rounds ih =>
      rw [List.foldlM_cons, rejectionRound_full hfull]
      exact ih

theorem rejectionRound_of_lt (hmodulus : 1 < modulus) (hbits : bitLength modulus < 32)
    (hshort : ret.length < size) {i : ℕ}
    (hin : bytesPerValue modulus * (i + 1) ≤ arr.length) :
    rejectionRound modulus size arr ret i = .ok (ret ++ acceptedValues modulus
      ((arr.drop (bytesPerValue modulus * i)).take (bytesPerValue modulus))) := by
  have hend : bytesPerValue modulus * i + bytesPerValue modulus ≤ arr.length := by
    rw [← Nat.mul_succ]
    exact hin
  have hlength : ((arr.drop (bytesPerValue modulus * i)).take (bytesPerValue modulus)).length
      = bytesPerValue modulus := by
    rw [List.length_take, List.length_drop]
    omega
  rw [rejectionRound, if_neg (Nat.not_le.mpr hshort), Nat.mul_comm i, readCandidate_eq hend,
    acceptedValues_chunk hmodulus hlength, ← candidate_and_mask hbits]
  simp only [bind, Except.bind, pure, Except.pure]
  split
  · rfl
  · rw [List.append_nil]

theorem rejectionRound_outOfRange (hmodulus : 1 < modulus) (hshort : ret.length < size) {i : ℕ}
    (hout : arr.length ≤ bytesPerValue modulus * i) :
    rejectionRound modulus size arr ret i = .error .outOfRange := by
  rw [rejectionRound, if_neg (Nat.not_le.mpr hshort), Nat.mul_comm i,
    readCandidate_outOfRange (bytesPerValue_pos hmodulus) hout]
  rfl

/-- **The rounds inside the batch.** They accept the values of the chunks, up to the size. -/
theorem foldlM_rejectionRound (hmodulus : 1 < modulus) (hbits : bitLength modulus < 32)
    (hret : ret.length ≤ size) {count : ℕ} (hin : bytesPerValue modulus * count ≤ arr.length) :
    (List.range count).foldlM (rejectionRound modulus size arr) ret
      = .ok ((ret ++ acceptedValues modulus (arr.take (bytesPerValue modulus * count))).take
        size) := by
  induction count with
  | zero =>
      rw [Nat.mul_zero, List.take_zero, acceptedValues_nil, List.append_nil,
        List.take_of_length_le hret]
      rfl
  | succ count ih =>
      have hstart : bytesPerValue modulus * count ≤ arr.length :=
        (Nat.mul_le_mul_left _ (Nat.le_succ count)).trans hin
      have hwhole : bytesPerValue modulus ∣ (arr.take (bytesPerValue modulus * count)).length := by
        rw [List.length_take, Nat.min_eq_left hstart]
        exact Nat.dvd_mul_right _ _
      rw [List.range_succ, List.foldlM_append, ih hstart, Nat.mul_succ, List.take_add,
        acceptedValues_append hwhole, ← List.append_assoc]
      set accepted := ret ++ acceptedValues modulus (arr.take (bytesPerValue modulus * count))
      simp only [bind, Except.bind]
      rcases Nat.lt_or_ge accepted.length size with hshort | hfull
      · have hone := length_acceptedValues_take_le hmodulus
          (arr.drop (bytesPerValue modulus * count))
        have hround : (accepted ++ acceptedValues modulus ((arr.drop (bytesPerValue modulus
            * count)).take (bytesPerValue modulus))).length ≤ size := by
          rw [List.length_append]
          omega
        rw [List.take_of_length_le hshort.le, List.take_of_length_le hround]
        change rejectionRound modulus size arr accepted count >>= _ = _
        rw [rejectionRound_of_lt hmodulus hbits hshort hin]
        rfl
      · have htaken : (accepted.take size).length = size := by
          rw [List.length_take, Nat.min_eq_left hfull]
        rw [List.take_append_of_le_length hfull]
        exact foldlM_rejectionRound_full htaken.ge [count]

/-! The chunks of the batch come first. The rounds after them do nothing once enough values are
accepted, and there are none if a chunk is one byte. -/

theorem rejectionSample_split (hmodulus : 1 < modulus) (hbits : bitLength modulus < 32)
    (hret : ret.length ≤ size) {count : ℕ} (hlength : arr.length = bytesPerValue modulus * count) :
    rejectionSample modulus size arr ret
      = ((List.range (arr.length - count)).map (count + ·)).foldlM
          (rejectionRound modulus size arr) ((ret ++ acceptedValues modulus arr).take size) := by
  have hle : count ≤ arr.length := by
    rw [hlength]
    exact Nat.le_mul_of_pos_left count (bytesPerValue_pos hmodulus)
  obtain ⟨rest, hrest⟩ := Nat.exists_eq_add_of_le hle
  rw [rejectionSample_eq_foldlM, hrest, List.range_add, List.foldlM_append,
    foldlM_rejectionRound hmodulus hbits hret hlength.ge, ← hlength, List.take_length,
    Nat.add_sub_cancel_left]
  rfl

theorem rejectionSample_ok (hmodulus : 1 < modulus) (hbits : bitLength modulus < 32)
    (hret : ret.length ≤ size) (hwhole : bytesPerValue modulus ∣ arr.length)
    (henough : bytesPerValue modulus = 1 ∨ size ≤ (ret ++ acceptedValues modulus arr).length) :
    rejectionSample modulus size arr ret
      = .ok ((ret ++ acceptedValues modulus arr).take size) := by
  obtain ⟨count, hlength⟩ := hwhole
  rw [rejectionSample_split hmodulus hbits hret hlength]
  rcases henough with hbyte | hfull
  · rw [hlength, hbyte, Nat.one_mul, Nat.sub_self, List.range_zero, List.map_nil]
    rfl
  · apply foldlM_rejectionRound_full
    rw [List.length_take, Nat.min_eq_left hfull]

theorem rejectionSample_outOfRange (hmodulus : 1 < modulus) (hbits : bitLength modulus < 32)
    (hwhole : bytesPerValue modulus ∣ arr.length) (hnonempty : 0 < arr.length)
    (hbytes : bytesPerValue modulus ≠ 1)
    (hshort : (ret ++ acceptedValues modulus arr).length < size) :
    rejectionSample modulus size arr ret = .error .outOfRange := by
  obtain ⟨count, hlength⟩ := hwhole
  have hret : ret.length ≤ size := by
    rw [List.length_append] at hshort
    omega
  have hpositive := bytesPerValue_pos hmodulus
  have hcount : 0 < count := by
    rw [hlength] at hnonempty
    exact Nat.pos_of_mul_pos_left hnonempty
  have hrounds : count < arr.length := by
    rw [hlength]
    exact (Nat.lt_mul_iff_one_lt_left hcount).mpr (by omega)
  obtain ⟨rest, hrest⟩ := Nat.exists_eq_add_of_lt hrounds
  rw [rejectionSample_split hmodulus hbits hret hlength, List.take_of_length_le hshort.le, hrest,
    show count + rest + 1 - count = rest + 1 by omega, List.range_succ_eq_map, List.map_cons,
    List.foldlM_cons, Nat.add_zero, rejectionRound_outOfRange hmodulus hshort hlength.le]
  rfl

theorem rejectionSample_cases (hmodulus : 1 < modulus) (hbits : bitLength modulus < 32)
    (hret : ret.length ≤ size) (hwhole : bytesPerValue modulus ∣ arr.length)
    (hnonempty : 0 < arr.length) :
    ((bytesPerValue modulus = 1 ∨ size ≤ (ret ++ acceptedValues modulus arr).length)
        ∧ rejectionSample modulus size arr ret
          = .ok ((ret ++ acceptedValues modulus arr).take size))
      ∨ (bytesPerValue modulus ≠ 1 ∧ (ret ++ acceptedValues modulus arr).length < size
        ∧ rejectionSample modulus size arr ret = .error .outOfRange) := by
  by_cases henough : bytesPerValue modulus = 1 ∨ size ≤ (ret ++ acceptedValues modulus arr).length
  · exact Or.inl ⟨henough, rejectionSample_ok hmodulus hbits hret hwhole henough⟩
  · rw [not_or, Nat.not_le] at henough
    exact Or.inr ⟨henough.1, henough.2,
      rejectionSample_outOfRange hmodulus hbits hwhole hnonempty henough.1 henough.2⟩

end Batch

end AnySketchCorrectness
