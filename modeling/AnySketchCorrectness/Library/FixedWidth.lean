import Mathlib.Tactic.Common
import Mathlib.Data.List.Basic

/-!
# Streams of records of one width

A stream is read back as records of `width` items. Reading distributes over appending as long as the
front part is a whole number of records, which is what lets a writer be followed one append at a
time.
-/

namespace FixedWidth

variable {α : Type} {width : Nat}

/-- The whole records of a stream, in order. -/
def records (width : Nat) (stream : List α) : List (List α) :=
  (List.range (stream.length / width)).map fun i => (stream.drop (width * i)).take width

theorem records_self (hwidth : 0 < width) {record : List α} (hlength : record.length = width) :
    records width record = [record] := by
  unfold records
  rw [hlength, Nat.div_self hwidth, List.range_one, List.map_singleton, Nat.mul_zero,
    List.drop_zero, List.take_of_length_le (Nat.le_of_eq hlength)]

theorem records_append {front : List α} (hwhole : width ∣ front.length) (back : List α) :
    records width (front ++ back) = records width front ++ records width back := by
  obtain ⟨count, hcount⟩ := hwhole
  rcases Nat.eq_zero_or_pos width with rfl | hwidth
  · simp [records]
  have hfront : front.length / width = count := by
    rw [hcount, Nat.mul_div_cancel_left _ hwidth]
  have hboth : (front ++ back).length / width = count + back.length / width := by
    rw [List.length_append, hcount, Nat.mul_add_div hwidth]
  unfold records
  rw [hboth, hfront, List.range_add, List.map_append, List.map_map]
  congr 1
  · apply List.map_congr_left
    intro i hi
    have hi : i + 1 ≤ count := List.mem_range.mp hi
    have hend : width * i + width ≤ front.length := by
      rw [hcount, ← Nat.mul_succ]
      exact Nat.mul_le_mul_left width hi
    rw [List.drop_append_of_le_length (by omega), List.take_append_of_le_length (by
      rw [List.length_drop]
      omega)]
  · apply List.map_congr_left
    intro i _
    have hstart : width * (count + i) = front.length + width * i := by rw [hcount, Nat.mul_add]
    rw [Function.comp_apply, hstart, List.drop_length_add_append]

/-! ### Records one after the other -/

theorem length_flatten {chunks : List (List α)}
    (hwidth : ∀ chunk ∈ chunks, chunk.length = width) :
    chunks.flatten.length = width * chunks.length := by
  rw [List.length_flatten, List.map_congr_left hwidth, List.map_const', List.sum_replicate_nat,
    Nat.mul_comm]

theorem take_drop_flatten {chunks : List (List α)}
    (hwidth : ∀ chunk ∈ chunks, chunk.length = width) (rest : List α) {i : Nat}
    (hi : i < chunks.length) :
    ((chunks.flatten ++ rest).drop (width * i)).take width = chunks[i] := by
  induction chunks generalizing i with
  | nil => exact absurd hi (Nat.not_lt_zero i)
  | cons chunk chunks ih =>
      obtain ⟨hchunk, hchunks⟩ := List.forall_mem_cons.mp hwidth
      rw [List.flatten_cons, List.append_assoc]
      cases i with
      | zero => rw [Nat.mul_zero, List.drop_zero, List.take_left' hchunk, List.getElem_cons_zero]
      | succ i =>
          have hi : i < chunks.length := Nat.lt_of_succ_lt_succ hi
          rw [Nat.mul_succ, Nat.add_comm, ← List.drop_drop, List.drop_left' hchunk,
            ih hchunks hi, List.getElem_cons_succ]

end FixedWidth
