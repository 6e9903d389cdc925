import Mathlib.Data.List.Forall2

/-!
# Codes that can be read off the front

A list of symbols is encoded by concatenating the words of its symbols. If the word at the front of
a text determines its symbol, up to a relation, and where the next word starts, then a text has one
decoding up to that relation, even when the words differ in length.
-/

namespace PrefixCode

variable {α β : Type} {encode : α → List β} {same : α → α → Prop}

/-- The front of a text that is encoded from `a`s or from `a'`s has one reading. -/
structure Readable (encode : α → List β) (same : α → α → Prop) (as as' : List α) : Prop where
  ne_nil : ∀ a ∈ as, encode a ≠ []
  ne_nil' : ∀ a' ∈ as', encode a' ≠ []
  front : ∀ a ∈ as, ∀ a' ∈ as', ∀ text text',
    encode a ++ text = encode a' ++ text' → same a a' ∧ text = text'
  encode_eq : ∀ a ∈ as, ∀ a' ∈ as', same a a' → encode a = encode a'

theorem Readable.tail {a a' : α} {as as' : List α}
    (hreadable : Readable encode same (a :: as) (a' :: as')) : Readable encode same as as' where
  ne_nil b hb := hreadable.ne_nil b (List.mem_cons_of_mem a hb)
  ne_nil' b hb := hreadable.ne_nil' b (List.mem_cons_of_mem a' hb)
  front b hb b' hb' :=
    hreadable.front b (List.mem_cons_of_mem a hb) b' (List.mem_cons_of_mem a' hb')
  encode_eq b hb b' hb' :=
    hreadable.encode_eq b (List.mem_cons_of_mem a hb) b' (List.mem_cons_of_mem a' hb')

/-- **Unique decoding.** Two encoded lists are equal exactly when the lists agree symbol by
symbol. -/
theorem Readable.flatMap_eq_iff {as as' : List α} (hreadable : Readable encode same as as') :
    as.flatMap encode = as'.flatMap encode ↔ List.Forall₂ same as as' := by
  induction as generalizing as' with
  | nil =>
      cases as' with
      | nil => exact iff_of_true rfl .nil
      | cons a' as' =>
          refine iff_of_false ?_ (by rintro ⟨⟩)
          intro htext
          rw [List.flatMap_nil, List.flatMap_cons, eq_comm, List.append_eq_nil_iff] at htext
          exact hreadable.ne_nil' a' List.mem_cons_self htext.1
  | cons a as ih =>
      cases as' with
      | nil =>
          refine iff_of_false ?_ (by rintro ⟨⟩)
          intro htext
          rw [List.flatMap_nil, List.flatMap_cons, List.append_eq_nil_iff] at htext
          exact hreadable.ne_nil a List.mem_cons_self htext.1
      | cons a' as' =>
          rw [List.forall₂_cons, ← ih hreadable.tail, List.flatMap_cons, List.flatMap_cons]
          constructor
          · exact hreadable.front a List.mem_cons_self a' List.mem_cons_self _ _
          · rintro ⟨hsame, htext⟩
            rw [hreadable.encode_eq a List.mem_cons_self a' List.mem_cons_self hsame, htext]

end PrefixCode
