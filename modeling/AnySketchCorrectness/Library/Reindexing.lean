import Mathlib.Logic.Equiv.Basic
import Mathlib.Algebra.Group.End

/-!
# Arrays up to reindexing

One array is another one reindexed when a permutation of the positions tells where each entry came
from. Swaps reindex, reindexings compose, and an operation that works position by position commutes
with them.
-/

namespace Reindexing

variable {α β γ : Type} {n : ℕ}

/-- `after` has at each position what `before` has at the position that `π` gives. -/
structure Reindexed (π : Equiv.Perm (Fin n)) (before after : Array α) : Prop where
  size_before : before.size = n
  size_after : after.size = n
  getElem?_eq : ∀ k : Fin n, after[(k : ℕ)]? = before[(π k : ℕ)]?

theorem Reindexed.refl {before : Array α} (hsize : before.size = n) :
    Reindexed (1 : Equiv.Perm (Fin n)) before before :=
  ⟨hsize, hsize, fun _ => rfl⟩

theorem Reindexed.trans {π σ : Equiv.Perm (Fin n)} {before between after : Array α}
    (hfirst : Reindexed π before between) (hsecond : Reindexed σ between after) :
    Reindexed (π * σ) before after := by
  refine ⟨hfirst.size_before, hsecond.size_after, fun k => ?_⟩
  calc after[(k : ℕ)]? = between[(σ k : ℕ)]? := hsecond.getElem?_eq k
    _ = before[(π (σ k) : ℕ)]? := hfirst.getElem?_eq (σ k)

theorem Reindexed.swap {before : Array α} (hsize : before.size = n) (i j : Fin n) :
    Reindexed (Equiv.swap i j) before (before.swapIfInBounds i j) := by
  have hi : (i : ℕ) < before.size := hsize ▸ i.isLt
  have hj : (j : ℕ) < before.size := hsize ▸ j.isLt
  refine ⟨hsize, by rw [Array.size_swapIfInBounds, hsize], fun k => ?_⟩
  rw [Array.swapIfInBounds_def, dif_pos hi, dif_pos hj, Array.getElem?_swap]
  by_cases hkj : k = j
  · rw [if_pos (congrArg Fin.val hkj.symm), hkj, Equiv.swap_apply_right,
      Array.getElem?_eq_getElem hi]
  by_cases hki : k = i
  · rw [if_neg (fun heq => hkj (Fin.ext heq.symm)), if_pos (congrArg Fin.val hki.symm), hki,
      Equiv.swap_apply_left, Array.getElem?_eq_getElem hj]
  · rw [if_neg (fun heq => hkj (Fin.ext heq.symm)), if_neg (fun heq => hki (Fin.ext heq.symm)),
      Equiv.swap_apply_of_ne_of_ne hki hkj]

theorem Reindexed.unique {π : Equiv.Perm (Fin n)} {before after after' : Array α}
    (hafter : Reindexed π before after) (hafter' : Reindexed π before after') :
    after = after' := by
  apply Array.ext_getElem?
  intro k
  by_cases hk : k < n
  · exact (hafter.getElem?_eq ⟨k, hk⟩).trans (hafter'.getElem?_eq ⟨k, hk⟩).symm
  · rw [Array.getElem?_eq_none (by rw [hafter.size_after]; omega),
      Array.getElem?_eq_none (by rw [hafter'.size_after]; omega)]

theorem Reindexed.zipWith {π : Equiv.Perm (Fin n)} {left left' : Array α} {right right' : Array β}
    (f : α → β → γ) (hleft : Reindexed π left left') (hright : Reindexed π right right') :
    Reindexed π (Array.zipWith f left right) (Array.zipWith f left' right') := by
  refine ⟨?_, ?_, fun k => ?_⟩
  · rw [Array.size_zipWith, hleft.size_before, hright.size_before, Nat.min_self]
  · rw [Array.size_zipWith, hleft.size_after, hright.size_after, Nat.min_self]
  · rw [Array.getElem?_zipWith, Array.getElem?_zipWith, hleft.getElem?_eq, hright.getElem?_eq]

end Reindexing
