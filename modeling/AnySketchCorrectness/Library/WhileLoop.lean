import Mathlib.Logic.Basic
import Mathlib.Tactic.Common

/-!
# While loops

A `while` loop is a test and a body on a state. It runs with fuel, and its rule is total: an
invariant that also bounds the number of rounds left gives a result, which is the same for any fuel
from that bound on, and reaches all the states that the loop visits.
-/

namespace WhileLoop

variable {σ : Type} (guard : σ → Bool) (body : σ → σ)

/-- The state in which the loop ends, unless the fuel is used up before. -/
def run : ℕ → σ → Option σ
  | 0, s => if guard s then none else some s
  | fuel + 1, s => if guard s then run fuel (body s) else some s

/-- The states at which the loop evaluates its test. -/
inductive Visits : σ → σ → Prop
  | refl (s : σ) : Visits s s
  | step {s s' : σ} : guard s = true → Visits (body s) s' → Visits s s'

variable {guard body}

theorem run_of_not_guard {s : σ} (hguard : guard s = false) (fuel : ℕ) :
    run guard body fuel s = some s := by
  cases fuel with
  | zero => rw [run, hguard, if_neg Bool.false_ne_true]
  | succ fuel => rw [run, hguard, if_neg Bool.false_ne_true]

theorem run_succ_of_guard {s : σ} (hguard : guard s = true) (fuel : ℕ) :
    run guard body (fuel + 1) s = run guard body fuel (body s) := by
  rw [run, if_pos hguard]

variable {I : ℕ → σ → Prop}

/-- What holds with some number of rounds left holds of every state that is visited. -/
theorem Visits.invariant (hstop : ∀ s, I 0 s → guard s = false)
    (hstep : ∀ n s, I (n + 1) s → guard s = true → I n (body s)) {s s' : σ}
    (hvisits : Visits guard body s s') {n : ℕ} (hinv : I n s) : ∃ m ≤ n, I m s' := by
  induction hvisits generalizing n with
  | refl s => exact ⟨n, Nat.le_refl n, hinv⟩
  | step hguard _ ih =>
      cases n with
      | zero =>
          rw [hstop _ hinv] at hguard
          cases hguard
      | succ n =>
          obtain ⟨m, hm, hinv'⟩ := ih (hstep n _ hinv hguard)
          exact ⟨m, Nat.le_succ_of_le hm, hinv'⟩

/-- **The loop rule.** `I n` holds of the states from which at most `n` rounds are left. -/
theorem exists_run (hstop : ∀ s, I 0 s → guard s = false)
    (hstep : ∀ n s, I (n + 1) s → guard s = true → I n (body s)) {n : ℕ} {s : σ} (hinv : I n s) :
    ∃ s', (∃ m ≤ n, I m s') ∧ guard s' = false ∧
      ∀ fuel, n ≤ fuel → run guard body fuel s = some s' := by
  induction n generalizing s with
  | zero => exact ⟨s, ⟨0, Nat.le_refl 0, hinv⟩, hstop s hinv, fun fuel _ =>
      run_of_not_guard (hstop s hinv) fuel⟩
  | succ n ih =>
      cases hguard : guard s with
      | false => exact ⟨s, ⟨n + 1, Nat.le_refl (n + 1), hinv⟩, hguard, fun fuel _ =>
          run_of_not_guard hguard fuel⟩
      | true =>
          obtain ⟨s', ⟨m, hm, hinv'⟩, hguard', hrun⟩ := ih (hstep n s hinv hguard)
          refine ⟨s', ⟨m, Nat.le_succ_of_le hm, hinv'⟩, hguard', fun fuel hfuel => ?_⟩
          obtain ⟨fuel, rfl⟩ := Nat.exists_eq_add_of_le' (Nat.one_le_of_lt hfuel)
          rw [run_succ_of_guard hguard]
          exact hrun fuel (Nat.le_of_succ_le_succ hfuel)

end WhileLoop
