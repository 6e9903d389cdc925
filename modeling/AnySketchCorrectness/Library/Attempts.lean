import AnySketchCorrectness.Library.StateInvariant

/-!
# A bounded number of attempts

A program with a state and an error exit is run until its value passes a test, a bounded number of
times. What every attempt guarantees, and the test, hold of the value that comes out.
-/

namespace Attempts

open StateInvariant

variable {ε σ α : Type}

/-- The first value that passes the test, within the given number of attempts. An attempt that ends
in an error is the last one. -/
def firstAccepted (attempt : EStateM ε σ α) (accept : α → Bool) (exhausted : ε) :
    Nat → EStateM ε σ α
  | 0 => throw exhausted
  | attempts + 1 => do
      let a ← attempt
      if accept a then return a else firstAccepted attempt accept exhausted attempts

theorem keeps_firstAccepted {I : σ → Prop} {Q : α → Prop} {attempt : EStateM ε σ α}
    (hattempt : Keeps I attempt Q) (accept : α → Bool) (exhausted : ε) (attempts : Nat) :
    Keeps I (firstAccepted attempt accept exhausted attempts) fun a => Q a ∧ accept a = true := by
  induction attempts with
  | zero => exact keeps_throw exhausted
  | succ attempts ih =>
      refine keeps_bind hattempt fun a hpost => ?_
      split
      · rename_i haccept
        exact keeps_pure ⟨hpost, haccept⟩
      · exact ih

end Attempts
