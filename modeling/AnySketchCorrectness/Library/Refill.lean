import Mathlib.Data.List.Basic

/-!
# Filling up from batches

A loop asks a source for a batch, takes over what passes a test, in order, until it has enough, and
asks again as long as something is missing. However many batches this takes and wherever the last
one is cut, the result is the first elements that pass the test of all the batches put together.
-/

namespace Refill

variable {ε σ α : Type} (accept : α → Bool) (size : ℕ)

/-- What is taken over from one batch. -/
def takeOver (batch ret : List α) : List α :=
  batch.foldl (fun ret a => if size ≤ ret.length then ret else if accept a then ret ++ [a] else ret)
    ret

/-- The source is told how many elements are missing. -/
def fill (ask : ℕ → EStateM ε σ (List α)) (exhausted : ε) : ℕ → List α → EStateM ε σ (List α)
  | fuel, ret =>
      if size ≤ ret.length then return ret
      else
        match fuel with
        | 0 => throw exhausted
        | fuel + 1 => do
            let batch ← ask (size - ret.length)
            fill ask exhausted fuel (takeOver accept size batch ret)

variable {accept size}

/-! ### One batch -/

theorem takeOver_full {ret : List α} (hfull : size ≤ ret.length) (batch : List α) :
    takeOver accept size batch ret = ret := by
  induction batch with
  | nil => rfl
  | cons a batch ih =>
      rw [takeOver, List.foldl_cons, if_pos hfull]
      exact ih

theorem takeOver_eq {ret : List α} (hret : ret.length ≤ size) (batch : List α) :
    takeOver accept size batch ret = (ret ++ batch.filter accept).take size := by
  induction batch generalizing ret with
  | nil =>
      rw [List.filter_nil, List.append_nil, List.take_of_length_le hret]
      rfl
  | cons a batch ih =>
      rcases Nat.lt_or_ge ret.length size with hshort | hfull
      · have hstep : takeOver accept size (a :: batch) ret
            = takeOver accept size batch (if accept a then ret ++ [a] else ret) := by
          rw [takeOver, List.foldl_cons, if_neg (Nat.not_le.mpr hshort)]
          rfl
        rw [hstep]
        by_cases haccept : accept a
        · have hnext : (ret ++ [a]).length ≤ size := by
            rw [List.length_append]
            exact hshort
          rw [if_pos haccept, ih hnext, List.filter_cons_of_pos haccept, List.append_assoc]
          rfl
        · rw [if_neg haccept, ih hret, List.filter_cons_of_neg haccept]
      · rw [takeOver_full hfull, List.take_append_of_le_length hfull,
          List.take_of_length_le hret]

/-! ### The loop -/

variable {ask : ℕ → EStateM ε σ (List α)} {exhausted : ε} {fuel : ℕ}

theorem run_fill_full {ret : List α} (hfull : size ≤ ret.length) (s : σ) :
    (fill accept size ask exhausted fuel ret).run s = .ok ret s := by
  cases fuel with
  | zero =>
      rw [fill, if_pos hfull]
      rfl
  | succ fuel =>
      rw [fill, if_pos hfull]
      rfl

/-- A pass of a loop that ends well. -/
theorem run_fill_short {ret values : List α} (hshort : ret.length < size) {s s' : σ}
    (hrun : (fill accept size ask exhausted fuel ret).run s = .ok values s') :
    ∃ fuel' batch s₁, fuel = fuel' + 1 ∧ (ask (size - ret.length)).run s = .ok batch s₁
      ∧ (fill accept size ask exhausted fuel' (takeOver accept size batch ret)).run s₁
        = .ok values s' := by
  cases fuel with
  | zero =>
      rw [fill, if_neg (Nat.not_le.mpr hshort)] at hrun
      cases hrun
  | succ fuel =>
      rw [fill, if_neg (Nat.not_le.mpr hshort), EStateM.run_bind] at hrun
      cases hask : (ask (size - ret.length)).run s with
      | error e s₁ =>
          rw [hask] at hrun
          cases hrun
      | ok batch s₁ =>
          rw [hask] at hrun
          exact ⟨fuel, batch, s₁, rfl, rfl, hrun⟩

theorem take_take_append (front back : List α) :
    (front.take size ++ back).take size = (front ++ back).take size := by
  have hlength : size - min size front.length = size - front.length := by omega
  rw [List.take_append, List.take_append, List.take_take, Nat.min_self, List.length_take, hlength]

/-- **What comes out.** The loop makes some calls, each with the number of elements that the batches
before it leave missing, and what it returns are the first elements accepted from all of them. -/
theorem run_fill_ok {ret values : List α} (hret : ret.length ≤ size) {s s' : σ}
    (hrun : (fill accept size ask exhausted fuel ret).run s = .ok values s') :
    ∃ (missing : List ℕ) (batches : List (List α)), (missing.mapM ask).run s = .ok batches s'
      ∧ values = (ret ++ batches.flatten.filter accept).take size
      ∧ values.length = size
      ∧ ∀ (i n : ℕ), missing[i]? = some n →
        n = size - (ret ++ (batches.take i).flatten.filter accept).length ∧ 0 < n := by
  induction fuel using Nat.strongRecOn generalizing ret s with
  | _ fuel ih =>
      rcases Nat.lt_or_ge ret.length size with hshort | hfull
      · obtain ⟨fuel, batch, s₁, rfl, hask, hrest⟩ := run_fill_short hshort hrun
        rw [takeOver_eq hret] at hrest
        obtain ⟨missing, batches, hcalls, hvalues, hlength, hmissing⟩ :=
          ih fuel (Nat.lt_succ_self fuel) (List.length_take_le _ _) hrest
        refine ⟨(size - ret.length) :: missing, batch :: batches, ?_, ?_, hlength, ?_⟩
        · simp only [List.mapM_cons, EStateM.run_bind, hask, hcalls]
          rfl
        · rw [hvalues, take_take_append, List.flatten_cons, List.filter_append, List.append_assoc]
        · rintro (_ | i) n hn
          · obtain rfl : size - ret.length = n := Option.some.inj hn
            rw [List.take_zero, List.flatten_nil, List.filter_nil, List.append_nil]
            exact ⟨rfl, Nat.sub_pos_of_lt hshort⟩
          · obtain ⟨hn, hpositive⟩ := hmissing i n hn
            rw [List.length_append, List.length_take] at hn
            rw [List.take_succ_cons, List.flatten_cons, List.filter_append, ← List.append_assoc,
              List.length_append]
            omega
      · rw [run_fill_full hfull] at hrun
        cases hrun
        have hequal := Nat.le_antisymm hret hfull
        refine ⟨[], [], rfl, ?_, hequal, fun i n hn => absurd hn (by simp)⟩
        rw [List.flatten_nil, List.filter_nil, List.append_nil, List.take_of_length_le hret]

end Refill
