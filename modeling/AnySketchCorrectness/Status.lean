import Mathlib.Init

/-!
# Statuses

Every fallible function of the repository returns an `absl::Status` or an `absl::StatusOr`. A call
can also end in ways for which there is no status: a read past the end of a vector, a division by
zero, an aborting reservation, a loop that has not finished. They are kept apart from the statuses
so that a theorem can say that they do not happen.
-/

namespace AnySketchCorrectness

/-- A string of bytes, such as a `std::string` or a `std::vector<unsigned char>`. -/
abbrev ByteString := List UInt8

/-- How a call can end other than with `OK`. -/
inductive Failure where
  | invalidArgument (message : String)
  | internal (message : String)
  -- A read past the end of a vector, which is undefined behaviour.
  | outOfRange
  -- An integer division or remainder by zero, which is undefined behaviour.
  | divisionByZero
  -- `std::length_error`, thrown by a reservation that is too large.
  | lengthError
  -- The loop is still running when the fuel it was given is used up.
  | outOfFuel
  deriving DecidableEq, Repr

abbrev StatusOr (α : Type) := Except Failure α

namespace StatusOr

variable {α β : Type}

theorem bind_eq_ok {result : StatusOr α} {next : α → StatusOr β} {b : β} :
    (result >>= next) = .ok b ↔ ∃ a, result = .ok a ∧ next a = .ok b := by
  cases result with
  | error e => simp [bind, Except.bind]
  | ok a => simp [bind, Except.bind]

theorem map_eq_ok {result : StatusOr α} {f : α → β} {b : β} :
    f <$> result = .ok b ↔ ∃ a, result = .ok a ∧ f a = b := by
  cases result with
  | error e => simp [Functor.map, Except.map]
  | ok a => simp [Functor.map, Except.map]

end StatusOr

end AnySketchCorrectness
