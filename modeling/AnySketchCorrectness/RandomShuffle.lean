import AnySketchCorrectness.RandomKeystream
import AnySketchCorrectness.Shuffle
import AnySketchCorrectness.Library.StateInvariant
import AnySketchCorrectness.Library.StatisticalDistance

/-!
# Random shuffles

`SecureShuffleWithSeed` does not sample its swap indices again when they are biased. Its comment
says that this matters with a probability of less than the square of the number of elements divided
by `2 ^ 128`. So with a uniform keystream, the shuffle should be that close to one by a uniform
permutation.
-/

namespace AnySketchCorrectness

open StateInvariant IndependentDraws
open scoped ENNReal

/-- What the loop makes of a vector, with these bytes for the random values. -/
def shuffledBy (data : Array UInt32) (bytes : ByteString) : Array UInt32 :=
  finalState ((shuffleLoop bytes data.size).run data)

noncomputable def shuffleLaw (data : Array UInt32) : PMF (Array UInt32) :=
  (uniformBytes (bytesPerUint128 * data.size)).map (shuffledBy data)

def rearranged (data : Array UInt32) (π : Equiv.Perm (Fin data.size)) : Array UInt32 :=
  Array.ofFn fun k => data[π k]

/-- Every permutation has the same chance. -/
noncomputable def arrangementLaw (data : Array UInt32) : PMF (Array UInt32) :=
  (PMF.uniformOfFintype (Equiv.Perm (Fin data.size))).map (rearranged data)

noncomputable def shuffleBias (size : Nat) : ℝ≥0∞ :=
  (size ^ 2 : ℕ) / (2 ^ 128 : ℕ)

end AnySketchCorrectness
