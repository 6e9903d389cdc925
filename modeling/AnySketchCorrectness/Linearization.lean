import AnySketchCorrectness.Sketch
import AnySketchCorrectness.Library.MixedRadix

/-!
# Linearized indexes

`GetIndex` turns the vector of index parts into one number, which is the key of a register. For that
to be a linearization, different vectors have to give different numbers, below the number of
vectors. Each part ends up multiplied by a weight, and the weights depend on the sizes alone.
-/

namespace AnySketchCorrectness

namespace AnySketch

/-- The index parts of an item: the value of each distribution, from its minimum. -/
def indexParts (insertion : Insertion) : List BaseDistribution → StatusOr (List Int64)
  | [] => .ok []
  | distribution :: indexes => do
      let distributionValue ← distribution.apply insertion.item insertion.itemMetadata
      let parts ← indexParts insertion indexes
      return (distributionValue - distribution.minValue) :: parts

theorem indexParts_cons_eq_ok {insertion : Insertion} {distribution : BaseDistribution}
    {indexes : List BaseDistribution} {parts : List Int64} :
    indexParts insertion (distribution :: indexes) = .ok parts ↔ ∃ value rest,
      distribution.apply insertion.item insertion.itemMetadata = .ok value
        ∧ indexParts insertion indexes = .ok rest
        ∧ parts = (value - distribution.minValue) :: rest := by
  rw [indexParts, StatusOr.bind_eq_ok]
  constructor
  · rintro ⟨value, happly, hparts⟩
    obtain ⟨rest, hrest, hcons⟩ := StatusOr.bind_eq_ok.mp hparts
    cases hcons
    exact ⟨value, rest, happly, hrest, rfl⟩
  · rintro ⟨value, rest, happly, hrest, rfl⟩
    exact ⟨value, happly, StatusOr.bind_eq_ok.mpr ⟨rest, hrest, rfl⟩⟩

/-- The loop of `GetIndex` on a given vector of index parts. -/
def linearizeLoop : List BaseDistribution → List Int64 → (product linearizedIndex : UInt64) → UInt64
  | distribution :: indexes, indexPart :: parts, product, linearizedIndex =>
      linearizeLoop indexes parts (product * distribution.size.toUInt64)
        (product * linearizedIndex + indexPart.toUInt64)
  | _, _, _, linearizedIndex => linearizedIndex

def linearize (indexes : List BaseDistribution) (parts : List Int64) : Int64 :=
  (linearizeLoop indexes parts 1 0).toInt64

def HasSizes (indexes : List BaseDistribution) (sizes : List ℕ) : Prop :=
  List.Forall₂ (fun (distribution : BaseDistribution) (size : ℕ) =>
    distribution.size.toInt = (size : ℤ)) indexes sizes

/-- A vector of index parts, each below its size. -/
abbrev IsParts (sizes : List ℕ) (parts : List Int64) : Prop :=
  List.Forall₂ (fun (part : Int64) (size : ℕ) => 0 ≤ part.toInt ∧ part.toInt < size) parts sizes

/-- **What `GetIndex` is meant to be.** The linearized indexes of two items are equal exactly when
their parts are, they are below the product of the sizes, and so an item is never inserted into the
register of an item with other parts. -/
structure Linearizes (indexes : List BaseDistribution) (sizes : List ℕ) : Prop where
  getIndex_eq_iff : ∀ {insertion insertion' parts parts' index index'},
    indexParts insertion indexes = .ok parts → indexParts insertion' indexes = .ok parts' →
    getIndex indexes insertion = .ok index → getIndex indexes insertion' = .ok index' →
      (index = index' ↔ parts = parts')
  getIndex_range : ∀ {insertion index}, getIndex indexes insertion = .ok index →
    0 ≤ index.toInt ∧ index.toInt < sizes.prod
  insert_separates : ∀ {sketch : AnySketch} {insertion insertion' parts parts' index},
    sketch.indexes = indexes →
    indexParts insertion indexes = .ok parts → indexParts insertion' indexes = .ok parts' →
    getIndex indexes insertion = .ok index → parts ≠ parts' →
      (sketch.insert insertion').2.registers.lookup index.toUInt64
        = sketch.registers.lookup index.toUInt64

/-- The factor that the rounds still to come put on the index so far, when `product` is the product
of the sizes before them. -/
def carry : ℕ → List ℕ → ℕ
  | _, [] => 1
  | product, size :: sizes => product * carry (product * size) sizes

def weights : ℕ → List ℕ → List ℕ
  | _, [] => []
  | product, size :: sizes => carry (product * size) sizes :: weights (product * size) sizes

def sizeAt (sizes : List ℕ) (i : Fin sizes.length) : ℕ := sizes.get i

def weightAt (sizes : List ℕ) (i : Fin sizes.length) : ℕ := (weights 1 sizes).getD i 0

def digitsOf (parts : List Int64) {n : ℕ} (i : Fin n) : ℕ :=
  (parts.getD i 0).toInt.toNat

/-- Every vector of parts is the one of some item. -/
def Exhaustive (indexes : List BaseDistribution) (sizes : List ℕ) : Prop :=
  ∀ digits, MixedRadix.InBox (sizeAt sizes) digits →
    ∃ insertion parts, indexParts insertion indexes = .ok parts ∧ digitsOf parts = digits

/-- The dimensions can be put in an order in which, modulo `2 ^ 64`, the weight of each dimension
with more than one value is the product of the sizes of the dimensions after it in that order. -/
def IsPositional (sizes : List ℕ) : Prop :=
  ∃ order : List (Fin sizes.length), order.Nodup ∧ (∀ i, i ∈ order) ∧
    MixedRadix.IsRadixOrder (sizeAt sizes) (weightAt sizes) (2 ^ 64) order

end AnySketch

end AnySketchCorrectness
