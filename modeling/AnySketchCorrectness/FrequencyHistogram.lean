import AnySketchCorrectness.Proof.Destroyed
import AnySketchCorrectness.FingerprintingDistributions
import Mathlib.Data.Fintype.Pi
import Mathlib.Algebra.BigOperators.Fin
import Mathlib.Data.Real.Basic

/-!
# The frequency histogram

A sketch for reach and frequency has UNIQUE columns that identify items and SUM columns that count.
Registers that more than one item fell into are destroyed, and the frequencies are read off the
others.
-/

namespace AnySketchCorrectness.AnySketch

/-- The registers that the encrypter does not take for destroyed, and that hold this count. -/
def survivingRegisters (sketch : AnySketch) (column : ℕ) (count : Int64) :
    List (Σ _ : UInt64, FixedArray) :=
  sketch.registers.entries.filter fun entry =>
    isRegisterDestroyed (protoRegister sketch.values entry.1 entry.2)
        (protoConfig sketch.indexes sketch.values) = .ok false
      ∧ entry.2[column]? = some count

/-- What the insertions of an item bring to a column. -/
def itemValues (values : List ValueFunction) (insertions : List Insertion) (column : ℕ)
    (item : ByteString) : List Int64 :=
  (insertions.filter fun insertion => insertion.item = item).filterMap fun insertion =>
    (applyValues insertion values).toOption.bind fun newValues => newValues[column]?

def itemTotal (values : List ValueFunction) (insertions : List Insertion) (column : ℕ)
    (item : ByteString) : Int64 :=
  Int64.ofInt ((itemValues values insertions column item).map Int64.toInt).sum

/-- The value columns do not fail, and the UNIQUE columns tell exactly the different items apart. -/
structure Identified (values : List ValueFunction) (insertions : List Insertion) : Prop where
  succeeds : ∀ insertion ∈ insertions, ∃ newValues, applyValues insertion values = .ok newValues
  unique_eq_iff : ∀ a ∈ insertions, ∀ b ∈ insertions, ∀ s t,
    applyValues a values = .ok s → applyValues b values = .ok t →
    ((∀ (column : ℕ) (valueFunction : ValueFunction), values[column]? = some valueFunction →
        valueFunction.aggregatorType = .unique → s[column]? = t[column]?)
      ↔ a.item = b.item)

/-- The register of an index, if computing the index does not fail. -/
def registerKey (index : StatusOr Int64) : Option UInt64 :=
  index.toOption.map Int64.toUInt64

/-- The distribution looks at an item only through its fingerprint. -/
structure IsFingerprinting (distribution : Fingerprinter → BaseDistribution) : Prop where
  minValue_eq : ∀ fingerprinter fingerprinter',
    (distribution fingerprinter).minValue = (distribution fingerprinter').minValue
  maxValue_eq : ∀ fingerprinter fingerprinter',
    (distribution fingerprinter).maxValue = (distribution fingerprinter').maxValue
  apply_eq : ∀ fingerprinter fingerprinter' item item' itemMetadata itemMetadata',
    fingerprinter item = fingerprinter' item' →
    (distribution fingerprinter).apply item itemMetadata
      = (distribution fingerprinter').apply item' itemMetadata'

/-- The index distributions of a sketch, which share a fingerprinter. -/
def fingerprintIndexes (distributions : List (Fingerprinter → BaseDistribution))
    (fingerprinter : Fingerprinter) : List BaseDistribution :=
  distributions.map fun distribution => distribution fingerprinter

/-- The register of an item with this fingerprint. -/
def fingerprintKey (distributions : List (Fingerprinter → BaseDistribution))
    (fingerprint : Fin (2 ^ 64)) : Option UInt64 :=
  registerKey (getIndex
    (fingerprintIndexes distributions fun _ => UInt64.ofNat fingerprint) ⟨[], fun _ => none⟩)

/-- The mean over all fingerprints of the items. -/
noncomputable def expectedSurvivors {n : ℕ} (sketch : (Fin n → Fin (2 ^ 64)) → AnySketch)
    (column : ℕ) (count : Int64) : ℝ :=
  (∑ fingerprints, (((sketch fingerprints).survivingRegisters column count).length : ℝ))
    / (2 ^ 64 : ℕ) ^ n

end AnySketchCorrectness.AnySketch
