import AnySketchCorrectness.Sketch
import AnySketchCorrectness.Library.KeyedMerge

/-!
# Runs of sketches

`Built` relates a sketch to the insertions that went into it, directly or through sketches of its
configuration merged into it. It covers every order of the calls and every tree of merges. What a
run may depend on besides, the order in which a hash map is iterated, is the `reorder` step: at any
moment the entries of the map may come in another order.

`Reachable` covers all the calls, also those that fail and those between sketches of different
configurations. `Visits` lists the states of one sketch, call by call.
-/

namespace AnySketchCorrectness.AnySketch

inductive Built (indexes : List BaseDistribution) (values : List ValueFunction) :
    List Insertion → AnySketch → Prop
  | new : Built indexes values [] (new indexes values)
  | insert {insertions sketch} (insertion : Insertion) :
      Built indexes values insertions sketch →
      Built indexes values (insertions ++ [insertion]) (sketch.insert insertion).2
  | merge {insertions insertions' sketch other} :
      Built indexes values insertions sketch → Built indexes values insertions' other →
      Built indexes values (insertions ++ insertions') (sketch.merge other).2
  | mergeAll {insertions sketch} (others : List (List Insertion × AnySketch)) :
      Built indexes values insertions sketch →
      (∀ other ∈ others, Built indexes values other.1 other.2) →
      Built indexes values (insertions ++ others.flatMap Prod.fst)
        (sketch.mergeAll (others.map Prod.snd)).2
  | reorder {insertions sketch registers} :
      Built indexes values insertions sketch →
      registers.entries.Perm sketch.registers.entries →
      Built indexes values insertions { sketch with registers }

inductive Reachable : AnySketch → Prop
  | new (indexes : List BaseDistribution) (values : List ValueFunction) :
      Reachable (new indexes values)
  | aggregateIntoRegister {sketch} (index : Int64) (newValues : FixedArray) :
      Reachable sketch → Reachable (sketch.aggregateIntoRegister index newValues).2
  | insert {sketch} (insertion : Insertion) :
      Reachable sketch → Reachable (sketch.insert insertion).2
  | merge {sketch other} :
      Reachable sketch → Reachable other → Reachable (sketch.merge other).2
  | mergeAll {sketch} (others : List AnySketch) :
      Reachable sketch → (∀ other ∈ others, Reachable other) →
      Reachable (sketch.mergeAll others).2
  | reorder {sketch registers} :
      Reachable sketch → registers.entries.Perm sketch.registers.entries →
      Reachable { sketch with registers }

/-! ### Calls on one sketch -/

inductive Call where
  | insert (insertion : Insertion)
  | merge (other : AnySketch)
  | mergeAll (others : List AnySketch)

def Call.perform (sketch : AnySketch) : Call → StatusOr Unit × AnySketch
  | .insert insertion => sketch.insert insertion
  | .merge other => sketch.merge other
  | .mergeAll others => sketch.mergeAll others

/-- The sketches that are read. -/
def Call.others : Call → List AnySketch
  | .insert _ => []
  | .merge other => [other]
  | .mergeAll others => others

/-- The states a sketch goes through. `MergeAll` makes one `Merge` call after the other, and the
states between them count. -/
inductive Visits : AnySketch → List Call → AnySketch → Prop
  | start (sketch : AnySketch) (calls : List Call) : Visits sketch calls sketch
  | between {sketch : AnySketch} {before others : List AnySketch} (calls : List Call) :
      before <+: others → Visits sketch (.mergeAll others :: calls) (sketch.mergeAll before).2
  | later {sketch state : AnySketch} {call : Call} {calls : List Call} :
      Visits (call.perform sketch).2 calls state → Visits sketch (call :: calls) state

/-! ### What the calls contribute -/

/-- What an `Insert` call adds: a key and a tuple of values, unless a distribution fails. -/
def contribution (indexes : List BaseDistribution) (values : List ValueFunction)
    (insertion : Insertion) : Option (UInt64 × FixedArray) :=
  match getIndex indexes insertion, applyValues insertion values with
  | .ok index, .ok newValues => some (index.toUInt64, newValues)
  | _, _ => none

def contributedTuples (indexes : List BaseDistribution) (values : List ValueFunction)
    (insertions : List Insertion) (key : UInt64) : List FixedArray :=
  ((insertions.filterMap (contribution indexes values)).filter fun entry => entry.1 = key).map
    Prod.snd

def contributedValues (indexes : List BaseDistribution) (values : List ValueFunction)
    (insertions : List Insertion) (key : UInt64) (column : Nat) : List Int64 :=
  (contributedTuples indexes values insertions key).filterMap fun newValues => newValues[column]?

end AnySketchCorrectness.AnySketch
