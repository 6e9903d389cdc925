import AnySketchCorrectness.Library.CounterMode
import AnySketchCorrectness.Library.StateInvariant
import Mathlib.Data.List.Forall2

/-!
# Readers of a stream

Programs whose state holds a stream of which they use up the front. The state can be represented in
several ways, each with a view of the stream that is left. A reader ends the same way in every
representation, and its result depends only on the part of the stream that it uses up, whether it
fails or not.
-/

namespace StreamReader

open StateInvariant CounterMode

universe u

variable {ι : Type u} {σ : ι → Type} {τ ε α β : Type} (view : ∀ i, σ i → Stream' τ)

/-- Where the stream begins with this segment, the run ends with this result, and the segment is
used up. -/
def Uses (program : ∀ i, EStateM ε (σ i) α) (segment : List τ) (result : Except ε α) : Prop :=
  ∀ (i : ι) (s : σ i), (view i s).take segment.length = segment →
    answer ((program i).run s) = result
      ∧ view i (finalState ((program i).run s)) = (view i s).drop segment.length

/-- On every stream, some segment at the front decides. -/
def Reads (program : ∀ i, EStateM ε (σ i) α) : Prop :=
  ∀ stream : Stream' τ, ∃ count result, Uses view program (stream.take count) result

variable {view}

theorem uses_nil {program : ∀ i, EStateM ε (σ i) α} {result : Except ε α}
    (hprogram : ∀ i s, answer ((program i).run s) = result
      ∧ finalState ((program i).run s) = s) : Uses view program [] result := by
  intro i s _
  obtain ⟨hanswer, hfinal⟩ := hprogram i s
  exact ⟨hanswer, by rw [hfinal, List.length_nil, Stream'.drop_zero]⟩

theorem reads_of_untouched {program : ∀ i, EStateM ε (σ i) α} (result : Except ε α)
    (hprogram : ∀ i s, answer ((program i).run s) = result
      ∧ finalState ((program i).run s) = s) : Reads view program :=
  fun _ => ⟨0, result, uses_nil hprogram⟩

theorem reads_pure (a : α) : Reads view fun i => (pure a : EStateM ε (σ i) α) :=
  reads_of_untouched (.ok a) fun _ _ => ⟨rfl, rfl⟩

theorem reads_throw (e : ε) : Reads view fun i => (throw e : EStateM ε (σ i) α) :=
  reads_of_untouched (.error e) fun _ _ => ⟨rfl, rfl⟩

theorem reads_ofExcept (result : Except ε α) :
    Reads view fun i => (MonadExcept.ofExcept result : EStateM ε (σ i) α) := by
  cases result with
  | ok a => exact reads_pure a
  | error e => exact reads_throw e

/-! ### Sequencing -/

/-- A segment in two parts is found part by part. -/
theorem take_append_iff {stream : Stream' τ} {front back : List τ} :
    stream.take (front ++ back).length = front ++ back
      ↔ stream.take front.length = front ∧ (stream.drop front.length).take back.length = back := by
  rw [List.length_append, take_add]
  constructor
  · intro heq
    exact List.append_inj heq (Stream'.length_take _ _)
  · rintro ⟨hfront, hback⟩
    rw [hfront, hback]

section Bind

variable {program : ∀ i, EStateM ε (σ i) α} {next : α → ∀ i, EStateM ε (σ i) β}

theorem Uses.bind_ok {front back : List τ} {a : α} {result : Except ε β}
    (hprogram : Uses view program front (.ok a)) (hnext : Uses view (next a) back result) :
    Uses view (fun i => program i >>= fun a => next a i) (front ++ back) result := by
  intro i s hstream
  obtain ⟨hfront, hback⟩ := take_append_iff.mp hstream
  obtain ⟨hanswer, hfinal⟩ := hprogram i s hfront
  rw [EStateM.run_bind]
  cases hrun : (program i).run s with
  | error e s' =>
      rw [hrun] at hanswer
      cases hanswer
  | ok a' s' =>
      rw [hrun] at hanswer hfinal
      cases hanswer
      have hview : view i s' = (view i s).drop front.length := hfinal
      obtain ⟨hanswer', hfinal'⟩ := hnext i s' (by rwa [hview])
      refine ⟨hanswer', ?_⟩
      rw [hfinal', hview, Stream'.drop_drop, List.length_append]

theorem Uses.bind_error {segment : List τ} {e : ε}
    (hprogram : Uses view program segment (.error e)) :
    Uses view (fun i => program i >>= fun a => next a i) segment (.error e) := by
  intro i s hstream
  obtain ⟨hanswer, hfinal⟩ := hprogram i s hstream
  rw [EStateM.run_bind]
  cases hrun : (program i).run s with
  | error e' s' =>
      rw [hrun] at hanswer hfinal
      cases hanswer
      exact ⟨rfl, hfinal⟩
  | ok a s' =>
      rw [hrun] at hanswer
      cases hanswer

theorem reads_bind (hprogram : Reads view program) (hnext : ∀ a, Reads view (next a)) :
    Reads view fun i => program i >>= fun a => next a i := by
  intro stream
  obtain ⟨count, result, huses⟩ := hprogram stream
  cases result with
  | error e => exact ⟨count, .error e, huses.bind_error⟩
  | ok a =>
      obtain ⟨count', result, huses'⟩ := hnext a (stream.drop count)
      refine ⟨count + count', result, ?_⟩
      rw [take_add]
      exact huses.bind_ok huses'

end Bind

theorem Reads.answer_eq {program : ∀ i, EStateM ε (σ i) α} (hreads : Reads view program) {i j : ι}
    {s : σ i} {s' : σ j} (hview : view i s = view j s') :
    answer ((program i).run s) = answer ((program j).run s') := by
  obtain ⟨count, result, huses⟩ := hreads (view i s)
  have hsegment : ((view i s).take count).length = count := Stream'.length_take _ _
  rw [(huses i s (by rw [hsegment])).1, (huses j s' (by rw [hsegment, ← hview])).1]

/-! ### Runs -/

/-- One program after the other, each whether or not the one before it failed. -/
def runAll {σ : Type} : List (EStateM ε σ α) → σ → List (Except ε α) × σ
  | [], s => ([], s)
  | program :: programs, s =>
      let result := program.run s
      let (answers, s') := runAll programs (finalState result)
      (answer result :: answers, s')

/-- **A run cuts the stream.** Each program of a run is decided by a segment of its own, and the
segments follow one another without gaps. -/
theorem runAll_cuts {programs : List (∀ i, EStateM ε (σ i) α)}
    (hprograms : ∀ program ∈ programs, Reads view program) (stream : Stream' τ) :
    ∃ cuts : List (List τ × Except ε α),
      List.Forall₂ (fun program cut => Uses view program cut.1 cut.2) programs cuts ∧
      stream.take (cuts.map Prod.fst).flatten.length = (cuts.map Prod.fst).flatten ∧
      ∀ (i : ι) (s : σ i), view i s = stream →
        (runAll (programs.map fun program => program i) s).1 = cuts.map Prod.snd ∧
        view i (runAll (programs.map fun program => program i) s).2
          = stream.drop (cuts.map Prod.fst).flatten.length := by
  induction programs generalizing stream with
  | nil => exact ⟨[], .nil, rfl, fun i s hview => ⟨rfl, hview⟩⟩
  | cons program programs ih =>
      obtain ⟨hprogram, hprograms⟩ := List.forall_mem_cons.mp hprograms
      obtain ⟨count, result, huses⟩ := hprogram stream
      obtain ⟨cuts, hcuts, htake, hruns⟩ := ih hprograms (stream.drop count)
      have hcount : (stream.take count).length = count := Stream'.length_take _ _
      refine ⟨(stream.take count, result) :: cuts, .cons huses hcuts, ?_, ?_⟩
      · rw [List.map_cons, List.flatten_cons, take_append_iff, hcount]
        exact ⟨rfl, htake⟩
      · intro i s hview
        obtain ⟨hanswer, hfinal⟩ := huses i s (by rw [hcount, hview])
        rw [hcount, hview] at hfinal
        obtain ⟨hanswers, hleft⟩ := hruns i _ hfinal
        refine ⟨?_, ?_⟩
        · rw [List.map_cons, runAll]
          exact congrArg₂ List.cons hanswer hanswers
        · have hlength : (((stream.take count, result) :: cuts).map Prod.fst).flatten.length
              = count + (cuts.map Prod.fst).flatten.length := by
            rw [List.map_cons, List.flatten_cons, List.length_append, hcount]
          rw [hlength, ← Stream'.drop_drop, ← hleft]
          rfl

end StreamReader
