import AnySketchCorrectness.GeneratorRuns
import AnySketchCorrectness.Proof.Keystream

/-!
# Every request has its own segment

All that a generator does with its context is to take bytes from the keystream, a fixed number for a
request, or none when the request is refused. Sampling only decides how many bytes to take next. So
no byte of the keystream serves two requests, and the answers are the same on every implementation.
-/

namespace AnySketchCorrectness

open UniformPseudorandomGenerator StateInvariant StreamReader

variable {aes256 : ByteString → AesBlock → AesBlock} {round : ℚ → ℚ}

/-! ### Bytes -/

/-- A request takes a number of bytes that only its size determines. -/
theorem reads_generatePseudorandomBytes (size : Int64) :
    Reads (keystreamLeft aes256) fun implementation =>
      generatePseudorandomBytes implementation.evp size := by
  intro stream
  by_cases hnegative : size < 0
  · refine ⟨0, .error (.invalidArgument
      "Number of pseudorandom bytes must be a non-negative value."), uses_nil fun _ _ => ?_⟩
    unfold generatePseudorandomBytes
    rw [if_pos hnegative]
    exact ⟨rfl, rfl⟩
  have hsize := Int64.not_lt.mp hnegative
  rcases Nat.lt_or_ge (size.toNatClampNeg % 2 ^ 32) (2 ^ 31) with hserved | hrefused
  · refine ⟨size.toNatClampNeg % 2 ^ 32, .ok (stream.take (size.toNatClampNeg % 2 ^ 32)
      ++ List.replicate (size.toNatClampNeg - size.toNatClampNeg % 2 ^ 32) 0), ?_⟩
    intro i s hsegment
    rw [Stream'.length_take] at hsegment ⊢
    obtain ⟨s', hrun, hremaining⟩ :=
      run_generatePseudorandomBytes_ok i.isAes256Ctr hsize hserved s
    rw [hrun, hsegment]
    exact ⟨rfl, hremaining⟩
  · refine ⟨0, .error (.internal
      "Error updating the uniform pseudorandom generator context."), fun i s _ => ?_⟩
    obtain ⟨s', hrun, hremaining⟩ :=
      run_generatePseudorandomBytes_refused i.isAes256Ctr hsize hrefused s
    rw [hrun]
    exact ⟨rfl, hremaining⟩

/-! ### Values -/

theorem reads_sampleUntil (modulus : UInt32) (size fuel : ℕ) (ret : List UInt32) :
    Reads (keystreamLeft aes256) fun implementation =>
      sampleUntil round implementation.evp modulus size fuel ret := by
  induction fuel generalizing ret with
  | zero =>
      unfold sampleUntil
      split
      · exact reads_pure ret
      · exact reads_throw _
  | succ fuel ih =>
      unfold sampleUntil
      split
      · exact reads_pure ret
      · exact reads_bind (reads_generatePseudorandomBytes _) fun arr =>
          reads_bind (reads_ofExcept _) fun ret' => ih ret'

theorem reads_generateUniformRandomRange (round : ℚ → ℚ) (fuel : ℕ) (size : Int64)
    (modulus : UInt32) :
    Reads (keystreamLeft aes256) fun implementation =>
      generateUniformRandomRange round implementation.evp fuel size modulus := by
  unfold generateUniformRandomRange
  split
  · exact reads_throw _
  split
  · exact reads_throw _
  split
  · exact reads_throw _
  · exact reads_sampleUntil modulus _ fuel []

theorem reads_sampleNonZeroUntil (innerFuel : ℕ) (modulus : UInt32) (size fuel : ℕ)
    (ret : List UInt32) :
    Reads (keystreamLeft aes256) fun implementation =>
      sampleNonZeroUntil round implementation.evp innerFuel modulus size fuel ret := by
  induction fuel generalizing ret with
  | zero =>
      unfold sampleNonZeroUntil
      split
      · exact reads_pure ret
      · exact reads_throw _
  | succ fuel ih =>
      unfold sampleNonZeroUntil
      split
      · exact reads_pure ret
      · exact reads_bind (reads_generateUniformRandomRange _ _ _ _) fun arr => ih _

theorem reads_generateNonZeroUniformRandomRange (innerFuel fuel : ℕ) (size : Int64)
    (modulus : UInt32) :
    Reads (keystreamLeft aes256) fun implementation =>
      generateNonZeroUniformRandomRange round implementation.evp innerFuel fuel size modulus := by
  unfold generateNonZeroUniformRandomRange
  split
  · exact reads_throw _
  split
  · exact reads_throw _
  split
  · exact reads_throw _
  · exact reads_sampleNonZeroUntil innerFuel modulus _ fuel []

/-! ### Requests -/

theorem reads_serve (innerFuel fuel : ℕ) (request : Request) :
    Reads (keystreamLeft aes256) fun implementation =>
      serve round implementation.evp innerFuel fuel request := by
  cases request with
  | pseudorandomBytes size =>
      exact reads_bind (reads_generatePseudorandomBytes size) fun bytes => reads_pure _
  | uniformRandomRange size modulus =>
      exact reads_bind (reads_generateUniformRandomRange round fuel size modulus)
        fun values => reads_pure _
  | nonZeroUniformRandomRange size modulus =>
      exact reads_bind (reads_generateNonZeroUniformRandomRange innerFuel fuel size modulus)
        fun values => reads_pure _

/-- **Every request has its own segment.** Whatever is asked of generators and in whichever order,
the keystream is cut into successive segments, one for each request. A segment decides the answer to
its request, an error included, on every implementation and whatever follows it. -/
theorem serveAll_cuts (round : ℚ → ℚ) (innerFuel fuel : ℕ) (requests : List Request)
    (stream : Stream' UInt8) :
    ∃ cuts : List (ByteString × StatusOr Answer),
      List.Forall₂ (fun request cut => AnsweredFrom round aes256 innerFuel fuel request cut.1 cut.2)
        requests cuts ∧
      stream.take (cuts.map Prod.fst).flatten.length = (cuts.map Prod.fst).flatten ∧
      ∀ (implementation : CtrImplementation aes256) (ctx : implementation.Ctx),
        implementation.remaining ctx = stream →
        (serveAll round implementation.evp innerFuel fuel requests ctx).1 = cuts.map Prod.snd ∧
        implementation.remaining (serveAll round implementation.evp innerFuel fuel requests ctx).2
          = stream.drop (cuts.map Prod.fst).flatten.length := by
  have hprograms : ∀ program ∈ requests.map
      fun request (implementation : CtrImplementation aes256) =>
        serve round implementation.evp innerFuel fuel request,
        Reads (keystreamLeft aes256) program := by
    intro program hprogram
    obtain ⟨request, -, rfl⟩ := List.mem_map.mp hprogram
    exact reads_serve innerFuel fuel request
  obtain ⟨cuts, hcuts, htake, hruns⟩ := runAll_cuts hprograms stream
  refine ⟨cuts, List.forall₂_map_left_iff.mp hcuts, htake, fun implementation ctx hctx => ?_⟩
  have hrun := hruns implementation ctx hctx
  rw [List.map_map] at hrun
  exact hrun

end AnySketchCorrectness
