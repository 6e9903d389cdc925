import AnySketchCorrectness.Library.SelectedDraws
import AnySketchCorrectness.Proof.UniformLaw

/-!
# Uniform values other than zero

A candidate is rejected, or it is zero, or it is neither. This alone decides how much of the
keystream every pass of `GenerateNonZeroUniformRandomRange` reads, which of the values it takes over
and whether there is another pass. So the values taken over are as uniform as if all of them came
from one pass.
-/

namespace AnySketchCorrectness

open UniformPseudorandomGenerator CounterMode IndependentDraws DoubleRounding

variable {round : ℚ → ℚ} {modulus : UInt32}

/-! ### Labels -/

/-- Whether a value other than zero is offered, if any is. -/
def offerLabel (offer : Option UInt32) : Option Bool :=
  offer.map fun value => decide (0 < value)

def offerValue (offer : Option UInt32) : UInt32 := offer.getD 0

theorem offered_map_offerLabel (offers : List (Option UInt32)) :
    offered (offers.map offerLabel) = offered offers := by
  rw [offered, offered, List.map_map]
  congr 1
  funext offer
  exact Option.isSome_map

theorem fairUnder_offerLaw (modulus : UInt32) :
    FairUnder (offerLaw modulus) offerLabel offerValue (· = some true)
      fun value => 1 ≤ value ∧ value < modulus := by
  have hoffer : ∀ value : UInt32, 1 ≤ value →
      {offer | offerLabel offer = some true ∧ offerValue offer = value} = {some value} := by
    intro value hvalue
    have hpositive : 0 < value := UInt32.lt_iff_toNat_lt.mpr (UInt32.le_iff_toNat_le.mp hvalue)
    ext offer
    cases offer with
    | none => simp [offerLabel]
    | some value' =>
        simp only [offerLabel, offerValue, Option.map_some, Option.some.injEq, decide_eq_true_eq,
          Option.getD_some, Set.mem_ofPred_eq, Set.mem_singleton_iff]
        exact ⟨And.right, fun heq => ⟨heq ▸ hpositive, heq⟩⟩
  rintro _ rfl value value' ⟨hpositive, hlt⟩ ⟨hpositive', hlt'⟩
  rw [hoffer value hpositive, hoffer value' hpositive', PMF.toOuterMeasure_apply_singleton,
    PMF.toOuterMeasure_apply_singleton]
  exact fair_offerLaw modulus value value' hlt hlt'

/-! ### The choice of a pass -/

/-- The inner call returns the first values offered, and of these the first ones other than zero are
taken over. -/
def chooseBatch : Nat → Nat → List (Option Bool) → List Bool
  | _, _, [] => []
  | request, missing, none :: labels => false :: chooseBatch request missing labels
  | request, missing, some positive :: labels =>
      if positive ∧ 0 < request ∧ 0 < missing then
        true :: chooseBatch (request - 1) (missing - 1) labels
      else false :: chooseBatch (request - 1) missing labels

theorem length_chooseBatch (request missing : ℕ) (labels : List (Option Bool)) :
    (chooseBatch request missing labels).length = labels.length := by
  induction labels generalizing request missing with
  | nil => rfl
  | cons label labels ih =>
      cases label with
      | none => rw [chooseBatch, List.length_cons, List.length_cons, ih]
      | some positive =>
          rw [chooseBatch]
          split
          · rw [List.length_cons, List.length_cons, ih]
          · rw [List.length_cons, List.length_cons, ih]

theorem chooseBatch_marks (request missing : ℕ) (labels : List (Option Bool)) :
    MarksTakeable (· = some true) labels (chooseBatch request missing labels) := by
  induction labels generalizing request missing with
  | nil => exact fun i hi => by cases hi
  | cons label labels ih =>
      cases label with
      | none => exact marksTakeable_cons (by simp) (ih request missing)
      | some positive =>
          rw [chooseBatch]
          split
          next htaken => exact marksTakeable_cons (fun _ => by rw [htaken.1]) (ih _ _)
          next => exact marksTakeable_cons (by simp) (ih _ _)

theorem pick_chooseBatch (request missing : ℕ) (offers : List (Option UInt32)) :
    pick offerValue (chooseBatch request missing (offers.map offerLabel)) offers
      = (((offers.filterMap id).take request).filter (0 < ·)).take missing := by
  induction offers generalizing request missing with
  | nil => simp
  | cons offer offers ih =>
      cases offer with
      | none => simpa [offerLabel, chooseBatch] using ih request missing
      | some value =>
          have hoffered : (some value :: offers).filterMap id = value :: offers.filterMap id := rfl
          rw [List.map_cons, offerLabel, Option.map_some, chooseBatch, hoffered]
          cases request with
          | zero => simpa using ih 0 missing
          | succ request =>
              rw [List.take_succ_cons, Nat.add_sub_cancel]
              by_cases hpositive : 0 < value
              · rw [List.filter_cons_of_pos (by simpa using hpositive)]
                cases missing with
                | zero => simpa using ih request 0
                | succ missing =>
                    rw [if_pos ⟨decide_eq_true hpositive, Nat.succ_pos _, Nat.succ_pos _⟩,
                      pick_true, Nat.add_sub_cancel, ih, List.take_succ_cons]
                    rfl
              · rw [List.filter_cons_of_neg (by simpa using hpositive),
                  if_neg fun htaken => hpositive (of_decide_eq_true htaken.1), pick_false, ih]

/-! ### The choice of a call -/

/-- The candidates that a pass reads. -/
def passLength (round : ℚ → ℚ) (modulus : UInt32) (innerFuel missing : Nat)
    (labels : List (Option Bool)) : Nat :=
  consumed round modulus innerFuel (requested round modulus missing) (offered labels)

def choosePass (round : ℚ → ℚ) (modulus : UInt32) (innerFuel missing : Nat)
    (labels : List (Option Bool)) : List Bool :=
  chooseBatch (requested round modulus missing) missing
    (labels.take (passLength round modulus innerFuel missing labels))

/-- Whether all the passes complete that are made. -/
def CompletesNonZero (round : ℚ → ℚ) (modulus : UInt32) (innerFuel : Nat) :
    Nat → Nat → List (Option Bool) → Prop
  | 0, missing, _ => missing = 0
  | fuel + 1, missing, labels =>
      missing = 0 ∨
        (Completes round modulus innerFuel (requested round modulus missing) (offered labels)
          ∧ CompletesNonZero round modulus innerFuel fuel
            (missing - (choosePass round modulus innerFuel missing labels).count true)
            (labels.drop (passLength round modulus innerFuel missing labels)))

def chooseAll (round : ℚ → ℚ) (modulus : UInt32) (innerFuel : Nat) :
    Nat → Nat → List (Option Bool) → List Bool
  | 0, _, _ => []
  | fuel + 1, missing, labels =>
      if missing = 0 then []
      else
        choosePass round modulus innerFuel missing labels ++ chooseAll round modulus innerFuel fuel
          (missing - (choosePass round modulus innerFuel missing labels).count true)
          (labels.drop (passLength round modulus innerFuel missing labels))

variable {innerFuel : ℕ}

theorem completesNonZero_zero (fuel : ℕ) (labels : List (Option Bool)) :
    CompletesNonZero round modulus innerFuel fuel 0 labels := by
  cases fuel with
  | zero => rfl
  | succ fuel => exact Or.inl rfl

theorem chooseAll_zero (fuel : ℕ) (labels : List (Option Bool)) :
    chooseAll round modulus innerFuel fuel 0 labels = [] := by
  cases fuel with
  | zero => rfl
  | succ fuel => exact if_pos rfl

theorem chooseAll_marks (fuel missing : ℕ) (labels : List (Option Bool)) :
    MarksTakeable (· = some true) labels
      (chooseAll round modulus innerFuel fuel missing labels) := by
  induction fuel generalizing missing labels with
  | zero => exact fun i hi => by cases hi
  | succ fuel ih =>
      rw [chooseAll]
      split
      · exact fun i hi => by cases hi
      · have hpass := (chooseBatch_marks (requested round modulus missing) missing
          (labels.take (passLength round modulus innerFuel missing labels))).append
            (length_chooseBatch _ _ _) (ih
              (missing - (choosePass round modulus innerFuel missing labels).count true)
              (labels.drop (passLength round modulus innerFuel missing labels)))
        rwa [List.take_append_drop] at hpass

/-! ### Enough candidates -/

section Requests

variable (hround : IsDoubleRounding round) (hmodulus : 1 < modulus)
include hround hmodulus

theorem lt_requested {missing : ℕ} (hmissing : missing < 2 ^ 61) :
    missing < requested round modulus missing := by
  apply Nat.le_floor
  push_cast
  exact add_one_le_nonZeroExpected hround hmodulus hmissing

theorem requested_mono {missing missing' : ℕ} (hle : missing ≤ missing') :
    requested round modulus missing ≤ requested round modulus missing' :=
  Nat.floor_mono (expectedSampleSize_mono hround (nonZeroFailureRate_nonneg hround)
    (nonZeroFailureRate_le_half hround hmodulus) (Nat.cast_le.mpr hle))

variable (hbits : bitLength modulus < 31)
include hbits

/-- A request for the inner call that is served is for few values. -/
theorem lt_of_requested_served {missing : ℕ}
    (hserved : batchLength round modulus (requested round modulus missing) < 2 ^ 31) :
    missing < 2 ^ 31 := by
  by_contra hlarge
  have hfew := lt_of_served hround hmodulus hbits hserved
  have hmany := lt_requested hround hmodulus (show 2 ^ 31 < 2 ^ 61 by decide)
  have hmono := requested_mono hround hmodulus (Nat.not_lt.mp hlarge)
  omega

theorem consumed_le (fuel missing : ℕ) (places : List Bool) :
    consumed round modulus fuel missing places ≤ fuel * candidates round modulus missing := by
  induction fuel generalizing missing places with
  | zero => exact Nat.zero_le _
  | succ fuel ih =>
      rw [consumed]
      split
      · exact Nat.zero_le _
      · rw [Nat.succ_mul, Nat.add_comm]
        refine Nat.add_le_add_right ((ih _ _).trans (Nat.mul_le_mul_left _ ?_)) _
        exact candidates_mono hround hmodulus hbits (Nat.sub_le _ _)

end Requests

/-- The candidates that are read contain what was asked for. -/
theorem le_count_of_completes {fuel missing : ℕ} {places : List Bool}
    (hcompletes : Completes round modulus fuel missing places) :
    missing ≤ (places.take (consumed round modulus fuel missing places)).count true := by
  induction fuel generalizing missing places with
  | zero =>
      rw [Completes] at hcompletes
      rw [hcompletes]
      exact Nat.zero_le _
  | succ fuel ih =>
      rcases hcompletes with rfl | ⟨-, hrest⟩
      · exact Nat.zero_le _
      by_cases hmissing : missing = 0
      · rw [hmissing]
        exact Nat.zero_le _
      have hback := ih hrest
      rw [consumed, if_neg hmissing, List.take_add, List.count_append]
      omega

/-- What the inner call returns comes from the candidates that it reads. -/
theorem take_filterMap_of_completes {fuel request : ℕ} {offers : List (Option UInt32)}
    (hcompletes : Completes round modulus fuel request (offered offers)) :
    (offers.filterMap id).take request
      = ((offers.take (consumed round modulus fuel request (offered offers))).filterMap id).take
          request := by
  set count := consumed round modulus fuel request (offered offers) with hcount
  have henough : request ≤ ((offers.take count).filterMap id).length := by
    rw [length_filterMap_id, offered, List.map_take]
    exact le_count_of_completes hcompletes
  calc (offers.filterMap id).take request
      = ((offers.take count).filterMap id ++ (offers.drop count).filterMap id).take request := by
        rw [← List.filterMap_append, List.take_append_drop]
    _ = ((offers.take count).filterMap id).take request := List.take_append_of_le_length henough

/-! ### The passes of the loop -/

theorem passLength_map (innerFuel missing : ℕ) (offers : List (Option UInt32)) :
    passLength round modulus innerFuel missing (offers.map offerLabel)
      = consumed round modulus innerFuel (requested round modulus missing) (offered offers) := by
  rw [passLength, offered_map_offerLabel]

theorem length_choosePass (missing : ℕ) (offers : List (Option UInt32)) :
    (choosePass round modulus innerFuel missing (offers.map offerLabel)).length
      = (offers.take
          (passLength round modulus innerFuel missing (offers.map offerLabel))).length := by
  rw [choosePass, length_chooseBatch, ← List.map_take, List.length_map]

/-- What a pass takes over. -/
theorem nonZeroSample_eq_pick {size : ℕ} {ret : List UInt32} {offers : List (Option UInt32)}
    (hret : ret.length ≤ size)
    (hcompletes : Completes round modulus innerFuel (requested round modulus (size - ret.length))
      (offered offers)) :
    nonZeroSample size
        ((offers.filterMap id).take (requested round modulus (size - ret.length))) ret
      = ret ++ pick offerValue
          (choosePass round modulus innerFuel (size - ret.length) (offers.map offerLabel))
          (offers.take (passLength round modulus innerFuel (size - ret.length)
            (offers.map offerLabel))) := by
  rw [nonZeroSample_eq_takeOver, Refill.takeOver_eq hret, List.take_append,
    List.take_of_length_le hret, take_filterMap_of_completes hcompletes, choosePass,
    ← List.map_take, pick_chooseBatch, passLength_map]

theorem length_nonZeroSample_le {size : ℕ} {ret : List UInt32} (hret : ret.length ≤ size)
    (arr : List UInt32) : (nonZeroSample size arr ret).length ≤ size := by
  rw [nonZeroSample_eq_takeOver, Refill.takeOver_eq hret]
  exact List.length_take_le _ _

theorem size_sub_length_nonZeroSample {size : ℕ} {ret : List UInt32}
    {offers : List (Option UInt32)} (hret : ret.length ≤ size)
    (hcompletes : Completes round modulus innerFuel (requested round modulus (size - ret.length))
      (offered offers)) :
    size - (nonZeroSample size
        ((offers.filterMap id).take (requested round modulus (size - ret.length))) ret).length
      = size - ret.length - (choosePass round modulus innerFuel (size - ret.length)
          (offers.map offerLabel)).count true := by
  rw [nonZeroSample_eq_pick hret hcompletes, List.length_append,
    length_pick _ (length_choosePass _ offers), Nat.sub_add_eq]

theorem pick_chooseAll_succ {fuel missing : ℕ} (hmissing : missing ≠ 0)
    (offers : List (Option UInt32)) :
    pick offerValue
        (chooseAll round modulus innerFuel (fuel + 1) missing (offers.map offerLabel)) offers
      = pick offerValue (choosePass round modulus innerFuel missing (offers.map offerLabel))
          (offers.take (passLength round modulus innerFuel missing (offers.map offerLabel)))
        ++ pick offerValue
          (chooseAll round modulus innerFuel fuel
            (missing
              - (choosePass round modulus innerFuel missing (offers.map offerLabel)).count true)
            ((offers.drop (passLength round modulus innerFuel missing
              (offers.map offerLabel))).map offerLabel))
          (offers.drop (passLength round modulus innerFuel missing (offers.map offerLabel))) := by
  rw [chooseAll, if_neg hmissing, ← List.map_drop,
    ← pick_append _ (length_choosePass missing offers), List.take_append_drop]

section Runs

variable {Ctx : Type} {evp : EvpCipher Ctx} {aes256 : ByteString → AesBlock → AesBlock}
  {remaining : Ctx → Stream' UInt8} {size fuel : ℕ} {ret values : List UInt32}
  {chunks : List ByteString}

/-- The request as it is computed. -/
theorem nonZeroSampleSize_eq_requested (hround : IsDoubleRounding round) (hmodulus : 1 < modulus)
    {missing : ℕ} (hmissing : missing < 2 ^ 61) :
    0 ≤ nonZeroSampleSize round modulus (Int64.ofNat missing)
      ∧ (nonZeroSampleSize round modulus (Int64.ofNat missing)).toNatClampNeg
        = requested round modulus missing := by
  have htoInt := nonZeroSampleSize_toInt hround hmodulus hmissing
  refine ⟨?_, ?_⟩
  · rw [Int64.le_iff_toInt_le, htoInt]
    exact Int.natCast_nonneg _
  · rw [Int64.toNatClampNeg, htoInt]
    rfl

/-- The inner call of a pass. -/
theorem run_nonZeroRequest_ok_iff (hround : IsDoubleRounding round)
    (hevp : evp.IsAes256Ctr aes256 remaining) (hmodulus : 1 < modulus)
    (hbits : bitLength modulus < 31) {missing : ℕ}
    (hserved : batchLength round modulus (requested round modulus missing) < 2 ^ 31)
    (hchunks : ∀ chunk ∈ chunks, chunk.length = bytesPerValue modulus)
    (hcount : innerFuel * candidates round modulus (requested round modulus missing)
      ≤ chunks.length) {ctx : Ctx}
    (hctx : (remaining ctx).take (bytesPerValue modulus * chunks.length) = chunks.flatten)
    (arr : List UInt32) (left : Stream' UInt8 → Prop) :
    (∃ ctx', (generateUniformRandomRange round evp innerFuel
          (nonZeroSampleSize round modulus (Int64.ofNat missing)) modulus).run ctx = .ok arr ctx'
        ∧ left (remaining ctx'))
      ↔ (Completes round modulus innerFuel (requested round modulus missing)
          (offered (chunks.map (offer modulus)))
        ∧ arr = ((chunks.map (offer modulus)).filterMap id).take (requested round modulus missing))
        ∧ left ((remaining ctx).drop (bytesPerValue modulus
          * passLength round modulus innerFuel missing
            ((chunks.map (offer modulus)).map offerLabel))) := by
  have hsmall : missing < 2 ^ 61 :=
    (lt_of_requested_served hround hmodulus hbits hserved).trans (by decide)
  obtain ⟨hnonnegative, hclamped⟩ := nonZeroSampleSize_eq_requested hround hmodulus hsmall
  rw [passLength_map, ← hclamped]
  rw [← hclamped] at hserved hcount
  exact run_generateUniformRandomRange_ok_iff hround hevp hmodulus hbits hnonnegative hserved
    hchunks hcount hctx left

theorem run_sampleNonZeroUntil_full_iff (hfull : size ≤ ret.length) (labels : List (Option Bool))
    (offers : List (Option UInt32)) (ctx : Ctx) :
    (∃ ctx', (sampleNonZeroUntil round evp innerFuel modulus size fuel ret).run ctx
        = .ok values ctx')
      ↔ CompletesNonZero round modulus innerFuel fuel (size - ret.length) labels
        ∧ values = ret ++ pick offerValue
            (chooseAll round modulus innerFuel fuel (size - ret.length) labels) offers := by
  rw [sampleNonZeroUntil_eq_fill, Refill.run_fill_full hfull, Nat.sub_eq_zero_of_le hfull,
    and_iff_right (completesNonZero_zero _ _), chooseAll_zero, pick_nil, List.append_nil]
  constructor
  · rintro ⟨ctx', ⟨⟩⟩
    rfl
  · rintro rfl
    exact ⟨ctx, rfl⟩

/-- A pass of the outer loop. -/
theorem run_sampleNonZeroUntil_short (hshort : ret.length < size) (ctx : Ctx) :
    (∃ ctx', (sampleNonZeroUntil round evp innerFuel modulus size (fuel + 1) ret).run ctx
        = .ok values ctx')
      ↔ ∃ arr ctx₁, (generateUniformRandomRange round evp innerFuel
            (nonZeroSampleSize round modulus (Int64.ofNat (size - ret.length))) modulus).run ctx
          = .ok arr ctx₁
        ∧ ∃ ctx', (sampleNonZeroUntil round evp innerFuel modulus size fuel
            (nonZeroSample size arr ret)).run ctx₁ = .ok values ctx' := by
  rw [sampleNonZeroUntil, if_neg (Nat.not_le.mpr hshort)]
  simp only [EStateM.run_bind]
  cases (generateUniformRandomRange round evp innerFuel
    (nonZeroSampleSize round modulus (Int64.ofNat (size - ret.length))) modulus).run ctx with
  | error e ctx₁ => simp
  | ok arr ctx₁ => simp

/-- **What a run of the outer loop returns.** It completes if the labels let it, and then it returns
the values at the places that the labels choose. -/
theorem run_sampleNonZeroUntil_ok_iff (hround : IsDoubleRounding round)
    (hevp : evp.IsAes256Ctr aes256 remaining) (hmodulus : 1 < modulus)
    (hbits : bitLength modulus < 31)
    (hserved : batchLength round modulus (requested round modulus size) < 2 ^ 31)
    (hchunks : ∀ chunk ∈ chunks, chunk.length = bytesPerValue modulus)
    (hcount : fuel * (innerFuel * candidates round modulus (requested round modulus size))
      ≤ chunks.length) (hret : ret.length ≤ size) {ctx : Ctx}
    (hctx : (remaining ctx).take (bytesPerValue modulus * chunks.length) = chunks.flatten) :
    (∃ ctx', (sampleNonZeroUntil round evp innerFuel modulus size fuel ret).run ctx
        = .ok values ctx')
      ↔ CompletesNonZero round modulus innerFuel fuel (size - ret.length)
          ((chunks.map (offer modulus)).map offerLabel)
        ∧ values = ret ++ pick offerValue
            (chooseAll round modulus innerFuel fuel (size - ret.length)
              ((chunks.map (offer modulus)).map offerLabel))
            (chunks.map (offer modulus)) := by
  induction fuel generalizing ret chunks ctx with
  | zero =>
      rcases Nat.lt_or_ge ret.length size with hshort | hfull
      · rw [sampleNonZeroUntil, if_neg (Nat.not_le.mpr hshort)]
        refine iff_of_false (by rintro ⟨ctx', ⟨⟩⟩) fun hcompletes => ?_
        have hzero : size - ret.length = 0 := hcompletes.1
        omega
      · exact run_sampleNonZeroUntil_full_iff hfull _ _ ctx
  | succ fuel ih =>
      rcases Nat.lt_or_ge ret.length size with hshort | hfull
      · set missing := size - ret.length
        set offers := chunks.map (offer modulus)
        set count := passLength round modulus innerFuel missing (offers.map offerLabel)
        have hpositive : missing ≠ 0 := by omega
        have hrequested : requested round modulus missing ≤ requested round modulus size :=
          requested_mono hround hmodulus (Nat.sub_le size ret.length)
        have hfew := Nat.mul_le_mul_left innerFuel
          (candidates_mono hround hmodulus hbits hrequested)
        have hread : count ≤ innerFuel * candidates round modulus (requested round modulus size) :=
          (consumed_le hround hmodulus hbits _ _ _).trans hfew
        rw [Nat.succ_mul] at hcount
        have hcall := run_nonZeroRequest_ok_iff hround hevp hmodulus hbits
          ((batchLength_mono hround hmodulus hbits hrequested).trans_lt hserved) hchunks
          (hfew.trans (Nat.le_of_add_left_le hcount)) hctx
        -- the rest of the keystream is that of the remaining chunks
        have hnext : ∀ ctx₁, remaining ctx₁ = (remaining ctx).drop (bytesPerValue modulus * count) →
            Completes round modulus innerFuel (requested round modulus missing) (offered offers) →
            ((∃ ctx', (sampleNonZeroUntil round evp innerFuel modulus size fuel
                (nonZeroSample size ((offers.filterMap id).take (requested round modulus missing))
                  ret)).run ctx₁ = .ok values ctx')
              ↔ CompletesNonZero round modulus innerFuel fuel
                  (missing - (choosePass round modulus innerFuel missing
                    (offers.map offerLabel)).count true) ((offers.map offerLabel).drop count)
                ∧ values = ret ++ pick offerValue
                    (chooseAll round modulus innerFuel (fuel + 1) missing (offers.map offerLabel))
                    offers) := by
          intro ctx₁ hremaining hcompletes
          have hback : (chunks.drop count).map (offer modulus) = offers.drop count := List.map_drop
          have hsample := nonZeroSample_eq_pick hret hcompletes
          have hle := length_nonZeroSample_le hret
            ((offers.filterMap id).take (requested round modulus missing))
          have hstill := size_sub_length_nonZeroSample hret hcompletes
          rw [ih (fun chunk hmem => hchunks chunk (List.mem_of_mem_drop hmem))
            (by rw [List.length_drop]; omega) hle
            (hremaining ▸ (take_drop_eq_flatten hchunks (by omega) hctx).2), hstill, hsample,
            pick_chooseAll_succ hpositive, List.append_assoc, hback, List.map_drop]
        rw [run_sampleNonZeroUntil_short hshort, CompletesNonZero, or_iff_right hpositive,
          offered_map_offerLabel]
        constructor
        · rintro ⟨arr, ctx₁, hinner, hrest⟩
          obtain ⟨⟨hcompletes, rfl⟩, hleft⟩ :=
            (hcall arr (· = remaining ctx₁)).mp ⟨ctx₁, hinner, rfl⟩
          obtain ⟨hpasses, hvalues⟩ := (hnext ctx₁ hleft.symm hcompletes).mp hrest
          exact ⟨⟨hcompletes, hpasses⟩, hvalues⟩
        · rintro ⟨⟨hcompletes, hpasses⟩, hvalues⟩
          obtain ⟨ctx₁, hinner, hleft⟩ :=
            (hcall _ (· = (remaining ctx).drop (bytesPerValue modulus * count))).mpr
              ⟨⟨hcompletes, rfl⟩, rfl⟩
          exact ⟨_, ctx₁, hinner, (hnext ctx₁ hleft hcompletes).mpr ⟨hpasses, hvalues⟩⟩
      · exact run_sampleNonZeroUntil_full_iff hfull _ _ ctx

end Runs

/-! ### The number of vectors -/

theorem toNat_sub_one (hmodulus : 1 < modulus) : (modulus - 1).toNat = modulus.toNat - 1 :=
  UInt32.toNat_sub_of_le _ _ (UInt32.le_of_lt hmodulus)

/-- Adding 1 to every entry makes vectors other than zero of all vectors below the modulus less
1. -/
theorem nonZeroVectors_eq_image (hmodulus : 1 < modulus) (n : ℕ) :
    {values | IsNonZeroVectorBelow modulus n values}
      = Set.image (List.map (· + 1)) {values | IsVectorBelow (modulus - 1) n values} := by
  have hone := toNat_sub_one hmodulus
  have hbound := modulus.toNat_lt
  ext values
  constructor
  · rintro ⟨hlength, hentries⟩
    refine ⟨values.map (· - 1), ⟨(List.length_map _).trans hlength, fun entry hmem => ?_⟩, ?_⟩
    · obtain ⟨value, hvalue, rfl⟩ := List.mem_map.mp hmem
      obtain ⟨hpositive, hlt⟩ := hentries value hvalue
      rw [UInt32.lt_iff_toNat_lt, hone, UInt32.toNat_sub_of_le _ _ hpositive]
      rw [UInt32.lt_iff_toNat_lt] at hlt
      rw [UInt32.le_iff_toNat_le] at hpositive
      exact Nat.sub_lt_sub_right hpositive hlt
    · rw [List.map_map]
      refine (List.map_congr_left fun value _ => ?_).trans (List.map_id _)
      exact UInt32.sub_add_cancel value 1
  · rintro ⟨entries, ⟨hlength, hentries⟩, rfl⟩
    refine ⟨(List.length_map _).trans hlength, fun value hmem => ?_⟩
    obtain ⟨entry, hentry, rfl⟩ := List.mem_map.mp hmem
    have hlt := UInt32.lt_iff_toNat_lt.mp (hentries entry hentry)
    rw [hone] at hlt
    have hadd : (entry + 1).toNat = entry.toNat + 1 := by
      rw [UInt32.toNat_add, UInt32.toNat_one]
      exact Nat.mod_eq_of_lt (by omega)
    rw [UInt32.le_iff_toNat_le, UInt32.lt_iff_toNat_lt, hadd, UInt32.toNat_one]
    omega

theorem encard_nonZeroVectors (hmodulus : 1 < modulus) (n : ℕ) :
    {values | IsNonZeroVectorBelow modulus n values}.encard = ((modulus.toNat - 1) ^ n : ℕ) := by
  have hinjective : Function.Injective (List.map fun entry : UInt32 => entry + 1) :=
    List.map_injective_iff.mpr fun entry entry' heq => by simpa using heq
  rw [nonZeroVectors_eq_image hmodulus, hinjective.encard_image, encard_vectors,
    toNat_sub_one hmodulus]

/-! ### The whole call -/

/-- If all candidates are values other than zero, the first of them are selected. -/
theorem selects_map_some {fuel missing : ℕ} (hfuel : 0 < fuel) (hinnerFuel : 0 < innerFuel)
    {filled values : List UInt32} (hfew : missing ≤ requested round modulus missing)
    (hmore : requested round modulus missing
      ≤ candidates round modulus (requested round modulus missing))
    (hlength : candidates round modulus (requested round modulus missing) ≤ filled.length)
    (hfilled : ∀ value ∈ filled, 1 ≤ value) (hvalues : filled.take missing = values) :
    filled.map some ∈ Selects offerLabel offerValue
      {labels | CompletesNonZero round modulus innerFuel fuel missing labels}
      (chooseAll round modulus innerFuel fuel missing) values := by
  obtain ⟨fuel, rfl⟩ := Nat.exists_eq_succ_of_ne_zero hfuel.ne'
  by_cases hmissing : missing = 0
  · subst hmissing
    rw [← hvalues]
    refine ⟨completesNonZero_zero _ _, ?_⟩
    rw [chooseAll_zero]
    rfl
  have hread := hmore.trans hlength
  have hcompletes : Completes round modulus innerFuel (requested round modulus missing)
      (offered (filled.map some)) := by
    rw [offered_map_some]
    exact completes_replicate hinnerFuel hmore hlength
  have hpass : pick offerValue
      (choosePass round modulus innerFuel missing ((filled.map some).map offerLabel))
      ((filled.map some).take (passLength round modulus innerFuel missing
        ((filled.map some).map offerLabel))) = values := by
    have hpositive : (filled.take (requested round modulus missing)).filter (0 < ·)
        = filled.take (requested round modulus missing) := by
      refine List.filter_eq_self.mpr fun value hmem => ?_
      have hone := UInt32.le_iff_toNat_le.mp (hfilled value (List.mem_of_mem_take hmem))
      exact decide_eq_true (UInt32.lt_iff_toNat_lt.mpr hone)
    rw [choosePass, ← List.map_take, pick_chooseBatch, passLength_map,
      ← take_filterMap_of_completes hcompletes, List.filterMap_map, Function.id_comp,
      List.filterMap_some, hpositive, List.take_take, Nat.min_eq_left hfew, hvalues]
  have hdone : missing - (choosePass round modulus innerFuel missing
      ((filled.map some).map offerLabel)).count true = 0 := by
    rw [← length_pick offerValue (length_choosePass missing _), hpass, ← hvalues,
      List.length_take, Nat.min_eq_left (hfew.trans hread), Nat.sub_self]
  refine ⟨Or.inr ⟨?_, ?_⟩, ?_⟩
  · rw [offered_map_offerLabel]
    exact hcompletes
  · rw [hdone]
    exact completesNonZero_zero _ _
  · rw [pick_chooseAll_succ hmissing, hpass, hdone, chooseAll_zero, pick_nil, List.append_nil]

section Law

variable {Ctx : Type} {evp : EvpCipher Ctx} {aes256 : ByteString → AesBlock → AesBlock}
  {remaining : Ctx → Stream' UInt8} {fuel count : ℕ} {size : Int64}
  (hround : IsDoubleRounding round) (hevp : evp.IsAes256Ctr aes256 remaining)
  (hmodulus : 1 < modulus) (hbits : bitLength modulus < 31) (hsize : 0 ≤ size)
  (hserved : batchLength round modulus (requested round modulus size.toNatClampNeg) < 2 ^ 31)
  (hcount : fuel * (innerFuel * candidates round modulus
    (requested round modulus size.toNatClampNeg)) ≤ count)
  (contexts : KeystreamFamily remaining (bytesPerValue modulus * count))

include hround hevp hmodulus hbits hsize hserved hcount

theorem answerLaw_nonZero_ok (values : List UInt32) :
    answerLaw contexts (generateNonZeroUniformRandomRange round evp innerFuel fuel size modulus)
        (.ok values)
      = (draws (offerLaw modulus) count).toOuterMeasure
          (Selects offerLabel offerValue
            {labels | CompletesNonZero round modulus innerFuel fuel size.toNatClampNeg labels}
            (chooseAll round modulus innerFuel fuel size.toNatClampNeg) values) := by
  apply answerLaw_apply_ok
  intro chunks hlength hchunks
  have hlt : size.toNatClampNeg < 2 ^ 61 :=
    (lt_of_requested_served hround hmodulus hbits hserved).trans (by decide)
  have hfew := batchLength_mono hround hmodulus hbits (lt_requested hround hmodulus hlt).le
  have hsmall := size_lt_of_served hround hmodulus hbits (hfew.trans_lt hserved)
  rw [evaluate_eq_ok_iff, generateNonZeroUniformRandomRange, if_neg (UInt32.not_le.mpr hmodulus),
    if_neg (Int64.not_lt.mpr hsize), if_neg (Int64.not_le.mpr hsmall),
    run_sampleNonZeroUntil_ok_iff hround hevp hmodulus hbits hserved hchunks (hlength ▸ hcount)
      (Nat.zero_le _) (take_remaining_flatten contexts hlength hchunks)]
  exact and_congr_right fun _ => eq_comm

theorem answerLaw_nonZero_ok_eq {values values' : List UInt32}
    (hvalues : IsNonZeroVectorBelow modulus size.toNatClampNeg values)
    (hvalues' : IsNonZeroVectorBelow modulus size.toNatClampNeg values') :
    answerLaw contexts (generateNonZeroUniformRandomRange round evp innerFuel fuel size modulus)
        (.ok values)
      = answerLaw contexts (generateNonZeroUniformRandomRange round evp innerFuel fuel size modulus)
        (.ok values') := by
  rw [answerLaw_nonZero_ok hround hevp hmodulus hbits hsize hserved hcount contexts,
    answerLaw_nonZero_ok hround hevp hmodulus hbits hsize hserved hcount contexts]
  exact toOuterMeasure_selects_eq (fairUnder_offerLaw modulus) count _
    (chooseAll_marks fuel _) (hvalues.1.trans hvalues'.1.symm) hvalues.2 hvalues'.2

/-- Accepting every candidate, with values other than zero, completes in the first pass. -/
theorem answerLaw_nonZero_ok_ne_zero (hfuel : 0 < fuel) (hinnerFuel : 0 < innerFuel)
    {values : List UInt32} (hvalues : IsNonZeroVectorBelow modulus size.toNatClampNeg values) :
    answerLaw contexts (generateNonZeroUniformRandomRange round evp innerFuel fuel size modulus)
      (.ok values) ≠ 0 := by
  set missing := size.toNatClampNeg
  have hfirst : candidates round modulus (requested round modulus missing) ≤ count :=
    (Nat.le_mul_of_pos_left _ hinnerFuel).trans ((Nat.le_mul_of_pos_left _ hfuel).trans hcount)
  have hlt : missing < 2 ^ 61 :=
    (lt_of_requested_served hround hmodulus hbits hserved).trans (by decide)
  have hfew := (lt_requested hround hmodulus hlt).le
  have hread := (lt_candidates hround hmodulus hbits
    ((lt_of_served hround hmodulus hbits hserved).trans (by decide))).le
  let filled := values ++ List.replicate (count - missing) 1
  have hlength : filled.length = count := by
    rw [List.length_append, List.length_replicate, hvalues.1]
    omega
  have hfilled : ∀ value ∈ filled, 1 ≤ value ∧ value < modulus := by
    intro value hmem
    rcases List.mem_append.mp hmem with hvalue | hfill
    · exact hvalues.2 value hvalue
    · rw [List.eq_of_mem_replicate hfill]
      exact ⟨UInt32.le_refl 1, hmodulus⟩
  have hchance : draws (offerLaw modulus) count (filled.map some) ≠ 0 :=
    draws_offerLaw_ne_zero ((List.length_map some).trans hlength) fun value hmem =>
      (hfilled value hmem).2
  have hselects := selects_map_some hfuel hinnerFuel hfew hread (hlength.symm ▸ hfirst)
    (fun value hmem => (hfilled value hmem).1) (List.take_left' hvalues.1)
  rw [answerLaw_nonZero_ok hround hevp hmodulus hbits hsize hserved hcount contexts, ne_eq,
    PMF.toOuterMeasure_apply_eq_zero_iff]
  exact fun hdisjoint => Set.disjoint_left.mp hdisjoint hchance hselects

end Law

/-! ### The law of the values -/

section Uniform

variable {Ctx : Type} {evp : EvpCipher Ctx} {aes256 : ByteString → AesBlock → AesBlock}
  {remaining : Ctx → Stream' UInt8} {fuel count : ℕ} {size : Int64}

/-- **The values other than zero are uniform.** If the keystream begins with uniform bytes, enough
for all the passes of all the inner calls, the values that a call returns are neither zero nor as
large as the modulus, all vectors of such values are equally likely, and none is impossible. -/
theorem generateNonZeroUniformRandomRange_uniform (hround : IsDoubleRounding round)
    (hevp : evp.IsAes256Ctr aes256 remaining) (hmodulus : 1 < modulus) (hle : modulus ≤ 2 ^ 30)
    (hsize : 0 ≤ size)
    (hserved : batchLength round modulus (requested round modulus size.toNatClampNeg) < 2 ^ 31)
    (hcount : fuel * (innerFuel * candidates round modulus
      (requested round modulus size.toNatClampNeg)) ≤ count)
    (contexts : KeystreamFamily remaining (bytesPerValue modulus * count)) :
    IsUniformOnNonZeroVectors modulus size.toNatClampNeg
      (answerLaw contexts
        (generateNonZeroUniformRandomRange round evp innerFuel fuel size modulus)) ∧
    (0 < fuel → 0 < innerFuel → ∀ values, IsNonZeroVectorBelow modulus size.toNatClampNeg values →
      answerLaw contexts (generateNonZeroUniformRandomRange round evp innerFuel fuel size modulus)
        (.ok values) ≠ 0) := by
  have hbits := bitLength_lt_of_le hle
  have hvector : ∀ values, answerLaw contexts
      (generateNonZeroUniformRandomRange round evp innerFuel fuel size modulus) (.ok values) ≠ 0 →
      IsNonZeroVectorBelow modulus size.toNatClampNeg values := by
    intro values hne
    obtain ⟨bytes, hanswer⟩ := exists_evaluate_of_answerLaw_ne_zero hne
    obtain ⟨ctx', hrun⟩ := evaluate_eq_ok_iff.mp hanswer
    obtain ⟨hlength, hrange, -⟩ := generateNonZeroUniformRandomRange_spec hround hrun
    exact ⟨hlength, hrange⟩
  refine ⟨⟨hvector, fun values hvalues => ?_⟩, fun hfuel hinnerFuel values =>
    answerLaw_nonZero_ok_ne_zero hround hevp hmodulus hbits hsize hserved hcount contexts hfuel
      hinnerFuel⟩
  rw [← Nat.cast_pow, ← ENat.toENNReal_coe, ← encard_nonZeroVectors hmodulus]
  exact apply_ok_mul_encard hvector (fun values hvalues values' hvalues' =>
    answerLaw_nonZero_ok_eq hround hevp hmodulus hbits hsize hserved hcount contexts hvalues
      hvalues')
    hvalues

end Uniform

theorem generateNonZeroUniformRandomRange_uniform_three :
    IsUniformOnNonZeroVectors 257 3 (answerLaw (paddedStreams (bytesPerValue 257 * 8))
      (generateNonZeroUniformRandomRange roundToDouble (ctrEvp testAes256) 1 1 3 257)) :=
  (generateNonZeroUniformRandomRange_uniform isDoubleRounding_roundToDouble testEvp_isAes256Ctr
    (show (1 : UInt32) < 257 by decide) (by decide) (show (0 : Int64) ≤ 3 by decide)
    (by decide +kernel) (by decide +kernel) (paddedStreams (bytesPerValue 257 * 8))).1

end AnySketchCorrectness
