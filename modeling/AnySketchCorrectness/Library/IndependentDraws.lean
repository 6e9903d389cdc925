import Mathlib.Probability.ProbabilityMassFunction.Constructions
import Mathlib.Topology.Algebra.InfiniteSum.ENNReal

/-!
# Independent draws and the values they offer

Draws from one distribution, one after the other. If each draw offers a value or nothing, and the
values are offered with equal chances, then the values that are taken are uniform, whichever
condition is put on the places at which something is offered.
-/

namespace IndependentDraws

open scoped ENNReal

variable {α β : Type}

noncomputable def draws (law : PMF α) : ℕ → PMF (List α)
  | 0 => PMF.pure []
  | n + 1 => law.bind fun a => (draws law n).map (a :: ·)

variable (law : PMF α)

theorem draws_zero : draws law 0 = PMF.pure [] := rfl

theorem draws_succ (n : ℕ) :
    draws law (n + 1) = law.bind fun a => (draws law n).map (a :: ·) := rfl

theorem length_of_mem_support {n : ℕ} {drawn : List α} (hdrawn : drawn ∈ (draws law n).support) :
    drawn.length = n := by
  induction n generalizing drawn with
  | zero =>
      rw [draws_zero, PMF.mem_support_pure_iff] at hdrawn
      rw [hdrawn, List.length_nil]
  | succ n ih =>
      rw [draws_succ, PMF.mem_support_bind_iff] at hdrawn
      obtain ⟨a, -, hdrawn⟩ := hdrawn
      obtain ⟨rest, hrest, rfl⟩ := (PMF.mem_support_map_iff _ _ _).mp hdrawn
      rw [List.length_cons, ih hrest]

theorem mem_support_of_mem {n : ℕ} {drawn : List α} (hdrawn : drawn ∈ (draws law n).support)
    {a : α} (ha : a ∈ drawn) : a ∈ law.support := by
  induction n generalizing drawn with
  | zero =>
      rw [draws_zero, PMF.mem_support_pure_iff] at hdrawn
      rw [hdrawn] at ha
      exact absurd ha List.not_mem_nil
  | succ n ih =>
      rw [draws_succ, PMF.mem_support_bind_iff] at hdrawn
      obtain ⟨first, hfirst, hdrawn⟩ := hdrawn
      obtain ⟨rest, hrest, rfl⟩ := (PMF.mem_support_map_iff _ _ _).mp hdrawn
      rcases List.mem_cons.mp ha with rfl | hmem
      · exact hfirst
      · exact ih hrest hmem

theorem draws_map (f : α → β) (n : ℕ) :
    (draws law n).map (List.map f) = draws (law.map f) n := by
  induction n with
  | zero => exact PMF.pure_map _ _
  | succ n ih =>
      rw [draws_succ, draws_succ, PMF.map_bind, PMF.bind_map]
      congr 1
      funext a
      rw [Function.comp_apply, ← ih, PMF.map_comp, PMF.map_comp]
      rfl

theorem draws_add (m n : ℕ) :
    draws law (m + n) = (draws law m).bind fun front => (draws law n).map (front ++ ·) := by
  induction m with
  | zero =>
      rw [Nat.zero_add, draws_zero, PMF.pure_bind]
      exact (PMF.map_id _).symm
  | succ m ih =>
      rw [Nat.succ_add, draws_succ, draws_succ, PMF.bind_bind]
      congr 1
      funext a
      rw [ih, PMF.map_bind, PMF.bind_map]
      congr 1
      funext front
      exact PMF.map_comp _ _ _

theorem draws_map_take (m n : ℕ) : (draws law (m + n)).map (List.take m) = draws law m := by
  induction m with
  | zero =>
      rw [draws_zero]
      exact PMF.map_const _ _
  | succ m ih =>
      rw [Nat.succ_add, draws_succ, draws_succ, PMF.map_bind]
      congr 1
      funext a
      rw [← ih, PMF.map_comp, PMF.map_comp]
      rfl

/-- Draws can be made in groups of one width. -/
theorem draws_mul (width n : ℕ) :
    draws law (width * n) = (draws (draws law width) n).map List.flatten := by
  induction n with
  | zero =>
      rw [Nat.mul_zero, draws_zero, draws_zero, PMF.pure_map, List.flatten_nil]
  | succ n ih =>
      rw [Nat.mul_succ, Nat.add_comm, draws_add, draws_succ, PMF.map_bind]
      congr 1
      funext group
      rw [ih, PMF.map_comp, PMF.map_comp]
      rfl

theorem toOuterMeasure_draws_succ (n : ℕ) (event : Set (List α)) :
    (draws law (n + 1)).toOuterMeasure event
      = tsum fun a => law a * (draws law n).toOuterMeasure {rest | a :: rest ∈ event} := by
  rw [draws_succ, PMF.toOuterMeasure_bind_apply]
  simp only [PMF.toOuterMeasure_map_apply]
  rfl

/-- The chance of one sequence of draws. -/
theorem draws_apply (n : ℕ) {drawn : List α} (hlength : drawn.length = n) :
    draws law n drawn = (drawn.map law).prod := by
  induction n generalizing drawn with
  | zero =>
      rw [List.eq_nil_of_length_eq_zero hlength]
      exact PMF.pure_apply_self _
  | succ n ih =>
      cases drawn with
      | nil => cases hlength
      | cons a drawn =>
          rw [← PMF.toOuterMeasure_apply_singleton, toOuterMeasure_draws_succ, tsum_eq_single a]
          · have hrest : {rest | a :: rest ∈ ({a :: drawn} : Set (List α))} = {drawn} := by
              simp
            rw [hrest, PMF.toOuterMeasure_apply_singleton, ih (Nat.succ.inj hlength),
              List.map_cons, List.prod_cons]
          · intro b hne
            have hnever : {rest | b :: rest ∈ ({a :: drawn} : Set (List α))} = ∅ := by
              simp [hne]
            rw [hnever, MeasureTheory.measure_empty, mul_zero]

/-- Where all outcomes are equally likely, chances are counts. -/
theorem toOuterMeasure_const {c : ℝ≥0∞} {event : Set α} (hconst : ∀ a ∈ event, law a = c) :
    law.toOuterMeasure event = event.encard * c := by
  calc law.toOuterMeasure event = tsum fun a : event => law a := by
        rw [PMF.toOuterMeasure_apply, tsum_subtype]
    _ = tsum fun _ : event => c := tsum_congr fun a => hconst a a.2
    _ = event.encard * c := ENNReal.tsum_set_const event c

theorem toOuterMeasure_draws_const {c : ℝ≥0∞} (hconst : ∀ a, law a = c) {n : ℕ}
    {event : Set (List α)} (hlength : ∀ drawn ∈ event, drawn.length = n) :
    (draws law n).toOuterMeasure event = event.encard * c ^ n := by
  refine toOuterMeasure_const _ fun drawn hdrawn => ?_
  rw [draws_apply law n (hlength drawn hdrawn), List.map_congr_left fun a _ => hconst a,
    List.map_const', List.prod_replicate, hlength drawn hdrawn]

/-! ### Offers -/

/-- Where something is offered. -/
def offered (offers : List (Option β)) : List Bool :=
  offers.map Option.isSome

/-- The values are offered with equal chances. -/
def Fair (law : PMF (Option β)) (legal : β → Prop) : Prop :=
  ∀ value value', legal value → legal value' → law (some value) = law (some value')

variable {offerLaw : PMF (Option β)} {legal : β → Prop}

/-- The offers meet the condition and begin with these values. -/
def Yields (condition : Set (List Bool)) (values : List β) : Set (List (Option β)) :=
  {offers | offered offers ∈ condition ∧ (offers.filterMap id).take values.length = values}

theorem cons_some_mem_yields {condition : Set (List Bool)} {value value' : β} {values : List β}
    {offers : List (Option β)} :
    some value' :: offers ∈ Yields condition (value :: values)
      ↔ value' = value ∧ offers ∈ Yields {places | true :: places ∈ condition} values := by
  simp [Yields, offered]
  tauto

section Exchange

variable [DecidableEq β] {value value' : β}

theorem apply_exchange (hfair : Fair offerLaw legal) (hvalue : legal value)
    (hvalue' : legal value') (offer : Option β) :
    offerLaw (Equiv.swap (some value) (some value') offer) = offerLaw offer := by
  by_cases hleft : offer = some value
  · rw [hleft, Equiv.swap_apply_left]
    exact hfair value' value hvalue' hvalue
  by_cases hright : offer = some value'
  · rw [hright, Equiv.swap_apply_right]
    exact hfair value value' hvalue hvalue'
  · rw [Equiv.swap_apply_of_ne_of_ne hleft hright]

/-- What follows the exchanged offer is as likely to continue one sequence as the other. -/
theorem toOuterMeasure_exchange {n : ℕ} {values values' : List β}
    (hwhole : ∀ condition,
      (draws offerLaw n).toOuterMeasure (Yields condition (value :: values))
        = (draws offerLaw n).toOuterMeasure (Yields condition (value' :: values')))
    (hrest : ∀ condition, (draws offerLaw n).toOuterMeasure (Yields condition values)
      = (draws offerLaw n).toOuterMeasure (Yields condition values'))
    (condition : Set (List Bool)) (offer : Option β) :
    (draws offerLaw n).toOuterMeasure {rest | offer :: rest ∈ Yields condition (value :: values)}
      = (draws offerLaw n).toOuterMeasure
          {rest | Equiv.swap (some value) (some value') offer :: rest
            ∈ Yields condition (value' :: values')} := by
  cases offer with
  | none =>
      rw [Equiv.swap_apply_of_ne_of_ne (by simp) (by simp)]
      exact hwhole {places | false :: places ∈ condition}
  | some taken =>
      simp only [cons_some_mem_yields]
      by_cases hleft : taken = value
      · rw [hleft, Equiv.swap_apply_left]
        simp only [cons_some_mem_yields, true_and]
        exact hrest _
      have hnever : {rest | taken = value
          ∧ rest ∈ Yields {places | true :: places ∈ condition} values} = ∅ := by simp [hleft]
      rw [hnever]
      congr 1
      by_cases hright : taken = value'
      · rw [hright, Equiv.swap_apply_right]
        simp [cons_some_mem_yields, ← hright, Ne.symm hleft]
      · rw [Equiv.swap_apply_of_ne_of_ne (by simpa using hleft) (by simpa using hright)]
        simp [cons_some_mem_yields, hright]

end Exchange

/-- **The values taken are uniform.** Under any condition on the places of the offers, all sequences
of legal values of one length are equally likely. -/
theorem toOuterMeasure_yields_eq (hfair : Fair offerLaw legal) (n : ℕ)
    (condition : Set (List Bool)) {values values' : List β}
    (hlength : values.length = values'.length)
    (hvalues : ∀ value ∈ values, legal value) (hvalues' : ∀ value ∈ values', legal value) :
    (draws offerLaw n).toOuterMeasure (Yields condition values)
      = (draws offerLaw n).toOuterMeasure (Yields condition values') := by
  classical
  induction n generalizing condition values values' with
  | zero =>
      rw [draws_zero, PMF.toOuterMeasure_pure_apply, PMF.toOuterMeasure_pure_apply]
      have hempty : ([] : List (Option β)) ∈ Yields condition values
          ↔ [] ∈ Yields condition values' := by
        cases values with
        | nil => rw [List.eq_nil_of_length_eq_zero hlength.symm]
        | cons value values =>
            cases values' with
            | nil => cases hlength
            | cons value' values' => simp [Yields]
      rw [if_congr hempty rfl rfl]
  | succ n ih =>
      cases values with
      | nil => rw [List.eq_nil_of_length_eq_zero hlength.symm]
      | cons value values =>
          cases values' with
          | nil => cases hlength
          | cons value' values' =>
              have hwhole := fun condition => ih condition hlength hvalues hvalues'
              rw [List.forall_mem_cons] at hvalues hvalues'
              have hrest := fun condition =>
                ih condition (Nat.succ.inj hlength) hvalues.2 hvalues'.2
              -- exchanging the two first values changes neither the law nor the rest
              rw [toOuterMeasure_draws_succ, toOuterMeasure_draws_succ,
                ← Equiv.tsum_eq (Equiv.swap (some value) (some value')) fun offer =>
                  offerLaw offer * (draws offerLaw n).toOuterMeasure
                    {rest | offer :: rest ∈ Yields condition (value' :: values')}]
              refine tsum_congr fun offer => ?_
              rw [apply_exchange hfair hvalues.1 hvalues'.1,
                toOuterMeasure_exchange hwhole hrest]

end IndependentDraws
