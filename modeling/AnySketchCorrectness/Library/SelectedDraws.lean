import AnySketchCorrectness.Library.IndependentDraws

/-!
# Values picked from independent draws

A program reads independent draws and picks the values of some of them. Which ones it picks may
depend on a label of every draw, also of later ones, but not on the values. If the values that can
be picked are equally likely under each label, then all sequences of values are equally likely to be
picked.
-/

namespace IndependentDraws

variable {α β κ γ : Type}

/-- An event, one part for each value of a function. -/
theorem toOuterMeasure_eq_tsum_fiber (law : PMF α) (g : α → γ) (event : Set α) :
    law.toOuterMeasure event
      = tsum fun c => law.toOuterMeasure {a | g a = c ∧ a ∈ event} := by
  classical
  calc law.toOuterMeasure event
      = tsum fun p : Σ c, {a // g a = c} => event.indicator law p.2 := by
        rw [PMF.toOuterMeasure_apply]
        exact ((Equiv.sigmaFiberEquiv g).tsum_eq _).symm
    _ = tsum fun c => tsum fun a : {a // g a = c} => event.indicator law a := ENNReal.tsum_sigma' _
    _ = tsum fun c => law.toOuterMeasure {a | g a = c ∧ a ∈ event} := by
        refine tsum_congr fun c => ?_
        rw [PMF.toOuterMeasure_apply]
        refine (tsum_subtype {a | g a = c} (event.indicator law)).trans (tsum_congr fun a => ?_)
        by_cases hg : g a = c
        · by_cases ha : a ∈ event
          · simp [hg, ha]
          · simp [ha]
        · simp [hg]

/-- The values at the places that a mask marks. -/
def pick (value : α → β) : List Bool → List α → List β
  | true :: mask, a :: drawn => value a :: pick value mask drawn
  | false :: mask, _ :: drawn => pick value mask drawn
  | _, _ => []

@[simp]
theorem pick_nil (value : α → β) (drawn : List α) : pick value [] drawn = [] := rfl

@[simp]
theorem pick_nil_right (value : α → β) (mask : List Bool) : pick value mask [] = [] := by
  cases mask with
  | nil => rfl
  | cons taken mask => cases taken <;> rfl

@[simp]
theorem pick_true (value : α → β) (mask : List Bool) (a : α) (drawn : List α) :
    pick value (true :: mask) (a :: drawn) = value a :: pick value mask drawn := rfl

@[simp]
theorem pick_false (value : α → β) (mask : List Bool) (a : α) (drawn : List α) :
    pick value (false :: mask) (a :: drawn) = pick value mask drawn := rfl

theorem pick_append (value : α → β) {mask : List Bool} {front : List α}
    (hlength : mask.length = front.length) (mask' : List Bool) (back : List α) :
    pick value (mask ++ mask') (front ++ back)
      = pick value mask front ++ pick value mask' back := by
  induction mask generalizing front with
  | nil =>
      rw [List.eq_nil_of_length_eq_zero hlength.symm]
      rfl
  | cons taken mask ih =>
      cases front with
      | nil => cases hlength
      | cons a front =>
          have hrest := ih (Nat.succ.inj hlength)
          cases taken with
          | true => simpa using hrest
          | false => simpa using hrest

theorem length_pick (value : α → β) {mask : List Bool} {drawn : List α}
    (hlength : mask.length = drawn.length) : (pick value mask drawn).length = mask.count true := by
  induction mask generalizing drawn with
  | nil => rfl
  | cons taken mask ih =>
      cases drawn with
      | nil => cases hlength
      | cons a drawn =>
          have hrest := ih (Nat.succ.inj hlength)
          cases taken with
          | true => simpa using hrest
          | false => simpa using hrest

section Fair

variable {law : PMF α} {label : α → κ} {value : α → β} {takeable : κ → Prop} {legal : β → Prop}

/-- Under a label that can be picked, the legal values are equally likely. -/
def FairUnder (law : PMF α) (label : α → κ) (value : α → β) (takeable : κ → Prop)
    (legal : β → Prop) : Prop :=
  ∀ k, takeable k → ∀ v v', legal v → legal v' →
    law.toOuterMeasure {a | label a = k ∧ value a = v}
      = law.toOuterMeasure {a | label a = k ∧ value a = v'}

/-- Only draws with labels that can be picked are marked. -/
def MarksTakeable (takeable : κ → Prop) (labels : List κ) (mask : List Bool) : Prop :=
  ∀ i : ℕ, mask[i]? = some true → ∃ k, labels[i]? = some k ∧ takeable k

theorem marksTakeable_cons {labels : List κ} {mask : List Bool} {k : κ} {taken : Bool}
    (htaken : taken = true → takeable k) (hmarks : MarksTakeable takeable labels mask) :
    MarksTakeable takeable (k :: labels) (taken :: mask)
  | 0, hi => ⟨k, rfl, htaken (Option.some.inj hi)⟩
  | i + 1, hi => hmarks i hi

theorem MarksTakeable.append {labels labels' : List κ} {mask mask' : List Bool}
    (hmarks : MarksTakeable takeable labels mask) (hlength : mask.length = labels.length)
    (hmarks' : MarksTakeable takeable labels' mask') :
    MarksTakeable takeable (labels ++ labels') (mask ++ mask') := by
  intro i hi
  rcases Nat.lt_or_ge i mask.length with hfront | hback
  · rw [List.getElem?_append_left hfront] at hi
    rw [List.getElem?_append_left (hlength ▸ hfront)]
    exact hmarks i hi
  · rw [List.getElem?_append_right hback] at hi
    rw [List.getElem?_append_right (hlength ▸ hback), ← hlength]
    exact hmarks' _ hi

theorem MarksTakeable.tail {labels : List κ} {mask : List Bool} {k : κ} {taken : Bool}
    (hmarks : MarksTakeable takeable (k :: labels) (taken :: mask)) :
    MarksTakeable takeable labels mask := fun i hi => hmarks (i + 1) hi

/-- The draws with these labels whose marked values are these. -/
def Picks (label : α → κ) (value : α → β) (labels : List κ) (mask : List Bool) (values : List β) :
    Set (List α) :=
  {drawn | drawn.map label = labels ∧ pick value mask drawn = values}

theorem toOuterMeasure_draws_cons (law : PMF α) (n : ℕ) {event : Set (List α)} {front : Set α}
    {rest : Set (List α)} (hevent : ∀ a drawn, a :: drawn ∈ event ↔ a ∈ front ∧ drawn ∈ rest) :
    (draws law (n + 1)).toOuterMeasure event
      = law.toOuterMeasure front * (draws law n).toOuterMeasure rest := by
  classical
  rw [toOuterMeasure_draws_succ, PMF.toOuterMeasure_apply law, ← ENNReal.tsum_mul_right]
  refine tsum_congr fun a => ?_
  by_cases ha : a ∈ front
  · simp [hevent, ha]
  · simp [hevent, ha]

theorem toOuterMeasure_picks_false (n : ℕ) (k : κ) (labels : List κ) (mask : List Bool)
    (values : List β) :
    (draws law (n + 1)).toOuterMeasure (Picks label value (k :: labels) (false :: mask) values)
      = law.toOuterMeasure {a | label a = k}
        * (draws law n).toOuterMeasure (Picks label value labels mask values) := by
  apply toOuterMeasure_draws_cons
  intro a drawn
  simp only [Picks, Set.mem_ofPred_eq, List.map_cons, List.cons.injEq, pick_false, and_assoc]

theorem toOuterMeasure_picks_true (n : ℕ) (k : κ) (labels : List κ) (mask : List Bool) (v : β)
    (values : List β) :
    (draws law (n + 1)).toOuterMeasure
        (Picks label value (k :: labels) (true :: mask) (v :: values))
      = law.toOuterMeasure {a | label a = k ∧ value a = v}
        * (draws law n).toOuterMeasure (Picks label value labels mask values) := by
  apply toOuterMeasure_draws_cons
  intro a drawn
  simp only [Picks, Set.mem_ofPred_eq, List.map_cons, List.cons.injEq, pick_true]
  tauto

theorem picks_of_short (k : κ) (labels : List κ) (v : β) (values : List β) :
    Picks label value (k :: labels) [] (v :: values) = ∅ := by
  ext drawn
  simp [Picks]

/-- One sequence of labels. By induction on the labels: an unmarked draw contributes the chance of
its label, and a marked one a chance that is the same for all values. -/
theorem toOuterMeasure_picks_eq (hfair : FairUnder law label value takeable legal) (n : ℕ)
    {labels : List κ} {mask : List Bool} (hmarks : MarksTakeable takeable labels mask)
    {values values' : List β} (hlength : values.length = values'.length)
    (hvalues : ∀ v ∈ values, legal v) (hvalues' : ∀ v ∈ values', legal v) :
    (draws law n).toOuterMeasure (Picks label value labels mask values)
      = (draws law n).toOuterMeasure (Picks label value labels mask values') := by
  induction labels generalizing n mask values values' with
  | nil =>
      have hnever : ∀ {values : List β}, values ≠ [] → Picks label value [] mask values = ∅ := by
        intro values hne
        ext drawn
        simp only [Picks, List.map_eq_nil_iff, Set.mem_ofPred_eq, Set.mem_empty_iff_false,
          iff_false]
        rintro ⟨rfl, hpick⟩
        exact hne (hpick.symm.trans (pick_nil_right value mask))
      cases values with
      | nil => rw [List.eq_nil_of_length_eq_zero hlength.symm]
      | cons v values =>
          cases values' with
          | nil => cases hlength
          | cons v' values' => rw [hnever (List.cons_ne_nil _ _), hnever (List.cons_ne_nil _ _)]
  | cons k labels ih =>
      cases values with
      | nil => rw [List.eq_nil_of_length_eq_zero hlength.symm]
      | cons v values =>
          cases values' with
          | nil => cases hlength
          | cons v' values' =>
              cases mask with
              | nil => rw [picks_of_short, picks_of_short]
              | cons taken mask =>
                  have hrest := hmarks.tail
                  cases n with
                  | zero =>
                      have hnever : ∀ values, ([] : List α)
                          ∉ Picks label value (k :: labels) (taken :: mask) values := by
                        simp [Picks]
                      rw [draws_zero, PMF.toOuterMeasure_pure_apply, PMF.toOuterMeasure_pure_apply,
                        if_neg (hnever _), if_neg (hnever _)]
                  | succ n =>
                      cases taken with
                      | false =>
                          rw [toOuterMeasure_picks_false, toOuterMeasure_picks_false,
                            ih n hrest hlength hvalues hvalues']
                      | true =>
                          obtain ⟨k', hk', htakeable⟩ := hmarks 0 rfl
                          obtain rfl : k = k' := Option.some.inj hk'
                          rw [List.forall_mem_cons] at hvalues hvalues'
                          rw [toOuterMeasure_picks_true, toOuterMeasure_picks_true,
                            hfair k htakeable v v' hvalues.1 hvalues'.1,
                            ih n hrest (Nat.succ.inj hlength) hvalues.2 hvalues'.2]

/-- The labels meet the condition, and the values at the places that they choose are these. -/
def Selects (label : α → κ) (value : α → β) (condition : Set (List κ)) (choose : List κ → List Bool)
    (values : List β) : Set (List α) :=
  {drawn | drawn.map label ∈ condition ∧ pick value (choose (drawn.map label)) drawn = values}

/-- **The values selected are uniform.** Under any condition on the labels, and whichever places
they choose, all sequences of legal values of one length are equally likely. -/
theorem toOuterMeasure_selects_eq (hfair : FairUnder law label value takeable legal) (n : ℕ)
    (condition : Set (List κ)) {choose : List κ → List Bool}
    (hchoose : ∀ labels, MarksTakeable takeable labels (choose labels))
    {values values' : List β} (hlength : values.length = values'.length)
    (hvalues : ∀ v ∈ values, legal v) (hvalues' : ∀ v ∈ values', legal v) :
    (draws law n).toOuterMeasure (Selects label value condition choose values)
      = (draws law n).toOuterMeasure (Selects label value condition choose values') := by
  classical
  have hpart : ∀ (labels : List κ) (values : List β),
      {drawn | drawn.map label = labels ∧ drawn ∈ Selects label value condition choose values}
        = if labels ∈ condition then Picks label value labels (choose labels) values else ∅ := by
    intro labels values
    by_cases hlabels : labels ∈ condition
    · rw [if_pos hlabels]
      ext drawn
      refine and_congr_right fun hlabel => ?_
      rw [Selects, Set.mem_ofPred_eq, hlabel, and_iff_right hlabels]
    · rw [if_neg hlabels]
      ext drawn
      refine iff_of_false ?_ (Set.notMem_empty drawn)
      rintro ⟨rfl, hcondition, -⟩
      exact hlabels hcondition
  rw [toOuterMeasure_eq_tsum_fiber _ (List.map label),
    toOuterMeasure_eq_tsum_fiber _ (List.map label)]
  refine tsum_congr fun labels => ?_
  rw [hpart, hpart]
  by_cases hlabels : labels ∈ condition
  · rw [if_pos hlabels, if_pos hlabels]
    exact toOuterMeasure_picks_eq hfair n (hchoose labels) hlength hvalues hvalues'
  · rw [if_neg hlabels, if_neg hlabels]

end Fair

end IndependentDraws
