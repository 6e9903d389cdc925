import AnySketchCorrectness.Library.Attempts
import Mathlib.MeasureTheory.Measure.Prod
import Mathlib.Probability.ProbabilityMassFunction.Constructions

/-!
# Programs that draw from a random source

The state of a program is a random source from which values are drawn one after the other, each
independent of what is left of the source. If the state is random, what the program answers has a
law, which is found by following its draws.
-/

namespace RandomSource

open StateInvariant Attempts MeasureTheory
open scoped ENNReal

variable {σ ε α β : Type} [MeasurableSpace σ]

/-- A draw from a source with the law `before` has the given law, and what is left of the source has
the law `after`, independently of the value drawn. -/
structure IndependentDraw (before after : Measure σ) (draw : σ → α × σ) (law : PMF α) : Prop where
  measurable : ∀ a (rest : Set σ), MeasurableSet rest →
    MeasurableSet {s | (draw s).1 = a ∧ (draw s).2 ∈ rest}
  apply : ∀ a (rest : Set σ), MeasurableSet rest →
    before {s | (draw s).1 = a ∧ (draw s).2 ∈ rest} = law a * after rest

/-- `source n` is the law of a source that is good for `n` draws. -/
def Draws (source : ℕ → Measure σ) (draw : σ → α × σ) (law : PMF α) : Prop :=
  ∀ n, IndependentDraw (source (n + 1)) (source n) draw law

structure HasLaw (source : Measure σ) (program : EStateM ε σ α) (law : PMF (Except ε α)) :
    Prop where
  measurable : ∀ result, MeasurableSet {s | answer (program.run s) = result}
  apply : ∀ result, source {s | answer (program.run s) = result} = law result

section HasLaw

variable {source : Measure σ} [IsProbabilityMeasure source]

theorem hasLaw_of_answer_eq {program : EStateM ε σ α} {result : Except ε α}
    (hanswer : ∀ s, answer (program.run s) = result) :
    HasLaw source program (PMF.pure result) := by
  have hset : ∀ result', {s | answer (program.run s) = result'} = {_s | result = result'} := by
    intro result'
    ext s
    rw [Set.mem_ofPred_eq, Set.mem_ofPred_eq, hanswer]
  constructor
  · intro result'
    rw [hset]
    exact MeasurableSet.const _
  · intro result'
    classical
    rw [hset, PMF.pure_apply]
    by_cases heq : result = result'
    · simp [heq]
    · simp [heq, Ne.symm heq]

theorem hasLaw_pure (a : α) :
    HasLaw source (pure a : EStateM ε σ α) (PMF.pure (.ok a)) :=
  hasLaw_of_answer_eq fun _ => rfl

theorem hasLaw_throw (e : ε) :
    HasLaw source (throw e : EStateM ε σ α) (PMF.pure (.error e)) :=
  hasLaw_of_answer_eq fun _ => rfl

/-- Only countably many answers are possible, so the chances of the single answers decide about
every event. -/
theorem HasLaw.apply_event {program : EStateM ε σ α} {law : PMF (Except ε α)}
    (hlaw : HasLaw source program law) (event : Set (Except ε α)) :
    source {s | answer (program.run s) ∈ event} = law.toOuterMeasure event := by
  let answers : Set (Except ε α) → Set σ := fun results => {s | answer (program.run s) ∈ results}
  have hcountable : ∀ results : Set (Except ε α), results ⊆ law.support →
      source (answers results) = law.toOuterMeasure results ∧
      MeasurableSet (answers results) := by
    intro results hresults
    have hcount : results.Countable := law.support_countable.mono hresults
    have hunion : answers results
        = ⋃ result ∈ results, {s | answer (program.run s) = result} := by
      ext s
      simp [answers]
    constructor
    · rw [hunion, measure_biUnion hcount, PMF.toOuterMeasure_apply, ← tsum_subtype]
      · exact tsum_congr fun result => hlaw.apply result
      · intro result _ result' _ hne
        exact Set.disjoint_left.mpr fun s heq heq' => hne (heq.symm.trans heq')
      · exact fun result _ => hlaw.measurable result
    · rw [hunion]
      exact MeasurableSet.biUnion hcount fun result _ => hlaw.measurable result
  have hnull : source ((answers law.support)ᶜ) = 0 := by
    obtain ⟨hsupport, hmeasurable⟩ := hcountable law.support subset_rfl
    rw [prob_compl_eq_zero_iff hmeasurable, hsupport]
    exact (PMF.toOuterMeasure_apply_eq_one_iff _ _).mpr subset_rfl
  calc source (answers event)
      = source (answers event ∩ answers law.support) :=
        (measure_inter_conull hnull).symm
    _ = source (answers (event ∩ law.support)) := rfl
    _ = law.toOuterMeasure (event ∩ law.support) :=
        (hcountable _ Set.inter_subset_right).1
    _ = law.toOuterMeasure event := PMF.toOuterMeasure_apply_inter_support ..

end HasLaw

section Draw

variable {before after : Measure σ} {draw : σ → α × σ} {law : PMF α}

/-- A draw comes first. -/
theorem hasLaw_draw_bind [Countable α] (hdraw : IndependentDraw before after draw law)
    {next : α → EStateM ε σ β} {nextLaw : α → PMF (Except ε β)}
    (hnext : ∀ a, HasLaw after (next a) (nextLaw a)) :
    HasLaw before (modifyGet draw >>= next) (law.bind nextLaw) := by
  let rest : Except ε β → α → Set σ := fun result a =>
    {s | answer ((next a).run s) = result}
  let first : Except ε β → α → Set σ := fun result a =>
    {s | (draw s).1 = a ∧ (draw s).2 ∈ rest result a}
  have hmeasurable : ∀ result a, MeasurableSet (first result a) := fun result a =>
    hdraw.measurable a _ ((hnext a).measurable result)
  have hunion : ∀ result, {s | answer ((modifyGet draw >>= next : EStateM ε σ β).run s) = result}
      = ⋃ a, first result a := by
    intro result
    ext s
    simp only [Set.mem_iUnion]
    constructor
    · intro heq
      exact ⟨(draw s).1, rfl, heq⟩
    · rintro ⟨a, rfl, heq⟩
      exact heq
  constructor
  · intro result
    rw [hunion]
    exact MeasurableSet.iUnion (hmeasurable result)
  · intro result
    have hdisjoint : Pairwise (Function.onFun Disjoint (first result)) := fun a a' hne =>
      Set.disjoint_left.mpr fun s ha ha' => hne (ha.1.symm.trans ha'.1)
    rw [hunion, measure_iUnion hdisjoint (hmeasurable result), PMF.bind_apply]
    refine tsum_congr fun a => ?_
    rw [← (hnext a).apply result]
    exact hdraw.apply a _ ((hnext a).measurable result)

theorem map_apply_eq_tsum (f : α → β) (b : β) :
    law.map f b = tsum fun a : {a | b = f a} => law a := by
  rw [PMF.map_apply, tsum_subtype]
  rfl

/-- A value that is computed from a drawn one. -/
theorem IndependentDraw.map [Countable α] (hdraw : IndependentDraw before after draw law)
    (f : α → β) :
    IndependentDraw before after (fun s => (f (draw s).1, (draw s).2)) (law.map f) := by
  let first : Set σ → α → Set σ := fun rest a => {s | (draw s).1 = a ∧ (draw s).2 ∈ rest}
  have hunion : ∀ b rest, {s | f (draw s).1 = b ∧ (draw s).2 ∈ rest}
      = ⋃ a ∈ {a | b = f a}, first rest a := by
    intro b rest
    ext s
    simp only [Set.mem_iUnion]
    constructor
    · rintro ⟨rfl, hrest⟩
      exact ⟨(draw s).1, rfl, rfl, hrest⟩
    · rintro ⟨a, rfl, rfl, hrest⟩
      exact ⟨rfl, hrest⟩
  constructor
  · intro b rest hrest
    rw [hunion]
    exact MeasurableSet.biUnion (Set.to_countable _) fun a _ => hdraw.measurable a rest hrest
  · intro b rest hrest
    rw [hunion, measure_biUnion (Set.to_countable _)
      (fun a _ a' _ hne => Set.disjoint_left.mpr fun s ha ha' => hne (ha.1.symm.trans ha'.1))
      fun a _ => hdraw.measurable a rest hrest, map_apply_eq_tsum, ← ENNReal.tsum_mul_right]
    exact tsum_congr fun a => hdraw.apply a rest hrest

/-- Two draws, of which the second may depend on the first, together are one draw. -/
theorem IndependentDraw.bind [Countable α] {between : Measure σ} {drawNext : α → σ → β × σ}
    {nextLaw : α → PMF β} (hdraw : IndependentDraw before between draw law)
    (hnext : ∀ a, IndependentDraw between after (drawNext a) (nextLaw a)) :
    IndependentDraw before after (fun s => drawNext (draw s).1 (draw s).2)
      (law.bind nextLaw) := by
  let remaining : β → Set σ → α → Set σ := fun b rest a =>
    {s | (drawNext a s).1 = b ∧ (drawNext a s).2 ∈ rest}
  let first : β → Set σ → α → Set σ := fun b rest a =>
    {s | (draw s).1 = a ∧ (draw s).2 ∈ remaining b rest a}
  have hunion : ∀ b rest, {s | (drawNext (draw s).1 (draw s).2).1 = b ∧
      (drawNext (draw s).1 (draw s).2).2 ∈ rest} = ⋃ a, first b rest a := by
    intro b rest
    ext s
    simp only [Set.mem_iUnion]
    constructor
    · intro hboth
      exact ⟨(draw s).1, rfl, hboth⟩
    · rintro ⟨a, rfl, hboth⟩
      exact hboth
  have hmeasurable : ∀ b rest, MeasurableSet rest → ∀ a, MeasurableSet (first b rest a) :=
    fun b rest hrest a => hdraw.measurable a _ ((hnext a).measurable b rest hrest)
  constructor
  · intro b rest hrest
    rw [hunion]
    exact MeasurableSet.iUnion (hmeasurable b rest hrest)
  · intro b rest hrest
    have hdisjoint : Pairwise (Function.onFun Disjoint (first b rest)) := fun a a' hne =>
      Set.disjoint_left.mpr fun s ha ha' => hne (ha.1.symm.trans ha'.1)
    rw [hunion, measure_iUnion hdisjoint (hmeasurable b rest hrest), PMF.bind_apply,
      ← ENNReal.tsum_mul_right]
    refine tsum_congr fun a => ?_
    rw [mul_assoc, ← (hnext a).apply b rest hrest]
    exact hdraw.apply a _ ((hnext a).measurable b rest hrest)

theorem bind_map_mk_apply (nextLaw : α → PMF β) (a : α) (b : β) :
    (law.bind fun a => (nextLaw a).map (Prod.mk a)) (a, b) = law a * nextLaw a b := by
  rw [PMF.bind_apply]
  refine (tsum_eq_single a fun a' hne => ?_).trans ?_
  · have hevent : {b' | (a, b) = (a', b')} = ∅ :=
      Set.eq_empty_of_forall_notMem fun b' heq => hne (congrArg Prod.fst heq).symm
    rw [map_apply_eq_tsum, hevent, tsum_empty, mul_zero]
  · have hevent : {b' | (a, b) = (a, b')} = {b} := by
      ext b'
      simp [eq_comm]
    rw [map_apply_eq_tsum, hevent, tsum_singleton]

/-- Only what is possible matters to what follows. -/
theorem bind_congr_support {f g : α → PMF β} (heq : ∀ a ∈ law.support, f a = g a) :
    law.bind f = law.bind g := by
  ext b
  rw [PMF.bind_apply, PMF.bind_apply]
  refine tsum_congr fun a => ?_
  by_cases hpossible : law a = 0
  · rw [hpossible, zero_mul, zero_mul]
  · rw [heq a ((PMF.mem_support_iff _ _).mpr hpossible)]

/-! ### Draws with a parameter that is drawn -/

section Mixture

variable {θ : Type} [MeasurableSpace θ] {drawParameter : σ → θ × σ} {parameterLaw : Measure θ}
  {drawWith : θ → σ → α × σ} {lawWith : θ → PMF α}

/-- Like `IndependentDraw`, for a value that need not be discrete. -/
structure IndependentDrawFrom (before after : Measure σ) (draw : σ → θ × σ) (law : Measure θ) :
    Prop where
  measurable : Measurable draw
  map_eq : before.map draw = law.prod after

/-- The two draws together are one draw, from the mixture of the laws. -/
theorem independentDraw_mixture {between : Measure σ} [IsProbabilityMeasure between]
    [IsProbabilityMeasure after] [SFinite parameterLaw]
    (hparameter : IndependentDrawFrom before between drawParameter parameterLaw)
    (hmeasurable : ∀ a (rest : Set σ), MeasurableSet rest →
      MeasurableSet {x : θ × σ | (drawWith x.1 x.2).1 = a ∧ (drawWith x.1 x.2).2 ∈ rest})
    (hdraw : ∀ᵐ t ∂parameterLaw, IndependentDraw between after (drawWith t) (lawWith t))
    (hlaw : ∀ a, ∫⁻ t, lawWith t a ∂parameterLaw = law a) :
    IndependentDraw before after
      (fun s => drawWith (drawParameter s).1 (drawParameter s).2) law := by
  constructor
  · intro a rest hrest
    exact hparameter.measurable (hmeasurable a rest hrest)
  · intro a rest hrest
    let both : Set (θ × σ) := {x | (drawWith x.1 x.2).1 = a ∧ (drawWith x.1 x.2).2 ∈ rest}
    have hboth : MeasurableSet both := hmeasurable a rest hrest
    calc before (Set.preimage drawParameter both) = (parameterLaw.prod between) both := by
          rw [← hparameter.map_eq, Measure.map_apply hparameter.measurable hboth]
      _ = ∫⁻ t, between (Set.preimage (Prod.mk t) both) ∂parameterLaw := Measure.prod_apply hboth
      _ = ∫⁻ t, lawWith t a * after rest ∂parameterLaw :=
          lintegral_congr_ae (hdraw.mono fun t ht => ht.apply a rest hrest)
      _ = law a * after rest := by
          rw [lintegral_mul_const' _ _ (measure_ne_top _ _), hlaw]

theorem lintegral_map_apply [Countable α] {f : α → β}
    (hmeasurable : ∀ a, Measurable fun t => lawWith t a)
    (hlaw : ∀ a, ∫⁻ t, lawWith t a ∂parameterLaw = law a) (b : β) :
    ∫⁻ t, (lawWith t).map f b ∂parameterLaw = law.map f b := by
  simp only [map_apply_eq_tsum]
  rw [lintegral_tsum fun a : {a | b = f a} => (hmeasurable a).aemeasurable]
  exact tsum_congr fun a => hlaw a

end Mixture

/-! ### Attempts -/

/-- What follows a value; an error ends the program. -/
noncomputable def onOk (next : α → PMF (Except ε β)) : Except ε α → PMF (Except ε β)
  | .ok a => next a
  | .error e => PMF.pure (.error e)

noncomputable def firstAcceptedLaw (law : PMF α) (accept : α → Bool) (exhausted : ε) :
    ℕ → PMF (Except ε α)
  | 0 => PMF.pure (.error exhausted)
  | attempts + 1 => law.bind fun a =>
      if accept a then PMF.pure (.ok a) else firstAcceptedLaw law accept exhausted attempts

/-- Attempts use up an unknown number of draws, so what follows has to have one law for every
number of draws that can be left. -/
theorem hasLaw_firstAccepted_bind [Countable α] {source : ℕ → Measure σ}
    [∀ n, IsProbabilityMeasure (source n)]
    (hdraws : Draws source draw law) (accept : α → Bool) (exhausted : ε)
    {next : α → EStateM ε σ β} {nextLaw : α → PMF (Except ε β)} {n : ℕ}
    (hnext : ∀ a m, n ≤ m → HasLaw (source m) (next a) (nextLaw a)) (attempts : ℕ) {m : ℕ}
    (hm : n + attempts ≤ m) :
    HasLaw (source m) (firstAccepted (modifyGet draw) accept exhausted attempts >>= next)
      ((firstAcceptedLaw law accept exhausted attempts).bind (onOk nextLaw)) := by
  induction attempts generalizing m with
  | zero =>
      rw [firstAcceptedLaw, PMF.pure_bind]
      exact hasLaw_throw exhausted
  | succ attempts ih =>
      obtain ⟨m, rfl⟩ := Nat.exists_eq_succ_of_ne_zero (show m ≠ 0 by omega)
      have hprogram : firstAccepted (modifyGet draw) accept exhausted (attempts + 1) >>= next
          = modifyGet draw >>= fun a =>
              if accept a then next a
              else firstAccepted (modifyGet draw) accept exhausted attempts >>= next := by
        rw [firstAccepted, bind_assoc]
        congr 1
        funext a
        split
        · exact pure_bind a next
        · rfl
      rw [hprogram, firstAcceptedLaw, PMF.bind_bind]
      refine hasLaw_draw_bind (hdraws m) fun a => ?_
      split
      · rw [PMF.pure_bind]
        exact hnext a m (by omega)
      · exact ih (by omega)

end Draw

/-! ### Chances after attempts -/

section Chances

variable (law : PMF α) (accept : α → Bool) (exhausted : ε)

/-- The chance that an attempt is rejected. -/
noncomputable def rejection : ℝ≥0∞ :=
  law.toOuterMeasure {a | accept a = false}

theorem firstAcceptedLaw_succ_apply (attempts : ℕ) (result : Except ε α) :
    firstAcceptedLaw law accept exhausted (attempts + 1) result
      = law.toOuterMeasure {a | accept a = true ∧ result = .ok a}
        + rejection law accept * firstAcceptedLaw law accept exhausted attempts result := by
  classical
  rw [rejection, PMF.toOuterMeasure_apply, PMF.toOuterMeasure_apply, ← ENNReal.tsum_mul_right,
    ← ENNReal.tsum_add, firstAcceptedLaw, PMF.bind_apply]
  refine tsum_congr fun a => ?_
  by_cases haccept : accept a = true
  · simp [haccept, PMF.pure_apply, Set.indicator_apply]
  · simp [haccept]

theorem firstAcceptedLaw_ok {a : α} (haccept : accept a = true) (attempts : ℕ) :
    firstAcceptedLaw law accept exhausted attempts (.ok a)
      = law a * ∑ i ∈ Finset.range attempts, rejection law accept ^ i := by
  induction attempts with
  | zero =>
      rw [firstAcceptedLaw, Finset.range_zero, Finset.sum_empty, mul_zero]
      exact PMF.pure_apply_of_ne _ _ (by rintro ⟨⟩)
  | succ attempts ih =>
      have hevent : {b | accept b = true ∧ (.ok a : Except ε α) = .ok b} = {a} := by
        ext b
        rw [Set.mem_singleton_iff]
        constructor
        · rintro ⟨-, hb⟩
          exact (Except.ok.inj hb).symm
        · rintro rfl
          exact ⟨haccept, rfl⟩
      calc firstAcceptedLaw law accept exhausted (attempts + 1) (.ok a)
          = law a + rejection law accept
              * (law a * ∑ i ∈ Finset.range attempts, rejection law accept ^ i) := by
            rw [firstAcceptedLaw_succ_apply, hevent, PMF.toOuterMeasure_apply_singleton, ih]
        _ = law a * (rejection law accept * ∑ i ∈ Finset.range attempts, rejection law accept ^ i
              + 1) := by ring
        _ = law a * ∑ i ∈ Finset.range (attempts + 1), rejection law accept ^ i := by
            rw [Finset.sum_range_succ', Finset.mul_sum, pow_zero]
            simp only [pow_succ']

/-- Nothing else comes out, but for the one error. -/
theorem firstAcceptedLaw_eq_zero {result : Except ε α} (hne : result ≠ .error exhausted)
    (hok : ∀ a, accept a = true → result ≠ .ok a) (attempts : ℕ) :
    firstAcceptedLaw law accept exhausted attempts result = 0 := by
  induction attempts with
  | zero => exact PMF.pure_apply_of_ne _ _ hne
  | succ attempts ih =>
      have hevent : {b | accept b = true ∧ result = .ok b} = ∅ :=
        Set.eq_empty_of_forall_notMem fun b hb => hok b hb.1 hb.2
      rw [firstAcceptedLaw_succ_apply, ih, mul_zero, add_zero, hevent,
        MeasureTheory.measure_empty]

theorem firstAcceptedLaw_error (attempts : ℕ) :
    firstAcceptedLaw law accept exhausted attempts (.error exhausted)
      = rejection law accept ^ attempts := by
  induction attempts with
  | zero => exact (PMF.pure_apply_self _).trans (pow_zero _).symm
  | succ attempts ih =>
      have hevent : {a | accept a = true ∧ (.error exhausted : Except ε α) = .ok a} = ∅ :=
        Set.eq_empty_of_forall_notMem fun a ha => by cases ha.2
      rw [firstAcceptedLaw_succ_apply, ih, hevent, MeasureTheory.measure_empty, zero_add, pow_succ']

/-- The chance that an attempt is accepted. -/
noncomputable def acceptance : ℝ≥0∞ :=
  law.toOuterMeasure {a | accept a = true}

theorem acceptance_add_rejection : acceptance law accept + rejection law accept = 1 := by
  rw [acceptance, rejection, PMF.toOuterMeasure_apply, PMF.toOuterMeasure_apply,
    ← ENNReal.tsum_add, ← law.tsum_coe]
  refine tsum_congr fun a => ?_
  by_cases haccept : accept a = true
  · simp [haccept]
  · simp [haccept]

theorem acceptance_mul_geometric (attempts : ℕ) :
    acceptance law accept * ∑ i ∈ Finset.range attempts, rejection law accept ^ i
      = 1 - rejection law accept ^ attempts := by
  have hne : rejection law accept ^ attempts ≠ ⊤ := by
    refine ENNReal.pow_ne_top (ne_top_of_le_ne_top ENNReal.one_ne_top ?_)
    rw [← acceptance_add_rejection law accept]
    exact le_add_self
  refine ENNReal.eq_sub_of_add_eq hne ?_
  clear hne
  induction attempts with
  | zero => rw [Finset.range_zero, Finset.sum_empty, mul_zero, zero_add, pow_zero]
  | succ attempts ih =>
      calc acceptance law accept * ∑ i ∈ Finset.range (attempts + 1), rejection law accept ^ i
            + rejection law accept ^ (attempts + 1)
          = acceptance law accept * ∑ i ∈ Finset.range attempts, rejection law accept ^ i
            + (acceptance law accept + rejection law accept)
              * rejection law accept ^ attempts := by
            rw [Finset.sum_range_succ, pow_succ']
            ring
        _ = 1 := by rw [acceptance_add_rejection, one_mul, ih]

/-- **Rejection sampling.** If the accepted values have chances in proportion to their weights, a
value comes out with a chance in proportion to its weight, unless the attempts are used up. -/
theorem firstAcceptedLaw_ok_of_proportional {accepted : Finset α}
    (hmem : ∀ a, a ∈ accepted ↔ accept a = true) {weight : α → ℝ} (hnonneg : ∀ a, 0 ≤ weight a)
    (htotal : 0 < ∑ a ∈ accepted, weight a) {scale : ℝ≥0∞}
    (hlaw : ∀ a ∈ accepted, law a = scale * ENNReal.ofReal (weight a)) {a : α}
    (ha : a ∈ accepted) (attempts : ℕ) :
    firstAcceptedLaw law accept exhausted attempts (.ok a)
      = (1 - rejection law accept ^ attempts)
        * ENNReal.ofReal (weight a / ∑ b ∈ accepted, weight b) := by
  have hacceptance : acceptance law accept
      = scale * ENNReal.ofReal (∑ b ∈ accepted, weight b) := by
    have hevent : {a | accept a = true} = (accepted : Set α) := by
      ext b
      exact (hmem b).symm
    rw [acceptance, hevent, PMF.toOuterMeasure_apply_finset, Finset.sum_congr rfl hlaw,
      ← Finset.mul_sum, ENNReal.ofReal_sum_of_nonneg fun b _ => hnonneg b]
  have hshare : law a
      = acceptance law accept * ENNReal.ofReal (weight a / ∑ b ∈ accepted, weight b) := by
    rw [hlaw a ha, hacceptance, mul_assoc, ← ENNReal.ofReal_mul htotal.le,
      mul_div_cancel₀ _ htotal.ne']
  rw [firstAcceptedLaw_ok law accept exhausted ((hmem a).mp ha), hshare,
    ← acceptance_mul_geometric]
  ring

theorem rejection_lt_one {a : α} (haccept : accept a = true) (hpossible : law a ≠ 0) :
    rejection law accept < 1 := by
  have hpositive : 0 < acceptance law accept := by
    refine (pos_iff_ne_zero.mpr hpossible).trans_le ?_
    rw [acceptance, ← PMF.toOuterMeasure_apply_singleton]
    exact MeasureTheory.measure_mono (Set.singleton_subset_iff.mpr haccept)
  have hne : rejection law accept ≠ ⊤ := by
    refine ne_top_of_le_ne_top ENNReal.one_ne_top ?_
    rw [← acceptance_add_rejection law accept]
    exact le_add_self
  calc rejection law accept < acceptance law accept + rejection law accept :=
        ENNReal.lt_add_right hne hpositive.ne' |>.trans_eq (add_comm _ _)
    _ = 1 := acceptance_add_rejection law accept

end Chances

end RandomSource
