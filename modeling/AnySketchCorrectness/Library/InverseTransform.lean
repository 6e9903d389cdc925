import AnySketchCorrectness.Library.RandomSource
import Mathlib.MeasureTheory.Measure.Lebesgue.Basic
import Mathlib.Probability.CDF

/-!
# Samples from uniform numbers

A stream of independent uniform numbers is a source for every distribution: a number is turned into
the least value that is exceeded with no larger chance.
-/

namespace InverseTransform

open MeasureTheory ProbabilityTheory RandomSource

variable {α θ : Type} [MeasurableSpace θ]

/-! ### Streams of uniform numbers -/

noncomputable def uniform : Measure ℝ :=
  volume.restrict (Set.Ioo 0 1)

instance : IsProbabilityMeasure uniform :=
  ⟨by rw [uniform, Measure.restrict_apply_univ, Real.volume_Ioo, sub_zero, ENNReal.ofReal_one]⟩

def cons (x : ℝ × (ℕ → ℝ)) : ℕ → ℝ
  | 0 => x.1
  | i + 1 => x.2 i

theorem measurable_cons : Measurable cons := by
  refine measurable_pi_lambda _ fun i => ?_
  cases i with
  | zero => exact measurable_fst
  | succ i => exact (measurable_pi_apply i).comp measurable_snd

/-- The law of a stream whose first numbers are uniform. -/
noncomputable def stream : ℕ → Measure (ℕ → ℝ)
  | 0 => Measure.dirac 0
  | n + 1 => (uniform.prod (stream n)).map cons

instance isProbabilityMeasure_stream (n : ℕ) : IsProbabilityMeasure (stream n) := by
  induction n with
  | zero => exact inferInstanceAs (IsProbabilityMeasure (Measure.dirac 0))
  | succ n ih => exact Measure.isProbabilityMeasure_map measurable_cons.aemeasurable

/-- A value that is computed from the next number. -/
def readNumber (f : ℝ → α) (numbers : ℕ → ℝ) : α × (ℕ → ℝ) :=
  (f (numbers 0), fun i => numbers (i + 1))

theorem measurable_tail : Measurable fun (numbers : ℕ → ℝ) i => numbers (i + 1) :=
  measurable_pi_lambda _ fun i => measurable_pi_apply (i + 1)

theorem independentDrawFrom_readNumber {f : ℝ → θ} (hf : Measurable f) (n : ℕ) :
    IndependentDrawFrom (stream (n + 1)) (stream n) (readNumber f) (uniform.map f) := by
  have hread : Measurable (readNumber f) :=
    (hf.comp (measurable_pi_apply 0)).prodMk measurable_tail
  refine ⟨hread, ?_⟩
  calc (stream (n + 1)).map (readNumber f)
      = (uniform.prod (stream n)).map (Prod.map f id) := Measure.map_map hread measurable_cons
    _ = (uniform.map f).prod (stream n) := by
        rw [← Measure.map_prod_map _ _ hf measurable_id, Measure.map_id]

theorem draws_readNumber {f : ℝ → α} {law : PMF α} (hf : ∀ a, MeasurableSet {u | f u = a})
    (hlaw : ∀ a, uniform {u | f u = a} = law a) : Draws stream (readNumber f) law := by
  intro n
  have hmeasurable : ∀ a (rest : Set (ℕ → ℝ)), MeasurableSet rest →
      MeasurableSet {numbers | (readNumber f numbers).1 = a ∧ (readNumber f numbers).2 ∈ rest} := by
    intro a rest hrest
    exact (measurable_pi_apply 0 (hf a)).inter (measurable_tail hrest)
  refine ⟨hmeasurable, fun a rest hrest => ?_⟩
  rw [stream, Measure.map_apply measurable_cons (hmeasurable a rest hrest), ← hlaw,
    ← Measure.prod_prod]
  rfl

theorem uniform_Iic {c : ℝ} (hle : c ≤ 1) :
    uniform (Set.Iic c) = ENNReal.ofReal c := by
  rw [uniform, Measure.restrict_congr_set Ioo_ae_eq_Ioc, Measure.restrict_apply measurableSet_Iic,
    Set.inter_comm, Set.Ioc_inter_Iic, min_eq_right hle, Real.volume_Ioc, sub_zero]

theorem ae_mem_Ioo : ∀ᵐ u ∂uniform, u ∈ Set.Ioo (0 : ℝ) 1 :=
  ae_restrict_mem measurableSet_Ioo

/-! ### Real values -/

section Real

variable (μ : Measure ℝ)

noncomputable def quantile (u : ℝ) : ℝ :=
  if u ∈ Set.Ioo 0 1 then sInf {x | u ≤ cdf μ x} else 0

theorem quantile_le_iff {u : ℝ} (hu : u ∈ Set.Ioo 0 1) (x : ℝ) :
    quantile μ u ≤ x ↔ u ≤ cdf μ x := by
  rw [quantile, if_pos hu]
  have hnonempty : {x | u ≤ cdf μ x}.Nonempty := by
    obtain ⟨x, hx⟩ := ((tendsto_cdf_atTop μ).eventually (lt_mem_nhds hu.2)).exists
    exact ⟨x, hx.le⟩
  have hbounded : BddBelow {x | u ≤ cdf μ x} := by
    obtain ⟨b, hb⟩ := ((tendsto_cdf_atBot μ).eventually (gt_mem_nhds hu.1)).exists
    refine ⟨b, fun y hy => ?_⟩
    by_contra hlt
    exact absurd (hy.trans (monotone_cdf μ (not_le.mp hlt).le)) (not_le.mpr hb)
  constructor
  · intro hle
    rw [← (cdf μ).iInf_Ioi_eq x]
    have : Nonempty (Set.Ioi x) := ⟨⟨x + 1, by simp⟩⟩
    refine le_ciInf fun y => ?_
    obtain ⟨s, hs, hlt⟩ := exists_lt_of_csInf_lt hnonempty (hle.trans_lt y.2)
    exact hs.trans (monotone_cdf μ hlt.le)
  · exact fun hle => csInf_le hbounded hle

theorem measurable_quantile : Measurable (quantile μ) := by
  refine measurable_of_Iic fun x => ?_
  have hset : Set.preimage (quantile μ) (Set.Iic x)
      = (Set.Ioo 0 1 ∩ Set.Iic (cdf μ x)) ∪ ((Set.Ioo (0 : ℝ) 1)ᶜ ∩ {_u | 0 ≤ x}) := by
    ext u
    rw [Set.mem_preimage, Set.mem_Iic, Set.mem_union, Set.mem_inter_iff, Set.mem_inter_iff,
      Set.mem_compl_iff, Set.mem_Iic, Set.mem_ofPred_eq]
    by_cases hu : u ∈ Set.Ioo 0 1
    · rw [quantile_le_iff μ hu]
      tauto
    · rw [quantile, if_neg hu]
      tauto
  rw [hset]
  exact (measurableSet_Ioo.inter measurableSet_Iic).union
    (measurableSet_Ioo.compl.inter (MeasurableSet.const _))

theorem uniform_map_quantile [IsProbabilityMeasure μ] : uniform.map (quantile μ) = μ := by
  refine Measure.ext_of_Iic _ _ fun x => ?_
  calc uniform.map (quantile μ) (Set.Iic x) = uniform (Set.Iic (cdf μ x)) := by
        rw [Measure.map_apply (measurable_quantile μ) measurableSet_Iic]
        refine measure_congr (ae_mem_Ioo.mono fun u hu => ?_)
        exact propext (quantile_le_iff μ hu x)
    _ = ENNReal.ofReal (cdf μ x) := uniform_Iic (cdf_le_one μ x)
    _ = μ (Set.Iic x) := ofReal_cdf μ x

end Real

/-! ### Counts -/

section Counts

variable (mass : ℕ → ℝ)

noncomputable def countQuantile (u : ℝ) : ℕ :=
  sInf {k | u ≤ ∑ i ∈ Finset.range (k + 1), mass i}

theorem countQuantile_le_iff {u : ℝ} (k : ℕ) :
    countQuantile mass u ≤ k ↔ (∃ j ≤ k, u ≤ ∑ i ∈ Finset.range (j + 1), mass i) ∨
      ∀ j, ∑ i ∈ Finset.range (j + 1), mass i < u := by
  rw [countQuantile]
  rcases Set.eq_empty_or_nonempty {k | u ≤ ∑ i ∈ Finset.range (k + 1), mass i} with
    hempty | hnonempty
  · have hnone : ∀ j, ∑ i ∈ Finset.range (j + 1), mass i < u := fun j =>
      not_le.mp fun hle => Set.eq_empty_iff_forall_notMem.mp hempty j hle
    rw [hempty, Nat.sInf_empty]
    exact ⟨fun _ => Or.inr hnone, fun _ => k.zero_le⟩
  · constructor
    · exact fun hle => Or.inl ⟨_, hle, Nat.sInf_mem hnonempty⟩
    · rintro (⟨j, hjk, hj⟩ | hnone)
      · exact (Nat.sInf_le hj).trans hjk
      · obtain ⟨j, hj⟩ := hnonempty
        exact absurd hj (not_le.mpr (hnone j))

/-- Jointly in the number and in a parameter of the distribution. -/
theorem measurableSet_countQuantile_eq {masses : θ → ℕ → ℝ}
    (hmasses : ∀ k, Measurable fun t => masses t k) (k : ℕ) :
    MeasurableSet {x : θ × ℝ | countQuantile (masses x.1) x.2 = k} := by
  have hsum : ∀ j, Measurable fun x : θ × ℝ => ∑ i ∈ Finset.range (j + 1), masses x.1 i :=
    fun j => Finset.measurable_fun_sum _ fun i _ => (hmasses i).comp measurable_fst
  have hle : ∀ k, MeasurableSet {x : θ × ℝ | countQuantile (masses x.1) x.2 ≤ k} := by
    intro k
    have hset : {x : θ × ℝ | countQuantile (masses x.1) x.2 ≤ k}
        = (⋃ j ∈ Set.Iic k, {x | x.2 ≤ ∑ i ∈ Finset.range (j + 1), masses x.1 i})
          ∪ ⋂ j, {x | ∑ i ∈ Finset.range (j + 1), masses x.1 i < x.2} := by
      ext x
      simp [countQuantile_le_iff]
    rw [hset]
    exact (MeasurableSet.biUnion (Set.to_countable _) fun j _ =>
      measurableSet_le measurable_snd (hsum j)).union
      (MeasurableSet.iInter fun j => measurableSet_lt (hsum j) measurable_snd)
  cases k with
  | zero => simpa only [Nat.le_zero] using hle 0
  | succ k =>
      have hset : {x : θ × ℝ | countQuantile (masses x.1) x.2 = k + 1}
          = {x | countQuantile (masses x.1) x.2 ≤ k + 1}
            \ {x | countQuantile (masses x.1) x.2 ≤ k} := by
        ext x
        simp only [Set.mem_ofPred_eq, Set.mem_sdiff]
        omega
      rw [hset]
      exact (hle (k + 1)).diff (hle k)

variable {mass}

theorem measurableSet_countQuantile (k : ℕ) : MeasurableSet {u | countQuantile mass u = k} :=
  measurable_prodMk_left (x := ()) (@measurableSet_countQuantile_eq Unit _ (fun _ => mass)
    (fun _ => measurable_const) k)

theorem uniform_countQuantile_le (hnonneg : ∀ k, 0 ≤ mass k) (hsum : HasSum mass 1) (k : ℕ) :
    uniform {u | countQuantile mass u ≤ k}
      = ENNReal.ofReal (∑ i ∈ Finset.range (k + 1), mass i) := by
  rw [← uniform_Iic (sum_le_hasSum _ (fun i _ => hnonneg i) hsum)]
  refine measure_congr (ae_mem_Ioo.mono fun u hu => propext ?_)
  change countQuantile mass u ≤ k ↔ u ≤ ∑ i ∈ Finset.range (k + 1), mass i
  rw [countQuantile_le_iff]
  constructor
  · rintro (⟨j, hjk, hj⟩ | hnone)
    · exact hj.trans (Finset.sum_le_sum_of_subset_of_nonneg
        (Finset.range_subset_range.mpr (by omega)) fun i _ _ => hnonneg i)
    · have hlimit : (1 : ℝ) ≤ u :=
        le_of_tendsto' ((Filter.tendsto_add_atTop_iff_nat 1).mpr hsum.tendsto_sum_nat)
          fun j => (hnone j).le
      exact absurd hu.2 (not_lt.mpr hlimit)
  · exact fun hle => Or.inl ⟨k, le_rfl, hle⟩

theorem uniform_countQuantile_eq (hnonneg : ∀ k, 0 ≤ mass k) (hsum : HasSum mass 1) (k : ℕ) :
    uniform {u | countQuantile mass u = k} = ENNReal.ofReal (mass k) := by
  cases k with
  | zero =>
      have hzero := uniform_countQuantile_le hnonneg hsum 0
      simpa only [Nat.le_zero, zero_add, Finset.sum_range_one] using hzero
  | succ k =>
      have hset : {u | countQuantile mass u ≤ k + 1}
          = {u | countQuantile mass u ≤ k} ∪ {u | countQuantile mass u = k + 1} := by
        ext u
        simp only [Set.mem_ofPred_eq, Set.mem_union]
        omega
      have hdisjoint : Disjoint {u | countQuantile mass u ≤ k}
          {u | countQuantile mass u = k + 1} := by
        refine Set.disjoint_left.mpr fun u hle heq => ?_
        simp only [Set.mem_ofPred_eq] at hle heq
        omega
      have hsplit := uniform_countQuantile_le hnonneg hsum (k + 1)
      rw [hset, measure_union hdisjoint (measurableSet_countQuantile (k + 1)),
        uniform_countQuantile_le hnonneg hsum k, Finset.sum_range_succ _ (k + 1),
        ENNReal.ofReal_add (Finset.sum_nonneg fun i _ => hnonneg i) (hnonneg _)] at hsplit
      exact (ENNReal.add_right_inj ENNReal.ofReal_ne_top).mp hsplit

noncomputable def countLaw (hnonneg : ∀ k, 0 ≤ mass k) (hsum : HasSum mass 1) : PMF ℕ :=
  ⟨fun k => ENNReal.ofReal (mass k), by
    rw [← ENNReal.ofReal_one, ← hsum.tsum_eq, ENNReal.ofReal_tsum_of_nonneg hnonneg hsum.summable]
    exact ENNReal.summable.hasSum⟩

theorem draws_countQuantile (hnonneg : ∀ k, 0 ≤ mass k) (hsum : HasSum mass 1) :
    Draws stream (readNumber (countQuantile mass)) (countLaw hnonneg hsum) :=
  draws_readNumber measurableSet_countQuantile (uniform_countQuantile_eq hnonneg hsum)

end Counts

end InverseTransform
