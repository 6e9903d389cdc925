import Mathlib.Probability.Distributions.Uniform

/-!
# Uniform masks

In a finite commutative group a uniform mask hides what it is subtracted from: the difference is
uniform again, whatever the secret.
-/

namespace Masking

open scoped ENNReal

variable {α β : Type} [Fintype α] [Nonempty α] [Fintype β] [Nonempty β]

theorem map_uniformOfFintype (e : α ≃ β) :
    (PMF.uniformOfFintype α).map e = PMF.uniformOfFintype β := by
  ext b
  rw [PMF.map_apply, tsum_eq_single (e.symm b)]
  · rw [if_pos (e.apply_symm_apply b).symm, PMF.uniformOfFintype_apply,
      PMF.uniformOfFintype_apply, Fintype.card_congr e]
  · intro a hne
    rw [if_neg]
    rintro rfl
    exact hne (e.symm_apply_apply a).symm

variable {G : Type} [AddCommGroup G] [Fintype G]

theorem map_sub_uniformOfFintype (secret : G) :
    (PMF.uniformOfFintype G).map (fun mask => secret - mask) = PMF.uniformOfFintype G :=
  map_uniformOfFintype (Equiv.subLeft secret)

/-- **Masked values say nothing about the secret.** Whatever is computed from the difference has the
same distribution for any two secrets. -/
theorem map_masked_eq {γ : Type} (publish : G → γ) (secret secret' : G) :
    (PMF.uniformOfFintype G).map (fun mask => publish (secret - mask))
      = (PMF.uniformOfFintype G).map (fun mask => publish (secret' - mask)) := by
  have hpublish : ∀ secret : G, (PMF.uniformOfFintype G).map (fun mask => publish (secret - mask))
      = (PMF.uniformOfFintype G).map publish := by
    intro secret
    calc (PMF.uniformOfFintype G).map (fun mask => publish (secret - mask))
        = ((PMF.uniformOfFintype G).map fun mask => secret - mask).map publish :=
          (PMF.map_comp _ _ _).symm
      _ = (PMF.uniformOfFintype G).map publish := by rw [map_sub_uniformOfFintype]
  rw [hpublish secret, hpublish secret']

end Masking
