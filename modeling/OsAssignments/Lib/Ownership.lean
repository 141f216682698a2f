import Mathlib

/-!
# References that own what they name

Places hold references to resources; `null` is the reference to nothing.  `Owned` says
that every resource referred to is in use and that no two places refer to the same one,
so that giving up a place's reference may free the resource.

* `Owned.adopt` — places may drop their reference, keep it, or take up a fresh resource,
  as long as no other place ends up with the same one.
* `Owned.release` — a resource leaves use together with the one reference to it.
-/

namespace Ownership

variable {π β : Type}

/-- Each valid place that refers to something refers to a resource in use, and to one no
other valid place refers to. -/
structure Owned (null : β) (valid : π → Prop) (used : β → Prop) (ref : π → β) : Prop where
  used_of : ∀ p, valid p → ref p ≠ null → used (ref p)
  inj : ∀ p q, valid p → valid q → ref p ≠ null → ref p = ref q → p = q

namespace Owned

variable {null : β} {valid : π → Prop} {used used' fresh : β → Prop} {ref ref' : π → β}

theorem adopt (h : Owned null valid used ref) (hmono : ∀ b, used b → used' b)
    (hused : ∀ b, fresh b → used' b)
    (hstep : ∀ p, valid p → ref' p = null ∨ ref' p = ref p ∨ fresh (ref' p))
    (hinj : ∀ p q, valid p → valid q → fresh (ref' p) → ref' p = ref' q → p = q) :
    Owned null valid used' ref' := by
  have hkept : ∀ p, valid p → ref' p ≠ null → ¬ fresh (ref' p) → ref' p = ref p :=
    fun p hp hne hf => ((hstep p hp).resolve_left hne).resolve_right hf
  refine ⟨fun p hp hne => ?_, fun p q hp hq hne heq => ?_⟩
  · by_cases hf : fresh (ref' p)
    · exact hused _ hf
    · have hsame := hkept p hp hne hf
      rw [hsame] at hne ⊢
      exact hmono _ (h.used_of p hp hne)
  · by_cases hf : fresh (ref' p)
    · exact hinj p q hp hq hf heq
    · have hp' := hkept p hp hne hf
      have hq' := hkept q hq (heq ▸ hne) (heq ▸ hf)
      exact h.inj p q hp hq (hp' ▸ hne) (by rw [← hp', ← hq', heq])

theorem release (h : Owned null valid used ref) {p₀ : π} (hp₀ : valid p₀)
    (hused : ∀ b, used b → b ≠ ref p₀ → used' b)
    (hself : ref' p₀ = null) (hrest : ∀ p, valid p → p ≠ p₀ → ref' p = ref p) :
    Owned null valid used' ref' := by
  have hother : ∀ p, valid p → ref' p ≠ null → p ≠ p₀ := fun p _ hne heq => hne (heq ▸ hself)
  refine ⟨fun p hp hne => ?_, fun p q hp hq hne heq => ?_⟩
  · have hpne := hother p hp hne
    have hsame := hrest p hp hpne
    rw [hsame] at hne ⊢
    exact hused _ (h.used_of p hp hne) fun heq => hpne (h.inj p p₀ hp hp₀ hne heq)
  · have hp' := hrest p hp (hother p hp hne)
    have hq' := hrest q hq (hother q hq (heq ▸ hne))
    exact h.inj p q hp hq (hp' ▸ hne) (by rw [← hp', ← hq', heq])

end Owned

end Ownership
