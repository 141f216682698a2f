import Mathlib

/-!
# Postconditions of computations that may fail

* `Meets Q E x` — the computation returns a value with `Q`, or fails with an error in `E`.
* `Meets.bind` — the rule for sequences; `Meets.ite` — for branches.
-/

namespace ExceptSpec

variable {ε α β : Type}

/-- A value that is returned has `Q`, an error is in `E`. -/
structure Meets (Q : α → Prop) (E : ε → Prop) (x : Except ε α) : Prop where
  of_ok : ∀ a, x = .ok a → Q a
  of_error : ∀ e, x = .error e → E e

namespace Meets

variable {Q : α → Prop} {R : β → Prop} {E : ε → Prop} {x : Except ε α}

theorem ok {a : α} (h : Q a) : Meets Q E (.ok a) where
  of_ok a' ha' := Except.ok.inj ha' ▸ h
  of_error e he := by cases he

theorem error {e : ε} (h : E e) : Meets Q E (.error e) where
  of_ok a ha := by cases ha
  of_error e' he' := Except.error.inj he' ▸ h

/-- The rule for sequences. -/
theorem bind {f : α → Except ε β} (hx : Meets Q E x) (hf : ∀ a, Q a → Meets R E (f a)) :
    Meets R E (x >>= f) := by
  cases hrun : x with
  | ok a => exact hf a (hx.of_ok a hrun)
  | error e => exact error (hx.of_error e hrun)

/-- The rule for branches. -/
theorem ite {c : Prop} [Decidable c] {y : Except ε α} (hx : c → Meets Q E x)
    (hy : ¬ c → Meets Q E y) : Meets Q E (if c then x else y) := by
  by_cases hc : c
  · rw [if_pos hc]
    exact hx hc
  · rw [if_neg hc]
    exact hy hc

end Meets

end ExceptSpec
