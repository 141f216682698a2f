import Mathlib

/-!
# Locks taken in order

Any number of executions run concurrently; each of them is a sequence of acquisitions and
releases of locks, and an acquisition has to wait until the lock is free.

* `Step`, `Reachable` — all interleavings of the lock steps.
* `Deadlocked` — some executions each hold a lock and wait for one that another of them
  holds.
* `not_deadlocked_of_ordered` — if every execution acquires locks of growing rank only, no
  reachable state is deadlocked.
* `deadlocked_of_inversion` — two executions that begin with the same two locks in opposite
  orders can deadlock.
-/

namespace LockOrder

/-- One step of an execution on the locks. -/
inductive LockStep (L : Type) where
  | acquire (l : L)
  | release (l : L)
  deriving DecidableEq, Repr

/-- What each execution still has to do, and who holds each lock. -/
structure State (ι L : Type) where
  rest : ι → List (LockStep L)
  holder : L → Option ι

variable {ι L : Type} [DecidableEq ι] [DecidableEq L]

/-- The start: all locks are free. -/
def State.initial (program : ι → List (LockStep L)) : State ι L := ⟨program, fun _ => none⟩

/-- One execution takes its next step. -/
inductive Step : State ι L → State ι L → Prop
  | acquire {s : State ι L} {i : ι} {l : L} {ls : List (LockStep L)}
      (hrest : s.rest i = .acquire l :: ls) (hfree : s.holder l = none) :
      Step s ⟨Function.update s.rest i ls, Function.update s.holder l (some i)⟩
  | release {s : State ι L} {i : ι} {l : L} {ls : List (LockStep L)}
      (hrest : s.rest i = .release l :: ls) :
      Step s ⟨Function.update s.rest i ls, Function.update s.holder l none⟩

/-- The states some interleaving of the programs leads to. -/
def Reachable (program : ι → List (LockStep L)) (s : State ι L) : Prop :=
  Relation.ReflTransGen Step (State.initial program) s

omit [DecidableEq ι] [DecidableEq L] in
/-- Execution `i` holds the lock. -/
def Holds (s : State ι L) (i : ι) (l : L) : Prop := s.holder l = some i

omit [DecidableEq ι] [DecidableEq L] in
/-- The next step of execution `i` is to acquire the lock. -/
def Waits (s : State ι L) (i : ι) (l : L) : Prop := ∃ ls, s.rest i = .acquire l :: ls

omit [DecidableEq ι] [DecidableEq L] in
/-- Some executions each hold a lock and wait for one that another of them holds. -/
def Deadlocked (s : State ι L) : Prop :=
  ∃ S : Finset ι, S.Nonempty ∧ ∀ i ∈ S, (∃ l, Holds s i l) ∧
    ∃ l, Waits s i l ∧ ∃ j ∈ S, j ≠ i ∧ Holds s j l

/-! ## Growing ranks -/

/-- Started with the locks `held`, the steps acquire locks of growing rank only. -/
def Ordered (rank : L → Nat) : List L → List (LockStep L) → Prop
  | _, [] => True
  | held, .acquire l :: ls => (∀ h ∈ held, rank h < rank l) ∧ Ordered rank (l :: held) ls
  | held, .release l :: ls => Ordered rank (held.erase l) ls

/-- Each execution holds at most some locks from which on its steps are ordered. -/
def OrderedState (rank : L → Nat) (s : State ι L) : Prop :=
  ∀ i, ∃ held : List L, (∀ l, Holds s i l → l ∈ held) ∧ Ordered rank held (s.rest i)

theorem OrderedState.step {rank : L → Nat} {s s' : State ι L} (h : OrderedState rank s)
    (hstep : Step s s') : OrderedState rank s' := by
  intro i
  obtain ⟨held, hheld, hord⟩ := h i
  cases hstep with
  | @acquire j l ls hrest hfree =>
    by_cases hij : i = j
    · subst hij
      rw [hrest] at hord
      refine ⟨l :: held, fun k hk => ?_, by simpa using hord.2⟩
      by_cases hkl : k = l
      · simp [hkl]
      · simp only [Holds, Function.update_of_ne hkl] at hk
        exact List.mem_cons_of_mem _ (hheld k hk)
    · refine ⟨held, fun k hk => ?_, by simpa [Function.update_of_ne hij] using hord⟩
      by_cases hkl : k = l
      · subst hkl
        simp [Holds, Ne.symm hij] at hk
      · simp only [Holds, Function.update_of_ne hkl] at hk
        exact hheld k hk
  | @release j l ls hrest =>
    have hkeep : ∀ k, Holds ⟨Function.update s.rest j ls, Function.update s.holder l none⟩ i k →
        k ≠ l ∧ k ∈ held := by
      intro k hk
      by_cases hkl : k = l
      · subst hkl
        simp [Holds] at hk
      · simp only [Holds, Function.update_of_ne hkl] at hk
        exact ⟨hkl, hheld k hk⟩
    by_cases hij : i = j
    · subst hij
      rw [hrest] at hord
      refine ⟨held.erase l, fun k hk => ?_, by simpa [Ordered] using hord⟩
      exact (List.mem_erase_of_ne (hkeep k hk).1).mpr (hkeep k hk).2
    · exact ⟨held, fun k hk => (hkeep k hk).2, by simpa [Function.update_of_ne hij] using hord⟩

omit [DecidableEq ι] in
/-- Of the executions in a deadlock, one waits for a lock of the greatest rank; but the one
that holds it waits for a lock of a greater rank still. -/
theorem OrderedState.not_deadlocked {rank : L → Nat} {s : State ι L} (h : OrderedState rank s) :
    ¬ Deadlocked s := by
  rintro ⟨S, hS, hall⟩
  obtain ⟨i₀, hi₀⟩ := hS
  have hlock₀ : Nonempty L := (hall i₀ hi₀).1.nonempty
  have hwait : ∀ i ∈ S, ∃ l, Waits s i l ∧ ∃ j ∈ S, j ≠ i ∧ Holds s j l := fun i hi => (hall i hi).2
  choose! lock hlock using hwait
  obtain ⟨i, hi, hmax⟩ := S.exists_max_image (fun i => rank (lock i)) ⟨i₀, hi₀⟩
  obtain ⟨-, j, hj, -, hholds⟩ := hlock i hi
  obtain ⟨⟨ls, hrest⟩, -⟩ := hlock j hj
  obtain ⟨held, hheld, hord⟩ := h j
  rw [hrest] at hord
  have hlt := hord.1 _ (hheld _ hholds)
  have hle := hmax j hj
  omega

/-- **Locks taken in order cannot deadlock.** -/
theorem not_deadlocked_of_ordered {program : ι → List (LockStep L)} (rank : L → Nat)
    (h : ∀ i, Ordered rank [] (program i)) {s : State ι L} (hs : Reachable program s) :
    ¬ Deadlocked s := by
  suffices hord : OrderedState rank s from hord.not_deadlocked
  induction hs with
  | refl => exact fun i => ⟨[], by simp [Holds, State.initial], h i⟩
  | tail _ hstep ih => exact ih.step hstep

/-! ## Opposite orders -/

/-- **Two locks taken in opposite orders can deadlock.** -/
theorem deadlocked_of_inversion (program : ι → List (LockStep L)) {i j : ι} {a b : L}
    {ls ls' : List (LockStep L)} (hij : i ≠ j) (hab : a ≠ b)
    (hi : program i = .acquire a :: .acquire b :: ls)
    (hj : program j = .acquire b :: .acquire a :: ls') :
    ∃ s, Reachable program s ∧ Deadlocked s := by
  have h₁ := Step.acquire (s := State.initial program) hi rfl
  have h₂ := Step.acquire (s := ⟨Function.update program i (.acquire b :: ls),
      Function.update (fun _ => none) a (some i)⟩) (i := j) (l := b)
    ((Function.update_of_ne hij.symm _ _).trans hj) (by simp [hab.symm])
  refine ⟨_, (Relation.ReflTransGen.single h₁).tail h₂, {i, j}, by simp, fun k hk => ?_⟩
  rcases Finset.mem_insert.mp hk with rfl | hk
  · refine ⟨⟨a, ?_⟩, b, ⟨ls, ?_⟩, j, by simp, hij.symm, ?_⟩
    · simp [Holds, Function.update_of_ne hab]
    · simp [Function.update_of_ne hij]
    · simp [Holds]
  · obtain rfl := Finset.mem_singleton.mp hk
    refine ⟨⟨b, ?_⟩, a, ⟨ls', ?_⟩, i, by simp, hij, ?_⟩
    · simp [Holds]
    · simp
    · simp [Holds, Function.update_of_ne hab]

end LockOrder
