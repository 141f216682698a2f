import OsAssignments.Interceptor.Table
import OsAssignments.Lib.LockOrder

/-!
# The two spinlocks

`pidlist_lock` and `calltable_lock` are taken by the entry points of the module.  A command
of `my_syscall` runs under `pidlist_lock` and takes `calltable_lock` inside; loading and
unloading the module take them the other way round.

* `Execution.locks` — the lock calls of one execution of an entry point.
* `lock_inversion_iff` — executions that run concurrently can deadlock exactly if one of
  them loads or unloads the module and another changes an entry of the table.
-/

namespace OsAssignments
namespace Interceptor

open LockOrder

/-- The spinlocks of `interceptor.c`. -/
inductive Lock where
  | pidlistLock
  | calltableLock
  deriving DecidableEq, Repr

/-- Do the checks of `my_syscall` let the command through? -/
def passesChecks (lim : Limits) (c : Caller) (cmd syscall pid : Int) (k : Kernel) : Bool :=
  !(!isValidCmd cmd || !isValidSyscall lim syscall || !isValidPid c pid) &&
    hasPermissions c cmd pid && isContextCorrect k cmd syscall pid && !isBusy k cmd syscall pid

/-- The lock calls of the handler of a command. -/
def handlerLocks (cmd : Int) : List (LockStep Lock) :=
  if cmd = requestSyscallIntercept ∨ cmd = requestSyscallRelease then
    [.acquire .calltableLock, .release .calltableLock]
  else []

/-- One execution of an entry point.  The checks of `my_syscall` read the state `k`. -/
inductive Execution where
  | initFunction
  | exitFunction
  | mySyscall (lim : Limits) (c : Caller) (cmd syscall pid : Int) (k : Kernel)
  | myExitGroup

/-- The lock calls of an execution, in order. -/
def Execution.locks : Execution → List (LockStep Lock)
  | initFunction | exitFunction =>
    [.acquire .calltableLock, .acquire .pidlistLock, .release .pidlistLock,
      .release .calltableLock]
  | mySyscall lim c cmd syscall pid k =>
    .acquire .pidlistLock ::
      ((if passesChecks lim c cmd syscall pid k then handlerLocks cmd else []) ++
        [.release .pidlistLock])
  | myExitGroup => [.acquire .pidlistLock, .release .pidlistLock]

/-- Loading or unloading the module. -/
def Execution.LoadsOrUnloads : Execution → Prop
  | initFunction | exitFunction => True
  | _ => False

/-- An INTERCEPT or RELEASE that passes the checks. -/
def Execution.ChangesEntry : Execution → Prop
  | mySyscall lim c cmd syscall pid k => passesChecks lim c cmd syscall pid k = true ∧
      (cmd = requestSyscallIntercept ∨ cmd = requestSyscallRelease)
  | _ => False

/-- A command let through goes to its handler, any other is rejected. -/
theorem mySyscall_of_passesChecks (lim : Limits) (c : Caller) (cmd s pid : Int) (k : Kernel) :
    mySyscall lim c cmd s pid k =
      if passesChecks lim c cmd s pid k then
        if cmd = requestSyscallIntercept then handleSyscallIntercept s k
        else if cmd = requestSyscallRelease then handleSyscallRelease s k
        else if cmd = requestStartMonitoring then handleStartMonitoring c s pid k
        else if cmd = requestStopMonitoring then handleStopMonitoring c s pid k
        else (1, k)
      else ((mySyscall lim c cmd s pid k).1, k) := by
  unfold mySyscall passesChecks
  cases h₁ : (!isValidCmd cmd || !isValidSyscall lim s || !isValidPid c pid) <;>
    cases h₂ : hasPermissions c cmd pid <;> cases h₃ : isContextCorrect k cmd s pid <;>
    cases h₄ : isBusy k cmd s pid <;> simp

theorem locks_of_loadsOrUnloads {e : Execution} (h : e.LoadsOrUnloads) :
    e.locks = [.acquire .calltableLock, .acquire .pidlistLock, .release .pidlistLock,
      .release .calltableLock] := by
  cases e with
  | initFunction | exitFunction => rfl
  | mySyscall | myExitGroup => exact h.elim

theorem locks_of_changesEntry {e : Execution} (h : e.ChangesEntry) :
    e.locks = [.acquire .pidlistLock, .acquire .calltableLock, .release .calltableLock,
      .release .pidlistLock] := by
  cases e with
  | mySyscall lim c cmd s pid k =>
    rw [Execution.locks, if_pos h.1, handlerLocks, if_pos h.2]
    rfl
  | initFunction | exitFunction | myExitGroup => exact h.elim

/-- Every other execution takes `pidlist_lock` only. -/
theorem locks_of_other {e : Execution} (hl : ¬ e.LoadsOrUnloads) (hc : ¬ e.ChangesEntry) :
    e.locks = [.acquire .pidlistLock, .release .pidlistLock] := by
  cases e with
  | mySyscall lim c cmd s pid k =>
    rw [Execution.locks]
    split
    · rename_i hpass
      rw [handlerLocks, if_neg fun hcmd => hc ⟨hpass, hcmd⟩]
      rfl
    · rfl
  | myExitGroup => rfl
  | initFunction | exitFunction => exact absurd trivial hl

/-- **The lock inversion.**  Executions running concurrently never deadlock, in no
interleaving of their lock calls, if and only if they do not both load or unload the module
and change an entry of the table. -/
theorem lock_inversion_iff {ι : Type} [DecidableEq ι] (executions : ι → Execution) :
    (∀ s, Reachable (fun i => (executions i).locks) s → ¬ Deadlocked s) ↔
      ¬ ((∃ i, (executions i).LoadsOrUnloads) ∧ ∃ j, (executions j).ChangesEntry) := by
  constructor
  · rintro hfree ⟨⟨i, hi⟩, j, hj⟩
    have hij : i ≠ j := by
      rintro rfl
      have := (locks_of_loadsOrUnloads hi).symm.trans (locks_of_changesEntry hj)
      simp at this
    obtain ⟨s, hs, hdead⟩ := deadlocked_of_inversion (fun i => (executions i).locks)
      hij (by simp) (locks_of_loadsOrUnloads hi) (locks_of_changesEntry hj)
    exact hfree s hs hdead
  · intro hnot s hs
    by_cases hload : ∃ i, (executions i).LoadsOrUnloads
    · -- nobody changes an entry, so `calltable_lock` always comes first
      refine not_deadlocked_of_ordered (fun l => if l = .pidlistLock then 1 else 0)
        (fun i => ?_) hs
      have hc : ¬ (executions i).ChangesEntry := fun h => hnot ⟨hload, i, h⟩
      by_cases hl : (executions i).LoadsOrUnloads
      · simp [locks_of_loadsOrUnloads hl, Ordered]
      · simp [locks_of_other hl hc, Ordered]
    · -- nobody loads or unloads, so `pidlist_lock` always comes first
      refine not_deadlocked_of_ordered (fun l => if l = .calltableLock then 1 else 0)
        (fun i => ?_) hs
      have hl : ¬ (executions i).LoadsOrUnloads := fun h => hload ⟨i, h⟩
      by_cases hc : (executions i).ChangesEntry
      · simp [locks_of_changesEntry hc, Ordered]
      · simp [locks_of_other hl hc, Ordered]

/-- Root intercepts call 5 while the module is being unloaded. -/
theorem unload_intercept_deadlock :
    ∃ s, Reachable (fun unload : Bool => (if unload then Execution.exitFunction
        else .mySyscall ⟨350, 252⟩ ⟨1, 0, fun _ => some 0, true⟩ 1 5 0
          ⟨fun i => .kernel i.toNat, fun _ => ⟨.kernel 0, 0, 0, 0, []⟩, .kernel 0, .kernel 0⟩).locks)
      s ∧ Deadlocked s :=
  deadlocked_of_inversion _ (i := true) (j := false) (a := .calltableLock) (b := .pidlistLock)
    (by simp) (by simp) rfl (locks_of_changesEntry ⟨by decide, .inl rfl⟩)

end Interceptor
end OsAssignments
