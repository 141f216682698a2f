import OsAssignments.Interceptor.Refinement
import OsAssignments.Lib.CriticalSection

/-!
# The entry points, access by access

Every process can be in the module at the same time.  Here the functions of `interceptor.c` read and
write the tables one field at a time, so that between any two accesses other processes may run.  What
lies between `spin_lock(&pidlist_lock)` and `spin_unlock(&pidlist_lock)` is a critical section;
`interceptor` takes no lock.  `calltable_lock` is only taken inside a section, so it excludes nobody
else.

A walk through a pid list in a section is one access, as nobody else changes the list meanwhile.  The
walk of `interceptor` goes from element to element, and any of them may be unlinked and freed under
it: what the walk meets is a parameter of the call.

* `Access.mySyscall`, `Access.myExitGroup` and the functions they call — the critical sections.
* `run_mySyscall`, `run_myExitGroup` — alone, a section does what the entry point does.
* `Access.watchedUnlocked` — the reads of `interceptor`.
* `Access.userCall`, `alone_userCall` — a system call, from the table to the routine that serves it;
  alone, it ends as the sequential one.
-/

namespace OsAssignments
namespace Interceptor
namespace Access

open CriticalSection

/-! ## Fields -/

/-- Read a field of a row. -/
def row {A : Type} (syscall : Int) (field : TableRow → A) : Code Kernel A :=
  .read fun k => field (k.getRow syscall)

/-- Write to a row. -/
def setRow (syscall : Int) (f : TableRow → TableRow) : Code Kernel Unit :=
  .write fun k => k.setRow syscall (f (k.getRow syscall))

/-- Write an entry of `sys_call_table`. -/
def setEntry (syscall : Int) (r : Routine) : Code Kernel Unit := .write (·.setEntry syscall r)

/-! ## List operations -/

/-- `add_pid_sysc`. -/
def addPidSysc (c : Caller) (pid sysc : Int) : Code Kernel Int :=
  if !c.kmallocOk then return -enomem
  else do
    setRow sysc fun row => { row with myList := pid :: row.myList }
    let listcount ← row sysc (·.listcount)
    setRow sysc fun row => { row with listcount := listcount + 1 }
    return 0

/-- What both deletions do after a pid has left the list. -/
def countOff (sysc : Int) : Code Kernel Unit := do
  let listcount ← row sysc (·.listcount)
  setRow sysc fun row => { row with listcount := listcount - 1 }
  let listcount ← row sysc (·.listcount)
  if listcount = 0 then do
    let monitored ← row sysc (·.monitored)
    if monitored = 1 then setRow sysc fun row => { row with monitored := 0 } else return ()
  else return ()

/-- `del_pid_sysc`. -/
def delPidSysc (pid sysc : Int) : Code Kernel Int := do
  let pids ← row sysc (·.myList)
  if pid ∈ pids then do
    setRow sysc fun row => { row with myList := row.myList.erase pid }
    countOff sysc
    return 0
  else return -einval

/-- `del_pid`'s inner loop, over the elements the walk finds. -/
def delPidTurns (pid sysc : Int) : List Int → Code Kernel Unit
  | [] => return ()
  | p :: ps =>
    if p = pid then do
      setRow sysc fun row => { row with myList := row.myList.erase pid }
      countOff sysc
      delPidTurns pid sysc ps
    else delPidTurns pid sysc ps

/-- `del_pid`'s outer loop, over the given rows. -/
def delPidRows (pid : Int) : List Nat → Code Kernel Unit
  | [] => return ()
  | s :: ss => do
    let pids ← row s (·.myList)
    delPidTurns pid s pids
    delPidRows pid ss

/-- `del_pid`. -/
def delPid (lim : Limits) (pid : Int) : Code Kernel Unit :=
  delPidRows pid (List.range' 1 (lim.nrSyscalls - 1))

/-- `destroy_list`. -/
def destroyList (sysc : Int) : Code Kernel Unit := do
  setRow sysc fun row => { row with myList := [] }
  setRow sysc fun row => { row with listcount := 0 }
  setRow sysc fun row => { row with monitored := 0 }

/-- `check_pid_monitored`. -/
def checkPidMonitored (sysc pid : Int) : Code Kernel Bool := do
  let pids ← row sysc (·.myList)
  return decide (pid ∈ pids)

/-! ## The checks of `my_syscall` -/

/-- `is_pid_monitored`. -/
def isPidMonitored (pid syscall : Int) : Code Kernel Bool := do
  let monitored ← row syscall (·.monitored)
  if monitored = 0 then return false
  else if monitored = 1 then checkPidMonitored syscall pid
  else if monitored = 2 then do
    let listed ← checkPidMonitored syscall pid
    return !listed
  else return false

/-- `is_context_correct`. -/
def isContextCorrect (cmd syscall pid : Int) : Code Kernel Bool :=
  if cmd = requestSyscallRelease then do
    let intercepted ← row syscall (·.intercepted)
    return intercepted != 0
  else if cmd = requestStopMonitoring then
    if pid = 0 then do
      let monitored ← row syscall (·.monitored)
      return monitored != 0
    else do
      let watched ← isPidMonitored pid syscall
      if !watched then return false
      else do
        let intercepted ← row syscall (·.intercepted)
        return intercepted != 0
  else return true

/-- The second test of `is_busy`, for a START. -/
def isBusyStart (syscall pid : Int) : Code Kernel Bool :=
  if pid = 0 then do
    let monitored ← row syscall (·.monitored)
    if monitored = 2 then do
      let listcount ← row syscall (·.listcount)
      if listcount = 0 then return true else isPidMonitored pid syscall
    else isPidMonitored pid syscall
  else isPidMonitored pid syscall

/-- `is_busy`. -/
def isBusy (cmd syscall pid : Int) : Code Kernel Bool :=
  if cmd = requestSyscallIntercept then do
    let intercepted ← row syscall (·.intercepted)
    return intercepted != 0
  else if cmd = requestStartMonitoring then isBusyStart syscall pid
  else return false

/-! ## The handlers -/

/-- `handle_syscall_intercept`. -/
def handleSyscallIntercept (syscall : Int) : Code Kernel Int := do
  setRow syscall fun row => { row with intercepted := 1 }
  let f ← .read fun k => k.sysCallTable syscall
  setRow syscall fun row => { row with f := f }
  setEntry syscall .interceptor
  return 0

/-- `handle_syscall_release`. -/
def handleSyscallRelease (syscall : Int) : Code Kernel Int := do
  setRow syscall fun row => { row with intercepted := 0 }
  let f ← row syscall (·.f)
  setEntry syscall f
  return 0

/-- `handle_start_monitoring`. -/
def handleStartMonitoring (c : Caller) (syscall pid : Int) : Code Kernel Int :=
  if pid = 0 then do
    destroyList syscall
    setRow syscall fun row => { row with monitored := 2 }
    return 0
  else do
    let monitored ← row syscall (·.monitored)
    if monitored = 2 then delPidSysc pid syscall
    else do
      let monitored ← row syscall (·.monitored)
      if monitored = 1 ∨ monitored = 0 then do
        let status ← addPidSysc c pid syscall
        if status = 0 then do
          setRow syscall fun row => { row with monitored := 1 }
          return status
        else return status
      else return 0

/-- `handle_stop_monitoring`. -/
def handleStopMonitoring (c : Caller) (syscall pid : Int) : Code Kernel Int :=
  if pid = 0 then do
    destroyList syscall
    setRow syscall fun row => { row with monitored := 0 }
    return 0
  else do
    let monitored ← row syscall (·.monitored)
    if monitored = 2 then addPidSysc c pid syscall
    else delPidSysc pid syscall

/-! ## The entry points -/

/-- The handler of a command. -/
def handler (c : Caller) (cmd syscall pid : Int) : Code Kernel Int :=
  if cmd = requestSyscallIntercept then handleSyscallIntercept syscall
  else if cmd = requestSyscallRelease then handleSyscallRelease syscall
  else if cmd = requestStartMonitoring then handleStartMonitoring c syscall pid
  else if cmd = requestStopMonitoring then handleStopMonitoring c syscall pid
  else return 1

/-- The section of `my_syscall`. -/
def mySyscall (lim : Limits) (c : Caller) (cmd syscall pid : Int) : Code Kernel Int :=
  if !isValidCmd cmd || !isValidSyscall lim syscall || !isValidPid c pid then return -einval
  else if !hasPermissions c cmd pid then return -eperm
  else do
    let context ← isContextCorrect cmd syscall pid
    if !context then return -einval
    else do
      let busy ← isBusy cmd syscall pid
      if busy then return -ebusy
      else handler c cmd syscall pid

/-- The section of `my_exit_group`. -/
def myExitGroup (lim : Limits) (c : Caller) : Code Kernel Int := do
  delPid lim c.pid
  return 0

/-- The walk of `check_pid_monitored` without the lock.  It meets elements with the pids `met`, one
access each, until it is back at the head of the list. -/
def walkUnlocked (pid : Int) (next : Bool → Process Kernel Int (Option Outcome)) :
    List Int → Process Kernel Int (Option Outcome)
  | [] => .look fun _ => next false
  | p :: ps => .look fun _ => if p = pid then next true else walkUnlocked pid next ps

/-- `is_pid_monitored` without the lock. -/
def watchedUnlocked (met : List Int) (pid syscall : Int)
    (next : Bool → Process Kernel Int (Option Outcome)) : Process Kernel Int (Option Outcome) :=
  .look fun k =>
    let monitored := (k.getRow syscall).monitored
    if monitored = 0 then next false
    else if monitored = 1 then walkUnlocked pid next met
    else if monitored = 2 then walkUnlocked pid (fun listed => next !listed) met
    else next false

/-- A routine is called, as `callRoutine` says; `interceptor` reads without the lock, and so does
`my_exit_group` after its section. -/
def callRoutine (lim : Limits) (c : Caller) (reg : PtRegs) (met : List Int) :
    Nat → Routine → List String → Process Kernel Int (Option Outcome)
  | 0, _, _ => .done none
  | _ + 1, .kernel n, log => .done (some ⟨log, .kernel n reg⟩)
  | _ + 1, .mySyscall, log =>
    .locked (mySyscall lim c reg.bx.toInt reg.cx.toInt reg.dx.toInt) fun status =>
      .done (some ⟨log, .status status⟩)
  | _ + 1, .myExitGroup, log =>
    .locked (myExitGroup lim c) fun _ => .look fun k =>
      match k.origExitGroup with
      | .kernel n => .done (some ⟨log, .exitGroup n reg.bx⟩)
      | _ => .done none
  | fuel + 1, .interceptor, log =>
    let currentPid := BitVec.ofInt 32 c.pid
    watchedUnlocked met currentPid.toInt reg.ax.toInt fun watched => .look fun k =>
      callRoutine lim c reg met fuel (k.getRow reg.ax.toInt).f (log ++ if watched then
        [logMessage currentPid reg.ax reg.bx reg.cx reg.dx reg.si reg.di reg.bp] else [])

/-- A process makes a system call: the kernel looks up entry `ax` of `sys_call_table`. -/
def userCall (lim : Limits) (fuel : Nat) (c : Caller) (reg : PtRegs) (met : List Int) :
    Process Kernel Int (Option Outcome) :=
  .look fun k => callRoutine lim c reg met fuel (k.sysCallTable reg.ax.toNat) []

/-! ## Alone, a section does what the entry point does -/

section

variable (c : Caller) (cmd s pid : Int) (k : Kernel)

@[simp] theorem run_row_bind {A B : Type} (field : TableRow → A) (f : A → Code Kernel B) :
    (row s field >>= f).run k = (f (field (k.table s))).run k := rfl

@[simp] theorem run_setRow (f : TableRow → TableRow) :
    (setRow s f).run k = ((), k.setRow s (f (k.table s))) := rfl

@[simp] theorem run_setRow_bind {B : Type} (f : TableRow → TableRow) (g : Unit → Code Kernel B) :
    (setRow s f >>= g).run k = (g ()).run (k.setRow s (f (k.table s))) := rfl

@[simp] theorem run_setEntry_bind {B : Type} (r : Routine) (g : Unit → Code Kernel B) :
    (setEntry s r >>= g).run k = (g ()).run (k.setEntry s r) := rfl

theorem run_countOff : (countOff s).run k = ((), k.setRow s (k.table s).countOff) := by
  by_cases hcount : (k.table s).listcount - 1 = 0 <;>
    by_cases hmon : (k.table s).monitored = 1 <;>
    simp [countOff, TableRow.countOff, setRow_setRow, hcount, hmon]

theorem run_addPidSysc : (addPidSysc c pid s).run k = Interceptor.addPidSysc c pid s k := by
  cases h : c.kmallocOk <;>
    simp [addPidSysc, Interceptor.addPidSysc, h, setRow_setRow, Kernel.getRow]

theorem run_delPidSysc : (delPidSysc pid s).run k = Interceptor.delPidSysc pid s k := by
  simp only [delPidSysc, Interceptor.delPidSysc, run_row_bind, Code.run_ite, run_setRow_bind,
    Code.run_bind_of (run_countOff s _), Code.run_pure, Kernel.getRow, setRow_setRow,
    Kernel.setRow_table, Function.update_self]
  rfl

theorem run_destroyList : (destroyList s).run k = ((), Interceptor.destroyList s k) := by
  simp [destroyList, Interceptor.destroyList, setRow_setRow, Kernel.getRow]

theorem run_checkPidMonitored :
    (checkPidMonitored s pid).run k = (Interceptor.checkPidMonitored k s pid, k) := rfl

theorem run_isPidMonitored :
    (isPidMonitored pid s).run k = (Interceptor.isPidMonitored k pid s, k) := by
  simp only [isPidMonitored, Interceptor.isPidMonitored, run_row_bind, Code.run_ite, Code.run_pure,
    run_checkPidMonitored, Code.run_bind_of (run_checkPidMonitored s pid k), Kernel.getRow]
  split
  · simp [*]
  split
  · simp [*]
  split <;> simp [*]

theorem run_isContextCorrect :
    (isContextCorrect cmd s pid).run k = (Interceptor.isContextCorrect k cmd s pid, k) := by
  simp only [isContextCorrect, Interceptor.isContextCorrect, run_row_bind, Code.run_ite,
    Code.run_pure, Code.run_bind_of (run_isPidMonitored s pid k), Kernel.getRow]
  by_cases hrel : cmd = requestSyscallRelease
  · have hstop : cmd ≠ requestStopMonitoring := by
      rw [hrel]
      decide
    by_cases hi : (k.table s).intercepted = 0 <;> simp only [hstop, hi] <;> simp [hrel, hi]
  · simp only [hrel, if_false, false_and]
    split
    · split
      · rfl
      · cases Interceptor.isPidMonitored k pid s <;> rfl
    · rfl

theorem run_isBusyStart :
    (isBusyStart s pid).run k = (Interceptor.isBusy k requestStartMonitoring s pid, k) := by
  simp only [isBusyStart, Interceptor.isBusy, run_row_bind, Code.run_ite, Code.run_pure,
    run_isPidMonitored, Kernel.getRow, false_and, if_false, if_true,
    show requestStartMonitoring ≠ requestSyscallIntercept by decide]
  by_cases hpid : pid = 0 <;> by_cases hmon : (k.table s).monitored = 2 <;>
    by_cases hcount : (k.table s).listcount = 0 <;> simp [hpid, hmon, hcount]

theorem run_isBusy : (isBusy cmd s pid).run k = (Interceptor.isBusy k cmd s pid, k) := by
  rw [isBusy]
  split
  · rename_i hcmd
    subst hcmd
    by_cases hi : (k.table s).intercepted = 0 <;>
      simp [Interceptor.isBusy, Kernel.getRow, hi, requestSyscallIntercept, requestStartMonitoring]
  rename_i hint
  split
  · rename_i hcmd
    subst hcmd
    exact run_isBusyStart s pid k
  · rename_i hstart
    simp [Interceptor.isBusy, hint, hstart]

theorem run_handleSyscallIntercept :
    (handleSyscallIntercept s).run k = Interceptor.handleSyscallIntercept s k := by
  simp [handleSyscallIntercept, Interceptor.handleSyscallIntercept, setRow_setRow, Kernel.getRow]

theorem run_handleSyscallRelease :
    (handleSyscallRelease s).run k = Interceptor.handleSyscallRelease s k := by
  simp [handleSyscallRelease, Interceptor.handleSyscallRelease, Kernel.getRow]

theorem run_handleStartMonitoring :
    (handleStartMonitoring c s pid).run k = Interceptor.handleStartMonitoring c s pid k := by
  simp only [handleStartMonitoring, Interceptor.handleStartMonitoring, run_row_bind, Code.run_ite,
    Code.run_pure, Code.run_bind_of (run_destroyList s k), run_delPidSysc,
    Code.run_bind (addPidSysc c pid s), run_addPidSysc, run_setRow_bind, Kernel.getRow]
  rfl

theorem run_handleStopMonitoring :
    (handleStopMonitoring c s pid).run k = Interceptor.handleStopMonitoring c s pid k := by
  simp only [handleStopMonitoring, Interceptor.handleStopMonitoring, run_row_bind, Code.run_ite,
    Code.run_pure, Code.run_bind_of (run_destroyList s k), run_delPidSysc, run_addPidSysc,
    run_setRow_bind, Kernel.getRow]
  rfl

/-- **Alone, the section of `my_syscall` is `my_syscall`.** -/
theorem run_mySyscall (lim : Limits) :
    (mySyscall lim c cmd s pid).run k = Interceptor.mySyscall lim c cmd s pid k := by
  simp only [mySyscall, Interceptor.mySyscall, handler, Code.run_ite, Code.run_pure,
    Code.run_bind_of (run_isContextCorrect cmd s pid k), Code.run_bind_of (run_isBusy cmd s pid k),
    run_handleSyscallIntercept, run_handleSyscallRelease, run_handleStartMonitoring,
    run_handleStopMonitoring]

theorem countOff_myList (row : TableRow) : row.countOff.myList = row.myList := by
  unfold TableRow.countOff
  dsimp only
  split <;> rfl

theorem countOff_with_myList (row : TableRow) (l : List Int) :
    { row.countOff with myList := l } = { row with myList := l }.countOff := by
  unfold TableRow.countOff
  dsimp only
  split <;> rfl

/-- `del_pid`'s walk through a row, from where the elements `kept` are behind it. -/
theorem run_delPidTurns (ps kept : List Int) (hlist : (k.table s).myList = kept ++ ps)
    (hkept : pid ∉ kept) : (delPidTurns pid s ps).run k
      = ((), k.setRow s (ps.foldl (delPidTurn pid) { k.table s with myList := kept })) := by
  induction ps generalizing kept k with
  | nil =>
    have hsame : ({ k.table s with myList := kept } : TableRow) = k.table s := by
      rw [← List.append_nil kept, ← hlist]
    rw [List.foldl_nil, hsame, Kernel.setRow, Function.update_eq_self]
    rfl
  | cons p ps ih =>
    rw [List.foldl_cons, delPidTurn, delPidTurns]
    by_cases hp : p = pid
    · subst hp
      have herase : (k.table s).myList.erase p = kept ++ ps := by
        rw [hlist, List.erase_append_right _ hkept, List.erase_cons_head]
      rw [if_pos rfl, if_pos rfl, run_setRow_bind, Code.run_bind_of (run_countOff s _), setRow_setRow,
        Kernel.setRow_table, Function.update_self, herase,
        ih _ kept (by simp [countOff_myList]) hkept]
      simp [countOff_with_myList, setRow_setRow]
    · rw [if_neg hp, if_neg hp, ih k (kept ++ [p]) (by simp [hlist])
        (by simp [hkept, Ne.symm hp])]

/-- **Alone, the section of `my_exit_group` is `my_exit_group`.** -/
theorem run_myExitGroup (lim : Limits) :
    (myExitGroup lim c).run k = (0, Interceptor.myExitGroup lim c k) := by
  have hrows : ∀ (ss : List Nat) (status : Int) (k : Kernel), (delPidRows c.pid ss).run k
      = ((), (ss.foldl (fun (acc : Int × Kernel) (s : Nat) =>
        (if c.pid ∈ (acc.2.getRow s).myList then 0 else acc.1,
          acc.2.setRow s (delPidRow c.pid (acc.2.getRow s)))) (status, k)).2) := by
    intro ss
    induction ss with
    | nil => exact fun _ _ => rfl
    | cons s ss ih =>
      intro status k
      rw [delPidRows, run_row_bind, Code.run_bind_of (run_delPidTurns s c.pid k _ [] rfl (by simp)),
        List.foldl_cons, ← ih]
      rfl
  rw [myExitGroup, delPid, Code.run_bind_of (hrows _ (-1) k)]
  rfl

end

/-! ## Alone, a call ends as `userCall` says -/

section

variable {lim : Limits} {c : Caller} {reg : PtRegs} {met : List Int} {k : Kernel}

theorem alone_walkUnlocked (pid : Int) (next : Bool → Process Kernel Int (Option Outcome)) :
    (walkUnlocked pid next met).alone k = (next (decide (pid ∈ met))).alone k := by
  induction met with
  | nil => rfl
  | cons p ps ih =>
    rw [walkUnlocked, Process.alone]
    by_cases hp : p = pid
    · simp [hp]
    · rw [if_neg hp, ih]
      simp [Ne.symm hp]

theorem alone_watchedUnlocked {syscall : Int} (hmet : met = (k.getRow syscall).myList) (pid : Int)
    (next : Bool → Process Kernel Int (Option Outcome)) :
    (watchedUnlocked met pid syscall next).alone k
      = (next (Interceptor.isPidMonitored k pid syscall)).alone k := by
  rw [watchedUnlocked, Process.alone, Interceptor.isPidMonitored, Interceptor.checkPidMonitored,
    ← hmet]
  dsimp only
  split
  · rfl
  split
  · exact alone_walkUnlocked pid next
  split
  · exact alone_walkUnlocked pid _
  · rfl

theorem alone_callRoutine (hmet : met = (k.getRow reg.ax.toInt).myList) {fuel : Nat} {f : Routine}
    {log : List String} {r : Outcome × Kernel}
    (h : Interceptor.callRoutine lim c reg fuel f k = some r) :
    (callRoutine lim c reg met fuel f log).alone k
      = (some ⟨log ++ r.1.log, r.1.served⟩, r.2) := by
  induction fuel generalizing f log r with
  | zero => cases h
  | succ fuel ih =>
    cases f with
    | kernel n =>
      obtain rfl := Option.some.inj h
      simp [callRoutine, Process.alone]
    | mySyscall =>
      obtain rfl := Option.some.inj h
      simp [callRoutine, Process.alone, run_mySyscall]
    | myExitGroup =>
      have hsame : (Interceptor.myExitGroup lim c k).origExitGroup = k.origExitGroup :=
        (samePointers_delPid lim c.pid k).exitGroup
      rw [Interceptor.callRoutine] at h
      rw [callRoutine, Process.alone, Process.alone, run_myExitGroup]
      dsimp only
      rw [hsame]
      split at h
      · rename_i hexit
        obtain rfl := Option.some.inj h
        simp [hexit, Process.alone]
      · cases h
    | interceptor =>
      rw [Interceptor.callRoutine] at h
      obtain ⟨rest, hrest, rfl⟩ := Option.map_eq_some_iff.mp h
      rw [callRoutine]
      dsimp only
      rw [alone_watchedUnlocked hmet, Process.alone, ih hrest, interceptorLog, List.append_assoc]

/-- **A call that nobody interferes with ends as `userCall` says**: its walk meets the list of its
row. -/
theorem alone_userCall (hmet : met = (k.getRow reg.ax.toInt).myList) {fuel : Nat}
    {o : Outcome} {k' : Kernel} (h : Interceptor.userCall lim fuel c reg k = some (o, k')) :
    (userCall lim fuel c reg met).alone k = (some o, k') :=
  alone_callRoutine hmet h

end

end Access
end Interceptor
end OsAssignments
