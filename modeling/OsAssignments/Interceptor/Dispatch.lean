import OsAssignments.Interceptor.PidSets

/-!
# A system call, from the table to the routine that serves it

A process puts the number of a system call into `ax`, and the kernel calls what that entry of
`sys_call_table` points at.  Entry 0 is `my_syscall` and the entry of `exit_group` is
`my_exit_group` while the module is loaded; an intercepted entry is `interceptor`, which logs
and goes on to the pointer its row saved.

* `PtRegs`, `logMessage` — the registers, and the line that is logged of them.
* `callRoutine` — what a routine does with a call.
* `System` — the kernel with or without the module, and what happens to it: `load`, `unload`
  and the calls of the processes.
-/

namespace OsAssignments
namespace Interceptor

/-! ## Registers and the log -/

/-- `struct pt_regs`, as far as a system call uses it: the number and the six arguments. -/
structure PtRegs where
  ax : BitVec 32
  bx : BitVec 32
  cx : BitVec 32
  dx : BitVec 32
  si : BitVec 32
  di : BitVec 32
  bp : BitVec 32
  deriving DecidableEq

/-- The conversions `%x` and `%lx`. -/
def hex (w : BitVec 32) : String := String.ofList (Nat.toDigits 16 w.toNat)

/-- `log_message`. -/
def logMessage (pid syscall arg1 arg2 arg3 arg4 arg5 arg6 : BitVec 32) : String :=
  "[" ++ hex pid ++ "]" ++ hex syscall ++ "(" ++ hex arg1 ++ "," ++ hex arg2 ++ "," ++ hex arg3 ++
    "," ++ hex arg4 ++ "," ++ hex arg5 ++ "," ++ hex arg6 ++ ")\n"

/-! ## Routines -/

/-- How a system call ends. -/
inductive Served where
  /-- `my_syscall` returns a status. -/
  | status (status : Int)
  /-- A routine of the kernel takes over, with the registers of the process. -/
  | kernel (n : Nat) (reg : PtRegs)
  /-- `my_exit_group` calls a routine of the kernel with the exit status. -/
  | exitGroup (n : Nat) (status : BitVec 32)
  deriving DecidableEq

/-- The lines a system call logs, and how it ends. -/
structure Outcome where
  log : List String
  served : Served
  deriving DecidableEq

/-- What `interceptor` logs. -/
def interceptorLog (c : Caller) (reg : PtRegs) (k : Kernel) : List String :=
  let currentPid := BitVec.ofInt 32 c.pid
  if isPidMonitored k currentPid.toInt reg.ax.toInt then
    [logMessage currentPid reg.ax reg.bx reg.cx reg.dx reg.si reg.di reg.bp]
  else []

/-- A routine is called.  `interceptor` calls the pointer its row saved, so calls nest; `fuel`
bounds how deep, and `none` is a call nested deeper.  `my_exit_group` hands the status to the
saved routine, which is read as one of the kernel's. -/
def callRoutine (lim : Limits) (c : Caller) (reg : PtRegs) :
    Nat → Routine → Kernel → Option (Outcome × Kernel)
  | 0, _, _ => none
  | _ + 1, .kernel n, k => some (⟨[], .kernel n reg⟩, k)
  | _ + 1, .mySyscall, k =>
    let r := mySyscall lim c reg.bx.toInt reg.cx.toInt reg.dx.toInt k
    some (⟨[], .status r.1⟩, r.2)
  | _ + 1, .myExitGroup, k =>
    match k.origExitGroup with
    | .kernel n => some (⟨[], .exitGroup n reg.bx⟩, myExitGroup lim c k)
    | _ => none
  | fuel + 1, .interceptor, k =>
    (callRoutine lim c reg fuel (k.getRow reg.ax.toInt).f k).map fun r =>
      (⟨interceptorLog c reg k ++ r.1.log, r.1.served⟩, r.2)

/-- A process makes a system call: the kernel calls entry `ax` of `sys_call_table`. -/
def userCall (lim : Limits) (fuel : Nat) (c : Caller) (reg : PtRegs) (k : Kernel) :
    Option (Outcome × Kernel) :=
  callRoutine lim c reg fuel (k.sysCallTable reg.ax.toNat) k

/-! ## The life of the module -/

/-- What happens to the kernel. -/
inductive Action where
  | load
  | unload
  | call (c : Caller) (reg : PtRegs)

/-- The kernel, with or without the module. -/
structure System where
  loaded : Bool
  kernel : Kernel

/-- One action, and the outcome of a call.  A module that is loaded is not loaded again, and one
that is not is not unloaded. -/
def System.step (lim : Limits) (fuel : Nat) (sys : System) :
    Action → Option (Option Outcome × System)
  | .load => some (none, if sys.loaded then sys else ⟨true, initFunction lim sys.kernel⟩)
  | .unload => some (none, if sys.loaded then ⟨false, exitFunction lim sys.kernel⟩ else sys)
  | .call c reg =>
    (userCall lim fuel c reg sys.kernel).map fun r => (some r.1, { sys with kernel := r.2 })

/-- The outcomes of a run, and the system after it. -/
def System.run (lim : Limits) (fuel : Nat) :
    System → List Action → Option (List (Option Outcome) × System)
  | sys, [] => some ([], sys)
  | sys, a :: as =>
    (sys.step lim fuel a).bind fun r => (r.2.run lim fuel as).map fun rs => (r.1 :: rs.1, rs.2)

end Interceptor
end OsAssignments
