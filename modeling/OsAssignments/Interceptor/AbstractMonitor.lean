import OsAssignments.Interceptor.Dispatch

/-!
# What the module is for

Seen from outside, the loaded module is a set of intercepted system calls and, for every system
call, a set of processes: the calls of these processes are logged while the system call is
intercepted.  Such a set is written as the pids that are in it or as the pids that are not.

* `Watch`, `Monitor` — the abstract state; there are no tables, lists, counters or pointers in it.
* `Monitor.command`, `Monitor.exit`, `Monitor.call` — what a system call does to it, and its outcome.
* `Monitor.run` — the outcomes of a run of loads, unloads and calls.
* `Kernel.monitor` — the monitor that the tables of the module stand for.
-/

namespace OsAssignments
namespace Interceptor

/-! ## Sets of pids -/

/-- The pids, or all pids but them. -/
structure Watch where
  others : Bool
  pids : Finset Int
  deriving DecidableEq

namespace Watch

/-- Nobody, as `init_function` leaves it. -/
def nobody : Watch := ⟨false, ∅⟩

def everybody : Watch := ⟨true, ∅⟩

/-- Is the pid in the set? -/
def includes (w : Watch) (pid : Int) : Bool := decide (pid ∈ w.pids) != w.others

/-- The set is written with the pid. -/
def insert (w : Watch) (pid : Int) : Watch := { w with pids := Insert.insert pid w.pids }

/-- The set is written without the pid. -/
def erase (w : Watch) (pid : Int) : Watch := { w with pids := w.pids.erase pid }

end Watch

/-! ## The abstract state -/

/-- The intercepted system calls, and the processes whose calls are logged. -/
structure Monitor where
  intercepted : Int → Bool
  watch : Int → Watch

namespace Monitor

/-- Nothing is intercepted and nobody is watched. -/
def fresh : Monitor := ⟨fun _ => false, fun _ => .nobody⟩

def setIntercepted (m : Monitor) (s : Int) (b : Bool) : Monitor :=
  { m with intercepted := Function.update m.intercepted s b }

def setWatch (m : Monitor) (s : Int) (w : Watch) : Monitor :=
  { m with watch := Function.update m.watch s w }

/-- The command exists, its system call can be intercepted, and its pid is 0 or a process. -/
def Valid (lim : Limits) (c : Caller) (cmd s pid : Int) : Prop :=
  (1 ≤ cmd ∧ cmd ≤ 4) ∧ (1 ≤ s ∧ s ≤ lim.nrSyscalls) ∧ (pid = 0 ∨ 0 < pid ∧ (c.owner pid).isSome)

/-- Root may do everything, and other users start and stop the logging of their own processes. -/
def Allowed (c : Caller) (cmd pid : Int) : Prop :=
  c.uid = 0 ∨
    (cmd = requestStartMonitoring ∨ cmd = requestStopMonitoring) ∧ pid ≠ 0 ∧
      c.owner pid = c.owner c.pid

instance (lim : Limits) (c : Caller) (cmd s pid : Int) : Decidable (Valid lim c cmd s pid) :=
  inferInstanceAs (Decidable (_ ∧ _ ∧ _))

instance (c : Caller) (cmd pid : Int) : Decidable (Allowed c cmd pid) :=
  inferInstanceAs (Decidable (_ ∨ _))

/-- The pid is added to the written ones, if there is memory for it. -/
def addPid (c : Caller) (s pid : Int) (m : Monitor) : Int × Monitor :=
  if c.kmallocOk then (0, m.setWatch s ((m.watch s).insert pid)) else (-enomem, m)

/-- A process is to be logged. -/
def start (c : Caller) (s pid : Int) (m : Monitor) : Int × Monitor :=
  if pid = 0 then
    if (m.watch s).others then (-ebusy, m) else (0, m.setWatch s .everybody)
  else if (m.watch s).includes pid then (-ebusy, m)
  else if (m.watch s).others then (0, m.setWatch s ((m.watch s).erase pid))
  else m.addPid c s pid

/-- A process is not to be logged any more. -/
def stop (c : Caller) (s pid : Int) (m : Monitor) : Int × Monitor :=
  if pid = 0 then
    if m.watch s = .nobody then (-einval, m) else (0, m.setWatch s .nobody)
  else if !(m.watch s).includes pid || !m.intercepted s then (-einval, m)
  else if (m.watch s).others then m.addPid c s pid
  else (0, m.setWatch s ((m.watch s).erase pid))

/-- A command, and its status. -/
def command (lim : Limits) (c : Caller) (cmd s pid : Int) (m : Monitor) : Int × Monitor :=
  if ¬ Valid lim c cmd s pid then (-einval, m)
  else if ¬ Allowed c cmd pid then (-eperm, m)
  else if cmd = requestSyscallIntercept then
    if m.intercepted s then (-ebusy, m) else (0, m.setIntercepted s true)
  else if cmd = requestSyscallRelease then
    if m.intercepted s then (0, m.setIntercepted s false) else (-einval, m)
  else if cmd = requestStartMonitoring then m.start c s pid
  else m.stop c s pid

/-- A process exits: its pid is no longer written anywhere but for system call `NR_syscalls`. -/
def exit (lim : Limits) (pid : Int) (m : Monitor) : Monitor :=
  { m with watch := fun s =>
      if 1 ≤ s ∧ s < lim.nrSyscalls then (m.watch s).erase pid else m.watch s }

/-- The line of a call that is logged. -/
def logged (c : Caller) (reg : PtRegs) (m : Monitor) : List String :=
  if m.intercepted reg.ax.toNat && (m.watch reg.ax.toNat).includes c.pid then
    [logMessage (BitVec.ofInt 32 c.pid) reg.ax reg.bx reg.cx reg.dx reg.si reg.di reg.bp]
  else []

/-- What serves a system call with the module loaded over the routines `orig`. -/
def serve (lim : Limits) (orig : Int → Nat) (c : Caller) (reg : PtRegs) (m : Monitor) :
    Served × Monitor :=
  if reg.ax = 0 then
    let r := m.command lim c reg.bx.toInt reg.cx.toInt reg.dx.toInt
    (.status r.1, r.2)
  else if reg.ax.toNat = lim.nrExitGroup then
    (.exitGroup (orig lim.nrExitGroup) reg.bx, m.exit lim c.pid)
  else (.kernel (orig reg.ax.toNat) reg, m)

/-- A system call is logged if its process is watched for it, and then served. -/
def call (lim : Limits) (orig : Int → Nat) (c : Caller) (reg : PtRegs) (m : Monitor) :
    Outcome × Monitor :=
  (⟨m.logged c reg, (m.serve lim orig c reg).1⟩, (m.serve lim orig c reg).2)

/-- One action; `none` is a kernel without the module, where every call is served by its routine. -/
def step (lim : Limits) (orig : Int → Nat) :
    Option Monitor → Action → Option Outcome × Option Monitor
  | none, .load => (none, some fresh)
  | some m, .load => (none, some m)
  | _, .unload => (none, none)
  | none, .call _ reg => (some ⟨[], .kernel (orig reg.ax.toNat) reg⟩, none)
  | some m, .call c reg => (some (m.call lim orig c reg).1, some (m.call lim orig c reg).2)

/-- The outcomes of a run, and the monitor after it. -/
def run (lim : Limits) (orig : Int → Nat) :
    Option Monitor → List Action → List (Option Outcome) × Option Monitor
  | m, [] => ([], m)
  | m, a :: as => ((step lim orig m a).1 :: (run lim orig (step lim orig m a).2 as).1,
      (run lim orig (step lim orig m a).2 as).2)

end Monitor

/-! ## The monitor of a table -/

/-- The set of pids a row writes. -/
def TableRow.watch (row : TableRow) : Watch := ⟨decide (row.monitored = 2), row.myList.toFinset⟩

/-- The monitor that the rows `1 .. NR_syscalls` stand for. -/
def Kernel.monitor (lim : Limits) (k : Kernel) : Monitor where
  intercepted s := decide (1 ≤ s ∧ s ≤ lim.nrSyscalls ∧ (k.table s).intercepted ≠ 0)
  watch s := if 1 ≤ s ∧ s ≤ lim.nrSyscalls then (k.table s).watch else .nobody

end Interceptor
end OsAssignments
