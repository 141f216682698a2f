import Mathlib

/-!
# The system-call interceptor: the table, the pid lists and the commands

The kernel module of `interceptor.c` hijacks entries of `sys_call_table`.  This
file is its state and every function that changes it.

* `Routine` — what an entry of `sys_call_table` can point at.
* `TableRow` — one row of `table`: the saved routine, the two flags and the pid
  list with its counter.
* `addPidSysc`, `delPidSysc`, `delPid`, `destroyList` — the list operations.
* `isContextCorrect`, `isBusy`, `hasPermissions`, … — the checks of `my_syscall`.
* `mySyscall`, `myExitGroup`, `initFunction`, `exitFunction` — the entry points.

`sys_call_table` and `table` are arrays indexed by an `int`, so both are
functions on `Int`.  The kernel services the module calls (`pid_task`,
`current`, `current_uid`, `kmalloc`) are what a `Caller` records for one call.
`NR_syscalls` and `__NR_exit_group` come from the kernel's headers and are
fields of `Limits`.  Page protection of `sys_call_table` is not modelled: every
store of the module is bracketed by `set_addr_rw` and `set_addr_ro`.
-/

namespace OsAssignments
namespace Interceptor

/-! ## Constants and state -/

/-- What an entry of `sys_call_table` points at: one of the module's own three
routines, or a routine of the kernel. -/
inductive Routine where
  | interceptor
  | mySyscall
  | myExitGroup
  | kernel (n : Nat)
  deriving DecidableEq, Repr

/-- The constants the kernel's headers supply. -/
structure Limits where
  /-- `NR_syscalls`. -/
  nrSyscalls : Nat
  /-- `__NR_exit_group`. -/
  nrExitGroup : Nat

/-- `MY_CUSTOM_SYSCALL`. -/
def myCustomSyscall : Int := 0

def requestSyscallIntercept : Int := 1
def requestSyscallRelease : Int := 2
def requestStartMonitoring : Int := 3
def requestStopMonitoring : Int := 4

def eperm : Int := 1
def enomem : Int := 12
def ebusy : Int := 16
def einval : Int := 22

/-- A row of `table` (`mytable`).  `myList` has the most recently added pid in
front, as `list_add` leaves it. -/
structure TableRow where
  f : Routine
  intercepted : Int
  monitored : Int
  listcount : Int
  myList : List Int

/-- The module's globals together with the kernel's `sys_call_table`. -/
structure Kernel where
  sysCallTable : Int → Routine
  table : Int → TableRow
  origCustomSyscall : Routine
  origExitGroup : Routine

/-- What the kernel answers while one system call is served. -/
structure Caller where
  /-- `current->pid`. -/
  pid : Int
  /-- `current_uid()`. -/
  uid : Nat
  /-- The `real_cred->uid` of `pid_task(find_vpid(pid), PIDTYPE_PID)`, and
  `none` where that is `NULL`. -/
  owner : Int → Option Nat
  /-- Does `kmalloc` succeed? -/
  kmallocOk : Bool

namespace Kernel

/-- `get_row`. -/
def getRow (k : Kernel) (syscall : Int) : TableRow := k.table syscall

/-- Overwrite one row of `table`. -/
def setRow (k : Kernel) (syscall : Int) (row : TableRow) : Kernel :=
  { k with table := Function.update k.table syscall row }

/-- Overwrite one entry of `sys_call_table`. -/
def setEntry (k : Kernel) (syscall : Int) (r : Routine) : Kernel :=
  { k with sysCallTable := Function.update k.sysCallTable syscall r }

@[simp] theorem setRow_sysCallTable (k : Kernel) (s : Int) (row : TableRow) :
    (k.setRow s row).sysCallTable = k.sysCallTable := rfl

@[simp] theorem setRow_table (k : Kernel) (s : Int) (row : TableRow) :
    (k.setRow s row).table = Function.update k.table s row := rfl

@[simp] theorem setRow_origCustomSyscall (k : Kernel) (s : Int) (row : TableRow) :
    (k.setRow s row).origCustomSyscall = k.origCustomSyscall := rfl

@[simp] theorem setRow_origExitGroup (k : Kernel) (s : Int) (row : TableRow) :
    (k.setRow s row).origExitGroup = k.origExitGroup := rfl

@[simp] theorem setEntry_sysCallTable (k : Kernel) (s : Int) (r : Routine) :
    (k.setEntry s r).sysCallTable = Function.update k.sysCallTable s r := rfl

@[simp] theorem setEntry_table (k : Kernel) (s : Int) (r : Routine) :
    (k.setEntry s r).table = k.table := rfl

@[simp] theorem setEntry_origCustomSyscall (k : Kernel) (s : Int) (r : Routine) :
    (k.setEntry s r).origCustomSyscall = k.origCustomSyscall := rfl

@[simp] theorem setEntry_origExitGroup (k : Kernel) (s : Int) (r : Routine) :
    (k.setEntry s r).origExitGroup = k.origExitGroup := rfl

end Kernel

/-! ## List operations -/

/-- `add_pid_sysc`. -/
def addPidSysc (c : Caller) (pid sysc : Int) (k : Kernel) : Int × Kernel :=
  if !c.kmallocOk then (-enomem, k)
  else
    let row := k.getRow sysc
    (0, k.setRow sysc { row with myList := pid :: row.myList, listcount := row.listcount + 1 })

/-- The bookkeeping both deletions do after a pid has left the list: count it
off, and end whitelist monitoring when that was the last pid. -/
def TableRow.countOff (row : TableRow) : TableRow :=
  let row := { row with listcount := row.listcount - 1 }
  if row.listcount = 0 ∧ row.monitored = 1 then { row with monitored := 0 } else row

/-- `del_pid_sysc`: the first occurrence of the pid is removed. -/
def delPidSysc (pid sysc : Int) (k : Kernel) : Int × Kernel :=
  let row := k.getRow sysc
  if pid ∈ row.myList then
    (0, k.setRow sysc { row with myList := row.myList.erase pid }.countOff)
  else (-einval, k)

/-- One turn of `del_pid`'s inner loop, at list element `p`; `myList` holds the
elements kept so far. -/
def delPidTurn (pid : Int) (row : TableRow) (p : Int) : TableRow :=
  if p = pid then row.countOff else { row with myList := row.myList ++ [p] }

/-- `del_pid`'s inner loop: every occurrence of the pid leaves the row. -/
def delPidRow (pid : Int) (row : TableRow) : TableRow :=
  row.myList.foldl (delPidTurn pid) { row with myList := [] }

/-- `del_pid`: rows `1 .. NR_syscalls - 1`. -/
def delPid (lim : Limits) (pid : Int) (k : Kernel) : Int × Kernel :=
  (List.range' 1 (lim.nrSyscalls - 1)).foldl
    (fun (acc : Int × Kernel) (s : Nat) =>
      (if pid ∈ (acc.2.getRow s).myList then 0 else acc.1,
        acc.2.setRow s (delPidRow pid (acc.2.getRow s)))) (-1, k)

/-- `destroy_list`. -/
def destroyList (sysc : Int) (k : Kernel) : Kernel :=
  k.setRow sysc { k.getRow sysc with myList := [], listcount := 0, monitored := 0 }

/-- `check_pid_from_list`.  It is called for tasks that exist. -/
def checkPidFromList (c : Caller) (pid1 pid2 : Int) : Int :=
  if c.owner pid1 ≠ c.owner pid2 then -eperm else 0

/-- `check_pid_monitored`. -/
def checkPidMonitored (k : Kernel) (sysc pid : Int) : Bool := decide (pid ∈ (k.getRow sysc).myList)

/-! ## The checks of `my_syscall` -/

/-- `is_valid_cmd`. -/
def isValidCmd (cmd : Int) : Bool :=
  cmd == requestStartMonitoring || cmd == requestStopMonitoring ||
    cmd == requestSyscallIntercept || cmd == requestSyscallRelease

/-- `is_valid_syscall`. -/
def isValidSyscall (lim : Limits) (syscall : Int) : Bool :=
  decide (0 ≤ syscall) && decide (syscall ≤ lim.nrSyscalls) && syscall != myCustomSyscall

/-- `is_valid_pid`. -/
def isValidPid (c : Caller) (pid : Int) : Bool :=
  if pid < 0 then false
  else if pid = 0 then true
  else (c.owner pid).isSome

/-- `is_root`. -/
def isRoot (c : Caller) : Bool := c.uid == 0

/-- `is_pid_monitored`. -/
def isPidMonitored (k : Kernel) (pid syscall : Int) : Bool :=
  if (k.getRow syscall).monitored = 0 then false
  else if (k.getRow syscall).monitored = 1 then checkPidMonitored k syscall pid
  else if (k.getRow syscall).monitored = 2 then !checkPidMonitored k syscall pid
  else false

/-- `has_permissions`. -/
def hasPermissions (c : Caller) (cmd pid : Int) : Bool :=
  if isRoot c then true
  else if cmd = requestStartMonitoring ∨ cmd = requestStopMonitoring then
    if pid = 0 then false else checkPidFromList c pid c.pid == 0
  else false

/-- `is_context_correct`. -/
def isContextCorrect (k : Kernel) (cmd syscall pid : Int) : Bool :=
  let row := k.getRow syscall
  if cmd = requestSyscallRelease ∧ row.intercepted = 0 then false
  else if cmd = requestStopMonitoring then
    if pid = 0 then row.monitored != 0
    else if !isPidMonitored k pid syscall then false
    else row.intercepted != 0
  else true

/-- `is_busy`. -/
def isBusy (k : Kernel) (cmd syscall pid : Int) : Bool :=
  let row := k.getRow syscall
  if cmd = requestSyscallIntercept ∧ row.intercepted ≠ 0 then true
  else if cmd = requestStartMonitoring then
    if pid = 0 ∧ row.monitored = 2 ∧ row.listcount = 0 then true
    else isPidMonitored k pid syscall
  else false

/-! ## The handlers -/

/-- `handle_syscall_intercept`. -/
def handleSyscallIntercept (syscall : Int) (k : Kernel) : Int × Kernel :=
  let row := k.getRow syscall
  let k := k.setRow syscall { row with intercepted := 1, f := k.sysCallTable syscall }
  (0, k.setEntry syscall .interceptor)

/-- `handle_syscall_release`. -/
def handleSyscallRelease (syscall : Int) (k : Kernel) : Int × Kernel :=
  let row := k.getRow syscall
  let k := k.setRow syscall { row with intercepted := 0 }
  (0, k.setEntry syscall row.f)

/-- `handle_start_monitoring`. -/
def handleStartMonitoring (c : Caller) (syscall pid : Int) (k : Kernel) : Int × Kernel :=
  if pid = 0 then
    let k := destroyList syscall k
    (0, k.setRow syscall { k.getRow syscall with monitored := 2 })
  else if (k.getRow syscall).monitored = 2 then delPidSysc pid syscall k
  else if (k.getRow syscall).monitored = 1 ∨ (k.getRow syscall).monitored = 0 then
    let (status, k) := addPidSysc c pid syscall k
    if status = 0 then (status, k.setRow syscall { k.getRow syscall with monitored := 1 })
    else (status, k)
  else (0, k)

/-- `handle_stop_monitoring`. -/
def handleStopMonitoring (c : Caller) (syscall pid : Int) (k : Kernel) : Int × Kernel :=
  if pid = 0 then
    let k := destroyList syscall k
    (0, k.setRow syscall { k.getRow syscall with monitored := 0 })
  else if (k.getRow syscall).monitored = 2 then addPidSysc c pid syscall k
  else delPidSysc pid syscall k

/-! ## The entry points -/

/-- `my_syscall`. -/
def mySyscall (lim : Limits) (c : Caller) (cmd syscall pid : Int) (k : Kernel) : Int × Kernel :=
  if !isValidCmd cmd || !isValidSyscall lim syscall || !isValidPid c pid then (-einval, k)
  else if !hasPermissions c cmd pid then (-eperm, k)
  else if !isContextCorrect k cmd syscall pid then (-einval, k)
  else if isBusy k cmd syscall pid then (-ebusy, k)
  else if cmd = requestSyscallIntercept then handleSyscallIntercept syscall k
  else if cmd = requestSyscallRelease then handleSyscallRelease syscall k
  else if cmd = requestStartMonitoring then handleStartMonitoring c syscall pid k
  else if cmd = requestStopMonitoring then handleStopMonitoring c syscall pid k
  else (1, k)

/-- `my_exit_group`, up to the call of the original routine. -/
def myExitGroup (lim : Limits) (c : Caller) (k : Kernel) : Kernel := (delPid lim c.pid k).2

/-- One turn of the loop of `init_function`: row `i` saves its entry. -/
def initRow (k : Kernel) (i : Nat) : Kernel :=
  k.setRow i ⟨k.sysCallTable i, 0, 0, 0, []⟩

/-- `init_function`. -/
def initFunction (lim : Limits) (k : Kernel) : Kernel :=
  let k := { k with
    origCustomSyscall := k.sysCallTable myCustomSyscall
    origExitGroup := k.sysCallTable lim.nrExitGroup }
  let k := (k.setEntry myCustomSyscall .mySyscall).setEntry lim.nrExitGroup .myExitGroup
  (List.range (lim.nrSyscalls + 1)).foldl initRow k

/-- One turn of the loop of `exit_function`: entry `i` gets its routine back and
row `i` loses its list. -/
def exitRow (k : Kernel) (i : Nat) : Kernel :=
  destroyList i (k.setEntry i (k.getRow i).f)

/-- `exit_function`. -/
def exitFunction (lim : Limits) (k : Kernel) : Kernel :=
  let k := (List.range (lim.nrSyscalls + 1)).foldl exitRow k
  (k.setEntry myCustomSyscall k.origCustomSyscall).setEntry lim.nrExitGroup k.origExitGroup

/-! ## Runs -/

/-- What user processes make the loaded module do. -/
inductive Event where
  | mySyscall (c : Caller) (cmd syscall pid : Int)
  | myExitGroup (c : Caller)

/-- The state one event leaves. -/
def step (lim : Limits) (k : Kernel) : Event → Kernel
  | .mySyscall c cmd syscall pid => (mySyscall lim c cmd syscall pid k).2
  | .myExitGroup c => myExitGroup lim c k

/-- The module is loaded on top of `k` and then serves the events in order. -/
def runFrom (lim : Limits) (k : Kernel) (events : List Event) : Kernel :=
  events.foldl (step lim) (initFunction lim k)

end Interceptor
end OsAssignments
