import OsAssignments.Interceptor.AbstractMonitor
import OsAssignments.Interceptor.AllPids

/-!
# The module refines the monitor

`Kernel.monitor` takes the tables to the monitor they stand for.  Every command, every exit and
every call commutes with it, and answers what the monitor answers.

* `watch_includes`, `MonitorStep.watch_eq` — one row.
* `monitor_mySyscall`, `monitor_myExitGroup` — the entry points.
* `userCall_eq` — a call through `sys_call_table`, in a state the module can be in.
* `run_refines` — whole runs, with the module loaded and unloaded any number of times.
-/

namespace OsAssignments
namespace Interceptor

/-! ## One row -/

section Row

variable {row row' : TableRow} {pid : Int}

theorem TableRow.WellFormed.watch_includes (h : row.WellFormed) (q : Int) :
    row.watch.includes q = row.monitors q := by
  rcases h.mode with hm | hm | hm
  · simp [TableRow.watch, Watch.includes, TableRow.monitors, hm, h.empty hm]
  · simp [TableRow.watch, Watch.includes, TableRow.monitors, hm]
  · simp [TableRow.watch, Watch.includes, TableRow.monitors, hm]

theorem TableRow.WellFormed.watch_eq_nobody (h : row.WellFormed) :
    row.watch = .nobody ↔ row.monitored = 0 := by
  rw [TableRow.watch, Watch.nobody, Watch.mk.injEq, decide_eq_false_iff_not,
    List.toFinset_eq_empty_iff]
  constructor
  · rintro ⟨htwo, hnil⟩
    rcases h.mode with hm | hm | hm
    · exact hm
    · exact absurd hnil (h.nonempty hm)
    · exact absurd hm htwo
  · intro hm
    exact ⟨by omega, h.empty hm⟩

/-- Taking a pid off the list is erasing it, in either mode. -/
theorem TableRow.WellFormed.watch_remove (h : row.WellFormed) (hold : pid ∈ row.myList) :
    (row.remove pid).watch = row.watch.erase pid := by
  have hmode : (row.remove pid).monitored = 2 ↔ row.monitored = 2 := by
    rw [h.remove_monitored_eq hold]
    split <;> omega
  have hpids : (row.myList.erase pid).toFinset = row.myList.toFinset.erase pid := by
    ext q
    rw [List.mem_toFinset, h.nodup.mem_erase_iff, Finset.mem_erase, List.mem_toFinset]
  simp [TableRow.watch, Watch.erase, hmode, hpids]

/-- `del_pid` erases the pid from a row. -/
theorem TableRow.WellFormed.watch_delPidRow (h : row.WellFormed) (pid : Int) :
    (delPidRow pid row).watch = row.watch.erase pid := by
  rw [delPidRow_eq h.nodup]
  by_cases hmem : pid ∈ row.myList
  · rw [if_pos hmem, h.watch_remove hmem]
  · rw [if_neg hmem]
    have hnot : pid ∉ row.myList.toFinset := by rwa [List.mem_toFinset]
    simp [TableRow.watch, Watch.erase, Finset.erase_eq_of_notMem hnot]

end Row

/-! ## One row of the table -/

section Table

variable {lim : Limits} {k : Kernel} {c : Caller} {cmd s pid : Int}

theorem monitor_watch (hs : 1 ≤ s ∧ s ≤ lim.nrSyscalls) :
    (k.monitor lim).watch s = (k.table s).watch := if_pos hs

theorem monitor_intercepted (hs : 1 ≤ s ∧ s ≤ lim.nrSyscalls) :
    (k.monitor lim).intercepted s = decide ((k.table s).intercepted ≠ 0) := by
  simp [Kernel.monitor, hs]

/-- A row that keeps its flag changes the set of its system call. -/
theorem monitor_setRow (hs : 1 ≤ s ∧ s ≤ lim.nrSyscalls) {row : TableRow}
    (hi : row.intercepted = (k.table s).intercepted) :
    (k.setRow s row).monitor lim = (k.monitor lim).setWatch s row.watch := by
  rw [Kernel.monitor, Kernel.monitor, Monitor.setWatch, Monitor.mk.injEq]
  constructor <;> funext t <;> by_cases hts : t = s
  · subst hts
    simp [hi]
  · simp [Function.update_of_ne hts]
  · subst hts
    simp [hs]
  · simp [Function.update_of_ne hts]

/-- A new flag and a new saved pointer change whether the system call is intercepted. -/
theorem monitor_setFlag (hs : 1 ≤ s ∧ s ≤ lim.nrSyscalls) (f r : Routine) (i : Int) :
    ((k.setRow s { k.table s with intercepted := i, f := f }).setEntry s r).monitor lim
      = (k.monitor lim).setIntercepted s (decide (i ≠ 0)) := by
  rw [Kernel.monitor, Kernel.monitor, Monitor.setIntercepted, Monitor.mk.injEq]
  constructor <;> funext t <;> by_cases hts : t = s
  · subst hts
    simp [hs]
  · simp [Function.update_of_ne hts]
  · subst hts
    simp [TableRow.watch]
  · simp [Function.update_of_ne hts]

/-! ## The checks -/

theorem valid_iff :
    (!isValidCmd cmd || !isValidSyscall lim s || !isValidPid c pid) = false ↔
      Monitor.Valid lim c cmd s pid := by
  have hcmd : isValidCmd cmd = true ↔ 1 ≤ cmd ∧ cmd ≤ 4 := by
    simp [isValidCmd, requestStartMonitoring, requestStopMonitoring, requestSyscallIntercept,
      requestSyscallRelease]
    omega
  have hsys : isValidSyscall lim s = true ↔ 1 ≤ s ∧ s ≤ lim.nrSyscalls := by
    simp [isValidSyscall, myCustomSyscall]
    omega
  have hpid : isValidPid c pid = true ↔ pid = 0 ∨ 0 < pid ∧ (c.owner pid).isSome := by
    unfold isValidPid
    split
    · simp
      omega
    split
    · simp [*]
    · have : 0 < pid := by omega
      simp [*]
  simp [hcmd, hsys, hpid, Monitor.Valid, and_assoc]

theorem allowed_iff : hasPermissions c cmd pid = true ↔ Monitor.Allowed c cmd pid := by
  unfold hasPermissions Monitor.Allowed
  split
  · have : c.uid = 0 := by simpa [isRoot] using ‹isRoot c = true›
    simp [this]
  have hroot : c.uid ≠ 0 := by simpa [isRoot] using ‹¬ isRoot c = true›
  split
  · split
    · simp [*]
    · simp [checkPidFromList, eperm, *]
  · simp [*]

/-! ## The commands -/

/-- A pid goes on a list if there is memory for it, which leaves the mode alone. -/
theorem monitor_addPidSysc (hs : 1 ≤ s ∧ s ≤ lim.nrSyscalls) :
    ((addPidSysc c pid s k).1, (addPidSysc c pid s k).2.monitor lim)
      = (k.monitor lim).addPid c s pid := by
  rw [addPidSysc, Monitor.addPid]
  cases c.kmallocOk with
  | false => rfl
  | true =>
    simp only [Bool.not_true, Bool.false_eq_true, if_false, if_true, Prod.mk.injEq, true_and]
    rw [monitor_setRow hs (by exact rfl), monitor_watch hs, TableRow.watch, List.toFinset_cons]
    rfl

theorem monitor_delPidSysc (hs : 1 ≤ s ∧ s ≤ lim.nrSyscalls) (hrow : (k.table s).WellFormed)
    (hold : pid ∈ (k.table s).myList) :
    ((delPidSysc pid s k).1, (delPidSysc pid s k).2.monitor lim)
      = (0, (k.monitor lim).setWatch s (((k.monitor lim).watch s).erase pid)) := by
  have hone : (delPidSysc pid s k).1 = 0 := by
    rw [delPidSysc]
    exact congrArg Prod.fst (if_pos hold)
  rw [hone, delPidSysc_of_mem hold, monitor_setRow hs (by exact countOff_intercepted _),
    hrow.watch_remove hold, monitor_watch hs]

/-- START, once its arguments and permissions are checked. -/
theorem monitor_start (hs : 1 ≤ s ∧ s ≤ lim.nrSyscalls) (hrow : (k.table s).WellFormed) :
    let r := if isBusy k requestStartMonitoring s pid then (-ebusy, k)
      else handleStartMonitoring c s pid k
    (r.1, r.2.monitor lim) = (k.monitor lim).start c s pid := by
  intro r
  have hothers : (k.table s).watch.others = decide ((k.table s).monitored = 2) := rfl
  rw [Monitor.start, monitor_watch hs, hrow.watch_includes]
  by_cases hpid : pid = 0
  · subst hpid
    rw [if_pos rfl, hothers]
    by_cases htwo : (k.table s).monitored = 2
    · simp [r, (isBusy_all_iff hrow).mpr htwo, htwo]
    · have hbusy : isBusy k requestStartMonitoring s 0 = false := by
        rw [← Bool.not_eq_true, isBusy_all_iff hrow]
        exact htwo
      simp only [r, hbusy, htwo, handleStartMonitoring, destroyList, Bool.false_eq_true, if_false,
        if_true, decide_false, setRow_setRow, Prod.mk.injEq, true_and]
      rw [monitor_setRow hs (by simp [Kernel.getRow])]
      simp [TableRow.watch, Watch.everybody, Kernel.getRow]
  · have hbusy : isBusy k requestStartMonitoring s pid = (k.table s).monitors pid := by
      simp [isBusy, hpid, requestStartMonitoring, requestSyscallIntercept, isPidMonitored_eq]
    rw [if_neg hpid, hothers]
    simp only [r, hbusy]
    cases hmon : (k.table s).monitors pid with
    | true => simp
    | false =>
      simp only [Bool.false_eq_true, if_false, handleStartMonitoring, if_neg hpid]
      by_cases htwo : (k.table s).monitored = 2
      · have hold : pid ∈ (k.table s).myList := by
          simpa [TableRow.monitors, htwo] using hmon
        have htwo' : (k.getRow s).monitored = 2 := htwo
        rw [if_pos htwo', monitor_delPidSysc hs hrow hold, decide_eq_true htwo, if_pos rfl,
          monitor_watch hs]
      · have htwo' : ¬ (k.getRow s).monitored = 2 := htwo
        have hmode : (k.getRow s).monitored = 1 ∨ (k.getRow s).monitored = 0 := by
          have := hrow.mode
          simp only [Kernel.getRow]
          omega
        rw [if_neg htwo', if_pos hmode, decide_eq_false htwo, if_neg Bool.false_ne_true,
          addPidSysc, Monitor.addPid]
        cases c.kmallocOk with
        | false => simp [enomem]
        | true =>
          simp only [Bool.not_true, Bool.false_eq_true, if_false, if_true, setRow_setRow,
            Prod.mk.injEq, true_and]
          rw [monitor_setRow hs (by simp [Kernel.getRow]), monitor_watch hs]
          simp [TableRow.watch, Watch.insert, Kernel.getRow, htwo]

/-- STOP, once its arguments and permissions are checked. -/
theorem monitor_stop (hs : 1 ≤ s ∧ s ≤ lim.nrSyscalls) (hrow : (k.table s).WellFormed) :
    let r := if !isContextCorrect k requestStopMonitoring s pid then (-einval, k)
      else handleStopMonitoring c s pid k
    (r.1, r.2.monitor lim) = (k.monitor lim).stop c s pid := by
  intro r
  have hothers : (k.table s).watch.others = decide ((k.table s).monitored = 2) := rfl
  rw [Monitor.stop, monitor_watch hs, monitor_intercepted hs, hrow.watch_includes]
  by_cases hpid : pid = 0
  · subst hpid
    have hcontext : isContextCorrect k requestStopMonitoring s 0
        = decide ((k.table s).monitored ≠ 0) := by
      rw [Bool.eq_iff_iff]
      simp [isContextCorrect, requestStopMonitoring, requestSyscallRelease, Kernel.getRow]
    simp only [r, hcontext, if_true, hrow.watch_eq_nobody]
    by_cases hzero : (k.table s).monitored = 0
    · simp [hzero]
    · simp only [hzero, handleStopMonitoring, destroyList, decide_not, decide_false, Bool.not_true,
        Bool.not_false, Bool.false_eq_true, if_false, if_true, setRow_setRow, Prod.mk.injEq,
        true_and]
      rw [monitor_setRow hs (by simp [Kernel.getRow])]
      simp [TableRow.watch, Watch.nobody, Kernel.getRow]
  · have hcontext : isContextCorrect k requestStopMonitoring s pid
        = ((k.table s).monitors pid && decide ((k.table s).intercepted ≠ 0)) := by
      rw [Bool.eq_iff_iff]
      simp [isContextCorrect, requestStopMonitoring, requestSyscallRelease, Kernel.getRow, hpid,
        isPidMonitored_eq]
    rw [if_neg hpid, hothers]
    simp only [r, hcontext, Bool.not_and]
    cases hmon : (k.table s).monitors pid with
    | false => simp
    | true =>
      by_cases hi : (k.table s).intercepted = 0
      · simp [hi]
      · simp only [hi, ne_eq, not_false_eq_true, decide_true, Bool.not_true, Bool.or_false,
          Bool.false_eq_true, if_false, handleStopMonitoring, if_neg hpid]
        by_cases htwo : (k.table s).monitored = 2
        · have htwo' : (k.getRow s).monitored = 2 := htwo
          rw [if_pos htwo', monitor_addPidSysc hs, decide_eq_true htwo, if_pos rfl]
        · have htwo' : ¬ (k.getRow s).monitored = 2 := htwo
          have hold : pid ∈ (k.table s).myList := by
            rcases hrow.mode with hm | hm | hm
            · simp [TableRow.monitors, hm] at hmon
            · simpa [TableRow.monitors, hm] using hmon
            · exact absurd hm htwo
          rw [if_neg htwo', monitor_delPidSysc hs hrow hold, decide_eq_false htwo,
            if_neg Bool.false_ne_true, monitor_watch hs]

/-- **A command does to the monitor what `my_syscall` does to the tables.** -/
theorem monitor_mySyscall (hk : RowsWellFormed lim k) (c : Caller) (cmd s pid : Int) :
    ((mySyscall lim c cmd s pid k).1, (mySyscall lim c cmd s pid k).2.monitor lim)
      = (k.monitor lim).command lim c cmd s pid := by
  rw [mySyscall, Monitor.command]
  by_cases hvalid : Monitor.Valid lim c cmd s pid
  swap
  · have hbad := Bool.eq_true_of_not_eq_false (mt valid_iff.mp hvalid)
    rw [if_pos hbad, if_pos hvalid]
  rw [if_neg (by simp [valid_iff.mpr hvalid]), if_neg (not_not_intro hvalid)]
  by_cases hallowed : Monitor.Allowed c cmd pid
  swap
  · have hbad := Bool.not_eq_true _ ▸ mt allowed_iff.mp hallowed
    rw [if_pos (by simp [hbad]), if_pos hallowed]
  rw [if_neg (by simp [allowed_iff.mpr hallowed]), if_neg (not_not_intro hallowed)]
  obtain ⟨hcmd, hs, -⟩ := hvalid
  have hrow := hk s (by omega) hs.2
  have hcases : cmd = requestSyscallIntercept ∨ cmd = requestSyscallRelease ∨
      cmd = requestStartMonitoring ∨ cmd = requestStopMonitoring := by
    simp only [requestSyscallIntercept, requestSyscallRelease, requestStartMonitoring,
      requestStopMonitoring]
    omega
  rcases hcases with rfl | rfl | rfl | rfl
  · by_cases hi : (k.table s).intercepted = 0
    · simp [isContextCorrect, isBusy, requestSyscallIntercept, requestSyscallRelease,
        requestStartMonitoring, requestStopMonitoring, handleSyscallIntercept, Kernel.getRow, hi,
        monitor_intercepted hs, monitor_setFlag hs]
    · simp [isContextCorrect, isBusy, requestSyscallIntercept, requestSyscallRelease,
        requestStopMonitoring, Kernel.getRow, hi, monitor_intercepted hs]
  · by_cases hi : (k.table s).intercepted = 0
    · simp [isContextCorrect, requestSyscallIntercept, requestSyscallRelease, Kernel.getRow, hi,
        monitor_intercepted hs]
    · have hflag := monitor_setFlag (k := k) hs (k.table s).f (k.table s).f 0
      simp [isContextCorrect, isBusy, requestSyscallIntercept, requestSyscallRelease,
        requestStartMonitoring, requestStopMonitoring, handleSyscallRelease, Kernel.getRow, hi,
        monitor_intercepted hs, hflag]
  · have hcontext : isContextCorrect k requestStartMonitoring s pid = true := by
      simp [isContextCorrect, requestStartMonitoring, requestStopMonitoring, requestSyscallRelease]
    simp only [hcontext, Bool.not_true, Bool.false_eq_true, if_false, if_true,
      show requestStartMonitoring ≠ requestSyscallIntercept by decide,
      show requestStartMonitoring ≠ requestSyscallRelease by decide]
    exact monitor_start hs hrow
  · have hbusy : isBusy k requestStopMonitoring s pid = false := by
      simp [isBusy, requestStopMonitoring, requestSyscallIntercept, requestStartMonitoring]
    simp only [hbusy, Bool.false_eq_true, if_false, if_true,
      show requestStopMonitoring ≠ requestSyscallIntercept by decide,
      show requestStopMonitoring ≠ requestSyscallRelease by decide,
      show requestStopMonitoring ≠ requestStartMonitoring by decide]
    exact monitor_stop hs hrow

/-- **An exit does to the monitor what `my_exit_group` does to the tables.** -/
theorem monitor_myExitGroup (hk : RowsWellFormed lim k) (c : Caller) :
    (myExitGroup lim c k).monitor lim = (k.monitor lim).exit lim c.pid := by
  have hflag := (samePointers_delPid lim c.pid k).intercepted
  rw [myExitGroup, Kernel.monitor, Kernel.monitor, Monitor.exit, Monitor.mk.injEq]
  refine ⟨by simp only [hflag], funext fun s => ?_⟩
  dsimp only
  rw [delPid_table]
  by_cases hs : 1 ≤ s ∧ s ≤ lim.nrSyscalls
  · have hrow := hk s (by omega) hs.2
    rw [if_pos hs, if_pos hs]
    by_cases hlt : 1 ≤ s ∧ s < lim.nrSyscalls
    · rw [if_pos hlt, if_pos hlt, hrow.watch_delPidRow]
    · rw [if_neg hlt, if_neg hlt]
  · rw [if_neg hs, if_neg (fun hlt => hs ⟨hlt.1, hlt.2.le⟩), if_neg hs]

theorem monitor_initFunction (lim : Limits) (k : Kernel) :
    (initFunction lim k).monitor lim = .fresh := by
  have htable : ∀ s : Int, 1 ≤ s ∧ s ≤ lim.nrSyscalls →
      (initFunction lim k).table s = ⟨(initFunction lim k).sysCallTable s, 0, 0, 0, []⟩ := by
    intro s hs
    rw [initFunction, foldl_initRow]
    exact if_pos (by omega)
  rw [Kernel.monitor, Monitor.fresh, Monitor.mk.injEq]
  constructor <;> funext s <;> by_cases hs : 1 ≤ s ∧ s ≤ lim.nrSyscalls
  · simp [htable s hs]
  · simp [← and_assoc, hs]
  · simp [htable s hs, hs, TableRow.watch, Watch.nobody]
  · simp [hs]

end Table

/-! ## Calls through the table -/

/-- The state of the loaded module. -/
structure Loaded (lim : Limits) (orig : Int → Nat) (k : Kernel) : Prop where
  rows : RowsWellFormed lim k
  restorable : Restorable lim (fun i => .kernel (orig i)) k

/-- The constants of the kernel: `exit_group` is not system call 0, and an `int` holds the number of
every system call. -/
structure Limits.Sized (lim : Limits) : Prop where
  exitGroup : lim.nrExitGroup ≠ 0
  int : lim.nrSyscalls < 2 ^ 31

/-- A `pid_t`. -/
def Caller.Sized (c : Caller) : Prop := -2 ^ 31 ≤ c.pid ∧ c.pid < 2 ^ 31

section Call

variable {lim : Limits} {orig : Int → Nat} {k : Kernel} {c : Caller} {reg : PtRegs}

theorem Loaded.step (h : Loaded lim orig k) (e : Event) : Loaded lim orig (step lim k e) :=
  ⟨step_rowsWellFormed h.rows e, step_restorable h.restorable e⟩

theorem loaded_initFunction (horig : k.sysCallTable = fun i => .kernel (orig i)) :
    Loaded lim orig (initFunction lim k) :=
  ⟨rowsWellFormed_initFunction lim k, horig ▸ restorable_initFunction lim k⟩

/-- What the routine that the module leaves in the table, or saves in a row, does with a call. -/
theorem callRoutine_hijacked (h : Loaded lim orig k) (hlim : lim.Sized) (c : Caller) (reg : PtRegs)
    (fuel : Nat) :
    ∃ k', callRoutine lim c reg (fuel + 1)
        (hijacked lim (fun i => .kernel (orig i)) reg.ax.toNat) k
        = some (⟨[], ((k.monitor lim).serve lim orig c reg).1⟩, k') ∧
      k'.monitor lim = ((k.monitor lim).serve lim orig c reg).2 ∧ Loaded lim orig k' := by
  rw [Monitor.serve]
  by_cases hax : reg.ax = 0
  · have hne : myCustomSyscall ≠ lim.nrExitGroup := by
      have := hlim.exitGroup
      rw [myCustomSyscall]
      omega
    have hentry : ((reg.ax.toNat : Nat) : Int) = myCustomSyscall := by simp [hax, myCustomSyscall]
    have hcommand := monitor_mySyscall h.rows c reg.bx.toInt reg.cx.toInt reg.dx.toInt
    rw [if_pos hax, hentry, hijacked, Function.update_of_ne hne, Function.update_self, callRoutine,
      ← hcommand]
    exact ⟨_, rfl, rfl, h.step (.mySyscall c _ _ _)⟩
  rw [if_neg hax]
  by_cases hexit : reg.ax.toNat = lim.nrExitGroup
  · rw [if_pos hexit, hijacked, hexit, Function.update_self, callRoutine, h.restorable.exitGroup]
    exact ⟨_, rfl, monitor_myExitGroup h.rows c, h.step (.myExitGroup c)⟩
  · have hzero : ((reg.ax.toNat : Nat) : Int) ≠ myCustomSyscall := by
      have : reg.ax.toNat ≠ 0 := fun hz => hax (BitVec.eq_of_toNat_eq (by simpa using hz))
      rw [myCustomSyscall]
      omega
    rw [if_neg hexit, hijacked_of_ne _ _ hzero (by omega), callRoutine]
    exact ⟨_, rfl, rfl, h⟩

/-- `interceptor` logs the calls of the processes that are watched. -/
theorem interceptorLog_eq (h : Loaded lim orig k) (hc : c.Sized)
    (hax : reg.ax.toInt = reg.ax.toNat) (hi : (k.monitor lim).intercepted reg.ax.toNat = true) :
    interceptorLog c reg k = (k.monitor lim).logged c reg := by
  obtain ⟨hlow, hhigh, -⟩ := of_decide_eq_true hi
  have hpid : (BitVec.ofInt 32 c.pid).toInt = c.pid := by
    rw [BitVec.toInt_ofInt]
    exact Int.bmod_eq_of_le (by simpa using hc.1) (by simpa using hc.2)
  rw [interceptorLog, Monitor.logged, hi, monitor_watch ⟨hlow, hhigh⟩,
    (h.rows _ (by omega) hhigh).watch_includes, hax, hpid, isPidMonitored_eq, Bool.true_and]

/-- **A call through the table is a call of the monitor.**  It is not nested deeper than
`interceptor` and one routine, it is served by the routine the module was loaded over, and it is
logged exactly if the monitor says so. -/
theorem userCall_loaded (h : Loaded lim orig k) (hlim : lim.Sized) (hc : c.Sized) (reg : PtRegs)
    (fuel : Nat) :
    ∃ k', userCall lim (fuel + 2) c reg k = some (((k.monitor lim).call lim orig c reg).1, k') ∧
      k'.monitor lim = ((k.monitor lim).call lim orig c reg).2 ∧ Loaded lim orig k' := by
  rw [userCall, Monitor.call]
  cases hi : (k.monitor lim).intercepted reg.ax.toNat with
  | true =>
    obtain ⟨hlow, hhigh, hflag⟩ := of_decide_eq_true hi
    have hint : reg.ax.toInt = reg.ax.toNat := BitVec.toInt_eq_toNat_of_lt (by
      have := hlim.int
      omega)
    obtain ⟨k', hcall, hmon, hk'⟩ := callRoutine_hijacked h hlim c reg fuel
    rw [h.restorable.diverted _ hlow hhigh hflag, callRoutine, Kernel.getRow, hint,
      h.restorable.saved _ (by omega) hhigh, hcall, interceptorLog_eq h hc hint hi]
    exact ⟨k', by simp, hmon, hk'⟩
  | false =>
    have hnot := of_decide_eq_false hi
    obtain ⟨k', hcall, hmon, hk'⟩ := callRoutine_hijacked h hlim c reg (fuel + 1)
    rw [h.restorable.direct _ fun hlow hhigh => by
      by_contra hflag
      exact hnot ⟨hlow, hhigh, hflag⟩, hcall]
    exact ⟨k', by simp [Monitor.logged, hi], hmon, hk'⟩

end Call

/-! ## Runs -/

section Runs

variable {lim : Limits} {orig : Int → Nat}

/-- The system and the monitor of one moment of a run. -/
def Represents (lim : Limits) (orig : Int → Nat) (sys : System) : Option Monitor → Prop
  | none => sys.loaded = false ∧ sys.kernel.sysCallTable = fun i => .kernel (orig i)
  | some m => sys.loaded = true ∧ sys.kernel.monitor lim = m ∧ Loaded lim orig sys.kernel

/-- Every process has a `pid_t`. -/
def Action.Sized : Action → Prop
  | .call c _ => c.Sized
  | _ => True

/-- One action.  Unloading puts the table back, so a call without the module is served directly, and
the next loading starts afresh. -/
theorem Represents.step {sys : System} {m : Option Monitor} (h : Represents lim orig sys m)
    (hlim : lim.Sized) {a : Action} (ha : a.Sized) (fuel : Nat) :
    ∃ sys', sys.step lim (fuel + 2) a = some ((Monitor.step lim orig m a).1, sys') ∧
      Represents lim orig sys' (Monitor.step lim orig m a).2 := by
  cases m with
  | none =>
    obtain ⟨hfalse, htable⟩ := h
    cases a with
    | load =>
      simp only [System.step, hfalse, Monitor.step]
      exact ⟨_, rfl, rfl, monitor_initFunction lim _, loaded_initFunction htable⟩
    | unload =>
      simp only [System.step, hfalse, Monitor.step]
      exact ⟨_, rfl, hfalse, htable⟩
    | call c reg =>
      simp only [System.step, userCall, htable, callRoutine, Option.map_some, Monitor.step]
      exact ⟨_, rfl, hfalse, htable⟩
  | some m =>
    obtain ⟨htrue, rfl, hk⟩ := h
    cases a with
    | load =>
      simp only [System.step, htrue, Monitor.step]
      exact ⟨_, rfl, htrue, rfl, hk⟩
    | unload =>
      simp only [System.step, htrue, Monitor.step]
      exact ⟨_, rfl, rfl, funext (exitFunction_sysCallTable hk.restorable)⟩
    | call c reg =>
      obtain ⟨k', hcall, hmon, hk'⟩ := userCall_loaded hk hlim ha reg fuel
      simp only [System.step, hcall, Option.map_some, Monitor.step]
      exact ⟨_, rfl, htrue, hmon, hk'⟩

theorem Represents.run (hlim : lim.Sized) (fuel : Nat) (actions : List Action)
    (hactions : ∀ a ∈ actions, a.Sized) {sys : System} {m : Option Monitor}
    (h : Represents lim orig sys m) :
    ∃ sys', sys.run lim (fuel + 2) actions = some ((Monitor.run lim orig m actions).1, sys') ∧
      Represents lim orig sys' (Monitor.run lim orig m actions).2 := by
  induction actions generalizing sys m with
  | nil => exact ⟨sys, rfl, h⟩
  | cons a as ih =>
    obtain ⟨sys₁, hstep, h₁⟩ := h.step hlim (hactions a List.mem_cons_self) fuel
    obtain ⟨sys₂, hrun, h₂⟩ := ih (fun b hb => hactions b (List.mem_cons_of_mem a hb)) h₁
    exact ⟨sys₂, by simp [System.run, hstep, hrun, Monitor.run], h₂⟩

/-- **The module refines the monitor.**  In every run of loads, unloads and calls, every call is
logged, answered and served as the monitor says; in particular none of them gets lost between the
routines, and the routine that serves it is the one the module was loaded over. -/
theorem run_refines (hlim : lim.Sized) (k : Kernel)
    (horig : k.sysCallTable = fun i => .kernel (orig i)) (actions : List Action)
    (hactions : ∀ a ∈ actions, a.Sized) (fuel : Nat) :
    ∃ sys, System.run lim (fuel + 2) ⟨false, k⟩ actions
        = some ((Monitor.run lim orig none actions).1, sys) ∧
      Represents lim orig sys (Monitor.run lim orig none actions).2 :=
  Represents.run hlim fuel actions hactions ⟨rfl, horig⟩

/-- Root intercepts system call 5 and watches process 7, which makes the call and exits. -/
theorem run_refines_example :
    ∃ sys, System.run ⟨350, 252⟩ 2 ⟨false, plainKernel⟩
        [.load, .call ⟨1, 0, fun _ => some 0, true⟩ ⟨0, 1, 5, 0, 0, 0, 0⟩,
          .call ⟨1, 0, fun _ => some 0, true⟩ ⟨0, 3, 5, 7, 0, 0, 0⟩,
          .call ⟨7, 9, fun _ => some 9, true⟩ ⟨5, 26, 0, 0, 0, 0, 0⟩,
          .call ⟨7, 9, fun _ => some 9, true⟩ ⟨252, 1, 0, 0, 0, 0, 0⟩]
      = some ([none, some ⟨[], .status 0⟩, some ⟨[], .status 0⟩,
          some ⟨["[7]5(1a,0,0,0,0,0)\n"], .kernel 5 ⟨5, 26, 0, 0, 0, 0, 0⟩⟩,
          some ⟨[], .exitGroup 252 1⟩], sys) := by
  obtain ⟨sys, hrun, -⟩ := run_refines
    (show Limits.Sized ⟨350, 252⟩ from ⟨by decide, by decide⟩) plainKernel
    (show plainKernel.sysCallTable = fun i => .kernel (Int.toNat i) from rfl)
    [.load, .call ⟨1, 0, fun _ => some 0, true⟩ ⟨0, 1, 5, 0, 0, 0, 0⟩,
      .call ⟨1, 0, fun _ => some 0, true⟩ ⟨0, 3, 5, 7, 0, 0, 0⟩,
      .call ⟨7, 9, fun _ => some 9, true⟩ ⟨5, 26, 0, 0, 0, 0, 0⟩,
      .call ⟨7, 9, fun _ => some 9, true⟩ ⟨252, 1, 0, 0, 0, 0, 0⟩]
    (by simp [Action.Sized, Caller.Sized]) 0
  refine ⟨sys, hrun.trans (congrArg (fun os => some (os, sys)) ?_)⟩
  decide +kernel

end Runs

end Interceptor
end OsAssignments
