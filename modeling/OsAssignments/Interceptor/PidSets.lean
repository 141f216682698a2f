import OsAssignments.Interceptor.Monitor

/-!
# A row as a set of pids

What a row is for: it says of every process whether its calls are logged.  `monitoredSet`
is that set, and every accepted command changes it by the pid it names and by nothing
else, in whichever mode the row happens to be.

* `MonitorStep.monitors_eq` — one step, in either mode.
* `monitoring_refines_pid_sets` — every command, in every reachable state.
* `user_cannot_affect_others` — without root permissions, only the caller's own
  processes are affected, and no pointer is.
* `table_rows_wellFormed`, `rejected_command_changes_nothing` — the state after any run,
  and after a command that returns an error.
-/

namespace OsAssignments
namespace Interceptor

/-! ## One row -/

theorem MonitorStep.pointers {cmd pid : Int} {row row' : TableRow}
    (hstep : MonitorStep cmd pid row row') :
    row'.f = row.f ∧ row'.intercepted = row.intercepted := by
  cases hstep with
  | startUnlisted | stopUnlisted => exact ⟨countOff_f _, countOff_intercepted _⟩
  | _ => exact ⟨rfl, rfl⟩

/-- Taking a pid off the list decides about that pid and no other. -/
theorem TableRow.WellFormed.remove_monitors {row : TableRow} {pid : Int} (h : row.WellFormed)
    (hold : pid ∈ row.myList) (q : Int) :
    (row.remove pid).monitors q
      = if q = pid then decide (row.monitored = 2) else row.monitors q := by
  have hmem : q ∈ row.myList.erase pid ↔ q ≠ pid ∧ q ∈ row.myList := h.nodup.mem_erase_iff
  have hmode := h.remove_monitored_eq hold
  rcases h.mode with h0 | h1 | h2
  · rw [h.empty h0] at hold
    simp at hold
  · by_cases hlast : row.myList.erase pid = []
    · rw [h1, if_pos ⟨rfl, hlast⟩] at hmode
      rw [hlast] at hmem
      by_cases hq : q = pid
      · simp [TableRow.monitors, hmode, hq, h1]
      · simpa [TableRow.monitors, hmode, hq, h1] using hmem
    · rw [h1, if_neg (fun hc => hlast hc.2)] at hmode
      by_cases hq : q = pid
      · subst hq
        simpa [TableRow.monitors, hmode, h1] using hmem
      · simp [TableRow.monitors, hmode, hq, h1, hmem]
  · rw [h2, if_neg (by simp)] at hmode
    by_cases hq : q = pid
    · subst hq
      simpa [TableRow.monitors, hmode, h2] using hmem
    · simp [TableRow.monitors, hmode, hq, h2, hmem]

/-- **A step decides about the pids the command names.**  All of them for pid 0, else one;
and each of them is monitored afterwards exactly if the command was START. -/
theorem MonitorStep.monitors_eq {cmd pid : Int} {row row' : TableRow} (h : row.WellFormed)
    (hstep : MonitorStep cmd pid row row') (q : Int) :
    row'.monitors q = if pid = 0 ∨ q = pid then decide (cmd = requestStartMonitoring)
      else row.monitors q := by
  cases hstep with
  | startAll hcmd hpid => simp [TableRow.monitors, hcmd, hpid]
  | startListed hcmd hpid hmode hnew =>
    rcases hmode with h0 | h1
    · by_cases hq : q = pid <;> simp [TableRow.monitors, hcmd, hpid.ne', hq, h0, h.empty h0]
    · by_cases hq : q = pid <;> simp [TableRow.monitors, hcmd, hpid.ne', hq, h1]
  | startUnlisted hcmd hpid hmode hold =>
    rw [h.remove_monitors hold]
    by_cases hq : q = pid <;> simp [hcmd, hpid.ne', hq, hmode]
  | stopAll hcmd hpid =>
    simp [TableRow.monitors, hcmd, hpid, requestStartMonitoring, requestStopMonitoring]
  | stopListed hcmd hpid hmode hnew =>
    by_cases hq : q = pid <;>
      simp [TableRow.monitors, hcmd, hpid.ne', hq, hmode, requestStartMonitoring,
        requestStopMonitoring]
  | stopUnlisted hcmd hpid hmode hold =>
    rw [h.remove_monitors hold]
    by_cases hq : q = pid <;>
      simp [hcmd, hpid.ne', hq, hmode, requestStartMonitoring, requestStopMonitoring]

theorem handleSyscallIntercept_monitors (s t q : Int) (k : Kernel) :
    ((handleSyscallIntercept s k).2.table t).monitors q = (k.table t).monitors q := by
  by_cases hts : t = s
  · subst hts
    simp [handleSyscallIntercept, Kernel.getRow, TableRow.monitors]
  · simp [handleSyscallIntercept, Function.update_of_ne hts]

theorem handleSyscallRelease_monitors (s t q : Int) (k : Kernel) :
    ((handleSyscallRelease s k).2.table t).monitors q = (k.table t).monitors q := by
  by_cases hts : t = s
  · subst hts
    simp [handleSyscallRelease, Kernel.getRow, TableRow.monitors]
  · simp [handleSyscallRelease, Function.update_of_ne hts]

/-- A command decides about the pids it names on its own system call, if it is an accepted
START or STOP; everything else stays. -/
theorem mySyscall_isPidMonitored {lim : Limits} {k : Kernel} (hk : RowsWellFormed lim k)
    (c : Caller) (cmd s pid q t : Int) :
    isPidMonitored (mySyscall lim c cmd s pid k).2 q t =
      if ((mySyscall lim c cmd s pid k).1 = 0 ∧
          (cmd = requestStartMonitoring ∨ cmd = requestStopMonitoring)) ∧
        t = s ∧ (pid = 0 ∨ q = pid) then decide (cmd = requestStartMonitoring)
      else isPidMonitored k q t := by
  simp only [isPidMonitored_eq]
  rcases mySyscall_cases hk c cmd s pid with
    ⟨hne, heq⟩ | ⟨hzero, hadm, ⟨hcmd, heq⟩ | ⟨hcmd, heq⟩ | ⟨row', hstep, heq⟩⟩
  · rw [heq, if_neg (fun h => hne h.1.1)]
  · rw [heq, if_neg (by rw [hcmd]; simp [requestSyscallIntercept, requestStartMonitoring,
      requestStopMonitoring]), handleSyscallIntercept_monitors]
  · rw [heq, if_neg (by rw [hcmd]; simp [requestSyscallRelease, requestStartMonitoring,
      requestStopMonitoring]), handleSyscallRelease_monitors]
  · have hrow := hk s (by have := hadm.validSyscall; omega) hadm.validSyscall.2
    rw [heq, Kernel.setRow_table]
    by_cases hts : t = s
    · subst hts
      rw [Function.update_self, hstep.monitors_eq hrow]
      simp [hzero, hstep.cmd_eq]
    · rw [Function.update_of_ne hts, if_neg (fun h => hts h.2.1)]

/-! ## Runs -/

/-- **The representation invariant.**  In every reachable state every row's counter is the
length of its list, its list has no pid twice and no pid below 1, its mode is one of the
three, the list is empty in mode 0 and not in mode 1. -/
theorem table_rows_wellFormed (lim : Limits) (k : Kernel) (events : List Event) (s : Int)
    (hs : 0 ≤ s) (hs' : s ≤ lim.nrSyscalls) :
    ((runFrom lim k events).table s).WellFormed :=
  rowsWellFormed_runFrom lim k events s hs hs'

/-- A kernel whose entries are its own routines. -/
def plainKernel : Kernel :=
  ⟨fun i => .kernel i.toNat, fun _ => ⟨.kernel 0, 0, 0, 0, []⟩, .kernel 0, .kernel 0⟩

theorem table_rows_wellFormed_example :
    ((runFrom ⟨5, 3⟩ plainKernel
      [.mySyscall ⟨1, 0, fun _ => some 0, true⟩ 3 5 7]).table 5).WellFormed :=
  table_rows_wellFormed ⟨5, 3⟩ plainKernel _ 5 (by norm_num) (by norm_num)

/-- **A rejected command changes nothing**, and is rejected with the same value again. -/
theorem rejected_command_changes_nothing (lim : Limits) (k₀ : Kernel) (events : List Event)
    (c : Caller) (cmd s pid : Int) :
    let k := runFrom lim k₀ events
    let r := mySyscall lim c cmd s pid k
    r.1 ≠ 0 → r.2 = k ∧ (mySyscall lim c cmd s pid r.2).1 = r.1 := by
  intro k r hne
  have heq : r.2 = k := mySyscall_eq_of_ne_zero hne
  exact ⟨heq, by rw [heq]⟩

theorem rejected_command_example :
    (mySyscall ⟨5, 3⟩ ⟨1, 0, fun _ => some 0, false⟩ 3 5 7 (runFrom ⟨5, 3⟩ plainKernel [])).2
      = runFrom ⟨5, 3⟩ plainKernel [] :=
  (rejected_command_changes_nothing ⟨5, 3⟩ plainKernel [] ⟨1, 0, fun _ => some 0, false⟩ 3 5 7
    (by decide +kernel)).1

/-- The pids monitored for a system call. -/
def monitoredSet (k : Kernel) (s : Int) : Set Int := {p | 0 < p ∧ isPidMonitored k p s = true}

theorem monitoredSet_congr {k k' : Kernel} {s : Int}
    (h : ∀ q, isPidMonitored k' q s = isPidMonitored k q s) :
    monitoredSet k' s = monitoredSet k s := by
  ext q
  simp [monitoredSet, h]

/-- **Monitoring refines a set of pids per system call.**  An accepted START or STOP adds
or removes its pid, or fills or empties the set for pid 0; the set of no other system call
changes, and INTERCEPT and RELEASE change none. -/
theorem monitoring_refines_pid_sets (lim : Limits) (k₀ : Kernel) (events : List Event)
    (c : Caller) (cmd s pid : Int) :
    let k := runFrom lim k₀ events
    let r := mySyscall lim c cmd s pid k
    (r.1 = 0 → cmd = requestStartMonitoring → 0 < pid →
      monitoredSet r.2 s = monitoredSet k s ∪ {pid}) ∧
    (r.1 = 0 → cmd = requestStopMonitoring → 0 < pid →
      monitoredSet r.2 s = monitoredSet k s \ {pid}) ∧
    (r.1 = 0 → cmd = requestStartMonitoring → pid = 0 → monitoredSet r.2 s = {p | 0 < p}) ∧
    (r.1 = 0 → cmd = requestStopMonitoring → pid = 0 → monitoredSet r.2 s = ∅) ∧
    (∀ t, t ≠ s → monitoredSet r.2 t = monitoredSet k t) ∧
    (cmd = requestSyscallIntercept ∨ cmd = requestSyscallRelease →
      ∀ t, monitoredSet r.2 t = monitoredSet k t) := by
  intro k r
  have hall : ∀ q t, isPidMonitored r.2 q t =
      if (r.1 = 0 ∧ (cmd = requestStartMonitoring ∨ cmd = requestStopMonitoring)) ∧
        t = s ∧ (pid = 0 ∨ q = pid) then decide (cmd = requestStartMonitoring)
      else isPidMonitored k q t :=
    mySyscall_isPidMonitored (rowsWellFormed_runFrom lim k₀ events) c cmd s pid
  clear_value k r
  refine ⟨fun hr hcmd hpid => ?_, fun hr hcmd hpid => ?_, fun hr hcmd hpid => ?_,
    fun hr hcmd hpid => ?_, fun t hts => monitoredSet_congr fun q => ?_,
    fun hcmd t => monitoredSet_congr fun q => ?_⟩
  · ext q
    have hq := hall q s
    by_cases hqp : q = pid
    · subst hqp
      simpa [monitoredSet, hpid, hcmd] using hq.trans (by simp [hr, hcmd])
    · rw [if_neg (by simp [hqp, hpid.ne'])] at hq
      simp [monitoredSet, hq, hqp]
  · ext q
    have hq := hall q s
    by_cases hqp : q = pid
    · subst hqp
      simpa [monitoredSet, hpid, hcmd] using
        hq.trans (by simp [hr, hcmd, requestStartMonitoring, requestStopMonitoring])
    · rw [if_neg (by simp [hqp, hpid.ne'])] at hq
      simp [monitoredSet, hq, hqp]
  · ext q
    have hq := hall q s
    rw [if_pos ⟨⟨hr, .inl hcmd⟩, rfl, .inl hpid⟩] at hq
    simp [monitoredSet, hq, hcmd]
  · ext q
    have hq := hall q s
    rw [if_pos ⟨⟨hr, .inr hcmd⟩, rfl, .inl hpid⟩, hcmd] at hq
    simp [monitoredSet, hq, requestStartMonitoring, requestStopMonitoring]
  · rw [hall, if_neg (fun h => hts h.2.1)]
  · rw [hall, if_neg]
    rintro ⟨⟨-, h⟩, -⟩
    rcases hcmd with hcmd | hcmd <;>
      simp [hcmd, requestSyscallIntercept, requestSyscallRelease, requestStartMonitoring,
        requestStopMonitoring] at h

/-- Process 7 is monitored, then every process, and then 7 is taken out: its list holds it first
as the one process monitored and in the end as the one that is not. -/
theorem monitoring_refines_pid_sets_example :
    monitoredSet (mySyscall ⟨5, 3⟩ ⟨1, 0, fun _ => some 0, true⟩ 4 5 7
        (runFrom ⟨5, 3⟩ plainKernel
          [.mySyscall ⟨1, 0, fun _ => some 0, true⟩ 1 5 0,
            .mySyscall ⟨1, 0, fun _ => some 0, true⟩ 3 5 7,
            .mySyscall ⟨1, 0, fun _ => some 0, true⟩ 3 5 0])).2 5
      = {p | 0 < p} \ {7} := by
  have hall := (monitoring_refines_pid_sets ⟨5, 3⟩ plainKernel
    [.mySyscall ⟨1, 0, fun _ => some 0, true⟩ 1 5 0,
      .mySyscall ⟨1, 0, fun _ => some 0, true⟩ 3 5 7]
    ⟨1, 0, fun _ => some 0, true⟩ 3 5 0).2.2.1 (by decide +kernel) rfl rfl
  have hout := (monitoring_refines_pid_sets ⟨5, 3⟩ plainKernel
    [.mySyscall ⟨1, 0, fun _ => some 0, true⟩ 1 5 0,
      .mySyscall ⟨1, 0, fun _ => some 0, true⟩ 3 5 7,
      .mySyscall ⟨1, 0, fun _ => some 0, true⟩ 3 5 0]
    ⟨1, 0, fun _ => some 0, true⟩ 4 5 7).2.1 (by decide +kernel) rfl (by norm_num)
  exact hout.trans (congrArg (· \ {7}) hall)

/-! ## Permissions -/

/-- The process an event comes from. -/
def Event.caller : Event → Caller
  | .mySyscall c _ _ _ => c
  | .myExitGroup c => c

/-- A command admitted without root permissions names one of the caller's own pids. -/
theorem owner_of_hasPermissions {c : Caller} {cmd pid : Int} (hroot : c.uid ≠ 0)
    (h : hasPermissions c cmd pid = true) :
    (cmd = requestStartMonitoring ∨ cmd = requestStopMonitoring) ∧ pid ≠ 0 ∧
      c.owner pid = c.owner c.pid := by
  unfold hasPermissions at h
  rw [if_neg (by simpa [isRoot] using hroot)] at h
  split at h
  · rename_i hcmd
    split at h
    · simp at h
    · rename_i hpid
      refine ⟨hcmd, hpid, ?_⟩
      by_contra hne
      simp [checkPidFromList, hne, eperm] at h
  · simp at h

theorem delPid_isPidMonitored {lim : Limits} {k : Kernel} (hk : RowsWellFormed lim k)
    {pid q : Int} (hne : q ≠ pid) (s : Int) :
    isPidMonitored (delPid lim pid k).2 q s = isPidMonitored k q s := by
  simp only [isPidMonitored_eq, delPid_table]
  split
  · rename_i hs
    have hrow := hk s (by omega) (by omega)
    rw [delPidRow_eq hrow.nodup]
    split
    · rename_i hold
      rw [hrow.remove_monitors hold, if_neg hne]
    · rfl
  · rfl

/-- **A user cannot affect others.**  Whatever a process without root permissions asks
for, no pointer and no `intercepted` flag changes, and no pid of another owner is
monitored for a system call it was not monitored for, or the other way round. -/
theorem user_cannot_affect_others (lim : Limits) (k₀ : Kernel) (events : List Event) (e : Event)
    (hroot : e.caller.uid ≠ 0) (hself : e.caller.owner e.caller.pid = some e.caller.uid) :
    let k := runFrom lim k₀ events
    let k' := step lim k e
    k'.sysCallTable = k.sysCallTable ∧
    (∀ s, (k'.table s).intercepted = (k.table s).intercepted ∧ (k'.table s).f = (k.table s).f) ∧
    ∀ s q u, 0 < q → e.caller.owner q = some u → u ≠ e.caller.uid →
      isPidMonitored k' q s = isPidMonitored k q s := by
  intro k k'
  have hk : RowsWellFormed lim k := rowsWellFormed_runFrom lim k₀ events
  have hother : ∀ {q u : _} {pid : Int}, e.caller.owner q = some u → u ≠ e.caller.uid →
      e.caller.owner pid = e.caller.owner e.caller.pid → q ≠ pid := by
    rintro q u pid hq hu hpid rfl
    rw [hq, hself] at hpid
    exact hu (Option.some.inj hpid)
  cases e with
  | myExitGroup c =>
    have hsame : SamePointers k k' := samePointers_delPid lim c.pid k
    exact ⟨hsame.sysCallTable, fun s => ⟨hsame.intercepted s, hsame.f s⟩,
      fun s q u _ hq hu => delPid_isPidMonitored hk (hother hq hu rfl) s⟩
  | mySyscall c cmd s pid =>
    have hpointers : SamePointers k (mySyscall lim c cmd s pid k).2 := by
      rcases mySyscall_cases hk c cmd s pid with
        ⟨-, heq⟩ | ⟨-, hadm, ⟨hcmd, -⟩ | ⟨hcmd, -⟩ | ⟨row', hstep, heq⟩⟩
      · rw [heq]
        exact SamePointers.refl k
      · have hown := (owner_of_hasPermissions hroot hadm.permission).1
        rw [hcmd] at hown
        simp [requestSyscallIntercept, requestStartMonitoring, requestStopMonitoring] at hown
      · have hown := (owner_of_hasPermissions hroot hadm.permission).1
        rw [hcmd] at hown
        simp [requestSyscallRelease, requestStartMonitoring, requestStopMonitoring] at hown
      · rw [heq]
        exact SamePointers.setRow k hstep.pointers.1 hstep.pointers.2
    refine ⟨hpointers.sysCallTable, fun t => ⟨hpointers.intercepted t, hpointers.f t⟩,
      fun t q u _ hq hu => ?_⟩
    refine (mySyscall_isPidMonitored hk c cmd s pid q t).trans (if_neg ?_)
    rintro ⟨⟨hzero, -⟩, -, hpid⟩
    obtain ⟨-, hpid0, hown⟩ :=
      owner_of_hasPermissions hroot (mySyscall_admitted hzero).1.permission
    exact hother hq hu hown (hpid.resolve_left hpid0)

/-- User 9 stops the monitoring of its process 7; process 8 of user 4 stays monitored. -/
theorem user_cannot_affect_others_example :
    isPidMonitored (step ⟨5, 3⟩ (runFrom ⟨5, 3⟩ plainKernel
        [.mySyscall ⟨1, 0, fun _ => some 0, true⟩ 1 5 0,
          .mySyscall ⟨1, 0, fun _ => some 0, true⟩ 3 5 0])
        (.mySyscall ⟨7, 9, fun p => if p = 8 then some 4 else some 9, true⟩ 4 5 7)) 8 5
      = isPidMonitored (runFrom ⟨5, 3⟩ plainKernel
        [.mySyscall ⟨1, 0, fun _ => some 0, true⟩ 1 5 0,
          .mySyscall ⟨1, 0, fun _ => some 0, true⟩ 3 5 0]) 8 5 :=
  (user_cannot_affect_others ⟨5, 3⟩ plainKernel _
    (.mySyscall ⟨7, 9, fun p => if p = 8 then some 4 else some 9, true⟩ 4 5 7)
    (by simp [Event.caller]) (by simp [Event.caller])).2.2 5 8 4 (by norm_num)
    (by simp [Event.caller]) (by simp [Event.caller])

end Interceptor
end OsAssignments
