import OsAssignments.Interceptor.PidSets

/-!
# Commands for all pids

Pid 0 stands for all pids.  Two checks of `my_syscall` treat it like a pid of its own, or leave out
what they do for the others.

* `monitorsAll_iff` — every pid is monitored exactly in mode 2 with an empty blacklist.
* `startAll_iff` — a START for pid 0 does what it should exactly if no pid is on a blacklist.
* `stop_refused_iff` — a STOP without interception is refused, but for pid 0 where something is
  monitored.
-/

namespace OsAssignments
namespace Interceptor

/-- Every pid is monitored for the system call. -/
def MonitorsAll (k : Kernel) (s : Int) : Prop := ∀ q, 0 < q → isPidMonitored k q s = true

/-- What a START for pid 0 should answer and do: `-EBUSY` exactly if all pids are monitored, else
success, and then all pids are monitored. -/
structure StartsAll (k : Kernel) (s : Int) (r : Int × Kernel) : Prop where
  busy : r.1 = -ebusy ↔ MonitorsAll k s
  starts : ¬ MonitorsAll k s → r.1 = 0 ∧ MonitorsAll r.2 s

/-- A STOP that is refused. -/
structure StopRefused (k : Kernel) (r : Int × Kernel) : Prop where
  fails : r.1 ≠ 0
  table : r.2.table = k.table

section

variable {lim : Limits} {k : Kernel} {c : Caller} {s pid : Int}

/-! ## Starting -/

theorem exists_pid_not_mem (l : List Int) : ∃ q : Int, 0 < q ∧ q ∉ l := by
  obtain ⟨q, hq, hnot⟩ := (Set.Ioi_infinite (0 : Int)).exists_notMem_finset l.toFinset
  exact ⟨q, hq, fun hmem => hnot (List.mem_toFinset.mpr hmem)⟩

theorem monitorsAll_iff (h : (k.table s).WellFormed) :
    MonitorsAll k s ↔ (k.table s).monitored = 2 ∧ (k.table s).myList = [] := by
  constructor
  · intro hall
    rcases h.mode with hzero | hone | htwo
    · have hmon := hall 1 (by decide)
      rw [isPidMonitored_eq, TableRow.monitors, if_pos hzero] at hmon
      cases hmon
    · obtain ⟨q, hq, hnot⟩ := exists_pid_not_mem (k.table s).myList
      have hmon := hall q hq
      rw [isPidMonitored_eq, TableRow.monitors, if_neg (by omega), if_pos hone,
        decide_eq_true_iff] at hmon
      exact absurd hmon hnot
    · refine ⟨htwo, List.eq_nil_iff_forall_not_mem.mpr fun q hmem => ?_⟩
      have hmon := hall q (h.pos q hmem)
      rw [isPidMonitored_eq, TableRow.monitors, if_neg (by omega), if_neg (by omega),
        if_pos htwo] at hmon
      simp [hmem] at hmon
  · rintro ⟨htwo, hnil⟩ q -
    simp [isPidMonitored_eq, TableRow.monitors, htwo, hnil]

/-- The second test of `is_busy` takes pid 0 for one that is not on the blacklist. -/
theorem isBusy_all_iff (h : (k.table s).WellFormed) :
    isBusy k requestStartMonitoring s 0 = true ↔ (k.table s).monitored = 2 := by
  have hnot : (0 : Int) ∉ (k.table s).myList := fun hmem => absurd (h.pos 0 hmem) (by decide)
  have hzero : isPidMonitored k 0 s = decide ((k.table s).monitored = 2) := by
    rw [isPidMonitored_eq, TableRow.monitors]
    rcases h.mode with hm | hm | hm <;> simp [hm, hnot]
  simp only [isBusy, Kernel.getRow, requestStartMonitoring, requestSyscallIntercept]
  by_cases hempty : (k.table s).monitored = 2 ∧ (k.table s).listcount = 0
  · simp [hempty]
  · simp [hempty, hzero]

/-- A START for pid 0 by root. -/
theorem mySyscall_startAll (hroot : c.uid = 0) (hs : isValidSyscall lim s = true) :
    mySyscall lim c requestStartMonitoring s 0 k =
      if isBusy k requestStartMonitoring s 0 then (-ebusy, k)
      else handleStartMonitoring c s 0 k := by
  have hcmd : isValidCmd requestStartMonitoring = true := by decide
  have hpid : isValidPid c 0 = true := by simp [isValidPid]
  have hperm : hasPermissions c requestStartMonitoring 0 = true := by
    simp [hasPermissions, isRoot, hroot]
  have hcontext : isContextCorrect k requestStartMonitoring s 0 = true := by
    simp [isContextCorrect, requestStartMonitoring, requestSyscallRelease, requestStopMonitoring]
  simp only [mySyscall, hcmd, hs, hpid, hperm, hcontext]
  cases isBusy k requestStartMonitoring s 0 <;>
    simp [requestStartMonitoring, requestSyscallIntercept, requestSyscallRelease]

theorem handleStartMonitoring_all (c : Caller) (s : Int) (k : Kernel) :
    (handleStartMonitoring c s 0 k).1 = 0 ∧
      MonitorsAll (handleStartMonitoring c s 0 k).2 s := by
  refine ⟨by simp [handleStartMonitoring], fun q _ => ?_⟩
  simp [handleStartMonitoring, destroyList, isPidMonitored_eq, TableRow.monitors, Kernel.getRow]

/-- A row with pids on its blacklist. -/
def HasBlacklist (k : Kernel) (s : Int) : Prop :=
  (k.table s).monitored = 2 ∧ (k.table s).myList ≠ []

/-- **A START for all pids is refused only when it would change nothing**, exactly if no pid is on
a blacklist. -/
theorem startAll_iff (lim : Limits) (k₀ : Kernel) (events : List Event) (hroot : c.uid = 0)
    (hs : isValidSyscall lim s = true) :
    let k := runFrom lim k₀ events
    StartsAll k s (mySyscall lim c requestStartMonitoring s 0 k) ↔ ¬ HasBlacklist k s := by
  intro k
  have hrange := hs
  simp only [isValidSyscall, Bool.and_eq_true, decide_eq_true_eq] at hrange
  have hrow : (k.table s).WellFormed :=
    rowsWellFormed_runFrom lim k₀ events s hrange.1.1 hrange.1.2
  have hall := monitorsAll_iff hrow
  have hbusy := isBusy_all_iff hrow
  rw [mySyscall_startAll hroot hs]
  by_cases htwo : (k.table s).monitored = 2
  · rw [if_pos (hbusy.mpr htwo)]
    constructor
    · rintro ⟨hiff, -⟩ ⟨-, hlist⟩
      exact hlist (hall.mp (hiff.mp rfl)).2
    · intro hno
      have hnil : (k.table s).myList = [] := by
        by_contra hlist
        exact hno ⟨htwo, hlist⟩
      have hmon : MonitorsAll k s := hall.mpr ⟨htwo, hnil⟩
      exact ⟨iff_of_true rfl hmon, fun hnot => absurd hmon hnot⟩
  · have hnot : ¬ MonitorsAll k s := fun hmon => htwo (hall.mp hmon).1
    rw [if_neg (mt hbusy.mp htwo)]
    refine iff_of_true ⟨iff_of_false ?_ hnot, fun _ => handleStartMonitoring_all c s k⟩
      fun hblack => htwo hblack.1
    rw [(handleStartMonitoring_all c s k).1]
    decide

theorem startAll_example :
    StartsAll (runFrom ⟨5, 3⟩ plainKernel []) 5
      (mySyscall ⟨5, 3⟩ ⟨1, 0, fun _ => some 0, true⟩ requestStartMonitoring 5 0
        (runFrom ⟨5, 3⟩ plainKernel [])) :=
  (startAll_iff ⟨5, 3⟩ plainKernel [] rfl (by decide)).mpr fun hblack =>
    absurd hblack.1 (by decide +kernel)

/-- Monitoring of all pids is started, process 7 is taken out, and the START for all pids after
that is refused. -/
theorem blacklist_kept :
    ¬ StartsAll (runFrom ⟨5, 3⟩ plainKernel
        [.mySyscall ⟨1, 0, fun _ => some 0, true⟩ 1 5 0,
          .mySyscall ⟨1, 0, fun _ => some 0, true⟩ 3 5 0,
          .mySyscall ⟨1, 0, fun _ => some 0, true⟩ 4 5 7]) 5
      (mySyscall ⟨5, 3⟩ ⟨1, 0, fun _ => some 0, true⟩ requestStartMonitoring 5 0
        (runFrom ⟨5, 3⟩ plainKernel
          [.mySyscall ⟨1, 0, fun _ => some 0, true⟩ 1 5 0,
            .mySyscall ⟨1, 0, fun _ => some 0, true⟩ 3 5 0,
            .mySyscall ⟨1, 0, fun _ => some 0, true⟩ 4 5 7])) := by
  intro hstarts
  have hmon := hstarts.busy.mp (by decide +kernel) 7 (by decide)
  exact absurd hmon (by decide +kernel)

/-! ## Stopping -/

/-- The STOP that no check stops: root, pid 0, and something is monitored. -/
structure StopsAll (lim : Limits) (c : Caller) (k : Kernel) (s pid : Int) : Prop where
  pid : pid = 0
  root : c.uid = 0
  validSyscall : isValidSyscall lim s = true
  monitored : (k.table s).monitored ≠ 0

theorem StopsAll.accepted (h : StopsAll lim c k s pid) :
    (mySyscall lim c requestStopMonitoring s pid k).1 = 0 := by
  obtain ⟨rfl, hroot, hs, hmon⟩ := h
  have hcmd : isValidCmd requestStopMonitoring = true := by decide
  have hpid : isValidPid c 0 = true := by simp [isValidPid]
  have hperm : hasPermissions c requestStopMonitoring 0 = true := by
    simp [hasPermissions, isRoot, hroot]
  have hcontext : isContextCorrect k requestStopMonitoring s 0 = true := by
    simp [isContextCorrect, requestStopMonitoring, requestSyscallRelease, Kernel.getRow, hmon]
  have hbusy : isBusy k requestStopMonitoring s 0 = false := by
    simp [isBusy, requestStopMonitoring, requestSyscallIntercept, requestStartMonitoring]
  simp only [mySyscall, hcmd, hs, hpid, hperm, hcontext, hbusy]
  simp [requestStopMonitoring, requestSyscallIntercept, requestSyscallRelease,
    requestStartMonitoring, handleStopMonitoring]

/-- An accepted STOP without interception is for pid 0. -/
theorem Admitted.stopsAll (h : Admitted lim c requestStopMonitoring s pid k)
    (hi : (k.table s).intercepted = 0) (hs : isValidSyscall lim s = true) :
    StopsAll lim c k s pid := by
  have hcontext := h.context
  simp only [isContextCorrect, Kernel.getRow, requestStopMonitoring, requestSyscallRelease]
    at hcontext
  by_cases hpid : pid = 0
  · subst hpid
    have hroot : c.uid = 0 := by
      have hperm := h.permission
      simpa [hasPermissions, isRoot] using hperm
    exact ⟨rfl, hroot, hs, by simpa using hcontext⟩
  · -- for a pid of its own the interception is checked
    simp [hpid, hi] at hcontext

/-- **A STOP for a system call that is not intercepted is refused**, but for one for all pids by
root where something is monitored. -/
theorem stop_refused_iff (lim : Limits) (k₀ : Kernel) (events : List Event) (c : Caller)
    (s pid : Int) (hi : ((runFrom lim k₀ events).table s).intercepted = 0) :
    let k := runFrom lim k₀ events
    StopRefused k (mySyscall lim c requestStopMonitoring s pid k) ↔ ¬ StopsAll lim c k s pid := by
  intro k
  constructor
  · exact fun hrefused hstops => hrefused.fails hstops.accepted
  · intro hno
    have hfails : (mySyscall lim c requestStopMonitoring s pid k).1 ≠ 0 := by
      intro hzero
      obtain ⟨hadm, -⟩ := mySyscall_admitted hzero
      refine hno (hadm.stopsAll hi ?_)
      have hs := hadm.validSyscall
      simp only [isValidSyscall, myCustomSyscall, Bool.and_eq_true, decide_eq_true_eq, bne_iff_ne]
      omega
    exact ⟨hfails, by rw [mySyscall_eq_of_ne_zero hfails]⟩

theorem stop_refused_example :
    StopRefused (runFrom ⟨5, 3⟩ plainKernel [])
      (mySyscall ⟨5, 3⟩ ⟨1, 0, fun _ => some 0, true⟩ requestStopMonitoring 5 0
        (runFrom ⟨5, 3⟩ plainKernel [])) :=
  (stop_refused_iff ⟨5, 3⟩ plainKernel [] _ 5 0 (by decide +kernel)).mpr fun hstops =>
    hstops.monitored (by decide +kernel)

/-- Process 7 is monitored for system call 5, which nobody intercepts, and root stops that. -/
theorem stop_unintercepted :
    ((runFrom ⟨5, 3⟩ plainKernel
        [.mySyscall ⟨1, 0, fun _ => some 0, true⟩ 3 5 7]).table 5).intercepted = 0 ∧
      ¬ StopRefused (runFrom ⟨5, 3⟩ plainKernel [.mySyscall ⟨1, 0, fun _ => some 0, true⟩ 3 5 7])
        (mySyscall ⟨5, 3⟩ ⟨1, 0, fun _ => some 0, true⟩ requestStopMonitoring 5 0
          (runFrom ⟨5, 3⟩ plainKernel [.mySyscall ⟨1, 0, fun _ => some 0, true⟩ 3 5 7])) :=
  ⟨by decide +kernel, fun hrefused => hrefused.fails (by decide +kernel)⟩

end

end Interceptor
end OsAssignments
