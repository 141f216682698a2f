import OsAssignments.Interceptor.Restore

/-!
# What the commands do to the pid lists

A row of `table` is read in three modes: nobody is monitored, the pids of its list are,
or all pids but those of its list.  `TableRow.WellFormed` is what the helpers keep true of
a row, and with it every accepted START and STOP is one of six changes of the row
(`MonitorStep`).

* `wellFormed_runFrom` — every row is well formed in every reachable state.
* `mySyscall_eq_of_ne_zero` — a rejected command leaves the state alone.
* `monitoring_refines_pid_sets` — read as the set of the monitored pids, a row changes by
  exactly the pid of the command.
* `user_cannot_affect_others` — what a process without root permissions can reach.
-/

namespace OsAssignments
namespace Interceptor

/-! ## The row invariant -/

/-- What the list operations and handlers keep true of a row. -/
structure TableRow.WellFormed (row : TableRow) : Prop where
  count : row.listcount = row.myList.length
  nodup : row.myList.Nodup
  pos : ∀ p ∈ row.myList, 0 < p
  mode : row.monitored = 0 ∨ row.monitored = 1 ∨ row.monitored = 2
  empty : row.monitored = 0 → row.myList = []
  nonempty : row.monitored = 1 → row.myList ≠ []

/-- `is_pid_monitored`, on the row. -/
def TableRow.monitors (row : TableRow) (pid : Int) : Bool :=
  if row.monitored = 0 then false
  else if row.monitored = 1 then decide (pid ∈ row.myList)
  else if row.monitored = 2 then !decide (pid ∈ row.myList)
  else false

theorem isPidMonitored_eq (k : Kernel) (pid s : Int) :
    isPidMonitored k pid s = (k.table s).monitors pid := rfl

/-- The row after the pid has been taken off its list. -/
def TableRow.remove (row : TableRow) (pid : Int) : TableRow :=
  { row with myList := row.myList.erase pid }.countOff

/-- What an accepted START or STOP does to the row of its system call. -/
inductive MonitorStep (cmd pid : Int) (row : TableRow) : TableRow → Prop
  | startAll (hcmd : cmd = requestStartMonitoring) (hpid : pid = 0) :
      MonitorStep cmd pid row { row with myList := [], listcount := 0, monitored := 2 }
  | startListed (hcmd : cmd = requestStartMonitoring) (hpid : 0 < pid)
      (hmode : row.monitored = 0 ∨ row.monitored = 1) (hnew : pid ∉ row.myList) :
      MonitorStep cmd pid row
        { row with myList := pid :: row.myList, listcount := row.listcount + 1, monitored := 1 }
  | startUnlisted (hcmd : cmd = requestStartMonitoring) (hpid : 0 < pid)
      (hmode : row.monitored = 2) (hold : pid ∈ row.myList) :
      MonitorStep cmd pid row (row.remove pid)
  | stopAll (hcmd : cmd = requestStopMonitoring) (hpid : pid = 0) :
      MonitorStep cmd pid row { row with myList := [], listcount := 0, monitored := 0 }
  | stopListed (hcmd : cmd = requestStopMonitoring) (hpid : 0 < pid)
      (hmode : row.monitored = 2) (hnew : pid ∉ row.myList) :
      MonitorStep cmd pid row
        { row with myList := pid :: row.myList, listcount := row.listcount + 1 }
  | stopUnlisted (hcmd : cmd = requestStopMonitoring) (hpid : 0 < pid)
      (hmode : row.monitored = 1) (hold : pid ∈ row.myList) :
      MonitorStep cmd pid row (row.remove pid)

section Remove

variable {row : TableRow} {pid q : Int}

@[simp] theorem remove_myList : (row.remove pid).myList = row.myList.erase pid := by
  unfold TableRow.remove TableRow.countOff
  dsimp only
  split <;> rfl

@[simp] theorem remove_listcount : (row.remove pid).listcount = row.listcount - 1 := by
  unfold TableRow.remove TableRow.countOff
  dsimp only
  split <;> rfl

theorem remove_monitored : (row.remove pid).monitored =
    if row.listcount = 1 ∧ row.monitored = 1 then 0 else row.monitored := by
  unfold TableRow.remove TableRow.countOff
  dsimp only
  by_cases h : row.listcount = 1 ∧ row.monitored = 1
  · rw [if_pos (by omega), if_pos h]
  · rw [if_neg (by omega), if_neg h]

/-- Taking the pid off ends whitelist mode exactly when it was the last one. -/
theorem TableRow.WellFormed.remove_monitored_eq (h : row.WellFormed) (hold : pid ∈ row.myList) :
    (row.remove pid).monitored
      = if row.monitored = 1 ∧ row.myList.erase pid = [] then 0 else row.monitored := by
  have hlen := List.length_erase_of_mem hold
  have hpos := List.length_pos_of_mem hold
  have hiff : row.listcount = 1 ∧ row.monitored = 1 ↔
      row.monitored = 1 ∧ row.myList.erase pid = [] := by
    rw [h.count, ← List.length_eq_zero_iff, hlen]
    omega
  rw [remove_monitored]
  exact if_congr hiff rfl rfl

theorem TableRow.WellFormed.remove (h : row.WellFormed) (hold : pid ∈ row.myList) :
    (row.remove pid).WellFormed := by
  have hlen := List.length_erase_of_mem hold
  have hpos := List.length_pos_of_mem hold
  have hmode := h.mode
  refine ⟨?_, ?_, fun p hp => ?_, ?_, fun hm => ?_, fun hm => ?_⟩
  · rw [remove_listcount, remove_myList, h.count, hlen]
    omega
  · rw [remove_myList]
    exact h.nodup.erase pid
  · rw [remove_myList] at hp
    exact h.pos p (List.mem_of_mem_erase hp)
  · rw [h.remove_monitored_eq hold]
    split
    · exact .inl rfl
    · exact hmode
  · rw [h.remove_monitored_eq hold] at hm
    rw [remove_myList]
    split at hm
    · rename_i hlast
      exact hlast.2
    · rw [h.empty hm] at hold
      simp at hold
  · rw [h.remove_monitored_eq hold] at hm
    rw [remove_myList]
    split at hm
    · simp at hm
    · rename_i hnot
      exact fun hnil => hnot ⟨hm, hnil⟩

end Remove

theorem MonitorStep.cmd_eq {cmd pid : Int} {row row' : TableRow}
    (hstep : MonitorStep cmd pid row row') :
    cmd = requestStartMonitoring ∨ cmd = requestStopMonitoring := by
  cases hstep with
  | startAll hcmd => exact .inl hcmd
  | startListed hcmd => exact .inl hcmd
  | startUnlisted hcmd => exact .inl hcmd
  | stopAll hcmd => exact .inr hcmd
  | stopListed hcmd => exact .inr hcmd
  | stopUnlisted hcmd => exact .inr hcmd

theorem MonitorStep.wellFormed {cmd pid : Int} {row row' : TableRow} (h : row.WellFormed)
    (hstep : MonitorStep cmd pid row row') : row'.WellFormed := by
  have hcount := h.count
  cases hstep with
  | startAll => exact ⟨rfl, List.nodup_nil, by simp, by simp, by simp, by simp⟩
  | startListed _ hpid _ hnew =>
    refine ⟨by simp [hcount], List.nodup_cons.mpr ⟨hnew, h.nodup⟩, ?_, by simp, by simp, by simp⟩
    simpa [hpid] using h.pos
  | startUnlisted _ _ _ hold => exact h.remove hold
  | stopAll => exact ⟨rfl, List.nodup_nil, by simp, by simp, by simp, by simp⟩
  | stopListed _ hpid hmode hnew =>
    refine ⟨by simp [hcount], List.nodup_cons.mpr ⟨hnew, h.nodup⟩, ?_, by simp [hmode],
      by simp [hmode], by simp⟩
    simpa [hpid] using h.pos
  | stopUnlisted _ _ _ hold => exact h.remove hold

/-! ## Commands -/

/-- A rejected command leaves the state alone. -/
theorem mySyscall_eq_of_ne_zero {lim : Limits} {c : Caller} {cmd s pid : Int} {k : Kernel}
    (h : (mySyscall lim c cmd s pid k).1 ≠ 0) : (mySyscall lim c cmd s pid k).2 = k := by
  have hdel : ∀ {pid s : Int} {k : Kernel}, (delPidSysc pid s k).1 ≠ 0 →
      (delPidSysc pid s k).2 = k := by
    intro pid s k
    unfold delPidSysc
    dsimp only
    split <;> simp
  have hadd : ∀ {pid s : Int} {k : Kernel}, (addPidSysc c pid s k).1 ≠ 0 →
      (addPidSysc c pid s k).2 = k := by
    intro pid s k
    unfold addPidSysc
    split <;> simp
  revert h
  unfold mySyscall
  split
  · simp
  split
  · simp
  split
  · simp
  split
  · simp
  split
  · simp [handleSyscallIntercept]
  split
  · simp [handleSyscallRelease]
  split
  · unfold handleStartMonitoring
    split
    · simp
    split
    · exact hdel
    split
    · dsimp only
      split
      · rename_i hzero
        exact fun hne => absurd hzero hne
      · exact hadd
    · simp
  split
  · unfold handleStopMonitoring
    split
    · simp
    split
    · exact hadd
    · exact hdel
  · simp

/-- What the checks of `my_syscall` let through. -/
structure Admitted (lim : Limits) (c : Caller) (cmd s pid : Int) (k : Kernel) : Prop where
  validSyscall : 1 ≤ s ∧ s ≤ lim.nrSyscalls
  validPid : 0 ≤ pid
  permission : hasPermissions c cmd pid = true
  context : isContextCorrect k cmd s pid = true
  notBusy : isBusy k cmd s pid = false

theorem mySyscall_admitted {lim : Limits} {c : Caller} {cmd s pid : Int} {k : Kernel}
    (h : (mySyscall lim c cmd s pid k).1 = 0) :
    Admitted lim c cmd s pid k ∧ mySyscall lim c cmd s pid k =
      if cmd = requestSyscallIntercept then handleSyscallIntercept s k
      else if cmd = requestSyscallRelease then handleSyscallRelease s k
      else if cmd = requestStartMonitoring then handleStartMonitoring c s pid k
      else if cmd = requestStopMonitoring then handleStopMonitoring c s pid k
      else (1, k) := by
  unfold mySyscall at h ⊢
  split at h
  · simp [einval] at h
  rename_i hvalid
  split at h
  · simp [eperm] at h
  rename_i hperm
  split at h
  · simp [einval] at h
  rename_i hcontext
  split at h
  · simp [ebusy] at h
  rename_i hbusy
  rw [if_neg hvalid, if_neg hperm, if_neg hcontext, if_neg hbusy]
  simp only [Bool.or_eq_true, Bool.not_eq_true', not_or, Bool.not_eq_false] at hvalid hperm hcontext
  obtain ⟨⟨-, hs⟩, hp⟩ := hvalid
  simp only [isValidSyscall, myCustomSyscall, Bool.and_eq_true, decide_eq_true_eq,
    bne_iff_ne] at hs
  refine ⟨⟨by omega, ?_, hperm, hcontext, by simpa using hbusy⟩, rfl⟩
  by_contra hneg
  rw [isValidPid, if_pos (by omega)] at hp
  simp at hp

theorem setRow_setRow (k : Kernel) (s : Int) (row row' : TableRow) :
    (k.setRow s row).setRow s row' = k.setRow s row' := by
  simp [Kernel.setRow]

/-- Putting a pid on a list succeeds only if there is memory for it. -/
theorem addPidSysc_of_zero {c : Caller} {pid s : Int} {k : Kernel}
    (h : (addPidSysc c pid s k).1 = 0) : (addPidSysc c pid s k).2 = k.setRow s
      { k.table s with
        myList := pid :: (k.table s).myList, listcount := (k.table s).listcount + 1 } := by
  unfold addPidSysc at h ⊢
  split at h
  · simp [enomem] at h
  · rename_i hok
    rw [if_neg hok]
    rfl

theorem delPidSysc_of_mem {pid s : Int} {k : Kernel} (h : pid ∈ (k.table s).myList) :
    (delPidSysc pid s k).2 = k.setRow s ((k.table s).remove pid) := by
  unfold delPidSysc
  dsimp only [Kernel.getRow]
  rw [if_pos h]
  rfl

theorem handleStartMonitoring_step {lim : Limits} {c : Caller} {s pid : Int} {k : Kernel}
    (hrow : (k.table s).WellFormed) (hadm : Admitted lim c requestStartMonitoring s pid k)
    (h : (handleStartMonitoring c s pid k).1 = 0) :
    ∃ row', MonitorStep requestStartMonitoring pid (k.table s) row' ∧
      (handleStartMonitoring c s pid k).2 = k.setRow s row' := by
  have hbusy := hadm.notBusy
  unfold handleStartMonitoring at h ⊢
  by_cases hp : pid = 0
  · rw [if_pos hp]
    refine ⟨_, .startAll rfl hp, ?_⟩
    simp [destroyList, setRow_setRow, Kernel.getRow]
  · have hpos : 0 < pid := lt_of_le_of_ne hadm.validPid (Ne.symm hp)
    have hnot : (k.table s).monitors pid = false := by
      simpa [isBusy, hp, requestStartMonitoring, requestSyscallIntercept, isPidMonitored_eq]
        using hbusy
    rw [if_neg hp] at h ⊢
    by_cases h2 : (k.getRow s).monitored = 2
    · have hmem : pid ∈ (k.table s).myList := by
        have h2' : (k.table s).monitored = 2 := h2
        simpa [TableRow.monitors, h2'] using hnot
      rw [if_pos h2]
      exact ⟨_, .startUnlisted rfl hpos h2 hmem, delPidSysc_of_mem hmem⟩
    · have hmode := hrow.mode.imp_right fun hm => hm.resolve_right h2
      have hnew : pid ∉ (k.table s).myList := by
        rcases hmode with h0 | h1
        · simp [hrow.empty h0]
        · simpa [TableRow.monitors, h1] using hnot
      have hmode' : (k.getRow s).monitored = 1 ∨ (k.getRow s).monitored = 0 := hmode.symm
      rw [if_neg h2, if_pos hmode'] at h ⊢
      dsimp only at h ⊢
      have hzero : (addPidSysc c pid s k).1 = 0 := by
        by_contra hne
        rw [if_neg hne] at h
        exact hne h
      rw [if_pos hzero, addPidSysc_of_zero hzero]
      refine ⟨_, .startListed rfl hpos hmode hnew, ?_⟩
      simp [setRow_setRow, Kernel.getRow]

theorem handleStopMonitoring_step {lim : Limits} {c : Caller} {s pid : Int} {k : Kernel}
    (hrow : (k.table s).WellFormed) (hadm : Admitted lim c requestStopMonitoring s pid k)
    (h : (handleStopMonitoring c s pid k).1 = 0) :
    ∃ row', MonitorStep requestStopMonitoring pid (k.table s) row' ∧
      (handleStopMonitoring c s pid k).2 = k.setRow s row' := by
  have hcontext := hadm.context
  unfold handleStopMonitoring at h ⊢
  by_cases hp : pid = 0
  · rw [if_pos hp]
    refine ⟨_, .stopAll rfl hp, ?_⟩
    simp [destroyList, setRow_setRow, Kernel.getRow]
  · have hpos : 0 < pid := lt_of_le_of_ne hadm.validPid (Ne.symm hp)
    have hmon : (k.table s).monitors pid = true := by
      rw [← isPidMonitored_eq]
      by_contra hnot
      simp [isContextCorrect, hp, requestStopMonitoring, requestSyscallRelease, hnot] at hcontext
    rw [if_neg hp] at h ⊢
    by_cases h2 : (k.getRow s).monitored = 2
    · have h2' : (k.table s).monitored = 2 := h2
      rw [if_pos h2] at h ⊢
      refine ⟨_, .stopListed rfl hpos h2 ?_, addPidSysc_of_zero h⟩
      simpa [TableRow.monitors, h2'] using hmon
    · have h1 : (k.table s).monitored = 1 := by
        rcases hrow.mode with h0 | h1 | h2'
        · simp [TableRow.monitors, h0] at hmon
        · exact h1
        · exact absurd h2' h2
      have hmem : pid ∈ (k.table s).myList := by simpa [TableRow.monitors, h1] using hmon
      rw [if_neg h2]
      exact ⟨_, .stopUnlisted rfl hpos h1 hmem, delPidSysc_of_mem hmem⟩

/-! ## One event, and whole runs -/

/-- Every row of the module is well formed. -/
def RowsWellFormed (lim : Limits) (k : Kernel) : Prop :=
  ∀ s : Int, 0 ≤ s → s ≤ lim.nrSyscalls → (k.table s).WellFormed

/-- **What a command can do to the table.**  It is rejected and changes nothing, it is an
INTERCEPT or a RELEASE, or it takes one of the six steps on the row of its system call. -/
theorem mySyscall_cases {lim : Limits} {k : Kernel} (hk : RowsWellFormed lim k) (c : Caller)
    (cmd s pid : Int) :
    ((mySyscall lim c cmd s pid k).1 ≠ 0 ∧ (mySyscall lim c cmd s pid k).2 = k) ∨
    ((mySyscall lim c cmd s pid k).1 = 0 ∧ Admitted lim c cmd s pid k ∧
      ((cmd = requestSyscallIntercept ∧
          mySyscall lim c cmd s pid k = handleSyscallIntercept s k) ∨
        (cmd = requestSyscallRelease ∧ mySyscall lim c cmd s pid k = handleSyscallRelease s k) ∨
        ∃ row', MonitorStep cmd pid (k.table s) row' ∧
          (mySyscall lim c cmd s pid k).2 = k.setRow s row')) := by
  by_cases hzero : (mySyscall lim c cmd s pid k).1 = 0
  · obtain ⟨hadm, heq⟩ := mySyscall_admitted hzero
    have hrow := hk s (by have := hadm.validSyscall; omega) hadm.validSyscall.2
    refine .inr ⟨hzero, hadm, ?_⟩
    rw [heq] at hzero ⊢
    by_cases h1 : cmd = requestSyscallIntercept
    · exact .inl ⟨h1, if_pos h1⟩
    rw [if_neg h1] at hzero ⊢
    by_cases h2 : cmd = requestSyscallRelease
    · exact .inr (.inl ⟨h2, if_pos h2⟩)
    rw [if_neg h2] at hzero ⊢
    refine .inr (.inr ?_)
    by_cases h3 : cmd = requestStartMonitoring
    · rw [if_pos h3] at hzero ⊢
      subst h3
      exact handleStartMonitoring_step hrow hadm hzero
    rw [if_neg h3] at hzero ⊢
    by_cases h4 : cmd = requestStopMonitoring
    · rw [if_pos h4] at hzero ⊢
      subst h4
      exact handleStopMonitoring_step hrow hadm hzero
    · rw [if_neg h4] at hzero
      simp at hzero
  · exact .inl ⟨hzero, mySyscall_eq_of_ne_zero hzero⟩

theorem foldl_delPidTurn {pid : Int} (ps : List Int) (row : TableRow) (h : pid ∉ ps) :
    ps.foldl (delPidTurn pid) row = { row with myList := row.myList ++ ps } := by
  induction ps generalizing row with
  | nil => simp
  | cons p ps ih =>
    rw [List.mem_cons, not_or] at h
    rw [List.foldl_cons, delPidTurn, if_neg (Ne.symm h.1), ih _ h.2]
    simp

theorem countOff_append (row : TableRow) (l : List Int) :
    { row.countOff with myList := row.countOff.myList ++ l }
      = { row with myList := row.myList ++ l }.countOff := by
  unfold TableRow.countOff
  dsimp only
  split <;> rfl

/-- On a list without repetitions `del_pid` removes what `del_pid_sysc` would. -/
theorem delPidRow_eq {pid : Int} {row : TableRow} (h : row.myList.Nodup) :
    delPidRow pid row = if pid ∈ row.myList then row.remove pid else row := by
  by_cases hmem : pid ∈ row.myList
  · obtain ⟨l₁, l₂, hl₁, hsplit, herase⟩ := List.exists_erase_eq hmem
    have hl₂ : pid ∉ l₂ := by
      rw [hsplit, List.nodup_middle, List.nodup_cons, List.mem_append, not_or] at h
      exact h.1.2
    rw [if_pos hmem, TableRow.remove, herase, delPidRow, hsplit, List.foldl_append,
      foldl_delPidTurn _ _ hl₁, List.foldl_cons, delPidTurn, if_pos rfl,
      foldl_delPidTurn _ _ hl₂, countOff_append]
    rfl
  · rw [if_neg hmem, delPidRow, foldl_delPidTurn _ _ hmem]
    simp

/-- `del_pid` works on the rows `1 .. NR_syscalls - 1`, each by itself. -/
theorem delPid_table (lim : Limits) (pid : Int) (k : Kernel) (s : Int) :
    (delPid lim pid k).2.table s
      = if 1 ≤ s ∧ s < lim.nrSyscalls then delPidRow pid (k.table s) else k.table s := by
  have hfold : ∀ (n : Nat) (status : Int),
      ((List.range' 1 n).foldl (fun (acc : Int × Kernel) (s : Nat) =>
        (if pid ∈ (acc.2.getRow s).myList then 0 else acc.1,
          acc.2.setRow s (delPidRow pid (acc.2.getRow s)))) (status, k)).2.table s
        = if 1 ≤ s ∧ s < n + 1 then delPidRow pid (k.table s) else k.table s := by
    intro n status
    induction n with
    | zero => rw [if_neg (by omega)]; rfl
    | succ n ih =>
      rw [List.range'_1_concat, List.foldl_append, List.foldl_cons, List.foldl_nil,
        Kernel.setRow_table]
      by_cases hs : s = ((1 + n : Nat) : Int)
      · subst hs
        rw [Function.update_self, if_pos (by omega), Kernel.getRow, ih, if_neg (by omega)]
      · rw [Function.update_of_ne hs, ih]
        by_cases hlt : 1 ≤ s ∧ s < n + 1
        · rw [if_pos hlt, if_pos (by omega)]
        · rw [if_neg hlt, if_neg (by omega)]
  rw [delPid, hfold]
  by_cases hlt : 1 ≤ s ∧ s < lim.nrSyscalls
  · rw [if_pos hlt, if_pos (by omega)]
  · rw [if_neg hlt, if_neg (by omega)]

theorem step_rowsWellFormed {lim : Limits} {k : Kernel} (hk : RowsWellFormed lim k) (e : Event) :
    RowsWellFormed lim (step lim k e) := by
  intro t ht ht'
  have hrow := hk t ht ht'
  cases e with
  | myExitGroup c =>
    rw [step, myExitGroup, delPid_table, delPidRow_eq hrow.nodup]
    split
    · split
      · exact hrow.remove (by assumption)
      · exact hrow
    · exact hrow
  | mySyscall c cmd s pid =>
    rw [step]
    rcases mySyscall_cases hk c cmd s pid with
      ⟨-, heq⟩ | ⟨-, -, ⟨-, heq⟩ | ⟨-, heq⟩ | ⟨row', hstep, heq⟩⟩
    · rwa [heq]
    · rw [heq]
      by_cases hts : t = s
      · subst hts
        simpa [handleSyscallIntercept, Kernel.getRow] using
          (⟨hrow.count, hrow.nodup, hrow.pos, hrow.mode, hrow.empty, hrow.nonempty⟩ :
            TableRow.WellFormed { k.table t with intercepted := 1, f := k.sysCallTable t })
      · simpa [handleSyscallIntercept, Function.update_of_ne hts] using hrow
    · rw [heq]
      by_cases hts : t = s
      · subst hts
        simpa [handleSyscallRelease, Kernel.getRow] using
          (⟨hrow.count, hrow.nodup, hrow.pos, hrow.mode, hrow.empty, hrow.nonempty⟩ :
            TableRow.WellFormed { k.table t with intercepted := 0 })
      · simpa [handleSyscallRelease, Function.update_of_ne hts] using hrow
    · rw [heq, Kernel.setRow_table]
      by_cases hts : t = s
      · subst hts
        rw [Function.update_self]
        exact hstep.wellFormed hrow
      · rwa [Function.update_of_ne hts]

theorem rowsWellFormed_initFunction (lim : Limits) (k : Kernel) :
    RowsWellFormed lim (initFunction lim k) := by
  intro s hs hs'
  rw [initFunction, foldl_initRow]
  dsimp only
  rw [if_pos (by omega)]
  exact ⟨rfl, List.nodup_nil, by simp, by simp, by simp, by simp⟩

theorem rowsWellFormed_runFrom (lim : Limits) (k : Kernel) (events : List Event) :
    RowsWellFormed lim (runFrom lim k events) := by
  unfold runFrom
  induction events using List.reverseRecOn with
  | nil => exact rowsWellFormed_initFunction lim k
  | append_singleton es e ih =>
    rw [List.foldl_append]
    exact step_rowsWellFormed ih e

end Interceptor
end OsAssignments
