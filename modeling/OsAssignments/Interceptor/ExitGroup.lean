import OsAssignments.Interceptor.PidSets

/-!
# What an exit leaves behind

`my_exit_group` has `del_pid` take the exiting process out of the lists.  The loop of `del_pid`
ends before row `NR_syscalls`, which `is_valid_syscall` accepts.

* `Forgotten` — the pid is in no list, and the lists, counters and modes are else what they were.
* `row_zero_empty` — no command fills the row of `MY_CUSTOM_SYSCALL`.
* `forgotten_iff` — an exiting process is forgotten exactly if row `NR_syscalls` does not list it.
-/

namespace OsAssignments
namespace Interceptor

/-! ## One row -/

/-- The list of the row without `pid`, with the counter and the mode that go with it. -/
structure RowForgets (pid : Int) (row row' : TableRow) : Prop where
  absent : pid ∉ row'.myList
  others : ∀ q, q ≠ pid → (q ∈ row'.myList ↔ q ∈ row.myList)
  listcount : row'.listcount = row'.myList.length
  monitored : row'.monitored
    = if row.monitored = 1 ∧ row'.myList = [] then 0 else row.monitored

/-- Every row of the module has forgotten `pid`. -/
def Forgotten (lim : Limits) (k k' : Kernel) (pid : Int) : Prop :=
  ∀ s : Int, 0 ≤ s → s ≤ lim.nrSyscalls → RowForgets pid (k.table s) (k'.table s)

section

variable {lim : Limits} {k : Kernel} {pid : Int} {row : TableRow}

theorem TableRow.WellFormed.forgets_self (h : row.WellFormed) (hnot : pid ∉ row.myList) :
    RowForgets pid row row where
  absent := hnot
  others _ _ := Iff.rfl
  listcount := h.count
  monitored := by
    rw [if_neg]
    rintro ⟨hone, hnil⟩
    exact h.nonempty hone hnil

theorem TableRow.WellFormed.forgets_remove (h : row.WellFormed) (hmem : pid ∈ row.myList) :
    RowForgets pid row (row.remove pid) where
  absent := by
    rw [remove_myList]
    exact h.nodup.not_mem_erase
  others q hq := by
    rw [remove_myList]
    exact List.mem_erase_of_ne hq
  listcount := (h.remove hmem).count
  monitored := by
    rw [h.remove_monitored_eq hmem, remove_myList]

/-- One turn of the outer loop of `del_pid`. -/
theorem TableRow.WellFormed.forgets_delPidRow (h : row.WellFormed) (pid : Int) :
    RowForgets pid row (delPidRow pid row) := by
  rw [delPidRow_eq h.nodup]
  by_cases hmem : pid ∈ row.myList
  · rw [if_pos hmem]
    exact h.forgets_remove hmem
  · rw [if_neg hmem]
    exact h.forgets_self hmem

/-! ## The row of `MY_CUSTOM_SYSCALL` -/

theorem step_row_zero (hk : RowsWellFormed lim k) (hzero : (k.table 0).myList = []) (e : Event) :
    ((step lim k e).table 0).myList = [] := by
  cases e with
  | myExitGroup c =>
    rw [step, myExitGroup, delPid_table, if_neg (by omega)]
    exact hzero
  | mySyscall c cmd s pid =>
    rw [step]
    rcases mySyscall_cases hk c cmd s pid with
      ⟨-, heq⟩ | ⟨-, hadm, ⟨-, heq⟩ | ⟨-, heq⟩ | ⟨row', -, heq⟩⟩
    · rwa [heq]
    all_goals
      have hs : (0 : Int) ≠ s := by
        have := hadm.validSyscall.1
        omega
      rw [heq]
    · simpa [handleSyscallIntercept, Function.update_of_ne hs] using hzero
    · simpa [handleSyscallRelease, Function.update_of_ne hs] using hzero
    · rw [Kernel.setRow_table, Function.update_of_ne hs]
      exact hzero

/-- No run fills row 0. -/
theorem row_zero_empty (lim : Limits) (k : Kernel) (events : List Event) :
    ((runFrom lim k events).table 0).myList = [] := by
  have hrun : ∀ (events : List Event) (k : Kernel), RowsWellFormed lim k →
      (k.table 0).myList = [] → ((events.foldl (step lim) k).table 0).myList = [] := by
    intro events
    induction events with
    | nil => intro k _ hzero; exact hzero
    | cons e events ih =>
      intro k hk hzero
      exact ih _ (step_rowsWellFormed hk e) (step_row_zero hk hzero e)
  have hinit := rowsWellFormed_initFunction lim k
  refine hrun events _ hinit ?_
  rw [initFunction, foldl_initRow]
  simp

/-! ## All rows -/

/-- **An exiting process is forgotten everywhere** exactly if row `NR_syscalls`, which the loop of
`del_pid` does not get to, does not list it. -/
theorem forgotten_iff (lim : Limits) (k₀ : Kernel) (events : List Event) (c : Caller) :
    let k := runFrom lim k₀ events
    Forgotten lim k (myExitGroup lim c k) c.pid ↔ c.pid ∉ (k.table lim.nrSyscalls).myList := by
  intro k
  have hk : RowsWellFormed lim k := rowsWellFormed_runFrom lim k₀ events
  have hlast : (myExitGroup lim c k).table lim.nrSyscalls = k.table lim.nrSyscalls := by
    rw [myExitGroup, delPid_table, if_neg (by omega)]
  constructor
  · intro hforgot
    have hrow := hforgot lim.nrSyscalls (by omega) le_rfl
    rw [hlast] at hrow
    exact hrow.absent
  · intro hnot s hs hs'
    have hrow := hk s hs hs'
    by_cases hloop : 1 ≤ s ∧ s < lim.nrSyscalls
    · rw [myExitGroup, delPid_table, if_pos hloop]
      exact hrow.forgets_delPidRow c.pid
    · -- only row 0 and the last row are left out
      rw [myExitGroup, delPid_table, if_neg hloop]
      refine hrow.forgets_self ?_
      rcases (by omega : s = 0 ∨ s = lim.nrSyscalls) with rfl | rfl
      · rw [row_zero_empty lim k₀ events]
        exact List.not_mem_nil
      · exact hnot

end

/-- Process 7 is monitored for the last system call and exits. -/
theorem last_row_not_cleared :
    ¬ Forgotten ⟨5, 3⟩
      (runFrom ⟨5, 3⟩ plainKernel [.mySyscall ⟨1, 0, fun _ => some 0, true⟩ 3 5 7])
      (myExitGroup ⟨5, 3⟩ ⟨7, 9, fun _ => some 9, true⟩
        (runFrom ⟨5, 3⟩ plainKernel [.mySyscall ⟨1, 0, fun _ => some 0, true⟩ 3 5 7])) 7 := by
  intro hforgot
  have hlisted : (7 : Int) ∈ ((myExitGroup ⟨5, 3⟩ ⟨7, 9, fun _ => some 9, true⟩
      (runFrom ⟨5, 3⟩ plainKernel
        [.mySyscall ⟨1, 0, fun _ => some 0, true⟩ 3 5 7])).table 5).myList := by
    decide +kernel
  exact (hforgot 5 (by decide) (by decide)).absent hlisted

end Interceptor
end OsAssignments
