import OsAssignments.Interceptor.Table

/-!
# The system-call table is always restorable, and restored

The original pointer of every system call lives in exactly one place at a time:
in `sys_call_table` while the call is not intercepted, in its row of `table`
while it is.  `Restorable` says so relative to the table the module was loaded
over, `step_restorable` says that no command and no process exit breaks it, and
`exitFunction_sysCallTable` reads the unloading off it.

The list operations never touch a pointer or an `intercepted` flag; that is
`SamePointers`, and most of the module's functions are dispatched by it.
-/

namespace OsAssignments
namespace Interceptor

/-! ## Functions that leave the pointers alone -/

/-- Two states with the same routine pointers and `intercepted` flags
everywhere: they differ in pid lists, counters and `monitored` at most. -/
structure SamePointers (k k' : Kernel) : Prop where
  sysCallTable : k'.sysCallTable = k.sysCallTable
  f : ∀ s, (k'.table s).f = (k.table s).f
  intercepted : ∀ s, (k'.table s).intercepted = (k.table s).intercepted
  custom : k'.origCustomSyscall = k.origCustomSyscall
  exitGroup : k'.origExitGroup = k.origExitGroup

namespace SamePointers

theorem refl (k : Kernel) : SamePointers k k := ⟨rfl, fun _ => rfl, fun _ => rfl, rfl, rfl⟩

theorem trans {k₁ k₂ k₃ : Kernel} (h : SamePointers k₁ k₂) (h' : SamePointers k₂ k₃) :
    SamePointers k₁ k₃ :=
  ⟨h'.sysCallTable.trans h.sysCallTable, fun s => (h'.f s).trans (h.f s),
    fun s => (h'.intercepted s).trans (h.intercepted s), h'.custom.trans h.custom,
    h'.exitGroup.trans h.exitGroup⟩

/-- A new row that keeps its pointer and its flag. -/
theorem setRow (k : Kernel) {s : Int} {row : TableRow} (hf : row.f = (k.table s).f)
    (hi : row.intercepted = (k.table s).intercepted) : SamePointers k (k.setRow s row) := by
  refine ⟨rfl, fun t => ?_, fun t => ?_, rfl, rfl⟩ <;>
  · by_cases h : t = s
    · subst h; simpa using by assumption
    · simp [Function.update_of_ne h]

end SamePointers

theorem countOff_f (row : TableRow) : row.countOff.f = row.f := by
  unfold TableRow.countOff; dsimp only; split <;> rfl

theorem countOff_intercepted (row : TableRow) : row.countOff.intercepted = row.intercepted := by
  unfold TableRow.countOff; dsimp only; split <;> rfl

theorem samePointers_addPidSysc (c : Caller) (pid sysc : Int) (k : Kernel) :
    SamePointers k (addPidSysc c pid sysc k).2 := by
  unfold addPidSysc
  split
  · exact .refl k
  · exact .setRow k rfl rfl

theorem samePointers_delPidSysc (pid sysc : Int) (k : Kernel) :
    SamePointers k (delPidSysc pid sysc k).2 := by
  unfold delPidSysc
  dsimp only
  split
  · exact .setRow k (countOff_f _) (countOff_intercepted _)
  · exact .refl k

theorem samePointers_destroyList (sysc : Int) (k : Kernel) :
    SamePointers k (destroyList sysc k) := .setRow k rfl rfl

theorem foldl_delPidTurn_pointers (pid : Int) (ps : List Int) (row : TableRow) :
    (ps.foldl (delPidTurn pid) row).f = row.f ∧
      (ps.foldl (delPidTurn pid) row).intercepted = row.intercepted := by
  induction ps generalizing row with
  | nil => exact ⟨rfl, rfl⟩
  | cons p ps ih =>
    obtain ⟨hf, hi⟩ := ih (delPidTurn pid row p)
    rw [List.foldl_cons, hf, hi, delPidTurn]
    split
    · exact ⟨countOff_f row, countOff_intercepted row⟩
    · exact ⟨rfl, rfl⟩

theorem samePointers_delPid (lim : Limits) (pid : Int) (k : Kernel) :
    SamePointers k (delPid lim pid k).2 := by
  unfold delPid
  generalize (-1 : Int) = status
  induction List.range' 1 (lim.nrSyscalls - 1) generalizing status k with
  | nil => exact .refl k
  | cons s ss ih =>
    rw [List.foldl_cons]
    have hrow : SamePointers k (k.setRow s (delPidRow pid (k.getRow s))) :=
      .setRow k (foldl_delPidTurn_pointers ..).1 (foldl_delPidTurn_pointers ..).2
    exact hrow.trans (ih _ _)

theorem samePointers_handleStartMonitoring (c : Caller) (s pid : Int) (k : Kernel) :
    SamePointers k (handleStartMonitoring c s pid k).2 := by
  unfold handleStartMonitoring
  split
  · exact (samePointers_destroyList s k).trans (.setRow _ rfl rfl)
  split
  · exact samePointers_delPidSysc pid s k
  split
  · have hadd := samePointers_addPidSysc c pid s k
    dsimp only
    split
    · exact hadd.trans (.setRow _ rfl rfl)
    · exact hadd
  · exact .refl k

theorem samePointers_handleStopMonitoring (c : Caller) (s pid : Int) (k : Kernel) :
    SamePointers k (handleStopMonitoring c s pid k).2 := by
  unfold handleStopMonitoring
  split
  · exact (samePointers_destroyList s k).trans (.setRow _ rfl rfl)
  split
  · exact samePointers_addPidSysc c pid s k
  · exact samePointers_delPidSysc pid s k

/-- **What one event can do to the pointers.**  Either nothing, or an admitted
INTERCEPT or RELEASE of a system call in `1 .. NR_syscalls`. -/
theorem step_cases (lim : Limits) (k : Kernel) (e : Event) :
    SamePointers k (step lim k e) ∨
    ∃ s : Int, 1 ≤ s ∧ s ≤ lim.nrSyscalls ∧
      (((k.table s).intercepted = 0 ∧ step lim k e = (handleSyscallIntercept s k).2) ∨
        ((k.table s).intercepted ≠ 0 ∧ step lim k e = (handleSyscallRelease s k).2)) := by
  cases e with
  | myExitGroup c => exact .inl (samePointers_delPid lim c.pid k)
  | mySyscall c cmd s pid =>
    simp only [step, mySyscall]
    split
    · exact .inl (.refl k)
    rename_i hvalid
    simp only [isValidSyscall, Bool.or_eq_true, Bool.not_eq_true', not_or, Bool.and_eq_true,
      Bool.not_eq_false, decide_eq_true_eq, bne_iff_ne, myCustomSyscall] at hvalid
    have hs : 1 ≤ s ∧ s ≤ lim.nrSyscalls := by omega
    split
    · exact .inl (.refl k)
    split
    · exact .inl (.refl k)
    rename_i hcontext
    split
    · exact .inl (.refl k)
    rename_i hbusy
    split
    · rename_i hcmd
      refine .inr ⟨s, hs.1, hs.2, .inl ⟨?_, rfl⟩⟩
      by_contra hint
      exact hbusy (by simp [isBusy, hcmd, Kernel.getRow, hint])
    split
    · rename_i hcmd
      refine .inr ⟨s, hs.1, hs.2, .inr ⟨?_, rfl⟩⟩
      intro hint
      exact hcontext (by simp [isContextCorrect, hcmd, Kernel.getRow, hint])
    split
    · exact .inl (samePointers_handleStartMonitoring c s pid k)
    split
    · exact .inl (samePointers_handleStopMonitoring c s pid k)
    · exact .inl (.refl k)

/-! ## The invariant -/

/-- The original table after `init_function` has put its two routines in. -/
def hijacked (lim : Limits) (orig : Int → Routine) : Int → Routine :=
  Function.update (Function.update orig myCustomSyscall .mySyscall) lim.nrExitGroup .myExitGroup

theorem hijacked_ne_interceptor (lim : Limits) {orig : Int → Routine}
    (horig : ∀ i, orig i ≠ .interceptor) (i : Int) : hijacked lim orig i ≠ .interceptor := by
  unfold hijacked Function.update
  split
  · simp
  split
  · simp
  · exact horig i

theorem hijacked_of_ne (lim : Limits) (orig : Int → Routine) {i : Int}
    (hc : i ≠ myCustomSyscall) (he : i ≠ lim.nrExitGroup) : hijacked lim orig i = orig i := by
  rw [hijacked, Function.update_of_ne he, Function.update_of_ne hc]

/-- Relative to the table `orig` the module was loaded over: every row of a
system call still knows the pointer to put back, an entry is diverted exactly
while its row says so, and the two routines hijacked at load time are saved. -/
structure Restorable (lim : Limits) (orig : Int → Routine) (k : Kernel) : Prop where
  saved : ∀ s : Int, 0 ≤ s → s ≤ lim.nrSyscalls → (k.table s).f = hijacked lim orig s
  diverted : ∀ s : Int, 1 ≤ s → s ≤ lim.nrSyscalls → (k.table s).intercepted ≠ 0 →
    k.sysCallTable s = .interceptor
  direct : ∀ s : Int, (1 ≤ s → s ≤ lim.nrSyscalls → (k.table s).intercepted = 0) →
    k.sysCallTable s = hijacked lim orig s
  custom : k.origCustomSyscall = orig myCustomSyscall
  exitGroup : k.origExitGroup = orig lim.nrExitGroup

theorem Restorable.of_samePointers {lim : Limits} {orig : Int → Routine} {k k' : Kernel}
    (hk : Restorable lim orig k) (h : SamePointers k k') : Restorable lim orig k' where
  saved s hs hs' := (h.f s).trans (hk.saved s hs hs')
  diverted s hs hs' hi := by
    rw [h.sysCallTable]
    exact hk.diverted s hs hs' (h.intercepted s ▸ hi)
  direct s hi := by
    rw [h.sysCallTable]
    exact hk.direct s fun hs hs' => h.intercepted s ▸ hi hs hs'
  custom := h.custom.trans hk.custom
  exitGroup := h.exitGroup.trans hk.exitGroup

/-! ## Loading -/

theorem foldl_initRow (n : Nat) (k : Kernel) :
    (List.range n).foldl initRow k =
      { k with table := fun s =>
          if 0 ≤ s ∧ s < n then ⟨k.sysCallTable s, 0, 0, 0, []⟩ else k.table s } := by
  induction n with
  | zero =>
    have hsame : (fun s : Int => if 0 ≤ s ∧ s < ((0 : Nat) : Int) then
        ⟨k.sysCallTable s, 0, 0, 0, []⟩ else k.table s) = k.table :=
      funext fun s => if_neg (by omega)
    rw [hsame]
    rfl
  | succ n ih =>
    rw [List.range_succ, List.foldl_append, ih, List.foldl_cons, List.foldl_nil, initRow,
      Kernel.setRow]
    congr 1
    funext s
    by_cases hs : s = n
    · subst hs; simp
    · rw [Function.update_of_ne hs]
      dsimp only
      by_cases hlt : 0 ≤ s ∧ s < n
      · rw [if_pos hlt, if_pos (by omega)]
      · rw [if_neg hlt, if_neg (by omega)]

theorem restorable_initFunction (lim : Limits) (k : Kernel) :
    Restorable lim k.sysCallTable (initFunction lim k) := by
  rw [initFunction, foldl_initRow]
  refine ⟨fun s hs hs' => ?_, fun s hs hs' hi => ?_, fun s _ => rfl, rfl, rfl⟩
  · simp only [if_pos (show 0 ≤ s ∧ s < ((lim.nrSyscalls + 1 : Nat) : Int) by omega)]
    rfl
  · simp only [if_pos (show 0 ≤ s ∧ s < ((lim.nrSyscalls + 1 : Nat) : Int) by omega)] at hi
    exact absurd rfl hi

/-! ## One event, and whole runs -/

theorem restorable_handleSyscallIntercept {lim : Limits} {orig : Int → Routine} {k : Kernel}
    (hk : Restorable lim orig k) {s : Int} (hs : 1 ≤ s) (hs' : s ≤ lim.nrSyscalls)
    (hi : (k.table s).intercepted = 0) :
    Restorable lim orig (handleSyscallIntercept s k).2 := by
  have hf : k.sysCallTable s = hijacked lim orig s := hk.direct s fun _ _ => hi
  refine ⟨fun t ht ht' => ?_, fun t ht ht' hit => ?_, fun t hit => ?_, hk.custom, hk.exitGroup⟩ <;>
    by_cases hts : t = s
  · subst hts; simpa [handleSyscallIntercept] using hf
  · simpa [handleSyscallIntercept, Function.update_of_ne hts] using hk.saved t ht ht'
  · subst hts; simp [handleSyscallIntercept]
  · simp only [handleSyscallIntercept, Kernel.setEntry_table, Kernel.setRow_table,
      Function.update_of_ne hts] at hit
    simpa [handleSyscallIntercept, Function.update_of_ne hts] using hk.diverted t ht ht' hit
  · subst hts; simpa [handleSyscallIntercept] using hit hs hs'
  · simp only [handleSyscallIntercept, Kernel.setEntry_table, Kernel.setRow_table,
      Function.update_of_ne hts] at hit
    simpa [handleSyscallIntercept, Function.update_of_ne hts] using hk.direct t hit

theorem restorable_handleSyscallRelease {lim : Limits} {orig : Int → Routine} {k : Kernel}
    (hk : Restorable lim orig k) {s : Int} (hs : 1 ≤ s) (hs' : s ≤ lim.nrSyscalls) :
    Restorable lim orig (handleSyscallRelease s k).2 := by
  have hf : (k.table s).f = hijacked lim orig s := hk.saved s (by omega) hs'
  refine ⟨fun t ht ht' => ?_, fun t ht ht' hit => ?_, fun t hit => ?_, hk.custom, hk.exitGroup⟩ <;>
    by_cases hts : t = s
  · subst hts; simpa [handleSyscallRelease, Kernel.getRow] using hf
  · simpa [handleSyscallRelease, Function.update_of_ne hts] using hk.saved t ht ht'
  · subst hts; simp [handleSyscallRelease] at hit
  · simp only [handleSyscallRelease, Kernel.setEntry_table, Kernel.setRow_table,
      Function.update_of_ne hts] at hit
    simpa [handleSyscallRelease, Function.update_of_ne hts] using hk.diverted t ht ht' hit
  · subst hts; simpa [handleSyscallRelease, Kernel.getRow] using hf
  · simp only [handleSyscallRelease, Kernel.setEntry_table, Kernel.setRow_table,
      Function.update_of_ne hts] at hit
    simpa [handleSyscallRelease, Function.update_of_ne hts] using hk.direct t hit

theorem step_restorable {lim : Limits} {orig : Int → Routine} {k : Kernel}
    (hk : Restorable lim orig k) (e : Event) : Restorable lim orig (step lim k e) := by
  rcases step_cases lim k e with h | ⟨s, hs, hs', ⟨hi, h⟩ | ⟨-, h⟩⟩
  · exact hk.of_samePointers h
  · rw [h]; exact restorable_handleSyscallIntercept hk hs hs' hi
  · rw [h]; exact restorable_handleSyscallRelease hk hs hs'

theorem restorable_runFrom (lim : Limits) (k : Kernel) (events : List Event) :
    Restorable lim k.sysCallTable (runFrom lim k events) := by
  unfold runFrom
  induction events using List.reverseRecOn with
  | nil => exact restorable_initFunction lim k
  | append_singleton es e ih =>
    rw [List.foldl_append]
    exact step_restorable ih e

/-! ## Unloading -/

theorem foldl_exitRow_f (is : List Nat) (k : Kernel) (s : Int) :
    ((is.foldl exitRow k).table s).f = (k.table s).f := by
  induction is generalizing k with
  | nil => rfl
  | cons i is ih =>
    rw [List.foldl_cons, ih, exitRow]
    exact (samePointers_destroyList i _).f s

theorem foldl_exitRow_saved (is : List Nat) (k : Kernel) :
    (is.foldl exitRow k).origCustomSyscall = k.origCustomSyscall ∧
      (is.foldl exitRow k).origExitGroup = k.origExitGroup := by
  induction is generalizing k with
  | nil => exact ⟨rfl, rfl⟩
  | cons i is ih => exact ih _

theorem foldl_exitRow_sysCallTable (n : Nat) (k : Kernel) (s : Int) :
    ((List.range n).foldl exitRow k).sysCallTable s =
      if 0 ≤ s ∧ s < n then (k.table s).f else k.sysCallTable s := by
  induction n with
  | zero => rw [if_neg (by omega)]; rfl
  | succ n ih =>
    rw [List.range_succ, List.foldl_append, List.foldl_cons, List.foldl_nil, exitRow,
      (samePointers_destroyList n _).sysCallTable, Kernel.setEntry_sysCallTable, Kernel.getRow,
      foldl_exitRow_f]
    by_cases hs : s = n
    · subst hs; simp
    · rw [Function.update_of_ne hs, ih]
      by_cases hlt : 0 ≤ s ∧ s < n
      · rw [if_pos hlt, if_pos (by omega)]
      · rw [if_neg hlt, if_neg (by omega)]

/-- Unloading from a restorable state puts the original table back. -/
theorem exitFunction_sysCallTable {lim : Limits} {orig : Int → Routine} {k : Kernel}
    (hk : Restorable lim orig k) (i : Int) : (exitFunction lim k).sysCallTable i = orig i := by
  obtain ⟨hc, he⟩ := foldl_exitRow_saved (List.range (lim.nrSyscalls + 1)) k
  simp only [exitFunction, Kernel.setEntry_sysCallTable, hc, he]
  by_cases hie : i = lim.nrExitGroup
  · subst hie; simpa using hk.exitGroup
  rw [Function.update_of_ne hie]
  by_cases hic : i = myCustomSyscall
  · subst hic; simpa using hk.custom
  rw [Function.update_of_ne hic, foldl_exitRow_sysCallTable,
    ← hijacked_of_ne lim orig hic hie]
  split
  · exact hk.saved i (by omega) (by omega)
  · exact hk.direct i (by omega)

/-- **The table is always restorable, and restored.**  Whatever the processes do
between loading and unloading, every entry `1 .. NR_syscalls` is diverted to the
interceptor exactly while its row says so and is the saved pointer otherwise;
the saved pointer is never the interceptor, and is the original one except for
`exit_group`; and unloading restores the original table at every index. -/
theorem sysCallTable_restorable_and_restored (lim : Limits) (k : Kernel)
    (horig : ∀ i, k.sysCallTable i ≠ .interceptor) (events : List Event) :
    (∀ s : Int, 1 ≤ s → s ≤ lim.nrSyscalls →
      ((runFrom lim k events).sysCallTable s = .interceptor ↔
        ((runFrom lim k events).table s).intercepted ≠ 0) ∧
      (((runFrom lim k events).table s).intercepted = 0 →
        (runFrom lim k events).sysCallTable s = ((runFrom lim k events).table s).f) ∧
      ((runFrom lim k events).table s).f ≠ .interceptor ∧
      (s ≠ lim.nrExitGroup → ((runFrom lim k events).table s).f = k.sysCallTable s)) ∧
    ∀ i, (exitFunction lim (runFrom lim k events)).sysCallTable i = k.sysCallTable i := by
  have hk := restorable_runFrom lim k events
  refine ⟨fun s hs hs' => ?_, exitFunction_sysCallTable hk⟩
  have hf := hk.saved s (by omega) hs'
  have hne := hijacked_ne_interceptor lim horig s
  refine ⟨⟨fun hint hi => ?_, hk.diverted s hs hs'⟩, fun hi => ?_, hf ▸ hne, fun hse => ?_⟩
  · exact hne ((hk.direct s fun _ _ => hi).symm.trans hint)
  · rw [hf]; exact hk.direct s fun _ _ => hi
  · rw [hf]; exact hijacked_of_ne lim _ (by unfold myCustomSyscall; omega) hse

/-- The hypothesis is met: a kernel of 350 system calls whose `exit_group` is
number 252, on which root intercepts call 5 and process 7 then exits. -/
theorem sysCallTable_restored_example :
    ((runFrom ⟨350, 252⟩
        ⟨fun i => .kernel i.toNat, fun _ => ⟨.kernel 0, 0, 0, 0, []⟩, .kernel 0, .kernel 0⟩
        [.mySyscall ⟨1, 0, fun _ => some 0, true⟩ 1 5 0,
          .myExitGroup ⟨7, 0, fun _ => some 0, true⟩]).table 5).f = .kernel 5 ∧
      (exitFunction ⟨350, 252⟩ (runFrom ⟨350, 252⟩
        ⟨fun i => .kernel i.toNat, fun _ => ⟨.kernel 0, 0, 0, 0, []⟩, .kernel 0, .kernel 0⟩
        [.mySyscall ⟨1, 0, fun _ => some 0, true⟩ 1 5 0,
          .myExitGroup ⟨7, 0, fun _ => some 0, true⟩])).sysCallTable 5 = .kernel 5 := by
  obtain ⟨hrow, hrestored⟩ := sysCallTable_restorable_and_restored ⟨350, 252⟩
    ⟨fun i => .kernel i.toNat, fun _ => ⟨.kernel 0, 0, 0, 0, []⟩, .kernel 0, .kernel 0⟩
    (fun _ => by simp) [.mySyscall ⟨1, 0, fun _ => some 0, true⟩ 1 5 0,
      .myExitGroup ⟨7, 0, fun _ => some 0, true⟩]
  exact ⟨(hrow 5 (by norm_num) (by norm_num)).2.2.2 (by norm_num), hrestored 5⟩

end Interceptor
end OsAssignments
