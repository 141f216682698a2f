import OsAssignments.Ext2.TreeEffect

/-!
# Exit statuses

* `TreeCommand.exits` — a command that exits before its end does so with a status other than 0, on
  any image.
* `ext2Cp_exits_of_host` — `ext2_cp` says `ENOENT` of no file it could open.
-/

namespace OsAssignments
namespace Ext2

open ExitState Command

/-- A status that says that the command has failed. -/
def Failure (status : Nat) : Prop := status ≠ 0

instance (status : Nat) : Decidable (Failure status) := inferInstanceAs (Decidable (_ ≠ _))

/-- Such a status, and not the one for a file that is missing. -/
def Refusal (status : Nat) : Prop := Failure status ∧ status ≠ eNoEnt

instance (status : Nat) : Decidable (Refusal status) := inferInstanceAs (Decidable (_ ∧ _))

/-! ## Allocations and entries -/

theorem allocateFrom_exits (fuel blockNum n : Nat) : Exits Refusal (allocateFrom fuel blockNum n) := by
  induction fuel generalizing blockNum n with
  | zero =>
    cases n with
    | zero => exact .pure _
    | succ n => exact .crash
  | succ fuel ih =>
    cases n with
    | zero => exact .pure _
    | succ n =>
      refine .bind .get fun d => .ite (fun _ => ih _ _) fun _ => ?_
      exact .bind (.modify _) fun _ => .bind (ih _ _) fun _ => .pure _

theorem allocateBlocks_exits (n : Nat) : Exits Refusal (allocateBlocks n) :=
  .bind .get fun _ => .ite (fun _ => .exit (by decide)) fun _ =>
    .bind (.modify _) fun _ => allocateFrom_exits _ _ _

theorem allocateBlockOnInode_exits (n i : Nat) : Exits Refusal (allocateBlockOnInode n i) := by
  refine .bind .get fun d => .ite (fun _ => .pure _) fun _ => ?_
  refine .bind (.bind (allocateBlocks_exits 1) fun _ => .pure _) fun b => ?_
  exact .bind (.modify _) fun _ => .bind (.modify _) fun _ => .pure _

theorem allocateInode_exits : Exits Refusal allocateInode := by
  refine .bind .get fun d => .ite (fun _ => .exit (by decide)) fun _ => ?_
  refine .bind (.modify _) fun _ => .bind .get fun d => ?_
  split
  · exact .pure _
  · exact .bind (.modify _) fun _ => .pure _

theorem allocateTypedInode_exits (now mode size : Nat) :
    Exits Refusal (allocateTypedInode now mode size) :=
  .bind allocateInode_exits fun _ => .ite (fun _ => .crash) fun _ =>
    .bind (.modify _) fun _ => .pure _

theorem makeEntryInNewBlock_exits (n child : Nat) (name : CString) (fileType : Nat) (l : List Nat) :
    Exits Refusal (makeEntryInNewBlock n child name fileType l) := by
  induction l with
  | nil => exact .pure _
  | cons i rest ih =>
    refine .bind (allocateBlockOnInode_exits n i) fun b => .ite (fun _ => ih) fun _ => ?_
    exact .ite (fun _ => .crash) fun _ => .bind (.modify _) fun _ => .pure _

theorem makeEntryInInode_exits (n child : Nat) (name : CString) (fileType : Nat) :
    Exits Refusal (makeEntryInInode n child name fileType) := by
  refine .bind .get fun d => ?_
  dsimp only
  refine .bind (.modify _) fun _ => ?_
  split
  · exact .pure _
  · exact makeEntryInNewBlock_exits _ _ _ _ _

theorem writePathToSymlinkInode_exits (n : Nat) (content : CString) :
    Exits Refusal (writePathToSymlinkInode n content) :=
  .ite (fun _ => .bind (allocateBlockOnInode_exits n 0) fun _ => .modify _) fun _ =>
    .exit (by decide)

theorem attachContentFrom_exits (n : Nat) (blocks : List Nat) (content : List UInt8) (l : List Nat) :
    Exits Refusal (attachContentFrom n blocks content l) := by
  induction l with
  | nil => exact .pure _
  | cons i rest ih =>
    refine .bind (.ite (fun _ => ?_) fun _ => .modify _) fun _ => ih
    split
    · exact .crash
    · exact .bind (.modify _) fun _ => .modify _

theorem attachContent_exits (now n : Nat) (blocks : List Nat) (content : List UInt8) :
    Exits Refusal (attachContent now n blocks content) :=
  .bind (.modify _) fun _ => .bind (attachContentFrom_exits _ _ _ _) fun _ => .modify _

/-! ## The commands -/

theorem undoInode_exits (now n : Nat) : Exits Refusal (undoInode now n) :=
  .bind (.modify _) fun _ => .exit (by decide)

theorem makeDirectory_exits (now parentEntry : Nat) (name : CString) :
    Exits Refusal (makeDirectory now parentEntry name) := by
  refine .bind (.bind (allocateTypedInode_exits _ _ _) fun _ => .bind (.modify _) fun _ => .pure _)
    fun n => .bind (makeEntryInInode_exits _ _ _ _) fun self => ?_
  refine .ite (fun _ => undoInode_exits _ _) fun _ => .bind .get fun d => ?_
  refine .bind (makeEntryInInode_exits _ _ _ _) fun parent => ?_
  refine .ite (fun _ => undoInode_exits _ _) fun _ => .bind .get fun d => ?_
  refine .bind (makeEntryInInode_exits _ _ _ _) fun child => ?_
  exact .ite (fun _ => undoInode_exits _ _) fun _ => .pure _

theorem ext2Mkdir_exits (now : Nat) (path : CString) : Exits Failure (ext2Mkdir now path) := by
  refine .bind .get fun d => .ite (fun _ => .exit (by decide)) fun _ => ?_
  split
  · exact .exit (by decide)
  · refine .ite (fun _ => .exit (by decide)) fun _ => ?_
    refine .ite (fun _ => .exit (by decide)) fun _ => ?_
    exact (makeDirectory_exits _ _ _).mono fun _ => And.left

theorem makeLink_exits (now : Nat) (source : CString) (srcEntry parentEntry : Nat) (name : CString)
    (isSymLink : Bool) : Exits Refusal (makeLink now source srcEntry parentEntry name isSymLink) := by
  refine .bind .get fun d => .ite (fun _ => ?_) fun _ => ?_
  · refine .bind (allocateTypedInode_exits _ _ _) fun n => ?_
    refine .bind (writePathToSymlinkInode_exits _ _) fun _ => ?_
    refine .bind (makeEntryInInode_exits _ _ _ _) fun attempt => ?_
    exact .ite (fun _ => .bind (.modify _) fun _ => .pure _) fun _ => .pure _
  · exact .bind (makeEntryInInode_exits _ _ _ _) fun attempt => .bind (.modify _) fun _ => .pure _

theorem ext2Ln_exits (now : Nat) (source dest : CString) (isSymLink : Bool) :
    Exits Failure (ext2Ln now source dest isSymLink) := by
  refine .bind .get fun d => ?_
  split
  · exact .exit (by decide)
  · refine .ite (fun _ => .exit (by decide)) fun _ => .ite (fun _ => .exit (by decide)) fun _ => ?_
    refine .ite (fun _ => .exit (by decide)) fun _ => ?_
    split
    · exact .exit (by decide)
    · refine .bind ((makeLink_exits _ _ _ _ _ _).mono fun _ => And.left) fun attempt => ?_
      exact .ite (fun _ => .exit (by decide)) fun _ => .pure _

theorem receivingInode_exits (now k size : Nat) (destEntry : Option Nat) (parentEntry : Nat)
    (name : CString) : Exits Refusal (receivingInode now k size destEntry parentEntry name) := by
  cases destEntry with
  | some e => exact .bind .get fun _ => .pure _
  | none =>
    refine .ite (fun _ => .exit (by decide)) fun _ => ?_
    refine .bind (allocateTypedInode_exits _ _ _) fun n => .bind .get fun d => ?_
    exact .bind (makeEntryInInode_exits _ _ _ _) fun _ => .pure _

/-- With a file to copy the status is not the one for a missing file. -/
theorem ext2Cp_exits_of_host (now : Nat) {host : CString → Option (List UInt8)} {source : CString}
    {content : List UInt8} (hhost : host (afterStrtok source) = some content) (dest : CString) :
    Exits Refusal (ext2Cp now host source dest) := by
  refine .bind .get fun d => ?_
  simp only [hhost]
  refine .bind (allocateBlocks_exits _) fun blocks => .bind .get fun d => ?_
  split
  · exact .exit (by decide)
  · exact .bind (receivingInode_exits _ _ _ _ _ _) fun n => attachContent_exits _ _ _ _

theorem ext2Cp_exits (now : Nat) (host : CString → Option (List UInt8)) (source dest : CString) :
    Exits Failure (ext2Cp now host source dest) := by
  cases hhost : host (afterStrtok source) with
  | none =>
    refine .bind .get fun d => ?_
    simp only [hhost]
    exact .exit (by decide)
  | some content => exact (ext2Cp_exits_of_host now hhost dest).mono fun _ => And.left

theorem ext2Rm_exits (now : Nat) (path : CString) : Exits Failure (ext2Rm now path) := by
  refine .bind .get fun d => ?_
  split
  · exact .exit (by decide)
  · refine .ite (fun _ => .exit (by decide)) fun _ => ?_
    split
    · exact .crash
    · refine .bind (.modify _) fun _ => .bind (.modify _) fun _ => .bind .get fun d => ?_
      exact .ite (fun _ => .modify _) fun _ => .pure _

/-- **A command that exits has failed.** -/
theorem TreeCommand.exits (now : Nat) (host : CString → Option (List UInt8)) (cmd : TreeCommand) :
    Exits Failure (cmd.run now host) := by
  cases cmd with
  | mkdir path => exact ext2Mkdir_exits now path
  | file cmd =>
    cases cmd with
    | ln source dest isSymLink => exact ext2Ln_exits now source dest isSymLink
    | cp source dest => exact ext2Cp_exits now host source dest
  | rm path => exact ext2Rm_exits now path

end Ext2
end OsAssignments
