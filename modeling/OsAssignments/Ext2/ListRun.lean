import OsAssignments.Ext2.Listing
import OsAssignments.Ext2.Persistence

/-!
# Listings of the file system

What `ext2_ls` prints on an image that the other commands keep.

* `ext2Ls` — the command, with the lines it prints.
* `DotsEnd` — what the test for `.` and `..` needs of the bytes behind these names.
* `FileSystem.Lists` — a list of the names of a directory; `FileSystem.Shows` — what the command has
  to do for a path.
* `ext2Ls_shows` — **the command lists the file system** that the image stands for.
-/

namespace OsAssignments
namespace Ext2

open ExitState NameGraph

/-! ## The command -/

/-- `is_file`. -/
def isFile (d : Disk) : Option Nat → Bool
  | none => false
  | some entry => decide (entryFileType d.data entry = ext2FtRegFile)

/-- `is_link`. -/
def isLink (d : Disk) : Option Nat → Bool
  | none => false
  | some entry => decide (entryFileType d.data entry = ext2FtSymlink)

/-- `ext2_ls`, with the lines it prints. -/
def ext2Ls (path : CString) (showDots : Bool) : Command (List CString) := do
  let d ← Command.get
  match traversePath d (splitPath path) with
  | none => Command.exit eNoEnt
  | some entry =>
    if isFile d (some entry) || isLink d (some entry) then pure [lastComponent path]
    else if isDirectory d (some entry) then pure (printDirContents d entry showDots)
    else pure []

/-- The bytes behind the names `.` and `..` of a directory let `strcmp` recognise one of the two. -/
def DotsEnd (d : Disk) (n : Nat) : Prop :=
  ∀ e ∈ dirEntries d n,
    (entryName d.data e = dot → d.data (e + 9) = 0 ∨ (d.data (e + 9) = 46 ∧ d.data (e + 10) = 0)) ∧
    (entryName d.data e = dotDot → d.data (e + 10) = 0)

/-! ## The file system -/

namespace FileSystem

/-- The lines are names of directory `n`, each of them once: all with the dots, and all but `.` and
`..` without.  (A name that has a NUL in it may be taken for one of the two.)  The two are left out
if they end where `strcmp` looks, and only then. -/
structure Lists (fs : FileSystem) (n : Nat) (showDots : Bool) (dotsEnd : Prop)
    (lines : List CString) : Prop where
  once : lines.Nodup
  named : ∀ name ∈ lines, ∃ b, fs.names n name = some b
  all : showDots = true → ∀ name b, fs.names n name = some b → name ∈ lines
  plain : ∀ name b, 0 ∉ name → name ∉ dotNames → fs.names n name = some b → name ∈ lines
  hidden : showDots = false → ((∀ name ∈ lines, name ∉ dotNames) ↔ dotsEnd)

/-- What a listing of `path` does on an image that stands for `fs`. -/
inductive Shows (fs : FileSystem) (path : CString) (showDots : Bool) (d : Disk) :
    Outcome Disk (List CString) → Prop
  | missing : fs.lookup (splitPath path) = none → Shows fs path showDots d (.exit eNoEnt d)
  | file {n kind : Nat} : fs.lookup (splitPath path) = some (n, kind) →
      kind = ext2FtRegFile ∨ kind = ext2FtSymlink →
      Shows fs path showDots d (.done [lastComponent path] d)
  | directory {n : Nat} {lines : List CString} :
      fs.lookup (splitPath path) = some (n, ext2FtDir) → fs.Lists n showDots (DotsEnd d n) lines →
      Shows fs path showDots d (.done lines d)
  | other {n kind : Nat} : fs.lookup (splitPath path) = some (n, kind) →
      kind ≠ ext2FtRegFile → kind ≠ ext2FtSymlink → kind ≠ ext2FtDir →
      Shows fs path showDots d (.done [] d)

end FileSystem

section

variable {d : Disk} {n e entry : Nat} {name : CString} {b : Nat × Nat} {showDots : Bool}
  {path : CString}

theorem mem_dirEntries_iff (hn : IsDirInode d n) : e ∈ dirEntries d n ↔ LiveIn d n e :=
  mem_dirEntries.trans (and_iff_right hn).symm

/-- The blocks of a directory have no entry in common. -/
theorem ConsistentAs.nodup_dirEntries (h : Consistent d) (hn : IsDirInode d n) :
    (dirEntries d n).Nodup := by
  rw [dirEntries, List.nodup_flatMap]
  constructor
  · intro i hi
    split
    · exact List.nodup_nil
    · rename_i hne
      exact (h.tiled n hn i (List.mem_range.mp hi) hne).nodup_liveEntries
  · refine List.nodup_range.pairwise_of_forall_ne fun i hi j hj hij => ?_
    rw [List.mem_range] at hi hj
    intro x hx hx'
    dsimp only at hx hx'
    split at hx
    · cases hx
    · rename_i hne
      split at hx'
      · cases hx'
      · have hin := mem_block_of_live hx
        have hin' := mem_block_of_live hx'
        rw [getBlock_eq, ext2BlockSize_eq] at hin hin'
        have hsame : getInodeBlockNumber d n i = getInodeBlockNumber d n j := by omega
        have hslots := h.sound.refs.inj (.slot n i) (.slot n j) ⟨hn.1.1, hi⟩ ⟨hn.1.1, hj⟩ hne hsame
        injection hslots with _ heq
        exact hij heq

/-- **The names of the entries in use differ.** -/
theorem Healthy.nodup_names (h : Healthy d) (hn : IsDirInode d n) :
    ((dirEntries d n).map (entryName d.data)).Nodup := by
  refine (h.consistent.nodup_dirEntries hn).map_on fun e he e' he' heq => ?_
  exact h.names n e e' ((mem_dirEntries_iff hn).mp he) ((mem_dirEntries_iff hn).mp he') heq

/-- Without the dots, `.` and `..` are left out exactly if they end where `strcmp` looks. -/
theorem dots_hidden_iff (d : Disk) (entry : Nat) :
    (∀ name ∈ printDirContents d entry false, name ∉ dotNames) ↔
      DotsEnd d (entryInode d.data entry) := by
  constructor
  · intro hhidden e he
    -- an entry that the test does not recognise is printed
    have hskipped : entryName d.data e ∈ dotNames → isDots d.data e = true := by
      intro hname
      by_contra hdots
      rw [Bool.not_eq_true] at hdots
      exact hhidden _ (mem_printDirContents.mpr ⟨e, he, by rw [hdots]; rfl, rfl⟩) hname
    exact ⟨fun hdot => (isDots_of_dot hdot).mp (hskipped (.inl hdot)),
      fun hdotDot => (isDots_of_dotDot hdotDot).mp (hskipped (.inr hdotDot))⟩
  · rintro hend name hline (hdot | hdotDot)
    · obtain ⟨e, he, hshown, rfl⟩ := mem_printDirContents.mp hline
      rw [(isDots_of_dot hdot).mpr ((hend e he).1 hdot)] at hshown
      cases hshown
    · obtain ⟨e, he, hshown, rfl⟩ := mem_printDirContents.mp hline
      rw [(isDots_of_dotDot hdotDot).mpr ((hend e he).2 hdotDot)] at hshown
      cases hshown

/-- A listing of a directory. -/
theorem Healthy.lists (h : Healthy d) (hn : IsDirInode d (entryInode d.data entry))
    (showDots : Bool) :
    (fileSystem d).Lists (entryInode d.data entry) showDots (DotsEnd d (entryInode d.data entry))
      (printDirContents d entry showDots) where
  once := nodup_printDirContents (h.nodup_names hn)
  named name hline := by
    obtain ⟨e, he, -, rfl⟩ := mem_printDirContents.mp hline
    exact ⟨_, h.names.nameGraph_iff.mpr ⟨e, (mem_dirEntries_iff hn).mp he, rfl⟩⟩
  all hdots name b hname := by
    obtain ⟨e, hl, hbinding⟩ := h.names.nameGraph_iff.mp hname
    refine mem_printDirContents.mpr ⟨e, (mem_dirEntries_iff hn).mpr hl, ?_, congrArg Prod.fst hbinding⟩
    rw [hdots, Bool.true_or]
  plain name b hnul hplain hname := by
    obtain ⟨e, hl, hbinding⟩ := h.names.nameGraph_iff.mp hname
    have he := (mem_dirEntries_iff hn).mpr hl
    have hspelled : entryName d.data e = name := congrArg Prod.fst hbinding
    refine mem_printDirContents.mpr ⟨e, he, ?_, hspelled⟩
    have hno : ¬ isDots d.data e = true := fun hdots => by
      rw [← hspelled] at hnul hplain
      exact hplain (dots_of_isDots (entryName_ne_nil he) hnul hdots)
    rw [Bool.not_eq_true] at hno
    rw [hno, Bool.not_false, Bool.or_true]
  hidden hdots := by
    rw [hdots]
    exact dots_hidden_iff d entry

/-- **`ext2_ls` lists the file system** that an image stands for, and changes nothing. -/
theorem ext2Ls_shows (h : Intact d) (path : CString) (showDots : Bool) :
    (fileSystem d).Shows path showDots d (ext2Ls path showDots d) := by
  have hc := h.consistent
  rw [ext2Ls, Command.bind_of_done (Command.get_apply d)]
  cases hentry : traversePath d (splitPath path) with
  | none => exact .missing (hc.lookup_eq_none (splitPath_ne_nil path) hentry)
  | some entry =>
    have hlookup := hc.lookup_of_traversePath (splitPath_ne_nil path) hentry
    obtain ⟨m, hl⟩ := hc.traversePath_live (splitPath_ne_nil path) hentry
    dsimp only
    by_cases hfile : (isFile d (some entry) || isLink d (some entry)) = true
    · rw [if_pos hfile]
      refine .file hlookup ?_
      rw [Bool.or_eq_true, isFile, isLink, decide_eq_true_iff, decide_eq_true_iff] at hfile
      exact hfile
    · rw [if_neg hfile]
      by_cases hdir : isDirectory d (some entry) = true
      · rw [if_pos hdir]
        have hn := ((hc.names m entry hl).2).mp ((isDirectory_some d entry).mp hdir)
        rw [entryTarget_dir hdir] at hlookup
        exact .directory hlookup (h.toHealthy.lists hn showDots)
      · rw [if_neg hdir]
        rw [Bool.or_eq_true, isFile, isLink, decide_eq_true_iff, decide_eq_true_iff, not_or] at hfile
        exact .other hlookup hfile.1 hfile.2 fun heq => hdir ((isDirectory_some d entry).mpr heq)

end

/-- The root of the small image, without the dots. -/
theorem ext2Ls_shows_example : (fileSystem smallImage).Shows [47] false smallImage
    (ext2Ls [47] false smallImage) := ext2Ls_shows smallImage_intact [47] false

end Ext2
end OsAssignments
