import OsAssignments.Ext2.MkdirRun
import OsAssignments.Ext2.OtherFiles

/-!
# What failing commands leave behind

The image is mapped shared, so what `ext2_mkdir` and `ext2_ln` have written before they exit
stays.

* `Unchanged` — the bitmaps, the counters, the numbers of links and the entries are as before.
* `NoRoom` — the first block a command needs is missing, or the one for its entry.
* `StopsHalfway` — the command has allocated its inode when it finds out that it cannot go on.
* `failed_unchanged_iff` — a failing command leaves the image unchanged exactly if it does not
  stop halfway.
-/

namespace OsAssignments
namespace Ext2

open ByteMemory MachineWord ExitState Ownership

/-- `ext2_mkdir` and `ext2_ln` with their arguments. -/
inductive CreateCommand where
  | mkdir (path : CString)
  | ln (source dest : CString) (isSymLink : Bool)

/-- The command as a program. -/
def CreateCommand.run (now : Nat) : CreateCommand → Command Unit
  | .mkdir path => ext2Mkdir now path
  | .ln source dest isSymLink => ext2Ln now source dest isSymLink

/-- The same bitmaps, counters, numbers of links and directory entries. -/
structure Unchanged (d d' : Disk) : Prop where
  superBlock : d'.superBlock = d.superBlock
  groupDesc : d'.groupDesc = d.groupDesc
  blockBitmap : d'.blockBitmap = d.blockBitmap
  inodeBitmap : d'.inodeBitmap = d.inodeBitmap
  links : ∀ n, (d'.inodeTable n).iLinksCount = (d.inodeTable n).iLinksCount
  entries : SameLive d d'

theorem Unchanged.refl (d : Disk) : Unchanged d d :=
  ⟨rfl, rfl, rfl, rfl, fun _ => rfl, SameLive.refl d⟩

/-- A failing command leaves the image unchanged. -/
def FailsClean (d : Disk) (now : Nat) (cmd : CreateCommand) : Prop :=
  ∀ status d', cmd.run now d = .exit status d' → status ≠ 0 → Unchanged d d'

/-- There is no block for a new inode, or none is left for the entry `name` in `p`. -/
def NoRoom (d : Disk) (p : Nat) (name : CString) : Prop :=
  freeBlocks d = ∅ ∨ ((freeBlocks d).card = 1 ∧ entryPlace d p name = none)

/-- The command allocates an inode and cannot go on. -/
inductive StopsHalfway (d : Disk) : CreateCommand → Prop
  | mkdir {path : CString} {parentEntry : Nat} : MkdirPath d path parentEntry →
      (freeInodes d).Nonempty → NoRoom d (entryInode d.data parentEntry) (lastComponent path) →
      StopsHalfway d (.mkdir path)
  | ln {source dest : CString} {srcEntry parentEntry : Nat} :
      LinkPaths d source dest srcEntry parentEntry → (freeInodes d).Nonempty →
      ext2BlockSize ≤ (afterStrtok source).length ∨
        NoRoom d (entryInode d.data parentEntry) (lastComponent dest) →
      StopsHalfway d (.ln source dest true)

section

variable {d d' : Disk} {n p mode k : Nat} {name : CString}

/-- An inode allocated shows in the bitmap. -/
theorem Allocated.not_unchanged (ha : Allocated d d' n mode k) : ¬ Unchanged d d' := by
  intro hun
  have hnew := (ha.inUse n).mpr (.inr rfl)
  refine not_inodeInUse_of_free ha.free ⟨(validInode_of_layout ha.layout).mp hnew.1, ?_⟩
  have husage := hnew.2
  rwa [getInodeUsage, hun.inodeBitmap] at husage

/-- With one block taken, an insertion that comes to its end has found room. -/
theorem Allocated.room_of_inserted {child fileType r : Nat} {d₁ : Disk}
    (ha : Allocated d d₁ n mode 1) (hp : InodeInUse d p) {b : Nat} (hb : b ∈ freeBlocks d)
    (hins : Inserted d₁ p child name fileType (.done (some r) d')) : ¬ NoRoom d p name := by
  rintro (hnone | ⟨hone, hplace⟩)
  · rw [hnone] at hb
    exact absurd hb (Finset.notMem_empty b)
  · rcases hins.room with hsome | hpos
    · rw [ha.entryPlace_eq hp] at hsome
      exact hsome hplace
    · rw [ha.card, hone] at hpos
      exact absurd hpos (lt_irrefl 0)

theorem Allocated.room_of_overrun {child fileType : Nat} {d₁ : Disk}
    (ha : Allocated d d₁ n mode 1) {b : Nat} (hb : b ∈ freeBlocks d)
    (hins : Inserted d₁ p child name fileType .crash) : ¬ NoRoom d p name := by
  rintro (hnone | ⟨hone, -⟩)
  · rw [hnone] at hb
    exact absurd hb (Finset.notMem_empty b)
  · cases hins with
    | overrun _ hne =>
      have hpos := Finset.card_pos.mpr hne
      rw [ha.card, hone] at hpos
      exact absurd hpos (lt_irrefl 0)

/-- Without room for the entry there was one block at most. -/
theorem Allocated.noRoom_of_full {d₁ : Disk} (ha : Allocated d d₁ n mode 1) (hp : InodeInUse d p)
    {b : Nat} (hb : b ∈ freeBlocks d) (hplace : entryPlace d₁ p name = none)
    (hfree : freeBlocks d₁ = ∅) : NoRoom d p name := by
  have hcard := ha.card
  have hpos := card_pos_of_mem hb
  rw [hfree, Finset.card_empty] at hcard
  rw [ha.entryPlace_eq hp] at hplace
  exact .inr ⟨by omega, hplace⟩

/-! ## The outcomes -/

theorem MkdirOutcome.exit_cases {now status : Nat} {o : Outcome Disk Unit} (h : Sound d)
    (hp : InodeInUse d p) (ho : MkdirOutcome d now p name o) (hexit : o = .exit status d') :
    Unchanged d d' ∨ ((freeInodes d).Nonempty ∧ NoRoom d p name) := by
  cases ho with
  | noInode =>
    cases hexit
    exact .inl (Unchanged.refl d)
  | @noBlock n hn hnone => exact .inr ⟨⟨n, hn⟩, .inl hnone⟩
  | @entryFull n b hn hb hplace hfree =>
    exact .inr ⟨⟨n, hn⟩, (h.newDir_allocated now hn hb p).noRoom_of_full hp hb hplace hfree⟩
  | overrun => cases hexit
  | made => cases hexit

theorem MkdirOutcome.halfway {now : Nat} {o : Outcome Disk Unit} (h : Sound d)
    (hp : InodeInUse d p) (ho : MkdirOutcome d now p name o) (hinode : (freeInodes d).Nonempty)
    (hroom : NoRoom d p name) : ∃ d', o = .exit 1 d' ∧ ¬ Unchanged d d' := by
  cases ho with
  | noInode hnone => exact absurd hnone hinode.ne_empty
  | noBlock hn => exact ⟨_, rfl, (h.newDirInode_allocated now hn).not_unchanged⟩
  | entryFull hn hb => exact ⟨_, rfl, (h.newDir_allocated now hn hb p).not_unchanged⟩
  | overrun hn hb hins =>
    exact absurd hroom ((h.newDir_allocated now hn hb p).room_of_overrun hb hins)
  | made hn hb hins =>
    exact absurd hroom ((h.newDir_allocated now hn hb p).room_of_inserted hp hb hins)

theorem LinkOutcome.exit_cases {now se status : Nat} {source : CString} {isSymLink : Bool}
    {o : Outcome Disk Unit} (h : Sound d) (hp : InodeInUse d p)
    (ho : LinkOutcome d now source se p name isSymLink o) (hexit : o = .exit status d') :
    Unchanged d d' ∨ (isSymLink = true ∧ (freeInodes d).Nonempty ∧
      (ext2BlockSize ≤ source.length ∨ NoRoom d p name)) := by
  cases ho with
  | hardFull =>
    cases hexit
    exact .inl (Unchanged.refl d)
  | noInode =>
    cases hexit
    exact .inl (Unchanged.refl d)
  | @tooLong n hn _ hlong => exact .inr ⟨rfl, ⟨n, hn⟩, .inl hlong⟩
  | @noBlock n hn _ _ hnone => exact .inr ⟨rfl, ⟨n, hn⟩, .inr (.inl hnone)⟩
  | @symFull n b hn _ hlen hb hplace hfree =>
    exact .inr ⟨rfl, ⟨n, hn⟩,
      .inr ((h.symlink_allocated now hn hlen hb).noRoom_of_full hp hb hplace hfree)⟩
  | hard => cases hexit
  | hardOverrun => cases hexit
  | symOverrun => cases hexit
  | sym => cases hexit

theorem LinkOutcome.halfway {now se : Nat} {source : CString} {o : Outcome Disk Unit} (h : Sound d)
    (hp : InodeInUse d p) (ho : LinkOutcome d now source se p name true o)
    (hinode : (freeInodes d).Nonempty)
    (hroom : ext2BlockSize ≤ source.length ∨ NoRoom d p name) :
    ∃ status d', o = .exit status d' ∧ status ≠ 0 ∧ ¬ Unchanged d d' := by
  cases ho with
  | noInode hnone => exact absurd hnone hinode.ne_empty
  | tooLong hn =>
    exact ⟨_, _, rfl, by decide, (h.newInode_allocated now ext2SIflnk _ hn).not_unchanged⟩
  | noBlock hn =>
    exact ⟨_, _, rfl, by decide, (h.newInode_allocated now ext2SIflnk _ hn).not_unchanged⟩
  | symFull hn _ hlen hb =>
    exact ⟨_, _, rfl, by decide, (h.symlink_allocated now hn hlen hb).not_unchanged⟩
  | symOverrun hn _ hlen hb hins =>
    have hno := (h.symlink_allocated now hn hlen hb).room_of_overrun hb hins
    exact absurd hroom (not_or.mpr ⟨by omega, hno⟩)
  | sym hn _ hlen hb hins =>
    have hno := (h.symlink_allocated now hn hlen hb).room_of_inserted hp hb hins
    exact absurd hroom (not_or.mpr ⟨by omega, hno⟩)

/-! ## Both commands -/

/-- A command that stops halfway leaves its inode behind. -/
theorem StopsHalfway.not_clean (h : Consistent d) (now : Nat) {cmd : CreateCommand}
    (hstop : StopsHalfway d cmd) : ¬ FailsClean d now cmd := by
  intro hclean
  cases hstop with
  | @mkdir path pe hpath hinode hroom =>
    rcases ext2Mkdir_cases d now path with ⟨-, -, hno⟩ | ⟨pe', hpath', hrun⟩
    · exact hno pe hpath
    · cases hpath.parent.symm.trans hpath'.parent
      obtain ⟨m, hl⟩ := hpath.live h
      obtain ⟨d', hexit, hne⟩ := (h.makeDirectory_outcome now hl (lastComponent path)).halfway h.sound
        (h.names m pe hl).1 hinode hroom
      exact hne (hclean 1 d' (hrun.trans hexit) (by decide))
  | @ln source dest se pe hpaths hinode hroom =>
    have hp := hpaths.parent_inUse h
    rcases ext2Ln_cases d now source dest true with ⟨-, -, hno⟩ | ⟨se', pe', hpaths', hrun⟩
    · exact hno se pe hpaths
    · cases hpaths.parent.symm.trans hpaths'.parent
      obtain ⟨status, d', hexit, hstatus, hne⟩ := (h.sound.finishLink_outcome now (afterStrtok source)
        se' pe (lastComponent dest) true hp.1).halfway h.sound hp hinode hroom
      exact hne (hclean status d' (hrun.trans hexit) hstatus)

/-- **When a failing command leaves the image unchanged.**  The exits behind the allocation of
an inode undo nothing. -/
theorem failed_unchanged_iff (h : Consistent d) (now : Nat) (cmd : CreateCommand) :
    FailsClean d now cmd ↔ ¬ StopsHalfway d cmd := by
  refine ⟨fun hclean hstop => hstop.not_clean h now hclean, fun hno status d' hrun _ => ?_⟩
  cases cmd with
  | mkdir path =>
    rcases ext2Mkdir_cases d now path with ⟨_, hexit, -⟩ | ⟨pe, hpath, hmake⟩
    · cases hexit.symm.trans hrun
      exact Unchanged.refl d
    · obtain ⟨m, hl⟩ := hpath.live h
      rcases (h.makeDirectory_outcome now hl (lastComponent path)).exit_cases h.sound
        (h.names m pe hl).1 (hmake.symm.trans hrun) with hun | ⟨hinode, hroom⟩
      · exact hun
      · exact absurd (.mkdir hpath hinode hroom) hno
  | ln source dest isSymLink =>
    rcases ext2Ln_cases d now source dest isSymLink with
      ⟨_, hexit, -⟩ | ⟨se, pe, hpaths, hfinish⟩
    · cases hexit.symm.trans hrun
      exact Unchanged.refl d
    · have hp := hpaths.parent_inUse h
      rcases (h.sound.finishLink_outcome now (afterStrtok source) se pe (lastComponent dest) isSymLink
        hp.1).exit_cases h.sound hp (hfinish.symm.trans hrun) with hun | ⟨rfl, hinode, hroom⟩
      · exact hun
      · exact absurd (.ln hpaths hinode hroom) hno

end

theorem noInodeImage_mkdirPath : MkdirPath noInodeImage [47, 103] 23552 :=
  ⟨by decide +kernel, by decide +kernel, by decide +kernel⟩

/-- Without a free inode `ext2_mkdir /g` fails behind its checks, and has changed nothing. -/
theorem failed_unchanged_example :
    (∃ d', ext2Mkdir 0 [47, 103] noInodeImage = .exit 1 d') ∧
      FailsClean noInodeImage 0 (.mkdir [47, 103]) := by
  refine ⟨?_, (failed_unchanged_iff noInodeImage_consistent 0 _).mpr fun hstop => ?_⟩
  · rcases ext2Mkdir_cases noInodeImage 0 [47, 103] with ⟨-, -, hno⟩ | ⟨pe, -, hmake⟩
    · exact absurd noInodeImage_mkdirPath (hno _)
    · rcases allocateDirInode_cases noInodeImage_consistent.sound.toCounted 0 with
        ⟨-, hexit⟩ | ⟨n, hn, -⟩
      · exact ⟨_, hmake.trans (Command.bind_of_exit hexit)⟩
      · exact absurd hn (noInodeImage_freeInodes ▸ Finset.notMem_empty n)
  · cases hstop with
    | mkdir _ hinode => exact hinode.ne_empty noInodeImage_freeInodes

/-- **Without a free block `ext2_mkdir` leaves an inode behind.** -/
theorem fullImage_inode_left :
    Consistent fullImage ∧ ¬ FailsClean fullImage 0 (.mkdir [47, 103]) := by
  have hpath : MkdirPath fullImage [47, 103] 23552 :=
    ⟨by decide +kernel, by decide +kernel, by decide +kernel⟩
  have hinode : (freeInodes fullImage).Nonempty :=
    ⟨13, mem_freeInodes.mpr ⟨⟨by decide, by decide⟩, by decide⟩⟩
  have hfree : freeBlocks fullImage = ∅ := by
    rw [← Finset.card_eq_zero, ← fullImage_consistent.sound.sFreeBlocks]
    rfl
  exact ⟨fullImage_consistent,
    (StopsHalfway.mkdir hpath hinode (.inl hfree)).not_clean fullImage_consistent 0⟩

end Ext2
end OsAssignments
