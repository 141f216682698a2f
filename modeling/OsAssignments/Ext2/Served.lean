import OsAssignments.Ext2.DirectoryTree
import OsAssignments.Ext2.ExitStatus
import OsAssignments.Ext2.Healthy

/-!
# What a command owes

What the end of a run has to do with the file system, and the runs that fail.

* `Intact` — the invariant of the commands.
* `Invocation.Admissible` — the cases that the commands do not check for.
* `Invocation.Served` — what the end of a run has to do with the file system.
* `Allocated.served`, `Allocated.served_dir`, `Taken.served` — what a command leaves behind that
  fails when it has an inode or blocks.
-/

namespace OsAssignments
namespace Ext2

open ByteMemory MachineWord ExitState Chunks NameGraph

/-- A healthy image with a tree of directories. -/
structure Intact (d : Disk) : Prop extends Healthy d where
  shape : (fileSystem d).Shaped

/-- The directory has a place for the name, and an entry can hold all of it. -/
structure NameFits (d : Disk) (p : Nat) (name : CString) : Prop where
  length : name.length ≤ 255
  lands : Lands d p name

theorem NameFits.landsLive {d : Disk} {p : Nat} {name : CString} (h : NameFits d p name)
    (hp : IsDirInode d p) (hne : name ≠ []) : LandsLive d p name := by
  refine ⟨hp, ?_, h.lands⟩
  have hpos := List.length_pos_iff.mpr hne
  have hlen := h.length
  rw [wrap_length]
  omega

/-- The cases that the commands do not check for: a new entry does not fit, or is made in what is
no directory; a copy overwrites a directory, or is too long to count its blocks; a removal gives
back a reserved block. -/
def Invocation.Admissible (d : Disk) (inv : Invocation) : Prop :=
  match inv.command with
  | .mkdir path => ∀ pe, MkdirPath d path pe →
      NameFits d (entryInode d.data pe) (lastComponent path)
  | .file (.ln source dest _) => ∀ se pe, LinkPaths d source dest se pe →
      isDirectory d (some pe) = true ∧ NameFits d (entryInode d.data pe) (lastComponent dest)
  | .file (.cp source dest) =>
      (∀ content, inv.host (afterStrtok source) = some content →
        content.length + ext2BlockSize ≤ 2 ^ 32) ∧
      isDirectory d (traversePath d (destComponents d source dest)) = false ∧
      ∀ pe, traversePath d (destComponents d source dest) = none →
        traversePath d (destComponents d source dest).dropLast = some pe →
        isDirectory d (some pe) = true ∧
          NameFits d (entryInode d.data pe) ((destComponents d source dest).getLastD [])
  | .rm path => ∀ e pe, RmPath d path e pe → KeepsReserved d (entryInode d.data pe) e

/-- The end of a run: the file system is as the command should leave it. -/
def Invocation.Served (inv : Invocation) (d : Disk) : Outcome Disk Unit → Prop
  | .done _ d' => Intact d' ∧ (fileSystem d).Does inv.host inv.command (fileSystem d')
  | .exit status d' => status ≠ 0 ∧ Intact d' ∧ (fileSystem d).Untouched (fileSystem d')
  | .crash => False

section

variable {d d' d'' d₀ d₁ : Disk} {n m p e r k mode child fileType now : Nat} {name : CString}
  {s s' : Set Nat} {inv : Invocation} {bs : List Nat} {content : List UInt8}

theorem Invocation.Served.of_done (h : Intact d) (hd : Healthy d')
    (hdoes : (fileSystem d).Does inv.host inv.command (fileSystem d')) :
    inv.Served d (.done () d') := ⟨⟨hd, hdoes.shaped h.shape⟩, hdoes⟩

theorem Invocation.Served.of_exit (h : Intact d) {status : Nat} (hstatus : status ≠ 0)
    (hd : Healthy d') (hsame : (fileSystem d).Untouched (fileSystem d')) :
    inv.Served d (.exit status d') := ⟨hstatus, ⟨hd, hsame.shaped h.shape⟩, hsame⟩

/-- A command that stops at once. -/
theorem Invocation.Served.unchanged (h : Intact d) {status : Nat} (hstatus : status ≠ 0) :
    inv.Served d (.exit status d) := ⟨hstatus, h, .inl rfl⟩

/-- The type of an entry that is no directory. -/
theorem entryTarget_ne_dir (h : isDirectory d (some e) = false) : (entryTarget d e).2 ≠ ext2FtDir :=
  fun heq => by
    rw [(isDirectory_some d e).mpr heq] at h
    cases h

theorem entryTarget_dir (h : isDirectory d (some e) = true) :
    entryTarget d e = (entryInode d.data e, ext2FtDir) :=
  Prod.ext rfl ((isDirectory_some d e).mp h)

/-! ## Inodes kept -/

namespace InodesKept

theorem trans (h : InodesKept d d' s) (h' : InodesKept d' d'' s) : InodesKept d d'' s := by
  refine ⟨fun m hm hused => ?_, fun m hm hused => h.old m hm (h'.old m hm hused)⟩
  have hk := h.kept m hm hused
  have hk' := h'.kept m hm hk.inUse
  exact ⟨hk'.inUse, hk'.isDir.trans hk.isDir, hk'.links.trans hk.links, fun hdir =>
    (hk.file hdir).trans (hk'.file fun hdir' => hdir (hk.isDir.mp hdir'))⟩

end InodesKept

theorem isDirInode_handOut : IsDirInode (handOut d bs) m ↔ IsDirInode d m := by
  rw [IsDirInode, IsDirInode, InodeInUse.handedOut, handOut_inodeTable]

theorem Taken.inodesKept (ht : Taken d k bs) (h : Sound d) : InodesKept d (handOut d bs) s := by
  refine ⟨fun m _ hm => ?_, fun m _ => InodeInUse.handedOut.mp⟩
  exact ⟨InodeInUse.handedOut.mpr hm, isDirInode_handOut, by rw [handOut_inodeTable],
    fun _ => ht.sameFile h hm.1⟩

theorem Allocated.inodesKept (ha : Allocated d d' n mode k) : InodesKept d d' {n} := by
  refine ⟨fun m hm hused => ?_, fun m hm hused => ((ha.inUse m).mp hused).resolve_right hm⟩
  obtain ⟨hfile, htable⟩ := ha.kept m hused
  refine ⟨ha.stillInUse m hused, ?_, by rw [htable], fun _ => hfile⟩
  rw [IsDirInode, IsDirInode, htable, ha.inUse]
  exact and_congr_left fun _ => or_iff_left hm

theorem Inserted.inodesKept (hins : Inserted d p child name fileType (.done (some r) d'))
    (h : Consistent d) (hp : IsDirInode d p) (hlen : name.length ≤ 255) : InodesKept d d' s := by
  have hc : Contained d p name 0 := h.contained hp fun _ => .inl (by omega)
  refine ⟨fun m _ hused => ⟨hins.inodeInUse.mpr hused, hins.isDirInode, (hins.mode_links m).2,
    fun hdir => ?_⟩, fun m _ => hins.inodeInUse.mp⟩
  exact hins.sameFile h.sound hp.1.1 hc hused.1 (EntryRemoved.ne_parent hp hdir)

theorem addLink_inodesKept (d : Disk) (n : Nat) : InodesKept d (addLink d n) {n} := by
  have hsame : SameAccounts d (addLink d n) := modifyInode_sameAccounts d _ _
  have huse : ∀ m, InodeInUse (addLink d n) m ↔ InodeInUse d m := fun m => by
    rw [InodeInUse, validInode_of_layout hsame.layout, hsame.getInodeUsage_eq, InodeInUse]
  refine ⟨fun m hm hused => ⟨(huse m).mpr hused, isDirInode_addLink, ?_, fun _ =>
    addLink_sameFile d n m⟩, fun m _ => (huse m).mp⟩
  exact (addLink_links d n m).trans (if_neg hm)

theorem Copied.inodesKept (hcopy : Copied now d d' n bs content) (h : Sound d) (hf : Fresh d bs)
    (hn : ValidInode d n) (hdir : ¬ IsDirInode d n) : InodesKept d d' {n} :=
  ⟨fun m hm hused => ⟨hcopy.inodeInUse.mpr hused, hcopy.isDirInode hdir, hcopy.inode_fields.2 m,
    fun _ => hcopy.sameFile h hf hn hused.1 hm⟩, fun _ _ => hcopy.inodeInUse.mp⟩

/-- A content for an inode that is no directory. -/
theorem Copied.consistent (hcopy : Copied now d d' n bs content) (h : Consistent d)
    (hf : Fresh d bs) (hn : ValidInode d n) (hdir : ¬ IsDirInode d n) : Consistent d' :=
  (hcopy.dirsKept h.sound hf hn hdir).consistent h
    (h.sound.copied hn hf.nodup hf.used hf.unowned hcopy) (fun _ => hcopy.isDirInode hdir)
    fun _ => hcopy.inodeInUse.mpr

theorem Taken.consistent (ht : Taken d k bs) (h : Consistent d) : Consistent (handOut d bs) :=
  (ht.dirsKept h.sound).consistent h (h.sound.handedOut ht.nodup ht.free)
    (fun _ => isDirInode_handOut) fun _ => InodeInUse.handedOut.mpr

/-! ## What is left behind -/

/-- A new inode that is no directory. -/
theorem Allocated.served (ha : Allocated d d' n mode k) (h : Intact d)
    (hmode : typeBits mode ≠ ext2SIfdir) {status : Nat} (hstatus : status ≠ 0) :
    inv.Served d (.exit status d') := by
  have hc := ha.consistent h.consistent hmode
  have hnew := not_inodeInUse_of_free ha.free
  have hsame := ha.sameLive h.consistent hmode
  have hnames := hsame.namesDistinct h.names
  have hadd := hsame.entriesAdded hc.tiled.format Set.notMem_empty
  refine .of_exit h hstatus ?_ (.inr ⟨n, ?_⟩)
  · refine h.of_entriesAdded hadd hc hnames (fun q hq => hq.elim) ha.inodesKept fun m hm => ?_
    rwa [Set.mem_singleton_iff.mp hm]
  · exact ha.inodesKept.leftBehind h.consistent hadd hnames hnew fun q hq => hq.elim

/-- Blocks that were taken, and nothing else. -/
theorem Taken.served (ht : Taken d k bs) (h : Intact d) {status : Nat} (hstatus : status ≠ 0) :
    inv.Served d (.exit status (handOut d bs)) := by
  have hkept : InodesKept d (handOut d bs) ∅ := ht.inodesKept h.consistent.sound
  have hc := ht.consistent h.consistent
  have hsame := (ht.dirsKept h.consistent.sound).sameLive h.consistent.tiled
    (fun m => isDirInode_handOut.mpr) fun m _ hl => isDirInode_handOut.mp hl.1
  refine .of_exit h hstatus ?_ (.inl (hkept.fileSystem_eq h.toHealthy hsame))
  exact h.of_entriesAdded (hsame.entriesAdded hc.tiled.format Set.notMem_empty) hc
    (hsame.namesDistinct h.names) (fun q hq => hq.elim) hkept fun m hm => hm.elim

namespace Allocated

variable (ha : Allocated d d' n ext2SIfdir k)
include ha

theorem isDirInode_dir : IsDirInode d' m ↔ IsDirInode d m ∨ m = n := by
  by_cases hm : m = n
  · subst hm
    refine iff_of_true ⟨(ha.inUse m).mpr (.inr rfl), ?_⟩ (.inr rfl)
    rw [ha.mode]
    decide
  · rw [or_iff_left hm, IsDirInode, IsDirInode, ha.inUse, or_iff_left hm]
    exact and_congr_right fun hused => by rw [(ha.kept m hused).2]

variable (hempty : ∀ i, getInodeBlockNumber d' n i = 0) (h : Consistent d)
include hempty h

theorem dirsTiled_dir : DirsTiled true d' := by
  intro m hm i hi hne
  rcases ha.isDirInode_dir.mp hm with hm | rfl
  · have hsame := ha.dirsKept m hm
    rw [hsame.slots] at hne ⊢
    exact ((h.tiled m hm i hi hne).congr (hsame.bytes i hne)).tiled
  · exact absurd (hempty i) hne

/-- A new directory that has no blocks has no entries. -/
theorem noEntries : EntriesAdded d d' ∅ := by
  have hfile := fun m hm => (ha.dirsKept m hm).liveIn h.tiled hm (ha.isDirInode_dir.mpr (.inl hm))
  refine ⟨fun m e => ?_, fun q hq => hq.elim, fun m e hl => (hfile m hl.1).2 e hl,
    (ha.dirsTiled_dir hempty h).format⟩
  · rw [or_iff_left (Set.notMem_empty _)]
    refine ⟨fun hl => ?_, fun hl => ((hfile m hl.1).1 e).mpr hl⟩
    rcases ha.isDirInode_dir.mp hl.1 with hm | rfl
    · exact ((hfile m hm).1 e).mp hl
    · obtain ⟨-, i, -, hne, -⟩ := hl
      exact absurd (hempty i) hne

theorem consistent_dir : Consistent d' := by
  have hadd := ha.noEntries hempty h
  refine ⟨ha.sound, ha.isDirInode_dir.mpr (.inl h.root), ha.dirsTiled_dir hempty h, fun m e hl => ?_⟩
  have hl := ((hadd.live m e).mp hl).resolve_right (Set.notMem_empty _)
  obtain ⟨hused, htype⟩ := h.names m e hl
  have hne : entryInode d.data e ≠ n := fun heq => not_inodeInUse_of_free ha.free (heq ▸ hused)
  have hft : entryFileType d'.data e = entryFileType d.data e :=
    congrArg (fun b => b.2.2) (hadd.kept m e hl)
  rw [hadd.entryInode_eq hl, hft, ha.isDirInode_dir, or_iff_left hne]
  exact ⟨ha.stillInUse _ hused, htype⟩

end Allocated

/-- A new directory without entries is left behind. -/
theorem Allocated.served_dir (ha : Allocated d d' n ext2SIfdir k)
    (hempty : ∀ i, getInodeBlockNumber d' n i = 0) (h : Intact d) {status : Nat}
    (hstatus : status ≠ 0) : inv.Served d (.exit status d') := by
  have hadd := ha.noEntries hempty h.consistent
  have hc := ha.consistent_dir hempty h.consistent
  have hnew := not_inodeInUse_of_free ha.free
  have hnames : NamesDistinct d' := by
    have hback : SameLive d d' := ⟨fun m e => (hadd.live m e).trans (or_iff_left (Set.notMem_empty _)),
      hadd.kept⟩
    exact hback.namesDistinct h.names
  refine .of_exit h hstatus ?_ (.inr ⟨n, ?_⟩)
  · refine h.of_entriesAdded hadd hc hnames (fun q hq => hq.elim) ha.inodesKept fun m hm => ?_
    rwa [Set.mem_singleton_iff.mp hm]
  · exact ha.inodesKept.leftBehind h.consistent hadd hnames hnew fun q hq => hq.elim

end

end Ext2
end OsAssignments
