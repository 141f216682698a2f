import OsAssignments.Ext2.Abstraction
import OsAssignments.Ext2.LinkCounts
import OsAssignments.Ext2.NewDirectory
import OsAssignments.Ext2.RoundTrip
import OsAssignments.Ext2.Unlink

/-!
# Healthy images

The invariant of the commands, and what each change of an image does to it and to the file
system that the image stands for.

* `Healthy` — consistent, no name twice in a directory, and each file has as many links as names
  and no reserved blocks.
* `InodesKept d d' changed` — the inodes in use but these keep their files, types and links.
* `Healthy.of_entriesAdded`, `InodesKept.fileSystem_eq`, `InodesKept.leftBehind` — no name of a
  file changes.
* `EntryMade.healthy`, `Overwritten.healthy`, `EntryRemoved.healthy` — one name of a file more, a file
  overwritten, one name less; `fileSystem_eq` says each time what this is for the file system.
-/

namespace OsAssignments
namespace Ext2

open ByteMemory MachineWord ExitState NameGraph

/-- A file as the commands make it. -/
structure FileHealthy (d : Disk) (n : Nat) : Prop where
  links : (d.inodeTable n).iLinksCount = (naming d n).ncard
  unreserved : Unreserved d n

/-- The invariant of the commands. -/
structure Healthy (d : Disk) : Prop where
  consistent : Consistent d
  names : NamesDistinct d
  files : ∀ n, (naming d n).Nonempty → ¬ IsDirInode d n → FileHealthy d n

/-- The inode is in use and what it was, and so is its file. -/
structure InodeKept (d d' : Disk) (n : Nat) : Prop where
  inUse : InodeInUse d' n
  isDir : IsDirInode d' n ↔ IsDirInode d n
  links : (d'.inodeTable n).iLinksCount = (d.inodeTable n).iLinksCount
  file : ¬ IsDirInode d n → SameFile d d' n

/-- Of the inodes in use all but the `changed` ones are kept, and none but these is new. -/
structure InodesKept (d d' : Disk) (changed : Set Nat) : Prop where
  kept : ∀ m, m ∉ changed → InodeInUse d m → InodeKept d d' m
  old : ∀ m, m ∉ changed → InodeInUse d' m → InodeInUse d m

section

variable {d d' : Disk} {n m p e r fileType : Nat} {name : CString} {changed : Set Nat}
  {added : Set (Nat × Nat)}

theorem Unreserved.congr (h : Unreserved d n)
    (hslots : ∀ i, getInodeBlockNumber d' n i = getInodeBlockNumber d n i) : Unreserved d' n := by
  refine ⟨h.1, fun i hi => ?_⟩
  rw [hslots]
  exact h.2 i hi

theorem FileHealthy.congr (h : FileHealthy d n) (hnaming : naming d' n = naming d n)
    (hlinks : (d'.inodeTable n).iLinksCount = (d.inodeTable n).iLinksCount)
    (hslots : ∀ i, getInodeBlockNumber d' n i = getInodeBlockNumber d n i) : FileHealthy d' n :=
  ⟨by rw [hlinks, hnaming, h.links], h.unreserved.congr hslots⟩

/-- A file that is named. -/
theorem Healthy.file (h : Healthy d) (hl : LiveIn d m e)
    (hdir : ¬ IsDirInode d (entryInode d.data e)) : FileHealthy d (entryInode d.data e) :=
  h.files _ ⟨(m, e), hl, rfl⟩ hdir

theorem Healthy.linksCounted (h : Healthy d) : LinksCounted d := fun _ _ hl hdir =>
  (h.file hl hdir).links

theorem Healthy.inUse_of_naming (h : Healthy d) (hn : (naming d n).Nonempty) : InodeInUse d n := by
  obtain ⟨⟨m, e⟩, hl, rfl⟩ := hn
  exact (h.consistent.names m e hl).1

theorem InodeKept.fileContent_eq (hkept : InodeKept d d' n) (hn : InodeInUse d n) :
    fileContent d' n = fileContent d n :=
  fileContent_congr (iff_of_true hkept.inUse hn) hkept.isDir fun _ => hkept.file

theorem InodeKept.fileHealthy (hkept : InodeKept d d' n) (h : FileHealthy d n)
    (hdir : ¬ IsDirInode d n) (hnaming : naming d' n = naming d n) : FileHealthy d' n :=
  h.congr hnaming hkept.links (hkept.file hdir).slots

/-! ## No name changed -/

theorem SameLive.naming_eq (h : SameLive d d') (n : Nat) : naming d' n = naming d n := by
  ext ⟨m, e⟩
  rw [mem_naming, mem_naming, h.live]
  refine and_congr_right fun hl => ?_
  rw [show entryInode d'.data e = entryInode d.data e from
    congrArg (fun b => b.2.1) (h.binding m e hl)]

/-- **New names of directories keep an image healthy**, and so does a new inode. -/
theorem Healthy.of_entriesAdded (h : Healthy d) (hadd : EntriesAdded d d' added) (hc : Consistent d')
    (hnames : NamesDistinct d') (hdirs : ∀ q ∈ added, IsDirInode d' (entryInode d'.data q.2))
    (hkept : InodesKept d d' changed) (hnew : ∀ m ∈ changed, ¬ InodeInUse d m) : Healthy d' := by
  refine ⟨hc, hnames, fun n hn hdir => ?_⟩
  have hsame : naming d' n = naming d n := by
    refine Set.Subset.antisymm (fun q hq => ?_) (hadd.naming_subset n)
    refine (hadd.naming_subset_union n hq).resolve_right fun hq' => hdir ?_
    obtain ⟨-, hinode⟩ := hq
    exact hinode ▸ hdirs q hq'
  rw [hsame] at hn
  have hused := h.inUse_of_naming hn
  have hk := hkept.kept n (fun hmem => hnew n hmem hused) hused
  have hold : ¬ IsDirInode d n := fun hold => hdir (hk.isDir.mpr hold)
  exact hk.fileHealthy (h.files n hn hold) hold hsame

namespace InodesKept

theorem content_eq (hkept : InodesKept d d' changed) (hm : m ∉ changed) :
    fileContent d' m = fileContent d m := by
  by_cases huse : InodeInUse d m
  · exact (hkept.kept m hm huse).fileContent_eq huse
  · exact (if_neg fun hand => huse (hkept.old m hm hand.1)).trans (if_neg fun hand => huse hand.1).symm

/-- The contents, if one inode is changed. -/
theorem fileContent_eq_update (hkept : InodesKept d d' {n}) :
    fileContent d' = Function.update (fileContent d) n (fileContent d' n) := by
  funext m
  by_cases hm : m = n
  · rw [hm, Function.update_self]
  · rw [Function.update_of_ne hm]
    exact hkept.content_eq hm

theorem fileSystem_eq (hkept : InodesKept d d' ∅) (h : Healthy d) (hsame : SameLive d d') :
    fileSystem d' = fileSystem d :=
  FileSystem.ext (hsame.nameGraph_eq h.names) (funext fun m => hkept.content_eq (Set.notMem_empty m))

/-- A new inode may be left behind, with the names that every directory has. -/
theorem leftBehind (hkept : InodesKept d d' {n}) (h : Consistent d) (hadd : EntriesAdded d d' added)
    (hnames : NamesDistinct d') (hfresh : ¬ InodeInUse d n)
    (hown : ∀ q ∈ added, q.1 = n ∧ entryName d'.data q.2 ∈ dotNames ∧
      entryFileType d'.data q.2 = ext2FtDir) :
    FileSystem.LeftBehind (fileSystem d) (fileSystem d') n where
  fresh := h.fresh hfresh
  names m hm := by
    funext name
    refine Option.ext fun b => (hadd.nameGraph_iff hnames).trans (or_iff_left ?_)
    rintro ⟨e, he, -⟩
    exact hm (hown (m, e) he).1
  orphan name b hb := by
    rcases (hadd.nameGraph_iff hnames).mp hb with hold | ⟨e, he, hbinding⟩
    · rw [nameGraph_eq_none fun hdir => hfresh hdir.1] at hold
      cases hold
    · obtain ⟨-, hdot, htype⟩ := hown (n, e) he
      have hname : entryName d'.data e = name := congrArg Prod.fst hbinding
      have hkind : entryFileType d'.data e = b.2 := congrArg (fun c => c.2.2) hbinding
      exact ⟨hname ▸ hdot, hkind ▸ htype⟩
  content m hm := hkept.content_eq hm

end InodesKept

/-! ## One name more -/

namespace EntryMade

variable (hmade : EntryMade d d' p r n name fileType) (hland : LandsLive d p name)
include hmade hland

theorem oneAdded : EntriesAdded d d' {(p, r)} := by
  have hset : {q : Nat × Nat | q.1 = p ∧ q.2 = r ∧ LandsLive d p name} = {(p, r)} := by
    ext ⟨x, y⟩
    simp [hland]
  exact hset ▸ hmade.added

theorem naming_eq (m : Nat) :
    naming d' m = if n = m then insert (p, r) (naming d m) else naming d m := by
  rw [(hmade.oneAdded hland).naming_eq, hmade.inode hland]

/-- The file system has the name. -/
theorem fileSystem_eq (hkept : InodesKept d d' {n}) (hnames : NamesDistinct d')
    (hname : entryName d'.data r = name) : fileSystem d' =
    ((fileSystem d).link p name n fileType).setContent n (fileContent d' n) := by
  refine FileSystem.ext ?_ hkept.fileContent_eq_update
  have hlink := (hmade.oneAdded hland).nameGraph_eq_link hnames
  rw [entryTarget, hmade.inode hland, hmade.type hland, hname] at hlink
  exact hlink

variable (h : Healthy d)
include h

/-- The inode of the entry has as many links as names. -/
theorem links_eq (hold : InodeInUse d n → FileHealthy d n) :
    (d'.inodeTable n).iLinksCount = (naming d' n).ncard := by
  have hnot : (p, r) ∉ naming d n := fun hmem => (hmade.oneAdded hland).fresh (p, r) rfl hmem.1
  have hle := h.consistent.ncard_naming_le n
  rw [hmade.naming_eq hland, if_pos rfl,
    Set.ncard_insert_of_notMem hnot (h.consistent.naming_finite n)]
  rcases hmade.target with ⟨hnew, hlink⟩ | ⟨hused, hlink⟩
  · rw [hlink, h.consistent.naming_eq_empty hnew, Set.ncard_empty]
  · rw [hlink, (hold hused).links, wrap_of_lt (by omega)]

/-- **A new name keeps an image healthy**, if it names a file. -/
theorem healthy (hkept : InodesKept d d' {n}) (hc : Consistent d') (hnames : NamesDistinct d')
    (hold : InodeInUse d n → FileHealthy d n) (hun : Unreserved d' n) : Healthy d' := by
  refine ⟨hc, hnames, fun m hm hdir => ?_⟩
  by_cases hmn : m = n
  · rw [hmn]
    exact ⟨hmade.links_eq hland h hold, hun⟩
  · have hsame : naming d' m = naming d m := by
      rw [hmade.naming_eq hland, if_neg (Ne.symm hmn)]
    rw [hsame] at hm
    have hk := hkept.kept m hmn (h.inUse_of_naming hm)
    have hdir' : ¬ IsDirInode d m := fun hd => hdir (hk.isDir.mpr hd)
    exact hk.fileHealthy (h.files m hm hdir') hdir' hsame

end EntryMade

/-! ## A file overwritten -/

namespace Overwritten

variable (hover : Overwritten d d' n) (hdir : ¬ IsDirInode d n)
include hover hdir

theorem sameLive : SameLive d d' := by
  have hne : ∀ m e, LiveIn d m e → m ≠ n := fun m e hl heq => hdir (heq ▸ hl.1)
  exact ⟨fun m e => (hover.live m e).trans (and_iff_left_of_imp (hne m e)), fun m e hl =>
    hover.kept m e hl (hne m e hl)⟩

/-- The content of a file may change. -/
theorem healthy (h : Healthy d) (hc : Consistent d') (hkept : InodesKept d d' {n})
    (hun : Unreserved d' n) : Healthy d' := by
  have hsame := hover.sameLive hdir
  refine ⟨hc, hsame.namesDistinct h.names, fun m hm hdir' => ?_⟩
  rw [hsame.naming_eq] at hm
  by_cases hmn : m = n
  · subst hmn
    refine ⟨?_, hun⟩
    rw [hover.links, hsame.naming_eq, (h.files m hm hdir).links]
  · have hk := hkept.kept m hmn (h.inUse_of_naming hm)
    have hold : ¬ IsDirInode d m := fun hold => hdir' (hk.isDir.mpr hold)
    exact hk.fileHealthy (h.files m hm hold) hold (hsame.naming_eq m)

theorem fileSystem_eq (h : Healthy d) (hkept : InodesKept d d' {n}) :
    fileSystem d' = (fileSystem d).setContent n (fileContent d' n) :=
  FileSystem.ext ((hover.sameLive hdir).nameGraph_eq h.names) hkept.fileContent_eq_update

end Overwritten

/-! ## One name less -/

/-- The entry can go without a reserved block being given back. -/
def KeepsReserved (d : Disk) (p e : Nat) : Prop :=
  HasNeighbour d p e ∨ lastReservedBlock < e / ext2BlockSize

namespace EntryRemoved

variable {d₁ : Disk} {i : Nat} {mem : Memory} (hrem : EntryRemoved d d₁ p i e mem)

section Sound

include hrem

/-- The entry lies in the block of the slot. -/
theorem div_eq : e / ext2BlockSize = getInodeBlockNumber d p i := by
  obtain ⟨l₁, l₂, hold, -⟩ := hrem.removal.live
  have hin := mem_block_of_live (show e ∈ liveEntries d.data _ by rw [hold]; simp)
  rw [getBlock_eq, ext2BlockSize_eq] at hin
  rw [ext2BlockSize_eq]
  omega

variable (h : Consistent d) (hp : IsDirInode d p)
include h hp

/-- The other places store what they stored. -/
theorem stored_eq {q : Ref} (hq : ValidRef d q) (hother : ∀ j, q ≠ .slot p j) :
    stored d₁ q = stored d q := by
  cases q with
  | slot m j =>
    have hmp : m ≠ p := fun heq => hother j (by rw [heq])
    exact (hrem.sameFile hp h hq.1 hmp).slots j
  | indirect m => exact hrem.footprint.indirect m

/-- **The image is sound without the entry.** -/
theorem sound (hkeeps : KeepsReserved d p e) : Sound d₁ := by
  have hslot : ValidRef d (.slot p i) := ⟨hp.1.1, hrem.lt⟩
  by_cases hnb : HasNeighbour d p e
  · obtain ⟨htakes, hslots⟩ := hrem.keepsBlock h hp hnb
    refine htakes.sound hrem.footprint.layout ⟨by simp, by simp⟩ h.sound fun q hq => ?_
    refine .inr ⟨?_, Finset.notMem_empty _⟩
    by_cases hself : ∃ j, q = .slot p j
    · obtain ⟨j, rfl⟩ := hself
      exact hslots j
    · exact hrem.stored_eq h hp hq (not_exists.mp hself)
  · obtain ⟨htakes, hslots⟩ := hrem.givesBlock h hp hnb
    have hres := hkeeps.resolve_left hnb
    rw [hrem.div_eq] at hres
    have huse := h.sound.stored_inUse hslot hrem.slot
    have hrel : Releasable d {getInodeBlockNumber d p i} ∅ := by
      refine ⟨fun b hb => ?_, by simp⟩
      rw [Finset.mem_singleton.mp hb]
      exact ⟨hres, huse.lt⟩
    -- the block is stored in the emptied slot only
    have honly : ∀ q, ValidRef d q → q ≠ .slot p i →
        stored d q ∉ ({getInodeBlockNumber d p i} : Finset Nat) := by
      intro q hq hne hmem
      have heq := Finset.mem_singleton.mp hmem
      exact hne (h.sound.refs.inj q (.slot p i) hq hslot (heq ▸ hrem.slot) heq)
    refine htakes.sound hrem.footprint.layout hrel h.sound fun q hq => ?_
    by_cases hself : ∃ j, q = .slot p j
    · obtain ⟨j, rfl⟩ := hself
      have hj := hslots j
      split at hj
      · exact .inl hj
      · rename_i hji
        exact .inr ⟨hj, honly _ hq fun heq => hji (by injection heq)⟩
    · have hother := not_exists.mp hself
      exact .inr ⟨hrem.stored_eq h hp hq hother, honly q hq (hother i)⟩

end Sound

variable (h : Healthy d) (hp : IsDirInode d p) (hdir : ¬ IsDirInode d (entryInode d.data e))
  (now : Nat)
include hrem h hp hdir

/-- The inodes but the one of the entry are kept. -/
theorem inodesKept : InodesKept d (finishRm now d₁ (entryInode d.data e)) {entryInode d.data e} := by
  have hn := (h.consistent.names p e (hrem.liveIn hp)).1
  have huse := fun m => hrem.inodeInUse_finishRm (m := m) hp h.consistent hn hdir now
  refine ⟨fun m hm hused => ⟨(huse m hm).mpr hused, hrem.isDirInode_finishRm hp h.consistent hn hdir now,
    ?_, fun hfile => ?_⟩, fun m hm => (huse m hm).mp⟩
  · obtain ⟨iBlock, htable⟩ := hrem.inode m
    rw [hrem.finishRm_inode hp h.consistent hn hdir now hm, htable]
  · have hmp : m ≠ p := ne_parent hp hfile
    exact (hrem.sameFile hp h.consistent hused.1 hmp).trans
      (hrem.finishRm_sameFile hp h.consistent hn hdir now hused.1 hm)

theorem entriesLess : EntriesAdded (finishRm now d₁ (entryInode d.data e)) d {(p, e)} :=
  hrem.finishRm_entriesAdded hp h.consistent (h.consistent.names p e (hrem.liveIn hp)).1 hdir now

/-- The names of the inode, without the one that is gone. -/
theorem naming_sdiff : naming (finishRm now d₁ (entryInode d.data e)) (entryInode d.data e) =
    naming d (entryInode d.data e) \ {(p, e)} := by
  have hless := hrem.entriesLess h hp hdir now
  have hnot : (p, e) ∉ naming (finishRm now d₁ (entryInode d.data e)) (entryInode d.data e) :=
    fun hmem => hless.fresh (p, e) rfl hmem.1
  rw [hless.naming_eq, if_pos rfl, Set.insert_sdiff_of_mem _ (Set.mem_singleton _),
    Set.sdiff_singleton_eq_self hnot]

/-- The inode is freed with its last name, and else only loses a link. -/
theorem finishRm_of_naming :
    (naming (finishRm now d₁ (entryInode d.data e)) (entryInode d.data e) = ∅ ∧
      finishRm now d₁ (entryInode d.data e) =
        freeInode now (dropLink d₁ (entryInode d.data e)) (entryInode d.data e) ∧
      ¬ InodeInUse (finishRm now d₁ (entryInode d.data e)) (entryInode d.data e)) ∨
    ((naming (finishRm now d₁ (entryInode d.data e)) (entryInode d.data e)).Nonempty ∧
      finishRm now d₁ (entryInode d.data e) = dropLink d₁ (entryInode d.data e)) := by
  have hl := hrem.liveIn hp
  have hn := (h.consistent.names p e hl).1
  have hlast := h.linksCounted.last_iff h.consistent hl hdir
  rw [hrem.naming_sdiff h hp hdir]
  rcases hrem.finishRm_cases hp h.consistent hn hdir now with ⟨hzero, hfreed⟩ | ⟨hne, heq⟩
  · refine .inl ⟨hlast.mp hzero, ?_, fun hused => ?_⟩
    · have hlinks := hrem.links_eq hp hdir
      rw [hzero] at hlinks
      exact if_pos hlinks
    · have hfree := hfreed.inodeUsage _ (h.consistent.sound.toCounted.validInode_lt hn.1)
      rw [if_pos rfl, hused.2] at hfree
      cases hfree
  · exact .inr ⟨Set.nonempty_iff_ne_empty.mpr (mt hlast.mpr hne), heq⟩

/-- The inode is in use as long as it has a name. -/
theorem inUse_iff : InodeInUse (finishRm now d₁ (entryInode d.data e)) (entryInode d.data e) ↔
    (naming (finishRm now d₁ (entryInode d.data e)) (entryInode d.data e)).Nonempty := by
  have hn := (h.consistent.names p e (hrem.liveIn hp)).1
  rcases hrem.finishRm_of_naming h hp hdir now with ⟨hnone, -, hfree⟩ | ⟨hsome, heq⟩
  · rw [hnone]
    exact iff_of_false hfree Set.not_nonempty_empty
  · refine iff_of_true ?_ hsome
    rw [heq]
    exact hrem.inodeInUse.mpr hn

variable (hkeeps : KeepsReserved d p e)
include hkeeps

theorem finishRm_sound : Sound (finishRm now d₁ (entryInode d.data e)) := by
  have hl := hrem.liveIn hp
  have hn := (h.consistent.names p e hl).1
  have hdrop : Sound (dropLink d₁ (entryInode d.data e)) :=
    (hrem.sound h.consistent hp hkeeps).modifiedInode _ _ fun _ => rfl
  rcases hrem.finishRm_of_naming h hp hdir now with ⟨-, heq, -⟩ | ⟨-, heq⟩
  · obtain ⟨hres, hslots⟩ := (h.file hl hdir).unreserved
    have hused : InodeInUse d₁ (entryInode d.data e) := hrem.inodeInUse.mpr hn
    rw [heq]
    refine hdrop.sound_freeInode now hused.1 hused.2 hres fun j hj => ?_
    rw [hrem.slots_dropLink hp h.consistent hn hdir]
    exact hslots j hj
  · rw [heq]
    exact hdrop

theorem finishRm_consistent : Consistent (finishRm now d₁ (entryInode d.data e)) := by
  have hl := hrem.liveIn hp
  have hn := (h.consistent.names p e hl).1
  have hless := hrem.entriesLess h hp hdir now
  have hdirs : ∀ m, IsDirInode (finishRm now d₁ (entryInode d.data e)) m ↔ IsDirInode d m := fun m =>
    hrem.isDirInode_finishRm hp h.consistent hn hdir now
  have hkept : DirsKept d₁ (finishRm now d₁ (entryInode d.data e)) := fun m hm => by
    have hm := hrem.isDirInode.mp hm
    exact hrem.finishRm_sameFile hp h.consistent hn hdir now hm.1.1 fun heq => hdir (heq ▸ hm)
  refine ⟨hrem.finishRm_sound h hp hdir now hkeeps, (hdirs _).mpr h.consistent.root,
    hkept.dirsTiled (hrem.dirsTiled hp h.consistent) fun m hm => hrem.isDirInode.mpr ((hdirs m).mp hm),
    fun m x hx => ?_⟩
  obtain ⟨hused, htype⟩ := h.consistent.names m x ((hless.live m x).mpr (.inl hx))
  have hinode := hless.entryInode_eq hx
  have hft : entryFileType d.data x = entryFileType _ x :=
    congrArg (fun b => b.2.2) (hless.kept m x hx)
  rw [← hinode, ← hft, hdirs]
  refine ⟨?_, htype⟩
  by_cases heq : entryInode d.data x = entryInode d.data e
  · rw [heq]
    exact (hrem.inUse_iff h hp hdir now).mpr ⟨(m, x), hx, hinode.symm.trans heq⟩
  · exact (hrem.inodeInUse_finishRm hp h.consistent hn hdir now heq).mpr hused

/-- **A name less keeps an image healthy.** -/
theorem healthy : Healthy (finishRm now d₁ (entryInode d.data e)) := by
  have hl := hrem.liveIn hp
  have hn := (h.consistent.names p e hl).1
  have hless := hrem.entriesLess h hp hdir now
  have hkept := hrem.inodesKept h hp hdir now
  refine ⟨hrem.finishRm_consistent h hp hdir now hkeeps, hless.namesDistinct_before h.names,
    fun m hm hdir' => ?_⟩
  by_cases hme : m = entryInode d.data e
  · subst hme
    have hfile := h.file hl hdir
    have hmem : (p, e) ∈ naming d (entryInode d.data e) := ⟨hl, rfl⟩
    have hcard := Set.ncard_sdiff_singleton_add_one hmem (h.consistent.naming_finite (entryInode d.data e))
    have hle := h.consistent.ncard_naming_le (entryInode d.data e)
    rw [← hrem.naming_sdiff h hp hdir now] at hcard
    rcases hrem.finishRm_of_naming h hp hdir now with ⟨hnone, -, -⟩ | ⟨-, heq⟩
    · rw [hnone] at hm
      exact absurd hm Set.not_nonempty_empty
    · refine ⟨?_, hfile.unreserved.1, fun j hj => ?_⟩
      · have hlinks := hrem.links_eq hp hdir
        rw [hfile.links, ← hcard] at hlinks
        push_cast at hlinks
        rw [add_sub_cancel_right, wrap_of_lt (by omega)] at hlinks
        rw [heq] at hlinks ⊢
        exact hlinks
      · rw [heq, hrem.slots_dropLink hp h.consistent hn hdir]
        exact hfile.unreserved.2 j hj
  · have hsame := hless.naming_eq m
    rw [if_neg (Ne.symm hme)] at hsame
    rw [← hsame] at hm
    have hk := hkept.kept m hme (h.inUse_of_naming hm)
    have hold : ¬ IsDirInode d m := fun hold => hdir' (hk.isDir.mpr hold)
    exact hk.fileHealthy (h.files m hm hold) hold hsame.symm

omit hkeeps

theorem fileSystem_eq : fileSystem (finishRm now d₁ (entryInode d.data e)) =
    ((fileSystem d).unlink p (entryName d.data e)).setContent (entryInode d.data e)
      (fileContent (finishRm now d₁ (entryInode d.data e)) (entryInode d.data e)) :=
  FileSystem.ext ((hrem.entriesLess h hp hdir now).nameGraph_eq_unlink h.names)
    (hrem.inodesKept h hp hdir now).fileContent_eq_update

end EntryRemoved

end

end Ext2
end OsAssignments
