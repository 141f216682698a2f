import OsAssignments.Ext2.Served

/-!
# A new name

What the entry of a new name does to a healthy image and to the file system that it stands for.

* `NewName` — a path that can be made, with a place for the entry.
* `NameAdded` — one image has one entry more than the other; `Inserted.nameAdded_hard`,
  `Allocated.nameAdded` — it is the entry of a hard link, or of a new inode.
* `NameAdded.healthy`, `NameAdded.fileSystem_eq` — the entry is one name more, and nothing else.
* `Sound.readFile_symlink` — a symbolic link reads back as the path it was made with.
-/

namespace OsAssignments
namespace Ext2

open ByteMemory MachineWord ExitState Chunks NameGraph

section

variable {d d' d₀ d₁ : Disk} {n p e r k b mode fileType now : Nat} {name source : CString}
  {path : List CString}

/-! ## The place of the entry -/

/-- The path can be made in directory `p`, which has a place for its last name. -/
structure NewName (d : Disk) (path : List CString) (p : Nat) : Prop
    extends NameFits d p (path.getLastD []) where
  place : (fileSystem d).Place path p
  isDir : IsDirInode d p
  nonempty : path.getLastD [] ≠ []

/-- The path that a command makes. -/
theorem ConsistentAs.newName (h : Consistent d) {pe : Nat} (hne : ∀ c ∈ path, c ≠ [])
    (hparent : traversePath d path.dropLast = some pe) (hdir : isDirectory d (some pe) = true)
    (habsent : traversePath d path = none)
    (hfits : NameFits d (entryInode d.data pe) (path.getLastD [])) :
    NewName d path (entryInode d.data pe) := by
  have hne' : ∀ c ∈ path.dropLast, c ≠ [] := fun c hc => hne c (List.mem_of_mem_dropLast hc)
  have hlast : path.getLastD [] ≠ [] := by
    rcases List.eq_nil_or_concat path with rfl | ⟨init, c, rfl⟩
    · cases hparent
    · rw [List.concat_eq_append, List.getLastD_concat]
      exact hne c (by simp)
  refine ⟨hfits, ⟨?_, h.lookup_eq_none hne habsent⟩, ?_, hlast⟩
  · rw [h.lookup_of_traversePath hne' hparent, entryTarget_dir hdir]
  · obtain ⟨m, hl⟩ := h.traversePath_live hne' hparent
    exact ((h.names m pe hl).2).mp ((isDirectory_some d pe).mp hdir)

namespace NewName

variable (hnew : NewName d path p)
include hnew

theorem landsLive : LandsLive d p (path.getLastD []) :=
  hnew.toNameFits.landsLive hnew.isDir hnew.nonempty

theorem find_none : findMatchingEntry d p (path.getLastD []) = none := by
  have hfree : nameGraph d p (path.getLastD []) = none := hnew.place.free
  rw [nameGraph_eq hnew.isDir hnew.nonempty] at hfree
  exact Option.map_eq_none_iff.mp hfree

theorem contained (h : Consistent d) : Contained d p (path.getLastD []) k := by
  have hlen := hnew.length
  exact h.contained hnew.isDir fun _ => .inl (by omega)

end NewName

/-! ## The entry -/

/-- `d'` has an entry more than `d`, and only inode `n` may be another one. -/
structure NameAdded (d d' : Disk) (p r n : Nat) (name : CString) (fileType : Nat) : Prop
    extends EntryMade d d' p r n name fileType where
  consistent : Consistent d'
  kept : InodesKept d d' {n}
  spelled : entryName d'.data r = name

/-- The entry of a hard link. -/
theorem Inserted.nameAdded_hard {se ms : Nat} (h : Consistent d) (hse : LiveIn d ms se)
    (hdir : ¬ IsDirInode d (entryInode d.data se)) (hp : IsDirInode d p) (hlen : name.length ≤ 255)
    (hins : Inserted d p (entryInode d.data se) name ext2FtRegFile (.done (some r) d₁)) :
    NameAdded d (addLink d₁ (entryInode d₁.data se)) p r (entryInode d.data se) name
      ext2FtRegFile := by
  have hown := h.ownPlace hp hlen 0
  have hinode := (hins.entriesAdded h hp.1.1 hown.contained hown.slack).entryInode_eq hse
  have hused := (h.names ms se hse).1
  refine ⟨(hins.entryMade_hard h hse hp.1 hown).1, ?_, ?_, congrArg Prod.fst (hins.binding hlen)⟩
  · refine (hins.consistent h hp.1.1 hown.contained ⟨hused, ?_⟩).addLink _
    exact iff_of_false (by decide) hdir
  · rw [hinode]
    exact (hins.inodesKept h hp hlen).trans (addLink_inodesKept d₁ _)

/-- The entry of a new inode that is no directory. -/
theorem Allocated.nameAdded (ha : Allocated d d₀ n mode k) (h : Consistent d)
    (hmode : typeBits mode ≠ ext2SIfdir) (hp : IsDirInode d p) (hlen : name.length ≤ 255)
    (htype : fileType < 2 ^ 8) (hno : fileType ≠ ext2FtDir)
    (hins : Inserted d₀ p n name fileType (.done (some r) d')) :
    NameAdded d d' p r n name fileType := by
  have hown := h.ownPlace hp hlen k
  have h₀ := ha.consistent h hmode
  have hp₀ := (ha.isDirInode (m := p) hmode).mpr hp
  have hn₀ : ¬ IsDirInode d₀ n := fun hdir =>
    not_inodeInUse_of_free ha.free ((ha.isDirInode hmode).mp hdir).1
  refine ⟨(ha.entryMade h hmode hp.1 hown htype hins).1, ?_, ?_, congrArg Prod.fst (hins.binding hlen)⟩
  · refine hins.consistent h₀ hp₀.1.1 (ha.contained hp.1 hown.contained)
      ⟨(ha.inUse n).mpr (.inr rfl), ?_⟩
    rw [Nat.mod_eq_of_lt htype]
    exact iff_of_false hno hn₀
  · exact ha.inodesKept.trans (hins.inodesKept h₀ hp₀ hlen)

/-- A content for the new inode changes no name. -/
theorem NameAdded.copied {bs : List Nat} {content : List UInt8}
    (hadd : NameAdded d d₁ p r n name fileType) (hland : LandsLive d p name)
    (hnew : ¬ InodeInUse d n) (hdir : ¬ IsDirInode d₁ n) (hf : Fresh d₁ bs)
    (hcopy : Copied now d₁ d' n bs content) : NameAdded d d' p r n name fileType := by
  have hc := hadd.consistent
  have hused : InodeInUse d₁ n := (hadd.inUse n).mpr (.inr rfl)
  have hdirs := hcopy.dirsKept hc.sound hf hused.1 hdir
  have hiff : ∀ m, IsDirInode d' m ↔ IsDirInode d₁ m := fun m => hcopy.isDirInode hdir
  refine ⟨hadd.toEntryMade.copied hnew hcopy hdirs hdir, hcopy.consistent hc hf hused.1 hdir,
    hadd.kept.trans (hcopy.inodesKept hc.sound hf hused.1 hdir), ?_⟩
  have hlive : LiveIn d₁ p r := ((hadd.oneAdded hland).live p r).mpr (.inr rfl)
  have hsame := (hdirs p hlive.1).liveIn hc.tiled hlive.1 ((hiff p).mpr hlive.1)
  exact (congrArg Prod.fst (hsame.2 r hlive)).trans hadd.spelled

namespace NameAdded

variable (hadd : NameAdded d d' p r n (path.getLastD []) fileType) (hnew : NewName d path p)
include hadd hnew

theorem namesDistinct (h : NamesDistinct d) : NamesDistinct d' := by
  refine (hadd.oneAdded hnew.landsLive).namesDistinct_after h fun e hl heq => ?_
  obtain ⟨e', hfind⟩ := hl.exists_find
  rw [heq, hadd.spelled, hnew.find_none] at hfind
  cases hfind

theorem fileSystem_eq (h : NamesDistinct d) : fileSystem d' =
    ((fileSystem d).link p (path.getLastD []) n fileType).setContent n (fileContent d' n) :=
  hadd.toEntryMade.fileSystem_eq hnew.landsLive hadd.kept (hadd.namesDistinct hnew h) hadd.spelled

theorem healthy (h : Healthy d) (hold : InodeInUse d n → FileHealthy d n)
    (hun : Unreserved d' n) : Healthy d' :=
  hadd.toEntryMade.healthy hnew.landsLive h hadd.kept hadd.consistent
    (hadd.namesDistinct hnew h.names) hold hun

end NameAdded

/-! ## Reserved numbers -/

theorem Counted.lastReserved_lt (h : Counted d) (hb : b ∈ freeBlocks d) : lastReservedBlock < b := by
  obtain ⟨hpos, hfree⟩ := mem_freeBlocks.mp hb
  by_contra hle
  rw [h.reservedBlocks b hpos.1 (not_lt.mp hle)] at hfree
  cases hfree

/-- The blocks of a copy are none of the reserved ones. -/
theorem Copied.unreserved {bs : List Nat} {content : List UInt8}
    (hcopy : Copied now d d' n bs content) (hn : lastReservedInode < n)
    (hbs : ∀ b ∈ bs, lastReservedBlock < b) : Unreserved d' n := by
  refine ⟨hn, fun i _ => ?_⟩
  rw [hcopy.slots]
  split
  · exact (chunkBlock_cases bs content i).imp_right fun hb => hbs _ (List.mem_of_getElem? hb)
  · exact .inl rfl

/-! ## The path in a symbolic link -/

/-- What a symbolic link holds is the path it was made with. -/
theorem Sound.readFile_symlink (h : Sound d) (now : Nat) (hn : n ∈ freeInodes d)
    (hb : b ∈ freeBlocks d) (hlen : source.length < ext2BlockSize) :
    readFile (symlink now source d n b) n = source := by
  have hholds := h.symlink_holdsPath now hn hlen hb
  have hslots := getInodeBlockNumber_symlink h now hn hb hlen
  have hb0 : b ≠ 0 := by
    have := (mem_freeBlocks.mp hb).1
    omega
  have hbytes := hholds.bytes
  rw [hslots 0, if_pos rfl] at hbytes
  have hfirst : slotBytes (symlink now source d n b) n 0 =
      readBytes (symlink now source d n b).data ext2BlockSize (getBlock b) := by
    rw [slotBytes, hslots 0, if_pos rfl, if_neg hb0]
  have hrest : ∀ j, 1 ≤ j → j < inodeBlockLimit → slotBytes (symlink now source d n b) n j = [] :=
    fun j hj _ => if_pos ((hslots j).trans (if_neg (by omega)))
  have hbegin : source ++ [0] <+: slotBytes (symlink now source d n b) n 0 := by
    rw [hfirst, ← hbytes]
    exact readBytes_prefix _ _ hlen
  rw [readFile, hholds.size, flatMap_eq_of_nil (by decide) hrest, List.range_one,
    List.flatMap_singleton]
  exact (List.prefix_iff_eq_take.mp ((List.prefix_append source [0]).trans hbegin)).symm

end

end Ext2
end OsAssignments
