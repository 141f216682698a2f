import OsAssignments.Ext2.FileContent
import OsAssignments.Ext2.FileSystem

/-!
# From an image to its file system

* `fileSystem d` — the names that a lookup finds in the directories, and what the slots of the
  other inodes hold.
* `NamesDistinct.nameGraph_iff` — the names are those of the entries in use.
* `ConsistentAs.lookup_eq` — `traverse_path` leads where the path leads in the file system.
* `EntriesAdded.nameGraph_eq_link`, `EntriesAdded.nameGraph_eq_unlink`, `SameLive.nameGraph_eq` —
  what a change of the entries does to the names.
* `fileContent_congr` — an inode whose file is kept keeps its content.
-/

namespace OsAssignments
namespace Ext2

open ByteMemory MachineWord Chunks NameGraph

instance (d : Disk) (n : Nat) : Decidable (InodeInUse d n) :=
  inferInstanceAs (Decidable ((1 ≤ n ∧ n ≤ d.superBlock.sInodesCount) ∧ getInodeUsage d n = true))

instance (d : Disk) (n : Nat) : Decidable (IsDirInode d n) :=
  inferInstanceAs (Decidable (InodeInUse d n ∧ _ = _))

/-- The inode of an entry, with the type that the entry gives it. -/
def entryTarget (d : Disk) (e : Nat) : Nat × Nat := (entryInode d.data e, entryFileType d.data e)

/-- Where the names in the directories lead. -/
def nameGraph (d : Disk) : Graph Nat CString Nat := fun n name =>
  if IsDirInode d n ∧ name ≠ [] then (findMatchingEntry d n name).map (entryTarget d) else none

/-- What an inode holds that is no directory. -/
def fileContent (d : Disk) (n : Nat) : Option (List UInt8) :=
  if InodeInUse d n ∧ ¬ IsDirInode d n then some (readFile d n) else none

def fileSystem (d : Disk) : FileSystem := ⟨nameGraph d, fileContent d⟩

section

variable {d d' : Disk} {n p e : Nat} {name : CString} {b : Nat × Nat} {added : Set (Nat × Nat)}
  {components : List CString}

/-! ## Names -/

theorem nameGraph_eq (hn : IsDirInode d n) (hname : name ≠ []) :
    nameGraph d n name = (findMatchingEntry d n name).map (entryTarget d) := if_pos ⟨hn, hname⟩

theorem nameGraph_eq_none (hn : ¬ IsDirInode d n) : nameGraph d n name = none :=
  if_neg fun hand => hn hand.1

/-- A name is that of an entry in use. -/
theorem exists_live_of_nameGraph (h : nameGraph d n name = some b) :
    ∃ e, LiveIn d n e ∧ entryBinding d.data e = (name, b) := by
  rw [nameGraph] at h
  split at h
  · rename_i hand
    obtain ⟨e, hfind, rfl⟩ := Option.map_eq_some_iff.mp h
    obtain ⟨hl, hname⟩ := liveIn_of_find hand.1 hand.2 hfind
    exact ⟨e, hl, Prod.ext hname rfl⟩
  · cases h

theorem NamesDistinct.nameGraph_iff (h : NamesDistinct d) :
    nameGraph d n name = some b ↔ ∃ e, LiveIn d n e ∧ entryBinding d.data e = (name, b) := by
  refine ⟨exists_live_of_nameGraph, ?_⟩
  rintro ⟨e, hl, hbinding⟩
  have hname : entryName d.data e = name := congrArg Prod.fst hbinding
  have hne : name ≠ [] := hname ▸ hl.name_ne_nil
  rw [nameGraph_eq hl.1 hne, (h.find_iff hl.1 hne).mpr ⟨hl, hname⟩]
  exact congrArg (fun c => some c.2) hbinding

/-- A free inode is a fresh node. -/
theorem ConsistentAs.fresh (h : Consistent d) (hn : ¬ InodeInUse d n) : (fileSystem d).Fresh n where
  notRoot := fun heq => hn (heq ▸ h.root.1)
  unnamed m name b hname heq := by
    obtain ⟨e, hl, hbinding⟩ := exists_live_of_nameGraph hname
    have hinode : entryInode d.data e = n := (congrArg (fun c => c.2.1) hbinding).trans heq
    exact hn (hinode ▸ (h.names m e hl).1)
  empty _ := nameGraph_eq_none fun hdir => hn hdir.1
  absent := if_neg fun hand => hn hand.1

/-! ## Paths -/

theorem ConsistentAs.walkFrom_eq (h : Consistent d) (first : Option Nat) (hn : IsDirInode d n)
    (hne : ∀ c ∈ components, c ≠ []) :
    walkFrom (nameGraph d) (first.map (entryTarget d)) n components =
      (traverseFrom d first n components).map (entryTarget d) := by
  induction components generalizing first n with
  | nil => rw [walkFrom_nil, traverseFrom]
  | cons c rest ih =>
    have hc := hne c (List.mem_cons_self ..)
    rw [walkFrom, traverseFrom, nameGraph_eq hn hc]
    cases hfind : findMatchingEntry d n c with
    | none => rfl
    | some e =>
      have hl := (liveIn_of_find hn hc hfind).1
      have htype := (h.names n e hl).2
      dsimp only [Option.map_some]
      split
      · rename_i hdir
        exact ih (some e) (htype.mp ((isDirectory_some d e).mp hdir)) fun c hc =>
          hne c (List.mem_cons_of_mem _ hc)
      · rename_i hfile
        -- no name leads further from a file
        cases rest with
        | nil => rfl
        | cons second rest =>
          have hdir : ¬ IsDirInode d (entryInode d.data e) := fun hdir =>
            hfile ((isDirectory_some d e).mpr (htype.mpr hdir))
          rw [walkFrom]
          dsimp only [entryTarget]
          rw [nameGraph_eq_none hdir, if_neg (List.cons_ne_nil _ _)]
          rfl

/-- **`traverse_path` leads where the path leads.** -/
theorem ConsistentAs.lookup_eq (h : Consistent d) (hne : ∀ c ∈ components, c ≠ []) :
    (fileSystem d).lookup components = (traversePath d components).map (entryTarget d) :=
  h.walkFrom_eq none h.root hne

theorem ConsistentAs.lookup_of_traversePath (h : Consistent d) (hne : ∀ c ∈ components, c ≠ [])
    (hrun : traversePath d components = some e) :
    (fileSystem d).lookup components = some (entryTarget d e) := by
  rw [h.lookup_eq hne, hrun, Option.map_some]

theorem ConsistentAs.lookup_eq_none (h : Consistent d) (hne : ∀ c ∈ components, c ≠ [])
    (hrun : traversePath d components = none) : (fileSystem d).lookup components = none := by
  rw [h.lookup_eq hne, hrun, Option.map_none]

/-- The destination of a copy is the same. -/
theorem ConsistentAs.destPath_eq (h : Consistent d) (source dest : CString) :
    (fileSystem d).destPath source dest = destComponents d source dest := by
  have hdir : ((fileSystem d).lookup (splitPath dest)).map Prod.snd = some ext2FtDir ↔
      isDirectory d (traversePath d (splitPath dest)) = true := by
    rw [h.lookup_eq (splitPath_ne_nil dest)]
    cases traversePath d (splitPath dest) with
    | none => exact iff_of_false (by simp) (by simp [isDirectory])
    | some e =>
      rw [isDirectory_some, Option.map_some, Option.map_some, Option.some_inj]
      rfl
  rw [FileSystem.destPath, destComponents]
  simp only [hdir]

/-! ## Changes of the entries -/

theorem EntriesAdded.nameGraph_iff (h : EntriesAdded d d' added) (hd' : NamesDistinct d') :
    nameGraph d' n name = some b ↔ nameGraph d n name = some b ∨
      ∃ e, (n, e) ∈ added ∧ entryBinding d'.data e = (name, b) := by
  rw [hd'.nameGraph_iff, (h.namesDistinct_before hd').nameGraph_iff]
  constructor
  · rintro ⟨e, hl, hbinding⟩
    rcases (h.live n e).mp hl with hl | hadd
    · exact .inl ⟨e, hl, (h.kept n e hl).symm.trans hbinding⟩
    · exact .inr ⟨e, hadd, hbinding⟩
  · rintro (⟨e, hl, hbinding⟩ | ⟨e, hadd, hbinding⟩)
    · exact ⟨e, (h.live n e).mpr (.inl hl), (h.kept n e hl).trans hbinding⟩
    · exact ⟨e, (h.live n e).mpr (.inr hadd), hbinding⟩

/-- The name of a new entry was not there. -/
theorem EntriesAdded.nameGraph_before (h : EntriesAdded d d' {(p, e)}) (hd' : NamesDistinct d') :
    nameGraph d p (entryName d'.data e) = none := by
  refine Option.eq_none_iff_forall_ne_some.mpr fun b hb => ?_
  obtain ⟨x, hx, hbinding⟩ := exists_live_of_nameGraph hb
  have hname : entryName d'.data x = entryName d'.data e :=
    (h.entryName_eq hx).trans (congrArg Prod.fst hbinding)
  have heq := hd' p x e ((h.live p x).mpr (.inl hx)) ((h.live p e).mpr (.inr rfl)) hname
  exact h.fresh (p, e) rfl (heq ▸ hx)

/-- One entry more is one name more, -/
theorem EntriesAdded.nameGraph_eq_link (h : EntriesAdded d d' {(p, e)}) (hd' : NamesDistinct d') :
    nameGraph d' = NameGraph.link (nameGraph d) p (entryName d'.data e) (entryTarget d' e) := by
  funext n name
  refine Option.ext fun b => ?_
  have hfree := h.nameGraph_before hd'
  rw [h.nameGraph_iff hd', link_eq_some]
  constructor
  · rintro (hold | ⟨x, hx, hbinding⟩)
    · refine .inr ⟨?_, hold⟩
      rintro ⟨rfl, rfl⟩
      rw [hfree] at hold
      cases hold
    · obtain ⟨rfl, rfl⟩ := Prod.mk.inj hx
      exact .inl ⟨⟨rfl, (congrArg Prod.fst hbinding).symm⟩, (congrArg Prod.snd hbinding).symm⟩
  · rintro (⟨⟨rfl, rfl⟩, rfl⟩ | ⟨-, hold⟩)
    · exact .inr ⟨e, rfl, rfl⟩
    · exact .inl hold

/-- and one entry less one name less. -/
theorem EntriesAdded.nameGraph_eq_unlink (h : EntriesAdded d' d {(p, e)}) (hd : NamesDistinct d) :
    nameGraph d' = NameGraph.unlink (nameGraph d) p (entryName d.data e) := by
  rw [h.nameGraph_eq_link hd, unlink_link (h.nameGraph_before hd)]

theorem SameLive.nameGraph_eq (h : SameLive d d') (hd : NamesDistinct d) :
    nameGraph d' = nameGraph d := by
  funext n name
  refine Option.ext fun b => ?_
  rw [hd.nameGraph_iff, (h.namesDistinct hd).nameGraph_iff]
  refine exists_congr fun e => ?_
  rw [h.live]
  exact and_congr_right fun hl => by rw [h.binding n e hl]

/-! ## Contents -/

theorem SameFile.readFile_eq (h : SameFile d d' n) : readFile d' n = readFile d n := by
  have hslots : slotBytes d' n = slotBytes d n := by
    funext i
    rw [slotBytes, slotBytes, h.slots]
    split
    · rfl
    · rename_i hne
      exact (h.bytes i hne).readBytes
  rw [readFile, readFile, h.size, hslots]

theorem fileContent_eq (hn : InodeInUse d n) (hdir : ¬ IsDirInode d n) :
    fileContent d n = some (readFile d n) := if_pos ⟨hn, hdir⟩

/-- An inode that stays what it is keeps its content. -/
theorem fileContent_congr (huse : InodeInUse d' n ↔ InodeInUse d n)
    (hdir : IsDirInode d' n ↔ IsDirInode d n)
    (hfile : InodeInUse d n → ¬ IsDirInode d n → SameFile d d' n) :
    fileContent d' n = fileContent d n := by
  have hiff : (InodeInUse d' n ∧ ¬ IsDirInode d' n) ↔ (InodeInUse d n ∧ ¬ IsDirInode d n) := by
    rw [huse, hdir]
  by_cases hand : InodeInUse d n ∧ ¬ IsDirInode d n
  · rw [fileContent, fileContent, if_pos hand, if_pos (hiff.mpr hand),
      (hfile hand.1 hand.2).readFile_eq]
  · rw [fileContent, fileContent, if_neg hand, if_neg fun hand' => hand (hiff.mp hand')]

/-- **The new content of a file is what was copied**, up to the direct blocks if it has no others. -/
theorem Copied.keeps {now : Nat} {bs : List Nat} {content : List UInt8}
    (hcopy : Copied now d d' n bs content) (hpos : ∀ b ∈ bs, b ≠ 0)
    (hfits : content.length ≤ ext2BlockSize * inodeBlockLimit) :
    FileSystem.Keeps content (readFile d' n) := by
  by_cases hslots : content.length ≤ ext2BlockSize * indirect1Index ∨ indirectBlock d n ≠ 0
  · exact .inl ((hcopy.holdsContent_iff hpos hfits content).mpr ⟨rfl, hslots⟩).bytes
  · obtain ⟨hmany, hind⟩ := not_or.mp hslots
    have hsize : 0 < ext2BlockSize := by decide
    have hbound : ext2BlockSize * inodeBlockLimit < 2 ^ 32 := by decide
    have hlim : indirect1Index ≤ inodeBlockLimit := by decide
    have hchunk : ∀ j, j < indirect1Index → fileChunk content j ≠ [] := fun j hj =>
      (chunk_ne_nil_iff hsize).mpr (by
        have := Nat.mul_le_mul_left ext2BlockSize hj.le
        omega)
    have hdirect := fun j hj =>
      hcopy.slotBytes_begin hpos (lt_of_lt_of_le hj hlim) (.inl hj) (hchunk j hj)
    have hempty : ∀ j, indirect1Index ≤ j → j < inodeBlockLimit → slotBytes d' n j = [] := by
      intro j hj _
      refine hcopy.slotBytes_nil (.inl ?_)
      rintro (hlt | ⟨-, hne⟩)
      · omega
      · exact hind hne
    refine .inr ?_
    rw [readFile, hcopy.iSize (hfits.trans_lt hbound),
      flatMap_eq_take hsize hlim (Nat.le_of_not_le hmany) (fun j hj => (hdirect j hj).1)
        (fun j hj => (hdirect j hj).2) hempty, List.take_take]
    exact congrArg (fun k => content.take k) (Nat.min_eq_right (Nat.le_of_not_le hmany))

end

end Ext2
end OsAssignments
