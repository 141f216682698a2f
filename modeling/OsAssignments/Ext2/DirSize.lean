import OsAssignments.Ext2.InsertSound
import OsAssignments.Ext2.Unlink

/-!
# The size of a directory

`i_size` and `i_blocks` of a directory repeat the number of its blocks.  `make_entry_in_inode`
adds to `i_blocks` and not to `i_size` when it attaches a block, and `delete_child_entry`
changes neither when it releases one.

* `DirSizes` — both fields follow the number of blocks, in every directory.
* `DirectoryChange` — an insertion or a removal, with its result.
* `dirSizes_kept_iff` — the relation is kept exactly if no block is attached or released.
-/

namespace OsAssignments
namespace Ext2

open ByteMemory MachineWord ExitState

/-- The number of blocks in the slots of an inode. -/
def attachedCount (d : Disk) (n : Nat) : Nat := (slotBlocks d n).length

/-- The size fields of every directory follow the number of its blocks. -/
def DirSizes (d : Disk) : Prop :=
  ∀ n, IsDirInode d n → (d.inodeTable n).iSize = ext2BlockSize * attachedCount d n ∧
    (d.inodeTable n).iBlocks = 2 * attachedCount d n

/-- What is done to a directory. -/
inductive DirectoryChange where
  | make (childInodeNum : Nat) (name : CString) (fileType : Nat)
  | delete (name : CString)

/-- The change succeeds on the directory `p` and gives `d'`.  A name to delete is a component of
a path and not empty. -/
def DirectoryChange.Gives (d : Disk) (p : Nat) : DirectoryChange → Disk → Prop
  | .make child name fileType, d' => ∃ entry,
      makeEntryInInode p child name fileType d = .done (some entry) d'
  | .delete name, d' => name ≠ [] ∧ deleteChildEntry d p name = d'

/-- The entry `e` shares its block with another entry in use of the directory. -/
def HasNeighbour (d : Disk) (p e : Nat) : Prop :=
  ∃ e', e' ≠ e ∧ LiveIn d p e' ∧ e' / ext2BlockSize = e / ext2BlockSize

/-- No block has to be attached for the entry, and none becomes empty without it. -/
def DirectoryChange.KeepsBlocks (d : Disk) (p : Nat) : DirectoryChange → Prop
  | .make _ name _ => AcceptsFor d p (storedName name)
  | .delete name => ∀ e, findMatchingEntry d p name = some e → HasNeighbour d p e

/-- An entry made in an existing block ends in it. -/
def DirectoryChange.StaysInBlock (d : Disk) (p : Nat) : DirectoryChange → Prop
  | .make _ name _ => ∀ r, entryPlace d p name = some r →
      r % ext2BlockSize + 8 + wrap 8 name.length ≤ ext2BlockSize
  | .delete _ => True

section

variable {pad : Bool} {d d' d₁ : Disk} {n p i e : Nat} {mem : Memory} {name : CString}

theorem attachedCount_congr
    (h : ∀ j, j < inodeBlockLimit → getInodeBlockNumber d' n j = getInodeBlockNumber d n j) :
    attachedCount d' n = attachedCount d n := by
  rw [attachedCount, slotBlocks, heldBlocks_congr fun j hj => h j (List.mem_range.mp hj),
    attachedCount, slotBlocks]

theorem attachedCount_le (d : Disk) (n : Nat) : attachedCount d n ≤ 268 := by
  have hle := length_heldBlocks_le d n (List.range inodeBlockLimit)
  rwa [List.length_range, inodeBlockLimit_eq] at hle

/-- Directories that keep their slots and their size fields keep the relation. -/
theorem DirSizes.congr (h : DirSizes d) (hdirs : ∀ m, IsDirInode d' m → IsDirInode d m)
    (hslots : ∀ m, IsDirInode d m → ∀ j, getInodeBlockNumber d' m j = getInodeBlockNumber d m j)
    (hsize : ∀ m, (d'.inodeTable m).iSize = (d.inodeTable m).iSize)
    (hblocks : ∀ m, (d'.inodeTable m).iBlocks = (d.inodeTable m).iBlocks) : DirSizes d' := by
  intro m hm
  have hm := hdirs m hm
  rw [hsize, hblocks, attachedCount_congr fun j _ => hslots m hm j]
  exact h m hm

/-- A slot that is emptied takes one block off the count. -/
theorem attachedCount_emptied (hi : i < inodeBlockLimit) (hne : getInodeBlockNumber d n i ≠ 0)
    (hslots : ∀ j, getInodeBlockNumber d' n j = if j = i then 0 else getInodeBlockNumber d n j) :
    attachedCount d n = attachedCount d' n + 1 := by
  obtain ⟨l₁, l₂, hsplit⟩ := List.append_of_mem (List.mem_range.mpr hi)
  have hnodup := List.nodup_range (n := inodeBlockLimit)
  rw [hsplit] at hnodup
  have hi₁ : i ∉ l₁ ++ l₂ := (List.nodup_cons.mp (List.nodup_middle.mp hnodup)).1
  have hsame : ∀ l : List Nat, (∀ j ∈ l, j ∈ l₁ ++ l₂) → heldBlocks d' n l = heldBlocks d n l :=
    fun l hl => heldBlocks_congr fun j hj => by
      rw [hslots, if_neg]
      rintro rfl
      exact hi₁ (hl j hj)
  have hone : heldBlocks d n [i] = [getInodeBlockNumber d n i] := by
    rw [heldBlocks, List.map_singleton, List.filter_cons_of_pos (by simpa using hne), List.filter_nil]
  have hnone : heldBlocks d' n [i] = [] := by
    rw [heldBlocks, List.map_singleton, hslots, if_pos rfl]
    rfl
  rw [attachedCount, attachedCount, slotBlocks, slotBlocks, hsplit, List.append_cons,
    heldBlocks_append, heldBlocks_append, heldBlocks_append, heldBlocks_append, hone, hnone,
    hsame l₁ fun j hj => by simp [hj], hsame l₂ fun j hj => by simp [hj]]
  simp only [List.length_append, List.length_singleton, List.length_nil]
  omega

/-! ## Insertion -/

/-- An insertion into an existing block leaves the size fields right. -/
theorem DirSizes.placed (hsizes : DirSizes d) (h : Sound d) (hp : IsDirInode d p)
    (hi : i < inodeBlockLimit) {r child fileType : Nat}
    (hmake : makeEntryInExistingBlock d.data (getBlock (getInodeBlockNumber d p i)) child name fileType
      = (some r, mem)) (hstays : r % ext2BlockSize + 8 + wrap 8 name.length ≤ ext2BlockSize) :
    DirSizes (d.withData mem) := by
  refine hsizes.congr (fun m hm => hm) (fun m hm j => ?_) (fun m => rfl) fun m => rfl
  apply getInodeBlockNumber_congr
  · rfl
  · intro hind
    exact (placed_footprint hmake hstays).data _ (h.slot_ne_indirect hp.1.1 hi hm.1.1 hind)

/-- Attaching a block adds to `i_blocks` alone. -/
theorem attachBlock_sizes (d : Disk) (p i b : Nat) :
    ((attachBlock d p i b).inodeTable p).iSize = (d.inodeTable p).iSize ∧
    ((attachBlock d p i b).inodeTable p).iBlocks
      = wrap 32 ((d.inodeTable p).iBlocks + 2 : Nat) := by
  rw [attachBlock, Disk.modifyInode_inodeTable_self]
  dsimp only
  rw [setInodeBlockNumber_inodeTable, takeBlock_inodeTable]
  exact ⟨rfl, rfl⟩

/-- **A block attached to a directory puts its two size fields at odds.** -/
theorem DirSizes.newBlock (hsizes : DirSizes d) (hp : IsDirInode d p) {b child fileType : Nat}
    (hp' : IsDirInode (newEntry d p i b child name fileType) p) :
    ¬ DirSizes (newEntry d p i b child name fileType) := by
  intro hsizes'
  obtain ⟨hsize, hblocks⟩ := hsizes p hp
  obtain ⟨hsize', hblocks'⟩ := hsizes' p hp'
  obtain ⟨hkept, hmore⟩ := attachBlock_sizes d p i b
  rw [newEntry, withData_inodeTable, ← newEntry] at hsize' hblocks'
  rw [hkept, hsize, ext2BlockSize_eq] at hsize'
  have hle := attachedCount_le d p
  rw [hmore, hblocks, wrap_of_lt (by omega)] at hblocks'
  omega

/-! ## Removal -/

/-- An entry in use tells its block. -/
theorem div_of_live {mem : Memory} {c x : Nat} (hx : x ∈ liveEntries mem (getBlock c)) :
    x / ext2BlockSize = c := by
  have hin := mem_block_of_live hx
  rw [getBlock_eq, ext2BlockSize_eq] at hin
  rw [ext2BlockSize_eq]
  omega

namespace EntryRemoved

variable (hrem : EntryRemoved d d₁ p i e mem) (h : ConsistentAs pad d) (hp : IsDirInode d p)
include hrem h hp

/-- The entry has a neighbour exactly if something is left of its block. -/
theorem hasNeighbour_iff : HasNeighbour d p e ↔
    isEntryBlockEmpty mem (getBlock (getInodeBlockNumber d p i)) ≠ true := by
  obtain ⟨l₁, l₂, hold, hnew⟩ := hrem.removal.live
  have hnodup := (h.tiled p hp i hrem.lt hrem.slot).nodup_liveEntries
  rw [hold] at hnodup
  have he : e ∉ l₁ ++ l₂ := (List.nodup_cons.mp (List.nodup_middle.mp hnodup)).1
  have hmem : e ∈ liveEntries d.data (getBlock (getInodeBlockNumber d p i)) := by
    rw [hold]
    simp
  have hplace := div_of_live hmem
  rw [ne_eq, isEntryBlockEmpty_iff, hnew]
  constructor
  · rintro ⟨e', hne, ⟨-, j, hj, hslot, he'⟩, hdiv⟩ hnil
    rw [div_of_live he', hplace] at hdiv
    rw [hdiv, hold, List.mem_append, List.mem_cons] at he'
    have hmem : e' ∈ l₁ ++ l₂ := by
      rw [List.mem_append]
      tauto
    rw [hnil] at hmem
    cases hmem
  · intro hnil
    obtain ⟨e', he'⟩ := List.exists_mem_of_ne_nil _ hnil
    have hmem : e' ∈ liveEntries d.data (getBlock (getInodeBlockNumber d p i)) := by
      rw [hold]
      rw [List.mem_append] at he' ⊢
      exact he'.imp_right (List.mem_cons_of_mem _)
    refine ⟨e', fun heq => he (heq ▸ he'), ⟨hp, i, hrem.lt, hrem.slot, hmem⟩, ?_⟩
    rw [div_of_live hmem, hplace]

/-- **The size fields stay right exactly if the entry has a neighbour.** -/
theorem dirSizes_iff (hsizes : DirSizes d) : DirSizes d₁ ↔ HasNeighbour d p e := by
  have hslot := hrem.slot_eq hp h
  rw [emptiedSlots] at hslot
  rw [hrem.hasNeighbour_iff h hp]
  have hsize : ∀ m, (d₁.inodeTable m).iSize = (d.inodeTable m).iSize := fun m => by
    obtain ⟨iBlock, hm⟩ := hrem.inode m
    rw [hm]
  have hblocks : ∀ m, (d₁.inodeTable m).iBlocks = (d.inodeTable m).iBlocks := fun m => by
    obtain ⟨iBlock, hm⟩ := hrem.inode m
    rw [hm]
  constructor
  · intro hsizes' hempty
    simp only [hempty, if_true, List.mem_singleton] at hslot
    have hcount := attachedCount_emptied hrem.lt hrem.slot hslot
    obtain ⟨hold, -⟩ := hsizes p hp
    obtain ⟨hnew, -⟩ := hsizes' p (hrem.isDirInode.mpr hp)
    rw [hsize, hold, ext2BlockSize_eq] at hnew
    omega
  · intro hleft
    simp only [if_neg hleft, List.not_mem_nil, if_false] at hslot
    refine hsizes.congr (fun m => hrem.isDirInode.mp) (fun m hm j => ?_) hsize hblocks
    by_cases hmp : m = p
    · rw [hmp, hslot]
    · exact (hrem.sameFile hp h hm.1.1 hmp).slots j

end EntryRemoved

/-! ## Both -/

/-- **The size fields of the directories follow their blocks through an insertion or a removal
exactly if no block is attached or released.** -/
theorem dirSizes_kept_iff (h : FormatConsistent d) (hsizes : DirSizes d) (hp : IsDirInode d p)
    {change : DirectoryChange} (hstays : change.StaysInBlock d p) (hgives : change.Gives d p d') :
    DirSizes d' ↔ change.KeepsBlocks d p := by
  cases change with
  | make child name fileType =>
    obtain ⟨r, hrun⟩ := hgives
    have hins := h.sound.makeEntryInInode_cases hp.1.1 child name fileType
    rw [hrun] at hins
    have hrefused := (h.dirInode hp).refused_iff child fileType name
    have hdir := hins.isDirInode (m := p)
    cases hins with
    | @placed r i mem hplace hi hne hmake =>
      refine iff_of_true (hsizes.placed h.sound hp hi hmake (hstays r hplace)) ?_
      by_contra hroom
      have hall := hrefused.mpr hroom i hi
      rcases hall with hzero | hnone
      · exact hne hzero
      · rw [hmake] at hnone
        cases hnone
    | @newBlock i b hplace hfirst hb =>
      refine iff_of_false (hsizes.newBlock hp (hdir.mpr hp)) ?_
      exact hrefused.mp (refused_of_no_place hplace child fileType)
  | delete name =>
    obtain ⟨hname, rfl⟩ := hgives
    rcases h.deleteChildEntry_cases hp hname with ⟨hnone, heq⟩ | ⟨i, e, mem, hfind, -, hrem⟩
    · rw [heq]
      exact iff_of_true hsizes fun e he => nomatch hnone.symm.trans he
    · rw [hrem.dirSizes_iff h hp hsizes, DirectoryChange.KeepsBlocks, hfind]
      constructor
      · rintro hnb e' ⟨⟩
        exact hnb
      · exact fun hall => hall e rfl

end

/-! ## A crowded directory -/

theorem smallImage_dirSizes : DirSizes smallImage := by
  intro n hn
  obtain rfl := smallDisk_isDirInode hn
  decide +kernel

theorem dirSizes_kept_example : DirSizes (deleteChildEntry smallImage 2 [102]) := by
  have hentries : 23564 ∈ [23552, 23564, 23576] := by decide
  have hname : ([102] : CString) ≠ [] := by decide
  have hfind : findMatchingEntry smallImage 2 [102] = some 23576 := by decide +kernel
  have hgives : DirectoryChange.Gives smallImage 2 (.delete [102])
      (deleteChildEntry smallImage 2 [102]) := ⟨hname, rfl⟩
  have hstays : DirectoryChange.StaysInBlock smallImage 2 (.delete [102]) := trivial
  refine (dirSizes_kept_iff smallImage_consistent.format smallImage_dirSizes
    smallImage_consistent.root hstays hgives).mpr fun e he => ?_
  obtain rfl : e = 23576 := Option.some.inj (he.symm.trans hfind)
  exact ⟨23564, by decide, smallImage_live hentries, by decide⟩

/-- A name of the greatest length. -/
def longName (c : UInt8) : CString := List.replicate 255 c

/-- The bytes after a name for inode 12 was added to block 23. -/
def withName (mem : Memory) (c : UInt8) : Memory :=
  (makeEntryInExistingBlock mem (getBlock 23) 12 (longName c) ext2FtRegFile).2

/-- The root directory holds three long names besides `f`, and has no room for a fourth one. -/
def crowdedImage : Disk :=
  smallImage.withData (withName (withName (withName smallData 97) 98) 99)

/-- An entry for an inode in use that finds room in an existing block keeps both invariants. -/
theorem DirSizes.placedName {d : Disk} {p i r child fileType : Nat} {name : CString} {mem : Memory}
    (hsizes : DirSizes d) (h : Consistent d) (hp : IsDirInode d p) (hi : i < inodeBlockLimit)
    (hne : getInodeBlockNumber d p i ≠ 0) (hplace : entryPlace d p name = some r)
    (hmake : makeEntryInExistingBlock d.data (getBlock (getInodeBlockNumber d p i)) child name fileType
      = (some r, mem)) (hlen : name.length ≤ 255) (hchild : NamesInode d child (fileType % 2 ^ 8)) :
    Consistent (d.withData mem) ∧ DirSizes (d.withData mem) := by
  have hc : Contained d p name 0 := h.contained hp fun _ => Or.inl (by omega)
  have hins : Inserted d p child name fileType (.done (some r) (d.withData mem)) :=
    .placed hplace hi hne hmake
  refine ⟨hins.consistent h hp.1.1 hc hchild, hsizes.placed h.sound hp hi hmake ?_⟩
  rw [Contained, hplace] at hc
  exact hc

/-- A long name for `/f` that finds room in the root directory. -/
theorem smallImage_withName {mem : Memory} {c : UInt8} {r : Nat}
    (h : Consistent (smallImage.withData mem) ∧ DirSizes (smallImage.withData mem))
    (hplace : entryPlace (smallImage.withData mem) 2 (longName c) = some r)
    (hmake : (makeEntryInExistingBlock mem (getBlock 23) 12 (longName c) ext2FtRegFile).1 = some r) :
    Consistent (smallImage.withData (withName mem c)) ∧
      DirSizes (smallImage.withData (withName mem c)) := by
  have hslot : getInodeBlockNumber (smallImage.withData mem) 2 0 = 23 := rfl
  have hfile : InodeInUse (smallImage.withData mem) 12 ∧ ¬ IsDirInode (smallImage.withData mem) 12 :=
    smallImage_file
  have hlen : (longName c).length ≤ 255 := by
    rw [longName, List.length_replicate]
  have hchild : NamesInode (smallImage.withData mem) 12 (ext2FtRegFile % 2 ^ 8) :=
    ⟨hfile.1, iff_of_false (by decide) hfile.2⟩
  have hmake' : makeEntryInExistingBlock mem (getBlock 23) 12 (longName c) ext2FtRegFile
      = (some r, withName mem c) := Prod.ext hmake rfl
  have hne : getInodeBlockNumber (smallImage.withData mem) 2 0 ≠ 0 := by
    rw [hslot]
    decide
  rw [← hslot] at hmake'
  exact h.2.placedName h.1 h.1.root (by decide) hne hplace hmake' hlen hchild

theorem crowdedImage_consistent : Consistent crowdedImage ∧ DirSizes crowdedImage := by
  have h₀ : Consistent (smallImage.withData smallData) ∧ DirSizes (smallImage.withData smallData) :=
    ⟨smallImage_consistent, smallImage_dirSizes⟩
  have h₁ := smallImage_withName (c := 97) (r := 23588) h₀ (by decide +kernel) (by decide +kernel)
  have h₂ := smallImage_withName (c := 98) (r := 23852) h₁ (by decide +kernel) (by decide +kernel)
  exact smallImage_withName (c := 99) (r := 24116) h₂ (by decide +kernel) (by decide +kernel)

/-- A fourth long name goes to a new block, and the size fields do not follow. -/
theorem crowdedImage_sizes_lost : Consistent crowdedImage ∧ DirSizes crowdedImage ∧
    IsDirInode crowdedImage 2 ∧ ∃ entry d',
      makeEntryInInode 2 12 (longName 100) ext2FtRegFile crowdedImage = .done (some entry) d' ∧
      ¬ DirSizes d' := by
  obtain ⟨h, hsizes⟩ := crowdedImage_consistent
  have hroot : IsDirInode crowdedImage 2 := h.root
  refine ⟨h, hsizes, hroot, ?_⟩
  have hfull : entryPlace crowdedImage 2 (longName 100) = none := by decide +kernel
  have hins := h.sound.makeEntryInInode_cases hroot.1.1 12 (longName 100) ext2FtRegFile
  have hfree : 24 ∈ freeBlocks crowdedImage :=
    mem_freeBlocks.mpr ⟨⟨by decide, by decide⟩, by decide⟩
  generalize makeEntryInInode 2 12 (longName 100) ext2FtRegFile crowdedImage = o at hins
  cases hins with
  | placed hplace => exact absurd (hfull.symm.trans hplace) (by simp)
  | full _ hnone => exact absurd (hnone ▸ hfree) (by simp)
  | overrun _ _ hlong =>
    rw [longName, List.length_replicate] at hlong
    norm_num at hlong
  | @newBlock i b hplace hfirst hb =>
    have hins : Inserted crowdedImage 2 12 (longName 100) ext2FtRegFile
        (.done (some (getBlock b)) (newEntry crowdedImage 2 i b 12 (longName 100) ext2FtRegFile)) :=
      .newBlock hplace hfirst hb
    exact ⟨_, _, rfl, hsizes.newBlock hroot (hins.isDirInode.mpr hroot)⟩

end Ext2
end OsAssignments
