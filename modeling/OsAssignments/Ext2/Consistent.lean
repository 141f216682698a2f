import OsAssignments.Ext2.Commands
import OsAssignments.Ext2.DirInode
import OsAssignments.Ext2.InodeSound

/-!
# Consistent images

The images the commands expect, and the entries of their directories.

* `IsDirInode` — what the inode bitmap and `i_mode` say about a directory.
* `LiveIn d n e` — `e` is an entry in use of the directory `n`.
* `FormatConsistent` — the allocation state is sound, the directories are made of directory blocks
  of the ext2 format, and their entries name inodes in use, with the type of a directory exactly
  for directories; `Consistent` asks for the padding of the entries that the program makes.
* `DirsKept` — changes that stay away from the directories; they keep all entries
  (`DirsKept.sameLive`), and paths lead where they led (`DirsKept.traversePath_eq`).
* `ConsistentAs.traversePath_live`, `traversePath_append` — where a path leads.
* `smallDisk` — an image of a root directory with one empty file, with any number of free blocks.
-/

namespace OsAssignments
namespace Ext2

open ByteMemory MachineWord ExitState Ownership RecordTiling

/-! ## Directories -/

/-- The type bits of `i_mode`. -/
def typeBits (mode : Nat) : Nat := mode / 0x1000 * 0x1000

/-- A directory in use. -/
def IsDirInode (d : Disk) (n : Nat) : Prop :=
  InodeInUse d n ∧ typeBits (d.inodeTable n).iMode = ext2SIfdir

/-- An entry in use of a directory. -/
def LiveIn (d : Disk) (n e : Nat) : Prop :=
  IsDirInode d n ∧ ∃ i, i < inodeBlockLimit ∧ getInodeBlockNumber d n i ≠ 0 ∧
    e ∈ liveEntries d.data (getBlock (getInodeBlockNumber d n i))

/-- The directories are made of directory blocks. -/
def DirsTiled (pad : Bool) (d : Disk) : Prop :=
  ∀ n, IsDirInode d n → ∀ i, i < inodeBlockLimit → getInodeBlockNumber d n i ≠ 0 →
    TiledAs pad d.data (getBlock (getInodeBlockNumber d n i))

/-- A consistent image, with directory blocks as the format has them, or, with `pad`, as the program
makes them. -/
structure ConsistentAs (pad : Bool) (d : Disk) : Prop where
  sound : Sound d
  root : IsDirInode d ext2RootIno
  tiled : DirsTiled pad d
  names : ∀ n e, LiveIn d n e → InodeInUse d (entryInode d.data e) ∧
    (entryFileType d.data e = ext2FtDir ↔ IsDirInode d (entryInode d.data e))

/-- A consistent image of the ext2 format. -/
abbrev FormatConsistent (d : Disk) : Prop := ConsistentAs false d

/-- A consistent image whose directory blocks are padded as the program pads them. -/
abbrev Consistent (d : Disk) : Prop := ConsistentAs true d

section

variable {pad : Bool} {d d' : Disk} {n e : Nat} {ns bs : Set Nat}

/-- A directory block padded as the program pads it is one of the format. -/
theorem DirsTiled.format (h : DirsTiled pad d) : DirsTiled false d :=
  fun n hn i hi hne => (h n hn i hi hne).format

theorem ConsistentAs.format (h : ConsistentAs pad d) : FormatConsistent d :=
  ⟨h.sound, h.root, h.tiled.format, h.names⟩

/-- The directories of a consistent image. -/
theorem ConsistentAs.dirInode (h : ConsistentAs pad d) (hn : IsDirInode d n) :
    DirInodeAs pad d n := by
  have hvalid := hn.1.1
  have href : ∀ i, i < inodeBlockLimit → ValidRef d (.slot n i) := fun i hi => ⟨hvalid, hi⟩
  refine ⟨h.tiled n hn, fun i hi hne => ?_, fun hne => ?_, fun i j hi hj hne heq => ?_,
    fun i hi hne heq => ?_⟩
  · exact (h.sound.stored_inUse (href i hi) hne).marked
  · exact (h.sound.stored_inUse (r := .indirect n) hvalid hne).marked
  · have := h.sound.refs.inj _ _ (href i hi) (href j hj) hne heq
    injection this
  · have := h.sound.refs.inj _ (.indirect n) (href i hi) hvalid hne heq
    cases this

/-- An entry in use lies in a block of its directory. -/
theorem ConsistentAs.block_of_live (h : ConsistentAs pad d) (hl : LiveIn d n e) :
    ∃ c ∈ blocksOf d n, TiledAs pad d.data (getBlock c) ∧ e ∈ liveEntries d.data (getBlock c) := by
  obtain ⟨hn, i, hi, hne, he⟩ := hl
  exact ⟨_, mem_blocksOf_slot hi hne, h.tiled n hn i hi hne, he⟩

/-! ## Changes away from the directories -/

/-- The same directory entries. -/
structure SameLive (d d' : Disk) : Prop where
  live : ∀ n e, LiveIn d' n e ↔ LiveIn d n e
  binding : ∀ n e, LiveIn d n e → entryBinding d'.data e = entryBinding d.data e

theorem SameLive.refl (d : Disk) : SameLive d d := ⟨fun _ _ => Iff.rfl, fun _ _ _ => rfl⟩

theorem SameLive.trans {d'' : Disk} (h : SameLive d d') (h' : SameLive d' d'') : SameLive d d'' :=
  ⟨fun n e => (h'.live n e).trans (h.live n e), fun n e hl =>
    (h'.binding n e ((h.live n e).mpr hl)).trans (h.binding n e hl)⟩

/-- A directory whose file is kept keeps its entries. -/
theorem SameFile.liveIn (h : SameFile d d' n) (hT : DirsTiled pad d) (hn : IsDirInode d n)
    (hn' : IsDirInode d' n) : (∀ e, LiveIn d' n e ↔ LiveIn d n e) ∧
      ∀ e, LiveIn d n e → entryBinding d'.data e = entryBinding d.data e := by
  refine ⟨fun e => ?_, fun e hl => ?_⟩
  · rw [LiveIn, LiveIn, and_iff_right hn, and_iff_right hn']
    refine exists_congr fun i => and_congr_right fun hi => ?_
    rw [h.slots]
    refine and_congr_right fun hne => ?_
    rw [(hT n hn i hi hne).liveEntries_congr (h.bytes i hne)]
  · obtain ⟨-, i, hi, hne, he⟩ := hl
    exact ((hT n hn i hi hne).sameEntry (h.bytes i hne) (mem_liveEntries.mp he).1).binding

/-- Changes that stay away from the directories. -/
def DirsKept (d d' : Disk) : Prop := ∀ n, IsDirInode d n → SameFile d d' n

/-- They keep all entries. -/
theorem DirsKept.sameLive (h : DirsKept d d') (hT : DirsTiled pad d)
    (hold : ∀ n, IsDirInode d n → IsDirInode d' n)
    (hnew : ∀ n e, LiveIn d' n e → IsDirInode d n) : SameLive d d' := by
  have hone := fun n hn => (h n hn).liveIn hT hn (hold n hn)
  exact ⟨fun n e => ⟨fun hl => ((hone n (hnew n e hl)).1 e).mp hl,
    fun hl => ((hone n hl.1).1 e).mpr hl⟩, fun n e hl => (hone n hl.1).2 e hl⟩

/-- They keep the bytes of every entry. -/
theorem DirsKept.sameEntry (h : DirsKept d d') (hT : DirsTiled pad d) (hl : LiveIn d n e) :
    SameEntry d.data d'.data e := by
  obtain ⟨hn, i, hi, hslot, he⟩ := hl
  exact (hT n hn i hi hslot).sameEntry ((h n hn).bytes i hslot) (mem_liveEntries.mp he).1

/-- Directories that are kept are made of directory blocks. -/
theorem DirsKept.dirsTiled (h : DirsKept d d') (hT : DirsTiled pad d)
    (hdirs : ∀ n, IsDirInode d' n → IsDirInode d n) : DirsTiled pad d' := by
  intro n hn i hi hne
  have hn := hdirs n hn
  rw [(h n hn).slots] at hne ⊢
  exact ((hT n hn i hi hne).congr ((h n hn).bytes i hne)).tiled

/-- **Changes away from the directories keep a consistent image consistent**, if they keep it
sound and give up no inode. -/
theorem DirsKept.consistent (h : DirsKept d d') (hd : ConsistentAs pad d) (hs : Sound d')
    (hdirs : ∀ m, IsDirInode d' m ↔ IsDirInode d m) (huse : ∀ m, InodeInUse d m → InodeInUse d' m) :
    ConsistentAs pad d' := by
  have hlive := h.sameLive hd.tiled (fun m => (hdirs m).mpr) fun m _ hl => (hdirs m).mp hl.1
  refine ⟨hs, (hdirs _).mpr hd.root, h.dirsTiled hd.tiled fun m => (hdirs m).mp, fun m e hl => ?_⟩
  have hl := (hlive.live m e).mp hl
  have hsame := h.sameEntry hd.tiled hl
  obtain ⟨hused, htype⟩ := hd.names m e hl
  rw [hsame.inode, hsame.fileType, hdirs]
  exact ⟨huse _ hused, htype⟩

/-! ## Paths -/

theorem isDirectory_some (d : Disk) (e : Nat) :
    isDirectory d (some e) = true ↔ entryFileType d.data e = ext2FtDir := by
  rw [isDirectory, decide_eq_true_iff]

/-- What is found under a name that is not empty is an entry in use. -/
theorem liveIn_of_find {name : CString} (hn : IsDirInode d n) (hname : name ≠ [])
    (hfind : findMatchingEntry d n name = some e) : LiveIn d n e ∧ entryName d.data e = name := by
  rw [findMatchingEntry_eq] at hfind
  obtain ⟨i, hi, hslot⟩ := List.exists_of_findSome?_eq_some hfind
  rw [slotEntry] at hslot
  split at hslot
  · cases hslot
  · rename_i hne
    have hmem := List.mem_of_find?_eq_some hslot
    have heq : entryName d.data e = name := by simpa using List.find?_some hslot
    have hpos : 0 < entryNameLen d.data e := by
      rw [← length_entryName, heq]
      exact List.length_pos_iff.mpr hname
    exact ⟨⟨hn, i, List.mem_range.mp hi, hne, mem_liveEntries.mpr ⟨hmem, hpos⟩⟩, heq⟩

theorem ConsistentAs.traverseFrom_live (h : ConsistentAs pad d) {first : Option Nat}
    (hn : IsDirInode d n) {components : List CString} (hne : ∀ c ∈ components, c ≠ [])
    (hcons : components ≠ []) (hrun : traverseFrom d first n components = some e) : ∃ m, LiveIn d m e := by
  induction components generalizing first n with
  | nil => exact absurd rfl hcons
  | cons c rest ih =>
    rw [traverseFrom] at hrun
    split at hrun
    · cases hrun
    · rename_i entry hfind
      obtain ⟨hlive, -⟩ := liveIn_of_find hn (hne c (by simp)) hfind
      split at hrun
      · rename_i hdir
        have hsub : IsDirInode d (entryInode d.data entry) :=
          (h.names n entry hlive).2.mp ((isDirectory_some d entry).mp hdir)
        by_cases hrest : rest = []
        · rw [hrest, traverseFrom] at hrun
          cases hrun
          exact ⟨n, hlive⟩
        · exact ih hsub (fun c hc => hne c (by simp [hc])) hrest hrun
      · split at hrun
        · cases hrun
          exact ⟨n, hlive⟩
        · cases hrun

/-- What a path leads to is an entry in use of some directory. -/
theorem ConsistentAs.traversePath_live (h : ConsistentAs pad d) {components : List CString}
    (hne : ∀ c ∈ components, c ≠ []) (hrun : traversePath d components = some e) :
    ∃ m, LiveIn d m e := by
  refine h.traverseFrom_live h.root hne (fun hnil => ?_) hrun
  rw [hnil, traversePath, traverseFrom] at hrun
  cases hrun

theorem traverseFrom_append {first : Option Nat} {components : List CString}
    (hcons : components ≠ []) (hrun : traverseFrom d first n components = some e)
    (hdir : isDirectory d (some e) = true) (name : CString) :
    traverseFrom d first n (components ++ [name])
      = findMatchingEntry d (entryInode d.data e) name := by
  induction components generalizing first n with
  | nil => exact absurd rfl hcons
  | cons c rest ih =>
    rw [traverseFrom] at hrun
    rw [List.cons_append, traverseFrom]
    split at hrun
    · cases hrun
    · rename_i entry hfind
      split at hrun
      · rename_i hentry
        rw [if_pos hentry]
        by_cases hrest : rest = []
        · rw [hrest, traverseFrom] at hrun
          cases hrun
          rw [hrest, List.nil_append, traverseFrom]
          split
          · rename_i hnone
            exact hnone.symm
          · rename_i last hlast
            rw [hlast, traverseFrom]
            split
            · rfl
            · rfl
        · exact ih hrest hrun
      · rename_i hentry
        split at hrun
        · cases hrun
          exact absurd hdir hentry
        · cases hrun

/-- The last component of a path is looked up in the directory the others lead to. -/
theorem traversePath_append {components : List CString} (hrun : traversePath d components = some e)
    (hdir : isDirectory d (some e) = true) (name : CString) :
    traversePath d (components ++ [name]) = findMatchingEntry d (entryInode d.data e) name := by
  refine traverseFrom_append (fun hnil => ?_) hrun hdir name
  rw [hnil, traversePath, traverseFrom] at hrun
  cases hrun

/-- A lookup depends on the directory only. -/
theorem SameFile.findMatchingEntry_eq (h : SameFile d d' n) (hc : ConsistentAs pad d)
    (hn : IsDirInode d n) (name : CString) :
    findMatchingEntry d' n name = findMatchingEntry d n name := by
  have hslot : ∀ i, i < inodeBlockLimit → slotEntry d' n name i = slotEntry d n name i := by
    intro i hi
    rw [slotEntry, slotEntry, h.slots]
    split
    · rfl
    · rename_i hne
      have hT := hc.tiled n hn i hi hne
      rw [(hT.congr (h.bytes i hne)).blockEntries_eq]
      exact find_congr_of_mem fun e he => by rw [(hT.sameEntry (h.bytes i hne) he).name]
  rw [Ext2.findMatchingEntry_eq, Ext2.findMatchingEntry_eq]
  exact findSome_congr_of_mem fun i hi => hslot i (List.mem_range.mp hi)

theorem DirsKept.traverseFrom_eq (h : DirsKept d d') (hc : ConsistentAs pad d) {first : Option Nat}
    (hn : IsDirInode d n) {components : List CString} (hne : ∀ c ∈ components, c ≠ []) :
    traverseFrom d' first n components = traverseFrom d first n components := by
  induction components generalizing first n with
  | nil => rfl
  | cons c rest ih =>
    rw [traverseFrom, traverseFrom, (h n hn).findMatchingEntry_eq hc hn]
    split
    · rfl
    · rename_i entry hfind
      obtain ⟨hlive, -⟩ := liveIn_of_find hn (hne c (by simp)) hfind
      have hsame := h.sameEntry hc.tiled hlive
      have htype : isDirectory d' (some entry) = isDirectory d (some entry) := by
        rw [isDirectory, hsame.fileType, isDirectory]
      rw [htype, hsame.inode]
      split
      · rename_i hdir
        refine ih ?_ fun c hc => hne c (by simp [hc])
        exact (hc.names n entry hlive).2.mp ((isDirectory_some d entry).mp hdir)
      · rfl

/-- Paths lead where they led. -/
theorem DirsKept.traversePath_eq (h : DirsKept d d') (hc : ConsistentAs pad d)
    {components : List CString} (hne : ∀ c ∈ components, c ≠ []) :
    traversePath d' components = traversePath d components :=
  h.traverseFrom_eq hc hc.root hne

/-! ## Components -/

theorem splitPath_ne_nil (path : CString) : ∀ c ∈ splitPath path, c ≠ [] := by
  intro c hc
  rw [splitPath] at hc
  rcases List.mem_cons.mp hc with rfl | hc
  · exact List.cons_ne_nil _ _
  · simpa using (List.mem_filter.mp hc).2

theorem splitPath_eq_append (path : CString) :
    splitPath path = (splitPath path).dropLast ++ [(splitPath path).getLastD []] := by
  have hcons : splitPath path ≠ [] := List.cons_ne_nil _ _
  rw [List.getLastD_eq_getLast?, List.getLast?_eq_getLast_of_ne_nil hcons, Option.getD_some,
    List.dropLast_append_getLast hcons]

end

/-! ## A small image -/

/-- A block with the entries `.`, `..` and `f`, for the inodes 2, 2 and 12. -/
def smallBlock : List UInt8 :=
  [2, 0, 0, 0, 12, 0, 1, 2, 46, 0, 0, 0, 2, 0, 0, 0, 12, 0, 2, 2, 46, 46, 0, 0,
    12, 0, 0, 0, 232, 3, 1, 1, 102]

/-- The block lies in block 23. -/
def smallData : Memory := fun a => if getBlock 23 ≤ a then smallBlock.getD (a - getBlock 23) 0 else 0

/-- The root directory and the empty file `/f`. -/
def smallInodes (n : Nat) : Inode :=
  if n = 2 then ⟨ext2SIfdir, 1024, 0, 0, 2, 2, fun i => if i = 0 then 23 else 0⟩
  else if n = 12 then ⟨ext2SIfreg, 0, 0, 0, 1, 0, fun _ => 0⟩
  else ⟨0, 0, 0, 0, 0, 0, fun _ => 0⟩

/-- The first twelve inodes are in use. -/
def smallInodeBitmap (i : Nat) : BitVec 8 := if i = 0 then 0xFF#8 else if i = 1 then 0x0F#8 else 0#8

/-- An image of 128 blocks, `free` of them free, and of the twelve inodes in use and `spare` more. -/
def smallDisk (blockBitmap : Nat → BitVec 8) (free spare : Nat) : Disk where
  superBlock := ⟨12 + spare, 128, free, spare⟩
  groupDesc := ⟨3, 4, 5, free, spare, 1⟩
  blockBitmap := blockBitmap
  inodeBitmap := smallInodeBitmap
  inodeTable := smallInodes
  data := smallData

theorem smallData_entries : liveEntries smallData (getBlock 23) = [23552, 23564, 23576] := by
  decide +kernel

theorem smallData_tiled : Tiled smallData (getBlock 23) := by decide +kernel

section

variable {bitmap : Nat → BitVec 8} {free spare : Nat}

theorem smallDisk_counted (hspare : spare ≤ 20)
    (hcard : (freeBlocks (smallDisk bitmap free spare)).card = free)
    (hres : ∀ b, 1 ≤ b → b ≤ lastReservedBlock → getBlockUsage (smallDisk bitmap free spare) b = true) :
    Counted (smallDisk bitmap free spare) := by
  -- the inodes do not depend on the blocks
  have hfree : freeInodes (smallDisk bitmap free spare)
      = freeInodes (smallDisk (fun _ => 0#8) 0 spare) := rfl
  have hall : ∀ spare ≤ 20, (freeInodes (smallDisk (fun _ => 0#8) 0 spare)).card = spare := by
    decide +kernel
  have hinodes := hall spare hspare
  have hused : ∀ n, n ≤ lastReservedInode → 1 ≤ n →
      getInodeUsage (smallDisk (fun _ => 0#8) 0 0) n = true := by
    decide
  refine ⟨(by decide : 128 ≤ mappedBlocks), fun b hb => ?_, hcard.symm, hcard.symm,
    by rw [hfree, hinodes]; rfl, by rw [hfree, hinodes]; rfl, hres, fun n h₁ h₂ => hused n h₂ h₁⟩
  rcases hb with rfl | rfl | rfl | rfl | ⟨-, hlt⟩
  · decide
  · decide
  · exact (by decide : 3 ≤ lastReservedBlock)
  · exact (by decide : 4 ≤ lastReservedBlock)
  · rw [getBlock_eq, getBlock_eq] at hlt
    have hlt : 1024 * b < 1024 * 5 + 128 * (12 + spare) := hlt
    rw [lastReservedBlock]
    omega

/-- Slot 0 of the root directory is the only place that stores a number. -/
theorem stored_smallDisk {r : Ref} (hr : ValidRef (smallDisk bitmap free spare) r)
    (hne : stored (smallDisk bitmap free spare) r ≠ 0) :
    r = .slot 2 0 ∧ stored (smallDisk bitmap free spare) r = 23 := by
  have hslot : ∀ n i, (smallInodes n).iBlock i = if n = 2 ∧ i = 0 then 23 else 0 := by
    intro n i
    rw [smallInodes]
    by_cases h₂ : n = 2
    · simp [h₂]
    · by_cases h₁₂ : n = 12
      · simp [h₁₂]
      · simp [h₂, h₁₂]
  have hind : ∀ n, indirectBlock (smallDisk bitmap free spare) n = 0 := fun n => by
    rw [indirectBlock, smallDisk, hslot, if_neg fun hand => absurd hand.2 (by decide)]
  cases r with
  | slot n i =>
    rw [stored] at hne ⊢
    by_cases hi : i < indirect1Index
    · rw [getInodeBlockNumber_direct _ _ hi, smallDisk, hslot] at hne ⊢
      have hand : n = 2 ∧ i = 0 := by
        by_contra hnot
        exact hne (if_neg hnot)
      exact ⟨by rw [hand.1, hand.2], if_pos hand⟩
    · rw [getInodeBlockNumber_indirect _ _ (by omega) hr.2, if_pos (hind n)] at hne
      exact absurd rfl hne
  | indirect n => exact absurd (hind n) hne

theorem smallDisk_isDirInode {n : Nat} (h : IsDirInode (smallDisk bitmap free spare) n) : n = 2 := by
  have htype : typeBits (smallInodes n).iMode = ext2SIfdir := h.2
  by_contra hne
  rw [smallInodes, if_neg hne] at htype
  split at htype
  · exact absurd htype (by decide)
  · exact absurd htype (by decide)

theorem smallDisk_liveIn {n e : Nat} (h : LiveIn (smallDisk bitmap free spare) n e) :
    n = 2 ∧ e ∈ [23552, 23564, 23576] := by
  obtain ⟨hn, i, hi, hne, he⟩ := h
  obtain ⟨hslot, h23⟩ := stored_smallDisk (r := .slot n i) ⟨hn.1.1, hi⟩ hne
  have h23 : getInodeBlockNumber (smallDisk bitmap free spare) n i = 23 := h23
  have he : e ∈ liveEntries smallData (getBlock 23) := h23 ▸ he
  exact ⟨smallDisk_isDirInode hn, smallData_entries ▸ he⟩

/-- **The small image is consistent**, whatever blocks behind its directory are free. -/
theorem smallDisk_consistent (hspare : spare ≤ 20)
    (hcard : (freeBlocks (smallDisk bitmap free spare)).card = free)
    (hres : ∀ b, 1 ≤ b → b ≤ 23 → getBlockUsage (smallDisk bitmap free spare) b = true) :
    Consistent (smallDisk bitmap free spare) := by
  have hcounted := smallDisk_counted hspare hcard fun b h₁ h₂ =>
    hres b h₁ (by rw [lastReservedBlock] at h₂; omega)
  have hmeta : ¬ (smallDisk bitmap free spare).IsMetadata 23 := fun h => by
    have := hcounted.metadata 23 h
    rw [lastReservedBlock] at this
    omega
  have htwelve : 12 ≤ (smallDisk bitmap free spare).superBlock.sInodesCount := Nat.le_add_right 12 spare
  have hroot : IsDirInode (smallDisk bitmap free spare) 2 :=
    ⟨⟨⟨by decide, by omega⟩,
      (by decide : getInodeUsage (smallDisk (fun _ => 0#8) 0 0) 2 = true)⟩,
      (by decide : typeBits ext2SIfdir = ext2SIfdir)⟩
  have hfile : InodeInUse (smallDisk bitmap free spare) 12 := ⟨⟨by decide, htwelve⟩,
    (by decide : getInodeUsage (smallDisk (fun _ => 0#8) 0 0) 12 = true)⟩
  refine ⟨⟨hcounted, ⟨fun r hr hne => ?_, fun r s hr hs hne heq => ?_⟩⟩, hroot, fun n hn i hi hne => ?_,
    fun n e hl => ?_⟩
  · rw [(stored_smallDisk hr hne).2]
    exact ⟨(by decide : 23 < 128), hres 23 (by decide) (by decide), hmeta⟩
  · rw [(stored_smallDisk hr hne).1, (stored_smallDisk hs (heq ▸ hne)).1]
  · have h23 : getInodeBlockNumber (smallDisk bitmap free spare) n i = 23 :=
      (stored_smallDisk (r := .slot n i) ⟨hn.1.1, hi⟩ hne).2
    rw [h23]
    exact smallData_tiled
  · have htwo : ∀ e, e = 23552 ∨ e = 23564 → entryInode smallData e = 2 ∧
        entryFileType smallData e = ext2FtDir := by
      rintro e (rfl | rfl)
      · decide +kernel
      · decide +kernel
    have hthree : entryInode smallData 23576 = 12 ∧ entryFileType smallData 23576 = 1 := by
      decide +kernel
    have hmem := (smallDisk_liveIn hl).2
    simp only [List.mem_cons, List.not_mem_nil, or_false, ← or_assoc] at hmem
    rcases hmem with hdir | rfl
    · obtain ⟨hino, htype⟩ := htwo e hdir
      have hino : entryInode (smallDisk bitmap free spare).data e = 2 := hino
      rw [hino]
      exact ⟨hroot.1, fun _ => hroot, fun _ => htype⟩
    · have hino : entryInode (smallDisk bitmap free spare).data 23576 = 12 := hthree.1
      have htype : entryFileType (smallDisk bitmap free spare).data 23576 = 1 := hthree.2
      rw [hino, htype]
      exact ⟨hfile, fun h => absurd h (by decide), fun h => absurd (smallDisk_isDirInode h) (by decide)⟩

end

/-- The blocks 24 to 127 are free. -/
def smallBlockBitmap (i : Nat) : BitVec 8 := if i < 2 then 0xFF#8 else if i = 2 then 0x7F#8 else 0#8

/-- The small image with 104 blocks and 20 inodes free. -/
def smallImage : Disk := smallDisk smallBlockBitmap 104 20

/-- The small image without a free block. -/
def fullImage : Disk := smallDisk (fun _ => 0xFF#8) 0 20

/-- The small image without a free inode. -/
def noInodeImage : Disk := smallDisk smallBlockBitmap 104 0

theorem smallImage_consistent : Consistent smallImage := by
  have hres : ∀ b, b ≤ 23 → 1 ≤ b → getBlockUsage smallImage b = true := by decide
  exact smallDisk_consistent (le_refl _) (by decide +kernel) fun b h₁ h₂ => hres b h₂ h₁

theorem fullImage_consistent : Consistent fullImage := by
  have hres : ∀ b, b ≤ 23 → 1 ≤ b → getBlockUsage fullImage b = true := by decide
  exact smallDisk_consistent (le_refl _) (by decide +kernel) fun b h₁ h₂ => hres b h₂ h₁

theorem noInodeImage_consistent : Consistent noInodeImage := by
  have hres : ∀ b, b ≤ 23 → 1 ≤ b → getBlockUsage noInodeImage b = true := by decide
  exact smallDisk_consistent (Nat.zero_le _) (by decide +kernel) fun b h₁ h₂ => hres b h₂ h₁

theorem noInodeImage_freeInodes : freeInodes noInodeImage = ∅ := by
  rw [← Finset.card_eq_zero, ← noInodeImage_consistent.sound.sFreeInodes]
  rfl

end Ext2
end OsAssignments
