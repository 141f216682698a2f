import OsAssignments.Ext2.DirBlock
import OsAssignments.Lib.ExitState

/-!
# The image of a disk

The 128-block image that `load_disk_to_mem` maps, taken apart: the counters of the
superblock and of the group descriptor, the two bitmaps, the inode table, and the bytes
of the data blocks.  An inode pointer is an inode number and an entry pointer an address
of `data`.

* `Disk` with `getBlock`, `getInodeBlockNumber`, `setInodeBlockNumber`,
  `getBlockUsage`, `setBlockUsage` and their companions.
* `getInodeBlockNumber_set` — what a write to one slot does to all slots of all inodes,
  when no two inodes share an indirect block (`IndirectDistinct`).
* `getBlockUsage_set` — the same for the bits of a bitmap.

The parts of the image are kept apart, so the model speaks about images in which no slot
of an inode names one of the blocks that hold the counters, bitmaps and inodes
(`Disk.IsMetadata`).
-/

namespace OsAssignments
namespace Ext2

open ByteMemory MachineWord ExitState

/-! ## Data -/

/-- The counters of `struct ext2_super_block`. -/
structure SuperBlock where
  sInodesCount : Nat
  sBlocksCount : Nat
  sFreeBlocksCount : Nat
  sFreeInodesCount : Nat

/-- `struct ext2_group_desc`. -/
structure GroupDesc where
  bgBlockBitmap : Nat
  bgInodeBitmap : Nat
  bgInodeTable : Nat
  bgFreeBlocksCount : Nat
  bgFreeInodesCount : Nat
  bgUsedDirsCount : Nat

/-- `struct ext2_inode`. -/
structure Inode where
  iMode : Nat
  iSize : Nat
  iCtime : Nat
  iDtime : Nat
  iLinksCount : Nat
  iBlocks : Nat
  iBlock : Nat → Nat

/-- The image. -/
structure Disk where
  superBlock : SuperBlock
  groupDesc : GroupDesc
  blockBitmap : Nat → BitVec 8
  inodeBitmap : Nat → BitVec 8
  inodeTable : Nat → Inode
  data : Memory

/-- A program on the image. -/
abbrev Command := ExitState.Command Disk

/-- The blocks of the mapping. -/
def mappedBlocks : Nat := 128

/-- `INDIRECT1_INDEX`. -/
def indirect1Index : Nat := 12

/-- `BLOCK_NUMS_PER_BLOCK`. -/
def blockNumsPerBlock : Nat := ext2BlockSize / 4

/-- `INODE_BLOCK_LIMIT`. -/
def inodeBlockLimit : Nat := indirect1Index + blockNumsPerBlock

/-- `LAST_RESERVED_BLOCK`. -/
def lastReservedBlock : Nat := 22

/-- `LAST_RESERVED_INODE`. -/
def lastReservedInode : Nat := 11

/-- `EXT2_FT_REG_FILE`. -/
def ext2FtRegFile : Nat := 1

/-- `EXT2_FT_DIR`. -/
def ext2FtDir : Nat := 2

/-- `EXT2_FT_SYMLINK`. -/
def ext2FtSymlink : Nat := 7

theorem indirect1Index_eq : indirect1Index = 12 := rfl

theorem inodeBlockLimit_eq : inodeBlockLimit = 268 := rfl

/-- `get_block`. -/
def getBlock (blockInd : Nat) : Nat := ext2BlockSize * blockInd

theorem getBlock_eq (b : Nat) : getBlock b = 1024 * b := rfl

/-- Change one inode. -/
def Disk.modifyInode (d : Disk) (inode : Nat) (f : Inode → Inode) : Disk :=
  { d with inodeTable := Function.update d.inodeTable inode (f (d.inodeTable inode)) }

namespace Disk

variable (d : Disk) (n m : Nat) (f : Inode → Inode)

@[simp] theorem modifyInode_superBlock : (d.modifyInode n f).superBlock = d.superBlock := rfl

@[simp] theorem modifyInode_groupDesc : (d.modifyInode n f).groupDesc = d.groupDesc := rfl

@[simp] theorem modifyInode_blockBitmap : (d.modifyInode n f).blockBitmap = d.blockBitmap := rfl

@[simp] theorem modifyInode_inodeBitmap : (d.modifyInode n f).inodeBitmap = d.inodeBitmap := rfl

@[simp] theorem modifyInode_data : (d.modifyInode n f).data = d.data := rfl

theorem modifyInode_inodeTable :
    (d.modifyInode n f).inodeTable m = if m = n then f (d.inodeTable n) else d.inodeTable m := by
  simp only [modifyInode, Function.update_apply]

@[simp] theorem modifyInode_inodeTable_self :
    (d.modifyInode n f).inodeTable n = f (d.inodeTable n) := by
  rw [modifyInode_inodeTable, if_pos rfl]

variable {n m} in
theorem modifyInode_inodeTable_of_ne (h : m ≠ n) :
    (d.modifyInode n f).inodeTable m = d.inodeTable m := by
  rw [modifyInode_inodeTable, if_neg h]

end Disk

/-! ## Block numbers of an inode -/

/-- The address of a word of the inode's indirect block. -/
def indirectWord (d : Disk) (inode index : Nat) : Nat :=
  getBlock ((d.inodeTable inode).iBlock indirect1Index) + 4 * (index - indirect1Index)

/-- `get_inode_block_number`. -/
def getInodeBlockNumber (d : Disk) (inode index : Nat) : Nat :=
  if index < indirect1Index then (d.inodeTable inode).iBlock index
  else if indirect1Index ≤ index ∧ index < inodeBlockLimit then
    if (d.inodeTable inode).iBlock indirect1Index = 0 then 0
    else readLE d.data 4 (indirectWord d inode index)
  else 0

/-- `set_inode_block_number`. -/
def setInodeBlockNumber (d : Disk) (inode index blockNum : Nat) : Disk :=
  if index < indirect1Index then
    d.modifyInode inode fun i => { i with iBlock := Function.update i.iBlock index blockNum }
  else if indirect1Index ≤ index ∧ index < inodeBlockLimit then
    if (d.inodeTable inode).iBlock indirect1Index = 0 then d
    else { d with data := writeLE 4 d.data (indirectWord d inode index) blockNum }
  else d

/-- The indirect block of an inode. -/
def indirectBlock (d : Disk) (inode : Nat) : Nat := (d.inodeTable inode).iBlock indirect1Index

/-- Does a write to this slot go anywhere? -/
def Attachable (d : Disk) (inode index : Nat) : Prop :=
  index < indirect1Index ∨ index < inodeBlockLimit ∧ indirectBlock d inode ≠ 0

instance (d : Disk) (inode index : Nat) : Decidable (Attachable d inode index) :=
  inferInstanceAs (Decidable (_ ∨ _))

/-! ## Bitmaps -/

/-- `get_bitmap_val`. -/
def getBitmapVal (bitmap : Nat → BitVec 8) (bit : Nat) : Bool :=
  hasFlag (bitmap (bit / 8) >>> (bit % 8)) 1#8

/-- `set_bitmap_val`. -/
def setBitmapVal (bitmap : Nat → BitVec 8) (bit : Nat) (value : Bool) : Nat → BitVec 8 :=
  let oneHot := MachineWord.bit (bit % 8)
  Function.update bitmap (bit / 8)
    (if value then bitmap (bit / 8) ||| oneHot else bitmap (bit / 8) &&& ~~~oneHot)

/-- `get_block_usage`. -/
def getBlockUsage (d : Disk) (blockNum : Nat) : Bool :=
  getBitmapVal d.blockBitmap (wrap 32 (blockNum - 1 : Int))

/-- `get_inode_usage`. -/
def getInodeUsage (d : Disk) (inodeNum : Nat) : Bool :=
  getBitmapVal d.inodeBitmap (wrap 32 (inodeNum - 1 : Int))

/-- `set_block_usage`. -/
def setBlockUsage (d : Disk) (blockNum : Nat) (isUsed : Bool) : Disk :=
  { d with blockBitmap := setBitmapVal d.blockBitmap (wrap 32 (blockNum - 1 : Int)) isUsed }

/-- `set_inode_usage`. -/
def setInodeUsage (d : Disk) (inodeNum : Nat) (isUsed : Bool) : Disk :=
  { d with inodeBitmap := setBitmapVal d.inodeBitmap (wrap 32 (inodeNum - 1 : Int)) isUsed }

/-- `increase_free_blocks_count`. -/
def increaseFreeBlocksCount (d : Disk) (count : Int) : Disk :=
  { d with
    superBlock := { d.superBlock with
      sFreeBlocksCount := wrap 32 (d.superBlock.sFreeBlocksCount + count) }
    groupDesc := { d.groupDesc with
      bgFreeBlocksCount := wrap 16 (d.groupDesc.bgFreeBlocksCount + count) } }

/-- `increase_free_inodes_count`. -/
def increaseFreeInodesCount (d : Disk) (count : Int) : Disk :=
  { d with
    superBlock := { d.superBlock with
      sFreeInodesCount := wrap 32 (d.superBlock.sFreeInodesCount + count) }
    groupDesc := { d.groupDesc with
      bgFreeInodesCount := wrap 16 (d.groupDesc.bgFreeInodesCount + count) } }

/-! ## Bits -/

theorem getBitmapVal_eq (bitmap : Nat → BitVec 8) (bit : Nat) :
    getBitmapVal bitmap bit = (bitmap (bit / 8)).getLsbD (bit % 8) := by
  have hone : (1#8 : BitVec 8) = MachineWord.bit 0 := by decide
  rw [getBitmapVal, hone, hasFlag_bit _ (by omega), BitVec.getLsbD_ushiftRight, Nat.add_zero]

theorem getBitmapVal_set (bitmap : Nat → BitVec 8) (bit bit' : Nat) (value : Bool) :
    getBitmapVal (setBitmapVal bitmap bit value) bit'
      = if bit' = bit then value else getBitmapVal bitmap bit' := by
  have hlt : bit % 8 < 8 := Nat.mod_lt _ (by omega)
  rw [getBitmapVal_eq, getBitmapVal_eq, setBitmapVal, Function.update_apply]
  by_cases hbyte : bit' / 8 = bit / 8
  · have hiff : bit' % 8 = bit % 8 ↔ bit' = bit := by omega
    rw [if_pos hbyte]
    cases value
    · simp only [Bool.false_eq_true, if_false]
      rw [getLsbD_clear_bit _ hlt, hbyte]
      by_cases hbit : bit' = bit <;> simp [hiff, hbit]
    · simp only [if_true]
      rw [getLsbD_or_bit _ hlt, hbyte]
      by_cases hbit : bit' = bit <;> simp [hiff, hbit]
  · rw [if_neg hbyte, if_neg (fun h => hbyte (by rw [h]))]

/-- Bit numbers of distinct blocks or inodes are distinct. -/
theorem bitOf_inj {b c : Nat} (hb : b < 2 ^ 32) (hc : c < 2 ^ 32) :
    wrap 32 (b - 1 : Int) = wrap 32 (c - 1 : Int) ↔ b = c := by
  rw [wrap, wrap]
  omega

theorem getBlockUsage_set (d : Disk) {b c : Nat} (value : Bool) (hb : b < 2 ^ 32)
    (hc : c < 2 ^ 32) :
    getBlockUsage (setBlockUsage d b value) c = if c = b then value else getBlockUsage d c := by
  simp only [getBlockUsage, setBlockUsage, getBitmapVal_set, bitOf_inj hc hb]

theorem getInodeUsage_set (d : Disk) {n m : Nat} (value : Bool) (hn : n < 2 ^ 32)
    (hm : m < 2 ^ 32) :
    getInodeUsage (setInodeUsage d n value) m = if m = n then value else getInodeUsage d m := by
  simp only [getInodeUsage, setInodeUsage, getBitmapVal_set, bitOf_inj hm hn]

/-! ## Slots -/

/-- The number of an entry of the inode table. -/
def ValidInode (d : Disk) (n : Nat) : Prop := 1 ≤ n ∧ n ≤ d.superBlock.sInodesCount

/-- No two inodes share an indirect block. -/
def IndirectDistinct (d : Disk) : Prop :=
  ∀ n m, ValidInode d n → ValidInode d m → indirectBlock d n ≠ 0 →
    indirectBlock d n = indirectBlock d m → n = m

/-! The three ways a write to a slot can go. -/

theorem setInodeBlockNumber_direct (d : Disk) (n v : Nat) {i : Nat} (h : i < indirect1Index) :
    setInodeBlockNumber d n i v = d.modifyInode n fun inode =>
      { inode with iBlock := Function.update inode.iBlock i v } := if_pos h

theorem setInodeBlockNumber_indirect {d : Disk} {n : Nat} (v : Nat) {i : Nat}
    (h : indirect1Index ≤ i) (hatt : Attachable d n i) :
    setInodeBlockNumber d n i v = { d with data := writeLE 4 d.data (indirectWord d n i) v } := by
  obtain ⟨hil, hind⟩ := hatt.resolve_left (by omega)
  rw [setInodeBlockNumber, if_neg (by omega), if_pos ⟨h, hil⟩]
  exact if_neg hind

theorem setInodeBlockNumber_dropped {d : Disk} {n : Nat} (v : Nat) {i : Nat}
    (h : ¬ Attachable d n i) : setInodeBlockNumber d n i v = d := by
  rw [Attachable, not_or, not_and, not_not] at h
  rw [setInodeBlockNumber, if_neg h.1]
  split
  · rename_i hil
    exact if_pos (h.2 hil.2)
  · rfl

/-- What no write to a slot changes. -/
theorem setInodeBlockNumber_frame (d : Disk) (n i v : Nat) :
    (setInodeBlockNumber d n i v).superBlock = d.superBlock ∧
    (setInodeBlockNumber d n i v).groupDesc = d.groupDesc ∧
    (setInodeBlockNumber d n i v).blockBitmap = d.blockBitmap ∧
    (setInodeBlockNumber d n i v).inodeBitmap = d.inodeBitmap := by
  by_cases hi : i < indirect1Index
  · rw [setInodeBlockNumber_direct d n v hi]
    exact ⟨rfl, rfl, rfl, rfl⟩
  · by_cases hatt : Attachable d n i
    · rw [setInodeBlockNumber_indirect v (by omega) hatt]
      exact ⟨rfl, rfl, rfl, rfl⟩
    · rw [setInodeBlockNumber_dropped v hatt]
      exact ⟨rfl, rfl, rfl, rfl⟩

section Slots

variable (d : Disk) (n i v : Nat)

@[simp] theorem setInodeBlockNumber_superBlock :
    (setInodeBlockNumber d n i v).superBlock = d.superBlock :=
  (setInodeBlockNumber_frame d n i v).1

@[simp] theorem setInodeBlockNumber_groupDesc :
    (setInodeBlockNumber d n i v).groupDesc = d.groupDesc :=
  (setInodeBlockNumber_frame d n i v).2.1

@[simp] theorem setInodeBlockNumber_blockBitmap :
    (setInodeBlockNumber d n i v).blockBitmap = d.blockBitmap :=
  (setInodeBlockNumber_frame d n i v).2.2.1

@[simp] theorem setInodeBlockNumber_inodeBitmap :
    (setInodeBlockNumber d n i v).inodeBitmap = d.inodeBitmap :=
  (setInodeBlockNumber_frame d n i v).2.2.2

/-- A write to a slot keeps every field of the inode but the slot. -/
theorem setInodeBlockNumber_inodeTable (m : Nat) :
    ((setInodeBlockNumber d n i v).inodeTable m) = { d.inodeTable m with
      iBlock := if m = n ∧ i < indirect1Index
        then Function.update (d.inodeTable m).iBlock i v else (d.inodeTable m).iBlock } := by
  by_cases hi : i < indirect1Index
  · rw [setInodeBlockNumber_direct d n v hi, Disk.modifyInode_inodeTable]
    by_cases hm : m = n
    · subst hm
      simp [hi]
    · simp [hm]
  · rw [if_neg (fun h => hi h.2)]
    by_cases hatt : Attachable d n i
    · rw [setInodeBlockNumber_indirect v (by omega) hatt]
    · rw [setInodeBlockNumber_dropped v hatt]

@[simp] theorem setInodeBlockNumber_indirectBlock (m : Nat) :
    indirectBlock (setInodeBlockNumber d n i v) m = indirectBlock d m := by
  rw [indirectBlock, setInodeBlockNumber_inodeTable]
  dsimp only
  split
  · rename_i h
    rw [Function.update_of_ne (by omega), indirectBlock]
  · rfl

theorem indirectWord_bounds {d : Disk} {n i : Nat} (hi : i < inodeBlockLimit) :
    getBlock (indirectBlock d n) ≤ indirectWord d n i ∧
      indirectWord d n i + 4 ≤ getBlock (indirectBlock d n) + ext2BlockSize := by
  rw [inodeBlockLimit_eq] at hi
  rw [indirectWord, indirect1Index_eq, ext2BlockSize_eq, indirectBlock, indirect1Index_eq]
  omega

/-- A write to a slot touches no byte outside the indirect block of the inode. -/
theorem setInodeBlockNumber_data {a len : Nat}
    (h : a + len ≤ getBlock (indirectBlock d n) ∨
      getBlock (indirectBlock d n) + ext2BlockSize ≤ a ∨ ¬ Attachable d n i ∨
      i < indirect1Index) :
    AgreeOn d.data (setInodeBlockNumber d n i v).data a len := by
  by_cases hi : i < indirect1Index
  · rw [setInodeBlockNumber_direct d n v hi]
    exact AgreeOn.refl _ _ _
  · by_cases hatt : Attachable d n i
    · have hb := indirectWord_bounds (d := d) (n := n) (hatt.resolve_left hi).1
      rw [setInodeBlockNumber_indirect v (by omega) hatt]
      have hout := h.imp_right fun h => h.resolve_right fun h => h.elim (· hatt) hi
      exact writeLE_of_disjoint 4 _ _ _ (by omega)
    · rw [setInodeBlockNumber_dropped v hatt]
      exact AgreeOn.refl _ _ _

end Slots

theorem getInodeBlockNumber_direct (d : Disk) (n : Nat) {i : Nat} (h : i < indirect1Index) :
    getInodeBlockNumber d n i = (d.inodeTable n).iBlock i := if_pos h

theorem getInodeBlockNumber_indirect (d : Disk) (n : Nat) {i : Nat} (h : indirect1Index ≤ i)
    (hi : i < inodeBlockLimit) : getInodeBlockNumber d n i
      = if indirectBlock d n = 0 then 0 else readLE d.data 4 (indirectWord d n i) := by
  rw [getInodeBlockNumber, if_neg (by omega), if_pos ⟨h, hi⟩]
  rfl

theorem getInodeBlockNumber_past (d : Disk) (n : Nat) {i : Nat} (h : inodeBlockLimit ≤ i) :
    getInodeBlockNumber d n i = 0 := by
  rw [inodeBlockLimit_eq] at h
  rw [getInodeBlockNumber, indirect1Index_eq, inodeBlockLimit_eq, if_neg (by omega),
    if_neg (by omega)]

/-- The slots of an inode depend on its block pointers and its indirect block only. -/
theorem getInodeBlockNumber_congr {d d' : Disk} {n m : Nat}
    (hblock : (d'.inodeTable m).iBlock = (d.inodeTable n).iBlock)
    (hdata : indirectBlock d n ≠ 0 →
      AgreeOn d.data d'.data (getBlock (indirectBlock d n)) ext2BlockSize) (i : Nat) :
    getInodeBlockNumber d' m i = getInodeBlockNumber d n i := by
  have hind : indirectBlock d' m = indirectBlock d n := congrFun hblock _
  by_cases hi : i < indirect1Index
  · rw [getInodeBlockNumber_direct d' m hi, getInodeBlockNumber_direct d n hi, hblock]
  · by_cases hlim : i < inodeBlockLimit
    · rw [getInodeBlockNumber_indirect d' m (by omega) hlim,
        getInodeBlockNumber_indirect d n (by omega) hlim, hind]
      split
      · rfl
      · rename_i hne
        have hword : indirectWord d' m i = indirectWord d n i := by
          rw [indirectWord, indirectWord]
          exact congrArg (fun b => getBlock b + 4 * (i - indirect1Index)) hind
        have hin := indirectWord_bounds (d := d) (n := n) hlim
        rw [hword]
        exact ((hdata hne).mono hin.1 hin.2).readLE
    · rw [getInodeBlockNumber_past d' m (by omega), getInodeBlockNumber_past d n (by omega)]

theorem getInodeBlockNumber_set_direct (d : Disk) {n m i j v : Nat} (hi : i < indirect1Index) :
    getInodeBlockNumber (setInodeBlockNumber d n i v) m j
      = if m = n ∧ j = i then v else getInodeBlockNumber d m j := by
  by_cases hj : j < indirect1Index
  · rw [getInodeBlockNumber_direct _ _ hj, getInodeBlockNumber_direct _ _ hj,
      setInodeBlockNumber_inodeTable]
    by_cases hmn : m = n
    · simp [hmn, hi, Function.update_apply]
    · simp [hmn]
  · have hind := setInodeBlockNumber_indirectBlock d n i v m
    have hword : indirectWord (setInodeBlockNumber d n i v) m j = indirectWord d m j :=
      congrArg (fun b => getBlock b + 4 * (j - indirect1Index)) hind
    rw [if_neg (by omega)]
    by_cases hjl : j < inodeBlockLimit
    · rw [getInodeBlockNumber_indirect _ _ (by omega) hjl,
        getInodeBlockNumber_indirect _ _ (by omega) hjl, hind, hword,
        (setInodeBlockNumber_data d n i v (.inr (.inr (.inr hi)))).readLE]
    · rw [getInodeBlockNumber_past _ _ (by omega), getInodeBlockNumber_past _ _ (by omega)]

/-- The slot written holds the number, unless it lies behind a missing indirect block; the
other slots of the inode are unchanged. -/
theorem getInodeBlockNumber_set_self (d : Disk) (n i j : Nat) {v : Nat} (hv : v < 2 ^ 32) :
    getInodeBlockNumber (setInodeBlockNumber d n i v) n j
      = if j = i ∧ Attachable d n i then v else getInodeBlockNumber d n j := by
  by_cases hatt : Attachable d n i
  · simp only [hatt, and_true]
    by_cases hi : i < indirect1Index
    · rw [getInodeBlockNumber_set_direct d hi]
      simp
    · obtain ⟨hil, hind⟩ := hatt.resolve_left hi
      rw [setInodeBlockNumber_indirect v (by omega) hatt]
      by_cases hj : j < indirect1Index
      · rw [getInodeBlockNumber_direct _ _ hj, getInodeBlockNumber_direct _ _ hj,
          if_neg (by omega)]
      · by_cases hjl : j < inodeBlockLimit
        · rw [getInodeBlockNumber_indirect _ _ (by omega) hjl,
            getInodeBlockNumber_indirect _ _ (by omega) hjl]
          change (if indirectBlock d n = 0 then 0
            else readLE (writeLE 4 d.data (indirectWord d n i) v) 4 (indirectWord d n j)) = _
          rw [if_neg hind, if_neg hind]
          by_cases hji : j = i
          · subst hji
            rw [if_pos rfl, readLE_writeLE_of_lt (n := 4) d.data _ hv]
          · rw [if_neg hji, readLE_writeLE_of_disjoint]
            rw [indirectWord, indirectWord, indirect1Index_eq] at *
            omega
        · rw [getInodeBlockNumber_past _ _ (by omega), getInodeBlockNumber_past _ _ (by omega),
            if_neg (by omega)]
  · rw [setInodeBlockNumber_dropped v hatt, if_neg (fun h => hatt h.2)]

/-- The slots of another inode are unchanged, if it does not share the indirect block. -/
theorem getInodeBlockNumber_set_other {d : Disk} (hd : IndirectDistinct d) {n m i j v : Nat}
    (hn : ValidInode d n) (hm : ValidInode d m) (hmn : m ≠ n) :
    getInodeBlockNumber (setInodeBlockNumber d n i v) m j = getInodeBlockNumber d m j := by
  apply getInodeBlockNumber_congr
  · rw [setInodeBlockNumber_inodeTable, if_neg (fun h => hmn h.1)]
  intro hne
  have hdist : indirectBlock d m ≠ indirectBlock d n := fun heq => hmn (hd m n hm hn hne heq)
  refine setInodeBlockNumber_data d n i v ?_
  rw [getBlock_eq, getBlock_eq, ext2BlockSize_eq]
  omega

/-- The slot written holds the number, unless it lies behind a missing indirect block;
every other slot of every inode is unchanged. -/
theorem getInodeBlockNumber_set {d : Disk} (hd : IndirectDistinct d) {n m i j v : Nat}
    (hn : ValidInode d n) (hm : ValidInode d m) (hv : v < 2 ^ 32) :
    getInodeBlockNumber (setInodeBlockNumber d n i v) m j
      = if (m = n ∧ j = i) ∧ Attachable d n i then v else getInodeBlockNumber d m j := by
  by_cases hmn : m = n
  · subst hmn
    rw [getInodeBlockNumber_set_self d m i j hv]
    simp
  · rw [getInodeBlockNumber_set_other hd hn hm hmn, if_neg (fun h => hmn h.1.1)]

end Ext2
end OsAssignments
