import OsAssignments.Ext2.Allocation
import OsAssignments.Lib.Ownership

/-!
# Soundness of the allocation state

`Sound` ties the four counters to the two bitmaps and the bitmaps to the block numbers
that inodes store.

* `Ref` and `stored` — the places of the image that hold a block number: the slots of
  `get_inode_block_number` and the pointer to the indirect block.
* `Counted` — counters and bitmaps agree; the reserved blocks and inodes are in use.
* `Sound` — moreover every stored number is that of a block in use, and no number is
  stored twice.

The lemmas of the first part say which changes of an image keep the one or the other.
-/

namespace OsAssignments
namespace Ext2

open ByteMemory MachineWord ExitState Ownership

/-! ## The invariant -/

/-- A block that holds counters, bitmaps or inodes. -/
def Disk.IsMetadata (d : Disk) (b : Nat) : Prop :=
  b = 1 ∨ b = 2 ∨ b = d.groupDesc.bgBlockBitmap ∨ b = d.groupDesc.bgInodeBitmap ∨
  d.groupDesc.bgInodeTable ≤ b ∧
    getBlock b < getBlock d.groupDesc.bgInodeTable + 128 * d.superBlock.sInodesCount

/-- A block of the file system that is marked and holds no metadata. -/
structure InUse (d : Disk) (b : Nat) : Prop where
  lt : b < d.superBlock.sBlocksCount
  marked : getBlockUsage d b = true
  notMetadata : ¬ d.IsMetadata b

/-- A place that stores a block number. -/
inductive Ref where
  /-- The slot of an inode with this index. -/
  | slot (inode index : Nat)
  /-- The pointer to an inode's indirect block. -/
  | indirect (inode : Nat)
  deriving DecidableEq

/-- The places of the image. -/
def ValidRef (d : Disk) : Ref → Prop
  | .slot n i => ValidInode d n ∧ i < inodeBlockLimit
  | .indirect n => ValidInode d n

/-- The block number stored in a place. -/
def stored (d : Disk) : Ref → Nat
  | .slot n i => getInodeBlockNumber d n i
  | .indirect n => indirectBlock d n

/-- The blocks `1 .. s_blocks_count - 1` whose bit is clear. -/
def freeBlocks (d : Disk) : Finset Nat :=
  (Finset.Ico 1 d.superBlock.sBlocksCount).filter fun b => getBlockUsage d b = false

/-- The inodes `1 .. s_inodes_count` whose bit is clear. -/
def freeInodes (d : Disk) : Finset Nat :=
  (Finset.Icc 1 d.superBlock.sInodesCount).filter fun n => getInodeUsage d n = false

/-- Counters and bitmaps agree. -/
structure Counted (d : Disk) : Prop where
  mapped : d.superBlock.sBlocksCount ≤ mappedBlocks
  metadata : ∀ b, d.IsMetadata b → b ≤ lastReservedBlock
  sFreeBlocks : d.superBlock.sFreeBlocksCount = (freeBlocks d).card
  bgFreeBlocks : d.groupDesc.bgFreeBlocksCount = (freeBlocks d).card
  sFreeInodes : d.superBlock.sFreeInodesCount = (freeInodes d).card
  bgFreeInodes : d.groupDesc.bgFreeInodesCount = (freeInodes d).card
  reservedBlocks : ∀ b, 1 ≤ b → b ≤ lastReservedBlock → getBlockUsage d b = true
  reservedInodes : ∀ n, 1 ≤ n → n ≤ lastReservedInode → getInodeUsage d n = true

/-- A sound image. -/
structure Sound (d : Disk) : Prop extends Counted d where
  refs : Owned 0 (ValidRef d) (InUse d) (stored d)

theorem mem_freeBlocks {d : Disk} {b : Nat} :
    b ∈ freeBlocks d ↔ (1 ≤ b ∧ b < d.superBlock.sBlocksCount) ∧ getBlockUsage d b = false := by
  simp [freeBlocks]

theorem mem_freeInodes {d : Disk} {n : Nat} :
    n ∈ freeInodes d ↔ (1 ≤ n ∧ n ≤ d.superBlock.sInodesCount) ∧ getInodeUsage d n = false := by
  simp [freeInodes]

/-! ## Consequences -/

namespace Counted

variable {d : Disk}

/-- The inode table ends at block `LAST_RESERVED_BLOCK`, so it has few entries. -/
theorem inodes_lt (h : Counted d) : d.superBlock.sInodesCount < 256 := by
  by_contra hge
  have hmeta : d.IsMetadata (d.groupDesc.bgInodeTable + 23) := by
    refine .inr (.inr (.inr (.inr ⟨by omega, ?_⟩)))
    rw [getBlock_eq, getBlock_eq]
    omega
  have := h.metadata _ hmeta
  rw [lastReservedBlock] at this
  omega

theorem validInode_lt (h : Counted d) {n : Nat} (hn : ValidInode d n) : n < 2 ^ 32 := by
  have := h.inodes_lt
  have := hn.2
  omega

theorem blocks_le (h : Counted d) : d.superBlock.sBlocksCount ≤ 128 := h.mapped

theorem card_freeBlocks_lt (h : Counted d) : (freeBlocks d).card < 128 := by
  have hle := Finset.card_filter_le (Finset.Ico 1 d.superBlock.sBlocksCount)
    fun b => getBlockUsage d b = false
  have := h.blocks_le
  rw [Nat.card_Ico] at hle
  rw [freeBlocks]
  omega

theorem card_freeInodes_lt (h : Counted d) : (freeInodes d).card < 256 := by
  have hle := Finset.card_filter_le (Finset.Icc 1 d.superBlock.sInodesCount)
    fun n => getInodeUsage d n = false
  have := h.inodes_lt
  rw [Nat.card_Icc] at hle
  rw [freeInodes]
  omega

theorem free_bounds (h : Counted d) {b : Nat} (hb : b ∈ freeBlocks d) :
    lastReservedBlock < b ∧ b < d.superBlock.sBlocksCount ∧ b < 2 ^ 32 ∧ ¬ d.IsMetadata b := by
  obtain ⟨⟨h₁, h₂⟩, hfree⟩ := mem_freeBlocks.mp hb
  have hres : lastReservedBlock < b := by
    by_contra hle
    simp [h.reservedBlocks b h₁ (by omega)] at hfree
  have := h.blocks_le
  refine ⟨hres, h₂, by omega, fun hm => ?_⟩
  have := h.metadata b hm
  omega

end Counted

theorem InUse.lt_two_pow {d : Disk} (hd : Counted d) {b : Nat} (h : InUse d b) : b < 2 ^ 32 := by
  have := h.lt
  have := hd.blocks_le
  omega

namespace Sound

variable {d : Disk}

theorem indirectDistinct (h : Sound d) : IndirectDistinct d := by
  intro n m hn hm hne heq
  have := h.refs.inj (.indirect n) (.indirect m) hn hm hne heq
  injection this

theorem stored_inUse (h : Sound d) {r : Ref} (hr : ValidRef d r) (hne : stored d r ≠ 0) :
    InUse d (stored d r) := h.refs.used_of r hr hne

/-- A free block is stored nowhere. -/
theorem stored_ne_of_free (h : Sound d) {b : Nat} (hb : b ∈ freeBlocks d) {r : Ref}
    (hr : ValidRef d r) : stored d r ≠ b := by
  obtain ⟨⟨h₁, -⟩, hfree⟩ := mem_freeBlocks.mp hb
  intro heq
  have := (h.stored_inUse hr (by omega)).marked
  rw [heq, hfree] at this
  simp at this

end Sound

/-! ## Changes of the slots of one inode -/

/-- `d'` differs from `d` in the slots of inode `n` and in the bytes of the blocks `bs`
only. -/
structure SlotsOnly (d d' : Disk) (n : Nat) (bs : List Nat) : Prop where
  superBlock : d'.superBlock = d.superBlock
  groupDesc : d'.groupDesc = d.groupDesc
  blockBitmap : d'.blockBitmap = d.blockBitmap
  inodeBitmap : d'.inodeBitmap = d.inodeBitmap
  other : ∀ m, m ≠ n → d'.inodeTable m = d.inodeTable m
  self : ∃ iBlock, d'.inodeTable n = { d.inodeTable n with iBlock := iBlock }
  indirect : indirectBlock d' n = indirectBlock d n
  data : ∀ c, c ∉ bs → c = 0 ∨ c ≠ indirectBlock d n →
    AgreeOn d.data d'.data (getBlock c) ext2BlockSize

namespace SlotsOnly

variable {d d' d'' : Disk} {n : Nat} {bs : List Nat}

theorem refl (d : Disk) (n : Nat) (bs : List Nat) : SlotsOnly d d n bs :=
  ⟨rfl, rfl, rfl, rfl, fun _ _ => rfl, ⟨_, rfl⟩, rfl, fun _ _ _ => AgreeOn.refl _ _ _⟩

theorem trans (h : SlotsOnly d d' n bs) (h' : SlotsOnly d' d'' n bs) : SlotsOnly d d'' n bs := by
  obtain ⟨iBlock, hself⟩ := h.self
  obtain ⟨iBlock', hself'⟩ := h'.self
  refine ⟨h'.superBlock.trans h.superBlock, h'.groupDesc.trans h.groupDesc,
    h'.blockBitmap.trans h.blockBitmap, h'.inodeBitmap.trans h.inodeBitmap,
    fun m hm => (h'.other m hm).trans (h.other m hm), ⟨iBlock', by rw [hself', hself]⟩,
    h'.indirect.trans h.indirect, fun c hc hind => ?_⟩
  exact (h.data c hc hind).trans (h'.data c hc (h.indirect.symm ▸ hind))

theorem mono {bs' : List Nat} (h : SlotsOnly d d' n bs) (hsub : bs ⊆ bs') : SlotsOnly d d' n bs' :=
  ⟨h.superBlock, h.groupDesc, h.blockBitmap, h.inodeBitmap, h.other, h.self, h.indirect,
    fun c hc hind => h.data c (fun hmem => hc (hsub hmem)) hind⟩

theorem indirectBlock_eq (h : SlotsOnly d d' n bs) (m : Nat) :
    indirectBlock d' m = indirectBlock d m := by
  by_cases hm : m = n
  · rw [hm, h.indirect]
  · rw [indirectBlock, h.other m hm, indirectBlock]

theorem validInode_iff (h : SlotsOnly d d' n bs) {m : Nat} : ValidInode d' m ↔ ValidInode d m := by
  rw [ValidInode, ValidInode, h.superBlock]

theorem attachable_iff (h : SlotsOnly d d' n bs) {m i : Nat} :
    Attachable d' m i ↔ Attachable d m i := by
  rw [Attachable, Attachable, h.indirectBlock_eq]

theorem indirectDistinct (h : SlotsOnly d d' n bs) (hd : IndirectDistinct d) :
    IndirectDistinct d' := by
  intro m k hm hk hne heq
  rw [h.indirectBlock_eq] at hne
  rw [h.indirectBlock_eq, h.indirectBlock_eq] at heq
  exact hd m k (h.validInode_iff.mp hm) (h.validInode_iff.mp hk) hne heq

/-- The slots of every other inode are as they were. -/
theorem slots (h : SlotsOnly d d' n bs) (hd : IndirectDistinct d) (hn : ValidInode d n) {m : Nat}
    (hm : ValidInode d m) (hmn : m ≠ n) (hbs : indirectBlock d m ∉ bs) (i : Nat) :
    getInodeBlockNumber d' m i = getInodeBlockNumber d m i := by
  refine getInodeBlockNumber_congr (by rw [h.other m hmn]) (fun hne => ?_) i
  exact h.data _ hbs (.inr fun heq => hmn (hd m n hm hn hne heq))

theorem getBlockUsage_eq (h : SlotsOnly d d' n bs) (b : Nat) :
    getBlockUsage d' b = getBlockUsage d b := by
  rw [getBlockUsage, h.blockBitmap, getBlockUsage]

theorem inUse (h : SlotsOnly d d' n bs) {b : Nat} (hb : InUse d b) : InUse d' b := by
  refine ⟨?_, ?_, ?_⟩
  · rw [h.superBlock]
    exact hb.lt
  · rw [h.getBlockUsage_eq]
    exact hb.marked
  · rw [Disk.IsMetadata, h.groupDesc, h.superBlock]
    exact hb.notMetadata

end SlotsOnly

theorem setInodeBlockNumber_slotsOnly (d : Disk) (n i v : Nat) (bs : List Nat) :
    SlotsOnly d (setInodeBlockNumber d n i v) n bs := by
  have htable := setInodeBlockNumber_inodeTable d n i v
  refine ⟨by simp, by simp, by simp, by simp, fun m hm => ?_, ⟨_, htable n⟩, by simp,
    fun c _ hc => setInodeBlockNumber_data d n i v ?_⟩
  · rw [htable m]
    simp [hm]
  · by_cases hatt : Attachable d n i
    · by_cases hi : i < indirect1Index
      · exact .inr (.inr (.inr hi))
      · have hind := (hatt.resolve_left hi).2
        rw [getBlock_eq, getBlock_eq, ext2BlockSize_eq]
        omega
    · exact .inr (.inr (.inl hatt))

theorem SlotsOnly.foldl {d : Disk} {n : Nat} {bs : List Nat} {f : Disk → Nat → Disk}
    (hstep : ∀ d i, SlotsOnly d (f d i) n bs) (l : List Nat) :
    SlotsOnly d (l.foldl f d) n bs := by
  induction l generalizing d with
  | nil => exact SlotsOnly.refl d n bs
  | cons i l ih => exact (hstep d i).trans ih

theorem getInodeBlockNumber_of_not_attachable {d : Disk} {n i : Nat} (h : ¬ Attachable d n i) :
    getInodeBlockNumber d n i = 0 := by
  rw [Attachable, not_or, not_and, not_not] at h
  by_cases hi : i < inodeBlockLimit
  · rw [getInodeBlockNumber_indirect d n (by omega) hi, if_pos (h.2 hi)]
  · exact getInodeBlockNumber_past d n (by omega)

theorem clearSlots_slotsOnly (d : Disk) (n : Nat) : SlotsOnly d (clearSlots d n) n [] :=
  SlotsOnly.foldl (fun d i => setInodeBlockNumber_slotsOnly d n i 0 []) _

theorem getInodeBlockNumber_clearSlots (d : Disk) (n : Nat) {i : Nat} (hi : i < inodeBlockLimit) :
    getInodeBlockNumber (clearSlots d n) n i = 0 := by
  have hall : ∀ l : List Nat, i ∈ l →
      getInodeBlockNumber (l.foldl (fun d i => setInodeBlockNumber d n i 0) d) n i = 0 := by
    intro l
    induction l using List.reverseRecOn with
    | nil => simp
    | append_singleton l k ih =>
      intro hmem
      rw [List.foldl_append, List.foldl_cons, List.foldl_nil,
        getInodeBlockNumber_set_self _ _ _ _ (by norm_num)]
      split
      · rfl
      · rename_i hnot
        rcases List.mem_append.mp hmem with hi | hi
        · exact ih hi
        · obtain rfl := List.mem_singleton.mp hi
          exact getInodeBlockNumber_of_not_attachable fun hatt => hnot ⟨rfl, hatt⟩
  exact hall _ (List.mem_range.mpr hi)

end Ext2
end OsAssignments
