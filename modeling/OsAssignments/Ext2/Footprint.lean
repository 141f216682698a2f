import OsAssignments.Ext2.Sound

/-!
# Footprints

What a change of the image leaves alone, in terms of inodes and blocks.

* `Footprint d d' ns bs` — from `d` to `d'` only the inodes `ns` and the bytes of the blocks
  `bs` change.
* `blocksOf` — the blocks an inode names, its indirect block included.
* `SameFile` — two images hold the same file under an inode number: size, block numbers and
  the bytes of the blocks.
* `Footprint.sameFile` — the frame rule: an inode outside the footprint none of whose blocks
  lies in it keeps its file.
* `Sound.disjoint_blocksOf`, `Sound.not_mem_blocksOf` — on a sound image no two inodes share
  a block, and no inode names a free one.
-/

namespace OsAssignments
namespace Ext2

open ByteMemory MachineWord ExitState Ownership

/-! ## Layout -/

/-- What no command changes: the counts, and where the bitmaps and the inode table lie. -/
def Disk.layout (d : Disk) : Nat × Nat × Nat × Nat × Nat :=
  (d.superBlock.sInodesCount, d.superBlock.sBlocksCount, d.groupDesc.bgBlockBitmap,
    d.groupDesc.bgInodeBitmap, d.groupDesc.bgInodeTable)

section Layout

variable {d d' : Disk}

theorem sInodesCount_of_layout (h : d'.layout = d.layout) :
    d'.superBlock.sInodesCount = d.superBlock.sInodesCount := congrArg Prod.fst h

theorem sBlocksCount_of_layout (h : d'.layout = d.layout) :
    d'.superBlock.sBlocksCount = d.superBlock.sBlocksCount := congrArg (fun l => l.2.1) h

theorem validInode_of_layout (h : d'.layout = d.layout) {n : Nat} :
    ValidInode d' n ↔ ValidInode d n := by
  rw [ValidInode, ValidInode, sInodesCount_of_layout h]

theorem validRef_of_layout (h : d'.layout = d.layout) {r : Ref} : ValidRef d' r ↔ ValidRef d r := by
  cases r with
  | slot n i => exact and_congr_left fun _ => validInode_of_layout h
  | indirect n => exact validInode_of_layout h

theorem isMetadata_of_layout (h : d'.layout = d.layout) {b : Nat} :
    d'.IsMetadata b ↔ d.IsMetadata b := by
  simp only [Disk.layout, Prod.mk.injEq] at h
  obtain ⟨h₁, -, h₃, h₄, h₅⟩ := h
  rw [Disk.IsMetadata, Disk.IsMetadata, h₁, h₃, h₄, h₅]

end Layout

/-! ## Footprints -/

/-- From `d` to `d'` only the inodes `ns` and the bytes of the blocks `bs` change.  No pointer
to an indirect block ever changes. -/
structure Footprint (d d' : Disk) (ns bs : Set Nat) : Prop where
  layout : d'.layout = d.layout
  inode : ∀ m, m ∉ ns → d'.inodeTable m = d.inodeTable m
  indirect : ∀ m, indirectBlock d' m = indirectBlock d m
  data : ∀ c, c ∉ bs → AgreeOn d.data d'.data (getBlock c) ext2BlockSize

/-- The blocks an inode names. -/
def blocksOf (d : Disk) (n : Nat) : Set Nat :=
  {c | c ≠ 0 ∧ (c = indirectBlock d n ∨ ∃ i, i < inodeBlockLimit ∧ c = getInodeBlockNumber d n i)}

/-- The indirect block, if there is one. -/
def indirectOf (d : Disk) (n : Nat) : Set Nat := {c | c ≠ 0 ∧ c = indirectBlock d n}

theorem indirectOf_subset (d : Disk) (n : Nat) : indirectOf d n ⊆ blocksOf d n :=
  fun _ hc => ⟨hc.1, .inl hc.2⟩

theorem mem_blocksOf_slot {d : Disk} {n i : Nat} (hi : i < inodeBlockLimit)
    (hne : getInodeBlockNumber d n i ≠ 0) : getInodeBlockNumber d n i ∈ blocksOf d n :=
  ⟨hne, .inr ⟨i, hi, rfl⟩⟩

theorem mem_blocksOf_indirect {d : Disk} {n : Nat} (hne : indirectBlock d n ≠ 0) :
    indirectBlock d n ∈ blocksOf d n := ⟨hne, .inl rfl⟩

/-- The same file: size, block numbers, and the bytes of the blocks. -/
structure SameFile (d d' : Disk) (n : Nat) : Prop where
  size : (d'.inodeTable n).iSize = (d.inodeTable n).iSize
  slots : ∀ i, getInodeBlockNumber d' n i = getInodeBlockNumber d n i
  bytes : ∀ i, getInodeBlockNumber d n i ≠ 0 →
    AgreeOn d.data d'.data (getBlock (getInodeBlockNumber d n i)) ext2BlockSize

theorem SameFile.refl (d : Disk) (n : Nat) : SameFile d d n :=
  ⟨rfl, fun _ => rfl, fun _ _ => AgreeOn.refl _ _ _⟩

theorem SameFile.trans {d d' d'' : Disk} {n : Nat} (h : SameFile d d' n) (h' : SameFile d' d'' n) :
    SameFile d d'' n := by
  refine ⟨h'.size.trans h.size, fun i => (h'.slots i).trans (h.slots i), fun i hne => ?_⟩
  have hbytes := h'.bytes i (by rwa [h.slots])
  rw [h.slots] at hbytes
  exact (h.bytes i hne).trans hbytes

theorem SameFile.symm {d d' : Disk} {n : Nat} (h : SameFile d d' n) : SameFile d' d n := by
  refine ⟨h.size.symm, fun i => (h.slots i).symm, fun i hne => ?_⟩
  rw [h.slots] at hne ⊢
  exact (h.bytes i hne).symm

namespace Footprint

variable {d d' d'' : Disk} {ns ns' bs bs' : Set Nat} {m : Nat}

theorem refl (d : Disk) : Footprint d d ∅ ∅ :=
  ⟨rfl, fun _ _ => rfl, fun _ => rfl, fun _ _ => AgreeOn.refl _ _ _⟩

theorem mono (h : Footprint d d' ns bs) (hn : ns ⊆ ns') (hb : bs ⊆ bs') :
    Footprint d d' ns' bs' :=
  ⟨h.layout, fun m hm => h.inode m fun hmem => hm (hn hmem), h.indirect,
    fun c hc => h.data c fun hmem => hc (hb hmem)⟩

theorem trans (h : Footprint d d' ns bs) (h' : Footprint d' d'' ns bs) :
    Footprint d d'' ns bs :=
  ⟨h'.layout.trans h.layout, fun m hm => (h'.inode m hm).trans (h.inode m hm),
    fun m => (h'.indirect m).trans (h.indirect m), fun c hc => (h.data c hc).trans (h'.data c hc)⟩

/-- An inode outside the footprint whose indirect block is outside keeps its slots. -/
theorem slots (h : Footprint d d' ns bs) (hm : m ∉ ns)
    (hind : indirectBlock d m ≠ 0 → indirectBlock d m ∉ bs) (i : Nat) :
    getInodeBlockNumber d' m i = getInodeBlockNumber d m i := by
  apply getInodeBlockNumber_congr
  · rw [h.inode m hm]
  · exact fun hne => h.data _ (hind hne)

/-- **The frame rule.** -/
theorem sameFile (h : Footprint d d' ns bs) (hm : m ∉ ns) (hdisj : Disjoint (blocksOf d m) bs) :
    SameFile d d' m := by
  have hout : ∀ c ∈ blocksOf d m, c ∉ bs := fun c hc => Set.disjoint_left.mp hdisj hc
  refine ⟨by rw [h.inode m hm], h.slots hm fun hne => hout _ (mem_blocksOf_indirect hne),
    fun i hne => h.data _ (hout _ ?_)⟩
  by_cases hi : i < inodeBlockLimit
  · exact mem_blocksOf_slot hi hne
  · exact absurd (getInodeBlockNumber_past d m (by omega)) hne

end Footprint

theorem modifyInode_footprint (d : Disk) (n : Nat) (f : Inode → Inode)
    (hf : ∀ i, (f i).iBlock = i.iBlock) : Footprint d (d.modifyInode n f) {n} ∅ := by
  refine ⟨rfl, fun m hm => d.modifyInode_inodeTable_of_ne f hm, fun m => ?_,
    fun _ _ => AgreeOn.refl _ _ _⟩
  rw [indirectBlock, d.modifyInode_inodeTable]
  split
  · rename_i heq
    rw [hf, heq, indirectBlock]
  · rfl

theorem SlotsOnly.footprint {d d' : Disk} {n : Nat} {bs : List Nat} (h : SlotsOnly d d' n bs) :
    Footprint d d' {n} ({c | c ∈ bs} ∪ indirectOf d n) := by
  refine ⟨?_, h.other, h.indirectBlock_eq, fun c hc => h.data c (fun hmem => hc (.inl hmem)) ?_⟩
  · rw [Disk.layout, Disk.layout, h.superBlock, h.groupDesc]
  · by_cases hzero : c = 0
    · exact .inl hzero
    · exact .inr fun heq => hc (.inr ⟨hzero, heq⟩)

theorem withData_footprint (d : Disk) {mem : Memory} {bs : Set Nat}
    (h : ∀ c, c ∉ bs → AgreeOn d.data mem (getBlock c) ext2BlockSize) :
    Footprint d { d with data := mem } ∅ bs :=
  ⟨rfl, fun _ _ => rfl, fun _ => rfl, h⟩

/-! ## Blocks of a sound image -/

/-- The inode a place belongs to. -/
def Ref.inode : Ref → Nat
  | .slot n _ => n
  | .indirect n => n

/-- The blocks an inode names are stored in its places. -/
theorem exists_ref_of_mem_blocksOf {d : Disk} {n c : Nat} (hn : ValidInode d n)
    (hc : c ∈ blocksOf d n) : ∃ r : Ref, r.inode = n ∧ ValidRef d r ∧ stored d r = c := by
  obtain ⟨-, rfl | ⟨i, hi, rfl⟩⟩ := hc
  · exact ⟨.indirect n, rfl, hn, rfl⟩
  · exact ⟨.slot n i, rfl, ⟨hn, hi⟩, rfl⟩

namespace Sound

variable {d : Disk} {n m c : Nat}

theorem inUse_of_mem (h : Sound d) (hn : ValidInode d n) (hc : c ∈ blocksOf d n) : InUse d c := by
  obtain ⟨r, -, hr, rfl⟩ := exists_ref_of_mem_blocksOf hn hc
  exact h.stored_inUse hr hc.1

/-- No two inodes share a block. -/
theorem disjoint_blocksOf (h : Sound d) (hn : ValidInode d n) (hm : ValidInode d m) (hne : n ≠ m) :
    Disjoint (blocksOf d n) (blocksOf d m) := by
  rw [Set.disjoint_left]
  intro c hcn hcm
  obtain ⟨r, rfl, hr, hrc⟩ := exists_ref_of_mem_blocksOf hn hcn
  obtain ⟨s, rfl, hs, hsc⟩ := exists_ref_of_mem_blocksOf hm hcm
  have hrs := h.refs.inj r s hr hs (hrc ▸ hcn.1) (hrc.trans hsc.symm)
  exact hne (congrArg Ref.inode hrs)

/-- No inode names a free block. -/
theorem not_mem_blocksOf (h : Sound d) (hn : ValidInode d n) (hc : getBlockUsage d c = false) :
    c ∉ blocksOf d n := by
  intro hmem
  have hmarked := (h.inUse_of_mem hn hmem).marked
  rw [hc] at hmarked
  cases hmarked

end Sound

end Ext2
end OsAssignments
