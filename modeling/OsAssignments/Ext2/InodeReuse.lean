import OsAssignments.Ext2.Consistent
import OsAssignments.Ext2.InodeSound

/-!
# What is left in a free inode

`allocate_inode` clears the slots of the inode it finds through `set_inode_block_number`.
That function follows the pointer to the indirect block, and none of the slots is that
pointer.  So what a free entry of the inode table holds there matters.

* `LiveSound` — the allocation state is sound as far as the inodes in use go; the entries of
  free inodes hold anything.
* `AllocatesOnly` — nothing but the inode allocated has changed, and it has no block.
* `allocateInode_clean_iff` — `allocate_inode` does that exactly if the first free inode has
  no pointer to an indirect block.
-/

namespace OsAssignments
namespace Ext2

open ByteMemory MachineWord ExitState Ownership

/-- A place of an inode in use where a block number is stored. -/
def LiveRef (d : Disk) (r : Ref) : Prop := ValidRef d r ∧ getInodeUsage d r.inode = true

/-- The counters are exact; the blocks of the inodes in use are marked used, and none of them
is referenced twice. -/
structure LiveSound (d : Disk) : Prop extends Counted d where
  refs : Owned 0 (LiveRef d) (InUse d) (stored d)

theorem Sound.liveSound {d : Disk} (h : Sound d) : LiveSound d :=
  ⟨h.toCounted, ⟨fun r hr => h.refs.used_of r hr.1, fun r s hr hs => h.refs.inj r s hr.1 hs.1⟩⟩

/-- From `d` to `d'` the two counters of free inodes, the bit of inode `n` and its entry of
the inode table have changed; it was free, and it has no block. -/
structure AllocatesOnly (d d' : Disk) (n : Nat) : Prop where
  unreserved : lastReservedInode < n
  free : n ∈ freeInodes d
  superBlock : d'.superBlock
    = { d.superBlock with sFreeInodesCount := d.superBlock.sFreeInodesCount - 1 }
  groupDesc : d'.groupDesc
    = { d.groupDesc with bgFreeInodesCount := d.groupDesc.bgFreeInodesCount - 1 }
  blockBitmap : d'.blockBitmap = d.blockBitmap
  inodeBitmap : d'.inodeBitmap = setBitmapVal d.inodeBitmap (n - 1) true
  inodes : ∀ m, m ≠ n → d'.inodeTable m = d.inodeTable m
  bytes : d'.data = d.data
  empty : ∀ i, i ≤ indirect1Index → (d'.inodeTable n).iBlock i = 0

section

variable {d : Disk} {n : Nat}

/-- No file of an inode in use is touched. -/
theorem AllocatesOnly.sameFile {d' : Disk} (h : AllocatesOnly d d' n) {m : Nat}
    (hm : InodeInUse d m) : SameFile d d' m := by
  have hne : m ≠ n := by
    rintro rfl
    have hfree := (mem_freeInodes.mp h.free).2
    rw [hm.2] at hfree
    cases hfree
  have hinode := h.inodes m hne
  refine ⟨by rw [hinode], fun i => ?_, fun i _ => ?_⟩
  · refine getInodeBlockNumber_congr (by rw [hinode]) (fun _ => ?_) i
    rw [h.bytes]
    exact AgreeOn.refl _ _ _
  · rw [h.bytes]
    exact AgreeOn.refl _ _ _

/-- The pointer to the indirect block is what it was. -/
theorem indirectBlock_claimInode (d : Disk) (n : Nat) :
    indirectBlock (claimInode d n) n = indirectBlock d n := claimInode_footprint.indirect n

/-- Without an indirect block no byte is written. -/
theorem claimInode_data (hind : indirectBlock d n = 0) : (claimInode d n).data = d.data := by
  funext a
  have hdata := (claimInode_slotsOnly d n).data (a / ext2BlockSize) List.not_mem_nil
  have hzero : a / ext2BlockSize = 0 ∨ a / ext2BlockSize ≠ indirectBlock d n := by
    rw [hind]
    exact Classical.em _
  refine hdata hzero a ?_ ?_
  · rw [getBlock, ext2BlockSize_eq]
    omega
  · rw [getBlock, ext2BlockSize_eq]
    omega

theorem Counted.claimInode_allocatesOnly (h : Counted d) (hn : n ∈ freeInodes d)
    (hind : indirectBlock d n = 0) : AllocatesOnly d (claimInode d n) n := by
  have hslots := claimInode_slotsOnly d n
  have hcard : 0 < (freeInodes d).card := Finset.card_pos.mpr ⟨n, hn⟩
  have hbound := h.card_freeInodes_lt
  have hgt := h.lt_of_free hn
  have hword := h.validInode_lt (mem_freeInodes.mp hn).1
  have hless : ((freeInodes d).card : Int) + -1 = ((freeInodes d).card - 1 : Nat) := by omega
  refine ⟨hgt, hn, ?_, ?_, hslots.blockBitmap, ?_, hslots.other, claimInode_data hind, ?_⟩
  · rw [hslots.superBlock]
    simp only [setInodeUsage, increaseFreeInodesCount, h.sFreeInodes, hless]
    rw [wrap_of_lt (by omega)]
  · rw [hslots.groupDesc]
    simp only [setInodeUsage, increaseFreeInodesCount, h.bgFreeInodes, hless]
    rw [wrap_of_lt (by omega)]
  · have hbit : wrap 32 (n - 1 : Int) = n - 1 := by
      rw [show (n : Int) - 1 = (n - 1 : Nat) by omega, wrap_of_lt (by omega)]
    rw [hslots.inodeBitmap]
    simp only [setInodeUsage, increaseFreeInodesCount, hbit]
  · intro i hi
    rcases Nat.lt_or_eq_of_le hi with hlt | rfl
    · rw [← getInodeBlockNumber_direct _ _ hlt]
      exact getInodeBlockNumber_claimInode d n i
    · exact (indirectBlock_claimInode d n).trans hind

/-! ## The allocation -/

/-- If there is a free inode, `allocate_inode` returns one and changes nothing else. -/
def AllocatesCleanly (d : Disk) : Prop :=
  (freeInodes d).Nonempty → ∃ n d', allocateInode d = .done n d' ∧ AllocatesOnly d d' n

/-- The first free inode has no pointer to an indirect block. -/
def FirstFreeIsClean (d : Disk) : Prop :=
  ∀ n, IsLeast {m | m ∈ freeInodes d} n → indirectBlock d n = 0

/-- A pointer that is left in the first free inode stays there. -/
theorem LiveSound.pointer_left (h : LiveSound d) (hn : IsLeast {m | m ∈ freeInodes d} n)
    (hind : indirectBlock d n ≠ 0) : ¬ AllocatesCleanly d := by
  intro hclean
  obtain ⟨m, d', hrun, honly⟩ := hclean ⟨n, hn.1⟩
  rcases h.toCounted.allocateInode_least with ⟨hnone, -⟩ | ⟨n', hn', -, hdone⟩
  · exact absurd hn.1 (by rw [hnone]; exact Finset.notMem_empty n)
  obtain rfl : n' = n := hn'.unique hn
  rw [hdone, Outcome.done.injEq] at hrun
  obtain ⟨rfl, rfl⟩ := hrun
  exact hind ((indirectBlock_claimInode d n').symm.trans (honly.empty _ (Nat.le_refl _)))

/-- **`allocate_inode` changes only the inode it allocates** exactly if the first free inode
has no pointer to an indirect block. -/
theorem allocateInode_clean_iff (h : LiveSound d) : AllocatesCleanly d ↔ FirstFreeIsClean d := by
  constructor
  · intro hclean n hn
    by_contra hind
    exact h.pointer_left hn hind hclean
  · intro hfirst hfree
    rcases h.toCounted.allocateInode_least with ⟨hnone, -⟩ | ⟨n, hn, -, hdone⟩
    · exact absurd hnone hfree.ne_empty
    · exact ⟨n, _, hdone, h.toCounted.claimInode_allocatesOnly hn.1 (hfirst n hn)⟩

end

theorem allocateInode_clean_example : AllocatesCleanly smallImage := by
  refine (allocateInode_clean_iff smallImage_consistent.sound.liveSound).mpr fun n hn => ?_
  have hvalid : ValidInode smallImage n := (mem_freeInodes.mp hn.1).1
  by_contra hne
  exact absurd (stored_smallDisk (r := .indirect n) hvalid hne).1 (by simp)

/-- In the free inode 13 there is a pointer to block 23, the block of the root directory. -/
def stalePointerImage : Disk :=
  smallImage.modifyInode 13 fun i => { i with iBlock := fun k => if k = 12 then 23 else i.iBlock k }

theorem stalePointerImage_liveSound : LiveSound stalePointerImage := by
  have h := smallImage_consistent.sound
  have hacc : SameAccounts smallImage stalePointerImage := modifyInode_sameAccounts _ _ _
  have hstored : ∀ r, LiveRef stalePointerImage r →
      ValidRef smallImage r ∧ stored stalePointerImage r = stored smallImage r := by
    intro r hr
    have hne : r.inode ≠ 13 := by
      intro heq
      have hused := hr.2
      rw [heq] at hused
      exact absurd hused (by decide)
    have hinode : stalePointerImage.inodeTable r.inode = smallImage.inodeTable r.inode :=
      Disk.modifyInode_inodeTable_of_ne _ _ hne
    refine ⟨(validRef_of_layout hacc.layout).mp hr.1, ?_⟩
    cases r with
    | slot m k =>
      exact getInodeBlockNumber_congr (congrArg Inode.iBlock hinode) (fun _ => AgreeOn.refl _ _ _) k
    | indirect m => exact congrArg (fun i : Inode => i.iBlock indirect1Index) hinode
  refine ⟨hacc.counted h.toCounted, ⟨fun r hr hne => ?_, fun r s hr hs hne heq => ?_⟩⟩
  · obtain ⟨hvalid, hsame⟩ := hstored r hr
    rw [hsame] at hne ⊢
    exact hacc.inUse (h.stored_inUse hvalid hne)
  · obtain ⟨hvalid, hsame⟩ := hstored r hr
    obtain ⟨hvalid', hsame'⟩ := hstored s hs
    rw [hsame] at hne
    exact h.refs.inj r s hvalid hvalid' hne (by rw [← hsame, ← hsame', heq])

/-- The allocation of inode 13 keeps the pointer, and clears the root directory through it. -/
theorem stalePointerImage_not_clean : LiveSound stalePointerImage ∧
    ¬ AllocatesCleanly stalePointerImage := by
  have hleast : IsLeast {m | m ∈ freeInodes stalePointerImage} 13 := by
    refine ⟨mem_freeInodes.mpr ⟨⟨by decide, by decide⟩, by decide⟩, fun m hm => ?_⟩
    have hgt := stalePointerImage_liveSound.toCounted.lt_of_free hm
    have hne : m ≠ 12 := by
      rintro rfl
      exact absurd (mem_freeInodes.mp hm).2 (by decide)
    rw [lastReservedInode] at hgt
    omega
  exact ⟨stalePointerImage_liveSound, stalePointerImage_liveSound.pointer_left hleast (by decide)⟩

end Ext2
end OsAssignments
