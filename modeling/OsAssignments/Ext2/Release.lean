import OsAssignments.Ext2.InodeSound

/-!
# Slots given back

What the releases of `free_inode` and `delete_child_entry` do to the counts, to the bitmap and
to the slots.  Nothing is asked of the block numbers but that they are 32-bit words: the
releases may hit reserved blocks, after which the image is not sound any more.

* `Raised` — the count of free blocks goes up, and no other count.
* `SlotsReleased d d' n l` — the slots `l` of inode `n` are cleared and their blocks free.
* `slotsReleased_releaseEntryBlock`, `slotsReleased_foldl` — one release, and the loop of
  `free_inode`.
* `FreedInode`, `freeInode_freed` — what `free_inode` does.
-/

namespace OsAssignments
namespace Ext2

open ByteMemory MachineWord

/-- There are `k` free blocks more, and every other count is the same. -/
structure Raised (d d' : Disk) (k : Nat) : Prop where
  superBlock : d'.superBlock
    = { d.superBlock with sFreeBlocksCount := d.superBlock.sFreeBlocksCount + k }
  groupDesc : d'.groupDesc
    = { d.groupDesc with bgFreeBlocksCount := d.groupDesc.bgFreeBlocksCount + k }

/-- The counters can take `k` blocks more. -/
structure BlockCountersHold (d : Disk) (k : Nat) : Prop where
  superBlock : d.superBlock.sFreeBlocksCount + k < 2 ^ 32
  groupDesc : d.groupDesc.bgFreeBlocksCount + k < 2 ^ 16

/-- The counters can take one inode more. -/
structure InodeCountersHold (d : Disk) : Prop where
  superBlock : d.superBlock.sFreeInodesCount + 1 < 2 ^ 32
  groupDesc : d.groupDesc.bgFreeInodesCount + 1 < 2 ^ 16

/-- The blocks in the slots `l`. -/
def heldBlocks (d : Disk) (n : Nat) (l : List Nat) : List Nat :=
  (l.map (getInodeBlockNumber d n)).filter fun b => decide (b ≠ 0)

/-- The slots `l` of inode `n` are cleared and their blocks free. -/
structure SlotsReleased (d d' : Disk) (n : Nat) (l : List Nat) : Prop where
  raised : Raised d d' (heldBlocks d n l).length
  footprint : Footprint d d' {n} (indirectOf d n)
  self : ∃ iBlock, d'.inodeTable n = { d.inodeTable n with iBlock := iBlock }
  inodeBitmap : d'.inodeBitmap = d.inodeBitmap
  slots : ∀ j, getInodeBlockNumber d' n j = if j ∈ l then 0 else getInodeBlockNumber d n j
  usage : ∀ b, b < 2 ^ 32 →
    getBlockUsage d' b = (getBlockUsage d b && decide (b ∉ heldBlocks d n l))

section

variable {d d' d'' : Disk} {n : Nat} {l l' : List Nat}

/-! ## Counts -/

theorem Raised.trans {k k' : Nat} (h : Raised d d' k) (h' : Raised d' d'' k') :
    Raised d d'' (k + k') := by
  refine ⟨?_, ?_⟩
  · rw [h'.superBlock, h.superBlock, Nat.add_assoc]
  · rw [h'.groupDesc, h.groupDesc, Nat.add_assoc]

theorem BlockCountersHold.after {k k' : Nat} (h : BlockCountersHold d (k + k')) (hr : Raised d d' k) :
    BlockCountersHold d' k' := by
  refine ⟨?_, ?_⟩
  · rw [hr.superBlock, Nat.add_assoc]
    exact h.superBlock
  · rw [hr.groupDesc, Nat.add_assoc]
    exact h.groupDesc

theorem BlockCountersHold.mono {k k' : Nat} (h : BlockCountersHold d k) (hle : k' ≤ k) :
    BlockCountersHold d k' := by
  obtain ⟨h₁, h₂⟩ := h
  exact ⟨by omega, by omega⟩

theorem freeBlock_raised (b : Nat) (h : BlockCountersHold d 1) : Raised d (freeBlock d b) 1 := by
  have h₁ : wrap 32 (d.superBlock.sFreeBlocksCount + 1 : Nat)
      = d.superBlock.sFreeBlocksCount + 1 := wrap_of_lt h.superBlock
  have h₂ : wrap 16 (d.groupDesc.bgFreeBlocksCount + 1 : Nat)
      = d.groupDesc.bgFreeBlocksCount + 1 := wrap_of_lt h.groupDesc
  push_cast at h₁ h₂
  refine ⟨?_, ?_⟩
  · simp only [freeBlock, setBlockUsage, increaseFreeBlocksCount, h₁]
  · simp only [freeBlock, setBlockUsage, increaseFreeBlocksCount, h₂]

/-- The counters of a sound image are far from their limits. -/
theorem Counted.blockCountersHold (h : Counted d) : BlockCountersHold d 1024 := by
  have hlt := h.card_freeBlocks_lt
  refine ⟨?_, ?_⟩
  · rw [h.sFreeBlocks]
    omega
  · rw [h.bgFreeBlocks]
    omega

theorem Counted.inodeCountersHold (h : Counted d) : InodeCountersHold d := by
  have hlt := h.card_freeInodes_lt
  refine ⟨?_, ?_⟩
  · rw [h.sFreeInodes]
    omega
  · rw [h.bgFreeInodes]
    omega

/-! ## Blocks -/

theorem mem_heldBlocks {b : Nat} :
    b ∈ heldBlocks d n l ↔ b ≠ 0 ∧ ∃ i ∈ l, getInodeBlockNumber d n i = b := by
  rw [heldBlocks, List.mem_filter, List.mem_map, decide_eq_true_iff, and_comm]

theorem heldBlocks_append (d : Disk) (n : Nat) (l l' : List Nat) :
    heldBlocks d n (l ++ l') = heldBlocks d n l ++ heldBlocks d n l' := by
  rw [heldBlocks, List.map_append, List.filter_append, heldBlocks, heldBlocks]

theorem heldBlocks_congr
    (h : ∀ i ∈ l, getInodeBlockNumber d' n i = getInodeBlockNumber d n i) :
    heldBlocks d' n l = heldBlocks d n l := by
  rw [heldBlocks, heldBlocks, List.map_congr_left h]

theorem length_heldBlocks_le (d : Disk) (n : Nat) (l : List Nat) :
    (heldBlocks d n l).length ≤ l.length := by
  have := List.length_filter_le (fun b => decide (b ≠ 0)) (l.map (getInodeBlockNumber d n))
  rwa [List.length_map] at this

/-! ## Releases -/

theorem SlotsReleased.refl (d : Disk) (n : Nat) : SlotsReleased d d n [] :=
  ⟨⟨rfl, rfl⟩, (Footprint.refl d).mono (Set.empty_subset _) (Set.empty_subset _), ⟨_, rfl⟩, rfl,
    fun j => by simp, fun b _ => by simp [heldBlocks]⟩

/-- Releases of slots that are apart add up. -/
theorem SlotsReleased.append (h : SlotsReleased d d' n l) (h' : SlotsReleased d' d'' n l')
    (hapart : ∀ i ∈ l', i ∉ l) : SlotsReleased d d'' n (l ++ l') := by
  have hheld : heldBlocks d' n l' = heldBlocks d n l' :=
    heldBlocks_congr fun i hi => by rw [h.slots, if_neg (hapart i hi)]
  obtain ⟨iBlock, hself⟩ := h.self
  obtain ⟨iBlock', hself'⟩ := h'.self
  have hind : indirectOf d' n = indirectOf d n := by rw [indirectOf, h.footprint.indirect, indirectOf]
  refine ⟨?_, h.footprint.trans (hind ▸ h'.footprint), ⟨iBlock', by rw [hself', hself]⟩,
    h'.inodeBitmap.trans h.inodeBitmap, fun j => ?_, fun b hb => ?_⟩
  · have hraised := h.raised.trans h'.raised
    rwa [hheld, ← List.length_append, ← heldBlocks_append] at hraised
  · rw [h'.slots, h.slots]
    by_cases hj : j ∈ l <;> by_cases hj' : j ∈ l' <;> simp [hj, hj']
  · rw [h'.usage b hb, h.usage b hb, hheld, heldBlocks_append, Bool.and_assoc]
    congr 1
    by_cases h₁ : b ∈ heldBlocks d n l <;> by_cases h₂ : b ∈ heldBlocks d n l' <;> simp [h₁, h₂]

/-- A release of the block in slot `i`. -/
theorem slotsReleased_releaseEntryBlock {i : Nat} (hne : getInodeBlockNumber d n i ≠ 0)
    (hword : getInodeBlockNumber d n i < 2 ^ 32) (hroom : BlockCountersHold d 1) :
    SlotsReleased d (releaseEntryBlock d n i (getInodeBlockNumber d n i)) n [i] := by
  have hwrite := setInodeBlockNumber_slotsOnly d n i 0 []
  have hatt : Attachable d n i := by
    by_contra hnot
    exact hne (getInodeBlockNumber_of_not_attachable hnot)
  have hheld : heldBlocks d n [i] = [getInodeBlockNumber d n i] := by
    rw [heldBlocks, List.map_singleton, List.filter_cons_of_pos (by simpa using hne), List.filter_nil]
  have hraised := freeBlock_raised (getInodeBlockNumber d n i)
    ⟨hwrite.superBlock ▸ hroom.superBlock, hwrite.groupDesc ▸ hroom.groupDesc⟩
  refine ⟨⟨?_, ?_⟩, ?_, hwrite.self, hwrite.inodeBitmap, fun j => ?_, fun b hb => ?_⟩
  · rw [hheld, releaseEntryBlock, hraised.superBlock, hwrite.superBlock]
    rfl
  · rw [hheld, releaseEntryBlock, hraised.groupDesc, hwrite.groupDesc]
    rfl
  · have hslots : Footprint d (setInodeBlockNumber d n i 0) {n} (indirectOf d n) :=
      hwrite.footprint.mono (le_refl _) (by simp)
    exact hslots.trans (freeBlock_footprint.mono (Set.empty_subset _) (Set.empty_subset _))
  · have hset := getInodeBlockNumber_set_self d n i j (show 0 < 2 ^ 32 by norm_num)
    simp only [hatt, and_true] at hset
    simp only [List.mem_singleton]
    rw [← hset]
    exact freeBlock_footprint.slots (Set.notMem_empty _) (fun _ => Set.notMem_empty _) j
  · rw [releaseEntryBlock, getBlockUsage_freeBlock hword hb, hwrite.getBlockUsage_eq, hheld]
    by_cases heq : b = getInodeBlockNumber d n i <;> simp [heq]

/-- One round of the loop of `free_inode`. -/
theorem slotsReleased_releaseSlot {i : Nat} (hword : getInodeBlockNumber d n i < 2 ^ 32)
    (hroom : BlockCountersHold d 1) : SlotsReleased d (releaseSlot n d i) n [i] := by
  rw [releaseSlot_eq]
  split
  · rename_i hzero
    have hheld : heldBlocks d n [i] = [] := by
      rw [heldBlocks, List.map_singleton, List.filter_cons_of_neg (by simpa using hzero),
        List.filter_nil]
    refine ⟨by rw [hheld]; exact ⟨rfl, rfl⟩,
      (Footprint.refl d).mono (Set.empty_subset _) (Set.empty_subset _), ⟨_, rfl⟩, rfl,
      fun j => ?_, fun b _ => by simp [hheld]⟩
    split
    · rename_i hj
      rw [List.mem_singleton.mp hj, hzero]
    · rfl
  · rename_i hne
    exact slotsReleased_releaseEntryBlock hne hword hroom

/-- **The loop of `free_inode`.** -/
theorem slotsReleased_foldl (hnodup : l.Nodup) (hword : ∀ i ∈ l, getInodeBlockNumber d n i < 2 ^ 32)
    (hroom : BlockCountersHold d l.length) : SlotsReleased d (l.foldl (releaseSlot n) d) n l := by
  induction l generalizing d with
  | nil => exact SlotsReleased.refl d n
  | cons i l ih =>
    obtain ⟨hi, hnodup⟩ := List.nodup_cons.mp hnodup
    rw [List.length_cons, Nat.add_comm] at hroom
    have hone : SlotsReleased d (releaseSlot n d i) n [i] :=
      slotsReleased_releaseSlot (hword i (by simp)) (hroom.mono (by omega))
    have hslot : ∀ j ∈ l, getInodeBlockNumber (releaseSlot n d i) n j = getInodeBlockNumber d n j := by
      intro j hj
      rw [hone.slots, if_neg]
      rw [List.mem_singleton]
      rintro rfl
      exact hi hj
    have hle := length_heldBlocks_le d n [i]
    have hrest := ih hnodup (fun j hj => by rw [hslot j hj]; exact hword j (by simp [hj]))
      ((hroom.mono (by simpa using hle)).after hone.raised)
    exact hone.append hrest fun j hj hmem => hi (List.mem_singleton.mp hmem ▸ hj)

/-! ## Freeing an inode -/

/-- The blocks in the slots of an inode. -/
def slotBlocks (d : Disk) (n : Nat) : List Nat := heldBlocks d n (List.range inodeBlockLimit)

theorem mem_slotBlocks {b : Nat} : b ∈ slotBlocks d n ↔
    b ≠ 0 ∧ ∃ i, i < inodeBlockLimit ∧ getInodeBlockNumber d n i = b := by
  simp only [slotBlocks, mem_heldBlocks, List.mem_range]

/-- An inode names the blocks in its slots and its indirect block. -/
theorem mem_blocksOf_iff {b : Nat} : b ∈ blocksOf d n ↔ b ∈ slotBlocks d n ∨ b ∈ indirectOf d n := by
  rw [mem_slotBlocks, blocksOf, indirectOf, Set.mem_ofPred_eq, Set.mem_ofPred_eq]
  constructor
  · rintro ⟨hne, hind | ⟨i, hi, heq⟩⟩
    · exact .inr ⟨hne, hind⟩
    · exact .inl ⟨hne, i, hi, heq.symm⟩
  · rintro (⟨hne, i, hi, heq⟩ | ⟨hne, hind⟩)
    · exact ⟨hne, .inr ⟨i, hi, heq.symm⟩⟩
    · exact ⟨hne, .inl hind⟩

/-- On a sound image the slots hold different blocks. -/
theorem Sound.nodup_slotBlocks (h : Sound d) (hn : ValidInode d n) : (slotBlocks d n).Nodup := by
  have hinj : ∀ l : List Nat, l.Nodup → (∀ i ∈ l, i < inodeBlockLimit) →
      (heldBlocks d n l).Nodup := by
    intro l hl hlt
    induction l with
    | nil => exact List.nodup_nil
    | cons i l ih =>
      obtain ⟨hi, hl⟩ := List.nodup_cons.mp hl
      have ih := ih hl fun j hj => hlt j (by simp [hj])
      rw [heldBlocks, List.map_cons, List.filter_cons]
      split
      · rename_i hne
        have hne : getInodeBlockNumber d n i ≠ 0 := by simpa using hne
        refine List.nodup_cons.mpr ⟨fun hmem => ?_, ih⟩
        obtain ⟨-, j, hj, heq⟩ := mem_heldBlocks.mp hmem
        have hsame := h.refs.inj (.slot n i) (.slot n j) ⟨hn, hlt i (by simp)⟩
          ⟨hn, hlt j (by simp [hj])⟩ hne heq.symm
        injection hsame with _ hij
        exact hi (hij ▸ hj)
      · exact ih
  exact hinj _ List.nodup_range fun i hi => List.mem_range.mp hi

/-- Inode `n` and the blocks in its slots are free. -/
structure FreedInode (d d' : Disk) (n : Nat) : Prop where
  superBlock : d'.superBlock = { d.superBlock with
    sFreeBlocksCount := d.superBlock.sFreeBlocksCount + (slotBlocks d n).length
    sFreeInodesCount := d.superBlock.sFreeInodesCount + 1 }
  groupDesc : d'.groupDesc = { d.groupDesc with
    bgFreeBlocksCount := d.groupDesc.bgFreeBlocksCount + (slotBlocks d n).length
    bgFreeInodesCount := d.groupDesc.bgFreeInodesCount + 1 }
  footprint : Footprint d d' {n} (indirectOf d n)
  fields : ∃ dtime iBlock, d'.inodeTable n = { d.inodeTable n with
    iDtime := dtime, iSize := 0, iBlocks := 0, iBlock := iBlock }
  inodeUsage : ∀ m, m < 2 ^ 32 →
    getInodeUsage d' m = if m = n then false else getInodeUsage d m
  blockUsage : ∀ b, b < 2 ^ 32 →
    getBlockUsage d' b = (getBlockUsage d b && decide (b ∉ slotBlocks d n))

theorem unclaimInode_counts (now : Nat) (h : InodeCountersHold d) :
    (unclaimInode now d n).superBlock = { d.superBlock with
      sFreeInodesCount := d.superBlock.sFreeInodesCount + 1 } ∧
    (unclaimInode now d n).groupDesc = { d.groupDesc with
      bgFreeInodesCount := d.groupDesc.bgFreeInodesCount + 1 } := by
  have h₁ : wrap 32 (d.superBlock.sFreeInodesCount + 1 : Nat)
      = d.superBlock.sFreeInodesCount + 1 := wrap_of_lt h.superBlock
  have h₂ : wrap 16 (d.groupDesc.bgFreeInodesCount + 1 : Nat)
      = d.groupDesc.bgFreeInodesCount + 1 := wrap_of_lt h.groupDesc
  push_cast at h₁ h₂
  refine ⟨?_, ?_⟩
  · simp only [unclaimInode, setInodeUsage, increaseFreeInodesCount, Disk.modifyInode_superBlock, h₁]
  · simp only [unclaimInode, setInodeUsage, increaseFreeInodesCount, Disk.modifyInode_groupDesc, h₂]

theorem Sound.slot_lt_two_pow (h : Sound d) (hn : ValidInode d n) {i : Nat}
    (hi : i < inodeBlockLimit) : getInodeBlockNumber d n i < 2 ^ 32 := by
  by_cases hzero : getInodeBlockNumber d n i = 0
  · rw [hzero]
    norm_num
  · exact (h.stored_inUse (r := .slot n i) ⟨hn, hi⟩ hzero).lt_two_pow h.toCounted

/-- **`free_inode`** gives back the inode and the blocks in its slots. -/
theorem freeInode_freed (now : Nat) (hn : n < 2 ^ 32)
    (hword : ∀ i, i < inodeBlockLimit → getInodeBlockNumber d n i < 2 ^ 32)
    (hblocks : BlockCountersHold d inodeBlockLimit) (hinodes : InodeCountersHold d) :
    FreedInode d (freeInode now d n) n := by
  obtain ⟨hsuper, hgroup⟩ := unclaimInode_counts (n := n) now hinodes
  have hslot : ∀ i, getInodeBlockNumber (unclaimInode now d n) n i = getInodeBlockNumber d n i :=
    fun i => stored_unclaimInode now (.slot n i)
  have hblocks' : BlockCountersHold (unclaimInode now d n)
      (List.range inodeBlockLimit).reverse.length := by
    rw [List.length_reverse, List.length_range]
    refine ⟨?_, ?_⟩
    · rw [hsuper]
      exact hblocks.superBlock
    · rw [hgroup]
      exact hblocks.groupDesc
  have hloop := slotsReleased_foldl (n := n)
    (List.nodup_reverse.mpr (List.nodup_range (n := inodeBlockLimit)))
    (fun i hi => by rw [hslot]; exact hword i (by simpa using hi)) hblocks'
  rw [← freeInode_eq] at hloop
  have hheld : heldBlocks (unclaimInode now d n) n (List.range inodeBlockLimit).reverse
      = (slotBlocks d n).reverse := by
    rw [heldBlocks_congr fun i _ => hslot i, heldBlocks, List.map_reverse, List.filter_reverse,
      slotBlocks, heldBlocks]
  have hfoot := unclaimInode_footprint (d := d) (n := n) now
  have hind : indirectOf (unclaimInode now d n) n = indirectOf d n := by
    rw [indirectOf, hfoot.indirect, indirectOf]
  have hfields : (unclaimInode now d n).inodeTable n
      = { d.inodeTable n with iDtime := now, iSize := 0, iBlocks := 0 } :=
    d.modifyInode_inodeTable_self n fun i => { i with iDtime := now, iSize := 0, iBlocks := 0 }
  obtain ⟨iBlock, hself⟩ := hloop.self
  refine ⟨?_, ?_, ?_, ⟨now, iBlock, ?_⟩, fun m hm => ?_, fun b hb => ?_⟩
  · rw [hloop.raised.superBlock, hsuper, hheld, List.length_reverse]
  · rw [hloop.raised.groupDesc, hgroup, hheld, List.length_reverse]
  · exact (hfoot.mono (le_refl _) (Set.empty_subset _)).trans (hind ▸ hloop.footprint)
  · rw [hself, hfields]
  · rw [getInodeUsage, hloop.inodeBitmap]
    exact getInodeUsage_unclaimInode now hn hm
  · rw [hloop.usage b hb, hheld]
    simp only [List.mem_reverse]
    rfl

end

end Ext2
end OsAssignments
