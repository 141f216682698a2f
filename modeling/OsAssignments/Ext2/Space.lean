import OsAssignments.Ext2.LinkRun
import OsAssignments.Ext2.Release

/-!
# Taking space and giving it back

What a command takes from the free blocks and the free inodes, as a relation between the images
before and after it.  A release is the same relation read backwards, so what is taken and given
back again leaves the accounts as they were.

* `SameSpace` — the same bitmaps and free counters.
* `Takes d d' bs ns` — `d'` has taken the blocks `bs` and the inodes `ns` from `d`.
* `Takes.unique` — what is given back was there before.
* `Takes.sound` — what no place stores any more may be given back.
* `handOut_takes`, `claimInode_takes`, `SlotsReleased.takes`, `FreedInode.takes` — the
  allocations and the releases of the program.
-/

namespace OsAssignments
namespace Ext2

open ByteMemory MachineWord ExitState

/-- The same bitmaps and the same free counters. -/
structure SameSpace (d d' : Disk) : Prop where
  blockUsage : ∀ b, b < 2 ^ 32 → getBlockUsage d' b = getBlockUsage d b
  inodeUsage : ∀ n, n < 2 ^ 32 → getInodeUsage d' n = getInodeUsage d n
  sFreeBlocks : d'.superBlock.sFreeBlocksCount = d.superBlock.sFreeBlocksCount
  bgFreeBlocks : d'.groupDesc.bgFreeBlocksCount = d.groupDesc.bgFreeBlocksCount
  sFreeInodes : d'.superBlock.sFreeInodesCount = d.superBlock.sFreeInodesCount
  bgFreeInodes : d'.groupDesc.bgFreeInodesCount = d.groupDesc.bgFreeInodesCount

/-- `d'` has taken the blocks `bs` and the inodes `ns`, which are free in `d`. -/
structure Takes (d d' : Disk) (bs ns : Finset Nat) : Prop where
  freeBlock : ∀ b ∈ bs, b < 2 ^ 32 ∧ getBlockUsage d b = false
  freeInode : ∀ n ∈ ns, n < 2 ^ 32 ∧ getInodeUsage d n = false
  blockUsage : ∀ b, b < 2 ^ 32 → getBlockUsage d' b = (decide (b ∈ bs) || getBlockUsage d b)
  inodeUsage : ∀ n, n < 2 ^ 32 → getInodeUsage d' n = (decide (n ∈ ns) || getInodeUsage d n)
  sFreeBlocks : d.superBlock.sFreeBlocksCount = d'.superBlock.sFreeBlocksCount + bs.card
  bgFreeBlocks : d.groupDesc.bgFreeBlocksCount = d'.groupDesc.bgFreeBlocksCount + bs.card
  sFreeInodes : d.superBlock.sFreeInodesCount = d'.superBlock.sFreeInodesCount + ns.card
  bgFreeInodes : d.groupDesc.bgFreeInodesCount = d'.groupDesc.bgFreeInodesCount + ns.card

section

variable {d d' d'' : Disk} {n : Nat} {bs bs' ns ns' : Finset Nat} {l : List Nat}

/-! ## The relation -/

theorem SameSpace.refl (d : Disk) : SameSpace d d :=
  ⟨fun _ _ => rfl, fun _ _ => rfl, rfl, rfl, rfl, rfl⟩

theorem SameSpace.trans (h : SameSpace d d') (h' : SameSpace d' d'') : SameSpace d d'' :=
  ⟨fun b hb => (h'.blockUsage b hb).trans (h.blockUsage b hb),
    fun n hn => (h'.inodeUsage n hn).trans (h.inodeUsage n hn),
    h'.sFreeBlocks.trans h.sFreeBlocks, h'.bgFreeBlocks.trans h.bgFreeBlocks,
    h'.sFreeInodes.trans h.sFreeInodes, h'.bgFreeInodes.trans h.bgFreeInodes⟩

theorem withData_sameSpace (d : Disk) (mem : Memory) : SameSpace d (d.withData mem) :=
  ⟨fun _ _ => rfl, fun _ _ => rfl, rfl, rfl, rfl, rfl⟩

theorem SameAccounts.sameSpace (h : SameAccounts d d') : SameSpace d d' :=
  ⟨fun b _ => h.getBlockUsage_eq b, fun n _ => h.getInodeUsage_eq n, h.sFreeBlocks, h.bgFreeBlocks,
    h.sFreeInodes, h.bgFreeInodes⟩

/-- Nothing is taken. -/
theorem SameSpace.takes (h : SameSpace d d') : Takes d d' ∅ ∅ :=
  ⟨fun b hb => absurd hb (Finset.notMem_empty b), fun m hm => absurd hm (Finset.notMem_empty m),
    fun b hb => by simp [h.blockUsage b hb], fun m hm => by simp [h.inodeUsage m hm],
    h.sFreeBlocks.symm, h.bgFreeBlocks.symm, h.sFreeInodes.symm, h.bgFreeInodes.symm⟩

namespace Takes

/-- Changes that leave the accounts alone do not matter. -/
theorem congr (h : Takes d d' bs ns) (hs : SameSpace d' d'') : Takes d d'' bs ns :=
  ⟨h.freeBlock, h.freeInode, fun b hb => (hs.blockUsage b hb).trans (h.blockUsage b hb),
    fun n hn => (hs.inodeUsage n hn).trans (h.inodeUsage n hn),
    by rw [hs.sFreeBlocks, h.sFreeBlocks], by rw [hs.bgFreeBlocks, h.bgFreeBlocks],
    by rw [hs.sFreeInodes, h.sFreeInodes], by rw [hs.bgFreeInodes, h.bgFreeInodes]⟩

/-- What is free after a step was free before it. -/
theorem usage_false (h : Takes d d' bs ns) {b : Nat} (hb : b < 2 ^ 32)
    (hfree : getBlockUsage d' b = false) : b ∉ bs ∧ getBlockUsage d b = false := by
  rw [h.blockUsage b hb, Bool.or_eq_false_iff, decide_eq_false_iff_not] at hfree
  exact hfree

theorem inodeUsage_false (h : Takes d d' bs ns) {m : Nat} (hm : m < 2 ^ 32)
    (hfree : getInodeUsage d' m = false) : m ∉ ns ∧ getInodeUsage d m = false := by
  rw [h.inodeUsage m hm, Bool.or_eq_false_iff, decide_eq_false_iff_not] at hfree
  exact hfree

theorem trans (h : Takes d d' bs ns) (h' : Takes d' d'' bs' ns') :
    Takes d d'' (bs ∪ bs') (ns ∪ ns') := by
  have hblocks : ∀ b ∈ bs', b ∉ bs ∧ getBlockUsage d b = false := fun b hb =>
    h.usage_false (h'.freeBlock b hb).1 (h'.freeBlock b hb).2
  have hinodes : ∀ m ∈ ns', m ∉ ns ∧ getInodeUsage d m = false := fun m hm =>
    h.inodeUsage_false (h'.freeInode m hm).1 (h'.freeInode m hm).2
  have hbs : (bs ∪ bs').card = bs.card + bs'.card :=
    Finset.card_union_of_disjoint (Finset.disjoint_right.mpr fun b hb => (hblocks b hb).1)
  have hns : (ns ∪ ns').card = ns.card + ns'.card :=
    Finset.card_union_of_disjoint (Finset.disjoint_right.mpr fun m hm => (hinodes m hm).1)
  refine ⟨fun b hb => ?_, fun m hm => ?_, fun b hb => ?_, fun m hm => ?_, ?_, ?_, ?_, ?_⟩
  · rcases Finset.mem_union.mp hb with hb | hb
    · exact h.freeBlock b hb
    · exact ⟨(h'.freeBlock b hb).1, (hblocks b hb).2⟩
  · rcases Finset.mem_union.mp hm with hm | hm
    · exact h.freeInode m hm
    · exact ⟨(h'.freeInode m hm).1, (hinodes m hm).2⟩
  · rw [h'.blockUsage b hb, h.blockUsage b hb, ← Bool.or_assoc, ← Bool.decide_or]
    simp only [Finset.mem_union, or_comm]
  · rw [h'.inodeUsage m hm, h.inodeUsage m hm, ← Bool.or_assoc, ← Bool.decide_or]
    simp only [Finset.mem_union, or_comm]
  · rw [hbs, h.sFreeBlocks, h'.sFreeBlocks]
    omega
  · rw [hbs, h.bgFreeBlocks, h'.bgFreeBlocks]
    omega
  · rw [hns, h.sFreeInodes, h'.sFreeInodes]
    omega
  · rw [hns, h.bgFreeInodes, h'.bgFreeInodes]
    omega

/-- **What is taken and given back is as it was.** -/
theorem unique (h : Takes d d'' bs ns) (h' : Takes d' d'' bs ns) : SameSpace d d' := by
  have hsF := h.sFreeBlocks.trans h'.sFreeBlocks.symm
  have hbF := h.bgFreeBlocks.trans h'.bgFreeBlocks.symm
  have hsI := h.sFreeInodes.trans h'.sFreeInodes.symm
  have hbI := h.bgFreeInodes.trans h'.bgFreeInodes.symm
  refine ⟨fun b hb => ?_, fun m hm => ?_, hsF.symm, hbF.symm, hsI.symm, hbI.symm⟩
  · by_cases hmem : b ∈ bs
    · rw [(h.freeBlock b hmem).2, (h'.freeBlock b hmem).2]
    · have heq := (h'.blockUsage b hb).symm.trans (h.blockUsage b hb)
      simpa [hmem] using heq
  · by_cases hmem : m ∈ ns
    · rw [(h.freeInode m hmem).2, (h'.freeInode m hmem).2]
    · have heq := (h'.inodeUsage m hm).symm.trans (h.inodeUsage m hm)
      simpa [hmem] using heq

end Takes

/-! ## Allocations -/

theorem handOut_takes (h : Counted d) (hnodup : l.Nodup) (hfree : ∀ b ∈ l, b ∈ freeBlocks d) :
    Takes d (handOut d l) l.toFinset ∅ := by
  obtain ⟨hle, hcard⟩ := card_freeBlocks_handOut h hnodup hfree
  have hc := h.handedOut hnodup hfree
  have hlen : l.toFinset.card = l.length := List.toFinset_card_of_nodup hnodup
  refine ⟨fun b hb => ?_, fun m hm => ?_, fun b hb => ?_, fun m hm => ?_, ?_, ?_, ?_, ?_⟩
  · have hb := hfree b (List.mem_toFinset.mp hb)
    exact ⟨(h.free_bounds hb).2.2.1, (mem_freeBlocks.mp hb).2⟩
  · exact absurd hm (Finset.notMem_empty m)
  · simp only [getBlockUsage_handOut h hfree hb, List.mem_toFinset]
  · simp [getInodeUsage_handOut]
  · rw [h.sFreeBlocks, hc.sFreeBlocks, hcard, hlen]
    omega
  · rw [h.bgFreeBlocks, hc.bgFreeBlocks, hcard, hlen]
    omega
  · rw [h.sFreeInodes, hc.sFreeInodes, freeInodes_handOut, Finset.card_empty, Nat.add_zero]
  · rw [h.bgFreeInodes, hc.bgFreeInodes, freeInodes_handOut, Finset.card_empty, Nat.add_zero]

theorem claimInode_takes (h : Counted d) (hn : n ∈ freeInodes d) :
    Takes d (claimInode d n) ∅ {n} := by
  have hc := h.claimed hn
  have hcard := Finset.card_erase_add_one hn
  have hn32 := h.validInode_lt (mem_freeInodes.mp hn).1
  rw [← freeInodes_claimInode h hn] at hcard
  refine ⟨fun b hb => ?_, fun m hm => ?_, fun b hb => ?_, fun m hm => ?_, ?_, ?_, ?_, ?_⟩
  · exact absurd hb (Finset.notMem_empty b)
  · rw [Finset.mem_singleton.mp hm]
    exact ⟨hn32, (mem_freeInodes.mp hn).2⟩
  · simp [getBlockUsage_claimInode]
  · rw [getInodeUsage_claimInode hn32 hm]
    by_cases hmn : m = n
    · simp [hmn]
    · simp [hmn]
  · rw [h.sFreeBlocks, hc.sFreeBlocks, freeBlocks_claimInode, Finset.card_empty, Nat.add_zero]
  · rw [h.bgFreeBlocks, hc.bgFreeBlocks, freeBlocks_claimInode, Finset.card_empty, Nat.add_zero]
  · rw [h.sFreeInodes, hc.sFreeInodes, Finset.card_singleton, hcard]
  · rw [h.bgFreeInodes, hc.bgFreeInodes, Finset.card_singleton, hcard]

/-- A block attached to an inode, whatever is written into it. -/
theorem attachBlock_takes (h : Counted d) {i b : Nat} (hb : b ∈ freeBlocks d) (mem : Memory) :
    Takes d ((attachBlock d n i b).withData mem) {b} ∅ := by
  have hout := handOut_takes h (List.nodup_singleton b) (by simpa using hb)
  exact (hout.congr (attachBlock_sameAccounts d n i b).sameSpace).congr (withData_sameSpace _ mem)

/-- The inode and the block of a symbolic link. -/
theorem symlink_takes (h : Counted d) (now : Nat) (source : CString) {b : Nat}
    (hn : n ∈ freeInodes d) (hb : b ∈ freeBlocks d) :
    Takes d (symlink now source d n b) {b} {n} := by
  have hsame : SameAccounts (claimInode d n) (symlinkInode now source d n) := by
    rw [symlinkInode, newInode]
    exact modifyInode_sameAccounts _ _ _
  have hinode : Takes d (symlinkInode now source d n) ∅ {n} :=
    (claimInode_takes h hn).congr hsame.sameSpace
  have hc : Counted (symlinkInode now source d n) := hsame.counted (h.claimed hn)
  have hb' : b ∈ freeBlocks (symlinkInode now source d n) := by
    rw [symlinkInode, freeBlocks_newInode]
    exact hb
  have hwrite : Takes (symlinkInode now source d n) (symlink now source d n b) {b} ∅ := by
    rw [symlink]
    exact attachBlock_takes hc hb' _
  have hboth := hinode.trans hwrite
  rwa [Finset.empty_union, Finset.union_empty] at hboth

/-! ## Releases -/

theorem Raised.of_nodup (hnodup : l.Nodup) (h : Raised d d' l.length) :
    d'.superBlock.sFreeBlocksCount = d.superBlock.sFreeBlocksCount + l.toFinset.card ∧
    d'.groupDesc.bgFreeBlocksCount = d.groupDesc.bgFreeBlocksCount + l.toFinset.card ∧
    d'.superBlock.sFreeInodesCount = d.superBlock.sFreeInodesCount ∧
    d'.groupDesc.bgFreeInodesCount = d.groupDesc.bgFreeInodesCount := by
  rw [h.superBlock, h.groupDesc, List.toFinset_card_of_nodup hnodup]
  exact ⟨rfl, rfl, rfl, rfl⟩

/-- Blocks released from slots are taken, read backwards. -/
theorem SlotsReleased.takes (h : SlotsReleased d d' n l) (hnodup : (heldBlocks d n l).Nodup)
    (hused : ∀ b ∈ heldBlocks d n l, b < 2 ^ 32 ∧ getBlockUsage d b = true) :
    Takes d' d (heldBlocks d n l).toFinset ∅ := by
  obtain ⟨hsF, hbF, hsI, hbI⟩ := h.raised.of_nodup hnodup
  have hinode : ∀ m, getInodeUsage d' m = getInodeUsage d m := fun m => by
    rw [getInodeUsage, getInodeUsage, h.inodeBitmap]
  refine ⟨fun b hb => ?_, fun m hm => ?_, fun b hb => ?_, fun m hm => ?_, hsF, hbF, ?_, ?_⟩
  · have hb := List.mem_toFinset.mp hb
    refine ⟨(hused b hb).1, ?_⟩
    rw [h.usage b (hused b hb).1]
    simp [hb]
  · exact absurd hm (Finset.notMem_empty m)
  · rw [h.usage b hb]
    by_cases hmem : b ∈ heldBlocks d n l
    · simp [hmem, (hused b hmem).2]
    · simp [hmem]
  · simp [hinode]
  · rw [hsI, Finset.card_empty, Nat.add_zero]
  · rw [hbI, Finset.card_empty, Nat.add_zero]

/-- A freed inode and its blocks are taken, read backwards. -/
theorem FreedInode.takes (h : FreedInode d d' n) (hnodup : (slotBlocks d n).Nodup)
    (hused : ∀ b ∈ slotBlocks d n, b < 2 ^ 32 ∧ getBlockUsage d b = true) (hn : n < 2 ^ 32)
    (hinode : getInodeUsage d n = true) : Takes d' d (slotBlocks d n).toFinset {n} := by
  have hlen : (slotBlocks d n).toFinset.card = (slotBlocks d n).length :=
    List.toFinset_card_of_nodup hnodup
  refine ⟨fun b hb => ?_, fun m hm => ?_, fun b hb => ?_, fun m hm => ?_, ?_, ?_, ?_, ?_⟩
  · have hb := List.mem_toFinset.mp hb
    refine ⟨(hused b hb).1, ?_⟩
    rw [h.blockUsage b (hused b hb).1]
    simp [hb]
  · rw [Finset.mem_singleton.mp hm, h.inodeUsage n hn, if_pos rfl]
    exact ⟨hn, rfl⟩
  · rw [h.blockUsage b hb]
    by_cases hmem : b ∈ slotBlocks d n
    · simp [hmem, (hused b hmem).2]
    · simp [hmem]
  · rw [h.inodeUsage m hm]
    by_cases hmn : m = n
    · simp [hmn, hinode]
    · simp [hmn]
  · rw [h.superBlock, hlen]
  · rw [h.groupDesc, hlen]
  · rw [h.superBlock, Finset.card_singleton]
  · rw [h.groupDesc, Finset.card_singleton]

/-! ## Sound images after a release -/

/-- What is neither reserved nor out of range may be given back. -/
structure Releasable (d : Disk) (bs ns : Finset Nat) : Prop where
  block : ∀ b ∈ bs, lastReservedBlock < b ∧ b < d.superBlock.sBlocksCount
  inode : ∀ m ∈ ns, lastReservedInode < m ∧ m ≤ d.superBlock.sInodesCount

section

variable (h : Takes d' d bs ns) (hlayout : d'.layout = d.layout) (hrel : Releasable d bs ns)
include h hlayout hrel

theorem Takes.freeBlocks_eq (hc : Counted d) : freeBlocks d' = freeBlocks d ∪ bs := by
  have hmapped := hc.blocks_le
  ext b
  rw [Finset.mem_union, mem_freeBlocks, mem_freeBlocks, sBlocksCount_of_layout hlayout]
  constructor
  · rintro ⟨hb, hfree⟩
    by_cases hmem : b ∈ bs
    · exact .inr hmem
    · refine .inl ⟨hb, ?_⟩
      rw [h.blockUsage b (by omega), hfree, decide_eq_false hmem]
      rfl
  · rintro (⟨hb, hused⟩ | hmem)
    · exact ⟨hb, (h.usage_false (by omega) hused).2⟩
    · have hlow := (hrel.block b hmem).1
      exact ⟨⟨by omega, (hrel.block b hmem).2⟩, (h.freeBlock b hmem).2⟩

theorem Takes.freeInodes_eq (hc : Counted d) : freeInodes d' = freeInodes d ∪ ns := by
  have hfew := hc.inodes_lt
  ext m
  rw [Finset.mem_union, mem_freeInodes, mem_freeInodes, sInodesCount_of_layout hlayout]
  constructor
  · rintro ⟨hm, hfree⟩
    by_cases hmem : m ∈ ns
    · exact .inr hmem
    · refine .inl ⟨hm, ?_⟩
      rw [h.inodeUsage m (by omega), hfree, decide_eq_false hmem]
      rfl
  · rintro (⟨hm, hused⟩ | hmem)
    · exact ⟨hm, (h.inodeUsage_false (by omega) hused).2⟩
    · have hlow := (hrel.inode m hmem).1
      exact ⟨⟨by omega, (hrel.inode m hmem).2⟩, (h.freeInode m hmem).2⟩

/-- The counters agree with the bitmaps again. -/
theorem Takes.counted (hc : Counted d) : Counted d' := by
  have hblocks : (freeBlocks d').card = (freeBlocks d).card + bs.card := by
    rw [h.freeBlocks_eq hlayout hrel hc, Finset.card_union_of_disjoint]
    refine Finset.disjoint_right.mpr fun b hb hmem => ?_
    have hused := h.blockUsage b (h.freeBlock b hb).1
    rw [(mem_freeBlocks.mp hmem).2, decide_eq_true hb] at hused
    cases hused
  have hinodes : (freeInodes d').card = (freeInodes d).card + ns.card := by
    rw [h.freeInodes_eq hlayout hrel hc, Finset.card_union_of_disjoint]
    refine Finset.disjoint_right.mpr fun m hm hmem => ?_
    have hused := h.inodeUsage m (h.freeInode m hm).1
    rw [(mem_freeInodes.mp hmem).2, decide_eq_true hm] at hused
    cases hused
  refine ⟨?_, fun b hb => hc.metadata b ((isMetadata_of_layout hlayout).mp hb), ?_, ?_, ?_, ?_,
    fun b h₁ h₂ => ?_, fun m h₁ h₂ => ?_⟩
  · rw [sBlocksCount_of_layout hlayout]
    exact hc.mapped
  · rw [h.sFreeBlocks, hblocks, hc.sFreeBlocks]
  · rw [h.bgFreeBlocks, hblocks, hc.bgFreeBlocks]
  · rw [h.sFreeInodes, hinodes, hc.sFreeInodes]
  · rw [h.bgFreeInodes, hinodes, hc.bgFreeInodes]
  · have hused := h.blockUsage b (by rw [lastReservedBlock] at h₂; omega)
    rw [hc.reservedBlocks b h₁ h₂, decide_eq_false, Bool.false_or] at hused
    · exact hused.symm
    · exact fun hmem => absurd (hrel.block b hmem).1 (by omega)
  · have hused := h.inodeUsage m (by rw [lastReservedInode] at h₂; omega)
    rw [hc.reservedInodes m h₁ h₂, decide_eq_false, Bool.false_or] at hused
    · exact hused.symm
    · exact fun hmem => absurd (hrel.inode m hmem).1 (by omega)

/-- **What no place stores any more may be given back.** -/
theorem Takes.sound (hs : Sound d) (hstored : ∀ r, ValidRef d r →
    stored d' r = 0 ∨ (stored d' r = stored d r ∧ stored d r ∉ bs)) : Sound d' := by
  have hvalid : ∀ r, ValidRef d' r ↔ ValidRef d r := fun r => validRef_of_layout hlayout
  have hkept : ∀ r, ValidRef d r → stored d' r ≠ 0 →
      stored d' r = stored d r ∧ stored d r ∉ bs := fun r hr hne => (hstored r hr).resolve_left hne
  refine ⟨h.counted hlayout hrel hs.toCounted, fun r hr hne => ?_, fun r s hr hs' hne heq => ?_⟩
  · have hr := (hvalid r).mp hr
    obtain ⟨hsame, hnot⟩ := hkept r hr hne
    have huse := hs.refs.used_of r hr (hsame ▸ hne)
    rw [hsame]
    refine ⟨by rw [sBlocksCount_of_layout hlayout]; exact huse.lt, ?_,
      fun hmeta => huse.notMetadata ((isMetadata_of_layout hlayout).mp hmeta)⟩
    have hused := h.blockUsage _ (huse.lt_two_pow hs.toCounted)
    rw [huse.marked, decide_eq_false hnot, Bool.false_or] at hused
    exact hused.symm
  · have hr := (hvalid r).mp hr
    have hs' := (hvalid s).mp hs'
    obtain ⟨hsame, -⟩ := hkept r hr hne
    obtain ⟨hsame', -⟩ := hkept s hs' (heq ▸ hne)
    exact hs.refs.inj r s hr hs' (hsame ▸ hne) (by rw [← hsame, ← hsame', heq])

end

end

end Ext2
end OsAssignments
