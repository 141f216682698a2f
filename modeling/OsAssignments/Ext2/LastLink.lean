import OsAssignments.Ext2.RmRun
import OsAssignments.Ext2.Overwrite

/-!
# The last link of a file

When `ext2_rm` removes the only link of a file, `free_inode` gives back the blocks in its
slots.  The indirect block, which holds slots and is in none, stays marked.

* `GivesBack` — the blocks of the file are free, no other bit changes, and the counters agree.
* `EntryRemoved.detached_eq` — the block the parent directory lost, if it lost one.
* `rm_gives_back_iff` — everything comes back exactly if the file has no indirect block.
-/

namespace OsAssignments
namespace Ext2

open ByteMemory MachineWord ExitState

/-- The blocks that inode `p` names in `d` and not in `d'`. -/
def detached (d d' : Disk) (p : Nat) : Set Nat := blocksOf d p \ blocksOf d' p

/-- All blocks of inode `n` are given back, and besides them at most one block of the directory
`p`. -/
structure GivesBack (d d' : Disk) (n p : Nat) : Prop where
  freed : ∀ b ∈ blocksOf d n, getBlockUsage d' b = false
  others : ∀ b, b < 2 ^ 32 → b ∉ blocksOf d n → b ∉ detached d d' p →
    getBlockUsage d' b = getBlockUsage d b
  parent : (detached d d' p).ncard ≤ 1
  sFreeBlocks : d'.superBlock.sFreeBlocksCount
    = d.superBlock.sFreeBlocksCount + (blocksOf d n).ncard + (detached d d' p).ncard
  bgFreeBlocks : d'.groupDesc.bgFreeBlocksCount
    = d.groupDesc.bgFreeBlocksCount + (blocksOf d n).ncard + (detached d d' p).ncard

theorem ncard_of_nodup {l : List Nat} (h : l.Nodup) : {b | b ∈ l}.ncard = l.length := by
  rw [← List.coe_toFinset, Set.ncard_coe_finset, List.toFinset_card_of_nodup h]

section

variable {d d' d₁ : Disk} {n p i e pe now : Nat} {mem : Memory} {path : CString}

/-! ## The block of the parent -/

theorem blocksOf_congr (hind : indirectBlock d' n = indirectBlock d n)
    (hslots : ∀ j, getInodeBlockNumber d' n j = getInodeBlockNumber d n j) :
    blocksOf d' n = blocksOf d n := by
  ext c
  simp only [blocksOf, Set.mem_ofPred_eq, hind, hslots]

/-- The block given back with the entry, if there is one. -/
def releasedWith (d : Disk) (p i : Nat) (mem : Memory) : List Nat :=
  heldBlocks d p (emptiedSlots mem (getBlock (getInodeBlockNumber d p i)) i)

theorem length_releasedWith_le (d : Disk) (p i : Nat) (mem : Memory) :
    (releasedWith d p i mem).length ≤ 1 := by
  refine (length_heldBlocks_le _ _ _).trans ?_
  rw [emptiedSlots]
  split <;> simp

theorem ncard_releasedWith (d : Disk) (p i : Nat) (mem : Memory) :
    {b | b ∈ releasedWith d p i mem}.ncard = (releasedWith d p i mem).length := by
  refine ncard_of_nodup ?_
  have hle := length_releasedWith_le d p i mem
  match releasedWith d p i mem, hle with
  | [], _ => exact List.nodup_nil
  | [b], _ => exact List.nodup_singleton b

namespace EntryRemoved

variable (h : EntryRemoved d d₁ p i e mem) (hp : IsDirInode d p) (hd : Consistent d)
include h hp hd

theorem releasedWith_eq : heldBlocks (d.withData mem) p
    (emptiedSlots mem (getBlock (getInodeBlockNumber d p i)) i) = releasedWith d p i mem :=
  heldBlocks_congr fun j _ => h.removal.withData_slots (hd.dirInode hp) h.lt h.slot j

/-- **The parent loses the block that is given back** and no other. -/
theorem detached_eq : detached d d₁ p = {b | b ∈ releasedWith d p i mem} := by
  have hdir := hd.dirInode hp
  ext b
  rw [detached, Set.mem_sdiff, Set.mem_ofPred_eq, releasedWith, mem_heldBlocks]
  constructor
  · rintro ⟨⟨hb, hind | ⟨j, hj, rfl⟩⟩, hnot⟩
    · exact absurd ⟨hb, .inl (by rw [hind, h.footprint.indirect])⟩ hnot
    · refine ⟨hb, j, ?_, rfl⟩
      by_contra hkept
      have hslot := h.slot_eq hp hd j
      rw [if_neg hkept] at hslot
      exact hnot ⟨hb, .inr ⟨j, hj, hslot.symm⟩⟩
  · rintro ⟨hb, j, hj, rfl⟩
    have hji : j = i := by
      rw [emptiedSlots] at hj
      split at hj
      · exact List.mem_singleton.mp hj
      · cases hj
    have hlt : j < inodeBlockLimit := hji ▸ h.lt
    refine ⟨mem_blocksOf_slot hlt hb, ?_⟩
    rintro ⟨-, hind | ⟨k, hk, heq⟩⟩
    · rw [h.footprint.indirect] at hind
      exact hdir.apart j hlt hb hind
    · rw [h.slot_eq hp hd] at heq
      split at heq
      · exact hb heq
      · rename_i hkept
        exact hkept (hdir.distinct j k hlt hk hb heq ▸ hj)

end EntryRemoved

/-! ## The removal of the last link -/

/-- The slots hold all blocks of a file exactly if it has no indirect block. -/
theorem blocksOf_eq_slotBlocks (hind : indirectBlock d n = 0) :
    blocksOf d n = {b | b ∈ slotBlocks d n} := by
  ext b
  rw [mem_blocksOf_iff, Set.mem_ofPred_eq]
  refine or_iff_left ?_
  rintro ⟨hne, heq⟩
  exact hne (heq.trans hind)

/-- The last link of inode `n` is gone, and with it the blocks in the slots of the inode and
the blocks `l` of the directory `p`. -/
structure LastLinkRemoved (d d' : Disk) (n p : Nat) (l : List Nat) : Prop where
  length : l.length ≤ 1
  ncard : {b | b ∈ l}.ncard = l.length
  detached : detached d d' p = {b | b ∈ l}
  usage : ∀ b, b < 2 ^ 32 → getBlockUsage d' b
    = (getBlockUsage d b && decide (b ∉ l) && decide (b ∉ slotBlocks d n))
  sFreeBlocks : d'.superBlock.sFreeBlocksCount
    = d.superBlock.sFreeBlocksCount + (slotBlocks d n).length + l.length
  bgFreeBlocks : d'.groupDesc.bgFreeBlocksCount
    = d.groupDesc.bgFreeBlocksCount + (slotBlocks d n).length + l.length

/-- The run of `ext2_rm` on the last link. -/
theorem RmPath.lastLink (hpath : RmPath d path e pe) (h : Consistent d)
    (hlink : (d.inodeTable (entryInode d.data e)).iLinksCount = 1) (now : Nat) :
    ∃ d' l, ext2Rm now path d = .done () d' ∧
      LastLinkRemoved d d' (entryInode d.data e) (entryInode d.data pe) l := by
  obtain ⟨i, mem, d₁, hrem, hrun⟩ := hpath.run h now
  have hp := hpath.parent_isDirInode h
  obtain ⟨hn, hdir⟩ := hpath.inode h
  refine ⟨_, releasedWith d (entryInode d.data pe) i mem, hrun, ?_⟩
  set n := entryInode d.data e
  set p := entryInode d.data pe
  have hfreed : FreedInode (dropLink d₁ n) (finishRm now d₁ n) n := by
    rcases hrem.finishRm_cases hp h hn hdir now with ⟨-, hfreed⟩ | ⟨hlast, -⟩
    · exact hfreed
    · rw [hlink] at hlast
      exact absurd (by decide) hlast
  have hslots : slotBlocks (dropLink d₁ n) n = slotBlocks d n :=
    heldBlocks_congr fun j _ => hrem.slots_dropLink hp h hn hdir j
  have hraised := hrem.released.raised
  rw [hrem.releasedWith_eq hp h] at hraised
  refine ⟨length_releasedWith_le d p i mem, ncard_releasedWith d p i mem, ?_, fun b hb => ?_, ?_, ?_⟩
  · have hsame := hrem.finishRm_sameFile hp h hn hdir now hp.1.1 (EntryRemoved.ne_parent hp hdir).symm
    rw [← hrem.detached_eq hp h, Ext2.detached, Ext2.detached,
      blocksOf_congr ((hrem.finishRm_footprint hp h hn hdir now).indirect p) hsame.slots]
  · rw [hfreed.blockUsage b hb, hslots, ← hrem.releasedWith_eq hp h]
    congr 1
    exact hrem.released.usage b hb
  · have hcount : (dropLink d₁ n).superBlock.sFreeBlocksCount
        = d.superBlock.sFreeBlocksCount + (releasedWith d p i mem).length :=
      congrArg SuperBlock.sFreeBlocksCount hraised.superBlock
    rw [hfreed.superBlock, hslots]
    dsimp only
    omega
  · have hcount : (dropLink d₁ n).groupDesc.bgFreeBlocksCount
        = d.groupDesc.bgFreeBlocksCount + (releasedWith d p i mem).length :=
      congrArg GroupDesc.bgFreeBlocksCount hraised.groupDesc
    rw [hfreed.groupDesc, hslots]
    dsimp only
    omega

/-- The indirect block stays marked: it is neither in a slot nor a block of the parent. -/
theorem LastLinkRemoved.indirect_marked {l : List Nat} (hlast : LastLinkRemoved d d' n p l)
    (h : Consistent d) (hn : ValidInode d n) (hp : ValidInode d p) (hne : n ≠ p)
    (hind : indirectBlock d n ≠ 0) : getBlockUsage d' (indirectBlock d n) = true := by
  have hmem : indirectBlock d n ∈ blocksOf d n := mem_blocksOf_indirect hind
  have hused := h.sound.inUse_of_mem hn hmem
  have hslot : indirectBlock d n ∉ slotBlocks d n := fun hslot => by
    obtain ⟨-, j, hj, heq⟩ := mem_slotBlocks.mp hslot
    have hsame := h.sound.refs.inj (.slot n j) (.indirect n) ⟨hn, hj⟩ hn
      (by rw [stored, heq]; exact hind) heq
    cases hsame
  have hparent : indirectBlock d n ∉ l := fun hrel => by
    have hdet : indirectBlock d n ∈ Ext2.detached d d' p := hlast.detached ▸ hrel
    exact Set.disjoint_left.mp (h.sound.disjoint_blocksOf hn hp hne) hmem hdet.1
  rw [hlast.usage _ (hused.lt_two_pow h.sound.toCounted), hused.marked, decide_eq_true hslot,
    decide_eq_true hparent]
  rfl

/-- **Removing the last link gives back every block exactly if the file has no indirect
block.** -/
theorem rm_gives_back_iff (h : Consistent d) (hpath : RmPath d path e pe)
    (hlink : (d.inodeTable (entryInode d.data e)).iLinksCount = 1) (now : Nat) :
    ∃ d', ext2Rm now path d = .done () d' ∧
      (GivesBack d d' (entryInode d.data e) (entryInode d.data pe) ↔
        indirectBlock d (entryInode d.data e) = 0) := by
  obtain ⟨d', l, hrun, hlast⟩ := hpath.lastLink h hlink now
  have hp := hpath.parent_isDirInode h
  obtain ⟨hn, hdir⟩ := hpath.inode h
  refine ⟨d', hrun, fun hback => ?_, fun hind => ?_⟩
  · by_contra hind
    have hfree := hback.freed _ (mem_blocksOf_indirect hind)
    rw [hlast.indirect_marked h hn.1 hp.1.1 (EntryRemoved.ne_parent hp hdir) hind] at hfree
    cases hfree
  · have hblocks := blocksOf_eq_slotBlocks hind
    have hcard : (blocksOf d (entryInode d.data e)).ncard
        = (slotBlocks d (entryInode d.data e)).length := by
      rw [hblocks, ncard_of_nodup (h.sound.nodup_slotBlocks hn.1)]
    refine ⟨fun b hb => ?_, fun b hb hb₁ hb₂ => ?_, ?_, ?_, ?_⟩
    · have hlt := (h.sound.inUse_of_mem hn.1 hb).lt_two_pow h.sound.toCounted
      rw [hblocks, Set.mem_ofPred_eq] at hb
      rw [hlast.usage b hlt, decide_eq_false (not_not.mpr hb), Bool.and_false]
    · rw [hblocks, Set.mem_ofPred_eq] at hb₁
      rw [hlast.detached, Set.mem_ofPred_eq] at hb₂
      rw [hlast.usage b hb, decide_eq_true hb₁, decide_eq_true hb₂, Bool.and_true, Bool.and_true]
    · rw [hlast.detached, hlast.ncard]
      exact hlast.length
    · rw [hlast.detached, hlast.ncard, hcard]
      exact hlast.sFreeBlocks
    · rw [hlast.detached, hlast.ncard, hcard]
      exact hlast.bgFreeBlocks

/-! ## A file with an indirect block -/

/-- The file has `b` as its indirect block, and nothing is in it. -/
def withIndirect (d : Disk) (n b : Nat) : Disk :=
  (handOut d [b]).modifyInode n fun i =>
    { i with iBlock := Function.update i.iBlock indirect1Index b }

theorem indirectBlock_withIndirect (d : Disk) (n b m : Nat) :
    indirectBlock (withIndirect d n b) m = if m = n then b else indirectBlock d m := by
  rw [indirectBlock, withIndirect, Disk.modifyInode_inodeTable, handOut_inodeTable]
  split
  · simp
  · rfl

/-- The slots behind a cleared indirect block are empty. -/
theorem getInodeBlockNumber_withIndirect (b : Nat) (hind : indirectBlock d n = 0) (j : Nat) :
    getInodeBlockNumber (withIndirect d n b) n j = getInodeBlockNumber d n j := by
  by_cases hj : j < indirect1Index
  · rw [getInodeBlockNumber_direct _ _ hj, getInodeBlockNumber_direct _ _ hj, withIndirect,
      Disk.modifyInode_inodeTable_self, handOut_inodeTable]
    exact Function.update_of_ne (by omega) _ _
  · by_cases hlim : j < inodeBlockLimit
    · have hword := indirectWord_bounds (d := withIndirect d n b) (n := n) hlim
      have hb : indirectBlock (withIndirect d n b) n = b := by
        rw [indirectBlock_withIndirect, if_pos rfl]
      rw [hb] at hword
      have hzero : readLE (withIndirect d n b).data 4 (indirectWord (withIndirect d n b) n j) = 0 :=
        readLE_fillBytes_zero _ _ _ hword.1 hword.2
      rw [getInodeBlockNumber_indirect _ _ (by omega) hlim, hzero, ite_self,
        getInodeBlockNumber_indirect _ _ (by omega) hlim, if_pos hind]
    · rw [getInodeBlockNumber_past _ _ (by omega), getInodeBlockNumber_past _ _ (by omega)]

/-- The slots of every inode are what they were. -/
theorem Sound.slots_withIndirect (h : Sound d) {b : Nat} (hb : b ∈ freeBlocks d)
    (hind : indirectBlock d n = 0) {m : Nat} (hm : ValidInode d m) (j : Nat) :
    getInodeBlockNumber (withIndirect d n b) m j = getInodeBlockNumber d m j := by
  by_cases hmn : m = n
  · rw [hmn]
    exact getInodeBlockNumber_withIndirect b hind j
  · have hblock : ((withIndirect d n b).inodeTable m).iBlock = (d.inodeTable m).iBlock := by
      rw [withIndirect, Disk.modifyInode_inodeTable_of_ne _ _ hmn, handOut_inodeTable]
    have hother : indirectBlock d m ≠ b := h.stored_ne_of_free hb (r := .indirect m) hm
    refine getInodeBlockNumber_congr hblock (fun _ => ?_) j
    exact handOut_data_block (by simpa using hother)

/-- A file that is no directory may take an indirect block. -/
theorem ConsistentAs.withIndirect (h : Consistent d) (hdir : ¬ IsDirInode d n)
    {b : Nat} (hb : b ∈ freeBlocks d) (hind : indirectBlock d n = 0) :
    Consistent (withIndirect d n b) := by
  have hs := h.sound
  have hbs : ∀ c ∈ [b], c ∈ freeBlocks d := by simpa using hb
  have ha : SameAccounts (handOut d [b]) (Ext2.withIndirect d n b) :=
    modifyInode_sameAccounts (handOut d [b]) n _
  have hlayout : (Ext2.withIndirect d n b).layout = d.layout := ha.layout.trans handOut_layout
  have hstep : ∀ r, ValidRef d r → stored (Ext2.withIndirect d n b) r
      = if r = .indirect n then b else stored d r := by
    intro r hr
    cases r with
    | slot m j =>
      rw [if_neg (by simp)]
      exact hs.slots_withIndirect hb hind hr.1 j
    | indirect m =>
      rw [stored, indirectBlock_withIndirect, stored]
      simp only [Ref.indirect.injEq]
  have hold : ∀ r, ValidRef d r → stored (Ext2.withIndirect d n b) r = b → r = .indirect n := by
    intro r hr heq
    rw [hstep r hr] at heq
    by_contra hne
    rw [if_neg hne] at heq
    exact hs.stored_ne_of_free hb hr heq
  have hfresh : ∀ c, c = b → InUse (Ext2.withIndirect d n b) c := by
    rintro c rfl
    exact ha.inUse (inUse_handOut_self hs.toCounted hbs (by simp))
  have hsound : Sound (Ext2.withIndirect d n b) := by
    refine hs.of_adopt (ha.counted (hs.toCounted.handedOut (List.nodup_singleton b) hbs)) hlayout
      (fun c hc => ha.inUse (hc.handedOut hs.toCounted hbs)) hfresh (fun r hr => ?_)
      fun r s hr hs' hb' heq => ?_
    · rw [hstep r hr]
      split
      · exact .inr (.inr rfl)
      · exact .inr (.inl rfl)
    · rw [hold r hr hb', hold s hs' (heq.symm.trans hb')]
  have hkept : DirsKept d (Ext2.withIndirect d n b) := by
    intro m hm
    have hmn : m ≠ n := fun heq => hdir (heq ▸ hm)
    have htable : (Ext2.withIndirect d n b).inodeTable m = d.inodeTable m := by
      rw [Ext2.withIndirect, Disk.modifyInode_inodeTable_of_ne _ _ hmn, handOut_inodeTable]
    refine ⟨by rw [htable], hs.slots_withIndirect hb hind hm.1.1, fun j hne => ?_⟩
    have hlim : j < inodeBlockLimit := by
      by_contra hge
      exact hne (getInodeBlockNumber_past d m (by omega))
    have hother := hs.stored_ne_of_free hb (r := .slot m j) ⟨hm.1.1, hlim⟩
    exact handOut_data_block (by simpa [stored] using hother)
  have huse : ∀ m, InodeInUse (Ext2.withIndirect d n b) m ↔ InodeInUse d m := by
    intro m
    rw [InodeInUse, InodeInUse, validInode_of_layout hlayout, ha.getInodeUsage_eq,
      getInodeUsage_handOut]
  refine hkept.consistent h hsound (fun m => ?_) fun m => (huse m).mpr
  rw [IsDirInode, IsDirInode, huse, Ext2.withIndirect, Disk.modifyInode_inodeTable,
    handOut_inodeTable]
  split
  · rename_i heq
    rw [heq]
  · rfl

end

/-- The file `/f` of the small image has an indirect block. -/
def indirectImage : Disk := withIndirect smallImage 12 24

theorem indirectImage_consistent : Consistent indirectImage := by
  have hb : 24 ∈ freeBlocks smallImage := mem_freeBlocks.mpr ⟨⟨by decide, by decide⟩, by decide⟩
  exact smallImage_consistent.withIndirect smallImage_file.2 hb (by decide)

theorem smallImage_rmPath : RmPath smallImage [47, 102] 23576 23552 :=
  ⟨by decide +kernel, by decide +kernel, by decide +kernel⟩

theorem blockImage_rmPath : RmPath blockImage [47, 102] 23576 23552 :=
  ⟨by decide +kernel, by decide +kernel, by decide +kernel⟩

theorem indirectImage_rmPath : RmPath indirectImage [47, 102] 23576 23552 :=
  ⟨by decide +kernel, by decide +kernel, by decide +kernel⟩

/-- The block 24 of `/f` is free when the file is removed. -/
theorem rm_gives_back_example : getBlockUsage blockImage 24 = true ∧
    ∃ d', ext2Rm 0 [47, 102] blockImage = .done () d' ∧ GivesBack blockImage d' 12 2 ∧
      getBlockUsage d' 24 = false := by
  have hfile : entryInode blockImage.data 23576 = 12 := by decide +kernel
  have hparent : entryInode blockImage.data 23552 = 2 := by decide +kernel
  obtain ⟨d', hrun, hiff⟩ := rm_gives_back_iff blockImage_consistent blockImage_rmPath
    (by rw [hfile]; decide +kernel) 0
  rw [hfile, hparent] at hiff
  have hback := hiff.mpr (by decide +kernel)
  have hblock : getInodeBlockNumber blockImage 12 0 = 24 := by decide +kernel
  have hmem : 24 ∈ blocksOf blockImage 12 :=
    hblock ▸ mem_blocksOf_slot (by decide) (by rw [hblock]; decide)
  exact ⟨by decide +kernel, d', hrun, hback, hback.freed 24 hmem⟩

/-- The indirect block of `/f` is lost when the file is removed. -/
theorem indirectImage_not_given_back : Consistent indirectImage ∧
    RmPath indirectImage [47, 102] 23576 23552 ∧
    (indirectImage.inodeTable (entryInode indirectImage.data 23576)).iLinksCount = 1 ∧
    ∃ d', ext2Rm 0 [47, 102] indirectImage = .done () d' ∧ ¬ GivesBack indirectImage d' 12 2 := by
  have hfile : entryInode indirectImage.data 23576 = 12 := by decide +kernel
  have hparent : entryInode indirectImage.data 23552 = 2 := by decide +kernel
  have hlink : (indirectImage.inodeTable (entryInode indirectImage.data 23576)).iLinksCount = 1 := by
    rw [hfile]
    decide +kernel
  refine ⟨indirectImage_consistent, indirectImage_rmPath, hlink, ?_⟩
  obtain ⟨d', l, hrun, hlast⟩ := indirectImage_rmPath.lastLink indirectImage_consistent hlink 0
  rw [hfile, hparent] at hlast
  have hind : indirectBlock indirectImage 12 = 24 := by decide +kernel
  have hmarked := hlast.indirect_marked indirectImage_consistent ⟨by decide, by decide +kernel⟩
    ⟨by decide, by decide +kernel⟩ (by decide) (by rw [hind]; decide)
  refine ⟨d', hrun, fun hback => ?_⟩
  have hfree := hback.freed _ (mem_blocksOf_indirect (by rw [hind]; decide))
  rw [hmarked] at hfree
  cases hfree

end Ext2
end OsAssignments
