import OsAssignments.Ext2.AllocationSound

/-!
# Inodes handed out and taken back

* `Counted.allocateInode_cases` — `allocate_inode` claims a free inode if there is one.
* `Sound.claimed` — the image is sound again, and no slot of the inode names a block.
* `Sound.sound_freeInode` — the same for `free_inode`, which gives up all blocks of an inode.
-/

namespace OsAssignments
namespace Ext2

open ByteMemory MachineWord ExitState Ownership

/-- An inode in use. -/
def InodeInUse (d : Disk) (n : Nat) : Prop := ValidInode d n ∧ getInodeUsage d n = true

/-! ## Claiming an inode -/

/-- What `allocate_inode` makes of the image if it finds inode `n`. -/
def claimInode (d : Disk) (n : Nat) : Disk :=
  clearSlots (setInodeUsage (increaseFreeInodesCount d (-1)) n true) n

/-- The reserved inodes are in use. -/
theorem Counted.lt_of_free {d : Disk} (h : Counted d) {n : Nat} (hn : n ∈ freeInodes d) :
    lastReservedInode < n := by
  obtain ⟨⟨h₁, -⟩, hfree⟩ := mem_freeInodes.mp hn
  by_contra hle
  rw [h.reservedInodes n h₁ (by omega)] at hfree
  cases hfree

/-- `allocate_inode` exits if no inode is free; otherwise it claims the first free one. -/
theorem Counted.allocateInode_least {d : Disk} (h : Counted d) :
    (freeInodes d = ∅ ∧ allocateInode d = .exit 1 d) ∨
    ∃ n, IsLeast {m | m ∈ freeInodes d} n ∧ lastReservedInode < n ∧
      allocateInode d = .done n (claimInode d n) := by
  have hcount := h.sFreeInodes
  by_cases hzero : d.superBlock.sFreeInodesCount = 0
  · refine .inl ⟨Finset.card_eq_zero.mp (by omega), ?_⟩
    rw [allocateInode, Command.bind_of_done (Command.get_apply d), if_pos hzero]
    rfl
  · have hmem : ∀ n, n ∈ searchedInodes (increaseFreeInodesCount d (-1)) ↔
        lastReservedInode < n ∧ n ≤ d.superBlock.sInodesCount := by
      intro n
      rw [searchedInodes, List.mem_range'_1]
      simp only [increaseFreeInodesCount]
      omega
    cases hfind : (searchedInodes (increaseFreeInodesCount d (-1))).find?
        fun inodeNum => !getInodeUsage (increaseFreeInodesCount d (-1)) inodeNum with
    | none =>
      -- the counter says that there is a free inode, and it is not a reserved one
      exfalso
      obtain ⟨n, hn⟩ := Finset.card_pos.mp (show 0 < (freeInodes d).card by omega)
      obtain ⟨⟨h₁, h₂⟩, hfree⟩ := mem_freeInodes.mp hn
      rw [List.find?_eq_none] at hfind
      have hused := hfind n ((hmem n).mpr ⟨h.lt_of_free hn, h₂⟩)
      have hfree' : getInodeUsage (increaseFreeInodesCount d (-1)) n = false := hfree
      exact hused (by rw [hfree']; rfl)
    | some n =>
      have hfree : getInodeUsage (increaseFreeInodesCount d (-1)) n = false := by
        simpa using List.find?_some hfind
      obtain ⟨hgt, hle⟩ := (hmem n).mp (List.mem_of_find?_eq_some hfind)
      refine .inr ⟨n, ⟨mem_freeInodes.mpr ⟨⟨by omega, hle⟩, hfree⟩, fun m hm => ?_⟩, hgt, ?_⟩
      · -- the search has passed over the numbers in front of `n`
        obtain ⟨-, l₁, l₂, hsplit, hpassed⟩ := List.find?_eq_some_iff_append.mp hfind
        have hsorted : (searchedInodes (increaseFreeInodesCount d (-1))).Pairwise (· < ·) :=
          List.pairwise_lt_range' ..
        have hsearched := (hmem m).mpr ⟨h.lt_of_free hm, (mem_freeInodes.mp hm).1.2⟩
        rw [hsplit] at hsearched hsorted
        rcases List.mem_append.mp hsearched with hbefore | hafter
        · have hused := hpassed m hbefore
          rw [show getInodeUsage (increaseFreeInodesCount d (-1)) m = false from
            (mem_freeInodes.mp hm).2] at hused
          cases hused
        · rcases List.mem_cons.mp hafter with rfl | hlater
          · exact Nat.le_refl _
          · have hpair := (List.pairwise_append.mp hsorted).2.1
            exact Nat.le_of_lt (List.rel_of_pairwise_cons hpair hlater)
      · rw [allocateInode, Command.bind_of_done (Command.get_apply d), if_neg hzero,
          Command.bind_of_done (Command.modify_apply _ d),
          Command.bind_of_done (Command.get_apply _), hfind]
        rfl

/-- The inode claimed is a free one behind the reserved ones. -/
theorem Counted.allocateInode_cases {d : Disk} (h : Counted d) :
    (freeInodes d = ∅ ∧ allocateInode d = .exit 1 d) ∨
    ∃ n ∈ freeInodes d, lastReservedInode < n ∧ allocateInode d = .done n (claimInode d n) :=
  h.allocateInode_least.imp_right fun ⟨n, hn, hres, hdone⟩ => ⟨n, hn.1, hres, hdone⟩

section ClaimInode

variable {d : Disk} {n : Nat}

theorem claimInode_slotsOnly (d : Disk) (n : Nat) :
    SlotsOnly (setInodeUsage (increaseFreeInodesCount d (-1)) n true) (claimInode d n) n [] :=
  clearSlots_slotsOnly _ n

theorem claimInode_layout : (claimInode d n).layout = d.layout :=
  (claimInode_slotsOnly d n).sameAccounts.layout

theorem claimInode_footprint : Footprint d (claimInode d n) {n} (indirectOf d n) := by
  have h := (claimInode_slotsOnly d n).footprint
  refine ⟨claimInode_layout, h.inode, h.indirect, fun c hc => h.data c ?_⟩
  rintro (hnil | hind)
  · cases hnil
  · exact hc hind

theorem getBlockUsage_claimInode (b : Nat) : getBlockUsage (claimInode d n) b = getBlockUsage d b :=
  (claimInode_slotsOnly d n).getBlockUsage_eq b

theorem getInodeUsage_claimInode (hn : n < 2 ^ 32) {m : Nat} (hm : m < 2 ^ 32) :
    getInodeUsage (claimInode d n) m = if m = n then true else getInodeUsage d m := by
  rw [(claimInode_slotsOnly d n).sameAccounts.getInodeUsage_eq, getInodeUsage_set _ true hn hm]
  rfl

/-- All slots of an inode claimed are empty. -/
theorem getInodeBlockNumber_claimInode (d : Disk) (n i : Nat) :
    getInodeBlockNumber (claimInode d n) n i = 0 := by
  by_cases hi : i < inodeBlockLimit
  · exact getInodeBlockNumber_clearSlots _ n hi
  · exact getInodeBlockNumber_past _ _ (by omega)

theorem freeInodes_claimInode (h : Counted d) (hn : n ∈ freeInodes d) :
    freeInodes (claimInode d n) = (freeInodes d).erase n := by
  ext m
  have hlt := h.inodes_lt
  have hn' := (mem_freeInodes.mp hn).1
  rw [Finset.mem_erase, mem_freeInodes, mem_freeInodes, sInodesCount_of_layout claimInode_layout]
  constructor
  · rintro ⟨hm, husage⟩
    rw [getInodeUsage_claimInode (by omega) (by omega)] at husage
    split at husage
    · cases husage
    · rename_i hne
      exact ⟨hne, hm, husage⟩
  · rintro ⟨hne, hm, husage⟩
    exact ⟨hm, by rw [getInodeUsage_claimInode (by omega) (by omega), if_neg hne]; exact husage⟩

theorem freeBlocks_claimInode : freeBlocks (claimInode d n) = freeBlocks d := by
  simp only [freeBlocks, getBlockUsage_claimInode, sBlocksCount_of_layout claimInode_layout]

theorem Counted.claimed (h : Counted d) (hn : n ∈ freeInodes d) : Counted (claimInode d n) := by
  have hcard : (freeInodes (claimInode d n)).card = (freeInodes d).card - 1 := by
    rw [freeInodes_claimInode h hn, Finset.card_erase_of_mem hn]
  have hpos : 0 < (freeInodes d).card := Finset.card_pos.mpr ⟨n, hn⟩
  have hlt := h.card_freeInodes_lt
  have hinodes := h.inodes_lt
  have hn' := (mem_freeInodes.mp hn).1
  have hslots := claimInode_slotsOnly d n
  refine ⟨?_, fun b hb => h.metadata b ((isMetadata_of_layout claimInode_layout).mp hb), ?_, ?_, ?_,
    ?_, fun b h₁ h₂ => (getBlockUsage_claimInode b).trans (h.reservedBlocks b h₁ h₂),
    fun m h₁ h₂ => ?_⟩
  · rw [sBlocksCount_of_layout claimInode_layout]
    exact h.mapped
  · rw [freeBlocks_claimInode, hslots.superBlock]
    exact h.sFreeBlocks
  · rw [freeBlocks_claimInode, hslots.groupDesc]
    exact h.bgFreeBlocks
  · rw [hcard, hslots.superBlock]
    simp only [setInodeUsage, increaseFreeInodesCount, h.sFreeInodes, wrap]
    omega
  · rw [hcard, hslots.groupDesc]
    simp only [setInodeUsage, increaseFreeInodesCount, h.bgFreeInodes, wrap]
    omega
  · rw [lastReservedInode] at h₂
    rw [getInodeUsage_claimInode (by omega) (by omega), h.reservedInodes m h₁ h₂]
    split <;> rfl

/-- What is stored after an inode was claimed. -/
theorem Sound.stored_claimInode (h : Sound d) (hn : ValidInode d n) {r : Ref} (hr : ValidRef d r) :
    stored (claimInode d n) r = 0 ∨ stored (claimInode d n) r = stored d r := by
  cases r with
  | slot m i =>
    by_cases hmn : m = n
    · subst hmn
      exact .inl (getInodeBlockNumber_claimInode d m i)
    · refine .inr (claimInode_footprint.stored_eq hmn fun hne hmem => ?_)
      exact hmn (h.indirectDistinct m n hr.1 hn hne hmem.2)
  | indirect m => exact .inr (claimInode_footprint.indirect m)

theorem InUse.claimed {b : Nat} (h : InUse d b) : InUse (claimInode d n) b := by
  refine ⟨?_, (getBlockUsage_claimInode b).trans h.marked,
    mt (isMetadata_of_layout claimInode_layout).mp h.notMetadata⟩
  rw [sBlocksCount_of_layout claimInode_layout]
  exact h.lt

theorem Sound.claimed (h : Sound d) (hn : n ∈ freeInodes d) : Sound (claimInode d n) :=
  h.of_drop (h.toCounted.claimed hn) claimInode_layout (fun _ => InUse.claimed)
    fun _ hr => h.stored_claimInode (mem_freeInodes.mp hn).1 hr

end ClaimInode

/-! ## Freeing an inode -/

/-- A write to a slot and the release of a block do not interfere. -/
theorem freeBlock_setInodeBlockNumber (d : Disk) (n i v b : Nat) :
    setInodeBlockNumber (freeBlock d b) n i v = freeBlock (setInodeBlockNumber d n i v) b := by
  by_cases hi : i < indirect1Index
  · rw [setInodeBlockNumber_direct _ _ _ hi, setInodeBlockNumber_direct _ _ _ hi]
    rfl
  · by_cases hatt : Attachable d n i
    · rw [setInodeBlockNumber_indirect v (by omega) hatt,
        setInodeBlockNumber_indirect (d := freeBlock d b) v (by omega) hatt]
      rfl
    · rw [setInodeBlockNumber_dropped v hatt, setInodeBlockNumber_dropped (d := freeBlock d b) v hatt]

theorem releaseSlot_eq (n : Nat) (d : Disk) (i : Nat) :
    releaseSlot n d i = if getInodeBlockNumber d n i = 0 then d
      else releaseEntryBlock d n i (getInodeBlockNumber d n i) := by
  rw [releaseSlot]
  split
  · rfl
  · exact freeBlock_setInodeBlockNumber _ _ _ _ _

section FreeInode

variable {d : Disk} {n : Nat}

/-- `free_inode` before its loop. -/
def unclaimInode (now : Nat) (d : Disk) (n : Nat) : Disk :=
  setInodeUsage (increaseFreeInodesCount
    (d.modifyInode n fun i => { i with iDtime := now, iSize := 0, iBlocks := 0 }) 1) n false

theorem freeInode_eq (now : Nat) (d : Disk) (n : Nat) : freeInode now d n
    = (List.range inodeBlockLimit).reverse.foldl (releaseSlot n) (unclaimInode now d n) := rfl

theorem unclaimInode_footprint (now : Nat) : Footprint d (unclaimInode now d n) {n} ∅ := by
  have h := modifyInode_footprint d n (fun i => { i with iDtime := now, iSize := 0, iBlocks := 0 })
    fun _ => rfl
  exact ⟨h.layout, h.inode, h.indirect, h.data⟩

theorem stored_unclaimInode (now : Nat) (r : Ref) : stored (unclaimInode now d n) r = stored d r := by
  rw [← stored_modifyInode d n (fun i => { i with iDtime := now, iSize := 0, iBlocks := 0 })
    (fun _ => rfl) r]
  cases r with
  | slot m i => rfl
  | indirect m => rfl

theorem getInodeUsage_unclaimInode (now : Nat) (hn : n < 2 ^ 32) {m : Nat} (hm : m < 2 ^ 32) :
    getInodeUsage (unclaimInode now d n) m = if m = n then false else getInodeUsage d m :=
  getInodeUsage_set _ false hn hm

theorem freeInodes_unclaimInode (now : Nat) (h : Counted d) (hn : ValidInode d n) :
    freeInodes (unclaimInode now d n) = insert n (freeInodes d) := by
  ext m
  have hlt := h.inodes_lt
  obtain ⟨h₁, h₂⟩ := hn
  rw [Finset.mem_insert, mem_freeInodes, mem_freeInodes,
    sInodesCount_of_layout (unclaimInode_footprint now).layout]
  constructor
  · rintro ⟨hm, husage⟩
    rw [getInodeUsage_unclaimInode now (by omega) (by omega)] at husage
    split at husage
    · rename_i heq
      exact .inl heq
    · exact .inr ⟨hm, husage⟩
  · rintro (rfl | ⟨hm, husage⟩)
    · exact ⟨⟨h₁, h₂⟩, by rw [getInodeUsage_unclaimInode now (by omega) (by omega), if_pos rfl]⟩
    · refine ⟨hm, ?_⟩
      rw [getInodeUsage_unclaimInode now (by omega) (by omega), husage]
      split <;> rfl

theorem Counted.unclaimed (now : Nat) (h : Counted d) (hn : ValidInode d n)
    (husage : getInodeUsage d n = true) (hres : lastReservedInode < n) :
    Counted (unclaimInode now d n) := by
  have hnot : n ∉ freeInodes d := fun hmem => by
    have hfree := (mem_freeInodes.mp hmem).2
    rw [husage] at hfree
    cases hfree
  have hcard : (freeInodes (unclaimInode now d n)).card = (freeInodes d).card + 1 := by
    rw [freeInodes_unclaimInode now h hn, Finset.card_insert_of_notMem hnot]
  have hlt := h.card_freeInodes_lt
  have hinodes := h.inodes_lt
  obtain ⟨h₁, h₂⟩ := hn
  refine ⟨h.mapped, h.metadata, h.sFreeBlocks, h.bgFreeBlocks, ?_, ?_, h.reservedBlocks,
    fun m hm₁ hm₂ => ?_⟩
  · rw [hcard]
    simp only [unclaimInode, setInodeUsage, increaseFreeInodesCount, Disk.modifyInode_superBlock,
      h.sFreeInodes, wrap]
    omega
  · rw [hcard]
    simp only [unclaimInode, setInodeUsage, increaseFreeInodesCount, Disk.modifyInode_groupDesc,
      h.bgFreeInodes, wrap]
    omega
  · rw [getInodeUsage_unclaimInode now (by omega) (by rw [lastReservedInode] at hm₂; omega),
      if_neg (by omega), h.reservedInodes m hm₁ hm₂]

theorem Sound.unclaimed (now : Nat) (h : Sound d) (hn : ValidInode d n)
    (husage : getInodeUsage d n = true) (hres : lastReservedInode < n) :
    Sound (unclaimInode now d n) :=
  h.of_drop (h.toCounted.unclaimed now hn husage hres) (unclaimInode_footprint now).layout
    (fun _ hb => ⟨hb.lt, hb.marked, hb.notMetadata⟩) fun r _ => .inr (stored_unclaimInode now r)

/-- One round of the loop of `free_inode` changes slot `i` alone, and empties it. -/
theorem getInodeBlockNumber_releaseSlot (d : Disk) (n i j : Nat) :
    getInodeBlockNumber (releaseSlot n d i) n j = 0 ∨
      getInodeBlockNumber (releaseSlot n d i) n j = getInodeBlockNumber d n j := by
  rw [releaseSlot_eq]
  split
  · exact .inr rfl
  · have hfreed : getInodeBlockNumber (releaseEntryBlock d n i (getInodeBlockNumber d n i)) n j
        = getInodeBlockNumber (setInodeBlockNumber d n i 0) n j :=
      freeBlock_footprint.slots (Set.notMem_empty _) (fun _ => Set.notMem_empty _) j
    rw [hfreed, getInodeBlockNumber_set_self d n i j (show 0 < 2 ^ 32 by norm_num)]
    split
    · exact .inl rfl
    · exact .inr rfl

theorem releaseSlot_layout (d : Disk) (n i : Nat) : (releaseSlot n d i).layout = d.layout := by
  rw [releaseSlot_eq]
  split
  · rfl
  · exact freeBlock_layout.trans (setInodeBlockNumber_slotsOnly d n i 0 []).sameAccounts.layout

theorem Sound.sound_releaseSlot (h : Sound d) (hn : ValidInode d n) {i : Nat}
    (hi : i < inodeBlockLimit)
    (hres : getInodeBlockNumber d n i = 0 ∨ lastReservedBlock < getInodeBlockNumber d n i) :
    Sound (releaseSlot n d i) := by
  rw [releaseSlot_eq]
  split
  · exact h
  · rename_i hne
    exact h.released hn hi (hres.resolve_left hne)

/-- The whole loop. -/
theorem Sound.sound_releaseSlots (h : Sound d) (hn : ValidInode d n) {l : List Nat}
    (hl : ∀ i ∈ l, i < inodeBlockLimit)
    (hres : ∀ i ∈ l, getInodeBlockNumber d n i = 0 ∨ lastReservedBlock < getInodeBlockNumber d n i) :
    Sound (l.foldl (releaseSlot n) d) := by
  induction l generalizing d with
  | nil => exact h
  | cons i l ih =>
    have hone := h.sound_releaseSlot hn (hl i (by simp)) (hres i (by simp))
    have hn' := (validInode_of_layout (releaseSlot_layout d n i)).mpr hn
    refine ih hone hn' (fun j hj => hl j (by simp [hj])) fun j hj => ?_
    rcases getInodeBlockNumber_releaseSlot d n i j with hzero | hsame
    · exact .inl hzero
    · rw [hsame]
      exact hres j (by simp [hj])

/-- `free_inode` keeps the image sound. -/
theorem Sound.sound_freeInode (now : Nat) (h : Sound d) (hn : ValidInode d n)
    (husage : getInodeUsage d n = true) (hres : lastReservedInode < n)
    (hblocks : ∀ i, i < inodeBlockLimit → getInodeBlockNumber d n i = 0 ∨
      lastReservedBlock < getInodeBlockNumber d n i) : Sound (freeInode now d n) := by
  have hslot : ∀ i, getInodeBlockNumber (unclaimInode now d n) n i = getInodeBlockNumber d n i :=
    fun i => stored_unclaimInode now (.slot n i)
  have hn' : ValidInode (unclaimInode now d n) n :=
    (validInode_of_layout (unclaimInode_footprint now).layout).mpr hn
  refine (h.unclaimed now hn husage hres).sound_releaseSlots hn' (fun i hi => ?_) fun i hi => ?_
  · simpa using hi
  · rw [hslot]
    exact hblocks i (by simpa using hi)

end FreeInode

end Ext2
end OsAssignments
