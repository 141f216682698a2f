import OsAssignments.Ext2.FailedCopy

/-!
# Copies onto an existing file

`ext2_cp` onto a file that exists takes new blocks and puts them over the old slots.  It
never calls `free_block`, and a slot behind the direct ones takes a block only if the inode
has an indirect block.

* `usedBlocks` — the blocks marked used.
* `Copied.blocksOf_eq` — the blocks of the file afterwards.
* `overwrite_releases_iff` — the blocks the file gave up are free again exactly if it held
  no data block before and the new blocks all have a slot.
-/

namespace OsAssignments
namespace Ext2

open ByteMemory MachineWord ExitState

/-- The blocks marked used. -/
def usedBlocks (d : Disk) : Set Nat :=
  {b | (1 ≤ b ∧ b < d.superBlock.sBlocksCount) ∧ getBlockUsage d b = true}

section

variable {d d' d₁ : Disk} {bs : List Nat} {k n now : Nat} {content : List UInt8}

theorem Sound.blocksOf_subset (h : Sound d) (hn : ValidInode d n) :
    blocksOf d n ⊆ usedBlocks d := by
  intro c hc
  have hin := h.inUse_of_mem hn hc
  exact ⟨⟨Nat.pos_of_ne_zero hc.1, hin.lt⟩, hin.marked⟩

theorem Taken.not_mem_usedBlocks (ht : Taken d k bs) {b : Nat} (hb : b ∈ bs) :
    b ∉ usedBlocks d := by
  intro hused
  have hfree := (mem_freeBlocks.mp (ht.free b hb)).2
  rw [hused.2] at hfree
  cases hfree

/-- Taking blocks marks them and no others. -/
theorem Taken.usedBlocks_eq (ht : Taken d k bs) (h : Counted d)
    (ha : SameAccounts (handOut d bs) d') : usedBlocks d' = usedBlocks d ∪ {c | c ∈ bs} := by
  have hlayout : d'.layout = d.layout := ha.layout.trans handOut_layout
  have hmapped := h.blocks_le
  ext c
  simp only [usedBlocks, Set.mem_union, Set.mem_ofPred_eq, sBlocksCount_of_layout hlayout]
  constructor
  · rintro ⟨hc, husage⟩
    rw [ha.getBlockUsage_eq, getBlockUsage_handOut h ht.free (by omega), Bool.or_eq_true,
      decide_eq_true_eq] at husage
    exact husage.symm.imp_left fun hused => ⟨hc, hused⟩
  · rintro (⟨hc, husage⟩ | hmem)
    · refine ⟨hc, ?_⟩
      rw [ha.getBlockUsage_eq, getBlockUsage_handOut h ht.free (by omega), husage, Bool.or_true]
    · have hc := (mem_freeBlocks.mp (ht.free c hmem)).1
      refine ⟨hc, ?_⟩
      rw [ha.getBlockUsage_eq, getBlockUsage_handOut h ht.free (by omega), decide_eq_true hmem,
        Bool.true_or]

/-! ## The new blocks -/

/-- A copy that comes to its end has taken the blocks of the file and no more. -/
theorem Taken.chunk_iff (ht : Taken d (getRequiredBlockCount content.length) bs) (h : Counted d)
    (hcopy : Copied now d₁ d' n bs content) (j : Nat) : fileChunk content j ≠ [] ↔ j < bs.length := by
  have hfits := ht.fits h hcopy
  have hle := ht.needed_le
  have hcard := h.card_freeBlocks_lt
  have hlen := ht.length
  have hword : content.length + ext2BlockSize - 1 < 2 ^ 32 := by
    rw [ext2BlockSize_eq] at hfits ⊢
    omega
  rw [getRequiredBlockCount, wrap_of_lt hword] at hlen
  rw [mem_fileChunk, ext2BlockSize_eq]
  rw [ext2BlockSize_eq] at hlen
  omega

/-- **The blocks of the file afterwards**: its indirect block, and those of the new blocks that
have a slot. -/
theorem Copied.blocksOf_eq (hcopy : Copied now d₁ d' n bs content)
    (hchunk : ∀ j, fileChunk content j ≠ [] ↔ j < bs.length) (hpos : ∀ b ∈ bs, b ≠ 0) :
    blocksOf d' n = indirectOf d₁ n ∪
      {c | ∃ j, (j < inodeBlockLimit ∧ Attachable d₁ n j) ∧ bs[j]? = some c} := by
  ext c
  simp only [blocksOf, indirectOf, Set.mem_union, Set.mem_ofPred_eq, hcopy.footprint.indirect]
  constructor
  · rintro ⟨hne, hc | ⟨j, hj, hc⟩⟩
    · exact .inl ⟨hne, hc⟩
    · rw [hcopy.slots] at hc
      by_cases hatt : j < inodeBlockLimit ∧ Attachable d₁ n j
      · rw [if_pos hatt] at hc
        refine .inr ⟨j, hatt, ?_⟩
        rw [hc] at hne ⊢
        exact (chunkBlock_cases bs content j).resolve_left hne
      · rw [if_neg hatt] at hc
        exact absurd hc hne
  · rintro (⟨hne, hc⟩ | ⟨j, hatt, hc⟩)
    · exact ⟨hne, .inl hc⟩
    · refine ⟨hpos c (List.mem_of_getElem? hc), .inr ⟨j, hatt.1, ?_⟩⟩
      have hlen := (List.getElem?_eq_some_iff.mp hc).1
      rw [hcopy.slots, if_pos hatt, chunkBlock, if_pos ((hchunk j).mpr hlen),
        List.getD_eq_getElem?_getD, hc]
      rfl

theorem Copied.blocksOf_handOut (hcopy : Copied now (handOut d bs) d' n bs content)
    (ht : Taken d (getRequiredBlockCount content.length) bs) (h : Counted d) :
    blocksOf d' n = indirectOf d n ∪
      {c | ∃ j, (j < indirect1Index ∨ indirectBlock d n ≠ 0) ∧ bs[j]? = some c} := by
  have hpos : ∀ b ∈ bs, b ≠ 0 := by
    intro b hb
    have := (h.free_bounds (ht.free b hb)).1
    omega
  have hind : indirectBlock (handOut d bs) n = indirectBlock d n := by
    rw [indirectBlock, handOut_inodeTable, indirectBlock]
  rw [hcopy.blocksOf_eq (ht.chunk_iff h hcopy) hpos, indirectOf, hind, ← indirectOf]
  refine congrArg (indirectOf d n ∪ ·) (Set.ext fun c => ?_)
  refine exists_congr fun j => and_congr_left fun hj => ?_
  have hlt := (List.getElem?_eq_some_iff.mp hj).1
  have hlimit : j < inodeBlockLimit := by
    rw [ht.length] at hlt
    exact hlt.trans (ht.lt_limit h)
  rw [and_iff_right hlimit, Attachable, and_iff_right hlimit, hind]

/-! ## The old blocks -/

/-- The image `d'` counts as used what it did before, without the old blocks of the inode and
with its new ones, and both counters fit. -/
structure BlocksReleased (d d' : Disk) (n : Nat) : Prop where
  used : usedBlocks d' = usedBlocks d \ blocksOf d n ∪ blocksOf d' n
  sFreeBlocks : d'.superBlock.sFreeBlocksCount = (freeBlocks d').card
  bgFreeBlocks : d'.groupDesc.bgFreeBlocksCount = (freeBlocks d').card

/-- The file holds no data block, and there is a slot for every block of the content. -/
def NothingToRelease (d : Disk) (n : Nat) (content : List UInt8) : Prop :=
  (∀ i, i < inodeBlockLimit → getInodeBlockNumber d n i = 0) ∧
    (content.length ≤ indirect1Index * ext2BlockSize ∨ indirectBlock d n ≠ 0)

section

variable (h : Sound d) (hn : ValidInode d n)
  (ht : Taken d (getRequiredBlockCount content.length) bs)
  (hcopy : Copied now (handOut d bs) d' n bs content)

include h hn ht hcopy

/-- A data block of the file stays used and is not a block of the file any more. -/
theorem Copied.data_lost (hrel : BlocksReleased d d' n) {i : Nat} (hi : i < inodeBlockLimit) :
    getInodeBlockNumber d n i = 0 := by
  by_contra hne
  have hold := mem_blocksOf_slot hi hne
  have hused := h.blocksOf_subset hn hold
  have hmem : getInodeBlockNumber d n i ∈ usedBlocks d' := by
    rw [ht.usedBlocks_eq h.toCounted hcopy.accounts]
    exact .inl hused
  rw [hrel.used] at hmem
  rcases hmem with hmem | hmem
  · exact hmem.2 hold
  rw [hcopy.blocksOf_handOut ht h.toCounted] at hmem
  rcases hmem with hind | ⟨j, -, hj⟩
  · exact h.slot_ne_indirect hn hi hn (fun h0 => hind.1 (hind.2.trans h0)) hind.2.symm
  · exact ht.not_mem_usedBlocks (List.mem_of_getElem? hj) hused

omit hn in
/-- A block without a slot is used and belongs to nobody. -/
theorem Copied.block_lost (hrel : BlocksReleased d d' n) :
    content.length ≤ indirect1Index * ext2BlockSize ∨ indirectBlock d n ≠ 0 := by
  by_contra hno
  rw [not_or, not_not] at hno
  obtain ⟨hlong, hind⟩ := hno
  have hlen : indirect1Index < bs.length := by
    rw [← ht.chunk_iff h.toCounted hcopy, mem_fileChunk]
    rw [Nat.mul_comm]
    omega
  obtain ⟨b, hb⟩ : ∃ b, bs[indirect1Index]? = some b := ⟨_, List.getElem?_eq_getElem hlen⟩
  have hmem : b ∈ usedBlocks d' := by
    rw [ht.usedBlocks_eq h.toCounted hcopy.accounts]
    exact .inr (List.mem_of_getElem? hb)
  rw [hrel.used] at hmem
  rcases hmem with hmem | hmem
  · exact ht.not_mem_usedBlocks (List.mem_of_getElem? hb) hmem.1
  rw [hcopy.blocksOf_handOut ht h.toCounted] at hmem
  rcases hmem with hindirect | ⟨j, hj, hbj⟩
  · exact hindirect.1 (hindirect.2.trans hind)
  · have hsame : j = indirect1Index :=
      (List.getElem?_inj (List.getElem?_eq_some_iff.mp hbj).1 ht.nodup).mp (hbj.trans hb.symm)
    exact (hj.resolve_right fun hne => hne hind).ne hsame

theorem Copied.released (hnone : NothingToRelease d n content) : BlocksReleased d d' n := by
  have hsound : Sound d' := by
    refine (h.handedOut ht.nodup ht.free).copied ?_ ht.nodup ?_ ?_ hcopy
    · exact (validInode_of_layout handOut_layout).mpr hn
    · exact (h.fresh_handOut ht.nodup ht.free).used
    · exact (h.fresh_handOut ht.nodup ht.free).unowned
  refine ⟨?_, hsound.sFreeBlocks, hsound.bgFreeBlocks⟩
  have hold : blocksOf d n = indirectOf d n := by
    refine Set.Subset.antisymm ?_ (indirectOf_subset d n)
    rintro c ⟨hne, hc | ⟨i, hi, hc⟩⟩
    · exact ⟨hne, hc⟩
    · exact absurd (hc.trans (hnone.1 i hi)) hne
  have hnew : {c | ∃ j, (j < indirect1Index ∨ indirectBlock d n ≠ 0) ∧ bs[j]? = some c}
      = {c | c ∈ bs} := by
    ext c
    refine ⟨fun hc => ?_, fun hc => ?_⟩
    · obtain ⟨j, -, hj⟩ := hc
      exact List.mem_of_getElem? hj
    obtain ⟨j, hj⟩ := List.mem_iff_getElem?.mp hc
    refine ⟨j, hnone.2.imp_left fun hshort => ?_, hj⟩
    have hlt := (ht.chunk_iff h.toCounted hcopy j).mpr (List.getElem?_eq_some_iff.mp hj).1
    rw [mem_fileChunk, ext2BlockSize_eq] at hlt
    rw [ext2BlockSize_eq] at hshort
    omega
  rw [ht.usedBlocks_eq h.toCounted hcopy.accounts, hcopy.blocksOf_handOut ht h.toCounted, hold,
    hnew, ← Set.union_assoc, Set.sdiff_union_of_subset]
  exact hold ▸ h.blocksOf_subset hn

end

/-- A copy onto a file that exists has taken new blocks and put them into its slots. -/
theorem ConsistentAs.ext2Cp_existing (h : Consistent d) (host : CString → Option (List UInt8))
    {source dest : CString} (hhost : host (afterStrtok source) = some content) {e : Nat}
    (hdest : traversePath d (destComponents d source dest) = some e)
    (hrun : ext2Cp now host source dest d = .done () d') :
    InodeInUse d (entryInode d.data e) ∧ ∃ bs, Taken d (getRequiredBlockCount content.length) bs ∧
      Copied now (handOut d bs) d' (entryInode d.data e) bs content := by
  obtain ⟨m, hl⟩ := h.traversePath_live (destComponents_ne_nil d source dest) hdest
  refine ⟨(h.names m e hl).1, ?_⟩
  have hout := h.ext2Cp_copyOutcome now dest hhost
  rw [hrun] at hout
  cases hout with
  | @existing bs e' pe _ ht hparent hdest' hcopy =>
    obtain rfl : e = e' := Option.some.inj (hdest.symm.trans hdest')
    exact ⟨bs, ht, hcopy⟩
  | new _ _ habsent =>
    rw [hdest] at habsent
    cases habsent

/-- **A copy onto an existing file releases its old blocks** exactly if there is nothing to
release. -/
theorem overwrite_releases_iff (h : Consistent d) (host : CString → Option (List UInt8))
    {source dest : CString} (hhost : host (afterStrtok source) = some content) {e : Nat}
    (hdest : traversePath d (destComponents d source dest) = some e)
    (hrun : ext2Cp now host source dest d = .done () d') :
    BlocksReleased d d' (entryInode d.data e) ↔
      NothingToRelease d (entryInode d.data e) content := by
  obtain ⟨hn, bs, ht, hcopy⟩ := h.ext2Cp_existing host hhost hdest hrun
  exact ⟨fun hrel => ⟨fun i hi => hcopy.data_lost h.sound hn.1 ht hrel hi,
    hcopy.block_lost h.sound ht hrel⟩, hcopy.released h.sound hn.1 ht⟩

/-- Content that fits into the free blocks can be copied onto an existing file. -/
theorem ConsistentAs.ext2Cp_done (h : Consistent d) (now : Nat)
    (host : CString → Option (List UInt8)) {source dest : CString}
    (hhost : host (afterStrtok source) = some content) {e pe : Nat}
    (hparent : traversePath d (destComponents d source dest).dropLast = some pe)
    (hdest : traversePath d (destComponents d source dest) = some e)
    (hready : CopyReady d content) : ∃ d', ext2Cp now host source dest d = .done () d' := by
  have hout := h.ext2Cp_copyOutcome now dest hhost
  generalize ext2Cp now host source dest d = o at hout
  cases hout with
  | existing => exact ⟨_, rfl⟩
  | new => exact ⟨_, rfl⟩
  | noBlocks hfew => exact absurd hready.blocks (by omega)
  | noParent _ hnone => exact absurd (hnone.symm.trans hparent) (by simp)
  | noInode _ _ habsent => exact absurd (habsent.symm.trans hdest) (by simp)
  | entryFull _ _ habsent => exact absurd (habsent.symm.trans hdest) (by simp)
  | entryOverrun _ _ habsent => exact absurd (habsent.symm.trans hdest) (by simp)
  | tooLarge ht hlong =>
    obtain ⟨i, hi, hlen⟩ := hlong
    have hfits := hready.fits
    rw [mem_fileChunk] at hi
    rw [ht.length] at hlen
    have := Nat.mul_le_mul_left ext2BlockSize hlen
    omega

/-! ## A file with a block -/

/-- A file that is no directory may take a block. -/
theorem ConsistentAs.attachedBlock (h : Consistent d) (hn : InodeInUse d n) (hdir : ¬ IsDirInode d n)
    {b : Nat} (hb : b ∈ freeBlocks d) (i : Nat) : Consistent (attachBlock d n i b) := by
  have hfoot := attachBlock_footprint d n i b
  have huse : ∀ m, InodeInUse (attachBlock d n i b) m ↔ InodeInUse d m := by
    intro m
    have hbitmap : (attachBlock d n i b).inodeBitmap = d.inodeBitmap :=
      (attachBlock_sameAccounts d n i b).inodeBitmap.trans handOut_inodeBitmap
    rw [InodeInUse, InodeInUse, validInode_of_layout hfoot.layout, getInodeUsage, hbitmap,
      ← getInodeUsage]
  have hkept : DirsKept d (attachBlock d n i b) := by
    intro m hm
    have hne : m ≠ n := fun heq => hdir (heq ▸ hm)
    refine hfoot.sameFile hne (Set.disjoint_left.mpr fun c hc hmem => ?_)
    rcases hmem with rfl | hmem
    · exact h.sound.not_mem_blocksOf hm.1.1 (mem_freeBlocks.mp hb).2 hc
    · exact Set.disjoint_left.mp (h.sound.disjoint_blocksOf hm.1.1 hn.1 hne) hc
        (indirectOf_subset d n hmem)
  refine hkept.consistent h (h.sound.attachedBlock i hn.1 hb) (fun m => ?_) fun m => (huse m).mpr
  obtain ⟨_, _, hinode⟩ := attachBlock_inode d n i b m
  rw [IsDirInode, IsDirInode, huse, hinode]

end

/-- The file `/f` of the small image has block 24. -/
def blockImage : Disk := attachBlock smallImage 12 0 24

theorem smallImage_file : InodeInUse smallImage 12 ∧ ¬ IsDirInode smallImage 12 :=
  ⟨⟨⟨by decide, by decide⟩, by decide⟩, fun h => absurd h.2 (by decide)⟩

theorem blockImage_consistent : Consistent blockImage := by
  have hb : 24 ∈ freeBlocks smallImage := mem_freeBlocks.mpr ⟨⟨by decide, by decide⟩, by decide⟩
  exact smallImage_consistent.attachedBlock smallImage_file.1 smallImage_file.2 hb 0

theorem overwrite_releases_example : ∃ d', ext2Cp 0 (fun _ => some [120]) [47, 120] [47, 102]
    smallImage = .done () d' ∧ BlocksReleased smallImage d' (entryInode smallImage.data 23576) := by
  have hdest : traversePath smallImage (destComponents smallImage [47, 120] [47, 102])
      = some 23576 := by decide +kernel
  have hparent : traversePath smallImage (destComponents smallImage [47, 120] [47, 102]).dropLast
      = some 23552 := by decide +kernel
  have hcard : (freeBlocks smallImage).card = 104 := smallImage_consistent.sound.sFreeBlocks.symm
  have hready : CopyReady smallImage [120] := by
    refine ⟨by rw [hcard]; decide, by decide, ⟨13, ?_⟩⟩
    exact mem_freeInodes.mpr ⟨⟨by decide, by decide⟩, by decide⟩
  obtain ⟨d', hrun⟩ := smallImage_consistent.ext2Cp_done 0 (fun _ => some [120]) rfl hparent hdest
    hready
  have hfile : entryInode smallImage.data 23576 = 12 := by decide +kernel
  have hiff := overwrite_releases_iff smallImage_consistent (fun _ => some [120]) rfl hdest hrun
  rw [hfile] at hiff ⊢
  refine ⟨d', hrun, hiff.mpr ⟨fun i hi => ?_, .inl (by decide)⟩⟩
  by_contra hne
  exact absurd (stored_smallDisk (r := .slot 12 i) ⟨smallImage_file.1.1, hi⟩ hne).1 (by simp)

/-- The block of `/f` is lost when an empty file is copied onto it. -/
theorem blockImage_not_released : Consistent blockImage ∧
    ∃ d', ext2Cp 0 (fun _ => some []) [47, 120] [47, 102] blockImage = .done () d' ∧
      ¬ BlocksReleased blockImage d' 12 := by
  have hdest : traversePath blockImage (destComponents blockImage [47, 120] [47, 102])
      = some 23576 := by decide +kernel
  have hparent : traversePath blockImage (destComponents blockImage [47, 120] [47, 102]).dropLast
      = some 23552 := by decide +kernel
  have hinodes : (freeInodes blockImage).Nonempty :=
    ⟨13, mem_freeInodes.mpr ⟨⟨by decide, by decide⟩, by decide +kernel⟩⟩
  have hneeded : getRequiredBlockCount ([] : List UInt8).length = 0 := by decide
  have hready : CopyReady blockImage [] := by
    refine ⟨?_, Nat.zero_le _, hinodes⟩
    rw [hneeded]
    exact Nat.zero_le _
  obtain ⟨d', hrun⟩ := blockImage_consistent.ext2Cp_done 0 (fun _ => some []) rfl hparent hdest hready
  have hfile : entryInode blockImage.data 23576 = 12 := by decide +kernel
  obtain ⟨hn, bs, ht, hcopy⟩ := blockImage_consistent.ext2Cp_existing (fun _ => some []) rfl hdest hrun
  rw [hfile] at hn hcopy
  have hslot : getInodeBlockNumber blockImage 12 0 ≠ 0 := by decide +kernel
  exact ⟨blockImage_consistent, d', hrun, fun hrel =>
    hslot (hcopy.data_lost blockImage_consistent.sound hn.1 ht hrel (by decide))⟩

end Ext2
end OsAssignments
