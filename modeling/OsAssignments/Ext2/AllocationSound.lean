import OsAssignments.Ext2.Footprint

/-!
# The allocator keeps the image sound

One lemma for each function that hands out or takes back a block: what it does to the
counters, the bitmap and the stored block numbers.

* `Counted.allocateBlocks_done`, `Counted.allocateBlocks_exit` — the outcome of the search on
  an image whose counters are right.
* `Sound.handedOut` — blocks handed out are accounted for.
* `Sound.attach`, `Sound.released` — a block gets its owner, and gives it up.
-/

namespace OsAssignments
namespace Ext2

open ByteMemory MachineWord ExitState Ownership

/-! ## Changes that keep the accounts -/

/-- The counters of free blocks and inodes, and the bitmaps, are the same. -/
structure SameAccounts (d d' : Disk) : Prop where
  layout : d'.layout = d.layout
  sFreeBlocks : d'.superBlock.sFreeBlocksCount = d.superBlock.sFreeBlocksCount
  bgFreeBlocks : d'.groupDesc.bgFreeBlocksCount = d.groupDesc.bgFreeBlocksCount
  sFreeInodes : d'.superBlock.sFreeInodesCount = d.superBlock.sFreeInodesCount
  bgFreeInodes : d'.groupDesc.bgFreeInodesCount = d.groupDesc.bgFreeInodesCount
  blockBitmap : d'.blockBitmap = d.blockBitmap
  inodeBitmap : d'.inodeBitmap = d.inodeBitmap

namespace SameAccounts

variable {d d' : Disk}

theorem getBlockUsage_eq (h : SameAccounts d d') (b : Nat) :
    getBlockUsage d' b = getBlockUsage d b := by
  rw [getBlockUsage, h.blockBitmap, getBlockUsage]

theorem getInodeUsage_eq (h : SameAccounts d d') (n : Nat) :
    getInodeUsage d' n = getInodeUsage d n := by
  rw [getInodeUsage, h.inodeBitmap, getInodeUsage]

theorem freeBlocks_eq (h : SameAccounts d d') : freeBlocks d' = freeBlocks d := by
  simp only [freeBlocks, h.getBlockUsage_eq, sBlocksCount_of_layout h.layout]

theorem freeInodes_eq (h : SameAccounts d d') : freeInodes d' = freeInodes d := by
  simp only [freeInodes, h.getInodeUsage_eq, sInodesCount_of_layout h.layout]

theorem counted (h : SameAccounts d d') (hd : Counted d) : Counted d' where
  mapped := by
    rw [sBlocksCount_of_layout h.layout]
    exact hd.mapped
  metadata b hb := hd.metadata b ((isMetadata_of_layout h.layout).mp hb)
  sFreeBlocks := by rw [h.sFreeBlocks, h.freeBlocks_eq, hd.sFreeBlocks]
  bgFreeBlocks := by rw [h.bgFreeBlocks, h.freeBlocks_eq, hd.bgFreeBlocks]
  sFreeInodes := by rw [h.sFreeInodes, h.freeInodes_eq, hd.sFreeInodes]
  bgFreeInodes := by rw [h.bgFreeInodes, h.freeInodes_eq, hd.bgFreeInodes]
  reservedBlocks b h₁ h₂ := (h.getBlockUsage_eq b).trans (hd.reservedBlocks b h₁ h₂)
  reservedInodes n h₁ h₂ := (h.getInodeUsage_eq n).trans (hd.reservedInodes n h₁ h₂)

theorem inUse (h : SameAccounts d d') {b : Nat} (hb : InUse d b) : InUse d' b where
  lt := by
    rw [sBlocksCount_of_layout h.layout]
    exact hb.lt
  marked := (h.getBlockUsage_eq b).trans hb.marked
  notMetadata := mt (isMetadata_of_layout h.layout).mp hb.notMetadata

end SameAccounts

theorem SlotsOnly.sameAccounts {d d' : Disk} {n : Nat} {bs : List Nat} (h : SlotsOnly d d' n bs) :
    SameAccounts d d' :=
  ⟨h.footprint.layout, by rw [h.superBlock], by rw [h.groupDesc], by rw [h.superBlock],
    by rw [h.groupDesc], h.blockBitmap, h.inodeBitmap⟩

theorem modifyInode_sameAccounts (d : Disk) (n : Nat) (f : Inode → Inode) :
    SameAccounts d (d.modifyInode n f) := ⟨rfl, rfl, rfl, rfl, rfl, rfl, rfl⟩

theorem stored_modifyInode (d : Disk) (n : Nat) (f : Inode → Inode)
    (hf : ∀ i, (f i).iBlock = i.iBlock) (r : Ref) : stored (d.modifyInode n f) r = stored d r := by
  have hblock : ∀ m, ((d.modifyInode n f).inodeTable m).iBlock = (d.inodeTable m).iBlock := by
    intro m
    rw [d.modifyInode_inodeTable]
    split
    · rename_i heq
      rw [hf, heq]
    · rfl
  cases r with
  | slot m i => exact getInodeBlockNumber_congr (hblock m) (fun _ => AgreeOn.refl _ _ _) i
  | indirect m => exact congrFun (hblock m) _

/-- Outside the footprint the stored numbers are the same. -/
theorem Footprint.stored_eq {d d' : Disk} {ns bs : Set Nat} (h : Footprint d d' ns bs) {r : Ref}
    (hn : r.inode ∉ ns) (hind : indirectBlock d r.inode ≠ 0 → indirectBlock d r.inode ∉ bs) :
    stored d' r = stored d r := by
  cases r with
  | slot n i => exact h.slots hn hind i
  | indirect n => exact h.indirect n

namespace Sound

variable {d d' : Disk}

/-- Numbers may be dropped, and numbers of `fresh` blocks taken up, each once. -/
theorem of_adopt (h : Sound d) (hc : Counted d') (hl : d'.layout = d.layout)
    (hmono : ∀ b, InUse d b → InUse d' b) {fresh : Nat → Prop}
    (hfresh : ∀ b, fresh b → InUse d' b)
    (hstep : ∀ r, ValidRef d r → stored d' r = 0 ∨ stored d' r = stored d r ∨ fresh (stored d' r))
    (hinj : ∀ r s, ValidRef d r → ValidRef d s → fresh (stored d' r) →
      stored d' r = stored d' s → r = s) : Sound d' where
  toCounted := hc
  refs := by
    have hrefs := h.refs.adopt hmono hfresh hstep hinj
    exact ⟨fun r hr => hrefs.used_of r ((validRef_of_layout hl).mp hr),
      fun r s hr hs => hrefs.inj r s ((validRef_of_layout hl).mp hr)
        ((validRef_of_layout hl).mp hs)⟩

theorem of_drop (h : Sound d) (hc : Counted d') (hl : d'.layout = d.layout)
    (hmono : ∀ b, InUse d b → InUse d' b)
    (hstep : ∀ r, ValidRef d r → stored d' r = 0 ∨ stored d' r = stored d r) : Sound d' :=
  h.of_adopt hc hl hmono (fun _ hf => hf.elim : ∀ b, False → InUse d' b)
    (fun r hr => (hstep r hr).imp_right .inl) (fun _ _ _ _ hf => hf.elim)

theorem of_same (h : Sound d) (ha : SameAccounts d d')
    (hstep : ∀ r, ValidRef d r → stored d' r = stored d r) : Sound d' :=
  h.of_drop (ha.counted h.toCounted) ha.layout (fun _ => ha.inUse) fun r hr => .inr (hstep r hr)

/-- Fields other than the block numbers play no role. -/
theorem modifiedInode (h : Sound d) (n : Nat) (f : Inode → Inode)
    (hf : ∀ i, (f i).iBlock = i.iBlock) : Sound (d.modifyInode n f) :=
  h.of_same (modifyInode_sameAccounts d n f) fun r _ => stored_modifyInode d n f hf r

end Sound

/-! ## Handing out blocks -/

/-- The free blocks in the order of the search. -/
def freeList (d : Disk) : List Nat :=
  freeNumbers d (lastReservedBlock + 1) (d.superBlock.sBlocksCount - (lastReservedBlock + 1))

/-- The image after the blocks `bs` are handed out. -/
def handOut (d : Disk) (bs : List Nat) : Disk :=
  useBlocks (increaseFreeBlocksCount d (-bs.length)) bs

theorem mem_freeList {d : Disk} (h : Counted d) {b : Nat} : b ∈ freeList d ↔ b ∈ freeBlocks d := by
  rw [freeList, mem_freeNumbers, mem_freeBlocks]
  have hres := h.reservedBlocks b
  constructor
  · rintro ⟨⟨h₁, h₂⟩, hfree⟩
    exact ⟨by omega, hfree⟩
  · rintro ⟨⟨h₁, h₂⟩, hfree⟩
    have hgt : lastReservedBlock < b := by
      by_contra hle
      simp [hres h₁ (by omega)] at hfree
    exact ⟨by omega, hfree⟩

theorem length_freeList {d : Disk} (h : Counted d) : (freeList d).length = (freeBlocks d).card := by
  have heq : (freeList d).toFinset = freeBlocks d := by
    ext b
    rw [List.mem_toFinset, mem_freeList h]
  have hnodup : (freeList d).Nodup := nodup_freeNumbers _ _ _
  rw [← heq, List.toFinset_card_of_nodup hnodup]

/-- `allocate_blocks` exits if there are too few free blocks. -/
theorem Counted.allocateBlocks_exit {d : Disk} (h : Counted d) {n : Nat}
    (hn : (freeBlocks d).card < n) : allocateBlocks n d = .exit 1 d := by
  rw [allocateBlocks, Command.bind_of_done (Command.get_apply d), h.sFreeBlocks, if_pos hn]
  rfl

/-- Otherwise it hands out the first of them. -/
theorem Counted.allocateBlocks_done {d : Disk} (h : Counted d) {n : Nat}
    (hn : n ≤ (freeBlocks d).card) :
    allocateBlocks n d = .done ((freeList d).take n) (handOut d ((freeList d).take n)) := by
  have hmapped := h.blocks_le
  have hlen : ((freeList d).take n).length = n := by
    rw [List.length_take, length_freeList h]
    omega
  have hall : freeNumbers (increaseFreeBlocksCount d (-n)) (lastReservedBlock + 1)
      (mappedBlocks - (lastReservedBlock + 1)) = freeList d ++
        freeNumbers d (lastReservedBlock + 1 + (d.superBlock.sBlocksCount - (lastReservedBlock + 1)))
          (mappedBlocks - (lastReservedBlock + 1)
            - (d.superBlock.sBlocksCount - (lastReservedBlock + 1))) := by
    have hsplit := NumberSearch.unused_append (getBlockUsage d) (lastReservedBlock + 1)
      (d.superBlock.sBlocksCount - (lastReservedBlock + 1))
      (mappedBlocks - (lastReservedBlock + 1)
        - (d.superBlock.sBlocksCount - (lastReservedBlock + 1)))
    refine Eq.trans ?_ hsplit
    rw [freeNumbers_increase, freeNumbers, NumberSearch.unused]
    congr 2
    simp only [mappedBlocks, lastReservedBlock]
    omega
  have hsearch := allocateFrom_eq (increaseFreeBlocksCount d (-n))
    (mappedBlocks - (lastReservedBlock + 1)) (lastReservedBlock + 1) n
    (by simp [mappedBlocks, lastReservedBlock])
    (by rw [hall, List.length_append, length_freeList h]; omega)
  rw [hall, List.take_append_of_le_length (by rw [length_freeList h]; exact hn)] at hsearch
  rw [allocateBlocks, Command.bind_of_done (Command.get_apply d), h.sFreeBlocks,
    if_neg (by omega), Command.bind_of_done (Command.modify_apply _ d), hsearch, handOut, hlen]

section HandOut

variable {d : Disk} {bs : List Nat}

@[simp] theorem handOut_inodeTable : (handOut d bs).inodeTable = d.inodeTable := by
  simp [handOut, increaseFreeBlocksCount]

@[simp] theorem handOut_inodeBitmap : (handOut d bs).inodeBitmap = d.inodeBitmap := by
  simp [handOut, increaseFreeBlocksCount]

theorem handOut_layout : (handOut d bs).layout = d.layout := by
  simp [handOut, Disk.layout, increaseFreeBlocksCount]

theorem handOut_data_block {c : Nat} (hc : c ∉ bs) :
    AgreeOn d.data (handOut d bs).data (getBlock c) ext2BlockSize :=
  useBlocks_data_block (d := increaseFreeBlocksCount d (-bs.length)) hc

theorem handOut_footprint : Footprint d (handOut d bs) ∅ {c | c ∈ bs} :=
  ⟨handOut_layout, fun m _ => by rw [handOut_inodeTable],
    fun m => by rw [indirectBlock, handOut_inodeTable, indirectBlock],
    fun _ hc => handOut_data_block hc⟩

theorem getBlockUsage_handOut (h : Counted d) (hbs : ∀ b ∈ bs, b ∈ freeBlocks d) {c : Nat}
    (hc : c < 2 ^ 32) :
    getBlockUsage (handOut d bs) c = (decide (c ∈ bs) || getBlockUsage d c) :=
  getBlockUsage_useBlocks (d := increaseFreeBlocksCount d (-bs.length))
    (fun b hb => (h.free_bounds (hbs b hb)).2.2.1) hc

theorem freeBlocks_handOut (h : Counted d) (hbs : ∀ b ∈ bs, b ∈ freeBlocks d) :
    freeBlocks (handOut d bs) = freeBlocks d \ bs.toFinset := by
  ext c
  rw [Finset.mem_sdiff, mem_freeBlocks, mem_freeBlocks, List.mem_toFinset,
    sBlocksCount_of_layout handOut_layout]
  have hmapped := h.blocks_le
  constructor
  · rintro ⟨hc, husage⟩
    rw [getBlockUsage_handOut h hbs (by omega)] at husage
    simp only [Bool.or_eq_false_iff, decide_eq_false_iff_not] at husage
    exact ⟨⟨hc, husage.2⟩, husage.1⟩
  · rintro ⟨⟨hc, husage⟩, hnot⟩
    rw [getBlockUsage_handOut h hbs (by omega)]
    simp [hc, husage, hnot]

theorem card_freeBlocks_handOut (h : Counted d) (hnodup : bs.Nodup)
    (hbs : ∀ b ∈ bs, b ∈ freeBlocks d) :
    bs.length ≤ (freeBlocks d).card ∧
      (freeBlocks (handOut d bs)).card = (freeBlocks d).card - bs.length := by
  have hsub : bs.toFinset ⊆ freeBlocks d := fun b hb => hbs b (List.mem_toFinset.mp hb)
  have hlen : bs.toFinset.card = bs.length := List.toFinset_card_of_nodup hnodup
  have hle := Finset.card_le_card hsub
  rw [freeBlocks_handOut h hbs, Finset.card_sdiff_of_subset hsub, hlen]
  exact ⟨by omega, rfl⟩

theorem getInodeUsage_handOut (n : Nat) : getInodeUsage (handOut d bs) n = getInodeUsage d n := by
  rw [getInodeUsage, handOut_inodeBitmap, getInodeUsage]

theorem freeInodes_handOut : freeInodes (handOut d bs) = freeInodes d := by
  simp only [freeInodes, getInodeUsage_handOut, sInodesCount_of_layout handOut_layout]

theorem Counted.handedOut (h : Counted d) (hnodup : bs.Nodup) (hbs : ∀ b ∈ bs, b ∈ freeBlocks d) :
    Counted (handOut d bs) := by
  obtain ⟨hle, hcard⟩ := card_freeBlocks_handOut h hnodup hbs
  have hlt := h.card_freeBlocks_lt
  refine ⟨?_, fun b hb => h.metadata b ((isMetadata_of_layout handOut_layout).mp hb), ?_, ?_, ?_, ?_,
    fun b h₁ h₂ => ?_, fun n h₁ h₂ => (getInodeUsage_handOut n).trans (h.reservedInodes n h₁ h₂)⟩
  · rw [sBlocksCount_of_layout handOut_layout]
    exact h.mapped
  · rw [hcard]
    simp only [handOut, useBlocks_superBlock, increaseFreeBlocksCount, h.sFreeBlocks, wrap]
    omega
  · rw [hcard]
    simp only [handOut, useBlocks_groupDesc, increaseFreeBlocksCount, h.bgFreeBlocks, wrap]
    omega
  · rw [freeInodes_handOut]
    simp only [handOut, useBlocks_superBlock, increaseFreeBlocksCount, h.sFreeInodes]
  · rw [freeInodes_handOut]
    simp only [handOut, useBlocks_groupDesc, increaseFreeBlocksCount, h.bgFreeInodes]
  · rw [lastReservedBlock] at h₂
    rw [getBlockUsage_handOut h hbs (by omega), h.reservedBlocks b h₁ h₂, Bool.or_true]

theorem InUse.handedOut (hc : Counted d) (hbs : ∀ b ∈ bs, b ∈ freeBlocks d) {b : Nat}
    (h : InUse d b) : InUse (handOut d bs) b := by
  refine ⟨?_, ?_, mt (isMetadata_of_layout handOut_layout).mp h.notMetadata⟩
  · rw [sBlocksCount_of_layout handOut_layout]
    exact h.lt
  · rw [getBlockUsage_handOut hc hbs (h.lt_two_pow hc), h.marked, Bool.or_true]

/-- A block handed out is in use. -/
theorem inUse_handOut_self (hc : Counted d) (hbs : ∀ b ∈ bs, b ∈ freeBlocks d) {b : Nat}
    (hb : b ∈ bs) : InUse (handOut d bs) b := by
  obtain ⟨-, hlt, hword, hmeta⟩ := hc.free_bounds (hbs b hb)
  refine ⟨?_, ?_, mt (isMetadata_of_layout handOut_layout).mp hmeta⟩
  · rw [sBlocksCount_of_layout handOut_layout]
    exact hlt
  · rw [getBlockUsage_handOut hc hbs hword, decide_eq_true hb, Bool.true_or]

/-- Handing out free blocks changes no stored number. -/
theorem Sound.stored_handOut (h : Sound d) (hbs : ∀ b ∈ bs, b ∈ freeBlocks d) {r : Ref}
    (hr : ValidRef d r) : stored (handOut d bs) r = stored d r := by
  have hvalid : ValidInode d r.inode := by
    cases r with
    | slot n i => exact hr.1
    | indirect n => exact hr
  refine handOut_footprint.stored_eq (Set.notMem_empty _) fun _ hmem => ?_
  exact h.stored_ne_of_free (hbs _ hmem) (r := .indirect r.inode) hvalid rfl

theorem Sound.handedOut (h : Sound d) (hnodup : bs.Nodup) (hbs : ∀ b ∈ bs, b ∈ freeBlocks d) :
    Sound (handOut d bs) :=
  h.of_drop (h.toCounted.handedOut hnodup hbs) handOut_layout
    (fun _ => InUse.handedOut h.toCounted hbs) fun _ hr => .inr (h.stored_handOut hbs hr)

end HandOut

/-! ## Attaching a block -/

/-- What a write to a slot does to all stored numbers. -/
theorem Sound.stored_set {d : Disk} (h : Sound d) {n i v : Nat} (hn : ValidInode d n)
    (hv : v < 2 ^ 32) {r : Ref} (hr : ValidRef d r) :
    stored (setInodeBlockNumber d n i v) r
      = if r = .slot n i ∧ Attachable d n i then v else stored d r := by
  cases r with
  | slot m j =>
    simp only [stored, Ref.slot.injEq]
    exact getInodeBlockNumber_set h.indirectDistinct hn hr.1 hv
  | indirect m => simp [stored]

/-- **A block gets its owner.** -/
theorem Sound.attach {d : Disk} (h : Sound d) {n i b : Nat} (hn : ValidInode d n)
    (hb : InUse d b) (hfree : ∀ r, ValidRef d r → stored d r ≠ b) :
    Sound (setInodeBlockNumber d n i b) := by
  have hset := fun r hr => h.stored_set (i := i) (r := r) hn (hb.lt_two_pow h.toCounted) hr
  have ha := (setInodeBlockNumber_slotsOnly d n i b []).sameAccounts
  refine h.of_adopt (ha.counted h.toCounted) ha.layout (fun _ => ha.inUse)
    (show ∀ c, c = b → _ from fun _ hc => hc ▸ ha.inUse hb) (fun r hr => ?_)
    fun r s hr hs hrb heq => ?_
  · rw [hset r hr]
    split
    · exact .inr (.inr rfl)
    · exact .inr (.inl rfl)
  · -- only the slot written can hold `b`
    have honly : ∀ t, ValidRef d t → stored (setInodeBlockNumber d n i b) t = b →
        t = .slot n i := by
      intro t ht htb
      rw [hset t ht] at htb
      split at htb
      · rename_i hslot
        exact hslot.1
      · exact absurd htb (hfree t ht)
    rw [honly r hr hrb, honly s hs (heq ▸ hrb)]

/-! ## Taking back a block -/

section FreeBlock

variable {d : Disk} {b : Nat}

theorem freeBlock_layout : (freeBlock d b).layout = d.layout := rfl

theorem freeBlock_footprint : Footprint d (freeBlock d b) ∅ ∅ :=
  ⟨freeBlock_layout, fun _ _ => rfl, fun _ => rfl, fun _ _ => AgreeOn.refl _ _ _⟩

theorem getBlockUsage_freeBlock (hb : b < 2 ^ 32) {c : Nat} (hc : c < 2 ^ 32) :
    getBlockUsage (freeBlock d b) c = if c = b then false else getBlockUsage d c :=
  getBlockUsage_set (increaseFreeBlocksCount d 1) false hb hc

theorem freeBlocks_freeBlock (h : Counted d) (hb : InUse d b) (hpos : 1 ≤ b) :
    freeBlocks (freeBlock d b) = insert b (freeBlocks d) := by
  ext c
  have hmapped := h.blocks_le
  have hlt := hb.lt
  rw [Finset.mem_insert, mem_freeBlocks, mem_freeBlocks, sBlocksCount_of_layout freeBlock_layout]
  constructor
  · rintro ⟨hc, husage⟩
    rw [getBlockUsage_freeBlock (by omega) (by omega)] at husage
    split at husage
    · rename_i heq
      exact .inl heq
    · exact .inr ⟨hc, husage⟩
  · rintro (rfl | ⟨hc, husage⟩)
    · exact ⟨⟨hpos, hlt⟩, by rw [getBlockUsage_freeBlock (by omega) (by omega), if_pos rfl]⟩
    · refine ⟨hc, ?_⟩
      rw [getBlockUsage_freeBlock (by omega) (by omega), husage]
      split <;> rfl

theorem Counted.freed (h : Counted d) (hb : InUse d b) (hres : lastReservedBlock < b) :
    Counted (freeBlock d b) := by
  have hlt := h.card_freeBlocks_lt
  have hmapped := h.blocks_le
  have hnot : b ∉ freeBlocks d := fun hmem => by
    have hfree := (mem_freeBlocks.mp hmem).2
    rw [hb.marked] at hfree
    cases hfree
  have hcard : (freeBlocks (freeBlock d b)).card = (freeBlocks d).card + 1 := by
    rw [freeBlocks_freeBlock h hb (by omega), Finset.card_insert_of_notMem hnot]
  refine ⟨hmapped, h.metadata, ?_, ?_, h.sFreeInodes, h.bgFreeInodes, fun c h₁ h₂ => ?_,
    h.reservedInodes⟩
  · rw [hcard]
    simp only [freeBlock, setBlockUsage, increaseFreeBlocksCount, h.sFreeBlocks, wrap]
    omega
  · rw [hcard]
    simp only [freeBlock, setBlockUsage, increaseFreeBlocksCount, h.bgFreeBlocks, wrap]
    omega
  · have hb32 := hb.lt_two_pow h
    rw [getBlockUsage_freeBlock hb32 (by rw [lastReservedBlock] at h₂; omega),
      if_neg (by omega), h.reservedBlocks c h₁ h₂]

theorem InUse.freed (hc : Counted d) (hb : b < 2 ^ 32) {c : Nat} (h : InUse d c)
    (hne : c ≠ b) : InUse (freeBlock d b) c :=
  ⟨h.lt, by rw [getBlockUsage_freeBlock hb (h.lt_two_pow hc), if_neg hne]; exact h.marked,
    h.notMetadata⟩

end FreeBlock

/-- **A block is given up by its owner and taken back.** -/
theorem Sound.released {d : Disk} (h : Sound d) {n i : Nat} (hn : ValidInode d n)
    (hi : i < inodeBlockLimit) (hres : lastReservedBlock < getInodeBlockNumber d n i) :
    Sound (releaseEntryBlock d n i (getInodeBlockNumber d n i)) := by
  have hslot : ValidRef d (.slot n i) := ⟨hn, hi⟩
  have hb : InUse d (getInodeBlockNumber d n i) :=
    h.stored_inUse hslot (by simp only [stored]; omega)
  have hatt : Attachable d n i := by
    by_contra hnot
    rw [getInodeBlockNumber_of_not_attachable hnot] at hres
    omega
  have ha := (setInodeBlockNumber_slotsOnly d n i 0 []).sameAccounts
  have hstored : ∀ r, ValidRef d r →
      stored (releaseEntryBlock d n i (getInodeBlockNumber d n i)) r
        = if r = .slot n i then 0 else stored d r := by
    intro r hr
    have hset := h.stored_set (i := i) hn (show 0 < 2 ^ 32 by norm_num) hr
    simp only [hatt, and_true] at hset
    rw [← hset]
    exact freeBlock_footprint.stored_eq (Set.notMem_empty _) fun _ => Set.notMem_empty _
  refine ⟨(ha.counted h.toCounted).freed (ha.inUse hb) hres, ?_⟩
  have hvalid : ∀ r, ValidRef (releaseEntryBlock d n i (getInodeBlockNumber d n i)) r →
      ValidRef d r := fun r hr =>
    (validRef_of_layout ha.layout).mp ((validRef_of_layout freeBlock_layout).mp hr)
  have hrefs : Owned 0 (ValidRef d)
      (InUse (releaseEntryBlock d n i (getInodeBlockNumber d n i)))
      (stored (releaseEntryBlock d n i (getInodeBlockNumber d n i))) :=
    h.refs.release hslot (fun c hc hne => (ha.inUse hc).freed (ha.counted h.toCounted)
      (hb.lt_two_pow h.toCounted) hne)
    (by rw [hstored _ hslot, if_pos rfl]) (fun r hr hne => by rw [hstored r hr, if_neg hne])
  exact ⟨fun r hr => hrefs.used_of r (hvalid r hr),
    fun r s hr hs => hrefs.inj r s (hvalid r hr) (hvalid s hs)⟩

end Ext2
end OsAssignments
