import OsAssignments.Ext2.AllocationSound
import OsAssignments.Ext2.MappedBlocks

/-!
# `allocate_blocks` hands out free blocks

What `allocate_blocks` does to every byte of an image whose superblock counts the free blocks.

* `increaseFreeBlocksCount_run` — the update of both counters, through a negated `unsigned`.
* `allocateBlocks_handsOut` — the blocks returned, and the image afterwards.
* `unusualImages` — images for which one of its conditions does not hold.
* `Shows`, `allocateBlocks_shows` — the model of the image taken apart does the same.
-/

namespace OsAssignments
namespace Ext2
namespace Mapped

open ByteMemory MachineWord ExitState

/-! ## The counters -/

/-- The negated number in a field of `w` bits. -/
theorem wrap_add_negated {w : Nat} (hw : w ≤ 32) (s : Int) (n : Nat) :
    wrap w (s + negated n) = wrap w (s - n) := by
  have hinner : (2 ^ 32 : Int) ∣ (BitVec.ofNat 32 n).toInt - n := by
    rw [BitVec.toInt_ofNat']
    exact Int.dvd_bmod_sub_self
  have houter : (2 ^ 32 : Int) ∣ negated n - -(BitVec.ofNat 32 n).toInt := by
    rw [negated, BitVec.toInt_neg]
    exact Int.dvd_bmod_sub_self
  have hboth : (2 ^ 32 : Int) ∣ (s + negated n) - (s - n) := by
    have hsum := Int.dvd_sub houter hinner
    have heq : (s + negated n) - (s - n) = negated n - -(BitVec.ofNat 32 n).toInt
        - ((BitVec.ofNat 32 n).toInt - n) := by ring
    rwa [heq]
  have hdvd : (2 ^ w : Int) ∣ (s + negated n) - (s - n) := (pow_dvd_pow 2 hw).trans hboth
  rw [wrap, wrap, Int.emod_eq_emod_iff_emod_sub_eq_zero.mpr (Int.emod_eq_zero_of_dvd hdvd)]

/-- The image after an update of both counters. -/
def addToCounters (mem : Memory) (count : Int) : Memory :=
  writeLE 2 (writeLE 4 mem (getSuperBlock + 12) (wrap 32 (sFreeBlocksCount mem + count)))
    (getGroupDescriptor + 12) (wrap 16 (bgFreeBlocksCount mem + count))

section

variable {mem mem' : Memory} {b n : Nat} {bs : List Nat} {count : Int}

theorem increaseFreeBlocksCount_run (mem : Memory) (count : Int) :
    increaseFreeBlocksCount count mem = .done () (addToCounters mem count) := by
  have hsecond : readLE (writeLE 4 mem (getSuperBlock + 12)
      (wrap 32 (sFreeBlocksCount mem + count))) 2 (getGroupDescriptor + 12)
        = bgFreeBlocksCount mem :=
    readLE_writeLE_of_disjoint 4 mem _ _ (.inr (by decide))
  rw [addToCounters, ← hsecond]
  rfl

theorem addToCounters_others {x : Nat} (hx : ¬ IsCounterByte x) :
    addToCounters mem count x = mem x := by
  rw [IsCounterByte, not_or] at hx
  exact (if_neg hx.2).trans (if_neg hx.1)

theorem addToCounters_address : bitmapAddress (addToCounters mem count) = bitmapAddress mem := by
  refine bitmapAddress_congr fun x hx hx' => addToCounters_others ?_
  rw [IsCounterByte, getSuperBlock_eq, getGroupDescriptor_eq]
  rw [getGroupDescriptor_eq] at hx hx'
  omega

theorem addToCounters_super :
    sFreeBlocksCount (addToCounters mem count) = wrap 32 (sFreeBlocksCount mem + count) := by
  rw [sFreeBlocksCount, addToCounters, readLE_writeLE_of_disjoint 2 _ _ _ (.inl (by decide))]
  exact readLE_writeLE_of_lt mem _ (wrap_lt 32 _)

theorem addToCounters_group :
    bgFreeBlocksCount (addToCounters mem count) = wrap 16 (bgFreeBlocksCount mem + count) :=
  readLE_writeLE_of_lt _ _ (wrap_lt 16 _)

theorem Located.usageByte_not_counter (hL : Located mem) (h1 : 1 ≤ b)
    (hb : b ≤ 8 * ext2BlockSize) : ¬ IsCounterByte (usageByte mem b) := by
  obtain ⟨k, hk, -, hk1, hk2⟩ := hL.block
  have hbyte := usageByte_bounds mem h1 hb
  rw [IsCounterByte, getSuperBlock_eq, getGroupDescriptor_eq]
  omega

theorem Placed.counter_not_inBlock (hP : Placed mem b) {x : Nat} (hx : x < 3 * 1024) :
    ¬ InBlock b x := by
  obtain ⟨-, hb23, -, -⟩ := hP.addresses
  rw [inBlock_iff hP.mapped]
  omega

/-- The bits do not depend on the counters. -/
theorem addToCounters_blockUsed (hL : Located mem) (h1 : 1 ≤ b) (hb : b ≤ 8 * ext2BlockSize) :
    blockUsed (addToCounters mem count) b = blockUsed mem b :=
  blockUsed_congr addToCounters_address (addToCounters_others (hL.usageByte_not_counter h1 hb))

/-- Blocks that are used up leave the first blocks alone, the bitmap apart. -/
theorem UsedUp.agreeOn (h : UsedUp mem bs mem') (hL : Located mem) (hP : ∀ b ∈ bs, Placed mem b)
    {a len : Nat} (ha : 1024 ≤ a) (ha' : a + len ≤ 3 * 1024) : AgreeOn mem mem' a len := by
  intro x hx hx'
  refine h.others x fun b hb => ⟨?_, (hP b hb).counter_not_inBlock (by omega)⟩
  obtain ⟨-, hb23, hb128, -⟩ := (hP b hb).addresses
  obtain ⟨k, hk, -, hk1, hk2⟩ := hL.block
  have hbyte := usageByte_bounds mem (show 1 ≤ b by omega) (show b ≤ 8 * 1024 by omega)
  omega

/-- With the bit of block 1 set, the bitmap is not in the group descriptor. -/
theorem Accounted.notGroup (hA : Accounted mem) : bitmapAddress mem ≠ getGroupDescriptor := by
  intro hgroup
  have hbit := hA.reserved 1 (by decide) (by decide)
  have hodd : (mem 2048).toNat % 2 = 1 := by
    rw [blockUsed, hgroup, Ext2.getBitmapVal_eq, bitsAt, BitVec.getLsbD] at hbit
    simpa [getGroupDescriptor_eq, Nat.testBit_zero] using hbit
  have hread : readLE mem 4 getGroupDescriptor
      = (mem 2048).toNat + 256 * readLE mem 3 2049 := rfl
  rw [bitmapAddress, getBlock, ext2BlockSize_eq, wrap, getGroupDescriptor_eq] at hgroup
  rw [getGroupDescriptor_eq] at hread
  omega

theorem Accounted.located (hA : Accounted mem) (hR : Reachable mem n) : Located mem :=
  ⟨hR.mapped, hR.notSuper, hA.notGroup⟩

theorem Reachable.placed (hR : Reachable mem n) (hb : b ∈ (clearBlocks mem).take n) :
    Placed mem b :=
  ⟨(mem_clearFrom.mp (List.mem_of_mem_take hb)).1.1, (hR.blocks b hb).1, (hR.blocks b hb).2⟩

/-! ## The blocks handed out -/

/-- The search and the counters together. -/
theorem allocateBlocks_run (hA : Accounted mem) (hR : Reachable mem n)
    (hn : n ≤ (clearBlocks mem).length) :
    ∃ mem', allocateBlocks n mem = .done ((clearBlocks mem).take n) mem' ∧
      UsedUp (addToCounters mem (negated n)) ((clearBlocks mem).take n) mem' := by
  have hL := hA.located hR
  have hlt : ∀ x ∈ (clearBlocks mem).take n, x < lastReservedBlock + 1 + 105 :=
    fun x hx => (hR.blocks x hx).1
  obtain ⟨hlen, htake⟩ : n ≤ (clearFrom mem (lastReservedBlock + 1) 105).length ∧
      (clearFrom mem (lastReservedBlock + 1) 105).take n = (clearBlocks mem).take n :=
    NumberSearch.take_unused hn hlt
  have hsame : clearFrom (addToCounters mem (negated n)) (lastReservedBlock + 1) 105
      = clearFrom mem (lastReservedBlock + 1) 105 := by
    refine clearFrom_congr fun x hx hx' => addToCounters_blockUsed hL (by omega) ?_
    show x ≤ 8 * 1024
    rw [show lastReservedBlock = 22 from rfl] at hx'
    omega
  rw [← hsame] at hlen htake
  obtain ⟨mem', hrun, hused⟩ := allocateFrom_run (hL.congr addToCounters_address)
    (show 105 ≤ 8 * mappedBytes by decide) (by decide) (by decide) hlen
    (by rw [htake]; exact fun x hx => (hR.placed hx).congr addToCounters_address)
  have hload : load 4 (getSuperBlock + 12) mem = .done (sFreeBlocksCount mem) mem := rfl
  refine ⟨mem', ?_, htake ▸ hused⟩
  rw [allocateBlocks, Command.bind_of_done hload, hA.counted, if_neg (by omega),
    Command.bind_of_done (increaseFreeBlocksCount_run mem _), hrun, htake]

/-- **`allocate_blocks` hands out free blocks**: the first ones, and every byte of the image is as
it should be afterwards; the counter of the group is lowered in its 16 bits. -/
theorem allocateBlocks_handsOut (mem : Memory) (n : Nat) (hA : Accounted mem)
    (hR : Reachable mem n) (hn : n ≤ (clearBlocks mem).length) :
    ∃ bs mem', allocateBlocks n mem = .done bs mem' ∧ HandedOut mem n bs mem' ∧
      bgFreeBlocksCount mem' = wrap 16 (bgFreeBlocksCount mem - n) := by
  obtain ⟨mem', hrun, hused⟩ := allocateBlocks_run hA hR hn
  have hL := hA.located hR
  have hL₀ : Located (addToCounters mem (negated n)) := hL.congr addToCounters_address
  have hP₀ : ∀ b ∈ (clearBlocks mem).take n, Placed (addToCounters mem (negated n)) b :=
    fun b hb => (hR.placed hb).congr addToCounters_address
  have hbyte : ∀ b, usageByte (addToCounters mem (negated n)) b = usageByte mem b := fun b => by
    rw [usageByte, usageByte, addToCounters_address]
  refine ⟨_, mem', hrun, ⟨?_, ?_, fun b hb => ?_, fun b h1 hb => ?_, hused.zeroed, ?_,
    fun x hx hothers => ?_⟩, ?_⟩
  · rw [List.length_take]
    omega
  · have hrange : (List.range' (lastReservedBlock + 1)
        (sBlocksCount mem - (lastReservedBlock + 1))).Pairwise (· < ·) := List.pairwise_lt_range'
    exact (hrange.filter _).sublist (List.take_sublist _ _)
  · obtain ⟨⟨hle, hlt⟩, hfree⟩ := mem_clearFrom.mp (List.mem_of_mem_take hb)
    exact ⟨hle, by omega, hfree⟩
  · rw [hused.bits b h1 hb, addToCounters_blockUsed hL h1 hb]
  · have hread : sFreeBlocksCount mem' = sFreeBlocksCount (addToCounters mem (negated n)) :=
      (hused.agreeOn hL₀ hP₀ (by decide) (by decide)).readLE
    have hlt : sFreeBlocksCount mem < 2 ^ 32 := readLE_lt mem 4 _
    have hcounted := hA.counted
    rw [hread, addToCounters_super, wrap_add_negated (le_refl 32),
      show (sFreeBlocksCount mem - n : Int) = ((sFreeBlocksCount mem - n : Nat) : Int) by omega,
      wrap_of_lt (by omega)]
    omega
  · have hrest : mem' x = addToCounters mem (negated n) x := hused.others x fun b hb => by
      rw [hbyte]
      exact hothers b hb
    exact hrest.trans (addToCounters_others hx)
  · have hread : bgFreeBlocksCount mem' = bgFreeBlocksCount (addToCounters mem (negated n)) :=
      (hused.agreeOn hL₀ hP₀ (by decide) (by decide)).readLE
    rw [hread, addToCounters_group, wrap_add_negated (by decide)]

end

/-! ## Images -/

/-- An image with these counters, whose bitmap starts with `bits`. -/
def plainImage (blocks free groupFree bitmapBlock : Nat) (bits : List UInt8) : Memory :=
  let counters := writeLE 4 (writeLE 4 (fun _ => 0) 1028 blocks) 1036 free
  let groupDesc := writeLE 2 (writeLE 4 counters 2048 bitmapBlock) 2060 groupFree
  writeBytes groupDesc (1024 * bitmapBlock) bits

/-- The bits of blocks 1 to 22. -/
def reservedBits : List UInt8 := [0xFF, 0xFF, 0x3F]

theorem Accounted.of_all {mem : Memory} (h : (List.range' 1 22).all (blockUsed mem) = true)
    (hc : sFreeBlocksCount mem = (clearBlocks mem).length) : Accounted mem := by
  refine ⟨fun b h1 hb => List.all_eq_true.mp h b (List.mem_range'_1.mpr ⟨h1, ?_⟩), hc⟩
  exact Nat.lt_succ_of_le hb

/-- The bitmap is in block 3, and only the blocks 24 and 27 are free. -/
theorem allocateBlocks_handsOut_two :
    let mem := plainImage 28 2 2 3 [0xFF, 0xFF, 0x7F, 0x03]
    ∃ bs mem', allocateBlocks 2 mem = .done bs mem' ∧ HandedOut mem 2 bs mem' ∧
      bgFreeBlocksCount mem' = 0 :=
  allocateBlocks_handsOut (plainImage 28 2 2 3 [0xFF, 0xFF, 0x7F, 0x03]) 2
    (Accounted.of_all (by decide +kernel) (by decide +kernel))
    ⟨by decide +kernel, by decide +kernel, by decide +kernel⟩ (by decide +kernel)

/-- The blocks are handed out, and both counters are lower by `n`. -/
def HandsOut (mem : Memory) (n : Nat) : Prop :=
  ∃ bs mem', allocateBlocks n mem = .done bs mem' ∧ HandedOut mem n bs mem' ∧
    bgFreeBlocksCount mem' + n = bgFreeBlocksCount mem

/-- What a run leaves, if it returns. -/
def leaves {α : Type} (x : Program α) (mem : Memory) : Option Memory :=
  match x mem with
  | .done _ mem' => some mem'
  | _ => none

theorem leaves_of_done {α : Type} {x : Program α} {mem mem' : Memory} {a : α}
    (h : x mem = .done a mem') : leaves x mem = some mem' := by
  rw [leaves, h]

/-- A bit that is cleared. -/
theorem not_handsOut_of_bit {mem : Memory} {n : Nat} (b : Nat) (h1 : 1 ≤ b)
    (hb : b ≤ 8 * ext2BlockSize) (hused : blockUsed mem b = true)
    (hlost : (leaves (allocateBlocks n) mem).map (fun mem' => blockUsed mem' b) ≠ some true) :
    ¬ HandsOut mem n := by
  rintro ⟨bs, mem', hrun, hout, -⟩
  rw [leaves_of_done hrun, Option.map_some, hout.bits b h1 hb, hused, Bool.or_true] at hlost
  exact hlost rfl

/-- The superblock counts the free blocks, and handing out the first of them fails. -/
structure Unusual (mem : Memory) : Prop where
  accounted : Accounted mem
  some_free : 1 ≤ (clearBlocks mem).length
  fails : ¬ HandsOut mem 1

/-- **Four images** for which it is otherwise: the bitmap is in the free block 23, which is cleared
with it; block 128 is free, and not mapped; the bitmap is in the superblock, whose counter is part
of it; and the group counts no free block, so that its counter wraps. -/
theorem unusualImages :
    Unusual (plainImage 128 105 105 23 reservedBits) ∧
    Unusual (plainImage 129 1 1 3 (List.replicate 15 0xFF ++ [0x7F])) ∧
    Unusual (plainImage 0 0 58 1 ([0xFF, 0xFF, 0xFF, 0xFF] ++ [0x80, 0, 0, 0] ++
      [0xFF, 0xFF, 0xFF, 0xFF] ++ [58, 0, 0, 0])) ∧
    Unusual (plainImage 128 1 0 3 (List.replicate 15 0xFF ++ [0x3F])) := by
  refine ⟨⟨.of_all (by decide +kernel) (by decide +kernel), by decide +kernel, ?_⟩,
    ⟨.of_all (by decide +kernel) (by decide +kernel), by decide +kernel, ?_⟩,
    ⟨.of_all (by decide +kernel) (by decide +kernel), by decide +kernel, ?_⟩,
    ⟨.of_all (by decide +kernel) (by decide +kernel), by decide +kernel, ?_⟩⟩
  · exact not_handsOut_of_bit 1 (by decide) (by decide) (by decide +kernel) (by decide +kernel)
  · exact not_handsOut_of_bit 1 (by decide) (by decide) (by decide +kernel) (by decide +kernel)
  · exact not_handsOut_of_bit 98 (by decide) (by decide) (by decide +kernel) (by decide +kernel)
  · rintro ⟨bs, mem', hrun, -, hgroup⟩
    have hwrapped : (leaves (allocateBlocks 1) (plainImage 128 1 0 3
        (List.replicate 15 0xFF ++ [0x3F]))).map bgFreeBlocksCount = some 65535 := by decide +kernel
    rw [leaves_of_done hrun, Option.map_some, Option.some.injEq] at hwrapped
    have hlt := readLE_lt (plainImage 128 1 0 3 (List.replicate 15 0xFF ++ [0x3F])) 2
      (getGroupDescriptor + 12)
    rw [hwrapped] at hgroup
    rw [← bgFreeBlocksCount, ← hgroup] at hlt
    exact absurd hlt (by decide)

/-! ## The image taken apart -/

/-- The parts of `d` that `allocate_blocks` uses are what the bytes say. -/
structure Shows (mem : Memory) (d : Disk) : Prop where
  blocksCount : d.superBlock.sBlocksCount = sBlocksCount mem
  freeBlocksCount : d.superBlock.sFreeBlocksCount = sFreeBlocksCount mem
  groupFreeBlocksCount : d.groupDesc.bgFreeBlocksCount = bgFreeBlocksCount mem
  blockBitmap : d.groupDesc.bgBlockBitmap = readLE mem 4 getGroupDescriptor
  usage : ∀ b, 1 ≤ b → b ≤ 8 * ext2BlockSize → Ext2.getBlockUsage d b = blockUsed mem b
  data : ∀ b, lastReservedBlock < b → b < mappedBlocks → ∀ x, InBlock b x → d.data x = mem x

section

variable {mem mem' : Memory} {d : Disk} {n : Nat} {bs : List Nat}

theorem Shows.freeList_eq (h : Shows mem d) (hC : Counted d) : freeList d = clearBlocks mem := by
  have hmapped : d.superBlock.sBlocksCount ≤ 128 := hC.mapped
  rw [freeList, freeNumbers, clearBlocks, clearFrom, ← h.blocksCount]
  refine List.filter_congr fun x hx => ?_
  obtain ⟨hle, hlt⟩ := List.mem_range'_1.mp hx
  rw [h.usage x (by omega) (show x ≤ 8 * 1024 by omega)]

theorem Shows.accounted (h : Shows mem d) (hC : Counted d) : Accounted mem := by
  refine ⟨fun b h1 hb => ?_, ?_⟩
  · have hb22 : b ≤ 22 := hb
    rw [← h.usage b h1 (show b ≤ 8 * 1024 by omega)]
    exact hC.reservedBlocks b h1 hb
  · rw [← h.freeBlocksCount, ← h.freeList_eq hC, hC.sFreeBlocks, length_freeList hC]

/-- The bitmap of an image whose accounts are right is in a reserved block. -/
theorem Shows.bitmapAddress_eq (h : Shows mem d) (hC : Counted d) :
    bitmapAddress mem = 1024 * d.groupDesc.bgBlockBitmap ∧ d.groupDesc.bgBlockBitmap ≤ 22 := by
  have hres : d.groupDesc.bgBlockBitmap ≤ 22 := hC.metadata _ (.inr (.inr (.inl rfl)))
  refine ⟨?_, hres⟩
  rw [bitmapAddress, ← h.blockBitmap, getBlock_eq (by omega)]

theorem Shows.reachable (h : Shows mem d) (hC : Counted d) (hsuper : d.groupDesc.bgBlockBitmap ≠ 1)
    (n : Nat) : Reachable mem n := by
  obtain ⟨haddr, hres⟩ := h.bitmapAddress_eq hC
  refine ⟨show bitmapAddress mem < 128 * 1024 by omega, ?_, fun b hb => ?_⟩
  · rw [getSuperBlock_eq]
    omega
  · obtain ⟨⟨hle, hlt⟩, -⟩ := mem_clearFrom.mp (List.mem_of_mem_take hb)
    have hmapped : d.superBlock.sBlocksCount ≤ 128 := hC.mapped
    have hcount := h.blocksCount
    have hb23 : 22 < b := hle
    have hb128 : b < 128 := by omega
    rw [haddr, getBlock_eq (by omega)]
    exact ⟨hb128, by omega⟩

/-- The bytes of the blocks handed out. -/
theorem useBlocks_data_zero {x : Nat} (hx : ∃ b ∈ bs, Ext2.getBlock b ≤ x ∧
    x < Ext2.getBlock b + ext2BlockSize) : (useBlocks d bs).data x = 0 := by
  induction bs generalizing d with
  | nil => simp at hx
  | cons b bs ih =>
    by_cases hlater : ∃ c ∈ bs, Ext2.getBlock c ≤ x ∧ x < Ext2.getBlock c + ext2BlockSize
    · exact ih hlater
    · have hrest : AgreeOn (Ext2.useBlock d b).data (useBlocks (Ext2.useBlock d b) bs).data x 1 := by
        refine useBlocks_data fun c hc => ?_
        by_contra hin
        exact hlater ⟨c, hc, by omega, by omega⟩
      obtain ⟨c, hc, hin⟩ := hx
      obtain rfl : c = b := by
        rcases List.mem_cons.mp hc with hcb | hcbs
        · exact hcb
        · exact absurd ⟨c, hcbs, hin⟩ hlater
      exact (hrest x (le_refl x) (by omega)).trans (if_pos hin)

theorem Shows.handedOut (h : Shows mem d) (hC : Counted d) (hL : Located mem)
    (hlen : bs.length = n) (hfree : ∀ b ∈ bs, b ∈ freeBlocks d) (hP : ∀ b ∈ bs, Placed mem b)
    (hused : UsedUp (addToCounters mem (negated n)) bs mem') : Shows mem' (handOut d bs) := by
  have hL₀ : Located (addToCounters mem (negated n)) := hL.congr addToCounters_address
  have hagree : ∀ {a len : Nat}, 1024 ≤ a → a + len ≤ 3 * 1024 →
      AgreeOn (addToCounters mem (negated n)) mem' a len :=
    fun ha hle => hused.agreeOn hL₀ (fun b hb => (hP b hb).congr addToCounters_address) ha hle
  have hkept : ∀ {a len : Nat}, 1024 ≤ a → a + len ≤ 3 * 1024 →
      (∀ x, a ≤ x → x < a + len → ¬ IsCounterByte x) → AgreeOn mem mem' a len :=
    fun ha hle hnot => AgreeOn.trans (fun x hx hx' => addToCounters_others (hnot x hx hx'))
      (hagree ha hle)
  refine ⟨?_, ?_, ?_, ?_, fun b h1 hb => ?_, fun b hb hb128 x hx => ?_⟩
  · have hread : sBlocksCount mem' = sBlocksCount mem :=
      (hkept (by decide) (by decide) fun x hx hx' => by
        rw [IsCounterByte, getSuperBlock_eq, getGroupDescriptor_eq]
        rw [getSuperBlock_eq] at hx hx'
        omega).readLE
    rw [hread, ← h.blocksCount, handOut, useBlocks_superBlock]
    rfl
  · have hread : sFreeBlocksCount mem' = sFreeBlocksCount (addToCounters mem (negated n)) :=
      (hagree (by decide) (by decide)).readLE
    rw [hread, addToCounters_super, wrap_add_negated (le_refl 32), ← h.freeBlocksCount, handOut,
      useBlocks_superBlock, hlen]
    rfl
  · have hread : bgFreeBlocksCount mem' = bgFreeBlocksCount (addToCounters mem (negated n)) :=
      (hagree (by decide) (by decide)).readLE
    rw [hread, addToCounters_group, wrap_add_negated (by decide), ← h.groupFreeBlocksCount, handOut,
      useBlocks_groupDesc, hlen]
    rfl
  · have hread : readLE mem' 4 getGroupDescriptor = readLE mem 4 getGroupDescriptor :=
      (hkept (by decide) (by decide) fun x hx hx' => by
        rw [IsCounterByte, getSuperBlock_eq, getGroupDescriptor_eq]
        rw [getGroupDescriptor_eq] at hx hx'
        omega).readLE
    rw [hread, ← h.blockBitmap, handOut, useBlocks_groupDesc]
    rfl
  · have hb' : b ≤ 8 * 1024 := hb
    rw [getBlockUsage_handOut hC hfree (by omega), hused.bits b h1 hb, h.usage b h1 hb,
      addToCounters_blockUsed hL h1 hb]
  · have hb23 : 22 < b := hb
    by_cases hin : ∃ c ∈ bs, InBlock c x
    · obtain ⟨c, hc, hcx⟩ := hin
      rw [hused.zeroed c hc x hcx, handOut]
      refine useBlocks_data_zero ⟨c, hc, ?_⟩
      rw [inBlock_iff (hP c hc).mapped] at hcx
      exact hcx
    · have hsame : mem' x = mem x := by
        rw [inBlock_iff hb128] at hx
        obtain ⟨haddr, hres⟩ := h.bitmapAddress_eq hC
        refine (hused.others x fun c hc => ⟨fun heq => ?_, fun hcx => hin ⟨c, hc, hcx⟩⟩).trans
          (addToCounters_others ?_)
        · obtain ⟨-, hc23, hc128, -⟩ := (hP c hc).addresses
          rw [usageByte, addToCounters_address, haddr] at heq
          omega
        · rw [IsCounterByte, getSuperBlock_eq, getGroupDescriptor_eq]
          omega
      have hdata : AgreeOn d.data (handOut d bs).data x 1 := by
        refine useBlocks_data (d := Ext2.increaseFreeBlocksCount d (-bs.length)) fun c hc => ?_
        have hcx : ¬ InBlock c x := fun hcx => hin ⟨c, hc, hcx⟩
        rw [inBlock_iff (hP c hc).mapped] at hcx
        rw [Ext2.getBlock_eq, ext2BlockSize_eq]
        omega
      rw [hdata x (le_refl x) (by omega), hsame]
      exact h.data b hb hb128 x hx

/-- **The model of the image taken apart** hands out the same blocks. -/
theorem allocateBlocks_shows (h : Shows mem d) (hC : Counted d)
    (hsuper : d.groupDesc.bgBlockBitmap ≠ 1) (n : Nat) :
    (allocateBlocks n mem = .exit 1 mem ∧ Ext2.allocateBlocks n d = .exit 1 d) ∨
    ∃ bs mem' d', allocateBlocks n mem = .done bs mem' ∧ Ext2.allocateBlocks n d = .done bs d' ∧
      Shows mem' d' := by
  have hA := h.accounted hC
  have hR := h.reachable hC hsuper n
  have hlength : (clearBlocks mem).length = (freeBlocks d).card := by
    rw [← h.freeList_eq hC, length_freeList hC]
  have hload : load 4 (getSuperBlock + 12) mem = .done (sFreeBlocksCount mem) mem := rfl
  rcases Nat.lt_or_ge (freeBlocks d).card n with hfew | hn
  · refine .inl ⟨?_, hC.allocateBlocks_exit hfew⟩
    rw [allocateBlocks, Command.bind_of_done hload, hA.counted, if_pos (by omega)]
    rfl
  · obtain ⟨mem', hrun, hused⟩ := allocateBlocks_run hA hR (hlength.symm ▸ hn)
    refine .inr ⟨_, mem', _, hrun, ?_, h.handedOut hC (hA.located hR) ?_ (fun b hb => ?_)
      (fun b hb => hR.placed hb) hused⟩
    · rw [← h.freeList_eq hC]
      exact hC.allocateBlocks_done hn
    · rw [List.length_take]
      omega
    · rw [← h.freeList_eq hC] at hb
      exact (mem_freeList hC).mp (List.mem_of_mem_take hb)

end

end Mapped
end Ext2
end OsAssignments
