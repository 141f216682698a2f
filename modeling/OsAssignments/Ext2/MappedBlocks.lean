import OsAssignments.Ext2.Allocation

/-!
# Allocation on the bytes of the image

`allocate_blocks` on the mapping of `load_disk_to_mem` itself: the counters, the block bitmap and
the blocks handed out are bytes of one memory, and an access behind the mapping kills the program.

* `Mapped.allocateBlocks` and what it calls — the functions of `ext2_helper.h`, in `Mapped` where
  the model of the image taken apart has a function of the same name.
* `Accounted` — the reserved blocks are marked, and the superblock counts the clear bits.
* `Reachable` — the bitmap and the blocks handed out are mapped, and hold nothing else.
* `HandedOut` — what is returned, and every byte afterwards.
* `allocateFrom_run` — the search, as the first numbers of a list.
-/

namespace OsAssignments
namespace Ext2
namespace Mapped

open ByteMemory MachineWord ExitState NumberSearch

/-! ## Accesses -/

/-- A program on the mapped bytes. -/
abbrev Program (α : Type) : Type := ExitState.Command Memory α

/-- The length that `load_disk_to_mem` maps. -/
def mappedBytes : Nat := 128 * 1024

/-- A load of an unsigned field of `n` bytes. -/
def load (n a : Nat) : Program Nat := fun mem =>
  if a + n ≤ mappedBytes then .done (readLE mem n a) mem else .crash

/-- A store to an unsigned field of `n` bytes. -/
def store (n a v : Nat) : Program Unit := fun mem =>
  if a + n ≤ mappedBytes then .done () (writeLE n mem a v) else .crash

/-- A load of an `unsigned char`. -/
def loadByte (a : Nat) : Program (BitVec 8) := fun mem =>
  if a < mappedBytes then .done (mem a).toBitVec mem else .crash

/-- A store of an `unsigned char`. -/
def storeByte (a : Nat) (byte : BitVec 8) : Program Unit := fun mem =>
  if a < mappedBytes then .done () (Function.update mem a ⟨byte⟩) else .crash

/-- `memset`. -/
def memset (a : Nat) (byte : UInt8) (n : Nat) : Program Unit := fun mem =>
  if a + n ≤ mappedBytes then .done () (fillBytes n mem a byte) else .crash

/-! ## The functions -/

/-- `get_block`, as an offset into the mapping; the product has 32 bits. -/
def getBlock (blockInd : Nat) : Nat := wrap 32 (ext2BlockSize * blockInd : Nat)

/-- `get_super_block`. -/
def getSuperBlock : Nat := getBlock 1

/-- `get_group_descriptor`. -/
def getGroupDescriptor : Nat := getBlock 2

/-- `get_block_bitmap`. -/
def getBlockBitmap : Program Nat := do
  let bgBlockBitmap ← load 4 getGroupDescriptor
  pure (getBlock bgBlockBitmap)

/-- `get_bitmap_val`. -/
def getBitmapVal (bitmap bit : Nat) : Program Bool := do
  let byte ← loadByte (bitmap + bit / 8)
  pure (hasFlag (byte >>> (bit % 8)) 1#8)

/-- `set_bitmap_val`. -/
def setBitmapVal (bitmap bit : Nat) (value : Bool) : Program Unit := do
  let byte ← loadByte (bitmap + bit / 8)
  let oneHot := MachineWord.bit (bit % 8)
  storeByte (bitmap + bit / 8) (if value then byte ||| oneHot else byte &&& ~~~oneHot)

/-- `get_block_usage`. -/
def getBlockUsage (blockNum : Nat) : Program Bool := do
  let blockBitmap ← getBlockBitmap
  getBitmapVal blockBitmap (wrap 32 (blockNum - 1 : Int))

/-- `set_block_usage`. -/
def setBlockUsage (blockNum : Nat) (isUsed : Bool) : Program Unit := do
  let blockBitmap ← getBlockBitmap
  setBitmapVal blockBitmap (wrap 32 (blockNum - 1 : Int)) isUsed

/-- `increase_free_blocks_count`. -/
def increaseFreeBlocksCount (count : Int) : Program Unit := do
  let sFreeBlocksCount ← load 4 (getSuperBlock + 12)
  store 4 (getSuperBlock + 12) (wrap 32 (sFreeBlocksCount + count))
  let bgFreeBlocksCount ← load 2 (getGroupDescriptor + 12)
  store 2 (getGroupDescriptor + 12) (wrap 16 (bgFreeBlocksCount + count))

/-- `-num_blocks`: negated without a sign, and then an `int`. -/
def negated (numBlocks : Nat) : Int := (-BitVec.ofNat 32 numBlocks).toInt

/-- The search loop of `allocate_blocks` from `blockNum` on, with `n` blocks still to be found. -/
def allocateFrom : Nat → Nat → Nat → Program (List Nat)
  | _, _, 0 => pure []
  | 0, _, _ + 1 => Command.crash
  | fuel + 1, blockNum, n + 1 => do
    let used ← getBlockUsage blockNum
    if used then allocateFrom fuel (blockNum + 1) (n + 1)
    else
      setBlockUsage blockNum true
      memset (getBlock blockNum) 0 ext2BlockSize
      let rest ← allocateFrom fuel (blockNum + 1) n
      pure (blockNum :: rest)

/-- `allocate_blocks`.  The mapping has no bit for the blocks that the search does not reach. -/
def allocateBlocks (numBlocks : Nat) : Program (List Nat) := do
  let sFreeBlocksCount ← load 4 (getSuperBlock + 12)
  if numBlocks > sFreeBlocksCount then Command.exit 1
  else
    increaseFreeBlocksCount (negated numBlocks)
    allocateFrom (8 * mappedBytes) (lastReservedBlock + 1) numBlocks

/-! ## What the bytes say -/

/-- `s_blocks_count`. -/
def sBlocksCount (mem : Memory) : Nat := readLE mem 4 (getSuperBlock + 4)

/-- `s_free_blocks_count`. -/
def sFreeBlocksCount (mem : Memory) : Nat := readLE mem 4 (getSuperBlock + 12)

/-- `bg_free_blocks_count`. -/
def bgFreeBlocksCount (mem : Memory) : Nat := readLE mem 2 (getGroupDescriptor + 12)

/-- Where the block bitmap is. -/
def bitmapAddress (mem : Memory) : Nat := getBlock (readLE mem 4 getGroupDescriptor)

/-- The bytes from an address on, as a bitmap. -/
def bitsAt (mem : Memory) (a : Nat) : Nat → BitVec 8 := fun i => (mem (a + i)).toBitVec

/-- The bit of a block. -/
def blockUsed (mem : Memory) (b : Nat) : Bool :=
  Ext2.getBitmapVal (bitsAt mem (bitmapAddress mem)) (b - 1)

/-- The byte with the bit of a block. -/
def usageByte (mem : Memory) (b : Nat) : Nat := bitmapAddress mem + (b - 1) / 8

/-- The blocks with clear bits among the `k` from `b` on. -/
def clearFrom (mem : Memory) (b k : Nat) : List Nat :=
  (List.range' b k).filter fun x => !blockUsed mem x

/-- The clear bits among the blocks behind the reserved ones. -/
def clearBlocks (mem : Memory) : List Nat :=
  clearFrom mem (lastReservedBlock + 1) (sBlocksCount mem - (lastReservedBlock + 1))

/-- Blocks 1 to 22 are marked, and `s_free_blocks_count` is the number of clear bits. -/
structure Accounted (mem : Memory) : Prop where
  reserved : ∀ b, 1 ≤ b → b ≤ lastReservedBlock → blockUsed mem b = true
  counted : sFreeBlocksCount mem = (clearBlocks mem).length

/-- The bitmap is mapped and not in the superblock, and the first `numBlocks` free blocks are
mapped and do not hold the bitmap. -/
structure Reachable (mem : Memory) (numBlocks : Nat) : Prop where
  mapped : bitmapAddress mem < mappedBytes
  notSuper : bitmapAddress mem ≠ getSuperBlock
  blocks : ∀ b ∈ (clearBlocks mem).take numBlocks,
    b < mappedBlocks ∧ getBlock b ≠ bitmapAddress mem

/-- A byte of a free blocks counter. -/
def IsCounterByte (x : Nat) : Prop :=
  (getSuperBlock + 12 ≤ x ∧ x < getSuperBlock + 16) ∨
    (getGroupDescriptor + 12 ≤ x ∧ x < getGroupDescriptor + 14)

/-- A byte of a block. -/
def InBlock (b x : Nat) : Prop := getBlock b ≤ x ∧ x < getBlock b + ext2BlockSize

/-- The free blocks `bs` are handed out: their bits and no others are set, their bytes are zero,
the superblock counts `numBlocks` fewer, and no other byte changes. -/
structure HandedOut (mem : Memory) (numBlocks : Nat) (bs : List Nat) (mem' : Memory) : Prop where
  length : bs.length = numBlocks
  increasing : bs.Pairwise (· < ·)
  free : ∀ b ∈ bs, lastReservedBlock < b ∧ b < sBlocksCount mem ∧ blockUsed mem b = false
  bits : ∀ b, 1 ≤ b → b ≤ 8 * ext2BlockSize →
    blockUsed mem' b = (decide (b ∈ bs) || blockUsed mem b)
  zeroed : ∀ b ∈ bs, ∀ x, InBlock b x → mem' x = 0
  counter : sFreeBlocksCount mem' + numBlocks = sFreeBlocksCount mem
  others : ∀ x, ¬ IsCounterByte x → (∀ b ∈ bs, x ≠ usageByte mem b ∧ ¬ InBlock b x) →
    mem' x = mem x

/-! ## Addresses -/

theorem getBlock_eq {b : Nat} (hb : b < 2 ^ 22) : getBlock b = 1024 * b := by
  rw [getBlock, ext2BlockSize_eq]
  exact wrap_of_lt (by omega)

theorem getSuperBlock_eq : getSuperBlock = 1024 := rfl

theorem getGroupDescriptor_eq : getGroupDescriptor = 2048 := rfl

/-- The bitmap starts with a block. -/
theorem bitmapAddress_aligned (mem : Memory) : ∃ k, bitmapAddress mem = 1024 * k := by
  refine ⟨readLE mem 4 getGroupDescriptor % 2 ^ 22, ?_⟩
  rw [bitmapAddress, getBlock, ext2BlockSize_eq, wrap]
  omega

theorem inBlock_iff {b x : Nat} (hb : b < mappedBlocks) :
    InBlock b x ↔ 1024 * b ≤ x ∧ x < 1024 * b + 1024 := by
  have hlt : b < 128 := hb
  rw [InBlock, getBlock_eq (by omega), ext2BlockSize_eq]

/-- The bitmap is mapped, and not in the blocks of the counters. -/
structure Located (mem : Memory) : Prop where
  mapped : bitmapAddress mem < mappedBytes
  notSuper : bitmapAddress mem ≠ getSuperBlock
  notGroup : bitmapAddress mem ≠ getGroupDescriptor

/-- A block that can be handed out. -/
structure Placed (mem : Memory) (b : Nat) : Prop where
  free : lastReservedBlock < b
  mapped : b < mappedBlocks
  notBitmap : getBlock b ≠ bitmapAddress mem

section

variable {mem mem' mem'' : Memory} {b c n : Nat} {bs : List Nat}

/-- Which block the bitmap is in. -/
theorem Located.block (h : Located mem) :
    ∃ k, bitmapAddress mem = 1024 * k ∧ k < 128 ∧ k ≠ 1 ∧ k ≠ 2 := by
  obtain ⟨k, hk⟩ := bitmapAddress_aligned mem
  have hmapped : bitmapAddress mem < 128 * 1024 := h.mapped
  have hsuper := h.notSuper
  have hgroup := h.notGroup
  rw [getSuperBlock_eq] at hsuper
  rw [getGroupDescriptor_eq] at hgroup
  exact ⟨k, hk, by omega, by omega, by omega⟩

theorem Placed.addresses (h : Placed mem b) :
    getBlock b = 1024 * b ∧ 23 ≤ b ∧ b < 128 ∧ 1024 * b ≠ bitmapAddress mem := by
  have hfree : 22 < b := h.free
  have hmapped : b < 128 := h.mapped
  have haddr := getBlock_eq (show b < 2 ^ 22 by omega)
  exact ⟨haddr, hfree, hmapped, haddr ▸ h.notBitmap⟩

theorem Placed.congr (h : Placed mem b) (haddr : bitmapAddress mem' = bitmapAddress mem) :
    Placed mem' b := ⟨h.free, h.mapped, haddr ▸ h.notBitmap⟩

theorem Located.congr (h : Located mem) (haddr : bitmapAddress mem' = bitmapAddress mem) :
    Located mem' := ⟨haddr ▸ h.mapped, haddr ▸ h.notSuper, haddr ▸ h.notGroup⟩

/-- Where the bitmap is depends on four bytes of the group descriptor. -/
theorem bitmapAddress_congr (h : AgreeOn mem mem' getGroupDescriptor 4) :
    bitmapAddress mem' = bitmapAddress mem := by
  rw [bitmapAddress, bitmapAddress, h.readLE]

/-- The bit of a block depends on one byte. -/
theorem blockUsed_congr (haddr : bitmapAddress mem' = bitmapAddress mem)
    (hbyte : mem' (usageByte mem b) = mem (usageByte mem b)) :
    blockUsed mem' b = blockUsed mem b := by
  rw [blockUsed, blockUsed, Ext2.getBitmapVal_eq, Ext2.getBitmapVal_eq, haddr, bitsAt, bitsAt,
    ← usageByte, hbyte]

/-- The bits of the bitmap's block are in that block. -/
theorem usageByte_bounds (mem : Memory) (h1 : 1 ≤ c) (hc : c ≤ 8 * ext2BlockSize) :
    bitmapAddress mem ≤ usageByte mem c ∧ usageByte mem c < bitmapAddress mem + 1024 := by
  have hc' : c ≤ 8 * 1024 := hc
  rw [usageByte]
  omega

/-! ## The calls -/

theorem getBlockBitmap_run (mem : Memory) :
    getBlockBitmap mem = .done (bitmapAddress mem) mem := rfl

/-- The bit of a block, in 32 bits. -/
theorem bitOf_eq (h1 : 1 ≤ b) (hb : b < 2 ^ 32) : wrap 32 (b - 1 : Int) = b - 1 := by
  have hcast : ((b : Int) - 1) = ((b - 1 : Nat) : Int) := by omega
  rw [hcast]
  exact wrap_of_lt (by omega)

theorem getBlockUsage_run (h1 : 1 ≤ b) (hb : b < 2 ^ 32) (hmapped : usageByte mem b < mappedBytes) :
    getBlockUsage b mem = .done (blockUsed mem b) mem := by
  have hload : loadByte (usageByte mem b) mem = .done (mem (usageByte mem b)).toBitVec mem :=
    if_pos hmapped
  rw [getBlockUsage, Command.bind_of_done (getBlockBitmap_run mem), bitOf_eq h1 hb, getBitmapVal,
    ← usageByte, Command.bind_of_done hload]
  rfl

/-- The bit of a block set. -/
def markUsed (mem : Memory) (b : Nat) : Memory :=
  Function.update mem (usageByte mem b)
    ⟨(mem (usageByte mem b)).toBitVec ||| MachineWord.bit ((b - 1) % 8)⟩

theorem setBlockUsage_run (h1 : 1 ≤ b) (hb : b < 2 ^ 32) (hmapped : usageByte mem b < mappedBytes) :
    setBlockUsage b true mem = .done () (markUsed mem b) := by
  have hload : loadByte (usageByte mem b) mem = .done (mem (usageByte mem b)).toBitVec mem :=
    if_pos hmapped
  rw [setBlockUsage, Command.bind_of_done (getBlockBitmap_run mem), bitOf_eq h1 hb, setBitmapVal,
    ← usageByte, Command.bind_of_done hload]
  exact if_pos hmapped

/-- The bit of a block set and its bytes cleared. -/
def useBlock (mem : Memory) (b : Nat) : Memory :=
  fillBytes ext2BlockSize (markUsed mem b) (getBlock b) 0

/-- The blocks `bs` are used: their bits and no others are set, and their bytes are zero. -/
structure UsedUp (mem : Memory) (bs : List Nat) (mem' : Memory) : Prop where
  address : bitmapAddress mem' = bitmapAddress mem
  bits : ∀ c, 1 ≤ c → c ≤ 8 * ext2BlockSize →
    blockUsed mem' c = (decide (c ∈ bs) || blockUsed mem c)
  zeroed : ∀ b ∈ bs, ∀ x, InBlock b x → mem' x = 0
  others : ∀ x, (∀ b ∈ bs, x ≠ usageByte mem b ∧ ¬ InBlock b x) → mem' x = mem x

theorem UsedUp.nil (mem : Memory) : UsedUp mem [] mem where
  address := rfl
  bits c _ _ := by simp
  zeroed b hb := absurd hb List.not_mem_nil
  others x _ := rfl

/-- The bitmap is outside the block. -/
theorem Placed.not_inBlock_usageByte (hP : Placed mem b) (h1 : 1 ≤ c) (hc : c ≤ 8 * ext2BlockSize) :
    ¬ InBlock b (usageByte mem c) := by
  obtain ⟨haddr, -, -, hne⟩ := hP.addresses
  obtain ⟨k, hk⟩ := bitmapAddress_aligned mem
  have hbounds := usageByte_bounds mem h1 hc
  rw [inBlock_iff hP.mapped]
  omega

theorem markUsed_bits (h1 : 1 ≤ b) (h1c : 1 ≤ c) :
    Ext2.getBitmapVal (bitsAt (markUsed mem b) (bitmapAddress mem)) (c - 1)
      = if c = b then true else blockUsed mem c := by
  have hset : bitsAt (markUsed mem b) (bitmapAddress mem)
      = Ext2.setBitmapVal (bitsAt mem (bitmapAddress mem)) (b - 1) true := by
    funext i
    rw [bitsAt, markUsed, usageByte, Ext2.setBitmapVal, if_pos rfl, Function.update_apply,
      Function.update_apply]
    by_cases hi : i = (b - 1) / 8
    · rw [hi, if_pos rfl, if_pos rfl]
      rfl
    · rw [if_neg hi, if_neg (by omega)]
      rfl
  have hiff : c - 1 = b - 1 ↔ c = b := by omega
  rw [hset, Ext2.getBitmapVal_set, blockUsed]
  simp only [hiff]

/-- **One block** is marked and cleared. -/
theorem useBlock_usedUp (hL : Located mem) (hP : Placed mem b) :
    UsedUp mem [b] (useBlock mem b) := by
  obtain ⟨k, hk, hk128, hk1, hk2⟩ := hL.block
  obtain ⟨haddr, hb23, hb128, hne⟩ := hP.addresses
  have hin : b ≤ 8 * ext2BlockSize := show b ≤ 8 * 1024 by omega
  have hbyte := usageByte_bounds mem (show 1 ≤ b by omega) hin
  have hout : ∀ x, ¬ InBlock b x → useBlock mem b x = markUsed mem b x := fun x hx => if_neg hx
  have hother : ∀ x, x ≠ usageByte mem b → ¬ InBlock b x → useBlock mem b x = mem x :=
    fun x hx hx' => (hout x hx').trans (Function.update_of_ne hx _ _)
  have haddress : bitmapAddress (useBlock mem b) = bitmapAddress mem := by
    refine bitmapAddress_congr fun x hx hx' => hother x ?_ ?_
    · rw [getGroupDescriptor_eq] at hx hx'
      omega
    · rw [getGroupDescriptor_eq] at hx hx'
      rw [inBlock_iff hP.mapped]
      omega
  refine ⟨haddress, fun c h1 hc => ?_, fun b' hb' x hx => ?_, fun x hx => ?_⟩
  · have hsame : blockUsed (useBlock mem b) c
        = Ext2.getBitmapVal (bitsAt (markUsed mem b) (bitmapAddress mem)) (c - 1) := by
      rw [blockUsed, haddress, Ext2.getBitmapVal_eq, Ext2.getBitmapVal_eq, bitsAt, bitsAt,
        ← usageByte, hout _ (hP.not_inBlock_usageByte h1 hc)]
    rw [hsame, markUsed_bits (by omega) h1]
    by_cases hcb : c = b <;> simp [hcb]
  · obtain rfl := List.mem_singleton.mp hb'
    exact if_pos hx
  · exact hother x (hx b (by simp)).1 (hx b (by simp)).2

/-- One block after the other. -/
theorem UsedUp.cons (h : UsedUp mem [b] mem') (h' : UsedUp mem' bs mem'')
    (hP : Placed mem b) (hbs : ∀ x ∈ bs, Placed mem x) : UsedUp mem (b :: bs) mem'' := by
  have hbyte : ∀ x, usageByte mem' x = usageByte mem x := fun x => by
    rw [usageByte, usageByte, h.address]
  refine ⟨h'.address.trans h.address, fun c h1 hc => ?_, fun x hx y hy => ?_, fun y hy => ?_⟩
  · rw [h'.bits c h1 hc, h.bits c h1 hc]
    by_cases hcb : c = b <;> simp [hcb]
  · -- a block that is cleared stays so: later blocks are others, and the bitmap is elsewhere
    by_cases hlater : ∃ z ∈ bs, InBlock z y
    · obtain ⟨z, hz, hzy⟩ := hlater
      exact h'.zeroed z hz y hzy
    · have hxb : x = b := by
        rcases List.mem_cons.mp hx with hxb | hxbs
        · exact hxb
        · exact absurd ⟨x, hxbs, hy⟩ hlater
      subst hxb
      rw [h'.others y fun z hz => ⟨fun heq => ?_, fun hin => hlater ⟨z, hz, hin⟩⟩]
      · exact h.zeroed x (by simp) y hy
      · obtain ⟨-, hz23, hz128, -⟩ := (hbs z hz).addresses
        refine hP.not_inBlock_usageByte (c := z) (by omega) (show z ≤ 8 * 1024 by omega) ?_
        rwa [← hbyte, ← heq]
  · have hrest : mem'' y = mem' y := h'.others y fun z hz => by
      rw [hbyte]
      exact hy z (by simp [hz])
    exact hrest.trans (h.others y fun z hz => hy z (by simp [List.mem_singleton.mp hz]))

/-! ## The search -/

theorem mem_clearFrom {k x : Nat} :
    x ∈ clearFrom mem b k ↔ (b ≤ x ∧ x < b + k) ∧ blockUsed mem x = false :=
  mem_unused

theorem clearFrom_succ (mem : Memory) (b k : Nat) :
    clearFrom mem b (k + 1) = if blockUsed mem b then clearFrom mem (b + 1) k
      else b :: clearFrom mem (b + 1) k :=
  unused_succ _ b k

theorem clearFrom_congr {k : Nat}
    (h : ∀ x, b ≤ x → x < b + k → blockUsed mem' x = blockUsed mem x) :
    clearFrom mem' b k = clearFrom mem b k :=
  unused_congr h

/-- **The search** hands out the first free blocks, if they are mapped. -/
theorem allocateFrom_run (hL : Located mem) {fuel k : Nat} (hfuel : k ≤ fuel)
    (hb : lastReservedBlock < b) (hk : b + k ≤ mappedBlocks)
    (hn : n ≤ (clearFrom mem b k).length)
    (hplaced : ∀ x ∈ (clearFrom mem b k).take n, Placed mem x) :
    ∃ mem', allocateFrom fuel b n mem = .done ((clearFrom mem b k).take n) mem' ∧
      UsedUp mem ((clearFrom mem b k).take n) mem' := by
  induction k generalizing fuel b n mem with
  | zero =>
    obtain rfl : n = 0 := by simpa [clearFrom] using hn
    refine ⟨mem, ?_, UsedUp.nil mem⟩
    cases fuel <;> rfl
  | succ k ih =>
    cases n with
    | zero =>
      refine ⟨mem, ?_, UsedUp.nil mem⟩
      cases fuel <;> rfl
    | succ n =>
      obtain ⟨fuel, rfl⟩ : ∃ f, fuel = f + 1 := ⟨fuel - 1, by omega⟩
      have hb23 : 22 < b := hb
      have hk128 : b + (k + 1) ≤ 128 := hk
      obtain ⟨j, hj, hj128, -⟩ := hL.block
      have hmapped : usageByte mem b < mappedBytes := by
        show usageByte mem b < 128 * 1024
        rw [usageByte]
        omega
      rw [allocateFrom,
        Command.bind_of_done (getBlockUsage_run (by omega) (by omega) hmapped)]
      cases hused : blockUsed mem b with
      | true =>
        rw [clearFrom_succ, if_pos hused] at hn hplaced ⊢
        rw [if_pos rfl]
        exact ih hL (by omega) (show 22 < b + 1 by omega) (show b + 1 + k ≤ 128 by omega) hn hplaced
      | false =>
        have hclear : ¬ blockUsed mem b = true := by simp [hused]
        rw [clearFrom_succ, if_neg hclear] at hn hplaced ⊢
        rw [if_neg Bool.false_ne_true, List.take_succ_cons]
        rw [List.take_succ_cons] at hplaced
        have hP := hplaced b (List.mem_cons_self ..)
        have hone := useBlock_usedUp hL hP
        have hfill : memset (getBlock b) 0 ext2BlockSize (markUsed mem b)
            = .done () (useBlock mem b) := by
          refine if_pos ?_
          obtain ⟨haddr, -, hlt, -⟩ := hP.addresses
          show getBlock b + 1024 ≤ 128 * 1024
          omega
        -- the block just marked is not in the rest of the range
        have hsame : clearFrom (useBlock mem b) (b + 1) k = clearFrom mem (b + 1) k := by
          refine clearFrom_congr fun x hx hx' => ?_
          rw [hone.bits x (by omega) (show x ≤ 8 * 1024 by omega),
            decide_eq_false (by rw [List.mem_singleton]; omega), Bool.false_or]
        obtain ⟨mem', hrun, hrest⟩ := ih (hL.congr hone.address) (n := n)
          (show k ≤ fuel by omega) (show 22 < b + 1 by omega) (show b + 1 + k ≤ 128 by omega)
          (by rw [hsame]; simpa using hn)
          (by
            rw [hsame]
            exact fun x hx => (hplaced x (List.mem_cons_of_mem _ hx)).congr hone.address)
        rw [hsame] at hrun hrest
        refine ⟨mem', ?_, hone.cons hrest hP fun x hx => hplaced x (List.mem_cons_of_mem _ hx)⟩
        rw [Command.bind_of_done (setBlockUsage_run (by omega) (by omega) hmapped),
          Command.bind_of_done hfill, Command.bind_of_done hrun]
        rfl

end

end Mapped
end Ext2
end OsAssignments
