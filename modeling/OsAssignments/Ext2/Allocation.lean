import OsAssignments.Ext2.Image
import OsAssignments.Lib.NumberSearch

/-!
# Allocation of blocks and inodes

The allocating and freeing functions of `ext2_helper.h`, and the attachment of blocks to
inodes that `ext2_cp` does itself.

* `allocateBlocks`, `allocateInode`, `freeBlock`, `freeInode`, `allocateBlockOnInode` —
  the helpers; `exit` ends the command with the image as it is at that point.
* `attachEmpty`, `attachContent` — the two loops of `ext2_cp`.
* `freeNumbers`, `allocateFrom_eq` — what the search returns, as the first free numbers of a
  range.

The search of `allocate_blocks` has no bound of its own: past the last mapped block the
program is killed.
-/

namespace OsAssignments
namespace Ext2

open ByteMemory MachineWord ExitState NumberSearch

/-! ## Blocks -/

/-- What `allocate_blocks` does with a free block: mark it and clear its bytes. -/
def useBlock (d : Disk) (blockNum : Nat) : Disk :=
  let d := setBlockUsage d blockNum true
  { d with data := fillBytes ext2BlockSize d.data (getBlock blockNum) 0 }

/-- The search loop of `allocate_blocks` from `blockNum` on, with `n` blocks still to be
found. -/
def allocateFrom : Nat → Nat → Nat → Command (List Nat)
  | _, _, 0 => pure []
  | 0, _, _ + 1 => Command.crash
  | fuel + 1, blockNum, n + 1 => do
    let d ← Command.get
    if getBlockUsage d blockNum then allocateFrom fuel (blockNum + 1) (n + 1)
    else
      Command.modify fun d => useBlock d blockNum
      let rest ← allocateFrom fuel (blockNum + 1) n
      pure (blockNum :: rest)

/-- `allocate_blocks`. -/
def allocateBlocks (numBlocks : Nat) : Command (List Nat) := do
  let d ← Command.get
  if numBlocks > d.superBlock.sFreeBlocksCount then Command.exit 1
  else
    Command.modify fun d => increaseFreeBlocksCount d (-numBlocks)
    allocateFrom (mappedBlocks - (lastReservedBlock + 1)) (lastReservedBlock + 1) numBlocks

/-- `allocate_one_block`. -/
def allocateOneBlock : Command Nat := do
  let arr ← allocateBlocks 1
  pure (arr.headD 0)

/-- `free_block`. -/
def freeBlock (d : Disk) (blockNum : Nat) : Disk :=
  setBlockUsage (increaseFreeBlocksCount d 1) blockNum false

/-- `allocate_block_on_inode`. -/
def allocateBlockOnInode (inode blockInd : Nat) : Command Nat := do
  let d ← Command.get
  if getInodeBlockNumber d inode blockInd ≠ 0 then pure 0
  else
    let blockNum ← allocateOneBlock
    Command.modify fun d => setInodeBlockNumber d inode blockInd blockNum
    Command.modify fun d =>
      d.modifyInode inode fun i => { i with iBlocks := wrap 32 (i.iBlocks + 2 : Nat) }
    pure blockNum

/-! ## Inodes -/

/-- The loop of `allocate_inode` that clears all slots. -/
def clearSlots (d : Disk) (inode : Nat) : Disk :=
  (List.range inodeBlockLimit).foldl (fun d i => setInodeBlockNumber d inode i 0) d

/-- The inode numbers `allocate_inode` looks at. -/
def searchedInodes (d : Disk) : List Nat :=
  List.range' (lastReservedInode + 1) (d.superBlock.sInodesCount - lastReservedInode)

/-- `allocate_inode`. -/
def allocateInode : Command Nat := do
  let d ← Command.get
  if d.superBlock.sFreeInodesCount = 0 then Command.exit 1
  else
    Command.modify fun d => increaseFreeInodesCount d (-1)
    let d ← Command.get
    match (searchedInodes d).find? fun inodeNum => !getInodeUsage d inodeNum with
    | none => pure 0
    | some inodeNum =>
      Command.modify fun d => clearSlots (setInodeUsage d inodeNum true) inodeNum
      pure inodeNum

/-- The body of the loop of `free_inode`. -/
def releaseSlot (inode : Nat) (d : Disk) (index : Nat) : Disk :=
  let blockNum := getInodeBlockNumber d inode index
  if blockNum = 0 then d else setInodeBlockNumber (freeBlock d blockNum) inode index 0

/-- `free_inode`, at the time `now`. -/
def freeInode (now : Nat) (d : Disk) (inodeNum : Nat) : Disk :=
  let d := d.modifyInode inodeNum fun i => { i with iDtime := now, iSize := 0, iBlocks := 0 }
  let d := increaseFreeInodesCount d 1
  let d := setInodeUsage d inodeNum false
  (List.range inodeBlockLimit).reverse.foldl (releaseSlot inodeNum) d

/-- The end of `delete_child_entry`, when the block has no name left. -/
def releaseEntryBlock (d : Disk) (inode index blockNum : Nat) : Disk :=
  freeBlock (setInodeBlockNumber d inode index 0) blockNum

/-! ## The blocks of `ext2_cp` -/

/-- `get_required_block_count`; the sum is cut to 32 bits before the division. -/
def getRequiredBlockCount (fSize : Nat) : Nat :=
  wrap 32 (fSize + ext2BlockSize - 1 : Nat) / ext2BlockSize

/-- One round of the first loop: the next block goes to slot `i` if that is empty. -/
def attachStep (inode : Nat) (state : Disk × List Nat) (i : Nat) : Disk × List Nat :=
  match state with
  | (d, []) => (d, [])
  | (d, b :: rest) =>
    if getInodeBlockNumber d inode i = 0 then (setInodeBlockNumber d inode i b, rest)
    else (d, b :: rest)

/-- The first loop.  Past the last slot every round uses up a block, so these many rounds
are enough. -/
def attachEmpty (d : Disk) (inode : Nat) (blocks : List Nat) : Disk :=
  ((List.range (inodeBlockLimit + blocks.length)).foldl (attachStep inode) (d, blocks)).1

/-- What `fread` gets for block `i` of the file. -/
def fileChunk (content : List UInt8) (i : Nat) : List UInt8 :=
  (content.drop (ext2BlockSize * i)).take ext2BlockSize

/-- One round of the second loop. -/
def attachChunk (inode : Nat) (blocks : List Nat) (content : List UInt8) (i : Nat) :
    Command Unit :=
  if fileChunk content i ≠ [] then
    match blocks[i]? with
    | none => Command.crash
    | some b => do
      Command.modify fun d => setInodeBlockNumber d inode i b
      Command.modify fun d => { d with data := writeBytes d.data (getBlock b) (fileChunk content i) }
  else Command.modify fun d => setInodeBlockNumber d inode i 0

/-- The second loop, from round `i` on. -/
def attachContentFrom (inode : Nat) (blocks : List Nat) (content : List UInt8) :
    List Nat → Command Unit
  | [] => pure ()
  | i :: rest => do
    attachChunk inode blocks content i
    attachContentFrom inode blocks content rest

/-- Both loops of `ext2_cp` and the fields it sets afterwards. -/
def attachContent (now inode : Nat) (blocks : List Nat) (content : List UInt8) : Command Unit := do
  Command.modify fun d => attachEmpty d inode blocks
  attachContentFrom inode blocks content (List.range inodeBlockLimit)
  Command.modify fun d => d.modifyInode inode fun i => { i with
    iMode := ext2FtRegFile
    iCtime := now
    iDtime := 0
    iBlocks := wrap 32 (blocks.length * 2 : Nat)
    iSize := wrap 32 content.length }

/-! ## Blocks handed out -/

/-- The blocks `bs` marked and cleared. -/
def useBlocks (d : Disk) (bs : List Nat) : Disk := bs.foldl useBlock d

section UseBlocks

variable (d : Disk) (bs : List Nat)

theorem useBlocks_frame :
    (useBlocks d bs).superBlock = d.superBlock ∧ (useBlocks d bs).groupDesc = d.groupDesc ∧
    (useBlocks d bs).inodeBitmap = d.inodeBitmap ∧ (useBlocks d bs).inodeTable = d.inodeTable := by
  induction bs generalizing d with
  | nil => exact ⟨rfl, rfl, rfl, rfl⟩
  | cons b bs ih => exact ih (useBlock d b)

@[simp] theorem useBlocks_superBlock : (useBlocks d bs).superBlock = d.superBlock :=
  (useBlocks_frame d bs).1

@[simp] theorem useBlocks_groupDesc : (useBlocks d bs).groupDesc = d.groupDesc :=
  (useBlocks_frame d bs).2.1

@[simp] theorem useBlocks_inodeBitmap : (useBlocks d bs).inodeBitmap = d.inodeBitmap :=
  (useBlocks_frame d bs).2.2.1

@[simp] theorem useBlocks_inodeTable : (useBlocks d bs).inodeTable = d.inodeTable :=
  (useBlocks_frame d bs).2.2.2

variable {d bs}

theorem getBlockUsage_useBlocks (hbs : ∀ b ∈ bs, b < 2 ^ 32) {c : Nat} (hc : c < 2 ^ 32) :
    getBlockUsage (useBlocks d bs) c = (decide (c ∈ bs) || getBlockUsage d c) := by
  induction bs generalizing d with
  | nil => simp [useBlocks]
  | cons b bs ih =>
    have hb : b < 2 ^ 32 := hbs b (by simp)
    have hone : getBlockUsage (useBlock d b) c = if c = b then true else getBlockUsage d c :=
      getBlockUsage_set d true hb hc
    rw [show useBlocks d (b :: bs) = useBlocks (useBlock d b) bs from rfl,
      ih fun x hx => hbs x (by simp [hx]), hone]
    by_cases hcb : c = b <;> simp [hcb]

/-- Bytes outside the blocks handed out are kept. -/
theorem useBlocks_data {a len : Nat}
    (h : ∀ b ∈ bs, a + len ≤ getBlock b ∨ getBlock b + ext2BlockSize ≤ a) :
    AgreeOn d.data (useBlocks d bs).data a len := by
  induction bs generalizing d with
  | nil => exact AgreeOn.refl _ _ _
  | cons b bs ih =>
    have hone : AgreeOn d.data (useBlock d b).data a len :=
      fillBytes_of_disjoint _ _ _ _ (h b (by simp))
    exact hone.trans (ih fun x hx => h x (by simp [hx]))

/-- Another block's bytes are kept. -/
theorem useBlocks_data_block {c : Nat} (hc : c ∉ bs) :
    AgreeOn d.data (useBlocks d bs).data (getBlock c) ext2BlockSize := by
  refine useBlocks_data fun b hb => ?_
  have hne : c ≠ b := fun h => hc (h ▸ hb)
  simp only [getBlock_eq, ext2BlockSize_eq]
  omega

end UseBlocks

/-- The free ones among the `k` block numbers from `b` on. -/
def freeNumbers (d : Disk) (b k : Nat) : List Nat :=
  (List.range' b k).filter fun x => !getBlockUsage d x

theorem mem_freeNumbers {d : Disk} {b k x : Nat} :
    x ∈ freeNumbers d b k ↔ (b ≤ x ∧ x < b + k) ∧ getBlockUsage d x = false :=
  mem_unused

theorem nodup_freeNumbers (d : Disk) (b k : Nat) : (freeNumbers d b k).Nodup :=
  nodup_unused _ b k

theorem freeNumbers_succ (d : Disk) (b k : Nat) : freeNumbers d b (k + 1)
    = if getBlockUsage d b then freeNumbers d (b + 1) k else b :: freeNumbers d (b + 1) k :=
  unused_succ _ b k

theorem freeNumbers_congr {d d' : Disk} {b k : Nat}
    (h : ∀ x, b ≤ x → x < b + k → getBlockUsage d' x = getBlockUsage d x) :
    freeNumbers d' b k = freeNumbers d b k :=
  unused_congr h

theorem freeNumbers_increase (d : Disk) (count : Int) (b k : Nat) :
    freeNumbers (increaseFreeBlocksCount d count) b k = freeNumbers d b k := rfl

/-- The search finds the first free blocks, if there are enough of them. -/
theorem allocateFrom_eq (d : Disk) (fuel b n : Nat) (hb : b + fuel < 2 ^ 32)
    (hn : n ≤ (freeNumbers d b fuel).length) :
    allocateFrom fuel b n d
      = .done ((freeNumbers d b fuel).take n) (useBlocks d ((freeNumbers d b fuel).take n)) := by
  induction fuel generalizing b n d with
  | zero =>
    obtain rfl : n = 0 := by simpa [freeNumbers] using hn
    rfl
  | succ fuel ih =>
    cases n with
    | zero => rfl
    | succ n =>
      rw [allocateFrom, Command.bind_of_done (Command.get_apply d)]
      by_cases hused : getBlockUsage d b = true
      · rw [if_pos hused]
        rw [freeNumbers_succ, if_pos hused] at hn ⊢
        exact ih d (b + 1) (n + 1) (by omega) hn
      · rw [freeNumbers_succ, if_neg hused] at hn ⊢
        have hsame : freeNumbers (useBlock d b) (b + 1) fuel = freeNumbers d (b + 1) fuel := by
          refine freeNumbers_congr fun x hx hx' => ?_
          have hset := getBlockUsage_set d true (b := b) (c := x) (by omega) (by omega)
          exact hset.trans (if_neg (by omega))
        have hrest := ih (useBlock d b) (b + 1) n (by omega)
          (by rw [hsame]; simpa using hn)
        rw [hsame] at hrest
        rw [if_neg hused, Command.bind_of_done (Command.modify_apply _ d),
          Command.bind_of_done hrest]
        rfl

end Ext2
end OsAssignments
