import OsAssignments.Ext2.Allocation
import OsAssignments.Ext2.DirUpdate

/-!
# Directory inodes

The functions that treat the blocks of an inode as directory blocks.

* `findMatchingPair`, `findMatchingEntry` — lookup through all blocks of an inode.
* `makeEntryInInode` — insertion: into an existing block, else into a new block at the
  first empty slot.
* `deleteChildEntry` — removal.
* `findMatchingEntry_eq` — lookup is a search by name, slot by slot.
* `makeEntryInInode_cases` — everything an insertion can do.
-/

namespace OsAssignments
namespace Ext2

open ByteMemory MachineWord ExitState

/-! ## The functions -/

/-- The image with other bytes in its data blocks. -/
def Disk.withData (d : Disk) (mem : Memory) : Disk := { d with data := mem }

/-- `find_matching_pair`. -/
def findMatchingPair (d : Disk) (inode : Nat) (name : CString) : Option (Option Nat × Nat) :=
  (List.range inodeBlockLimit).findSome? fun i =>
    let blockNum := getInodeBlockNumber d inode i
    if blockNum = 0 then none else blockMatchingPair d.data (getBlock blockNum) name

/-- `find_matching_entry`. -/
def findMatchingEntry (d : Disk) (inode : Nat) (name : CString) : Option Nat :=
  (findMatchingPair d inode name).map Prod.snd

/-- The first loop of `make_entry_in_inode`, over the slots that are left. -/
def makeEntryInBlocks (d : Disk) (inode childInodeNum : Nat) (name : CString) (fileType : Nat) :
    List Nat → Option Nat × Disk
  | [] => (none, d)
  | i :: rest =>
    let blockNum := getInodeBlockNumber d inode i
    if blockNum = 0 then makeEntryInBlocks d inode childInodeNum name fileType rest
    else
      match makeEntryInExistingBlock d.data (getBlock blockNum) childInodeNum name fileType with
      | (some attempt, mem) => (some attempt, d.withData mem)
      | (none, mem) =>
        makeEntryInBlocks (d.withData mem) inode childInodeNum name fileType rest

/-- The bytes of the mapping. -/
def mappedBytes : Nat := ext2BlockSize * mappedBlocks

/-- The second loop of `make_entry_in_inode`.  A name that is copied past the end of the
mapping kills the program. -/
def makeEntryInNewBlock (inode childInodeNum : Nat) (name : CString) (fileType : Nat) :
    List Nat → Command (Option Nat)
  | [] => pure none
  | i :: rest => do
    let blockNum ← allocateBlockOnInode inode i
    if blockNum = 0 then makeEntryInNewBlock inode childInodeNum name fileType rest
    else if mappedBytes < getBlock blockNum + 8 + name.length then Command.crash
    else
      Command.modify fun d =>
        d.withData (makeFirstEntry d.data (getBlock blockNum) childInodeNum name fileType)
      pure (some (getBlock blockNum))

/-- `make_entry_in_inode`. -/
def makeEntryInInode (inode childInodeNum : Nat) (name : CString) (fileType : Nat) :
    Command (Option Nat) := do
  let d ← Command.get
  let (attempt, d) :=
    makeEntryInBlocks d inode childInodeNum name fileType (List.range inodeBlockLimit)
  Command.modify fun _ => d
  match attempt with
  | some attempt => pure (some attempt)
  | none =>
    makeEntryInNewBlock inode childInodeNum name fileType (List.range inodeBlockLimit)

/-- The loop of `delete_child_entry`, over the slots that are left. -/
def deleteChildEntryFrom (d : Disk) (inode : Nat) (name : CString) : List Nat → Disk
  | [] => d
  | i :: rest =>
    let blockNum := getInodeBlockNumber d inode i
    if blockNum = 0 then deleteChildEntryFrom d inode name rest
    else
      match blockMatchingPair d.data (getBlock blockNum) name with
      | none => deleteChildEntryFrom d inode name rest
      | some pair =>
        let d := d.withData (unlinkEntry d.data pair)
        if isEntryBlockEmpty d.data (getBlock blockNum) then releaseEntryBlock d inode i blockNum
        else d

/-- `delete_child_entry`, on the inode of the parent entry. -/
def deleteChildEntry (d : Disk) (inode : Nat) (name : CString) : Disk :=
  deleteChildEntryFrom d inode name (List.range inodeBlockLimit)

section WithData

variable (d : Disk) (mem : Memory)

@[simp] theorem withData_superBlock : (d.withData mem).superBlock = d.superBlock := rfl

@[simp] theorem withData_groupDesc : (d.withData mem).groupDesc = d.groupDesc := rfl

@[simp] theorem withData_blockBitmap : (d.withData mem).blockBitmap = d.blockBitmap := rfl

@[simp] theorem withData_inodeBitmap : (d.withData mem).inodeBitmap = d.inodeBitmap := rfl

@[simp] theorem withData_inodeTable : (d.withData mem).inodeTable = d.inodeTable := rfl

@[simp] theorem withData_data : (d.withData mem).data = mem := rfl

@[simp] theorem withData_self : d.withData d.data = d := rfl

end WithData

/-! ## Lookup -/

/-- The entry of that name in the block of slot `i`, if there is one. -/
def slotEntry (d : Disk) (inode : Nat) (name : CString) (i : Nat) : Option Nat :=
  if getInodeBlockNumber d inode i = 0 then none
  else (blockEntries d.data (getBlock (getInodeBlockNumber d inode i))).find? fun e =>
    decide (entryName d.data e = name)

theorem map_snd_matchingPairFrom (mem : Memory) (name : CString) (prev : Option Nat)
    (es : List Nat) : (matchingPairFrom mem name prev es).map Prod.snd
      = es.find? fun e => decide (entryName mem e = name) := by
  induction es generalizing prev with
  | nil => rfl
  | cons e es ih =>
    rw [matchingPairFrom]
    by_cases hname : entryName mem e = name
    · rw [if_pos ((entryNameComparison_iff mem e name).mpr hname),
        List.find?_cons_of_pos (by simpa using hname)]
      rfl
    · have hcomp := mt (entryNameComparison_iff mem e name).mp hname
      rw [if_neg hcomp, ih, List.find?_cons_of_neg (by simpa using hname)]

theorem map_findSome {α β γ : Type} (f : α → Option β) (g : β → γ) (l : List α) :
    (l.findSome? f).map g = l.findSome? fun a => (f a).map g := by
  induction l with
  | nil => rfl
  | cons a l ih =>
    rw [List.findSome?_cons, List.findSome?_cons]
    cases f a with
    | none => simpa using ih
    | some b => rfl

/-- Lookup is a search by name, slot by slot. -/
theorem findMatchingEntry_eq (d : Disk) (inode : Nat) (name : CString) :
    findMatchingEntry d inode name
      = (List.range inodeBlockLimit).findSome? (slotEntry d inode name) := by
  rw [findMatchingEntry, findMatchingPair, map_findSome]
  congr 1
  funext i
  rw [slotEntry]
  dsimp only
  split
  · rfl
  · exact map_snd_matchingPairFrom _ _ _ _

/-! ## Insertion -/

/-- The first loop passes over slot `i`. -/
def Refused (d : Disk) (inode childInodeNum : Nat) (name : CString) (fileType i : Nat) : Prop :=
  getInodeBlockNumber d inode i = 0 ∨
    (makeEntryInExistingBlock d.data (getBlock (getInodeBlockNumber d inode i)) childInodeNum name
      fileType).1 = none

theorem makeEntryInBlocks_skip {d : Disk} {inode child fileType i : Nat} {name : CString}
    (h : Refused d inode child name fileType i) (slots : List Nat) :
    makeEntryInBlocks d inode child name fileType (i :: slots)
      = makeEntryInBlocks d inode child name fileType slots := by
  rw [makeEntryInBlocks]
  rcases h with hzero | hnone
  · exact if_pos hzero
  · split
    · rfl
    · have hmem := makeEntryInExistingBlock_none hnone
      split
      · rename_i heq
        rw [heq] at hnone
        cases hnone
      · rename_i mem heq
        rw [heq] at hmem
        have hmem : mem = d.data := hmem
        rw [hmem, withData_self]

/-- The first loop puts the entry into the block of the first slot that does not refuse. -/
theorem makeEntryInBlocks_cases (d : Disk) (inode child : Nat) (name : CString) (fileType : Nat)
    (slots : List Nat) :
    (∃ l₁ i l₂ entry mem, slots = l₁ ++ i :: l₂ ∧ getInodeBlockNumber d inode i ≠ 0 ∧
      (∀ j ∈ l₁, Refused d inode child name fileType j) ∧
      makeEntryInExistingBlock d.data (getBlock (getInodeBlockNumber d inode i)) child name fileType
        = (some entry, mem) ∧
      makeEntryInBlocks d inode child name fileType slots = (some entry, d.withData mem)) ∨
    ((∀ j ∈ slots, Refused d inode child name fileType j) ∧
      makeEntryInBlocks d inode child name fileType slots = (none, d)) := by
  induction slots with
  | nil => exact .inr ⟨by simp, rfl⟩
  | cons i slots ih =>
    by_cases href : Refused d inode child name fileType i
    · rw [makeEntryInBlocks_skip href]
      rcases ih with ⟨l₁, k, l₂, entry, mem, rfl, hne, hl₁, hmake, hres⟩ | ⟨hall, hres⟩
      · exact .inl ⟨i :: l₁, k, l₂, entry, mem, rfl, hne, by simpa using ⟨href, hl₁⟩, hmake, hres⟩
      · exact .inr ⟨by simpa using ⟨href, hall⟩, hres⟩
    · rw [Refused, not_or] at href
      obtain ⟨hne, hsome⟩ := href
      cases hmake : makeEntryInExistingBlock d.data (getBlock (getInodeBlockNumber d inode i)) child
          name fileType with
      | mk attempt mem =>
        cases attempt with
        | none => exact absurd (by rw [hmake]) hsome
        | some entry =>
          refine .inl ⟨[], i, slots, entry, mem, rfl, hne, by simp, hmake, ?_⟩
          rw [makeEntryInBlocks, if_neg hne, hmake]

/-- Block `b` marked, cleared and taken off the counters. -/
def takeBlock (d : Disk) (b : Nat) : Disk := useBlock (increaseFreeBlocksCount d (-1)) b

/-- What `allocate_block_on_inode` makes of the image if it allocates block `b`. -/
def attachBlock (d : Disk) (inode index b : Nat) : Disk :=
  (setInodeBlockNumber (takeBlock d b) inode index b).modifyInode inode fun i =>
    { i with iBlocks := wrap 32 (i.iBlocks + 2 : Nat) }

/-- The blocks `allocate_blocks` can find. -/
def searchedFree (d : Disk) : List Nat :=
  freeNumbers d (lastReservedBlock + 1) (mappedBlocks - (lastReservedBlock + 1))

theorem mem_searchedFree {d : Disk} {b : Nat} :
    b ∈ searchedFree d ↔ (22 < b ∧ b < 128) ∧ getBlockUsage d b = false := by
  rw [searchedFree, mem_freeNumbers, lastReservedBlock, mappedBlocks]
  constructor
  · rintro ⟨h, hfree⟩
    exact ⟨by omega, hfree⟩
  · rintro ⟨h, hfree⟩
    exact ⟨by omega, hfree⟩

theorem searchedFree_ne_nil {d : Disk}
    (h : ∃ b, lastReservedBlock < b ∧ b < mappedBlocks ∧ getBlockUsage d b = false) :
    ∃ b rest, searchedFree d = b :: rest := by
  obtain ⟨b, h₁, h₂, hfree⟩ := h
  have hmem : b ∈ searchedFree d := mem_searchedFree.mpr ⟨⟨h₁, h₂⟩, hfree⟩
  exact List.exists_cons_of_ne_nil (List.ne_nil_of_mem hmem)

/-- The block `allocate_blocks` finds, and what that tells. -/
theorem searchedFree_bounds {d : Disk} {b : Nat} {rest : List Nat} (h : searchedFree d = b :: rest) :
    (22 < b ∧ b < 128) ∧ getBlockUsage d b = false :=
  mem_searchedFree.mp (h ▸ List.mem_cons_self ..)

/-- A search that finds nothing runs off the mapping. -/
theorem allocateFrom_crash (d : Disk) (fuel b : Nat) (h : freeNumbers d b fuel = []) :
    allocateFrom fuel b 1 d = .crash := by
  induction fuel generalizing b with
  | zero => rfl
  | succ fuel ih =>
    have hused : getBlockUsage d b = true := by
      by_contra hfree
      have hmem : b ∈ freeNumbers d b (fuel + 1) :=
        mem_freeNumbers.mpr ⟨by omega, Bool.of_not_eq_true hfree⟩
      rw [h] at hmem
      cases hmem
    have hrest : freeNumbers d (b + 1) fuel = [] := by
      rw [freeNumbers_succ, if_pos hused] at h
      exact h
    rw [allocateFrom, Command.bind_of_done (Command.get_apply d), if_pos hused]
    exact ih (b + 1) hrest

theorem allocateOneBlock_cases (d : Disk) :
    (d.superBlock.sFreeBlocksCount = 0 ∧ allocateOneBlock d = .exit 1 d) ∨
    (0 < d.superBlock.sFreeBlocksCount ∧ searchedFree d = [] ∧ allocateOneBlock d = .crash) ∨
    ∃ b rest, 0 < d.superBlock.sFreeBlocksCount ∧ searchedFree d = b :: rest ∧
      allocateOneBlock d = .done b (takeBlock d b) := by
  have hstart : allocateBlocks 1 d = if 1 > d.superBlock.sFreeBlocksCount then .exit 1 d
      else allocateFrom (mappedBlocks - (lastReservedBlock + 1)) (lastReservedBlock + 1) 1
        (increaseFreeBlocksCount d (-1)) := by
    rw [allocateBlocks, Command.bind_of_done (Command.get_apply d)]
    split
    · rfl
    · rw [Command.bind_of_done (Command.modify_apply _ d)]
      rfl
  by_cases hzero : d.superBlock.sFreeBlocksCount = 0
  · refine .inl ⟨hzero, ?_⟩
    rw [hzero, if_pos (by omega)] at hstart
    rw [allocateOneBlock, Command.bind_of_exit hstart]
  · rw [if_neg (by omega)] at hstart
    cases hfree : searchedFree d with
    | nil =>
      refine .inr (.inl ⟨by omega, rfl, ?_⟩)
      rw [allocateFrom_crash _ _ _ ((freeNumbers_increase d _ _ _).trans hfree)] at hstart
      rw [allocateOneBlock, Command.bind_of_crash hstart]
    | cons b rest =>
      refine .inr (.inr ⟨b, rest, by omega, rfl, ?_⟩)
      have hlist : freeNumbers (increaseFreeBlocksCount d (-1)) (lastReservedBlock + 1)
          (mappedBlocks - (lastReservedBlock + 1)) = b :: rest :=
        (freeNumbers_increase d _ _ _).trans hfree
      rw [allocateFrom_eq _ _ _ _ (by simp [mappedBlocks, lastReservedBlock])
        (by rw [hlist]; simp), hlist] at hstart
      rw [allocateOneBlock, Command.bind_of_done hstart]
      rfl

/-- The image after an entry was made in a new block. -/
def newEntry (d : Disk) (inode index b child : Nat) (name : CString) (fileType : Nat) : Disk :=
  (attachBlock d inode index b).withData
    (makeFirstEntry (attachBlock d inode index b).data (getBlock b) child name fileType)

/-- An insertion into a new block at the empty slot `index`. -/
inductive NewBlockOutcome (d : Disk) (inode index child : Nat) (name : CString) (fileType : Nat) :
    Outcome Disk (Option Nat) → Prop
  | full : d.superBlock.sFreeBlocksCount = 0 →
      NewBlockOutcome d inode index child name fileType (.exit 1 d)
  | crash : 0 < d.superBlock.sFreeBlocksCount →
      (∀ b ∈ (searchedFree d).head?, mappedBytes < getBlock b + 8 + name.length) →
      NewBlockOutcome d inode index child name fileType .crash
  | made {b : Nat} {rest : List Nat} : 0 < d.superBlock.sFreeBlocksCount →
      searchedFree d = b :: rest → getBlock b + 8 + name.length ≤ mappedBytes →
      NewBlockOutcome d inode index child name fileType
        (.done (some (getBlock b)) (newEntry d inode index b child name fileType))

/-- The second loop passes over the slots in use and takes the first empty one. -/
theorem makeEntryInNewBlock_cases (d : Disk) (inode child : Nat) (name : CString) (fileType : Nat)
    (slots : List Nat) :
    ((∀ i ∈ slots, getInodeBlockNumber d inode i ≠ 0) ∧
      makeEntryInNewBlock inode child name fileType slots d = .done none d) ∨
    ∃ l₁ i l₂, slots = l₁ ++ i :: l₂ ∧ (∀ j ∈ l₁, getInodeBlockNumber d inode j ≠ 0) ∧
      getInodeBlockNumber d inode i = 0 ∧ NewBlockOutcome d inode i child name fileType
        (makeEntryInNewBlock inode child name fileType slots d) := by
  induction slots with
  | nil => exact .inl ⟨by simp, rfl⟩
  | cons i slots ih =>
    by_cases hne : getInodeBlockNumber d inode i = 0
    · refine .inr ⟨[], i, slots, rfl, by simp, hne, ?_⟩
      have halloc : allocateBlockOnInode inode i d = (do
          let blockNum ← allocateOneBlock
          Command.modify fun d => setInodeBlockNumber d inode i blockNum
          Command.modify fun d => d.modifyInode inode fun k =>
            { k with iBlocks := wrap 32 (k.iBlocks + 2 : Nat) }
          pure blockNum : Command Nat) d := by
        rw [allocateBlockOnInode, Command.bind_of_done (Command.get_apply d),
          if_neg (not_not.mpr hne)]
      rw [makeEntryInNewBlock]
      rcases allocateOneBlock_cases d with
        ⟨hzero, hone⟩ | ⟨hpos, hnil, hone⟩ | ⟨b, rest, hpos, hfree, hone⟩
      · rw [Command.bind_of_exit (halloc.trans (Command.bind_of_exit hone))]
        exact .full hzero
      · rw [Command.bind_of_crash (halloc.trans (Command.bind_of_crash hone))]
        exact .crash hpos (by simp [hnil])
      · have hdone : allocateBlockOnInode inode i d = .done b (attachBlock d inode i b) := by
          rw [halloc, Command.bind_of_done hone, Command.bind_of_done (Command.modify_apply _ _),
            Command.bind_of_done (Command.modify_apply _ _)]
          rfl
        have hb : b ≠ 0 := by
          have := (mem_searchedFree.mp (hfree ▸ List.mem_cons_self ..)).1
          omega
        rw [Command.bind_of_done hdone, if_neg hb]
        split
        · rename_i hover
          exact .crash hpos (by simpa [hfree] using hover)
        · rename_i hover
          rw [Command.bind_of_done (Command.modify_apply _ _)]
          exact .made hpos hfree (by omega)
    · have hskip : makeEntryInNewBlock inode child name fileType (i :: slots) d
          = makeEntryInNewBlock inode child name fileType slots d := by
        have hzero : allocateBlockOnInode inode i d = .done 0 d := by
          rw [allocateBlockOnInode, Command.bind_of_done (Command.get_apply d), if_pos hne]
          rfl
        rw [makeEntryInNewBlock, Command.bind_of_done hzero, if_pos rfl]
      rw [hskip]
      rcases ih with ⟨hall, hres⟩ | ⟨l₁, k, l₂, rfl, hl₁, hk, hres⟩
      · exact .inl ⟨by simpa using ⟨hne, hall⟩, hres⟩
      · exact .inr ⟨i :: l₁, k, l₂, rfl, by simpa using ⟨hne, hl₁⟩, hk, hres⟩

/-- **Everything an insertion can do.** -/
inductive InsertOutcome (d : Disk) (inode child : Nat) (name : CString) (fileType : Nat) :
    Outcome Disk (Option Nat) → Prop
  /-- The entry goes into the block of slot `i`. -/
  | existing {i entry : Nat} {mem : Memory} : i < inodeBlockLimit →
      getInodeBlockNumber d inode i ≠ 0 →
      makeEntryInExistingBlock d.data (getBlock (getInodeBlockNumber d inode i)) child name fileType
        = (some entry, mem) →
      InsertOutcome d inode child name fileType (.done (some entry) (d.withData mem))
  /-- All blocks refuse and no slot is empty. -/
  | occupied : (∀ i, i < inodeBlockLimit → Refused d inode child name fileType i) →
      (∀ i, i < inodeBlockLimit → getInodeBlockNumber d inode i ≠ 0) →
      InsertOutcome d inode child name fileType (.done none d)
  /-- All blocks refuse, and slot `i` is the first empty one. -/
  | newBlock {i : Nat} {o : Outcome Disk (Option Nat)} : i < inodeBlockLimit →
      (∀ j, j < inodeBlockLimit → Refused d inode child name fileType j) →
      (∀ j, j < i → getInodeBlockNumber d inode j ≠ 0) → getInodeBlockNumber d inode i = 0 →
      NewBlockOutcome d inode i child name fileType o →
      InsertOutcome d inode child name fileType o

theorem range_eq_append {n i : Nat} {l₁ l₂ : List Nat} (h : List.range n = l₁ ++ i :: l₂) :
    i < n ∧ ∀ j, j < i → j ∈ l₁ := by
  have hlen : i = l₁.length := by
    have hget := congrArg (fun l => l[l₁.length]?) h
    simp only [List.getElem?_append_right (le_refl _), Nat.sub_self, List.getElem?_cons_zero] at hget
    obtain ⟨hlt, heq⟩ := List.getElem?_eq_some_iff.mp hget
    simpa using heq.symm
  have hi : i ∈ List.range n := by
    rw [h]
    simp
  refine ⟨List.mem_range.mp hi, fun j hj => ?_⟩
  have hget := congrArg (fun l => l[j]?) h
  have hlt := List.mem_range.mp hi
  rw [List.getElem?_append_left (by omega), List.getElem?_range (by omega)] at hget
  exact List.mem_of_getElem? hget.symm

theorem makeEntryInInode_cases (d : Disk) (inode child : Nat) (name : CString) (fileType : Nat) :
    InsertOutcome d inode child name fileType (makeEntryInInode inode child name fileType d) := by
  rw [makeEntryInInode, Command.bind_of_done (Command.get_apply d)]
  rcases makeEntryInBlocks_cases d inode child name fileType (List.range inodeBlockLimit) with
    ⟨l₁, i, l₂, entry, mem, hsplit, hne, -, hmake, hres⟩ | ⟨hall, hres⟩
  · rw [hres]
    exact .existing (range_eq_append hsplit).1 hne hmake
  · have hrefused : ∀ i, i < inodeBlockLimit → Refused d inode child name fileType i :=
      fun i hi => hall i (List.mem_range.mpr hi)
    rw [hres]
    change InsertOutcome d inode child name fileType
      (makeEntryInNewBlock inode child name fileType (List.range inodeBlockLimit) d)
    rcases makeEntryInNewBlock_cases d inode child name fileType (List.range inodeBlockLimit) with
      ⟨hfull, hres⟩ | ⟨l₁, i, l₂, hsplit, hl₁, hi, hres⟩
    · rw [hres]
      exact .occupied hrefused fun i hi => hfull i (List.mem_range.mpr hi)
    · obtain ⟨hlt, hbefore⟩ := range_eq_append hsplit
      exact .newBlock hlt hrefused (fun j hj => hl₁ j (hbefore j hj)) hi hres

end Ext2
end OsAssignments
