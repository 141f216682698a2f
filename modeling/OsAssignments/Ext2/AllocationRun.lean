import OsAssignments.Ext2.Attach
import OsAssignments.Ext2.Commands
import OsAssignments.Ext2.InodeSound

/-!
# Runs of the allocator

Sequences of the operations that hand out and take back blocks and inodes, from a sound image.

* `copyAllocations` — the allocations of `ext2_cp`, with the loops that attach the blocks.
* `AllocStep` — one operation; an operation that exits leaves its image behind.
* `AllocStep.sound`, `allocRun_sound` — every image of a run is sound, what is handed out is
  free and what is taken back is in use.

`free_inode` and `free_block` trust their callers: an inode or a block that the file system
reserves can be freed like any other.  `Unreserved` and the bound on the block released say
that this does not happen; `reservedImage_not_sound` is an image on which it does.
-/

namespace OsAssignments
namespace Ext2

open ByteMemory MachineWord ExitState Ownership

/-! ## Operations -/

/-- Neither the inode nor a block of its slots is reserved. -/
def Unreserved (d : Disk) (n : Nat) : Prop :=
  lastReservedInode < n ∧ ∀ i, i < inodeBlockLimit →
    getInodeBlockNumber d n i = 0 ∨ lastReservedBlock < getInodeBlockNumber d n i

/-- The block that the new entry of `ext2_cp` may need. -/
def entryAllocation : Option (Nat × Nat) → Command Unit
  | none => pure ()
  | some (parent, index) => do
    let _ ← allocateBlockOnInode parent index
    pure ()

/-- The allocations of `ext2_cp`: for the inode `existing`, or for a new one, whose entry may
need a block in a slot of the parent. -/
def copyAllocations (now : Nat) (existing : Option Nat) (entrySlot : Option (Nat × Nat))
    (content : List UInt8) : Command Unit := do
  let blocks ← allocateBlocks (getRequiredBlockCount content.length)
  match existing with
  | some n => attachContent now n blocks content
  | none =>
    if getRequiredBlockCount content.length > inodeBlockLimit then Command.exit 1
    else
      let n ← allocateFileInode now (wrap 32 content.length)
      entryAllocation entrySlot
      attachContent now n blocks content

/-- One operation, at some time `now`. -/
inductive AllocStep : Disk → Disk → Prop
  | allocateInode {d d' : Disk} : (allocateInode d).Leaves d' → AllocStep d d'
  | allocateBlock {d d' : Disk} {n i : Nat} : InodeInUse d n → i < inodeBlockLimit →
      (allocateBlockOnInode n i d).Leaves d' → AllocStep d d'
  | copyToNew {d d' : Disk} (now : Nat) (entrySlot : Option (Nat × Nat)) (content : List UInt8) :
      (∀ slot ∈ entrySlot, InodeInUse d slot.1 ∧ slot.2 < inodeBlockLimit) →
      (copyAllocations now none entrySlot content d).Leaves d' → AllocStep d d'
  | copyToExisting {d d' : Disk} (now : Nat) {n : Nat} (content : List UInt8) : InodeInUse d n →
      (copyAllocations now (some n) none content d).Leaves d' → AllocStep d d'
  | freeInode {d : Disk} (now : Nat) {n : Nat} : InodeInUse d n → Unreserved d n →
      AllocStep d (freeInode now d n)
  | releaseBlock {d : Disk} {n i : Nat} : InodeInUse d n → i < inodeBlockLimit →
      lastReservedBlock < getInodeBlockNumber d n i →
      AllocStep d (releaseEntryBlock d n i (getInodeBlockNumber d n i))

/-! ## One operation -/

section

variable {d : Disk}

/-- `allocate_blocks` exits, or hands out free blocks. -/
theorem Counted.allocateBlocks_cases (h : Counted d) (k : Nat) :
    ((freeBlocks d).card < k ∧ allocateBlocks k d = .exit 1 d) ∨
    ∃ bs, bs.Nodup ∧ bs.length = k ∧ (∀ b ∈ bs, b ∈ freeBlocks d) ∧
      allocateBlocks k d = .done bs (handOut d bs) := by
  by_cases hk : k ≤ (freeBlocks d).card
  · refine .inr ⟨(freeList d).take k, ?_, ?_, fun b hb => ?_, h.allocateBlocks_done hk⟩
    · exact (nodup_freeNumbers _ _ _).sublist (List.take_sublist _ _)
    · rw [List.length_take, length_freeList h]
      omega
    · exact (mem_freeList h).mp (List.mem_of_mem_take hb)
  · exact .inl ⟨by omega, h.allocateBlocks_exit (by omega)⟩

theorem Counted.allocateOneBlock_cases (h : Counted d) :
    (freeBlocks d = ∅ ∧ allocateOneBlock d = .exit 1 d) ∨
      ∃ b ∈ freeBlocks d, allocateOneBlock d = .done b (handOut d [b]) := by
  rcases h.allocateBlocks_cases 1 with ⟨hfew, hexit⟩ | ⟨bs, -, hlen, hbs, hdone⟩
  · refine .inl ⟨Finset.card_eq_zero.mp (by omega), ?_⟩
    rw [allocateOneBlock, Command.bind_of_exit hexit]
  · obtain ⟨b, rfl⟩ := List.length_eq_one_iff.mp hlen
    exact .inr ⟨b, hbs b (by simp), by rw [allocateOneBlock, Command.bind_of_done hdone]; rfl⟩

/-- `allocate_block_on_inode` passes, exits, or attaches a free block. -/
theorem Counted.allocateBlockOnInode_cases (h : Counted d) (n i : Nat) :
    (getInodeBlockNumber d n i ≠ 0 ∧ allocateBlockOnInode n i d = .done 0 d) ∨
    (freeBlocks d = ∅ ∧ allocateBlockOnInode n i d = .exit 1 d) ∨
    ∃ b ∈ freeBlocks d, allocateBlockOnInode n i d = .done b (attachBlock d n i b) := by
  by_cases hzero : getInodeBlockNumber d n i = 0
  · have hrun : allocateBlockOnInode n i d = (do
        let blockNum ← allocateOneBlock
        Command.modify fun d => setInodeBlockNumber d n i blockNum
        Command.modify fun d => d.modifyInode n fun k =>
          { k with iBlocks := wrap 32 (k.iBlocks + 2 : Nat) }
        pure blockNum : Command Nat) d := by
      rw [allocateBlockOnInode, Command.bind_of_done (Command.get_apply d),
        if_neg (not_not.mpr hzero)]
    refine .inr ?_
    rcases h.allocateOneBlock_cases with ⟨hnone, hexit⟩ | ⟨b, hb, hdone⟩
    · exact .inl ⟨hnone, by rw [hrun, Command.bind_of_exit hexit]⟩
    · refine .inr ⟨b, hb, ?_⟩
      rw [hrun, Command.bind_of_done hdone, Command.bind_of_done (Command.modify_apply _ _),
        Command.bind_of_done (Command.modify_apply _ _)]
      rfl
  · refine .inl ⟨hzero, ?_⟩
    rw [allocateBlockOnInode, Command.bind_of_done (Command.get_apply d), if_pos hzero]
    rfl

/-- A free block is attached. -/
theorem Sound.attachedBlock (h : Sound d) {n : Nat} (i : Nat) {b : Nat} (hn : ValidInode d n)
    (hb : b ∈ freeBlocks d) : Sound (attachBlock d n i b) := by
  have hfree : ∀ c ∈ [b], c ∈ freeBlocks d := by simpa using hb
  have hout : Sound (handOut d [b]) := h.handedOut (List.nodup_singleton b) hfree
  have hn' : ValidInode (handOut d [b]) n := (validInode_of_layout handOut_layout).mpr hn
  have hatt : Sound (setInodeBlockNumber (handOut d [b]) n i b) := by
    refine hout.attach hn' (inUse_handOut_self h.toCounted hfree (by simp)) fun r hr => ?_
    rw [h.stored_handOut hfree ((validRef_of_layout handOut_layout).mp hr)]
    exact h.stored_ne_of_free hb ((validRef_of_layout handOut_layout).mp hr)
  exact hatt.modifiedInode n _ fun _ => rfl

theorem Sound.allocateBlockOnInode_ends (h : Sound d) {n : Nat} (i : Nat) (hn : ValidInode d n) :
    (allocateBlockOnInode n i d).Ends (fun _ => Sound) fun _ => Sound := by
  rcases h.toCounted.allocateBlockOnInode_cases n i with
    ⟨-, hdone⟩ | ⟨-, hexit⟩ | ⟨b, hb, hdone⟩
  · rw [hdone]
    exact h
  · rw [hexit]
    exact h
  · rw [hdone]
    exact h.attachedBlock i hn hb

/-- The image after an inode was allocated and filled in. -/
def newInode (now mode size : Nat) (d : Disk) (n : Nat) : Disk :=
  (claimInode d n).modifyInode n fun i => { i with
    iMode := mode
    iSize := size
    iCtime := now
    iDtime := 0
    iBlocks := 0
    iLinksCount := 1 }

theorem Counted.allocateTypedInode_least (h : Counted d) (now mode size : Nat) :
    (freeInodes d = ∅ ∧ allocateTypedInode now mode size d = .exit 1 d) ∨
    ∃ n, IsLeast {m | m ∈ freeInodes d} n ∧ lastReservedInode < n ∧
      allocateTypedInode now mode size d = .done n (newInode now mode size d n) := by
  rcases h.allocateInode_least with ⟨hnone, hexit⟩ | ⟨n, hn, hres, hdone⟩
  · exact .inl ⟨hnone, by rw [allocateTypedInode, Command.bind_of_exit hexit]⟩
  · refine .inr ⟨n, hn, hres, ?_⟩
    rw [allocateTypedInode, Command.bind_of_done hdone, if_neg (by omega)]
    rfl

theorem Counted.allocateTypedInode_cases (h : Counted d) (now mode size : Nat) :
    (freeInodes d = ∅ ∧ allocateTypedInode now mode size d = .exit 1 d) ∨
    ∃ n ∈ freeInodes d, lastReservedInode < n ∧
      allocateTypedInode now mode size d = .done n (newInode now mode size d n) :=
  (h.allocateTypedInode_least now mode size).imp_right fun ⟨n, hn, hres, hdone⟩ =>
    ⟨n, hn.1, hres, hdone⟩

theorem Sound.stored_newInode (h : Sound d) (now mode size : Nat) {n : Nat} (hn : ValidInode d n)
    {r : Ref} (hr : ValidRef d r) : stored (newInode now mode size d n) r = 0 ∨
      stored (newInode now mode size d n) r = stored d r := by
  rw [newInode, stored_modifyInode]
  · exact h.stored_claimInode hn hr
  · exact fun _ => rfl

theorem newInode_layout (now mode size : Nat) (d : Disk) (n : Nat) :
    (newInode now mode size d n).layout = d.layout :=
  (modifyInode_sameAccounts (claimInode d n) n _).layout.trans claimInode_layout

theorem newInode_footprint (now mode size : Nat) (d : Disk) (n : Nat) :
    Footprint d (newInode now mode size d n) {n} (indirectOf d n) := by
  have hmod := (modifyInode_footprint (claimInode d n) n (fun i => { i with
    iMode := mode
    iSize := size
    iCtime := now
    iDtime := 0
    iBlocks := 0
    iLinksCount := 1 }) fun _ => rfl).mono (le_refl _) (Set.empty_subset (indirectOf d n))
  rw [newInode]
  exact claimInode_footprint.trans hmod

theorem Sound.withNewInode (h : Sound d) (now mode size : Nat) {n : Nat} (hn : n ∈ freeInodes d) :
    Sound (newInode now mode size d n) :=
  (h.claimed hn).modifiedInode n _ fun _ => rfl

/-! ## Blocks on their way to an owner -/

/-- Blocks handed out and not yet attached. -/
structure Fresh (d : Disk) (bs : List Nat) : Prop where
  nodup : bs.Nodup
  used : ∀ b ∈ bs, b ≠ 0 ∧ InUse d b
  unowned : ∀ b ∈ bs, ∀ r, ValidRef d r → stored d r ≠ b

theorem Sound.fresh_handOut (h : Sound d) {bs : List Nat} (hnodup : bs.Nodup)
    (hbs : ∀ b ∈ bs, b ∈ freeBlocks d) : Fresh (handOut d bs) bs := by
  refine ⟨hnodup, fun b hb => ⟨?_, inUse_handOut_self h.toCounted hbs hb⟩, fun b hb r hr => ?_⟩
  · have := (mem_freeBlocks.mp (hbs b hb)).1
    omega
  · have hr' := (validRef_of_layout handOut_layout).mp hr
    rw [h.stored_handOut hbs hr']
    exact h.stored_ne_of_free (hbs b hb) hr'

theorem Fresh.of_step {d' : Disk} {bs : List Nat} (h : Fresh d bs) (hl : d'.layout = d.layout)
    (hmono : ∀ b, InUse d b → InUse d' b)
    (hstep : ∀ r, ValidRef d r → stored d' r = 0 ∨ stored d' r = stored d r ∨ stored d' r ∉ bs) :
    Fresh d' bs := by
  refine ⟨h.nodup, fun b hb => (h.used b hb).imp_right (hmono b), fun b hb r hr heq => ?_⟩
  have hr' := (validRef_of_layout hl).mp hr
  rcases hstep r hr' with hzero | hsame | hnot
  · exact (h.used b hb).1 (heq.symm.trans hzero)
  · exact h.unowned b hb r hr' (hsame.symm.trans heq)
  · exact hnot (heq ▸ hb)

theorem Fresh.withNewInode {bs : List Nat} (hf : Fresh d bs) (h : Sound d) (now mode size : Nat)
    {n : Nat} (hn : ValidInode d n) : Fresh (newInode now mode size d n) bs :=
  hf.of_step (newInode_layout now mode size d n)
    (fun _ hb => (modifyInode_sameAccounts (claimInode d n) n _).inUse hb.claimed)
    fun _ hr => (h.stored_newInode now mode size hn hr).imp_right .inl

/-- What is stored after a block was attached. -/
theorem Sound.stored_attachBlock (h : Sound d) {n i b : Nat} (hn : ValidInode d n)
    (hb : b ∈ freeBlocks d) {r : Ref} (hr : ValidRef d r) :
    stored (attachBlock d n i b) r = b ∨ stored (attachBlock d n i b) r = stored d r := by
  have hfree : ∀ c ∈ [b], c ∈ freeBlocks d := by simpa using hb
  have hout : Sound (handOut d [b]) := h.handedOut (List.nodup_singleton b) hfree
  have hsame : stored (attachBlock d n i b) r
      = stored (setInodeBlockNumber (handOut d [b]) n i b) r := by
    rw [attachBlock, stored_modifyInode]
    · rfl
    · exact fun _ => rfl
  have hword := (h.toCounted.free_bounds hb).2.2.1
  rw [hsame, hout.stored_set ((validInode_of_layout handOut_layout).mpr hn) hword
    ((validRef_of_layout handOut_layout).mpr hr), h.stored_handOut hfree hr]
  split
  · exact .inl rfl
  · exact .inr rfl

theorem attachBlock_sameAccounts (d : Disk) (n i b : Nat) :
    SameAccounts (handOut d [b]) (attachBlock d n i b) := by
  have h := (setInodeBlockNumber_slotsOnly (handOut d [b]) n i b []).sameAccounts
  exact ⟨h.layout, h.sFreeBlocks, h.bgFreeBlocks, h.sFreeInodes, h.bgFreeInodes, h.blockBitmap,
    h.inodeBitmap⟩

theorem attachBlock_layout (d : Disk) (n i b : Nat) : (attachBlock d n i b).layout = d.layout :=
  (attachBlock_sameAccounts d n i b).layout.trans handOut_layout

theorem InUse.attachedBlock (hc : Counted d) {n i b c : Nat} (hb : b ∈ freeBlocks d)
    (h : InUse d c) : InUse (attachBlock d n i b) c :=
  (attachBlock_sameAccounts d n i b).inUse (h.handedOut hc (by simpa using hb))

theorem Fresh.attachedBlock {bs : List Nat} (hf : Fresh d bs) (h : Sound d) {n i b : Nat}
    (hn : ValidInode d n) (hb : b ∈ freeBlocks d) : Fresh (attachBlock d n i b) bs := by
  refine hf.of_step (attachBlock_layout d n i b) (fun _ => InUse.attachedBlock h.toCounted hb)
    fun r hr => ?_
  rcases h.stored_attachBlock (i := i) hn hb hr with hnew | hsame
  · refine .inr (.inr fun hmem => ?_)
    have hmarked := (hf.used _ hmem).2.marked
    rw [hnew, (mem_freeBlocks.mp hb).2] at hmarked
    cases hmarked
  · exact .inr (.inl hsame)

/-! ## The allocations of `ext2_cp` -/

/-- The blocks reach the inode, and the image is sound. -/
theorem Sound.attachContent_ends (h : Sound d) (now : Nat) {n : Nat} {bs : List Nat}
    (content : List UInt8) (hn : ValidInode d n) (hf : Fresh d bs) :
    (attachContent now n bs content d).Ends (fun _ => Sound) fun _ => Sound := by
  rcases attachContent_copied now content hf.nodup
    (fun b hb => (hf.used b hb).2.lt_two_pow h.toCounted)
    (fun _ hmem => hf.unowned _ hmem (.indirect n) hn rfl) with hcrash | ⟨d', hdone, hc⟩
  · rw [hcrash]
    trivial
  · rw [hdone]
    exact h.copied hn hf.nodup hf.used hf.unowned hc

/-- The block for the entry is not one of those on their way. -/
theorem Sound.entryAllocation_ends (h : Sound d) {bs : List Nat} (hf : Fresh d bs)
    {entrySlot : Option (Nat × Nat)} (hslot : ∀ slot ∈ entrySlot, ValidInode d slot.1) :
    (entryAllocation entrySlot d).Ends
      (fun _ d' => Sound d' ∧ Fresh d' bs ∧ d'.layout = d.layout) fun _ => Sound := by
  cases entrySlot with
  | none => exact ⟨h, hf, rfl⟩
  | some slot =>
    obtain ⟨p, i⟩ := slot
    have hp : ValidInode d p := hslot (p, i) rfl
    rw [entryAllocation]
    rcases h.toCounted.allocateBlockOnInode_cases p i with
      ⟨-, hdone⟩ | ⟨-, hexit⟩ | ⟨b, hb, hdone⟩
    · rw [Command.bind_of_done hdone]
      exact ⟨h, hf, rfl⟩
    · rw [Command.bind_of_exit hexit]
      exact h
    · rw [Command.bind_of_done hdone]
      exact ⟨h.attachedBlock i hp hb, hf.attachedBlock h hp hb, attachBlock_layout d p i b⟩

/-- The allocations for a new inode. -/
theorem Sound.newInode_ends (h : Sound d) (now size : Nat) {bs : List Nat} (content : List UInt8)
    (hf : Fresh d bs) {entrySlot : Option (Nat × Nat)}
    (hslot : ∀ slot ∈ entrySlot, ValidInode d slot.1) :
    ((do
      let n ← allocateFileInode now size
      entryAllocation entrySlot
      attachContent now n bs content : Command Unit) d).Ends (fun _ => Sound) fun _ => Sound := by
  rcases h.toCounted.allocateTypedInode_cases now ext2FtRegFile size with
    ⟨-, hexit⟩ | ⟨n, hn, -, hdone⟩
  · rw [Command.bind_of_exit (x := allocateFileInode now size) hexit]
    exact h
  · have hvalid := (mem_freeInodes.mp hn).1
    have hlayout := newInode_layout now ext2FtRegFile size d n
    have hvalid' : ∀ m, ValidInode d m → ValidInode (newInode now ext2FtRegFile size d n) m :=
      fun m => (validInode_of_layout hlayout).mpr
    rw [Command.bind_of_done (x := allocateFileInode now size) hdone]
    refine Outcome.Ends.bind ((h.withNewInode now ext2FtRegFile size hn).entryAllocation_ends
      (hf.withNewInode h now ext2FtRegFile size hvalid) fun slot hmem => hvalid' _ (hslot slot hmem))
      ?_
    rintro - d' ⟨hs, hf', hl⟩
    exact hs.attachContent_ends now content ((validInode_of_layout hl).mpr (hvalid' n hvalid)) hf'

theorem Sound.copyAllocations_ends (h : Sound d) (now : Nat) {existing : Option Nat}
    {entrySlot : Option (Nat × Nat)} (content : List UInt8)
    (hexisting : ∀ n ∈ existing, ValidInode d n)
    (hslot : ∀ slot ∈ entrySlot, ValidInode d slot.1) :
    (copyAllocations now existing entrySlot content d).Ends (fun _ => Sound) fun _ => Sound := by
  rw [copyAllocations]
  rcases h.toCounted.allocateBlocks_cases (getRequiredBlockCount content.length) with
    ⟨-, hexit⟩ | ⟨bs, hnodup, -, hbs, hdone⟩
  · rw [Command.bind_of_exit hexit]
    exact h
  · have hout := h.handedOut hnodup hbs
    have hf := h.fresh_handOut hnodup hbs
    have hvalid : ∀ m, ValidInode d m → ValidInode (handOut d bs) m :=
      fun m => (validInode_of_layout handOut_layout).mpr
    rw [Command.bind_of_done hdone]
    cases existing with
    | some n => exact hout.attachContent_ends now content (hvalid n (hexisting n rfl)) hf
    | none =>
      by_cases hbig : getRequiredBlockCount content.length > inodeBlockLimit
      · rw [if_pos hbig]
        exact hout
      · rw [if_neg hbig]
        exact hout.newInode_ends now _ content hf fun slot hmem => hvalid _ (hslot slot hmem)

end

/-! ## Runs -/

/-- Every operation keeps the image sound. -/
theorem AllocStep.sound {d d' : Disk} (hstep : AllocStep d d') (h : Sound d) : Sound d' := by
  cases hstep with
  | allocateInode hleaves =>
    rcases h.toCounted.allocateInode_cases with ⟨-, hexit⟩ | ⟨n, hn, -, hdone⟩
    · rw [hexit] at hleaves
      cases hleaves
      exact h
    · rw [hdone] at hleaves
      cases hleaves
      exact h.claimed hn
  | allocateBlock hn _ hleaves => exact (h.allocateBlockOnInode_ends _ hn.1).of_leaves hleaves
  | copyToNew now entrySlot content hslot hleaves =>
    exact (h.copyAllocations_ends now content (by simp) fun slot hmem =>
      (hslot slot hmem).1.1).of_leaves hleaves
  | copyToExisting now content hn hleaves =>
    refine (h.copyAllocations_ends now content (fun m hm => ?_) (by simp)).of_leaves hleaves
    exact Option.mem_some.mp hm ▸ hn.1
  | freeInode now hn hun => exact h.sound_freeInode now hn.1 hn.2 hun.1 hun.2
  | releaseBlock hn hi hres => exact h.released hn.1 hi hres

/-- The images a sequence of operations leads to. -/
abbrev AllocRun : Disk → Disk → Prop := Relation.ReflTransGen AllocStep

/-- What the allocator may hand out and take back on an image: the blocks handed out are
distinct and free, and no inode stores one of them; the blocks of an inode are distinct and
in use. -/
structure AllocatorSafe (d : Disk) : Prop where
  sound : Sound d
  handedOut : ∀ k bs d', allocateBlocks k d = .done bs d' → bs.Nodup ∧
    ∀ b ∈ bs, getBlockUsage d b = false ∧ ∀ r, ValidRef d r → stored d r ≠ b
  takenBack : ∀ r s, ValidRef d r → ValidRef d s → stored d r ≠ 0 →
    getBlockUsage d (stored d r) = true ∧ (stored d r = stored d s → r = s)

theorem Sound.allocatorSafe {d : Disk} (h : Sound d) : AllocatorSafe d := by
  refine ⟨h, fun k bs d' hrun => ?_, fun r s hr hs hne =>
    ⟨(h.stored_inUse hr hne).marked, h.refs.inj r s hr hs hne⟩⟩
  rcases h.toCounted.allocateBlocks_cases k with ⟨-, hexit⟩ | ⟨bs', hnodup, -, hbs, hdone⟩
  · rw [hexit] at hrun
    cases hrun
  · rw [hdone] at hrun
    cases hrun
    exact ⟨hnodup, fun b hb => ⟨(mem_freeBlocks.mp (hbs b hb)).2, fun r hr =>
      h.stored_ne_of_free (hbs b hb) hr⟩⟩

/-- **Every sequence of operations keeps the image sound**: no block in use is handed out, and
no block is freed twice. -/
theorem allocRun_sound {d d' : Disk} (hrun : AllocRun d d') (h : Sound d) : AllocatorSafe d' := by
  induction hrun with
  | refl => exact h.allocatorSafe
  | tail _ hstep ih => exact (hstep.sound ih.sound).allocatorSafe

/-! ## Reserved blocks and inodes -/

/-- An image without files but for inode 12, whose slot 0 names the reserved block 20. -/
def reservedImage : Disk where
  superBlock := ⟨32, 128, 105, 20⟩
  groupDesc := ⟨3, 4, 5, 105, 20, 1⟩
  blockBitmap := fun i => if i < 2 then 0xFF#8 else if i = 2 then 0x3F#8 else 0#8
  inodeBitmap := fun i => if i = 0 then 0xFF#8 else if i = 1 then 0x0F#8 else 0#8
  inodeTable := fun n => ⟨0, 0, 0, 0, 0, 0, fun i => if n = 12 ∧ i = 0 then 20 else 0⟩
  data := fun _ => 0

theorem reservedImage_counted : Counted reservedImage where
  mapped := by decide
  metadata b hb := by
    rcases hb with rfl | rfl | rfl | rfl | ⟨-, hlt⟩
    · decide
    · decide
    · decide
    · decide
    · rw [getBlock_eq, getBlock_eq] at hlt
      have hlt : 1024 * b < 1024 * 5 + 128 * 32 := hlt
      rw [lastReservedBlock]
      omega
  sFreeBlocks := by decide +kernel
  bgFreeBlocks := by decide +kernel
  sFreeInodes := by decide +kernel
  bgFreeInodes := by decide +kernel
  reservedBlocks := by
    have hall : ∀ b, b ≤ lastReservedBlock → 1 ≤ b → getBlockUsage reservedImage b = true := by
      decide
    exact fun b h₁ h₂ => hall b h₂ h₁
  reservedInodes := by
    have hall : ∀ n, n ≤ lastReservedInode → 1 ≤ n → getInodeUsage reservedImage n = true := by
      decide
    exact fun n h₁ h₂ => hall n h₂ h₁

/-- Slot 0 of inode 12 is the only place that stores a number. -/
theorem stored_reservedImage {r : Ref} (hr : ValidRef reservedImage r)
    (hne : stored reservedImage r ≠ 0) : r = .slot 12 0 ∧ stored reservedImage r = 20 := by
  have hind : ∀ n, indirectBlock reservedImage n = 0 := fun n => if_neg fun h => by cases h.2
  cases r with
  | slot n i =>
    rw [stored] at hne ⊢
    by_cases hi : i < indirect1Index
    · rw [getInodeBlockNumber_direct _ _ hi] at hne ⊢
      have hslot : n = 12 ∧ i = 0 := by
        by_contra hnot
        exact hne (if_neg hnot)
      exact ⟨by rw [hslot.1, hslot.2], if_pos hslot⟩
    · rw [getInodeBlockNumber_indirect _ _ (by omega) hr.2, if_pos (hind n)] at hne
      exact absurd rfl hne
  | indirect n => exact absurd (hind n) hne

theorem reservedImage_sound : Sound reservedImage where
  toCounted := reservedImage_counted
  refs := by
    have hmeta : ¬ reservedImage.IsMetadata 20 := by
      rintro (h | h | h | h | ⟨-, h⟩)
      · exact absurd h (by decide)
      · exact absurd h (by decide)
      · exact absurd h (by decide)
      · exact absurd h (by decide)
      · exact absurd h (by decide)
    refine ⟨fun r hr hne => ?_, fun r s hr hs hne heq => ?_⟩
    · rw [(stored_reservedImage hr hne).2]
      exact ⟨by decide, by decide, hmeta⟩
    · rw [(stored_reservedImage hr hne).1, (stored_reservedImage hs (heq ▸ hne)).1]

theorem foldl_releaseSlot_inodeBitmap (n : Nat) (l : List Nat) (d : Disk) :
    (l.foldl (releaseSlot n) d).inodeBitmap = d.inodeBitmap := by
  induction l generalizing d with
  | nil => rfl
  | cons i l ih =>
    rw [List.foldl_cons, ih, releaseSlot_eq]
    split
    · rfl
    · exact (setInodeBlockNumber_slotsOnly d n i 0 []).inodeBitmap

theorem foldl_releaseSlot_empty {n : Nat} {l : List Nat} {d : Disk}
    (h : ∀ i ∈ l, getInodeBlockNumber d n i = 0) : l.foldl (releaseSlot n) d = d := by
  induction l with
  | nil => rfl
  | cons i l ih =>
    rw [List.foldl_cons, releaseSlot_eq, if_pos (h i (by simp)), ih fun j hj => h j (by simp [hj])]

/-- **The allocator frees what is reserved**: an inode, a block of an inode, and a block that
an entry was removed from. -/
theorem reservedImage_not_sound :
    Sound reservedImage ∧ InodeInUse reservedImage 2 ∧ InodeInUse reservedImage 12 ∧
      getInodeBlockNumber reservedImage 12 0 = 20 ∧
      ¬ Sound (freeInode 0 reservedImage 2) ∧ ¬ Sound (freeInode 0 reservedImage 12) ∧
      ¬ Sound (releaseEntryBlock reservedImage 12 0 20) := by
  refine ⟨reservedImage_sound, ⟨⟨by decide, by decide⟩, by decide⟩,
    ⟨⟨by decide, by decide⟩, by decide⟩, by decide, fun h => ?_, fun h => ?_, fun h => ?_⟩
  · have husage := h.reservedInodes 2 (by decide) (by decide)
    rw [getInodeUsage, freeInode_eq, foldl_releaseSlot_inodeBitmap] at husage
    exact absurd husage (by decide)
  · have husage := h.reservedBlocks 20 (by decide) (by decide)
    have hlist : (List.range inodeBlockLimit).reverse = (List.range' 1 267).reverse ++ [0] := by
      rw [inodeBlockLimit_eq, List.range_eq_range', List.range'_succ, List.reverse_cons]
    have hempty : ∀ i ∈ (List.range' 1 267).reverse,
        getInodeBlockNumber (unclaimInode 0 reservedImage 12) 12 i = 0 := by
      intro i hi
      rw [List.mem_reverse, List.mem_range'_1] at hi
      have hsame := stored_unclaimInode (d := reservedImage) (n := 12) 0 (.slot 12 i)
      by_contra hne
      have hne : stored reservedImage (.slot 12 i) ≠ 0 := hsame ▸ hne
      have hvalid : ValidRef reservedImage (.slot 12 i) :=
        ⟨⟨by decide, by decide⟩, by rw [inodeBlockLimit_eq]; omega⟩
      have heq := (stored_reservedImage hvalid hne).1
      injection heq
      omega
    rw [freeInode_eq, hlist, List.foldl_append, foldl_releaseSlot_empty hempty] at husage
    exact absurd husage (by decide)
  · exact absurd (h.reservedBlocks 20 (by decide) (by decide)) (by decide)

/-- Inode 13 of the image is allocated, and block 23 for it. -/
def filledImage : Disk := attachBlock (claimInode reservedImage 13) 13 0 23

set_option maxRecDepth 4000 in
theorem reservedImage_filled : AllocRun reservedImage filledImage := by
  have hinode : allocateInode reservedImage = .done 13 (claimInode reservedImage 13) := rfl
  have hblock : allocateBlockOnInode 13 0 (claimInode reservedImage 13) = .done 23 filledImage := rfl
  have hinUse : InodeInUse (claimInode reservedImage 13) 13 :=
    ⟨⟨by decide, by decide⟩, by decide⟩
  refine .tail (.single (.allocateInode ?_)) (.allocateBlock (i := 0) hinUse (by decide) ?_)
  · rw [hinode]
    exact .done 13 _
  · rw [hblock]
    exact .done 23 _

/-- The inode and its block are given back. -/
theorem allocRun_example : AllocRun reservedImage (freeInode 0 filledImage 13) ∧
    getBlockUsage filledImage 23 = true ∧
    getBlockUsage (freeInode 0 filledImage 13) 23 = false ∧
    AllocatorSafe (freeInode 0 filledImage 13) := by
  have hinUse : InodeInUse filledImage 13 :=
    ⟨⟨by decide, by decide +kernel⟩, by decide +kernel⟩
  have hslots : Unreserved filledImage 13 := ⟨by decide, by decide +kernel⟩
  have hrun : AllocRun reservedImage (freeInode 0 filledImage 13) :=
    .tail reservedImage_filled (.freeInode 0 hinUse hslots)
  exact ⟨hrun, by decide +kernel, by decide +kernel, allocRun_sound hrun reservedImage_sound⟩

end Ext2
end OsAssignments
