import OsAssignments.Ext2.Insert

/-!
# What insertions leave alone

The files, the inodes and the entries of an image after an insertion that stays in its block.

* `Inserted.sameFile`, `Inserted.sound`, `Inserted.inode` — all other files keep their bytes,
  the image is sound again, and no inode changes but for its blocks.
* `Lands` — whether the entry gets into a block of the inode; a block that nobody stores does
  not count.
* `Inserted.sameFile_iff` — only then the file of the inode changes.
* `SlackAt` — the slack of the entry that is cut does not wrap.
* `EntriesAdded`, `Inserted.entriesAdded` — then, in a directory, the entry is one more, if it
  lands and has a name; otherwise the entries are those of before.
-/

namespace OsAssignments
namespace Ext2

open ByteMemory MachineWord ExitState Ownership

section

variable {pad : Bool} {d d' : Disk} {p child fileType : Nat} {name : CString} {a : Option Nat}

/-! ## Files -/

/-- A new block is handed out only if there is a free one. -/
theorem Contained.length_le {used : Nat} (h : Contained d p name used)
    (hplace : entryPlace d p name = none) (hfree : used < (freeBlocks d).card) :
    name.length ≤ 1016 := by
  rw [Contained, hplace] at h
  exact h.resolve_right (by omega)

theorem card_pos_of_mem {b : Nat} (hb : b ∈ freeBlocks d) : 0 < (freeBlocks d).card :=
  Finset.card_pos.mpr ⟨b, hb⟩

/-- The inode and the blocks an insertion writes to. -/
theorem Inserted.footprint (hc : Contained d p name 0)
    (hins : Inserted d p child name fileType (.done a d')) :
    ∃ bs, Footprint d d' {p} bs ∧ ∀ c ∈ bs, c ∈ blocksOf d p ∨ c ∈ freeBlocks d := by
  cases hins with
  | @placed r i mem hplace hi hne hmake =>
    rw [Contained, hplace] at hc
    refine ⟨{getInodeBlockNumber d p i}, (placed_footprint hmake hc).mono (Set.empty_subset _)
      (le_refl _), fun c hmem => ?_⟩
    rw [Set.mem_singleton_iff.mp hmem]
    exact .inl (mem_blocksOf_slot hi hne)
  | @newBlock i b hplace hfirst hb =>
    refine ⟨_, newEntry_footprint (hc.length_le hplace (card_pos_of_mem hb)), fun c hmem => ?_⟩
    rcases hmem with hmem | hmem
    · rw [Set.mem_singleton_iff.mp hmem]
      exact .inr hb
    · exact .inl (indirectOf_subset d p hmem)

/-- Every file but that of the inode is as it was. -/
theorem Inserted.sameFile (h : Sound d) (hp : ValidInode d p) (hc : Contained d p name 0)
    (hins : Inserted d p child name fileType (.done a d')) {m : Nat} (hm : ValidInode d m)
    (hne : m ≠ p) : SameFile d d' m := by
  obtain ⟨bs, hfoot, hbs⟩ := hins.footprint hc
  refine hfoot.sameFile hne (Set.disjoint_left.mpr fun c hcm hcb => ?_)
  rcases hbs c hcb with hown | hfree
  · exact Set.disjoint_left.mp (h.disjoint_blocksOf hm hp hne) hcm hown
  · exact h.not_mem_blocksOf hm (mem_freeBlocks.mp hfree).2 hcm

/-- Writing the first entry of a new block touches no indirect block. -/
theorem Sound.newBlock_ne_indirect (h : Sound d) {i b : Nat} (hb : b ∈ freeBlocks d) {m : Nat}
    (hm : ValidInode (attachBlock d p i b) m) : indirectBlock (attachBlock d p i b) m ≠ b := by
  rw [(attachBlock_footprint d p i b).indirect m]
  exact h.stored_ne_of_free hb (r := .indirect m)
    ((validInode_of_layout (attachBlock_layout d p i b)).mp hm)

/-- The image is sound again. -/
theorem Inserted.sound (h : Sound d) (hp : ValidInode d p) (hc : Contained d p name 0)
    (hins : Inserted d p child name fileType (.done a d')) : Sound d' := by
  cases hins with
  | @placed r i mem hplace hi hne hmake =>
    rw [Contained, hplace] at hc
    exact h.writtenData (fun m hm hmne => h.slot_ne_indirect hp hi hm hmne)
      (placed_footprint hmake hc).data
  | @newBlock i b hplace hfirst hb =>
    have hlen := hc.length_le hplace (card_pos_of_mem hb)
    exact (h.attachedBlock i hp hb).writtenData (fun m hm _ => h.newBlock_ne_indirect hb hm)
      fun c hcb => makeFirstEntry_agreeOn _ _ _ (fun heq => hcb heq.symm) hlen

/-- Blocks on their way to an owner are not given to another one. -/
theorem Inserted.fresh {bs : List Nat} (h : Sound d) (hp : ValidInode d p)
    (hc : Contained d p name 0) (hf : Fresh d bs)
    (hins : Inserted d p child name fileType (.done a d')) : Fresh d' bs := by
  cases hins with
  | @placed r i mem hplace hi hne hmake =>
    rw [Contained, hplace] at hc
    refine hf.of_step rfl (fun b hb => ⟨hb.lt, hb.marked, hb.notMetadata⟩) fun r hr => ?_
    exact .inr (.inl (stored_withData (fun m hm hmne => h.slot_ne_indirect hp hi hm hmne)
      (placed_footprint hmake hc).data hr))
  | @newBlock i b hplace hfirst hb =>
    have hlen := hc.length_le hplace (card_pos_of_mem hb)
    have hatt := hf.attachedBlock (i := i) h hp hb
    refine hatt.of_step rfl (fun b hb => ⟨hb.lt, hb.marked, hb.notMetadata⟩) fun r hr => ?_
    exact .inr (.inl (stored_withData (fun m hm _ => h.newBlock_ne_indirect hb hm)
      (fun c hcb => makeFirstEntry_agreeOn _ _ _ (fun heq => hcb heq.symm) hlen) hr))

/-! ## Inodes -/

theorem attachBlock_inode (d : Disk) (p i b m : Nat) :
    ∃ iBlocks iBlock, (attachBlock d p i b).inodeTable m
      = { d.inodeTable m with iBlocks := iBlocks, iBlock := iBlock } := by
  have hset := setInodeBlockNumber_slotsOnly (handOut d [b]) p i b []
  have htable : (attachBlock d p i b).inodeTable
      = ((setInodeBlockNumber (handOut d [b]) p i b).modifyInode p fun k =>
        { k with iBlocks := wrap 32 (k.iBlocks + 2 : Nat) }).inodeTable := rfl
  rw [htable, Disk.modifyInode_inodeTable]
  by_cases hm : m = p
  · obtain ⟨iBlock, hself⟩ := hset.self
    rw [if_pos hm, hself, hm, handOut_inodeTable]
    exact ⟨_, _, rfl⟩
  · rw [if_neg hm, hset.other m hm, handOut_inodeTable]
    exact ⟨_, _, rfl⟩

/-- No inode changes but for its blocks. -/
theorem Inserted.inode (hins : Inserted d p child name fileType (.done a d')) (m : Nat) :
    ∃ iBlocks iBlock, d'.inodeTable m
      = { d.inodeTable m with iBlocks := iBlocks, iBlock := iBlock } := by
  cases hins with
  | placed => exact ⟨_, _, rfl⟩
  | @newBlock i b hplace hfirst hb => exact attachBlock_inode d p i b m

theorem Inserted.layout (hins : Inserted d p child name fileType (.done a d')) :
    d'.layout = d.layout := by
  cases hins with
  | placed => rfl
  | @newBlock i b hplace hfirst hb => exact attachBlock_layout d p i b

theorem Inserted.inodeBitmap (hins : Inserted d p child name fileType (.done a d')) :
    d'.inodeBitmap = d.inodeBitmap := by
  cases hins with
  | placed => rfl
  | @newBlock i b hplace hfirst hb =>
    exact (attachBlock_sameAccounts d p i b).inodeBitmap.trans handOut_inodeBitmap

theorem Inserted.inodeInUse (hins : Inserted d p child name fileType (.done a d')) {m : Nat} :
    InodeInUse d' m ↔ InodeInUse d m := by
  rw [InodeInUse, InodeInUse, validInode_of_layout hins.layout, getInodeUsage, getInodeUsage,
    hins.inodeBitmap]

theorem Inserted.isDirInode (hins : Inserted d p child name fileType (.done a d')) {m : Nat} :
    IsDirInode d' m ↔ IsDirInode d m := by
  obtain ⟨iBlocks, iBlock, htable⟩ := hins.inode m
  rw [IsDirInode, IsDirInode, hins.inodeInUse, htable]

/-! ## Landing -/

/-- The entry made gets into a block of the inode: one has room, or the number of a new block
can be stored. -/
def Lands (d : Disk) (p : Nat) (name : CString) : Prop :=
  entryPlace d p name ≠ none ∨
    (∃ i, i < indirect1Index ∧ getInodeBlockNumber d p i = 0) ∨ indirectBlock d p ≠ 0

theorem SameFile.lands_iff (h : SameFile d d' p)
    (hind : indirectBlock d' p = indirectBlock d p) : Lands d' p name ↔ Lands d p name := by
  simp only [Lands, entryPlace_congr h, h.slots, hind]

theorem FirstEmpty.attachable_iff {i : Nat} (h : FirstEmpty d p i)
    (hplace : entryPlace d p name = none) : Attachable d p i ↔ Lands d p name := by
  rw [Lands, or_iff_right (not_not.mpr hplace)]
  constructor
  · rintro (hi | ⟨-, hind⟩)
    · exact .inl ⟨i, hi, h.empty⟩
    · exact .inr hind
  · rintro (⟨j, hj, hzero⟩ | hind)
    · refine .inl ?_
      by_contra hge
      exact h.before j (by omega) hzero
    · exact .inr ⟨h.lt, hind⟩

theorem Sound.getInodeBlockNumber_newEntry (h : Sound d) (child fileType i : Nat)
    (hp : ValidInode d p) {b : Nat} (hb : b ∈ freeBlocks d) (hlen : name.length ≤ 1016) (j : Nat) :
    getInodeBlockNumber (newEntry d p i b child name fileType) p j
      = if j = i ∧ Attachable d p i then b else getInodeBlockNumber d p j :=
  Ext2.getInodeBlockNumber_newEntry hlen (h.toCounted.free_bounds hb).2.2.1
    (fun _ => h.stored_ne_of_free hb (r := .indirect p) hp) j

/-- A block of an inode that takes an entry changes: `rec_len` of the entry cut does. -/
theorem makeEntryInExistingBlock_changes {mem mem' : Memory} {start r : Nat}
    (h : makeEntryInExistingBlock mem start child name fileType = (some r, mem')) :
    ¬ AgreeOn mem mem' start ext2BlockSize := by
  obtain ⟨cur, hcut, hspace, rfl, hin, rfl⟩ := makeEntryInExistingBlock_some h
  obtain ⟨hlo, -⟩ := isEntryInBlock_of_mem (mem_of_cutEntry hcut)
  have hmin := minRecLen_eq mem cur
  have hnl := entryNameLen_lt mem cur
  have hneed := totalEntryLength_eq (wrap_length_lt name)
  rw [isEntryInBlock, decide_eq_true_iff] at hin
  intro hag
  have hold : entryRecLen (fillEntry (setEntryRecLen mem cur (minRecLen mem cur))
      (cur + minRecLen mem cur) child (spaceLeft mem cur) fileType (wrap 8 name.length)
      (name.take (wrap 8 name.length))) cur = entryRecLen mem cur :=
    (hag.mono (by omega) (by omega)).readLE
  have hnew : entryRecLen (fillEntry (setEntryRecLen mem cur (minRecLen mem cur))
      (cur + minRecLen mem cur) child (spaceLeft mem cur) fileType (wrap 8 name.length)
      (name.take (wrap 8 name.length))) cur = minRecLen mem cur := by
    rw [entryRecLen, (fillEntry_agreeOn _ _ _ _ _ _ _ (by omega)).readLE, setEntryRecLen,
      readLE_writeLE_of_lt mem (cur + 4) (by omega)]
  have hzero : spaceLeft mem cur = 0 := by
    rw [spaceLeft, show entryRecLen mem cur = minRecLen mem cur from hold.symm.trans hnew, sub_self]
    rfl
  omega

/-- **The file of the inode changes exactly if the entry lands.** -/
theorem Inserted.sameFile_iff {r : Nat} (h : Sound d) (hp : ValidInode d p)
    (hc : Contained d p name 0) (hins : Inserted d p child name fileType (.done (some r) d')) :
    SameFile d d' p ↔ ¬ Lands d p name := by
  cases hins with
  | @placed r i mem hplace hi hne hmake =>
    refine ⟨fun hsame => ?_, fun hno => ?_⟩
    · exact absurd (hsame.bytes i hne) (makeEntryInExistingBlock_changes hmake)
    · exact absurd (.inl (by rw [hplace]; exact Option.some_ne_none _)) hno
  | @newBlock i b hplace hfirst hb =>
    have hlen := hc.length_le hplace (card_pos_of_mem hb)
    have hslots := h.getInodeBlockNumber_newEntry child fileType i hp hb hlen
    have hbne : b ≠ 0 := by
      have := (mem_freeBlocks.mp hb).1
      omega
    rw [← hfirst.attachable_iff hplace]
    constructor
    · intro hsame hatt
      have hslot := hsame.slots i
      rw [hslots, if_pos ⟨rfl, hatt⟩, hfirst.empty] at hslot
      exact hbne hslot
    · intro hno
      refine ⟨?_, fun j => ?_, fun j hne => ?_⟩
      · have hins : Inserted d p child name fileType
            (.done (some (getBlock b)) (newEntry d p i b child name fileType)) :=
          .newBlock hplace hfirst hb
        obtain ⟨_, _, htable⟩ := hins.inode p
        rw [htable]
      · rw [hslots, if_neg fun hand => hno hand.2]
      · have hj : j < inodeBlockLimit := by
          by_contra hge
          exact hne (getInodeBlockNumber_past _ _ (by omega))
        refine newEntry_agreeOn hlen (h.stored_ne_of_free hb (r := .slot p j) ⟨hp, hj⟩) fun heq => ?_
        by_cases hind : indirectBlock d p = 0
        · exact hne (heq.trans hind)
        · exact h.slot_ne_indirect hp hj hp hind heq.symm

/-! ## Entries -/

/-- The entries `added`, each with its directory, are new. -/
structure EntriesAdded (d d' : Disk) (added : Set (Nat × Nat)) : Prop where
  live : ∀ n e, LiveIn d' n e ↔ LiveIn d n e ∨ (n, e) ∈ added
  fresh : ∀ q ∈ added, ¬ LiveIn d q.1 q.2
  kept : ∀ n e, LiveIn d n e → entryBinding d'.data e = entryBinding d.data e
  tiled : DirsTiled false d'

/-- Slot `i` of a directory takes the entries `rs`, and the other slots keep their blocks. -/
structure SlotTakes (pad : Bool) (d d' : Disk) (p i : Nat) (rs : Set Nat) : Prop where
  lt : i < inodeBlockLimit
  slot : getInodeBlockNumber d' p i ≠ 0
  tiled : TiledAs pad d'.data (getBlock (getInodeBlockNumber d' p i))
  live : ∀ e, e ∈ liveEntries d'.data (getBlock (getInodeBlockNumber d' p i)) ↔
    (getInodeBlockNumber d p i ≠ 0 ∧
      e ∈ liveEntries d.data (getBlock (getInodeBlockNumber d p i))) ∨ e ∈ rs
  kept : getInodeBlockNumber d p i ≠ 0 →
    ∀ e ∈ liveEntries d.data (getBlock (getInodeBlockNumber d p i)),
      e ∉ rs ∧ entryBinding d'.data e = entryBinding d.data e
  slots : ∀ j, j ≠ i → getInodeBlockNumber d' p j = getInodeBlockNumber d p j
  bytes : ∀ j, j < inodeBlockLimit → j ≠ i → getInodeBlockNumber d p j ≠ 0 →
    AgreeOn d.data d'.data (getBlock (getInodeBlockNumber d p j)) ext2BlockSize ∧
      ∀ r ∈ rs, ¬ (getBlock (getInodeBlockNumber d p j) ≤ r ∧
        r < getBlock (getInodeBlockNumber d p j) + ext2BlockSize)

theorem mem_block_of_live {mem : Memory} {start e : Nat} (he : e ∈ liveEntries mem start) :
    start ≤ e ∧ e < start + ext2BlockSize :=
  isEntryInBlock_of_mem (mem_liveEntries.mp he).1

/-- The directories stay made of directory blocks. -/
theorem DirsTiled.slotTaken (h : DirsTiled pad d) {i : Nat} {rs : Set Nat}
    (hdirs : ∀ n, IsDirInode d' n ↔ IsDirInode d n)
    (hother : ∀ n, IsDirInode d n → n ≠ p → SameFile d d' n) (hs : SlotTakes pad d d' p i rs) :
    DirsTiled pad d' := by
  intro n hn i' hi' hne
  have hn := (hdirs n).mp hn
  by_cases hnp : n = p
  · subst hnp
    by_cases hi'i : i' = i
    · subst hi'i
      exact hs.tiled
    · rw [hs.slots i' hi'i] at hne ⊢
      exact ((h n hn i' hi' hne).congr (hs.bytes i' hi' hi'i hne).1).tiled
  · have hsame := hother n hn hnp
    rw [hsame.slots] at hne ⊢
    exact ((h n hn i' hi' hne).congr (hsame.bytes i' hne)).tiled

/-- The directory has these entries more, the other directories have the same. -/
theorem DirsTiled.entriesAdded (h : DirsTiled pad d) (hp : IsDirInode d p) {i : Nat} {rs : Set Nat}
    (hdirs : ∀ n, IsDirInode d' n ↔ IsDirInode d n)
    (hother : ∀ n, IsDirInode d n → n ≠ p → SameFile d d' n) (hs : SlotTakes pad d d' p i rs) :
    EntriesAdded d d' {q | q.1 = p ∧ q.2 ∈ rs} := by
  refine ⟨fun n e => ?_, ?_, fun n e hl => ?_, (h.slotTaken hdirs hother hs).format⟩
  · change LiveIn d' n e ↔ LiveIn d n e ∨ (n = p ∧ e ∈ rs)
    by_cases hn : IsDirInode d n
    · by_cases hnp : n = p
      · subst hnp
        simp only [LiveIn, hdirs, hp, true_and]
        constructor
        · rintro ⟨j, hj, hne, he⟩
          by_cases hji : j = i
          · subst hji
            exact ((hs.live e).mp he).imp_left fun hold => ⟨j, hj, hold.1, hold.2⟩
          · rw [hs.slots j hji] at hne he
            have hag := (hs.bytes j hj hji hne).1
            rw [(h n hp j hj hne).liveEntries_congr hag] at he
            exact .inl ⟨j, hj, hne, he⟩
        · rintro (⟨j, hj, hne, he⟩ | hr)
          · by_cases hji : j = i
            · subst hji
              exact ⟨j, hj, hs.slot, (hs.live e).mpr (.inl ⟨hne, he⟩)⟩
            · have hag := (hs.bytes j hj hji hne).1
              refine ⟨j, hj, by rwa [hs.slots j hji], ?_⟩
              rwa [hs.slots j hji, (h n hp j hj hne).liveEntries_congr hag]
          · exact ⟨i, hs.lt, hs.slot, (hs.live e).mpr (.inr hr)⟩
      · have hlive := ((hother n hn hnp).liveIn h hn ((hdirs n).mpr hn)).1 e
        rw [hlive]
        exact ⟨.inl, fun hor => hor.resolve_right fun hand => hnp hand.1⟩
    · refine ⟨fun hl => absurd ((hdirs n).mp hl.1) hn, ?_⟩
      rintro (hl | ⟨rfl, -⟩)
      · exact absurd hl.1 hn
      · exact absurd hp hn
  · rintro ⟨q, r⟩ ⟨rfl, hr⟩ ⟨-, j, hj, hne, he⟩
    by_cases hji : j = i
    · subst hji
      exact (hs.kept hne r he).1 hr
    · exact (hs.bytes j hj hji hne).2 r hr (mem_block_of_live he)
  · by_cases hnp : n = p
    · subst hnp
      obtain ⟨-, j, hj, hne, he⟩ := hl
      by_cases hji : j = i
      · subst hji
        exact (hs.kept hne e he).2
      · exact ((h n hp j hj hne).sameEntry (hs.bytes j hj hji hne).1
          (mem_liveEntries.mp he).1).binding
    · exact ((hother n hl.1 hnp).liveIn h hl.1 ((hdirs n).mpr hl.1)).2 e hl

/-- Without new entries the entries are the same. -/
theorem SameLive.entriesAdded (h : SameLive d d') (hT : DirsTiled false d') {added : Set (Nat × Nat)}
    (hadded : ∀ q, q ∉ added) : EntriesAdded d d' added :=
  ⟨fun n e => (h.live n e).trans ⟨.inl, fun hor => hor.resolve_right (hadded (n, e))⟩,
    fun q hq => absurd hq (hadded q), h.binding, hT⟩

/-- An insertion into a block of the directory. -/
theorem ConsistentAs.placed_slotTakes (h : ConsistentAs pad d) (hp : IsDirInode d p) {i r : Nat}
    {mem : Memory} {binding : CString × Nat × Nat} (hi : i < inodeBlockLimit)
    (hne : getInodeBlockNumber d p i ≠ 0)
    (hins : Insertion d.data mem (getBlock (getInodeBlockNumber d p i)) r binding) :
    SlotTakes pad d (d.withData mem) p i {e | e = r ∧ binding.1 ≠ []} := by
  obtain ⟨k₁, k₂, hold, hnew⟩ := hins.entries
  have hT := hins.tiled (h.tiled p hp i hi hne)
  have hpair := hT.pairwise
  have hmem : r ∈ blockEntries mem (getBlock (getInodeBlockNumber d p i)) := by
    rw [hnew]
    simp
  have hrange := isEntryInBlock_of_mem hmem
  have hother : ∀ c, c ≠ getInodeBlockNumber d p i →
      AgreeOn d.data mem (getBlock c) ext2BlockSize := fun c hc =>
    hins.frame (by have := block_disjoint hc; omega)
  have hslots : ∀ j, getInodeBlockNumber (d.withData mem) p j = getInodeBlockNumber d p j :=
    getInodeBlockNumber_congr rfl fun hind =>
      hother _ (h.sound.slot_ne_indirect hp.1.1 hi hp.1.1 hind)
  refine ⟨hi, by rwa [hslots], by rw [hslots]; exact hT, fun e => ?_,
    fun _ e he => ⟨?_, ?_⟩, fun j _ => hslots j, fun j hj hji hjne => ?_⟩
  · obtain ⟨l₁, l₂, hlive, hlive'⟩ := hins.liveEntries_eq
    rw [hslots, withData_data, hlive, hlive', and_iff_right hne]
    by_cases hname : binding.1 = []
    · simp [hname]
    · simp only [hname, if_false, List.mem_append, List.mem_singleton, Set.mem_ofPred_eq, ne_eq,
        not_false_eq_true, and_true]
      tauto
  · rintro ⟨rfl, -⟩
    have hmem := (mem_liveEntries.mp he).1
    rw [hnew, List.pairwise_append] at hpair
    rw [hold, List.mem_append] at hmem
    rcases hmem with hmem | hmem
    · exact lt_irrefl _ (hpair.2.2 e hmem e (by simp))
    · exact lt_irrefl _ ((List.pairwise_cons.mp hpair.2.1).1 e hmem)
  · exact hins.kept e (mem_liveEntries.mp he).1
  · have hbne : getInodeBlockNumber d p j ≠ getInodeBlockNumber d p i := fun heq =>
      hji ((h.dirInode hp).distinct j i hj hi hjne heq)
    have hdisj := block_disjoint hbne
    refine ⟨hother _ hbne, ?_⟩
    rintro e ⟨rfl, -⟩
    omega

/-- An insertion into a new block. -/
theorem ConsistentAs.newBlock_slotTakes (h : ConsistentAs pad d) (hp : IsDirInode d p) {i b : Nat}
    (hplace : entryPlace d p name = none) (hfirst : FirstEmpty d p i) (hb : b ∈ freeBlocks d)
    (hlen : name.length ≤ 1016) (hland : Lands d p name) :
    SlotTakes pad d (newEntry d p i b child name fileType) p i
      {e | e = getBlock b ∧ wrap 8 name.length ≠ 0} := by
  have hatt := (hfirst.attachable_iff hplace).mpr hland
  have hslots := h.sound.getInodeBlockNumber_newEntry child fileType i hp.1.1 hb hlen
  have hself : getInodeBlockNumber (newEntry d p i b child name fileType) p i = b := by
    rw [hslots, if_pos ⟨rfl, hatt⟩]
  have hbne : b ≠ 0 := by
    have := (mem_freeBlocks.mp hb).1
    omega
  refine ⟨hfirst.lt, by rwa [hself], by rw [hself]; exact (tiledBy_makeFirstEntry _ _ _ _ _ _).tiled,
    fun e => ?_, fun hne => absurd hfirst.empty hne,
    fun j hji => by rw [hslots, if_neg fun hand => hji hand.1], fun j hj hji hne => ?_⟩
  · have hT := tiledBy_makeFirstEntry (attachBlock d p i b).data (getBlock b) child fileType name false
    have hnl := entryNameLen_makeFirstEntry (attachBlock d p i b).data (getBlock b) child fileType
      name
    rw [hself, newEntry, withData_data, mem_liveEntries, hT.blockEntries_eq, List.mem_singleton]
    constructor
    · rintro ⟨rfl, hpos⟩
      exact .inr ⟨rfl, by omega⟩
    · rintro (hold | ⟨rfl, hpos⟩)
      · exact absurd hfirst.empty hold.1
      · exact ⟨rfl, by omega⟩
  · have hcb : getInodeBlockNumber d p j ≠ b :=
      h.sound.stored_ne_of_free hb (r := .slot p j) ⟨hp.1.1, hj⟩
    have hdisj := block_disjoint hcb
    refine ⟨newEntry_agreeOn hlen hcb fun heq => ?_, ?_⟩
    · by_cases hind : indirectBlock d p = 0
      · exact hne (heq.trans hind)
      · exact h.sound.slot_ne_indirect hp.1.1 hj hp.1.1 hind heq.symm
    · rintro e ⟨rfl, -⟩
      rw [ext2BlockSize_eq] at *
      omega

/-- The entry made is one in use of a directory. -/
def LandsLive (d : Disk) (p : Nat) (name : CString) : Prop :=
  IsDirInode d p ∧ wrap 8 name.length ≠ 0 ∧ Lands d p name

/-- Outside directories, and for an entry that is lost, all directories are kept. -/
theorem Inserted.dirsKept {r : Nat} (h : Sound d) (hp : ValidInode d p) (hc : Contained d p name 0)
    (hno : ¬ (IsDirInode d p ∧ Lands d p name))
    (hins : Inserted d p child name fileType (.done (some r) d')) : DirsKept d d' := by
  intro n hn
  by_cases hnp : n = p
  · subst hnp
    exact (hins.sameFile_iff h hp hc).mpr fun hland => hno ⟨hn, hland⟩
  · exact hins.sameFile h hp hc hn.1.1 hnp

/-- The slack of the entry that a directory cuts for the name does not wrap. -/
def SlackAt (d : Disk) (p : Nat) (name : CString) : Prop :=
  IsDirInode d p → ∀ r, entryPlace d p name = some r →
    CutsSlack d.data (getBlock (r / ext2BlockSize)) name

/-- The block of the entry made. -/
theorem div_of_make {mem mem' : Memory} {c r : Nat}
    (h : makeEntryInExistingBlock mem (getBlock c) child name fileType = (some r, mem')) :
    r / ext2BlockSize = c := by
  obtain ⟨hlo, hhi, -⟩ := makeEntryInExistingBlock_frame h
  simp only [getBlock_eq, ext2BlockSize_eq] at *
  omega

/-- Where the program pads the entries, no slack wraps. -/
theorem ConsistentAs.slackAt (h : Consistent d) (p : Nat) (name : CString) : SlackAt d p name := by
  intro hp r hplace
  obtain ⟨i, mem, hi, hne, hmake, -⟩ := makeEntryInInode_of_place hplace 0 0
  rw [div_of_make hmake]
  exact (h.tiled p hp i hi hne).cutsSlack name

/-- What an insertion does to the entries and the blocks of all directories. -/
theorem Inserted.directories {r : Nat} (h : ConsistentAs pad d) (hp : ValidInode d p)
    (hc : Contained d p name 0) (hslack : SlackAt d p name)
    (hins : Inserted d p child name fileType (.done (some r) d')) :
    EntriesAdded d d' {q | q.1 = p ∧ q.2 = r ∧ LandsLive d p name} ∧ DirsTiled pad d' := by
  have hdirs : ∀ n, IsDirInode d' n ↔ IsDirInode d n := fun n => hins.isDirInode
  by_cases hland : IsDirInode d p ∧ Lands d p name
  · obtain ⟨hpdir, hland⟩ := hland
    have hother : ∀ n, IsDirInode d n → n ≠ p → SameFile d d' n := fun n hn =>
      hins.sameFile h.sound hp hc hn.1.1
    have hset : {q : Nat × Nat | q.1 = p ∧ q.2 = r ∧ LandsLive d p name}
        = {q | q.1 = p ∧ q.2 ∈ {e | e = r ∧ wrap 8 name.length ≠ 0}} := by
      ext q
      simp only [LandsLive, hpdir, hland, true_and, and_true, Set.mem_ofPred_eq]
    rw [hset]
    cases hins with
    | @placed r i mem hplace hi hne hmake =>
      have hT := h.tiled p hpdir i hi hne
      have hcut := hslack hpdir r hplace
      rw [div_of_make hmake] at hcut
      have hinsert := hcut.insertion hT hmake
      have hnil : (storedBinding child fileType name).1 ≠ [] ↔ wrap 8 name.length ≠ 0 := by
        rw [← length_take_wrap name, ne_eq, ne_eq, List.length_eq_zero_iff]
        rfl
      have htakes := h.placed_slotTakes hpdir hi hne hinsert
      simp only [hnil] at htakes
      exact ⟨h.tiled.entriesAdded hpdir hdirs hother htakes,
        h.tiled.slotTaken hdirs hother htakes⟩
    | @newBlock i b hplace hfirst hb =>
      have hlen := hc.length_le hplace (card_pos_of_mem hb)
      have htakes : SlotTakes pad d (newEntry d p i b child name fileType) p i
          {e | e = getBlock b ∧ wrap 8 name.length ≠ 0} :=
        h.newBlock_slotTakes hpdir hplace hfirst hb hlen hland
      exact ⟨h.tiled.entriesAdded hpdir hdirs hother htakes,
        h.tiled.slotTaken hdirs hother htakes⟩
  · have hkept := hins.dirsKept h.sound hp hc hland
    have hsame := hkept.sameLive h.tiled (fun n hn => (hdirs n).mpr hn) fun n e hl => (hdirs n).mp hl.1
    have hT := hkept.dirsTiled h.tiled fun n hn => (hdirs n).mp hn
    exact ⟨hsame.entriesAdded hT.format fun q hq => hland ⟨hq.2.2.1, hq.2.2.2.2⟩, hT⟩

/-- **What an insertion does to the entries of all directories.** -/
theorem Inserted.entriesAdded {r : Nat} (h : ConsistentAs pad d) (hp : ValidInode d p)
    (hc : Contained d p name 0) (hslack : SlackAt d p name)
    (hins : Inserted d p child name fileType (.done (some r) d')) :
    EntriesAdded d d' {q | q.1 = p ∧ q.2 = r ∧ LandsLive d p name} :=
  (hins.directories h hp hc hslack).1

/-- What the entry says. -/
theorem Inserted.entry {r : Nat} (hins : Inserted d p child name fileType (.done (some r) d')) :
    entryInode d'.data r = child % 2 ^ 32 ∧ entryFileType d'.data r = fileType % 2 ^ 8 := by
  cases hins with
  | @placed r i mem hplace hi hne hmake =>
    obtain ⟨cur, -, -, rfl, -, rfl⟩ := makeEntryInExistingBlock_some hmake
    exact ⟨entryInode_fillEntry _ _ _ _ _ _ _, entryFileType_fillEntry _ _ _ _ _ _ _⟩
  | @newBlock i b hplace hfirst hb =>
    exact ⟨entryInode_fillEntry _ _ _ _ _ _ _, entryFileType_fillEntry _ _ _ _ _ _ _⟩

end

end Ext2
end OsAssignments
