import OsAssignments.Ext2.DirInode

/-!
# Where an entry made can be found

`make_entry_in_inode` returns an entry whenever it has written one.  It does not notice that
`set_inode_block_number` drops the number of a new block if the slot lies behind an indirect
block that does not exist.

* `HasRoomFor`, `AcceptsFor`, `BlockAvailable` — what decides which way an insertion goes.
* `DirInodeAs.lost` — the entry that is returned and cannot be found.
* `createdFound_iff` — in all other cases it is found, and no other name is affected.
-/

namespace OsAssignments
namespace Ext2

open ByteMemory MachineWord ExitState RecordTiling

section

variable {d : Disk} {n : Nat}

/-- A block of the directory has room for the name. -/
def HasRoomFor (d : Disk) (n : Nat) (name : CString) : Prop :=
  ∃ i, i < inodeBlockLimit ∧ getInodeBlockNumber d n i ≠ 0 ∧
    ∃ e ∈ blockEntries d.data (getBlock (getInodeBlockNumber d n i)), HasRoom d.data e name.length

/-- An entry of the directory takes the name. -/
def AcceptsFor (d : Disk) (n : Nat) (name : CString) : Prop :=
  ∃ i, i < inodeBlockLimit ∧ getInodeBlockNumber d n i ≠ 0 ∧
    ∃ e ∈ blockEntries d.data (getBlock (getInodeBlockNumber d n i)),
      Accepts d.data (getBlock (getInodeBlockNumber d n i)) e name.length

/-- The bytes of a name that an entry stores. -/
def storedName (name : CString) : CString := name.take (wrap 8 name.length)

theorem storedName_eq {name : CString} (hlen : name.length ≤ 255) : storedName name = name := by
  rw [storedName, wrap_length, Nat.mod_eq_of_lt (by omega), List.take_length]

theorem DirInodeAs.refused_iff {pad : Bool} (h : DirInodeAs pad d n) (child fileType : Nat)
    (name : CString) :
    (∀ i, i < inodeBlockLimit → Refused d n child name fileType i) ↔
      ¬ AcceptsFor d n (storedName name) := by
  simp only [AcceptsFor, storedName, length_take_wrap]
  constructor
  · rintro hall ⟨i, hi, hne, e, he, hacc⟩
    exact (h.tiled i hi hne).refuses_iff.mp ((hall i hi).resolve_left hne) e he hacc
  · intro hno i hi
    by_cases hne : getInodeBlockNumber d n i = 0
    · exact .inl hne
    · exact .inr ((h.tiled i hi hne).refuses_iff.mpr fun e he hacc => hno ⟨i, hi, hne, e, he, hacc⟩)

/-- Where the program pads the entries, only one with room takes another. -/
theorem DirInodeAs.acceptsFor_iff (h : DirInode d n) (name : CString) :
    AcceptsFor d n name ↔ HasRoomFor d n name := by
  refine exists_congr fun i => and_congr_right fun hi => and_congr_right fun hne => ?_
  refine exists_congr fun e => and_congr_right fun he => or_iff_left ?_
  rintro ⟨hfilled, -⟩
  have hfit := (h.tiled i hi hne).fits he
  exact hfit.minRecLen_le_iff.mp (hfit.padded rfl) hfilled

/-- Can the search of `allocate_blocks` for one block succeed? -/
def BlockAvailable (d : Disk) : Prop :=
  0 < d.superBlock.sFreeBlocksCount ∧
    ∃ b, lastReservedBlock < b ∧ b < mappedBlocks ∧ getBlockUsage d b = false

/-- The first empty slot, if no block has room, is one that can store a number. -/
theorem attachable_of_empty {i j : Nat} (hi : i < inodeBlockLimit)
    (hbefore : ∀ j, j < i → getInodeBlockNumber d n j ≠ 0)
    (h : (j < indirect1Index ∧ getInodeBlockNumber d n j = 0) ∨ indirectBlock d n ≠ 0) :
    Attachable d n i := by
  rcases h with ⟨hj, hzero⟩ | hind
  · refine .inl ?_
    by_contra hge
    exact hbefore j (by omega) hzero
  · exact .inr ⟨hi, hind⟩

/-- A name of at most 255 bytes at the start of a block stays in the mapping. -/
theorem getBlock_add_le_mappedBytes {b len : Nat} (hb : b < 128) (hlen : len ≤ 255) :
    getBlock b + 8 + len ≤ mappedBytes := by
  rw [mappedBytes, getBlock_eq, ext2BlockSize_eq, mappedBlocks]
  omega

/-- If no block has room, the first empty slot gets a new block. -/
theorem DirInodeAs.made_in_newBlock (h : DirInode d n) {name : CString} (hlen : name.length ≤ 255)
    (child fileType : Nat) (hroom : ¬ HasRoomFor d n name)
    (hslot : ∃ i, i < inodeBlockLimit ∧ getInodeBlockNumber d n i = 0)
    (havail : BlockAvailable d) :
    ∃ i b, (∀ j, j < i → getInodeBlockNumber d n j ≠ 0) ∧ getInodeBlockNumber d n i = 0 ∧
      (22 < b ∧ b < 128) ∧ getBlockUsage d b = false ∧
      makeEntryInInode n child name fileType d
        = .done (some (getBlock b)) (newEntry d n i b child name fileType) := by
  have hcases := makeEntryInInode_cases d n child name fileType
  rw [← h.acceptsFor_iff, ← storedName_eq hlen] at hroom
  have hrefused := (h.refused_iff child fileType name).mpr hroom
  obtain ⟨b, rest, hsearch⟩ := searchedFree_ne_nil havail.2
  obtain ⟨hb, husage⟩ := searchedFree_bounds hsearch
  generalize hrun : makeEntryInInode n child name fileType d = o at hcases
  cases hcases with
  | existing hi hne hmake =>
    rcases hrefused _ hi with hzero | hnone
    · exact absurd hzero hne
    · rw [hmake] at hnone
      cases hnone
  | occupied _ hslots =>
    obtain ⟨i, hi, hzero⟩ := hslot
    exact absurd hzero (hslots i hi)
  | @newBlock i _ hi _ hbefore hempty ho =>
    cases ho with
    | full hzero => exact absurd havail.1 (by omega)
    | crash _ hover =>
      have := hover b (by simp [hsearch])
      have := getBlock_add_le_mappedBytes hb.2 hlen
      omega
    | made _ hfree _ =>
      rw [hsearch] at hfree
      obtain ⟨rfl, -⟩ := List.cons.inj hfree
      exact ⟨i, b, hbefore, hempty, hb, husage, rfl⟩

/-- **An entry made and lost.**  If no block has room, every direct slot is in use and there
is no indirect block, then `make_entry_in_inode` still returns an entry, in a block that
belongs to nobody. -/
theorem DirInodeAs.lost (h : DirInode d n) {name : CString} (hlen : name.length ≤ 255)
    (child fileType : Nat) (hroom : ¬ HasRoomFor d n name)
    (hdirect : ∀ i, i < indirect1Index → getInodeBlockNumber d n i ≠ 0)
    (hind : indirectBlock d n = 0) (havail : BlockAvailable d) :
    ∃ entry d', makeEntryInInode n child name fileType d = .done (some entry) d' ∧
      ∀ other, resolve d' n other = resolve d n other := by
  have hslot : getInodeBlockNumber d n indirect1Index = 0 := by
    rw [getInodeBlockNumber_indirect d n (le_refl _) (by decide), if_pos hind]
  obtain ⟨i, b, -, hempty, hb, husage, hrun⟩ := h.made_in_newBlock hlen child fileType hroom
    ⟨indirect1Index, by decide, hslot⟩ havail
  have hatt : ¬ Attachable d n i := by
    rintro (hlt | ⟨-, hne⟩)
    · exact hdirect i hlt hempty
    · exact hne hind
  exact ⟨_, _, hrun, h.dropped (by omega) (by omega) husage hatt⟩

/-- **Where an entry made can be found.**  Whenever `make_entry_in_inode` returns an entry for
a new name, lookup finds that entry under the name and every other name resolves as before, if
and only if some block has room, or a direct slot is empty, or there is an indirect block, or
no block can be allocated. -/
theorem createdFound_iff (h : DirInode d n) (name : FileName) (child : UInt32)
    (fileType : UInt8) (hnew : resolve d n name.chars = none) :
    (∀ entry d', makeEntryInInode n child.toNat name.chars fileType.toNat d = .done (some entry) d' →
      CreatedFound d d' n entry (name.chars, child.toNat, fileType.toNat)) ↔
    HasRoomFor d n name.chars ∨ (∃ i, i < indirect1Index ∧ getInodeBlockNumber d n i = 0) ∨
      indirectBlock d n ≠ 0 ∨ ¬ BlockAvailable d := by
  have hlen := name.length_le
  constructor
  · intro hall
    by_contra hnot
    simp only [not_or, not_exists, not_and, not_not] at hnot
    obtain ⟨hroom, hdirect, hind, havail⟩ := hnot
    obtain ⟨entry, d', hrun, hsame⟩ :=
      h.lost hlen child.toNat fileType.toNat hroom hdirect hind havail
    have hfound := (hall entry d' hrun).found
    rw [hsame, hnew] at hfound
    cases hfound
  · intro hcond entry d' hrun
    have hcases := makeEntryInInode_cases d n child.toNat name.chars fileType.toNat
    have hstored := storedBinding_eq name child fileType
    rw [hrun] at hcases
    cases hcases with
    | existing hi hne hmake =>
      have hins := (h.tiled _ hi hne).insertion hmake
      rw [hstored] at hins
      exact h.existing hi hne hins hnew
    | @newBlock i _ hi hrefused hbefore hempty ho =>
      cases ho with
      | made hpos hfree _ =>
        obtain ⟨hb, husage⟩ := searchedFree_bounds hfree
        have hroom := (h.refused_iff _ _ _).mp hrefused
        rw [storedName_eq hlen, h.acceptsFor_iff] at hroom
        have havail : BlockAvailable d := ⟨hpos, _, hb.1, hb.2, husage⟩
        have hatt : Attachable d n i := by
          rcases hcond with hr | ⟨j, hj⟩ | hind | hno
          · exact absurd hr hroom
          · exact attachable_of_empty hi hbefore (.inl hj)
          · exact attachable_of_empty (j := 0) hi hbefore (.inr hind)
          · exact absurd havail hno
        have hdone : CreatedFound d (newEntry d n i _ child.toNat name.chars fileType.toNat) n _ _ :=
          h.attached hi hlen (by omega) (by omega) husage hempty hatt hnew
        rwa [Nat.mod_eq_of_lt child.toNat_lt, Nat.mod_eq_of_lt fileType.toNat_lt] at hdone

end

/-! ## A full directory -/

/-- A block whose four entries fill it: three names of 255 letters and one of 220. -/
def fullBlockByte (offset : Nat) : UInt8 :=
  match offset % 264 with
  | 0 => 12
  | 1 | 2 | 3 => 0
  | 4 => if offset < 792 then 8 else 232
  | 5 => if offset < 792 then 1 else 0
  | 6 => if offset < 792 then 255 else 220
  | 7 => 1
  | _ => UInt8.ofNat (97 + offset / 264)

/-- An image on which inode 2 has `count` blocks from block 23 on, all full, and no indirect
block.  No other inode has a block, and the blocks from 35 on are free. -/
def fullDirectory (count : Nat) : Disk where
  superBlock := ⟨32, 128, 93, 21⟩
  groupDesc := ⟨3, 4, 5, 93, 21, 1⟩
  blockBitmap := fun i => if i < 4 then 0xFF#8 else if i = 4 then 0x03#8 else 0#8
  inodeBitmap := fun i => if i = 0 then 0xFF#8 else if i = 1 then 0x07#8 else 0#8
  inodeTable := fun n => ⟨0x4000, count * 1024, 0, 0, 2, count * 2,
    fun i => if n = 2 ∧ i < count then 23 + i else 0⟩
  data := fun a => fullBlockByte (a % ext2BlockSize)

/-- A name that is not in the directory. -/
def newFileName : FileName := ⟨[122], by decide, by decide, by decide⟩

section

variable {count : Nat}

theorem fullDirectory_slot {i : Nat} (hi : i < indirect1Index) :
    getInodeBlockNumber (fullDirectory count) 2 i = if i < count then 23 + i else 0 := by
  rw [getInodeBlockNumber_direct _ _ hi]
  simp [fullDirectory]

theorem fullDirectory_indirectBlock (hcount : count ≤ indirect1Index) :
    indirectBlock (fullDirectory count) 2 = 0 :=
  if_neg fun h => absurd h.2 (Nat.not_lt.mpr hcount)

theorem fullDirectory_usage (b : Nat) :
    getBlockUsage (fullDirectory count) b = getBlockUsage (fullDirectory 0) b := by
  simp only [getBlockUsage, fullDirectory]

/-- The blocks in use of the directory are the `count` blocks from block 23 on. -/
theorem fullDirectory_slot_ne (hcount : count ≤ indirect1Index) {i : Nat}
    (h : getInodeBlockNumber (fullDirectory count) 2 i ≠ 0) :
    i < count ∧ getInodeBlockNumber (fullDirectory count) 2 i = 23 + i := by
  have hi : i < indirect1Index := by
    by_contra hge
    refine h ?_
    by_cases hlim : i < inodeBlockLimit
    · rw [getInodeBlockNumber_indirect _ _ (by omega) hlim,
        if_pos (fullDirectory_indirectBlock hcount)]
    · exact getInodeBlockNumber_past _ _ (by omega)
  rw [fullDirectory_slot hi] at h ⊢
  have hlt : i < count := by
    by_contra hge
    exact h (if_neg hge)
  exact ⟨hlt, if_pos hlt⟩

/-- Every block of the image repeats the pattern. -/
theorem readLE_fullDirectory (b len : Nat) {offset : Nat} (h : offset + len ≤ 1024) :
    readLE (fullDirectory count).data len (getBlock b + offset) = readLE fullBlockByte len offset := by
  induction len generalizing offset with
  | zero => rfl
  | succ len ih =>
    have hbyte : (fullDirectory count).data (getBlock b + offset) = fullBlockByte offset := by
      change fullBlockByte ((1024 * b + offset) % 1024) = _
      rw [Nat.mul_add_mod, Nat.mod_eq_of_lt (by omega)]
    rw [readLE, readLE, hbyte, Nat.add_assoc, ih (by omega)]

theorem fullDirectory_entry (b recLen : Nat) {k : Nat} (hk : k ≤ 1016)
    (hrec : readLE fullBlockByte 2 (k + 4) = recLen)
    (hname : paddedLen (readLE fullBlockByte 1 (k + 6)) = recLen) (hal : 4 ∣ recLen) :
    entryRecLen (fullDirectory count).data (getBlock b + k) = recLen ∧
      minRecLen (fullDirectory count).data (getBlock b + k) = recLen ∧
      EntryFits true (fullDirectory count).data (getBlock b + k) := by
  have hlen : entryRecLen (fullDirectory count).data (getBlock b + k) = recLen := by
    rw [entryRecLen, Nat.add_assoc, readLE_fullDirectory b 2 (by omega), hrec]
  have hmin : minRecLen (fullDirectory count).data (getBlock b + k) = recLen := by
    rw [minRecLen_eq, entryNameLen, Nat.add_assoc, readLE_fullDirectory b 1 (by omega)]
    exact hname
  exact ⟨hlen, hmin, .of_minRecLen_le (by rwa [hlen]) (by rw [hlen, hmin]) true⟩

/-- The four entries of a block fill it. -/
theorem fullDirectory_block (count b : Nat) :
    TiledBy true (fullDirectory count).data (getBlock b)
      [getBlock b, getBlock b + 264, getBlock b + 528, getBlock b + 792] ∧
    ∀ e ∈ [getBlock b, getBlock b + 264, getBlock b + 528, getBlock b + 792],
      entryRecLen (fullDirectory count).data e = minRecLen (fullDirectory count).data e ∧
        232 ≤ minRecLen (fullDirectory count).data e := by
  obtain ⟨hlen₀, hmin₀, hfit₀⟩ : entryRecLen (fullDirectory count).data (getBlock b) = 264 ∧
      minRecLen (fullDirectory count).data (getBlock b) = 264 ∧
      EntryFits true (fullDirectory count).data (getBlock b) :=
    fullDirectory_entry b 264 (k := 0) (Nat.zero_le _) (by decide) (by decide) (by decide)
  obtain ⟨hlen₁, hmin₁, hfit₁⟩ : entryRecLen (fullDirectory count).data (getBlock b + 264) = 264 ∧ _ ∧ _ :=
    fullDirectory_entry b 264 (by omega) (by decide) (by decide) (by decide)
  obtain ⟨hlen₂, hmin₂, hfit₂⟩ : entryRecLen (fullDirectory count).data (getBlock b + 528) = 264 ∧ _ ∧ _ :=
    fullDirectory_entry b 264 (by omega) (by decide) (by decide) (by decide)
  obtain ⟨hlen₃, hmin₃, hfit₃⟩ : entryRecLen (fullDirectory count).data (getBlock b + 792) = 232 ∧ _ ∧ _ :=
    fullDirectory_entry b 232 (by omega) (by decide) (by decide) (by decide)
  refine ⟨⟨rfl, by omega, hfit₀, by rw [hlen₀], by omega, hfit₁, by rw [hlen₀, hlen₁], by omega,
    hfit₂, by rw [hlen₀, hlen₁, hlen₂], by omega, hfit₃, ?_⟩, ?_⟩
  · rw [tiles_nil, hlen₀, hlen₁, hlen₂, hlen₃, ext2BlockSize_eq]
  · simp [hlen₀, hmin₀, hlen₁, hmin₁, hlen₂, hmin₂, hlen₃, hmin₃]

theorem fullDirectory_dirInode (hcount : count ≤ indirect1Index) :
    DirInode (fullDirectory count) 2 := by
  refine ⟨fun i _ _ => (fullDirectory_block count _).1.tiled, fun i _ hne => ?_, fun hne => ?_,
    fun i j _ _ hne heq => ?_, fun i _ hne heq => ?_⟩
  · obtain ⟨hi, hslot⟩ := fullDirectory_slot_ne hcount hne
    have hall : ∀ k < 12, getBlockUsage (fullDirectory 0) (23 + k) = true := by decide
    rw [hslot, fullDirectory_usage]
    exact hall i (lt_of_lt_of_le hi hcount)
  · exact absurd (fullDirectory_indirectBlock hcount) hne
  · obtain ⟨hi, hslot⟩ := fullDirectory_slot_ne hcount hne
    rw [heq] at hne
    have := (fullDirectory_slot_ne hcount hne).2
    omega
  · exact hne (heq.trans (fullDirectory_indirectBlock hcount))

theorem fullDirectory_no_room (name : CString) : ¬ HasRoomFor (fullDirectory count) 2 name := by
  rintro ⟨i, -, -, e, he, hroom⟩
  obtain ⟨htiled, hfull⟩ :=
    fullDirectory_block count (getInodeBlockNumber (fullDirectory count) 2 i)
  rw [htiled.blockEntries_eq] at he
  have hlen := (hfull e he).1
  rw [HasRoom, hlen, minRecLen_eq, paddedLen, paddedLen] at hroom
  omega

theorem fullDirectory_blockAvailable : BlockAvailable (fullDirectory count) :=
  ⟨(by decide : 0 < 93), 35, by decide, by decide, (fullDirectory_usage 35).trans (by decide)⟩

/-- No name of the directory has length 1. -/
theorem fullDirectory_unknown : resolve (fullDirectory count) 2 newFileName.chars = none := by
  rw [resolve_eq_none]
  intro i _
  rw [slotResolve]
  split
  · rfl
  · rw [blockResolve, (fullDirectory_block count _).1.blockEntries_eq, Option.map_eq_none_iff,
      List.find?_eq_none]
    intro e he heq
    have hlong := ((fullDirectory_block count _).2 e he).2
    rw [decide_eq_true_eq] at heq
    rw [minRecLen_eq, ← length_entryName, heq] at hlong
    exact absurd hlong (by decide)

end

/-- The file `z` made in the directory with eleven full blocks gets a twelfth block, and is found
there. -/
theorem createdFound_example :
    resolve (fullDirectory 11) 2 (List.replicate 255 97) ≠ none ∧
    ∃ entry d', makeEntryInInode 2 12 newFileName.chars 1 (fullDirectory 11) = .done (some entry) d' ∧
      CreatedFound (fullDirectory 11) d' 2 entry (newFileName.chars, 12, 1) := by
  have hdir : DirInode (fullDirectory 11) 2 := fullDirectory_dirInode (by decide)
  have hempty : getInodeBlockNumber (fullDirectory 11) 2 11 = 0 :=
    (fullDirectory_slot (by decide)).trans (if_neg (by decide))
  obtain ⟨i, b, -, -, -, -, hrun⟩ := hdir.made_in_newBlock newFileName.length_le 12 1
    (fullDirectory_no_room _) ⟨11, by decide, hempty⟩ fullDirectory_blockAvailable
  have hfound := (createdFound_iff hdir newFileName 12 1 fullDirectory_unknown).mpr
    (.inr (.inl ⟨11, by decide, hempty⟩))
  exact ⟨by decide +kernel, _, _, hrun, hfound _ _ hrun⟩

/-- **A created entry can be lost.**  The file `z` made in the full directory is in no block
of it. -/
theorem fullDirectory_not_createdFound :
    DirInode (fullDirectory 12) 2 ∧ resolve (fullDirectory 12) 2 newFileName.chars = none ∧
      ∃ entry d', makeEntryInInode 2 12 newFileName.chars 1 (fullDirectory 12)
          = .done (some entry) d' ∧
        ¬ CreatedFound (fullDirectory 12) d' 2 entry (newFileName.chars, 12, 1) := by
  have hdir : DirInode (fullDirectory 12) 2 := fullDirectory_dirInode (by decide)
  obtain ⟨entry, d', hrun, hsame⟩ := hdir.lost newFileName.length_le 12 1
    (fullDirectory_no_room _)
    (fun i hi => by rw [fullDirectory_slot hi, if_pos (show i < 12 from hi)]; omega)
    (fullDirectory_indirectBlock (le_refl _)) fullDirectory_blockAvailable
  refine ⟨hdir, fullDirectory_unknown, entry, d', hrun, fun h => ?_⟩
  have hfound := h.found
  rw [hsame, fullDirectory_unknown] at hfound
  cases hfound

end Ext2
end OsAssignments
