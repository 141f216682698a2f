import OsAssignments.Ext2.AllocationRun
import OsAssignments.Ext2.Consistent

/-!
# Insertions on sound images

What `make_entry_in_inode` does on a sound image, to any inode.

* `entryPlace` — where the first loop puts a name; it does not depend on the child.
* `Sound.makeEntryInInode_cases` — the entry goes to that place, or into a new block at the
  first empty slot.  An inode of a sound image always has an empty slot.
* `Contained` — the bytes of the entry stay in the block they are meant for.  Then
  `insert_footprint` says what an insertion leaves alone.
* `ConsistentAs.contained` — in a directory they do, but for names of more than 1016 bytes.
-/

namespace OsAssignments
namespace Ext2

open ByteMemory MachineWord ExitState Ownership

/-! ## The place of an entry -/

/-- Where the first loop of `make_entry_in_inode` puts a name, if a block takes it. -/
def entryPlace (d : Disk) (inode : Nat) (name : CString) : Option Nat :=
  (makeEntryInBlocks d inode 0 name 0 (List.range inodeBlockLimit)).1

/-- Whether and where a block takes a name does not depend on the child. -/
theorem makeEntryInExistingBlock_fst (mem : Memory) (start child fileType child' fileType' : Nat)
    (name : CString) : (makeEntryInExistingBlock mem start child name fileType).1
      = (makeEntryInExistingBlock mem start child' name fileType').1 := by
  rw [makeEntryInExistingBlock, makeEntryInExistingBlock]
  split
  · rfl
  · dsimp only
    split
    · rfl
    · rfl

theorem refused_congr {d : Disk} {inode child fileType child' fileType' i : Nat} {name : CString} :
    Refused d inode child name fileType i ↔ Refused d inode child' name fileType' i := by
  rw [Refused, Refused, makeEntryInExistingBlock_fst _ _ child fileType child' fileType']

theorem makeEntryInBlocks_fst (d : Disk) (inode child fileType child' fileType' : Nat)
    (name : CString) (slots : List Nat) : (makeEntryInBlocks d inode child name fileType slots).1
      = (makeEntryInBlocks d inode child' name fileType' slots).1 := by
  induction slots with
  | nil => rfl
  | cons i slots ih =>
    by_cases href : Refused d inode child name fileType i
    · rw [makeEntryInBlocks_skip href, makeEntryInBlocks_skip (refused_congr.mp href), ih]
    · have hfst := makeEntryInExistingBlock_fst d.data (getBlock (getInodeBlockNumber d inode i))
        child fileType child' fileType' name
      rw [Refused, not_or] at href
      rw [makeEntryInBlocks, makeEntryInBlocks, if_neg href.1, if_neg href.1]
      split
      · rename_i entry mem hmake
        rw [hmake] at hfst
        split
        · rename_i hmake'
          rw [hmake'] at hfst
          exact hfst
        · rename_i hmake'
          rw [hmake'] at hfst
          cases hfst
      · rename_i hmake
        rw [hmake] at href
        exact absurd rfl href.2

section Place

variable {d : Disk} {p : Nat} {name : CString}

theorem entryPlace_eq (child fileType : Nat) : entryPlace d p name
    = (makeEntryInBlocks d p child name fileType (List.range inodeBlockLimit)).1 :=
  makeEntryInBlocks_fst d p 0 0 child fileType name _

/-- A place found is one in a block of the inode, and the entry goes there. -/
theorem makeEntryInInode_of_place {r : Nat} (h : entryPlace d p name = some r)
    (child fileType : Nat) : ∃ i mem, i < inodeBlockLimit ∧ getInodeBlockNumber d p i ≠ 0 ∧
      makeEntryInExistingBlock d.data (getBlock (getInodeBlockNumber d p i)) child name fileType
        = (some r, mem) ∧
      makeEntryInInode p child name fileType d = .done (some r) (d.withData mem) := by
  rw [entryPlace_eq child fileType] at h
  rcases makeEntryInBlocks_cases d p child name fileType (List.range inodeBlockLimit) with
    ⟨l₁, i, l₂, entry, mem, hsplit, hne, -, hmake, hres⟩ | ⟨-, hres⟩
  · rw [hres] at h
    obtain rfl : entry = r := Option.some.inj h
    refine ⟨i, mem, (range_eq_append hsplit).1, hne, hmake, ?_⟩
    rw [makeEntryInInode, Command.bind_of_done (Command.get_apply d), hres]
    rfl
  · rw [hres] at h
    cases h

/-- Without a place every block refuses the name. -/
theorem refused_of_no_place (h : entryPlace d p name = none) (child fileType : Nat) :
    ∀ i, i < inodeBlockLimit → Refused d p child name fileType i := by
  rw [entryPlace_eq child fileType] at h
  rcases makeEntryInBlocks_cases d p child name fileType (List.range inodeBlockLimit) with
    ⟨l₁, i, l₂, entry, mem, -, -, -, -, hres⟩ | ⟨hall, -⟩
  · rw [hres] at h
    cases h
  · exact fun i hi => hall i (List.mem_range.mpr hi)

end Place

/-! ## What the place depends on -/

/-- The answer of `make_entry_in_existing_block` from entry `cur` on. -/
def placeFrom (mem : Memory) (start nameLen fuel cur : Nat) : Option Nat :=
  ((entriesFrom mem start fuel cur).find? fun e =>
    decide (spaceLeft mem e ≥ totalEntryLength nameLen)).bind fun e =>
      if isEntryInBlock start (e + minRecLen mem e) then some (e + minRecLen mem e) else none

theorem makeEntryInExistingBlock_place (mem : Memory) (start child fileType : Nat) (name : CString) :
    (makeEntryInExistingBlock mem start child name fileType).1
      = placeFrom mem start (wrap 8 name.length) ext2BlockSize start := by
  rw [makeEntryInExistingBlock, placeFrom, blockEntries]
  split
  · rename_i hnone
    rw [hnone]
    rfl
  · rename_i cur hfind
    rw [hfind]
    dsimp only [Option.bind_some, getShiftedDirEntry]
    split
    · rfl
    · rfl

theorem minRecLen_ge (mem : Memory) (e : Nat) : 12 ≤ minRecLen mem e := by
  rw [minRecLen_eq]
  omega

/-- No place is found behind an entry that starts in the last 12 bytes. -/
theorem placeFrom_late {mem : Memory} {start cur : Nat} (nameLen fuel : Nat)
    (hcur : start + 1012 ≤ cur) : placeFrom mem start nameLen fuel cur = none := by
  have hall : ∀ fuel cur, start + 1012 ≤ cur → ∀ e ∈ entriesFrom mem start fuel cur,
      start + 1012 ≤ e := by
    intro fuel
    induction fuel with
    | zero => exact fun _ _ _ h => nomatch h
    | succ fuel ih =>
      intro cur hcur e he
      rw [entriesFrom] at he
      split at he
      · rcases List.mem_cons.mp he with rfl | he
        · exact hcur
        · refine ih _ ?_ e he
          rw [getNextDirEntry, getShiftedDirEntry]
          omega
      · cases he
  rw [placeFrom]
  cases hfind : (entriesFrom mem start fuel cur).find? fun e =>
      decide (spaceLeft mem e ≥ totalEntryLength nameLen) with
  | none => rfl
  | some e =>
    have hlate := hall fuel cur hcur e (List.mem_of_find?_eq_some hfind)
    have hmin := minRecLen_ge mem e
    rw [Option.bind_some, if_neg]
    rw [isEntryInBlock, decide_eq_true_iff, ext2BlockSize_eq]
    omega

/-- The place depends on the bytes of the block only. -/
theorem placeFrom_congr {mem mem' : Memory} {start : Nat}
    (hag : AgreeOn mem mem' start ext2BlockSize) (nameLen fuel : Nat) {cur : Nat}
    (hcur : start ≤ cur) : placeFrom mem' start nameLen fuel cur
      = placeFrom mem start nameLen fuel cur := by
  induction fuel generalizing cur with
  | zero => rfl
  | succ fuel ih =>
    by_cases hlate : start + 1012 ≤ cur
    · rw [placeFrom_late nameLen _ hlate, placeFrom_late nameLen _ hlate]
    · -- the fields of this entry lie in the block
      have hrec : entryRecLen mem' cur = entryRecLen mem cur :=
        (hag.mono (by omega) (by rw [ext2BlockSize_eq]; omega)).readLE
      have hname : entryNameLen mem' cur = entryNameLen mem cur :=
        (hag.mono (by omega) (by rw [ext2BlockSize_eq]; omega)).readLE
      have hmin : minRecLen mem' cur = minRecLen mem cur := by rw [minRecLen, hname, minRecLen]
      have hspace : spaceLeft mem' cur = spaceLeft mem cur := by
        rw [spaceLeft, hrec, hmin, spaceLeft]
      have hnext : getNextDirEntry mem' cur = getNextDirEntry mem cur := by
        rw [getNextDirEntry, hrec, getNextDirEntry]
      have hvalid : isValidDirEntry mem' start cur = isValidDirEntry mem start cur := by
        rw [isValidDirEntry, hrec, isValidDirEntry]
      have hrest : placeFrom mem' start nameLen fuel (getNextDirEntry mem cur)
          = placeFrom mem start nameLen fuel (getNextDirEntry mem cur) := by
        refine ih ?_
        rw [getNextDirEntry, getShiftedDirEntry]
        omega
      simp only [placeFrom] at hrest ⊢
      rw [entriesFrom, entriesFrom, hvalid, hnext]
      split
      · rw [List.find?_cons, List.find?_cons, hspace]
        split
        · rw [Option.bind_some, Option.bind_some, hmin]
        · exact hrest
      · rfl

/-- **The place depends on the blocks of the inode only**, whatever is in them. -/
theorem entryPlace_congr {d d' : Disk} {p : Nat} {name : CString} (h : SameFile d d' p) :
    entryPlace d' p name = entryPlace d p name := by
  have hall : ∀ l : List Nat, (makeEntryInBlocks d' p 0 name 0 l).1
      = (makeEntryInBlocks d p 0 name 0 l).1 := by
    intro l
    induction l with
    | nil => rfl
    | cons i l ih =>
      by_cases hzero : getInodeBlockNumber d p i = 0
      · rw [makeEntryInBlocks_skip (.inl hzero),
          makeEntryInBlocks_skip (.inl ((h.slots i).trans hzero)), ih]
      · have hplace : (makeEntryInExistingBlock d'.data (getBlock (getInodeBlockNumber d' p i)) 0 name
            0).1 = (makeEntryInExistingBlock d.data (getBlock (getInodeBlockNumber d p i)) 0 name
              0).1 := by
          rw [h.slots, makeEntryInExistingBlock_place, makeEntryInExistingBlock_place]
          exact placeFrom_congr (h.bytes i hzero) _ _ (le_refl _)
        by_cases href : Refused d p 0 name 0 i
        · have href' : Refused d' p 0 name 0 i := by
            refine .inr ?_
            rw [hplace]
            exact href.resolve_left hzero
          rw [makeEntryInBlocks_skip href, makeEntryInBlocks_skip href', ih]
        · rw [Refused, not_or] at href
          rw [makeEntryInBlocks, makeEntryInBlocks, if_neg hzero, if_neg (by rwa [h.slots])]
          split
          · rename_i hmake'
            rw [hmake'] at hplace
            split
            · rename_i hmake
              rw [hmake] at hplace
              exact hplace
            · rename_i hmake
              rw [hmake] at hplace
              cases hplace
          · rename_i hmake'
            rw [hmake'] at hplace
            exact absurd hplace.symm href.2
  exact hall _

/-! ## Sound images -/

/-- The first slot without a block. -/
structure FirstEmpty (d : Disk) (n i : Nat) : Prop where
  lt : i < inodeBlockLimit
  empty : getInodeBlockNumber d n i = 0
  before : ∀ j, j < i → getInodeBlockNumber d n j ≠ 0

section

variable {d : Disk} {p : Nat}

/-- An inode cannot name 268 of the 128 blocks. -/
theorem Sound.exists_empty_slot (h : Sound d) (hp : ValidInode d p) :
    ∃ i, i < inodeBlockLimit ∧ getInodeBlockNumber d p i = 0 := by
  by_contra hnot
  push Not at hnot
  have hmaps : ∀ i ∈ Finset.range inodeBlockLimit,
      getInodeBlockNumber d p i ∈ Finset.range mappedBlocks := by
    intro i hi
    have hi := Finset.mem_range.mp hi
    have hlt := (h.stored_inUse (r := .slot p i) ⟨hp, hi⟩ (hnot i hi)).lt
    exact Finset.mem_range.mpr (hlt.trans_le h.mapped)
  have hcard : (Finset.range mappedBlocks).card < (Finset.range inodeBlockLimit).card := by
    rw [Finset.card_range, Finset.card_range]
    decide
  obtain ⟨i, hi, j, hj, hij, heq⟩ := Finset.exists_ne_map_eq_of_card_lt_of_maps_to hcard hmaps
  have hi := Finset.mem_range.mp hi
  have hrefs := h.refs.inj (.slot p i) (.slot p j) ⟨hp, hi⟩ ⟨hp, Finset.mem_range.mp hj⟩ (hnot i hi)
    heq
  injection hrefs
  exact hij ‹_›

/-- Bytes written into a block that is no indirect block change no stored number. -/
theorem stored_withData {b : Nat} {mem : Memory}
    (hind : ∀ m, ValidInode d m → indirectBlock d m ≠ 0 → indirectBlock d m ≠ b)
    (hmem : ∀ c, c ≠ b → AgreeOn d.data mem (getBlock c) ext2BlockSize) {r : Ref}
    (hr : ValidRef d r) : stored (d.withData mem) r = stored d r := by
  have hfoot : Footprint d (d.withData mem) ∅ {b} := withData_footprint d hmem
  refine hfoot.stored_eq (Set.notMem_empty _) fun hne => hind _ ?_ hne
  cases r with
  | slot n i => exact hr.1
  | indirect n => exact hr

theorem Sound.writtenData (h : Sound d) {b : Nat} {mem : Memory}
    (hind : ∀ m, ValidInode d m → indirectBlock d m ≠ 0 → indirectBlock d m ≠ b)
    (hmem : ∀ c, c ≠ b → AgreeOn d.data mem (getBlock c) ext2BlockSize) :
    Sound (d.withData mem) :=
  h.of_same ⟨rfl, rfl, rfl, rfl, rfl, rfl, rfl⟩ fun _ hr => stored_withData hind hmem hr

/-- The block of a slot is no indirect block. -/
theorem Sound.slot_ne_indirect (h : Sound d) {n i m : Nat} (hn : ValidInode d n)
    (hi : i < inodeBlockLimit) (hm : ValidInode d m) (hne : indirectBlock d m ≠ 0) :
    indirectBlock d m ≠ getInodeBlockNumber d n i := by
  intro heq
  have := h.refs.inj (.indirect m) (.slot n i) hm ⟨hn, hi⟩ hne heq
  cases this

/-- The block that the search finds is a free one. -/
theorem Counted.mem_freeBlocks_of_search (h : Counted d) {b : Nat} {rest : List Nat}
    (hpos : 0 < d.superBlock.sFreeBlocksCount) (hsearch : searchedFree d = b :: rest) :
    b ∈ freeBlocks d := by
  rcases Ext2.allocateOneBlock_cases d with ⟨hzero, -⟩ | ⟨-, hnil, -⟩ | ⟨c, rest', -, hsearch', hone⟩
  · omega
  · rw [hsearch] at hnil
    cases hnil
  · obtain ⟨rfl, -⟩ := List.cons.inj (hsearch.symm.trans hsearch')
    rcases h.allocateOneBlock_cases with ⟨-, hexit⟩ | ⟨c, hc, hdone⟩
    · rw [hone] at hexit
      cases hexit
    · rw [hone] at hdone
      injection hdone with hbc
      exact hbc ▸ hc

/-- **An insertion on a sound image.**  A block takes the entry, or the first empty slot gets
a new block. -/
inductive Inserted (d : Disk) (p child : Nat) (name : CString) (fileType : Nat) :
    Outcome Disk (Option Nat) → Prop
  | placed {r i : Nat} {mem : Memory} : entryPlace d p name = some r → i < inodeBlockLimit →
      getInodeBlockNumber d p i ≠ 0 →
      makeEntryInExistingBlock d.data (getBlock (getInodeBlockNumber d p i)) child name fileType
        = (some r, mem) →
      Inserted d p child name fileType (.done (some r) (d.withData mem))
  | full : entryPlace d p name = none → freeBlocks d = ∅ →
      Inserted d p child name fileType (.exit 1 d)
  | overrun : entryPlace d p name = none → (freeBlocks d).Nonempty → 1016 < name.length →
      Inserted d p child name fileType .crash
  | newBlock {i b : Nat} : entryPlace d p name = none → FirstEmpty d p i → b ∈ freeBlocks d →
      Inserted d p child name fileType
        (.done (some (getBlock b)) (newEntry d p i b child name fileType))

theorem Sound.makeEntryInInode_cases (h : Sound d) (hp : ValidInode d p) (child : Nat)
    (name : CString) (fileType : Nat) :
    Inserted d p child name fileType (makeEntryInInode p child name fileType d) := by
  cases hplace : entryPlace d p name with
  | some r =>
    obtain ⟨i, mem, hi, hne, hmake, hrun⟩ := makeEntryInInode_of_place hplace child fileType
    rw [hrun]
    exact .placed hplace hi hne hmake
  | none =>
    have hrefused := refused_of_no_place hplace child fileType
    have hcount := h.sFreeBlocks
    have hcases := Ext2.makeEntryInInode_cases d p child name fileType
    generalize makeEntryInInode p child name fileType d = o at hcases
    cases hcases with
    | existing hi hne hmake =>
      rcases hrefused _ hi with hzero | hnone
      · exact absurd hzero hne
      · rw [hmake] at hnone
        cases hnone
    | occupied _ hslots =>
      obtain ⟨i, hi, hempty⟩ := h.exists_empty_slot hp
      exact absurd hempty (hslots i hi)
    | newBlock hi _ hbefore hempty ho =>
      cases ho with
      | full hzero => exact .full hplace (Finset.card_eq_zero.mp (by omega))
      | crash hpos hover =>
        have hne : (freeBlocks d).Nonempty := Finset.card_pos.mp (by omega)
        refine .overrun hplace hne ?_
        obtain ⟨b, hb⟩ := hne
        obtain ⟨hres, hlt, -, -⟩ := h.toCounted.free_bounds hb
        have hmapped := h.mapped
        obtain ⟨c, rest, hsearch⟩ := searchedFree_ne_nil ⟨b, hres, by omega, (mem_freeBlocks.mp hb).2⟩
        have hover := hover c (by simp [hsearch])
        have hc := (searchedFree_bounds hsearch).1
        rw [mappedBytes, getBlock_eq, ext2BlockSize_eq, mappedBlocks] at hover
        omega
      | made hpos hsearch _ =>
        exact .newBlock hplace ⟨hi, hempty, hbefore⟩
          (h.toCounted.mem_freeBlocks_of_search hpos hsearch)

/-! ## Entries that stay in their block -/

/-- The entry made for `name` stays in the block it is meant for.  The command takes `used`
blocks before. -/
def Contained (d : Disk) (p : Nat) (name : CString) (used : Nat) : Prop :=
  match entryPlace d p name with
  | some r => r % ext2BlockSize + 8 + wrap 8 name.length ≤ ext2BlockSize
  | none => name.length ≤ 1016 ∨ (freeBlocks d).card ≤ used

theorem isEntryInBlock_of_mem {mem : Memory} {start e : Nat} (he : e ∈ blockEntries mem start) :
    start ≤ e ∧ e < start + ext2BlockSize := by
  have hall : ∀ fuel cur, e ∈ entriesFrom mem start fuel cur → isEntryInBlock start e = true := by
    intro fuel
    induction fuel with
    | zero => exact fun _ h => nomatch h
    | succ fuel ih =>
      intro cur hmem
      rw [entriesFrom] at hmem
      split at hmem
      · rename_i hvalid
        rcases List.mem_cons.mp hmem with rfl | hmem
        · rw [isValidDirEntry, Bool.and_eq_true] at hvalid
          exact hvalid.1
        · exact ih _ hmem
      · cases hmem
  simpa [isEntryInBlock] using hall _ _ he

theorem withData_layout (d : Disk) (mem : Memory) : (d.withData mem).layout = d.layout := rfl

/-- An insertion into an existing block returns an entry of the block, and writes between the
entry it cuts and the end of the new name. -/
theorem makeEntryInExistingBlock_frame {mem mem' : Memory} {start child fileType r : Nat}
    {name : CString} (h : makeEntryInExistingBlock mem start child name fileType = (some r, mem')) :
    start ≤ r ∧ r < start + ext2BlockSize ∧ ∀ a len, a + len ≤ start ∨
      r + 8 + wrap 8 name.length ≤ a → AgreeOn mem mem' a len := by
  obtain ⟨cur, hcut, -, rfl, hin, rfl⟩ := makeEntryInExistingBlock_some h
  obtain ⟨hlo, -⟩ := isEntryInBlock_of_mem (mem_of_cutEntry hcut)
  have hmin : 12 ≤ minRecLen mem cur := by
    rw [minRecLen_eq]
    omega
  have hlen := length_take_wrap name
  rw [isEntryInBlock, decide_eq_true_iff] at hin
  refine ⟨hin.1, hin.2, fun a len hout => ?_⟩
  exact (writeLE_of_disjoint 2 _ _ _ (by omega)).trans (fillEntry_agreeOn _ _ _ _ _ _ _ (by omega))

/-- What an insertion leaves alone. -/
theorem placed_footprint {d : Disk} {c r child fileType : Nat} {name : CString} {mem : Memory}
    (h : makeEntryInExistingBlock d.data (getBlock c) child name fileType = (some r, mem))
    (hcont : r % ext2BlockSize + 8 + wrap 8 name.length ≤ ext2BlockSize) :
    Footprint d (d.withData mem) ∅ {c} := by
  obtain ⟨hlo, hhi, hframe⟩ := makeEntryInExistingBlock_frame h
  refine withData_footprint d fun e he => hframe _ _ ?_
  have hdisj : getBlock e + ext2BlockSize ≤ getBlock c ∨ getBlock c + ext2BlockSize ≤ getBlock e :=
    block_disjoint he
  simp only [getBlock_eq, ext2BlockSize_eq] at *
  omega

theorem attachBlock_footprint (d : Disk) (p i b : Nat) :
    Footprint d (attachBlock d p i b) {p} ({b} ∪ indirectOf d p) := by
  have hout : Footprint d (handOut d [b]) {p} ({b} ∪ indirectOf d p) :=
    handOut_footprint.mono (Set.empty_subset _) (by simp)
  have hset : Footprint (handOut d [b]) (setInodeBlockNumber (handOut d [b]) p i b) {p}
      ({b} ∪ indirectOf d p) := by
    refine (setInodeBlockNumber_slotsOnly (handOut d [b]) p i b []).footprint.mono (le_refl _) ?_
    rintro c (hc | hc)
    · cases hc
    · exact .inr ⟨hc.1, hc.2.trans (handOut_footprint.indirect p)⟩
  have hcount : Footprint (setInodeBlockNumber (handOut d [b]) p i b) (attachBlock d p i b) {p}
      ({b} ∪ indirectOf d p) :=
    (modifyInode_footprint _ p (fun k => { k with iBlocks := wrap 32 (k.iBlocks + 2 : Nat) })
      fun _ => rfl).mono (le_refl _) (Set.empty_subset _)
  exact (hout.trans hset).trans hcount

theorem newEntry_footprint {d : Disk} {p i b child fileType : Nat} {name : CString}
    (hlen : name.length ≤ 1016) :
    Footprint d (newEntry d p i b child name fileType) {p} ({b} ∪ indirectOf d p) := by
  have hfill : Footprint (attachBlock d p i b) (newEntry d p i b child name fileType) ∅ {b} :=
    withData_footprint _ fun c hc => makeFirstEntry_agreeOn _ _ _ (fun heq => hc heq.symm) hlen
  exact (attachBlock_footprint d p i b).trans (hfill.mono (Set.empty_subset _) (by simp))

/-- In a directory an entry stays in its block, if the name fits into a new one. -/
theorem ConsistentAs.contained (h : Consistent d) (hp : IsDirInode d p) {name : CString} {used : Nat}
    (hlen : entryPlace d p name = none → name.length ≤ 1016 ∨ (freeBlocks d).card ≤ used) :
    Contained d p name used := by
  rw [Contained]
  cases hplace : entryPlace d p name with
  | none => exact hlen hplace
  | some r =>
    obtain ⟨i, mem, hi, hne, hmake, -⟩ := makeEntryInInode_of_place hplace 0 0
    have hT := h.tiled p hp i hi hne
    have hins := hT.insertion hmake
    obtain ⟨l₁, l₂, -, hnew⟩ := hins.entries
    obtain ⟨hlo, hhi, hname⟩ := (hins.tiled hT).bounds (e := r) (by rw [hnew]; simp)
    have hnl : entryNameLen mem r = wrap 8 name.length := by
      rw [← length_entryName, show entryName mem r = name.take (wrap 8 name.length) from
        congrArg Prod.fst hins.added, length_take_wrap]
    rw [getBlock_eq, ext2BlockSize_eq] at *
    omega

end

end Ext2
end OsAssignments
