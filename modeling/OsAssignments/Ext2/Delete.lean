import OsAssignments.Ext2.Names
import OsAssignments.Ext2.Release

/-!
# Removal from a directory

What `delete_child_entry` does to an image.  The removal takes the entry found out of its
block, and gives the block back if no name is left in it.

* `EntryRemoved d d' p i e mem` — the entry `e` is gone from the block in slot `i` of the
  directory `p`; `mem` is the memory before the block is given back.
* `ConsistentAs.deleteChildEntry_cases` — the removal takes the entry that lookup finds.
* `EntryRemoved.sameFile`, `EntryRemoved.entriesAdded` — no other inode changes, and the
  directories have one entry less.

The image that is left may be unsound: the block given back can be a reserved one.
-/

namespace OsAssignments
namespace Ext2

open ByteMemory MachineWord

/-! ## The search -/

theorem isEntryBlockEmpty_iff (mem : Memory) (start : Nat) :
    isEntryBlockEmpty mem start = true ↔ liveEntries mem start = [] := by
  rw [isEntryBlockEmpty, List.all_eq_true, liveEntries, List.filter_eq_nil_iff]
  refine forall₂_congr fun e _ => ?_
  simp

/-- The end of `delete_child_entry`, for the pair found in slot `i`. -/
def removePair (d : Disk) (p i : Nat) (pair : Option Nat × Nat) : Disk :=
  let d' := d.withData (unlinkEntry d.data pair)
  if isEntryBlockEmpty d'.data (getBlock (getInodeBlockNumber d p i)) then
    releaseEntryBlock d' p i (getInodeBlockNumber d p i)
  else d'

section

variable {pad : Bool} {d d' : Disk} {n p i e : Nat} {name : CString} {slots : List Nat}

theorem slotEntry_eq (hne : getInodeBlockNumber d p i ≠ 0) : slotEntry d p name i
    = (blockMatchingPair d.data (getBlock (getInodeBlockNumber d p i)) name).map Prod.snd := by
  rw [slotEntry, if_neg hne]
  exact (map_snd_matchingPairFrom _ _ _ _).symm

/-- The loop passes over the slots that do not know the name. -/
theorem deleteChildEntryFrom_skip (h : slotEntry d p name i = none) :
    deleteChildEntryFrom d p name (i :: slots) = deleteChildEntryFrom d p name slots := by
  rw [deleteChildEntryFrom]
  by_cases hzero : getInodeBlockNumber d p i = 0
  · exact if_pos hzero
  · rw [slotEntry_eq hzero, Option.map_eq_none_iff] at h
    simp only [if_neg hzero, h]

/-- The loop ends at the first slot that does. -/
theorem deleteChildEntryFrom_hit (slots : List Nat) (h : slotEntry d p name i = some e) :
    ∃ pair, getInodeBlockNumber d p i ≠ 0 ∧
      blockMatchingPair d.data (getBlock (getInodeBlockNumber d p i)) name = some pair ∧
      pair.2 = e ∧ deleteChildEntryFrom d p name (i :: slots) = removePair d p i pair := by
  by_cases hzero : getInodeBlockNumber d p i = 0
  · rw [slotEntry, if_pos hzero] at h
    cases h
  · rw [slotEntry_eq hzero, Option.map_eq_some_iff] at h
    obtain ⟨pair, hpair, rfl⟩ := h
    refine ⟨pair, hzero, hpair, rfl, ?_⟩
    rw [deleteChildEntryFrom]
    simp only [if_neg hzero, hpair]
    rfl

/-- The removal works on the entry that lookup finds. -/
theorem deleteChildEntryFrom_cases (d : Disk) (p : Nat) (name : CString) (slots : List Nat) :
    (slots.findSome? (slotEntry d p name) = none ∧ deleteChildEntryFrom d p name slots = d) ∨
    ∃ i ∈ slots, ∃ pair, getInodeBlockNumber d p i ≠ 0 ∧
      blockMatchingPair d.data (getBlock (getInodeBlockNumber d p i)) name = some pair ∧
      slots.findSome? (slotEntry d p name) = some pair.2 ∧
      deleteChildEntryFrom d p name slots = removePair d p i pair := by
  induction slots with
  | nil => exact .inl ⟨rfl, rfl⟩
  | cons i slots ih =>
    rw [List.findSome?_cons]
    cases hslot : slotEntry d p name i with
    | none =>
      rw [deleteChildEntryFrom_skip hslot]
      refine ih.imp_right ?_
      rintro ⟨k, hk, pair, hrest⟩
      exact ⟨k, by simp [hk], pair, hrest⟩
    | some e =>
      obtain ⟨pair, hne, hpair, rfl, hres⟩ := deleteChildEntryFrom_hit slots hslot
      exact .inr ⟨i, by simp, pair, hne, hpair, rfl, hres⟩

/-! ## The removal -/

/-- The slots whose blocks are given back: that of the block, if no name is left in it. -/
def emptiedSlots (mem : Memory) (start i : Nat) : List Nat :=
  if isEntryBlockEmpty mem start then [i] else []

/-- The entry `e` is taken out of the block in slot `i`. -/
structure EntryRemoved (d d' : Disk) (p i e : Nat) (mem : Memory) : Prop where
  lt : i < inodeBlockLimit
  slot : getInodeBlockNumber d p i ≠ 0
  removal : Removal d.data mem (getBlock (getInodeBlockNumber d p i)) e
  released : SlotsReleased (d.withData mem) d' p
    (emptiedSlots mem (getBlock (getInodeBlockNumber d p i)) i)

theorem Removal.withData_slots {mem : Memory} (hd : DirInodeAs pad d p)
    (hi : i < inodeBlockLimit) (hne : getInodeBlockNumber d p i ≠ 0)
    (h : Removal d.data mem (getBlock (getInodeBlockNumber d p i)) e) (j : Nat) :
    getInodeBlockNumber (d.withData mem) p j = getInodeBlockNumber d p j := by
  have hdisj := block_disjoint (hd.apart i hi hne)
  apply getInodeBlockNumber_congr
  · rfl
  · exact fun _ => h.frame (by omega)

/-- **A removal takes the entry that lookup finds**, or nothing if it finds none. -/
theorem ConsistentAs.deleteChildEntry_cases (h : ConsistentAs pad d) (hp : IsDirInode d p)
    (hname : name ≠ []) :
    (findMatchingEntry d p name = none ∧ deleteChildEntry d p name = d) ∨
    ∃ i e mem, findMatchingEntry d p name = some e ∧ entryName d.data e = name ∧
      EntryRemoved d (deleteChildEntry d p name) p i e mem := by
  rw [findMatchingEntry_eq]
  rcases deleteChildEntryFrom_cases d p name (List.range inodeBlockLimit) with
    ⟨hnone, hres⟩ | ⟨i, hi, pair, hne, hpair, hfind, hres⟩
  · exact .inl ⟨hnone, hres⟩
  · have hi := List.mem_range.mp hi
    obtain ⟨hfound, hremoval⟩ := (h.tiled p hp i hi hne).removal hpair hname
    refine .inr ⟨i, pair.2, unlinkEntry d.data pair, hfind, hfound, hi, hne, hremoval, ?_⟩
    rw [deleteChildEntry, hres, removePair, emptiedSlots, withData_data]
    have hslot : getInodeBlockNumber (d.withData (unlinkEntry d.data pair)) p i
        = getInodeBlockNumber d p i := hremoval.withData_slots (h.dirInode hp) hi hne i
    split
    · have hin : InUse d (getInodeBlockNumber d p i) :=
        h.sound.stored_inUse (r := .slot p i) ⟨hp.1.1, hi⟩ hne
      have hword := hin.lt_two_pow h.sound.toCounted
      rw [← hslot] at hne hword ⊢
      have hroom := h.sound.toCounted.blockCountersHold.mono (show 1 ≤ 1024 by norm_num)
      exact slotsReleased_releaseEntryBlock hne hword ⟨hroom.superBlock, hroom.groupDesc⟩
    · exact SlotsReleased.refl _ p

/-! ## What a removal leaves alone -/

theorem TiledAs.nodup_liveEntries {mem : Memory} {start : Nat} (hT : TiledAs pad mem start) :
    (liveEntries mem start).Nodup :=
  List.Nodup.filter _ (hT.pairwise.imp fun hlt => hlt.ne)

namespace EntryRemoved

variable {mem : Memory} (h : EntryRemoved d d' p i e mem)
include h

theorem footprint : Footprint d d' {p} ({getInodeBlockNumber d p i} ∪ indirectOf d p) := by
  have hdata : Footprint d (d.withData mem) ∅ {getInodeBlockNumber d p i} :=
    withData_footprint d fun c hc => h.removal.frame (by
      have := block_disjoint (show c ≠ getInodeBlockNumber d p i from hc)
      omega)
  exact (hdata.mono (Set.empty_subset _) Set.subset_union_left).trans
    (h.released.footprint.mono (le_refl _) Set.subset_union_right)

/-- Only the block pointers of the directory change. -/
theorem inode (m : Nat) : ∃ iBlock, d'.inodeTable m = { d.inodeTable m with iBlock := iBlock } := by
  by_cases hm : m = p
  · rw [hm]
    exact h.released.self
  · exact ⟨_, h.footprint.inode m hm⟩

theorem inodeInUse {m : Nat} : InodeInUse d' m ↔ InodeInUse d m := by
  rw [InodeInUse, InodeInUse, validInode_of_layout h.footprint.layout, getInodeUsage,
    h.released.inodeBitmap, getInodeUsage, withData_inodeBitmap]

theorem isDirInode {m : Nat} : IsDirInode d' m ↔ IsDirInode d m := by
  obtain ⟨iBlock, hm⟩ := h.inode m
  rw [IsDirInode, IsDirInode, h.inodeInUse, hm]

/-- The blocks that change are the directory's. -/
theorem subset_blocksOf : {getInodeBlockNumber d p i} ∪ indirectOf d p ⊆ blocksOf d p := by
  refine Set.union_subset ?_ (indirectOf_subset d p)
  rw [Set.singleton_subset_iff]
  exact mem_blocksOf_slot h.lt h.slot

variable (hp : IsDirInode d p)
include hp

theorem liveIn : LiveIn d p e := by
  obtain ⟨l₁, l₂, hold, -⟩ := h.removal.live
  exact ⟨hp, i, h.lt, h.slot, by rw [hold]; simp⟩

variable (hd : ConsistentAs pad d)
include hd

/-- The slot of the block is empty afterwards if the block is given back. -/
theorem slot_eq (j : Nat) : getInodeBlockNumber d' p j
    = if j ∈ emptiedSlots mem (getBlock (getInodeBlockNumber d p i)) i then 0
      else getInodeBlockNumber d p j := by
  rw [h.released.slots, h.removal.withData_slots (hd.dirInode hp) h.lt h.slot]

theorem slot_eq_of_ne {j : Nat} (hj : j ≠ i) :
    getInodeBlockNumber d' p j = getInodeBlockNumber d p j := by
  rw [h.slot_eq hp hd, if_neg]
  rw [emptiedSlots]
  split
  · rwa [List.mem_singleton]
  · exact List.not_mem_nil

/-- The bytes of the directory blocks are those before the block was given back. -/
theorem bytes {j : Nat} (hj : j < inodeBlockLimit) (hne : getInodeBlockNumber d p j ≠ 0) :
    AgreeOn mem d'.data (getBlock (getInodeBlockNumber d p j)) ext2BlockSize :=
  h.released.footprint.data _ fun hmem => (hd.dirInode hp).apart j hj hne hmem.2

/-- **No other inode changes.** -/
theorem sameFile {m : Nat} (hm : ValidInode d m) (hne : m ≠ p) : SameFile d d' m :=
  h.footprint.sameFile hne
    ((hd.sound.disjoint_blocksOf hm hp.1.1 hne).mono_right h.subset_blocksOf)

/-- The bytes of the entry that name the inode are still there. -/
theorem entryInode_eq : entryInode d'.data e = entryInode d.data e := by
  obtain ⟨l₁, l₂, hold, -⟩ := h.removal.live
  have he : e ∈ liveEntries d.data (getBlock (getInodeBlockNumber d p i)) := by simp [hold]
  obtain ⟨hlo, hhi, hlen⟩ := (hd.tiled p hp i h.lt h.slot).bounds (mem_liveEntries.mp he).1
  have hag : AgreeOn mem d'.data e 4 := (h.bytes hp hd h.lt h.slot).mono (by omega) (by omega)
  rw [← h.removal.inode]
  exact hag.readLE

/-- The block is a directory block after the removal. -/
theorem tiledAfter : TiledAs pad mem (getBlock (getInodeBlockNumber d p i)) :=
  h.removal.tiled (hd.tiled p hp i h.lt h.slot)

/-- What is left of the block in slot `i`, if it was not given back. -/
theorem liveEntries_eq : liveEntries d'.data (getBlock (getInodeBlockNumber d p i))
    = liveEntries mem (getBlock (getInodeBlockNumber d p i)) :=
  (h.tiledAfter hp hd).liveEntries_congr (h.bytes hp hd h.lt h.slot)

/-- Seen backwards, slot `i` takes the entry that was removed. -/
theorem slotTakes : SlotTakes pad d' d p i {e} := by
  have hT := hd.tiled p hp i h.lt h.slot
  obtain ⟨l₁, l₂, hold, hnew⟩ := h.removal.live
  have hslot := h.slot_eq hp hd i
  rw [emptiedSlots] at hslot
  have hempty := isEntryBlockEmpty_iff mem (getBlock (getInodeBlockNumber d p i))
  refine ⟨h.lt, h.slot, hT, fun x => ?_, fun hne x hx => ?_,
    fun j hj => (h.slot_eq_of_ne hp hd hj).symm, fun j hj hji hne => ?_⟩
  · by_cases hgone : isEntryBlockEmpty mem (getBlock (getInodeBlockNumber d p i)) = true
    · rw [if_pos hgone] at hslot
      rw [hempty.mp hgone, List.nil_eq, List.append_eq_nil_iff] at hnew
      obtain ⟨rfl, rfl⟩ := hnew
      simp [hslot, hold]
    · rw [if_neg hgone] at hslot
      simp only [List.not_mem_nil, if_false] at hslot
      rw [hslot, h.liveEntries_eq hp hd, hold, hnew, and_iff_right h.slot]
      simp only [List.mem_append, List.mem_cons, Set.mem_singleton_iff]
      tauto
  · by_cases hgone : isEntryBlockEmpty mem (getBlock (getInodeBlockNumber d p i)) = true
    · rw [if_pos hgone] at hslot
      exact absurd (by simpa using hslot) hne
    · rw [if_neg hgone] at hslot
      simp only [List.not_mem_nil, if_false] at hslot
      rw [hslot, h.liveEntries_eq hp hd] at hx
      refine ⟨?_, ?_⟩
      · rintro rfl
        have hnodup := hT.nodup_liveEntries
        rw [hold] at hnodup
        rw [hnew] at hx
        exact (List.nodup_cons.mp (List.nodup_middle.mp hnodup)).1 hx
      · have hsame := (h.tiledAfter hp hd).sameEntry (h.bytes hp hd h.lt h.slot)
          (mem_liveEntries.mp hx).1
        rw [hsame.binding, h.removal.kept x hx]
  · rw [h.slot_eq_of_ne hp hd hji] at hne ⊢
    have hdiff : getInodeBlockNumber d p j ≠ getInodeBlockNumber d p i := fun heq =>
      hji ((hd.dirInode hp).distinct j i hj h.lt hne heq)
    have hdisj := block_disjoint hdiff
    refine ⟨((h.removal.frame (by omega)).trans (h.bytes hp hd hj hne)).symm, ?_⟩
    rintro x rfl
    have := mem_block_of_live (show x ∈ liveEntries d.data _ by rw [hold]; simp)
    omega

theorem dirsTiled : DirsTiled pad d' := by
  intro m hm j hj hne
  have hm := h.isDirInode.mp hm
  by_cases hmp : m = p
  · subst hmp
    by_cases hji : j = i
    · subst hji
      have hslot := h.slot_eq hp hd j
      split at hslot
      · exact absurd hslot hne
      · rw [hslot]
        exact ((h.tiledAfter hp hd).congr (h.bytes hp hd hj h.slot)).tiled
    · obtain ⟨hag, -⟩ := (h.slotTakes hp hd).bytes j hj hji hne
      rw [h.slot_eq_of_ne hp hd hji] at hne hag ⊢
      exact ((hd.tiled m hm j hj hne).congr hag.symm).tiled
  · have hsame := h.sameFile hp hd hm.1.1 hmp
    rw [hsame.slots] at hne ⊢
    exact ((hd.tiled m hm j hj hne).congr (hsame.bytes j hne)).tiled

/-- **The directories have one entry less.** -/
theorem entriesAdded : EntriesAdded d' d {(p, e)} := by
  have hadded := (h.dirsTiled hp hd).entriesAdded (h.isDirInode.mpr hp)
    (fun m => h.isDirInode.symm) (fun m hm hne => (h.sameFile hp hd (h.isDirInode.mp hm).1.1 hne).symm)
    (h.slotTakes hp hd)
  have hset : ({(p, e)} : Set (Nat × Nat)) = {q | q.1 = p ∧ q.2 ∈ ({e} : Set Nat)} := by
    ext ⟨m, x⟩
    simp
  rwa [hset]

end EntryRemoved

end

end Ext2
end OsAssignments
