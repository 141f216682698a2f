import OsAssignments.Lib.Stores
import OsAssignments.Ext2.DirUpdate

/-!
# Insertion into a corrupt block

`make_entry_in_existing_block` on any bytes: no entry has to fit into the block or to have a
sensible `rec_len`.

* `insertionStores` — the stores of the function in their order; `insertionStores_apply` says that
  they give the memory of `makeEntryInExistingBlock`.
* `entriesFrom_ends` — the loop leaves the block after at most 1024 rounds.
* `NewEntryFits` — the place behind the name of the first entry with enough slack is outside the
  block, or the new entry fits in there.
* `insertion_contained_iff` — then, and only then, no byte outside the block is written.
-/

namespace OsAssignments
namespace Ext2

open ByteMemory MachineWord RecordTiling

/-! ## The stores -/

/-- The assignments to a new entry, as in `fillEntry`. -/
def fillStores (entry inode recLen fileType nameLen : Nat) (name : CString) : List Store :=
  [⟨entry + 8, name⟩, ⟨entry + 6, leBytes 1 nameLen⟩, ⟨entry + 4, leBytes 2 recLen⟩,
    ⟨entry + 7, leBytes 1 fileType⟩, ⟨entry, leBytes 4 inode⟩]

/-- The entry that `make_entry_in_existing_block` stops at: the first one with enough slack, which
is computed in 16 bits. -/
def entryToCut (mem : Memory) (start : Nat) (name : CString) : Option Nat :=
  (blockEntries mem start).find? fun cur =>
    decide (spaceLeft mem cur ≥ totalEntryLength (wrap 8 name.length))

/-- What `make_entry_in_existing_block` stores. -/
def insertionStores (mem : Memory) (start inodeNumber : Nat) (name : CString) (fileType : Nat) :
    List Store :=
  match entryToCut mem start name with
  | none => []
  | some cur =>
    let ret := getShiftedDirEntry cur (minRecLen mem cur)
    if isEntryInBlock start ret then
      ⟨cur + 4, leBytes 2 (minRecLen mem cur)⟩ ::
        fillStores ret inodeNumber (spaceLeft mem cur) fileType (wrap 8 name.length)
          (name.take (wrap 8 name.length))
    else []

section

variable {mem : Memory} {start inode fileType : Nat} {name : CString}

theorem fillStores_apply (mem : Memory) (entry recLen nameLen : Nat) :
    applyStores mem (fillStores entry inode recLen fileType nameLen name)
      = fillEntry mem entry inode recLen fileType nameLen name := by
  simp only [fillStores, applyStores, List.foldl, Store.apply, fillEntry, setEntryNameLen,
    setEntryRecLen, writeLE_eq]

/-- **The stores are those of the function.** -/
theorem insertionStores_apply (mem : Memory) (start inode : Nat) (name : CString)
    (fileType : Nat) : (makeEntryInExistingBlock mem start inode name fileType).2
      = applyStores mem (insertionStores mem start inode name fileType) := by
  rw [makeEntryInExistingBlock, insertionStores, entryToCut]
  cases (blockEntries mem start).find? fun cur =>
      decide (spaceLeft mem cur ≥ totalEntryLength (wrap 8 name.length)) with
  | none => rfl
  | some cur =>
    have hcut : entryRecLen (setEntryRecLen mem cur (minRecLen mem cur)) cur
        = minRecLen mem cur := by
      have hlt := entryNameLen_lt mem cur
      have hmin := minRecLen_eq mem cur
      exact readLE_writeLE_of_lt mem (cur + 4) (by omega)
    dsimp only
    split
    · rw [hcut, ← spaceLeft, setEntryRecLen, writeLE_eq, ← fillStores_apply]
      rfl
    · rfl

/-! ## The loop -/

/-- The loop ends: more than 1024 rounds change nothing. -/
theorem entriesFrom_ends (mem : Memory) (start : Nat) {fuel : Nat} (h : ext2BlockSize ≤ fuel) :
    entriesFrom mem start fuel start = blockEntries mem start := by
  rw [blockEntries, entriesFrom_eq_walk mem start (le_refl start),
    entriesFrom_eq_walk mem start (le_refl start)]
  exact walk_eq_of_le (by omega) h

/-! ## What is written -/

/-- The loop ends, and all stores are in the block. -/
structure InsertionContained (mem : Memory) (start inode : Nat) (name : CString)
    (fileType : Nat) : Prop where
  ends : ∀ fuel, ext2BlockSize ≤ fuel → entriesFrom mem start fuel start = blockEntries mem start
  within : ∀ s ∈ insertionStores mem start inode name fileType, s.Within start ext2BlockSize

/-- Behind the name of the entry that is cut there is the end of the block, or room for the new
entry. -/
def NewEntryFits (mem : Memory) (start : Nat) (name : CString) : Prop :=
  ∀ cur, entryToCut mem start name = some cur →
    isEntryInBlock start (getShiftedDirEntry cur (minRecLen mem cur)) = true →
    getShiftedDirEntry cur (minRecLen mem cur) + 8 + name.length ≤ start + ext2BlockSize

/-- **No byte outside the block is written** exactly if the new entry fits. -/
theorem insertion_contained_iff (hname : 1 ≤ name.length ∧ name.length ≤ 255) :
    InsertionContained mem start inode name fileType ↔ NewEntryFits mem start name := by
  have hwrap : wrap 8 name.length = name.length := by
    rw [wrap_length]
    omega
  have hsize := ext2BlockSize_eq
  constructor
  · intro h cur hcut hin
    have hstores := h.within
    rw [insertionStores, hcut] at hstores
    dsimp only at hstores
    rw [if_pos hin, hwrap, List.take_length] at hstores
    have hstored := hstores ⟨getShiftedDirEntry cur (minRecLen mem cur) + 8, name⟩
      (by simp [fillStores])
    have hpos : 0 < (Store.mk (getShiftedDirEntry cur (minRecLen mem cur) + 8) name).bytes.length :=
      hname.1
    exact ((Store.within_iff hpos).mp hstored).2
  · intro h
    refine ⟨fun fuel hfuel => entriesFrom_ends mem start hfuel, ?_⟩
    rw [insertionStores]
    cases hcut : entryToCut mem start name with
    | none => exact fun s hs => absurd hs List.not_mem_nil
    | some cur =>
      dsimp only
      split
      · rename_i hin
        have hfits := h cur hcut hin
        have hcur := List.mem_of_find?_eq_some hcut
        rw [blockEntries, entriesFrom_eq_walk mem start (le_refl start)] at hcur
        have hlow := (of_mem_walk hcur).1
        -- the name of the entry cut lies between its header and the new entry
        have hmin := minRecLen_eq mem cur
        rw [isEntryInBlock, decide_eq_true_iff] at hin
        rw [getShiftedDirEntry] at hin hfits ⊢
        have hone : ∀ addr bytes, 0 < List.length bytes → start ≤ addr →
            addr + bytes.length ≤ start + ext2BlockSize →
            (Store.mk addr bytes).Within start ext2BlockSize :=
          fun addr bytes hpos hlo hhi => (Store.within_iff hpos).mpr ⟨hlo, hhi⟩
        rw [hwrap, List.take_length]
        intro s hs
        simp only [fillStores, List.mem_cons, List.not_mem_nil, or_false] at hs
        rcases hs with rfl | rfl | rfl | rfl | rfl | rfl
        · exact hone _ _ (by simp) (by omega) (by simp; omega)
        · exact hone _ _ hname.1 (by omega) (by omega)
        · exact hone _ _ (by simp) (by omega) (by simp; omega)
        · exact hone _ _ (by simp) (by omega) (by simp; omega)
        · exact hone _ _ (by simp) (by omega) (by simp; omega)
        · exact hone _ _ (by simp) (by omega) (by simp; omega)
      · exact fun s hs => absurd hs List.not_mem_nil

/-- An entry that fits leaves the memory outside the block alone. -/
theorem InsertionContained.agreeOn (h : InsertionContained mem start inode name fileType)
    {a n : Nat} (hout : a + n ≤ start ∨ start + ext2BlockSize ≤ a) :
    AgreeOn mem (makeEntryInExistingBlock mem start inode name fileType).2 a n := by
  rw [insertionStores_apply]
  exact applyStores_agreeOn h.within hout

end

/-- A block with one entry, which is not in use. -/
theorem insertion_contained_example :
    InsertionContained (fun a => if a = 23557 then 4 else 0) 23552 12 [122] 1 :=
  (insertion_contained_iff (by decide)).mpr fun cur hcut _ => by
    have hfirst : entryToCut (fun a => if a = 23557 then 4 else 0) 23552 [122] = some 23552 := by
      decide +kernel
    rw [hfirst] at hcut
    cases hcut
    decide +kernel

/-! ## A block with a wild `rec_len` -/

/-- Three entries of 264 bytes, full of their names, and one with a `rec_len` of 65535 and a name
of 216 bytes. -/
def wildByte (offset : Nat) : UInt8 :=
  match offset % 264 with
  | 4 => if offset < 792 then 8 else 255
  | 5 => if offset < 792 then 1 else 255
  | 6 => if offset < 792 then 255 else 216
  | _ => 97

/-- The blocks of an image, each with these bytes. -/
def wildMemory : Memory := fun a => wildByte (a % ext2BlockSize)

theorem wildMemory_entryToCut : entryToCut wildMemory 23552 [122] = some 24344 := by
  decide +kernel

/-- The last four bytes of the block are in it, so the entry is made there: most of its header
and its name go to the next block. -/
theorem wildMemory_spreads : ¬ InsertionContained wildMemory 23552 12 [122] 1 := by
  intro h
  have hstored := h.within ⟨24580, [122]⟩ (by
    rw [insertionStores, wildMemory_entryToCut]
    decide +kernel)
  exact absurd (hstored 24580 (by decide) (by decide)).2 (by decide)

end Ext2
end OsAssignments
