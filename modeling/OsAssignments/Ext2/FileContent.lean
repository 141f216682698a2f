import OsAssignments.Lib.Chunks
import OsAssignments.Ext2.Overwrite

/-!
# The content of a file

* `readFile` — the blocks of an inode's slots one after the other, cut at `i_size`.
* `Copied.slotBytes_begin`, `Copied.slotBytes_nil` — what the loops of `ext2_cp` leave in a slot.
* `Copied.holdsContent_iff` — the inode holds what was copied exactly if none of its blocks was
  dropped: it has at most twelve, or an indirect block.
-/

namespace OsAssignments
namespace Ext2

open ByteMemory MachineWord Chunks

/-- The block of slot `i`, if there is one. -/
def slotBytes (d : Disk) (n i : Nat) : List UInt8 :=
  if getInodeBlockNumber d n i = 0 then []
  else readBytes d.data ext2BlockSize (getBlock (getInodeBlockNumber d n i))

/-- The bytes of a file. -/
def readFile (d : Disk) (n : Nat) : List UInt8 :=
  ((List.range inodeBlockLimit).flatMap (slotBytes d n)).take (d.inodeTable n).iSize

/-- The inode is of the size of `content` and holds it. -/
structure HoldsContent (d : Disk) (n : Nat) (content : List UInt8) : Prop where
  size : (d.inodeTable n).iSize = content.length
  bytes : readFile d n = content

section

variable {d d' : Disk} {n now : Nat} {bs : List Nat} {content : List UInt8}

theorem fileChunk_eq (content : List UInt8) : fileChunk content = chunk ext2BlockSize content := rfl

theorem slotBytes_length_le (d : Disk) (n i : Nat) : (slotBytes d n i).length ≤ ext2BlockSize := by
  rw [slotBytes]
  split
  · exact Nat.zero_le _
  · rw [length_readBytes]

variable (hcopy : Copied now d d' n bs content)
include hcopy

/-- A slot that can store a block number holds its chunk of the content. -/
theorem Copied.slotBytes_begin (hpos : ∀ b ∈ bs, b ≠ 0) {j : Nat} (hj : j < inodeBlockLimit)
    (hatt : Attachable d n j) (hchunk : fileChunk content j ≠ []) :
    fileChunk content j <+: slotBytes d' n j ∧ (slotBytes d' n j).length = ext2BlockSize := by
  obtain ⟨b, hb, hread⟩ := hcopy.written j hj hchunk
  have hslot : getInodeBlockNumber d' n j = b := by
    rw [hcopy.slots, if_pos ⟨hj, hatt⟩, chunkBlock, if_pos hchunk, List.getD_eq_getElem?_getD, hb]
    rfl
  have hbne : b ≠ 0 := hpos b (List.mem_of_getElem? hb)
  rw [slotBytes, hslot, if_neg hbne]
  refine ⟨?_, length_readBytes _ _ _⟩
  rw [← hread]
  exact readBytes_prefix _ _ (length_fileChunk_le content j)

/-- Every other slot is empty. -/
theorem Copied.slotBytes_nil {j : Nat} (hnone : ¬ Attachable d n j ∨ fileChunk content j = []) :
    slotBytes d' n j = [] := by
  have hslot : getInodeBlockNumber d' n j = 0 := by
    rw [hcopy.slots]
    split
    · rename_i hand
      rw [chunkBlock, if_neg (not_not.mpr (hnone.resolve_left (not_not.mpr hand.2)))]
    · rfl
  rw [slotBytes, if_pos hslot]

theorem Copied.iSize (hsize : content.length < 2 ^ 32) :
    (d'.inodeTable n).iSize = content.length := by
  obtain ⟨iBlock, htable⟩ := hcopy.inode
  rw [htable]
  exact wrap_of_lt hsize

/-- **What was copied is read back** exactly if no block of it was dropped. -/
theorem Copied.holdsContent_iff (hpos : ∀ b ∈ bs, b ≠ 0)
    (hfits : content.length ≤ ext2BlockSize * inodeBlockLimit) (wanted : List UInt8) :
    HoldsContent d' n wanted ↔ wanted = content ∧
      (content.length ≤ ext2BlockSize * indirect1Index ∨ indirectBlock d n ≠ 0) := by
  have hbound : ext2BlockSize * inodeBlockLimit < 2 ^ 32 := by decide
  have hsize := hcopy.iSize (hfits.trans_lt hbound)
  have hsize0 : 0 < ext2BlockSize := by decide
  -- without an indirect block only the first slots hold anything
  have hread : (content.length ≤ ext2BlockSize * indirect1Index ∨ indirectBlock d n ≠ 0) →
      readFile d' n = content := by
    intro hslots
    have hatt : ∀ j, j < inodeBlockLimit → fileChunk content j ≠ [] → Attachable d n j := by
      intro j hj hchunk
      rcases hslots with hfew | hind
      · have hlt := (chunk_ne_nil_iff hsize0).mp hchunk
        exact .inl (Nat.lt_of_mul_lt_mul_left (hlt.trans_le hfew))
      · exact .inr ⟨hj, hind⟩
    rw [readFile, hsize]
    refine take_flatMap hsize0 (fun j hj => ?_) (fun j hj hchunk => ?_) hfits
    · by_cases hchunk : fileChunk content j = []
      · rw [← fileChunk_eq, hchunk]
        exact List.nil_prefix
      · exact (hcopy.slotBytes_begin hpos hj (hatt j hj hchunk) hchunk).1
    · exact (hcopy.slotBytes_begin hpos hj (hatt j hj hchunk) hchunk).2
  constructor
  · intro h
    by_cases hslots : content.length ≤ ext2BlockSize * indirect1Index ∨ indirectBlock d n ≠ 0
    · exact ⟨h.bytes.symm.trans (hread hslots), hslots⟩
    · obtain ⟨hmany, hind⟩ := not_or.mp hslots
      have hempty : ∀ j, indirect1Index ≤ j → j < inodeBlockLimit → slotBytes d' n j = [] := by
        intro j hj _
        refine hcopy.slotBytes_nil (.inl ?_)
        rintro (hlt | ⟨-, hne⟩)
        · omega
        · exact hind hne
      have hshort : (readFile d' n).length ≤ ext2BlockSize * indirect1Index := by
        have hle := length_flatMap_le (fun j _ => slotBytes_length_le d' n j) hempty
        rw [readFile, List.length_take]
        exact (Nat.min_le_right _ _).trans (hle.trans
          (Nat.mul_le_mul_left _ (Nat.min_le_right _ _)))
      rw [h.bytes, ← h.size, hsize] at hshort
      exact absurd hshort hmany
  · rintro ⟨rfl, hslots⟩
    exact ⟨hsize, hread hslots⟩

end

end Ext2
end OsAssignments
