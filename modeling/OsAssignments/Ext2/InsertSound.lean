import OsAssignments.Ext2.CreatedEntry
import OsAssignments.Ext2.Names

/-!
# Consistency after an insertion

* `EntriesAdded.consistent` — new entries keep an image consistent if they name inodes in use
  with the right type.
* `Inserted.binding` — what the new entry says.
* `Inserted.consistent`, `Inserted.namesDistinct` — an insertion keeps both invariants.
-/

namespace OsAssignments
namespace Ext2

open ByteMemory MachineWord ExitState

/-- The entry names an inode in use, with the type of a directory exactly for directories. -/
def NamesInode (d : Disk) (child fileType : Nat) : Prop :=
  InodeInUse d child ∧ (fileType = ext2FtDir ↔ IsDirInode d child)

section

variable {pad : Bool} {d d' : Disk} {p child fileType r : Nat} {name : CString}

/-- New entries that name inodes in use keep an image consistent. -/
theorem EntriesAdded.consistent {added : Set (Nat × Nat)} (hadd : EntriesAdded d d' added)
    (h : ConsistentAs pad d) (hs : Sound d') (hT : DirsTiled pad d')
    (hdirs : ∀ m, IsDirInode d' m ↔ IsDirInode d m) (huse : ∀ m, InodeInUse d' m ↔ InodeInUse d m)
    (hnew : ∀ q ∈ added, NamesInode d (entryInode d'.data q.2) (entryFileType d'.data q.2)) :
    ConsistentAs pad d' := by
  refine ⟨hs, (hdirs _).mpr h.root, hT, fun m e hl => ?_⟩
  rw [huse, hdirs]
  rcases (hadd.live m e).mp hl with hold | hadded
  · have hb := hadd.kept m e hold
    have hinode : entryInode d'.data e = entryInode d.data e := congrArg (fun b => b.2.1) hb
    have htype : entryFileType d'.data e = entryFileType d.data e := congrArg (fun b => b.2.2) hb
    rw [hinode, htype]
    exact h.names m e hold
  · exact hnew (m, e) hadded

namespace Inserted

variable (hins : Inserted d p child name fileType (.done (some r) d'))
include hins

/-- The new entry says what was asked for. -/
theorem binding (hlen : name.length ≤ 255) :
    entryBinding d'.data r = (name, child % 2 ^ 32, fileType % 2 ^ 8) := by
  have hwrap : wrap 8 name.length = name.length := by
    rw [wrap_length]
    omega
  obtain ⟨hinode, htype⟩ := hins.entry
  rw [entryBinding, hinode, htype]
  cases hins with
  | @placed r i mem hplace hi hne hmake =>
    obtain ⟨cur, -, -, rfl, -, rfl⟩ := makeEntryInExistingBlock_some hmake
    rw [withData_data, entryName_fillEntry _ _ _ _ _ _ _ (length_take_wrap name).symm
      (wrap_length_lt name), hwrap, List.take_length]
  | @newBlock i b hplace hfirst hb =>
    have hname := entryName_fillEntry (attachBlock d p i b).data (getBlock b) child ext2BlockSize
      fileType (wrap 8 name.length) name hwrap (wrap_length_lt name)
    rw [← makeFirstEntry] at hname
    rw [newEntry, withData_data, hname]

/-- **An insertion keeps an image consistent**, if the entry names an inode in use. -/
theorem consistent (h : Consistent d) (hp : ValidInode d p) (hc : Contained d p name 0)
    (hchild : NamesInode d child (fileType % 2 ^ 8)) : Consistent d' := by
  obtain ⟨hadd, hT⟩ := hins.directories h hp hc (h.slackAt p name)
  refine hadd.consistent h (hins.sound h.sound hp hc) hT (fun m => hins.isDirInode)
    (fun m => hins.inodeInUse) ?_
  rintro ⟨m, e⟩ ⟨-, rfl, -⟩
  obtain ⟨hinode, htype⟩ := hins.entry
  dsimp only at hinode htype ⊢
  have hlt := h.sound.toCounted.validInode_lt hchild.1.1
  rw [hinode, htype, Nat.mod_eq_of_lt hlt]
  exact hchild

/-- An insertion that lands adds one entry. -/
theorem oneAdded (h : Consistent d) (hp : ValidInode d p) (hc : Contained d p name 0)
    (hland : LandsLive d p name) : EntriesAdded d d' {(p, r)} := by
  have hadd := hins.entriesAdded h hp hc (h.slackAt p name)
  have hset : ({(p, r)} : Set (Nat × Nat)) = {q | q.1 = p ∧ q.2 = r ∧ LandsLive d p name} := by
    ext ⟨m, e⟩
    simp only [Set.mem_singleton_iff, Prod.mk.injEq, Set.mem_ofPred_eq, hland, and_true]
  rwa [hset]

/-- An insertion of a new name keeps the names distinct. -/
theorem namesDistinct (h : Consistent d) (hp : ValidInode d p) (hc : Contained d p name 0)
    (hlen : name.length ≤ 255) (hland : LandsLive d p name) (hd : NamesDistinct d)
    (hnew : findMatchingEntry d p name = none) : NamesDistinct d' := by
  have hname : entryName d'.data r = name := congrArg Prod.fst (hins.binding hlen)
  refine (hins.oneAdded h hp hc hland).namesDistinct_after hd fun e hl heq => ?_
  obtain ⟨e', hfind⟩ := hl.exists_find
  rw [heq, hname, hnew] at hfind
  cases hfind

end Inserted

end

end Ext2
end OsAssignments
