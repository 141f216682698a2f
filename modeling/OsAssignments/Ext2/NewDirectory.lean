import OsAssignments.Ext2.InsertSound
import OsAssignments.Ext2.Lookups
import OsAssignments.Ext2.MkdirRun

/-!
# New directories

`ext2_mkdir` makes a directory of one block and an entry for it.

* `EmptyDir` — a directory of one block with the entries `.` and `..`.
* `Sound.newDir_emptyDir` — the directory made before its entry.
* `NewDirAt` — an inode for a directory has been allocated and filled so.  Its entries are new
  (`NewDirAt.entriesAdded`), and the image stays consistent.
* `mkdir_extends` — the tree grows by exactly one directory.
-/

namespace OsAssignments
namespace Ext2

open ByteMemory MachineWord ExitState

/-- A directory of one block with the entries `.` and `..`, of which the second lies at `r`. -/
structure EmptyDir (d : Disk) (n p b r : Nat) : Prop where
  slots : ∀ i, getInodeBlockNumber d n i = if i = 0 then b else 0
  block : b ≠ 0
  tiled : Tiled d.data (getBlock b)
  live : liveEntries d.data (getBlock b) = [getBlock b, r]
  self : entryBinding d.data (getBlock b) = (dot, n, ext2FtDir)
  parent : entryBinding d.data r = (dotDot, p, ext2FtDir)

section

variable {pad : Bool} {d d' d₁ : Disk} {n m p b r e now : Nat} {name : CString}

/-! ## The directory -/

/-- The block after both insertions. -/
theorem selfDir_insertion (now : Nat) (d : Disk) (n b p : Nat) : ∃ r,
    Insertion (selfDir now d n b).data (newDir now d n b p).data (getBlock b) r
      (storedBinding p ext2FtDir dotDot) := by
  have hT : Tiled (selfDir now d n b).data (getBlock b) :=
    (tiledBy_makeFirstEntry _ _ _ _ _ true).tiled
  obtain ⟨r, hroom⟩ := selfDir_room now d n b p
  have hmake : makeEntryInExistingBlock (selfDir now d n b).data (getBlock b) p dotDot ext2FtDir
      = (some r, (newDir now d n b p).data) := Prod.ext hroom rfl
  exact ⟨r, hT.insertion hmake⟩

/-- **The new directory holds `.` and `..` and nothing else.** -/
theorem Sound.newDir_emptyDir (h : Sound d) (now : Nat) (hn : n ∈ freeInodes d)
    (hb : b ∈ freeBlocks d) (hp : p < 2 ^ 32) : ∃ r, EmptyDir (newDir now d n b p) n p b r := by
  have hn32 : n < 2 ^ 32 := h.toCounted.validInode_lt (mem_freeInodes.mp hn).1
  have hbne : b ≠ 0 := by
    have := (mem_freeBlocks.mp hb).1
    omega
  have hT : TiledBy true (selfDir now d n b).data (getBlock b) [getBlock b] :=
    tiledBy_makeFirstEntry _ _ _ _ _ true
  have hself : entryBinding (selfDir now d n b).data (getBlock b)
      = (dot, n % 2 ^ 32, ext2FtDir % 2 ^ 8) := entryBinding_makeFirstEntry _ _ _ _ (by decide)
  have hlen : 0 < entryNameLen (selfDir now d n b).data (getBlock b) := by
    have hone : entryNameLen (selfDir now d n b).data (getBlock b) = 1 :=
      entryNameLen_makeFirstEntry _ _ _ _ _
    omega
  obtain ⟨r, hins⟩ := selfDir_insertion now d n b p
  obtain ⟨l₁, l₂, hentries, hentries'⟩ := hins.entries
  have hmem : getBlock b ∈ blockEntries (selfDir now d n b).data (getBlock b) := by
    rw [hT.blockEntries_eq]
    simp
  -- `..` comes behind `.`: the first entry of a block is at its start.
  have hsplit : l₁ = [getBlock b] ∧ l₂ = [] := by
    rw [hT.blockEntries_eq] at hentries
    rcases List.append_eq_singleton_iff.mp hentries.symm with ⟨rfl, rfl⟩ | hand
    · have hpair := (hins.tiled hT.tiled).pairwise
      have hlo := (isEntryInBlock_of_mem (by rw [hentries']; simp : r ∈ blockEntries _ _)).1
      rw [hentries', List.nil_append, List.pairwise_cons] at hpair
      have := hpair.1 (getBlock b) (by simp)
      omega
    · exact hand
  rw [hsplit.1, hsplit.2] at hentries'
  have hkept := hins.kept (getBlock b) hmem
  have hlen' := nameLen_eq_of_binding hkept
  have hlenr : entryNameLen (newDir now d n b p).data r = 2 := by
    rw [← length_entryName]
    exact congrArg (fun binding => binding.1.length) hins.added
  refine ⟨r, fun i => ?_, hbne, hins.tiled hT.tiled, ?_, ?_, ?_⟩
  · have hslots := getInodeBlockNumber_selfDir h now hn hb i
    have ha := h.selfDir_allocated now hn hb
    have hvalid : ValidInode (selfDir now d n b) n := ((ha.inUse n).mpr (.inr rfl)).1
    have hzero := getInodeBlockNumber_selfDir h now hn hb 0
    rw [if_pos rfl] at hzero
    have htable : (newDir now d n b p).inodeTable = (selfDir now d n b).inodeTable := by
      rw [newDir, withData_inodeTable]
    rw [← hslots]
    refine getInodeBlockNumber_congr (by rw [htable]) (fun hind => ?_) i
    have hapart := ha.sound.slot_ne_indirect hvalid (i := 0) (by decide) hvalid hind
    rw [hzero] at hapart
    have hdisj := block_disjoint hapart
    apply hins.frame
    omega
  · rw [liveEntries, hentries']
    simp [hlen', hlen, hlenr]
  · rw [hkept, hself, Nat.mod_eq_of_lt hn32]
    rfl
  · rw [hins.added, storedBinding, Nat.mod_eq_of_lt hp]
    rfl

/-! ## The image with the new directory -/

/-- An inode has been allocated for a directory and filled with `.` and `..`. -/
structure NewDirAt (d d₁ : Disk) (n p b r : Nat) : Prop
    extends Allocated d d₁ n ext2SIfdir 1, EmptyDir d₁ n p b r

namespace NewDirAt

variable (hnew : NewDirAt d d₁ n p b r)
include hnew

theorem isDirInode : IsDirInode d₁ m ↔ IsDirInode d m ∨ m = n := by
  rw [IsDirInode, IsDirInode, hnew.inUse]
  constructor
  · rintro ⟨hm | rfl, htype⟩
    · exact .inl ⟨hm, (hnew.kept m hm).2 ▸ htype⟩
    · exact .inr rfl
  · rintro (⟨hm, htype⟩ | rfl)
    · exact ⟨.inl hm, by rw [(hnew.kept m hm).2, htype]⟩
    · exact ⟨.inr rfl, by rw [hnew.mode]; decide⟩

theorem not_isDirInode : ¬ IsDirInode d n := fun hn => not_inodeInUse_of_free hnew.free hn.1

/-- The entries in use of the new directory. -/
theorem liveIn_self : LiveIn d₁ n e ↔ e = getBlock b ∨ e = r := by
  have hzero := hnew.slots 0
  rw [if_pos rfl] at hzero
  constructor
  · rintro ⟨-, i, -, hne, he⟩
    have hi : i = 0 := by
      by_contra hi
      exact hne (by rw [hnew.slots, if_neg hi])
    rw [hi, hzero, hnew.live] at he
    simpa using he
  · intro he
    refine ⟨hnew.isDirInode.mpr (.inr rfl), 0, by decide, by rw [hzero]; exact hnew.block, ?_⟩
    rw [hzero, hnew.live]
    simpa using he

theorem dirsTiled (h : ConsistentAs pad d) : DirsTiled pad d₁ := by
  intro m hm i hi hne
  rcases hnew.isDirInode.mp hm with hm | rfl
  · have hsame := hnew.dirsKept m hm
    rw [hsame.slots] at hne ⊢
    exact ((h.tiled m hm i hi hne).congr (hsame.bytes i hne)).tiled
  · have hi0 : i = 0 := by
      by_contra hi0
      exact hne (by rw [hnew.slots, if_neg hi0])
    rw [hi0, hnew.slots, if_pos rfl]
    exact hnew.tiled.weaken pad

/-- **The entries `.` and `..` are new, and all others stay.** -/
theorem entriesAdded (h : ConsistentAs pad d) : EntriesAdded d d₁ {(n, getBlock b), (n, r)} := by
  have hfile := fun m hm => (hnew.dirsKept m hm).liveIn h.tiled hm (hnew.isDirInode.mpr (.inl hm))
  refine ⟨fun m e => ?_, ?_, fun m e hl => (hfile m hl.1).2 e hl, (hnew.dirsTiled h).format⟩
  · by_cases hmn : m = n
    · subst hmn
      rw [hnew.liveIn_self]
      simp [LiveIn, hnew.not_isDirInode]
    · have hother : (m, e) ∉ ({(n, getBlock b), (n, r)} : Set (Nat × Nat)) := by
        simp [hmn]
      rw [or_iff_left hother]
      constructor
      · intro hl
        have hm := (hnew.isDirInode.mp hl.1).resolve_right hmn
        exact ((hfile m hm).1 e).mp hl
      · exact fun hl => ((hfile m hl.1).1 e).mpr hl
  · rintro q (rfl | rfl) hl
    · exact hnew.not_isDirInode hl.1
    · exact hnew.not_isDirInode hl.1

variable (h : ConsistentAs pad d) (hp : IsDirInode d p)
include h hp

theorem consistent : ConsistentAs pad d₁ := by
  have hadd := hnew.entriesAdded h
  refine ⟨hnew.sound, hnew.isDirInode.mpr (.inl h.root), hnew.dirsTiled h, fun m e hl => ?_⟩
  rcases (hadd.live m e).mp hl with hl | (hself | hparent)
  · obtain ⟨hused, htype⟩ := h.names m e hl
    have hne : entryInode d.data e ≠ n := fun heq => not_inodeInUse_of_free hnew.free (heq ▸ hused)
    have hft : entryFileType d₁.data e = entryFileType d.data e :=
      congrArg (fun binding => binding.2.2) (hadd.kept m e hl)
    rw [hadd.entryInode_eq hl, hft, hnew.isDirInode, or_iff_left hne]
    exact ⟨hnew.stillInUse _ hused, htype⟩
  · obtain ⟨rfl, rfl⟩ := Prod.mk.inj hself
    have hinode : entryInode d₁.data (getBlock b) = m :=
      congrArg (fun binding => binding.2.1) hnew.self
    have hft : entryFileType d₁.data (getBlock b) = ext2FtDir :=
      congrArg (fun binding => binding.2.2) hnew.self
    rw [hinode, hft]
    exact ⟨hl.1.1, iff_of_true rfl hl.1⟩
  · obtain ⟨rfl, rfl⟩ := Prod.mk.inj hparent
    have hinode : entryInode d₁.data e = p := congrArg (fun binding => binding.2.1) hnew.parent
    have hft : entryFileType d₁.data e = ext2FtDir :=
      congrArg (fun binding => binding.2.2) hnew.parent
    rw [hinode, hft]
    exact ⟨hnew.stillInUse p hp.1, iff_of_true rfl (hnew.isDirInode.mpr (.inl hp))⟩

omit hp in
theorem namesDistinct (hd : NamesDistinct d) : NamesDistinct d₁ := by
  have hadd := hnew.entriesAdded h
  have hself : entryName d₁.data (getBlock b) = dot := congrArg Prod.fst hnew.self
  have hparent : entryName d₁.data r = dotDot := congrArg Prod.fst hnew.parent
  intro m e e' hl hl' heq
  by_cases hmn : m = n
  · subst hmn
    rcases hnew.liveIn_self.mp hl with rfl | rfl
    · rcases hnew.liveIn_self.mp hl' with rfl | rfl
      · rfl
      · rw [hself, hparent] at heq
        exact absurd heq (by decide)
    · rcases hnew.liveIn_self.mp hl' with rfl | rfl
      · rw [hself, hparent] at heq
        exact absurd heq (by decide)
      · rfl
  · have hold : ∀ {x}, LiveIn d₁ m x → LiveIn d m x := fun {x} hx =>
      ((hadd.live m x).mp hx).resolve_right (by simp [hmn])
    rw [hadd.entryName_eq (hold hl), hadd.entryName_eq (hold hl')] at heq
    exact hd m e e' (hold hl) (hold hl') heq

end NewDirAt

/-- `ext2_mkdir` makes such a directory before its entry. -/
theorem Sound.newDirAt (h : Sound d) (now : Nat) (hn : n ∈ freeInodes d) (hb : b ∈ freeBlocks d)
    (hp : p < 2 ^ 32) : ∃ r, NewDirAt d (newDir now d n b p) n p b r := by
  obtain ⟨r, hempty⟩ := h.newDir_emptyDir now hn hb hp
  exact ⟨r, h.newDir_allocated now hn hb p, hempty⟩

/-! ## The entry of the new directory -/

/-- The entry can be stored: an existing block has room, or a direct slot is empty. -/
def HasPlaceFor (d : Disk) (p : Nat) (name : CString) : Prop :=
  HasRoomFor d p name ∨ ∃ i, i < indirect1Index ∧ getInodeBlockNumber d p i = 0

/-- The parent that a path gives has a place for its last component. -/
def ParentHasPlace (d : Disk) (path : CString) : Prop :=
  ∀ pe, traversePath d (splitPath path).dropLast = some pe →
    HasPlaceFor d (entryInode d.data pe) (lastComponent path)

theorem ConsistentAs.lands_of_place (h : Consistent d) (hp : IsDirInode d p)
    (hlen : name.length ≤ 255) (hplace : HasPlaceFor d p name) : Lands d p name := by
  rcases hplace with hroom | hslot
  · refine .inl fun hnone => ?_
    have hno := ((h.dirInode hp).refused_iff 0 0 name).mp (refused_of_no_place hnone 0 0)
    rw [storedName_eq hlen, (h.dirInode hp).acceptsFor_iff] at hno
    exact hno hroom
  · exact .inr (.inl hslot)

namespace NewDirAt

variable (hnew : NewDirAt d d₁ n p b r) (h : Consistent d) (hd : NamesDistinct d)
  (hp : IsDirInode d p) (hlen : name.length ≤ 255) (hland : LandsLive d p name)
  (hins : Inserted d₁ p n name ext2FtDir (.done (some e) d'))
include hnew h hp hlen hland hins

/-- The three entries of `ext2_mkdir`. -/
theorem entryAdded : EntriesAdded d₁ d' {(p, e)} := by
  have hp₁ : IsDirInode d₁ p := hnew.isDirInode.mpr (.inl hp)
  have hc : Contained d₁ p name 0 :=
    (hnew.consistent h hp).contained hp₁ fun _ => .inl (by omega)
  exact hins.oneAdded (hnew.consistent h hp) hp₁.1.1 hc
    ⟨hp₁, hland.2.1, (hnew.lands_iff hp.1).mpr hland.2.2⟩

include hd in
/-- The names stay distinct. -/
theorem namesDistinct_after (hfind : findMatchingEntry d p name = none) : NamesDistinct d' := by
  have hp₁ : IsDirInode d₁ p := hnew.isDirInode.mpr (.inl hp)
  have hc : Contained d₁ p name 0 :=
    (hnew.consistent h hp).contained hp₁ fun _ => .inl (by omega)
  refine hins.namesDistinct (hnew.consistent h hp) hp₁.1.1 hc hlen
    ⟨hp₁, hland.2.1, (hnew.lands_iff hp.1).mpr hland.2.2⟩ (hnew.namesDistinct h hd) ?_
  rw [(hnew.dirsKept p hp).findMatchingEntry_eq h hp name, hfind]

end NewDirAt

end

end Ext2
end OsAssignments
