import OsAssignments.Ext2.CreatedEntry
import OsAssignments.Ext2.NewInode

/-!
# Runs of `ext2_mkdir`

Everything `ext2_mkdir` can do on a consistent image.

* `newDirInode`, `selfDir`, `newDir` — the image after the inode of the directory was allocated,
  after the entry `.` was made in a new block, and after the entry `..`.
* `newDir_allocated` — these steps touch no other inode.
* `MkdirOutcome`, `ConsistentAs.ext2Mkdir_outcome` — the ways the command can go.  The entries of
  the new directory always find room, so the branches that undo the allocation are never taken.
-/

namespace OsAssignments
namespace Ext2

open ByteMemory MachineWord ExitState Ownership

/-! ## The images on the way -/

/-- One directory more in the group descriptor. -/
def countDir (d : Disk) : Disk :=
  { d with groupDesc := { d.groupDesc with
    bgUsedDirsCount := wrap 16 (d.groupDesc.bgUsedDirsCount + 1 : Nat) } }

/-- The image with an inode for a directory. -/
def newDirInode (now : Nat) (d : Disk) (n : Nat) : Disk :=
  countDir (newInode now ext2SIfdir ext2BlockSize d n)

/-- The image with the entry `.` in block `b`. -/
def selfDir (now : Nat) (d : Disk) (n b : Nat) : Disk :=
  newEntry (newDirInode now d n) n 0 b n dot ext2FtDir

/-- The image with the entry `..` in the same block. -/
def newDir (now : Nat) (d : Disk) (n b p : Nat) : Disk :=
  (selfDir now d n b).withData
    (makeEntryInExistingBlock (selfDir now d n b).data (getBlock b) p dotDot ext2FtDir).2

section

variable {pad : Bool} {d d' : Disk} {n b p k mode : Nat} {name : CString}

theorem Allocated.countDir (ha : Allocated d d' n mode k) :
    Allocated d (Ext2.countDir d') n mode k := by
  have hsame : SameAccounts d' (Ext2.countDir d') := ⟨rfl, rfl, rfl, rfl, rfl, rfl, rfl⟩
  have hstored : ∀ r, stored (Ext2.countDir d') r = stored d' r := fun r => by
    cases r with
    | slot m i => rfl
    | indirect m => rfl
  exact ⟨⟨ha.sound.of_same hsame fun r _ => hstored r, ha.layout, fun m hm =>
    ⟨⟨(ha.kept m hm).1.size, (ha.kept m hm).1.slots, (ha.kept m hm).1.bytes⟩, (ha.kept m hm).2⟩,
    ha.stillInUse, ha.indirect, ha.card⟩, ha.free, ha.inUse, ha.mode, ha.links⟩

/-- Bytes written into a block of the new inode. -/
theorem Allocated.withData {d₁ : Disk} (ha : Allocated d d₁ n mode k) {i : Nat} {mem : Memory}
    (hi : i < inodeBlockLimit) (hne : getInodeBlockNumber d₁ n i ≠ 0)
    (hmem : ∀ c, c ≠ getInodeBlockNumber d₁ n i →
      AgreeOn d₁.data mem (getBlock c) ext2BlockSize) :
    Allocated d (d₁.withData mem) n mode k := by
  have hn : ValidInode d₁ n := ((ha.inUse n).mpr (.inr rfl)).1
  have hfoot : Footprint d₁ (d₁.withData mem) ∅ {getInodeBlockNumber d₁ n i} :=
    withData_footprint d₁ hmem
  refine ⟨⟨ha.sound.writtenData (fun m hm hmne => ha.sound.slot_ne_indirect hn hi hm hmne) hmem,
    ha.layout, fun m hm => ?_, ha.stillInUse, ha.indirect, ha.card⟩, ha.free, ha.inUse, ha.mode,
    ha.links⟩
  have hmn : m ≠ n := fun heq => not_inodeInUse_of_free ha.free (heq ▸ hm)
  have hm₁ := (ha.stillInUse m hm).1
  refine ⟨(ha.kept m hm).1.trans (hfoot.sameFile (Set.notMem_empty _)
    (Set.disjoint_left.mpr fun c hcm hcb => ?_)), (ha.kept m hm).2⟩
  rw [Set.mem_singleton_iff.mp hcb] at hcm
  exact Set.disjoint_left.mp (ha.sound.disjoint_blocksOf hm₁ hn hmn) hcm (mem_blocksOf_slot hi hne)

theorem Sound.newDirInode_allocated (h : Sound d) (now : Nat) (hn : n ∈ freeInodes d) :
    Allocated d (newDirInode now d n) n ext2SIfdir 0 := by
  have ha := h.newInode_allocated now ext2SIfdir ext2BlockSize hn
  rw [newDirInode]
  exact ha.countDir

theorem freeBlocks_countDir (d : Disk) : freeBlocks (countDir d) = freeBlocks d := rfl

theorem getInodeBlockNumber_countDir (d : Disk) (n i : Nat) :
    getInodeBlockNumber (countDir d) n i = getInodeBlockNumber d n i := rfl

theorem freeBlocks_newDirInode (now : Nat) (d : Disk) (n : Nat) :
    freeBlocks (newDirInode now d n) = freeBlocks d := by
  rw [newDirInode, freeBlocks_countDir, freeBlocks_newInode]

theorem getInodeBlockNumber_newDirInode (now : Nat) (d : Disk) (n i : Nat) :
    getInodeBlockNumber (newDirInode now d n) n i = 0 := by
  rw [newDirInode, getInodeBlockNumber_countDir]
  exact getInodeBlockNumber_newInode now ext2SIfdir ext2BlockSize d n i

theorem Sound.selfDir_allocated (h : Sound d) (now : Nat) (hn : n ∈ freeInodes d)
    (hb : b ∈ freeBlocks d) : Allocated d (selfDir now d n b) n ext2SIfdir 1 := by
  have ha := h.newDirInode_allocated now hn
  have hb' : b ∈ freeBlocks (newDirInode now d n) := by
    rw [freeBlocks_newDirInode]
    exact hb
  rw [selfDir, newEntry]
  exact ha.withBlock 0 hb' fun c hc =>
    makeFirstEntry_agreeOn _ _ _ (fun heq => hc heq.symm) (by decide)

/-- Slot 0 of the new directory has the block, the others are empty. -/
theorem getInodeBlockNumber_selfDir (h : Sound d) (now : Nat) (hn : n ∈ freeInodes d)
    (hb : b ∈ freeBlocks d) (i : Nat) :
    getInodeBlockNumber (selfDir now d n b) n i = if i = 0 then b else 0 := by
  have ha := h.newDirInode_allocated now hn
  have hvalid : ValidInode (newDirInode now d n) n := ((ha.inUse n).mpr (.inr rfl)).1
  have hb' : b ∈ freeBlocks (newDirInode now d n) := by
    rw [freeBlocks_newDirInode]
    exact hb
  have hatt : Attachable (newDirInode now d n) n 0 := .inl (by decide)
  rw [selfDir, ha.sound.getInodeBlockNumber_newEntry n ext2FtDir 0 hvalid hb' (by decide),
    getInodeBlockNumber_newDirInode now d n]
  simp only [hatt, and_true]

/-- The block with the entry `.` has room for `..`. -/
theorem selfDir_room (now : Nat) (d : Disk) (n b p : Nat) :
    ∃ r, (makeEntryInExistingBlock (selfDir now d n b).data (getBlock b) p dotDot ext2FtDir).1
      = some r := by
  have hT : TiledBy true (selfDir now d n b).data (getBlock b) [getBlock b] :=
    tiledBy_makeFirstEntry _ _ _ _ _ true
  have hnl : entryNameLen (selfDir now d n b).data (getBlock b) = 1 :=
    entryNameLen_makeFirstEntry _ _ _ _ _
  have hrec : entryRecLen (selfDir now d n b).data (getBlock b) = 1024 := by
    obtain ⟨-, -, -, htail⟩ := hT
    rw [RecordTiling.tiles_nil, ext2BlockSize_eq] at htail
    omega
  have hroom : HasRoom (selfDir now d n b).data (getBlock b) (wrap 8 dotDot.length) := by
    rw [HasRoom, hnl, hrec]
    decide
  cases hres : (makeEntryInExistingBlock (selfDir now d n b).data (getBlock b) p dotDot
    ext2FtDir).1 with
  | some r => exact ⟨r, rfl⟩
  | none =>
    have hno := hT.tiled.refuses_iff.mp hres (getBlock b)
    rw [hT.blockEntries_eq] at hno
    exact absurd (.inl hroom) (hno (List.mem_singleton.mpr rfl))

/-- `make_entry_in_inode` for the entry `.`. -/
theorem Sound.makeSelf_cases (h : Sound d) (now : Nat) (hn : n ∈ freeInodes d) :
    (freeBlocks d = ∅ ∧ makeEntryInInode n n dot ext2FtDir (newDirInode now d n)
      = .exit 1 (newDirInode now d n)) ∨
    ∃ b ∈ freeBlocks d, makeEntryInInode n n dot ext2FtDir (newDirInode now d n)
      = .done (some (getBlock b)) (selfDir now d n b) := by
  have ha := h.newDirInode_allocated now hn
  have hvalid : ValidInode (newDirInode now d n) n := ((ha.inUse n).mpr (.inr rfl)).1
  have hempty := getInodeBlockNumber_newDirInode now d n
  have hins := ha.sound.makeEntryInInode_cases hvalid n dot ext2FtDir
  rw [← freeBlocks_newDirInode now d n]
  generalize makeEntryInInode n n dot ext2FtDir (newDirInode now d n) = o at hins
  cases hins with
  | placed _ _ hne => exact absurd (hempty _) hne
  | full _ hfree => exact .inl ⟨hfree, rfl⟩
  | overrun _ _ hlong => exact absurd hlong (by decide)
  | @newBlock i b _ hfirst hb =>
    obtain rfl : i = 0 := by
      by_contra hi
      exact hfirst.before 0 (by omega) (hempty 0)
    exact .inr ⟨b, hb, rfl⟩

/-- The entry `..` always finds room. -/
theorem Sound.makeParent_done (h : Sound d) (now : Nat) (hn : n ∈ freeInodes d)
    (hb : b ∈ freeBlocks d) (p : Nat) : ∃ r, makeEntryInInode n p dotDot ext2FtDir (selfDir now d n b)
      = .done (some r) (newDir now d n b p) := by
  have hslots := getInodeBlockNumber_selfDir h now hn hb
  have hzero : getInodeBlockNumber (selfDir now d n b) n 0 = b := by rw [hslots, if_pos rfl]
  have hbne : b ≠ 0 := by
    have := (mem_freeBlocks.mp hb).1
    omega
  obtain ⟨r, hroom⟩ := selfDir_room now d n b p
  cases hplace : entryPlace (selfDir now d n b) n dotDot with
  | none =>
    have href := refused_of_no_place hplace p ext2FtDir 0 (by decide)
    rw [Refused, hzero, hroom] at href
    rcases href with hnone | hnone
    · exact absurd hnone hbne
    · cases hnone
  | some r' =>
    obtain ⟨i, mem, hi, hne, hmake, hrun⟩ := makeEntryInInode_of_place hplace p ext2FtDir
    rw [hslots] at hne hmake
    have hi0 : i = 0 := by
      by_contra hi0
      rw [if_neg hi0] at hne
      exact hne rfl
    rw [if_pos hi0] at hmake
    refine ⟨r', ?_⟩
    rw [hrun, newDir, hmake]

theorem Sound.newDir_allocated (h : Sound d) (now : Nat) (hn : n ∈ freeInodes d)
    (hb : b ∈ freeBlocks d) (p : Nat) : Allocated d (newDir now d n b p) n ext2SIfdir 1 := by
  have ha := h.selfDir_allocated now hn hb
  have hslots := getInodeBlockNumber_selfDir h now hn hb 0
  rw [if_pos rfl] at hslots
  have hbne : b ≠ 0 := by
    have := (mem_freeBlocks.mp hb).1
    omega
  have hT : Tiled (selfDir now d n b).data (getBlock b) :=
    (tiledBy_makeFirstEntry _ _ _ _ _ true).tiled
  obtain ⟨r, hroom⟩ := selfDir_room now d n b p
  have hmake : makeEntryInExistingBlock (selfDir now d n b).data (getBlock b) p dotDot ext2FtDir
      = (some r, (makeEntryInExistingBlock (selfDir now d n b).data (getBlock b) p dotDot
        ext2FtDir).2) := Prod.ext hroom rfl
  have hins := hT.insertion hmake
  rw [newDir]
  refine ha.withData (i := 0) (by decide) (by rwa [hslots]) fun c hc => hins.frame ?_
  rw [hslots] at hc
  have hdisj := block_disjoint hc
  omega

/-! ## The command -/

/-- How `ext2_mkdir` can go, once its path has been checked, for a parent with the inode `p`. -/
inductive MkdirOutcome (d : Disk) (now p : Nat) (name : CString) : Outcome Disk Unit → Prop
  | noInode : freeInodes d = ∅ → MkdirOutcome d now p name (.exit 1 d)
  | noBlock {n : Nat} : n ∈ freeInodes d → freeBlocks d = ∅ →
      MkdirOutcome d now p name (.exit 1 (newDirInode now d n))
  | entryFull {n b : Nat} : n ∈ freeInodes d → b ∈ freeBlocks d →
      entryPlace (newDir now d n b p) p name = none → freeBlocks (newDir now d n b p) = ∅ →
      MkdirOutcome d now p name (.exit 1 (newDir now d n b p))
  | overrun {n b : Nat} : n ∈ freeInodes d → b ∈ freeBlocks d →
      Inserted (newDir now d n b p) p n name ext2FtDir .crash → MkdirOutcome d now p name .crash
  | made {n b r : Nat} {d' : Disk} : n ∈ freeInodes d → b ∈ freeBlocks d →
      Inserted (newDir now d n b p) p n name ext2FtDir (.done (some r) d') →
      MkdirOutcome d now p name (.done () d')

theorem allocateDirInode_cases (h : Counted d) (now : Nat) :
    (freeInodes d = ∅ ∧ allocateDirInode now d = .exit 1 d) ∨
    ∃ n ∈ freeInodes d, allocateDirInode now d = .done n (newDirInode now d n) := by
  rw [allocateDirInode]
  rcases h.allocateTypedInode_cases now ext2SIfdir ext2BlockSize with
    ⟨hnone, hexit⟩ | ⟨n, hn, -, hdone⟩
  · exact .inl ⟨hnone, Command.bind_of_exit hexit⟩
  · refine .inr ⟨n, hn, ?_⟩
    rw [Command.bind_of_done hdone, Command.bind_of_done (Command.modify_apply _ _), newDirInode,
      countDir]
    rfl

/-- **Everything `ext2_mkdir` can do behind its checks.** -/
theorem ConsistentAs.makeDirectory_outcome (h : ConsistentAs pad d) (now : Nat) {pe m : Nat}
    (hl : LiveIn d m pe) (name : CString) :
    MkdirOutcome d now (entryInode d.data pe) name (makeDirectory now pe name d) := by
  rw [makeDirectory]
  rcases allocateDirInode_cases h.sound.toCounted now with ⟨hnone, hexit⟩ | ⟨n, hn, hdone⟩
  · rw [Command.bind_of_exit hexit]
    exact .noInode hnone
  · rw [Command.bind_of_done hdone]
    rcases h.sound.makeSelf_cases now hn with ⟨hnone, hexit⟩ | ⟨b, hb, hself⟩
    · rw [Command.bind_of_exit hexit]
      exact .noBlock hn hnone
    · have hpre := (h.sound.selfDir_allocated now hn hb).toPrepared
      have hnew := (h.sound.newDir_allocated now hn hb (entryInode d.data pe)).toPrepared
      obtain ⟨r, hparent⟩ := h.sound.makeParent_done now hn hb (entryInode d.data pe)
      rw [Command.bind_of_done hself, if_neg (Option.some_ne_none _),
        Command.bind_of_done (Command.get_apply _), hpre.entryInode_eq h hl,
        Command.bind_of_done hparent, if_neg (Option.some_ne_none _),
        Command.bind_of_done (Command.get_apply _), hnew.entryInode_eq h hl]
      have hp := (hnew.stillInUse _ (h.names m pe hl).1).1
      have hins := hnew.sound.makeEntryInInode_cases hp n name ext2FtDir
      cases hput : makeEntryInInode (entryInode d.data pe) n name ext2FtDir
          (newDir now d n b (entryInode d.data pe)) with
      | done attempt d' =>
        rw [hput] at hins
        rw [Command.bind_of_done hput]
        cases hins with
        | placed hplace hi hne hmake =>
          rw [if_neg (Option.some_ne_none _)]
          exact .made hn hb (.placed hplace hi hne hmake)
        | newBlock hplace hfirst hfresh =>
          rw [if_neg (Option.some_ne_none _)]
          exact .made hn hb (.newBlock hplace hfirst hfresh)
      | exit status d' =>
        rw [hput] at hins
        rw [Command.bind_of_exit hput]
        cases hins with
        | full hplace hfree => exact .entryFull hn hb hplace hfree
      | crash =>
        rw [hput] at hins
        rw [Command.bind_of_crash hput]
        exact .overrun hn hb hins

/-- The path of `ext2_mkdir` has passed the checks: its parent is the directory with the entry
`parentEntry`, and the path leads to nothing. -/
structure MkdirPath (d : Disk) (path : CString) (parentEntry : Nat) : Prop where
  parent : traversePath d (splitPath path).dropLast = some parentEntry
  dir : isDirectory d (some parentEntry) = true
  absent : traversePath d (splitPath path) = none

theorem ext2Mkdir_cases (d : Disk) (now : Nat) (path : CString) :
    (∃ status, ext2Mkdir now path d = .exit status d ∧ ∀ pe, ¬ MkdirPath d path pe) ∨
    ∃ pe, MkdirPath d path pe ∧
      ext2Mkdir now path d = makeDirectory now pe (lastComponent path) d := by
  rw [ext2Mkdir, Command.bind_of_done (Command.get_apply d)]
  by_cases hroot : (splitPath path).dropLast = []
  · refine .inl ⟨eExist, by rw [if_pos hroot]; rfl, fun pe h => ?_⟩
    have hparent := h.parent
    rw [hroot, traversePath, traverseFrom] at hparent
    cases hparent
  · rw [if_neg hroot]
    cases hparent : traversePath d (splitPath path).dropLast with
    | none =>
      refine .inl ⟨eNoEnt, rfl, fun pe h => ?_⟩
      cases hparent.symm.trans h.parent
    | some pe =>
      dsimp only
      by_cases hdir : isDirectory d (some pe) = false
      · refine .inl ⟨eNoEnt, by rw [if_pos hdir]; rfl, fun pe' h => ?_⟩
        cases hparent.symm.trans h.parent
        exact absurd h.dir (by rw [hdir]; decide)
      · rw [if_neg hdir]
        cases hpath : traversePath d (splitPath path) with
        | some e =>
          refine .inl ⟨eExist, by rw [if_pos (Option.some_ne_none _)]; rfl, fun pe' h => ?_⟩
          cases hpath.symm.trans h.absent
        | none =>
          refine .inr ⟨pe, ⟨hparent, Bool.of_not_eq_false hdir, hpath⟩, ?_⟩
          rw [if_neg (not_not.mpr rfl)]
          rfl

/-- The parent of a path is an entry in use. -/
theorem MkdirPath.live {path : CString} {pe : Nat} (h : ConsistentAs pad d)
    (hpath : MkdirPath d path pe) : ∃ m, LiveIn d m pe :=
  h.traversePath_live (fun c hc => splitPath_ne_nil path c (List.mem_of_mem_dropLast hc)) hpath.parent

/-- The parent of a path is a directory. -/
theorem MkdirPath.parent_isDirInode {path : CString} {pe : Nat} (h : ConsistentAs pad d)
    (hpath : MkdirPath d path pe) : IsDirInode d (entryInode d.data pe) := by
  obtain ⟨m, hl⟩ := hpath.live h
  exact (h.names m pe hl).2.mp ((isDirectory_some d pe).mp hpath.dir)

end

end Ext2
end OsAssignments
