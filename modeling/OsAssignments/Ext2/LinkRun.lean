import OsAssignments.Ext2.Insert

/-!
# Runs of `ext2_ln`

Everything `ext2_ln` can do on a sound image.

* `LinkPaths` — the two paths have passed the checks.
* `ext2Ln_cases` — either they have not, and the command exits with the image as it was, or
  `make_entry_in_inode` decides.
* `LinkOutcome`, `Sound.makeLink_outcome` — the ways the second part can go.
* `symlinkInode`, `symlink` — the image after the inode of a symbolic link was allocated,
  and after the path was written.
-/

namespace OsAssignments
namespace Ext2

open ByteMemory MachineWord ExitState Ownership

/-! ## The checks -/

/-- The paths of `ext2_ln` have passed the checks: they lead to `srcEntry` and to nothing,
and the parent of the destination has the entry `parentEntry`. -/
structure LinkPaths (d : Disk) (source dest : CString) (srcEntry parentEntry : Nat) : Prop where
  src : traversePath d (splitPath source) = some srcEntry
  notDir : isDirectory d (some srcEntry) = false
  absent : traversePath d (splitPath dest) = none
  parent : traversePath d (splitPath dest).dropLast = some parentEntry

/-- The last component of a path. -/
def lastComponent (path : CString) : CString := (splitPath path).getLastD []

/-- The second part of `ext2_ln`. -/
def finishLink (now : Nat) (source : CString) (srcEntry parentEntry : Nat) (name : CString)
    (isSymLink : Bool) : Command Unit := do
  let attempt ← makeLink now source srcEntry parentEntry name isSymLink
  if attempt = none then Command.exit 1
  else pure ()

theorem ext2Ln_cases (d : Disk) (now : Nat) (source dest : CString) (isSymLink : Bool) :
    (∃ status, ext2Ln now source dest isSymLink d = .exit status d ∧
      ∀ srcEntry parentEntry, ¬ LinkPaths d source dest srcEntry parentEntry) ∨
    ∃ srcEntry parentEntry, LinkPaths d source dest srcEntry parentEntry ∧
      ext2Ln now source dest isSymLink d = finishLink now (afterStrtok source) srcEntry parentEntry
        (lastComponent dest) isSymLink d := by
  rw [ext2Ln, Command.bind_of_done (Command.get_apply d)]
  cases hsrc : traversePath d (splitPath source) with
  | none => exact .inl ⟨eNoEnt, rfl, fun s p h => nomatch hsrc.symm.trans h.src⟩
  | some srcEntry =>
    dsimp only
    by_cases hsrcDir : isDirectory d (some srcEntry) = true
    · refine .inl ⟨eIsDir, by rw [if_pos hsrcDir]; rfl, fun s p h => ?_⟩
      have heq := Option.some.inj (hsrc.symm.trans h.src)
      rw [heq, h.notDir] at hsrcDir
      cases hsrcDir
    · rw [if_neg hsrcDir]
      cases hdst : traversePath d (splitPath dest) with
      | some dstEntry =>
        refine .inl ?_
        by_cases hdstDir : isDirectory d (some dstEntry) = true
        · exact ⟨eIsDir, by rw [if_pos hdstDir]; rfl, fun s p h => nomatch hdst.symm.trans h.absent⟩
        · exact ⟨eExist, by rw [if_neg hdstDir]; rfl, fun s p h => nomatch hdst.symm.trans h.absent⟩
      | none =>
        rw [if_neg (by simp [isDirectory]), if_neg (by simp)]
        cases hparent : traversePath d (splitPath dest).dropLast with
        | none => exact .inl ⟨eExist, rfl, fun s p h => nomatch hparent.symm.trans h.parent⟩
        | some parentEntry =>
          exact .inr ⟨srcEntry, parentEntry,
            ⟨hsrc, Bool.of_not_eq_true hsrcDir, hdst, hparent⟩, rfl⟩

/-! ## The second part -/

/-- One link more. -/
def addLink (d : Disk) (n : Nat) : Disk :=
  d.modifyInode n fun i => { i with iLinksCount := wrap 16 (i.iLinksCount + 1 : Nat) }

/-- The image with an inode for a symbolic link. -/
def symlinkInode (now : Nat) (source : CString) (d : Disk) (n : Nat) : Disk :=
  newInode now ext2SIflnk (wrap 32 source.length) d n

/-- The image with the path in block `b` of that inode. -/
def symlink (now : Nat) (source : CString) (d : Disk) (n b : Nat) : Disk :=
  (attachBlock (symlinkInode now source d n) n 0 b).withData
    (writeBytes (attachBlock (symlinkInode now source d n) n 0 b).data (getBlock b) (source ++ [0]))

/-- How the second part can go, for a parent with the inode `p`. -/
inductive LinkOutcome (d : Disk) (now : Nat) (source : CString) (srcEntry p : Nat) (name : CString) :
    Bool → Outcome Disk Unit → Prop
  | hard {r : Nat} {d' : Disk} :
      Inserted d p (entryInode d.data srcEntry) name ext2FtRegFile (.done (some r) d') →
      LinkOutcome d now source srcEntry p name false
        (.done () (addLink d' (entryInode d'.data srcEntry)))
  | hardFull : entryPlace d p name = none → freeBlocks d = ∅ →
      LinkOutcome d now source srcEntry p name false (.exit 1 d)
  | hardOverrun : Inserted d p (entryInode d.data srcEntry) name ext2FtRegFile .crash →
      LinkOutcome d now source srcEntry p name false .crash
  | noInode : freeInodes d = ∅ → LinkOutcome d now source srcEntry p name true (.exit 1 d)
  | tooLong {n : Nat} : n ∈ freeInodes d → lastReservedInode < n → ext2BlockSize ≤ source.length →
      LinkOutcome d now source srcEntry p name true
        (.exit eNameTooLong (symlinkInode now source d n))
  | noBlock {n : Nat} : n ∈ freeInodes d → lastReservedInode < n → source.length < ext2BlockSize →
      freeBlocks d = ∅ →
      LinkOutcome d now source srcEntry p name true (.exit 1 (symlinkInode now source d n))
  | symFull {n b : Nat} : n ∈ freeInodes d → lastReservedInode < n →
      source.length < ext2BlockSize → b ∈ freeBlocks d →
      entryPlace (symlink now source d n b) p name = none →
      freeBlocks (symlink now source d n b) = ∅ →
      LinkOutcome d now source srcEntry p name true (.exit 1 (symlink now source d n b))
  | symOverrun {n b : Nat} : n ∈ freeInodes d → lastReservedInode < n →
      source.length < ext2BlockSize → b ∈ freeBlocks d →
      Inserted (symlink now source d n b) p n name ext2FtSymlink .crash →
      LinkOutcome d now source srcEntry p name true .crash
  | sym {n b r : Nat} {d' : Disk} : n ∈ freeInodes d → lastReservedInode < n →
      source.length < ext2BlockSize → b ∈ freeBlocks d →
      Inserted (symlink now source d n b) p n name ext2FtSymlink (.done (some r) d') →
      LinkOutcome d now source srcEntry p name true (.done () d')

section

variable {d : Disk}

theorem freeBlocks_newInode (now mode size : Nat) (d : Disk) (n : Nat) :
    freeBlocks (newInode now mode size d n) = freeBlocks d :=
  (modifyInode_sameAccounts (claimInode d n) n _).freeBlocks_eq.trans freeBlocks_claimInode

theorem getInodeBlockNumber_newInode (now mode size : Nat) (d : Disk) (n i : Nat) :
    getInodeBlockNumber (newInode now mode size d n) n i = 0 := by
  have hsame := stored_modifyInode (claimInode d n) n (fun i => { i with
    iMode := mode
    iSize := size
    iCtime := now
    iDtime := 0
    iBlocks := 0
    iLinksCount := 1 }) (fun _ => rfl) (.slot n i)
  exact hsame.trans (getInodeBlockNumber_claimInode d n i)

theorem getInodeBlockNumber_attachBlock_self (h : Sound d) {n i b : Nat} (hn : ValidInode d n)
    (hb : b ∈ freeBlocks d) (hatt : Attachable d n i) :
    getInodeBlockNumber (attachBlock d n i b) n i = b := by
  have hword := (h.toCounted.free_bounds hb).2.2.1
  have hind : indirectBlock d n ≠ 0 → indirectBlock d n ≠ b := fun _ =>
    h.stored_ne_of_free hb (r := .indirect n) hn
  rw [getInodeBlockNumber_attachBlock hword hind, if_pos ⟨rfl, hatt⟩]

theorem writeBytes_block_agreeOn (mem : Memory) {b c : Nat} {bs : List UInt8} (hcb : c ≠ b)
    (hlen : bs.length ≤ ext2BlockSize) :
    AgreeOn mem (writeBytes mem (getBlock b) bs) (getBlock c) ext2BlockSize := by
  refine writeBytes_of_disjoint _ _ _ ?_
  have hdisj : getBlock c + ext2BlockSize ≤ getBlock b ∨ getBlock b + ext2BlockSize ≤ getBlock c :=
    block_disjoint hcb
  omega

theorem symlink_layout (now : Nat) (source : CString) (d : Disk) (n b : Nat) :
    (symlink now source d n b).layout = d.layout := by
  rw [symlink, withData_layout, attachBlock_layout]
  exact newInode_layout now ext2SIflnk _ d n

theorem Sound.withSymlink (h : Sound d) (now : Nat) {source : CString} {n b : Nat}
    (hn : n ∈ freeInodes d) (hlen : source.length < ext2BlockSize) (hb : b ∈ freeBlocks d) :
    Sound (symlink now source d n b) := by
  have hvalid := (mem_freeInodes.mp hn).1
  have hnode : Sound (symlinkInode now source d n) := h.withNewInode now ext2SIflnk _ hn
  have hlayout : (symlinkInode now source d n).layout = d.layout := newInode_layout now ext2SIflnk _ d n
  have hvalid₁ := (validInode_of_layout hlayout).mpr hvalid
  have hb₁ : b ∈ freeBlocks (symlinkInode now source d n) := by
    rw [symlinkInode, freeBlocks_newInode]
    exact hb
  have hatt : Sound (attachBlock (symlinkInode now source d n) n 0 b) :=
    hnode.attachedBlock 0 hvalid₁ hb₁
  have hvalid₂ := (validInode_of_layout (attachBlock_layout (symlinkInode now source d n) n 0 b)).mpr
    hvalid₁
  have hslot := getInodeBlockNumber_attachBlock_self (i := 0) hnode hvalid₁ hb₁ (.inl (by decide))
  refine hatt.writtenData (fun m hm hne => ?_)
    fun c hc => writeBytes_block_agreeOn _ hc (by simpa using hlen)
  have := hatt.slot_ne_indirect hvalid₂ (show 0 < inodeBlockLimit by decide) hm hne
  rwa [hslot] at this

/-- `write_path_to_symlink_inode`, for an inode that was just allocated. -/
theorem Sound.writePath_cases (h : Sound d) (now : Nat) (source : CString) {n : Nat}
    (hn : n ∈ freeInodes d) :
    (ext2BlockSize ≤ source.length ∧
      writePathToSymlinkInode n source (symlinkInode now source d n)
        = .exit eNameTooLong (symlinkInode now source d n)) ∨
    source.length < ext2BlockSize ∧
      ((freeBlocks d = ∅ ∧ writePathToSymlinkInode n source (symlinkInode now source d n)
        = .exit 1 (symlinkInode now source d n)) ∨
      ∃ b ∈ freeBlocks d, writePathToSymlinkInode n source (symlinkInode now source d n)
        = .done () (symlink now source d n b)) := by
  have hvalid := (mem_freeInodes.mp hn).1
  have hnode : Sound (symlinkInode now source d n) := h.withNewInode now ext2SIflnk _ hn
  have hempty : getInodeBlockNumber (symlinkInode now source d n) n 0 = 0 :=
    getInodeBlockNumber_newInode now ext2SIflnk _ d n 0
  have hfree : freeBlocks (symlinkInode now source d n) = freeBlocks d :=
    freeBlocks_newInode now ext2SIflnk _ d n
  rw [writePathToSymlinkInode]
  by_cases hlen : source.length < ext2BlockSize
  · refine .inr ⟨hlen, ?_⟩
    rw [if_pos hlen]
    rcases hnode.toCounted.allocateBlockOnInode_cases n 0 with
      ⟨hne, -⟩ | ⟨hnone, hexit⟩ | ⟨b, hb, hdone⟩
    · exact absurd hempty hne
    · exact .inl ⟨hfree ▸ hnone, Command.bind_of_exit hexit⟩
    · exact .inr ⟨b, hfree ▸ hb, Command.bind_of_done hdone⟩
  · refine .inl ⟨by omega, ?_⟩
    rw [if_neg hlen]
    rfl

theorem makeLink_hard (now : Nat) (source : CString) (srcEntry parentEntry : Nat) (name : CString) :
    makeLink now source srcEntry parentEntry name false d = (do
      let attempt ← makeEntryInInode (entryInode d.data parentEntry) (entryInode d.data srcEntry)
        name ext2FtRegFile
      Command.modify fun d' => addLink d' (entryInode d'.data srcEntry)
      pure attempt : Command (Option Nat)) d := rfl

theorem makeLink_sym (now : Nat) (source : CString) (srcEntry parentEntry : Nat) (name : CString) :
    makeLink now source srcEntry parentEntry name true d = (do
      let symInodeNum ← allocateLinkInode now source
      writePathToSymlinkInode symInodeNum source
      let attempt ← makeEntryInInode (entryInode d.data parentEntry) symInodeNum name ext2FtSymlink
      if attempt = none then
        Command.modify fun d => freeInode now d symInodeNum
      pure attempt : Command (Option Nat)) d := rfl

/-- **Everything the second part of `ext2_ln` can do.** -/
theorem Sound.finishLink_outcome (h : Sound d) (now : Nat) (source : CString)
    (srcEntry parentEntry : Nat) (name : CString) (isSymLink : Bool)
    (hp : ValidInode d (entryInode d.data parentEntry)) :
    LinkOutcome d now source srcEntry (entryInode d.data parentEntry) name isSymLink
      (finishLink now source srcEntry parentEntry name isSymLink d) := by
  rw [finishLink]
  cases isSymLink with
  | false =>
    have hins := h.makeEntryInInode_cases hp (entryInode d.data srcEntry) name ext2FtRegFile
    have hmake := makeLink_hard (d := d) now source srcEntry parentEntry name
    cases hres : makeEntryInInode (entryInode d.data parentEntry) (entryInode d.data srcEntry) name
        ext2FtRegFile d with
    | done attempt d' =>
      rw [hres] at hins
      rw [Command.bind_of_done hres, Command.bind_of_done (Command.modify_apply _ _)] at hmake
      rw [Command.bind_of_done hmake]
      cases hins with
      | placed hplace hi hne hput => exact .hard (.placed hplace hi hne hput)
      | newBlock hplace hfirst hb => exact .hard (.newBlock hplace hfirst hb)
    | exit status d' =>
      rw [hres] at hins
      rw [Command.bind_of_exit hres] at hmake
      rw [Command.bind_of_exit hmake]
      cases hins with
      | full hplace hfree => exact .hardFull hplace hfree
    | crash =>
      rw [Command.bind_of_crash hres] at hmake
      rw [Command.bind_of_crash hmake]
      exact .hardOverrun (hres ▸ hins)
  | true =>
    have hmake := makeLink_sym (d := d) now source srcEntry parentEntry name
    rcases h.toCounted.allocateTypedInode_cases now ext2SIflnk (wrap 32 source.length) with
      ⟨hnone, hexit⟩ | ⟨n, hn, hres, hdone⟩
    · rw [Command.bind_of_exit (x := allocateLinkInode now source) hexit] at hmake
      rw [Command.bind_of_exit hmake]
      exact .noInode hnone
    · rw [Command.bind_of_done (x := allocateLinkInode now source) hdone] at hmake
      rcases h.writePath_cases now source hn with
        ⟨hlong, hexit⟩ | ⟨hshort, ⟨hnone, hexit⟩ | ⟨b, hb, hdone⟩⟩
      · rw [← symlinkInode, Command.bind_of_exit hexit] at hmake
        rw [Command.bind_of_exit hmake]
        exact .tooLong hn hres hlong
      · rw [← symlinkInode, Command.bind_of_exit hexit] at hmake
        rw [Command.bind_of_exit hmake]
        exact .noBlock hn hres hshort hnone
      · rw [← symlinkInode, Command.bind_of_done hdone] at hmake
        have hp' : ValidInode (symlink now source d n b) (entryInode d.data parentEntry) :=
          (validInode_of_layout (symlink_layout now source d n b)).mpr hp
        have hins := (h.withSymlink now hn hshort hb).makeEntryInInode_cases hp' n name ext2FtSymlink
        cases hput : makeEntryInInode (entryInode d.data parentEntry) n name ext2FtSymlink
            (symlink now source d n b) with
        | done attempt d' =>
          rw [hput] at hins
          rw [Command.bind_of_done hput] at hmake
          cases hins with
          | placed hplace hi hne hmem =>
            rw [Command.bind_of_done hmake]
            exact .sym hn hres hshort hb (.placed hplace hi hne hmem)
          | newBlock hplace hfirst hfresh =>
            rw [Command.bind_of_done hmake]
            exact .sym hn hres hshort hb (.newBlock hplace hfirst hfresh)
        | exit status d' =>
          rw [hput] at hins
          rw [Command.bind_of_exit hput] at hmake
          rw [Command.bind_of_exit hmake]
          cases hins with
          | full hplace hfree => exact .symFull hn hres hshort hb hplace hfree
        | crash =>
          rw [Command.bind_of_crash hput] at hmake
          rw [Command.bind_of_crash hmake]
          exact .symOverrun hn hres hshort hb (hput ▸ hins)

end

end Ext2
end OsAssignments
