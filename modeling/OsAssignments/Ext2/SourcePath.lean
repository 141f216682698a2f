import OsAssignments.Ext2.ExitStatus
import OsAssignments.Ext2.FailedCommands
import OsAssignments.Lib.Strtok

/-!
# The source path after `split_path`

`ext2_ln` and `ext2_cp` split their source path and use the same string again afterwards.
`split_path` calls `strtok`, which writes into that string.

* `splitPath_strtok` — `splitPath` and `afterStrtok` are what the calls of `strtok` on the
  path collect and leave behind.
* `LinkStores`, `Opens` — the string a symbolic link holds, and the string `ext2_cp` hands
  to `fopen`.
* `source_kept_iff` — both are the source path exactly if no separator follows its first
  component.
-/

namespace OsAssignments
namespace Ext2

open ByteMemory MachineWord ExitState Strtok

/-! ## `split_path` -/

/-- The pointers that `split_path` collects, and the buffer it leaves. -/
def strtokPath (path : CString) : List Nat × CString := strtokAll slash (path.length + 1) path 0

/-- The components are read after the last call of `strtok`. -/
theorem splitPath_strtok {path : CString} (h : (0 : UInt8) ∉ path) :
    splitPath path = dot :: (strtokPath path).1.map (text (strtokPath path).2) ∧
      afterStrtok path = text (strtokPath path).2 0 := by
  obtain ⟨htokens, hfirst⟩ := strtokAll_eq slash h
  refine ⟨?_, hfirst.symm⟩
  rw [strtokPath, htokens]
  rfl

/-- No separator follows the first component. -/
def OneComponent (path : CString) : Prop := slash ∉ path.dropWhile fun c => decide (c = slash)

instance (path : CString) : Decidable (OneComponent path) := inferInstanceAs (Decidable (_ ∉ _))

theorem afterStrtok_eq_self_iff {path : CString} : afterStrtok path = path ↔ OneComponent path :=
  firstPart_eq_self_iff

section

variable {d d' : Disk}

/-! ## The stored path -/

/-- The only new inode of `d₁` is `n`; it records the length of this path, and its first block
holds the path. -/
structure HoldsPath (d d₁ : Disk) (n : Nat) (path : CString) : Prop where
  new : ∀ m, InodeInUse d₁ m ∧ ¬ InodeInUse d m ↔ m = n
  size : (d₁.inodeTable n).iSize = path.length
  bytes : readBytes d₁.data (path.length + 1) (getBlock (getInodeBlockNumber d₁ n 0)) = path ++ [0]

/-- A run of `ext2_ln` from `d` to `d'` has stored this path in the new inode for which it then
made the entry. -/
def LinkStores (d : Disk) (dest : CString) (d' : Disk) (path : CString) : Prop :=
  ∃ parentEntry n r d₁, traversePath d (splitPath dest).dropLast = some parentEntry ∧
    HoldsPath d d₁ n path ∧
    makeEntryInInode (entryInode d.data parentEntry) n (lastComponent dest) ext2FtSymlink d₁
      = .done (some r) d'

theorem Sound.symlink_holdsPath (h : Sound d) (now : Nat) {source : CString} {n b : Nat}
    (hn : n ∈ freeInodes d) (hlen : source.length < ext2BlockSize) (hb : b ∈ freeBlocks d) :
    HoldsPath d (symlink now source d n b) n source := by
  have ha := h.symlink_allocated now hn hlen hb
  have hnot := not_inodeInUse_of_free hn
  have hvalid := (mem_freeInodes.mp hn).1
  have hnode : Sound (symlinkInode now source d n) := h.withNewInode now ext2SIflnk _ hn
  have hvalid₁ : ValidInode (symlinkInode now source d n) n :=
    (validInode_of_layout (newInode_layout now ext2SIflnk _ d n)).mpr hvalid
  have hb₁ : b ∈ freeBlocks (symlinkInode now source d n) := by
    rw [symlinkInode, freeBlocks_newInode]
    exact hb
  refine ⟨fun m => ⟨fun hm => ?_, ?_⟩, ?_, ?_⟩
  · exact ((ha.inUse m).mp hm.1).resolve_left hm.2
  · rintro rfl
    exact ⟨(ha.inUse m).mpr (.inr rfl), hnot⟩
  · obtain ⟨_, _, hinode⟩ := attachBlock_inode (symlinkInode now source d n) n 0 b n
    have hsize : ((symlink now source d n b).inodeTable n).iSize
        = ((symlinkInode now source d n).inodeTable n).iSize := by
      rw [symlink, withData_inodeTable, hinode]
    have hword : source.length < 2 ^ 32 := by
      rw [ext2BlockSize_eq] at hlen
      omega
    rw [hsize, symlinkInode, newInode, Disk.modifyInode_inodeTable_self]
    exact wrap_of_lt hword
  · have hzero : 0 < indirect1Index := by decide
    have hslot : getInodeBlockNumber (symlink now source d n b) n 0 = b := by
      rw [getInodeBlockNumber_direct _ _ hzero, symlink, withData_inodeTable,
        ← getInodeBlockNumber_direct _ _ hzero]
      exact getInodeBlockNumber_attachBlock_self hnode hvalid₁ hb₁ (.inl hzero)
    have hbytes := readBytes_writeBytes (attachBlock (symlinkInode now source d n) n 0 b).data
      (getBlock b) (source ++ [0])
    rw [List.length_append] at hbytes
    rw [hslot, symlink, withData_data]
    exact hbytes

/-- Making an entry keeps the sizes and the inodes in use. -/
theorem makeEntryInInode_keeps {p child fileType : Nat} {name : CString} {a : Option Nat}
    (hrun : makeEntryInInode p child name fileType d = .done a d') (m : Nat) :
    (d'.inodeTable m).iSize = (d.inodeTable m).iSize ∧ (InodeInUse d' m ↔ InodeInUse d m) := by
  have hout := Ext2.makeEntryInInode_cases d p child name fileType
  rw [hrun] at hout
  cases hout with
  | existing hi hne hput => exact ⟨rfl, Iff.rfl⟩
  | occupied => exact ⟨rfl, Iff.rfl⟩
  | newBlock hi hrefused hbefore hempty hnew =>
    cases hnew with
    | @made b rest hpos hsearch hfits =>
      rename_i i
      obtain ⟨_, _, hinode⟩ := attachBlock_inode d p i b m
      have hlayout : (newEntry d p i b child name fileType).layout = d.layout := by
        rw [newEntry, withData_layout, attachBlock_layout]
      have hbitmap : (newEntry d p i b child name fileType).inodeBitmap = d.inodeBitmap := by
        rw [newEntry, withData_inodeBitmap]
        exact (attachBlock_sameAccounts d p i b).inodeBitmap
      refine ⟨by rw [newEntry, withData_inodeTable, hinode], ?_⟩
      rw [InodeInUse, InodeInUse, validInode_of_layout hlayout, getInodeUsage, hbitmap]
      rfl

/-- The steps of a run that has made a symbolic link. -/
theorem Sound.finishLink_symlink (h : Sound d) {now se pe : Nat} {source name : CString}
    (hrun : finishLink now source se pe name true d = .done () d') :
    ∃ n ∈ freeInodes d, ∃ b ∈ freeBlocks d, source.length < ext2BlockSize ∧ ∃ r,
      makeEntryInInode (entryInode d.data pe) n name ext2FtSymlink (symlink now source d n b)
        = .done (some r) d' := by
  rw [finishLink] at hrun
  obtain ⟨a, d₁, hmake, hend⟩ := Command.bind_eq_done hrun
  rw [makeLink_sym] at hmake
  obtain ⟨n, d₂, halloc, hmake₂⟩ := Command.bind_eq_done hmake
  obtain ⟨_, d₃, hwrite, hmake₃⟩ := Command.bind_eq_done hmake₂
  obtain ⟨attempt, d₄, hput, hattempt⟩ := Command.bind_eq_done hmake₃
  rcases h.toCounted.allocateTypedInode_cases now ext2SIflnk (wrap 32 source.length) with
    ⟨-, hexit⟩ | ⟨n', hn, -, hdone⟩
  · cases hexit.symm.trans halloc
  have hnode := hdone.symm.trans halloc
  rw [← symlinkInode, Outcome.done.injEq] at hnode
  obtain ⟨rfl, rfl⟩ := hnode
  rcases h.writePath_cases now source hn with
    ⟨-, hexit⟩ | ⟨hlen, ⟨-, hexit⟩ | ⟨b, hb, hdone⟩⟩
  · cases hexit.symm.trans hwrite
  · cases hexit.symm.trans hwrite
  have hlink := hdone.symm.trans hwrite
  rw [Outcome.done.injEq] at hlink
  obtain ⟨-, rfl⟩ := hlink
  refine ⟨_, hn, b, hb, hlen, ?_⟩
  by_cases hnone : attempt = none
  · rw [if_pos hnone, Command.bind_of_done (Command.modify_apply _ _)] at hattempt
    simp only [Command.pure_apply, Outcome.done.injEq] at hattempt
    rw [← hattempt.1, if_pos hnone] at hend
    cases hend
  · obtain ⟨r, rfl⟩ := Option.ne_none_iff_exists'.mp hnone
    rw [if_neg hnone] at hattempt
    simp only [Command.pure_apply, Outcome.done.injEq] at hattempt
    rw [← hattempt.1, if_neg hnone] at hend
    simp only [Command.pure_apply, Outcome.done.injEq, true_and] at hend
    rw [← hend, ← hattempt.2]
    exact ⟨r, hput⟩

/-- **The stored path** is what `strtok` has left of the source path. -/
theorem ext2Ln_stores (h : Sound d) {now : Nat} {source dest : CString}
    (hrun : ext2Ln now source dest true d = .done () d') :
    LinkStores d dest d' (afterStrtok source) ∧
      ∀ path, LinkStores d dest d' path → path.length = (afterStrtok source).length := by
  rcases ext2Ln_cases d now source dest true with ⟨status, hexit, -⟩ | ⟨se, pe, hpaths, hfinish⟩
  · rw [hexit] at hrun
    cases hrun
  obtain ⟨n, hn, b, hb, hlen, r, hput⟩ := h.finishLink_symlink (hfinish.symm.trans hrun)
  have hholds := h.symlink_holdsPath now hn hlen hb
  refine ⟨⟨pe, n, r, _, hpaths.parent, hholds, hput⟩, ?_⟩
  rintro path ⟨pe', n', r', d₁, hparent, hholds', hput'⟩
  -- both inodes are new in the last image, and both record a length there
  have hkeeps := makeEntryInInode_keeps hput
  have hkeeps' := makeEntryInInode_keeps hput'
  have hnew := (hholds'.new n').mpr rfl
  have hsame : n' = n := (hholds.new n').mp
    ⟨(hkeeps n').2.mp ((hkeeps' n').2.mpr hnew.1), hnew.2⟩
  rw [← hholds.size, ← hholds'.size, ← (hkeeps n).1, ← (hkeeps' n').1, hsame]

theorem afterStrtok_cut (path : CString) : afterStrtok path <+: path := by
  have hsplit := List.takeWhile_append_dropWhile (p := fun c => decide (c = slash)) (l := path)
  rw [afterStrtok]
  nth_rewrite 3 [← hsplit]
  exact (List.prefix_append_right_inj _).mpr (List.takeWhile_prefix _)

theorem ext2Ln_stores_iff (h : Sound d) {now : Nat} {source dest : CString}
    (hrun : ext2Ln now source dest true d = .done () d') :
    LinkStores d dest d' source ↔ OneComponent source := by
  obtain ⟨hstores, hlen⟩ := ext2Ln_stores h hrun
  rw [← afterStrtok_eq_self_iff]
  constructor
  · intro hsource
    exact (afterStrtok_cut source).eq_of_length (hlen source hsource).symm
  · intro heq
    rw [heq] at hstores
    exact hstores

/-! ## The opened path -/

/-- `ext2_cp` opens this path: the host's answer for it decides whether the source exists, and no
other file of the host matters. -/
structure Opens (d : Disk) (now : Nat) (source dest path : CString) : Prop where
  missing : ∀ host, host path = none ↔ ext2Cp now host source dest d = .exit eNoEnt d
  only : ∀ host host' : CString → Option (List UInt8), host path = host' path →
    ext2Cp now host source dest d = ext2Cp now host' source dest d

/-- **The opened path** is what `strtok` has left of the source path. -/
theorem ext2Cp_opens (d : Disk) (now : Nat) (source dest path : CString) :
    Opens d now source dest path ↔ path = afterStrtok source := by
  have hmissing : ∀ host, host (afterStrtok source) = none ↔
      ext2Cp now host source dest d = .exit eNoEnt d := by
    intro host
    cases hhost : host (afterStrtok source) with
    | none =>
      refine iff_of_true rfl ?_
      rw [ext2Cp, Command.bind_of_done (Command.get_apply d)]
      simp only [hhost]
      rfl
    | some content =>
      exact iff_of_false (by simp) fun hexit => (ext2Cp_exits_of_host now hhost dest d _ d hexit).2 rfl
  constructor
  · intro hopens
    by_contra hne
    -- a host that has a file only under the other name
    have hhost := (hopens.missing fun name => if name = path then none else some []).mp (if_pos rfl)
    have hnone := (hmissing _).mpr hhost
    rw [if_neg (Ne.symm hne)] at hnone
    cases hnone
  · rintro rfl
    refine ⟨hmissing, fun host host' heq => ?_⟩
    simp only [ext2Cp, heq]

/-! ## Both commands -/

/-- A link whose entry has a place in an existing block is made. -/
theorem LinkOutcome.made {now se p : Nat} {source name : CString} {isSymLink : Bool}
    {o : Outcome Disk Unit} (h : Sound d) (hp : InodeInUse d p)
    (ho : LinkOutcome d now source se p name isSymLink o) (hready : LinkReady d source isSymLink)
    (hplace : entryPlace d p name ≠ none) : ∃ d', o = .done () d' := by
  cases ho with
  | hard => exact ⟨_, rfl⟩
  | hardFull hnone => exact absurd hnone hplace
  | hardOverrun hins =>
    cases hins with
    | overrun hnone => exact absurd hnone hplace
  | noInode hnone => exact absurd hnone (hready rfl).1.ne_empty
  | tooLong _ _ hlong => exact absurd (hready rfl).2.1 (by omega)
  | noBlock _ _ _ hnone => exact absurd hnone (hready rfl).2.2.ne_empty
  | symFull hn _ hlen hb hnone =>
    rw [(h.symlink_allocated now hn hlen hb).entryPlace_eq hp] at hnone
    exact absurd hnone hplace
  | symOverrun hn _ hlen hb hins =>
    cases hins with
    | overrun hnone =>
      rw [(h.symlink_allocated now hn hlen hb).entryPlace_eq hp] at hnone
      exact absurd hnone hplace
  | sym => exact ⟨_, rfl⟩

/-- **The commands use the source path as it was given** exactly if no separator follows its
first component. -/
theorem source_kept_iff (h : Sound d) (now : Nat) (source dest : CString) :
    (∀ d', ext2Ln now source dest true d = .done () d' →
      (LinkStores d dest d' source ↔ OneComponent source)) ∧
    (Opens d now source dest source ↔ OneComponent source) := by
  refine ⟨fun d' hrun => ext2Ln_stores_iff h hrun, ?_⟩
  rw [ext2Cp_opens, eq_comm, afterStrtok_eq_self_iff]

end

theorem source_kept_example : Opens smallImage 0 [47, 102] [47, 103] [47, 102] :=
  (source_kept_iff smallImage_consistent.sound 0 [47, 102] [47, 103]).2.mpr (by decide)

/-- For the source `/./f` both commands use `/.`. -/
theorem dotPath_cut : Consistent smallImage ∧
    (∃ d', ext2Ln 0 [47, 46, 47, 102] [47, 103] true smallImage = .done () d' ∧
      ¬ LinkStores smallImage [47, 103] d' [47, 46, 47, 102]) ∧
    ¬ Opens smallImage 0 [47, 46, 47, 102] [47, 103] [47, 46, 47, 102] := by
  have hcut : ¬ OneComponent [47, 46, 47, 102] := by decide
  have hpaths : LinkPaths smallImage [47, 46, 47, 102] [47, 103] 23576 23552 :=
    ⟨by decide +kernel, by decide +kernel, by decide +kernel, by decide +kernel⟩
  refine ⟨smallImage_consistent, ?_, ?_⟩
  · rcases ext2Ln_cases smallImage 0 [47, 46, 47, 102] [47, 103] true with
      ⟨_, -, hno⟩ | ⟨se, pe, hpaths', hfinish⟩
    · exact absurd hpaths (hno _ _)
    have hp := hpaths'.parent_inUse smallImage_consistent
    obtain rfl : pe = 23552 := Option.some.inj (hpaths'.parent.symm.trans hpaths.parent)
    have hready : LinkReady smallImage (afterStrtok [47, 46, 47, 102]) true := by
      intro _
      refine ⟨⟨13, mem_freeInodes.mpr ⟨⟨by decide, by decide⟩, by decide⟩⟩, by decide, ?_⟩
      exact ⟨24, mem_freeBlocks.mpr ⟨⟨by decide, by decide⟩, by decide⟩⟩
    have hplace : entryPlace smallImage (entryInode smallImage.data 23552)
        (lastComponent [47, 103]) ≠ none := by decide +kernel
    have hout := smallImage_consistent.sound.finishLink_outcome 0 (afterStrtok [47, 46, 47, 102]) se
      23552 (lastComponent [47, 103]) true hp.1
    obtain ⟨d', hdone⟩ := hout.made smallImage_consistent.sound hp hready hplace
    have hrun := hfinish.trans hdone
    exact ⟨d', hrun, mt (ext2Ln_stores_iff smallImage_consistent.sound hrun).mp hcut⟩
  · rw [ext2Cp_opens, eq_comm, afterStrtok_eq_self_iff]
    exact hcut

end Ext2
end OsAssignments
