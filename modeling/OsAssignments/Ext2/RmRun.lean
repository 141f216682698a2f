import OsAssignments.Ext2.Delete
import OsAssignments.Ext2.LinkRun

/-!
# The run of `ext2_rm`

* `RmPath` — the path leads to an entry that is no directory, and has a parent.
* `dropLink`, `finishRm` — what happens to the inode once the entry is gone.
* `RmPath.run` — `ext2_rm` removes the entry the path leads to and goes on with its inode.
* `Removed` — what the whole run does to the rest of the image.
-/

namespace OsAssignments
namespace Ext2

open ByteMemory MachineWord ExitState

section

variable {pad : Bool} {d d' : Disk} {n e pe : Nat} {path : CString}

/-! ## The path -/

theorem exists_parent_traverseFrom {first : Option Nat} {components : List CString} {name : CString}
    (hcons : components ≠ []) (hrun : traverseFrom d first n (components ++ [name]) = some e) :
    ∃ pe, traverseFrom d first n components = some pe ∧ isDirectory d (some pe) = true := by
  induction components generalizing first n with
  | nil => exact absurd rfl hcons
  | cons c rest ih =>
    rw [List.cons_append, traverseFrom] at hrun
    rw [traverseFrom]
    split at hrun
    · cases hrun
    · rename_i entry hfind
      split at hrun
      · rename_i hdir
        rw [if_pos hdir]
        by_cases hrest : rest = []
        · exact ⟨entry, by rw [hrest, traverseFrom], hdir⟩
        · exact ih hrest hrun
      · simp at hrun

/-- The last component of a path is found in the directory the others lead to. -/
theorem traversePath_parent {components : List CString} {name : CString}
    (hparent : traversePath d components = some pe)
    (hrun : traversePath d (components ++ [name]) = some e) :
    isDirectory d (some pe) = true ∧ findMatchingEntry d (entryInode d.data pe) name = some e := by
  have hcons : components ≠ [] := by
    rintro rfl
    rw [traversePath, traverseFrom] at hparent
    cases hparent
  obtain ⟨pe', hpe, hdir⟩ := exists_parent_traverseFrom hcons hrun
  obtain rfl : pe' = pe := Option.some.inj (hpe.symm.trans hparent)
  exact ⟨hdir, (traversePath_append hparent hdir name).symm.trans hrun⟩

theorem lastComponent_ne_nil (path : CString) : lastComponent path ≠ [] := by
  refine splitPath_ne_nil path _ ?_
  rw [splitPath_eq_append, ← lastComponent]
  simp

/-- A path to an entry that `ext2_rm` can remove. -/
structure RmPath (d : Disk) (path : CString) (e pe : Nat) : Prop where
  entry : traversePath d (splitPath path) = some e
  notDir : isDirectory d (some e) = false
  parent : traversePath d (splitPath path).dropLast = some pe

namespace RmPath

variable (hpath : RmPath d path e pe)
include hpath

theorem found : isDirectory d (some pe) = true ∧
    findMatchingEntry d (entryInode d.data pe) (lastComponent path) = some e := by
  have hrun := hpath.entry
  rw [splitPath_eq_append] at hrun
  exact traversePath_parent hpath.parent hrun

variable (h : ConsistentAs pad d)
include h

theorem parent_isDirInode : IsDirInode d (entryInode d.data pe) := by
  obtain ⟨m, hl⟩ := h.traversePath_live
    (fun c hc => splitPath_ne_nil path c (List.mem_of_mem_dropLast hc)) hpath.parent
  exact (h.names m pe hl).2.mp ((isDirectory_some d pe).mp hpath.found.1)

theorem live : LiveIn d (entryInode d.data pe) e ∧ entryName d.data e = lastComponent path :=
  liveIn_of_find (hpath.parent_isDirInode h) (lastComponent_ne_nil path) hpath.found.2

/-- What is removed is an inode in use and no directory. -/
theorem inode : InodeInUse d (entryInode d.data e) ∧ ¬ IsDirInode d (entryInode d.data e) := by
  obtain ⟨hused, htype⟩ := h.names _ e (hpath.live h).1
  refine ⟨hused, fun hdir => ?_⟩
  have := (isDirectory_some d e).mpr (htype.mpr hdir)
  rw [hpath.notDir] at this
  cases this

end RmPath

/-! ## The second part -/

/-- The inode of the removed entry has one link less. -/
def dropLink (d : Disk) (n : Nat) : Disk :=
  d.modifyInode n fun i => { i with iLinksCount := wrap 16 (i.iLinksCount - 1 : Int) }

/-- What `ext2_rm` does once the entry is gone. -/
def finishRm (now : Nat) (d : Disk) (n : Nat) : Disk :=
  if ((dropLink d n).inodeTable n).iLinksCount = 0 then freeInode now (dropLink d n) n
  else dropLink d n

/-- **The run of `ext2_rm`.** -/
theorem RmPath.run (hpath : RmPath d path e pe) (h : ConsistentAs pad d) (now : Nat) :
    ∃ i mem d₁, EntryRemoved d d₁ (entryInode d.data pe) i e mem ∧
      ext2Rm now path d = .done () (finishRm now d₁ (entryInode d.data e)) := by
  have hp := hpath.parent_isDirInode h
  obtain ⟨-, hfind⟩ := hpath.found
  rcases h.deleteChildEntry_cases hp (lastComponent_ne_nil path) with
    ⟨hnone, -⟩ | ⟨i, e', mem, hfind', -, hremoved⟩
  · cases hnone.symm.trans hfind
  · obtain rfl : e = e' := Option.some.inj (hfind.symm.trans hfind')
    refine ⟨i, mem, _, hremoved, ?_⟩
    have hinode : entryInode (dropLink (deleteChildEntry d (entryInode d.data pe)
        (lastComponent path)) (entryInode d.data e)).data e = entryInode d.data e :=
      hremoved.entryInode_eq hp h
    rw [ext2Rm, Command.bind_of_done (Command.get_apply d)]
    simp only [hpath.entry, hpath.notDir, hpath.parent, Bool.false_eq_true, if_false]
    rw [Command.bind_of_done (Command.modify_apply _ _),
      Command.bind_of_done (Command.modify_apply _ _),
      Command.bind_of_done (Command.get_apply _), finishRm, ← lastComponent, ← dropLink]
    split
    · rw [Command.modify_apply, hinode]
    · rfl

/-! ## What the second part leaves alone -/

theorem dropLink_footprint (d : Disk) (n : Nat) : Footprint d (dropLink d n) {n} ∅ :=
  modifyInode_footprint d n _ fun _ => rfl

theorem dropLink_sameFile (d : Disk) (n m : Nat) : SameFile d (dropLink d n) m := by
  refine ⟨?_, getInodeBlockNumber_congr ?_ fun _ => AgreeOn.refl _ _ _, fun _ _ => AgreeOn.refl _ _ _⟩
  · rw [dropLink, Disk.modifyInode_inodeTable]
    split
    · rename_i heq
      rw [heq]
    · rfl
  · rw [dropLink, Disk.modifyInode_inodeTable]
    split
    · rename_i heq
      rw [heq]
    · rfl

/-- Fewer entries, and the other entries once more the same. -/
theorem EntriesAdded.sameLive_before {d₁ : Disk} {added : Set (Nat × Nat)}
    (h : EntriesAdded d₁ d added) (hs : SameLive d₁ d') : EntriesAdded d' d added := by
  refine ⟨fun m x => ?_, fun q hq hl => h.fresh q hq ((hs.live _ _).mp hl), fun m x hl => ?_, h.tiled⟩
  · rw [h.live, hs.live]
  · have hl := (hs.live m x).mp hl
    rw [h.kept m x hl, hs.binding m x hl]

namespace EntryRemoved

variable {d₁ : Disk} {p i : Nat} {mem : Memory} (h : EntryRemoved d d₁ p i e mem)
  (hp : IsDirInode d p) (hd : ConsistentAs pad d) (hn : InodeInUse d n) (hdir : ¬ IsDirInode d n)

include hp hdir in
theorem ne_parent : n ≠ p := by
  rintro rfl
  exact hdir hp

include h hp hdir in
theorem inodeTable_eq : d₁.inodeTable n = d.inodeTable n :=
  h.footprint.inode n (ne_parent hp hdir)

include h hp hdir in
theorem links_eq : ((dropLink d₁ n).inodeTable n).iLinksCount
    = wrap 16 ((d.inodeTable n).iLinksCount - 1 : Int) := by
  rw [dropLink, Disk.modifyInode_inodeTable_self, h.inodeTable_eq hp hdir]

include h hp hd hn hdir

/-- The slots of the removed inode are what they were. -/
theorem slots_dropLink (j : Nat) :
    getInodeBlockNumber (dropLink d₁ n) n j = getInodeBlockNumber d n j := by
  rw [(dropLink_sameFile d₁ n n).slots, (h.sameFile hp hd hn.1 (ne_parent hp hdir)).slots]

/-- The inode is given back with the blocks in its slots. -/
theorem freed (now : Nat) : FreedInode (dropLink d₁ n) (freeInode now (dropLink d₁ n) n) n := by
  have hcounted := hd.sound.toCounted
  have hblocks := hcounted.blockCountersHold
  have hinodes := hcounted.inodeCountersHold
  have hraised := h.released.raised
  have hlen : (heldBlocks (d.withData mem) p
      (emptiedSlots mem (getBlock (getInodeBlockNumber d p i)) i)).length ≤ 1 := by
    refine (length_heldBlocks_le _ _ _).trans ?_
    rw [emptiedSlots]
    split <;> simp
  have hblocks₀ : BlockCountersHold (d.withData mem) 1024 := ⟨hblocks.superBlock, hblocks.groupDesc⟩
  have hblocks₁ : BlockCountersHold d₁ inodeBlockLimit := by
    refine BlockCountersHold.after (hblocks₀.mono ?_) hraised
    rw [inodeBlockLimit_eq]
    omega
  have hinodes₁ : InodeCountersHold d₁ := by
    refine ⟨?_, ?_⟩
    · rw [hraised.superBlock]
      exact hinodes.superBlock
    · rw [hraised.groupDesc]
      exact hinodes.groupDesc
  refine freeInode_freed now (hcounted.validInode_lt hn.1) (fun j hj => ?_)
    ⟨hblocks₁.superBlock, hblocks₁.groupDesc⟩ ⟨hinodes₁.superBlock, hinodes₁.groupDesc⟩
  rw [h.slots_dropLink hp hd hn hdir]
  exact hd.sound.slot_lt_two_pow hn.1 hj

/-- The second part drops a link, and frees the inode if it was the last. -/
theorem finishRm_cases (now : Nat) :
    (wrap 16 ((d.inodeTable n).iLinksCount - 1 : Int) = 0 ∧
      FreedInode (dropLink d₁ n) (finishRm now d₁ n) n) ∨
    (wrap 16 ((d.inodeTable n).iLinksCount - 1 : Int) ≠ 0 ∧ finishRm now d₁ n = dropLink d₁ n) := by
  rw [finishRm, h.links_eq hp hdir]
  split
  · rename_i hzero
    exact .inl ⟨hzero, h.freed hp hd hn hdir now⟩
  · rename_i hne
    exact .inr ⟨hne, rfl⟩

theorem finishRm_footprint (now : Nat) :
    Footprint d₁ (finishRm now d₁ n) {n} (indirectOf d n) := by
  have hdrop : Footprint d₁ (dropLink d₁ n) {n} (indirectOf d n) :=
    (dropLink_footprint d₁ n).mono (le_refl _) (Set.empty_subset _)
  have hind : indirectOf (dropLink d₁ n) n = indirectOf d n := by
    rw [indirectOf, hdrop.indirect, h.footprint.indirect, indirectOf]
  rcases h.finishRm_cases hp hd hn hdir now with ⟨-, hfreed⟩ | ⟨-, heq⟩
  · exact hdrop.trans (hind ▸ hfreed.footprint)
  · rw [heq]
    exact hdrop

/-- **Every other inode keeps its file** through the second part. -/
theorem finishRm_sameFile (now : Nat) {m : Nat} (hm : ValidInode d m) (hne : m ≠ n) :
    SameFile d₁ (finishRm now d₁ n) m := by
  refine (h.finishRm_footprint hp hd hn hdir now).sameFile hne ?_
  have hdisj := (hd.sound.disjoint_blocksOf hm hn.1 hne).mono_right (indirectOf_subset d n)
  refine hdisj.mono_left fun c hc => ?_
  -- a block an inode names afterwards was named before
  by_cases hmp : m = p
  · subst hmp
    obtain ⟨hc0, hind | ⟨j, hj, rfl⟩⟩ := hc
    · exact ⟨hc0, .inl (by rw [hind, h.footprint.indirect])⟩
    · refine ⟨hc0, .inr ⟨j, hj, ?_⟩⟩
      rw [h.slot_eq hp hd] at hc0 ⊢
      split at hc0
      · exact absurd rfl hc0
      · rename_i hj'
        rw [if_neg hj']
  · obtain ⟨hc0, hind | ⟨j, hj, rfl⟩⟩ := hc
    · exact ⟨hc0, .inl (by rw [hind, h.footprint.indirect])⟩
    · exact ⟨hc0, .inr ⟨j, hj, (h.sameFile hp hd hm hmp).slots j⟩⟩

theorem inodeInUse_finishRm (now : Nat) {m : Nat} (hne : m ≠ n) :
    InodeInUse (finishRm now d₁ n) m ↔ InodeInUse d m := by
  have hlayout := (h.finishRm_footprint hp hd hn hdir now).layout
  rw [← h.inodeInUse, InodeInUse, InodeInUse, validInode_of_layout hlayout]
  refine and_congr_right fun hvalid => ?_
  have hvalid := (validInode_of_layout h.footprint.layout).mp hvalid
  rcases h.finishRm_cases hp hd hn hdir now with ⟨-, hfreed⟩ | ⟨-, heq⟩
  · rw [hfreed.inodeUsage m (hd.sound.toCounted.validInode_lt hvalid), if_neg hne]
    rfl
  · rw [heq]
    rfl

theorem finishRm_inode (now : Nat) {m : Nat} (hne : m ≠ n) :
    (finishRm now d₁ n).inodeTable m = d₁.inodeTable m :=
  (h.finishRm_footprint hp hd hn hdir now).inode m hne

theorem finishRm_mode (now : Nat) : ((finishRm now d₁ n).inodeTable n).iMode
    = (d.inodeTable n).iMode := by
  have hdrop : ((dropLink d₁ n).inodeTable n).iMode = (d.inodeTable n).iMode := by
    rw [dropLink, Disk.modifyInode_inodeTable_self, h.inodeTable_eq hp hdir]
  rcases h.finishRm_cases hp hd hn hdir now with ⟨-, hfreed⟩ | ⟨-, heq⟩
  · obtain ⟨dtime, iBlock, hfields⟩ := hfreed.fields
    rw [hfields]
    exact hdrop
  · rw [heq]
    exact hdrop

/-- The directories are the same. -/
theorem isDirInode_finishRm (now : Nat) {m : Nat} :
    IsDirInode (finishRm now d₁ n) m ↔ IsDirInode d m := by
  by_cases hne : m = n
  · subst hne
    refine ⟨fun hm => absurd ⟨hn, ?_⟩ hdir, fun hm => absurd hm hdir⟩
    rw [← h.finishRm_mode hp hd hn hdir now]
    exact hm.2
  · obtain ⟨iBlock, hm⟩ := h.inode m
    rw [IsDirInode, IsDirInode, h.inodeInUse_finishRm hp hd hn hdir now hne,
      h.finishRm_inode hp hd hn hdir now hne, hm]

/-- **The whole run takes away one entry.** -/
theorem finishRm_entriesAdded (now : Nat) : EntriesAdded (finishRm now d₁ n) d {(p, e)} := by
  have hkept : DirsKept d₁ (finishRm now d₁ n) := fun m hm => by
    have hm := h.isDirInode.mp hm
    exact h.finishRm_sameFile hp hd hn hdir now hm.1.1 fun heq => hdir (heq ▸ hm)
  have hdirs : ∀ m, IsDirInode (finishRm now d₁ n) m ↔ IsDirInode d₁ m := fun m =>
    (h.isDirInode_finishRm hp hd hn hdir now).trans h.isDirInode.symm
  exact (h.entriesAdded hp hd).sameLive_before
    (hkept.sameLive (h.dirsTiled hp hd) (fun m => (hdirs m).mpr) fun m _ hl => (hdirs m).mp hl.1)

end EntryRemoved

end

end Ext2
end OsAssignments
