import OsAssignments.Ext2.LinkRemove

/-!
# Link, then remove

* `WellBuilt` — images as the commands build them: consistent, with distinct names, no directory
  block without an entry in use, and no entry for an inode without a link.
* `Restored` — the same bitmaps, free counters, links and slots of the inodes in use, and lookups.
* `link_then_remove` — `ext2_ln`, and then `ext2_rm` on its destination, is the identity.
-/

namespace OsAssignments
namespace Ext2

open ByteMemory MachineWord ExitState

/-- An image as the commands build it.  `ext2_rm` frees an inode when the number of its links gets
to zero, so no entry in use names an inode without links. -/
structure WellBuilt (d : Disk) : Prop where
  consistent : Consistent d
  names : NamesDistinct d
  occupied : ∀ p, IsDirInode d p → Occupied d p
  linked : ∀ m e, LiveIn d m e → 0 < (d.inodeTable (entryInode d.data e)).iLinksCount ∧
    (d.inodeTable (entryInode d.data e)).iLinksCount < 2 ^ 16

/-- Both bitmaps, the free counters, the links and the slots of the inodes in use, and all lookups
are what they were. -/
structure Restored (d d' : Disk) : Prop where
  space : SameSpace d d'
  links : ∀ m, InodeInUse d m → (d'.inodeTable m).iLinksCount = (d.inodeTable m).iLinksCount
  slots : ∀ m, InodeInUse d m → ∀ j, getInodeBlockNumber d' m j = getInodeBlockNumber d m j
  lookups : ∀ m name, IsDirInode d m → name ≠ [] → resolve d' m name = resolve d m name

section

variable {d d' d₁ d₂ : Disk} {p i b r n se pe now now' : Nat} {mem : Memory}
  {source dest name : CString}

/-! ## Hard links -/

/-- A link more and a link less is the same number of links. -/
theorem wrap_link_back {links : Nat} (h : links < 2 ^ 16) :
    wrap 16 ((wrap 16 (links + 1 : Nat) : Nat) - 1 : Int) = links := by
  rw [wrap, wrap]
  omega

/-- An inode that had a link keeps it, and its blocks with it. -/
theorem LinkMade.restored_hard (hmade : LinkMade d d' p r n name) (h : WellBuilt d)
    (hp : IsDirInode d' p) (hn : InodeInUse d n) (hn' : InodeInUse d' n ∧ ¬ IsDirInode d' n)
    (hlinks : 0 < (d.inodeTable n).iLinksCount ∧ (d.inodeTable n).iLinksCount < 2 ^ 16)
    (hmore : (d'.inodeTable n).iLinksCount = wrap 16 ((d.inodeTable n).iLinksCount + 1 : Nat))
    (hrem : EntryRemoved d' d₂ p i r mem)
    (hundone : LinkUndone d d₂ (finishRm now d₂ n) n) : Restored d (finishRm now d₂ n) := by
  have hcount := hrem.links_eq hp hn'.2
  rw [hmore, wrap_link_back hlinks.2] at hcount
  have hfinish : finishRm now d₂ n = dropLink d₂ n := by
    rw [finishRm, hcount, if_neg (by omega)]
  have hspace : SameSpace d₂ (dropLink d₂ n) := (modifyInode_sameAccounts d₂ n _).sameSpace
  have hnp : n ≠ p := EntryRemoved.ne_parent hp hn'.2
  refine ⟨hfinish ▸ hundone.space.trans hspace, fun m hm => ?_, fun m hm j => ?_,
    fun m name hm hname => hundone.sameLive.resolve_eq h.names hm (hundone.dirs m hm) hname⟩
  · by_cases hmn : m = n
    · rw [hmn, hfinish, hcount]
    · exact hundone.links m hm hmn
  · by_cases hmn : m = n
    · rw [hmn, hfinish, hrem.slots_dropLink hp hmade.consistent hn'.1 hn'.2,
        hmade.slots n hn hnp]
    · exact hundone.slots m hm hmn j

/-! ## Symbolic links -/

/-- Slot 0 of a new symbolic link has its block, the others are empty. -/
theorem getInodeBlockNumber_symlink (h : Sound d) (now : Nat) (hn : n ∈ freeInodes d)
    (hb : b ∈ freeBlocks d) (hlen : source.length < ext2BlockSize) (j : Nat) :
    getInodeBlockNumber (symlink now source d n b) n j = if j = 0 then b else 0 := by
  have ha : Allocated d (symlinkInode now source d n) n ext2SIflnk 0 :=
    h.newInode_allocated now ext2SIflnk _ hn
  have hvalid : ValidInode (symlinkInode now source d n) n := ((ha.inUse n).mpr (.inr rfl)).1
  have hb' : b ∈ freeBlocks (symlinkInode now source d n) := by
    rw [symlinkInode, freeBlocks_newInode]
    exact hb
  have hind : ∀ m, ValidInode (symlinkInode now source d n) m →
      indirectBlock (symlinkInode now source d n) m ≠ b := fun m hm =>
    ha.sound.stored_ne_of_free hb' (r := .indirect m) hm
  have hattach := getInodeBlockNumber_attachBlock (n := n) (i := 0)
    (ha.sound.toCounted.free_bounds hb').2.2.1 (fun _ => hind n hvalid)
  have hfoot := (attachBlock_footprint (symlinkInode now source d n) n 0 b).indirect n
  have hsame : getInodeBlockNumber (symlink now source d n b) n j
      = getInodeBlockNumber (attachBlock (symlinkInode now source d n) n 0 b) n j := by
    refine getInodeBlockNumber_congr (by rw [symlink, withData_inodeTable]) (fun _ => ?_) j
    rw [symlink, withData_data]
    refine writeBytes_block_agreeOn _ ?_ (by simpa using hlen)
    rw [hfoot]
    exact hind n hvalid
  have hzero := getInodeBlockNumber_newInode now ext2SIflnk (wrap 32 source.length) d n j
  rw [← symlinkInode] at hzero
  have hatt : Attachable (symlinkInode now source d n) n 0 := .inl (by decide)
  rw [hsame, hattach, hzero]
  simp only [hatt, and_true]

/-- The inode and the block of a symbolic link go back. -/
theorem LinkMade.restored_sym {d₀ : Disk} (hmade : LinkMade d₀ d' p r n name) (h : WellBuilt d)
    (ha : Allocated d d₀ n ext2SIflnk 1) (htakes : Takes d d₀ {b} {n}) (hb : b ≠ 0)
    (hslots : ∀ j, getInodeBlockNumber d₀ n j = if j = 0 then b else 0)
    (hp : IsDirInode d' p) (hn : InodeInUse d' n ∧ ¬ IsDirInode d' n)
    (hlink : (d'.inodeTable n).iLinksCount = 1) (hrem : EntryRemoved d' d₂ p i r mem)
    (hundone : LinkUndone d₀ d₂ (finishRm now d₂ n) n) : Restored d (finishRm now d₂ n) := by
  have hmode : typeBits ext2SIflnk ≠ ext2SIfdir := by decide
  have hn₀ : InodeInUse d₀ n := (ha.inUse n).mpr (.inr rfl)
  have hnp : n ≠ p := EntryRemoved.ne_parent hp hn.2
  have hfreed : FreedInode (dropLink d₂ n) (finishRm now d₂ n) n := by
    rcases hrem.finishRm_cases hp hmade.consistent hn.1 hn.2 now with ⟨-, hfreed⟩ | ⟨hne, -⟩
    · exact hfreed
    · rw [hlink] at hne
      exact absurd rfl hne
  have hspace : SameSpace d₀ (dropLink d₂ n) :=
    hundone.space.trans (modifyInode_sameAccounts d₂ n _).sameSpace
  have hkept : ∀ j, getInodeBlockNumber (dropLink d₂ n) n j = if j = 0 then b else 0 := fun j => by
    rw [hrem.slots_dropLink hp hmade.consistent hn.1 hn.2, hmade.slots n hn₀ hnp, hslots]
  have hmem : ∀ c, c ∈ slotBlocks (dropLink d₂ n) n ↔ c = b := by
    intro c
    rw [mem_slotBlocks]
    constructor
    · rintro ⟨hc, j, -, rfl⟩
      rw [hkept] at hc ⊢
      by_cases hj : j = 0
      · rw [if_pos hj]
      · rw [if_neg hj] at hc
        exact absurd rfl hc
    · rintro rfl
      exact ⟨hb, 0, by decide, by rw [hkept, if_pos rfl]⟩
  have hset : (slotBlocks (dropLink d₂ n) n).toFinset = {b} := by
    ext c
    rw [List.mem_toFinset, Finset.mem_singleton, hmem]
  have hnodup : (slotBlocks (dropLink d₂ n) n).Nodup := by
    have heq : slotBlocks (dropLink d₂ n) n = slotBlocks d' n :=
      heldBlocks_congr fun j _ => hrem.slots_dropLink hp hmade.consistent hn.1 hn.2 j
    rw [heq]
    exact hmade.consistent.sound.nodup_slotBlocks hn.1.1
  have hb32 := (htakes.freeBlock b (Finset.mem_singleton_self b)).1
  have hn32 := (htakes.freeInode n (Finset.mem_singleton_self n)).1
  have hused : ∀ c ∈ slotBlocks (dropLink d₂ n) n,
      c < 2 ^ 32 ∧ getBlockUsage (dropLink d₂ n) c = true := by
    intro c hc
    rw [(hmem c).mp hc, hspace.blockUsage b hb32, htakes.blockUsage b hb32]
    exact ⟨hb32, by simp⟩
  have hmarked : getInodeUsage (dropLink d₂ n) n = true := by
    rw [hspace.inodeUsage n hn32, htakes.inodeUsage n hn32]
    simp
  have hback := hfreed.takes hnodup hused hn32 hmarked
  rw [hset] at hback
  have hsame : SameLive d (finishRm now d₂ n) :=
    (ha.sameLive h.consistent hmode).trans hundone.sameLive
  have hne : ∀ m, InodeInUse d m → m ≠ n := fun m hm heq =>
    not_inodeInUse_of_free ha.free (heq ▸ hm)
  refine ⟨(htakes.congr hspace).unique hback, fun m hm => ?_, fun m hm j => ?_,
    fun m name hm hname => hsame.resolve_eq h.names hm
      (hundone.dirs m ((ha.isDirInode hmode).mpr hm)) hname⟩
  · rw [hundone.links m (ha.stillInUse m hm) (hne m hm), (ha.kept m hm).2]
  · rw [hundone.slots m (ha.stillInUse m hm) (hne m hm), (ha.kept m hm).1.slots]

theorem SameFile.occupied (h : SameFile d d' p) (hT : DirsTiled true d) (hp : IsDirInode d p)
    (hocc : Occupied d p) : Occupied d' p := by
  intro i hi hne
  rw [h.slots] at hne ⊢
  rw [(hT p hp i hi hne).liveEntries_congr (h.bytes i hne)]
  exact hocc i hi hne

/-! ## The place of the link -/

/-- The path leads to no entry of a directory that has a place for one. -/
structure LinkPlace (d : Disk) (dest : CString) (pe : Nat) : Prop where
  parent : traversePath d (splitPath dest).dropLast = some pe
  dir : isDirectory d (some pe) = true
  isDirInode : IsDirInode d (entryInode d.data pe)
  length : (lastComponent dest).length ≤ 255
  absent : findMatchingEntry d (entryInode d.data pe) (lastComponent dest) = none
  lands : LandsLive d (entryInode d.data pe) (lastComponent dest)

theorem dropLast_ne_nil (path : CString) : ∀ c ∈ (splitPath path).dropLast, c ≠ [] := fun c hc =>
  splitPath_ne_nil path c (List.mem_of_mem_dropLast hc)

theorem LinkPaths.linkPlace (hpaths : LinkPaths d source dest se pe) (h : Consistent d)
    (hlen : (lastComponent dest).length ≤ 255) (hdir : isDirectory d (some pe) = true)
    (hplace : HasPlaceFor d (entryInode d.data pe) (lastComponent dest)) : LinkPlace d dest pe := by
  obtain ⟨m, hl⟩ := h.traversePath_live (dropLast_ne_nil dest) hpaths.parent
  have hp := (h.names m pe hl).2.mp ((isDirectory_some d pe).mp hdir)
  refine ⟨hpaths.parent, hdir, hp, hlen,
    find_none_of_traversePath hpaths.parent hdir hpaths.absent, hp, ?_, h.lands_of_place hp hlen hplace⟩
  have hpos := List.length_pos_iff.mpr (lastComponent_ne_nil dest)
  rw [wrap_length]
  omega

/-- Once the link is made, `ext2_rm` removes its entry. -/
theorem LinkMade.rm (hmade : LinkMade d d' (entryInode d.data pe) r n (lastComponent dest))
    (h : Consistent d) (hto : LinkPlace d dest pe) (now : Nat) : ∃ i mem d₂,
      EntryRemoved d' d₂ (entryInode d.data pe) i r mem ∧
      ext2Rm now dest d' = .done () (finishRm now d₂ n) ∧ IsDirInode d' (entryInode d.data pe) ∧
      InodeInUse d' n ∧ ¬ IsDirInode d' n := by
  have hrm := hmade.rmPath h hto.parent hto.dir rfl
  obtain ⟨m, hl⟩ := h.traversePath_live (dropLast_ne_nil dest) hto.parent
  obtain ⟨i, mem, d₂, hrem, hrun⟩ := hrm.run hmade.consistent now
  have hinode := hrm.inode hmade.consistent
  rw [hmade.added.entryInode_eq hl] at hrem
  rw [hmade.inode] at hrun hinode
  exact ⟨i, mem, d₂, hrem, hrun, hmade.dirs _ hto.isDirInode, hinode⟩

/-! ## Both kinds -/

/-- A hard link, made and removed. -/
theorem LinkPlace.hard_undone (hto : LinkPlace d dest pe) (h : WellBuilt d) {ms : Nat}
    (hse : LiveIn d ms se) (hsrcDir : ¬ IsDirInode d (entryInode d.data se))
    (hins : Inserted d (entryInode d.data pe) (entryInode d.data se) (lastComponent dest)
      ext2FtRegFile (.done (some r) d₁)) :
    ∃ d'', ext2Rm now' dest (addLink d₁ (entryInode d₁.data se)) = .done () d'' ∧ Restored d d'' := by
  have hc := h.consistent
  have hp := hto.isDirInode
  have hlen := hto.length
  have hused := (hc.names ms se hse).1
  have hpc : Contained d (entryInode d.data pe) (lastComponent dest) 0 :=
    hc.contained hp fun _ => .inl (by omega)
  have hadd := hins.oneAdded hc hp.1.1 hpc hto.lands
  have hchild : NamesInode d (entryInode d.data se) (ext2FtRegFile % 2 ^ 8) :=
    ⟨hused, iff_of_false (by decide) hsrcDir⟩
  have hc₁ := hins.consistent hc hp.1.1 hpc hchild
  have hinUse : ∀ m, InodeInUse d₁ m → InodeInUse (addLink d₁ (entryInode d.data se)) m := by
    intro m hm
    have hsame : SameAccounts d₁ (addLink d₁ (entryInode d.data se)) := modifyInode_sameAccounts d₁ _ _
    rw [InodeInUse, validInode_of_layout hsame.layout, hsame.getInodeUsage_eq]
    exact hm
  have hmade : LinkMade d (addLink d₁ (entryInode d.data se)) (entryInode d.data pe) r
      (entryInode d.data se) (lastComponent dest) :=
    hins.linkMade hc h.names hp (h.occupied _ hp) hlen hto.lands hto.absent hchild (by decide)
      (addLink_onlyLinks hc₁.tiled _) (hc₁.addLink _) hinUse (fun m => isDirInode_addLink.mpr)
      fun m hm => by rw [addLink_links, if_neg hm]
  have hmore : ((addLink d₁ (entryInode d.data se)).inodeTable (entryInode d.data se)).iLinksCount
      = wrap 16 ((d.inodeTable (entryInode d.data se)).iLinksCount + 1 : Nat) := by
    obtain ⟨iBlocks, iBlock, htable⟩ := hins.inode (entryInode d.data se)
    rw [addLink_links, if_pos rfl, htable]
  rw [hadd.entryInode_eq hse]
  obtain ⟨i, mem, d₂, hrem, hrun, hp', hn⟩ := hmade.rm hc hto now'
  exact ⟨_, hrun, hmade.restored_hard h hp' hused hn (h.linked ms se hse) hmore hrem
    (hmade.removed hrem hp' hn now')⟩

/-- The place of the link is there after an inode and a block have been taken. -/
theorem LinkPlace.allocated (hto : LinkPlace d dest pe) (h : Consistent d) {d₀ : Disk} {mode k : Nat}
    (ha : Allocated d d₀ n mode k) (hmode : typeBits mode ≠ ext2SIfdir) :
    entryInode d₀.data pe = entryInode d.data pe ∧ LinkPlace d₀ dest pe := by
  have hp := hto.isDirInode
  obtain ⟨m, hl⟩ := h.traversePath_live (dropLast_ne_nil dest) hto.parent
  have hinode := ha.entryInode_eq h hl
  have hp₀ := (ha.isDirInode hmode).mpr hp
  refine ⟨hinode, ?_, ?_, by rwa [hinode], hto.length, ?_, ?_⟩
  · rw [ha.dirsKept.traversePath_eq h (dropLast_ne_nil dest)]
    exact hto.parent
  · rw [isDirectory, (ha.dirsKept.sameEntry h.tiled hl).fileType]
    exact hto.dir
  · rw [hinode, (ha.dirsKept _ hp).findMatchingEntry_eq h hp, hto.absent]
  · rw [hinode]
    exact ⟨hp₀, hto.lands.2.1, (ha.lands_iff hp.1).mpr hto.lands.2.2⟩

/-- A symbolic link, made and removed. -/
theorem LinkPlace.sym_undone (hto : LinkPlace d dest pe) (h : WellBuilt d) (hn : n ∈ freeInodes d)
    (hsource : source.length < ext2BlockSize) (hb : b ∈ freeBlocks d)
    (hins : Inserted (symlink now source d n b) (entryInode d.data pe) n (lastComponent dest)
      ext2FtSymlink (.done (some r) d')) :
    ∃ d'', ext2Rm now' dest d' = .done () d'' ∧ Restored d d'' := by
  have hc := h.consistent
  have hmode : typeBits ext2SIflnk ≠ ext2SIfdir := by decide
  have ha := hc.sound.symlink_allocated now hn hsource hb
  have htakes := symlink_takes hc.sound.toCounted now source hn hb
  have hslots := getInodeBlockNumber_symlink hc.sound now hn hb hsource
  generalize symlink now source d n b = d₀ at hins ha htakes hslots
  obtain ⟨hinode, hto₀⟩ := hto.allocated hc ha hmode
  have hc₀ := ha.consistent hc hmode
  rw [← hinode] at hins
  have hp₀ := hto₀.isDirInode
  have hlen := hto.length
  have hchild : NamesInode d₀ n (ext2FtSymlink % 2 ^ 8) := by
    refine ⟨(ha.inUse n).mpr (.inr rfl), iff_of_false (by decide) ?_⟩
    rw [ha.isDirInode hmode]
    exact fun hdir => not_inodeInUse_of_free hn hdir.1
  have hpc : Contained d₀ (entryInode d₀.data pe) (lastComponent dest) 0 :=
    hc₀.contained hp₀ fun _ => .inl (by omega)
  have hocc : Occupied d₀ (entryInode d₀.data pe) := by
    have hp := hto.isDirInode
    rw [hinode]
    exact (ha.dirsKept _ hp).occupied hc.tiled hp (h.occupied _ hp)
  have hmade : LinkMade d₀ d' (entryInode d₀.data pe) r n (lastComponent dest) :=
    hins.linkMade hc₀ ((ha.sameLive hc hmode).namesDistinct h.names) hp₀ hocc hlen hto₀.lands
      hto₀.absent hchild (by decide) ⟨SameLive.refl d', SameSpace.refl d', fun _ _ => rfl⟩
      (hins.consistent hc₀ hp₀.1.1 hpc hchild) (fun _ hm => hm) (fun _ hm => hm) fun _ _ => rfl
  have hlink : (d'.inodeTable n).iLinksCount = 1 := by
    obtain ⟨iBlocks, iBlock, htable⟩ := hins.inode n
    rw [htable]
    exact ha.links
  have hbne : b ≠ 0 := by
    have := (mem_freeBlocks.mp hb).1
    omega
  obtain ⟨i, mem, d₂, hrem, hrun, hp', hn'⟩ := hmade.rm hc₀ hto₀ now'
  exact ⟨_, hrun, hmade.restored_sym h ha htakes hbne hslots hp' hn' hlink hrem
    (hmade.removed hrem hp' hn' now')⟩

/-- **`ext2_ln`, and then `ext2_rm` on its destination, is the identity.** -/
theorem link_then_remove (h : WellBuilt d) (isSymLink : Bool)
    (hlen : (lastComponent dest).length ≤ 255)
    (hdir : isDirectory d (traversePath d (splitPath dest).dropLast) = true)
    (hplace : ParentHasPlace d dest) (hrun : ext2Ln now source dest isSymLink d = .done () d') :
    ∃ d'', ext2Rm now' dest d' = .done () d'' ∧ Restored d d'' := by
  have hc := h.consistent
  rcases ext2Ln_cases d now source dest isSymLink with
    ⟨status, hexit, -⟩ | ⟨se, pe, hpaths, hfinish⟩
  · rw [hexit] at hrun
    cases hrun
  · rw [hpaths.parent] at hdir
    have hto := hpaths.linkPlace hc hlen hdir (hplace pe hpaths.parent)
    have hout := hc.sound.finishLink_outcome now (afterStrtok source) se pe (lastComponent dest)
      isSymLink hto.isDirInode.1.1
    rw [← hfinish, hrun] at hout
    cases hout with
    | hard hins =>
      obtain ⟨ms, hse⟩ := hc.traversePath_live (splitPath_ne_nil source) hpaths.src
      refine hto.hard_undone h hse ?_ hins
      rw [← (hc.names ms se hse).2, ← isDirectory_some, hpaths.notDir]
      decide
    | sym hn _ hsource hb hins => exact hto.sym_undone h hn hsource hb hins

end

/-! ## The small image -/

theorem smallImage_wellBuilt : WellBuilt smallImage where
  consistent := smallImage_consistent
  names := smallImage_namesDistinct
  occupied p hp i hi hne := by
    obtain rfl := smallDisk_isDirInode hp
    obtain ⟨-, h23⟩ := stored_smallDisk (r := .slot 2 i) ⟨hp.1.1, hi⟩ hne
    have h23 : getInodeBlockNumber smallImage 2 i = 23 := h23
    have hentries : liveEntries smallImage.data (getBlock 23) = [23552, 23564, 23576] :=
      smallData_entries
    rw [h23, hentries]
    exact List.cons_ne_nil _ _
  linked m e hl := by
    have hlinks : ∀ x ∈ [23552, 23564, 23576],
        0 < (smallImage.inodeTable (entryInode smallImage.data x)).iLinksCount ∧
          (smallImage.inodeTable (entryInode smallImage.data x)).iLinksCount < 2 ^ 16 := by
      decide +kernel
    exact hlinks e (smallDisk_liveIn hl).2

theorem link_then_remove_example : ∃ d' d'',
    ext2Ln 0 [47, 102] [47, 103] true smallImage = .done () d' ∧
      ext2Rm 1 [47, 103] d' = .done () d'' ∧ Restored smallImage d'' := by
  have hdone : (ext2Ln 0 [47, 102] [47, 103] true smallImage).isDone = true := by decide +kernel
  obtain ⟨⟨⟩, d', hrun⟩ := Outcome.exists_of_isDone hdone
  have hlen : (lastComponent [47, 103]).length ≤ 255 := by decide
  have hroot : traversePath smallImage (splitPath [47, 103]).dropLast = some 23552 := by
    decide +kernel
  have hdir : isDirectory smallImage (traversePath smallImage (splitPath [47, 103]).dropLast)
      = true := by decide +kernel
  have hplace : ParentHasPlace smallImage [47, 103] := by
    intro pe hpe
    obtain rfl := Option.some.inj (hroot.symm.trans hpe)
    exact .inr ⟨1, by decide, by decide +kernel⟩
  obtain ⟨d'', hrm, hsame⟩ := link_then_remove smallImage_wellBuilt true hlen hdir hplace hrun
  exact ⟨d', d'', hrun, hrm, hsame⟩

end Ext2
end OsAssignments
