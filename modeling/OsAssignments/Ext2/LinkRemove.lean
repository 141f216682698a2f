import OsAssignments.Ext2.DirSize
import OsAssignments.Ext2.LastLink
import OsAssignments.Ext2.NewDirectory
import OsAssignments.Ext2.OtherFiles
import OsAssignments.Ext2.Space

/-!
# A link made and removed

What `ext2_rm` on the destination of `ext2_ln` does to the directory of the entry.

* `EntryRemoved.keepsBlock`, `EntryRemoved.givesBlock` — a removal with and without a release.
* `Inserted.undone` — an entry inserted and removed leaves the directory and the accounts alone.
* `LinkMade`, `LinkUndone` — the image after `ext2_ln`, and what is left of it once the entry is
  gone again (`LinkMade.removed`).
-/

namespace OsAssignments
namespace Ext2

open ByteMemory MachineWord ExitState

section

variable {pad : Bool} {d d' d₀ d₁ d₂ : Disk} {n m p i e r child fileType now : Nat} {mem : Memory}
  {name : CString}

/-! ## One removal -/

namespace EntryRemoved

variable (hrem : EntryRemoved d d₁ p i e mem) (h : Consistent d) (hp : IsDirInode d p)
include hrem h hp

/-- The block that is released is in use. -/
theorem takes : Takes d₁ d (releasedWith d p i mem).toFinset ∅ := by
  have heq := hrem.releasedWith_eq hp h
  have hlen := length_releasedWith_le d p i mem
  have hnodup : (releasedWith d p i mem).Nodup := by
    match releasedWith d p i mem, hlen with
    | [], _ => exact List.nodup_nil
    | [b], _ => exact List.nodup_singleton b
  have hused : ∀ b ∈ releasedWith d p i mem, b < 2 ^ 32 ∧ getBlockUsage d b = true := by
    intro b hb
    obtain ⟨hne, j, hj, rfl⟩ := mem_heldBlocks.mp hb
    have hlt : j < inodeBlockLimit := by
      rw [emptiedSlots] at hj
      split at hj
      · rw [List.mem_singleton.mp hj]
        exact hrem.lt
      · cases hj
    have huse := h.sound.stored_inUse (r := .slot p j) ⟨hp.1.1, hlt⟩ hne
    exact ⟨huse.lt_two_pow h.sound.toCounted, huse.marked⟩
  have htakes := hrem.released.takes (by rwa [heq]) (by rwa [heq])
  rw [heq] at htakes
  have hback : SameSpace (d.withData mem) d := withData_sameSpace (d.withData mem) d.data
  exact htakes.congr hback

/-- With a neighbour, the directory keeps its blocks. -/
theorem keepsBlock (hnb : HasNeighbour d p e) :
    Takes d₁ d ∅ ∅ ∧ ∀ j, getInodeBlockNumber d₁ p j = getInodeBlockNumber d p j := by
  have hleft := (hrem.hasNeighbour_iff h hp).mp hnb
  have htakes := hrem.takes h hp
  have hslots := hrem.slot_eq hp h
  rw [releasedWith, emptiedSlots, if_neg hleft] at htakes
  simp only [emptiedSlots, if_neg hleft, List.not_mem_nil, if_false] at hslots
  exact ⟨htakes, hslots⟩

/-- Without one, its block is given back. -/
theorem givesBlock (hnb : ¬ HasNeighbour d p e) :
    Takes d₁ d {getInodeBlockNumber d p i} ∅ ∧
      ∀ j, getInodeBlockNumber d₁ p j = if j = i then 0 else getInodeBlockNumber d p j := by
  have hempty := not_not.mp (mt (hrem.hasNeighbour_iff h hp).mpr hnb)
  have htakes := hrem.takes h hp
  have hslots := hrem.slot_eq hp h
  have hone : heldBlocks d p [i] = [getInodeBlockNumber d p i] := by
    rw [heldBlocks, List.map_singleton, List.filter_cons_of_pos (by simpa using hrem.slot),
      List.filter_nil]
  rw [releasedWith, emptiedSlots, if_pos hempty, hone] at htakes
  simp only [emptiedSlots, hempty, if_true, List.mem_singleton] at hslots
  exact ⟨htakes, hslots⟩

end EntryRemoved

/-! ## An entry inserted and removed -/

/-- Only the numbers of links change. -/
structure OnlyLinks (d d' : Disk) : Prop where
  sameLive : SameLive d d'
  space : SameSpace d d'
  slots : ∀ m j, getInodeBlockNumber d' m j = getInodeBlockNumber d m j

/-- Every block of the directory has an entry in use. -/
def Occupied (d : Disk) (p : Nat) : Prop :=
  ∀ i, i < inodeBlockLimit → getInodeBlockNumber d p i ≠ 0 →
    liveEntries d.data (getBlock (getInodeBlockNumber d p i)) ≠ []

/-- An insertion into an existing block moves no block. -/
theorem Sound.slots_placed (h : Sound d) (hp : ValidInode d p) (hi : i < inodeBlockLimit)
    {binding : CString × Nat × Nat}
    (hins : Insertion d.data mem (getBlock (getInodeBlockNumber d p i)) r binding)
    (hm : ValidInode d m) (j : Nat) :
    getInodeBlockNumber (d.withData mem) m j = getInodeBlockNumber d m j := by
  apply getInodeBlockNumber_congr
  · rfl
  · intro hind
    have hdisj := block_disjoint (h.slot_ne_indirect hp hi hm hind)
    exact hins.frame (by omega)

/-- The entry lies in the block of the slot it was inserted for. -/
theorem Insertion.div_eq {mem' : Memory} {c : Nat} {binding : CString × Nat × Nat}
    (hins : Insertion mem mem' (getBlock c) r binding) : r / ext2BlockSize = c := by
  obtain ⟨l₁, l₂, -, hnew⟩ := hins.entries
  have hin := isEntryInBlock_of_mem (by rw [hnew]; simp : r ∈ blockEntries mem' (getBlock c))
  rw [getBlock_eq, ext2BlockSize_eq] at hin
  rw [ext2BlockSize_eq]
  omega

/-- **An entry inserted and removed leaves the accounts and the slots of its directory as they
were.** -/
theorem Inserted.undone (h : Consistent d₀) (hp : IsDirInode d₀ p) (hocc : Occupied d₀ p)
    (hlen : name.length ≤ 255) (hland : LandsLive d₀ p name)
    (hins : Inserted d₀ p child name fileType (.done (some r) d₁)) (hlinks : OnlyLinks d₁ d')
    (h' : Consistent d') (hrem : EntryRemoved d' d₂ p i r mem) :
    SameSpace d₀ d₂ ∧ ∀ j, getInodeBlockNumber d₂ p j = getInodeBlockNumber d₀ p j := by
  have hc : Contained d₀ p name 0 := h.contained hp fun _ => .inl (by omega)
  have hadd := hins.oneAdded h hp.1.1 hc hland
  have hp' : IsDirInode d' p := by
    have hl : LiveIn d' p r := (hlinks.sameLive.live p r).mpr ((hadd.live p r).mpr (.inr rfl))
    exact hl.1
  cases hins with
  | @placed r i₀ mem₀ hplace hi hne hmake =>
    have hinsert := (h.tiled p hp i₀ hi hne).insertion hmake
    have hnb : HasNeighbour d' p r := by
      obtain ⟨x, hx⟩ := List.exists_mem_of_ne_nil _ (hocc i₀ hi hne)
      have hl : LiveIn d₀ p x := ⟨hp, i₀, hi, hne, hx⟩
      refine ⟨x, ?_, (hlinks.sameLive.live p x).mpr ((hadd.live p x).mpr (.inl hl)), ?_⟩
      · rintro rfl
        exact hadd.fresh (p, x) rfl hl
      · rw [div_of_live hx, hinsert.div_eq]
    obtain ⟨htakes, hslots⟩ := hrem.keepsBlock h' hp' hnb
    have hstart : Takes d₀ d' ∅ ∅ := ((withData_sameSpace d₀ mem₀).trans hlinks.space).takes
    refine ⟨hstart.unique htakes, fun j => ?_⟩
    rw [hslots, hlinks.slots, h.sound.slots_placed hp.1.1 hi hinsert hp.1.1]
  | @newBlock i₀ b hplace hfirst hb =>
    have hatt := (hfirst.attachable_iff hplace).mpr hland.2.2
    have hnew := h.sound.getInodeBlockNumber_newEntry child fileType i₀ hp.1.1 hb
      (by omega : name.length ≤ 1016)
    have hapart : ∀ j, j < inodeBlockLimit → getInodeBlockNumber d₀ p j ≠ b := fun j hj =>
      h.sound.stored_ne_of_free hb (r := .slot p j) ⟨hp.1.1, hj⟩
    have hblock : getBlock b / ext2BlockSize = b := by
      rw [getBlock_eq, ext2BlockSize_eq]
      omega
    have hnb : ¬ HasNeighbour d' p (getBlock b) := by
      rintro ⟨x, hne, hl, hdiv⟩
      rcases (hadd.live p x).mp ((hlinks.sameLive.live p x).mp hl) with hold | hadded
      · obtain ⟨-, j, hj, -, hx⟩ := hold
        rw [div_of_live hx, hblock] at hdiv
        exact hapart j hj hdiv
      · exact hne (Prod.mk.inj hadded).2
    obtain ⟨htakes, hslots⟩ := hrem.givesBlock h' hp' hnb
    have hi : getInodeBlockNumber d' p i = b := by
      obtain ⟨l₁, l₂, hold, -⟩ := hrem.removal.live
      have hdiv := div_of_live (x := getBlock b) (by rw [hold]; simp :
        getBlock b ∈ liveEntries d'.data (getBlock (getInodeBlockNumber d' p i)))
      rw [← hdiv, hblock]
    have hii : i = i₀ := by
      by_contra hne
      rw [hlinks.slots, hnew, if_neg fun hand => hne hand.1] at hi
      exact hapart i hrem.lt hi
    have hstart : Takes d₀ d' {b} ∅ := by
      have hput : Takes d₀ (newEntry d₀ p i₀ b child name fileType) {b} ∅ := by
        rw [newEntry]
        exact attachBlock_takes h.sound.toCounted hb _
      exact hput.congr hlinks.space
    rw [hi] at htakes
    refine ⟨hstart.unique htakes, fun j => ?_⟩
    rw [hslots, hlinks.slots, hnew, hii]
    by_cases hj : j = i₀
    · rw [if_pos hj, hj, hfirst.empty]
    · rw [if_neg hj, if_neg fun hand => hj hand.1]

/-! ## One link more -/

theorem addLink_inode (d : Disk) (n m : Nat) :
    ∃ links, (addLink d n).inodeTable m = { d.inodeTable m with iLinksCount := links } := by
  rw [addLink, Disk.modifyInode_inodeTable]
  split
  · rename_i heq
    exact ⟨_, by rw [heq]⟩
  · exact ⟨_, rfl⟩

theorem addLink_links (d : Disk) (n m : Nat) : ((addLink d n).inodeTable m).iLinksCount
    = if m = n then wrap 16 ((d.inodeTable n).iLinksCount + 1 : Nat)
      else (d.inodeTable m).iLinksCount := by
  rw [addLink, Disk.modifyInode_inodeTable]
  split
  · rfl
  · rfl

theorem isDirInode_addLink : IsDirInode (addLink d n) m ↔ IsDirInode d m := by
  obtain ⟨links, hm⟩ := addLink_inode d n m
  have hsame : SameAccounts d (addLink d n) := modifyInode_sameAccounts d n _
  rw [IsDirInode, IsDirInode, InodeInUse, InodeInUse, validInode_of_layout hsame.layout,
    hsame.getInodeUsage_eq, hm]

theorem addLink_dirsKept (d : Disk) (n : Nat) : DirsKept d (addLink d n) :=
  fun m _ => addLink_sameFile d n m

theorem addLink_onlyLinks (hT : DirsTiled pad d) (n : Nat) : OnlyLinks d (addLink d n) :=
  ⟨(addLink_dirsKept d n).sameLive hT (fun _ => isDirInode_addLink.mpr) fun _ _ hl =>
    isDirInode_addLink.mp hl.1, (modifyInode_sameAccounts d n _).sameSpace,
    fun m => (addLink_sameFile d n m).slots⟩

theorem ConsistentAs.addLink (h : ConsistentAs pad d) (n : Nat) :
    ConsistentAs pad (Ext2.addLink d n) := by
  have hsame : SameAccounts d (Ext2.addLink d n) := modifyInode_sameAccounts d n _
  refine (addLink_dirsKept d n).consistent h (h.sound.modifiedInode n _ fun _ => rfl)
    (fun m => isDirInode_addLink) fun m hm => ?_
  rw [InodeInUse, validInode_of_layout hsame.layout, hsame.getInodeUsage_eq]
  exact hm

/-! ## The image after `ext2_ln` -/

/-- The entry `r` for the inode `child`, which is no directory, has been made in the directory
`p`. -/
structure LinkMade (d d' : Disk) (p r child : Nat) (name : CString) : Prop where
  consistent : Consistent d'
  names : NamesDistinct d'
  added : EntriesAdded d d' {(p, r)}
  name : entryName d'.data r = name
  inode : entryInode d'.data r = child
  fileType : entryFileType d'.data r ≠ ext2FtDir
  inUse : ∀ m, InodeInUse d m → InodeInUse d' m
  dirs : ∀ m, IsDirInode d m → IsDirInode d' m
  links : ∀ m, m ≠ child → (d'.inodeTable m).iLinksCount = (d.inodeTable m).iLinksCount
  slots : ∀ m, InodeInUse d m → m ≠ p → ∀ j, getInodeBlockNumber d' m j = getInodeBlockNumber d m j
  undone : ∀ d₂ i mem, EntryRemoved d' d₂ p i r mem →
    SameSpace d d₂ ∧ ∀ j, getInodeBlockNumber d₂ p j = getInodeBlockNumber d p j

/-- What an insertion makes, with the count of links adjusted afterwards or not. -/
theorem Inserted.linkMade (h : Consistent d) (hd : NamesDistinct d) (hp : IsDirInode d p)
    (hocc : Occupied d p) (hlen : name.length ≤ 255) (hland : LandsLive d p name)
    (hfind : findMatchingEntry d p name = none) (hchild : NamesInode d child (fileType % 2 ^ 8))
    (hft : fileType % 2 ^ 8 ≠ ext2FtDir)
    (hins : Inserted d p child name fileType (.done (some r) d₁)) (hlinks : OnlyLinks d₁ d')
    (h' : Consistent d') (huse : ∀ m, InodeInUse d₁ m → InodeInUse d' m)
    (hdirs : ∀ m, IsDirInode d₁ m → IsDirInode d' m)
    (hcount : ∀ m, m ≠ child → (d'.inodeTable m).iLinksCount = (d₁.inodeTable m).iLinksCount) :
    LinkMade d d' p r child name := by
  have hc : Contained d p name 0 := h.contained hp fun _ => .inl (by omega)
  have hadd := hins.oneAdded h hp.1.1 hc hland
  have hbind := hins.binding hlen
  have hl : LiveIn d₁ p r := (hadd.live p r).mpr (.inr rfl)
  have hkept := hlinks.sameLive.binding p r hl
  have hname : entryName d'.data r = name := (congrArg Prod.fst hkept).trans (congrArg Prod.fst hbind)
  have hinode : entryInode d'.data r = child % 2 ^ 32 :=
    (congrArg (fun binding => binding.2.1) hkept).trans (congrArg (fun binding => binding.2.1) hbind)
  have htype : entryFileType d'.data r = fileType % 2 ^ 8 :=
    (congrArg (fun binding => binding.2.2) hkept).trans (congrArg (fun binding => binding.2.2) hbind)
  refine ⟨h', hlinks.sameLive.namesDistinct (hins.namesDistinct h hp.1.1 hc hlen hland hd hfind),
    hadd.sameLive_after hlinks.sameLive h'.tiled.format, hname, ?_, by rwa [htype], fun m hm => ?_,
    fun m hm => hdirs m (hins.isDirInode.mpr hm), fun m hne => ?_, fun m hm hne j => ?_,
    fun d₂ i mem hrem => ?_⟩
  · rw [hinode, Nat.mod_eq_of_lt (h.sound.toCounted.validInode_lt hchild.1.1)]
  · exact huse m (hins.inodeInUse.mpr hm)
  · obtain ⟨iBlocks, iBlock, hm⟩ := hins.inode m
    rw [hcount m hne, hm]
  · rw [hlinks.slots, (hins.sameFile h.sound hp.1.1 hc hm.1 hne).slots]
  · exact hins.undone h hp hocc hlen hland hlinks h' hrem

/-- What is left after the entry has been removed again. -/
structure LinkUndone (d d₂ d₃ : Disk) (child : Nat) : Prop where
  space : SameSpace d d₂
  sameLive : SameLive d d₃
  dirs : ∀ m, IsDirInode d m → IsDirInode d₃ m
  links : ∀ m, InodeInUse d m → m ≠ child →
    (d₃.inodeTable m).iLinksCount = (d.inodeTable m).iLinksCount
  slots : ∀ m, InodeInUse d m → m ≠ child → ∀ j,
    getInodeBlockNumber d₃ m j = getInodeBlockNumber d m j

namespace LinkMade

variable {pe : Nat} {path : CString} (hmade : LinkMade d d' p r child (lastComponent path))
include hmade

/-- The path of the new entry leads to it. -/
theorem rmPath (h : Consistent d) (hparent : traversePath d (splitPath path).dropLast = some pe)
    (hdir : isDirectory d (some pe) = true) (hp : entryInode d.data pe = p) : RmPath d' path r pe := by
  have hne : ∀ c ∈ (splitPath path).dropLast, c ≠ [] := fun c hc =>
    splitPath_ne_nil path c (List.mem_of_mem_dropLast hc)
  refine ⟨?_, ?_, hmade.added.traversePath_kept hmade.names h hne hparent⟩
  · rw [splitPath_eq_append, ← lastComponent, ← hmade.name]
    exact hmade.added.traversePath_added hmade.names h hne hparent hdir (by rw [hp]; rfl)
  · rw [isDirectory, decide_eq_false_iff_not]
    exact hmade.fileType

/-- **Removing the new entry undoes the insertion**; what happens to its inode comes after
that. -/
theorem removed (hrem : EntryRemoved d' d₂ p i r mem) (hp : IsDirInode d' p)
    (hchild : InodeInUse d' child ∧ ¬ IsDirInode d' child) (now : Nat) :
    LinkUndone d d₂ (finishRm now d₂ child) child := by
  obtain ⟨hspace, hslots⟩ := hmade.undone d₂ i mem hrem
  have hback := hrem.finishRm_entriesAdded hp hmade.consistent hchild.1 hchild.2 now
  refine ⟨hspace, hmade.added.unique hback, fun m hm => ?_, fun m hm hne => ?_,
    fun m hm hne j => ?_⟩
  · exact (hrem.isDirInode_finishRm hp hmade.consistent hchild.1 hchild.2 now).mpr (hmade.dirs m hm)
  · obtain ⟨iBlock, htable⟩ := hrem.inode m
    rw [hrem.finishRm_inode hp hmade.consistent hchild.1 hchild.2 now hne, htable]
    exact hmade.links m hne
  · have hm' := hmade.inUse m hm
    rw [(hrem.finishRm_sameFile hp hmade.consistent hchild.1 hchild.2 now hm'.1 hne).slots]
    by_cases hmp : m = p
    · rw [hmp, hslots]
    · rw [(hrem.sameFile hp hmade.consistent hm'.1 hmp).slots, hmade.slots m hm hmp]

end LinkMade

end

end Ext2
end OsAssignments
