import OsAssignments.Ext2.CopyRun
import OsAssignments.Ext2.InsertFrame
import OsAssignments.Ext2.LinkRun

/-!
# Images with one inode more

What the commands do before they make an entry: an inode is handed out and filled in, and
blocks are taken.

* `Prepared d d' k` — `k` blocks are no longer free, and the inodes in use and their files are
  as they were; `Allocated d d' n mode k` — moreover inode `n` is new, with this mode and one
  link.
* `symlink_allocated`, `newFile_allocated` — the images of `ext2_ln` and `ext2_cp`.
* `Allocated.consistent`, `Allocated.sameLive` — what is made is no directory: the image is
  consistent again, with the same entries.
-/

namespace OsAssignments
namespace Ext2

open ByteMemory MachineWord ExitState Ownership

/-- `k` blocks are taken, and the inodes in use and their files are as they were. -/
structure Prepared (d d' : Disk) (k : Nat) : Prop where
  sound : Sound d'
  layout : d'.layout = d.layout
  kept : ∀ m, InodeInUse d m → SameFile d d' m ∧ d'.inodeTable m = d.inodeTable m
  stillInUse : ∀ m, InodeInUse d m → InodeInUse d' m
  indirect : ∀ m, indirectBlock d' m = indirectBlock d m
  card : (freeBlocks d').card = (freeBlocks d).card - k

/-- Moreover inode `n` is new. -/
structure Allocated (d d' : Disk) (n mode k : Nat) : Prop extends Prepared d d' k where
  free : n ∈ freeInodes d
  inUse : ∀ m, InodeInUse d' m ↔ InodeInUse d m ∨ m = n
  mode : (d'.inodeTable n).iMode = mode
  links : (d'.inodeTable n).iLinksCount = 1

section

variable {pad : Bool} {d d' : Disk} {n m mode k p : Nat} {name : CString}

theorem not_inodeInUse_of_free (hn : n ∈ freeInodes d) : ¬ InodeInUse d n := by
  intro hused
  have hfree := (mem_freeInodes.mp hn).2
  rw [hused.2] at hfree
  cases hfree

/-! ## What is kept -/

namespace Prepared

theorem refl (h : Sound d) : Prepared d d 0 :=
  ⟨h, rfl, fun m _ => ⟨SameFile.refl d m, rfl⟩, fun _ hm => hm, fun _ => rfl, rfl⟩

variable (hpre : Prepared d d' k)

include hpre

theorem dirsKept : DirsKept d d' := fun m hm => (hpre.kept m hm.1).1

/-- The inode number of an entry in use stays what it was. -/
theorem entryInode_eq (h : ConsistentAs pad d) {e : Nat} (hl : LiveIn d m e) :
    entryInode d'.data e = entryInode d.data e := (hpre.dirsKept.sameEntry h.tiled hl).inode

theorem entryPlace_eq (hp : InodeInUse d p) : entryPlace d' p name = entryPlace d p name :=
  entryPlace_congr (hpre.kept p hp).1

/-- The block that takes a name is as it was. -/
theorem slackAt (hT : DirsTiled pad d) (hdir : IsDirInode d' p → IsDirInode d p)
    (h : SlackAt d p name) : SlackAt d' p name := by
  intro hp r hplace
  have hp := hdir hp
  rw [hpre.entryPlace_eq hp.1] at hplace
  have hcut := h hp r hplace
  obtain ⟨i, mem, hi, hne, hmake, -⟩ := makeEntryInInode_of_place hplace 0 0
  rw [div_of_make hmake] at hcut ⊢
  exact (hT p hp i hi hne).cutsSlack_congr ((hpre.dirsKept p hp).bytes i hne) hcut

theorem lands_iff (hp : InodeInUse d p) : Lands d' p name ↔ Lands d p name :=
  (hpre.kept p hp).1.lands_iff (hpre.indirect p)

theorem contained (hp : InodeInUse d p) (hc : Contained d p name k) : Contained d' p name 0 := by
  rw [Contained] at hc ⊢
  rw [hpre.entryPlace_eq hp]
  cases hplace : entryPlace d p name with
  | some r =>
    rw [hplace] at hc
    exact hc
  | none =>
    rw [hplace] at hc
    refine hc.imp_right fun hle => ?_
    rw [hpre.card]
    omega

end Prepared

namespace Allocated

variable (ha : Allocated d d' n mode k)

include ha

theorem isDirInode (hmode : typeBits mode ≠ ext2SIfdir) : IsDirInode d' m ↔ IsDirInode d m := by
  rw [IsDirInode, IsDirInode, ha.inUse]
  constructor
  · rintro ⟨hm | rfl, htype⟩
    · exact ⟨hm, (ha.kept m hm).2 ▸ htype⟩
    · rw [ha.mode] at htype
      exact absurd htype hmode
  · rintro ⟨hm, htype⟩
    exact ⟨.inl hm, by rw [(ha.kept m hm).2, htype]⟩

theorem sameLive (h : ConsistentAs pad d) (hmode : typeBits mode ≠ ext2SIfdir) : SameLive d d' :=
  ha.dirsKept.sameLive h.tiled (fun _ => (ha.isDirInode hmode).mpr) fun _ _ hl =>
    (ha.isDirInode hmode).mp hl.1

theorem consistent (h : ConsistentAs pad d) (hmode : typeBits mode ≠ ext2SIfdir) :
    ConsistentAs pad d' :=
  ha.dirsKept.consistent h ha.sound (fun _ => ha.isDirInode hmode) ha.stillInUse

end Allocated

/-! ## How the images come about -/

theorem InodeInUse.handedOut {bs : List Nat} :
    InodeInUse (handOut d bs) m ↔ InodeInUse d m := by
  rw [InodeInUse, InodeInUse, validInode_of_layout handOut_layout, getInodeUsage_handOut]

theorem inodeInUse_newInode (h : Counted d) (now size : Nat) (hn : ValidInode d n) :
    InodeInUse (newInode now mode size d n) m ↔ InodeInUse d m ∨ m = n := by
  have husage : ∀ m, getInodeUsage (newInode now mode size d n) m
      = getInodeUsage (claimInode d n) m :=
    fun m => (modifyInode_sameAccounts (claimInode d n) n _).getInodeUsage_eq m
  rw [InodeInUse, InodeInUse, validInode_of_layout (newInode_layout now mode size d n), husage]
  by_cases hm : ValidInode d m
  · rw [getInodeUsage_claimInode (h.validInode_lt hn) (h.validInode_lt hm)]
    by_cases hmn : m = n
    · simp [hmn, hn]
    · simp [hmn]
  · have hmn : m ≠ n := fun heq => hm (heq ▸ hn)
    simp [hm, hmn]

/-- An inode alone. -/
theorem Sound.newInode_allocated (h : Sound d) (now mode size : Nat) (hn : n ∈ freeInodes d) :
    Allocated d (newInode now mode size d n) n mode 0 := by
  have hvalid := (mem_freeInodes.mp hn).1
  have hself : (newInode now mode size d n).inodeTable n
      = { (claimInode d n).inodeTable n with
        iMode := mode, iSize := size, iCtime := now, iDtime := 0, iBlocks := 0, iLinksCount := 1 } := by
    rw [newInode, Disk.modifyInode_inodeTable_self]
  have hused : ∀ m, InodeInUse (newInode now mode size d n) m ↔ InodeInUse d m ∨ m = n :=
    fun m => inodeInUse_newInode h.toCounted now size hvalid
  refine ⟨⟨h.withNewInode now mode size hn, newInode_layout now mode size d n, fun m hm => ?_,
    fun m hm => (hused m).mpr (.inl hm), (newInode_footprint now mode size d n).indirect,
    by rw [freeBlocks_newInode]; rfl⟩, hn, hused, by rw [hself], by rw [hself]⟩
  have hne : m ≠ n := fun heq => not_inodeInUse_of_free hn (heq ▸ hm)
  exact ⟨h.newInode_sameFile now mode size hn hm, (newInode_footprint now mode size d n).inode m hne⟩

/-- Blocks taken before. -/
theorem Taken.allocated {bs : List Nat} (ht : Taken d k bs) (h : Sound d)
    (ha : Allocated (handOut d bs) d' n mode 0) : Allocated d d' n mode k := by
  have hused : ∀ m, InodeInUse d' m ↔ InodeInUse d m ∨ m = n := fun m => by
    rw [ha.inUse, InodeInUse.handedOut]
  refine ⟨⟨ha.sound, ha.layout.trans handOut_layout, fun m hm => ?_,
    fun m hm => (hused m).mpr (.inl hm),
    fun m => (ha.indirect m).trans (handOut_footprint.indirect m), ?_⟩,
    freeInodes_handOut ▸ ha.free, hused, ha.mode, ha.links⟩
  · obtain ⟨hsame, htable⟩ := ha.kept m (InodeInUse.handedOut.mpr hm)
    exact ⟨(ht.sameFile h hm.1).trans hsame, htable.trans (by rw [handOut_inodeTable])⟩
  · rw [ha.card, (card_freeBlocks_handOut h.toCounted ht.nodup ht.free).2, ht.length]
    rfl

/-- A block that the new inode gets and that is written to. -/
theorem Allocated.withBlock {d₁ : Disk} (ha : Allocated d d₁ n mode k) (i : Nat) {b : Nat}
    {mem : Memory} (hb : b ∈ freeBlocks d₁) (hmem : ∀ c, c ≠ b →
      AgreeOn (attachBlock d₁ n i b).data mem (getBlock c) ext2BlockSize) :
    Allocated d ((attachBlock d₁ n i b).withData mem) n mode (k + 1) := by
  have hn : InodeInUse d₁ n := (ha.inUse n).mpr (.inr rfl)
  have hatt := attachBlock_footprint d₁ n i b
  have hdata : Footprint (attachBlock d₁ n i b) ((attachBlock d₁ n i b).withData mem) ∅ {b} :=
    withData_footprint (attachBlock d₁ n i b) hmem
  have hwrite : Footprint (attachBlock d₁ n i b) ((attachBlock d₁ n i b).withData mem) {n}
      ({b} ∪ indirectOf d₁ n) := hdata.mono (Set.empty_subset _) (by simp)
  have hfoot := hatt.trans hwrite
  obtain ⟨iBlocks, iBlock, hself⟩ := attachBlock_inode d₁ n i b n
  have hself : ((attachBlock d₁ n i b).withData mem).inodeTable n
      = { d₁.inodeTable n with iBlocks := iBlocks, iBlock := iBlock } := hself
  have hused : ∀ m, InodeInUse ((attachBlock d₁ n i b).withData mem) m ↔ InodeInUse d m ∨ m = n := by
    intro m
    have husage : getInodeUsage ((attachBlock d₁ n i b).withData mem) m = getInodeUsage d₁ m :=
      ((attachBlock_sameAccounts d₁ n i b).getInodeUsage_eq m).trans (getInodeUsage_handOut m)
    rw [← ha.inUse, InodeInUse, InodeInUse, validInode_of_layout hfoot.layout, husage]
  refine ⟨⟨?_, hfoot.layout.trans ha.layout, fun m hm => ?_, fun m hm => (hused m).mpr (.inl hm),
    fun m => (hfoot.indirect m).trans (ha.indirect m), ?_⟩, ha.free, hused,
    by rw [hself]; exact ha.mode, by rw [hself]; exact ha.links⟩
  · refine (ha.sound.attachedBlock i hn.1 hb).writtenData (fun m hm _ => ?_) hmem
    rw [hatt.indirect]
    exact ha.sound.stored_ne_of_free hb (r := .indirect m)
      ((validInode_of_layout hatt.layout).mp hm)
  · have hne : m ≠ n := fun heq => not_inodeInUse_of_free ha.free (heq ▸ hm)
    have hm₁ : InodeInUse d₁ m := (ha.inUse m).mpr (.inl hm)
    obtain ⟨hsame, htable⟩ := ha.kept m hm
    refine ⟨hsame.trans (hfoot.sameFile hne (Set.disjoint_left.mpr fun c hcm hcb => ?_)),
      (hfoot.inode m hne).trans htable⟩
    rcases hcb with hcb | hcb
    · rw [Set.mem_singleton_iff.mp hcb] at hcm
      exact ha.sound.not_mem_blocksOf hm₁.1 (mem_freeBlocks.mp hb).2 hcm
    · exact Set.disjoint_left.mp (ha.sound.disjoint_blocksOf hm₁.1 hn.1 hne) hcm
        (indirectOf_subset d₁ n hcb)
  · have hfree : freeBlocks ((attachBlock d₁ n i b).withData mem) = freeBlocks (handOut d₁ [b]) :=
      (attachBlock_sameAccounts d₁ n i b).freeBlocks_eq
    have hcard := (card_freeBlocks_handOut ha.sound.toCounted (List.nodup_singleton b)
      (by simpa using hb)).2
    rw [hfree, hcard, ha.card, List.length_singleton]
    omega

/-- The image with a new symbolic link. -/
theorem Sound.symlink_allocated (h : Sound d) (now : Nat) {source : CString} {b : Nat}
    (hn : n ∈ freeInodes d) (hlen : source.length < ext2BlockSize) (hb : b ∈ freeBlocks d) :
    Allocated d (symlink now source d n b) n ext2SIflnk 1 := by
  have ha : Allocated d (symlinkInode now source d n) n ext2SIflnk 0 :=
    h.newInode_allocated now ext2SIflnk _ hn
  have hb' : b ∈ freeBlocks (symlinkInode now source d n) := by
    rw [symlinkInode, freeBlocks_newInode]
    exact hb
  exact ha.withBlock 0 hb' fun c hc => writeBytes_block_agreeOn _ hc (by simpa using hlen)

/-- The image with a new file. -/
theorem Taken.newFile_allocated {bs : List Nat} (ht : Taken d k bs) (h : Sound d) (now : Nat)
    (content : List UInt8) (hn : n ∈ freeInodes d) :
    Allocated d (newFile now content (handOut d bs) n) n ext2FtRegFile k := by
  have hout : Sound (handOut d bs) := h.handedOut ht.nodup ht.free
  have hn' : n ∈ freeInodes (handOut d bs) := by
    rw [freeInodes_handOut]
    exact hn
  have ha : Allocated (handOut d bs) (newFile now content (handOut d bs) n) n ext2FtRegFile 0 :=
    hout.newInode_allocated now ext2FtRegFile _ hn'
  exact ht.allocated h ha

end

end Ext2
end OsAssignments
