import OsAssignments.Ext2.Naming
import OsAssignments.Ext2.LinkIdentity
import OsAssignments.Ext2.Overwrite

/-!
# What the commands do to the tree

The four commands that change an image, on a run that returns 0, as changes of the entries in
use, of the inodes in use, and of their modes and link counts.

* `TreeCommand` — `ext2_mkdir`, `ext2_ln`, `ext2_cp` and `ext2_rm`; `TreeCommand.Stays` — a new
  entry does not reach over the end of its block, nor, in a directory, over the entries behind it.
* `EntryMade` — one entry more, if it lands, for a new inode or for one that gets a link more.
* `Overwritten` — an inode that was overwritten by a copy.
* `NameDropped` — one entry less.
* `ext2Ln_entryMade`, `ext2Cp_effect`, `ext2Rm_nameDropped` — the commands do that;
  `mkdir_effect` — a new directory, and an entry for it.
-/

namespace OsAssignments
namespace Ext2

open ByteMemory MachineWord ExitState

/-! ## The commands -/

inductive TreeCommand where
  | mkdir (path : CString)
  | file (cmd : FileCommand)
  | rm (path : CString)

/-- A run of the command. -/
def TreeCommand.run (now : Nat) (host : CString → Option (List UInt8)) : TreeCommand → Command Unit
  | .mkdir path => ext2Mkdir now path
  | .file cmd => cmd.run now host
  | .rm path => ext2Rm now path

/-- The entry gets bytes of its own.  What goes over the end of a block is the name of the first entry
of a new block, where `make_entry_in_inode` copies all of a name of over 1016 bytes; what goes over
other entries is an entry cut off one that its name fills exactly. -/
structure OwnPlace (d : Disk) (p : Nat) (name : CString) (used : Nat) : Prop where
  contained : Contained d p name used
  slack : SlackAt d p name

/-- Where the program pads the entries, a name of at most 255 bytes gets bytes of its own. -/
theorem ConsistentAs.ownPlace {d : Disk} {p : Nat} {name : CString} (h : Consistent d)
    (hp : IsDirInode d p) (hlen : name.length ≤ 255) (used : Nat) : OwnPlace d p name used :=
  ⟨h.contained hp fun _ => .inl (by omega), h.slackAt p name⟩

/-- An entry `r` for inode `n` in inode `p`, live if it lands. -/
structure EntryMade (d d' : Disk) (p r n : Nat) (name : CString) (fileType : Nat) : Prop where
  added : EntriesAdded d d' {q | q.1 = p ∧ q.2 = r ∧ LandsLive d p name}
  inode : LandsLive d p name → entryInode d'.data r = n
  type : LandsLive d p name → entryFileType d'.data r = fileType
  inUse : ∀ m, InodeInUse d' m ↔ InodeInUse d m ∨ m = n
  modes : ∀ m, InodeInUse d m → (d'.inodeTable m).iMode = (d.inodeTable m).iMode
  links : ∀ m, InodeInUse d m → m ≠ n →
    (d'.inodeTable m).iLinksCount = (d.inodeTable m).iLinksCount
  /-- The inode is new, or it gets a link more. -/
  target : (¬ InodeInUse d n ∧ (d'.inodeTable n).iLinksCount = 1) ∨
    (InodeInUse d n ∧
      (d'.inodeTable n).iLinksCount = wrap 16 ((d.inodeTable n).iLinksCount + 1 : Nat))

section

variable {pad : Bool} {d d' d₀ d₁ : Disk} {p r n m t k now fileType : Nat} {name : CString}

theorem Inserted.mode_links {child : Nat} {a : Option Nat}
    (hins : Inserted d p child name fileType (.done a d')) (m : Nat) :
    (d'.inodeTable m).iMode = (d.inodeTable m).iMode ∧
      (d'.inodeTable m).iLinksCount = (d.inodeTable m).iLinksCount := by
  obtain ⟨iBlocks, iBlock, htable⟩ := hins.inode m
  rw [htable]
  exact ⟨rfl, rfl⟩

/-- What a block of the parent that is prepared for it does to the entries. -/
theorem Prepared.entriesAdded (hpre : Prepared d d₀ k) (hT : DirsTiled pad d)
    (h₀ : ConsistentAs pad d₀) (hsame : SameLive d d₀) (hdir : IsDirInode d₀ p ↔ IsDirInode d p)
    (hp : InodeInUse d p) (hown : OwnPlace d p name k) {child : Nat}
    (hins : Inserted d₀ p child name fileType (.done (some r) d')) :
    EntriesAdded d d' {q | q.1 = p ∧ q.2 = r ∧ LandsLive d p name} := by
  have hadd := hins.entriesAdded h₀ (hpre.stillInUse p hp).1 (hpre.contained hp hown.contained)
    (hpre.slackAt hT hdir.mp hown.slack)
  have hland : LandsLive d₀ p name ↔ LandsLive d p name := by
    rw [LandsLive, LandsLive, hdir, hpre.lands_iff hp]
  rw [hland] at hadd
  exact hadd.sameLive_before hsame.symm

/-- The entry of a new inode. -/
theorem Allocated.entryMade {mode : Nat} (ha : Allocated d d₀ n mode k) (h : ConsistentAs pad d)
    (hmode : typeBits mode ≠ ext2SIfdir) (hp : InodeInUse d p) (hown : OwnPlace d p name k)
    (hft : fileType < 2 ^ 8) (hins : Inserted d₀ p n name fileType (.done (some r) d')) :
    EntryMade d d' p r n name fileType ∧ (d'.inodeTable n).iMode = mode := by
  have hentry := hins.entry
  have hn32 := h.sound.toCounted.validInode_lt (mem_freeInodes.mp ha.free).1
  have hkept : ∀ m, InodeInUse d m → d₀.inodeTable m = d.inodeTable m := fun m hm => (ha.kept m hm).2
  refine ⟨⟨ha.entriesAdded h.tiled (ha.consistent h hmode) (ha.sameLive h hmode)
    (ha.isDirInode hmode) hp hown hins, ?_, ?_, fun m => ?_, fun m hm => ?_, fun m hm _ => ?_,
    .inl ⟨?_, ?_⟩⟩, ?_⟩
  · exact fun _ => hentry.1.trans (Nat.mod_eq_of_lt hn32)
  · exact fun _ => hentry.2.trans (Nat.mod_eq_of_lt hft)
  · rw [hins.inodeInUse, ha.inUse]
  · rw [(hins.mode_links m).1, hkept m hm]
  · rw [(hins.mode_links m).2, hkept m hm]
  · exact not_inodeInUse_of_free ha.free
  · rw [(hins.mode_links n).2, ha.links]
  · rw [(hins.mode_links n).1, ha.mode]

/-- The entry of a hard link. -/
theorem Inserted.entryMade_hard {se ms : Nat} (h : ConsistentAs pad d) (hse : LiveIn d ms se)
    (hp : InodeInUse d p) (hown : OwnPlace d p name 0)
    (hins : Inserted d p (entryInode d.data se) name ext2FtRegFile (.done (some r) d₁)) :
    EntryMade d (addLink d₁ (entryInode d₁.data se)) p r (entryInode d.data se) name
        ext2FtRegFile ∧
      ((addLink d₁ (entryInode d₁.data se)).inodeTable (entryInode d.data se)).iMode =
        (d.inodeTable (entryInode d.data se)).iMode := by
  have hadd := hins.entriesAdded h hp.1 hown.contained hown.slack
  have hused := (h.names ms se hse).1
  have hentry := hins.entry
  rw [hadd.entryInode_eq hse]
  have hmodes : ∀ m, ((addLink d₁ (entryInode d.data se)).inodeTable m).iMode =
      (d.inodeTable m).iMode := fun m => by
    obtain ⟨links, htable⟩ := addLink_inode d₁ (entryInode d.data se) m
    rw [htable]
    exact (hins.mode_links m).1
  have hsame : SameAccounts d₁ (addLink d₁ (entryInode d.data se)) := modifyInode_sameAccounts d₁ _ _
  refine ⟨⟨hadd.sameLive_after (addLink_onlyLinks hadd.tiled _).sameLive ?_, fun _ => ?_,
    fun _ => hentry.2, fun m => ?_, fun m _ => hmodes m, fun m _ hne => ?_, .inr ⟨hused, ?_⟩⟩, hmodes _⟩
  · exact (addLink_dirsKept d₁ _).dirsTiled hadd.tiled fun m => isDirInode_addLink.mp
  · exact hentry.1.trans (Nat.mod_eq_of_lt (h.sound.toCounted.validInode_lt hused.1))
  · rw [InodeInUse, validInode_of_layout hsame.layout, hsame.getInodeUsage_eq]
    exact hins.inodeInUse.trans (or_iff_left_of_imp fun heq => heq ▸ hused).symm
  · rw [addLink_links, if_neg hne, (hins.mode_links m).2]
  · rw [addLink_links, if_pos rfl, (hins.mode_links _).2]

/-- Inode `t` is a regular file now, whatever it was. -/
structure Overwritten (d d' : Disk) (t : Nat) : Prop where
  live : ∀ m e, LiveIn d' m e ↔ LiveIn d m e ∧ m ≠ t
  kept : ∀ m e, LiveIn d m e → m ≠ t → entryBinding d'.data e = entryBinding d.data e
  inUse : ∀ m, InodeInUse d' m ↔ InodeInUse d m
  links : ∀ m, (d'.inodeTable m).iLinksCount = (d.inodeTable m).iLinksCount
  modes : ∀ m, m ≠ t → (d'.inodeTable m).iMode = (d.inodeTable m).iMode
  mode : (d'.inodeTable t).iMode = ext2FtRegFile

theorem Copied.inode_fields {bs : List Nat} {content : List UInt8}
    (hcopy : Copied now d d' n bs content) :
    (d'.inodeTable n).iMode = ext2FtRegFile ∧
      ∀ m, (d'.inodeTable m).iLinksCount = (d.inodeTable m).iLinksCount := by
  obtain ⟨iBlock, htable⟩ := hcopy.inode
  refine ⟨by rw [htable]; rfl, fun m => ?_⟩
  by_cases hmn : m = n
  · rw [hmn, htable]
    rfl
  · rw [hcopy.footprint.inode m hmn]

theorem Copied.inodeInUse {bs : List Nat} {content : List UInt8}
    (hcopy : Copied now d d' n bs content) : InodeInUse d' m ↔ InodeInUse d m := by
  rw [InodeInUse, validInode_of_layout hcopy.accounts.layout, hcopy.accounts.getInodeUsage_eq,
    InodeInUse]

/-- All other files are kept. -/
theorem Taken.copied_sameFile {bs : List Nat} {content : List UInt8} (ht : Taken d k bs)
    (h : ConsistentAs pad d) (hn : InodeInUse d t)
    (hcopy : Copied now (handOut d bs) d' t bs content) (hm : InodeInUse d m) (hmt : m ≠ t) :
    SameFile d d' m := by
  have hvalid : ∀ x, ValidInode d x → ValidInode (handOut d bs) x :=
    fun x => (validInode_of_layout handOut_layout).mpr
  exact (ht.sameFile h.sound hm.1).trans (hcopy.sameFile (h.sound.handedOut ht.nodup ht.free)
    (h.sound.fresh_handOut ht.nodup ht.free) (hvalid _ hn.1) (hvalid _ hm.1) hmt)

/-- **`ext2_cp` onto an existing inode** overwrites it. -/
theorem Taken.overwritten {bs : List Nat} {content : List UInt8} (ht : Taken d k bs)
    (h : ConsistentAs pad d) (hn : InodeInUse d t)
    (hcopy : Copied now (handOut d bs) d' t bs content) : Overwritten d d' t := by
  have huse : ∀ m, InodeInUse d' m ↔ InodeInUse d m := fun m =>
    hcopy.inodeInUse.trans InodeInUse.handedOut
  have htable : ∀ m, m ≠ t → d'.inodeTable m = d.inodeTable m := fun m hm => by
    rw [hcopy.footprint.inode m hm, handOut_inodeTable]
  have hdirs : ∀ m, IsDirInode d' m ↔ IsDirInode d m ∧ m ≠ t := by
    intro m
    by_cases hmt : m = t
    · subst hmt
      refine iff_of_false (fun hdir => ?_) fun hand => hand.2 rfl
      have hmode := hdir.2
      rw [hcopy.inode_fields.1] at hmode
      exact absurd hmode (by decide)
    · rw [IsDirInode, IsDirInode, huse, htable m hmt]
      exact (and_iff_left hmt).symm
  have hfile : ∀ m, InodeInUse d m → m ≠ t → SameFile d d' m :=
    fun m hm hmt => ht.copied_sameFile h hn hcopy hm hmt
  refine ⟨fun m e => ⟨fun hl => ?_, ?_⟩, fun m e hl hmt => ?_, huse, fun m => ?_,
    fun m hm => by rw [htable m hm], hcopy.inode_fields.1⟩
  · obtain ⟨hdir, hmt⟩ := (hdirs m).mp hl.1
    exact ⟨(((hfile m hdir.1 hmt).liveIn h.tiled hdir hl.1).1 e).mp hl, hmt⟩
  · rintro ⟨hl, hmt⟩
    have hdir' := (hdirs m).mpr ⟨hl.1, hmt⟩
    exact (((hfile m hl.1.1 hmt).liveIn h.tiled hl.1 hdir').1 e).mpr hl
  · have hdir' := (hdirs m).mpr ⟨hl.1, hmt⟩
    exact ((hfile m hl.1.1 hmt).liveIn h.tiled hl.1 hdir').2 e hl
  · rw [hcopy.inode_fields.2 m, handOut_inodeTable]

/-! ## A copy to a new inode -/

theorem Copied.isDirInode {bs : List Nat} {content : List UInt8}
    (hcopy : Copied now d d' n bs content) (hdir : ¬ IsDirInode d n) :
    IsDirInode d' m ↔ IsDirInode d m := by
  by_cases hmn : m = n
  · subst hmn
    refine iff_of_false (fun hdir' => ?_) hdir
    have hmode := hdir'.2
    rw [hcopy.inode_fields.1] at hmode
    exact absurd hmode (by decide)
  · rw [IsDirInode, IsDirInode, hcopy.inodeInUse, hcopy.footprint.inode m hmn]

/-- What is copied into an inode that is no directory changes no directory. -/
theorem Copied.dirsKept {bs : List Nat} {content : List UInt8}
    (hcopy : Copied now d d' n bs content) (h : Sound d) (hf : Fresh d bs) (hn : ValidInode d n)
    (hdir : ¬ IsDirInode d n) : DirsKept d d' := by
  intro m hm
  have hmn : m ≠ n := fun heq => hdir (heq ▸ hm)
  exact hcopy.sameFile h hf hn hm.1.1 hmn

theorem EntryMade.copied {bs : List Nat} {content : List UInt8}
    (hmade : EntryMade d d₁ p r n name fileType) (hnew : ¬ InodeInUse d n)
    (hcopy : Copied now d₁ d' n bs content) (hkept : DirsKept d₁ d') (hdir : ¬ IsDirInode d₁ n) :
    EntryMade d d' p r n name fileType := by
  have hdirs : ∀ m, IsDirInode d' m ↔ IsDirInode d₁ m := fun m => hcopy.isDirInode hdir
  have hsame : SameLive d₁ d' := hkept.sameLive hmade.added.tiled (fun m => (hdirs m).mpr)
    fun m e hl => (hdirs m).mp hl.1
  have hbind : LandsLive d p name → entryBinding d'.data r = entryBinding d₁.data r := fun hland =>
    hsame.binding p r ((hmade.added.live p r).mpr (.inr ⟨rfl, rfl, hland⟩))
  have hlink := hcopy.inode_fields.2
  refine ⟨hmade.added.sameLive_after hsame (hkept.dirsTiled hmade.added.tiled fun m => (hdirs m).mp),
    fun hland => ?_, fun hland => ?_, fun m => hcopy.inodeInUse.trans (hmade.inUse m), fun m hm => ?_,
    fun m hm hmn => (hlink m).trans (hmade.links m hm hmn), .inl ⟨hnew, ?_⟩⟩
  · exact (congrArg (fun b => b.2.1) (hbind hland)).trans (hmade.inode hland)
  · exact (congrArg (fun b => b.2.2) (hbind hland)).trans (hmade.type hland)
  · have hmn : m ≠ n := fun heq => hnew (heq ▸ hm)
    rw [hcopy.footprint.inode m hmn, hmade.modes m hm]
  · rw [hlink n]
    exact hmade.target.resolve_right (fun hold => hnew hold.1) |>.2

end

end Ext2
end OsAssignments
