import OsAssignments.Ext2.NewInode

/-!
# What links and copies do to other files

`ext2_ln` and `ext2_cp` do not look at the type of the destination's parent, so an entry can be
put into the blocks of a regular file.

* `FileCommand`, `copyTarget` — the two commands, and the inode a copy may overwrite.
* `EntrySite` — the command gets as far as making an entry, for a name in an inode.
* `ReceivesEntry` — the entry gets into the blocks of that inode.
* `otherFiles_kept_iff` — all other regular files are kept exactly if that inode is not a
  regular file that receives the entry.
-/

namespace OsAssignments
namespace Ext2

open ByteMemory MachineWord ExitState Ownership

/-! ## The commands -/

/-- `ext2_ln` and `ext2_cp` with their arguments. -/
inductive FileCommand where
  | ln (source dest : CString) (isSymLink : Bool)
  | cp (source dest : CString)

/-- The command as a program; `host` are the files that `ext2_cp` can open. -/
def FileCommand.run (now : Nat) (host : CString → Option (List UInt8)) : FileCommand → Command Unit
  | .ln source dest isSymLink => ext2Ln now source dest isSymLink
  | .cp source dest => ext2Cp now host source dest

/-- The inode that the destination of `ext2_cp` resolves to. -/
def copyTarget (d : Disk) : FileCommand → Option Nat
  | .ln _ _ _ => none
  | .cp source dest => (traversePath d (destComponents d source dest)).map (entryInode d.data)

/-- A regular file; those `ext2_cp` made have the type of an entry as their mode. -/
def IsRegularFile (d : Disk) (n : Nat) : Prop :=
  InodeInUse d n ∧
    (typeBits (d.inodeTable n).iMode = ext2SIfreg ∨ (d.inodeTable n).iMode = ext2FtRegFile)

/-- The blocks that `ext2_ln` needs for a link. -/
def linkBlocks (isSymLink : Bool) : Nat := if isSymLink then 1 else 0

/-- Inode and blocks for a symbolic link can be had. -/
def LinkReady (d : Disk) (source : CString) (isSymLink : Bool) : Prop :=
  isSymLink = true → (freeInodes d).Nonempty ∧ source.length < ext2BlockSize ∧ (freeBlocks d).Nonempty

/-- Inode and blocks for a new file can be had. -/
structure CopyReady (d : Disk) (content : List UInt8) : Prop where
  blocks : getRequiredBlockCount content.length ≤ (freeBlocks d).card
  fits : content.length ≤ ext2BlockSize * getRequiredBlockCount content.length
  inode : (freeInodes d).Nonempty

/-- The command makes an entry for `name` in the inode `p`, when it has taken `used` blocks. -/
inductive EntrySite (d : Disk) (host : CString → Option (List UInt8)) :
    FileCommand → Nat → CString → Nat → Prop
  | ln {source dest : CString} {isSymLink : Bool} {srcEntry parentEntry : Nat} :
      LinkPaths d source dest srcEntry parentEntry → LinkReady d (afterStrtok source) isSymLink →
      EntrySite d host (.ln source dest isSymLink) (entryInode d.data parentEntry)
        (lastComponent dest) (linkBlocks isSymLink)
  | cp {source dest : CString} {content : List UInt8} {parentEntry : Nat} :
      host (afterStrtok source) = some content → CopyReady d content →
      traversePath d (destComponents d source dest).dropLast = some parentEntry →
      traversePath d (destComponents d source dest) = none →
      EntrySite d host (.cp source dest) (entryInode d.data parentEntry)
        ((destComponents d source dest).getLastD []) (getRequiredBlockCount content.length)

/-- The inode `p` gets an entry for `name`, when `used` blocks have been taken: one of its
blocks has room, or there is a free block and a slot that can store its number. -/
def ReceivesEntry (d : Disk) (p : Nat) (name : CString) (used : Nat) : Prop :=
  Lands d p name ∧ (entryPlace d p name ≠ none ∨ used < (freeBlocks d).card)

/-! ## Insertions -/

section

variable {d d' : Disk} {k p m : Nat} {name : CString}

/-- An insertion that returns has found room. -/
theorem Inserted.room {child fileType r : Nat}
    (hins : Inserted d p child name fileType (.done (some r) d')) :
    entryPlace d p name ≠ none ∨ 0 < (freeBlocks d).card := by
  cases hins with
  | placed hplace => exact .inl (by rw [hplace]; exact Option.some_ne_none _)
  | newBlock _ _ hb => exact .inr (card_pos_of_mem hb)

/-- **After an insertion all files are kept, but for one that receives the entry.** -/
theorem Prepared.sameFile_iff {d₀ d₁ : Disk} {child fileType r : Nat} (hpre : Prepared d d₀ k)
    (hp : InodeInUse d p) (hc : Contained d p name k)
    (hins : Inserted d₀ p child name fileType (.done (some r) d₁)) (hm : InodeInUse d m) :
    SameFile d d₁ m ↔ ¬ (m = p ∧ ReceivesEntry d p name k) := by
  have hp₀ := (hpre.stillInUse p hp).1
  have hc₀ := hpre.contained hp hc
  have hback : SameFile d d₁ m ↔ SameFile d₀ d₁ m :=
    ⟨(hpre.kept m hm).1.symm.trans, (hpre.kept m hm).1.trans⟩
  have hroom : entryPlace d p name ≠ none ∨ k < (freeBlocks d).card := by
    rw [← hpre.entryPlace_eq hp]
    refine hins.room.imp_right fun hpos => ?_
    rw [hpre.card] at hpos
    omega
  rw [hback]
  by_cases hmp : m = p
  · subst hmp
    rw [hins.sameFile_iff hpre.sound hp₀ hc₀, hpre.lands_iff hp, ReceivesEntry, and_iff_right rfl,
      and_iff_left hroom]
  · simp only [hmp, false_and, not_false_eq_true, iff_true]
    exact hins.sameFile hpre.sound hp₀ hc₀ (hpre.stillInUse m hm).1 hmp

/-- With room an insertion returns. -/
theorem Prepared.room {d₀ : Disk} (hpre : Prepared d d₀ k) (hp : InodeInUse d p)
    (hrec : ReceivesEntry d p name k) (hplace : entryPlace d₀ p name = none) :
    freeBlocks d₀ ≠ ∅ := by
  rw [hpre.entryPlace_eq hp] at hplace
  have hlt := hrec.2.resolve_left (not_not.mpr hplace)
  rw [← Finset.card_pos.trans Finset.nonempty_iff_ne_empty, hpre.card]
  omega

theorem Prepared.no_overrun {d₀ : Disk} {child fileType : Nat} (hpre : Prepared d d₀ k)
    (hp : InodeInUse d p) (hc : Contained d p name k) :
    ¬ Inserted d₀ p child name fileType .crash := by
  intro hins
  cases hins with
  | overrun hplace hne hlong =>
    have := (hpre.contained hp hc).length_le hplace (Finset.card_pos.mpr hne)
    omega

/-! ## Links -/

/-- The number of links is no part of a file. -/
theorem addLink_sameFile (d : Disk) (n m : Nat) : SameFile d (addLink d n) m := by
  have hfoot := modifyInode_footprint d n
    (fun i => { i with iLinksCount := wrap 16 (i.iLinksCount + 1 : Nat) }) fun _ => rfl
  have htable : (addLink d n).inodeTable m
      = if m = n then { d.inodeTable n with
          iLinksCount := wrap 16 ((d.inodeTable n).iLinksCount + 1 : Nat) }
        else d.inodeTable m := by rw [addLink, Disk.modifyInode_inodeTable]
  refine ⟨?_, ?_, fun _ _ => AgreeOn.refl _ _ _⟩
  · rw [htable]
    split
    · rename_i heq
      rw [heq]
    · rfl
  · apply getInodeBlockNumber_congr
    · rw [htable]
      split
      · rename_i heq
        rw [heq]
      · rfl
    · exact fun _ => AgreeOn.refl _ _ _

/-- What a link leaves of a file. -/
theorem LinkOutcome.touched {now se : Nat} {source : CString} {isSymLink : Bool}
    {o : Outcome Disk Unit} (h : Sound d) (hp : InodeInUse d p)
    (ho : LinkOutcome d now source se p name isSymLink o)
    (hc : LinkReady d source isSymLink → Contained d p name (linkBlocks isSymLink))
    (hleaves : o.Leaves d') (hm : InodeInUse d m) (hne : ¬ SameFile d d' m) :
    LinkReady d source isSymLink ∧ m = p ∧ ReceivesEntry d p name (linkBlocks isSymLink) := by
  cases ho with
  | @hard r d₁ hins =>
    have hready : LinkReady d source false := nofun
    cases hleaves
    refine ⟨hready, ?_⟩
    by_contra hno
    exact hne (((((Prepared.refl h).sameFile_iff hp (hc hready) hins hm).mpr hno)).trans
      (addLink_sameFile d₁ _ m))
  | hardFull =>
    cases hleaves
    exact absurd (SameFile.refl d m) hne
  | noInode =>
    cases hleaves
    exact absurd (SameFile.refl d m) hne
  | tooLong hn =>
    cases hleaves
    exact absurd ((h.newInode_allocated now ext2SIflnk _ hn).kept m hm).1 hne
  | noBlock hn =>
    cases hleaves
    exact absurd ((h.newInode_allocated now ext2SIflnk _ hn).kept m hm).1 hne
  | symFull hn _ hlen hb =>
    cases hleaves
    exact absurd ((h.symlink_allocated now hn hlen hb).kept m hm).1 hne
  | @sym n b r d₁ hn _ hlen hb hins =>
    have hready : LinkReady d source true := fun _ => ⟨⟨n, hn⟩, hlen, ⟨b, hb⟩⟩
    cases hleaves
    refine ⟨hready, ?_⟩
    by_contra hno
    exact hne (((h.symlink_allocated now hn hlen hb).sameFile_iff hp (hc hready) hins hm).mpr hno)
  | hardOverrun => cases hleaves
  | symOverrun => cases hleaves

/-- A link whose entry is received changes the file of the parent. -/
theorem LinkOutcome.changes {now se : Nat} {source : CString} {isSymLink : Bool}
    {o : Outcome Disk Unit} (h : Sound d) (hp : InodeInUse d p)
    (ho : LinkOutcome d now source se p name isSymLink o) (hready : LinkReady d source isSymLink)
    (hc : Contained d p name (linkBlocks isSymLink))
    (hrec : ReceivesEntry d p name (linkBlocks isSymLink)) :
    ∃ d', o.Leaves d' ∧ ¬ SameFile d d' p := by
  cases ho with
  | @hard r d₁ hins =>
    refine ⟨_, .done _ _, fun hsame => ?_⟩
    have hback := hsame.trans (addLink_sameFile d₁ (entryInode d₁.data se) p).symm
    exact ((Prepared.refl h).sameFile_iff hp hc hins hp).mp hback ⟨rfl, hrec⟩
  | hardFull hplace hfree => exact absurd hfree ((Prepared.refl h).room hp hrec hplace)
  | hardOverrun hins => exact absurd hins ((Prepared.refl h).no_overrun hp hc)
  | noInode hnone => exact absurd hnone (hready rfl).1.ne_empty
  | tooLong _ _ hlong => exact absurd (hready rfl).2.1 (by omega)
  | noBlock _ _ _ hnone => exact absurd hnone (hready rfl).2.2.ne_empty
  | symFull hn _ hlen hb hplace hfree =>
    exact absurd hfree ((h.symlink_allocated now hn hlen hb).room hp hrec hplace)
  | symOverrun hn _ hlen hb hins =>
    exact absurd hins ((h.symlink_allocated now hn hlen hb).no_overrun hp hc)
  | sym hn _ hlen hb hins =>
    refine ⟨_, .done _ _, fun hsame => ?_⟩
    exact ((h.symlink_allocated now hn hlen hb).sameFile_iff hp hc hins hp).mp hsame ⟨rfl, hrec⟩

/-! ## Copies -/

theorem mem_fileChunk {content : List UInt8} {i : Nat} :
    fileChunk content i ≠ [] ↔ ext2BlockSize * i < content.length := by
  rw [fileChunk, ne_eq, List.take_eq_nil_iff, List.drop_eq_nil_iff, ext2BlockSize_eq]
  omega

/-- The blocks taken for a file are enough if the loops came to their end. -/
theorem Taken.fits {now n : Nat} {content : List UInt8} {bs : List Nat} {d₁ : Disk}
    (ht : Taken d k bs) (h : Counted d) (hcopy : Copied now d₁ d' n bs content) :
    content.length ≤ ext2BlockSize * k := by
  by_contra hlong
  obtain ⟨b, hb, -⟩ := hcopy.written k (ht.lt_limit h) (mem_fileChunk.mpr (by omega))
  rw [List.getElem?_eq_none (by rw [ht.length])] at hb
  cases hb

/-- The file of an inode in use, until the content is copied to another one. -/
theorem Prepared.copied_sameFile {d₀ d₁ : Disk} {bs : List Nat} {now n child fileType r : Nat}
    {content : List UInt8} (hpre : Prepared d d₀ k) (hp : InodeInUse d p)
    (hc : Contained d p name k) (hf : Fresh d₀ bs) (hn : ValidInode d₀ n)
    (hins : Inserted d₀ p child name fileType (.done (some r) d₁))
    (hcopy : Copied now d₁ d' n bs content) (hm : InodeInUse d m) (hmn : m ≠ n) :
    SameFile d₁ d' m := by
  have hp₀ := (hpre.stillInUse p hp).1
  have hc₀ := hpre.contained hp hc
  have hvalid : ∀ x, ValidInode d₀ x → ValidInode d₁ x :=
    fun x => (validInode_of_layout hins.layout).mpr
  exact hcopy.sameFile (hins.sound hpre.sound hp₀ hc₀) (hins.fresh hpre.sound hp₀ hc₀ hf)
    (hvalid n hn) (hvalid m (hpre.stillInUse m hm).1) hmn

/-- The blocks for a new file, after its inode was allocated. -/
theorem Taken.fresh_newFile {bs : List Nat} {n : Nat} (ht : Taken d k bs) (h : Sound d) (now : Nat)
    (content : List UInt8) (hn : n ∈ freeInodes d) : Fresh (newFile now content (handOut d bs) n) bs :=
  (h.fresh_handOut ht.nodup ht.free).withNewInode (h.handedOut ht.nodup ht.free) now ext2FtRegFile _
    ((validInode_of_layout handOut_layout).mpr (mem_freeInodes.mp hn).1)

section

variable {pad : Bool} {now : Nat} {content : List UInt8} {components : List CString}
  {o : Outcome Disk Unit}

/-- The parent of a destination is in use. -/
theorem ConsistentAs.parent_inUse (h : ConsistentAs pad d) (hne : ∀ c ∈ components, c ≠ []) {pe : Nat}
    (hparent : traversePath d components = some pe) : InodeInUse d (entryInode d.data pe) := by
  obtain ⟨n, hl⟩ := h.traversePath_live hne hparent
  exact (h.names n pe hl).1

/-- What a copy leaves of a file that it does not overwrite. -/
theorem CopyOutcome.touched (h : Consistent d) (hne : ∀ c ∈ components, c ≠ [])
    (ho : CopyOutcome d now content components o)
    (hc : ∀ pe, CopyReady d content → traversePath d components.dropLast = some pe →
      traversePath d components = none → Contained d (entryInode d.data pe)
        (components.getLastD []) (getRequiredBlockCount content.length))
    (hleaves : o.Leaves d') (hm : InodeInUse d m)
    (hother : ∀ e, traversePath d components = some e → m ≠ entryInode d.data e)
    (hchange : ¬ SameFile d d' m) :
    CopyReady d content ∧ ∃ pe, traversePath d components.dropLast = some pe ∧
      traversePath d components = none ∧ m = entryInode d.data pe ∧
      ReceivesEntry d m (components.getLastD []) (getRequiredBlockCount content.length) := by
  cases ho with
  | noBlocks =>
    cases hleaves
    exact absurd (SameFile.refl d m) hchange
  | noParent ht =>
    cases hleaves
    exact absurd (ht.sameFile h.sound hm.1) hchange
  | @existing bs e pe d' ht _ hdest hcopy =>
    cases hleaves
    obtain ⟨n, hl⟩ := h.traversePath_live hne hdest
    have hvalid : ∀ x, ValidInode d x → ValidInode (handOut d bs) x :=
      fun x => (validInode_of_layout handOut_layout).mpr
    exact absurd ((ht.sameFile h.sound hm.1).trans
      (hcopy.sameFile (h.sound.handedOut ht.nodup ht.free) (h.sound.fresh_handOut ht.nodup ht.free)
        (hvalid _ (h.names n e hl).1.1) (hvalid _ hm.1) (hother e hdest))) hchange
  | noInode ht =>
    cases hleaves
    exact absurd (ht.sameFile h.sound hm.1) hchange
  | entryFull ht _ _ hn =>
    cases hleaves
    exact absurd ((ht.newFile_allocated h.sound now content hn).kept m hm).1 hchange
  | @new bs pe n r d₁ d' ht hparent habsent hn _ hins hcopy =>
    cases hleaves
    have hready : CopyReady d content :=
      ⟨ht.needed_le, ht.fits h.sound.toCounted hcopy, ⟨n, hn⟩⟩
    have hp := h.parent_inUse (fun c hc => hne c (List.mem_of_mem_dropLast hc)) hparent
    have ha := ht.newFile_allocated h.sound now content hn
    have hcont := hc pe hready hparent habsent
    have hmn : m ≠ n := fun heq => not_inodeInUse_of_free hn (heq ▸ hm)
    refine ⟨hready, pe, hparent, habsent, ?_⟩
    by_contra hno
    have hkept := (ha.sameFile_iff hp hcont hins hm).mpr fun hand => hno ⟨hand.1, hand.1 ▸ hand.2⟩
    exact hchange (hkept.trans (ha.copied_sameFile hp hcont (ht.fresh_newFile h.sound now content hn)
      ((ha.inUse n).mpr (.inr rfl)).1 hins hcopy hm hmn))
  | entryOverrun => cases hleaves
  | tooLarge => cases hleaves

/-- A copy whose entry is received changes the file of the parent. -/
theorem CopyOutcome.changes (h : Consistent d) (hne : ∀ c ∈ components, c ≠ [])
    (ho : CopyOutcome d now content components o) (hready : CopyReady d content) {pe : Nat}
    (hparent : traversePath d components.dropLast = some pe)
    (habsent : traversePath d components = none)
    (hc : Contained d (entryInode d.data pe) (components.getLastD [])
      (getRequiredBlockCount content.length))
    (hrec : ReceivesEntry d (entryInode d.data pe) (components.getLastD [])
      (getRequiredBlockCount content.length)) :
    ∃ d', o.Leaves d' ∧ ¬ SameFile d d' (entryInode d.data pe) := by
  have hp := h.parent_inUse (fun c hc => hne c (List.mem_of_mem_dropLast hc)) hparent
  cases ho with
  | noBlocks hfew => exact absurd hready.blocks (by omega)
  | noParent _ hnone => exact nomatch hparent.symm.trans hnone
  | existing _ _ hdest => exact nomatch habsent.symm.trans hdest
  | noInode _ _ _ hnone => exact absurd hnone hready.inode.ne_empty
  | entryFull ht hparent' _ hn _ hplace hfree =>
    cases hparent.symm.trans hparent'
    exact absurd hfree ((ht.newFile_allocated h.sound now content hn).room hp hrec hplace)
  | entryOverrun ht hparent' _ hn _ hins =>
    cases hparent.symm.trans hparent'
    exact absurd hins ((ht.newFile_allocated h.sound now content hn).no_overrun hp hc)
  | tooLarge ht hlong =>
    obtain ⟨i, hi, hle⟩ := hlong
    have hfits := hready.fits
    rw [ht.length] at hle
    have hmul := Nat.mul_le_mul_left ext2BlockSize hle
    exact absurd (mem_fileChunk.mp hi) (by omega)
  | @new bs pe' n r d₁ d' ht hparent' _ hn _ hins hcopy =>
    cases hparent.symm.trans hparent'
    have ha := ht.newFile_allocated h.sound now content hn
    have hpn : entryInode d.data pe ≠ n := fun heq => not_inodeInUse_of_free hn (heq ▸ hp)
    refine ⟨d', .done _ _, fun hsame => ?_⟩
    have hkept := ha.copied_sameFile hp hc (ht.fresh_newFile h.sound now content hn)
      ((ha.inUse n).mpr (.inr rfl)).1 hins hcopy hp hpn
    exact (ha.sameFile_iff hp hc hins hp).mp (hsame.trans hkept.symm) ⟨rfl, hrec⟩

end

/-! ## Both commands -/

/-- Whatever the command leaves behind, every regular file is as it was, but for the one a copy
overwrites. -/
def KeepsOtherFiles (d : Disk) (now : Nat) (host : CString → Option (List UInt8))
    (cmd : FileCommand) : Prop :=
  ∀ d', (cmd.run now host d).Leaves d' → ∀ m, IsRegularFile d m → m ∉ copyTarget d cmd →
    SameFile d d' m

theorem LinkPaths.parent_inUse {source dest : CString} {se pe : Nat} (h : ConsistentAs pad d)
    (hpaths : LinkPaths d source dest se pe) : InodeInUse d (entryInode d.data pe) :=
  h.parent_inUse (fun c hc => splitPath_ne_nil dest c (List.mem_of_mem_dropLast hc)) hpaths.parent

/-- `ext2_ln` leaves an image with a change of file `m` only if it gets to its entry. -/
theorem ext2Ln_touched (h : Consistent d) {now : Nat} {host : CString → Option (List UInt8)}
    {source dest : CString} {isSymLink : Bool}
    (hc : ∀ p name used, EntrySite d host (.ln source dest isSymLink) p name used →
      Contained d p name used)
    (hleaves : (ext2Ln now source dest isSymLink d).Leaves d') (hm : InodeInUse d m)
    (hne : ¬ SameFile d d' m) :
    ∃ name used, EntrySite d host (.ln source dest isSymLink) m name used ∧
      ReceivesEntry d m name used := by
  rcases ext2Ln_cases d now source dest isSymLink with
    ⟨status, hrun, -⟩ | ⟨se, pe, hpaths, hrun⟩
  · rw [hrun] at hleaves
    cases hleaves
    exact absurd (SameFile.refl d m) hne
  · have hp := hpaths.parent_inUse h
    rw [hrun] at hleaves
    obtain ⟨hready, rfl, hrec⟩ := (h.sound.finishLink_outcome now (afterStrtok source) se pe
      (lastComponent dest) isSymLink hp.1).touched h.sound hp
      (fun hready => hc _ _ _ (.ln hpaths hready)) hleaves hm hne
    exact ⟨_, _, .ln hpaths hready, hrec⟩

/-- The same for `ext2_cp`. -/
theorem ext2Cp_touched (h : Consistent d) {now : Nat} {host : CString → Option (List UInt8)}
    {source dest : CString}
    (hc : ∀ p name used, EntrySite d host (.cp source dest) p name used → Contained d p name used)
    (hleaves : (ext2Cp now host source dest d).Leaves d') (hm : InodeInUse d m)
    (htarget : m ∉ copyTarget d (.cp source dest)) (hne : ¬ SameFile d d' m) :
    ∃ name used, EntrySite d host (.cp source dest) m name used ∧ ReceivesEntry d m name used := by
  rcases h.ext2Cp_outcome now host source dest with ⟨-, hrun⟩ | ⟨content, hhost, ho⟩
  · rw [hrun] at hleaves
    cases hleaves
    exact absurd (SameFile.refl d m) hne
  · have hother : ∀ e, traversePath d (destComponents d source dest) = some e →
        m ≠ entryInode d.data e := by
      intro e he heq
      exact htarget (by rw [copyTarget, he, heq]; rfl)
    obtain ⟨hready, pe, hparent, habsent, rfl, hrec⟩ :=
      ho.touched h (destComponents_ne_nil d source dest)
        (fun pe hready hparent habsent => hc _ _ _ (.cp hhost hready hparent habsent)) hleaves hm
        hother hne
    exact ⟨_, _, .cp hhost hready hparent habsent, hrec⟩

/-- A regular file that receives an entry is changed. -/
theorem EntrySite.touches (h : Consistent d) (now : Nat) {host : CString → Option (List UInt8)}
    {cmd : FileCommand} {used : Nat} (hsite : EntrySite d host cmd p name used)
    (hc : Contained d p name used) (hreg : IsRegularFile d p) (hrec : ReceivesEntry d p name used) :
    ¬ KeepsOtherFiles d now host cmd := by
  intro hkeep
  cases hsite with
  | @ln source dest isSymLink se pe hpaths hready =>
    have hp := hpaths.parent_inUse h
    rcases ext2Ln_cases d now source dest isSymLink with ⟨-, -, hno⟩ | ⟨se', pe', hpaths', hrun⟩
    · exact hno se pe hpaths
    · cases hpaths.parent.symm.trans hpaths'.parent
      obtain ⟨d', hleaves, hne⟩ := (h.sound.finishLink_outcome now (afterStrtok source) se' pe
        (lastComponent dest) isSymLink hp.1).changes h.sound hp hready hc hrec
      refine hne (hkeep d' ?_ _ hreg nofun)
      rw [FileCommand.run, hrun]
      exact hleaves
  | @cp source dest content pe hhost hready hparent habsent =>
    have ho := h.ext2Cp_copyOutcome now dest hhost
    obtain ⟨d', hleaves, hne⟩ := ho.changes h (destComponents_ne_nil d source dest) hready hparent
      habsent hc hrec
    refine hne (hkeep d' hleaves _ hreg ?_)
    rw [copyTarget, habsent]
    exact nofun

/-- **When the other files are kept.**  They are, if the command makes no entry in a regular
file that receives it, and the bytes of the entry stay in their block; and a regular file that
receives such an entry is changed. -/
theorem otherFiles_kept (h : Consistent d) (now : Nat) (host : CString → Option (List UInt8))
    (cmd : FileCommand) :
    ((∀ p name used, EntrySite d host cmd p name used → Contained d p name used ∧
      (IsRegularFile d p → ¬ ReceivesEntry d p name used)) → KeepsOtherFiles d now host cmd) ∧
    (KeepsOtherFiles d now host cmd → ∀ p name used, EntrySite d host cmd p name used →
      Contained d p name used → IsRegularFile d p → ¬ ReceivesEntry d p name used) := by
  refine ⟨fun hcond d' hleaves m hm htarget => ?_, fun hkeep p name used hsite hc hreg hrec =>
    hsite.touches h now hc hreg hrec hkeep⟩
  by_contra hne
  have hsite : ∃ name used, EntrySite d host cmd m name used ∧ ReceivesEntry d m name used := by
    cases cmd with
    | ln source dest isSymLink =>
      exact ext2Ln_touched h (fun p name used hsite => (hcond p name used hsite).1) hleaves hm.1 hne
    | cp source dest =>
      exact ext2Cp_touched h (fun p name used hsite => (hcond p name used hsite).1) hleaves hm.1
        htarget hne
  obtain ⟨name, used, hsite, hrec⟩ := hsite
  exact (hcond m name used hsite).2 hm hrec

end

/-- A link `/g` to the file `/f` changes nothing else: the parent is the root directory. -/
theorem otherFiles_kept_example :
    KeepsOtherFiles smallImage 0 (fun _ => none) (.ln [47, 102] [47, 103] false) := by
  refine (otherFiles_kept smallImage_consistent 0 (fun _ => none) _).1 fun p name used hsite => ?_
  cases hsite with
  | @ln _ _ _ se pe hpaths _ =>
    have hparent : traversePath smallImage (splitPath [47, 103]).dropLast = some 23552 := by
      decide +kernel
    cases hparent.symm.trans hpaths.parent
    have hroot : entryInode smallImage.data 23552 = ext2RootIno := by decide +kernel
    rw [hroot]
    refine ⟨smallImage_consistent.contained smallImage_consistent.root fun _ => .inl (by decide),
      fun hreg => ?_⟩
    rcases hreg.2 with htype | hmode
    · exact absurd htype (by decide)
    · exact absurd hmode (by decide)

/-- **A link with the destination `/f/x` goes into the regular file `/f`.** -/
theorem smallImage_file_touched :
    Consistent smallImage ∧ ¬ KeepsOtherFiles smallImage 0 (fun _ => none)
      (.ln [47, 102] [47, 102, 47, 120] false) := by
  have hfile : entryInode smallImage.data 23576 = 12 := by decide +kernel
  have hname : lastComponent [47, 102, 47, 120] = [120] := by decide +kernel
  have hplace : entryPlace smallImage 12 [120] = none := by decide +kernel
  have hcard : 0 < (freeBlocks smallImage).card := by
    have hcount : smallImage.superBlock.sFreeBlocksCount = 104 := rfl
    rw [← smallImage_consistent.sound.sFreeBlocks, hcount]
    decide
  have hpaths : LinkPaths smallImage [47, 102] [47, 102, 47, 120] 23576 23576 :=
    ⟨by decide +kernel, by decide +kernel, by decide +kernel, by decide +kernel⟩
  have hready : LinkReady smallImage (afterStrtok [47, 102]) false := fun h => nomatch h
  have hsite : EntrySite smallImage (fun _ => none) (.ln [47, 102] [47, 102, 47, 120] false)
      (entryInode smallImage.data 23576) (lastComponent [47, 102, 47, 120]) (linkBlocks false) :=
    .ln hpaths hready
  rw [hfile, hname] at hsite
  refine ⟨smallImage_consistent, hsite.touches smallImage_consistent 0 ?_ ?_ ?_⟩
  · rw [Contained, hplace]
    exact .inl (by decide)
  · exact ⟨⟨⟨by decide, by decide⟩, by decide⟩, .inl (by decide)⟩
  · exact ⟨.inr (.inl ⟨0, by decide, by decide⟩), .inr hcard⟩

end Ext2
end OsAssignments
