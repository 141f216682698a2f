import OsAssignments.Ext2.LastLink
import OsAssignments.Ext2.Naming

/-!
# The removal of a name

`ext2_rm` on an image whose directories have distinct names and whose link counts are right.

* `LinksCounted` — the link count of a file is the number of its names.
* `Unlinked` — one name is gone, every other lookup is the same, and the inode is free exactly
  if that was its last name.
* `rm_unlinks` — `ext2_rm` does this.
-/

namespace OsAssignments
namespace Ext2

open ByteMemory MachineWord ExitState

/-- The link count of a file is the number of entries that name it. -/
def LinksCounted (d : Disk) : Prop :=
  ∀ m e, LiveIn d m e → ¬ IsDirInode d (entryInode d.data e) →
    (d.inodeTable (entryInode d.data e)).iLinksCount = (naming d (entryInode d.data e)).ncard

/-- Another entry than the one with this name in directory `p` names inode `n`. -/
def OtherName (d : Disk) (p : Nat) (name : CString) (n : Nat) : Prop :=
  ∃ m x, LiveIn d m x ∧ entryInode d.data x = n ∧ ¬ (m = p ∧ entryName d.data x = name)

/-- The name is taken from directory `p`, where it named inode `n`. -/
structure Unlinked (d d' : Disk) (p : Nat) (name : CString) (n : Nat) : Prop where
  gone : resolve d' p name = none
  others : ∀ m other, IsDirInode d m → other ≠ [] → ¬ (m = p ∧ other = name) →
    resolve d' m other = resolve d m other
  freed : getInodeUsage d' n = false ↔ ¬ OtherName d p name n
  kept : OtherName d p name n → SameFile d d' n

section

variable {d d' d₁ : Disk} {n p i e pe : Nat} {mem : Memory} {path name : CString}

/-- The other names are those of the other entries. -/
theorem NamesDistinct.otherName_iff (h : NamesDistinct d) (hl : LiveIn d p e) :
    OtherName d p (entryName d.data e) n ↔ (naming d n \ {(p, e)}).Nonempty := by
  constructor
  · rintro ⟨m, x, hx, hn, hother⟩
    refine ⟨(m, x), ⟨hx, hn⟩, fun heq => hother ?_⟩
    obtain ⟨rfl, rfl⟩ := Prod.mk.inj heq
    exact ⟨rfl, rfl⟩
  · rintro ⟨⟨m, x⟩, ⟨hx, hn⟩, hne⟩
    refine ⟨m, x, hx, hn, ?_⟩
    rintro ⟨rfl, hname⟩
    exact hne (Prod.ext rfl (h m x e hx hl hname))

/-- The link count comes down to zero exactly with the last name. -/
theorem LinksCounted.last_iff (hlinks : LinksCounted d) (h : Consistent d) (hl : LiveIn d p e)
    (hdir : ¬ IsDirInode d (entryInode d.data e)) :
    wrap 16 ((d.inodeTable (entryInode d.data e)).iLinksCount - 1 : Int) = 0 ↔
      naming d (entryInode d.data e) \ {(p, e)} = ∅ := by
  have hmem : (p, e) ∈ naming d (entryInode d.data e) := ⟨hl, rfl⟩
  have hfin := h.naming_finite (entryInode d.data e)
  have hcard := Set.ncard_sdiff_singleton_add_one hmem hfin
  have hle := h.ncard_naming_le (entryInode d.data e)
  rw [hlinks p e hl hdir, ← Set.ncard_eq_zero (hfin.subset Set.sdiff_subset), ← hcard]
  have hwrap : wrap 16 ((naming d (entryInode d.data e) \ {(p, e)}).ncard : Int)
      = (naming d (entryInode d.data e) \ {(p, e)}).ncard := wrap_of_lt (by omega)
  push_cast
  rw [add_sub_cancel_right, hwrap]

/-- **`ext2_rm` removes exactly one name.** -/
theorem rm_unlinks (h : Consistent d) (hnames : NamesDistinct d) (hlinks : LinksCounted d)
    (hpath : RmPath d path e pe) (now : Nat) :
    ∃ d', ext2Rm now path d = .done () d' ∧
      Unlinked d d' (entryInode d.data pe) (lastComponent path) (entryInode d.data e) := by
  obtain ⟨i, mem, d₁, hrem, hrun⟩ := hpath.run h now
  have hp := hpath.parent_isDirInode h
  obtain ⟨hn, hdir⟩ := hpath.inode h
  obtain ⟨hl, hname⟩ := hpath.live h
  have hadded := hrem.finishRm_entriesAdded hp h hn hdir now
  have hdirs : ∀ m, IsDirInode d m → IsDirInode (finishRm now d₁ (entryInode d.data e)) m :=
    fun m hm => (hrem.isDirInode_finishRm hp h hn hdir now).mpr hm
  have hlast := hlinks.last_iff h hl hdir
  have hcases := hrem.finishRm_cases hp h hn hdir now
  have hother : OtherName d (entryInode d.data pe) (lastComponent path) (entryInode d.data e) ↔
      (naming d (entryInode d.data e) \ {(entryInode d.data pe, e)}).Nonempty := by
    rw [← hname]
    exact hnames.otherName_iff hl
  refine ⟨_, hrun, ?_, fun m other hm hne hnot => ?_, ?_, fun hmore => ?_⟩
  · rw [← hname]
    exact hadded.lookup_before hnames (hdirs _ hp)
  · rw [← hname] at hnot
    exact (hadded.lookup_other hnames (hdirs m hm) hm hne hnot).symm
  · rw [hother, Set.not_nonempty_iff_eq_empty, ← hlast]
    rcases hcases with ⟨hzero, hfreed⟩ | ⟨hnonzero, heq⟩
    · rw [hfreed.inodeUsage _ (h.sound.toCounted.validInode_lt hn.1), if_pos rfl]
      exact iff_of_true rfl hzero
    · have husage : getInodeUsage (finishRm now d₁ (entryInode d.data e)) (entryInode d.data e)
          = true := by
        rw [heq]
        exact (hrem.inodeInUse.mpr hn).2
      rw [husage]
      exact iff_of_false (by decide) hnonzero
  · rw [hother, Set.nonempty_iff_ne_empty, ne_eq, ← hlast] at hmore
    rcases hcases with ⟨hzero, -⟩ | ⟨-, heq⟩
    · exact absurd hzero hmore
    · rw [heq]
      exact (hrem.sameFile hp h hn.1 (EntryRemoved.ne_parent hp hdir)).trans
        (dropLink_sameFile d₁ _ _)

end

/-! ## The small image -/

theorem smallImage_linksCounted : LinksCounted smallImage := by
  intro m e hl hdir
  obtain ⟨rfl, he⟩ := smallDisk_liveIn hl
  have hinodes : ∀ x ∈ [23552, 23564, 23576], entryInode smallImage.data x = 2 ∨
      entryInode smallImage.data x = 12 := by decide +kernel
  rcases hinodes e he with htwo | hfile
  · exact absurd (htwo ▸ smallImage_consistent.root) hdir
  · rw [hfile, ncard_smallImage_naming]
    decide +kernel

theorem rm_unlinks_example : ∃ d', ext2Rm 0 [47, 102] smallImage = .done () d' ∧
    Unlinked smallImage d' (entryInode smallImage.data 23552) (lastComponent [47, 102])
      (entryInode smallImage.data 23576) :=
  rm_unlinks smallImage_consistent smallImage_namesDistinct smallImage_linksCounted
    smallImage_rmPath 0

end Ext2
end OsAssignments
