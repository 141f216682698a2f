import OsAssignments.Ext2.FailedCommands

/-!
# Copies that fail

`ext2_cp` takes the blocks for the content before it looks for the parent directory and for
an inode, and the inode before it makes the entry.  An exit in between keeps what was taken.

* `ImageKept` — bitmaps, counters, inodes and directory entries are as before.
* `CopyStopsHalfway` — the exits with something taken.
* `failedCopy_clean_iff` — every failing run leaves the image as it was exactly if none of
  these exits is taken.
-/

namespace OsAssignments
namespace Ext2

open ByteMemory MachineWord ExitState

/-! ## Exits -/

/-- The counters, the bitmaps, the inodes and the directory entries are those of `d`. -/
structure ImageKept (d d' : Disk) : Prop extends Unchanged d d' where
  inodes : d'.inodeTable = d.inodeTable

theorem ImageKept.refl (d : Disk) : ImageKept d d := ⟨Unchanged.refl d, rfl⟩

/-- A run of `ext2_cp` that fails keeps the image. -/
def CopyFailsClean (d : Disk) (now : Nat) (host : CString → Option (List UInt8))
    (source dest : CString) : Prop :=
  ∀ status d', ext2Cp now host source dest d = .exit status d' → status ≠ 0 → ImageKept d d'

/-- The blocks were taken, and then there is no parent directory, no inode, or no place and
no block left for the entry. -/
inductive CopyStopsHalfway (d : Disk) (content : List UInt8) (components : List CString) : Prop
  | noParent : getRequiredBlockCount content.length ≠ 0 →
      getRequiredBlockCount content.length ≤ (freeBlocks d).card →
      traversePath d components.dropLast = none → CopyStopsHalfway d content components
  | noInode {parentEntry : Nat} : getRequiredBlockCount content.length ≠ 0 →
      getRequiredBlockCount content.length ≤ (freeBlocks d).card →
      traversePath d components.dropLast = some parentEntry → traversePath d components = none →
      freeInodes d = ∅ → CopyStopsHalfway d content components
  | noEntry {parentEntry : Nat} : getRequiredBlockCount content.length = (freeBlocks d).card →
      traversePath d components.dropLast = some parentEntry → traversePath d components = none →
      (freeInodes d).Nonempty →
      entryPlace d (entryInode d.data parentEntry) (components.getLastD []) = none →
      CopyStopsHalfway d content components

section

variable {d d' : Disk} {bs : List Nat} {k : Nat}

/-! ## Blocks taken -/

/-- Taking no block changes nothing. -/
theorem Counted.handOut_nil (h : Counted d) : handOut d [] = d := by
  have hs : wrap 32 d.superBlock.sFreeBlocksCount = d.superBlock.sFreeBlocksCount := by
    refine wrap_of_lt ?_
    have := h.card_freeBlocks_lt
    rw [h.sFreeBlocks]
    omega
  have hbg : wrap 16 d.groupDesc.bgFreeBlocksCount = d.groupDesc.bgFreeBlocksCount := by
    refine wrap_of_lt ?_
    rw [h.bgFreeBlocks]
    exact h.card_freeBlocks_lt.trans (by norm_num)
  simp only [handOut, useBlocks, List.foldl_nil, increaseFreeBlocksCount, List.length_nil,
    Nat.cast_zero, neg_zero, add_zero, hs, hbg]

/-- A block taken shows in the bitmap. -/
theorem Taken.not_unchanged (ht : Taken d k bs) (h : Counted d) (hk : k ≠ 0) :
    ¬ Unchanged d (handOut d bs) := by
  intro hun
  obtain ⟨b, hb⟩ : ∃ b, b ∈ bs := List.exists_mem_of_ne_nil bs fun hnil => hk (by
    rw [← ht.length, hnil, List.length_nil])
  have hfree := mem_freeBlocks.mp (ht.free b hb)
  have husage := getBlockUsage_handOut h ht.free (h.free_bounds (ht.free b hb)).2.2.1
  rw [getBlockUsage, hun.blockBitmap, ← getBlockUsage, hfree.2] at husage
  simp [hb] at husage

theorem Taken.kept_or_needed (ht : Taken d k bs) (h : Counted d) :
    ImageKept d (handOut d bs) ∨ k ≠ 0 := by
  by_cases hk : k = 0
  · have hnil : bs = [] := List.length_eq_zero_iff.mp (ht.length.trans hk)
    exact .inl (by rw [hnil, h.handOut_nil]; exact ImageKept.refl d)
  · exact .inr hk

/-! ## The exits of a run -/

section

variable {now status : Nat} {content : List UInt8} {components : List CString}

/-- A failing run keeps the image, or it stops halfway. -/
theorem CopyOutcome.exit_cases (h : Consistent d) (hne : ∀ c ∈ components, c ≠ [])
    {o : Outcome Disk Unit} (ho : CopyOutcome d now content components o)
    (hexit : o = .exit status d') : ImageKept d d' ∨ CopyStopsHalfway d content components := by
  have hc := h.sound.toCounted
  cases ho with
  | noBlocks =>
    cases hexit
    exact .inl (ImageKept.refl d)
  | noParent ht hparent =>
    cases hexit
    exact (ht.kept_or_needed hc).imp_right fun hk => .noParent hk ht.needed_le hparent
  | noInode ht hparent habsent hnone =>
    cases hexit
    exact (ht.kept_or_needed hc).imp_right fun hk => .noInode hk ht.needed_le hparent habsent hnone
  | @entryFull bs pe n ht hparent habsent hn hres hplace hfree =>
    have ha := ht.newFile_allocated h.sound now content hn
    have hp := h.parent_inUse (fun c hc => hne c (List.mem_of_mem_dropLast hc)) hparent
    have hcard := ha.card
    have hle := ht.needed_le
    rw [hfree, Finset.card_empty] at hcard
    rw [ha.entryPlace_eq hp] at hplace
    exact .inr (.noEntry (by omega) hparent habsent ⟨n, hn⟩ hplace)
  | existing | entryOverrun | new | tooLarge => cases hexit

/-- A run that has its blocks goes on with them. -/
theorem ConsistentAs.ext2Cp_taken (h : Consistent d) (now : Nat) (source dest : CString)
    {host : CString → Option (List UInt8)}
    (hhost : host (afterStrtok source) = some content)
    (hcard : getRequiredBlockCount content.length ≤ (freeBlocks d).card) :
    ∃ bs, Taken d (getRequiredBlockCount content.length) bs ∧ ext2Cp now host source dest d
      = copyBlocks now content (destComponents d source dest)
        (traversePath d (destComponents d source dest)) bs (handOut d bs) := by
  rcases h.sound.toCounted.allocateBlocks_cases (getRequiredBlockCount content.length) with
    ⟨hfew, -⟩ | ⟨bs, hnodup, hlen, hbs, hdone⟩
  · omega
  · refine ⟨bs, ⟨hnodup, hlen, hbs⟩, ?_⟩
    rw [ext2Cp_eq, hhost]
    dsimp only
    rw [Command.bind_of_done hdone]

/-- **The exits with something taken** do not keep the image. -/
theorem CopyStopsHalfway.not_clean (h : Consistent d) (now : Nat)
    {host : CString → Option (List UInt8)} {source dest : CString}
    (hhost : host (afterStrtok source) = some content)
    (hstop : CopyStopsHalfway d content (destComponents d source dest)) :
    ¬ CopyFailsClean d now host source dest := by
  intro hclean
  have hne := destComponents_ne_nil d source dest
  have hne' : ∀ c ∈ (destComponents d source dest).dropLast, c ≠ [] :=
    fun c hc => hne c (List.mem_of_mem_dropLast hc)
  cases hstop with
  | noParent hk hcard hparent =>
    obtain ⟨bs, ht, hrun⟩ := h.ext2Cp_taken now source dest hhost hcard
    rw [copyBlocks, Command.bind_of_done (Command.get_apply _),
      (ht.dirsKept h.sound).traversePath_eq h hne', hparent] at hrun
    exact ht.not_unchanged h.sound.toCounted hk (hclean _ _ hrun (by decide)).toUnchanged
  | noInode hk hcard hparent habsent hnone =>
    obtain ⟨bs, ht, hrun⟩ := h.ext2Cp_taken now source dest hhost hcard
    rw [habsent, h.copyBlocks_new now hne ht hparent] at hrun
    rcases (h.sound.handedOut ht.nodup ht.free).toCounted.allocateTypedInode_cases now ext2FtRegFile
      (wrap 32 content.length) with ⟨-, hexit⟩ | ⟨n, hn, -, -⟩
    · rw [Command.bind_of_exit (x := allocateFileInode now (wrap 32 content.length)) hexit] at hrun
      exact ht.not_unchanged h.sound.toCounted hk (hclean _ _ hrun (by decide)).toUnchanged
    · rw [freeInodes_handOut, hnone] at hn
      exact absurd hn (Finset.notMem_empty n)
  | @noEntry pe hcard hparent habsent hinode hplace =>
    obtain ⟨bs, ht, hrun⟩ := h.ext2Cp_taken now source dest hhost hcard.le
    rw [habsent, h.copyBlocks_new now hne ht hparent] at hrun
    rcases (h.sound.handedOut ht.nodup ht.free).toCounted.allocateTypedInode_cases now ext2FtRegFile
      (wrap 32 content.length) with ⟨hnone, -⟩ | ⟨n, hn, -, hdone⟩
    · rw [freeInodes_handOut] at hnone
      exact absurd hnone hinode.ne_empty
    rw [freeInodes_handOut] at hn
    have ha := ht.newFile_allocated h.sound now content hn
    obtain ⟨m, hl⟩ := h.traversePath_live hne' hparent
    have hp := (h.names m pe hl).1
    have hfull : makeEntryInInode (entryInode d.data pe) n
        ((destComponents d source dest).getLastD []) ext2FtRegFile
        (newFile now content (handOut d bs) n) = .exit 1 (newFile now content (handOut d bs) n) := by
      have hfree : freeBlocks (newFile now content (handOut d bs) n) = ∅ := by
        rw [← Finset.card_eq_zero, ha.card]
        omega
      have hins := ha.sound.makeEntryInInode_cases ((ha.stillInUse _ hp).1) n
        ((destComponents d source dest).getLastD []) ext2FtRegFile
      rw [← ha.entryPlace_eq hp] at hplace
      generalize makeEntryInInode _ _ _ _ _ = o at hins
      cases hins with
      | placed hsome => rw [hplace] at hsome; cases hsome
      | full => rfl
      | overrun _ hsome => exact absurd hfree hsome.ne_empty
      | newBlock _ _ hb => rw [hfree] at hb; exact absurd hb (Finset.notMem_empty _)
    rw [Command.bind_of_done (x := allocateFileInode now (wrap 32 content.length)) hdone,
      Command.bind_of_done (Command.get_apply _), ← newFile,
      ha.entryInode_eq h hl, Command.bind_of_exit hfull] at hrun
    exact ha.not_unchanged (hclean _ _ hrun (by decide)).toUnchanged

end

/-- **A failing copy leaves the image as it was** exactly if it does not stop halfway. -/
theorem failedCopy_clean_iff (h : Consistent d) (now : Nat) (host : CString → Option (List UInt8))
    (source dest : CString) : CopyFailsClean d now host source dest ↔
      ∀ content, host (afterStrtok source) = some content →
        ¬ CopyStopsHalfway d content (destComponents d source dest) := by
  refine ⟨fun hclean content hhost hstop => hstop.not_clean h now hhost hclean, ?_⟩
  intro hno status d' hrun hstatus
  rcases h.ext2Cp_outcome now host source dest with ⟨-, hexit⟩ | ⟨content, hhost, hout⟩
  · cases hexit.symm.trans hrun
    exact ImageKept.refl d
  · exact (hout.exit_cases h (destComponents_ne_nil d source dest) hrun).resolve_right
      (hno content hhost)

end

/-- Without a free inode an empty file cannot be copied to `/g`.  It needs no block, and nothing
has been taken. -/
theorem failedCopy_clean_example :
    (∃ d', ext2Cp 0 (fun _ => some []) [47, 103] [47, 103] noInodeImage = .exit 1 d') ∧
      CopyFailsClean noInodeImage 0 (fun _ => some []) [47, 103] [47, 103] := by
  have hdest : traversePath noInodeImage (destComponents noInodeImage [47, 103] [47, 103]) = none := by
    decide +kernel
  have hparent : traversePath noInodeImage
      (destComponents noInodeImage [47, 103] [47, 103]).dropLast = some 23552 := by decide +kernel
  have hnone : ∀ n, n ∉ freeInodes noInodeImage := fun n =>
    noInodeImage_freeInodes ▸ Finset.notMem_empty n
  refine ⟨?_, (failedCopy_clean_iff noInodeImage_consistent 0 (fun _ => some []) _ _).mpr ?_⟩
  · rcases noInodeImage_consistent.ext2Cp_outcome 0 (fun _ => some []) [47, 103] [47, 103] with
      ⟨hhost, -⟩ | ⟨content, hhost, hout⟩
    · cases hhost
    · cases hhost
      generalize ext2Cp 0 (fun _ => some []) [47, 103] [47, 103] noInodeImage = o at hout ⊢
      cases hout with
      | noBlocks hfew => exact absurd hfew (Nat.not_lt_zero _)
      | noParent _ hno => exact nomatch hno.symm.trans hparent
      | existing _ _ hsome => exact nomatch hdest.symm.trans hsome
      | noInode => exact ⟨_, rfl⟩
      | entryFull _ _ _ hn => exact absurd hn (hnone _)
      | entryOverrun _ _ _ hn => exact absurd hn (hnone _)
      | new _ _ _ hn => exact absurd hn (hnone _)
      | tooLarge _ hlong =>
        obtain ⟨i, hne, -⟩ := hlong
        exact (hne (by simp [fileChunk])).elim
  · rintro content hhost hstop
    cases hhost
    cases hstop with
    | noParent hk => exact hk (by decide)
    | noInode hk => exact hk (by decide)
    | noEntry _ _ _ hinode => exact hinode.ne_empty noInodeImage_freeInodes

/-- A file of one byte is copied to `/h/i`, and there is no `/h`. -/
theorem smallImage_block_left : Consistent smallImage ∧
    ¬ CopyFailsClean smallImage 0 (fun _ => some [120]) [47, 103] [47, 104, 47, 105] := by
  have hcard : (freeBlocks smallImage).card = 104 := smallImage_consistent.sound.sFreeBlocks.symm
  have hparent : traversePath smallImage
      (destComponents smallImage [47, 103] [47, 104, 47, 105]).dropLast = none := by decide +kernel
  have hneeded : getRequiredBlockCount [(120 : UInt8)].length = 1 := by decide
  have hstop : CopyStopsHalfway smallImage [120]
      (destComponents smallImage [47, 103] [47, 104, 47, 105]) :=
    .noParent (by rw [hneeded]; decide) (by rw [hneeded, hcard]; decide) hparent
  exact ⟨smallImage_consistent, hstop.not_clean smallImage_consistent 0 rfl⟩

end Ext2
end OsAssignments
