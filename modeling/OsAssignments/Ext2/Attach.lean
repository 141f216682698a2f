import OsAssignments.Ext2.AllocationSound

/-!
# Copying a file into an inode

The two loops of `ext2_cp`.  The first one puts the new blocks into the empty slots; the
second one overwrites all slots that can be written, so nothing of the first one remains.

* `chunkBlock` — the block of the `i`-th kilobyte of the file.
* `Attached` — what the rounds `l` of the second loop have done.
* `Copied`, `attachContent_copied` — what both loops and the assignments after them do.
* `Sound.copied` — the image is sound again, if the blocks were handed out for this.
-/

namespace OsAssignments
namespace Ext2

open ByteMemory MachineWord ExitState Ownership

/-! ## The first loop -/

theorem attachStep_slotsOnly (n : Nat) (state : Disk × List Nat) (i : Nat) :
    SlotsOnly state.1 (attachStep n state i).1 n [] := by
  obtain ⟨d, bs⟩ := state
  cases bs with
  | nil => exact SlotsOnly.refl d n []
  | cons b rest =>
    rw [attachStep]
    split
    · exact setInodeBlockNumber_slotsOnly d n i b []
    · exact SlotsOnly.refl d n []

theorem attachEmpty_slotsOnly (d : Disk) (n : Nat) (blocks : List Nat) :
    SlotsOnly d (attachEmpty d n blocks) n [] := by
  have hall : ∀ (l : List Nat) (state : Disk × List Nat),
      SlotsOnly state.1 (l.foldl (attachStep n) state).1 n [] := by
    intro l
    induction l with
    | nil => exact fun state => SlotsOnly.refl state.1 n []
    | cons i l ih => exact fun state => (attachStep_slotsOnly n state i).trans (ih _)
  exact hall _ (d, blocks)

/-! ## The second loop -/

/-- The block that slot `i` gets. -/
def chunkBlock (blocks : List Nat) (content : List UInt8) (i : Nat) : Nat :=
  if fileChunk content i ≠ [] then blocks.getD i 0 else 0

/-- The blocks written in the rounds `l`. -/
def chunkBlocks (blocks l : List Nat) : List Nat := l.filterMap fun i => blocks[i]?

theorem mem_chunkBlocks {blocks l : List Nat} {b : Nat} :
    b ∈ chunkBlocks blocks l ↔ ∃ i ∈ l, blocks[i]? = some b := by
  simp [chunkBlocks]

theorem chunkBlocks_subset (blocks l : List Nat) : chunkBlocks blocks l ⊆ blocks := by
  intro b hb
  obtain ⟨i, -, hi⟩ := mem_chunkBlocks.mp hb
  exact List.mem_of_getElem? hi

theorem not_mem_chunkBlocks {blocks l : List Nat} (hnodup : blocks.Nodup) {i b : Nat}
    (hb : blocks[i]? = some b) (hi : i ∉ l) : b ∉ chunkBlocks blocks l := by
  intro hmem
  obtain ⟨j, hj, hjb⟩ := mem_chunkBlocks.mp hmem
  obtain ⟨hilt, hieq⟩ := List.getElem?_eq_some_iff.mp hb
  obtain ⟨hjlt, hjeq⟩ := List.getElem?_eq_some_iff.mp hjb
  have hij : i = j := (List.Nodup.getElem_inj_iff hnodup).mp (hieq.trans hjeq.symm)
  exact hi (hij ▸ hj)

theorem length_fileChunk_le (content : List UInt8) (i : Nat) :
    (fileChunk content i).length ≤ ext2BlockSize := by
  rw [fileChunk, List.length_take]
  omega

/-- The rounds `l` of the second loop are done. -/
structure Attached (d d' : Disk) (n : Nat) (blocks : List Nat) (content : List UInt8)
    (l : List Nat) : Prop where
  slotsOnly : SlotsOnly d d' n (chunkBlocks blocks l)
  slots : ∀ j, getInodeBlockNumber d' n j
    = if j ∈ l ∧ Attachable d n j then chunkBlock blocks content j else getInodeBlockNumber d n j
  written : ∀ j ∈ l, fileChunk content j ≠ [] → ∃ b, blocks[j]? = some b ∧
    readBytes d'.data (fileChunk content j).length (getBlock b) = fileChunk content j

section Attach

variable {d : Disk} {n : Nat} {blocks : List Nat} {content : List UInt8}

/-- One round, with the block it needs. -/
theorem attachChunk_attached (hword : ∀ b ∈ blocks, b < 2 ^ 32)
    (hind : indirectBlock d n ≠ 0 → indirectBlock d n ∉ blocks) (i : Nat) :
    attachChunk n blocks content i d = .crash ∨
      ∃ d', attachChunk n blocks content i d = .done () d' ∧ Attached d d' n blocks content [i] := by
  rw [attachChunk]
  by_cases hchunk : fileChunk content i = []
  · refine .inr ⟨setInodeBlockNumber d n i 0, by rw [if_neg (not_not.mpr hchunk)]; rfl, ?_⟩
    refine ⟨setInodeBlockNumber_slotsOnly d n i 0 _, fun j => ?_, fun j hj hne => ?_⟩
    · simp only [List.mem_singleton]
      rw [getInodeBlockNumber_set_self d n i j (by norm_num)]
      by_cases hji : j = i ∧ Attachable d n i
      · obtain ⟨rfl, hatt⟩ := hji
        rw [if_pos ⟨rfl, hatt⟩, if_pos ⟨rfl, hatt⟩, chunkBlock, if_neg (not_not.mpr hchunk)]
      · have hji' : ¬ (j = i ∧ Attachable d n j) := fun h => hji ⟨h.1, h.1 ▸ h.2⟩
        rw [if_neg hji, if_neg hji']
    · rw [List.mem_singleton.mp hj] at hne
      exact absurd hchunk hne
  · rw [if_pos hchunk]
    cases hget : blocks[i]? with
    | none => exact .inl rfl
    | some b =>
      have hmem : b ∈ blocks := List.mem_of_getElem? hget
      have hlen := length_fileChunk_le content i
      have hset := setInodeBlockNumber_slotsOnly d n i b [b]
      have hself : chunkBlocks blocks [i] = [b] := by simp [chunkBlocks, hget]
      -- the bytes of block `b`
      have hdata : ∀ c, c ≠ b → AgreeOn (setInodeBlockNumber d n i b).data
          (writeBytes (setInodeBlockNumber d n i b).data (getBlock b) (fileChunk content i))
          (getBlock c) ext2BlockSize := by
        intro c hc
        refine writeBytes_of_disjoint _ _ _ ?_
        rw [getBlock_eq, getBlock_eq, ext2BlockSize_eq]
        rw [ext2BlockSize_eq] at hlen
        omega
      refine .inr ⟨_, rfl, ?_, fun j => ?_, fun j hj _ => ?_⟩
      · rw [hself]
        refine hset.trans ⟨rfl, rfl, rfl, rfl, fun _ _ => rfl, ⟨_, rfl⟩, rfl, fun c hc _ => hdata c ?_⟩
        simpa using hc
      · have hframe : ∀ k, getInodeBlockNumber { setInodeBlockNumber d n i b with
            data := writeBytes (setInodeBlockNumber d n i b).data (getBlock b)
              (fileChunk content i) } n k
            = getInodeBlockNumber (setInodeBlockNumber d n i b) n k := by
          apply getInodeBlockNumber_congr
          · rfl
          · intro hne
            rw [setInodeBlockNumber_indirectBlock] at hne ⊢
            exact hdata _ fun heq => hind hne (heq ▸ hmem)
        simp only [List.mem_singleton]
        rw [hframe, getInodeBlockNumber_set_self d n i j (hword b hmem)]
        by_cases hji : j = i ∧ Attachable d n i
        · obtain ⟨rfl, hatt⟩ := hji
          rw [if_pos ⟨rfl, hatt⟩, if_pos ⟨rfl, hatt⟩, chunkBlock, if_pos hchunk,
            List.getD_eq_getElem?_getD, hget, Option.getD_some]
        · have hji' : ¬ (j = i ∧ Attachable d n j) := fun h => hji ⟨h.1, h.1 ▸ h.2⟩
          rw [if_neg hji, if_neg hji']
      · obtain rfl := List.mem_singleton.mp hj
        exact ⟨b, hget, readBytes_writeBytes _ _ _⟩

theorem Attached.cons {d' d'' : Disk} {i : Nat} {l : List Nat} (hnodup : blocks.Nodup)
    (hind : indirectBlock d n ≠ 0 → indirectBlock d n ∉ blocks) (hi : i ∉ l)
    (h : Attached d d' n blocks content [i]) (h' : Attached d' d'' n blocks content l) :
    Attached d d'' n blocks content (i :: l) := by
  have hsub : ∀ k, k = [i] ∨ k = l → chunkBlocks blocks k ⊆ chunkBlocks blocks (i :: l) := by
    rintro k hk b hb
    obtain ⟨j, hj, hjb⟩ := mem_chunkBlocks.mp hb
    refine mem_chunkBlocks.mpr ⟨j, ?_, hjb⟩
    rcases hk with rfl | rfl
    · simp [List.mem_singleton.mp hj]
    · simp [hj]
  refine ⟨(h.slotsOnly.mono (hsub _ (.inl rfl))).trans (h'.slotsOnly.mono (hsub _ (.inr rfl))),
    fun j => ?_, fun j hj hne => ?_⟩
  · rw [h'.slots, h.slots]
    simp only [h.slotsOnly.attachable_iff, List.mem_cons]
    by_cases hji : j = i
    · subst hji
      simp [hi]
    · simp [hji]
  · rcases List.mem_cons.mp hj with rfl | hjl
    · obtain ⟨b, hget, hread⟩ := h.written j (by simp) hne
      have hlen := length_fileChunk_le content j
      have hag : AgreeOn d'.data d''.data (getBlock b) ext2BlockSize := by
        refine h'.slotsOnly.data b (not_mem_chunkBlocks hnodup hget hi) ?_
        rw [h.slotsOnly.indirect]
        by_cases hzero : indirectBlock d n = 0
        · by_cases hb : b = 0
          · exact .inl hb
          · exact .inr (hzero ▸ hb)
        · exact .inr fun heq => hind hzero (heq ▸ List.mem_of_getElem? hget)
      exact ⟨b, hget, (hag.mono (le_refl _) (by omega)).readBytes.trans hread⟩
    · exact h'.written j hjl hne

/-- The rounds of the second loop, if the program survives them. -/
theorem attachContentFrom_attached (content : List UInt8) (hnodup : blocks.Nodup)
    (hword : ∀ b ∈ blocks, b < 2 ^ 32)
    (hind : indirectBlock d n ≠ 0 → indirectBlock d n ∉ blocks) {l : List Nat} (hl : l.Nodup) :
    attachContentFrom n blocks content l d = .crash ∨
      ∃ d', attachContentFrom n blocks content l d = .done () d' ∧
        Attached d d' n blocks content l := by
  induction l generalizing d with
  | nil => exact .inr ⟨d, rfl, SlotsOnly.refl d n _, by simp, by simp⟩
  | cons i l ih =>
    obtain ⟨hi, hl⟩ := List.nodup_cons.mp hl
    rw [attachContentFrom]
    rcases attachChunk_attached hword hind i with hcrash | ⟨d', hdone, hone⟩
    · exact .inl (Command.bind_of_crash hcrash)
    · rw [Command.bind_of_done hdone]
      have hind' : indirectBlock d' n ≠ 0 → indirectBlock d' n ∉ blocks := by
        rw [hone.slotsOnly.indirect]
        exact hind
      rcases ih hind' hl with hcrash | ⟨d'', hdone, hrest⟩
      · exact .inl hcrash
      · exact .inr ⟨d'', hdone, hone.cons hnodup hind hi hrest⟩

/-- The rounds do not crash if there is a block for every kilobyte. -/
theorem attachContentFrom_ne_crash (hblocks : ∀ i, fileChunk content i ≠ [] → i < blocks.length)
    (l : List Nat) (d : Disk) : attachContentFrom n blocks content l d ≠ .crash := by
  induction l generalizing d with
  | nil => exact nofun
  | cons i l ih =>
    have hdone : ∃ d', attachChunk n blocks content i d = .done () d' := by
      rw [attachChunk]
      by_cases hchunk : fileChunk content i = []
      · exact ⟨_, by rw [if_neg (not_not.mpr hchunk)]; rfl⟩
      · rw [if_pos hchunk, List.getElem?_eq_getElem (hblocks i hchunk)]
        exact ⟨_, rfl⟩
    obtain ⟨d', hdone⟩ := hdone
    rw [attachContentFrom, Command.bind_of_done hdone]
    exact ih d'

/-! ## Both loops -/

/-- The fields `ext2_cp` sets at its end. -/
def copiedFields (now : Nat) (blocks : List Nat) (content : List UInt8) (i : Inode) : Inode :=
  { i with
    iMode := ext2FtRegFile
    iCtime := now
    iDtime := 0
    iBlocks := wrap 32 (blocks.length * 2 : Nat)
    iSize := wrap 32 content.length }

/-- The content is in the inode. -/
structure Copied (now : Nat) (d d' : Disk) (n : Nat) (blocks : List Nat) (content : List UInt8) :
    Prop where
  footprint : Footprint d d' {n} ({c | c ∈ blocks} ∪ indirectOf d n)
  accounts : SameAccounts d d'
  slots : ∀ j, getInodeBlockNumber d' n j
    = if j < inodeBlockLimit ∧ Attachable d n j then chunkBlock blocks content j else 0
  written : ∀ j, j < inodeBlockLimit → fileChunk content j ≠ [] → ∃ b, blocks[j]? = some b ∧
    readBytes d'.data (fileChunk content j).length (getBlock b) = fileChunk content j
  inode : ∃ iBlock, d'.inodeTable n
    = { copiedFields now blocks content (d.inodeTable n) with iBlock := iBlock }

theorem attachContent_copied (now : Nat) (content : List UInt8) (hnodup : blocks.Nodup)
    (hword : ∀ b ∈ blocks, b < 2 ^ 32)
    (hind : indirectBlock d n ≠ 0 → indirectBlock d n ∉ blocks) :
    attachContent now n blocks content d = .crash ∨
      ∃ d', attachContent now n blocks content d = .done () d' ∧
        Copied now d d' n blocks content := by
  have hempty := attachEmpty_slotsOnly d n blocks
  rw [attachContent, Command.bind_of_done (Command.modify_apply _ d)]
  rcases attachContentFrom_attached content hnodup hword
    (by rw [hempty.indirect]; exact hind) (List.nodup_range (n := inodeBlockLimit)) with
    hcrash | ⟨d₁, hdone, hatt⟩
  · exact .inl (Command.bind_of_crash hcrash)
  · refine .inr ⟨_, by rw [Command.bind_of_done hdone]; rfl, ?_⟩
    have hsub := chunkBlocks_subset blocks (List.range inodeBlockLimit)
    have hslots : SlotsOnly d d₁ n blocks :=
      (hempty.mono (List.nil_subset _)).trans (hatt.slotsOnly.mono hsub)
    obtain ⟨iBlock, hself⟩ := hslots.self
    refine ⟨?_, ?_, fun j => ?_, fun j hj => hatt.written j (List.mem_range.mpr hj), iBlock, ?_⟩
    · exact hslots.footprint.trans ((modifyInode_footprint d₁ n (copiedFields now blocks content)
        fun _ => rfl).mono (le_refl _) (Set.empty_subset _))
    · have ha := hslots.sameAccounts
      exact ⟨ha.layout, ha.sFreeBlocks, ha.bgFreeBlocks, ha.sFreeInodes, ha.bgFreeInodes,
        ha.blockBitmap, ha.inodeBitmap⟩
    · have hsame : getInodeBlockNumber (d₁.modifyInode n (copiedFields now blocks content)) n j
          = getInodeBlockNumber d₁ n j := by
        apply getInodeBlockNumber_congr
        · rw [Disk.modifyInode_inodeTable_self]
          rfl
        · exact fun _ => AgreeOn.refl _ _ _
      refine hsame.trans ?_
      rw [hatt.slots]
      simp only [List.mem_range, hempty.attachable_iff]
      split
      · rfl
      · rename_i hnot
        by_cases hj : j < inodeBlockLimit
        · have hna : ¬ Attachable (attachEmpty d n blocks) n j := fun h =>
            hnot ⟨hj, hempty.attachable_iff.mp h⟩
          exact getInodeBlockNumber_of_not_attachable hna
        · exact getInodeBlockNumber_past _ _ (by omega)
    · rw [Disk.modifyInode_inodeTable_self, hself]
      rfl

/-- The program is killed only if it needs a block it does not have. -/
theorem attachContent_crash {now : Nat} (h : attachContent now n blocks content d = .crash) :
    ∃ i, fileChunk content i ≠ [] ∧ blocks.length ≤ i := by
  by_contra hnot
  push Not at hnot
  rw [attachContent, Command.bind_of_done (Command.modify_apply _ d)] at h
  cases hloop : attachContentFrom n blocks content (List.range inodeBlockLimit)
      (attachEmpty d n blocks) with
  | done _ d' =>
    rw [Command.bind_of_done hloop] at h
    cases h
  | exit status d' =>
    rw [Command.bind_of_exit hloop] at h
    cases h
  | crash => exact attachContentFrom_ne_crash hnot _ _ hloop

end Attach

/-- What a slot can hold after a copy. -/
theorem chunkBlock_cases (blocks : List Nat) (content : List UInt8) (i : Nat) :
    chunkBlock blocks content i = 0 ∨ blocks[i]? = some (chunkBlock blocks content i) := by
  rw [chunkBlock]
  split
  · rw [List.getD_eq_getElem?_getD]
    cases blocks[i]? with
    | none => exact .inl rfl
    | some b => exact .inr rfl
  · exact .inl rfl

/-- **The image is sound after a copy**, if nobody owned the blocks. -/
theorem Sound.copied {now : Nat} {d d' : Disk} {n : Nat} {blocks : List Nat} {content : List UInt8}
    (h : Sound d) (hn : ValidInode d n) (hnodup : blocks.Nodup)
    (hused : ∀ b ∈ blocks, b ≠ 0 ∧ InUse d b)
    (hfree : ∀ b ∈ blocks, ∀ r, ValidRef d r → stored d r ≠ b)
    (hc : Copied now d d' n blocks content) : Sound d' := by
  have ha := hc.accounts
  have hother : ∀ r, ValidRef d r → r.inode ≠ n → stored d' r = stored d r := by
    intro r hr hne
    have hvalid : ValidInode d r.inode := by
      cases r with
      | slot m i => exact hr.1
      | indirect m => exact hr
    refine hc.footprint.stored_eq hne fun hnz hmem => ?_
    rcases hmem with hmem | hmem
    · exact hfree _ hmem (.indirect r.inode) hvalid rfl
    · exact hne (h.indirectDistinct r.inode n hvalid hn hnz hmem.2)
  -- the three ways a place can look after the copy
  have hcases : ∀ r, ValidRef d r → stored d' r = stored d r ∨ stored d' r = 0 ∨
      ∃ i b, r = .slot n i ∧ blocks[i]? = some b ∧ stored d' r = b := by
    intro r hr
    by_cases hrn : r.inode = n
    · cases r with
      | slot m i =>
        obtain rfl : m = n := hrn
        have hslot := hc.slots i
        split at hslot
        · rcases chunkBlock_cases blocks content i with hzero | hget
          · exact .inr (.inl (hslot.trans hzero))
          · exact .inr (.inr ⟨i, _, rfl, hget, hslot⟩)
        · exact .inr (.inl hslot)
      | indirect m => exact .inl (hc.footprint.indirect m)
    · exact .inl (hother r hr hrn)
  have honly : ∀ r, ValidRef d r → stored d' r ∈ blocks →
      ∃ i, r = .slot n i ∧ blocks[i]? = some (stored d' r) := by
    intro r hr hmem
    rcases hcases r hr with hsame | hzero | ⟨i, b, hslot, hget, heq⟩
    · exact absurd hsame.symm (hfree _ hmem r hr)
    · exact absurd hzero (hused _ hmem).1
    · exact ⟨i, hslot, heq ▸ hget⟩
  refine h.of_adopt (ha.counted h.toCounted) ha.layout (fun _ => ha.inUse)
    (show ∀ c, c ∈ blocks → _ from fun c hcb => ha.inUse (hused c hcb).2) (fun r hr => ?_)
    fun r s hr hs hrb heq => ?_
  · rcases hcases r hr with hsame | hzero | ⟨i, b, -, hget, hb⟩
    · exact .inr (.inl hsame)
    · exact .inl hzero
    · exact .inr (.inr (hb ▸ List.mem_of_getElem? hget))
  · obtain ⟨i, hri, hgi⟩ := honly r hr hrb
    obtain ⟨j, hsj, hgj⟩ := honly s hs (heq ▸ hrb)
    obtain ⟨hilt, hieq⟩ := List.getElem?_eq_some_iff.mp hgi
    obtain ⟨hjlt, hjeq⟩ := List.getElem?_eq_some_iff.mp hgj
    have hij : i = j :=
      (List.Nodup.getElem_inj_iff hnodup).mp (hieq.trans (heq.trans hjeq.symm))
    rw [hri, hsj, hij]

end Ext2
end OsAssignments
