import OsAssignments.Ext2.Insert

/-!
# Runs of `ext2_cp`

Everything `ext2_cp` can do on a consistent image.

* `Taken d k bs` — `bs` are `k` free blocks that `allocate_blocks` may hand out.
* `newFile` — the image after the inode of a new file was allocated.
* `CopyOutcome`, `ConsistentAs.ext2Cp_outcome` — the ways the command can go.

`ext2_cp` takes the blocks before it looks at the parent of the destination, and it does not
look at what `make_entry_in_inode` returns.
-/

namespace OsAssignments
namespace Ext2

open ByteMemory MachineWord ExitState Ownership

/-! ## Blocks taken -/

/-- `bs` are `k` free blocks. -/
structure Taken (d : Disk) (k : Nat) (bs : List Nat) : Prop where
  nodup : bs.Nodup
  length : bs.length = k
  free : ∀ b ∈ bs, b ∈ freeBlocks d

section

variable {pad : Bool} {d : Disk} {k n : Nat} {bs : List Nat}

theorem Taken.not_mem_blocksOf (ht : Taken d k bs) (h : Sound d) {m : Nat} (hm : ValidInode d m) :
    Disjoint (blocksOf d m) {c | c ∈ bs} := by
  rw [Set.disjoint_left]
  intro c hc hmem
  exact h.not_mem_blocksOf hm (mem_freeBlocks.mp (ht.free c hmem)).2 hc

/-- Blocks handed out touch no file. -/
theorem Taken.sameFile (ht : Taken d k bs) (h : Sound d) {m : Nat} (hm : ValidInode d m) :
    SameFile d (handOut d bs) m :=
  handOut_footprint.sameFile (Set.notMem_empty _) (ht.not_mem_blocksOf h hm)

theorem Taken.dirsKept (ht : Taken d k bs) (h : Sound d) : DirsKept d (handOut d bs) :=
  fun _ hn => ht.sameFile h hn.1.1

/-- The image with an inode for a new file. -/
def newFile (now : Nat) (content : List UInt8) (d : Disk) (n : Nat) : Disk :=
  newInode now ext2FtRegFile (wrap 32 content.length) d n

/-! ## The command -/

/-- The blocks `ext2_cp` takes are there. -/
theorem Taken.needed_le (ht : Taken d k bs) : k ≤ (freeBlocks d).card := by
  have hsub : bs.toFinset ⊆ freeBlocks d := fun b hb => ht.free b (List.mem_toFinset.mp hb)
  have hle := Finset.card_le_card hsub
  rwa [List.toFinset_card_of_nodup ht.nodup, ht.length] at hle

/-- An image has fewer blocks than an inode has slots. -/
theorem Taken.lt_limit (ht : Taken d k bs) (h : Counted d) : k < inodeBlockLimit := by
  have hcard := ht.needed_le
  have hlt := h.card_freeBlocks_lt
  rw [inodeBlockLimit_eq]
  omega

/-- How `ext2_cp` can go, once the source is open. -/
inductive CopyOutcome (d : Disk) (now : Nat) (content : List UInt8) (components : List CString) :
    Outcome Disk Unit → Prop
  | noBlocks : (freeBlocks d).card < getRequiredBlockCount content.length →
      CopyOutcome d now content components (.exit 1 d)
  | noParent {bs : List Nat} : Taken d (getRequiredBlockCount content.length) bs →
      traversePath d components.dropLast = none →
      CopyOutcome d now content components (.exit eExist (handOut d bs))
  | existing {bs : List Nat} {e pe : Nat} {d' : Disk} :
      Taken d (getRequiredBlockCount content.length) bs →
      traversePath d components.dropLast = some pe → traversePath d components = some e →
      Copied now (handOut d bs) d' (entryInode d.data e) bs content →
      CopyOutcome d now content components (.done () d')
  | noInode {bs : List Nat} {pe : Nat} : Taken d (getRequiredBlockCount content.length) bs →
      traversePath d components.dropLast = some pe → traversePath d components = none →
      freeInodes d = ∅ → CopyOutcome d now content components (.exit 1 (handOut d bs))
  | entryFull {bs : List Nat} {pe n : Nat} : Taken d (getRequiredBlockCount content.length) bs →
      traversePath d components.dropLast = some pe → traversePath d components = none →
      n ∈ freeInodes d → lastReservedInode < n →
      entryPlace (newFile now content (handOut d bs) n) (entryInode d.data pe)
        (components.getLastD []) = none →
      freeBlocks (newFile now content (handOut d bs) n) = ∅ →
      CopyOutcome d now content components (.exit 1 (newFile now content (handOut d bs) n))
  | entryOverrun {bs : List Nat} {pe n : Nat} : Taken d (getRequiredBlockCount content.length) bs →
      traversePath d components.dropLast = some pe → traversePath d components = none →
      n ∈ freeInodes d → lastReservedInode < n →
      Inserted (newFile now content (handOut d bs) n) (entryInode d.data pe) n
        (components.getLastD []) ext2FtRegFile .crash →
      CopyOutcome d now content components .crash
  | new {bs : List Nat} {pe n r : Nat} {d₁ d' : Disk} :
      Taken d (getRequiredBlockCount content.length) bs →
      traversePath d components.dropLast = some pe → traversePath d components = none →
      n ∈ freeInodes d → lastReservedInode < n →
      Inserted (newFile now content (handOut d bs) n) (entryInode d.data pe) n
        (components.getLastD []) ext2FtRegFile (.done (some r) d₁) →
      Copied now d₁ d' n bs content →
      CopyOutcome d now content components (.done () d')
  | tooLarge {bs : List Nat} : Taken d (getRequiredBlockCount content.length) bs →
      (∃ i, fileChunk content i ≠ [] ∧ bs.length ≤ i) →
      CopyOutcome d now content components .crash

/-- An inode that was free owns no block of a file in use. -/
theorem Sound.newInode_sameFile (h : Sound d) (now mode size : Nat) (hn : n ∈ freeInodes d) {m : Nat}
    (hm : InodeInUse d m) : SameFile d (newInode now mode size d n) m := by
  have hvalid := (mem_freeInodes.mp hn).1
  have hne : m ≠ n := by
    rintro rfl
    have hfree := (mem_freeInodes.mp hn).2
    rw [hm.2] at hfree
    cases hfree
  refine (newInode_footprint now mode size d n).sameFile hne ?_
  exact (h.disjoint_blocksOf hm.1 hvalid hne).mono_right (indirectOf_subset d n)

theorem Taken.newFile_sameFile (ht : Taken d k bs) (h : Sound d) (now : Nat) (content : List UInt8)
    (hn : n ∈ freeInodes d) {m : Nat} (hm : InodeInUse d m) :
    SameFile d (newFile now content (handOut d bs) n) m := by
  have hout : Sound (handOut d bs) := h.handedOut ht.nodup ht.free
  have hm' : InodeInUse (handOut d bs) m :=
    ⟨(validInode_of_layout handOut_layout).mpr hm.1, (getInodeUsage_handOut m).trans hm.2⟩
  have hn' : n ∈ freeInodes (handOut d bs) := by
    rw [freeInodes_handOut]
    exact hn
  have hnew : SameFile (handOut d bs)
      (newInode now ext2FtRegFile (wrap 32 content.length) (handOut d bs) n) m :=
    hout.newInode_sameFile now ext2FtRegFile _ hn' hm'
  rw [newFile]
  exact (ht.sameFile h hm.1).trans hnew

theorem Taken.newFile_dirsKept (ht : Taken d k bs) (h : Sound d) (now : Nat) (content : List UInt8)
    (hn : n ∈ freeInodes d) : DirsKept d (newFile now content (handOut d bs) n) :=
  fun _ hm => ht.newFile_sameFile h now content hn hm.1

/-- No insertion moves an indirect block. -/
theorem Inserted.indirectBlock_eq {p child fileType : Nat} {name : CString} {a : Option Nat}
    {d' : Disk} (hins : Inserted d p child name fileType (.done a d')) (m : Nat) :
    indirectBlock d' m = indirectBlock d m := by
  cases hins with
  | placed => rfl
  | @newBlock i b _ _ _ =>
    have hset := setInodeBlockNumber_indirectBlock (handOut d [b]) p i b m
    have hmod := (modifyInode_footprint (setInodeBlockNumber (handOut d [b]) p i b) p
      (fun k => { k with iBlocks := wrap 32 (k.iBlocks + 2 : Nat) }) fun _ => rfl).indirect m
    exact hmod.trans (hset.trans (handOut_footprint.indirect m))

theorem destComponents_ne_nil (d : Disk) (source dest : CString) :
    ∀ c ∈ destComponents d source dest, c ≠ [] := by
  intro c hc
  rw [destComponents] at hc
  split at hc
  · rcases List.mem_append.mp hc with hc | hc
    · exact splitPath_ne_nil dest c hc
    · have hlast : c ∈ splitPath source := by
        rw [List.mem_singleton.mp hc, splitPath_eq_append source]
        simp
      exact splitPath_ne_nil source c hlast
  · exact splitPath_ne_nil dest c hc

/-- The part of `ext2_cp` behind `allocate_blocks`. -/
def copyBlocks (now : Nat) (content : List UInt8) (components : List CString)
    (destEntry : Option Nat) (blocks : List Nat) : Command Unit := do
  let d ← Command.get
  match traversePath d components.dropLast with
  | none => Command.exit eExist
  | some dstParentEntry =>
    let inode ← receivingInode now (getRequiredBlockCount content.length) content.length
      destEntry dstParentEntry (components.getLastD [])
    attachContent now inode blocks content

theorem ext2Cp_eq (now : Nat) (host : CString → Option (List UInt8)) (source dest : CString) :
    ext2Cp now host source dest d = (match host (afterStrtok source) with
      | none => Command.exit eNoEnt
      | some content => do
        let blocks ← allocateBlocks (getRequiredBlockCount content.length)
        copyBlocks now content (destComponents d source dest)
          (traversePath d (destComponents d source dest)) blocks : Command Unit) d := rfl

/-- The last loops of `ext2_cp`, for an inode whose indirect block was not taken. -/
theorem Fresh.attachContent_outcome {d₀ d₁ : Disk} (hf : Fresh d₀ bs) (h : Counted d₀) (now : Nat)
    (content : List UInt8) (hn : ValidInode d₀ n)
    (hind : indirectBlock d₁ n = indirectBlock d₀ n) :
    (attachContent now n bs content d₁ = .crash ∧ ∃ i, fileChunk content i ≠ [] ∧ bs.length ≤ i) ∨
      ∃ d', attachContent now n bs content d₁ = .done () d' ∧ Copied now d₁ d' n bs content := by
  have hout : indirectBlock d₁ n ≠ 0 → indirectBlock d₁ n ∉ bs := by
    rw [hind]
    exact fun _ hmem => hf.unowned _ hmem (.indirect n) hn rfl
  rcases attachContent_copied now content hf.nodup
    (fun b hb => (hf.used b hb).2.lt_two_pow h) hout with hcrash | hdone
  · exact .inl ⟨hcrash, attachContent_crash hcrash⟩
  · exact .inr hdone

/-- Making a new file and its entry. -/
theorem ConsistentAs.newFile_outcome (h : ConsistentAs pad d) (now : Nat) {content : List UInt8}
    {components : List CString} (ht : Taken d (getRequiredBlockCount content.length) bs) {pe : Nat}
    (hparent : traversePath d components.dropLast = some pe)
    (hpe : ∃ m, LiveIn d m pe) (habsent : traversePath d components = none) :
    CopyOutcome d now content components ((do
      let inodeNum ← allocateFileInode now (wrap 32 content.length)
      let d ← Command.get
      let _ ← makeEntryInInode (entryInode d.data pe) inodeNum (components.getLastD []) ext2FtRegFile
      attachContent now inodeNum bs content : Command Unit) (handOut d bs)) := by
  have hout : Sound (handOut d bs) := h.sound.handedOut ht.nodup ht.free
  rcases hout.toCounted.allocateTypedInode_cases now ext2FtRegFile (wrap 32 content.length) with
    ⟨hnone, hexit⟩ | ⟨n, hn, hres, hdone⟩
  · rw [Command.bind_of_exit (x := allocateFileInode now (wrap 32 content.length)) hexit]
    exact .noInode ht hparent habsent (freeInodes_handOut ▸ hnone)
  · rw [Command.bind_of_done (x := allocateFileInode now (wrap 32 content.length)) hdone,
      Command.bind_of_done (Command.get_apply _), ← newFile]
    have hn' : n ∈ freeInodes d := freeInodes_handOut ▸ hn
    have hsound : Sound (newFile now content (handOut d bs) n) :=
      hout.withNewInode now ext2FtRegFile _ hn
    have hlayout : (newFile now content (handOut d bs) n).layout = d.layout :=
      (newInode_layout now ext2FtRegFile _ (handOut d bs) n).trans handOut_layout
    have hentry : entryInode (newFile now content (handOut d bs) n).data pe = entryInode d.data pe := by
      obtain ⟨m, hl⟩ := hpe
      exact ((ht.newFile_dirsKept h.sound now content hn').sameEntry h.tiled hl).inode
    have hp : ValidInode d (entryInode d.data pe) := by
      obtain ⟨m, hl⟩ := hpe
      exact (h.names m pe hl).1.1
    rw [hentry]
    have hins := hsound.makeEntryInInode_cases ((validInode_of_layout hlayout).mpr hp) n
      (components.getLastD []) ext2FtRegFile
    cases hput : makeEntryInInode (entryInode d.data pe) n (components.getLastD []) ext2FtRegFile
        (newFile now content (handOut d bs) n) with
    | done attempt d₁ =>
      rw [hput] at hins
      rw [Command.bind_of_done hput]
      have hfresh : Fresh (newFile now content (handOut d bs) n) bs :=
        (h.sound.fresh_handOut ht.nodup ht.free).withNewInode hout now ext2FtRegFile _
          (mem_freeInodes.mp hn).1
      have hind := hins.indirectBlock_eq n
      have hvalid := (validInode_of_layout hlayout).mpr (mem_freeInodes.mp hn').1
      have hend := hfresh.attachContent_outcome hsound.toCounted now content hvalid hind
      rcases hend with ⟨hcrash, hlong⟩ | ⟨d', hrun, hc⟩
      · rw [hcrash]
        exact .tooLarge ht hlong
      · rw [hrun]
        cases hins with
        | placed hplace hi hne hmem =>
          exact .new ht hparent habsent hn' hres (.placed hplace hi hne hmem) hc
        | newBlock hplace hfirst hb =>
          exact .new ht hparent habsent hn' hres (.newBlock hplace hfirst hb) hc
    | exit status d₁ =>
      rw [hput] at hins
      rw [Command.bind_of_exit hput]
      cases hins with
      | full hplace hfree => exact .entryFull ht hparent habsent hn' hres hplace hfree
    | crash =>
      rw [hput] at hins
      rw [Command.bind_of_crash hput]
      exact .entryOverrun ht hparent habsent hn' hres hins

/-- `ext2_cp` to a name that does not exist yet. -/
theorem ConsistentAs.copyBlocks_new (h : ConsistentAs pad d) (now : Nat) {content : List UInt8}
    {components : List CString} (hne : ∀ c ∈ components, c ≠ [])
    (ht : Taken d (getRequiredBlockCount content.length) bs) {pe : Nat}
    (hparent : traversePath d components.dropLast = some pe) :
    copyBlocks now content components none bs (handOut d bs) = (do
      let inodeNum ← allocateFileInode now (wrap 32 content.length)
      let d ← Command.get
      let _ ← makeEntryInInode (entryInode d.data pe) inodeNum (components.getLastD []) ext2FtRegFile
      attachContent now inodeNum bs content : Command Unit) (handOut d bs) := by
  have hfits := (ht.lt_limit h.sound.toCounted).le
  rw [copyBlocks, Command.bind_of_done (Command.get_apply _),
    (ht.dirsKept h.sound).traversePath_eq h fun c hc => hne c (List.mem_of_mem_dropLast hc), hparent]
  dsimp only [receivingInode]
  rw [if_neg (Nat.not_lt.mpr hfits)]
  simp only [Command.bind_assoc, Command.pure_bind]

/-- The part behind `allocate_blocks`. -/
theorem ConsistentAs.copyBlocks_outcome (h : ConsistentAs pad d) (now : Nat) {content : List UInt8}
    {components : List CString} (hne : ∀ c ∈ components, c ≠ [])
    (ht : Taken d (getRequiredBlockCount content.length) bs) :
    CopyOutcome d now content components
      (copyBlocks now content components (traversePath d components) bs (handOut d bs)) := by
  have hkept := ht.dirsKept h.sound
  have hne' : ∀ c ∈ components.dropLast, c ≠ [] := fun c hc => hne c (List.mem_of_mem_dropLast hc)
  have hpath := hkept.traversePath_eq h hne'
  cases hparent : traversePath d components.dropLast with
  | none =>
    rw [copyBlocks, Command.bind_of_done (Command.get_apply _), hpath, hparent]
    exact .noParent ht hparent
  | some pe =>
    cases hdest : traversePath d components with
    | some e =>
      rw [copyBlocks, Command.bind_of_done (Command.get_apply _), hpath, hparent]
      obtain ⟨m, hl⟩ := h.traversePath_live hne hdest
      have hentry : entryInode (handOut d bs).data e = entryInode d.data e :=
        (hkept.sameEntry h.tiled hl).inode
      have hvalid : ValidInode (handOut d bs) (entryInode d.data e) :=
        (validInode_of_layout handOut_layout).mpr (h.names m e hl).1.1
      have hfresh := h.sound.fresh_handOut ht.nodup ht.free
      have hrecv : receivingInode now (getRequiredBlockCount content.length) content.length (some e) pe
          (components.getLastD []) (handOut d bs) = .done (entryInode d.data e) (handOut d bs) := by
        rw [receivingInode, Command.bind_of_done (Command.get_apply _), hentry]
        rfl
      dsimp only
      rw [Command.bind_of_done hrecv]
      have hend := hfresh.attachContent_outcome (h.sound.handedOut ht.nodup ht.free).toCounted now
        content hvalid rfl
      rcases hend with ⟨hcrash, hlong⟩ | ⟨d', hrun, hc⟩
      · rw [hcrash]
        exact .tooLarge ht hlong
      · rw [hrun]
        exact .existing ht hparent hdest hc
    | none =>
      rw [h.copyBlocks_new now hne ht hparent]
      exact h.newFile_outcome now ht hparent (h.traversePath_live hne' hparent) hdest

/-- **Everything `ext2_cp` can do.** -/
theorem ConsistentAs.ext2Cp_outcome (h : ConsistentAs pad d) (now : Nat)
    (host : CString → Option (List UInt8)) (source dest : CString) :
    (host (afterStrtok source) = none ∧ ext2Cp now host source dest d = .exit eNoEnt d) ∨
    ∃ content, host (afterStrtok source) = some content ∧
      CopyOutcome d now content (destComponents d source dest) (ext2Cp now host source dest d) := by
  rw [ext2Cp_eq]
  cases hhost : host (afterStrtok source) with
  | none => exact .inl ⟨rfl, rfl⟩
  | some content =>
    refine .inr ⟨content, rfl, ?_⟩
    dsimp only
    rcases h.sound.toCounted.allocateBlocks_cases (getRequiredBlockCount content.length) with
      ⟨hfew, hexit⟩ | ⟨bs, hnodup, hlen, hbs, hdone⟩
    · rw [Command.bind_of_exit hexit]
      exact .noBlocks hfew
    · rw [Command.bind_of_done hdone]
      exact h.copyBlocks_outcome now (destComponents_ne_nil d source dest) ⟨hnodup, hlen, hbs⟩

/-- The same, for a source that can be opened. -/
theorem ConsistentAs.ext2Cp_copyOutcome (h : ConsistentAs pad d) (now : Nat)
    {host : CString → Option (List UInt8)} {source : CString} (dest : CString)
    {content : List UInt8} (hhost : host (afterStrtok source) = some content) :
    CopyOutcome d now content (destComponents d source dest) (ext2Cp now host source dest d) := by
  rcases h.ext2Cp_outcome now host source dest with ⟨hnone, -⟩ | ⟨content', hsome, hout⟩
  · rw [hhost] at hnone
    cases hnone
  · rw [hhost] at hsome
    cases hsome
    exact hout

/-! ## What a copy leaves alone -/

theorem Fresh.disjoint_blocksOf (hf : Fresh d bs) {m : Nat} (hm : ValidInode d m) :
    Disjoint (blocksOf d m) {c | c ∈ bs} := by
  rw [Set.disjoint_left]
  intro c hc hmem
  obtain ⟨r, -, hr, hrc⟩ := exists_ref_of_mem_blocksOf hm hc
  exact hf.unowned c hmem r hr hrc

/-- A copy leaves all other files alone. -/
theorem Copied.sameFile {now : Nat} {content : List UInt8} {d' : Disk} (h : Sound d)
    (hf : Fresh d bs) (hn : ValidInode d n) (hc : Copied now d d' n bs content) {m : Nat}
    (hm : ValidInode d m) (hne : m ≠ n) : SameFile d d' m := by
  refine hc.footprint.sameFile hne (Set.disjoint_left.mpr fun c hcm hcb => ?_)
  rcases hcb with hcb | hcb
  · exact Set.disjoint_left.mp (hf.disjoint_blocksOf hm) hcm hcb
  · exact Set.disjoint_left.mp (h.disjoint_blocksOf hm hn hne) hcm (indirectOf_subset d n hcb)

end

end Ext2
end OsAssignments
