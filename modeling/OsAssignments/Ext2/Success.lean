import OsAssignments.Ext2.Persistence

/-!
# Commands that succeed

A command that fails leaves the file system alone, so one that always failed would do no harm.  Here
is when none fails.

* `FileSystem.Allows` — the paths lead where the command needs them to lead.
* `Invocation.EnoughRoom` — there are inodes and blocks for it.
* `command_succeeds` — **a command that is allowed and has room does what it is for.**
-/

namespace OsAssignments
namespace Ext2

open ExitState

/-- The paths of the command lead to what it needs. -/
def FileSystem.Allows (fs : FileSystem) (host : CString → Option (List UInt8)) : TreeCommand → Prop
  | .mkdir path => ∃ p, fs.Place (splitPath path) p
  | .file (.ln source dest _) =>
      (∃ n kind, fs.lookup (splitPath source) = some (n, kind) ∧ kind ≠ ext2FtDir) ∧
      ∃ p, fs.Place (splitPath dest) p
  | .file (.cp source dest) => host (afterStrtok source) ≠ none ∧
      fs.lookup (fs.destPath source dest).dropLast ≠ none
  | .rm path => ∃ n kind, fs.lookup (splitPath path) = some (n, kind) ∧ kind ≠ ext2FtDir

/-- Inodes and blocks for the command: a block more than it fills, for its entry may take one.  A copy
takes an inode only if there is nothing at its destination. -/
def Invocation.EnoughRoom (d : Disk) (inv : Invocation) : Prop :=
  match inv.command with
  | .mkdir _ => (freeInodes d).Nonempty ∧ 1 < (freeBlocks d).card
  | .file (.ln _ _ false) => 0 < (freeBlocks d).card
  | .file (.ln source _ true) => (freeInodes d).Nonempty ∧ 1 < (freeBlocks d).card ∧
      (afterStrtok source).length < ext2BlockSize
  | .file (.cp source dest) =>
      (traversePath d (destComponents d source dest) = none → (freeInodes d).Nonempty) ∧
      ∀ content, inv.host (afterStrtok source) = some content →
        getRequiredBlockCount content.length < (freeBlocks d).card
  | .rm _ => True

section

variable {d : Disk} {inv : Invocation} {now : Nat} {host : CString → Option (List UInt8)}
  {components : List CString} {path source dest : CString} {p : Nat} {b : Nat × Nat}
  {out : Outcome Disk Unit}

/-! ## Paths of the image -/

theorem ConsistentAs.traversePath_of_lookup (h : Consistent d) (hne : ∀ c ∈ components, c ≠ [])
    (hlookup : (fileSystem d).lookup components = some b) :
    ∃ e, traversePath d components = some e ∧ entryTarget d e = b := by
  rw [h.lookup_eq hne] at hlookup
  exact Option.map_eq_some_iff.mp hlookup

theorem ConsistentAs.traversePath_eq_none (h : Consistent d) (hne : ∀ c ∈ components, c ≠ []) :
    traversePath d components = none ↔ (fileSystem d).lookup components = none := by
  rw [h.lookup_eq hne, Option.map_eq_none_iff]

/-- The parent and the name of a path that can be made. -/
theorem ConsistentAs.place_paths (h : Consistent d) (hplace : (fileSystem d).Place (splitPath path) p) :
    ∃ pe, traversePath d (splitPath path).dropLast = some pe ∧ isDirectory d (some pe) = true ∧
      traversePath d (splitPath path) = none := by
  obtain ⟨pe, hparent, htarget⟩ := h.traversePath_of_lookup (dropLast_ne_nil path) hplace.parent
  refine ⟨pe, hparent, ?_, (h.traversePath_eq_none (splitPath_ne_nil path)).mpr hplace.absent⟩
  exact (isDirectory_some d pe).mpr (congrArg Prod.snd htarget)

/-- A path to what is no directory. -/
theorem ConsistentAs.file_path (h : Consistent d) {n kind : Nat}
    (hlookup : (fileSystem d).lookup (splitPath path) = some (n, kind)) (hkind : kind ≠ ext2FtDir) :
    ∃ e, traversePath d (splitPath path) = some e ∧ isDirectory d (some e) = false := by
  obtain ⟨e, hrun, htarget⟩ := h.traversePath_of_lookup (splitPath_ne_nil path) hlookup
  refine ⟨e, hrun, Bool.eq_false_iff.mpr fun hdir => hkind ?_⟩
  exact (congrArg Prod.snd htarget).symm.trans ((isDirectory_some d e).mp hdir)

/-! ## The outcomes -/

/-- A block is left if there was one more than were taken. -/
theorem Prepared.block_left {d' : Disk} {k : Nat} (h : Prepared d d' k)
    (hmore : k < (freeBlocks d).card) : freeBlocks d' ≠ ∅ := by
  have hcard := h.card
  exact (Finset.card_pos.mp (by omega)).ne_empty

theorem MkdirOutcome.succeeds {name : CString} (h : Sound d)
    (hout : MkdirOutcome d now p name out) (hne : out ≠ .crash) (hinode : (freeInodes d).Nonempty)
    (hblocks : 1 < (freeBlocks d).card) : ∃ d', out = .done () d' := by
  cases hout with
  | noInode hnone => exact absurd hnone hinode.ne_empty
  | noBlock _ hnone => exact absurd hnone (Finset.card_pos.mp (by omega)).ne_empty
  | entryFull hn hb _ hnone =>
    exact absurd hnone ((h.newDir_allocated now hn hb p).block_left hblocks)
  | overrun => exact absurd rfl hne
  | made => exact ⟨_, rfl⟩

theorem LinkOutcome.succeeds {se : Nat} {name : CString} {isSymLink : Bool} (h : Sound d)
    (hout : LinkOutcome d now (afterStrtok source) se p name isSymLink out) (hne : out ≠ .crash)
    (hroom : Invocation.EnoughRoom d ⟨now, host, .file (.ln source dest isSymLink)⟩) :
    ∃ d', out = .done () d' := by
  cases hout with
  | hard => exact ⟨_, rfl⟩
  | hardFull _ hnone => exact absurd hnone (Finset.card_pos.mp hroom).ne_empty
  | hardOverrun => exact absurd rfl hne
  | noInode hnone => exact absurd hnone hroom.1.ne_empty
  | tooLong _ _ hlong => exact absurd hroom.2.2 (not_lt.mpr hlong)
  | noBlock _ _ _ hnone =>
    exact absurd hnone (Finset.card_pos.mp (Nat.zero_lt_of_lt hroom.2.1)).ne_empty
  | symFull hn _ hlen hb _ hnone =>
    exact absurd hnone ((h.symlink_allocated now hn hlen hb).block_left hroom.2.1)
  | symOverrun => exact absurd rfl hne
  | sym => exact ⟨_, rfl⟩

theorem CopyOutcome.succeeds {content : List UInt8} (h : Sound d)
    (hout : CopyOutcome d now content components out) (hne : out ≠ .crash)
    (hparent : traversePath d components.dropLast ≠ none)
    (hinode : traversePath d components = none → (freeInodes d).Nonempty)
    (hblocks : getRequiredBlockCount content.length < (freeBlocks d).card) :
    ∃ d', out = .done () d' := by
  cases hout with
  | noBlocks hfew => omega
  | noParent _ hnone => exact absurd hnone hparent
  | existing => exact ⟨_, rfl⟩
  | noInode _ _ hnew hnone => exact absurd hnone (hinode hnew).ne_empty
  | entryFull ht _ _ hn _ _ hnone =>
    exact absurd hnone ((ht.newFile_allocated h now content hn).block_left hblocks)
  | entryOverrun => exact absurd rfl hne
  | new => exact ⟨_, rfl⟩
  | tooLarge => exact absurd rfl hne

/-! ## The commands -/

theorem Invocation.Served.ne_crash (h : inv.Served d out) : out ≠ .crash := by
  rintro rfl
  exact h

/-- No command that is allowed and has room stops. -/
theorem Invocation.runs (h : Intact d) (hadm : inv.Admissible d)
    (hallows : (fileSystem d).Allows inv.host inv.command) (hroom : inv.EnoughRoom d) :
    ∃ d', inv.command.run inv.now inv.host d = .done () d' := by
  have hc := h.consistent
  have hne := (Invocation.served h hadm).ne_crash
  obtain ⟨now, host, cmd⟩ := inv
  cases cmd with
  | mkdir path =>
    obtain ⟨p, hplace⟩ := hallows
    obtain ⟨pe, hparent, hdir, habsent⟩ := hc.place_paths hplace
    rcases ext2Mkdir_cases d now path with ⟨status, -, hno⟩ | ⟨pe', hpath, hrun⟩
    · exact (hno pe ⟨hparent, hdir, habsent⟩).elim
    · obtain ⟨m, hl⟩ := hpath.live hc
      have hout := hc.makeDirectory_outcome now hl (lastComponent path)
      rw [← hrun] at hout
      exact hout.succeeds hc.sound hne hroom.1 hroom.2
  | file cmd =>
    cases cmd with
    | ln source dest isSymLink =>
      obtain ⟨⟨n, kind, hsource, hkind⟩, p, hplace⟩ := hallows
      obtain ⟨pe, hparent, -, habsent⟩ := hc.place_paths hplace
      obtain ⟨se, hsrc, hnot⟩ := hc.file_path hsource hkind
      rcases ext2Ln_cases d now source dest isSymLink with ⟨status, -, hno⟩ | ⟨se', pe', hpaths, hrun⟩
      · exact (hno se pe ⟨hsrc, hnot, habsent, hparent⟩).elim
      · have hout := hc.sound.finishLink_outcome now (afterStrtok source) se' pe'
          (lastComponent dest) isSymLink (hpaths.parent_inUse hc).1
        rw [← hrun] at hout
        exact hout.succeeds hc.sound hne hroom
    | cp source dest =>
      obtain ⟨hhost, hparent⟩ := hallows
      rcases hc.ext2Cp_outcome now host source dest with ⟨hnone, -⟩ | ⟨content, hsome, hout⟩
      · exact absurd hnone hhost
      · refine hout.succeeds hc.sound hne (fun hnone => hparent ?_) hroom.1 (hroom.2 content hsome)
        rw [hc.destPath_eq]
        refine (hc.traversePath_eq_none fun c hmem => ?_).mp hnone
        exact destComponents_ne_nil d source dest c (List.mem_of_mem_dropLast hmem)
  | rm path =>
    obtain ⟨n, kind, hlookup, hkind⟩ := hallows
    obtain ⟨e, hentry, hnot⟩ := hc.file_path hlookup hkind
    obtain ⟨pe, hpath⟩ := h.exists_rmPath hentry hnot
    obtain ⟨i, mem, d₁, -, hrun⟩ := hpath.run hc now
    exact ⟨_, hrun⟩

/-- **A command succeeds** if it is allowed and has room, and does what it is for. -/
theorem command_succeeds (h : Intact d) (hadm : inv.Admissible d)
    (hallows : (fileSystem d).Allows inv.host inv.command) (hroom : inv.EnoughRoom d) :
    ∃ d', inv.command.run inv.now inv.host d = .done () d' ∧ Intact d' ∧
      (fileSystem d).Does inv.host inv.command (fileSystem d') := by
  obtain ⟨d', hrun⟩ := Invocation.runs h hadm hallows hroom
  have hserved := Invocation.served h hadm
  rw [hrun] at hserved
  exact ⟨d', hrun, hserved⟩

end

/-! ## The small image -/

/-- A directory is made in the root. -/
theorem command_succeeds_example : ∃ d', ext2Mkdir 0 [47, 100] smallImage = .done () d' ∧
    Intact d' ∧
      (fileSystem smallImage).Does (fun _ => none) (.mkdir [47, 100]) (fileSystem d') := by
  have hc := smallImage_consistent
  have hroot : traversePath smallImage (splitPath [47, 100]).dropLast = some 23552 := by
    decide +kernel
  have htarget : entryTarget smallImage 23552 = (2, ext2FtDir) := by decide +kernel
  have hnone : traversePath smallImage (splitPath [47, 100]) = none := by decide +kernel
  have hallows : (fileSystem smallImage).Allows (fun _ => none) (.mkdir [47, 100]) := by
    refine ⟨2, ⟨?_, hc.lookup_eq_none (splitPath_ne_nil _) hnone⟩⟩
    rw [hc.lookup_of_traversePath (dropLast_ne_nil _) hroot, htarget]
  have hcard : (freeBlocks smallImage).card = 104 := hc.sound.sFreeBlocks.symm
  have hinode : 13 ∈ freeInodes smallImage := mem_freeInodes.mpr ⟨⟨by decide, by decide⟩, by decide⟩
  have hroom : Invocation.EnoughRoom smallImage ⟨0, fun _ => none, .mkdir [47, 100]⟩ :=
    ⟨⟨13, hinode⟩, by rw [hcard]; decide⟩
  have hadm : Invocation.Admissible smallImage ⟨0, fun _ => none, .mkdir [47, 100]⟩ :=
    admissible_mkdir hroot ⟨by decide, .inr (.inl ⟨1, by decide, by decide +kernel⟩)⟩
  obtain ⟨d', hrun, hd', hdoes⟩ := command_succeeds smallImage_intact hadm hallows hroom
  exact ⟨d', hrun, hd', hdoes⟩

end Ext2
end OsAssignments
