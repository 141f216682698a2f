import OsAssignments.Ext2.CommandRun

/-!
# What a run keeps

A path that leads somewhere leads there at the end of a run too, with the same content, if no
command of the run is about it.

* `FileSystem.Spares`, `Invocation.Spares` — the command does not remove a name like the last one of
  the path, and copies nothing over the node.
* `FileSystem.Does.kept` — what one command keeps; `commandRun_kept` — what a run keeps.
* `file_persists` — **a file stays** where it is and as it is.
-/

namespace OsAssignments
namespace Ext2

open ExitState NameGraph

/-! ## One command -/

namespace FileSystem

/-- The command is not about what `path` leads to, the node `n`. -/
def Spares (fs : FileSystem) (path : List CString) (n : Nat) : TreeCommand → Prop
  | .mkdir _ => True
  | .file (.ln _ _ _) => True
  | .file (.cp source dest) => ∀ kind, fs.lookup (fs.destPath source dest) ≠ some (n, kind)
  | .rm removed => path.getLastD [] ≠ lastComponent removed

variable {fs fs' : FileSystem} {host : CString → Option (List UInt8)} {cmd : TreeCommand}
  {path : List CString} {p n m kind : Nat} {name : CString} {b : Nat × Nat}

/-- A new name keeps the paths there were. -/
theorem lookup_link (hfree : fs.names p name = none) (h : fs.lookup path = some b) :
    (fs.link p name n kind).lookup path = some b :=
  walk_mono (fun m x c => link_mono hfree m x c) h

theorem Fresh.ne_of_lookup (hfresh : fs.Fresh n) (h : fs.lookup path = some b) : b.1 ≠ n := by
  obtain ⟨q, x, hname⟩ := exists_name_of_walk h
  exact hfresh.unnamed q x b hname

theorem setContent_of_ne (fs : FileSystem) {content : Option (List UInt8)} (hne : m ≠ n) :
    (fs.setContent n content).content m = fs.content m := Function.update_of_ne hne _ _

/-- A new directory keeps the paths there were. -/
theorem lookup_makeDir (hfresh : fs.Fresh n) (hfree : fs.names p name = none)
    (hnp : n ≠ p) (h : fs.lookup path = some b) : (fs.makeDir p name n).lookup path = some b := by
  refine walk_mono (fun m x c hc => ?_) h
  refine (names_makeDir hfresh hnp).mpr (.inr (.inr (.inr ⟨?_, ?_, hc⟩)))
  · rintro rfl
    rw [hfresh.empty] at hc
    cases hc
  · rintro ⟨rfl, rfl⟩
    rw [hfree] at hc
    cases hc

/-- The name of a file matters only to the paths that end in it. -/
theorem Shaped.lookup_unlink (h : fs.Shaped) (hname : fs.names p name = some (n, kind))
    (hkind : kind ≠ ext2FtDir) (hlast : path.getLastD [] ≠ name) (hpath : fs.lookup path = some b) :
    (fs.unlink p name).lookup path = some b := by
  rw [← hpath]
  refine walk_unlink_leaf hname (h.files p name n kind hname hkind) (fun heq => hlast ?_) ext2RootIno
  rw [List.getLastD_eq_getLast?, heq, Option.getD_some]

/-- **One command keeps** what it is not about. -/
theorem Does.kept (hdoes : fs.Does host cmd fs') (h : fs.Shaped) (hpath : fs.lookup path = some b)
    (hspares : fs.Spares path b.1 cmd) :
    fs'.lookup path = some b ∧ fs'.content b.1 = fs.content b.1 := by
  cases hdoes with
  | mkdir hplace hfresh =>
    refine ⟨lookup_makeDir hfresh hplace.free (fun heq => ?_) hpath, rfl⟩
    exact hfresh.ne_of_lookup hplace.parent heq.symm
  | hardLink _ _ hplace => exact ⟨lookup_link hplace.free hpath, rfl⟩
  | symLink _ _ hplace hfresh =>
    exact ⟨lookup_link hplace.free hpath, setContent_of_ne _ (hfresh.ne_of_lookup hpath)⟩
  | copyNew _ hplace hfresh _ =>
    exact ⟨lookup_link hplace.free hpath, setContent_of_ne _ (hfresh.ne_of_lookup hpath)⟩
  | @copyOver _ _ _ _ m kind _ hdest _ _ =>
    exact ⟨hpath, setContent_of_ne _ fun heq => hspares kind (heq ▸ hdest)⟩
  | removeName hentry hkind hparent _ =>
    have hname := (lookup_last (ne_nil_of_lookup hparent) hparent).symm.trans hentry
    exact ⟨h.lookup_unlink hname hkind hspares hpath, rfl⟩
  | removeFile hentry hkind hparent hun =>
    have hname := (lookup_last (ne_nil_of_lookup hparent) hparent).symm.trans hentry
    have hkept := h.lookup_unlink hname hkind hspares hpath
    refine ⟨hkept, setContent_of_ne _ ?_⟩
    obtain ⟨q, x, hother⟩ := exists_name_of_walk hkept
    exact hun q x b hother

end FileSystem

/-! ## A run -/

/-- The command is not about what `path` leads to, inode `n`: it does not remove a name like the last
one of the path, and copies nothing over the inode. -/
def Invocation.Spares (d : Disk) (path : List CString) (n : Nat) (inv : Invocation) : Prop :=
  match inv.command with
  | .mkdir _ => True
  | .file (.ln _ _ _) => True
  | .file (.cp source dest) => ∀ e, traversePath d (destComponents d source dest) = some e →
      entryInode d.data e ≠ n
  | .rm removed => path.getLastD [] ≠ lastComponent removed

section

variable {d d' : Disk} {inv : Invocation} {invs : List Invocation} {statuses : List Nat}
  {path : List CString} {n e : Nat} {b : Nat × Nat}

theorem Invocation.Spares.fileSystem (h : inv.Spares d path n) (hc : Consistent d) :
    (Ext2.fileSystem d).Spares path n inv.command := by
  obtain ⟨now, host, cmd⟩ := inv
  cases cmd with
  | mkdir made => exact trivial
  | rm removed => exact h
  | file cmd =>
    cases cmd with
    | ln source dest isSymLink => exact trivial
    | cp source dest =>
      intro kind hdest
      rw [hc.destPath_eq, hc.lookup_eq (destComponents_ne_nil d source dest)] at hdest
      obtain ⟨e, hrun, htarget⟩ := Option.map_eq_some_iff.mp hdest
      exact h e hrun (congrArg Prod.fst htarget)

/-- **What a run keeps.** -/
theorem commandRun_kept (h : Intact d)
    (hrun : AtEach (fun d inv => inv.Admissible d ∧ inv.Spares d path b.1) d invs)
    (hpath : (fileSystem d).lookup path = some b)
    (hend : runCommands d invs = some (statuses, d')) :
    Intact d' ∧ (fileSystem d').lookup path = some b ∧
      (fileSystem d').content b.1 = (fileSystem d).content b.1 := by
  induction invs generalizing d statuses with
  | nil =>
    cases hend
    exact ⟨h, hpath, rfl⟩
  | cons inv rest ih =>
    obtain ⟨⟨hadm, hspares⟩, hrest⟩ := hrun
    rw [runCommands] at hend
    rcases (Invocation.served h hadm).step with ⟨d₁, hone, h₁, hdoes⟩ |
      ⟨status, d₁, hone, -, h₁, hsame⟩
    · rw [hone] at hrest hend
      obtain ⟨⟨rests, dEnd⟩, hends, heq⟩ := Option.map_eq_some_iff.mp hend
      cases heq
      obtain ⟨hkept, hcontent⟩ := hdoes.kept h.shape hpath (hspares.fileSystem h.consistent)
      obtain ⟨h', hpath', hcontent'⟩ := ih h₁ (hrest d₁ (.done _ _)) hkept hends
      exact ⟨h', hpath', hcontent'.trans hcontent⟩
    · rw [hone] at hrest hend
      obtain ⟨⟨rests, dEnd⟩, hends, heq⟩ := Option.map_eq_some_iff.mp hend
      cases heq
      have hkept := (hsame.lookup_eq path).trans hpath
      obtain ⟨h', hpath', hcontent'⟩ := ih h₁ (hrest d₁ (.exit _ _)) hkept hends
      exact ⟨h', hpath', hcontent'.trans (hsame.content_eq hpath)⟩

/-- **A file persists.**  After any run none of whose commands is about it, its path leads to the
same inode, which reads as before. -/
theorem file_persists (h : Intact d) (hne : ∀ c ∈ path, c ≠ [])
    (hpath : traversePath d path = some e) (hfile : isDirectory d (some e) = false)
    (hrun : AtEach (fun d' inv => inv.Admissible d' ∧ inv.Spares d' path (entryInode d.data e)) d invs)
    (hend : runCommands d invs = some (statuses, d')) :
    ∃ e', traversePath d' path = some e' ∧ entryInode d'.data e' = entryInode d.data e ∧
      readFile d' (entryInode d.data e) = readFile d (entryInode d.data e) := by
  have hlookup := h.consistent.lookup_of_traversePath hne hpath
  obtain ⟨m, hl⟩ := h.consistent.traversePath_live hne hpath
  obtain ⟨hused, htype⟩ := h.consistent.names m e hl
  have hdir : ¬ IsDirInode d (entryInode d.data e) := fun hdir =>
    entryTarget_ne_dir hfile (htype.mpr hdir)
  obtain ⟨h', hlookup', hcontent⟩ := commandRun_kept h hrun hlookup hend
  rw [h'.consistent.lookup_eq hne] at hlookup'
  obtain ⟨e', hrun', htarget⟩ := Option.map_eq_some_iff.mp hlookup'
  refine ⟨e', hrun', congrArg Prod.fst htarget, ?_⟩
  have hread : fileContent d' (entryInode d.data e) = some (readFile d (entryInode d.data e)) :=
    hcontent.trans (fileContent_eq hused hdir)
  rw [fileContent] at hread
  split at hread
  · exact Option.some.inj hread
  · cases hread

end

/-! ## The small image -/

/-- Two bytes are copied onto `/f`. -/
def firstCopy : Invocation := ⟨0, fun _ => some [104, 105], .file (.cp [47, 120] [47, 102])⟩

/-- The small image with two bytes in `/f`. -/
def copiedImage : Disk := (firstCopy.result smallImage).2

theorem copiedImage_intact : Intact copiedImage :=
  Invocation.result_intact smallImage_intact
    (admissible_cp_over (e := 23576) (by decide) (by decide +kernel) (by decide +kernel))

/-- A directory is made, `/f` gets a second name in it and a neighbour, and the second name is
removed. -/
def sparingRun : List Invocation :=
  [⟨1, fun _ => none, .mkdir [47, 100]⟩,
    ⟨2, fun _ => none, .file (.ln [47, 102] [47, 100, 47, 103] false)⟩,
    ⟨3, fun _ => some [106], .file (.cp [47, 120] [47, 100])⟩,
    ⟨4, fun _ => none, .rm [47, 100, 47, 103]⟩]

theorem spares_cp_new {d : Disk} {now n : Nat} {host : CString → Option (List UInt8)}
    {source dest : CString} {path : List CString}
    (hdest : traversePath d (destComponents d source dest) = none) :
    Invocation.Spares d path n ⟨now, host, .file (.cp source dest)⟩ :=
  fun _ he => nomatch hdest.symm.trans he

/-- `/f` keeps its two bytes. -/
theorem file_persists_example : readFile copiedImage 12 = [104, 105] ∧ ∃ d' e',
    runCommands copiedImage sparingRun = some ([0, 0, 0, 0], d') ∧
      traversePath d' (splitPath [47, 102]) = some e' ∧ entryInode d'.data e' = 12 ∧
      readFile d' 12 = [104, 105] := by
  have hbytes : readFile copiedImage 12 = [104, 105] := by decide +kernel
  have hfile : entryInode copiedImage.data 23576 = 12 := by decide +kernel
  have hpath : traversePath copiedImage (splitPath [47, 102]) = some 23576 := by decide +kernel
  have hrun : AtEach (fun d inv => inv.Admissible d ∧ inv.Spares d (splitPath [47, 102]) 12)
      copiedImage sparingRun := by
    refine .cons ⟨?_, trivial⟩ (.cons ⟨?_, trivial⟩ (.cons ⟨?_, spares_cp_new ?_⟩
      (.cons ⟨?_, ?_⟩ trivial)))
    · exact admissible_mkdir (e := 23552) (by decide +kernel)
        ⟨by decide, .inr (.inl ⟨1, by decide, by decide +kernel⟩)⟩
    · exact admissible_ln (e := 23588) (by decide +kernel) (by decide +kernel)
        ⟨by decide, .inr (.inl ⟨1, by decide, by decide +kernel⟩)⟩
    · exact admissible_cp_new (e := 23588) (by decide) (by decide +kernel) (by decide +kernel)
        (by decide +kernel) ⟨by decide +kernel, .inr (.inl ⟨1, by decide, by decide +kernel⟩)⟩
    · decide +kernel
    · exact admissible_rm (e := 25624) (by decide +kernel) (by decide)
    · exact (by decide : (splitPath [47, 102]).getLastD [] ≠ lastComponent [47, 100, 47, 103])
  have hend : ∃ d', runCommands copiedImage sparingRun = some ([0, 0, 0, 0], d') :=
    ⟨_, runCommands_cons (by decide +kernel) (runCommands_cons (by decide +kernel)
      (runCommands_cons (by decide +kernel) (runCommands_cons (by decide +kernel) rfl)))⟩
  obtain ⟨d', hend⟩ := hend
  obtain ⟨e', hkept, hinode, hread⟩ := file_persists copiedImage_intact (splitPath_ne_nil [47, 102])
    hpath (by decide +kernel) (hfile.symm ▸ hrun) hend
  rw [hfile] at hinode hread
  exact ⟨hbytes, d', e', hend, hkept, hinode, hread.trans hbytes⟩

end Ext2
end OsAssignments
