import OsAssignments.Ext2.NewNames

/-!
# One command

Each of the four commands, on a healthy image with a tree of directories, does what it is for, or
it fails and leaves the file system alone.

* `ext2Rm_served`, `ext2Mkdir_served`, `ext2Ln_served`, `ext2Cp_served` — the four commands.
* `Invocation.served` — every admissible command is served.
-/

namespace OsAssignments
namespace Ext2

open ByteMemory MachineWord ExitState Chunks NameGraph

section

variable {d d' d₁ : Disk} {n p e r k mode fileType now : Nat} {name : CString}
  {inv : Invocation} {bs : List Nat} {content : List UInt8}

/-! ## `ext2_rm` -/

theorem NamesDistinct.unnamed_iff (h : NamesDistinct d) :
    Unnamed (nameGraph d) n ↔ naming d n = ∅ := by
  rw [Set.eq_empty_iff_forall_notMem]
  constructor
  · rintro hun ⟨m, e⟩ ⟨hl, hinode⟩
    exact hun m _ _ (h.nameGraph_iff.mpr ⟨e, hl, rfl⟩) hinode
  · intro hnone m x b hb heq
    obtain ⟨e, hl, hbinding⟩ := exists_live_of_nameGraph hb
    exact hnone (m, e) ⟨hl, (congrArg (fun c => c.2.1) hbinding).trans heq⟩

theorem FileSystem.setContent_self (fs : FileSystem) (n : Nat) :
    fs.setContent n (fs.content n) = fs := by
  rw [FileSystem.setContent, Function.update_eq_self]

/-- The path that `ext2_rm` removes, in the file system. -/
theorem RmPath.lookups {path : CString} {pe : Nat} (hpath : RmPath d path e pe) (h : Consistent d) :
    (fileSystem d).lookup (splitPath path) = some (entryTarget d e) ∧
      (fileSystem d).lookup (splitPath path).dropLast =
        some (entryInode d.data pe, ext2FtDir) := by
  refine ⟨h.lookup_of_traversePath (splitPath_ne_nil path) hpath.entry, ?_⟩
  rw [h.lookup_of_traversePath (dropLast_ne_nil path) hpath.parent, entryTarget_dir hpath.found.1]

theorem RmPath.served {path : CString} {pe : Nat} (hpath : RmPath d path e pe) (h : Intact d)
    (hkeeps : KeepsReserved d (entryInode d.data pe) e) (now : Nat)
    (host : CString → Option (List UInt8)) :
    Invocation.Served ⟨now, host, .rm path⟩ d (ext2Rm now path d) := by
  obtain ⟨i, mem, d₁, hrem, hrun⟩ := hpath.run h.consistent now
  have hp := hpath.parent_isDirInode h.consistent
  obtain ⟨hn, hdir⟩ := hpath.inode h.consistent
  obtain ⟨hentry, hparent⟩ := hpath.lookups h.consistent
  have hkind := entryTarget_ne_dir hpath.notDir
  have hhealthy := hrem.healthy h.toHealthy hp hdir now hkeeps
  have hfs := hrem.fileSystem_eq h.toHealthy hp hdir now
  have hnames := hrem.entriesLess h.toHealthy hp hdir now |>.nameGraph_eq_unlink h.names
  have hun := hhealthy.names.unnamed_iff (n := entryInode d.data e)
  rw [(hpath.live h.consistent).2] at hfs hnames
  rw [hnames] at hun
  rw [hrun]
  refine .of_done h hhealthy ?_
  rcases hrem.finishRm_of_naming h.toHealthy hp hdir now with ⟨hnone, -, hfree⟩ | ⟨hsome, heq⟩
  · have hcontent : fileContent (finishRm now d₁ (entryInode d.data e)) (entryInode d.data e) = none :=
      if_neg fun hand => hfree hand.1
    rw [hfs, hcontent]
    exact .removeFile hentry hkind hparent (hun.mpr hnone)
  · have hcontent : fileContent (finishRm now d₁ (entryInode d.data e)) (entryInode d.data e) =
        fileContent d (entryInode d.data e) := by
      have hused := (hrem.inUse_iff h.toHealthy hp hdir now).mpr hsome
      refine fileContent_congr (iff_of_true hused hn)
        (hrem.isDirInode_finishRm hp h.consistent hn hdir now) fun _ _ => ?_
      rw [heq]
      exact (hrem.sameFile hp h.consistent hn.1 (EntryRemoved.ne_parent hp hdir)).trans
        (dropLink_sameFile d₁ _ _)
    have hself : fileSystem (finishRm now d₁ (entryInode d.data e)) =
        (fileSystem d).unlink (entryInode d.data pe) (lastComponent path) := by
      rw [hfs, hcontent]
      exact FileSystem.setContent_self _ _
    rw [hself]
    exact .removeName hentry hkind hparent fun hnone => hsome.ne_empty (hun.mp hnone)

/-- The root leads to itself, so a path without a parent leads to a directory. -/
theorem Intact.exists_rmPath (h : Intact d) {path : CString}
    (hentry : traversePath d (splitPath path) = some e) (hdir : isDirectory d (some e) = false) :
    ∃ pe, RmPath d path e pe := by
  by_cases hnil : (splitPath path).dropLast = []
  · have hpath : splitPath path = [dot] := by
      rw [splitPath_eq_append, hnil]
      rw [splitPath] at hnil ⊢
      cases htail : (path.splitOn slash).filter fun token => decide (token ≠ []) with
      | nil => rfl
      | cons c rest =>
        rw [htail] at hnil
        cases hnil
    have hroot := h.shape.own ext2RootIno (.inl rfl)
    have hlookup := h.consistent.lookup_of_traversePath (splitPath_ne_nil path) hentry
    rw [hpath, FileSystem.lookup, walk_singleton, hroot] at hlookup
    exact absurd (congrArg Prod.snd (Option.some.inj hlookup)).symm (entryTarget_ne_dir hdir)
  · rw [splitPath_eq_append] at hentry
    obtain ⟨pe, hparent, -⟩ := exists_parent_traverseFrom hnil hentry
    rw [← splitPath_eq_append] at hentry
    exact ⟨pe, hentry, hdir, hparent⟩

/-- **`ext2_rm`** removes a name, or changes nothing. -/
theorem ext2Rm_served (h : Intact d) {host : CString → Option (List UInt8)} {path : CString}
    (hadm : Invocation.Admissible d ⟨now, host, .rm path⟩) :
    Invocation.Served ⟨now, host, .rm path⟩ d (ext2Rm now path d) := by
  cases hentry : traversePath d (splitPath path) with
  | none =>
    have hrun : ext2Rm now path d = .exit eNoEnt d := by
      rw [ext2Rm, Command.bind_of_done (Command.get_apply d), hentry]
      rfl
    rw [hrun]
    exact .unchanged h (by decide)
  | some e =>
    cases hdir : isDirectory d (some e) with
    | true =>
      have hrun : ext2Rm now path d = .exit eIsDir d := by
        rw [ext2Rm, Command.bind_of_done (Command.get_apply d), hentry]
        dsimp only
        rw [if_pos hdir]
        rfl
      rw [hrun]
      exact .unchanged h (by decide)
    | false =>
      obtain ⟨pe, hpath⟩ := h.exists_rmPath hentry hdir
      exact hpath.served h (hadm e pe hpath) now host

/-! ## `ext2_mkdir` -/

namespace NewDirAt

variable {b : Nat} (hnew : NewDirAt d d₁ n p b r) (h : Healthy d) (hp : IsDirInode d p)
include hnew h hp

/-- The image with the new directory is healthy. -/
theorem healthy : Healthy d₁ := by
  have hadd := hnew.entriesAdded h.consistent
  have hself : entryInode d₁.data (getBlock b) = n := congrArg (fun c => c.2.1) hnew.self
  have hup : entryInode d₁.data r = p := congrArg (fun c => c.2.1) hnew.parent
  refine h.of_entriesAdded hadd (hnew.consistent h.consistent hp)
    (hnew.namesDistinct h.consistent h.names) ?_ hnew.toAllocated.inodesKept fun m hm => ?_
  · rintro q (rfl | rfl)
    · rw [hself]
      exact hnew.isDirInode.mpr (.inr rfl)
    · rw [hup]
      exact hnew.isDirInode.mpr (.inl hp)
  · rw [Set.mem_singleton_iff.mp hm]
    exact not_inodeInUse_of_free hnew.free

omit hp in
/-- It is left behind if its entry does not find a place. -/
theorem leftBehind : FileSystem.LeftBehind (fileSystem d) (fileSystem d₁) n := by
  refine hnew.toAllocated.inodesKept.leftBehind h.consistent (hnew.entriesAdded h.consistent)
    (hnew.namesDistinct h.consistent h.names) (not_inodeInUse_of_free hnew.free) ?_
  rintro q (rfl | rfl)
  · exact ⟨rfl, .inl (congrArg Prod.fst hnew.self), congrArg (fun c => c.2.2) hnew.self⟩
  · exact ⟨rfl, .inr (congrArg Prod.fst hnew.parent), congrArg (fun c => c.2.2) hnew.parent⟩

omit hp in
/-- Its two names. -/
theorem nameGraph_eq : nameGraph d₁ =
    NameGraph.link (NameGraph.link (nameGraph d) n dot (n, ext2FtDir)) n dotDot (p, ext2FtDir) := by
  have hadd := hnew.entriesAdded h.consistent
  have hempty : ∀ x, nameGraph d n x = none := fun x =>
    nameGraph_eq_none fun hdir => not_inodeInUse_of_free hnew.free hdir.1
  have hdots : dot ≠ dotDot := by decide
  funext m x
  refine Option.ext fun c => ?_
  rw [hadd.nameGraph_iff (hnew.namesDistinct h.consistent h.names), link_eq_some, link_eq_some]
  constructor
  · rintro (hold | ⟨e, he, hbinding⟩)
    · have hmn : m ≠ n := by
        rintro rfl
        rw [hempty] at hold
        cases hold
      exact .inr ⟨fun hand => hmn hand.1, .inr ⟨fun hand => hmn hand.1, hold⟩⟩
    · rcases he with he | he
      · obtain ⟨rfl, rfl⟩ := Prod.mk.inj he
        obtain ⟨rfl, rfl⟩ := Prod.mk.inj (hnew.self.symm.trans hbinding)
        exact .inr ⟨fun hand => hdots hand.2, .inl ⟨⟨rfl, rfl⟩, rfl⟩⟩
      · obtain ⟨rfl, rfl⟩ := Prod.mk.inj he
        obtain ⟨rfl, rfl⟩ := Prod.mk.inj (hnew.parent.symm.trans hbinding)
        exact .inl ⟨⟨rfl, rfl⟩, rfl⟩
  · rintro (⟨⟨rfl, rfl⟩, rfl⟩ | ⟨-, ⟨⟨rfl, rfl⟩, rfl⟩ | ⟨-, hold⟩⟩)
    · exact .inr ⟨r, .inr rfl, hnew.parent⟩
    · exact .inr ⟨getBlock b, .inl rfl, hnew.self⟩
    · exact .inl hold

/-- The image with the entry of the new directory. -/
theorem made (hlen : name.length ≤ 255) (hland : LandsLive d p name)
    (hfind : findMatchingEntry d p name = none)
    (hins : Inserted d₁ p n name ext2FtDir (.done (some e) d')) :
    Healthy d' ∧ fileSystem d' = (fileSystem d).makeDir p name n := by
  have hc₁ := hnew.consistent h.consistent hp
  have hp₁ : IsDirInode d₁ p := hnew.isDirInode.mpr (.inl hp)
  have hn₁ : IsDirInode d₁ n := hnew.isDirInode.mpr (.inr rfl)
  have hfits : Contained d₁ p name 0 := hc₁.contained hp₁ fun _ => .inl (by omega)
  have hadd := hnew.entryAdded h.consistent hp hlen hland hins
  have hnames := hnew.namesDistinct_after h.consistent h.names hp hlen hland hins hfind
  have hbinding := hins.binding hlen
  rw [Nat.mod_eq_of_lt (hnew.sound.toCounted.validInode_lt hn₁.1.1)] at hbinding
  have hname : entryName d'.data e = name := congrArg Prod.fst hbinding
  have htarget : entryTarget d' e = (n, ext2FtDir) := congrArg Prod.snd hbinding
  have hn' : IsDirInode d' n := hins.isDirInode.mpr hn₁
  have hkept : InodesKept d₁ d' ∅ := hins.inodesKept hc₁ hp₁ hlen
  have hboth : InodesKept d d' {n} :=
    hnew.toAllocated.inodesKept.trans (hins.inodesKept hc₁ hp₁ hlen)
  have hcontent : fileContent d' = fileContent d := by
    rw [hboth.fileContent_eq_update]
    refine Function.update_eq_iff.mpr ⟨?_, fun m _ => rfl⟩
    rw [fileContent, if_neg fun hand => hand.2 hn', fileContent,
      if_neg fun hand => not_inodeInUse_of_free hnew.free hand.1]
  refine ⟨?_, ?_⟩
  · refine (hnew.healthy h hp).of_entriesAdded hadd ?_ hnames ?_ hkept fun m hm => hm.elim
    · exact hins.consistent hc₁ hp₁.1.1 hfits ⟨hn₁.1, iff_of_true (by decide) hn₁⟩
    · rintro q rfl
      have hinode : entryInode d'.data e = n := congrArg Prod.fst htarget
      rwa [hinode]
  · refine FileSystem.ext ?_ hcontent
    calc nameGraph d' = NameGraph.link (nameGraph d₁) p name (n, ext2FtDir) := by
          rw [hadd.nameGraph_eq_link hnames, hname, htarget]
      _ = _ := by rw [hnew.nameGraph_eq h]; rfl

end NewDirAt

theorem MkdirPath.served {path : CString} {pe : Nat} (hpath : MkdirPath d path pe) (h : Intact d)
    (hfits : NameFits d (entryInode d.data pe) (lastComponent path))
    (host : CString → Option (List UInt8)) {out : Outcome Disk Unit}
    (hout : MkdirOutcome d now (entryInode d.data pe) (lastComponent path) out) :
    Invocation.Served ⟨now, host, .mkdir path⟩ d out := by
  have hs := h.consistent.sound
  have hname := h.consistent.newName (splitPath_ne_nil path) hpath.parent hpath.dir hpath.absent hfits
  have hp := hname.isDir
  have hp32 := hs.toCounted.validInode_lt hp.1.1
  cases hout with
  | noInode => exact .unchanged h (by decide)
  | noBlock hn _ =>
    exact (hs.newDirInode_allocated now hn).served_dir
      (fun i => getInodeBlockNumber_newDirInode now d _ i) h (by decide)
  | entryFull hn hb _ _ =>
    obtain ⟨r, hnew⟩ := hs.newDirAt now hn hb hp32
    exact .of_exit h (by decide) (hnew.healthy h.toHealthy hp) (.inr ⟨_, hnew.leftBehind h.toHealthy⟩)
  | overrun hn hb hins =>
    exact absurd hins ((hs.newDir_allocated now hn hb _).no_overrun hp.1 (hname.contained h.consistent))
  | made hn hb hins =>
    obtain ⟨r, hnew⟩ := hs.newDirAt now hn hb hp32
    obtain ⟨hd', hfs⟩ :=
      hnew.made h.toHealthy hp hname.length hname.landsLive hname.find_none hins
    refine .of_done h hd' ?_
    rw [hfs]
    exact .mkdir hname.place (h.consistent.fresh (not_inodeInUse_of_free hnew.free))

/-- **`ext2_mkdir`** makes a directory, or changes nothing. -/
theorem ext2Mkdir_served (h : Intact d) {host : CString → Option (List UInt8)} {path : CString}
    (hadm : Invocation.Admissible d ⟨now, host, .mkdir path⟩) :
    Invocation.Served ⟨now, host, .mkdir path⟩ d (ext2Mkdir now path d) := by
  rcases ext2Mkdir_cases d now path with ⟨status, hrun, -⟩ | ⟨pe, hpath, hrun⟩
  · rw [hrun]
    exact .unchanged h (ext2Mkdir_exits now path d status d hrun)
  · obtain ⟨m, hl⟩ := hpath.live h.consistent
    rw [hrun]
    exact hpath.served h (hadm pe hpath) host
      (h.consistent.makeDirectory_outcome now hl (lastComponent path))

/-! ## `ext2_ln` -/

/-- The entry of a hard link gives the source one name more. -/
theorem NewName.hardLink {path : List CString} (hname : NewName d path p) (h : Healthy d)
    {se ms : Nat} (hse : LiveIn d ms se) (hdir : ¬ IsDirInode d (entryInode d.data se))
    (hins : Inserted d p (entryInode d.data se) (path.getLastD []) ext2FtRegFile
      (.done (some r) d₁)) :
    Healthy (addLink d₁ (entryInode d₁.data se)) ∧
      fileSystem (addLink d₁ (entryInode d₁.data se)) = (fileSystem d).link p (path.getLastD [])
        (entryInode d.data se) ext2FtRegFile := by
  have hc := h.consistent
  have hp := hname.isDir
  have hused := (hc.names ms se hse).1
  have hadd := hins.nameAdded_hard hc hse hdir hp hname.length
  have hfile : SameFile d (addLink d₁ (entryInode d₁.data se)) (entryInode d.data se) :=
    (hins.sameFile hc.sound hp.1.1 (hname.contained hc) hused.1 (EntryRemoved.ne_parent hp hdir)).trans
      (addLink_sameFile d₁ _ _)
  have hhealthy := hadd.healthy hname h (fun _ => h.file hse hdir)
    ((h.file hse hdir).unreserved.congr hfile.slots)
  have hcontent : fileContent (addLink d₁ (entryInode d₁.data se)) (entryInode d.data se) =
      fileContent d (entryInode d.data se) :=
    fileContent_congr (iff_of_true ((hadd.inUse _).mpr (.inr rfl)) hused)
      (isDirInode_addLink.trans hins.isDirInode) fun _ _ => hfile
  refine ⟨hhealthy, ?_⟩
  rw [hadd.fileSystem_eq hname h.names, hcontent]
  exact FileSystem.setContent_self _ _

/-- The entry of a symbolic link leads to a new node with the path. -/
theorem NewName.symLink {path : List CString} (hname : NewName d path p) (h : Healthy d)
    {source : CString} {b : Nat} (hn : n ∈ freeInodes d) (hres : lastReservedInode < n)
    (hlen : source.length < ext2BlockSize) (hb : b ∈ freeBlocks d)
    (hins : Inserted (symlink now source d n b) p n (path.getLastD []) ext2FtSymlink
      (.done (some r) d')) :
    Healthy d' ∧ fileSystem d' = ((fileSystem d).link p (path.getLastD []) n
      ext2FtSymlink).setContent n (some source) := by
  have hc := h.consistent
  have hp := hname.isDir
  have hnot := not_inodeInUse_of_free hn
  have ha := hc.sound.symlink_allocated now hn hlen hb
  have hadd := ha.nameAdded hc (by decide) hp hname.length (by decide) (by decide) hins
  have hnp : n ≠ p := fun heq => hnot (heq ▸ hp.1)
  have hfile : SameFile (symlink now source d n b) d' n :=
    hins.sameFile ha.sound (ha.stillInUse p hp.1).1 (ha.contained hp.1 (hname.contained hc))
      ((ha.inUse n).mpr (.inr rfl)).1 hnp
  have hun : Unreserved d' n := by
    refine ⟨hres, fun i _ => ?_⟩
    rw [hfile.slots, getInodeBlockNumber_symlink hc.sound now hn hb hlen]
    by_cases hi : i = 0
    · rw [if_pos hi]
      exact .inr (hc.sound.toCounted.lastReserved_lt hb)
    · exact .inl (if_neg hi)
  have hdir : ¬ IsDirInode d' n := fun hdir =>
    hnot ((ha.isDirInode (by decide)).mp (hins.isDirInode.mp hdir)).1
  have hcontent : fileContent d' n = some source := by
    rw [fileContent_eq ((hadd.inUse n).mpr (.inr rfl)) hdir, hfile.readFile_eq,
      hc.sound.readFile_symlink now hn hb hlen]
  refine ⟨hadd.healthy hname h (fun hused => absurd hused hnot) hun, ?_⟩
  rw [hadd.fileSystem_eq hname h.names, hcontent]

theorem LinkPaths.served {source dest : CString} {se pe : Nat}
    (hpaths : LinkPaths d source dest se pe) (h : Intact d) (hdir : isDirectory d (some pe) = true)
    (hfits : NameFits d (entryInode d.data pe) (lastComponent dest))
    (host : CString → Option (List UInt8)) {isSymLink : Bool} {out : Outcome Disk Unit}
    (hout : LinkOutcome d now (afterStrtok source) se (entryInode d.data pe) (lastComponent dest)
      isSymLink out) :
    Invocation.Served ⟨now, host, .file (.ln source dest isSymLink)⟩ d out := by
  have hc := h.consistent
  have hs := hc.sound
  have hname := hc.newName (splitPath_ne_nil dest) hpaths.parent hdir hpaths.absent hfits
  have hsrc := hc.lookup_of_traversePath (splitPath_ne_nil source) hpaths.src
  have hkind := entryTarget_ne_dir hpaths.notDir
  cases hout with
  | hard hins =>
    obtain ⟨ms, hse⟩ := hc.traversePath_live (splitPath_ne_nil source) hpaths.src
    have hno : ¬ IsDirInode d (entryInode d.data se) := fun hd =>
      hkind (((hc.names ms se hse).2).mpr hd)
    obtain ⟨hd', hfs⟩ := hname.hardLink h.toHealthy hse hno hins
    refine .of_done h hd' ?_
    rw [hfs]
    exact .hardLink hsrc hkind hname.place
  | hardFull _ _ => exact .unchanged h (by decide)
  | hardOverrun hins =>
    exact absurd hins ((Prepared.refl hs).no_overrun hname.isDir.1 (hname.contained hc))
  | noInode _ => exact .unchanged h (by decide)
  | tooLong hn _ _ =>
    exact (hs.newInode_allocated now ext2SIflnk _ hn).served h (by decide) (by decide)
  | noBlock hn _ _ _ =>
    exact (hs.newInode_allocated now ext2SIflnk _ hn).served h (by decide) (by decide)
  | symFull hn _ hlen hb _ _ =>
    exact (hs.symlink_allocated now hn hlen hb).served h (by decide) (by decide)
  | symOverrun hn _ hlen hb hins =>
    exact absurd hins ((hs.symlink_allocated now hn hlen hb).no_overrun hname.isDir.1
      (hname.contained hc))
  | sym hn hres hlen hb hins =>
    obtain ⟨hd', hfs⟩ := hname.symLink h.toHealthy hn hres hlen hb hins
    refine .of_done h hd' ?_
    rw [hfs]
    exact .symLink hsrc hkind hname.place (hc.fresh (not_inodeInUse_of_free hn))

/-- **`ext2_ln`** makes a name for a file, or for a path, or changes nothing. -/
theorem ext2Ln_served (h : Intact d) {host : CString → Option (List UInt8)} {source dest : CString}
    {isSymLink : Bool} (hadm : Invocation.Admissible d ⟨now, host, .file (.ln source dest isSymLink)⟩) :
    Invocation.Served ⟨now, host, .file (.ln source dest isSymLink)⟩ d
      (ext2Ln now source dest isSymLink d) := by
  rcases ext2Ln_cases d now source dest isSymLink with ⟨status, hrun, -⟩ | ⟨se, pe, hpaths, hrun⟩
  · rw [hrun]
    exact .unchanged h (ext2Ln_exits now source dest isSymLink d status d hrun)
  · obtain ⟨hdir, hfits⟩ := hadm se pe hpaths
    rw [hrun]
    exact hpaths.served h hdir hfits host (h.consistent.sound.finishLink_outcome now
      (afterStrtok source) se pe (lastComponent dest) isSymLink (hpaths.parent_inUse h.consistent).1)

/-! ## `ext2_cp` -/

/-- The blocks that are taken hold the content. -/
theorem le_getRequiredBlockCount (hlen : content.length + ext2BlockSize ≤ 2 ^ 32) :
    content.length ≤ ext2BlockSize * getRequiredBlockCount content.length := by
  rw [ext2BlockSize_eq] at hlen
  have hword : content.length + ext2BlockSize - 1 < 2 ^ 32 := by
    rw [ext2BlockSize_eq]
    omega
  rw [getRequiredBlockCount, wrap_of_lt hword, ext2BlockSize_eq]
  omega

section

variable (ht : Taken d (getRequiredBlockCount content.length) bs) (h : Healthy d)
include ht h

/-- A copy to a file gives it another content. -/
theorem Taken.copyOver {e m : Nat} (hl : LiveIn d m e) (hdir : ¬ IsDirInode d (entryInode d.data e))
    (hcopy : Copied now (handOut d bs) d' (entryInode d.data e) bs content) :
    Healthy d' ∧ ∃ stored, FileSystem.Keeps content stored ∧
      fileSystem d' = (fileSystem d).setContent (entryInode d.data e) (some stored) := by
  have hc := h.consistent
  have hused := (hc.names m e hl).1
  have hover := ht.overwritten hc hused hcopy
  have hc₀ := ht.consistent hc
  have hf := hc.sound.fresh_handOut ht.nodup ht.free
  have hn₀ : InodeInUse (handOut d bs) (entryInode d.data e) := InodeInUse.handedOut.mpr hused
  have hdir₀ : ¬ IsDirInode (handOut d bs) (entryInode d.data e) := fun hd =>
    hdir (isDirInode_handOut.mp hd)
  have hkept : InodesKept d d' {entryInode d.data e} :=
    (ht.inodesKept hc.sound).trans (hcopy.inodesKept hc₀.sound hf hn₀.1 hdir₀)
  have hun := hcopy.unreserved (h.file hl hdir).unreserved.1 fun b hb =>
    hc.sound.toCounted.lastReserved_lt (ht.free b hb)
  refine ⟨hover.healthy hdir h (hcopy.consistent hc₀ hf hn₀.1 hdir₀) hkept hun, _,
    hcopy.keeps ht.pos (ht.content_le hc.sound.toCounted hcopy), ?_⟩
  rw [hover.fileSystem_eq hdir h hkept, fileContent_eq ((hover.inUse _).mpr hused)
    fun hd => hdir₀ ((hcopy.isDirInode hdir₀).mp hd)]

/-- A copy to a new name makes a file with the content. -/
theorem Taken.copyNew {path : List CString} (hname : NewName d path p) (hn : n ∈ freeInodes d)
    (hres : lastReservedInode < n)
    (hins : Inserted (newFile now content (handOut d bs) n) p n (path.getLastD []) ext2FtRegFile
      (.done (some r) d₁)) (hcopy : Copied now d₁ d' n bs content) :
    Healthy d' ∧ ∃ stored, FileSystem.Keeps content stored ∧
      fileSystem d' = ((fileSystem d).link p (path.getLastD []) n ext2FtRegFile).setContent n
        (some stored) := by
  have hc := h.consistent
  have hnot := not_inodeInUse_of_free hn
  have ha := ht.newFile_allocated hc.sound now content hn
  obtain ⟨-, hdir, hf⟩ := ht.newEntry_consistent hc hn hname.isDir hname.length hins
  have hadd := (ha.nameAdded hc (by decide) hname.isDir hname.length (by decide) (by decide)
    hins).copied hname.landsLive hnot hdir hf hcopy
  have hun := hcopy.unreserved hres fun b hb => hc.sound.toCounted.lastReserved_lt (ht.free b hb)
  refine ⟨hadd.healthy hname h (fun hused => absurd hused hnot) hun, _,
    hcopy.keeps ht.pos (ht.content_le hc.sound.toCounted hcopy), ?_⟩
  rw [hadd.fileSystem_eq hname h.names, fileContent_eq ((hadd.inUse n).mpr (.inr rfl))
    fun hd => hdir ((hcopy.isDirInode hdir).mp hd)]

end

theorem CopyOutcome.served (h : Intact d) {host : CString → Option (List UInt8)}
    {source dest : CString} (hhost : host (afterStrtok source) = some content)
    (hadm : Invocation.Admissible d ⟨now, host, .file (.cp source dest)⟩) {out : Outcome Disk Unit}
    (hout : CopyOutcome d now content (destComponents d source dest) out) :
    Invocation.Served ⟨now, host, .file (.cp source dest)⟩ d out := by
  have hc := h.consistent
  have hs := hc.sound
  have hne := destComponents_ne_nil d source dest
  have hdest := hc.destPath_eq source dest
  obtain ⟨hsize, hfile, hnew⟩ := hadm
  have hname : ∀ pe, traversePath d (destComponents d source dest).dropLast = some pe →
      traversePath d (destComponents d source dest) = none →
      NewName d (destComponents d source dest) (entryInode d.data pe) := by
    intro pe hparent habsent
    obtain ⟨hdir, hfits⟩ := hnew pe habsent hparent
    exact hc.newName hne hparent hdir habsent hfits
  cases hout with
  | noBlocks _ => exact .unchanged h (by decide)
  | noParent ht _ => exact ht.served h (by decide)
  | existing ht _ hentry hcopy =>
    obtain ⟨m, hl⟩ := hc.traversePath_live hne hentry
    rw [hentry] at hfile
    have hkind := entryTarget_ne_dir hfile
    obtain ⟨hd', stored, hkeeps, hfs⟩ := ht.copyOver h.toHealthy hl
      (fun hd => hkind (((hc.names m _ hl).2).mpr hd)) hcopy
    refine .of_done h hd' ?_
    rw [hfs]
    refine .copyOver hhost ?_ hkind hkeeps
    rw [hdest]
    exact hc.lookup_of_traversePath hne hentry
  | noInode ht _ _ _ => exact ht.served h (by decide)
  | entryFull ht _ _ hn _ _ _ =>
    exact (ht.newFile_allocated hs now content hn).served h (by decide) (by decide)
  | entryOverrun ht hparent habsent hn _ hins =>
    have hname := hname _ hparent habsent
    exact absurd hins ((ht.newFile_allocated hs now content hn).no_overrun hname.isDir.1
      (hname.contained hc))
  | new ht hparent habsent hn hres hins hcopy =>
    have hname := hname _ hparent habsent
    obtain ⟨hd', stored, hkeeps, hfs⟩ := ht.copyNew h.toHealthy hname hn hres hins hcopy
    refine .of_done h hd' ?_
    rw [hfs]
    have hplace := hname.place
    rw [← hdest] at hplace ⊢
    exact .copyNew hhost hplace (hc.fresh (not_inodeInUse_of_free hn)) hkeeps
  | tooLarge ht hlong =>
    obtain ⟨i, hi, hle⟩ := hlong
    have hfits := le_getRequiredBlockCount (hsize content hhost)
    rw [ht.length] at hle
    have hmul := Nat.mul_le_mul_left ext2BlockSize hle
    exact absurd (mem_fileChunk.mp hi) (by omega)

/-- **`ext2_cp`** makes a file with the content, or gives it to a file, or changes nothing. -/
theorem ext2Cp_served (h : Intact d) {host : CString → Option (List UInt8)} {source dest : CString}
    (hadm : Invocation.Admissible d ⟨now, host, .file (.cp source dest)⟩) :
    Invocation.Served ⟨now, host, .file (.cp source dest)⟩ d (ext2Cp now host source dest d) := by
  rcases h.consistent.ext2Cp_outcome now host source dest with ⟨-, hrun⟩ | ⟨content, hhost, hout⟩
  · rw [hrun]
    exact .unchanged h (by decide)
  · exact hout.served h hhost hadm

/-! ## The commands -/

/-- **Every admissible command is served.** -/
theorem Invocation.served (h : Intact d) (hadm : inv.Admissible d) :
    inv.Served d (inv.command.run inv.now inv.host d) := by
  obtain ⟨now, host, cmd⟩ := inv
  cases cmd with
  | mkdir path => exact ext2Mkdir_served h hadm
  | file cmd =>
    cases cmd with
    | ln source dest isSymLink => exact ext2Ln_served h hadm
    | cp source dest => exact ext2Cp_served h hadm
  | rm path => exact ext2Rm_served h hadm

end

end Ext2
end OsAssignments
