import OsAssignments.Ext2.CommandSteps

/-!
# Runs of the commands

The commands one after the other, each a program of its own that maps the image, changes it and
exits.

* `runCommands` — the exit statuses of a run, and the image at its end.
* `AtEach` — what holds of every command on the image it starts on.
* `commandRun_refines` — **a run of the commands on the image is a run of the file system** that the
  image stands for, with the same exit statuses.
* `exampleRun` — a run on the small image.
-/

namespace OsAssignments
namespace Ext2

open ExitState NameGraph

/-- The exit statuses of commands that run one after the other, and the image that the last one
leaves behind; nothing if one of them is killed. -/
def runCommands (d : Disk) : List Invocation → Option (List Nat × Disk)
  | [] => some ([], d)
  | inv :: rest =>
    match inv.command.run inv.now inv.host d with
    | .done _ d' => (runCommands d' rest).map fun result => (0 :: result.1, result.2)
    | .exit status d' => (runCommands d' rest).map fun result => (status :: result.1, result.2)
    | .crash => none

/-- What holds of every command on the image it starts on. -/
def AtEach (P : Disk → Invocation → Prop) (d : Disk) : List Invocation → Prop
  | [] => True
  | inv :: rest =>
    P d inv ∧ ∀ d', (inv.command.run inv.now inv.host d).Leaves d' → AtEach P d' rest

section

variable {d d' : Disk} {inv : Invocation} {invs : List Invocation} {statuses : List Nat}

/-- One command: it is not killed, and its status says what it has done. -/
theorem Invocation.Served.step {out : Outcome Disk Unit} (h : inv.Served d out) :
    (∃ d', out = .done () d' ∧ Intact d' ∧
      (fileSystem d).Does inv.host inv.command (fileSystem d')) ∨
    ∃ status d', out = .exit status d' ∧ status ≠ 0 ∧ Intact d' ∧
      (fileSystem d).Untouched (fileSystem d') := by
  cases out with
  | done a d' => exact .inl ⟨d', rfl, h⟩
  | exit status d' => exact .inr ⟨status, d', rfl, h⟩
  | crash => exact h.elim

/-- **A run of the commands refines a run of the file system.**  No command is killed, a command with
status 0 does what it is for, and one with another status leaves all that paths lead to alone. -/
theorem commandRun_refines (h : Intact d) (hadm : AtEach (fun d inv => inv.Admissible d) d invs) :
    ∃ statuses d', runCommands d invs = some (statuses, d') ∧ Intact d' ∧
      FileSystem.Run (fileSystem d) invs statuses (fileSystem d') := by
  induction invs generalizing d with
  | nil => exact ⟨[], d, rfl, h, .nil _⟩
  | cons inv rest ih =>
    obtain ⟨hinv, hrest⟩ := hadm
    rcases (Invocation.served h hinv).step with ⟨d₁, hrun, h₁, hdoes⟩ |
      ⟨status, d₁, hrun, hstatus, h₁, hsame⟩
    · rw [hrun] at hrest
      obtain ⟨statuses, d', hruns, h', habs⟩ := ih h₁ (hrest d₁ (.done _ _))
      refine ⟨0 :: statuses, d', ?_, h', .done hdoes habs⟩
      rw [runCommands, hrun]
      dsimp only
      rw [hruns, Option.map_some]
    · rw [hrun] at hrest
      obtain ⟨statuses, d', hruns, h', habs⟩ := ih h₁ (hrest d₁ (.exit _ _))
      refine ⟨status :: statuses, d', ?_, h', .failed hstatus hsame habs⟩
      rw [runCommands, hrun]
      dsimp only
      rw [hruns, Option.map_some]

end

/-! ## The small image -/

/-- The names of the small image. -/
theorem smallImage_nameGraph {n : Nat} {name : CString} {b : Nat × Nat}
    (h : nameGraph smallImage n name = some b) :
    n = 2 ∧ (name ∈ dotNames ∧ b = (2, ext2FtDir) ∨
      name ∉ dotNames ∧ b = (12, ext2FtRegFile)) := by
  obtain ⟨e, hl, hbinding⟩ := exists_live_of_nameGraph h
  obtain ⟨rfl, he⟩ := smallDisk_liveIn hl
  have hall : ∀ x ∈ [23552, 23564, 23576],
      ((entryName smallImage.data x = dot ∨ entryName smallImage.data x = dotDot) ∧
        entryTarget smallImage x = (2, ext2FtDir)) ∨
      (¬ (entryName smallImage.data x = dot ∨ entryName smallImage.data x = dotDot) ∧
        entryTarget smallImage x = (12, ext2FtRegFile)) := by decide +kernel
  have hname : entryName smallImage.data e = name := congrArg Prod.fst hbinding
  have htarget : entryTarget smallImage e = b := congrArg Prod.snd hbinding
  have hone := hall e he
  rw [hname, htarget] at hone
  exact ⟨rfl, hone⟩

/-- It has no directory but the root. -/
theorem smallImage_not_under {p n : Nat} : ¬ (fileSystem smallImage).Under p n := by
  rintro ⟨name, hplain, hname⟩
  rcases (smallImage_nameGraph hname).2 with ⟨hdot, -⟩ | ⟨-, hb⟩
  · exact hplain hdot
  · have hkind : ext2FtDir = ext2FtRegFile := congrArg Prod.snd hb
    exact absurd hkind (by decide)

theorem smallImage_root : nameGraph smallImage 2 dot = some (2, ext2FtDir) ∧
    nameGraph smallImage 2 dotDot = some (2, ext2FtDir) := by
  have hself : entryBinding smallImage.data 23552 = (dot, 2, ext2FtDir) := by decide +kernel
  have hup : entryBinding smallImage.data 23564 = (dotDot, 2, ext2FtDir) := by decide +kernel
  exact ⟨smallImage_namesDistinct.nameGraph_iff.mpr ⟨_, smallImage_live (by decide), hself⟩,
    smallImage_namesDistinct.nameGraph_iff.mpr ⟨_, smallImage_live (by decide), hup⟩⟩

theorem smallImage_shaped : (fileSystem smallImage).Shaped where
  tree :=
    { root := fun _ => smallImage_not_under
      unique := fun hplain _ hname _ => (smallImage_not_under ⟨_, hplain, hname⟩).elim
      acyclic := fun _ hbelow => by
        obtain ⟨_, hfirst, -⟩ := Relation.TransGen.head'_iff.mp hbelow
        exact smallImage_not_under hfirst }
  above _ _ hunder := (smallImage_not_under hunder).elim
  own n hn := by
    rcases hn with rfl | ⟨_, hunder⟩
    · exact smallImage_root.1
    · exact (smallImage_not_under hunder).elim
  up _ _ hunder := (smallImage_not_under hunder).elim
  rootUp := smallImage_root.2
  files m x n kind hname hkind y := by
    rcases (smallImage_nameGraph hname).2 with ⟨-, hb⟩ | ⟨-, hb⟩
    · exact absurd (congrArg Prod.snd hb) hkind
    · obtain ⟨rfl, -⟩ := Prod.mk.inj hb
      refine Option.eq_none_iff_forall_ne_some.mpr fun c hc => ?_
      have hfile : nameGraph smallImage 12 y = some c := hc
      exact absurd (smallImage_nameGraph hfile).1 (by decide)

theorem smallImage_intact : Intact smallImage where
  consistent := smallImage_consistent
  names := smallImage_namesDistinct
  files n hn hdir := by
    obtain ⟨⟨m, e⟩, hl, rfl⟩ := hn
    obtain ⟨rfl, he⟩ := smallDisk_liveIn hl
    have hinodes : ∀ x ∈ [23552, 23564, 23576], entryInode smallImage.data x = 2 ∨
        entryInode smallImage.data x = 12 := by decide +kernel
    have hfile : entryInode smallImage.data e = 12 := by
      refine (hinodes e he).resolve_left fun htwo => hdir ?_
      dsimp only
      rw [htwo]
      exact smallImage_consistent.root
    have hused := (smallImage_consistent.names 2 e hl).1
    refine ⟨smallImage_linksCounted 2 e hl hdir, by rw [hfile]; decide, fun i hi => ?_⟩
    by_contra hne
    have hslot := (stored_smallDisk (r := .slot _ i) ⟨hused.1, hi⟩ fun h0 => hne (.inl h0)).1
    injection hslot with hnode
    rw [hfile] at hnode
    exact absurd hnode (by decide)
  shape := smallImage_shaped

section

variable {d d' : Disk} {inv : Invocation} {rest : List Invocation} {statuses : List Nat}
  {status : Nat}

/-- The status a command ends with, if it is not killed, and the image it leaves behind. -/
def Invocation.result (d : Disk) (inv : Invocation) : Option Nat × Disk :=
  match inv.command.run inv.now inv.host d with
  | .done _ d' => (some 0, d')
  | .exit status d' => (some status, d')
  | .crash => (none, d)

theorem Invocation.result_intact (h : Intact d) (hadm : inv.Admissible d) :
    Intact (inv.result d).2 := by
  have hserved := Invocation.served h hadm
  rw [Invocation.result]
  generalize inv.command.run inv.now inv.host d = o at hserved ⊢
  cases o with
  | done => exact hserved.1
  | exit => exact hserved.2.1
  | crash => exact h

theorem runCommands_cons (hstatus : (inv.result d).1 = some status)
    (hrest : runCommands (inv.result d).2 rest = some (statuses, d')) :
    runCommands d (inv :: rest) = some (status :: statuses, d') := by
  rw [Invocation.result] at hstatus hrest
  rw [runCommands]
  split
  · rename_i hrun
    rw [hrun] at hstatus hrest
    cases hstatus
    rw [hrest]
    rfl
  · rename_i hrun
    rw [hrun] at hstatus hrest
    cases hstatus
    rw [hrest]
    rfl
  · rename_i hrun
    rw [hrun] at hstatus
    cases hstatus

theorem AtEach.cons {P : Disk → Invocation → Prop} (hP : P d inv)
    (hrest : AtEach P (inv.result d).2 rest) : AtEach P d (inv :: rest) := by
  refine ⟨hP, fun d' hleaves => ?_⟩
  rw [Invocation.result] at hrest
  generalize inv.command.run inv.now inv.host d = o at hleaves hrest
  cases hleaves with
  | done => exact hrest
  | exit => exact hrest

theorem admissible_mkdir {now e : Nat} {host : CString → Option (List UInt8)} {path : CString}
    (hparent : traversePath d (splitPath path).dropLast = some e)
    (hfits : NameFits d (entryInode d.data e) (lastComponent path)) :
    Invocation.Admissible d ⟨now, host, .mkdir path⟩ := by
  intro pe hpath
  obtain rfl := Option.some.inj (hparent.symm.trans hpath.parent)
  exact hfits

theorem admissible_ln {now e : Nat} {host : CString → Option (List UInt8)} {source dest : CString}
    {isSymLink : Bool} (hparent : traversePath d (splitPath dest).dropLast = some e)
    (hdir : isDirectory d (some e) = true)
    (hfits : NameFits d (entryInode d.data e) (lastComponent dest)) :
    Invocation.Admissible d ⟨now, host, .file (.ln source dest isSymLink)⟩ := by
  intro se pe hpaths
  obtain rfl := Option.some.inj (hparent.symm.trans hpaths.parent)
  exact ⟨hdir, hfits⟩

theorem admissible_cp_over {now e : Nat} {content : List UInt8} {source dest : CString}
    (hlen : content.length + ext2BlockSize ≤ 2 ^ 32)
    (hdest : traversePath d (destComponents d source dest) = some e)
    (hfile : isDirectory d (some e) = false) :
    Invocation.Admissible d ⟨now, fun _ => some content, .file (.cp source dest)⟩ :=
  ⟨fun _ hc => Option.some.inj hc ▸ hlen, hdest ▸ hfile,
    fun _ hnone => nomatch hdest.symm.trans hnone⟩

theorem admissible_cp_new {now e : Nat} {content : List UInt8} {source dest : CString}
    (hlen : content.length + ext2BlockSize ≤ 2 ^ 32)
    (hdest : traversePath d (destComponents d source dest) = none)
    (hparent : traversePath d (destComponents d source dest).dropLast = some e)
    (hdir : isDirectory d (some e) = true)
    (hfits : NameFits d (entryInode d.data e) ((destComponents d source dest).getLastD [])) :
    Invocation.Admissible d ⟨now, fun _ => some content, .file (.cp source dest)⟩ := by
  refine ⟨fun _ hc => Option.some.inj hc ▸ hlen, hdest ▸ rfl, fun pe _ hpe => ?_⟩
  obtain rfl := Option.some.inj (hparent.symm.trans hpe)
  exact ⟨hdir, hfits⟩

theorem admissible_rm {now e : Nat} {host : CString → Option (List UInt8)} {path : CString}
    (hentry : traversePath d (splitPath path) = some e)
    (hblock : lastReservedBlock < e / ext2BlockSize) :
    Invocation.Admissible d ⟨now, host, .rm path⟩ := by
  intro e' pe hpath
  obtain rfl := Option.some.inj (hentry.symm.trans hpath.entry)
  exact .inr hblock

end

/-- A file of two bytes is copied onto `/f` and gets a second name in a new directory, which then
cannot be made again; the first name is removed. -/
def exampleRun : List Invocation :=
  [⟨0, fun _ => some [104, 105], .file (.cp [47, 120] [47, 102])⟩,
    ⟨1, fun _ => none, .mkdir [47, 100]⟩,
    ⟨2, fun _ => none, .file (.ln [47, 102] [47, 100, 47, 103] false)⟩,
    ⟨3, fun _ => none, .mkdir [47, 100]⟩,
    ⟨4, fun _ => none, .rm [47, 102]⟩]

/-- The run copies, makes a directory and a link, fails once with `EEXIST`, and removes. -/
theorem commandRun_refines_example : ∃ d',
    runCommands smallImage exampleRun = some ([0, 0, 0, 17, 0], d') ∧ Intact d' ∧
    FileSystem.Run (fileSystem smallImage) exampleRun [0, 0, 0, 17, 0] (fileSystem d') := by
  have hadm : AtEach (fun d inv => inv.Admissible d) smallImage exampleRun := by
    refine .cons ?_ (.cons ?_ (.cons ?_ (.cons ?_ (.cons ?_ trivial))))
    · exact admissible_cp_over (e := 23576) (by decide) (by decide +kernel) (by decide +kernel)
    · exact admissible_mkdir (e := 23552) (by decide +kernel)
        ⟨by decide, .inr (.inl ⟨1, by decide, by decide +kernel⟩)⟩
    · exact admissible_ln (e := 23588) (by decide +kernel) (by decide +kernel)
        ⟨by decide, .inr (.inl ⟨1, by decide, by decide +kernel⟩)⟩
    · exact admissible_mkdir (e := 23552) (by decide +kernel)
        ⟨by decide, .inr (.inl ⟨1, by decide, by decide +kernel⟩)⟩
    · exact admissible_rm (e := 23576) (by decide +kernel) (by decide)
  have hrun : ∃ d', runCommands smallImage exampleRun = some ([0, 0, 0, 17, 0], d') :=
    ⟨_, runCommands_cons (by decide +kernel) (runCommands_cons (by decide +kernel)
      (runCommands_cons (by decide +kernel) (runCommands_cons (by decide +kernel)
        (runCommands_cons (by decide +kernel) rfl))))⟩
  obtain ⟨statuses, d', hstatuses, hkept⟩ := commandRun_refines smallImage_intact hadm
  obtain ⟨dEnd, hends⟩ := hrun
  obtain ⟨rfl, rfl⟩ := Prod.mk.inj (Option.some.inj (hends.symm.trans hstatuses))
  exact ⟨dEnd, hends, hkept⟩

end Ext2
end OsAssignments
