import OsAssignments.Ext2.FileContent
import OsAssignments.Ext2.SourcePath
import OsAssignments.Ext2.TreeEffect

/-!
# The round trip of `ext2_cp`

* `Inserted.lookups` — an entry made in a directory is found, and all others still are.
* `Taken.existing_found`, `NewFile.found`, `NewFile.lost` — where the destination leads after the
  copy: to the inode it led to, to the new inode, or still to none.
* `ConsistentAs.ext2Cp_least` — the new inode is the first free one.
* `readBack_iff` — what was copied is read back, exactly if the file opened is the source, no
  block of it is dropped and the new entry is not lost.
-/

namespace OsAssignments
namespace Ext2

open ByteMemory MachineWord ExitState

section

variable {d d' d₁ : Disk} {p n r k now fileType child : Nat} {bs : List Nat} {name : CString}
  {content : List UInt8} {components : List CString}

/-! ## The new name -/

theorem find_iff_resolve {binding : CString × Nat × Nat} {e : Nat} :
    resolve d n name = some (e, binding) ↔
      findMatchingEntry d n name = some e ∧ entryBinding d.data e = binding := by
  rw [resolve, Option.map_eq_some_iff]
  constructor
  · rintro ⟨x, hfind, hx⟩
    obtain ⟨rfl, hbinding⟩ := Prod.mk.inj hx
    exact ⟨hfind, hbinding⟩
  · rintro ⟨hfind, rfl⟩
    exact ⟨e, hfind, rfl⟩

/-- An entry that lands is found under its name. -/
theorem Inserted.createdFound (h : Consistent d) (hp : IsDirInode d p) (hlen : name.length ≤ 255)
    (hland : Lands d p name) (hnew : findMatchingEntry d p name = none)
    (hins : Inserted d p child name fileType (.done (some r) d')) :
    CreatedFound d d' p r (name, child % 2 ^ 32, fileType % 2 ^ 8) := by
  have hdir := h.dirInode hp
  have hnone : resolve d p name = none := by
    rw [resolve, hnew]
    rfl
  have hbinding := hins.binding hlen
  cases hins with
  | @placed r i mem hplace hi hne hmake =>
    have hput := (h.tiled p hp i hi hne).insertion hmake
    rw [hput.added.symm.trans hbinding] at hput
    exact hdir.existing hi hne hput hnone
  | @newBlock i b hplace hfirst hb =>
    obtain ⟨hpos, -, hword, -⟩ := h.sound.toCounted.free_bounds hb
    exact hdir.attached hfirst.lt hlen hword (by omega) (mem_freeBlocks.mp hb).2 hfirst.empty
      ((hfirst.attachable_iff hplace).mpr hland) hnone

/-- **A new entry is found, and so is what was found before.** -/
theorem Inserted.lookups (h : Consistent d) (hp : IsDirInode d p) (hlen : name.length ≤ 255)
    (hland : Lands d p name) (hnew : findMatchingEntry d p name = none)
    (hins : Inserted d p child name fileType (.done (some r) d')) :
    LookupsKept d d' Set.univ ∧ findMatchingEntry d' p name = some r := by
  have hcreated := hins.createdFound h hp hlen hland hnew
  refine ⟨fun m _ hm other hother e hfind => ?_, (find_iff_resolve.mp hcreated.found).1⟩
  by_cases hmp : m = p
  · subst hmp
    have hne : other ≠ name := by
      rintro rfl
      rw [hnew] at hfind
      cases hfind
    exact find_iff_resolve.mp ((hcreated.others other hne).trans (find_iff_resolve.mpr ⟨hfind, rfl⟩))
  · have hc : Contained d p name 0 := h.contained hp fun _ => .inl (by omega)
    exact (hins.sameFile h.sound hp.1.1 hc hm.1.1 hmp).find_kept h hm hother hfind

/-! ## An existing file -/

/-- An existing destination is a directory that its path runs through. -/
def OnOwnPath (d : Disk) (components : List CString) : Prop :=
  ∃ e, traversePath d components = some e ∧
    entryInode d.data e ∈ searched d ext2RootIno components

/-- The destination still leads to the inode that was overwritten. -/
theorem Taken.existing_found (ht : Taken d k bs) (h : Consistent d) {e : Nat}
    (hne : ∀ c ∈ components, c ≠ []) (hdest : traversePath d components = some e)
    (hapart : ¬ OnOwnPath d components)
    (hcopy : Copied now (handOut d bs) d' (entryInode d.data e) bs content) :
    traversePath d' components = some e ∧ entryInode d'.data e = entryInode d.data e := by
  obtain ⟨m, hl⟩ := h.traversePath_live hne hdest
  have hused := (h.names m e hl).1
  have hkept : LookupsKept d d' {m | m ≠ entryInode d.data e} := fun m hm hdir _ hname _ hfind =>
    (ht.copied_sameFile h hused hcopy hdir.1 hm).find_kept h hdir hname hfind
  obtain ⟨hrun, hsame⟩ := hkept.traversePath h hne
    (fun m hm heq => hapart ⟨e, hdest, heq ▸ hm⟩) hdest
  exact ⟨hrun, congrArg (fun b => b.2.1) hsame⟩

/-! ## A new file -/

section

variable (h : Consistent d) (ht : Taken d k bs) (hn : n ∈ freeInodes d) (hp : IsDirInode d p)
  (hlen : name.length ≤ 255)
  (hins : Inserted (newFile now content (handOut d bs) n) p n name ext2FtRegFile
    (.done (some r) d₁))
include h ht hn hp hlen hins

/-- The image with the entry is consistent, and the new inode is no directory. -/
theorem Taken.newEntry_consistent : Consistent d₁ ∧ ¬ IsDirInode d₁ n ∧ Fresh d₁ bs := by
  have ha := ht.newFile_allocated h.sound now content hn
  have h₀ := ha.consistent h (by decide)
  have hp₀ := (ha.isDirInode (m := p) (by decide)).mpr hp
  have hc₀ : Contained (newFile now content (handOut d bs) n) p name 0 :=
    h₀.contained hp₀ fun _ => .inl (by omega)
  have hdir : ¬ IsDirInode (newFile now content (handOut d bs) n) n := fun hdir =>
    not_inodeInUse_of_free hn ((ha.isDirInode (by decide)).mp hdir).1
  have hnames : NamesInode (newFile now content (handOut d bs) n) n (ext2FtRegFile % 2 ^ 8) :=
    ⟨(ha.inUse n).mpr (.inr rfl), iff_of_false (by decide) hdir⟩
  exact ⟨hins.consistent h₀ hp₀.1.1 hc₀ hnames, fun hd => hdir (hins.isDirInode.mp hd),
    hins.fresh h₀.sound hp₀.1.1 hc₀ (ht.fresh_newFile h.sound now content hn)⟩

variable (hcopy : Copied now d₁ d' n bs content)
include hcopy

theorem Taken.newEntry_dirsKept : DirsKept d₁ d' := by
  obtain ⟨h₁, hdir, hfresh⟩ := ht.newEntry_consistent h hn hp hlen hins
  have hused : InodeInUse d₁ n :=
    hins.inodeInUse.mpr (((ht.newFile_allocated h.sound now content hn).inUse n).mpr (.inr rfl))
  exact hcopy.dirsKept h₁.sound hfresh hused.1 hdir

/-- An entry that lands leads to the new inode. -/
theorem Taken.new_found (hland : Lands d p name) (hnew : findMatchingEntry d p name = none)
    (hname : name ≠ []) : LookupsKept d d' Set.univ ∧ findMatchingEntry d' p name = some r ∧
      entryInode d'.data r = n := by
  have ha := ht.newFile_allocated h.sound now content hn
  have h₀ := ha.consistent h (by decide)
  have hp₀ := (ha.isDirInode (m := p) (by decide)).mpr hp
  obtain ⟨h₁, -, -⟩ := ht.newEntry_consistent h hn hp hlen hins
  have hland₀ := (ha.lands_iff hp.1).mpr hland
  have hnew₀ : findMatchingEntry (newFile now content (handOut d bs) n) p name = none :=
    ((ha.dirsKept p hp).findMatchingEntry_eq h hp name).trans hnew
  obtain ⟨hkept, hfind⟩ := hins.lookups h₀ hp₀ hlen hland₀ hnew₀
  have hafter := (ht.newEntry_dirsKept h hn hp hlen hins hcopy).lookupsKept h₁
  have hp₁ : IsDirInode d₁ p := hins.isDirInode.mpr hp₀
  obtain ⟨hfind', hsame⟩ := hafter p (Set.mem_univ p) hp₁ name hname r hfind
  refine ⟨((ha.dirsKept.lookupsKept h).trans hkept fun m => (ha.isDirInode (by decide)).mpr).trans
    hafter fun m hm => hins.isDirInode.mpr ((ha.isDirInode (by decide)).mpr hm), hfind', ?_⟩
  have hn32 := h.sound.toCounted.validInode_lt (mem_freeInodes.mp hn).1
  calc entryInode d'.data r = entryInode d₁.data r := congrArg (fun b => b.2.1) hsame
    _ = n := hins.entry.1.trans (Nat.mod_eq_of_lt hn32)

/-- An entry that is lost leaves all directories as they were. -/
theorem Taken.new_lost (hland : ¬ Lands d p name) : DirsKept d d' := by
  have ha := ht.newFile_allocated h.sound now content hn
  have h₀ := ha.consistent h (by decide)
  have hp₀ := (ha.isDirInode (m := p) (by decide)).mpr hp
  have hc₀ : Contained (newFile now content (handOut d bs) n) p name 0 :=
    h₀.contained hp₀ fun _ => .inl (by omega)
  have hins₀ := hins.dirsKept h₀.sound hp₀.1.1 hc₀ fun hno => hland ((ha.lands_iff hp.1).mp hno.2)
  have hafter := ht.newEntry_dirsKept h hn hp hlen hins hcopy
  intro m hm
  have hm₀ := (ha.isDirInode (m := m) (by decide)).mpr hm
  exact ((ha.dirsKept m hm).trans (hins₀ m hm₀)).trans (hafter m (hins.isDirInode.mpr hm₀))

end

/-! ## The new inode -/

/-- The part of a run behind `allocate_blocks`. -/
theorem ConsistentAs.ext2Cp_copyBlocks (h : Consistent d) {host : CString → Option (List UInt8)}
    {source dest : CString} (hrun : ext2Cp now host source dest d = .done () d') :
    ∃ content bs, Taken d (getRequiredBlockCount content.length) bs ∧
      copyBlocks now content (destComponents d source dest)
        (traversePath d (destComponents d source dest)) bs (handOut d bs) = .done () d' := by
  rw [ext2Cp_eq] at hrun
  cases hhost : host (afterStrtok source) with
  | none =>
    rw [hhost] at hrun
    cases hrun
  | some content =>
    rw [hhost] at hrun
    dsimp only at hrun
    rcases h.sound.toCounted.allocateBlocks_cases (getRequiredBlockCount content.length) with
      ⟨-, hexit⟩ | ⟨bs, hnodup, hlen, hbs, hdone⟩
    · rw [Command.bind_of_exit hexit] at hrun
      cases hrun
    · rw [Command.bind_of_done hdone] at hrun
      exact ⟨content, bs, ⟨hnodup, hlen, hbs⟩, hrun⟩

/-- **The inode that a new file gets** is the first free one. -/
theorem ConsistentAs.ext2Cp_least (h : Consistent d) {host : CString → Option (List UInt8)}
    {source dest : CString} {pe : Nat}
    (hparent : traversePath d (destComponents d source dest).dropLast = some pe)
    (habsent : traversePath d (destComponents d source dest) = none)
    (hrun : ext2Cp now host source dest d = .done () d') :
    ∃ n, IsLeast {m | m ∈ freeInodes d} n ∧ InodeInUse d' n := by
  have hne := destComponents_ne_nil d source dest
  have hne' : ∀ c ∈ (destComponents d source dest).dropLast, c ≠ [] :=
    fun c hc => hne c (List.mem_of_mem_dropLast hc)
  obtain ⟨content, bs, ht, hcopy⟩ := h.ext2Cp_copyBlocks hrun
  rw [habsent, h.copyBlocks_new now hne ht hparent] at hcopy
  have hout := h.sound.handedOut ht.nodup ht.free
  rcases hout.toCounted.allocateTypedInode_least now ext2FtRegFile (wrap 32 content.length) with
    ⟨-, hexit⟩ | ⟨n, hleast, -, halloc⟩
  · rw [Command.bind_of_exit (x := allocateFileInode now (wrap 32 content.length)) hexit] at hcopy
    cases hcopy
  rw [Command.bind_of_done (x := allocateFileInode now (wrap 32 content.length)) halloc,
    Command.bind_of_done (Command.get_apply _)] at hcopy
  obtain ⟨a, d₁, hput, hattach⟩ := Command.bind_eq_done hcopy
  rw [freeInodes_handOut] at hleast
  have ha := ht.newFile_allocated h.sound now content hleast.1
  have hused := (ha.inUse n).mpr (.inr rfl)
  obtain ⟨m, hl⟩ := h.traversePath_live hne' hparent
  have hp : ValidInode (newFile now content (handOut d bs) n)
      (entryInode (newFile now content (handOut d bs) n).data pe) := by
    rw [ha.entryInode_eq h hl]
    exact (ha.stillInUse _ (h.names m pe hl).1).1
  have hins := ha.sound.makeEntryInInode_cases hp n
    ((destComponents d source dest).getLastD []) ext2FtRegFile
  rw [newFile, hput] at hins
  rcases (ht.fresh_newFile h.sound now content hleast.1).attachContent_outcome ha.sound.toCounted
    now content hused.1 (hins.indirectBlock_eq n) with ⟨hcrash, -⟩ | ⟨d₂, hdone, hcopied⟩
  · rw [hcrash] at hattach
    cases hattach
  · rw [hdone] at hattach
    cases hattach
    exact ⟨n, hleast, hcopied.inodeInUse.mpr ((makeEntryInInode_keeps hput n).2.mpr hused)⟩

/-! ## The command -/

/-- The destination leads to an inode that holds the content. -/
def ReadBack (d : Disk) (components : List CString) (content : List UInt8) : Prop :=
  ∃ e, traversePath d components = some e ∧ HoldsContent d (entryInode d.data e) content

/-- The inode can store the numbers of all blocks of the content. -/
def SlotsFor (d : Disk) (n : Nat) (content : List UInt8) : Prop :=
  content.length ≤ ext2BlockSize * indirect1Index ∨ indirectBlock d n ≠ 0

/-- The condition under which the content of `source` is read back. -/
structure CopyKept (d : Disk) (host : CString → Option (List UInt8)) (source dest : CString)
    (content : List UInt8) (p : Nat) : Prop where
  opened : host (afterStrtok source) = host source
  apart : ¬ OnOwnPath d (destComponents d source dest)
  existing : ∀ e, traversePath d (destComponents d source dest) = some e →
    SlotsFor d (entryInode d.data e) content
  slots : traversePath d (destComponents d source dest) = none →
    ∀ n, IsLeast {m | m ∈ freeInodes d} n → SlotsFor d n content
  entry : traversePath d (destComponents d source dest) = none →
    ((destComponents d source dest).getLastD []).length ≤ 255 ∧
      Lands d p ((destComponents d source dest).getLastD [])

/-- The number of bytes fits into the slots of an inode. -/
theorem Taken.content_le (ht : Taken d (getRequiredBlockCount content.length) bs) (h : Counted d)
    (hcopy : Copied now d₁ d' n bs content) :
    content.length ≤ ext2BlockSize * inodeBlockLimit :=
  (ht.fits h hcopy).trans (Nat.mul_le_mul_left _ (ht.lt_limit h).le)

theorem Taken.pos (ht : Taken d k bs) : ∀ b ∈ bs, b ≠ 0 := fun b hb => by
  have := (mem_freeBlocks.mp (ht.free b hb)).1
  omega

theorem entryName_of_find {e : Nat} (hfind : findMatchingEntry d n name = some e) :
    entryName d.data e = name := by
  rw [findMatchingEntry_eq] at hfind
  obtain ⟨i, -, hslot⟩ := List.exists_of_findSome?_eq_some hfind
  rw [slotEntry] at hslot
  split at hslot
  · cases hslot
  · simpa using List.find?_some hslot

/-- The entry a path leads to is named by the last component. -/
theorem entryName_of_traverseFrom {e : Nat} {first : Option Nat} (hcons : components ≠ [])
    (hrun : traverseFrom d first n components = some e) :
    entryName d.data e = components.getLastD [] := by
  induction components generalizing first n with
  | nil => exact absurd rfl hcons
  | cons c rest ih =>
    rw [traverseFrom] at hrun
    split at hrun
    · cases hrun
    · rename_i entry hfind
      have hname := entryName_of_find hfind
      by_cases hrest : rest = []
      · subst hrest
        rw [traverseFrom, if_pos rfl, ite_self] at hrun
        cases hrun
        exact hname
      · have hlast : (c :: rest).getLastD [] = rest.getLastD [] := by
          rw [List.getLastD_eq_getLast?, List.getLastD_eq_getLast?, List.getLast?_cons_of_ne_nil hrest]
        rw [if_neg hrest] at hrun
        split at hrun
        · rw [hlast]
          exact ih hrest hrun
        · cases hrun

/-- **An existing destination** is read back exactly if no block is dropped. -/
theorem Taken.existing_readBack (ht : Taken d (getRequiredBlockCount content.length) bs)
    (h : Consistent d) {e : Nat} (hne : ∀ c ∈ components, c ≠ [])
    (hdest : traversePath d components = some e) (hapart : ¬ OnOwnPath d components)
    (hcopy : Copied now (handOut d bs) d' (entryInode d.data e) bs content)
    (wanted : List UInt8) :
    ReadBack d' components wanted ↔ wanted = content ∧ SlotsFor d (entryInode d.data e) content := by
  obtain ⟨hrun, hinode⟩ := ht.existing_found h hne hdest hapart hcopy
  have hfits := ht.content_le h.sound.toCounted hcopy
  have hread := hcopy.holdsContent_iff ht.pos hfits wanted
  rw [handOut_footprint.indirect] at hread
  rw [SlotsFor, ← hread]
  constructor
  · rintro ⟨e', hrun', hholds⟩
    rw [hrun] at hrun'
    cases hrun'
    rwa [hinode] at hholds
  · intro hholds
    exact ⟨e, hrun, by rwa [hinode]⟩

/-- **A new destination** is read back exactly if its entry is found and no block is dropped. -/
theorem Taken.new_readBack (ht : Taken d (getRequiredBlockCount content.length) bs)
    (h : Consistent d) (hn : n ∈ freeInodes d) {pe : Nat} (hne : ∀ c ∈ components, c ≠ [])
    (hcons : components ≠ []) (hparent : traversePath d components.dropLast = some pe)
    (hdir : isDirectory d (some pe) = true) (habsent : traversePath d components = none)
    (hins : Inserted (newFile now content (handOut d bs) n) (entryInode d.data pe) n
      (components.getLastD []) ext2FtRegFile (.done (some r) d₁))
    (hcopy : Copied now d₁ d' n bs content) (wanted : List UInt8) :
    ReadBack d' components wanted ↔ ((components.getLastD []).length ≤ 255 ∧
      Lands d (entryInode d.data pe) (components.getLastD [])) ∧
      wanted = content ∧ SlotsFor d n content := by
  have hne' : ∀ c ∈ components.dropLast, c ≠ [] := fun c hc => hne c (List.mem_of_mem_dropLast hc)
  have hsplit : components = components.dropLast ++ [components.getLastD []] := by
    rw [List.getLastD_eq_getLast?, List.getLast?_eq_getLast_of_ne_nil hcons, Option.getD_some,
      List.dropLast_append_getLast hcons]
  have hname : components.getLastD [] ≠ [] := hne _ (by rw [hsplit]; simp)
  obtain ⟨m, hl⟩ := h.traversePath_live hne' hparent
  have hp : IsDirInode d (entryInode d.data pe) :=
    (h.names m pe hl).2.mp ((isDirectory_some d pe).mp hdir)
  have hnew : findMatchingEntry d (entryInode d.data pe) (components.getLastD []) = none := by
    rw [← traversePath_append hparent hdir, ← hsplit, habsent]
  have hfits := ht.content_le h.sound.toCounted hcopy
  have hread := hcopy.holdsContent_iff ht.pos hfits wanted
  have hind : indirectBlock d₁ n = indirectBlock d n := (hins.indirectBlock_eq n).trans
    ((ht.newFile_allocated h.sound now content hn).indirect n)
  rw [hind] at hread
  rw [SlotsFor, ← hread]
  by_cases hlen : (components.getLastD []).length ≤ 255
  · by_cases hland : Lands d (entryInode d.data pe) (components.getLastD [])
    · obtain ⟨hkept, hfind, hinode⟩ := ht.new_found h hn hp hlen hins hcopy hland hnew hname
      have hrun : traversePath d' components = some r := by
        rw [hsplit, hkept.traversePath_append h hne' hparent hdir, hfind]
      rw [and_iff_right ⟨hlen, hland⟩]
      constructor
      · rintro ⟨e, hrun', hholds⟩
        rw [hrun] at hrun'
        cases hrun'
        rwa [hinode] at hholds
      · exact fun hholds => ⟨r, hrun, by rwa [hinode]⟩
    · -- no directory has changed
      refine iff_of_false ?_ fun hand => hland hand.1.2
      rintro ⟨e, hrun, -⟩
      have hkept := ht.new_lost h hn hp hlen hins hcopy hland
      rw [hkept.traversePath_eq h hne, habsent] at hrun
      cases hrun
  · refine iff_of_false ?_ fun hand => hlen hand.1.1
    rintro ⟨e, hrun, -⟩
    have hstored := entryName_of_traverseFrom hcons hrun
    have hlt := entryNameLen_lt d'.data e
    rw [← length_entryName, hstored] at hlt
    omega

/-- **What was copied is read back** if the file opened is the source, no block is dropped and
the entry made is found.  The other way round there is one exception: if the destination is a
directory that its path runs through, then it depends on the bytes it is overwritten with. -/
theorem readBack_iff (h : Consistent d) {host : CString → Option (List UInt8)}
    {source dest : CString} (hhost : host source = some content) {pe : Nat}
    (hparent : traversePath d (destComponents d source dest).dropLast = some pe)
    (hdir : isDirectory d (some pe) = true) (hrun : ext2Cp now host source dest d = .done () d') :
    (CopyKept d host source dest content (entryInode d.data pe) →
      ReadBack d' (destComponents d source dest) content) ∧
    (ReadBack d' (destComponents d source dest) content →
      CopyKept d host source dest content (entryInode d.data pe) ∨
        OnOwnPath d (destComponents d source dest)) := by
  have hne := destComponents_ne_nil d source dest
  rcases h.ext2Cp_outcome now host source dest with ⟨-, hexit⟩ | ⟨opened, hopen, hout⟩
  · rw [hexit] at hrun
    cases hrun
  have hsame : host (afterStrtok source) = host source ↔ content = opened := by
    rw [hopen, hhost, Option.some_inj]
    exact eq_comm
  rw [hrun] at hout
  cases hout with
  | @existing bs e _ _ ht _ hdest hcopy =>
    by_cases hown : OnOwnPath d (destComponents d source dest)
    · exact ⟨fun hkept => absurd hown hkept.apart, fun _ => .inr hown⟩
    have hread := ht.existing_readBack h hne hdest hown hcopy content
    have hnew : ¬ traversePath d (destComponents d source dest) = none := by
      rw [hdest]
      exact Option.some_ne_none e
    constructor
    · intro hkept
      have heq := hsame.mp hkept.opened
      exact hread.mpr ⟨heq, heq ▸ hkept.existing e hdest⟩
    · intro hback
      obtain ⟨heq, hslots⟩ := hread.mp hback
      refine .inl ⟨hsame.mpr heq, hown, fun x hx => ?_, fun hx => absurd hx hnew,
        fun hx => absurd hx hnew⟩
      rw [hdest] at hx
      cases hx
      rwa [heq]
  | @new bs pe' n r d₁ _ ht hparent' habsent hn _ hins hcopy =>
    rw [hparent] at hparent'
    cases hparent'
    have hcons : destComponents d source dest ≠ [] := by
      intro hnil
      rw [hnil, List.dropLast_nil, traversePath, traverseFrom] at hparent
      cases hparent
    have hread := ht.new_readBack h hn hne hcons hparent hdir habsent hins hcopy content
    -- the inode in use now and not before is the first free one
    have hleast : IsLeast {m | m ∈ freeInodes d} n := by
      obtain ⟨m, hm, hused⟩ := h.ext2Cp_least hparent habsent hrun
      have ha := ht.newFile_allocated h.sound now opened hn
      rw [hcopy.inodeInUse, hins.inodeInUse, ha.inUse,
        or_iff_right (not_inodeInUse_of_free hm.1)] at hused
      rwa [← hused]
    constructor
    · intro hkept
      have heq := hsame.mp hkept.opened
      exact hread.mpr ⟨hkept.entry habsent, heq, heq ▸ hkept.slots habsent n hleast⟩
    · intro hback
      obtain ⟨hentry, heq, hslots⟩ := hread.mp hback
      refine .inl ⟨hsame.mpr heq, ?_, fun x hx => ?_, fun _ m hm => ?_, fun _ => hentry⟩
      · rintro ⟨x, hx, -⟩
        rw [habsent] at hx
        cases hx
      · rw [habsent] at hx
        cases hx
      · rw [hm.unique hleast, heq]
        exact hslots

end

/-! ## A file of one byte and one of thirteen blocks -/

/-- A host file. -/
def hostFile (content : List UInt8) : CString → Option (List UInt8) := fun _ => some content

theorem smallImage_dest : traversePath smallImage (destComponents smallImage [47, 120] [47, 102])
    = some 23576 := by decide +kernel

theorem smallImage_destParent :
    traversePath smallImage (destComponents smallImage [47, 120] [47, 102]).dropLast
      = some 23552 := by decide +kernel

theorem smallImage_destFile : entryInode smallImage.data 23576 = 12 := by decide +kernel

theorem smallImage_not_onOwnPath :
    ¬ OnOwnPath smallImage (destComponents smallImage [47, 120] [47, 102]) := by
  rintro ⟨e, he, hmem⟩
  rw [smallImage_dest] at he
  cases he
  rw [smallImage_destFile] at hmem
  exact absurd hmem (by decide +kernel)

theorem smallImage_copies (content : List UInt8) (hlen : content.length ≤ 50000) :
    ∃ d', ext2Cp 0 (hostFile content) [47, 120] [47, 102] smallImage = .done () d' := by
  have hcard : (freeBlocks smallImage).card = 104 := smallImage_consistent.sound.sFreeBlocks.symm
  have hword : content.length + ext2BlockSize - 1 < 2 ^ 32 := by
    rw [ext2BlockSize_eq]
    omega
  refine smallImage_consistent.ext2Cp_done 0 (hostFile content) rfl smallImage_destParent
    smallImage_dest ⟨?_, ?_, ⟨13, mem_freeInodes.mpr ⟨⟨by decide, by decide⟩, by decide⟩⟩⟩
  · rw [hcard, getRequiredBlockCount, wrap_of_lt hword, ext2BlockSize_eq]
    omega
  · rw [getRequiredBlockCount, wrap_of_lt hword, ext2BlockSize_eq]
    omega

theorem readBack_example : ∃ d', ext2Cp 0 (hostFile [120]) [47, 120] [47, 102] smallImage
      = .done () d' ∧
    ReadBack d' (destComponents smallImage [47, 120] [47, 102]) [120] := by
  obtain ⟨d', hrun⟩ := smallImage_copies [120] (by decide)
  have hdir : isDirectory smallImage (some 23552) = true := by decide +kernel
  have hsource : hostFile [120] [47, 120] = some [120] := rfl
  have hback := readBack_iff smallImage_consistent hsource smallImage_destParent hdir hrun
  have hfew : ([120] : List UInt8).length ≤ ext2BlockSize * indirect1Index := by decide +kernel
  refine ⟨d', hrun, hback.1 ⟨by rw [hostFile, hostFile], smallImage_not_onOwnPath,
    fun e _ => .inl hfew, fun hnone => ?_, fun hnone => ?_⟩⟩
  · rw [smallImage_dest] at hnone
    cases hnone
  · rw [smallImage_dest] at hnone
    cases hnone

/-- The thirteenth block of a file is dropped: nothing sets up an indirect block. -/
theorem smallImage_not_readBack : Consistent smallImage ∧
    ∃ d', ext2Cp 0 (hostFile (List.replicate 12289 65)) [47, 120] [47, 102] smallImage
        = .done () d' ∧
      ¬ ReadBack d' (destComponents smallImage [47, 120] [47, 102]) (List.replicate 12289 65) := by
  obtain ⟨d', hrun⟩ := smallImage_copies (List.replicate 12289 65)
    (by rw [List.length_replicate]; decide)
  obtain ⟨-, bs, ht, hcopy⟩ := smallImage_consistent.ext2Cp_existing
    (hostFile (List.replicate 12289 65)) rfl smallImage_dest hrun
  refine ⟨smallImage_consistent, d', hrun, fun hback => ?_⟩
  obtain ⟨-, hslots⟩ := (ht.existing_readBack smallImage_consistent (destComponents_ne_nil _ _ _)
    smallImage_dest smallImage_not_onOwnPath hcopy _).mp hback
  rw [SlotsFor, List.length_replicate, smallImage_destFile] at hslots
  exact absurd hslots (by decide +kernel)

end Ext2
end OsAssignments
