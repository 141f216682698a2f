import OsAssignments.Ext2.Names
import OsAssignments.Ext2.RmRun

/-!
# Lookups while entries are added

* `LookupsKept.traversePath` — a path that leads to an entry still leads to it, if the directories
  it is looked up in keep the names that are found in them.
* `EntriesAdded.trans` — entries added one after the other.
* `EntriesAdded.lookupsKept` — a name that is found is still found.
* `EntriesAdded.traversePath_added` — a path whose last component is the new name leads to the new
  entry.
* `EntriesAdded.unique` — adding entries and taking them away again leaves the same entries, and
  with them the same lookups (`SameLive.resolve_eq`).
-/

namespace OsAssignments
namespace Ext2

open ByteMemory MachineWord ExitState

section

variable {pad : Bool} {d d' d'' : Disk} {n p e pe r : Nat} {name : CString} {components : List CString}
  {added added' : Set (Nat × Nat)}

/-! ## Lookups kept -/

/-- The inodes that `traverse_path` looks into. -/
def searched (d : Disk) : Nat → List CString → List Nat
  | _, [] => []
  | n, component :: rest =>
    n :: match findMatchingEntry d n component with
      | none => []
      | some entry =>
        if isDirectory d (some entry) then searched d (entryInode d.data entry) rest else []

/-- What is found in the directories `dirs` is still found, and says what it said. -/
def LookupsKept (d d' : Disk) (dirs : Set Nat) : Prop :=
  ∀ n ∈ dirs, IsDirInode d n → ∀ name, name ≠ [] → ∀ e, findMatchingEntry d n name = some e →
    findMatchingEntry d' n name = some e ∧ entryBinding d'.data e = entryBinding d.data e

theorem isDirectory_congr (h : entryBinding d'.data e = entryBinding d.data e) :
    isDirectory d' (some e) = isDirectory d (some e) := by
  have htype : entryFileType d'.data e = entryFileType d.data e := congrArg (fun b => b.2.2) h
  rw [isDirectory, isDirectory, htype]

namespace LookupsKept

variable {dirs : Set Nat}

theorem trans (h : LookupsKept d d' dirs) (h' : LookupsKept d' d'' dirs)
    (hdirs : ∀ n, IsDirInode d n → IsDirInode d' n) : LookupsKept d d'' dirs := by
  intro n hin hn name hname e hfind
  obtain ⟨hfind', hsame⟩ := h n hin hn name hname e hfind
  obtain ⟨hfind'', hsame'⟩ := h' n hin (hdirs n hn) name hname e hfind'
  exact ⟨hfind'', hsame'.trans hsame⟩

theorem traverseFrom (h : LookupsKept d d' dirs) (hc : ConsistentAs pad d) {first : Option Nat}
    (hn : IsDirInode d n) (hne : ∀ c ∈ components, c ≠ [])
    (hin : ∀ m ∈ searched d n components, m ∈ dirs)
    (hfirst : ∀ x, first = some x → entryBinding d'.data x = entryBinding d.data x)
    (hrun : traverseFrom d first n components = some e) :
    traverseFrom d' first n components = some e ∧
      entryBinding d'.data e = entryBinding d.data e := by
  induction components generalizing first n with
  | nil => exact ⟨hrun, hfirst e hrun⟩
  | cons c rest ih =>
    rw [Ext2.traverseFrom] at hrun ⊢
    rw [searched] at hin
    split at hrun
    · cases hrun
    · rename_i entry hfind
      obtain ⟨hl, -⟩ := liveIn_of_find hn (hne c (by simp)) hfind
      obtain ⟨hfind', hsame⟩ := h n (hin n (by simp)) hn c (hne c (by simp)) entry hfind
      rw [hfind']
      rw [hfind] at hin
      dsimp only at hin ⊢
      have hinode : entryInode d'.data entry = entryInode d.data entry :=
        congrArg (fun b => b.2.1) hsame
      rw [isDirectory_congr hsame, hinode]
      split at hrun
      · rename_i hdir
        rw [if_pos hdir] at hin ⊢
        have hsub := (hc.names n entry hl).2.mp ((isDirectory_some d entry).mp hdir)
        refine ih hsub (fun c hc => hne c (by simp [hc])) (fun m hm => hin m (by simp [hm])) ?_ hrun
        rintro x ⟨⟩
        exact hsame
      · rename_i hdir
        rw [if_neg hdir]
        split at hrun
        · rename_i hlast
          cases hrun
          exact ⟨if_pos hlast, hsame⟩
        · cases hrun

/-- **A path that leads to an entry still leads to it.** -/
theorem traversePath (h : LookupsKept d d' dirs) (hc : ConsistentAs pad d)
    (hne : ∀ c ∈ components, c ≠ []) (hin : ∀ m ∈ searched d ext2RootIno components, m ∈ dirs)
    (hrun : traversePath d components = some e) :
    traversePath d' components = some e ∧ entryBinding d'.data e = entryBinding d.data e :=
  h.traverseFrom hc hc.root hne hin (fun _ hx => nomatch hx) hrun

/-- The last component is looked up in the directory the others led to. -/
theorem traversePath_append (h : LookupsKept d d' Set.univ) (hc : ConsistentAs pad d)
    (hne : ∀ c ∈ components, c ≠ []) (hparent : Ext2.traversePath d components = some pe)
    (hdir : isDirectory d (some pe) = true) (name : CString) :
    Ext2.traversePath d' (components ++ [name])
      = findMatchingEntry d' (entryInode d.data pe) name := by
  obtain ⟨hparent', hsame⟩ := h.traversePath hc hne (fun m _ => Set.mem_univ m) hparent
  have hinode : entryInode d'.data pe = entryInode d.data pe := congrArg (fun b => b.2.1) hsame
  rw [Ext2.traversePath_append hparent' ((isDirectory_congr hsame).trans hdir), hinode]

end LookupsKept

/-- A directory whose file is kept keeps what is found in it. -/
theorem SameFile.find_kept (h : SameFile d d' n) (hc : ConsistentAs pad d) (hn : IsDirInode d n)
    (hname : name ≠ []) (hfind : findMatchingEntry d n name = some e) :
    findMatchingEntry d' n name = some e ∧ entryBinding d'.data e = entryBinding d.data e := by
  obtain ⟨⟨-, i, hi, hslot, he⟩, -⟩ := liveIn_of_find hn hname hfind
  have hentry := (hc.tiled n hn i hi hslot).sameEntry (h.bytes i hslot) (mem_liveEntries.mp he).1
  exact ⟨(h.findMatchingEntry_eq hc hn name).trans hfind, hentry.binding⟩

theorem DirsKept.lookupsKept (h : DirsKept d d') (hc : ConsistentAs pad d) :
    LookupsKept d d' Set.univ :=
  fun n _ hn _ hname _ hfind => (h n hn).find_kept hc hn hname hfind

/-! ## Entries added -/

namespace EntriesAdded

/-- Entries added one after the other. -/
theorem trans (h : EntriesAdded d d' added) (h' : EntriesAdded d' d'' added') :
    EntriesAdded d d'' (added ∪ added') := by
  refine ⟨fun n e => ?_, ?_, fun n e hl => ?_, h'.tiled⟩
  · rw [h'.live, h.live, or_assoc]
    rfl
  · rintro q (hq | hq) hl
    · exact h.fresh q hq hl
    · exact h'.fresh q hq ((h.live q.1 q.2).mpr (.inl hl))
  · rw [h'.kept n e ((h.live n e).mpr (.inl hl)), h.kept n e hl]

variable (h : EntriesAdded d d' added) (hd' : NamesDistinct d')
include h

theorem entryInode_eq (hl : LiveIn d n e) : entryInode d'.data e = entryInode d.data e :=
  congrArg (fun b => b.2.1) (h.kept n e hl)

include hd'

/-- A name that is found is still found. -/
theorem lookupsKept : LookupsKept d d' Set.univ := by
  intro n _ hn name hname e hfind
  obtain ⟨hl, hsame⟩ := liveIn_of_find hn hname hfind
  have hl' : LiveIn d' n e := (h.live n e).mpr (.inl hl)
  exact ⟨(hd'.find_iff hl'.1 hname).mpr ⟨hl', (h.entryName_eq hl).trans hsame⟩, h.kept n e hl⟩

/-- A path that leads to an entry still leads to it. -/
theorem traversePath_kept (hc : ConsistentAs pad d) (hne : ∀ c ∈ components, c ≠ [])
    (hrun : traversePath d components = some e) : traversePath d' components = some e :=
  ((h.lookupsKept hd').traversePath hc hne (fun m _ => Set.mem_univ m) hrun).1

/-- **A path whose last component is the new name leads to the new entry.** -/
theorem traversePath_added (hc : ConsistentAs pad d) (hne : ∀ c ∈ components, c ≠ [])
    (hparent : traversePath d components = some pe) (hdir : isDirectory d (some pe) = true)
    (hr : (entryInode d.data pe, r) ∈ added) :
    traversePath d' (components ++ [entryName d'.data r]) = some r := by
  have hr' : LiveIn d' (entryInode d.data pe) r := (h.live _ r).mpr (.inr hr)
  rw [(h.lookupsKept hd').traversePath_append hc hne hparent hdir,
    hd'.find_iff hr'.1 hr'.name_ne_nil]
  exact ⟨hr', rfl⟩

end EntriesAdded

/-! ## The same entries -/

theorem SameLive.symm (h : SameLive d d') : SameLive d' d :=
  ⟨fun n e => (h.live n e).symm, fun n e hl => (h.binding n e ((h.live n e).mp hl)).symm⟩

theorem SameLive.entryName_eq (h : SameLive d d') (hl : LiveIn d n e) :
    entryName d'.data e = entryName d.data e := entryName_eq_of_binding (h.binding n e hl)

theorem SameLive.namesDistinct (h : SameLive d d') (hd : NamesDistinct d) : NamesDistinct d' := by
  intro n e e' hl hl' heq
  have hl := (h.live n e).mp hl
  have hl' := (h.live n e').mp hl'
  rw [h.entryName_eq hl, h.entryName_eq hl'] at heq
  exact hd n e e' hl hl' heq

/-- The same entries answer lookups alike. -/
theorem SameLive.resolve_eq (h : SameLive d d') (hd : NamesDistinct d) (hn : IsDirInode d n)
    (hn' : IsDirInode d' n) (hname : name ≠ []) : resolve d' n name = resolve d n name := by
  refine hd.resolve_congr (h.namesDistinct hd) hn hn' hname (fun e => ?_) fun e hl => h.binding n e hl
  rw [h.live]
  exact and_congr_right fun hl => by rw [h.entryName_eq hl]

/-- Entries are added, and what follows keeps them all. -/
theorem EntriesAdded.sameLive_after (h : EntriesAdded d d' added) (hs : SameLive d' d'')
    (hT : DirsTiled false d'') : EntriesAdded d d'' added := by
  refine ⟨fun n e => (hs.live n e).trans (h.live n e), h.fresh, fun n e hl => ?_, hT⟩
  rw [hs.binding n e ((h.live n e).mpr (.inl hl)), h.kept n e hl]

/-- **Entries added and taken away again leave the same entries.** -/
theorem EntriesAdded.unique (h : EntriesAdded d d'' added) (h' : EntriesAdded d' d'' added) :
    SameLive d d' := by
  have hiff : ∀ n e, LiveIn d' n e ↔ LiveIn d n e := fun n e => by
    have heq := (h'.live n e).symm.trans (h.live n e)
    by_cases hadd : (n, e) ∈ added
    · exact iff_of_false (h'.fresh _ hadd) (h.fresh _ hadd)
    · rwa [or_iff_left hadd, or_iff_left hadd] at heq
  refine ⟨hiff, fun n e hl => ?_⟩
  rw [← h.kept n e hl, h'.kept n e ((hiff n e).mpr hl)]

/-- The last component of a path that leads nowhere is not found in the directory that the other
components lead to. -/
theorem find_none_of_traversePath {path : CString}
    (hparent : traversePath d (splitPath path).dropLast = some pe)
    (hdir : isDirectory d (some pe) = true) (hrun : traversePath d (splitPath path) = none) :
    findMatchingEntry d (entryInode d.data pe) (lastComponent path) = none := by
  rw [splitPath_eq_append, traversePath_append hparent hdir] at hrun
  exact hrun

end

end Ext2
end OsAssignments
