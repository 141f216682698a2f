import OsAssignments.Ext2.InsertFrame

/-!
# Directories with distinct names

Where no directory holds a name twice, what a lookup finds is a matter of the live entries
alone.

* `NamesDistinct` — no directory has two entries in use of one name.
* `NamesDistinct.find_iff`, `NamesDistinct.resolve_iff` — a lookup finds exactly the entry in
  use of that name.
* `EntriesAdded.lookup_other`, `EntriesAdded.lookup_before` — one entry more is one lookup more.
-/

namespace OsAssignments
namespace Ext2

open ByteMemory MachineWord

/-- No directory has two entries in use of one name. -/
def NamesDistinct (d : Disk) : Prop :=
  ∀ n e e', LiveIn d n e → LiveIn d n e' → entryName d.data e = entryName d.data e' → e = e'

section

variable {d d' : Disk} {n p e : Nat} {name : CString}

/-! ## Lookups -/

/-- An entry in use has a name. -/
theorem LiveIn.name_ne_nil (hl : LiveIn d n e) : entryName d.data e ≠ [] := by
  obtain ⟨-, i, -, -, he⟩ := hl
  have hpos := (mem_liveEntries.mp he).2
  rw [← length_entryName] at hpos
  exact List.length_pos_iff.mp hpos

/-- The name of an entry in use is found. -/
theorem LiveIn.exists_find (hl : LiveIn d n e) :
    ∃ e', findMatchingEntry d n (entryName d.data e) = some e' := by
  obtain ⟨-, i, hi, hne, he⟩ := hl
  refine Option.ne_none_iff_exists'.mp fun hnone => ?_
  rw [findMatchingEntry_eq, List.findSome?_eq_none_iff] at hnone
  have hslot := hnone i (List.mem_range.mpr hi)
  rw [slotEntry, if_neg hne, List.find?_eq_none] at hslot
  exact hslot e (mem_liveEntries.mp he).1 (by simp)

/-- **A lookup finds exactly the entry in use of that name.** -/
theorem NamesDistinct.find_iff (h : NamesDistinct d) (hn : IsDirInode d n) (hname : name ≠ []) :
    findMatchingEntry d n name = some e ↔ LiveIn d n e ∧ entryName d.data e = name := by
  refine ⟨liveIn_of_find hn hname, ?_⟩
  rintro ⟨hl, rfl⟩
  obtain ⟨e', hfind⟩ := hl.exists_find
  obtain ⟨hl', hsame⟩ := liveIn_of_find hn hname hfind
  rw [hfind, h n e' e hl' hl hsame]

theorem NamesDistinct.resolve_iff (h : NamesDistinct d) (hn : IsDirInode d n) (hname : name ≠ [])
    {found : Nat × CString × Nat × Nat} :
    resolve d n name = some found ↔
      LiveIn d n found.1 ∧ entryBinding d.data found.1 = found.2 ∧ found.2.1 = name := by
  obtain ⟨e, binding⟩ := found
  rw [resolve, Option.map_eq_some_iff]
  constructor
  · rintro ⟨e', hfind, heq⟩
    obtain ⟨rfl, rfl⟩ := Prod.mk.inj heq
    obtain ⟨hl, hname'⟩ := (h.find_iff hn hname).mp hfind
    exact ⟨hl, rfl, hname'⟩
  · rintro ⟨hl, hb, hname'⟩
    dsimp only at hl hb hname'
    subst hb
    exact ⟨e, (h.find_iff hn hname).mpr ⟨hl, hname'⟩, rfl⟩

/-- Lookups agree where the entries in use of that name do. -/
theorem NamesDistinct.resolve_congr (h : NamesDistinct d) (h' : NamesDistinct d')
    (hn : IsDirInode d n) (hn' : IsDirInode d' n) (hname : name ≠ [])
    (hlive : ∀ e, LiveIn d' n e ∧ entryName d'.data e = name ↔
      LiveIn d n e ∧ entryName d.data e = name)
    (hkept : ∀ e, LiveIn d n e → entryBinding d'.data e = entryBinding d.data e) :
    resolve d' n name = resolve d n name := by
  refine Option.ext fun found => ?_
  obtain ⟨e, binding⟩ := found
  rw [h.resolve_iff hn hname, h'.resolve_iff hn' hname]
  constructor
  · rintro ⟨hl, hb, hfound⟩
    have hold := (hlive e).mp ⟨hl, by rw [← hfound, ← hb]; rfl⟩
    exact ⟨hold.1, by rw [← hkept e hold.1, hb], hfound⟩
  · rintro ⟨hl, hb, hfound⟩
    have hnew := (hlive e).mpr ⟨hl, by rw [← hfound, ← hb]; rfl⟩
    exact ⟨hnew.1, by rw [hkept e hl, hb], hfound⟩

theorem NamesDistinct.resolve_eq_none (h : NamesDistinct d) (hn : IsDirInode d n)
    (hname : name ≠ []) (habsent : ∀ e, LiveIn d n e → entryName d.data e ≠ name) :
    resolve d n name = none := by
  refine Option.eq_none_iff_forall_not_mem.mpr fun found hfound => ?_
  obtain ⟨hl, hb, rfl⟩ := (h.resolve_iff hn hname).mp hfound
  exact habsent found.1 hl (by rw [← hb]; rfl)

/-! ## One entry more -/

namespace EntriesAdded

variable {added : Set (Nat × Nat)}

theorem entryName_eq (h : EntriesAdded d d' added) (hl : LiveIn d n e) :
    entryName d'.data e = entryName d.data e := entryName_eq_of_binding (h.kept n e hl)

/-- With fewer entries the names are still distinct. -/
theorem namesDistinct_before (h : EntriesAdded d d' added) (hd' : NamesDistinct d') :
    NamesDistinct d := by
  intro n e e' hl hl' heq
  refine hd' n e e' ((h.live n e).mpr (.inl hl)) ((h.live n e').mpr (.inl hl')) ?_
  rw [h.entryName_eq hl, h.entryName_eq hl', heq]

/-- With a new name more the names are still distinct. -/
theorem namesDistinct_after (h : EntriesAdded d d' {(p, e)}) (hd : NamesDistinct d)
    (hnew : ∀ e', LiveIn d p e' → entryName d.data e' ≠ entryName d'.data e) :
    NamesDistinct d' := by
  intro n e₁ e₂ hl₁ hl₂ heq
  rcases (h.live n e₁).mp hl₁ with hl₁ | hadd₁
  · rcases (h.live n e₂).mp hl₂ with hl₂ | hadd₂
    · rw [h.entryName_eq hl₁, h.entryName_eq hl₂] at heq
      exact hd n e₁ e₂ hl₁ hl₂ heq
    · obtain ⟨rfl, rfl⟩ := Prod.mk.inj hadd₂
      rw [h.entryName_eq hl₁] at heq
      exact absurd heq (hnew e₁ hl₁)
  · obtain ⟨rfl, rfl⟩ := Prod.mk.inj hadd₁
    rcases (h.live n e₂).mp hl₂ with hl₂ | hadd₂
    · rw [h.entryName_eq hl₂] at heq
      exact absurd heq.symm (hnew e₂ hl₂)
    · exact (Prod.mk.inj hadd₂).2.symm

variable (h : EntriesAdded d d' {(p, e)}) (hd' : NamesDistinct d')
include h hd'

/-- Every other lookup is the same before and after. -/
theorem lookup_other (hn : IsDirInode d n) (hn' : IsDirInode d' n) (hname : name ≠ [])
    (hother : ¬ (n = p ∧ name = entryName d'.data e)) :
    resolve d' n name = resolve d n name := by
  refine (h.namesDistinct_before hd').resolve_congr hd' hn hn' hname (fun e' => ?_)
    fun e' hl => h.kept n e' hl
  constructor
  · rintro ⟨hl, rfl⟩
    rcases (h.live n e').mp hl with hl | hadd
    · exact ⟨hl, (h.entryName_eq hl).symm⟩
    · obtain ⟨rfl, rfl⟩ := Prod.mk.inj hadd
      exact absurd ⟨rfl, rfl⟩ hother
  · rintro ⟨hl, rfl⟩
    exact ⟨(h.live n e').mpr (.inl hl), h.entryName_eq hl⟩

/-- Before, the name is not found. -/
theorem lookup_before (hp : IsDirInode d p) : resolve d p (entryName d'.data e) = none := by
  have hl : LiveIn d' p e := (h.live p e).mpr (.inr rfl)
  refine (h.namesDistinct_before hd').resolve_eq_none hp hl.name_ne_nil fun e' hl' heq => ?_
  have hsame : e' = e := hd' p e' e ((h.live p e').mpr (.inl hl')) hl (by
    rw [h.entryName_eq hl', heq])
  exact h.fresh (p, e) rfl (hsame ▸ hl')

end EntriesAdded

end

/-! ## The small image -/

theorem smallImage_namesDistinct : NamesDistinct smallImage := by
  intro m e e' hl hl' heq
  obtain ⟨-, he⟩ := smallDisk_liveIn hl
  obtain ⟨-, he'⟩ := smallDisk_liveIn hl'
  have hinj : ∀ x ∈ [23552, 23564, 23576], ∀ y ∈ [23552, 23564, 23576],
      entryName smallImage.data x = entryName smallImage.data y → x = y := by decide +kernel
  exact hinj e he e' he' heq

theorem smallImage_live {e : Nat} (he : e ∈ [23552, 23564, 23576]) : LiveIn smallImage 2 e := by
  refine ⟨smallImage_consistent.root, 0, by decide, by decide, ?_⟩
  have hentries : liveEntries smallImage.data (getBlock (getInodeBlockNumber smallImage 2 0))
      = [23552, 23564, 23576] := smallData_entries
  rwa [hentries]

end Ext2
end OsAssignments
