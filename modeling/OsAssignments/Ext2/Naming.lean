import OsAssignments.Ext2.Names

/-!
# The entries that name an inode

* `naming d n` — the entries in use that name inode `n`, each with its directory.
* `ConsistentAs.naming_finite`, `ConsistentAs.ncard_naming_le` — there are at most as many as the
  blocks of the mapping can hold, so a link count that counts them does not overflow.
* `EntriesAdded.naming_eq` — one entry more names one inode more often.
-/

namespace OsAssignments
namespace Ext2

open ByteMemory MachineWord RecordTiling

/-- The entries in use that name inode `n`, each with its directory. -/
def naming (d : Disk) (n : Nat) : Set (Nat × Nat) :=
  {q | LiveIn d q.1 q.2 ∧ entryInode d.data q.2 = n}

theorem mem_naming {d : Disk} {n m e : Nat} :
    (m, e) ∈ naming d n ↔ LiveIn d m e ∧ entryInode d.data e = n := Iff.rfl

section

variable {pad : Bool} {d d' : Disk} {n m m' p e : Nat}

/-! ## Places -/

theorem aligned_of_tiles {mem : Memory} {lo hi : Nat} {es : List Nat}
    (h : Tiles (entryRecLen mem) (EntryFits pad mem) lo es hi) (hlo : 4 ∣ lo) (he : e ∈ es) :
    4 ∣ e := by
  induction es generalizing lo with
  | nil => cases he
  | cons r es ih =>
    obtain ⟨rfl, -, hfit, hrest⟩ := h
    rcases List.mem_cons.mp he with rfl | he
    · exact hlo
    · exact ih hrest (hlo.add hfit.aligned) he

/-- An entry in use starts at a multiple of 4 inside the mapping. -/
theorem ConsistentAs.live_place (h : ConsistentAs pad d) (hl : LiveIn d m e) :
    ∃ k, k < 32768 ∧ e = 4 * k := by
  obtain ⟨c, hc, hT, he⟩ := h.block_of_live hl
  have hlt := (h.sound.inUse_of_mem hl.1.1.1 hc).lt
  have hmapped := h.sound.toCounted.blocks_le
  have hin := mem_block_of_live he
  rw [getBlock_eq, ext2BlockSize_eq] at hin
  obtain ⟨k, rfl⟩ := aligned_of_tiles hT (by rw [getBlock_eq]; omega) (mem_liveEntries.mp he).1
  exact ⟨k, by omega, rfl⟩

/-- An entry in use belongs to one directory. -/
theorem ConsistentAs.live_unique (h : ConsistentAs pad d) (hl : LiveIn d m e) (hl' : LiveIn d m' e) :
    m = m' := by
  obtain ⟨c, hc, -, he⟩ := h.block_of_live hl
  obtain ⟨c', hc', -, he'⟩ := h.block_of_live hl'
  have hin := mem_block_of_live he
  have hin' := mem_block_of_live he'
  rw [getBlock_eq, ext2BlockSize_eq] at hin hin'
  obtain rfl : c = c' := by omega
  by_contra hne
  exact Set.disjoint_left.mp (h.sound.disjoint_blocksOf hl.1.1.1 hl'.1.1.1 hne) hc hc'

/-! ## Counts -/

theorem ConsistentAs.naming_injOn (h : ConsistentAs pad d) (n : Nat) :
    Set.InjOn (fun q : Nat × Nat => q.2 / 4) (naming d n) := by
  rintro ⟨m, e⟩ ⟨hl, -⟩ ⟨m', e'⟩ ⟨hl', -⟩ heq
  obtain ⟨k, -, hk⟩ := h.live_place hl
  obtain ⟨k', -, hk'⟩ := h.live_place hl'
  dsimp only at hl hl' hk hk' heq
  obtain rfl : e = e' := by omega
  rw [h.live_unique hl hl']

theorem ConsistentAs.naming_mapsTo (h : ConsistentAs pad d) (n : Nat) :
    Set.MapsTo (fun q : Nat × Nat => q.2 / 4) (naming d n) (Finset.range 32768) := by
  rintro ⟨m, e⟩ ⟨hl, -⟩
  obtain ⟨k, hlt, hk⟩ := h.live_place hl
  dsimp only at hk ⊢
  rw [Finset.mem_coe, Finset.mem_range]
  omega

theorem ConsistentAs.naming_finite (h : ConsistentAs pad d) (n : Nat) : (naming d n).Finite :=
  Set.Finite.of_injOn (h.naming_mapsTo n) (h.naming_injOn n) (Finset.finite_toSet _)

/-- **No inode has more names than the blocks can hold.** -/
theorem ConsistentAs.ncard_naming_le (h : ConsistentAs pad d) (n : Nat) :
    (naming d n).ncard ≤ 32768 := by
  have hle := Set.ncard_le_ncard_of_injOn _ (h.naming_mapsTo n) (h.naming_injOn n)
    (Finset.finite_toSet _)
  rwa [Set.ncard_coe_finset, Finset.card_range] at hle

/-- One entry more names one inode more often. -/
theorem EntriesAdded.naming_eq (h : EntriesAdded d d' {(p, e)}) (n : Nat) :
    naming d' n = if entryInode d'.data e = n then insert (p, e) (naming d n) else naming d n := by
  have hkept : ∀ m x, LiveIn d m x → entryInode d'.data x = entryInode d.data x := fun m x hl =>
    congrArg (fun b => b.2.1) (h.kept m x hl)
  have hmem : ∀ m x, (m, x) ∈ naming d' n ↔
      (m, x) ∈ naming d n ∨ ((m, x) = (p, e) ∧ entryInode d'.data e = n) := by
    intro m x
    rw [mem_naming, mem_naming, h.live]
    constructor
    · rintro ⟨hl | hadd, hn⟩
      · exact .inl ⟨hl, (hkept m x hl).symm.trans hn⟩
      · obtain ⟨rfl, rfl⟩ := Prod.mk.inj hadd
        exact .inr ⟨rfl, hn⟩
    · rintro (⟨hl, hn⟩ | ⟨hadd, hn⟩)
      · exact ⟨.inl hl, (hkept m x hl).trans hn⟩
      · obtain ⟨rfl, rfl⟩ := Prod.mk.inj hadd
        exact ⟨.inr rfl, hn⟩
  ext ⟨m, x⟩
  rw [hmem]
  split
  · rename_i hn
    rw [Set.mem_insert_iff, and_iff_left hn, or_comm]
  · rename_i hn
    exact or_iff_left fun hand => hn hand.2

end

/-! ## The small image -/

theorem ncard_smallImage_naming (n : Nat) : (naming smallImage n).ncard =
    (({23552, 23564, 23576} : Finset Nat).filter fun e => entryInode smallImage.data e = n).card := by
  have hset : naming smallImage n = ((({23552, 23564, 23576} : Finset Nat).filter fun e =>
      entryInode smallImage.data e = n).image (Prod.mk 2) : Finset (Nat × Nat)) := by
    ext ⟨m, e⟩
    rw [mem_naming, Finset.mem_coe, Finset.mem_image]
    constructor
    · rintro ⟨hl, hn⟩
      obtain ⟨rfl, he⟩ := smallDisk_liveIn hl
      exact ⟨e, Finset.mem_filter.mpr ⟨by simpa using he, hn⟩, rfl⟩
    · rintro ⟨x, hx, heq⟩
      obtain ⟨rfl, rfl⟩ := Prod.mk.inj heq
      obtain ⟨hmem, hn⟩ := Finset.mem_filter.mp hx
      exact ⟨smallImage_live (by simpa using hmem), hn⟩
  rw [hset, Set.ncard_coe_finset, Finset.card_image_of_injective _ (Prod.mk_right_injective 2)]

end Ext2
end OsAssignments
