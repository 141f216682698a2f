import OsAssignments.Paging.Bitmap

/-!
# Runs of the swap bitmap

* `bitmapTranslate`, `bitmapMark`, `bitmapUnmark`, `bitmapIsset` — the other functions of
  `swap.c`'s bitmap, again with their assertions.
* `Tracks` — the bitmap stores a set of marked indices: exactly the others below `nbits` are clear.
* `Reached` — what a sequence of calls leads to, and the indices that it has marked.
* `swapSlots_exact` — in every reached state each call does to the set what it should, and no
  assertion fires.
-/

namespace OsAssignments
namespace Paging

open MachineWord

/-! ## The functions -/

/-- `bitmap_translate`: the word and the mask of a bit. -/
def bitmapTranslate (bitno : Nat) : Nat × BitVec 32 :=
  (bitno / bitsPerWord, bit (bitno % bitsPerWord))

/-- `bitmap_isset`. -/
def bitmapIsset (b : Bitmap) (index : Nat) : Bool :=
  let (ix, mask) := bitmapTranslate index
  hasFlag (b.v ix) mask

/-- `bitmap_mark`. -/
def bitmapMark (b : Bitmap) (index : Nat) : Except Fault Bitmap :=
  if index < b.nbits then
    let (ix, mask) := bitmapTranslate index
    if hasFlag (b.v ix) mask then .error .assertion
    else .ok { b with v := Function.update b.v ix (b.v ix ||| mask) }
  else .error .assertion

/-- `bitmap_unmark`. -/
def bitmapUnmark (b : Bitmap) (index : Nat) : Except Fault Bitmap :=
  if index < b.nbits then
    let (ix, mask) := bitmapTranslate index
    if hasFlag (b.v ix) mask then
      .ok { b with v := Function.update b.v ix (b.v ix &&& ~~~mask) }
    else .error .assertion
  else .error .assertion

section

variable {b b' : Bitmap} {nbits i : Nat} {marks : Finset Nat}

theorem bitmapIsset_eq (b : Bitmap) (i : Nat) : bitmapIsset b i = b.marked i :=
  hasFlag_bit _ (Nat.mod_lt i (by decide))

theorem marked_clear_bit (b : Bitmap) {ix offset : Nat} (ho : offset < bitsPerWord) (i : Nat) :
    ({ b with v := Function.update b.v ix (b.v ix &&& ~~~bit offset) } : Bitmap).marked i =
      (b.marked i && decide (i ≠ ix * bitsPerWord + offset)) := by
  rw [marked_update]
  by_cases hi : i / bitsPerWord = ix
  · rw [if_pos hi, getLsbD_clear_bit _ (show offset < 32 from ho), Bitmap.marked, hi]
    simp [eq_index_iff ho, hi]
  · rw [if_neg hi]
    simp [eq_index_iff ho, hi]

theorem div_mul_add_mod (i : Nat) : i / bitsPerWord * bitsPerWord + i % bitsPerWord = i := by
  rw [Nat.mul_comm]
  exact Nat.div_add_mod i bitsPerWord

/-! ## What the bitmap stores -/

/-- The bitmap has `nbits` indices, and those of `marks` are marked. -/
structure Tracks (b : Bitmap) (nbits : Nat) (marks : Finset Nat) : Prop where
  nbits_eq : b.nbits = nbits
  slots_eq : b.slots = Finset.range nbits \ marks
  below : nbits ≤ b.words * bitsPerWord

namespace Tracks

theorem created (hle : nbits ≤ 2 ^ 32 - 32) :
    ∃ b, bitmapCreate nbits = .ok b ∧ Tracks b nbits ∅ := by
  obtain ⟨b, hrun, hnbits, -⟩ := bitmapCreate_ok (show nbits < 2 ^ 32 by omega)
  refine ⟨b, hrun, hnbits, ?_, ?_⟩
  · rw [slots_of_bitmapCreate hle hrun, Finset.sdiff_empty]
  · rw [Bitmap.words, hnbits, divRoundUp_of_le hle, bitsPerWord_eq]
    omega

variable (h : Tracks b nbits marks)
include h

theorem clear_iff {j : Nat} (hj : j < b.words * bitsPerWord) :
    b.marked j = false ↔ j < nbits ∧ j ∉ marks := by
  have hmem : j ∈ b.slots ↔ j < nbits ∧ j ∉ marks := by
    rw [h.slots_eq, Finset.mem_sdiff, Finset.mem_range]
  rwa [Bitmap.mem_slots, and_iff_right hj] at hmem

/-- An index is marked exactly if its bit is set. -/
theorem isset_iff (hi : i < nbits) : bitmapIsset b i = true ↔ i ∈ marks := by
  rw [bitmapIsset_eq, ← not_iff_not, Bool.not_eq_true, h.clear_iff (hi.trans_le h.below),
    and_iff_right hi]

theorem tailMarked : b.TailMarked := fun i hi => by
  rw [h.slots_eq, Finset.mem_sdiff, Finset.mem_range] at hi
  exact h.nbits_eq ▸ hi.1

/-- Other bits in words of the same number. -/
theorem of_clear {marks' : Finset Nat} (hn : b'.nbits = b.nbits)
    (hclear : ∀ j, j < b.words * bitsPerWord →
      (b'.marked j = false ↔ j < nbits ∧ j ∉ marks')) : Tracks b' nbits marks' := by
  have hwords : b'.words = b.words := by rw [Bitmap.words, hn, Bitmap.words]
  refine ⟨hn.trans h.nbits_eq, ?_, hwords ▸ h.below⟩
  ext j
  have hbelow := h.below
  rw [Bitmap.mem_slots, hwords, Finset.mem_sdiff, Finset.mem_range]
  constructor
  · rintro ⟨hj, hm⟩
    exact (hclear j hj).mp hm
  · intro hj
    have hlt : j < b.words * bitsPerWord := by omega
    exact ⟨hlt, (hclear j hlt).mpr hj⟩

/-- One bit set. -/
theorem setBit (hn : b'.nbits = b.nbits)
    (hmark : ∀ j, b'.marked j = (b.marked j || decide (j = i))) :
    Tracks b' nbits (insert i marks) := by
  refine h.of_clear hn fun j hj => ?_
  rw [hmark, Bool.or_eq_false_iff, decide_eq_false_iff_not, h.clear_iff hj, Finset.mem_insert, not_or,
    and_assoc, and_comm (a := j ∉ marks)]

/-- One bit cleared. -/
theorem clearBit (hi : i < nbits) (hn : b'.nbits = b.nbits)
    (hmark : ∀ j, b'.marked j = (b.marked j && decide (j ≠ i))) :
    Tracks b' nbits (marks.erase i) := by
  refine h.of_clear hn fun j hj => ?_
  rw [hmark, Bool.and_eq_false_iff, decide_eq_false_iff_not, not_not, h.clear_iff hj,
    Finset.mem_erase]
  by_cases hji : j = i
  · simp [hji, hi]
  · simp [hji]

/-! ## The calls -/

/-- **`bitmap_alloc` takes the lowest unmarked index.** -/
theorem alloc_lowest (hfree : ∃ j, j < nbits ∧ j ∉ marks) :
    ∃ i b', bitmapAlloc b = .ok (some i, b') ∧ IsLeast {j | j < nbits ∧ j ∉ marks} i ∧
      Tracks b' nbits (insert i marks) := by
  have hset : ∀ j, j ∈ b.slots ↔ j < nbits ∧ j ∉ marks := fun j => by
    rw [h.slots_eq, Finset.mem_sdiff, Finset.mem_range]
  obtain ⟨j, hj⟩ := hfree
  obtain ⟨i, b', hrun, hi, hmin, hn, hmark⟩ := bitmapAlloc_ok h.tailMarked ⟨j, (hset j).mpr hj⟩
  exact ⟨i, b', hrun, ⟨(hset i).mp hi, fun m hm => hmin m ((hset m).mpr hm)⟩,
    h.setBit hn hmark⟩

/-- It fails if there is none. -/
theorem alloc_full (hfull : ∀ j, j < nbits → j ∈ marks) : bitmapAlloc b = .ok (none, b) := by
  have hnone : (List.range b.words).find? (fun ix => b.v ix != wordAllbits) = none := by
    rw [List.find?_eq_none]
    intro ix hix hne
    rw [bne_iff_ne, wordAllbits_eq] at hne
    obtain ⟨o, ho, hclear⟩ := exists_clear_bit hne
    have hslot := mem_slots_of_clear (List.mem_range.mp hix) ho hclear
    rw [h.slots_eq, Finset.mem_sdiff, Finset.mem_range] at hslot
    exact hslot.2 (hfull _ hslot.1)
  rw [bitmapAlloc, hnone]

/-- `bitmap_mark` on a clear bit. -/
theorem mark_ok (hi : i < nbits) (hclear : i ∉ marks) :
    ∃ b', bitmapMark b i = .ok b' ∧ Tracks b' nbits (insert i marks) := by
  have hflag : hasFlag (b.v (i / bitsPerWord)) (bit (i % bitsPerWord)) = false := by
    have hiff := h.isset_iff hi
    rw [bitmapIsset, bitmapTranslate] at hiff
    simpa [hclear] using hiff
  let marked : Bitmap := ⟨b.nbits, Function.update b.v (i / bitsPerWord)
    (b.v (i / bitsPerWord) ||| bit (i % bitsPerWord))⟩
  have hmark : ∀ j, marked.marked j = (b.marked j || decide (j = i)) := fun j => by
    rw [marked_or_bit b (Nat.mod_lt i (by decide)), div_mul_add_mod]
  refine ⟨marked, ?_, h.setBit rfl hmark⟩
  · rw [bitmapMark, if_pos (h.nbits_eq ▸ hi), bitmapTranslate]
    dsimp only
    rw [hflag]
    rfl

/-- `bitmap_unmark` on a set bit. -/
theorem unmark_ok (hi : i < nbits) (hset : i ∈ marks) :
    ∃ b', bitmapUnmark b i = .ok b' ∧ Tracks b' nbits (marks.erase i) := by
  have hflag : hasFlag (b.v (i / bitsPerWord)) (bit (i % bitsPerWord)) = true := by
    have hiff := h.isset_iff hi
    rw [bitmapIsset, bitmapTranslate] at hiff
    simpa [hset] using hiff
  let cleared : Bitmap := ⟨b.nbits, Function.update b.v (i / bitsPerWord)
    (b.v (i / bitsPerWord) &&& ~~~bit (i % bitsPerWord))⟩
  have hclear : ∀ j, cleared.marked j = (b.marked j && decide (j ≠ i)) := fun j => by
    rw [marked_clear_bit b (Nat.mod_lt i (by decide)), div_mul_add_mod]
  refine ⟨cleared, ?_, h.clearBit hi rfl hclear⟩
  · rw [bitmapUnmark, if_pos (h.nbits_eq ▸ hi), bitmapTranslate]
    dsimp only
    rw [hflag]
    rfl

end Tracks

/-! ## Runs -/

/-- A sequence of calls after `bitmap_create`, marking clear and unmarking set indices only, leads
to `b` and leaves `marks` marked. -/
inductive Reached (nbits : Nat) : Bitmap → Finset Nat → Prop
  | created {b : Bitmap} : bitmapCreate nbits = .ok b → Reached nbits b ∅
  | allocated {b b' : Bitmap} {marks : Finset Nat} {i : Nat} : Reached nbits b marks →
      bitmapAlloc b = .ok (some i, b') → Reached nbits b' (insert i marks)
  | refused {b b' : Bitmap} {marks : Finset Nat} : Reached nbits b marks →
      bitmapAlloc b = .ok (none, b') → Reached nbits b' marks
  | marked {b b' : Bitmap} {marks : Finset Nat} {i : Nat} : Reached nbits b marks →
      i < nbits → i ∉ marks → bitmapMark b i = .ok b' → Reached nbits b' (insert i marks)
  | unmarked {b b' : Bitmap} {marks : Finset Nat} {i : Nat} : Reached nbits b marks →
      i < nbits → i ∈ marks → bitmapUnmark b i = .ok b' → Reached nbits b' (marks.erase i)

/-- Every bitmap reached stores the indices marked. -/
theorem Reached.tracks (hle : nbits ≤ 2 ^ 32 - 32) (h : Reached nbits b marks) :
    Tracks b nbits marks := by
  induction h with
  | created hrun =>
    obtain ⟨b₀, hrun₀, htracks⟩ := Tracks.created hle
    obtain rfl : b₀ = _ := Except.ok.inj (hrun₀.symm.trans hrun)
    exact htracks
  | @allocated b b' marks i _ hrun ih =>
    by_cases hfree : ∃ j, j < nbits ∧ j ∉ marks
    · obtain ⟨i', b₁, hrun', -, htracks⟩ := ih.alloc_lowest hfree
      rw [hrun] at hrun'
      cases hrun'
      exact htracks
    · push Not at hfree
      rw [ih.alloc_full hfree] at hrun
      cases hrun
  | @refused b b' marks _ hrun ih =>
    by_cases hfree : ∃ j, j < nbits ∧ j ∉ marks
    · obtain ⟨i', b₁, hrun', -⟩ := ih.alloc_lowest hfree
      rw [hrun] at hrun'
      cases hrun'
    · push Not at hfree
      rw [ih.alloc_full hfree] at hrun
      cases hrun
      exact ih
  | marked _ hi hclear hrun ih =>
    obtain ⟨b₁, hrun', htracks⟩ := ih.mark_ok hi hclear
    rw [hrun] at hrun'
    cases hrun'
    exact htracks
  | unmarked _ hi hset hrun ih =>
    obtain ⟨b₁, hrun', htracks⟩ := ih.unmark_ok hi hset
    rw [hrun] at hrun'
    cases hrun'
    exact htracks

/-- What the next call does: no assertion fires, `bitmap_alloc` takes the lowest unmarked index and
fails exactly if there is none, and a call marks or unmarks its own index only. -/
structure CallsExact (b : Bitmap) (nbits : Nat) (marks : Finset Nat) : Prop where
  isset : ∀ i, i < nbits → (bitmapIsset b i = true ↔ i ∈ marks)
  alloc : ∃ result b', bitmapAlloc b = .ok (result, b') ∧
    (∀ i, result = some i → IsLeast {j | j < nbits ∧ j ∉ marks} i ∧
      ∀ j, j < nbits → (bitmapIsset b' j = true ↔ j = i ∨ j ∈ marks)) ∧
    (result = none ↔ ∀ j, j < nbits → j ∈ marks) ∧ (result = none → b' = b)
  mark : ∀ i, i < nbits → i ∉ marks → ∃ b', bitmapMark b i = .ok b' ∧
    ∀ j, j < nbits → (bitmapIsset b' j = true ↔ j = i ∨ j ∈ marks)
  unmark : ∀ i, i < nbits → i ∈ marks → ∃ b', bitmapUnmark b i = .ok b' ∧
    ∀ j, j < nbits → (bitmapIsset b' j = true ↔ j ≠ i ∧ j ∈ marks)

theorem Tracks.callsExact (h : Tracks b nbits marks) : CallsExact b nbits marks := by
  refine ⟨fun i hi => h.isset_iff hi, ?_, fun i hi hclear => ?_, fun i hi hset => ?_⟩
  · by_cases hfree : ∃ j, j < nbits ∧ j ∉ marks
    · obtain ⟨i, b', hrun, hleast, htracks⟩ := h.alloc_lowest hfree
      refine ⟨some i, b', hrun, fun i' hi' => ?_, iff_of_false nofun fun hfull => ?_, nofun⟩
      · cases hi'
        exact ⟨hleast, fun j hj => by rw [htracks.isset_iff hj, Finset.mem_insert]⟩
      · obtain ⟨j, hj, hnot⟩ := hfree
        exact hnot (hfull j hj)
    · push Not at hfree
      exact ⟨none, b, h.alloc_full hfree, nofun, iff_of_true rfl hfree, fun _ => rfl⟩
  · obtain ⟨b', hrun, htracks⟩ := h.mark_ok hi hclear
    exact ⟨b', hrun, fun j hj => by rw [htracks.isset_iff hj, Finset.mem_insert]⟩
  · obtain ⟨b', hrun, htracks⟩ := h.unmark_ok hi hset
    exact ⟨b', hrun, fun j hj => by rw [htracks.isset_iff hj, Finset.mem_erase]⟩

/-- **Swap slots never collide and never run out early**: `bitmap_create` succeeds, and in every
state reached the next call is exact. -/
theorem swapSlots_exact (hle : nbits ≤ 2 ^ 32 - 32) :
    (∃ b, bitmapCreate nbits = .ok b) ∧
      ∀ b marks, Reached nbits b marks → CallsExact b nbits marks := by
  obtain ⟨b, hrun, -⟩ := Tracks.created hle
  exact ⟨⟨b, hrun⟩, fun b marks h => (h.tracks hle).callsExact⟩

theorem swapSlots_example : (∃ b, bitmapCreate 33 = .ok b) ∧
    ∀ b marks, Reached 33 b marks → CallsExact b 33 marks :=
  swapSlots_exact (by decide)

end

end Paging
end OsAssignments
