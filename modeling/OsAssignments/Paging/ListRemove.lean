import OsAssignments.Paging.CList

/-!
# Where `listRemove` is exact

The index of `listRemove` is an `int` and the count a `size_t`, in the check of the index as in
the loop; both `opt.c` and `list.h` have this function.

* `CList.WellFormed` — the lists that `makeList` and `listAppend` build.
* `shiftDown_error`, `listRemove_error` — a loop whose end is no `int` leaves the array.
* `listRemove_exact_iff` — the function is exact for negative indices and for lists of 1 to
  `2 ^ 31` values.
-/

namespace OsAssignments
namespace Paging

open MachineWord

section

variable {α : Type}

/-- A list as `makeList` and `listAppend` build it: an array of `capacity` slots, of which `count`
are in use. -/
structure CList.WellFormed (list : CList α) : Prop where
  slots : list.contents.length = list.capacity
  fits : list.count ≤ list.capacity
  size : list.capacity < 2 ^ 64

/-! ## Beyond the largest `int` -/

variable {list : CList α} {index : Int}

/-- A loop whose end is no `int` does not get there. -/
theorem shiftDown_error {n i : Nat} (hi : i < 2 ^ 31) (hend : 2 ^ 31 ≤ i + n) (list : CList α) :
    ∃ e, shiftDown n i list = .error e := by
  induction n generalizing i list with
  | zero => omega
  | succ n ih =>
    rw [shiftDown]
    rcases Nat.lt_or_ge (i + 1) (2 ^ 31) with hnext | hlast
    · rw [incr_natCast hnext, slotAt_natCast]
      cases hslot : list.slot (i + 1) with
      | error e => exact ⟨e, rfl⟩
      | ok v =>
        rw [bind_of_ok rfl]
        cases hset : list.setSlot (i : Int).toNat v with
        | error e => exact ⟨e, rfl⟩
        | ok moved =>
          rw [bind_of_ok rfl]
          exact ih hnext (by omega) moved
    · -- the `int` wraps, and the next slot has a negative index
      have hwrap : incr (i : Int) = -2 ^ 31 := by
        rw [show (i : Int) = 2 ^ 31 - 1 by omega, incr_maxInt]
      have hslot : list.slotAt (incr i) = .error .outOfBounds := by
        rw [hwrap, CList.slotAt, if_pos (by decide)]
      exact ⟨.outOfBounds, by rw [hslot]; rfl⟩

/-- Without an `int` for the last index `listRemove` does not return. -/
theorem listRemove_error (hnonneg : 0 ≤ index) (hint : index < 2 ^ 31)
    (hlast : 2 ^ 31 ≤ list.lastIndex) : ∃ e, listRemove list index = .error e := by
  obtain ⟨i, rfl⟩ := Int.eq_ofNat_of_zero_le hnonneg
  have hwrap : wrap 64 (i : Int) = i := wrap_of_lt (by omega)
  rw [listRemove, hwrap, if_neg (by omega), slotAt_natCast]
  cases list.slot i with
  | error e => exact ⟨e, rfl⟩
  | ok deleted =>
    obtain ⟨e, he⟩ := shiftDown_error (i := i) (n := list.lastIndex - i) (by omega) (by omega) list
    exact ⟨e, by rw [bind_of_ok rfl, he]; rfl⟩

/-! ## Exactness -/

/-- `listRemove` takes out the value at an index of the list, and nothing at any other. -/
structure RemovesExactly (list : CList α) (index : Int) : Prop where
  inside : 0 ≤ index → index < list.count → ∃ list',
    listRemove list index = .ok (list.contents.getD index.toNat none, list') ∧
      list'.count + 1 = list.count ∧ list'.capacity = list.capacity ∧
      list'.contents = (list.contents.take list.count).eraseIdx index.toNat ++
        none :: list.contents.drop list.count
  outside : ¬ (0 ≤ index ∧ index < list.count) → listRemove list index = .ok (none, list)

/-- A value of the list is taken out. -/
theorem CList.WellFormed.listRemove_inside (h : list.WellFormed) (hcount : list.count ≤ 2 ^ 31)
    {i : Nat} (hin : i < list.count) :
    listRemove list i = .ok (list.contents.getD i none, { list with
      contents := (list.contents.take list.count).eraseIdx i ++ none :: list.contents.drop list.count,
      count := list.count - 1 }) := by
  have hslots := h.slots
  have hfits := h.fits
  have hi : i < (list.contents.take list.count).length := by
    rw [List.length_take]
    omega
  -- the values before the index, the value, those behind it, and the unused slots
  have hsplit : list.contents = (list.contents.take list.count).take i ++
      (list.contents.take list.count)[i] ::
        ((list.contents.take list.count).drop (i + 1) ++ list.contents.drop list.count) := by
    rw [← List.cons_append, ← List.drop_eq_getElem_cons hi, ← List.append_assoc,
      List.take_append_drop, List.take_append_drop]
  have hpre : ((list.contents.take list.count).take i).length = i := by
    rw [List.length_take]
    omega
  have hpost : ((list.contents.take list.count).drop (i + 1)).length = list.count - (i + 1) := by
    rw [List.length_drop, List.length_take]
    omega
  have hvalue : (list.contents.take list.count)[i] = list.contents.getD i none := by
    rw [List.getElem_take, List.getD_eq_getElem _ _ (by omega)]
  have hremove := listRemove_slots hsplit (by omega) hcount
  rw [hpre, hpost, hvalue, show i + (list.count - (i + 1)) = list.count - 1 by omega] at hremove
  rw [hremove, List.eraseIdx_eq_take_drop_succ]

variable (hint : -2 ^ 31 ≤ index ∧ index < 2 ^ 31)
include hint

/-- **`listRemove` is exact** for negative indices and for lists of 1 to `2 ^ 31` values. -/
theorem listRemove_exact_iff (h : list.WellFormed) :
    RemovesExactly list index ↔ index < 0 ∨ (0 < list.count ∧ list.count ≤ 2 ^ 31) := by
  have hsize := h.fits.trans_lt h.size
  rcases Int.lt_or_le index 0 with hneg | hnonneg
  · refine iff_of_true ⟨fun hge => absurd hneg (by omega), fun _ => ?_⟩ (.inl hneg)
    rw [listRemove, if_pos (.inl hneg)]
  rw [or_iff_right (by omega)]
  constructor
  · intro hexact
    by_contra hbad
    have hlarge : 2 ^ 31 ≤ list.lastIndex := by
      rcases Nat.eq_zero_or_pos list.count with hzero | hpos
      · rw [CList.lastIndex, hzero]
        decide
      · rw [lastIndex_eq (n := list.count - 1) (by omega) (by omega)]
        omega
    obtain ⟨e, he⟩ := listRemove_error hnonneg hint.2 hlarge
    by_cases hin : index < list.count
    · obtain ⟨list', hrun, -⟩ := hexact.inside hnonneg hin
      rw [he] at hrun
      cases hrun
    · have hrun := hexact.outside fun hand => hin hand.2
      rw [he] at hrun
      cases hrun
  · rintro ⟨hpos, hcount⟩
    obtain ⟨i, rfl⟩ := Int.eq_ofNat_of_zero_le hnonneg
    refine ⟨fun _ hin => ⟨_, h.listRemove_inside hcount (by omega), ?_, rfl, rfl⟩, fun hout => ?_⟩
    · exact Nat.sub_add_cancel hpos
    · have hlast : list.lastIndex = list.count - 1 := lastIndex_eq (by omega) (by omega)
      have hwrap : wrap 64 (i : Int) = i := wrap_of_lt (by omega)
      rw [listRemove, hlast, hwrap, if_pos (.inr (by omega))]

end

/-- A list of one value. -/
theorem listRemove_exact_example : RemovesExactly (⟨[some 7], 1, 1⟩ : CList Nat) 0 :=
  (listRemove_exact_iff (by decide) ⟨by decide, by decide, by decide⟩).mpr (.inr (by decide))

/-- On the empty list the bounds check accepts index 0, since `count - 1` is the largest
`size_t`. -/
theorem listRemove_empty : (makeList 1 : CList Nat).WellFormed ∧
    ¬ RemovesExactly (makeList 1 : CList Nat) 0 := by
  refine ⟨⟨by decide, by decide, by decide⟩, fun hexact => ?_⟩
  have hrun := hexact.outside (by decide)
  have hfault : listRemove (makeList 1 : CList Nat) 0 = .error .outOfBounds := by
    decide +kernel
  rw [hfault] at hrun
  cases hrun

end Paging
end OsAssignments
