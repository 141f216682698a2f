import OsAssignments.Paging.Bitmap

/-!
# The dynamic array of `opt.c`

* `CList` with `makeList`, `listAppend`, `listFind`, `listRemove`, `listDelete`,
  `listPop`, `listPeek` — the array list, with every access to a slot checked.
* `CList.Repr` — the list stores these values: its array holds them followed by
  `NULL`s.  One lemma per operation says what it returns and stores.

`Nat` stands for `size_t` and `Int` for `int`.  A count less one is taken modulo
`2 ^ 64`, and the `int`s that count slots wrap; so the lemmas are about lists of at
most `2 ^ 31` values.
-/

namespace OsAssignments
namespace Paging

open MachineWord

/-! ## The dynamic array -/

/-- `List`; `none` is a slot that is `NULL` or that nothing was stored in. -/
structure CList (α : Type) where
  contents : List (Option α)
  count : Nat
  capacity : Nat
  deriving DecidableEq

section

variable {α : Type}

/-- `initNullContents`. -/
def initNullContents (size : Nat) : List (Option α) := List.replicate size none

/-- `makeList`. -/
def makeList (size : Nat) : CList α := ⟨initNullContents size, 0, size⟩

/-- `transferContents`. -/
def transferContents (oldSize newSize : Nat) (oldContents : List (Option α)) : List (Option α) :=
  oldContents.take (intPasses oldSize) ++ (initNullContents newSize).drop (intPasses oldSize)

/-- Read a slot. -/
def CList.slot (list : CList α) (i : Nat) : Except Fault (Option α) :=
  match list.contents[i]? with
  | some v => .ok v
  | none => .error .outOfBounds

/-- Read the slot at an `int` index. -/
def CList.slotAt (list : CList α) (i : Int) : Except Fault (Option α) :=
  if i < 0 then .error .outOfBounds else list.slot i.toNat

/-- Store in a slot. -/
def CList.setSlot (list : CList α) (i : Nat) (v : Option α) : Except Fault (CList α) :=
  if i < list.contents.length then .ok { list with contents := list.contents.set i v }
  else .error .outOfBounds

/-- The first step of `listAppend`: an array that is full is moved to one of twice its size. -/
def expandIfFull (list : CList α) : CList α :=
  if list.count = list.capacity then
    let newSize := list.capacity * 2
    { list with contents := transferContents list.capacity newSize list.contents, capacity := newSize }
  else list

/-- `listAppend`. -/
def listAppend (list : CList α) (value : α) : Except Fault (CList α) := do
  let list := expandIfFull list
  let list ← list.setSlot list.count (some value)
  pure { list with count := list.count + 1 }

/-- `list->count - 1`, a `size_t`. -/
def CList.lastIndex (list : CList α) : Nat := wrap 64 (list.count - 1 : Int)

/-- The loop of `listRemove` that moves `n` slots down by one, from slot `i` on.  The slot behind
the one at the largest `int` has a negative index. -/
def shiftDown : Nat → Int → CList α → Except Fault (CList α)
  | 0, _, list => .ok list
  | n + 1, i, list => do
    let v ← list.slotAt (incr i)
    let list ← list.setSlot i.toNat v
    shiftDown n (incr i) list

/-- `listRemove`. -/
def listRemove (list : CList α) (index : Int) : Except Fault (Option α × CList α) :=
  if index < 0 ∨ list.lastIndex < wrap 64 index then .ok (none, list)
  else do
    let deleted ← list.slotAt index
    let list ← shiftDown (list.lastIndex - wrap 64 index) index list
    let list ← list.setSlot list.lastIndex none
    pure (deleted, { list with count := list.lastIndex })

/-- `listPop`. -/
def listPop (list : CList α) : Except Fault (Option α × CList α) :=
  listRemove list (toInt32 (toInt32 list.count - 1))

/-- `listPeek`. -/
def listPeek (list : CList α) : Except Fault (Option α) :=
  if list.count = 0 then .ok none else list.slot (list.count - 1)

/-- The loop of `listFind` and `findMatchingPair`: the first slot the test accepts,
among the `n` slots from slot `i` on. -/
def scanFrom (list : CList α) (test : Option α → Except Fault Bool) :
    Nat → Nat → Except Fault (Option Nat)
  | 0, _ => .ok none
  | n + 1, i => do
    let v ← list.slot i
    let found ← test v
    if found then pure (some i) else scanFrom list test n (i + 1)

variable [DecidableEq α]

/-- `listFind`. -/
def listFind (list : CList α) (value : α) : Except Fault Int := do
  match ← scanFrom list (fun v => .ok (v == some value)) (intPasses list.count) 0 with
  | some i => pure i
  | none => pure (-1)

/-- `listDelete`. -/
def listDelete (list : CList α) (value : α) : Except Fault (CList α) := do
  let ind ← listFind list value
  if ind = -1 then pure list
  else do
    let (_, list) ← listRemove list ind
    pure list

end

/-! ### What a list stores -/

/-- The list stores `xs`. -/
structure CList.Repr {α : Type} (list : CList α) (xs : List α) : Prop where
  contents : list.contents = xs.map some ++ List.replicate (list.capacity - xs.length) none
  count : list.count = xs.length
  fits : xs.length ≤ list.capacity
  pos : 0 < list.capacity

section

variable {α : Type} {list : CList α} {xs : List α}

theorem repr_makeList {size : Nat} (h : 0 < size) : (makeList size : CList α).Repr [] :=
  ⟨by simp [makeList, initNullContents], rfl, Nat.zero_le _, h⟩

namespace CList.Repr

theorem length_contents (h : list.Repr xs) : list.contents.length = list.capacity := by
  have := h.fits
  rw [h.contents, List.length_append, List.length_map, List.length_replicate]
  omega

theorem slot (h : list.Repr xs) {i : Nat} (hi : i < xs.length) :
    list.slot i = .ok (some xs[i]) := by
  have hget : list.contents[i]? = some (some xs[i]) := by
    rw [h.contents, List.getElem?_append_left (by simpa using hi), List.getElem?_map,
      List.getElem?_eq_getElem hi]
    rfl
  rw [CList.slot, hget]

end CList.Repr

theorem lastIndex_eq {n : Nat} (hcount : list.count = n + 1) (hn : n < 2 ^ 64) :
    list.lastIndex = n := by
  rw [CList.lastIndex, hcount, Nat.cast_add, Nat.cast_one, Int.add_sub_cancel, wrap_of_lt hn]

theorem slotAt_natCast (i : Nat) : list.slotAt i = list.slot i := by
  rw [CList.slotAt, if_neg (by omega), Int.toNat_natCast]

/-- Overwriting a value. -/
theorem setSlot_ok {pre post : List α} {x : α} (h : list.Repr (pre ++ x :: post)) (y : α) :
    ∃ list', list.setSlot pre.length (some y) = .ok list' ∧ list'.Repr (pre ++ y :: post) := by
  have hlen := h.length_contents
  have hfits := h.fits
  rw [List.length_append, List.length_cons] at hfits
  refine ⟨{ list with contents := list.contents.set pre.length (some y) }, ?_, ?_, ?_, ?_, h.pos⟩
  · rw [CList.setSlot, if_pos (by omega)]
  · show list.contents.set _ _ = _
    rw [h.contents]
    simp
  · show list.count = _
    rw [h.count]
    simp
  · show _ ≤ list.capacity
    rw [List.length_append, List.length_cons]
    exact hfits

/-- Storing behind the last value of an array that is not full. -/
theorem setSlot_append (h : list.Repr xs) (hlt : xs.length < list.capacity) (value : α) :
    ∃ list', list.setSlot list.count (some value) = .ok list' ∧
      ({ list' with count := list'.count + 1 } : CList α).Repr (xs ++ [value]) := by
  have hlen := h.length_contents
  refine ⟨{ list with contents := list.contents.set list.count (some value) }, ?_, ?_, ?_, ?_, h.pos⟩
  · rw [CList.setSlot, if_pos (by rw [h.count]; omega)]
  · obtain ⟨k, hk⟩ : ∃ k, list.capacity - xs.length = k + 1 := ⟨list.capacity - xs.length - 1, by omega⟩
    have hk' : list.capacity - (xs ++ [value]).length = k := by simp; omega
    show list.contents.set list.count (some value) = _
    rw [hk', h.contents, h.count, hk, List.set_append_right _ _ (by simp), List.replicate_succ]
    simp
  · simp [h.count]
  · simp
    omega

theorem expandIfFull_count (list : CList α) : (expandIfFull list).count = list.count := by
  unfold expandIfFull
  split <;> rfl

/-- A full array grows, with its values. -/
theorem CList.Repr.expandIfFull (h : list.Repr xs)
    (hsmall : xs.length = list.capacity → xs.length ≤ 2 ^ 31) :
    (expandIfFull list).Repr xs ∧ xs.length < (Paging.expandIfFull list).capacity := by
  have hfits := h.fits
  have hpos := h.pos
  unfold Paging.expandIfFull
  split
  · rename_i hfull
    rw [h.count] at hfull
    have hle := hsmall hfull
    refine ⟨⟨?_, h.count, by show xs.length ≤ list.capacity * 2; omega,
      by show 0 < list.capacity * 2; omega⟩, by show xs.length < list.capacity * 2; omega⟩
    show transferContents _ _ _ = _ ++ List.replicate (list.capacity * 2 - _) _
    rw [transferContents, initNullContents, h.contents, ← hfull, intPasses_of_le hle]
    simp
  · rename_i hroom
    rw [h.count] at hroom
    exact ⟨h, by omega⟩

/-- **Appending** grows the array when it is full. -/
theorem listAppend_ok (h : list.Repr xs) (hsmall : xs.length = list.capacity → xs.length ≤ 2 ^ 31)
    (value : α) :
    ∃ list', listAppend list value = .ok list' ∧ list'.Repr (xs ++ [value]) := by
  obtain ⟨hgrown, hroom⟩ := h.expandIfFull hsmall
  obtain ⟨list', hset, hrepr⟩ := setSlot_append hgrown hroom value
  refine ⟨_, ?_, hrepr⟩
  rw [listAppend]
  exact bind_of_ok hset

theorem listPeek_ok (h : list.Repr xs) : listPeek list = .ok xs.getLast? := by
  unfold listPeek
  rcases List.eq_nil_or_concat xs with rfl | ⟨ys, y, rfl⟩
  · rw [if_pos (by rw [h.count]; rfl)]
    rfl
  · have hcount : list.count = ys.length + 1 := by rw [h.count]; simp
    rw [if_neg (by omega), hcount, Nat.add_sub_cancel, h.slot (by simp)]
    simp

/-- The loop of `listRemove`, on the slots behind `i`. -/
theorem shiftDown_ok {pre post rest : List (Option α)} {x : Option α} :
    pre.length + post.length < 2 ^ 31 →
    ∀ {list : CList α}, list.contents = pre ++ x :: (post ++ rest) →
      ∃ y, shiftDown post.length pre.length list =
        .ok { list with contents := pre ++ post ++ y :: rest } := by
  induction post generalizing pre x with
  | nil =>
    intro _ list h
    refine ⟨x, ?_⟩
    rw [List.append_nil, ← List.nil_append rest, ← h]
    rfl
  | cons z post ih =>
    intro hsmall list h
    rw [List.length_cons] at hsmall
    have hnext : incr (pre.length : Int) = ((pre.length + 1 : Nat) : Int) :=
      incr_natCast (by omega)
    have hslot : list.slotAt ((pre.length + 1 : Nat) : Int) = .ok z := by
      rw [slotAt_natCast, CList.slot, h, List.getElem?_append_right (by simp)]
      simp
    let moved : CList α := { list with contents := list.contents.set pre.length z }
    have hset : list.setSlot pre.length z = .ok moved := by
      rw [CList.setSlot, if_pos (by rw [h]; simp)]
    have hmoved : moved.contents = pre ++ [z] ++ z :: (post ++ rest) := by
      show list.contents.set _ _ = _
      rw [h, List.set_append_right _ _ (by simp)]
      simp
    obtain ⟨y, hrun⟩ := ih (by rw [List.length_append, List.length_singleton]; omega) hmoved
    refine ⟨y, ?_⟩
    rw [List.length_append, List.length_singleton, List.append_assoc pre [z] post] at hrun
    rw [List.length_cons, shiftDown, hnext, bind_of_ok hslot, Int.toNat_natCast, bind_of_ok hset]
    exact hrun

/-- `listRemove` takes out the slot at the index and clears the last one. -/
theorem listRemove_slots {pre post rest : List (Option α)} {x : Option α}
    (h : list.contents = pre ++ x :: (post ++ rest))
    (hcount : list.count = pre.length + post.length + 1) (hsmall : list.count ≤ 2 ^ 31) :
    listRemove list pre.length = .ok (x, { list with
      contents := pre ++ post ++ none :: rest, count := pre.length + post.length }) := by
  have hlast : list.lastIndex = pre.length + post.length := lastIndex_eq hcount (by omega)
  have hslot : list.slotAt pre.length = .ok x := by
    rw [slotAt_natCast, CList.slot, h, List.getElem?_append_right (Nat.le_refl _)]
    simp
  obtain ⟨y, hshift⟩ := shiftDown_ok (by omega) h
  let moved : CList α := { list with contents := pre ++ post ++ y :: rest }
  have hmoved : moved.lastIndex = pre.length + post.length := hlast
  have hset : moved.setSlot moved.lastIndex none
      = .ok { list with contents := pre ++ post ++ none :: rest } := by
    rw [CList.setSlot, hmoved, if_pos (by simp [moved]), List.set_append_right _ _ (by simp)]
    simp [moved]
  have hindex : wrap 64 (pre.length : Int) = pre.length := wrap_of_lt (by omega)
  have hrange : ¬(((pre.length : Nat) : Int) < 0 ∨ list.lastIndex < pre.length) := by omega
  have hcut : list.lastIndex - pre.length = post.length := by omega
  simp only [listRemove, hindex, if_neg hrange, hslot, hcut, hshift, bind, Except.bind, pure,
    Except.pure]
  rw [hset]
  exact congrArg (fun c => Except.ok (x, CList.mk (pre ++ post ++ none :: rest) c list.capacity)) hlast

/-- **Removing** the value at an index of the list. -/
theorem listRemove_ok {pre post : List α} {x : α} (h : list.Repr (pre ++ x :: post))
    (hsmall : (pre ++ x :: post).length ≤ 2 ^ 31) :
    ∃ list', listRemove list pre.length = .ok (some x, list') ∧ list'.Repr (pre ++ post) := by
  have hfits := h.fits
  have hcount := h.count
  rw [← hcount] at hsmall
  rw [List.length_append, List.length_cons] at hfits hcount
  have hcontents : list.contents = pre.map some ++ some x ::
      (post.map some ++ List.replicate (list.capacity - (pre ++ x :: post).length) none) := by
    rw [h.contents]
    simp
  have hrun := listRemove_slots hcontents (by simpa [Nat.add_assoc] using hcount) hsmall
  rw [List.length_map, List.length_map] at hrun
  refine ⟨_, hrun, ?_, by simp, by simp; omega, h.pos⟩
  have hsub : list.capacity - (pre ++ post).length =
      list.capacity - (pre ++ x :: post).length + 1 := by simp; omega
  simp only [hsub, List.replicate_succ, List.map_append]

theorem listPop_ok {x : α} (h : list.Repr (xs ++ [x])) (hsmall : xs.length < 2 ^ 31) :
    ∃ list', listPop list = .ok (some x, list') ∧ list'.Repr xs := by
  obtain ⟨list', hrun, hrepr⟩ := listRemove_ok h (by simpa using hsmall)
  have hcount : toInt32 (toInt32 list.count - 1) = (xs.length : Nat) := by
    rw [h.count, List.length_append, List.length_singleton, toInt32_sub, Nat.cast_add, Nat.cast_one,
      add_sub_cancel_right, toInt32_natCast hsmall]
  exact ⟨list', by rw [listPop, hcount]; exact hrun, by simpa using hrepr⟩

/-- The scan stops at the first value the test accepts. -/
theorem scanFrom_found {test : Option α → Except Fault Bool} {mid post : List α} {x : α}
    (hx : test (some x) = .ok true) (hmid : ∀ y ∈ mid, test (some y) = .ok false) :
    ∀ (front : List α), list.Repr (front ++ mid ++ x :: post) → ∀ n, mid.length < n →
      scanFrom list test n front.length = .ok (some (front.length + mid.length)) := by
  induction mid with
  | nil =>
    intro front h n hn
    obtain ⟨n, rfl⟩ : ∃ j, n = j + 1 := ⟨n - 1, by simp at hn; omega⟩
    have hslot : list.slot front.length = .ok (some x) := by
      rw [h.slot (by simp)]
      simp
    simp [scanFrom, hslot, hx, bind, Except.bind, pure, Except.pure]
  | cons y mid ih =>
    intro front h n hn
    obtain ⟨n, rfl⟩ : ∃ j, n = j + 1 := ⟨n - 1, by simp at hn; omega⟩
    have hslot : list.slot front.length = .ok (some y) := by
      rw [h.slot (by simp)]
      simp
    have hrec := ih (fun z hz => hmid z (List.mem_cons_of_mem y hz)) (front ++ [y])
      (by simpa using h) n (by simp at hn; omega)
    rw [List.length_append, List.length_singleton] at hrec
    simp only [scanFrom, hslot, hmid y (List.mem_cons_self ..), bind, Except.bind]
    rw [if_neg (by decide), hrec, List.length_cons]
    congr 2
    omega

/-- The scan of `mid`, none of which the test accepts. -/
theorem scanFrom_none {test : Option α → Except Fault Bool} {mid post : List α}
    (hmid : ∀ y ∈ mid, test (some y) = .ok false) :
    ∀ (front : List α), list.Repr (front ++ mid ++ post) →
      scanFrom list test mid.length front.length = .ok none := by
  induction mid with
  | nil => intro front _; rfl
  | cons y mid ih =>
    intro front h
    have hslot : list.slot front.length = .ok (some y) := by
      rw [h.slot (by simp)]
      simp
    have hrec := ih (fun z hz => hmid z (List.mem_cons_of_mem y hz)) (front ++ [y])
      (by simpa using h)
    rw [List.length_append, List.length_singleton] at hrec
    simp only [List.length_cons, scanFrom, hslot, hmid y (List.mem_cons_self ..), bind, Except.bind]
    rw [if_neg (by decide), hrec]

/-- **Deleting** the first occurrence of a value. -/
theorem listDelete_ok [DecidableEq α] {pre post : List α} {value : α}
    (h : list.Repr (pre ++ value :: post)) (hsmall : (pre ++ value :: post).length ≤ 2 ^ 31)
    (hnot : value ∉ pre) :
    ∃ list', listDelete list value = .ok list' ∧ list'.Repr (pre ++ post) := by
  have hscan : scanFrom list (fun v => .ok (v == some value)) (intPasses list.count) 0 =
      .ok (some (0 + pre.length)) := by
    rw [intPasses_of_le (h.count.trans_le hsmall)]
    refine scanFrom_found (by simp) (fun y hy => ?_) [] h list.count (by rw [h.count]; simp)
    have hne : y ≠ value := fun hEq => hnot (hEq ▸ hy)
    simp [hne]
  have hfind : listFind list value = .ok (pre.length : Nat) := by
    simp [listFind, hscan, bind, Except.bind, pure, Except.pure]
  obtain ⟨list', hremove, hrepr⟩ := listRemove_ok h hsmall
  refine ⟨list', ?_, hrepr⟩
  have hne : ((pre.length : Nat) : Int) ≠ -1 := by omega
  simp only [listDelete, hfind, bind, Except.bind, if_neg hne, hremove, pure, Except.pure]

/-! ### Long lists -/

/-- A list of any length: the first `2 ^ 31` slots hold the first values. -/
structure CList.Keeps (list : CList α) (xs : List α) : Prop where
  slots : list.contents.length = list.capacity
  count : list.count = xs.length
  fits : xs.length ≤ list.capacity
  pos : 0 < list.capacity
  kept : ∀ i, i < 2 ^ 31 → i < xs.length → list.contents[i]? = some xs[i]?

theorem CList.Repr.keeps (h : list.Repr xs) : list.Keeps xs where
  slots := h.length_contents
  count := h.count
  fits := h.fits
  pos := h.pos
  kept i _ hi := by
    rw [h.contents, List.getElem?_append_left (by simpa using hi), List.getElem?_map,
      List.getElem?_eq_getElem hi]
    rfl

theorem length_transferContents {oldSize newSize : Nat} {oldContents : List (Option α)}
    (hold : oldContents.length = oldSize) (hle : oldSize ≤ newSize) :
    (transferContents oldSize newSize oldContents).length = newSize := by
  have hpasses : intPasses oldSize ≤ oldSize := min_le_left _ _
  rw [transferContents, initNullContents, List.length_append, List.length_take, List.length_drop,
    List.length_replicate]
  omega

/-- The `int` of `transferContents` reaches the first `2 ^ 31` slots, and no others. -/
theorem getElem?_transferContents {oldSize newSize i : Nat} {oldContents : List (Option α)}
    (hold : oldContents.length = oldSize) (hi : i < newSize) :
    (transferContents oldSize newSize oldContents)[i]? =
      if i < intPasses oldSize then oldContents[i]? else some none := by
  have hpasses : intPasses oldSize ≤ oldSize := min_le_left _ _
  have htake : (oldContents.take (intPasses oldSize)).length = intPasses oldSize := by
    rw [List.length_take]
    omega
  rw [transferContents]
  split
  · rename_i hlt
    rw [List.getElem?_append_left (by omega), List.getElem?_take_of_lt hlt]
  · rename_i hge
    rw [List.getElem?_append_right (by omega), htake, List.getElem?_drop, initNullContents,
      List.getElem?_replicate, if_pos (by omega)]

/-- What `listAppend` does to the array. -/
theorem CList.Keeps.listAppend_eq (h : list.Keeps xs) (value : α) :
    listAppend list value = .ok ⟨(expandIfFull list).contents.set xs.length (some value),
      xs.length + 1, (expandIfFull list).capacity⟩ ∧
      (expandIfFull list).contents.length = (expandIfFull list).capacity ∧
      xs.length < (expandIfFull list).capacity := by
  have hfits := h.fits
  have hpos := h.pos
  have hgrown : (expandIfFull list).contents.length = (expandIfFull list).capacity ∧
      xs.length < (expandIfFull list).capacity := by
    unfold expandIfFull
    split
    · rename_i hfull
      rw [h.count] at hfull
      refine ⟨length_transferContents h.slots (by omega), ?_⟩
      show xs.length < list.capacity * 2
      omega
    · rename_i hroom
      rw [h.count] at hroom
      exact ⟨h.slots, by omega⟩
  have hcount : (expandIfFull list).count = xs.length := (expandIfFull_count list).trans h.count
  refine ⟨?_, hgrown⟩
  rw [listAppend, CList.setSlot, hcount, if_pos (hgrown.1.symm ▸ hgrown.2)]
  rfl

/-- Appending to a list of any length. -/
theorem CList.Keeps.listAppend (h : list.Keeps xs) (value : α) :
    ∃ list', Paging.listAppend list value = .ok list' ∧ list'.Keeps (xs ++ [value]) := by
  obtain ⟨hrun, hslots, hroom⟩ := h.listAppend_eq value
  have hfits := h.fits
  refine ⟨_, hrun, by rw [List.length_set, hslots], by simp, by simpa using hroom,
    (Nat.zero_le _).trans_lt hroom, fun i hi hlt => ?_⟩
  rw [List.length_append, List.length_singleton] at hlt
  show ((expandIfFull list).contents.set xs.length (some value))[i]? = _
  rcases Nat.lt_or_eq_of_le (Nat.le_of_lt_succ hlt) with hlt | rfl
  · rw [List.getElem?_set_ne (by omega), List.getElem?_append_left hlt, ← h.kept i hi hlt]
    unfold expandIfFull
    split
    · rename_i hfull
      have hpasses : i < intPasses list.capacity := by
        unfold intPasses
        omega
      show (transferContents _ _ _)[i]? = _
      rw [getElem?_transferContents h.slots (by omega), if_pos hpasses]
    · rfl
  · rw [List.getElem?_set_self (by omega)]
    simp

end

end Paging
end OsAssignments
