import Mathlib

/-!
# Ring buffers

* `InRing` — the slots of a ring hold the items of a list, in order from the front, and are empty
  elsewhere.
* `InRing.empty_back`, `InRing.push` — while there is room, the slot at the back is empty, and an item
  stored there is the new last one.
* `InRing.head`, `InRing.pop` — the first item is in the slot at the front; it is taken out by
  emptying that slot.
* `InRing.rotate` — in a full ring both at once, in the same slot.
* `InRing.mem_iff` — an item is held exactly if it is in some slot.
* `InRing.map` — all items are changed where they are.
-/

namespace RingQueue

/-! ## Positions -/

/-- The positions from any front on are distinct for one round. -/
theorem position_inj {size front i j : Nat} (hi : i < size) (hj : j < size)
    (h : (front + i) % size = (front + j) % size) : i = j := by
  have hmod : i ≡ j [MOD size] := Nat.ModEq.add_left_cancel' front h
  rwa [Nat.ModEq, Nat.mod_eq_of_lt hi, Nat.mod_eq_of_lt hj] at hmod

/-- One round reaches every position. -/
theorem exists_position {size front k : Nat} (hfront : front < size) (hk : k < size) :
    ∃ i, i < size ∧ (front + i) % size = k := by
  rcases Nat.lt_or_ge k front with hlt | hge
  · refine ⟨size - front + k, by omega, ?_⟩
    rw [show front + (size - front + k) = k + size by omega, Nat.add_mod_right,
      Nat.mod_eq_of_lt hk]
  · refine ⟨k - front, by omega, ?_⟩
    rw [Nat.add_sub_cancel' hge, Nat.mod_eq_of_lt hk]

/-- The next position. -/
theorem position_succ (size front i : Nat) :
    ((front + i) % size + 1) % size = (front + (i + 1)) % size := by
  rw [Nat.mod_add_mod, Nat.add_assoc]

theorem position_front_succ (size front i : Nat) :
    ((front + 1) % size + i) % size = (front + (i + 1)) % size := by
  rw [Nat.mod_add_mod, Nat.add_assoc, Nat.add_comm 1 i]

/-! ## Contents -/

section

variable {α : Type} {size front back : Nat} {empty : α} {slots : Nat → α} {xs : List α} {x : α}

/-- The items `xs` are in the slots from `front` up to `back`, and the other slots hold `empty`. -/
structure InRing (size : Nat) (empty : α) (slots : Nat → α) (front back : Nat) (xs : List α) :
    Prop where
  front_lt : front < size
  length_le : xs.length ≤ size
  back_eq : back = (front + xs.length) % size
  slot : ∀ i, i < xs.length → xs[i]? = some (slots ((front + i) % size))
  rest : ∀ i, xs.length ≤ i → i < size → slots ((front + i) % size) = empty
  item : empty ∉ xs

theorem InRing.nil (hpos : 0 < size) (empty : α) : InRing size empty (fun _ => empty) 0 0 [] where
  front_lt := hpos
  length_le := Nat.zero_le _
  back_eq := (Nat.zero_mod size).symm
  slot i hi := absurd hi (Nat.not_lt_zero i)
  rest _ _ _ := rfl
  item := List.not_mem_nil

/-- While there is room, the slot at the back is empty. -/
theorem InRing.empty_back (h : InRing size empty slots front back xs) (hroom : xs.length < size) :
    slots back = empty := by
  rw [h.back_eq]
  exact h.rest _ (le_refl _) hroom

theorem InRing.back_lt (h : InRing size empty slots front back xs) : back < size := by
  rw [h.back_eq]
  exact Nat.mod_lt _ (Nat.zero_lt_of_lt h.front_lt)

/-- **An item is put in at the back.** -/
theorem InRing.push (h : InRing size empty slots front back xs) (hroom : xs.length < size)
    (hx : x ≠ empty) :
    InRing size empty (Function.update slots back x) front ((back + 1) % size) (xs ++ [x]) := by
  have hlen : (xs ++ [x]).length = xs.length + 1 := List.length_append
  -- a position of the round is `back` only if it is the first free one
  have hne : ∀ i, i < size → i ≠ xs.length → (front + i) % size ≠ back := by
    intro i hi hne heq
    rw [h.back_eq] at heq
    exact hne (position_inj hi hroom heq)
  constructor
  · exact h.front_lt
  · omega
  · rw [h.back_eq, position_succ, hlen]
  · intro i hi
    rw [hlen] at hi
    rcases Nat.lt_or_eq_of_le (Nat.le_of_lt_succ hi) with hlt | rfl
    · rw [List.getElem?_append_left hlt, Function.update_of_ne (hne i (by omega) (by omega))]
      exact h.slot i hlt
    · rw [← h.back_eq, Function.update_self, List.getElem?_append_right (le_refl _), Nat.sub_self]
      rfl
  · intro i hle hi
    rw [hlen] at hle
    rw [Function.update_of_ne (hne i hi (by omega))]
    exact h.rest i (by omega) hi
  · rw [List.mem_append, List.mem_singleton, not_or]
    exact ⟨h.item, hx.symm⟩

/-- The first item is in the slot at the front. -/
theorem InRing.head (h : InRing size empty slots front back (x :: xs)) : slots front = x := by
  have hfirst := h.slot 0 (Nat.succ_pos _)
  rw [Nat.add_zero, Nat.mod_eq_of_lt h.front_lt] at hfirst
  exact (Option.some.inj hfirst).symm

/-- **The first item is taken out.** -/
theorem InRing.pop (h : InRing size empty slots front back (x :: xs)) :
    InRing size empty (Function.update slots front empty) ((front + 1) % size) back xs := by
  have hlen : xs.length + 1 ≤ size := h.length_le
  have hpos : 0 < size := Nat.zero_lt_of_lt h.front_lt
  have hne : ∀ i, i + 1 < size → (front + (i + 1)) % size ≠ front := by
    intro i hi heq
    have hfront : (front + 0) % size = front := Nat.mod_eq_of_lt h.front_lt
    exact absurd (position_inj hi hpos (heq.trans hfront.symm)) (by omega)
  constructor
  · exact Nat.mod_lt _ hpos
  · omega
  · rw [position_front_succ]
    exact h.back_eq
  · intro i hi
    rw [position_front_succ, Function.update_of_ne (hne i (by omega))]
    exact h.slot (i + 1) (Nat.succ_lt_succ hi)
  · intro i hle hi
    rw [position_front_succ]
    rcases Nat.lt_or_ge (i + 1) size with hlt | hge
    · rw [Function.update_of_ne (hne i hlt)]
      exact h.rest (i + 1) (Nat.succ_le_succ hle) hlt
    · -- the round ends at the slot that was emptied
      have hwrap : (front + (i + 1)) % size = front := by
        rw [show front + (i + 1) = front + size by omega, Nat.add_mod_right,
          Nat.mod_eq_of_lt h.front_lt]
      rw [hwrap, Function.update_self]
  · exact fun hmem => h.item (List.mem_cons_of_mem x hmem)

/-- In a full ring the slot at the front is the one at the back: with a new item in it, the round
has gone on by one. -/
theorem InRing.rotate {y : α} (h : InRing size empty slots front front (x :: xs))
    (hfull : xs.length + 1 = size) (hy : y ≠ empty) :
    InRing size empty (Function.update slots front y) ((front + 1) % size) ((front + 1) % size)
      (xs ++ [y]) := by
  have hpush := h.pop.push (x := y) (by omega) hy
  rwa [Function.update_idem] at hpush

/-- What is in some slot. -/
theorem InRing.mem_iff (h : InRing size empty slots front back xs) (hx : x ≠ empty) :
    x ∈ xs ↔ ∃ k, k < size ∧ slots k = x := by
  constructor
  · intro hmem
    obtain ⟨i, hi, hget⟩ := List.getElem_of_mem hmem
    have hslot := h.slot i hi
    rw [List.getElem?_eq_getElem hi, hget] at hslot
    exact ⟨_, Nat.mod_lt _ (Nat.zero_lt_of_lt h.front_lt), (Option.some.inj hslot).symm⟩
  · rintro ⟨k, hk, rfl⟩
    obtain ⟨i, hi, rfl⟩ := exists_position h.front_lt hk
    rcases Nat.lt_or_ge i xs.length with hlt | hge
    · exact List.mem_of_getElem? (h.slot i hlt)
    · exact absurd (h.rest i hge hi) hx

/-- Only the slots of the ring matter. -/
theorem InRing.congr {slots' : Nat → α} (h : InRing size empty slots front back xs)
    (heq : ∀ k, k < size → slots' k = slots k) : InRing size empty slots' front back xs := by
  have hlt : ∀ i, (front + i) % size < size :=
    fun i => Nat.mod_lt _ (Nat.zero_lt_of_lt h.front_lt)
  refine ⟨h.front_lt, h.length_le, h.back_eq, fun i hi => ?_, fun i hle hi => ?_, h.item⟩
  · rw [heq _ (hlt i)]
    exact h.slot i hi
  · rw [heq _ (hlt i)]
    exact h.rest i hle hi

/-- All items are changed in their slots. -/
theorem InRing.map (h : InRing size empty slots front back xs) {g : α → α} (hempty : g empty = empty)
    (hitem : ∀ x ∈ xs, g x ≠ empty) :
    InRing size empty (fun k => g (slots k)) front back (xs.map g) := by
  have hlen : (xs.map g).length = xs.length := List.length_map _
  refine ⟨h.front_lt, hlen.symm ▸ h.length_le, hlen.symm ▸ h.back_eq, fun i hi => ?_,
    fun i hle hi => ?_, fun hmem => ?_⟩
  · rw [hlen] at hi
    rw [List.getElem?_map, h.slot i hi]
    rfl
  · rw [hlen] at hle
    rw [h.rest i hle hi, hempty]
  · obtain ⟨x, hx, hgx⟩ := List.mem_map.mp hmem
    exact hitem x hx hgx

end

end RingQueue
