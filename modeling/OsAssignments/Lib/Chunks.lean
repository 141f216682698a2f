import Mathlib.Data.List.Basic
import Mathlib.Data.List.TakeDrop
import Mathlib.Tactic.Common

/-!
# Chunks

A list cut into chunks of one size, and blocks that hold the chunks, each with anything behind
it.

* `chunk` — the chunk of a number; only the last one can be short.
* `take_flatMap` — the blocks one after the other, cut at the length of the list, are the list.
* `length_flatMap_le` — blocks that are empty from some number on hold no more than the others.
* `flatMap_eq_take` — if the blocks before that number are full, they hold the list up to there.
-/

namespace Chunks

variable {α : Type} {size k : Nat} {l : List α} {B : Nat → List α}

/-- Chunk number `i`. -/
def chunk (size : Nat) (l : List α) (i : Nat) : List α := (l.drop (size * i)).take size

theorem chunk_ne_nil_iff (hsize : 0 < size) {i : Nat} : chunk size l i ≠ [] ↔ size * i < l.length := by
  rw [chunk, ← List.length_pos_iff, List.length_take, List.length_drop]
  omega

theorem take_succ_mul (k : Nat) : l.take (size * (k + 1)) = l.take (size * k) ++ chunk size l k := by
  rw [chunk, Nat.mul_succ, List.take_add]

/-- Full blocks one after the other. -/
theorem length_flatMap (h : ∀ j, j < k → (B j).length = size) :
    ((List.range k).flatMap B).length = size * k := by
  induction k with
  | zero => rfl
  | succ k ih =>
    rw [List.range_succ, List.flatMap_append, List.length_append, List.flatMap_singleton,
      ih fun j hj => h j (by omega), h k (by omega), Nat.mul_succ]

/-- The blocks begin with the list. -/
theorem take_prefix_flatMap (hsize : 0 < size) (hbegin : ∀ j, j < k → chunk size l j <+: B j)
    (hfull : ∀ j, j < k → chunk size l j ≠ [] → (B j).length = size) :
    l.take (size * k) <+: (List.range k).flatMap B := by
  induction k with
  | zero => simp
  | succ k ih =>
    have hbefore := ih (fun j hj => hbegin j (by omega)) fun j hj => hfull j (by omega)
    rw [List.range_succ, List.flatMap_append, List.flatMap_singleton, take_succ_mul]
    by_cases hlen : l.length ≤ size * k
    · -- nothing is left of the list
      have hnil : chunk size l k = [] := by
        by_contra hne
        have := (chunk_ne_nil_iff hsize).mp hne
        omega
      rw [hnil, List.append_nil]
      exact hbefore.trans (List.prefix_append _ _)
    · -- the blocks so far are full
      have hblocks : ((List.range k).flatMap B).length = size * k := by
        refine length_flatMap fun j hj => hfull j (by omega) ((chunk_ne_nil_iff hsize).mpr ?_)
        have := Nat.mul_le_mul_left size (Nat.le_of_lt hj)
        omega
      have hsame : l.take (size * k) = (List.range k).flatMap B := by
        refine hbefore.eq_of_length ?_
        rw [hblocks, List.length_take]
        omega
      rw [hsame]
      exact List.prefix_append_right_inj _ |>.mpr (hbegin k (by omega))

/-- **The blocks, cut at the length of the list, are the list.** -/
theorem take_flatMap (hsize : 0 < size) (hbegin : ∀ j, j < k → chunk size l j <+: B j)
    (hfull : ∀ j, j < k → chunk size l j ≠ [] → (B j).length = size) (hk : l.length ≤ size * k) :
    ((List.range k).flatMap B).take l.length = l := by
  have hall := take_prefix_flatMap hsize hbegin hfull
  rw [List.take_of_length_le hk] at hall
  exact (List.prefix_iff_eq_take.mp hall).symm

/-- **Blocks that are empty from number `m` on** hold at most `m` chunks. -/
theorem length_flatMap_le {m : Nat} (hle : ∀ j, j < k → (B j).length ≤ size)
    (hempty : ∀ j, m ≤ j → j < k → B j = []) :
    ((List.range k).flatMap B).length ≤ size * min k m := by
  induction k with
  | zero => exact Nat.zero_le _
  | succ k ih =>
    have hbefore := ih (fun j hj => hle j (by omega)) fun j hm hj => hempty j hm (by omega)
    rw [List.range_succ, List.flatMap_append, List.length_append, List.flatMap_singleton]
    rcases Nat.lt_or_ge k m with hkm | hmk
    · have hlast := hle k (Nat.lt_succ_self k)
      rw [Nat.min_eq_left (by omega)] at hbefore
      rw [Nat.min_eq_left (by omega), Nat.mul_succ]
      omega
    · rw [Nat.min_eq_right hmk] at hbefore
      rw [hempty k hmk (Nat.lt_succ_self k), List.length_nil, Nat.min_eq_right (by omega)]
      exact hbefore

theorem flatMap_eq_of_nil {m : Nat} (hmk : m ≤ k) (hempty : ∀ j, m ≤ j → j < k → B j = []) :
    (List.range k).flatMap B = (List.range m).flatMap B := by
  induction hmk with
  | refl => rfl
  | @step i hmi ih =>
    rw [List.range_succ, List.flatMap_append, List.flatMap_singleton, hempty i hmi (Nat.lt_succ_self i),
      List.append_nil]
    exact ih fun j hmj hj => hempty j hmj (by omega)

/-- **Full blocks, and empty ones from number `m` on**, hold the list up to there. -/
theorem flatMap_eq_take {m : Nat} (hsize : 0 < size) (hmk : m ≤ k) (hmany : size * m ≤ l.length)
    (hbegin : ∀ j, j < m → chunk size l j <+: B j) (hfull : ∀ j, j < m → (B j).length = size)
    (hempty : ∀ j, m ≤ j → j < k → B j = []) : (List.range k).flatMap B = l.take (size * m) := by
  rw [flatMap_eq_of_nil hmk hempty]
  refine ((take_prefix_flatMap hsize hbegin fun j hj _ => hfull j hj).eq_of_length ?_).symm
  rw [length_flatMap hfull, List.length_take, Nat.min_eq_left hmany]

end Chunks
