import Mathlib.Data.List.Nodup
import Mathlib.Data.List.TakeDrop
import Mathlib.Tactic.Common

/-!
# Searching a range for unused numbers

The numbers of a range that are not in use, in the order in which a search from its first number
on passes them.

* `unused_succ`, `unused_append` — the search goes on behind the first number, and behind the
  first part of the range.
* `unused_congr` — only the numbers of the range matter.
* `take_unused` — the first `n` are found in every range that reaches far enough.
-/

namespace NumberSearch

variable {used used' : Nat → Bool} {b j k n : Nat}

/-- The numbers that are not in use among the `k` from `b` on. -/
def unused (used : Nat → Bool) (b k : Nat) : List Nat := (List.range' b k).filter fun x => !used x

theorem mem_unused {x : Nat} : x ∈ unused used b k ↔ (b ≤ x ∧ x < b + k) ∧ used x = false := by
  simp [unused, List.mem_range'_1]

theorem nodup_unused (used : Nat → Bool) (b k : Nat) : (unused used b k).Nodup :=
  List.Nodup.filter _ List.nodup_range'

theorem unused_succ (used : Nat → Bool) (b k : Nat) :
    unused used b (k + 1) = if used b then unused used (b + 1) k else b :: unused used (b + 1) k := by
  rw [unused, List.range'_succ, List.filter_cons]
  cases used b <;> rfl

theorem unused_append (used : Nat → Bool) (b j k : Nat) :
    unused used b (j + k) = unused used b j ++ unused used (b + j) k := by
  rw [unused, unused, unused, ← List.filter_append, List.range'_append_1]

theorem unused_congr (h : ∀ x, b ≤ x → x < b + k → used' x = used x) :
    unused used' b k = unused used b k := by
  refine List.filter_congr fun x hx => ?_
  obtain ⟨hle, hlt⟩ := List.mem_range'_1.mp hx
  rw [h x hle hlt]

/-- Where the first `n` numbers end, the rest of the range does not matter. -/
theorem take_unused (hn : n ≤ (unused used b k).length)
    (hlt : ∀ x ∈ (unused used b k).take n, x < b + j) :
    n ≤ (unused used b j).length ∧ (unused used b j).take n = (unused used b k).take n := by
  rcases Nat.le_total k j with hkj | hjk
  · obtain ⟨r, rfl⟩ := Nat.exists_eq_add_of_le hkj
    rw [unused_append]
    refine ⟨?_, List.take_append_of_le_length hn⟩
    rw [List.length_append]
    omega
  · obtain ⟨r, rfl⟩ := Nat.exists_eq_add_of_le hjk
    rw [unused_append] at hn hlt ⊢
    have hshort : n ≤ (unused used b j).length := by
      by_contra hlong
      rw [Nat.not_le] at hlong
      rw [List.length_append] at hn
      -- the first number behind the range would be among the first `n`
      have hrest : 0 < (unused used (b + j) r).length := by omega
      have hmem : (unused used (b + j) r)[0] ∈ (unused used b j ++ unused used (b + j) r).take n := by
        rw [List.take_append]
        refine List.mem_append_right _ (List.mem_take_iff_getElem.mpr ⟨0, by omega, rfl⟩)
      have hge := (mem_unused.mp (List.getElem_mem hrest)).1.1
      have := hlt _ hmem
      omega
    exact ⟨hshort, (List.take_append_of_le_length hshort).symm⟩

end NumberSearch
