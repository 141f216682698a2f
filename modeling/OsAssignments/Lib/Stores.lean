import OsAssignments.Lib.ByteMemory

/-!
# Sequences of stores

What a piece of straight-line code writes, as a list of stores: which addresses it writes to is
then a matter of its own, whether or not the bytes written differ from those before.

* `Store.apply`, `applyStores` — the memory afterwards.
* `Store.Within` — a store that stays in a region.
* `applyStores_agreeOn` — stores within a region leave all other bytes alone.
* `writeLE_eq` — the store of a little-endian field as a store of bytes.
-/

namespace ByteMemory

/-- The bytes stored from an address on. -/
structure Store where
  addr : Nat
  bytes : List UInt8
  deriving DecidableEq

/-- One store. -/
def Store.apply (mem : Memory) (s : Store) : Memory := writeBytes mem s.addr s.bytes

/-- The stores one after the other. -/
def applyStores (mem : Memory) (stores : List Store) : Memory := stores.foldl Store.apply mem

/-- No byte outside the `n` bytes from address `a` on is written. -/
def Store.Within (s : Store) (a n : Nat) : Prop :=
  ∀ x, s.addr ≤ x → x < s.addr + s.bytes.length → a ≤ x ∧ x < a + n

variable {mem : Memory} {a n b m : Nat}

theorem Store.within_iff {s : Store} (hne : 0 < s.bytes.length) :
    s.Within a n ↔ a ≤ s.addr ∧ s.addr + s.bytes.length ≤ a + n := by
  constructor
  · intro h
    have hfirst := h s.addr (le_refl _) (by omega)
    have hlast := h (s.addr + s.bytes.length - 1) (by omega) (by omega)
    omega
  · intro h x hx hx'
    omega

/-- **Stores within a region** leave the bytes outside it alone. -/
theorem applyStores_agreeOn {stores : List Store} (h : ∀ s ∈ stores, s.Within a n)
    (hout : b + m ≤ a ∨ a + n ≤ b) : AgreeOn mem (applyStores mem stores) b m := by
  induction stores generalizing mem with
  | nil => exact AgreeOn.refl mem b m
  | cons s rest ih =>
    have hone : AgreeOn mem (s.apply mem) b m := by
      intro x hx hx'
      refine if_neg fun hin => ?_
      have := h s (List.mem_cons_self ..) x hin.1 hin.2
      omega
    exact hone.trans (ih fun t ht => h t (List.mem_cons_of_mem _ ht))

/-! ## Little-endian fields -/

/-- The `n` bytes of a little-endian field. -/
def leBytes (n v : Nat) : List UInt8 := (List.range n).map fun i => UInt8.ofNat (v / 256 ^ i)

@[simp] theorem length_leBytes (n v : Nat) : (leBytes n v).length = n := by simp [leBytes]

theorem writeLE_eq (n : Nat) (mem : Memory) (a v : Nat) :
    writeLE n mem a v = writeBytes mem a (leBytes n v) := by
  funext x
  rw [writeLE, writeBytes, length_leBytes]
  split
  · rename_i hin
    rw [List.getD_eq_getElem _ _ (by rw [length_leBytes]; omega)]
    simp [leBytes]
  · rfl

end ByteMemory
