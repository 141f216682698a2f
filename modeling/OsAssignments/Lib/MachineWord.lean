import Mathlib

/-!
# Flags and one-bit masks in machine words

C code keeps flags in the bits of an unsigned word and tests them with
`word & MASK`, sets them with `word |= MASK` and clears them with
`word &= ~MASK`.  `hasFlag` is the test; the lemmas say how the two updates act
on the flag of the same mask, on the flag of a disjoint mask, and on the field
stored above all flags.

`bit i` is the mask `1 << i`; for it the test is a bit of the word
(`hasFlag_bit`), and `exists_clear_bit` finds a clear bit in any word that is not
all ones.  `wrap w` is what an unsigned field of `w` bits makes of an integer.
-/

namespace MachineWord

variable {w : Nat}

/-! ## Masks -/

/-- The truth value of `x & mask`. -/
def hasFlag (x mask : BitVec w) : Bool := (x &&& mask) != 0#w

theorem hasFlag_or_self (x : BitVec w) {m : BitVec w} (hm : m ≠ 0#w) :
    hasFlag (x ||| m) m = true := by
  have habs : (x ||| m) &&& m = m := by
    ext i hi
    simp only [BitVec.getElem_and, BitVec.getElem_or]
    cases x[i] <;> cases m[i] <;> rfl
  simpa [hasFlag, habs] using hm

theorem hasFlag_or_of_disjoint (x : BitVec w) {m k : BitVec w} (h : m &&& k = 0#w) :
    hasFlag (x ||| m) k = hasFlag x k := by
  have hand : (x ||| m) &&& k = x &&& k := by
    ext i hi
    have hi' : (m[i] && k[i]) = false := by
      have := congrArg (fun y => y.getLsbD i) h
      simpa [BitVec.getLsbD_eq_getElem, hi] using this
    simp only [BitVec.getElem_and, BitVec.getElem_or]
    revert hi'
    cases x[i] <;> cases m[i] <;> cases k[i] <;> simp
  rw [hasFlag, hand, hasFlag]

theorem hasFlag_clear_self (x m : BitVec w) : hasFlag (x &&& ~~~m) m = false := by
  have hand : (x &&& ~~~m) &&& m = 0#w := by
    ext i hi
    simp only [BitVec.getElem_and, BitVec.getElem_not, BitVec.getElem_zero]
    cases x[i] <;> cases m[i] <;> rfl
  simp [hasFlag, hand]

theorem hasFlag_clear_of_disjoint (x : BitVec w) {m k : BitVec w} (h : m &&& k = 0#w) :
    hasFlag (x &&& ~~~m) k = hasFlag x k := by
  have hand : (x &&& ~~~m) &&& k = x &&& k := by
    ext i hi
    have hi' : (m[i] && k[i]) = false := by
      have := congrArg (fun y => y.getLsbD i) h
      simpa [BitVec.getLsbD_eq_getElem, hi] using this
    simp only [BitVec.getElem_and, BitVec.getElem_not]
    revert hi'
    cases x[i] <;> cases m[i] <;> cases k[i] <;> simp
  rw [hasFlag, hand, hasFlag]

/-- Setting a flag below bit `n` leaves the field above it. -/
theorem or_ushiftRight (x : BitVec w) {m : BitVec w} {n : Nat} (h : m >>> n = 0#w) :
    (x ||| m) >>> n = x >>> n := by
  rw [BitVec.ushiftRight_or_distrib, h, BitVec.or_zero]

/-- Clearing a flag below bit `n` leaves the field above it. -/
theorem clear_ushiftRight (x : BitVec w) {m : BitVec w} {n : Nat} (h : m >>> n = 0#w) :
    (x &&& ~~~m) >>> n = x >>> n := by
  ext i hi
  have hm : m.getLsbD (n + i) = false := by
    have := congrArg (fun y => y.getLsbD i) h
    simpa using this
  rw [BitVec.getElem_ushiftRight, BitVec.getElem_ushiftRight, BitVec.getLsbD_and,
    BitVec.getLsbD_not, hm]
  by_cases hlt : n + i < w
  · simp [hlt]
  · rw [BitVec.getLsbD_of_ge x (n + i) (by omega)]; rfl

/-! ## One-bit masks -/

/-- The mask `1 << i`. -/
def bit (i : Nat) : BitVec w := 1#w <<< i

theorem getLsbD_bit {i : Nat} (hi : i < w) (j : Nat) :
    (bit i : BitVec w).getLsbD j = decide (j = i) := by
  rw [bit, BitVec.getLsbD_shiftLeft]
  by_cases hj : j = i
  · subst hj; simp [hi]; omega
  · by_cases hjw : j < w <;> by_cases hji : j < i <;> simp [hj, hjw, hji]
    omega

theorem hasFlag_bit (x : BitVec w) {i : Nat} (hi : i < w) : hasFlag x (bit i) = x.getLsbD i := by
  cases hx : x.getLsbD i with
  | true =>
    rw [hasFlag, bne_iff_ne]
    intro h
    have := congrArg (fun y => y.getLsbD i) h
    simp [hx, getLsbD_bit hi] at this
  | false =>
    have hz : x &&& bit i = 0#w := by
      refine BitVec.eq_of_getLsbD_eq fun j _ => ?_
      rw [BitVec.getLsbD_and, getLsbD_bit hi, BitVec.getLsbD_zero]
      by_cases hj : j = i
      · subst hj; simp [hx]
      · simp [hj]
    simp [hasFlag, hz]

theorem getLsbD_or_bit (x : BitVec w) {i : Nat} (hi : i < w) (j : Nat) :
    (x ||| bit i).getLsbD j = (x.getLsbD j || decide (j = i)) := by
  rw [BitVec.getLsbD_or, getLsbD_bit hi]

theorem getLsbD_clear_bit (x : BitVec w) {i : Nat} (hi : i < w) (j : Nat) :
    (x &&& ~~~bit i).getLsbD j = (x.getLsbD j && decide (j ≠ i)) := by
  rw [BitVec.getLsbD_and, BitVec.getLsbD_not, getLsbD_bit hi]
  by_cases hjw : j < w
  · simp [hjw]
  · rw [BitVec.getLsbD_of_ge x j (by omega)]; rfl

/-- A word that is not all ones has a clear bit. -/
theorem exists_clear_bit {x : BitVec w} (hx : x ≠ BitVec.allOnes w) :
    ∃ i, i < w ∧ x.getLsbD i = false := by
  by_contra hall
  push Not at hall
  refine hx (BitVec.eq_of_getLsbD_eq fun i hi => ?_)
  rw [BitVec.getLsbD_allOnes, decide_eq_true hi]
  simpa using hall i hi

/-! ## Unsigned fields -/

/-- The value an unsigned field of `w` bits holds after `x` is stored in it. -/
def wrap (w : Nat) (x : Int) : Nat := (x % 2 ^ w).toNat

theorem wrap_lt (w : Nat) (x : Int) : wrap w x < 2 ^ w := by
  have hpos : (0 : Int) < 2 ^ w := by positivity
  have h0 := Int.emod_nonneg x hpos.ne'
  have h1 := Int.emod_lt_of_pos x hpos
  rw [wrap, Int.toNat_lt h0]
  exact_mod_cast h1

theorem wrap_of_lt {w n : Nat} (h : n < 2 ^ w) : wrap w n = n := by
  have hmod : (n : Int) % 2 ^ w = n := Int.emod_eq_of_lt (by omega) (by exact_mod_cast h)
  rw [wrap, hmod, Int.toNat_natCast]

end MachineWord
