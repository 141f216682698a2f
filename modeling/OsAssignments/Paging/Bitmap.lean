import OsAssignments.Lib.MachineWord

/-!
# The swap bitmap

`swap.c` manages the slots of the swap file with a bitmap of 32-bit words.  The
unused tail of the last word is marked when the bitmap is created, so that the
search of `bitmap_alloc` cannot return it.

* `bitmapCreate`, `bitmapAlloc` — the source's functions, with its assertions as
  `Fault`s.
* `Bitmap.marked`, `Bitmap.slots` — one bit of the bitmap, and the slots that are
  still free.
* `bitmapCreate_ok` and `bitmapAlloc_ok` — creation succeeds and frees exactly the
  bits below `nbits`; allocation takes the lowest free slot, or reports that
  there is none.

The arithmetic of `DIVROUNDUP` is unsigned and wraps: a bitmap of more than
`2 ^ 32 - 32` bits has no word and no slot.
-/

namespace OsAssignments
namespace Paging

open MachineWord

/-- How a run of the simulator can end other than by returning. -/
inductive Fault where
  /-- An `assert` fired. -/
  | assertion
  /-- A null pointer was dereferenced. -/
  | nullPointer
  /-- An array was indexed outside its bounds. -/
  | outOfBounds
  /-- A modulus was zero. -/
  | divideByZero
  deriving DecidableEq, Repr

/-- A step that returns is followed by the rest of the program. -/
theorem bind_of_ok {α β : Type} {x : Except Fault α} {a : α} {f : α → Except Fault β}
    (h : x = .ok a) : (x >>= f) = f a := by
  rw [h]
  rfl

/-! ## `int` -/

/-- Conversion to `int`. -/
def toInt32 (x : Int) : Int := Int.bmod x (2 ^ 32)

/-- `x++` on an `int`, which wraps. -/
def incr (x : Int) : Int := toInt32 (x + 1)

/-- How often `for (int i = 0; i < n; i++)` runs for a `size_t` bound: behind `2 ^ 31 - 1` the
`int` is negative, which as a `size_t` is not below the bound. -/
def intPasses (n : Nat) : Nat := min n (2 ^ 31)

theorem toInt32_of_int {x : Int} (hlo : -2 ^ 31 ≤ x) (hhi : x < 2 ^ 31) : toInt32 x = x :=
  Int.bmod_eq_of_le (by omega) (by omega)

theorem toInt32_natCast {n : Nat} (h : n < 2 ^ 31) : toInt32 n = n :=
  toInt32_of_int (by omega) (by omega)

theorem toInt32_of_mod_lt {n : Nat} (h : n % 2 ^ 32 < 2 ^ 31) : toInt32 n = (n % 2 ^ 32 : Nat) := by
  have hmod : (n : Int) % (2 ^ 32 : Nat) = (n % 2 ^ 32 : Nat) := (Int.natCast_mod ..).symm
  rw [toInt32, Int.bmod_def, hmod, if_pos (by omega)]

theorem toInt32_neg_iff {n : Nat} : toInt32 n < 0 ↔ 2 ^ 31 ≤ n % 2 ^ 32 := by
  have hmod : (n : Int) % (2 ^ 32 : Nat) = (n % 2 ^ 32 : Nat) := (Int.natCast_mod ..).symm
  have hlt := Nat.mod_lt n (show 2 ^ 32 > 0 by decide)
  rw [toInt32, Int.bmod_def, hmod]
  split <;> omega

theorem toInt32_add (x y : Int) : toInt32 (toInt32 x + y) = toInt32 (x + y) :=
  Int.bmod_add_bmod

theorem toInt32_sub (x y : Int) : toInt32 (toInt32 x - y) = toInt32 (x - y) := by
  rw [sub_eq_add_neg, sub_eq_add_neg, toInt32_add]

/-- Counting is done modulo `2 ^ 32`. -/
theorem incr_toInt32 (n : Nat) : incr (toInt32 n) = toInt32 ((n + 1 : Nat) : Int) :=
  toInt32_add n 1

theorem incr_natCast {n : Nat} (h : n + 1 < 2 ^ 31) : incr n = ((n + 1 : Nat) : Int) :=
  toInt32_natCast h

/-- The largest `int` wraps. -/
theorem incr_maxInt : incr (2 ^ 31 - 1) = -2 ^ 31 := by decide

theorem intPasses_of_le {n : Nat} (h : n ≤ 2 ^ 31) : intPasses n = n := min_eq_left h

theorem exists_intPasses {n k : Nat} (h : n = k + 1) : ∃ j, intPasses n = j + 1 :=
  Nat.exists_eq_add_of_le' (by rw [intPasses, h]; omega)

/-! ## The bitmap of `swap.c` -/

/-- `BITS_PER_WORD`. -/
def bitsPerWord : Nat := 32

theorem bitsPerWord_eq : bitsPerWord = 32 := rfl

/-- `WORD_ALLBITS`. -/
def wordAllbits : BitVec 32 := 0xffffffff#32

/-- `DIVROUNDUP`, on unsigned operands. -/
def divRoundUp (a b : Nat) : Nat := wrap 32 (a + b - 1 : Int) / b

/-- `struct bitmap`. -/
structure Bitmap where
  nbits : Nat
  v : Nat → BitVec 32

/-- The number of words the array `v` has. -/
def Bitmap.words (b : Bitmap) : Nat := divRoundUp b.nbits bitsPerWord

/-- The loop of `bitmap_create` over the bits `overbits .. 31` of the last word. -/
def markTail (overbits : Nat) (x : BitVec 32) : BitVec 32 :=
  (List.range' overbits (bitsPerWord - overbits)).foldl (fun x j => x ||| bit j) x

/-- `bitmap_create`, when both `malloc`s succeed. -/
def bitmapCreate (nbits : Nat) : Except Fault Bitmap :=
  let words := divRoundUp nbits bitsPerWord
  if words > nbits / bitsPerWord then
    let ix := words - 1
    let overbits := nbits - ix * bitsPerWord
    if nbits / bitsPerWord = words - 1 ∧ 0 < overbits ∧ overbits < bitsPerWord then
      .ok ⟨nbits, Function.update (fun _ => 0#32) ix (markTail overbits 0#32)⟩
    else .error .assertion
  else .ok ⟨nbits, fun _ => 0#32⟩

/-- `bitmap_alloc`.  The first word that is not full decides; `none` is the
return value 1. -/
def bitmapAlloc (b : Bitmap) : Except Fault (Option Nat × Bitmap) :=
  match (List.range b.words).find? (fun ix => b.v ix != wordAllbits) with
  | none => .ok (none, b)
  | some ix =>
    match (List.range bitsPerWord).find? (fun offset => !hasFlag (b.v ix) (bit offset)) with
    | none => .error .assertion
    | some offset =>
      let index := wrap 32 (ix * bitsPerWord + offset : Nat)
      if index < b.nbits then
        .ok (some index, { b with v := Function.update b.v ix (b.v ix ||| bit offset) })
      else .error .assertion

/-! ## Bits and slots -/

namespace Bitmap

/-- Is bit `i` set? -/
def marked (b : Bitmap) (i : Nat) : Bool := (b.v (i / bitsPerWord)).getLsbD (i % bitsPerWord)

/-- The bits that are clear: the slots that can still be handed out. -/
def slots (b : Bitmap) : Finset Nat :=
  (Finset.range (b.words * bitsPerWord)).filter fun i => b.marked i = false

/-- No bit at or past `nbits` is clear. -/
def TailMarked (b : Bitmap) : Prop := ∀ i ∈ b.slots, i < b.nbits

theorem mem_slots {b : Bitmap} {i : Nat} :
    i ∈ b.slots ↔ i < b.words * bitsPerWord ∧ b.marked i = false := by
  simp [slots]

end Bitmap

theorem words_lt (b : Bitmap) : b.words * bitsPerWord < 2 ^ 32 := by
  have h := wrap_lt 32 (b.nbits + bitsPerWord - 1 : Int)
  have := Nat.div_mul_le_self (wrap 32 (b.nbits + bitsPerWord - 1 : Int)) bitsPerWord
  unfold Bitmap.words divRoundUp
  omega

/-! ## Creation -/

theorem getLsbD_markTail {overbits : Nat} (h : overbits ≤ bitsPerWord) {j : Nat}
    (hj : j < bitsPerWord) : (markTail overbits 0#32).getLsbD j = decide (overbits ≤ j) := by
  have hfold : ∀ (n : Nat) (x : BitVec 32) (lo : Nat), lo + n ≤ bitsPerWord →
      ((List.range' lo n).foldl (fun x j => x ||| bit j) x).getLsbD j =
        (x.getLsbD j || decide (lo ≤ j ∧ j < lo + n)) := by
    intro n
    induction n with
    | zero => intro x lo _; simp
    | succ n ih =>
      intro x lo hlo
      rw [List.range'_succ, List.foldl_cons, ih _ _ (by omega),
        getLsbD_or_bit x (by unfold bitsPerWord at hlo; omega)]
      by_cases hx : x.getLsbD j = true
      · simp [hx]
      · simp only [Bool.not_eq_true] at hx
        simp only [hx, Bool.false_or, ← Bool.decide_or, decide_eq_decide]
        omega
  rw [markTail, hfold _ _ _ (by omega), BitVec.getLsbD_zero, Bool.false_or, decide_eq_decide]
  omega

theorem divRoundUp_of_le {n : Nat} (h : n ≤ 2 ^ 32 - 32) :
    divRoundUp n bitsPerWord = (n + 31) / 32 := by
  have hcast : ((n : Int) + (bitsPerWord : Nat) - 1) = ((n + 31 : Nat) : Int) := by
    unfold bitsPerWord; push_cast; ring
  rw [divRoundUp, hcast, wrap_of_lt (by omega), bitsPerWord]

theorem divRoundUp_of_gt {n : Nat} (h : 2 ^ 32 - 32 < n) (hn : n < 2 ^ 32) :
    divRoundUp n bitsPerWord = 0 := by
  have hcast : ((n : Int) + (bitsPerWord : Nat) - 1) % 2 ^ 32 = ((n + 31 - 2 ^ 32 : Nat) : Int) := by
    unfold bitsPerWord; push_cast; omega
  rw [divRoundUp, wrap, hcast, Int.toNat_natCast, bitsPerWord]
  omega

/-- **Creation succeeds**, and a bit is clear exactly when it is below `nbits`. -/
theorem bitmapCreate_ok {nbits : Nat} (h : nbits < 2 ^ 32) :
    ∃ b, bitmapCreate nbits = .ok b ∧ b.nbits = nbits ∧
      ∀ i, i < b.words * bitsPerWord → (b.marked i = false ↔ i < nbits) := by
  rcases Nat.lt_or_ge (2 ^ 32 - 32) nbits with hbig | hsmall
  · -- the word count has wrapped to zero
    have hw := divRoundUp_of_gt hbig h
    refine ⟨⟨nbits, fun _ => 0#32⟩, ?_, rfl, ?_⟩
    · simp only [bitmapCreate, hw]
      rw [if_neg (Nat.not_lt_zero _)]
    · intro i hi
      rw [Bitmap.words, hw] at hi
      omega
  have hw := divRoundUp_of_le hsmall
  by_cases htail : (nbits + 31) / 32 > nbits / bitsPerWord
  · refine ⟨⟨nbits, Function.update (fun _ => 0#32) ((nbits + 31) / 32 - 1)
      (markTail (nbits - ((nbits + 31) / 32 - 1) * bitsPerWord) 0#32)⟩, ?_, rfl, ?_⟩
    · simp only [bitmapCreate, hw]
      rw [if_pos htail, if_pos (by rw [bitsPerWord_eq] at htail ⊢; omega)]
    · intro i hi
      rw [Bitmap.words, hw] at hi
      rw [bitsPerWord_eq] at hi htail
      simp only [Bitmap.marked]
      by_cases hix : i / bitsPerWord = (nbits + 31) / 32 - 1
      · rw [hix, Function.update_self, getLsbD_markTail (by rw [bitsPerWord_eq]; omega)
          (Nat.mod_lt _ (by decide)), decide_eq_false_iff_not]
        rw [bitsPerWord_eq] at hix ⊢
        omega
      · rw [Function.update_of_ne hix]
        simp only [BitVec.getLsbD_zero, true_iff]
        rw [bitsPerWord_eq] at hix
        omega
  · refine ⟨⟨nbits, fun _ => 0#32⟩, ?_, rfl, ?_⟩
    · simp only [bitmapCreate, hw]
      rw [if_neg htail]
    · intro i hi
      rw [Bitmap.words, hw] at hi
      rw [bitsPerWord_eq] at hi htail
      simp only [Bitmap.marked, BitVec.getLsbD_zero, true_iff]
      omega

/-- A fresh bitmap of at most `2 ^ 32 - 32` bits has exactly `nbits` slots. -/
theorem slots_of_bitmapCreate {nbits : Nat} (h : nbits ≤ 2 ^ 32 - 32) {b : Bitmap}
    (hb : bitmapCreate nbits = .ok b) : b.slots = Finset.range nbits := by
  have hlt : nbits < 2 ^ 32 := by omega
  obtain ⟨b', hb', hn, hmarked⟩ := bitmapCreate_ok hlt
  obtain rfl : b = b' := by rw [hb] at hb'; exact Except.ok.inj hb'
  have hw : b.words = (nbits + 31) / 32 := by rw [Bitmap.words, hn, divRoundUp_of_le h]
  ext i
  rw [Bitmap.mem_slots, Finset.mem_range, hw]
  constructor
  · rintro ⟨hi, hm⟩
    exact (hmarked i (by rw [hw]; exact hi)).mp hm
  · intro hi
    have hlt : i < (nbits + 31) / 32 * bitsPerWord := by rw [bitsPerWord_eq]; omega
    exact ⟨hlt, (hmarked i (by rw [hw]; exact hlt)).mpr hi⟩

/-! ## Allocation -/

/-- The word and the offset of an index. -/
theorem index_div_mod (ix : Nat) {offset : Nat} (ho : offset < bitsPerWord) :
    (ix * bitsPerWord + offset) / bitsPerWord = ix ∧
      (ix * bitsPerWord + offset) % bitsPerWord = offset := by
  rw [Nat.mul_comm]
  exact ⟨by rw [Nat.mul_add_div (by decide), Nat.div_eq_of_lt ho, Nat.add_zero],
    by rw [Nat.mul_add_mod, Nat.mod_eq_of_lt ho]⟩

theorem eq_index_iff {i ix offset : Nat} (ho : offset < bitsPerWord) :
    i = ix * bitsPerWord + offset ↔ i / bitsPerWord = ix ∧ i % bitsPerWord = offset := by
  constructor
  · rintro rfl
    exact index_div_mod ix ho
  · rintro ⟨rfl, rfl⟩
    rw [Nat.mul_comm]
    exact (Nat.div_add_mod i bitsPerWord).symm

/-- A store to one word. -/
theorem marked_update (b : Bitmap) (ix : Nat) (w : BitVec 32) (i : Nat) :
    ({ b with v := Function.update b.v ix w } : Bitmap).marked i =
      if i / bitsPerWord = ix then w.getLsbD (i % bitsPerWord) else b.marked i := by
  simp only [Bitmap.marked]
  split
  · rename_i hi
    rw [hi, Function.update_self]
  · rename_i hi
    rw [Function.update_of_ne hi]

/-- A clear bit of a word is a slot. -/
theorem mem_slots_of_clear {b : Bitmap} {ix offset : Nat} (hix : ix < b.words)
    (ho : offset < bitsPerWord) (hclear : (b.v ix).getLsbD offset = false) :
    ix * bitsPerWord + offset ∈ b.slots := by
  obtain ⟨hdiv, hmod⟩ := index_div_mod ix ho
  rw [Bitmap.mem_slots, Bitmap.marked, hdiv, hmod]
  refine ⟨?_, hclear⟩
  have := Nat.mul_le_mul_right bitsPerWord (Nat.succ_le_of_lt hix)
  rw [Nat.succ_mul] at this
  omega

theorem marked_or_bit (b : Bitmap) {ix offset : Nat} (ho : offset < bitsPerWord) (i : Nat) :
    ({ b with v := Function.update b.v ix (b.v ix ||| bit offset) } : Bitmap).marked i =
      (b.marked i || decide (i = ix * bitsPerWord + offset)) := by
  rw [marked_update]
  by_cases hi : i / bitsPerWord = ix
  · rw [if_pos hi, getLsbD_or_bit _ (show offset < 32 from ho), Bitmap.marked, hi]
    simp [eq_index_iff ho, hi]
  · rw [if_neg hi]
    simp [eq_index_iff ho, hi]

theorem wordAllbits_eq : wordAllbits = BitVec.allOnes 32 := by decide

/-- **Allocation takes the lowest free slot.** -/
theorem bitmapAlloc_ok {b : Bitmap} (htail : b.TailMarked) (hfree : b.slots.Nonempty) :
    ∃ i b', bitmapAlloc b = .ok (some i, b') ∧ i ∈ b.slots ∧ (∀ j ∈ b.slots, i ≤ j) ∧
      b'.nbits = b.nbits ∧ ∀ j, b'.marked j = (b.marked j || decide (j = i)) := by
  obtain ⟨j, hj⟩ := hfree
  rw [Bitmap.mem_slots] at hj
  have hfull : ∀ ix, b.v ix ≠ wordAllbits ↔ ∃ o, o < bitsPerWord ∧ (b.v ix).getLsbD o = false := by
    intro ix
    constructor
    · intro hne
      exact exists_clear_bit (wordAllbits_eq ▸ hne)
    · rintro ⟨o, ho, hclear⟩ hEq
      rw [hEq, wordAllbits_eq, BitVec.getLsbD_allOnes, decide_eq_false_iff_not] at hclear
      exact hclear ho
  -- the word search stops at the first word with a clear bit
  obtain ⟨ix, hix⟩ : ∃ ix, (List.range b.words).find? (fun ix => b.v ix != wordAllbits) = some ix := by
    rw [← Option.isSome_iff_exists, List.find?_isSome]
    refine ⟨j / bitsPerWord, List.mem_range.mpr ?_, ?_⟩
    · exact (Nat.div_lt_iff_lt_mul (by decide)).mpr hj.1
    · rw [bne_iff_ne, hfull]
      exact ⟨j % bitsPerWord, Nat.mod_lt _ (by decide), hj.2⟩
  obtain ⟨hixne, hixmin⟩ := List.find?_range_eq_some.mp hix
  obtain ⟨hixlt, hixmin⟩ := hixmin
  rw [List.mem_range] at hixlt
  obtain ⟨o, ho, hclear⟩ := (hfull ix).mp (by simpa using hixne)
  -- the bit search stops at the lowest clear bit of that word
  obtain ⟨offset, hoff⟩ : ∃ offset, (List.range bitsPerWord).find?
      (fun offset => !hasFlag (b.v ix) (bit offset)) = some offset := by
    rw [← Option.isSome_iff_exists, List.find?_isSome]
    exact ⟨o, List.mem_range.mpr ho, by rw [hasFlag_bit _ (show o < 32 from ho), hclear]; rfl⟩
  obtain ⟨hoffclear, hofflt, hoffmin⟩ := List.find?_range_eq_some.mp hoff
  rw [List.mem_range] at hofflt
  rw [hasFlag_bit _ (show offset < 32 from hofflt)] at hoffclear
  have hdiv := (index_div_mod ix hofflt).1
  have hmem : ix * bitsPerWord + offset ∈ b.slots :=
    mem_slots_of_clear hixlt hofflt (by simpa using hoffclear)
  have hwrap : wrap 32 ((ix * bitsPerWord + offset : Nat) : Int) = ix * bitsPerWord + offset :=
    wrap_of_lt (lt_trans (Bitmap.mem_slots.mp hmem).1 (words_lt b))
  refine ⟨ix * bitsPerWord + offset,
    { b with v := Function.update b.v ix (b.v ix ||| bit offset) }, ?_, hmem, ?_, rfl,
    marked_or_bit b hofflt⟩
  · simp only [bitmapAlloc, hix, hoff, hwrap]
    rw [if_pos (htail _ hmem)]
  · intro i hi
    rw [Bitmap.mem_slots] at hi
    by_contra hlt
    have hile : i / bitsPerWord ≤ ix := by
      rw [← hdiv]
      exact Nat.div_le_div_right (by omega)
    have hiclear : (b.v (i / bitsPerWord)).getLsbD (i % bitsPerWord) = false := hi.2
    rcases Nat.lt_or_ge (i / bitsPerWord) ix with hlo | hge
    · have := hixmin _ hlo
      rw [Bool.not_eq_true', bne_eq_false_iff_eq] at this
      exact (hfull _).mpr ⟨_, Nat.mod_lt _ (by decide), hiclear⟩ this
    · have hEq : i / bitsPerWord = ix := le_antisymm hile hge
      have hdm := Nat.div_add_mod i bitsPerWord
      rw [hEq, Nat.mul_comm] at hdm
      have hmlt : i % bitsPerWord < offset := by omega
      have := hoffmin _ hmlt
      rw [hasFlag_bit _ (show _ < 32 from lt_trans hmlt hofflt), ← hEq, hiclear] at this
      exact absurd this (by decide)

end Paging
end OsAssignments
