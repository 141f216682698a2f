import Mathlib

/-!
# Byte-addressed memory with little-endian fields

A memory is a function from addresses to bytes.  `readLE n` and `writeLE n` are
the loads and stores of an unsigned field of `n` bytes, `copyBytes` is the move
of a block between two memories (`memcpy`, `read`, `write`), `writeBytes` stores
a string of bytes and `fillBytes` is `memset`.

Every store is characterised by what it does outside its own range (nothing:
`writeLE_of_disjoint` and its companions) and by what is read back from inside
it (`readLE_writeLE`, `readLE_copyBytes`, `readLE_fillBytes_zero`).  `AgreeOn` is
equality of two memories on a range of addresses, and `AgreeOn.readLE` the frame
rule for loads.
-/

namespace ByteMemory

/-- A byte-addressed memory. -/
abbrev Memory := Nat → UInt8

/-! ## Loads and stores -/

/-- The unsigned little-endian field of `n` bytes at address `a`. -/
def readLE (mem : Memory) : Nat → Nat → Nat
  | 0, _ => 0
  | n + 1, a => (mem a).toNat + 256 * readLE mem n (a + 1)

/-- Store `v` in the field of `n` bytes at address `a`, keeping its low bytes. -/
def writeLE (n : Nat) (mem : Memory) (a v : Nat) : Memory := fun x =>
  if a ≤ x ∧ x < a + n then UInt8.ofNat (v / 256 ^ (x - a)) else mem x

/-- Copy `n` bytes from address `src` of `from_` to address `dst` of `mem`. -/
def copyBytes (n : Nat) (from_ : Memory) (src : Nat) (mem : Memory) (dst : Nat) : Memory :=
  fun x => if dst ≤ x ∧ x < dst + n then from_ (x - dst + src) else mem x

/-- Store a string of bytes at address `a`. -/
def writeBytes (mem : Memory) (a : Nat) (bs : List UInt8) : Memory := fun x =>
  if a ≤ x ∧ x < a + bs.length then bs.getD (x - a) 0 else mem x

/-- Fill `n` bytes from address `a` with `b`. -/
def fillBytes (n : Nat) (mem : Memory) (a : Nat) (b : UInt8) : Memory := fun x =>
  if a ≤ x ∧ x < a + n then b else mem x

/-- The `n` bytes from address `a` on. -/
def readBytes (mem : Memory) (n a : Nat) : List UInt8 := (List.range n).map fun i => mem (a + i)

/-! ## Frames -/

/-- Two memories agree on the `n` bytes from address `a` on. -/
def AgreeOn (mem mem' : Memory) (a n : Nat) : Prop := ∀ x, a ≤ x → x < a + n → mem' x = mem x

theorem AgreeOn.refl (mem : Memory) (a n : Nat) : AgreeOn mem mem a n := fun _ _ _ => rfl

theorem AgreeOn.trans {mem₁ mem₂ mem₃ : Memory} {a n : Nat} (h : AgreeOn mem₁ mem₂ a n)
    (h' : AgreeOn mem₂ mem₃ a n) : AgreeOn mem₁ mem₃ a n :=
  fun x hx hx' => (h' x hx hx').trans (h x hx hx')

theorem AgreeOn.symm {mem mem' : Memory} {a n : Nat} (h : AgreeOn mem mem' a n) :
    AgreeOn mem' mem a n := fun x hx hx' => (h x hx hx').symm

theorem AgreeOn.mono {mem mem' : Memory} {a n b m : Nat} (h : AgreeOn mem mem' a n)
    (hab : a ≤ b) (hbm : b + m ≤ a + n) : AgreeOn mem mem' b m :=
  fun x hx hx' => h x (by omega) (by omega)

/-- The frame rule for loads. -/
theorem AgreeOn.readLE {mem mem' : Memory} {a n : Nat} (h : AgreeOn mem mem' a n) :
    readLE mem' n a = readLE mem n a := by
  induction n generalizing a with
  | zero => rfl
  | succ n ih =>
    have htail : AgreeOn mem mem' (a + 1) n := h.mono (by omega) (by omega)
    rw [ByteMemory.readLE, ByteMemory.readLE, h a (le_refl a) (by omega), ih htail]

theorem AgreeOn.readBytes {mem mem' : Memory} {a n : Nat} (h : AgreeOn mem mem' a n) :
    readBytes mem' n a = readBytes mem n a :=
  List.map_congr_left fun i hi => h (a + i) (by omega) (by have := List.mem_range.mp hi; omega)

theorem writeLE_of_disjoint (n : Nat) (mem : Memory) (a v : Nat) {b m : Nat}
    (h : b + m ≤ a ∨ a + n ≤ b) : AgreeOn mem (writeLE n mem a v) b m :=
  fun _ _ _ => if_neg (by omega)

theorem copyBytes_of_disjoint (n : Nat) (from_ : Memory) (src : Nat) (mem : Memory) (dst : Nat)
    {b m : Nat} (h : b + m ≤ dst ∨ dst + n ≤ b) :
    AgreeOn mem (copyBytes n from_ src mem dst) b m :=
  fun _ _ _ => if_neg (by omega)

theorem writeBytes_of_disjoint (mem : Memory) (a : Nat) (bs : List UInt8) {b m : Nat}
    (h : b + m ≤ a ∨ a + bs.length ≤ b) : AgreeOn mem (writeBytes mem a bs) b m :=
  fun _ _ _ => if_neg (by omega)

theorem fillBytes_of_disjoint (n : Nat) (mem : Memory) (a : Nat) (c : UInt8) {b m : Nat}
    (h : b + m ≤ a ∨ a + n ≤ b) : AgreeOn mem (fillBytes n mem a c) b m :=
  fun _ _ _ => if_neg (by omega)

/-! ## Loads beside a store -/

theorem readLE_writeLE_of_disjoint (n : Nat) (mem : Memory) (a v : Nat) {b m : Nat}
    (h : b + m ≤ a ∨ a + n ≤ b) : readLE (writeLE n mem a v) m b = readLE mem m b :=
  (writeLE_of_disjoint n mem a v h).readLE

theorem readBytes_writeLE_of_disjoint (n : Nat) (mem : Memory) (a v : Nat) {b m : Nat}
    (h : b + m ≤ a ∨ a + n ≤ b) : readBytes (writeLE n mem a v) m b = readBytes mem m b :=
  (writeLE_of_disjoint n mem a v h).readBytes

/-! ## Reading back -/

theorem readLE_lt (mem : Memory) (n a : Nat) : readLE mem n a < 256 ^ n := by
  induction n generalizing a with
  | zero => simp [readLE]
  | succ n ih =>
    have hb : (mem a).toNat < 256 := (mem a).toNat_lt
    have := ih (a + 1)
    rw [readLE, pow_succ]
    omega

theorem writeLE_head (n : Nat) (mem : Memory) (a v : Nat) :
    writeLE (n + 1) mem a v a = UInt8.ofNat v := by
  rw [writeLE, if_pos (by omega), Nat.sub_self, pow_zero, Nat.div_one]

/-- Past its first byte, a store is the store of the quotient one address on. -/
theorem writeLE_tail (n : Nat) (mem : Memory) (a v : Nat) {x : Nat} (hx : a < x) :
    writeLE (n + 1) mem a v x = writeLE n mem (a + 1) (v / 256) x := by
  unfold writeLE
  by_cases hin : x < a + (n + 1)
  · rw [if_pos (by omega), if_pos (by omega), Nat.div_div_eq_div_mul, ← pow_succ',
      show x - (a + 1) + 1 = x - a by omega]
  · rw [if_neg (by omega), if_neg (by omega)]

theorem readLE_writeLE (n : Nat) (mem : Memory) (a v : Nat) :
    readLE (writeLE n mem a v) n a = v % 256 ^ n := by
  induction n generalizing a v with
  | zero => simp [readLE, Nat.mod_one]
  | succ n ih =>
    have htail : AgreeOn (writeLE n mem (a + 1) (v / 256)) (writeLE (n + 1) mem a v) (a + 1) n :=
      fun x hx _ => writeLE_tail n mem a v (by omega)
    have hmod : v % 256 ^ (n + 1) = v % 256 + 256 * (v / 256 % 256 ^ n) := by
      rw [pow_succ', Nat.mod_mul]
    rw [readLE, htail.readLE, ih, writeLE_head, UInt8.toNat_ofNat', hmod]

theorem readLE_writeLE_of_lt {n : Nat} (mem : Memory) (a : Nat) {v : Nat} (hv : v < 256 ^ n) :
    readLE (writeLE n mem a v) n a = v := by
  rw [readLE_writeLE, Nat.mod_eq_of_lt hv]

theorem readLE_copyBytes (n : Nat) (from_ : Memory) (src : Nat) (mem : Memory) (dst : Nat)
    {b m : Nat} (hb : dst ≤ b) (hm : b + m ≤ dst + n) :
    readLE (copyBytes n from_ src mem dst) m b = readLE from_ m (b - dst + src) := by
  induction m generalizing b with
  | zero => rfl
  | succ m ih =>
    have hhead : copyBytes n from_ src mem dst b = from_ (b - dst + src) := if_pos (by omega)
    rw [readLE, readLE, ih (by omega) (by omega), hhead,
      show b + 1 - dst + src = b - dst + src + 1 by omega]

theorem readLE_fillBytes_zero (n : Nat) (mem : Memory) (a : Nat) {b m : Nat} (hb : a ≤ b)
    (hm : b + m ≤ a + n) : readLE (fillBytes n mem a 0) m b = 0 := by
  induction m generalizing b with
  | zero => rfl
  | succ m ih =>
    have hhead : fillBytes n mem a 0 b = 0 := if_pos (by omega)
    rw [readLE, ih (by omega) (by omega), hhead]
    rfl

@[simp] theorem length_readBytes (mem : Memory) (n a : Nat) : (readBytes mem n a).length = n := by
  simp [readBytes]

theorem readBytes_prefix (mem : Memory) {m n : Nat} (a : Nat) (h : m ≤ n) :
    readBytes mem m a <+: readBytes mem n a := by
  obtain ⟨k, rfl⟩ := Nat.exists_eq_add_of_le h
  rw [readBytes, readBytes, List.range_add, List.map_append]
  exact List.prefix_append _ _

theorem readBytes_writeBytes (mem : Memory) (a : Nat) (bs : List UInt8) :
    readBytes (writeBytes mem a bs) bs.length a = bs := by
  refine List.ext_getElem (by simp) fun i hi hi' => ?_
  simp only [readBytes, List.getElem_map, List.getElem_range, writeBytes]
  rw [if_pos (by omega), Nat.add_sub_cancel_left, List.getD_eq_getElem _ _ hi']

end ByteMemory
