import Mathlib

/-!
# Reading text with `fgets` and `scanf`

The parts of C's formatted input a line-based reader needs, on lists of characters.

* `fgetsFrom` — the characters up to and including the next newline, a bounded number.
* `scanLx` — the conversion `%lx`: white space, a sign, `0x`, and hexadecimal digits.  It may
  run out of input before the first character, fail on a character that does not match, or
  give a value; the last two leave a rest to read on from.
* `Stops` — a rest no number can run into: `scanLx_append` reads a text in front of it as if
  the input ended there.
-/

namespace TextScan

/-- The characters of a file or a string. -/
abbrev Text := List UInt8

/-- `isspace`. -/
def isspace (c : UInt8) : Bool := c == 32 || (decide (9 ≤ c) && decide (c ≤ 13))

/-- The value of a hexadecimal digit. -/
def hexValue (c : UInt8) : Option Nat :=
  if 48 ≤ c ∧ c ≤ 57 then some (c.toNat - 48)
  else if 65 ≤ c ∧ c ≤ 70 then some (c.toNat - 55)
  else if 97 ≤ c ∧ c ≤ 102 then some (c.toNat - 87)
  else none

/-- `isxdigit`. -/
def isxdigit (c : UInt8) : Bool := (hexValue c).isSome

/-- A white-space directive. -/
def skipSpace (cs : Text) : Text := cs.dropWhile isspace

/-! ## Lines -/

/-- The loop of `fgets`, with room for `n` more characters. -/
def fgetsFrom : Nat → Text → Text × Text
  | 0, cs => ([], cs)
  | _ + 1, [] => ([], [])
  | n + 1, c :: cs =>
    if c = 10 then ([c], cs)
    else (c :: (fgetsFrom n cs).1, (fgetsFrom n cs).2)

/-- `fgets` splits the input. -/
theorem fgetsFrom_append (n : Nat) (cs : Text) : (fgetsFrom n cs).1 ++ (fgetsFrom n cs).2 = cs := by
  induction n generalizing cs with
  | zero => rfl
  | succ n ih =>
    cases cs with
    | nil => rfl
    | cons c cs =>
      rw [fgetsFrom]
      split
      · rfl
      · simp [ih cs]

/-! ## `%lx` -/

/-- How a conversion ends. -/
inductive Scanned where
  | inputFailure
  | matchFailure (rest : Text)
  | value (v : Nat) (rest : Text)
  deriving DecidableEq, Repr

/-- The same, with more input behind the rest. -/
def Scanned.append (post : Text) : Scanned → Scanned
  | inputFailure => inputFailure
  | matchFailure rest => matchFailure (rest ++ post)
  | value v rest => value v (rest ++ post)

/-- `strtoul` on digits of base 16, in 64 bits. -/
def strtoul (negative : Bool) (digits : Text) : Nat :=
  let v := (digits.filterMap hexValue).foldl (fun v d => 16 * v + d) 0
  if 2 ^ 64 ≤ v then 2 ^ 64 - 1
  else if negative then (2 ^ 64 - v) % 2 ^ 64
  else v

/-- The digits of a number, of which there has to be one. -/
def scanDigits (negative : Bool) (cs : Text) : Scanned :=
  if cs.takeWhile isxdigit = [] then .matchFailure cs
  else .value (strtoul negative (cs.takeWhile isxdigit)) (cs.dropWhile isxdigit)

/-- Skip `0x` or `0X`. -/
def skipPrefix (cs : Text) : Text :=
  if cs.take 2 = [48, 120] ∨ cs.take 2 = [48, 88] then cs.drop 2 else cs

/-- `%lx`. -/
def scanLx (cs : Text) : Scanned :=
  match skipSpace cs with
  | [] => .inputFailure
  | c :: rest =>
    if c = 45 then scanDigits true (skipPrefix rest)
    else if c = 43 then scanDigits false (skipPrefix rest)
    else scanDigits false (skipPrefix (c :: rest))

/-- White space in front of a number is skipped. -/
theorem skipSpace_append_of_all {cs : Text} (h : cs.all isspace = true) (post : Text) :
    skipSpace (cs ++ post) = skipSpace post := by
  induction cs with
  | nil => rfl
  | cons c cs ih =>
    rw [List.all_cons, Bool.and_eq_true] at h
    rw [List.cons_append, skipSpace, List.dropWhile_cons_of_pos h.1]
    exact ih h.2

theorem scanLx_append_of_all {cs : Text} (h : cs.all isspace = true) (post : Text) :
    scanLx (cs ++ post) = scanLx post := by
  rw [scanLx, scanLx, skipSpace_append_of_all h]

/-- The input runs out in front of a number only if there is nothing but white space. -/
theorem all_isspace_of_inputFailure {cs : Text} (h : scanLx cs = .inputFailure) :
    cs.all isspace = true := by
  have hdigits : ∀ negative cs, scanDigits negative cs ≠ .inputFailure := by
    intro negative cs
    rw [scanDigits]
    split <;> simp
  rw [scanLx] at h
  split at h
  · rename_i hnil
    rw [skipSpace, List.dropWhile_eq_nil_iff] at hnil
    exact List.all_eq_true.mpr hnil
  · split_ifs at h <;> exact absurd h (hdigits _ _)

/-! ## Text in front of a rest no number runs into -/

/-- The first character, if there is one, does not belong to a number. -/
def Stops (post : Text) : Prop :=
  ∀ c ∈ post.head?, isspace c = false ∧ isxdigit c = false ∧ c ≠ 120 ∧ c ≠ 88 ∧ c ≠ 43 ∧ c ≠ 45

namespace Stops

variable {post : Text}

theorem skipSpace_eq (h : Stops post) : skipSpace post = post := by
  cases post with
  | nil => rfl
  | cons c post => exact List.dropWhile_cons_of_neg (by simp [(h c rfl).1])

theorem skipSpace_append (h : Stops post) (cs : Text) :
    skipSpace (cs ++ post) = skipSpace cs ++ post := by
  rw [skipSpace, List.dropWhile_append]
  split
  · rename_i hnil
    rw [List.isEmpty_iff] at hnil
    rw [skipSpace, hnil]
    exact h.skipSpace_eq
  · rfl

theorem takeWhile_eq (h : Stops post) : post.takeWhile isxdigit = [] := by
  cases post with
  | nil => rfl
  | cons c post => exact List.takeWhile_cons_of_neg (by simp [(h c rfl).2.1])

theorem skipPrefix_eq (h : Stops post) : skipPrefix post = post := by
  cases post with
  | nil => rfl
  | cons c post =>
    have hc : c ≠ 48 := by
      rintro rfl
      exact absurd (h 48 rfl).2.1 (by decide)
    rw [skipPrefix, if_neg (by simp [hc])]

/-- A number does not start with it. -/
theorem scanLx_eq {c : UInt8} (h : Stops (c :: post)) :
    scanLx (c :: post) = .matchFailure (c :: post) := by
  obtain ⟨-, -, -, -, hplus, hminus⟩ := h c rfl
  rw [scanLx, h.skipSpace_eq]
  dsimp only
  rw [if_neg hminus, if_neg hplus, h.skipPrefix_eq, scanDigits, if_pos h.takeWhile_eq]

theorem skipPrefix_append (h : Stops post) (cs : Text) :
    skipPrefix (cs ++ post) = skipPrefix cs ++ post := by
  match cs with
  | [] => simpa [skipPrefix] using h.skipPrefix_eq
  | [d] =>
    cases post with
    | nil => simp
    | cons c post =>
      obtain ⟨-, -, hx, hX, -, -⟩ := h c rfl
      simp [skipPrefix, hx, hX]
  | d :: e :: cs =>
    rw [skipPrefix, skipPrefix]
    simp only [List.cons_append, List.take_succ_cons, List.take_zero, List.drop_succ_cons,
      List.drop_zero]
    split <;> rfl

theorem scanDigits_append (h : Stops post) (negative : Bool) (cs : Text) :
    scanDigits negative (cs ++ post) = (scanDigits negative cs).append post := by
  have htake : (cs ++ post).takeWhile isxdigit = cs.takeWhile isxdigit := by
    induction cs with
    | nil => simpa using h.takeWhile_eq
    | cons c cs ih =>
      rw [List.cons_append, List.takeWhile_cons, List.takeWhile_cons, ih]
  have hdrop : (cs ++ post).dropWhile isxdigit = cs.dropWhile isxdigit ++ post := by
    have hleft := List.takeWhile_append_dropWhile (p := isxdigit) (l := cs)
    have hboth := List.takeWhile_append_dropWhile (p := isxdigit) (l := cs ++ post)
    rw [htake] at hboth
    have hEq : cs.takeWhile isxdigit ++ (cs ++ post).dropWhile isxdigit
        = cs.takeWhile isxdigit ++ (cs.dropWhile isxdigit ++ post) := by
      rw [hboth, ← List.append_assoc, hleft]
    exact List.append_cancel_left hEq
  rw [scanDigits, scanDigits, htake, hdrop]
  split <;> rfl

/-- **A number ends before such a rest**, unless only white space stands in front of it. -/
theorem scanLx_append (h : Stops post) {cs : Text} (hcs : cs.all isspace = false) :
    scanLx (cs ++ post) = (scanLx cs).append post := by
  have hne : skipSpace cs ≠ [] := by
    intro hnil
    rw [skipSpace, List.dropWhile_eq_nil_iff] at hnil
    rw [List.all_eq_true.mpr hnil] at hcs
    exact absurd hcs (by decide)
  obtain ⟨c, rest, hrest⟩ := List.exists_cons_of_ne_nil hne
  rw [scanLx, scanLx, h.skipSpace_append, hrest, List.cons_append]
  dsimp only
  split_ifs
  · rw [h.skipPrefix_append, h.scanDigits_append]
  · rw [h.skipPrefix_append, h.scanDigits_append]
  · rw [← List.cons_append, h.skipPrefix_append, h.scanDigits_append]

end Stops

/-! ## Progress -/

theorem length_skipSpace_le (cs : Text) : (skipSpace cs).length ≤ cs.length :=
  (List.dropWhile_suffix isspace).length_le

theorem length_skipPrefix_le (cs : Text) : (skipPrefix cs).length ≤ cs.length := by
  rw [skipPrefix]
  split
  · simp
  · exact le_refl _

/-- The rest of a conversion is no longer than its input. -/
def Scanned.RestLe (n : Nat) : Scanned → Prop
  | inputFailure => True
  | matchFailure rest => rest.length ≤ n
  | value _ rest => rest.length ≤ n

theorem scanDigits_restLe (negative : Bool) {cs : Text} {n : Nat} (h : cs.length ≤ n) :
    (scanDigits negative cs).RestLe n := by
  rw [scanDigits]
  split
  · exact h
  · exact ((List.dropWhile_suffix isxdigit).length_le).trans h

theorem scanLx_restLe (cs : Text) : (scanLx cs).RestLe cs.length := by
  have hskip := length_skipSpace_le cs
  rw [scanLx]
  split
  · trivial
  · rename_i c rest hrest
    rw [hrest, List.length_cons] at hskip
    have hprefix := length_skipPrefix_le rest
    have hwhole := length_skipPrefix_le (c :: rest)
    rw [List.length_cons] at hwhole
    split_ifs <;> exact scanDigits_restLe _ (by omega)

end TextScan
