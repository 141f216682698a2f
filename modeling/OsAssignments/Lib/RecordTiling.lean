import Mathlib

/-!
# Variable-length records laid end to end

A region of addresses `[lo, hi)` is filled with records; the record at `a` is
`len a` bytes long and the next one starts right behind it.  A reader walks the
region by following the lengths.

* `walk` — the addresses such a reader visits.
* `Tiles` — a list of records covers the region exactly, every record meeting a
  condition `ok` of its own.  The walk of a tiled region is the tiling
  (`walk_eq_of_tiles`); any walk ends (`walk_eq_of_le`).
* `Tiles.split`, `Tiles.merge` — cutting one record in two and joining two
  neighbours give tilings again.
* `Tiles.congr` — a tiling only depends on the lengths and conditions of its own
  records.
-/

namespace RecordTiling

/-- The records visited from `a` on, until the end of the region or a record of
length zero; at most `fuel` of them. -/
def walk (len : Nat → Nat) (hi : Nat) : Nat → Nat → List Nat
  | 0, _ => []
  | fuel + 1, a => if a < hi ∧ 0 < len a then a :: walk len hi fuel (a + len a) else []

/-- The records `rs` cover `[lo, hi)` exactly, each of them meeting `ok`. -/
def Tiles (len : Nat → Nat) (ok : Nat → Prop) : Nat → List Nat → Nat → Prop
  | lo, [], hi => lo = hi
  | lo, r :: rs, hi => r = lo ∧ 0 < len r ∧ ok r ∧ Tiles len ok (lo + len r) rs hi

instance decidableTiles (len : Nat → Nat) (ok : Nat → Prop) [DecidablePred ok] :
    (lo : Nat) → (rs : List Nat) → (hi : Nat) → Decidable (Tiles len ok lo rs hi)
  | lo, [], hi => inferInstanceAs (Decidable (lo = hi))
  | lo, r :: rs, hi =>
    have := decidableTiles len ok (lo + len r) rs hi
    inferInstanceAs (Decidable (r = lo ∧ 0 < len r ∧ ok r ∧ Tiles len ok (lo + len r) rs hi))

variable {len len' : Nat → Nat} {ok ok' : Nat → Prop} {lo hi : Nat}

@[simp] theorem tiles_nil : Tiles len ok lo [] hi ↔ lo = hi := Iff.rfl

@[simp] theorem tiles_cons {r : Nat} {rs : List Nat} :
    Tiles len ok lo (r :: rs) hi ↔ r = lo ∧ 0 < len r ∧ ok r ∧ Tiles len ok (lo + len r) rs hi :=
  Iff.rfl

theorem tiles_append {l₁ l₂ : List Nat} :
    Tiles len ok lo (l₁ ++ l₂) hi ↔ ∃ mid, Tiles len ok lo l₁ mid ∧ Tiles len ok mid l₂ hi := by
  induction l₁ generalizing lo with
  | nil => simp
  | cons r rs ih => simp [ih, and_assoc]

theorem Tiles.le {rs : List Nat} (h : Tiles len ok lo rs hi) : lo ≤ hi := by
  induction rs generalizing lo with
  | nil => simpa using h.le
  | cons r rs ih =>
    obtain ⟨-, -, -, hrest⟩ := h
    have := ih hrest
    omega

/-- A record of a tiling lies inside the region and meets its condition. -/
theorem Tiles.of_mem {rs : List Nat} (h : Tiles len ok lo rs hi) {r : Nat} (hr : r ∈ rs) :
    lo ≤ r ∧ r + len r ≤ hi ∧ 0 < len r ∧ ok r := by
  induction rs generalizing lo with
  | nil => simp at hr
  | cons s rs ih =>
    obtain ⟨rfl, hpos, hok, hrest⟩ := h
    rcases List.mem_cons.mp hr with rfl | hr
    · exact ⟨le_refl r, hrest.le, hpos, hok⟩
    · obtain ⟨h₁, h₂⟩ := ih hrest hr
      exact ⟨by omega, h₂⟩

/-- A tiling starts every record before the next one. -/
theorem Tiles.pairwise {rs : List Nat} (h : Tiles len ok lo rs hi) : rs.Pairwise (· < ·) := by
  induction rs generalizing lo with
  | nil => exact List.Pairwise.nil
  | cons r rs ih =>
    obtain ⟨rfl, hpos, -, hrest⟩ := h
    refine List.Pairwise.cons (fun s hs => ?_) (ih hrest)
    have := (hrest.of_mem hs).1
    omega

/-- The walk of a tiled region visits its records and no others. -/
theorem walk_eq_of_tiles {rs : List Nat} (h : Tiles len ok lo rs hi) {fuel : Nat}
    (hfuel : hi - lo ≤ fuel) : walk len hi fuel lo = rs := by
  induction rs generalizing lo fuel with
  | nil =>
    obtain rfl : lo = hi := h
    cases fuel <;> simp [walk]
  | cons r rs ih =>
    obtain ⟨rfl, hpos, -, hrest⟩ := h
    have := hrest.le
    obtain ⟨fuel, rfl⟩ : ∃ k, fuel = k + 1 := ⟨fuel - 1, by omega⟩
    rw [walk, if_pos ⟨by omega, hpos⟩, ih hrest (by omega)]

/-- Every record a walk visits starts in the region and has a length. -/
theorem of_mem_walk {fuel a r : Nat} (h : r ∈ walk len hi fuel a) :
    a ≤ r ∧ r < hi ∧ 0 < len r := by
  induction fuel generalizing a with
  | zero => simp [walk] at h
  | succ fuel ih =>
    rw [walk] at h
    split at h
    · rename_i hin
      rcases List.mem_cons.mp h with rfl | h
      · exact ⟨le_refl r, hin⟩
      · obtain ⟨h₁, h₂⟩ := ih h
        exact ⟨by omega, h₂⟩
    · simp at h

/-- Every record has a length, so `hi - a` records are enough to leave the region. -/
theorem walk_eq_of_le {fuel fuel' a : Nat} (hfuel : hi - a ≤ fuel) (hle : fuel ≤ fuel') :
    walk len hi fuel' a = walk len hi fuel a := by
  induction fuel' generalizing fuel a with
  | zero =>
    obtain rfl : fuel = 0 := by omega
    rfl
  | succ fuel' ih =>
    cases fuel with
    | zero => rw [walk, walk, if_neg (by omega)]
    | succ fuel =>
      rw [walk, walk]
      split
      · rename_i hin
        have hrest : hi - (a + len a) ≤ fuel := by omega
        rw [ih hrest (by omega)]
      · rfl

theorem Tiles.congr {rs : List Nat} (h : Tiles len ok lo rs hi)
    (hlen : ∀ r ∈ rs, len' r = len r) (hok : ∀ r ∈ rs, ok r → ok' r) :
    Tiles len' ok' lo rs hi := by
  induction rs generalizing lo with
  | nil => exact h
  | cons r rs ih =>
    obtain ⟨rfl, hpos, hr, hrest⟩ := h
    have hlr : len' r = len r := hlen r (by simp)
    refine ⟨rfl, by omega, hok r (by simp) hr, ?_⟩
    rw [hlr]
    exact ih hrest (fun s hs => hlen s (by simp [hs])) (fun s hs => hok s (by simp [hs]))

/-- Cutting the record `r` after `k` of its bytes. -/
theorem Tiles.split {l₁ l₂ : List Nat} {r k : Nat} (h : Tiles len ok lo (l₁ ++ r :: l₂) hi)
    (hlen : ∀ s ∈ l₁ ++ l₂, len' s = len s) (hok : ∀ s ∈ l₁ ++ l₂, ok s → ok' s)
    (hr : len' r = k) (hrest : len' (r + k) = len r - k) (hk : 0 < k) (hkr : k < len r)
    (hokr : ok' r) (hoks : ok' (r + k)) : Tiles len' ok' lo (l₁ ++ r :: (r + k) :: l₂) hi := by
  obtain ⟨mid, h₁, rfl, hpos, -, h₂⟩ := tiles_append.mp h
  refine tiles_append.mpr ⟨r, ?_, rfl, by omega, hokr, by omega, by omega, hoks, ?_⟩
  · exact h₁.congr (fun s hs => hlen s (by simp [hs])) (fun s hs => hok s (by simp [hs]))
  · have hend : r + len' r + len' (r + k) = r + len r := by omega
    rw [hend]
    exact h₂.congr (fun s hs => hlen s (by simp [hs])) (fun s hs => hok s (by simp [hs]))

/-- Joining the record `r` to its predecessor `p`. -/
theorem Tiles.merge {l₁ l₂ : List Nat} {p r : Nat} (h : Tiles len ok lo (l₁ ++ p :: r :: l₂) hi)
    (hlen : ∀ s ∈ l₁ ++ l₂, len' s = len s) (hok : ∀ s ∈ l₁ ++ l₂, ok s → ok' s)
    (hp : len' p = len p + len r) (hokp : ok' p) : Tiles len' ok' lo (l₁ ++ p :: l₂) hi := by
  obtain ⟨mid, h₁, rfl, hpos, -, -, -, -, h₂⟩ := tiles_append.mp h
  refine tiles_append.mpr ⟨p, ?_, rfl, by omega, hokp, ?_⟩
  · exact h₁.congr (fun s hs => hlen s (by simp [hs])) (fun s hs => hok s (by simp [hs]))
  · have hend : p + len' p = p + len p + len r := by omega
    rw [hend]
    exact h₂.congr (fun s hs => hlen s (by simp [hs])) (fun s hs => hok s (by simp [hs]))

end RecordTiling
