import Mathlib

/-!
# The recency stack of a reference string

Every reference moves its page to the top of a stack.  A memory of `k` frames that always
evicts the page referenced least recently holds the `k` pages at the top, so the memories of
all sizes are cuts of one and the same stack.

* `touch`, `top`, `misses` — the stack, the pages such a memory holds, and its misses.
* `Recent` — time stamps that grow towards the top of the stack.
* `top_touch_of_mem`, `top_touch_of_room`, `Recent.top_touch_of_full` — a hit, a fill, and an
  eviction of the page with the smallest time stamp, seen on the stack.
* `misses_antitone` — a larger memory does not miss more.
* `inTurn` — two pages referenced in turn, which miss every time in one frame and twice in two.
-/

namespace RecencyStack

variable {Page : Type*} [DecidableEq Page]

/-- A reference moves its page to the top. -/
def touch (stack : List Page) (r : Page) : List Page := r :: stack.erase r

/-- The `k` pages at the top. -/
def top (k : Nat) (stack : List Page) : Finset Page := (stack.take k).toFinset

/-- The references to pages that are not among the `k` at the top. -/
def misses (k : Nat) : List Page → List Page → Nat
  | _, [] => 0
  | stack, r :: refs => (if r ∈ top k stack then 0 else 1) + misses k (touch stack r) refs

/-! ## Sizes -/

theorem mem_top {k : Nat} {stack : List Page} {p : Page} : p ∈ top k stack ↔ p ∈ stack.take k :=
  List.mem_toFinset

theorem top_mono {k l : Nat} (h : k ≤ l) (stack : List Page) : top k stack ⊆ top l stack := by
  intro p hp
  rw [mem_top] at hp ⊢
  exact (List.take_prefix_take_left h).subset hp

theorem card_top {stack : List Page} (h : stack.Nodup) (k : Nat) :
    (top k stack).card = min k stack.length := by
  rw [top, List.toFinset_card_of_nodup (h.sublist (List.take_sublist k stack)), List.length_take]

/-- **A larger memory does not miss more.** -/
theorem misses_antitone {k l : Nat} (h : k ≤ l) (stack refs : List Page) :
    misses l stack refs ≤ misses k stack refs := by
  induction refs generalizing stack with
  | nil => exact le_refl _
  | cons r refs ih =>
    have hrest := ih (touch stack r)
    have hsub : r ∈ top k stack → r ∈ top l stack := fun hr => top_mono h stack hr
    rw [misses, misses]
    split_ifs with hl hk hk
    · omega
    · omega
    · exact absurd (hsub hk) hl
    · omega

/-! ## A reference -/

/-- A hit leaves the pages at the top. -/
theorem top_touch_of_mem {k : Nat} {stack : List Page} {r : Page} (hnd : stack.Nodup)
    (hr : r ∈ top k stack) : top k (touch stack r) = top k stack := by
  obtain ⟨l₁, l₂, hsplit⟩ := List.append_of_mem (mem_top.mp hr)
  obtain ⟨k, rfl⟩ : ∃ j, k = j + 1 := by
    refine ⟨k - 1, ?_⟩
    rcases k with - | k
    · simp at hsplit
    · rfl
  have hstack : stack = l₁ ++ r :: (l₂ ++ stack.drop (k + 1)) := by
    rw [← List.cons_append, ← List.append_assoc, ← hsplit, List.take_append_drop]
  have hnot : r ∉ l₁ := by
    rw [hstack] at hnd
    exact fun hmem => (List.nodup_append.mp hnd).2.2 r hmem r (by simp) rfl
  have hlen : l₁.length + l₂.length ≤ k := by
    have := congrArg List.length hsplit
    rw [List.length_take, List.length_append, List.length_cons] at this
    omega
  have herase : stack.erase r = l₁ ++ (l₂ ++ stack.drop (k + 1)) := by
    conv_lhs => rw [hstack]
    rw [List.erase_append_right _ hnot, List.erase_cons_head]
  have htake : (stack.erase r).take k = l₁ ++ l₂ := by
    have hfull : l₁.length + l₂.length = k ∨ stack.drop (k + 1) = [] := by
      have hcount := congrArg List.length hsplit
      rw [List.length_take, List.length_append, List.length_cons] at hcount
      rw [List.drop_eq_nil_iff]
      omega
    rw [herase, ← List.append_assoc]
    rcases hfull with hfull | hnil
    · exact List.take_left' (by simpa using hfull)
    · rw [hnil, List.append_nil]
      exact List.take_of_length_le (by simpa using hlen)
  ext p
  rw [mem_top, mem_top, touch, List.take_succ_cons, htake, hsplit]
  simp only [List.mem_cons, List.mem_append]
  tauto

/-- A miss pushes everything but the last page one place down. -/
theorem take_touch_of_notMem {k : Nat} {stack : List Page} {r : Page}
    (hr : r ∉ top (k + 1) stack) : (touch stack r).take (k + 1) = r :: stack.take k := by
  rw [mem_top] at hr
  rw [touch, List.take_succ_cons]
  congr 1
  rcases Nat.lt_or_ge k stack.length with hlt | hge
  · have herase : stack.erase r = stack.take (k + 1) ++ (stack.drop (k + 1)).erase r := by
      conv_lhs => rw [← List.take_append_drop (k + 1) stack]
      exact List.erase_append_right _ hr
    have hlen : k ≤ (stack.take (k + 1)).length := by
      rw [List.length_take]
      omega
    rw [herase, List.take_append_of_le_length hlen, List.take_take]
    congr 1
    omega
  · rw [List.take_of_length_le (by omega)] at hr
    rw [List.erase_of_not_mem hr]

theorem top_touch_of_room {k : Nat} {stack : List Page} {r : Page} (hnd : stack.Nodup)
    (hr : r ∉ top k stack) (hroom : (top k stack).card < k) :
    top k (touch stack r) = insert r (top k stack) := by
  rw [card_top hnd] at hroom
  obtain ⟨k, rfl⟩ : ∃ j, k = j + 1 := ⟨k - 1, by omega⟩
  rw [top, take_touch_of_notMem hr, List.take_of_length_le (by omega), List.toFinset_cons, top,
    List.take_of_length_le (by omega)]

/-! ## Time stamps -/

/-- The pages of the stack carry time stamps before `now` that grow towards the top. -/
structure Recent (stack : List Page) (time : Page → Nat) (now : Nat) : Prop where
  sorted : stack.Pairwise fun p q => time q < time p
  before : ∀ p ∈ stack, time p < now

omit [DecidableEq Page] in
theorem Recent.nil (time : Page → Nat) (now : Nat) : Recent [] time now :=
  ⟨.nil, by simp⟩

namespace Recent

variable {stack : List Page} {time : Page → Nat} {now : Nat}

omit [DecidableEq Page] in
theorem nodup (h : Recent stack time now) : stack.Nodup :=
  h.sorted.imp fun hlt heq => by
    subst heq
    exact lt_irrefl _ hlt

/-- A reference stamps its page with the present time. -/
theorem touch (h : Recent stack time now) (r : Page) :
    Recent (touch stack r) (Function.update time r now) (now + 1) := by
  have hne : ∀ p ∈ stack.erase r, p ≠ r := fun p hp => ((h.nodup.mem_erase_iff).mp hp).1
  have hmem : ∀ p ∈ stack.erase r, p ∈ stack := fun p hp => List.mem_of_mem_erase hp
  refine ⟨List.Pairwise.cons (fun p hp => ?_) ?_, fun p hp => ?_⟩
  · rw [Function.update_self, Function.update_of_ne (hne p hp)]
    exact h.before p (hmem p hp)
  · refine (h.sorted.sublist List.erase_sublist).imp_of_mem fun {p q} hp hq hlt => ?_
    rw [Function.update_of_ne (hne p hp), Function.update_of_ne (hne q hq)]
    exact hlt
  · rcases List.mem_cons.mp hp with rfl | hp
    · rw [Function.update_self]
      omega
    · rw [Function.update_of_ne (hne p hp)]
      have := h.before p (hmem p hp)
      omega

/-- **An eviction drops the last of the pages at the top**, the one with the smallest time
stamp. -/
theorem top_touch_of_full (h : Recent stack time now) {k : Nat} {r v : Page} (hr : r ∉ top k stack)
    (hfull : k ≤ (top k stack).card) (hv : v ∈ top k stack)
    (hmin : ∀ p ∈ top k stack, time v ≤ time p) :
    top k (RecencyStack.touch stack r) = insert r ((top k stack).erase v) := by
  obtain ⟨k, rfl⟩ : ∃ j, k = j + 1 := by
    refine ⟨k - 1, ?_⟩
    rcases k with - | k
    · simp [top] at hv
    · rfl
  rw [card_top h.nodup] at hfull
  have hk : k < stack.length := by omega
  have htake : stack.take (k + 1) = stack.take k ++ [stack[k]] := (List.take_append_getElem hk).symm
  have hsorted : (stack.take k ++ [stack[k]]).Pairwise fun p q => time q < time p := by
    rw [← htake]
    exact h.sorted.sublist (List.take_sublist _ _)
  have hlast : ∀ p ∈ stack.take k, time stack[k] < time p := fun p hp =>
    (List.pairwise_append.mp hsorted).2.2 p hp _ (by simp)
  have hvlast : v = stack[k] := by
    rw [mem_top, htake, List.mem_append, List.mem_singleton] at hv
    refine hv.resolve_left fun hvk => ?_
    have hmem : stack[k] ∈ stack.take (k + 1) := by
      rw [htake]
      exact List.mem_append_right _ (List.mem_singleton_self _)
    have hle := hmin stack[k] (mem_top.mpr hmem)
    have := hlast v hvk
    omega
  have hnot : v ∉ stack.take k := by
    intro hvk
    have := hlast v hvk
    rw [← hvlast] at this
    omega
  rw [top, take_touch_of_notMem hr, List.toFinset_cons, top, htake, hvlast,
    List.toFinset_append, List.toFinset_cons, List.toFinset_nil]
  rw [hvlast] at hnot
  congr 1
  ext p
  simp only [Finset.mem_erase, Finset.mem_union, List.mem_toFinset, Finset.mem_insert,
    Finset.notMem_empty, or_false]
  constructor
  · exact fun hp => ⟨fun hEq => hnot (hEq ▸ hp), .inl hp⟩
  · rintro ⟨hne, hp | hp⟩
    · exact hp
    · exact absurd hp hne

end Recent

/-! ## Two pages in turn -/

/-- `n` references to two pages in turn. -/
def inTurn (p q : Page) : Nat → List Page
  | 0 => []
  | n + 1 => p :: inTurn q p n

omit [DecidableEq Page] in
theorem length_inTurn (p q : Page) (n : Nat) : (inTurn p q n).length = n := by
  induction n generalizing p q with
  | zero => rfl
  | succ n ih => rw [inTurn, List.length_cons, ih]

omit [DecidableEq Page] in
theorem mem_inTurn {p q r : Page} {n : Nat} (h : r ∈ inTurn p q n) : r = p ∨ r = q := by
  induction n generalizing p q with
  | zero => cases h
  | succ n ih =>
    rcases List.mem_cons.mp h with rfl | h
    · exact .inl rfl
    · exact (ih h).symm

section

variable {p q : Page}

/-- One frame holds the other page. -/
theorem misses_one_inTurn_cons (hpq : p ≠ q) (n : Nat) (stack : List Page) :
    misses 1 (q :: stack) (inTurn p q n) = n := by
  induction n generalizing p q stack with
  | zero => rfl
  | succ n ih =>
    have hmiss : p ∉ top 1 (q :: stack) := by simp [top, hpq]
    have htouch : touch (q :: stack) p = p :: q :: stack.erase p := by
      rw [touch, List.erase_cons_tail (by simpa using Ne.symm hpq)]
    rw [inTurn, misses, if_neg hmiss, htouch, ih hpq.symm, Nat.add_comm]

/-- One frame misses every time. -/
theorem misses_one_inTurn (hpq : p ≠ q) (n : Nat) : misses 1 [] (inTurn p q n) = n := by
  cases n with
  | zero => rfl
  | succ n =>
    have hmiss : p ∉ top 1 ([] : List Page) := by simp [top]
    have hrest : misses 1 [p] (inTurn q p n) = n := misses_one_inTurn_cons hpq.symm n []
    rw [inTurn, misses, if_neg hmiss, touch, List.erase_nil, hrest, Nat.add_comm]

/-- Two frames hold both pages. -/
theorem misses_two_inTurn_cons (hpq : p ≠ q) (n : Nat) : misses 2 [q, p] (inTurn p q n) = 0 := by
  induction n generalizing p q with
  | zero => rfl
  | succ n ih =>
    have hhit : p ∈ top 2 [q, p] := by simp [top]
    have htouch : touch [q, p] p = [p, q] := by simp [touch, Ne.symm hpq]
    rw [inTurn, misses, if_pos hhit, htouch, ih hpq.symm]

/-- Two frames miss twice. -/
theorem misses_two_inTurn (hpq : p ≠ q) {n : Nat} (hn : 2 ≤ n) :
    misses 2 [] (inTurn p q n) = 2 := by
  obtain ⟨n, rfl⟩ := Nat.exists_eq_add_of_le' hn
  have hfirst : p ∉ top 2 ([] : List Page) := by simp [top]
  have hsecond : q ∉ top 2 [p] := by simp [top, Ne.symm hpq]
  have htouch : touch [p] q = [q, p] := by simp [touch, hpq]
  rw [inTurn, inTurn, misses, misses, if_neg hfirst, touch, List.erase_nil, if_neg hsecond, htouch,
    misses_two_inTurn_cons hpq]

end

end RecencyStack
