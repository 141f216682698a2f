import OsAssignments.Lib.RecencyStack

/-!
# Windows of a reference string

A reference string is cut from the front into windows of at most `k` different pages, each as long
as that allows.  In a memory of at least `k` frames that evicts the page referenced least recently,
only the first reference of a window to a page can miss.

* `firstRefs`, `lastRefs` — the pages of a window in the order of their first and of their last
  references.
* `cut` — the full windows and the window that the end of the string leaves unfinished.
* `foldl_touch` — the recency stack behind a window has its last references on top.
* `misses_firstRefs` — the first references of a window miss as often as the window.
* `reduced_misses_iff` — keeping the first references of all full windows keeps the misses exactly
  if the unfinished window has none, provided that the order of the references to drop does not
  matter.
-/

namespace TraceWindows

open RecencyStack

variable {Page : Type*} [DecidableEq Page] {k m : Nat} {stack w refs : List Page} {p r : Page}

/-! ## First and last references -/

/-- The pages in the order of their first references. -/
def firstRefs (w : List Page) : List Page := w.eraseDups

/-- The pages in the order of their last references. -/
def lastRefs (w : List Page) : List Page := w.dedup

@[simp] theorem mem_firstRefs : p ∈ firstRefs w ↔ p ∈ w := List.mem_eraseDups

@[simp] theorem mem_lastRefs : p ∈ lastRefs w ↔ p ∈ w := List.mem_dedup

theorem nodup_lastRefs (w : List Page) : (lastRefs w).Nodup := List.nodup_dedup w

@[simp] theorem firstRefs_nil : firstRefs ([] : List Page) = [] := rfl

theorem firstRefs_concat (w : List Page) (r : Page) :
    firstRefs (w ++ [r]) = if r ∈ w then firstRefs w else firstRefs w ++ [r] := by
  rw [firstRefs, List.eraseDups_append]
  have hone : [r].eraseDups = [r] := rfl
  split <;> rename_i hr <;> simp [List.removeAll, hr, firstRefs, hone]

theorem nodup_firstRefs (w : List Page) : (firstRefs w).Nodup := by
  induction w using List.reverseRecOn with
  | nil => exact List.nodup_nil
  | append_singleton w r ih =>
    rw [firstRefs_concat]
    split
    · exact ih
    · rename_i hr
      refine ih.append (List.nodup_singleton r) ?_
      simpa using hr

theorem firstRefs_perm_lastRefs (w : List Page) : (firstRefs w).Perm (lastRefs w) :=
  (List.perm_ext_iff_of_nodup (nodup_firstRefs w) (nodup_lastRefs w)).mpr fun p => by simp

theorem length_firstRefs (w : List Page) : (firstRefs w).length = w.toFinset.card := by
  rw [← List.toFinset_card_of_nodup (nodup_firstRefs w)]
  congr 1
  ext p
  simp

theorem length_firstRefs_mono {xs : List Page} (h : xs ⊆ w) :
    (firstRefs xs).length ≤ (firstRefs w).length := by
  rw [length_firstRefs, length_firstRefs]
  refine Finset.card_le_card fun p hp => ?_
  rw [List.mem_toFinset] at hp ⊢
  exact h hp

/-! ## The recency stack behind a window -/

/-- **The stack behind a window**: its pages on top, by their last references. -/
theorem foldl_touch (hS : stack.Nodup) (w : List Page) :
    w.foldl touch stack = (lastRefs w).reverse ++ stack.filter (· ∉ w) := by
  induction w generalizing stack with
  | nil => simp [lastRefs]
  | cons r w ih =>
    have hnodup : (touch stack r).Nodup := by
      refine List.nodup_cons.mpr ⟨?_, hS.erase r⟩
      exact fun hr => ((hS.mem_erase_iff).mp hr).1 rfl
    have hfilter : (stack.erase r).filter (· ∉ w) = stack.filter (· ∉ r :: w) := by
      rw [hS.erase_eq_filter, List.filter_filter]
      refine List.filter_congr fun p _ => ?_
      by_cases hp : p = r <;> simp [hp]
    rw [List.foldl_cons, ih hnodup, touch, List.filter_cons, hfilter, lastRefs, lastRefs]
    by_cases hr : r ∈ w
    · rw [List.dedup_cons_of_mem hr, if_neg (by simpa using hr)]
    · rw [List.dedup_cons_of_notMem hr, if_pos (by simpa using hr), List.reverse_cons,
        List.append_assoc]
      rfl

theorem foldl_touch_nil (w : List Page) : w.foldl touch [] = (lastRefs w).reverse := by
  rw [foldl_touch List.nodup_nil, List.filter_nil, List.append_nil]

theorem nodup_foldl_touch (hS : stack.Nodup) (w : List Page) : (w.foldl touch stack).Nodup := by
  rw [foldl_touch hS]
  refine ((List.nodup_reverse.mpr (nodup_lastRefs w)).append (hS.filter _)) ?_
  intro p hp hp'
  simp_all

/-- The stack behind the first references of a window. -/
theorem foldl_touch_firstRefs (hS : stack.Nodup) (w : List Page) :
    (firstRefs w).foldl touch stack = (firstRefs w).reverse ++ stack.filter (· ∉ w) := by
  rw [foldl_touch hS, lastRefs, (nodup_firstRefs w).dedup]
  simp

/-! ## Misses of a window -/

theorem misses_append (m : Nat) (stack w refs : List Page) :
    misses m stack (w ++ refs) = misses m stack w + misses m (w.foldl touch stack) refs := by
  induction w generalizing stack with
  | nil => rw [List.nil_append, List.foldl_nil, misses, Nat.zero_add]
  | cons r w ih =>
    rw [List.cons_append, misses, misses, ih, List.foldl_cons, Nat.add_assoc]

theorem misses_singleton (m : Nat) (stack : List Page) (r : Page) :
    misses m stack [r] = if r ∈ top m stack then 0 else 1 := rfl

/-- Whether a page below two lists of the same length is at the top does not depend on them. -/
theorem mem_top_append_congr {xs ys rest : List Page} (hlen : xs.length = ys.length)
    (hx : p ∉ xs) (hy : p ∉ ys) : p ∈ top m (xs ++ rest) ↔ p ∈ top m (ys ++ rest) := by
  have hx' : p ∉ xs.take m := fun h => hx (List.mem_of_mem_take h)
  have hy' : p ∉ ys.take m := fun h => hy (List.mem_of_mem_take h)
  rw [mem_top, mem_top, List.take_append, List.take_append, List.mem_append, List.mem_append, hlen]
  simp [hx', hy']

/-- **Only the first references of a window can miss**, if its pages fit into the memory. -/
theorem misses_firstRefs (hS : stack.Nodup) (h : (firstRefs w).length ≤ m) :
    misses m stack (firstRefs w) = misses m stack w := by
  induction w using List.reverseRecOn with
  | nil => rfl
  | append_singleton w r ih =>
    rw [firstRefs_concat] at h ⊢
    have hlen : (firstRefs w).length = (lastRefs w).length := (firstRefs_perm_lastRefs w).length_eq
    split at h
    · rename_i hr
      have htop : r ∈ top m (w.foldl touch stack) := by
        rw [foldl_touch hS, mem_top, List.take_append]
        refine List.mem_append_left _ ?_
        rw [List.take_of_length_le (by rw [List.length_reverse]; omega)]
        simpa using hr
      rw [if_pos hr, misses_append, misses_singleton, if_pos htop, ih h,
        Nat.add_zero]
    · rename_i hr
      rw [List.length_append, List.length_singleton] at h
      have htop : r ∈ top m ((firstRefs w).foldl touch stack) ↔
          r ∈ top m (w.foldl touch stack) := by
        rw [foldl_touch_firstRefs hS, foldl_touch hS]
        refine mem_top_append_congr (by simpa using hlen) ?_ ?_ <;> simpa using hr
      rw [if_neg hr, misses_append, misses_append, misses_singleton, misses_singleton,
        ih (by omega)]
      simp only [htop]

/-- A string misses nothing exactly if all its pages are at the top. -/
theorem misses_eq_zero_iff (hS : stack.Nodup) :
    misses m stack refs = 0 ↔ ∀ p ∈ refs, p ∈ top m stack := by
  induction refs generalizing stack with
  | nil => simp [misses]
  | cons r refs ih =>
    have hnodup : (touch stack r).Nodup := nodup_foldl_touch hS [r]
    rw [misses, List.forall_mem_cons]
    by_cases hr : r ∈ top m stack
    · rw [if_pos hr, Nat.zero_add, ih hnodup, top_touch_of_mem hS hr, and_iff_right hr]
    · rw [if_neg hr]
      simp [hr]

/-- Pages that have not been referenced miss. -/
theorem misses_of_fresh (hr : refs.Nodup) (h : ∀ p ∈ refs, p ∉ stack) :
    misses m stack refs = refs.length := by
  induction refs generalizing stack with
  | nil => rfl
  | cons r refs ih =>
    obtain ⟨hnot, hr⟩ := List.nodup_cons.mp hr
    rw [List.forall_mem_cons] at h
    have hmiss : r ∉ top m stack := fun hmem => h.1 (List.mem_of_mem_take (mem_top.mp hmem))
    have hrest : misses m (touch stack r) refs = refs.length := ih hr fun p hp hmem => by
      rcases List.mem_cons.mp hmem with rfl | hmem
      · exact hnot hp
      · exact h.2 p hp (List.mem_of_mem_erase hmem)
    rw [misses, if_neg hmiss, hrest, List.length_cons, Nat.add_comm]

/-- A memory for all pages misses each of them once. -/
theorem misses_of_fits (h : (firstRefs refs).length ≤ m) :
    misses m [] refs = refs.toFinset.card := by
  rw [← misses_firstRefs List.nodup_nil h, misses_of_fresh (nodup_firstRefs refs) (by simp),
    length_firstRefs]

/-! ## The windows of a string -/

/-- The full windows and the unfinished one, behind the references `w` of the present window. -/
def cut (k : Nat) (w : List Page) : List Page → List (List Page) × List Page
  | [] => ([], w)
  | r :: refs =>
    if r ∈ w then cut k (w ++ [r]) refs
    else if (firstRefs w).length = k then (w :: (cut k [r] refs).1, (cut k [r] refs).2)
    else cut k (w ++ [r]) refs

/-- The windows make up the string. -/
theorem cut_flatten (k : Nat) (w refs : List Page) :
    (cut k w refs).1.flatten ++ (cut k w refs).2 = w ++ refs := by
  induction refs generalizing w with
  | nil => simp [cut]
  | cons r refs ih =>
    rw [cut]
    split_ifs
    · rw [ih, List.append_assoc, List.singleton_append]
    · rw [List.flatten_cons, List.append_assoc, ih, List.singleton_append]
    · rw [ih, List.append_assoc, List.singleton_append]

theorem cut_subset (k : Nat) (refs : List Page) : (cut k [] refs).1.flatten ⊆ refs := by
  have hsplit : (cut k [] refs).1.flatten ++ (cut k [] refs).2 = refs := cut_flatten k [] refs
  intro p hp
  rw [← hsplit]
  exact List.mem_append_left _ hp

/-- No window has more than `k` pages. -/
theorem length_cut_le (hk : 1 ≤ k) (hw : (firstRefs w).length ≤ k) (refs : List Page) :
    ∀ x ∈ (cut k w refs).1, (firstRefs x).length ≤ k := by
  induction refs generalizing w with
  | nil => simp [cut]
  | cons r refs ih =>
    rw [cut]
    split_ifs with hr hfull
    · exact ih (by rwa [firstRefs_concat, if_pos hr])
    · rw [List.forall_mem_cons]
      exact ⟨hw, ih (show [r].length ≤ k from hk)⟩
    · refine ih ?_
      rw [firstRefs_concat, if_neg hr, List.length_append, List.length_singleton]
      omega

/-- The first references of the windows, one window after the other. -/
def reduced (ws : List (List Page)) : List Page := (ws.map firstRefs).flatten

/-- Windows with the same order of first and of last references. -/
def InOrder (ws : List (List Page)) : Prop := ∀ w ∈ ws, lastRefs w = firstRefs w

/-- **Dropping repeated references** changes neither the misses nor the stack, if it does not
change the order in any window. -/
theorem InOrder.reduced_eq {ws : List (List Page)} (h : InOrder ws) (hS : stack.Nodup)
    (hm : ∀ w ∈ ws, (firstRefs w).length ≤ m) :
    misses m stack (reduced ws) = misses m stack ws.flatten ∧
      (reduced ws).foldl touch stack = ws.flatten.foldl touch stack := by
  induction ws generalizing stack with
  | nil => exact ⟨rfl, rfl⟩
  | cons w ws ih =>
    rw [InOrder, List.forall_mem_cons] at h
    rw [List.forall_mem_cons] at hm
    have hstack : (firstRefs w).foldl touch stack = w.foldl touch stack := by
      rw [foldl_touch_firstRefs hS, foldl_touch hS, h.1]
    obtain ⟨hmisses, hrest⟩ := ih h.2 (nodup_foldl_touch hS w) hm.2
    have hcons : reduced (w :: ws) = firstRefs w ++ reduced ws := rfl
    rw [hcons, List.flatten_cons, misses_append, misses_append, List.foldl_append,
      List.foldl_append, hstack, misses_firstRefs hS hm.1]
    exact ⟨by rw [hmisses], hrest⟩

theorem toFinset_reduced (ws : List (List Page)) :
    (reduced ws).toFinset = ws.flatten.toFinset := by
  ext p
  simp [reduced]

/-- The same in a memory that all pages fit into: the order does not matter there. -/
theorem reduced_misses_iff_of_fits (h : (firstRefs refs).length ≤ m) :
    misses m [] (reduced (cut k [] refs).1) = misses m [] refs ↔
      ∀ p ∈ (cut k [] refs).2, p ∈ (cut k [] refs).1.flatten := by
  have hsplit : (cut k [] refs).1.flatten ++ (cut k [] refs).2 = refs := cut_flatten k [] refs
  have hunion : refs.toFinset
      = (cut k [] refs).1.flatten.toFinset ∪ (cut k [] refs).2.toFinset := by
    conv_lhs => rw [← hsplit]
    exact List.toFinset_append
  have hfull : (firstRefs (reduced (cut k [] refs).1)).length ≤ m := by
    rw [length_firstRefs, toFinset_reduced, ← length_firstRefs]
    exact (length_firstRefs_mono (cut_subset k refs)).trans h
  rw [misses_of_fits hfull, misses_of_fits h, toFinset_reduced]
  constructor
  · intro hcard p hp
    have heq := Finset.eq_of_subset_of_card_le
      (hunion ▸ Finset.subset_union_left : _ ⊆ refs.toFinset) hcard.ge
    have hmem : p ∈ refs.toFinset := by
      rw [hunion]
      exact Finset.mem_union_right _ (List.mem_toFinset.mpr hp)
    rw [← heq] at hmem
    exact List.mem_toFinset.mp hmem
  · intro hall
    rw [hunion, Finset.union_eq_left.mpr fun p hp =>
      List.mem_toFinset.mpr (hall p (List.mem_toFinset.mp hp))]

/-- The pages at the top behind a string are those referenced last. -/
theorem mem_recent : p ∈ top m (refs.foldl touch []) ↔ p ∈ (lastRefs refs).reverse.take m := by
  rw [foldl_touch_nil, mem_top]

/-- **The reduced string** misses as often as the string exactly if all pages of the unfinished
window are among the `m` pages referenced last before it, provided that dropping repeated
references does not change an order, or that no order matters. -/
theorem reduced_misses_iff (hk : 1 ≤ k) (hm : k ≤ m)
    (h : InOrder (cut k [] refs).1 ∨ (firstRefs refs).length ≤ m) :
    misses m [] (reduced (cut k [] refs).1) = misses m [] refs ↔
      ∀ p ∈ (cut k [] refs).2, p ∈ (lastRefs (cut k [] refs).1.flatten).reverse.take m := by
  rcases h with h | h
  · have hnil : (firstRefs ([] : List Page)).length ≤ k := Nat.zero_le k
    have hle : ∀ w ∈ (cut k [] refs).1, (firstRefs w).length ≤ m := fun w hw =>
      (length_cut_le hk hnil refs w hw).trans hm
    have hmisses := (h.reduced_eq List.nodup_nil hle).1
    have hsplit := misses_append m [] (cut k [] refs).1.flatten (cut k [] refs).2
    rw [cut_flatten, List.nil_append] at hsplit
    have hzero : misses m ((cut k [] refs).1.flatten.foldl touch []) (cut k [] refs).2 = 0 ↔
        ∀ p ∈ (cut k [] refs).2, p ∈ top m ((cut k [] refs).1.flatten.foldl touch []) :=
      misses_eq_zero_iff (nodup_foldl_touch List.nodup_nil _)
    simp only [mem_recent] at hzero
    rw [← hzero, hmisses]
    omega
  · have hall : (lastRefs (cut k [] refs).1.flatten).reverse.length ≤ m := by
      rw [List.length_reverse, ← (firstRefs_perm_lastRefs _).length_eq]
      exact (length_firstRefs_mono (cut_subset k refs)).trans h
    rw [reduced_misses_iff_of_fits h, List.take_of_length_le hall]
    simp

end TraceWindows
