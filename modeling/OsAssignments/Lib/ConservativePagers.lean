import OsAssignments.Lib.Competitive
import OsAssignments.Lib.SecondChance

/-!
# Three conservative algorithms

* `lru` — the `k` pages referenced last.
* `fifo` — the pages in the order in which they came in.
* `clock` — second chance: a queue of pages with a reference bit.
* `conservative_lru`, `conservative_fifo`, `conservative_clock` — none of them lets a page go that
  came in while at most `k` different pages were referenced.
-/

namespace Competitive

open RecencyStack SecondChance TraceWindows

variable {Page : Type*} [DecidableEq Page]

/-! ## Least recently used -/

/-- The memory of the `k` pages at the top of the recency stack. -/
def lru (k : Nat) : Pager Page (List Page) where
  resident stack r := decide (r ∈ top k stack)
  next := touch

theorem faults_lru (k : Nat) (stack refs : List Page) :
    (lru k).faults stack refs = misses k stack refs := by
  induction refs generalizing stack with
  | nil => rfl
  | cons r refs ih => simp [Pager.faults, misses, lru, ← ih]

theorem misses_le_length (k : Nat) (stack refs : List Page) :
    misses k stack refs ≤ refs.length := by
  induction refs generalizing stack with
  | nil => simp [misses]
  | cons r refs ih =>
    have := ih (touch stack r)
    rw [misses, List.length_cons]
    split <;> omega

theorem conservative_lru (k : Nat) : Conservative (lru k) (fun stack : List Page => stack.Nodup) k where
  next _ r hS := nodup_foldl_touch hS [r]
  window stack w hS hw := by
    rw [← length_firstRefs] at hw ⊢
    rw [faults_lru, ← misses_firstRefs hS hw]
    exact misses_le_length _ _ _

/-! ## First in, first out -/

/-- The pages in the order in which they were brought in. -/
def fifo (k : Nat) : Pager Page (List Page) where
  resident queue r := decide (r ∈ queue)
  next queue r :=
    if r ∈ queue then queue
    else if queue.length < k then queue ++ [r] else queue.tail ++ [r]

theorem nodup_fifo {k : Nat} {queue : List Page} (h : queue.Nodup) (r : Page) :
    ((fifo k).next queue r).Nodup := by
  have hconcat : ∀ {xs : List Page}, xs.Nodup → r ∉ xs → (xs ++ [r]).Nodup := by
    intro xs hxs hr
    rw [List.nodup_append_comm, List.singleton_append, List.nodup_cons]
    exact ⟨hr, hxs⟩
  simp only [fifo]
  split_ifs with hr
  · exact h
  · exact hconcat h hr
  · exact hconcat h.tail fun hmem => hr (List.mem_of_mem_tail hmem)

/-- The pages brought in while those of `W` are referenced are at the end of the queue, and stay. -/
theorem fifo_faults_le {k : Nat} {W : Finset Page} (hW : W.card ≤ k) (w : List Page) :
    ∀ {old new : List Page}, (old ++ new).Nodup → (∀ p ∈ new, p ∈ W) → (∀ p ∈ w, p ∈ W) →
      (fifo k).faults (old ++ new) w + new.length ≤ W.card := by
  have hcount : ∀ {xs : List Page}, xs.Nodup → (∀ p ∈ xs, p ∈ W) → xs.length ≤ W.card := by
    intro xs hxs hsub
    rw [← List.toFinset_card_of_nodup hxs]
    exact Finset.card_le_card fun p hp => hsub p (List.mem_toFinset.mp hp)
  induction w with
  | nil =>
    intro old new hnd hnew _
    simpa [Pager.faults] using hcount hnd.of_append_right hnew
  | cons r w ih =>
    intro old new hnd hnew hw
    obtain ⟨hr, hw⟩ := List.forall_mem_cons.mp hw
    have hnew' : ∀ p ∈ new ++ [r], p ∈ W := by
      simpa [or_imp, forall_and] using ⟨hnew, hr⟩
    have hnodup := nodup_fifo (k := k) hnd r
    simp only [Pager.faults, fifo, decide_eq_true_eq] at hnodup ih ⊢
    by_cases hmem : r ∈ old ++ new
    · simpa only [if_pos hmem, Nat.zero_add] using ih hnd hnew hw
    simp only [if_neg hmem] at hnodup ⊢
    by_cases hroom : (old ++ new).length < k
    · simp only [if_pos hroom, List.append_assoc] at hnodup ⊢
      have := ih hnodup hnew' hw
      rw [List.length_append, List.length_singleton] at this
      omega
    · simp only [if_neg hroom] at hnodup ⊢
      cases old with
      | nil =>
        -- all of the queue is new, so the window has a page too many
        have hnd' : (new ++ [r]).Nodup := by
          rw [List.nodup_append_comm, List.singleton_append, List.nodup_cons]
          exact ⟨hmem, hnd⟩
        have := hcount hnd' hnew'
        simp only [List.nil_append, List.length_append, List.length_singleton] at this hroom
        omega
      | cons o old =>
        simp only [List.cons_append, List.tail_cons, List.append_assoc] at hnodup ⊢
        have := ih hnodup hnew' hw
        rw [List.length_append, List.length_singleton] at this
        omega

theorem conservative_fifo (k : Nat) : Conservative (fifo k) (fun queue : List Page => queue.Nodup) k where
  next _ r h := nodup_fifo h r
  window queue w h hw := by
    have hnd : (queue ++ []).Nodup := by rwa [List.append_nil]
    simpa using fifo_faults_le hw w hnd (by simp) (by simp)

/-! ## Second chance -/

/-- The queue of second-chance replacement. -/
def clock (k : Nat) : Pager Page (List (Page × Bool)) where
  resident queue r := decide (r ∈ queue.map Prod.fst)
  next queue r := (serve k queue r).1

section

variable {k : Nat} {new W : Finset Page} {queue rest : List (Page × Bool)} {r v : Page}

omit [DecidableEq Page] in
theorem secondChance_perm {n : Nat} (h : secondChance n queue = some (v, rest)) :
    (v :: rest.map Prod.fst).Perm (queue.map Prod.fst) := by
  induction n generalizing queue with
  | zero => simp [secondChance] at h
  | succ n ih =>
    cases queue with
    | nil => simp [secondChance] at h
    | cons x queue =>
      obtain ⟨page, bit⟩ := x
      cases bit with
      | true =>
        rw [secondChance] at h
        refine (ih h).trans ?_
        rw [List.map_append]
        exact List.perm_append_singleton page (queue.map Prod.fst)
      | false =>
        rw [secondChance] at h
        obtain ⟨rfl, rfl⟩ := Prod.mk.inj (Option.some.inj h)
        exact .refl _

/-- An entry that the hand has passed since the window began, or that came in since: its bit is set
only for a page of the window, and the bit of a new page has not been looked at. -/
def Passed (new W : Finset Page) (x : Page × Bool) : Prop :=
  (x.2 = true → x.1 ∈ W) ∧ (x.1 ∈ new → x.2 = true)

/-- Two rounds of the hand protect the new pages.  In the first it passes the old ones; in the second
it keeps the pages of the window and nothing else. -/
inductive Protects (new W : Finset Page) : List (Page × Bool) → Prop
  | first {xs ys : List (Page × Bool)} (hxs : ∀ x ∈ xs, x.1 ∉ new)
      (hys : ∀ y ∈ ys, Passed new W y) : Protects new W (xs ++ ys)
  | second {xs ys : List (Page × Bool)} (hxs : ∀ x ∈ xs, Passed new W x)
      (hys : ∀ y ∈ ys, y.1 ∈ W) : Protects new W (xs ++ ys)

/-- A full memory, and a page that is not in it. -/
structure Misses (k : Nat) (queue : List (Page × Bool)) (r : Page) : Prop where
  nodup : (queue.map Prod.fst).Nodup
  full : k ≤ queue.length
  notMem : r ∉ queue.map Prod.fst

omit [DecidableEq Page] in
theorem Misses.rotate {page : Page} {bit bit' : Bool} (h : Misses k ((page, bit) :: queue) r) :
    Misses k (queue ++ [(page, bit')]) r := by
  have hperm : ((queue ++ [(page, bit')]).map Prod.fst).Perm (((page, bit) :: queue).map Prod.fst) := by
    rw [List.map_append]
    exact List.perm_append_singleton page (queue.map Prod.fst)
  refine ⟨hperm.nodup_iff.mpr h.nodup, ?_, fun hmem => h.notMem (hperm.subset hmem)⟩
  simpa using h.full

theorem Misses.not_subset (h : Misses k queue r) (hW : W.card ≤ k) (hr : r ∈ W) :
    ¬ ∀ y ∈ queue, y.1 ∈ W := by
  intro hsub
  have hnd : (r :: queue.map Prod.fst).Nodup := List.nodup_cons.mpr ⟨h.notMem, h.nodup⟩
  have hle : (r :: queue.map Prod.fst).toFinset ⊆ W := by
    intro p hp
    rcases List.mem_cons.mp (List.mem_toFinset.mp hp) with rfl | hp
    · exact hr
    · obtain ⟨y, hy, rfl⟩ := List.mem_map.mp hp
      exact hsub y hy
  have hcard := Finset.card_le_card hle
  rw [List.toFinset_card_of_nodup hnd, List.length_cons, List.length_map] at hcard
  have := h.full
  omega

/-- In the second round. -/
theorem secondChance_second (hW : W.card ≤ k) (hr : r ∈ W) (n : Nat) :
    ∀ {xs ys : List (Page × Bool)}, (∀ x ∈ xs, Passed new W x) → (∀ y ∈ ys, y.1 ∈ W) →
      Misses k (xs ++ ys) r → secondChance n (xs ++ ys) = some (v, rest) →
      v ∉ new ∧ Protects new W rest := by
  induction n with
  | zero => simp [secondChance]
  | succ n ih =>
    intro xs ys hxs hys hmiss h
    cases xs with
    | nil => exact absurd hys (hmiss.not_subset hW hr)
    | cons x xs =>
      obtain ⟨page, bit⟩ := x
      obtain ⟨hpage, hrest⟩ := List.forall_mem_cons.mp hxs
      cases bit with
      | true =>
        rw [List.cons_append, secondChance, List.append_assoc] at h
        have hrot : Misses k (xs ++ (ys ++ [(page, false)])) r := by
          rw [← List.append_assoc]
          exact hmiss.rotate
        refine ih hrest (fun y hy => ?_) hrot h
        rcases List.mem_append.mp hy with hy | hy
        · exact hys y hy
        · rw [List.mem_singleton.mp hy]
          exact hpage.1 rfl
      | false =>
        rw [List.cons_append, secondChance] at h
        obtain ⟨rfl, rfl⟩ := Prod.mk.inj (Option.some.inj h)
        exact ⟨fun hmem => absurd (hpage.2 hmem) (by simp), .second hrest hys⟩

/-- In the first round, and into the second. -/
theorem secondChance_first (hW : W.card ≤ k) (hr : r ∈ W) (n : Nat) :
    ∀ {xs ys : List (Page × Bool)}, (∀ x ∈ xs, x.1 ∉ new) → (∀ y ∈ ys, Passed new W y) →
      Misses k (xs ++ ys) r → secondChance n (xs ++ ys) = some (v, rest) →
      v ∉ new ∧ Protects new W rest := by
  induction n with
  | zero => simp [secondChance]
  | succ n ih =>
    intro xs ys hxs hys hmiss h
    cases xs with
    | nil =>
      rw [List.nil_append] at hmiss h
      rw [← List.append_nil ys] at hmiss h
      exact secondChance_second hW hr (n + 1) hys (by simp) hmiss h
    | cons x xs =>
      obtain ⟨page, bit⟩ := x
      obtain ⟨hpage, hrest⟩ := List.forall_mem_cons.mp hxs
      cases bit with
      | true =>
        rw [List.cons_append, secondChance, List.append_assoc] at h
        have hrot : Misses k (xs ++ (ys ++ [(page, false)])) r := by
          rw [← List.append_assoc]
          exact hmiss.rotate
        refine ih hrest (fun y hy => ?_) hrot h
        rcases List.mem_append.mp hy with hy | hy
        · exact hys y hy
        · rw [List.mem_singleton.mp hy]
          exact ⟨by simp, fun hmem => absurd hmem hpage⟩
      | false =>
        rw [List.cons_append, secondChance] at h
        obtain ⟨rfl, rfl⟩ := Prod.mk.inj (Option.some.inj h)
        exact ⟨hpage, .first hrest hys⟩

/-- The hand never takes a new page. -/
theorem Protects.victim (h : Protects new W queue) (hW : W.card ≤ k) (hr : r ∈ W)
    (hmiss : Misses k queue r) {n : Nat} (hv : secondChance n queue = some (v, rest)) :
    v ∉ new ∧ Protects new W rest := by
  cases h with
  | first hxs hys => exact secondChance_first hW hr n hxs hys hmiss hv
  | second hxs hys => exact secondChance_second hW hr n hxs hys hmiss hv

/-- The bit of a page of the window is set. -/
theorem Protects.mark (h : Protects new W queue) (hr : r ∈ W) :
    Protects new W (queue.map (mark r)) := by
  have hfst : ∀ x : Page × Bool, (SecondChance.mark r x).1 = x.1 := by
    intro x
    unfold SecondChance.mark
    split <;> rfl
  have hpassed : ∀ x, Passed new W x → Passed new W (SecondChance.mark r x) := by
    intro x hx
    unfold SecondChance.mark
    split
    · rename_i heq
      exact ⟨fun _ => heq ▸ hr, fun _ => rfl⟩
    · exact hx
  cases h with
  | first hxs hys =>
    rw [List.map_append]
    refine .first (fun x hx => ?_) fun y hy => ?_
    · obtain ⟨x₀, hx₀, rfl⟩ := List.mem_map.mp hx
      exact hfst x₀ ▸ hxs x₀ hx₀
    · obtain ⟨y₀, hy₀, rfl⟩ := List.mem_map.mp hy
      exact hpassed y₀ (hys y₀ hy₀)
  | second hxs hys =>
    rw [List.map_append]
    refine .second (fun x hx => ?_) fun y hy => ?_
    · obtain ⟨x₀, hx₀, rfl⟩ := List.mem_map.mp hx
      exact hpassed x₀ (hxs x₀ hx₀)
    · obtain ⟨y₀, hy₀, rfl⟩ := List.mem_map.mp hy
      exact hfst y₀ ▸ hys y₀ hy₀

/-- A page of the window is brought in. -/
theorem Protects.concat (h : Protects new W queue) (hr : r ∈ W) (hnot : r ∉ queue.map Prod.fst) :
    Protects (insert r new) W (queue ++ [(r, true)]) := by
  have hne : ∀ x ∈ queue, x.1 ≠ r := by
    rintro x hx rfl
    exact hnot (List.mem_map_of_mem hx)
  have hpassed : ∀ x ∈ queue, Passed new W x → Passed (insert r new) W x := fun x hx hpass =>
    ⟨hpass.1, fun hmem => hpass.2 ((Finset.mem_insert.mp hmem).resolve_left (hne x hx))⟩
  cases h with
  | @first xs ys hxs hys =>
    rw [List.append_assoc]
    refine .first (fun x hx hmem => ?_) fun y hy => ?_
    · exact hxs x hx ((Finset.mem_insert.mp hmem).resolve_left (hne x (by simp [hx])))
    · rcases List.mem_append.mp hy with hy | hy
      · exact hpassed y (by simp [hy]) (hys y hy)
      · rw [List.mem_singleton.mp hy]
        exact ⟨fun _ => hr, fun _ => rfl⟩
  | @second xs ys hxs hys =>
    rw [List.append_assoc]
    refine .second (fun x hx => hpassed x (by simp [hx]) (hxs x hx)) fun y hy => ?_
    rcases List.mem_append.mp hy with hy | hy
    · exact hys y hy
    · rwa [List.mem_singleton.mp hy]

theorem map_mark (queue : List (Page × Bool)) (r : Page) :
    (queue.map (SecondChance.mark r)).map Prod.fst = queue.map Prod.fst := by
  rw [List.map_map]
  refine List.map_congr_left fun x _ => ?_
  rw [Function.comp_apply, SecondChance.mark]
  split <;> rfl

/-- **Second chance is first in, first out for the pages brought in during a window.** -/
theorem clock_faults_le (hW : W.card ≤ k) (w : List Page) :
    ∀ {queue : List (Page × Bool)} {new : Finset Page}, (queue.map Prod.fst).Nodup →
      Protects new W queue → (∀ p ∈ new, p ∈ queue.map Prod.fst) → new ⊆ W → (∀ p ∈ w, p ∈ W) →
      (clock k).faults queue w + new.card ≤ W.card := by
  induction w with
  | nil =>
    intro queue new _ _ _ hnew _
    simpa [Pager.faults] using Finset.card_le_card hnew
  | cons r w ih =>
    intro queue new hnd hprot hres hnew hw
    obtain ⟨hr, hw⟩ := List.forall_mem_cons.mp hw
    -- a page that comes in is one more new page
    have hload : ∀ {rest : List (Page × Bool)}, r ∉ queue.map Prod.fst →
        (rest.map Prod.fst).Nodup → r ∉ rest.map Prod.fst → Protects new W rest →
        (∀ p ∈ new, p ∈ rest.map Prod.fst) →
        1 + (clock k).faults (rest ++ [(r, true)]) w + new.card ≤ W.card := by
      intro rest hnot hnd' hnot' hprot' hres'
      have hcard : (insert r new).card = new.card + 1 :=
        Finset.card_insert_of_notMem fun hmem => hnot (hres r hmem)
      have hnodup : ((rest ++ [(r, true)]).map Prod.fst).Nodup := by
        rw [List.map_append, List.map_singleton, List.nodup_append_comm, List.singleton_append,
          List.nodup_cons]
        exact ⟨hnot', hnd'⟩
      have hmem : ∀ p ∈ insert r new, p ∈ (rest ++ [(r, true)]).map Prod.fst := by
        intro p hp
        rw [List.map_append, List.mem_append]
        rcases Finset.mem_insert.mp hp with rfl | hp
        · exact .inr (by simp)
        · exact .inl (hres' p hp)
      have := ih hnodup (hprot'.concat hr hnot') hmem (Finset.insert_subset hr hnew) hw
      omega
    rw [Pager.faults]
    by_cases hmem : r ∈ queue.map Prod.fst
    · have hnext : (clock k).next queue r = queue.map (SecondChance.mark r) :=
        congrArg Prod.fst (if_pos hmem)
      have hhit : (clock k).resident queue r = true := decide_eq_true hmem
      rw [hnext, hhit, if_pos rfl, Nat.zero_add]
      exact ih (map_mark queue r ▸ hnd) (hprot.mark hr)
        (fun p hp => (map_mark queue r).symm ▸ hres p hp) hnew hw
    have hmiss : (clock k).resident queue r = false := decide_eq_false hmem
    rw [hmiss, if_neg Bool.false_ne_true]
    by_cases hroom : queue.length < k
    · have hnext : (clock k).next queue r = queue ++ [(r, true)] := by
        simp only [clock, serve, if_neg hmem, if_pos hroom]
      rw [hnext]
      exact hload hmem hnd hmem hprot hres
    · have hne : queue ≠ [] := by
        rintro rfl
        have := Finset.card_pos.mpr ⟨r, hr⟩
        simp only [List.length_nil] at hroom
        omega
      obtain ⟨⟨v, rest⟩, hv⟩ := secondChance_ends queue hne
      have hnext : (clock k).next queue r = rest ++ [(r, true)] := by
        simp only [clock, serve, if_neg hmem, if_neg hroom, hv]
      obtain ⟨hvnew, hprot'⟩ := hprot.victim hW hr ⟨hnd, by omega, hmem⟩ hv
      have hperm := secondChance_perm hv
      have hnd' := hperm.nodup_iff.mpr hnd
      rw [hnext]
      refine hload hmem (List.nodup_cons.mp hnd').2
        (fun hin => hmem (hperm.subset (List.mem_cons_of_mem v hin))) hprot' fun p hp => ?_
      rcases List.mem_cons.mp (hperm.symm.subset (hres p hp)) with rfl | hin
      · exact absurd hp hvnew
      · exact hin

theorem nodup_clock (k : Nat) (hnd : (queue.map Prod.fst).Nodup) (r : Page) :
    (((clock k).next queue r).map Prod.fst).Nodup := by
  have hconcat : ∀ {rest : List (Page × Bool)}, (rest.map Prod.fst).Nodup →
      r ∉ rest.map Prod.fst → ((rest ++ [(r, true)]).map Prod.fst).Nodup := by
    intro rest hrest hnot
    rw [List.map_append, List.map_singleton, List.nodup_append_comm, List.singleton_append,
      List.nodup_cons]
    exact ⟨hnot, hrest⟩
  simp only [clock, serve]
  split
  · rwa [map_mark]
  rename_i hmem
  split
  · exact hconcat hnd hmem
  split
  · rename_i hv
    have hperm := secondChance_perm hv
    exact hconcat (List.nodup_cons.mp (hperm.nodup_iff.mpr hnd)).2
      fun hin => hmem (hperm.subset (List.mem_cons_of_mem _ hin))
  · exact hnd

theorem conservative_clock (k : Nat) :
    Conservative (clock k) (fun queue : List (Page × Bool) => (queue.map Prod.fst).Nodup) k where
  next _ r h := nodup_clock k h r
  window queue w h hw := by
    have hprot : Protects ∅ w.toFinset (queue ++ []) := .first (by simp) (by simp)
    rw [List.append_nil] at hprot
    simpa using clock_faults_le hw w h hprot (by simp) (by simp) (by simp)

end

end Competitive
