import Mathlib

/-!
# Second-chance replacement

The resident pages are a queue, each with a referenced bit.

* `secondChance` — the head goes to the tail with its bit cleared if it was set, and is the victim
  otherwise; `secondChance_ends` — one round and one page more are enough.
* `serve` — one reference; `queueAfter`, `evictions` — the references in order.
* `evictions_concat` — one reference more; `evictions_map` — renaming the pages renames the victims.
-/

namespace SecondChance

section

variable {Page : Type*}

/-! ## The victim -/

/-- The victim and the queue it leaves, if it is among the first `n` pages looked at. -/
def secondChance : Nat → List (Page × Bool) → Option (Page × List (Page × Bool))
  | 0, _ => none
  | _ + 1, [] => none
  | n + 1, (page, true) :: queue => secondChance n (queue ++ [(page, false)])
  | _ + 1, (page, false) :: queue => some (page, queue)

/-- The pages `ys` have lost their bits: looking at `xs` and one more ends the search. -/
theorem secondChance_round (xs ys : List (Page × Bool)) (hys : ∀ y ∈ ys, y.2 = false)
    (hne : xs ++ ys ≠ []) : (secondChance (xs.length + 1) (xs ++ ys)).isSome = true := by
  induction xs generalizing ys with
  | nil =>
    cases ys with
    | nil => exact absurd rfl hne
    | cons y ys =>
      obtain ⟨page, bit⟩ := y
      obtain rfl : bit = false := hys (page, bit) (List.mem_cons_self ..)
      rfl
  | cons x xs ih =>
    obtain ⟨page, bit⟩ := x
    cases bit with
    | false => rfl
    | true =>
      rw [List.cons_append, List.length_cons, secondChance, List.append_assoc]
      refine ih (ys ++ [(page, false)]) (fun y hy => ?_) ?_
      · rcases List.mem_append.mp hy with hy | hy
        · exact hys y hy
        · rw [List.mem_singleton.mp hy]
      · exact List.append_ne_nil_of_right_ne_nil _ (List.append_ne_nil_of_right_ne_nil _ (by simp))

/-- **One round and one page more are enough.** -/
theorem secondChance_ends (queue : List (Page × Bool)) (hne : queue ≠ []) :
    ∃ r, secondChance (queue.length + 1) queue = some r := by
  have h := secondChance_round queue [] (fun y hy => by cases hy) (by rwa [List.append_nil])
  rw [List.append_nil] at h
  exact Option.isSome_iff_exists.mp h

/-! ## References -/

variable [DecidableEq Page]

/-- The page is referenced: its bit is set. -/
def mark (page : Page) (x : Page × Bool) : Page × Bool :=
  if x.1 = page then (x.1, true) else x

/-- One reference, with room for `k` pages; the result is the next queue and the victim. -/
def serve (k : Nat) (queue : List (Page × Bool)) (page : Page) :
    List (Page × Bool) × Option Page :=
  if page ∈ queue.map Prod.fst then (queue.map (mark page), none)
  else if queue.length < k then (queue ++ [(page, true)], none)
  else
    match secondChance (queue.length + 1) queue with
    | some (victim, rest) => (rest ++ [(page, true)], some victim)
    | none => (queue, none)

/-- The queue after the references. -/
def queueAfter (k : Nat) (queue : List (Page × Bool)) (pages : List Page) : List (Page × Bool) :=
  pages.foldl (fun queue page => (serve k queue page).1) queue

/-- What each reference evicts. -/
def evictions (k : Nat) : List (Page × Bool) → List Page → List (Option Page)
  | _, [] => []
  | queue, page :: pages => (serve k queue page).2 :: evictions k (serve k queue page).1 pages

theorem queueAfter_concat (k : Nat) (queue : List (Page × Bool)) (pages : List Page) (page : Page) :
    queueAfter k queue (pages ++ [page]) = (serve k (queueAfter k queue pages) page).1 := by
  rw [queueAfter, List.foldl_append]
  rfl

/-- **One reference more.** -/
theorem evictions_concat (k : Nat) (queue : List (Page × Bool)) (pages : List Page) (page : Page) :
    evictions k queue (pages ++ [page]) =
      evictions k queue pages ++ [(serve k (queueAfter k queue pages) page).2] := by
  induction pages generalizing queue with
  | nil => rfl
  | cons p pages ih =>
    rw [List.cons_append, evictions, ih, evictions]
    rfl

end

/-! ## Renaming -/

section

variable {Page Page' : Type*} {f : Page → Page'}

/-- The queue with its pages renamed. -/
def rename (f : Page → Page') (queue : List (Page × Bool)) : List (Page' × Bool) :=
  queue.map (Prod.map f id)

theorem rename_concat (f : Page → Page') (queue : List (Page × Bool)) (page : Page) (bit : Bool) :
    rename f (queue ++ [(page, bit)]) = rename f queue ++ [(f page, bit)] := List.map_append

theorem secondChance_rename (f : Page → Page') (n : Nat) (queue : List (Page × Bool)) :
    secondChance n (rename f queue) =
      (secondChance n queue).map (Prod.map f (rename f)) := by
  induction n generalizing queue with
  | zero => rfl
  | succ n ih =>
    cases queue with
    | nil => rfl
    | cons x queue =>
      obtain ⟨page, bit⟩ := x
      cases bit with
      | false => rfl
      | true =>
        rw [secondChance, ← ih, rename_concat]
        rfl

variable [DecidableEq Page] [DecidableEq Page']

theorem mark_rename (hf : Function.Injective f) (page : Page) (x : Page × Bool) :
    mark (f page) (Prod.map f id x) = Prod.map f id (mark page x) := by
  obtain ⟨p, bit⟩ := x
  show (if f p = f page then (f p, true) else (f p, bit)) = _
  unfold mark
  by_cases h : p = page
  · rw [if_pos h, if_pos (congrArg f h)]
    rfl
  · rw [if_neg h, if_neg fun heq => h (hf heq)]
    rfl

theorem serve_rename (hf : Function.Injective f) (k : Nat) (queue : List (Page × Bool))
    (page : Page) : serve k (rename f queue) (f page) =
      (rename f (serve k queue page).1, (serve k queue page).2.map f) := by
  have hmem : f page ∈ (rename f queue).map Prod.fst ↔ page ∈ queue.map Prod.fst := by
    have hmap : (rename f queue).map Prod.fst = (queue.map Prod.fst).map f := by
      rw [rename, List.map_map, List.map_map]
      rfl
    rw [hmap, List.mem_map_of_injective hf]
  have hlen : (rename f queue).length = queue.length := List.length_map _
  unfold serve
  by_cases hin : page ∈ queue.map Prod.fst
  · rw [if_pos hin, if_pos (hmem.mpr hin)]
    refine Prod.ext ?_ rfl
    rw [rename, rename, List.map_map, List.map_map]
    exact List.map_congr_left fun x _ => mark_rename hf page x
  · rw [if_neg hin, if_neg fun h => hin (hmem.mp h), hlen]
    by_cases hroom : queue.length < k
    · rw [if_pos hroom, if_pos hroom]
      rw [rename_concat]
      rfl
    · rw [if_neg hroom, if_neg hroom, secondChance_rename]
      cases secondChance (queue.length + 1) queue with
      | none => rfl
      | some r =>
        obtain ⟨victim, rest⟩ := r
        show (rename f rest ++ [(f page, true)], some (f victim)) = _
        rw [← rename_concat]
        rfl

/-- **Renaming the pages renames the victims.** -/
theorem evictions_rename (hf : Function.Injective f) (k : Nat) (queue : List (Page × Bool))
    (pages : List Page) : evictions k (rename f queue) (pages.map f) =
      (evictions k queue pages).map (Option.map f) := by
  induction pages generalizing queue with
  | nil => rfl
  | cons page pages ih =>
    rw [List.map_cons, evictions, serve_rename hf, ih, evictions, List.map_cons]

end

end SecondChance
