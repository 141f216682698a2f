import Mathlib

/-!
# Demand paging and the optimality of evicting the furthest page

A memory of `k` frames serves a sequence of page references.  A reference to a
resident page is a hit; a reference to any other page is a miss, which takes a
free frame while there is one and evicts a resident page otherwise.

* `Serves k S σ n` — from the resident set `S`, some choice of victims serves
  `σ` with `n` misses.  Every replacement policy, however much of the past and
  future it looks at, produces such a derivation.
* `ServesFurthest k S σ n` — the same where every victim is a page whose next
  use is the latest.
* `exists_serves_swap` — the exchange argument: of two full memories that differ
  in one page, the one holding the page that is needed sooner is no worse.
* `ServesFurthest.le` — **furthest-in-future is optimal**.

The next use of a page in a sequence is `List.idxOf`, which is the length of the
sequence for a page that does not occur in it.
-/

namespace DemandPaging

variable {Page : Type*} [DecidableEq Page]

/-- The resident set `S` of a memory of `k` frames can serve `σ` with `n`
misses. -/
inductive Serves (k : Nat) : Finset Page → List Page → Nat → Prop
  | nil (S : Finset Page) : Serves k S [] 0
  | hit {S : Finset Page} {r : Page} {σ : List Page} {n : Nat} :
      r ∈ S → Serves k S σ n → Serves k S (r :: σ) n
  | fill {S : Finset Page} {r : Page} {σ : List Page} {n : Nat} :
      r ∉ S → S.card < k → Serves k (insert r S) σ n → Serves k S (r :: σ) (n + 1)
  | evict {S : Finset Page} {r v : Page} {σ : List Page} {n : Nat} :
      r ∉ S → k ≤ S.card → v ∈ S → Serves k (insert r (S.erase v)) σ n →
      Serves k S (r :: σ) (n + 1)

/-- The same, evicting only pages whose next use is the latest. -/
inductive ServesFurthest (k : Nat) : Finset Page → List Page → Nat → Prop
  | nil (S : Finset Page) : ServesFurthest k S [] 0
  | hit {S : Finset Page} {r : Page} {σ : List Page} {n : Nat} :
      r ∈ S → ServesFurthest k S σ n → ServesFurthest k S (r :: σ) n
  | fill {S : Finset Page} {r : Page} {σ : List Page} {n : Nat} :
      r ∉ S → S.card < k → ServesFurthest k (insert r S) σ n →
      ServesFurthest k S (r :: σ) (n + 1)
  | evict {S : Finset Page} {r v : Page} {σ : List Page} {n : Nat} :
      r ∉ S → k ≤ S.card → v ∈ S → (∀ q ∈ S, σ.idxOf q ≤ σ.idxOf v) →
      ServesFurthest k (insert r (S.erase v)) σ n → ServesFurthest k S (r :: σ) (n + 1)

/-! ## One page again and again -/

theorem Serves.replicate_of_mem {k n m : Nat} {S : Finset Page} {r : Page}
    (h : Serves k S (List.replicate n r) m) (hr : r ∈ S) : m = 0 := by
  induction n generalizing m with
  | zero =>
    cases h
    rfl
  | succ n ih =>
    rw [List.replicate_succ] at h
    cases h with
    | hit _ hrest => exact ih hrest
    | fill hnot _ _ => exact absurd hr hnot
    | evict hnot _ _ _ => exact absurd hr hnot

/-- Only the first reference misses. -/
theorem Serves.replicate {k n m : Nat} {S : Finset Page} {r : Page}
    (h : Serves k S (List.replicate (n + 1) r) m) (hr : r ∉ S) : m = 1 := by
  rw [List.replicate_succ] at h
  cases h with
  | hit hin _ => exact absurd hin hr
  | fill _ _ hrest => rw [hrest.replicate_of_mem (Finset.mem_insert_self r S)]
  | evict _ _ _ hrest => rw [hrest.replicate_of_mem (Finset.mem_insert_self r _)]

/-! ## Two full memories that differ in one page -/

/-- Evicting `v` from `X ∪ {b}` to make room for `r`, seen from `b`. -/
theorem insert_erase_insert {X : Finset Page} {b r v : Page} (hvb : v ≠ b) :
    insert r ((insert b X).erase v) = insert b (insert r (X.erase v)) := by
  rw [Finset.erase_insert_of_ne hvb.symm, Finset.insert_comm]

/-- Evicting `b` itself from `X ∪ {b}`. -/
theorem insert_erase_insert_self {X : Finset Page} {b r : Page} (hb : b ∉ X) :
    insert r ((insert b X).erase b) = insert r X := by
  rw [Finset.erase_insert hb]

theorem card_insert_erase {X : Finset Page} {r v : Page} (hr : r ∉ X) (hv : v ∈ X) :
    (insert r (X.erase v)).card = X.card := by
  rw [Finset.card_insert_of_notMem (fun h => hr (Finset.mem_of_mem_erase h)),
    Finset.card_erase_of_mem hv]
  have := Finset.card_pos.mpr ⟨v, hv⟩
  omega

/-- Holding `a` in place of `b` costs at most one more miss. -/
theorem exists_serves_succ {k : Nat} {σ : List Page} :
    ∀ {X : Finset Page} {a b : Page} {n : Nat}, a ∉ X → b ∉ X → X.card + 1 = k →
      Serves k (insert b X) σ n → ∃ m, m ≤ n + 1 ∧ Serves k (insert a X) σ m := by
  induction σ with
  | nil => intro X a b n _ _ _ _; exact ⟨0, by omega, .nil _⟩
  | cons r σ ih =>
    intro X a b n ha hb hk h
    by_cases hab : a = b
    · subst hab; exact ⟨n, by omega, h⟩
    have hcarda : (insert a X).card = k := by rw [Finset.card_insert_of_notMem ha, hk]
    have hcardb : (insert b X).card = k := by rw [Finset.card_insert_of_notMem hb, hk]
    cases h with
    | hit hr h =>
      rcases Finset.mem_insert.mp hr with rfl | hrX
      · -- only the memory with `b` hits: the other one brings it in for `a`
        refine ⟨n + 1, le_refl _, .evict ?_ hcarda.ge (Finset.mem_insert_self a X) ?_⟩
        · simp [hb, Ne.symm hab]
        · rwa [insert_erase_insert_self ha]
      · obtain ⟨m, hm, hs⟩ := ih ha hb hk h
        exact ⟨m, hm, .hit (Finset.mem_insert_of_mem hrX) hs⟩
    | fill _ hlt _ => exact absurd hlt (by omega)
    | @evict _ _ v _ n hr _ hv h =>
      have hrX : r ∉ X := fun hX => hr (Finset.mem_insert_of_mem hX)
      by_cases hra : r = a
      · subst hra
        rcases Finset.mem_insert.mp hv with rfl | hvX
        · rw [insert_erase_insert_self hb] at h
          exact ⟨n, by omega, .hit (Finset.mem_insert_self r X) h⟩
        · have hvb : v ≠ b := fun hEq => hb (hEq ▸ hvX)
          have hvr : v ≠ r := fun hEq => hrX (hEq ▸ hvX)
          rw [insert_erase_insert hvb] at h
          obtain ⟨m, hm, hs⟩ := ih (X := insert r (X.erase v)) (a := v) (by simp [hvr])
            (by simp [hb, Ne.symm hab]) (by rw [card_insert_erase hrX hvX, hk]) h
          rw [Finset.insert_comm, Finset.insert_erase hvX] at hs
          exact ⟨m, by omega, .hit (Finset.mem_insert_self r X) hs⟩
      · have hrI : r ∉ insert a X := by simp [hra, hrX]
        rcases Finset.mem_insert.mp hv with rfl | hvX
        · refine ⟨n + 1, by omega, .evict hrI hcarda.ge (Finset.mem_insert_self a X) ?_⟩
          rw [insert_erase_insert_self hb] at h
          rwa [insert_erase_insert_self ha]
        · have hva : v ≠ a := fun hEq => ha (hEq ▸ hvX)
          have hvb : v ≠ b := fun hEq => hb (hEq ▸ hvX)
          rw [insert_erase_insert hvb] at h
          have hrb : r ≠ b := fun hEq => hr (hEq ▸ Finset.mem_insert_self b X)
          obtain ⟨m, hm, hs⟩ := ih (X := insert r (X.erase v)) (a := a)
            (by simp [ha, Ne.symm hra]) (by simp [hb, Ne.symm hrb])
            (by rw [card_insert_erase hrX hvX, hk]) h
          refine ⟨m + 1, by omega, .evict hrI hcarda.ge (Finset.mem_insert_of_mem hvX) ?_⟩
          rwa [insert_erase_insert hva]

/-- **The exchange argument.**  Holding the page that is needed sooner in place
of the page that is needed later costs nothing. -/
theorem exists_serves_swap {k : Nat} {σ : List Page} :
    ∀ {X : Finset Page} {a b : Page} {n : Nat}, a ∉ X → b ∉ X → X.card + 1 = k →
      σ.idxOf a ≤ σ.idxOf b → Serves k (insert b X) σ n →
      ∃ m, m ≤ n ∧ Serves k (insert a X) σ m := by
  induction σ with
  | nil => intro X a b n _ _ _ _ _; exact ⟨0, by omega, .nil _⟩
  | cons r σ ih =>
    intro X a b n ha hb hk hidx h
    by_cases hab : a = b
    · subst hab; exact ⟨n, le_refl n, h⟩
    have hcarda : (insert a X).card = k := by rw [Finset.card_insert_of_notMem ha, hk]
    have hcardb : (insert b X).card = k := by rw [Finset.card_insert_of_notMem hb, hk]
    have hrb : r ≠ b := by
      intro hEq
      subst hEq
      rw [List.idxOf_cons_self, List.idxOf_cons_ne σ (Ne.symm hab)] at hidx
      omega
    rw [List.idxOf_cons_ne σ hrb] at hidx
    cases h with
    | hit hr h =>
      have hrX : r ∈ X := (Finset.mem_insert.mp hr).resolve_left hrb
      have hra : r ≠ a := fun hEq => ha (hEq ▸ hrX)
      rw [List.idxOf_cons_ne σ hra] at hidx
      obtain ⟨m, hm, hs⟩ := ih ha hb hk (by omega) h
      exact ⟨m, hm, .hit (Finset.mem_insert_of_mem hrX) hs⟩
    | fill _ hlt _ => exact absurd hlt (by omega)
    | @evict _ _ v _ n hr _ hv h =>
      have hrX : r ∉ X := fun hX => hr (Finset.mem_insert_of_mem hX)
      by_cases hra : r = a
      · -- the memory with `a` hits and is one miss ahead, which pays for any difference left
        subst hra
        rcases Finset.mem_insert.mp hv with rfl | hvX
        · rw [insert_erase_insert_self hb] at h
          exact ⟨n, by omega, .hit (Finset.mem_insert_self r X) h⟩
        · have hvb : v ≠ b := fun hEq => hb (hEq ▸ hvX)
          have hvr : v ≠ r := fun hEq => hrX (hEq ▸ hvX)
          rw [insert_erase_insert hvb] at h
          obtain ⟨m, hm, hs⟩ := exists_serves_succ (X := insert r (X.erase v)) (a := v)
            (by simp [hvr]) (by simp [hb, Ne.symm hab])
            (by rw [card_insert_erase hrX hvX, hk]) h
          rw [Finset.insert_comm, Finset.insert_erase hvX] at hs
          exact ⟨m, hm, .hit (Finset.mem_insert_self r X) hs⟩
      · have hrI : r ∉ insert a X := by simp [hra, hrX]
        rw [List.idxOf_cons_ne σ hra] at hidx
        rcases Finset.mem_insert.mp hv with rfl | hvX
        · refine ⟨n + 1, le_refl _, .evict hrI hcarda.ge (Finset.mem_insert_self a X) ?_⟩
          rw [insert_erase_insert_self hb] at h
          rwa [insert_erase_insert_self ha]
        · have hva : v ≠ a := fun hEq => ha (hEq ▸ hvX)
          have hvb : v ≠ b := fun hEq => hb (hEq ▸ hvX)
          rw [insert_erase_insert hvb] at h
          obtain ⟨m, hm, hs⟩ := ih (X := insert r (X.erase v)) (a := a)
            (by simp [ha, Ne.symm hra]) (by simp [hb, Ne.symm hrb])
            (by rw [card_insert_erase hrX hvX, hk]) (by omega) h
          refine ⟨m + 1, by omega, .evict hrI hcarda.ge (Finset.mem_insert_of_mem hvX) ?_⟩
          rwa [insert_erase_insert hva]

/-! ## Optimality -/

/-- **Furthest-in-future is optimal.**  No choice of victims serves the sequence
with fewer misses. -/
theorem ServesFurthest.le {k : Nat} {S : Finset Page} {σ : List Page} {m : Nat}
    (h : ServesFurthest k S σ m) : S.card ≤ k → ∀ {n : Nat}, Serves k S σ n → m ≤ n := by
  induction h with
  | nil S => intro _ n _; omega
  | @hit S r σ m hr _ ih =>
    intro hcard n hs
    cases hs with
    | hit _ hs => exact ih hcard hs
    | fill hr' _ _ => exact absurd hr hr'
    | evict hr' _ _ _ => exact absurd hr hr'
  | @fill S r σ m hr hlt _ ih =>
    intro _ n hs
    have hcard : (insert r S).card ≤ k := by rw [Finset.card_insert_of_notMem hr]; omega
    cases hs with
    | hit hr' _ => exact absurd hr' hr
    | fill _ _ hs => exact Nat.succ_le_succ (ih hcard hs)
    | evict _ hge _ _ => exact absurd hlt (by omega)
  | @evict S r v σ m hr hge hv hfar _ ih =>
    intro hcard n hs
    cases hs with
    | hit hr' _ => exact absurd hr' hr
    | fill _ hlt _ => exact absurd hlt (by omega)
    | @evict _ _ q _ n _ _ hq hs =>
      have hcard' : (insert r (S.erase v)).card ≤ k := by rw [card_insert_erase hr hv]; exact hcard
      by_cases hqv : q = v
      · subst hqv; exact Nat.succ_le_succ (ih hcard' hs)
      -- exchange the page the other policy kept, `v`, for the one it dropped, `q`
      have hvq : v ∈ S.erase q := Finset.mem_erase.mpr ⟨Ne.symm hqv, hv⟩
      have hqe : q ∈ S.erase v := Finset.mem_erase.mpr ⟨hqv, hq⟩
      have hrv : r ≠ v := fun hEq => hr (hEq ▸ hv)
      have hrq : r ≠ q := fun hEq => hr (hEq ▸ hq)
      have hours : insert r (S.erase v) = insert q (insert r ((S.erase v).erase q)) := by
        rw [Finset.insert_comm, Finset.insert_erase hqe]
      have htheirs : insert r (S.erase q) = insert v (insert r ((S.erase v).erase q)) := by
        rw [Finset.insert_comm, Finset.erase_right_comm, Finset.insert_erase hvq]
      have hX : (insert r ((S.erase v).erase q)).card + 1 = k := by
        rw [Finset.card_insert_of_notMem (by simp [hr]), Finset.card_erase_of_mem hqe,
          Finset.card_erase_of_mem hv]
        have : 1 < S.card := Finset.one_lt_card.mpr ⟨q, hq, v, hv, hqv⟩
        omega
      rw [htheirs] at hs
      obtain ⟨m', hm', hs'⟩ := exists_serves_swap (by simp [Ne.symm hrq]) (by simp [Ne.symm hrv])
        hX (hfar q hq) hs
      rw [← hours] at hs'
      have := ih hcard' hs'
      omega

end DemandPaging
