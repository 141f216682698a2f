import OsAssignments.Lib.DemandPaging
import OsAssignments.Lib.TraceWindows

/-!
# Paging against the best schedule

An algorithm that decides without knowing the references to come is compared with all the ways a
string could be served by memories of `h ≤ k` frames.

* `Pager`, `Pager.faults` — an algorithm as a state with a step.
* `Conservative` — while at most `k` different pages are referenced, each of them faults at most
  once.
* `Conservative.competitive` — such an algorithm has at most `k / (k - h + 1)` times the faults of
  any schedule, and one window's more.
* `exists_serves_of_le` — a schedule can be imitated in more frames.
-/

namespace Competitive

open DemandPaging TraceWindows

variable {Page : Type*} [DecidableEq Page]

/-! ## Algorithms -/

/-- A paging algorithm: which pages a state holds, and the state after a reference. -/
structure Pager (Page Q : Type*) where
  resident : Q → Page → Bool
  next : Q → Page → Q

section

variable {Q : Type*} {A : Pager Page Q} {I : Q → Prop} {k h : Nat} {q : Q}

omit [DecidableEq Page] in
/-- The references to pages that are not resident. -/
def Pager.faults (A : Pager Page Q) : Q → List Page → Nat
  | _, [] => 0
  | q, r :: refs => (if A.resident q r then 0 else 1) + A.faults (A.next q r) refs

omit [DecidableEq Page] in
theorem faults_append (q : Q) (u v : List Page) :
    A.faults q (u ++ v) = A.faults q u + A.faults (u.foldl A.next q) v := by
  induction u generalizing q with
  | nil => simp [Pager.faults]
  | cons r u ih => rw [List.cons_append, Pager.faults, Pager.faults, List.foldl_cons, ih]; omega

/-- While at most `k` different pages are referenced, each of them faults at most once. -/
structure Conservative (A : Pager Page Q) (I : Q → Prop) (k : Nat) : Prop where
  next : ∀ q r, I q → I (A.next q r)
  window : ∀ q w, I q → w.toFinset.card ≤ k → A.faults q w ≤ w.toFinset.card

theorem Conservative.foldl (hA : Conservative A I k) (hq : I q) (w : List Page) :
    I (w.foldl A.next q) := by
  induction w generalizing q with
  | nil => exact hq
  | cons r w ih => exact ih (hA.next q r hq)

/-- At most `k` faults in each window. -/
theorem Conservative.faults_le (hA : Conservative A I k) (hk : 1 ≤ k) (hq : I q) (refs : List Page) :
    ∀ {w : List Page}, (firstRefs w).length ≤ k →
      A.faults q (w ++ refs) ≤ k * ((cut k w refs).1.length + 1) := by
  induction refs generalizing q with
  | nil =>
    intro w hw
    rw [length_firstRefs] at hw
    simpa [cut] using (hA.window q w hq hw).trans hw
  | cons r refs ih =>
    intro w hw
    rw [cut]
    by_cases hr : r ∈ w
    · rw [if_pos hr, ← List.singleton_append, ← List.append_assoc]
      exact ih hq (by rwa [firstRefs_concat, if_pos hr])
    rw [if_neg hr]
    by_cases hfull : (firstRefs w).length = k
    · have hwindow := hA.window q w hq (length_firstRefs w ▸ hw)
      have hrest := ih (hA.foldl hq w) (w := [r]) (by simpa [length_firstRefs] using hk)
      rw [← length_firstRefs] at hwindow
      rw [if_pos hfull, faults_append, ← List.singleton_append, List.length_cons, Nat.mul_add k _ 1]
      omega
    · rw [if_neg hfull, ← List.singleton_append, ← List.append_assoc]
      refine ih hq ?_
      rw [firstRefs_concat, if_neg hr, List.length_append, List.length_singleton]
      omega

/-! ## Schedules -/

/-- A schedule after one reference. -/
theorem Serves.step {S : Finset Page} {r : Page} {v : List Page} {n : Nat} (hS : S.card ≤ h)
    (hserves : Serves h S (r :: v) n) :
    ∃ S' b, n = (if r ∈ S then 0 else 1) + b ∧ Serves h S' v b ∧ r ∈ S' ∧ S' ⊆ insert r S ∧
      S'.card ≤ h := by
  cases hserves with
  | hit hr hrest => exact ⟨S, n, by simp [hr], hrest, hr, Finset.subset_insert r S, hS⟩
  | @fill _ _ _ n hr hroom hrest =>
    refine ⟨insert r S, n, by simp [hr, Nat.add_comm], hrest, by simp, subset_rfl, ?_⟩
    rw [Finset.card_insert_of_notMem hr]
    omega
  | @evict _ _ v _ n hr hfull hv hrest =>
    refine ⟨insert r (S.erase v), n, by simp [hr, Nat.add_comm], hrest, by simp,
      Finset.insert_subset_insert r (Finset.erase_subset v S), ?_⟩
    rwa [card_insert_erase hr hv]

/-- A schedule of renamed pages is one of the pages. -/
theorem Serves.of_map {Other : Type*} [DecidableEq Other] (f : Page ↪ Other) (refs : List Page) :
    ∀ {S : Finset Page} {n : Nat}, Serves h (S.map f) (refs.map f) n → Serves h S refs n := by
  induction refs with
  | nil =>
    intro S n hserves
    cases hserves
    exact .nil S
  | cons r refs ih =>
    intro S n hserves
    rw [List.map_cons] at hserves
    cases hserves with
    | hit hr hrest => exact .hit ((Finset.mem_map' f).mp hr) (ih hrest)
    | fill hr hroom hrest =>
      rw [Finset.card_map] at hroom
      rw [← Finset.map_insert] at hrest
      exact .fill (fun hmem => hr ((Finset.mem_map' f).mpr hmem)) hroom (ih hrest)
    | evict hr hfull hv hrest =>
      obtain ⟨v₀, hv₀, rfl⟩ := Finset.mem_map.mp hv
      rw [Finset.card_map] at hfull
      rw [← Finset.map_erase, ← Finset.map_insert] at hrest
      exact .evict (fun hmem => hr ((Finset.mem_map' f).mpr hmem)) hfull hv₀ (ih hrest)

/-- A schedule faults on the new pages of the references `u`, and then holds the last of them. -/
theorem Serves.append {S : Finset Page} {u : List Page} (hS : S.card ≤ h) :
    ∀ {v : List Page} {n : Nat}, Serves h S (u ++ v) n → ∃ S' a b, n = a + b ∧ Serves h S' v b ∧
      S'.card ≤ h ∧ S' ⊆ S ∪ u.toFinset ∧ (u.toFinset \ S).card ≤ a ∧
      ∀ r, u.getLast? = some r → r ∈ S' := by
  induction u using List.reverseRecOn with
  | nil => exact fun {v n} hserves => ⟨S, 0, n, by simp, hserves, hS, by simp, by simp, by simp⟩
  | append_singleton u r ih =>
    intro v n hserves
    rw [List.append_assoc, List.singleton_append] at hserves
    obtain ⟨S₁, a, b₁, hn, hrest, hS₁, hsub, ha, -⟩ := ih hserves
    obtain ⟨S', b, hb, hv, hr, hsub', hS'⟩ := Serves.step hS₁ hrest
    have hunion : (u ++ [r]).toFinset = insert r u.toFinset := by simp
    refine ⟨S', a + (if r ∈ S₁ then 0 else 1), b, by omega, hv, hS', ?_, ?_, by simpa using hr⟩
    · rw [hunion, Finset.union_insert]
      exact hsub'.trans (Finset.insert_subset_insert r hsub)
    · rw [hunion]
      by_cases hmem : r ∈ S₁
      · rw [if_pos hmem, Nat.add_zero]
        refine le_trans (Finset.card_le_card fun p hp => ?_) ha
        rw [Finset.mem_sdiff, Finset.mem_insert] at hp
        rcases hp.1 with rfl | hu
        · exact Finset.mem_sdiff.mpr
            ⟨(Finset.mem_union.mp (hsub hmem)).resolve_left hp.2, hp.2⟩
        · exact Finset.mem_sdiff.mpr ⟨hu, hp.2⟩
      · rw [if_neg hmem]
        have hle : (insert r u.toFinset \ S).card ≤ (insert r (u.toFinset \ S)).card := by
          refine Finset.card_le_card fun x hx => ?_
          simp only [Finset.mem_sdiff, Finset.mem_insert] at hx ⊢
          exact hx.1.imp_right fun hu => ⟨hu, hx.2⟩
        have hins := Finset.card_insert_le r (u.toFinset \ S)
        omega

/-- **Every full window costs a schedule `k - h + 1` faults.**  After the first reference of a window,
`k` other pages are referenced up to the first reference of the next one, and `h - 1` of them at most
are there already. -/
theorem Serves.windows_le (hh : 1 ≤ h) (hhk : h ≤ k) (refs : List Page) :
    ∀ {p : Page} {t : List Page} {S : Finset Page} {n : Nat}, p ∈ S → S.card ≤ h →
      Serves h S (t ++ refs) n → (cut k (p :: t) refs).1.length * (k - h + 1) ≤ n := by
  induction refs with
  | nil => simp [cut]
  | cons r refs ih =>
    intro p t S n hp hS hserves
    have hnext : t ++ r :: refs = (t ++ [r]) ++ refs := by simp
    rw [cut]
    by_cases hr : r ∈ p :: t
    · rw [if_pos hr, List.cons_append]
      exact ih hp hS (hnext ▸ hserves)
    rw [if_neg hr]
    by_cases hfull : (firstRefs (p :: t)).length = k
    · rw [hnext] at hserves
      obtain ⟨S', a, b, rfl, hrest, hS', -, ha, hlast⟩ := Serves.append hS hserves
      have hwindows := ih (t := []) (hlast r (by simp)) hS' hrest
      have hpages : k ≤ ((t ++ [r]).toFinset.erase p).card := by
        rw [length_firstRefs] at hfull
        have hset : insert p ((t ++ [r]).toFinset.erase p) = insert r (p :: t).toFinset := by
          ext x
          by_cases hx : x = p <;> simp [hx]
        have hcard := congrArg Finset.card hset
        rw [Finset.card_insert_of_notMem (Finset.notMem_erase p _),
          Finset.card_insert_of_notMem (by simpa using hr)] at hcard
        omega
      have hold : ((t ++ [r]).toFinset.erase p).card ≤ ((t ++ [r]).toFinset \ S).card + (h - 1) := by
        have hsub : (t ++ [r]).toFinset.erase p ⊆ ((t ++ [r]).toFinset \ S) ∪ S.erase p := by
          intro x hx
          rw [Finset.mem_erase] at hx
          by_cases hxS : x ∈ S
          · exact Finset.mem_union_right _ (Finset.mem_erase.mpr ⟨hx.1, hxS⟩)
          · exact Finset.mem_union_left _ (Finset.mem_sdiff.mpr ⟨hx.2, hxS⟩)
        have hle := (Finset.card_le_card hsub).trans (Finset.card_union_le _ _)
        rw [Finset.card_erase_of_mem hp] at hle
        omega
      rw [if_pos hfull, List.length_cons, Nat.add_mul]
      omega
    · rw [if_neg hfull, List.cons_append]
      exact ih hp hS (hnext ▸ hserves)

/-- **A conservative algorithm is competitive.** -/
theorem Conservative.competitive (hA : Conservative A I k) (hq : I q) (hh : 1 ≤ h) (hhk : h ≤ k)
    {refs : List Page} {n : Nat} (hserves : Serves h ∅ refs n) :
    (k - h + 1) * A.faults q refs ≤ k * n + k * (k - h + 1) := by
  cases refs with
  | nil => simp [Pager.faults]
  | cons r refs =>
    obtain ⟨S, b, hn, hrest, hr, -, hS⟩ := Serves.step (by simp) hserves
    have hwindows := Serves.windows_le hh hhk refs (t := []) hr hS hrest
    have hfaults := hA.faults_le (by omega) hq refs (w := [r])
      (by simpa [length_firstRefs] using hh.trans hhk)
    rw [List.singleton_append] at hfaults
    set windows := (cut k [r] refs).1.length
    calc (k - h + 1) * A.faults q (r :: refs)
        ≤ (k - h + 1) * (k * (windows + 1)) := Nat.mul_le_mul_left _ hfaults
      _ = k * (windows * (k - h + 1)) + k * (k - h + 1) := by ring
      _ ≤ k * n + k * (k - h + 1) := by
          have : windows * (k - h + 1) ≤ n := by omega
          gcongr

/-! ## A larger memory -/

/-- **A schedule can be imitated in more frames.** -/
theorem exists_serves_of_le {h k : Nat} (hhk : h ≤ k) {S : Finset Page} {refs : List Page} {n : Nat}
    (hserves : Serves h S refs n) : ∀ {T : Finset Page}, S ⊆ T → S.card ≤ h → T.card ≤ k →
      ∃ m, m ≤ n ∧ Serves k T refs m := by
  induction hserves with
  | nil S => exact fun {T} _ _ _ => ⟨0, le_rfl, .nil T⟩
  | hit hr _ ih =>
    intro T hST hS hT
    obtain ⟨m, hm, hrest⟩ := ih hST hS hT
    exact ⟨m, hm, .hit (hST hr) hrest⟩
  | @fill S r refs n hr hroom _ ih =>
    intro T hST hS hT
    have hcard : (insert r S).card ≤ h := by
      rw [Finset.card_insert_of_notMem hr]
      omega
    by_cases hrT : r ∈ T
    · obtain ⟨m, hm, hrest⟩ := ih (Finset.insert_subset hrT hST) hcard hT
      exact ⟨m, by omega, .hit hrT hrest⟩
    by_cases hroomT : T.card < k
    · obtain ⟨m, hm, hrest⟩ := ih (Finset.insert_subset_insert r hST) hcard (by
        rw [Finset.card_insert_of_notMem hrT]
        omega)
      exact ⟨m + 1, by omega, .fill hrT hroomT hrest⟩
    · -- some page of the larger memory is not in the smaller one
      obtain ⟨v, hvT, hvS⟩ := Finset.exists_mem_notMem_of_card_lt_card (show S.card < T.card by omega)
      obtain ⟨m, hm, hrest⟩ := ih
        (Finset.insert_subset_insert r (Finset.subset_erase.mpr ⟨hST, hvS⟩)) hcard
        (by rwa [card_insert_erase hrT hvT])
      exact ⟨m + 1, by omega, .evict hrT (by omega) hvT hrest⟩
  | @evict S r v refs n hr hfull hv _ ih =>
    intro T hST hS hT
    have hcard : (insert r (S.erase v)).card ≤ h := by rwa [card_insert_erase hr hv]
    by_cases hrT : r ∈ T
    · obtain ⟨m, hm, hrest⟩ := ih
        (Finset.insert_subset hrT ((Finset.erase_subset v S).trans hST)) hcard hT
      exact ⟨m, by omega, .hit hrT hrest⟩
    by_cases hroomT : T.card < k
    · obtain ⟨m, hm, hrest⟩ := ih
        (Finset.insert_subset_insert r ((Finset.erase_subset v S).trans hST)) hcard (by
          rw [Finset.card_insert_of_notMem hrT]
          omega)
      exact ⟨m + 1, by omega, .fill hrT hroomT hrest⟩
    · obtain ⟨w, hwT, hsub⟩ : ∃ w ∈ T, S.erase v ⊆ T.erase w := by
        by_cases heq : T ⊆ S
        · exact ⟨v, hST hv, Finset.erase_subset_erase v hST⟩
        · obtain ⟨w, hwT, hwS⟩ := Finset.not_subset.mp heq
          exact ⟨w, hwT, (Finset.erase_subset v S).trans (Finset.subset_erase.mpr ⟨hST, hwS⟩)⟩
      obtain ⟨m, hm, hrest⟩ := ih (Finset.insert_subset_insert r hsub) hcard
        (by rwa [card_insert_erase hrT hwT])
      exact ⟨m + 1, by omega, .evict hrT (by omega) hwT hrest⟩

end

end Competitive
