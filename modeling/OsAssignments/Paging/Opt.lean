import OsAssignments.Paging.BeladyTable
import OsAssignments.Paging.Counters
import OsAssignments.Paging.Demand

/-!
# The `opt` policy is optimal

* `optPolicy` — `opt_evict` and `opt_ref` over the globals of `opt.c`; `optInit` is
  `opt_init`, given the addresses `makePageList` reads.
* `optEvictFrom_ok` — the victim's next use is the latest, or it has none.
* `OptInv` — the page list and the table are those of the references still to come,
  and `coremap[].page` names the page in each frame.
* `servesFurthest_of_replay` — a run under `opt` evicts furthest-in-future.
* `opt_misses_least` — no policy misses less, on at most `2 ^ 31` references: behind those the times
  of `opt.c`, which are `int`s, are negative.
-/

namespace OsAssignments
namespace Paging

open MachineWord ByteMemory DemandPaging

/-! ## The policy -/

/-- The globals of `opt.c`. -/
structure OptState where
  curRef : Int
  pageList : CList Nat
  beladyTable : HashTable (CList Int)

/-- `opt_init`. -/
def optInit (memsize : Nat) (addresses : List Nat) : Except Fault OptState := do
  let pageList ← makePageList addresses
  let beladyTable ← makeBeladyTable memsize pageList
  pure ⟨0, pageList, beladyTable⟩

/-- The loop of `opt_evict`, with `n` frames left to look at. -/
def optEvictFrom (m : Machine) (table : HashTable (CList Int)) :
    Nat → Nat → Nat → Int → Except Fault Int
  | 0, _, victim, _ => .ok (victim : Nat)
  | n + 1, i, victim, maxRefTime => do
    let nextRefTime ← peekNextRefTime table (m.coremap i).page
    if nextRefTime = -1 then pure (i : Nat)
    else if maxRefTime < nextRefTime then optEvictFrom m table n (i + 1) i nextRefTime
    else optEvictFrom m table n (i + 1) victim maxRefTime

/-- `opt_evict`. -/
def optEvict (m : Machine) (s : OptState) : Except Fault (Int × Machine × OptState) := do
  let victim ← optEvictFrom m s.beladyTable m.memsize 0 0 (-1)
  pure (victim, m, s)

/-- `f->page = page`. -/
def setPage (f page : Nat) (m : Machine) : Machine :=
  { m with
    coremap := Function.update m.coremap f { m.coremap f with page := page } }

/-- `opt_ref`. -/
def optRef (p : PtePtr) (m : Machine) (s : OptState) : Except Fault (Machine × OptState) := do
  match ← s.pageList.slotAt s.curRef with
  | none => .error .nullPointer
  | some page =>
    if (m.pte p).frameNumber < m.memsize then do
      let (_, table) ← popNextRefTime s.beladyTable page
      pure (setPage (m.pte p).frameNumber page m,
        { s with curRef := incr s.curRef, beladyTable := table })
    else .error .outOfBounds

theorem sameButBookkeeping_setPage (f page : Nat) (m : Machine) :
    m.SameButBookkeeping (setPage f page m) := by
  refine ⟨fun _ => rfl, fun _ => rfl, fun _ => rfl, fun g => ?_, rfl⟩
  by_cases hg : g = f
  · subst hg
    simp [setPage]
  · simp [setPage, Function.update_of_ne hg]

theorem optRef_eq {p : PtePtr} {m m' : Machine} {s s' : OptState}
    (h : optRef p m s = .ok (m', s')) : ∃ page, m' = setPage (m.pte p).frameNumber page m := by
  unfold optRef at h
  cases hslot : s.pageList.slotAt s.curRef with
  | error e => rw [hslot] at h; cases h
  | ok o =>
    rw [hslot] at h
    cases o with
    | none => cases h
    | some page =>
      refine ⟨page, ?_⟩
      change (if _ then _ else _) = _ at h
      split at h
      · cases hpop : popNextRefTime s.beladyTable page with
        | error e => rw [hpop] at h; cases h
        | ok r =>
          rw [hpop] at h
          cases h
          rfl
      · cases h

theorem optEvict_eq {m m' : Machine} {s s' : OptState} {v : Int}
    (h : optEvict m s = .ok (v, m', s')) : m' = m ∧ s' = s := by
  unfold optEvict at h
  cases hloop : optEvictFrom m s.beladyTable m.memsize 0 0 (-1) with
  | error e => rw [hloop] at h; cases h
  | ok v' => rw [hloop] at h; cases h; exact ⟨rfl, rfl⟩

/-- The entry of `algs` for `opt`. -/
def optPolicy : Policy OptState where
  ref := optRef
  evict := optEvict
  ref_same h := by
    obtain ⟨page, rfl⟩ := optRef_eq h
    exact sameButBookkeeping_setPage _ _ _
  evict_same h := by
    obtain ⟨rfl, -⟩ := optEvict_eq h
    exact .refl _

/-! ## The victim -/

/-- The loop of `opt_evict`: the frames before `i` all have a next use, at most
`maxRefTime`, which is that of `victim` once there is one. -/
theorem optEvictFrom_ok {m : Machine} {table : HashTable (CList Int)} {c : Nat} {rest : List Nat}
    (h : BeladyRepr table c rest) (n : Nat) :
    ∀ (i victim : Nat) (maxRefTime : Int), 0 < i + n →
      (∀ j, j < i → (m.coremap j).page ∈ rest ∧
        ((c + rest.idxOf (m.coremap j).page : Nat) : Int) ≤ maxRefTime) →
      ((i = 0 ∧ maxRefTime = -1) ∨ (victim < i ∧
        maxRefTime = ((c + rest.idxOf (m.coremap victim).page : Nat) : Int))) →
      ∃ v : Nat, optEvictFrom m table n i victim maxRefTime = .ok (v : Int) ∧ v < i + n ∧
        ∀ j, j < i + n → rest.idxOf (m.coremap j).page ≤ rest.idxOf (m.coremap v).page := by
  induction n with
  | zero =>
    intro i victim maxRefTime hpos hbelow hvictim
    rcases hvictim with ⟨rfl, -⟩ | ⟨hlt, hmax⟩
    · exact absurd hpos (by omega)
    · refine ⟨victim, rfl, hlt, fun j hj => ?_⟩
      have := (hbelow j hj).2
      omega
  | succ n ih =>
    intro i victim maxRefTime _ hbelow hvictim
    have hpeek := peekNextRefTime_ok h (m.coremap i).page
    by_cases hmem : (m.coremap i).page ∈ rest
    · rw [if_pos hmem] at hpeek
      have hne : ((c + rest.idxOf (m.coremap i).page : Nat) : Int) ≠ -1 := by omega
      by_cases hlater : maxRefTime < ((c + rest.idxOf (m.coremap i).page : Nat) : Int)
      · have hbelow' : ∀ j, j < i + 1 → (m.coremap j).page ∈ rest ∧
            ((c + rest.idxOf (m.coremap j).page : Nat) : Int) ≤
              ((c + rest.idxOf (m.coremap i).page : Nat) : Int) := by
          intro j hj
          rcases Nat.lt_or_eq_of_le (Nat.le_of_lt_succ hj) with hj | rfl
          · exact ⟨(hbelow j hj).1, (hbelow j hj).2.trans hlater.le⟩
          · exact ⟨hmem, le_refl _⟩
        obtain ⟨v, hrun, hv, hbest⟩ := ih (i + 1) i _ (by omega) hbelow' (.inr ⟨by omega, rfl⟩)
        refine ⟨v, ?_, by omega, fun j hj => hbest j (by omega)⟩
        rw [optEvictFrom, bind_of_ok hpeek, if_neg hne, if_pos hlater]
        exact hrun
      · have hbelow' : ∀ j, j < i + 1 → (m.coremap j).page ∈ rest ∧
            ((c + rest.idxOf (m.coremap j).page : Nat) : Int) ≤ maxRefTime := by
          intro j hj
          rcases Nat.lt_or_eq_of_le (Nat.le_of_lt_succ hj) with hj | rfl
          · exact hbelow j hj
          · exact ⟨hmem, not_lt.mp hlater⟩
        have hvictim' : (i + 1 = 0 ∧ maxRefTime = -1) ∨ (victim < i + 1 ∧
            maxRefTime = ((c + rest.idxOf (m.coremap victim).page : Nat) : Int)) := by
          rcases hvictim with ⟨-, hmax⟩ | ⟨hlt, hmax⟩
          · rw [hmax] at hlater
            omega
          · exact .inr ⟨by omega, hmax⟩
        obtain ⟨v, hrun, hv, hbest⟩ := ih (i + 1) victim maxRefTime (by omega) hbelow' hvictim'
        refine ⟨v, ?_, by omega, fun j hj => hbest j (by omega)⟩
        rw [optEvictFrom, bind_of_ok hpeek, if_neg hne, if_neg hlater]
        exact hrun
    · -- the page in frame `i` is never used again
      rw [if_neg hmem] at hpeek
      refine ⟨i, ?_, by omega, fun j _ => ?_⟩
      · rw [optEvictFrom, bind_of_ok hpeek, if_pos rfl]
        rfl
      · rw [List.idxOf_eq_length hmem]
        exact List.idxOf_le_length

theorem optEvict_ok {m : Machine} {s : OptState} {c : Nat} {rest : List Nat}
    (h : BeladyRepr s.beladyTable c rest) (hpos : 0 < m.memsize) :
    ∃ v : Nat, optEvict m s = .ok ((v : Int), m, s) ∧ v < m.memsize ∧
      ∀ j, j < m.memsize → rest.idxOf (m.coremap j).page ≤ rest.idxOf (m.coremap v).page := by
  obtain ⟨v, hrun, hv, hbest⟩ := optEvictFrom_ok h m.memsize 0 0 (-1) (by omega)
    (fun j hj => absurd hj (Nat.not_lt_zero j)) (.inl ⟨rfl, rfl⟩)
  rw [Nat.zero_add] at hv hbest
  exact ⟨v, by rw [optEvict, bind_of_ok hrun]; rfl, hv, hbest⟩

/-! ## The invariant of a run -/

/-- The state of `opt` before it sees the references `rest`, the first of which is
number `c`. -/
structure OptInv (pages : List Nat) (c : Nat) (rest : List Nat) (m : Machine) (s : OptState) :
    Prop where
  length : pages.length ≤ 2 ^ 31
  curRef : s.curRef = toInt32 c
  pageList : s.pageList.Repr pages
  rest_eq : pages.drop c = rest
  table : BeladyRepr s.beladyTable c rest
  /-- The field `page` of a frame names the page in it. -/
  page : ∀ f q, f < m.memsize → (m.coremap f).inUse = true → (m.coremap f).pte = some q →
    q = ptrOfPage (m.coremap f).page

theorem OptInv.of_coremap {pages rest : List Nat} {c : Nat} {m m' : Machine} {s : OptState}
    (h : OptInv pages c rest m s) (hsize : m'.memsize = m.memsize) (hc : m'.coremap = m.coremap) :
    OptInv pages c rest m' s := by
  refine ⟨h.length, h.curRef, h.pageList, h.rest_eq, h.table, ?_⟩
  rw [hsize, hc]
  exact h.page

/-- The reference being made. -/
theorem OptInv.current {pages rest : List Nat} {c page : Nat} {m : Machine} {s : OptState}
    (h : OptInv pages c (page :: rest) m s) :
    s.curRef = c ∧ s.pageList.slotAt s.curRef = .ok (some page) ∧ pages.drop (c + 1) = rest := by
  have hlt : c < pages.length := by
    by_contra hge
    have hnil := h.rest_eq
    rw [List.drop_eq_nil_of_le (by omega)] at hnil
    cases hnil
  have hdrop : pages[c] :: pages.drop (c + 1) = page :: rest := by
    rw [← List.drop_eq_getElem_cons hlt]
    exact h.rest_eq
  rw [List.cons.injEq] at hdrop
  have hcur : s.curRef = c := h.curRef.trans (toInt32_natCast (hlt.trans_le h.length))
  exact ⟨hcur, by rw [hcur, slotAt_natCast, h.pageList.slot hlt, hdrop.1], hdrop.2⟩

/-- **`opt_ref`** records the page in its frame and moves on by one reference. -/
theorem optRef_ok {n : Nat} {T : Finset PtePtr} {pages rest : List Nat} {c page : Nat} {m m₁ : Machine}
    {s : OptState} (h : OptInv pages c (page :: rest) m s) (hR : Residency n T m₁)
    (hsize : m₁.memsize = m.memsize) (hv : (m₁.pte (ptrOfPage page)).valid = true)
    (hother : ∀ g, g ≠ (m₁.pte (ptrOfPage page)).frameNumber → m₁.coremap g = m.coremap g) :
    ∃ s₂, optRef (ptrOfPage page) m₁ s =
        .ok (setPage (m₁.pte (ptrOfPage page)).frameNumber page m₁, s₂) ∧
      OptInv pages (c + 1) rest (setPage (m₁.pte (ptrOfPage page)).frameNumber page m₁) s₂ := by
  obtain ⟨hframe, -, howner⟩ := hR.owner _ hv
  obtain ⟨-, hslot, hdrop⟩ := h.current
  obtain ⟨table', hpop, htable⟩ := popNextRefTime_ok h.table
  refine ⟨{ s with curRef := incr s.curRef, beladyTable := table' }, ?_, ?_⟩
  · rw [optRef, bind_of_ok hslot]
    show (if _ then _ else _) = _
    rw [if_pos hframe, bind_of_ok hpop]
    rfl
  · refine ⟨h.length, by rw [h.curRef, incr_toInt32], h.pageList, hdrop, htable, ?_⟩
    intro f q hf hu hq
    by_cases hfp : f = (m₁.pte (ptrOfPage page)).frameNumber
    · subst hfp
      simp only [setPage, Function.update_self] at hq ⊢
      rw [howner] at hq
      exact (Option.some.inj hq).symm
    · simp only [setPage, Function.update_of_ne hfp] at hu hq ⊢
      rw [hother f hfp] at hu hq ⊢
      exact h.page f q (hsize ▸ hf) hu hq

/-! ## Runs under `opt` -/

section

variable {n : Nat} {T : Finset PtePtr} {S : Finset Nat} {pages rest : List Nat} {c : Nat}
  {a : Access} {m m₁ : Machine} {s s₁ : OptState}

/-- Up to the call of `opt_ref`, an access leaves the globals of `opt.c` and all
frames but that of its page. -/
theorem DemandStep.opt_frame (h : DemandStep optPolicy a m s S m₁ s₁) :
    s₁ = s ∧ ∀ g, g ≠ (m₁.pte (ptrOf a.vaddr)).frameNumber → m₁.coremap g = m.coremap g :=
  h.frame optEvict_eq

/-- The victim of `opt` is the resident page whose next use is the latest. -/
theorem OptInv.furthest (h : OptInv pages c (pageOf a.vaddr :: rest) m s) (hR : Residency n T m)
    (hS : Residents S m) (hnot : pageOf a.vaddr ∉ S) (hfull : m.Full) {f v : Nat} {mp : Machine}
    (hv : v ∈ S) (hevict : optEvict (missState a.vaddr m) s = .ok ((f : Int), mp, s₁))
    (hf : f < m.memsize) (hfv : (m.coremap f).pte = some (ptrOfPage v)) :
    ∀ q ∈ S, rest.idxOf q ≤ rest.idxOf v := by
  have hsize := (sameView_missState a.vaddr m).memsize
  obtain ⟨f', hrun, -, hbest⟩ := optEvict_ok (m := missState a.vaddr m) h.table
    (by rw [hsize]; omega)
  have hff : f' = f := by
    rw [hrun] at hevict
    have := (Prod.mk.inj (Except.ok.inj hevict)).1
    omega
  subst hff
  rw [hsize, missState_coremap] at hbest
  have hpage : (m.coremap f').page = v :=
    (ptrOfPage_injective (h.page f' _ hf (hfull f' hf) hfv)).symm
  intro q hq
  obtain ⟨hg, hu, hown⟩ := hR.owner _ ((hS q).mp hq)
  have hqpage : (m.coremap (m.pte (ptrOfPage q)).frameNumber).page = q :=
    (ptrOfPage_injective (h.page _ _ hg hu hown)).symm
  have hle := hbest _ hg
  have hqa : pageOf a.vaddr ≠ q := fun hEq => hnot (hEq ▸ hq)
  have hva : pageOf a.vaddr ≠ v := fun hEq => hnot (hEq ▸ hv)
  rw [hpage, hqpage, List.idxOf_cons_ne _ hqa, List.idxOf_cons_ne _ hva] at hle
  omega

/-- **`opt` always answers.** -/
theorem OptInv.answers (h : OptInv pages c (pageOf a.vaddr :: rest) m s) (hR : Residency n T m)
    (hn : T.card ≤ n) (hT24 : T.card ≤ 2 ^ 24) (hT : ∀ p ∈ T, ∃ page, p = ptrOfPage page)
    (hp : ptrOf a.vaddr ∈ T) (hvaddr : a.vaddr < 2 ^ 36) (hmem : m.memsize ≤ 2 ^ 19)
    (hpos : 0 < m.memsize) (hS : Residents S m) : optPolicy.Answers a m s := by
  have hpicks : ((missState a.vaddr m).pte (ptrOf a.vaddr)).valid = false →
      (missState a.vaddr m).Full → optPolicy.PicksInUse (missState a.vaddr m) s := by
    intro _ hfull
    have hsize := (sameView_missState a.vaddr m).memsize
    obtain ⟨v, hrun, hv, -⟩ := optEvict_ok (m := missState a.vaddr m) h.table (hsize.symm ▸ hpos)
    exact ⟨v, _, s, hrun, hv, hfull v hv⟩
  refine ⟨hpicks, fun m₁ s₁ htr => ?_⟩
  obtain ⟨ht, hR₁⟩ := hR.translated_of_run hn hT24 hp hvaddr hmem hpicks htr
  obtain ⟨rfl, hother⟩ := (ht.demand hR hT hS).opt_frame
  rw [ptrOf_eq] at hother ⊢
  have hv := ht.valid
  rw [ptrOf_eq] at hv
  obtain ⟨s₂, hrun, -⟩ := optRef_ok h hR₁ ht.memsize hv hother
  exact ⟨_, hrun⟩

/-- **One access under `opt`**, and what it leaves of the invariant. -/
theorem OptInv.step (h : OptInv pages c (pageOf a.vaddr :: rest) m s) (hR : Residency n T m)
    (hn : T.card ≤ n) (hT24 : T.card ≤ 2 ^ 24) (hT : ∀ p ∈ T, ∃ page, p = ptrOfPage page)
    (hp : ptrOf a.vaddr ∈ T) (hvaddr : a.vaddr < 2 ^ 36) (hmem : m.memsize ≤ 2 ^ 19)
    (hpos : 0 < m.memsize) (hS : Residents S m) :
    ∃ m₁ m' s', DemandStep optPolicy a m s S m₁ s ∧ accessStep optPolicy a m s = .ok (m', s') ∧
      (∀ S', Residents S' m₁ → Residents S' m') ∧ Residency n T m' ∧ m'.memsize = m.memsize ∧
      OptInv pages (c + 1) rest m' s' := by
  have hans := h.answers hR hn hT24 hT hp hvaddr hmem hpos hS
  obtain ⟨m₁, s₁, m₂, s₂, m', hstep, hR₁, hv₁, href, hrun, hview, hcoremap, hR', hsize⟩ :=
    hR.accessStep_demand hn hT24 hT hp hvaddr hmem hans hS
  obtain ⟨rfl, hother⟩ := hstep.opt_frame
  have hsize₁ : m₁.memsize = m.memsize := by
    rw [← (optPolicy.ref_same href).sameView.memsize, ← hview.memsize, hsize]
  refine ⟨m₁, m', s₂, hstep, hrun,
    fun S' hS' => (hS'.of_sameView (optPolicy.ref_same href).sameView).of_sameView hview, hR',
    hsize, ?_⟩
  rw [ptrOf_eq] at hother hv₁ href
  obtain ⟨s₂', hrun', hI₂⟩ := optRef_ok h hR₁ hsize₁ hv₁ hother
  obtain ⟨rfl, rfl⟩ : setPage (m₁.pte (ptrOfPage (pageOf a.vaddr))).frameNumber
      (pageOf a.vaddr) m₁ = m₂ ∧ s₂' = s₂ := by
    have hEq := hrun'.symm.trans href
    simpa using hEq
  exact hI₂.of_coremap hview.memsize hcoremap

/-- **A run under `opt` evicts furthest-in-future.** -/
theorem servesFurthest_of_replay {trace : List Access} (hn : T.card ≤ n) (hT24 : T.card ≤ 2 ^ 24)
    (hT : ∀ p ∈ T, ∃ page, p = ptrOfPage page) :
    (∀ a ∈ trace, ptrOf a.vaddr ∈ T ∧ a.vaddr < 2 ^ 36) →
    ∀ {c : Nat} {m : Machine} {s : OptState} {S : Finset Nat}, Residency n T m →
      m.memsize ≤ 2 ^ 19 → 0 < m.memsize → Residents S m →
      OptInv pages c (trace.map fun a => pageOf a.vaddr) m s →
      ∃ m' s', replay optPolicy trace m s = .ok (m', s') ∧
        ServesFurthest m.memsize S (trace.map fun a => pageOf a.vaddr)
          (missesOf optPolicy trace m s) := by
  induction trace with
  | nil => intro _ c m s S _ _ _ _ _; exact ⟨m, s, rfl, .nil S⟩
  | cons a trace ih =>
    intro htrace c m s S hR hmem hpos hS hI
    obtain ⟨hp, hvaddr⟩ := htrace a (List.mem_cons_self ..)
    obtain ⟨m₁, m', s', hstep, hrun, hkeep, hR', hsize, hI'⟩ :=
      hI.step hR hn hT24 hT hp hvaddr hmem hpos hS
    have hmisses := hS.missesOf_cons trace hrun
    have hrest : ∀ {S' : Finset Nat}, Residents S' m₁ → ∃ mf sf,
        replay optPolicy (a :: trace) m s = .ok (mf, sf) ∧
          ServesFurthest m.memsize S' (trace.map fun a => pageOf a.vaddr)
            (missesOf optPolicy trace m' s') := by
      intro S' hS'
      obtain ⟨mf, sf, hfinal, hserves⟩ :=
        ih (fun b hb => htrace b (List.mem_cons_of_mem a hb)) hR' (hsize ▸ hmem) (hsize ▸ hpos)
          (hkeep S' hS') hI'
      refine ⟨mf, sf, ?_, hsize ▸ hserves⟩
      simp only [replay, runWith, hrun, bind, Except.bind]
      exact hfinal
    cases hstep with
    | hit hin hS' _ _ =>
      obtain ⟨mf, sf, hfinal, hserves⟩ := hrest hS'
      rw [if_pos hin] at hmisses
      exact ⟨mf, sf, hfinal, hmisses ▸ .hit hin hserves⟩
    | fill hnot hlt hS' _ _ _ =>
      obtain ⟨mf, sf, hfinal, hserves⟩ := hrest hS'
      rw [if_neg hnot] at hmisses
      exact ⟨mf, sf, hfinal, hmisses ▸ .fill hnot hlt hserves⟩
    | evict hnot hfull hge hv hS' hevict hf hfv _ _ =>
      have hfar := hI.furthest hR hS hnot hfull hv hevict hf hfv
      obtain ⟨mf, sf, hfinal, hserves⟩ := hrest hS'
      rw [if_neg hnot] at hmisses
      exact ⟨mf, sf, hfinal, hmisses ▸ .evict hnot hge hv hfar hserves⟩

end

/-! ## The start of a run -/

/-- `opt_init` sets up the invariant. -/
theorem optInit_ok {memsize : Nat} {addresses : List Nat} (hlen : addresses.length ≤ 2 ^ 31)
    (hmin : 5 ≤ memsize) (hmem : memsize < 2 ^ 31) : ∃ so, optInit memsize addresses = .ok so ∧
      ∀ physmem swapfile b, OptInv (addresses.map pageNumber) 0 (addresses.map pageNumber)
        (boot memsize physmem swapfile b) so := by
  obtain ⟨list, hmake, hrepr⟩ := makePageList_ok hlen
  have hlen' : (addresses.map pageNumber).length ≤ 2 ^ 31 := by rwa [List.length_map]
  obtain ⟨table, htable, hbelady⟩ := makeBeladyTable_ok hrepr hlen' hmin hmem
  refine ⟨⟨0, list, table⟩, ?_, fun _ _ _ => ⟨hlen', rfl, hrepr, rfl, hbelady, fun f q _ hu _ =>
    absurd (show false = true from hu) (by decide)⟩⟩
  rw [optInit, bind_of_ok hmake, bind_of_ok htable]
  rfl

/-- A first time that is negative as an `int` is no place in the page list. -/
theorem optInit_outOfBounds {memsize k : Nat} {addresses : List Nat}
    (hlen : addresses.length = k + 1) (hneg : 2 ^ 31 ≤ k % 2 ^ 32) :
    optInit memsize addresses = .error .outOfBounds := by
  obtain ⟨list, hmake, hkeeps, -⟩ := makePageList_keeps addresses
  have hcount : list.count = k + 1 := by rw [hkeeps.count, List.length_map, hlen]
  rw [optInit, bind_of_ok hmake, makeBeladyTable_outOfBounds hcount hneg]
  rfl

/-- A page list that is the sequence of the pages has their number. -/
theorem length_addresses {addresses : List Nat} {trace : List Access}
    (hlist : addresses.map pageNumber = trace.map fun a => pageOf a.vaddr) :
    addresses.length = trace.length := by
  simpa using congrArg List.length hlist

/-! ## Optimality -/

/-- **No policy misses less than `opt`.**  The trace is any sequence of at most `2 ^ 31` accesses
whose pages are the list `makePageList` made; the other policy is any choice of
in-use victims, with any state of its own. -/
theorem opt_misses_least {σ : Type} (P : Policy σ) (s : σ) (trace : List Access)
    (addresses : List Nat) (memsize swapsize : Nat) (physmem swapfile : Memory) (b : Bitmap)
    (hswap : swapsize < 2 ^ 32) (hb : bitmapCreate swapsize = .ok b) (hmin : 5 ≤ memsize)
    (hmem : memsize < 2 ^ 19) (hlen : trace.length ≤ 2 ^ 31) (hvaddr : ∀ a ∈ trace, a.vaddr < 2 ^ 36)
    (hslots : (pagesOf trace).card ≤ b.slots.card)
    (hlist : addresses.map pageNumber = trace.map fun a => pageOf a.vaddr)
    (hans : P.AnswersAlong (accessStep P) trace (boot memsize physmem swapfile b) s) :
    ∃ so mo so' mp sp, optInit memsize addresses = .ok so ∧
      replay optPolicy trace (boot memsize physmem swapfile b) so = .ok (mo, so') ∧
      replay P trace (boot memsize physmem swapfile b) s = .ok (mp, sp) ∧
      missesOf optPolicy trace (boot memsize physmem swapfile b) so ≤
        missesOf P trace (boot memsize physmem swapfile b) s ∧
      mo.missCount = toInt32 (missesOf optPolicy trace (boot memsize physmem swapfile b) so) ∧
      mp.missCount = toInt32 (missesOf P trace (boot memsize physmem swapfile b) s) ∧
      (trace.length < 2 ^ 31 → mo.missCount ≤ mp.missCount) := by
  have hn := (card_entriesOf trace).le.trans hslots
  have hT24 := (card_entriesOf trace).le.trans (card_pagesOf_le hvaddr)
  have htrace : ∀ a ∈ trace, ptrOf a.vaddr ∈ entriesOf trace ∧ a.vaddr < 2 ^ 36 :=
    fun a ha => ⟨ptrOf_mem_entriesOf ha, hvaddr a ha⟩
  have hR := Residency.boot hswap hb (entriesOf trace) memsize physmem swapfile
  obtain ⟨so, hinit, hI⟩ := optInit_ok ((length_addresses hlist).trans_le hlen) hmin (by omega)
  have hI := hI physmem swapfile b
  rw [hlist] at hI
  obtain ⟨mo, so', hopt, hfurthest⟩ :=
    servesFurthest_of_replay hn hT24 entriesOf_pages htrace hR hmem.le (by show 0 < memsize; omega)
      (residents_boot memsize physmem swapfile b) hI
  obtain ⟨mp, sp, hother, hserves⟩ :=
    serves_of_replay_boot P s physmem swapfile hswap hb hmem hvaddr hslots hans
  have hle := hfurthest.le (Nat.zero_le _) hserves
  refine ⟨so, mo, so', mp, sp, hinit, hopt, hother, hle, missCount_eq hmem hopt,
    missCount_eq hmem hother, fun hlt => ?_⟩
  rw [missCount_eq_of_lt hmem hlt hopt, missCount_eq_of_lt hmem hlt hother]
  exact_mod_cast hle

/-- Six pages in five frames, and the first page again: `rand` may have dropped it. -/
def returnTrace : List Access :=
  [⟨'L', 0x1000⟩, ⟨'L', 0x2000⟩, ⟨'L', 0x3000⟩, ⟨'S', 0x4000⟩, ⟨'L', 0x5000⟩, ⟨'L', 0x6000⟩,
    ⟨'L', 0x1000⟩]

theorem opt_misses_least_example :
    ∃ so mo so' mp sp,
      optInit 5 [0x1000, 0x2000, 0x3000, 0x4000, 0x5000, 0x6000, 0x1000] = .ok so ∧
      replay optPolicy returnTrace (boot 5 (fun _ => 0) (fun _ => 0) ⟨64, fun _ => 0#32⟩) so =
        .ok (mo, so') ∧
      replay randPolicy returnTrace (boot 5 (fun _ => 0) (fun _ => 0) ⟨64, fun _ => 0#32⟩)
        (fun _ => 0) = .ok (mp, sp) ∧
      mo.missCount ≤ mp.missCount := by
  have hb : bitmapCreate 64 = .ok ⟨64, fun _ => 0#32⟩ := rfl
  have hvaddr : ∀ a ∈ returnTrace, a.vaddr < 2 ^ 36 := by decide
  have hslots : (pagesOf returnTrace).card ≤ (Bitmap.slots ⟨64, fun _ => 0#32⟩).card := by
    rw [slots_of_bitmapCreate (by decide) hb]
    decide
  obtain ⟨so, mo, so', mp, sp, hinit, hopt, hother, -, -, -, hcount⟩ :=
    opt_misses_least randPolicy (fun _ => 0) returnTrace
      [0x1000, 0x2000, 0x3000, 0x4000, 0x5000, 0x6000, 0x1000] 5 64 _ _ _ (by decide) hb
      (by decide) (by decide) (by decide) hvaddr hslots (by decide)
      (randPolicy_answersReplay (fun _ => 0) (fun _ => 0) (by decide) hb (by decide) (by decide)
        hvaddr hslots _)
  exact ⟨so, mo, so', mp, sp, hinit, hopt, hother, hcount (by decide)⟩

/-- The page list of loads of one page. -/
theorem loadsOf_pages (n : Nat) : (List.replicate n 0x1000).map pageNumber =
    (loadsOf n).map fun a => pageOf a.vaddr := by
  rw [loadsOf, List.map_replicate, List.map_replicate]
  rfl

theorem optInit_loadsOf : optInit 5 (List.replicate (2 ^ 31 + 1) 0x1000) = .error .outOfBounds :=
  optInit_outOfBounds List.length_replicate (by decide)

/-- On `2 ^ 31 + 1` loads of one page `rand` misses once, and `opt_init` indexes the page list with
a negative time. -/
theorem opt_misses_least_fails : Admissible (loadsOf (2 ^ 31 + 1)) 5 ⟨64, fun _ => 0#32⟩ ∧
    (List.replicate (2 ^ 31 + 1) 0x1000).map pageNumber =
      (loadsOf (2 ^ 31 + 1)).map (fun a => pageOf a.vaddr) ∧
    (∃ m s, replay randPolicy (loadsOf (2 ^ 31 + 1))
      (boot 5 (fun _ => 0) (fun _ => 0) ⟨64, fun _ => 0#32⟩) (fun _ => 0) = .ok (m, s) ∧
      m.missCount = 1) ∧
    optInit 5 (List.replicate (2 ^ 31 + 1) 0x1000) = .error .outOfBounds := by
  have hadm := loadsOf_admissible (2 ^ 31 + 1) (show 0 < 5 by decide) (by decide)
  have hb : bitmapCreate 64 = .ok ⟨64, fun _ => 0#32⟩ := rfl
  obtain ⟨m, s, hrun, -⟩ := serves_of_replay_boot randPolicy (fun _ => 0) (fun _ => 0)
    (fun _ => 0) (by decide) hb (show 5 < 2 ^ 19 by decide) hadm.vaddr hadm.slots hadm.answers
  refine ⟨hadm, loadsOf_pages _, ⟨m, s, hrun, ?_⟩, optInit_loadsOf⟩
  rw [missCount_eq (by decide) hrun, missesOf_loadsOf (by decide) (by decide) hadm]
  decide

end Paging
end OsAssignments
