import OsAssignments.Paging.Opt

/-!
# What `opt` knows at an eviction

* `NextRef` — the next reference to a page in the page list.
* `FurthestVictim` — `opt_evict` sees the next reference to the page in every frame, and picks the
  latest.
* `PopsNow` — `opt_ref` is reached, and pops the number of the reference being made.
* `OptInv.replay` — the invariant of `opt` holds after every part of a trace.
* `opt_evicts_furthest` — at every eviction of a run, `opt_evict` picks so.
-/

namespace OsAssignments
namespace Paging

open MachineWord ByteMemory DemandPaging

/-! ## The next reference -/

/-- The next reference to `page` from number `c` on: its number, or -1 if there is none. -/
def NextRef (pages : List Nat) (c : Int) (page : Nat) (time : Int) : Prop :=
  (time = -1 ∧ ∀ j : Nat, c ≤ j → pages[j]? ≠ some page) ∨
    ∃ t : Nat, time = t ∧ IsLeast {j : Nat | c ≤ j ∧ pages[j]? = some page} t

/-- The first place of `page` in the rest of the list. -/
theorem isLeast_idxOf {pages : List Nat} {c page : Nat} (h : page ∈ pages.drop c) :
    IsLeast {j : Nat | (c : Int) ≤ j ∧ pages[j]? = some page} (c + (pages.drop c).idxOf page) := by
  constructor
  · refine ⟨by omega, ?_⟩
    rw [← List.getElem?_drop]
    exact List.getElem?_idxOf h
  · rintro j ⟨hle, hj⟩
    rw [Int.ofNat_le] at hle
    have hdrop : (pages.drop c)[j - c]? = some page := by
      rw [List.getElem?_drop, Nat.add_sub_cancel' hle]
      exact hj
    obtain ⟨hlt, hget⟩ := List.getElem?_eq_some_iff.mp hdrop
    have hmem : page ∈ (pages.drop c).take (j - c + 1) :=
      List.mem_take_iff_getElem.mpr ⟨j - c, by omega, hget⟩
    have hfirst := (List.mem_take_iff_idxOf_lt h).mp hmem
    omega

/-- What `peekNextRefTime` answers is the next reference. -/
theorem nextRef_idxOf (pages : List Nat) (c page : Nat) :
    NextRef pages c page
      (if page ∈ pages.drop c then ((c + (pages.drop c).idxOf page : Nat) : Int) else -1) := by
  by_cases h : page ∈ pages.drop c
  · rw [if_pos h]
    exact .inr ⟨_, rfl, isLeast_idxOf h⟩
  · rw [if_neg h]
    refine .inl ⟨rfl, fun j hle hj => h ?_⟩
    rw [Int.ofNat_le] at hle
    have hdrop : (pages.drop c)[j - c]? = some page := by
      rw [List.getElem?_drop, Nat.add_sub_cancel' hle]
      exact hj
    exact List.mem_of_getElem? hdrop

/-! ## The victim -/

/-- The access makes `allocate_frame` ask the policy for a victim. -/
def Evicts (a : Access) (m : Machine) : Prop :=
  ((missState a.vaddr m).pte (ptrOf a.vaddr)).valid = false ∧ firstFree (missState a.vaddr m) = none

/-- `opt_evict` sees the next reference `next i` to the page in every frame `i`, and picks `v`: a
frame whose page has none, or the latest. -/
structure FurthestVictim (pages : List Nat) (m : Machine) (s : OptState) (next : Nat → Int) (v : Nat) :
    Prop where
  peek : ∀ i, i < m.memsize → peekNextRefTime s.beladyTable (m.coremap i).page = .ok (next i)
  held : ∀ i, i < m.memsize → ∃ page, (m.coremap i).pte = some (ptrOfPage page) ∧
    (m.pte (ptrOfPage page)).valid = true ∧ (m.pte (ptrOfPage page)).frameNumber = i ∧
    NextRef pages s.curRef page (next i)
  evict : optEvict m s = .ok ((v : Int), m, s)
  lt : v < m.memsize
  furthest : next v = -1 ∨ ∀ i, i < m.memsize → next i ≠ -1 ∧ next i ≤ next v

/-- `opt_ref` is reached with the globals of `opt.c` as they were, and pops the number of the
reference being made. -/
def PopsNow (a : Access) (m : Machine) (s : OptState) : Prop :=
  ∃ m₁ m₂ s₂ page table, translate optPolicy a m s = .ok (m₁, s) ∧
    optRef (ptrOf a.vaddr) m₁ s = .ok (m₂, s₂) ∧ s.pageList.slotAt s.curRef = .ok (some page) ∧
    popNextRefTime s.beladyTable page = .ok (s.curRef, table)

section

variable {n : Nat} {T : Finset PtePtr} {pages rest : List Nat} {c : Nat} {a : Access} {m : Machine}
  {s : OptState}

theorem OptInv.furthestVictim (h : OptInv pages c rest m s) (hcur : s.curRef = c)
    (hR : Residency n T m) (hT : ∀ p ∈ T, ∃ page, p = ptrOfPage page) (hpos : 0 < m.memsize)
    (hfull : m.Full) : ∃ next v, FurthestVictim pages m s next v := by
  obtain ⟨v, hrun, hv, hbest⟩ := optEvict_ok h.table hpos
  have hrest := h.rest_eq
  subst hrest
  refine ⟨fun i => if (m.coremap i).page ∈ pages.drop c then
    ((c + (pages.drop c).idxOf (m.coremap i).page : Nat) : Int) else -1, v,
    fun i _ => peekNextRefTime_ok h.table _, fun i hi => ?_, hrun, hv, ?_⟩
  · obtain ⟨q, hq, hqv, hqf⟩ := hR.owners.coremap_pte hi (hfull i hi)
    obtain ⟨page, rfl⟩ := hT q (hR.used q (.inl hqv))
    have hpage : (m.coremap i).page = page :=
      (ptrOfPage_injective (h.page i _ hi (hfull i hi) hq)).symm
    refine ⟨page, hq, hqv, hqf, ?_⟩
    rw [hcur, hpage]
    exact nextRef_idxOf pages c page
  · by_cases hmem : (m.coremap v).page ∈ pages.drop c
    · -- the victim is used again, so every page is, and none later
      refine .inr fun i hi => ?_
      have hle := hbest i hi
      have hi' : (m.coremap i).page ∈ pages.drop c := by
        rw [← List.idxOf_lt_length_iff] at hmem ⊢
        omega
      rw [if_pos hmem, if_pos hi']
      omega
    · exact .inl (if_neg hmem)

/-- **At an eviction** the victim is the furthest. -/
theorem OptInv.evicts (h : OptInv pages c (pageOf a.vaddr :: rest) m s) (hR : Residency n T m)
    (hT : ∀ p ∈ T, ∃ page, p = ptrOfPage page) (hpos : 0 < m.memsize) (hev : Evicts a m) :
    ∃ next v, FurthestVictim pages (missState a.vaddr m) s next v := by
  have hview := sameView_missState a.vaddr m
  have hI : OptInv pages c (pageOf a.vaddr :: rest) (missState a.vaddr m) s :=
    h.of_coremap hview.memsize (missState_coremap a.vaddr m)
  exact hI.furthestVictim h.current.1 (hR.of_sameView hview) hT (hview.memsize.symm ▸ hpos)
    (full_of_firstFree hev.2)

/-! ## Runs -/

/-- The pages of valid entries. -/
theorem Residency.exists_residents (hR : Residency n T m) : ∃ S, Residents S m := by
  refine ⟨(T.preimage ptrOfPage ptrOfPage_injective.injOn).filter
    fun page => (m.pte (ptrOfPage page)).valid = true, fun page => ?_⟩
  rw [Finset.mem_filter, Finset.mem_preimage]
  exact and_iff_right_of_imp fun hv => hR.used _ (.inl hv)

theorem OptInv.popsNow (h : OptInv pages c (pageOf a.vaddr :: rest) m s) (hR : Residency n T m)
    (hn : T.card ≤ n) (hT24 : T.card ≤ 2 ^ 24) (hT : ∀ p ∈ T, ∃ page, p = ptrOfPage page)
    (hp : ptrOf a.vaddr ∈ T) (hvaddr : a.vaddr < 2 ^ 36) (hmem : m.memsize ≤ 2 ^ 19)
    (hpos : 0 < m.memsize) : PopsNow a m s := by
  obtain ⟨S, hS⟩ := hR.exists_residents
  have hans := h.answers hR hn hT24 hT hp hvaddr hmem hpos hS
  obtain ⟨m₁, s₁, hrun, ht, hR₁⟩ := hR.translate_ok hn hT24 hp hvaddr hmem hans.evict
  obtain ⟨rfl, -⟩ := (ht.demand hR hT hS).opt_frame
  obtain ⟨⟨m₂, s₂⟩, href⟩ := hans.ref m₁ s₁ hrun
  obtain ⟨table, hpop, -⟩ := popNextRefTime_ok h.table
  obtain ⟨hcur, hslot, -⟩ := h.current
  exact ⟨m₁, m₂, s₂, pageOf a.vaddr, table, hrun, href, hslot, hcur ▸ hpop⟩

/-- **The invariant of `opt` holds after every part of a trace.** -/
theorem OptInv.replay {past future : List Access} (hn : T.card ≤ n) (hT24 : T.card ≤ 2 ^ 24)
    (hT : ∀ p ∈ T, ∃ page, p = ptrOfPage page) (hR : Residency n T m) (hmem : m.memsize ≤ 2 ^ 19)
    (hpos : 0 < m.memsize) (htrace : ∀ a ∈ past, ptrOf a.vaddr ∈ T ∧ a.vaddr < 2 ^ 36)
    (h : OptInv pages c ((past ++ future).map fun a => pageOf a.vaddr) m s) :
    ∃ m' s', Paging.replay optPolicy past m s = .ok (m', s') ∧ Residency n T m' ∧
      m'.memsize = m.memsize ∧
      OptInv pages (c + past.length) (future.map fun a => pageOf a.vaddr) m' s' := by
  induction past generalizing c m s with
  | nil => exact ⟨m, s, rfl, hR, rfl, h⟩
  | cons a past ih =>
    obtain ⟨hp, hvaddr⟩ := htrace a (List.mem_cons_self ..)
    obtain ⟨S, hS⟩ := hR.exists_residents
    obtain ⟨m₁, m', s', -, hrun, -, hR', hsize, hI'⟩ :=
      h.step hR hn hT24 hT hp hvaddr hmem hpos hS
    obtain ⟨mf, sf, hfinal, hRf, hsizef, hIf⟩ := ih hR' (hsize ▸ hmem) (hsize ▸ hpos)
      (fun b hb => htrace b (List.mem_cons_of_mem a hb)) hI'
    refine ⟨mf, sf, ?_, hRf, hsizef.trans hsize, ?_⟩
    · rw [Paging.replay, runWith, hrun]
      exact hfinal
    · rw [List.length_cons, Nat.add_comm past.length 1, ← Nat.add_assoc]
      exact hIf

end

/-- **At every eviction of a run of at most `2 ^ 31` references, `opt_evict` knows the next reference
to the page in every frame and picks a frame that is not needed any more, or the one needed last;
and every `popNextRefTime` of `opt_ref` gives the number of the reference being made.** -/
theorem opt_evicts_furthest (past future : List Access) (a : Access) (addresses : List Nat)
    (memsize swapsize : Nat) (physmem swapfile : Memory) (b : Bitmap)
    (hswap : swapsize < 2 ^ 32) (hb : bitmapCreate swapsize = .ok b) (hmin : 5 ≤ memsize)
    (hmem : memsize < 2 ^ 19) (hlen : (past ++ a :: future).length ≤ 2 ^ 31)
    (hvaddr : ∀ x ∈ past ++ a :: future, x.vaddr < 2 ^ 36)
    (hslots : (pagesOf (past ++ a :: future)).card ≤ b.slots.card)
    (hlist : addresses.map pageNumber = (past ++ a :: future).map fun x => pageOf x.vaddr) :
    ∃ so m s, optInit memsize addresses = .ok so ∧
      replay optPolicy past (boot memsize physmem swapfile b) so = .ok (m, s) ∧
      s.pageList.Repr (addresses.map pageNumber) ∧ s.curRef = past.length ∧
      (Evicts a m → ∃ next v,
        FurthestVictim (addresses.map pageNumber) (missState a.vaddr m) s next v) ∧
      PopsNow a m s := by
  have hn := (card_entriesOf (past ++ a :: future)).le.trans hslots
  have hT24 := (card_entriesOf (past ++ a :: future)).le.trans (card_pagesOf_le hvaddr)
  have htrace : ∀ x ∈ past ++ a :: future,
      ptrOf x.vaddr ∈ entriesOf (past ++ a :: future) ∧ x.vaddr < 2 ^ 36 :=
    fun x hx => ⟨ptrOf_mem_entriesOf hx, hvaddr x hx⟩
  have hR := Residency.boot hswap hb (entriesOf (past ++ a :: future)) memsize physmem swapfile
  obtain ⟨so, hinit, hI⟩ := optInit_ok ((length_addresses hlist).trans_le hlen) hmin (by omega)
  have hI₀ : OptInv (addresses.map pageNumber) 0 ((past ++ a :: future).map fun x => pageOf x.vaddr)
      (boot memsize physmem swapfile b) so := hlist ▸ hI physmem swapfile b
  have hpos : 0 < (boot memsize physmem swapfile b).memsize := by
    change 0 < memsize
    omega
  obtain ⟨m, s, hrun, hRm, hsize, hIm⟩ := hI₀.replay hn hT24 entriesOf_pages hR hmem.le hpos
    fun x hx => htrace x (List.mem_append_left _ hx)
  obtain ⟨hp, hva⟩ := htrace a (by simp)
  rw [Nat.zero_add, List.map_cons] at hIm
  refine ⟨so, m, s, hinit, hrun, hIm.pageList, hIm.current.1, fun hev => ?_, ?_⟩
  · exact hIm.evicts hRm entriesOf_pages (hsize ▸ hpos) hev
  · exact hIm.popsNow hRm hn hT24 entriesOf_pages hp hva (hsize ▸ hmem.le) (hsize ▸ hpos)

theorem opt_evicts_furthest_example :
    ∃ so m s, optInit 5 [0x1000, 0x2000, 0x3000, 0x4000, 0x5000, 0x6000, 0x1000] = .ok so ∧
      replay optPolicy (returnTrace.take 5) (boot 5 (fun _ => 0) (fun _ => 0) ⟨64, fun _ => 0#32⟩)
        so = .ok (m, s) ∧
      s.pageList.Repr [1, 2, 3, 4, 5, 6, 1] ∧ s.curRef = 5 ∧
      (Evicts ⟨'L', 0x6000⟩ m → ∃ next v,
        FurthestVictim [1, 2, 3, 4, 5, 6, 1] (missState 0x6000 m) s next v) ∧
      PopsNow ⟨'L', 0x6000⟩ m s := by
  have hb : bitmapCreate 64 = .ok ⟨64, fun _ => 0#32⟩ := rfl
  have hvaddr : ∀ x ∈ returnTrace, x.vaddr < 2 ^ 36 := by decide
  have hslots : (pagesOf returnTrace).card ≤ (Bitmap.slots ⟨64, fun _ => 0#32⟩).card := by
    rw [slots_of_bitmapCreate (by decide) hb]
    decide
  exact opt_evicts_furthest (returnTrace.take 5) [⟨'L', 0x1000⟩] ⟨'L', 0x6000⟩
    [0x1000, 0x2000, 0x3000, 0x4000, 0x5000, 0x6000, 0x1000] 5 64 _ _ _ (by decide) hb (by decide)
    (by decide) (by decide) hvaddr hslots (by decide)

/-- On `2 ^ 31 + 1` loads of one page there is no run under `opt`: the first time is negative. -/
theorem opt_evicts_furthest_fails : ∃ addresses past a future,
    (∀ x ∈ past ++ a :: future, x.vaddr < 2 ^ 36) ∧
    (pagesOf (past ++ a :: future)).card ≤ (Bitmap.slots ⟨64, fun _ => 0#32⟩).card ∧
    addresses.map pageNumber = (past ++ a :: future).map (fun x => pageOf x.vaddr) ∧
    ∀ so, optInit 5 addresses ≠ .ok so := by
  have hadm := loadsOf_admissible (2 ^ 31 + 1) (show 0 < 5 by decide) (by decide)
  have hcons : loadsOf (2 ^ 31 + 1) = [] ++ ⟨'L', 0x1000⟩ :: loadsOf (2 ^ 31) := rfl
  refine ⟨List.replicate (2 ^ 31 + 1) 0x1000, [], ⟨'L', 0x1000⟩, loadsOf (2 ^ 31), hcons ▸ hadm.vaddr,
    hcons ▸ hadm.slots, hcons ▸ loadsOf_pages _, fun so hinit => ?_⟩
  rw [optInit_loadsOf] at hinit
  cases hinit

end Paging
end OsAssignments
