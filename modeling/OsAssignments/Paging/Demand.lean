import OsAssignments.Lib.DemandPaging
import OsAssignments.Paging.History

/-!
# The simulator is a demand-paging memory

* `Residents` — the set of pages whose entries are valid.  By the residency
  invariant it has as many elements as there are frames in use.
* `Translated.demand` — one access is a hit, a fill or an eviction on that set.
* `serves_of_replay` — a run of the simulator, under any policy, serves its trace
  with the misses it has.
* `loadsOf` — loads of one page, as many as one likes: one of them misses.
-/

namespace OsAssignments
namespace Paging

open MachineWord ByteMemory DemandPaging

/-- `S` is the set of resident pages. -/
def Residents (S : Finset Nat) (m : Machine) : Prop :=
  ∀ page, page ∈ S ↔ (m.pte (ptrOfPage page)).valid = true

theorem Residents.of_sameView {S : Finset Nat} {m m' : Machine} (h : Residents S m)
    (hs : m.SameView m') : Residents S m' := by
  intro page
  rw [h page, (hs.pte _).valid]

/-! ## Counting resident pages -/

section

variable {n : Nat} {T : Finset PtePtr} {S : Finset Nat} {m : Machine}

/-- The frame of a resident page. -/
def frameOf (m : Machine) (page : Nat) : Nat := (m.pte (ptrOfPage page)).frameNumber

theorem Residency.frameOf_injOn (hR : Residency n T m) (hS : Residents S m) :
    Set.InjOn (frameOf m) S := by
  intro a ha b hb hab
  exact ptrOfPage_injective (hR.owners.eq_of_frameNumber ((hS a).mp ha) ((hS b).mp hb) hab)

/-- A free frame leaves room. -/
theorem Residency.card_residents_lt (hR : Residency n T m) (hS : Residents S m) {f : Nat}
    (hf : f < m.memsize) (hfree : (m.coremap f).inUse = false) : S.card < m.memsize := by
  have hsub : S.image (frameOf m) ⊆ (Finset.range m.memsize).erase f := by
    intro g hg
    obtain ⟨page, hpage, rfl⟩ := Finset.mem_image.mp hg
    obtain ⟨hlt, hu, -⟩ := hR.owner _ ((hS page).mp hpage)
    refine Finset.mem_erase.mpr ⟨?_, Finset.mem_range.mpr hlt⟩
    intro hEq
    have hEq' : (m.pte (ptrOfPage page)).frameNumber = f := hEq
    rw [hEq', hfree] at hu
    simp at hu
  have hcard : ((Finset.range m.memsize).erase f).card < m.memsize := by
    have := Finset.card_erase_lt_of_mem (Finset.mem_range.mpr hf)
    rwa [Finset.card_range] at this
  calc S.card = (S.image (frameOf m)).card :=
        (Finset.card_image_of_injOn (hR.frameOf_injOn hS)).symm
    _ ≤ ((Finset.range m.memsize).erase f).card := Finset.card_le_card hsub
    _ < m.memsize := hcard

/-- Full memory holds as many pages as it has frames. -/
theorem Residency.le_card_residents (hR : Residency n T m) (hS : Residents S m)
    (hT : ∀ p ∈ T, ∃ page, p = ptrOfPage page) (hfull : m.Full) : m.memsize ≤ S.card := by
  have hsub : Finset.range m.memsize ⊆ S.image (frameOf m) := by
    intro f hf
    rw [Finset.mem_range] at hf
    obtain ⟨p, hp, hpf⟩ := hR.held f hf (hfull f hf)
    obtain ⟨page, rfl⟩ := hT p (hR.used p (.inl hp))
    exact Finset.mem_image.mpr ⟨page, (hS page).mpr hp, hpf⟩
  calc m.memsize = (Finset.range m.memsize).card := (Finset.card_range _).symm
    _ ≤ (S.image (frameOf m)).card := Finset.card_le_card hsub
    _ ≤ S.card := Finset.card_image_le

end

/-! ## One access -/

section

variable {σ : Type} {P : Policy σ} {n : Nat} {T : Finset PtePtr} {S : Finset Nat} {a : Access}
  {m m' : Machine} {s s' : σ}

/-- What an access does to the resident set. -/
inductive DemandStep (P : Policy σ) (a : Access) (m : Machine) (s : σ) (S : Finset Nat)
    (m' : Machine) (s' : σ) : Prop
  | hit : pageOf a.vaddr ∈ S → Residents S m' → s' = s → m'.coremap = m.coremap →
      DemandStep P a m s S m' s'
  | fill {f : Nat} : pageOf a.vaddr ∉ S → S.card < m.memsize →
      Residents (insert (pageOf a.vaddr) S) m' → s' = s →
      (m'.pte (ptrOf a.vaddr)).frameNumber = f →
      (∀ g, g ≠ f → m'.coremap g = m.coremap g) → DemandStep P a m s S m' s'
  | evict {f v : Nat} {mp : Machine} : pageOf a.vaddr ∉ S → m.Full → m.memsize ≤ S.card → v ∈ S →
      Residents (insert (pageOf a.vaddr) (S.erase v)) m' →
      P.evict (missState a.vaddr m) s = .ok ((f : Int), mp, s') → f < m.memsize →
      (m.coremap f).pte = some (ptrOfPage v) →
      (m'.pte (ptrOf a.vaddr)).frameNumber = f →
      (∀ g, g ≠ f → m'.coremap g = mp.coremap g) → DemandStep P a m s S m' s'

theorem Residents.insert_loaded {f : Nat} (hS : Residents S m) (hl : Loaded a f m m') :
    Residents (insert (pageOf a.vaddr) S) m' := by
  intro page
  rw [Finset.mem_insert]
  by_cases hp : page = pageOf a.vaddr
  · subst hp
    rw [← ptrOf_eq, hl.valid]
    simp
  · have hne : ptrOfPage page ≠ ptrOf a.vaddr := by
      rw [ptrOf_eq]
      exact fun hEq => hp (ptrOfPage_injective hEq)
    rw [hl.others _ hne, hS page]
    simp [hp]

theorem Residents.erase_evicted {f v : Nat} (hS : Residents S m)
    (he : Evicted f (ptrOfPage v) m m') : Residents (S.erase v) (releaseFrame f m') := by
  intro page
  rw [Finset.mem_erase]
  show _ ↔ (m'.pte (ptrOfPage page)).valid = true
  by_cases hp : page = v
  · subst hp
    rw [he.valid]
    simp
  · have hne : ptrOfPage page ≠ ptrOfPage v := fun hEq => hp (ptrOfPage_injective hEq)
    rw [he.others _ hne, hS page]
    simp [hp]

theorem missState_coremap (vaddr : Nat) (m : Machine) : (missState vaddr m).coremap = m.coremap := by
  simp only [missState]
  rw [openDirectory_eq]

/-- If `evict_fcn` only reads, an access leaves the state of the policy and all frames but that of
its page, up to the call of `ref_fcn`. -/
theorem DemandStep.frame (h : DemandStep P a m s S m' s')
    (hevict : ∀ {v : Int} {mp : Machine} {sp : σ},
      P.evict (missState a.vaddr m) s = .ok (v, mp, sp) → mp = missState a.vaddr m ∧ sp = s) :
    s' = s ∧ ∀ g, g ≠ (m'.pte (ptrOf a.vaddr)).frameNumber → m'.coremap g = m.coremap g := by
  cases h with
  | hit _ _ hs hc => exact ⟨hs, fun g _ => by rw [hc]⟩
  | fill _ _ _ hs hfn hothers => exact ⟨hs, fun g hg => hothers g (hfn ▸ hg)⟩
  | evict _ _ _ _ _ hrun _ _ hfn hothers =>
    obtain ⟨rfl, hs⟩ := hevict hrun
    exact ⟨hs, fun g hg => by rw [hothers g (hfn ▸ hg), missState_coremap]⟩

/-- **One access is one step of demand paging.** -/
theorem Translated.demand (ht : Translated P a m s m' s') (hR : Residency n T m)
    (hT : ∀ p ∈ T, ∃ page, p = ptrOfPage page) (hS : Residents S m) :
    DemandStep P a m s S m' s' := by
  have hmiss := sameView_missState a.vaddr m
  have hself : ptrOfPage (pageOf a.vaddr) = ptrOf a.vaddr := (ptrOf_eq a.vaddr).symm
  have hclaim : ∀ {f : Nat} {m₁ : Machine}, Loaded a f m₁ m' →
      ∀ g, g ≠ f → m'.coremap g = m₁.coremap g := by
    intro f m₁ hl g hg
    rw [hl.coremap]
    simp only [claimFrame, Function.update_of_ne hg]
  cases ht with
  | hit hv hmark hs =>
    have hhit := sameView_hitState a.vaddr m
    refine .hit ((hS _).mpr (hself ▸ hv)) ?_ hs ?_
    · intro page
      by_cases hp : page = pageOf a.vaddr
      · subst hp
        rw [hS, hself, hmark.valid, hv]
      · have hne : ptrOfPage page ≠ ptrOf a.vaddr := by
          rw [ptrOf_eq]
          exact fun hEq => hp (ptrOfPage_injective hEq)
        rw [hmark.others _ hne, (hhit.pte _).valid, hS page]
    · rw [hmark.coremap]
      simp only [hitState]
      rw [openDirectory_eq]
  | @fill f hv hf hfree hl hs =>
    have hnot : pageOf a.vaddr ∉ S := by
      rw [hS, hself, hv]
      decide
    refine .fill hnot (hR.card_residents_lt hS hf hfree) ((hS.of_sameView hmiss).insert_loaded hl)
      hs hl.frameNumber (fun g hg => ?_)
    rw [hclaim hl g hg, missState_coremap]
  | @evict f q mp me hv hfull hf hevict hq hqv hqf hevicted hl =>
    obtain ⟨v, rfl⟩ := hT q (hR.used q (.inl hqv))
    have hnot : pageOf a.vaddr ∉ S := by
      rw [hS, hself, hv]
      decide
    have hpolicy := P.evict_same hevict
    have hSp : Residents S mp := (hS.of_sameView hmiss).of_sameView hpolicy.sameView
    have hfull' : m.Full := by
      intro g hg
      rw [← hmiss.inUse]
      exact hfull g (hmiss.memsize.symm ▸ hg)
    refine .evict hnot hfull' (hR.le_card_residents hS hT hfull') ((hS v).mpr hqv)
      ((hSp.erase_evicted hevicted).insert_loaded hl) hevict hf hq hl.frameNumber
      (fun g hg => ?_)
    rw [hclaim hl g hg]
    show Function.update me.coremap f _ g = _
    rw [Function.update_of_ne hg, hevicted.coremap]

/-! ## Whole runs -/

/-- One `access_mem` call, with what it does to the resident set up to the call of
`ref_fcn`. -/
theorem Residency.accessStep_demand (hR : Residency n T m) (hn : T.card ≤ n)
    (hT24 : T.card ≤ 2 ^ 24) (hT : ∀ p ∈ T, ∃ page, p = ptrOfPage page)
    (hp : ptrOf a.vaddr ∈ T) (hvaddr : a.vaddr < 2 ^ 36) (hmem : m.memsize ≤ 2 ^ 19)
    (hans : P.Answers a m s) (hS : Residents S m) :
    ∃ m₁ s₁ m₂ s₂ m', DemandStep P a m s S m₁ s₁ ∧ Residency n T m₁ ∧
      (m₁.pte (ptrOf a.vaddr)).valid = true ∧ P.ref (ptrOf a.vaddr) m₁ s₁ = .ok (m₂, s₂) ∧
      accessStep P a m s = .ok (m', s₂) ∧ m₂.SameView m' ∧ m'.coremap = m₂.coremap ∧
      Residency n T m' ∧ m'.memsize = m.memsize := by
  obtain ⟨m₁, s₁, m₂, s₂, -, ht, hR₁, href, hfind, hR₂, hsize⟩ :=
    hR.findPhyspage_ok hn hT24 hp hvaddr hmem hans
  have hcounted : m₂.SameView { m₂ with refCount := incr m₂.refCount } :=
    ⟨rfl, fun _ => .refl _, fun _ => rfl, fun _ => rfl, rfl⟩
  have hview := sameView_bumpVersion a ((m₂.pte (ptrOf a.vaddr)).frameNumber * simpagesize)
    { m₂ with refCount := incr m₂.refCount }
  have hkeep : ∀ memptr (k : Machine), (bumpVersion a memptr k).coremap = k.coremap := by
    intro memptr k
    unfold bumpVersion
    split <;> rfl
  have hrun : accessStep P a m s =
      .ok (bumpVersion a ((m₂.pte (ptrOf a.vaddr)).frameNumber * simpagesize)
        { m₂ with refCount := incr m₂.refCount }, s₂) := by
    simp only [accessStep, accessMem, hfind, bind, Except.bind, pure, Except.pure]
  exact ⟨m₁, s₁, m₂, s₂, _, ht.demand hR hT hS, hR₁, ht.valid, href, hrun, hcounted.trans hview,
    hkeep _ _, hR₂.of_sameView hview, hview.memsize.trans hsize⟩

/-- A page that is resident is a hit, any other one a miss. -/
theorem Residents.eventOf_missed (hS : Residents S m) :
    (eventOf P a m s).missed = true ↔ pageOf a.vaddr ∉ S := by
  rw [hS, ← ptrOf_eq]
  cases hv : (m.pte (ptrOf a.vaddr)).valid with
  | true =>
    rw [(eventOf_hit hv).1]
    decide
  | false =>
    rw [eventOf_miss hv]
    decide

/-- The misses of a run, from an access on whose page is resident or not. -/
theorem Residents.missesOf_cons (hS : Residents S m) (trace : List Access)
    (hstep : accessStep P a m s = .ok (m', s')) :
    missesOf P (a :: trace) m s =
      missesOf P trace m' s' + if pageOf a.vaddr ∈ S then 0 else 1 := by
  rw [Paging.missesOf_cons trace hstep]
  simp only [hS.eventOf_missed, ite_not]

/-- **A run serves its trace.**  Under every policy that answers, the misses are
those of a demand-paging memory that started with the same pages. -/
theorem serves_of_replay {trace : List Access} (hn : T.card ≤ n) (hT24 : T.card ≤ 2 ^ 24)
    (hT : ∀ p ∈ T, ∃ page, p = ptrOfPage page) :
    (∀ a ∈ trace, ptrOf a.vaddr ∈ T ∧ a.vaddr < 2 ^ 36) →
    ∀ {m : Machine} {s : σ} {S : Finset Nat}, Residency n T m → m.memsize ≤ 2 ^ 19 → Residents S m →
      P.AnswersAlong (accessStep P) trace m s →
      ∃ m' s', replay P trace m s = .ok (m', s') ∧
        Serves m.memsize S (trace.map fun a => pageOf a.vaddr) (missesOf P trace m s) := by
  induction trace with
  | nil => intro _ m s S _ _ _ _; exact ⟨m, s, rfl, .nil S⟩
  | cons a trace ih =>
    intro htrace m s S hR hmem hS hans
    obtain ⟨hp, hvaddr⟩ := htrace a (List.mem_cons_self ..)
    obtain ⟨m₁, s₁, m₂, s₂, m', hstep, hR₁, -, href, hrun, hview, -, hR', hsize⟩ :=
      hR.accessStep_demand hn hT24 hT hp hvaddr hmem hans.1 hS
    have hmisses := hS.missesOf_cons trace hrun
    have hkeep : ∀ {S' : Finset Nat}, Residents S' m₁ → Residents S' m' := fun h =>
      (h.of_sameView (P.ref_same href).sameView).of_sameView hview
    have hrest : ∀ {S' : Finset Nat}, Residents S' m₁ → ∃ mf sf,
        replay P (a :: trace) m s = .ok (mf, sf) ∧
          Serves m.memsize S' (trace.map fun a => pageOf a.vaddr) (missesOf P trace m' s₂) := by
      intro S' hS'
      obtain ⟨mf, sf, hfinal, hserves⟩ :=
        ih (fun b hb => htrace b (List.mem_cons_of_mem a hb)) hR' (hsize ▸ hmem) (hkeep hS')
          (hans.2 m' s₂ hrun)
      refine ⟨mf, sf, ?_, hsize ▸ hserves⟩
      simp only [replay, runWith, hrun, bind, Except.bind]
      exact hfinal
    cases hstep with
    | hit hmem hS' _ _ =>
      obtain ⟨mf, sf, hfinal, hserves⟩ := hrest hS'
      rw [if_pos hmem] at hmisses
      exact ⟨mf, sf, hfinal, hmisses ▸ .hit hmem hserves⟩
    | fill hnot hlt hS' _ _ _ =>
      obtain ⟨mf, sf, hfinal, hserves⟩ := hrest hS'
      rw [if_neg hnot] at hmisses
      exact ⟨mf, sf, hfinal, hmisses ▸ .fill hnot hlt hserves⟩
    | evict hnot _ hge hv hS' _ _ _ _ _ =>
      obtain ⟨mf, sf, hfinal, hserves⟩ := hrest hS'
      rw [if_neg hnot] at hmisses
      exact ⟨mf, sf, hfinal, hmisses ▸ .evict hnot hge hv hserves⟩

/-! ## From the start -/

theorem residents_boot (memsize : Nat) (physmem swapfile : Memory) (b : Bitmap) :
    Residents ∅ (boot memsize physmem swapfile b) := by
  intro page
  have hfresh : ((boot memsize physmem swapfile b).pte (ptrOfPage page)).valid = false :=
    Pte.fresh_valid
  rw [hfresh]
  simp

/-- The entries of a trace are the entries of its pages. -/
theorem entriesOf_pages {trace : List Access} : ∀ p ∈ entriesOf trace, ∃ page, p = ptrOfPage page := by
  intro p hp
  obtain ⟨page, -, hEq⟩ := Finset.mem_image.mp hp
  exact ⟨page, hEq.symm⟩

/-- **A run from an empty memory**, with room on the swap file. -/
theorem serves_of_replay_boot (P : Policy σ) (s : σ) {trace : List Access} {memsize swapsize : Nat}
    (physmem swapfile : Memory) {b : Bitmap} (hswap : swapsize < 2 ^ 32)
    (hb : bitmapCreate swapsize = .ok b) (hmem : memsize < 2 ^ 19)
    (hvaddr : ∀ a ∈ trace, a.vaddr < 2 ^ 36) (hslots : (pagesOf trace).card ≤ b.slots.card)
    (hans : P.AnswersAlong (accessStep P) trace (boot memsize physmem swapfile b) s) :
    ∃ m' s', replay P trace (boot memsize physmem swapfile b) s = .ok (m', s') ∧
      Serves memsize ∅ (trace.map fun a => pageOf a.vaddr)
        (missesOf P trace (boot memsize physmem swapfile b) s) :=
  serves_of_replay ((card_entriesOf trace).le.trans hslots)
    ((card_entriesOf trace).le.trans (card_pagesOf_le hvaddr)) entriesOf_pages
    (fun a ha => ⟨ptrOf_mem_entriesOf ha, hvaddr a ha⟩)
    (Residency.boot hswap hb (entriesOf trace) memsize physmem swapfile) hmem.le
    (residents_boot memsize physmem swapfile b) hans

end

/-! ## Long traces -/

/-- `n` loads of one page. -/
def loadsOf (n : Nat) : List Access := List.replicate n ⟨'L', 0x1000⟩

/-- What the results about runs ask of a trace, under `rand`. -/
structure Admissible (trace : List Access) (memsize : Nat) (b : Bitmap) : Prop where
  vaddr : ∀ a ∈ trace, a.vaddr < 2 ^ 36
  slots : (pagesOf trace).card ≤ b.slots.card
  answers : randPolicy.AnswersAlong (accessStep randPolicy) trace
    (boot memsize (fun _ => 0) (fun _ => 0) b) fun _ => 0

theorem loadsOf_admissible (n : Nat) {memsize : Nat} (hpos : 0 < memsize) (hmem : memsize < 2 ^ 19) :
    Admissible (loadsOf n) memsize ⟨64, fun _ => 0#32⟩ := by
  have hb : bitmapCreate 64 = .ok ⟨64, fun _ => 0#32⟩ := rfl
  have hvaddr : ∀ a ∈ loadsOf n, a.vaddr < 2 ^ 36 := fun a ha => by
    rw [List.eq_of_mem_replicate ha]
    decide
  have hslots : (pagesOf (loadsOf n)).card ≤ (Bitmap.slots ⟨64, fun _ => 0#32⟩).card := by
    have hsub : pagesOf (loadsOf n) ⊆ {1} := by
      intro page hpage
      obtain ⟨a, ha, rfl⟩ := List.mem_map.mp (List.mem_toFinset.mp hpage)
      rw [List.eq_of_mem_replicate ha]
      decide
    rw [slots_of_bitmapCreate (by decide) hb]
    exact (Finset.card_le_card hsub).trans (by decide)
  exact ⟨hvaddr, hslots, randPolicy_answersReplay _ _ (by decide) hb hpos hmem hvaddr hslots _⟩

/-- One of the loads misses. -/
theorem missesOf_loadsOf {n memsize : Nat} (hpos : 0 < n) (hmem : memsize < 2 ^ 19)
    (h : Admissible (loadsOf n) memsize ⟨64, fun _ => 0#32⟩) :
    missesOf randPolicy (loadsOf n)
      (boot memsize (fun _ => 0) (fun _ => 0) ⟨64, fun _ => 0#32⟩) (fun _ => 0) = 1 := by
  obtain ⟨n, rfl⟩ := Nat.exists_eq_succ_of_ne_zero hpos.ne'
  have hb : bitmapCreate 64 = .ok ⟨64, fun _ => 0#32⟩ := rfl
  obtain ⟨m, s, -, hserves⟩ := serves_of_replay_boot randPolicy (fun _ => 0) (fun _ => 0)
    (fun _ => 0) (by decide) hb hmem h.vaddr h.slots h.answers
  rw [loadsOf, List.map_replicate] at hserves
  exact hserves.replicate (Finset.notMem_empty _)

end Paging
end OsAssignments
