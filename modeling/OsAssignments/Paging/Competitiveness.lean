import OsAssignments.Lib.ConservativePagers
import OsAssignments.Paging.ClockRun
import OsAssignments.Paging.Counters
import OsAssignments.Paging.FifoRun
import OsAssignments.Paging.Opt

/-!
# The replacement algorithms against the best one

* `serves_of_run` — a run that returns is a schedule of the entries it looks up, under any policy and
  with any swap file.
* `Follows` — a policy whose state stands for the state of a paging algorithm.
* `fifo_follows`, `clock_follows` — the queues of `fifo.c` and `clock.c`, as queues of entries.
* `online_misses_competitive` — `lru`, `fifo` and `clock` against any policy in at most as many
  frames.
* `opt_misses_least_of_le` — `opt` against any policy in at most as many frames.
-/

namespace OsAssignments
namespace Paging

open ByteMemory DemandPaging Competitive SecondChance

/-! ## Any run is a schedule -/

section

variable {σ : Type} {P : Policy σ} {a : Access} {m m' : Machine} {s s' : σ} {S : Finset PtePtr}

theorem Owners.card_eq_inUseCount (h : Owners m) (hS : ∀ p, p ∈ S ↔ (m.pte p).valid = true) :
    S.card = m.inUseCount := by
  have himage : S.image (fun p => (m.pte p).frameNumber)
      = (Finset.range m.memsize).filter fun f => (m.coremap f).inUse = true := by
    ext f
    rw [Finset.mem_image, Finset.mem_filter, Finset.mem_range]
    constructor
    · rintro ⟨p, hp, rfl⟩
      obtain ⟨hf, hu, -⟩ := h.owner p ((hS p).mp hp)
      exact ⟨hf, hu⟩
    · rintro ⟨hf, hu⟩
      obtain ⟨p, hp, hpf⟩ := h.held f hf hu
      exact ⟨p, (hS p).mpr hp, hpf⟩
  rw [Machine.inUseCount, ← himage, Finset.card_image_of_injOn]
  intro p hp q hq hpq
  exact h.eq_of_frameNumber ((hS p).mp hp) ((hS q).mp hq) hpq

theorem inUseCount_eq_of_full (hfull : m.Full) : m.inUseCount = m.memsize := by
  rw [Machine.inUseCount, Finset.filter_true_of_mem fun f hf => hfull f (Finset.mem_range.mp hf),
    Finset.card_range]

theorem inUseCount_lt_of_free {f : Nat} (hf : f < m.memsize) (hu : (m.coremap f).inUse = false) :
    m.inUseCount < m.memsize := by
  rw [← Finset.card_range m.memsize]
  refine Finset.card_lt_card (Finset.filter_ssubset.mpr ⟨f, Finset.mem_range.mpr hf, ?_⟩)
  rw [hu]
  exact Bool.false_ne_true

/-- One access on the set of valid entries. -/
theorem FrameStep.demand (hstep : FrameStep P a m s m' s') (hO : Owners m)
    (hS : ∀ p, p ∈ S ↔ (m.pte p).valid = true) :
    ∃ S' : Finset PtePtr, (∀ p, p ∈ S' ↔ (m'.pte p).valid = true) ∧
      ((ptrOf a.vaddr ∈ S ∧ S' = S) ∨
        (ptrOf a.vaddr ∉ S ∧ S.card < m.memsize ∧ S' = insert (ptrOf a.vaddr) S) ∨
        (ptrOf a.vaddr ∉ S ∧ m.memsize ≤ S.card ∧
          ∃ v ∈ S, S' = insert (ptrOf a.vaddr) (S.erase v))) := by
  have hview := sameView_missState a.vaddr m
  have hcard := hO.card_eq_inUseCount hS
  cases hstep with
  | hit hv htouched _ =>
    refine ⟨S, fun p => ?_, .inl ⟨(hS _).mpr hv, rfl⟩⟩
    by_cases hp : p = ptrOf a.vaddr
    · rw [hS, hp, hv, htouched.valid]
    · rw [hS, htouched.others p hp, hitState_pte]
  | fill hv hfree hplaced _ =>
    obtain ⟨hf, hu⟩ := firstFree_some hfree
    have hnot : ptrOf a.vaddr ∉ S := by rw [hS, hv]; exact Bool.false_ne_true
    refine ⟨insert (ptrOf a.vaddr) S, fun p => ?_,
      .inr (.inl ⟨hnot, hcard ▸ inUseCount_lt_of_free hf hu, rfl⟩)⟩
    rw [Finset.mem_insert, hS]
    by_cases hp : p = ptrOf a.vaddr
    · simp [hp, hplaced.valid]
    · simp [hp, hplaced.others p hp, missState_pte]
  | @evict f q mp me hv hfree hevict hf hq hvacated hplaced =>
    have hfull := full_of_firstFree hfree
    have hviewp := hview.trans (P.evict_same hevict).sameView
    obtain ⟨q', hq', hvq, -⟩ := hO.coremap_pte hf (hfull f hf)
    obtain rfl := Option.some.inj (hq.symm.trans hq')
    have hnot : ptrOf a.vaddr ∉ S := by rw [hS, hv]; exact Bool.false_ne_true
    refine ⟨insert (ptrOf a.vaddr) (S.erase q), fun p => ?_,
      .inr (.inr ⟨hnot, (hcard.trans (inUseCount_eq_of_full hfull)).ge, q, (hS q).mpr hvq, rfl⟩)⟩
    rw [Finset.mem_insert, Finset.mem_erase, hS]
    by_cases hp : p = ptrOf a.vaddr
    · simp [hp, hplaced.valid]
    · rw [hplaced.others p hp]
      by_cases hpq : p = q
      · subst hpq
        simp [hp, hvacated.valid]
      · simp [hp, hpq, hvacated.others p hpq, (hviewp.pte p).valid]

/-- What an access does to the misses. -/
theorem missesOf_cons_valid (trace : List Access) (hrun : accessStep P a m s = .ok (m', s')) :
    missesOf P (a :: trace) m s =
      missesOf P trace m' s' + if (m.pte (ptrOf a.vaddr)).valid = true then 0 else 1 := by
  rw [missesOf_cons trace hrun, eventOf, missState_pte]
  cases (m.pte (ptrOf a.vaddr)).valid <;> rfl

theorem replay_cons_ok {trace : List Access} {r : Machine × σ}
    (hrun : replay P (a :: trace) m s = .ok r) :
    ∃ m₁ s₁, accessStep P a m s = .ok (m₁, s₁) ∧ replay P trace m₁ s₁ = .ok r := by
  rw [replay, runWith] at hrun
  cases hstep : accessStep P a m s with
  | error e =>
    rw [hstep] at hrun
    cases hrun
  | ok r₁ =>
    rw [hstep] at hrun
    exact ⟨r₁.1, r₁.2, rfl, hrun⟩

/-- **A run that returns is a schedule** of the entries it looks up, whatever the policy and however
small the swap file. -/
theorem serves_of_run (trace : List Access) :
    ∀ {m : Machine} {s : σ} {S : Finset PtePtr}, Owners m → m.memsize ≤ 2 ^ 19 →
      (∀ p, p ∈ S ↔ (m.pte p).valid = true) → replay P trace m s = .ok (m', s') →
      Serves m.memsize S (trace.map fun a => ptrOf a.vaddr) (missesOf P trace m s) := by
  induction trace with
  | nil =>
    intro m s S _ _ _ hrun
    exact .nil S
  | cons a trace ih =>
    intro m s S hO hmem hS hrun
    obtain ⟨m₁, s₁, hfirst, hrest⟩ := replay_cons_ok hrun
    obtain ⟨mt, st, mr, htr, href, hview, -⟩ := accessStep_inv hfirst
    have hstep : FrameStep P a m s mt st := (translate_frameStep hO hmem).of_ok _ htr
    have hview' := (P.ref_same href).sameView.trans hview
    obtain ⟨S', hS', hcases⟩ := hstep.demand hO hS
    have hsize : m₁.memsize = m.memsize := hview'.memsize.trans hstep.memsize
    have hserves := ih ((hstep.owners hO).of_sameView hview') (hsize ▸ hmem)
      (fun p => (hS' p).trans (by rw [(hview'.pte p).valid])) hrest
    have hmisses := missesOf_cons_valid trace hfirst
    simp only [← hS] at hmisses
    rw [hsize] at hserves
    rcases hcases with ⟨hin, rfl⟩ | ⟨hnot, hroom, rfl⟩ | ⟨hnot, hfull, v, hv, rfl⟩
    · rw [hmisses, if_pos hin]
      exact .hit hin hserves
    · rw [hmisses, if_neg hnot]
      exact .fill hnot hroom hserves
    · rw [hmisses, if_neg hnot]
      exact .evict hnot hfull hv hserves

/-- From an empty memory, page by page. -/
theorem serves_of_boot {trace : List Access} {memsize : Nat} {physmem swapfile : Memory} {b : Bitmap}
    (hmem : memsize < 2 ^ 19)
    (hrun : replay P trace (boot memsize physmem swapfile b) s = .ok (m', s')) :
    Serves memsize ∅ (trace.map fun a => ptrOf a.vaddr)
        (missesOf P trace (boot memsize physmem swapfile b) s) ∧
      Serves memsize ∅ (trace.map fun a => pageOf a.vaddr)
        (missesOf P trace (boot memsize physmem swapfile b) s) := by
  have hempty : ∀ p, p ∈ (∅ : Finset PtePtr) ↔
      ((boot memsize physmem swapfile b).pte p).valid = true := fun p =>
    ⟨fun hp => absurd hp (Finset.notMem_empty p), fun hv => absurd (show Pte.fresh.valid = true from hv)
      (by decide)⟩
  have hserves := serves_of_run trace (Owners.boot memsize physmem swapfile b) hmem.le hempty hrun
  have hpages : (trace.map fun a => ptrOf a.vaddr)
      = (trace.map fun a => pageOf a.vaddr).map (⟨ptrOfPage, ptrOfPage_injective⟩ : Nat ↪ PtePtr) := by
    rw [List.map_map]
    exact List.map_congr_left fun a _ => ptrOf_eq a.vaddr
  exact ⟨hserves, Serves.of_map _ _ (hpages ▸ (Finset.map_empty _).symm ▸ hserves)⟩

end

/-! ## Policies that stand for a paging algorithm -/

/-- In states that `R` relates, the policy `P` does what the algorithm `A` does with the entries that
are looked up. -/
structure Follows {σ Q : Type} (P : Policy σ) (A : Pager PtePtr Q) (R : Machine → σ → Q → Prop) :
    Prop where
  owners : ∀ {m s q}, R m s q → Owners m
  resident : ∀ {m s q}, R m s q → ∀ p, A.resident q p = (m.pte p).valid
  step : ∀ {a m s q m' s'}, R m s q → accessStep P a m s = .ok (m', s') →
    R m' s' (A.next q (ptrOf a.vaddr))

theorem Follows.missesOf {σ Q : Type} {P : Policy σ} {A : Pager PtePtr Q}
    {R : Machine → σ → Q → Prop} (hP : Follows P A R) (trace : List Access) {m' : Machine} {s' : σ} :
    ∀ {m : Machine} {s : σ} {q : Q}, R m s q → replay P trace m s = .ok (m', s') →
      Paging.missesOf P trace m s = A.faults q (trace.map fun a => ptrOf a.vaddr) := by
  induction trace with
  | nil => intro m s q _ _; rfl
  | cons a trace ih =>
    intro m s q hq hrun
    obtain ⟨m₁, s₁, hfirst, hrest⟩ := replay_cons_ok hrun
    rw [missesOf_cons_valid trace hfirst, ih (hP.step hq hfirst) hrest, List.map_cons,
      Pager.faults, hP.resident hq, Nat.add_comm]

/-! ### The queue of `clock.c` -/

/-- The queue that the coremap and the clock arm stand for. -/
def ClockEntries (memsize : Nat) (m : Machine) (clockArm : Nat) (queue : List (PtePtr × Bool)) :
    Prop :=
  ∃ past, ClockReached memsize past m clockArm ∧ queue = queueAfter memsize [] (past.map Event.entry)

theorem clock_follows {memsize : Nat} (hmem : memsize < 2 ^ 19) :
    Follows clockPolicy (clock memsize) (ClockEntries memsize) where
  owners := by
    rintro m s q ⟨past, hR, rfl⟩
    exact hR.owners
  resident := by
    rintro m s q ⟨past, hR, rfl⟩ p
    rw [Bool.eq_iff_iff]
    exact decide_eq_true_iff.trans (hR.queue.mem_iff hR.owners p)
  step := by
    rintro a m s q m' s' ⟨past, hR, rfl⟩ hrun
    refine ⟨_, hR.step hmem hrun, ?_⟩
    rw [List.map_append, List.map_singleton, queueAfter_concat]
    rfl

/-! ### The queue of `fifo.c` -/

section

variable {a : Access} {m m₁ m' : Machine} {q q₁ q' : Queue} {frames : List Nat}
  {queue : List PtePtr}

/-- The queue lists the frames in use, and `queue` the entries in them. -/
structure FifoEntries (m : Machine) (q : Queue) (frames : List Nat) (queue : List PtePtr) :
    Prop where
  lists : q.Lists m.memsize frames
  nodup : frames.Nodup
  mem : ∀ f, f ∈ frames ↔ f < m.memsize ∧ (m.coremap f).inUse = true
  entries : frames.map (fun f => (m.coremap f).pte) = queue.map some

theorem FifoEntries.mem_iff (h : FifoEntries m q frames queue) (hO : Owners m) (p : PtePtr) :
    p ∈ queue ↔ (m.pte p).valid = true := by
  have hmem : p ∈ queue ↔ ∃ f ∈ frames, (m.coremap f).pte = some p := by
    rw [← List.mem_map_of_injective (Option.some_injective PtePtr), ← h.entries, List.mem_map]
  rw [hmem]
  constructor
  · rintro ⟨f, hf, hp⟩
    obtain ⟨hlt, hu⟩ := (h.mem f).mp hf
    obtain ⟨p', hp', hv, -⟩ := hO.coremap_pte hlt hu
    obtain rfl := Option.some.inj (hp.symm.trans hp')
    exact hv
  · intro hv
    obtain ⟨hlt, hu, hp⟩ := hO.owner p hv
    exact ⟨_, (h.mem _).mpr ⟨hlt, hu⟩, hp⟩

theorem FifoEntries.length_eq (h : FifoEntries m q frames queue) : queue.length = frames.length := by
  simpa using (congrArg List.length h.entries).symm

theorem FifoEntries.length_lt_iff (h : FifoEntries m q frames queue) :
    queue.length < m.memsize ↔ ¬ m.Full := by
  rw [h.length_eq]
  have hsub : frames.toFinset ⊆ Finset.range m.memsize := fun f hf =>
    Finset.mem_range.mpr ((h.mem f).mp (List.mem_toFinset.mp hf)).1
  have hcard := List.toFinset_card_of_nodup h.nodup
  constructor
  · intro hlt hfull
    have hall : Finset.range m.memsize ⊆ frames.toFinset := fun f hf =>
      List.mem_toFinset.mpr ((h.mem f).mpr ⟨Finset.mem_range.mp hf, hfull f (Finset.mem_range.mp hf)⟩)
    have := Finset.card_le_card hall
    rw [Finset.card_range, hcard] at this
    omega
  · intro hfree
    by_contra hge
    refine hfree fun f hf => ?_
    have hall : frames.toFinset = Finset.range m.memsize :=
      Finset.eq_of_subset_of_card_le hsub (by rw [Finset.card_range, hcard]; omega)
    exact ((h.mem f).mp (List.mem_toFinset.mp (hall ▸ Finset.mem_range.mpr hf))).2

theorem FifoEntries.of_sameView (h : FifoEntries m q frames queue) (hs : m.SameView m') :
    FifoEntries m' q frames queue where
  lists := hs.memsize ▸ h.lists
  nodup := h.nodup
  mem f := by rw [h.mem, hs.memsize, hs.inUse]
  entries := by simp only [hs.owner, h.entries]

/-- `fifo_ref` after a miss: the frame `f` was given to the entry, and is not in the queue yet. -/
theorem fifoRef_placed {f : Nat} {rest : List Nat} {others : List PtePtr}
    (hlists : q₁.Lists m₁.memsize rest) (hnodup : rest.Nodup) (hf : f ∉ rest)
    (hmem : ∀ g, g ∈ f :: rest ↔ g < m₁.memsize ∧ (m₁.coremap g).inUse = true)
    (hentries : rest.map (fun g => (m₁.coremap g).pte) = others.map some)
    (hself : (m₁.coremap f).pte = some (ptrOf a.vaddr))
    (hframe : (m₁.pte (ptrOf a.vaddr)).frameNumber = f)
    (href : fifoRef (ptrOf a.vaddr) m₁ q₁ = .ok (m', q')) :
    m' = m₁ ∧ FifoEntries m₁ q' (rest ++ [f]) (others ++ [ptrOf a.vaddr]) := by
  have hroom : rest.length < m₁.memsize := by
    have hsub : (f :: rest).toFinset ⊆ Finset.range m₁.memsize := fun g hg =>
      Finset.mem_range.mpr ((hmem g).mp (List.mem_toFinset.mp hg)).1
    have := Finset.card_le_card hsub
    rwa [List.toFinset_card_of_nodup (List.nodup_cons.mpr ⟨hf, hnodup⟩), Finset.card_range] at this
  obtain ⟨q₂, henqueue, hlists'⟩ := enqueue_ok hlists hroom f
  obtain ⟨rfl, hq⟩ := fifoRef_eq href
  rw [hframe] at hq
  rcases hq with ⟨hin, -⟩ | ⟨-, hq⟩
  · exact absurd ((contains_iff hlists f).mp hin) hf
  obtain rfl := Except.ok.inj (henqueue.symm.trans hq)
  refine ⟨rfl, hlists', ?_, fun g => ?_, ?_⟩
  · rw [List.nodup_append_comm, List.singleton_append, List.nodup_cons]
    exact ⟨hf, hnodup⟩
  · rw [← hmem, List.mem_append, List.mem_singleton, List.mem_cons, or_comm]
  · rw [List.map_append, List.map_append, hentries, List.map_singleton, List.map_singleton, hself]

/-- One access on the queue of entries. -/
theorem FifoEntries.step (h : FifoEntries m q frames queue) (hO : Owners m)
    (hmem : m.memsize < 2 ^ 19) (hrun : accessStep fifoPolicy a m q = .ok (m', q')) :
    ∃ frames', FifoEntries m' q' frames' ((fifo m.memsize).next queue (ptrOf a.vaddr)) := by
  obtain ⟨mt, qt, mr, htr, href, hview', -⟩ := accessStep_inv hrun
  have hstep : FrameStep fifoPolicy a m q mt qt := (translate_frameStep hO hmem.le).of_ok _ htr
  have hview := sameView_missState a.vaddr m
  have hsize := hstep.memsize
  have hin := h.mem_iff hO (ptrOf a.vaddr)
  simp only [fifo]
  cases hstep with
  | hit hv htouched hs =>
    obtain rfl := hs
    have hcoremap : mt.coremap = m.coremap := by rw [htouched.coremap, hitState, openDirectory_eq]
    have hframe : (mt.pte (ptrOf a.vaddr)).frameNumber ∈ frames := by
      rw [htouched.frameNumber, hitState_pte, h.mem]
      exact ⟨(hO.owner _ hv).1, (hO.owner _ hv).2.1⟩
    obtain ⟨rfl, hq⟩ := fifoRef_eq href
    rcases hq with ⟨-, rfl⟩ | ⟨hnot, -⟩
    · rw [if_pos (hin.mpr hv)]
      refine ⟨frames, FifoEntries.of_sameView ⟨hsize ▸ h.lists, h.nodup, fun f => ?_, ?_⟩ hview'⟩
      · rw [hsize, hcoremap, h.mem]
      · rw [hcoremap, h.entries]
    · rw [(contains_iff h.lists _).mpr hframe] at hnot
      cases hnot
  | @fill f hv hfree hplaced hs =>
    obtain rfl := hs
    obtain ⟨hf, hu⟩ := firstFree_some hfree
    have hmiss : ptrOf a.vaddr ∉ queue := by
      rw [hin, hv]
      exact Bool.false_ne_true
    have hnot : f ∉ frames := by
      rw [h.mem, hu]
      rintro ⟨-, ⟨⟩⟩
    have hnotFull : ¬ m.Full := fun hfull => by
      rw [hfull f hf] at hu
      cases hu
    have hkeep : ∀ g, g ≠ f → (mt.coremap g).pte = (m.coremap g).pte := fun g hg => by
      rw [hplaced.coremap_of_ne hg, hview.owner]
    have hlisted : ∀ g, g ∈ f :: frames ↔ g < mt.memsize ∧ (mt.coremap g).inUse = true := by
      intro g
      rw [hsize, List.mem_cons, h.mem]
      by_cases hgf : g = f
      · subst hgf
        rw [hplaced.coremap_self]
        simp [hf]
      · rw [hplaced.coremap_of_ne hgf, hview.inUse]
        simp [hgf]
    obtain ⟨rfl, hF⟩ := fifoRef_placed (hsize ▸ h.lists) h.nodup hnot hlisted
      ((List.map_congr_left fun g hg => hkeep g fun hgf => hnot (hgf ▸ hg)).trans h.entries)
      (by rw [hplaced.coremap_self]) hplaced.frameNumber href
    rw [if_neg hmiss, if_pos (h.length_lt_iff.mpr hnotFull)]
    exact ⟨_, hF.of_sameView hview'⟩
  | @evict f p mp me hv hfree hevict hf hp hvacated hplaced =>
    obtain ⟨rfl, hdequeue⟩ := fifoEvict_eq hevict
    have hmiss : ptrOf a.vaddr ∉ queue := by
      rw [hin, hv]
      exact Bool.false_ne_true
    have hfull := full_of_firstFree hfree
    obtain ⟨f', rest, rfl⟩ : ∃ f' rest, frames = f' :: rest :=
      List.exists_cons_of_ne_nil fun hnil => by
        have := (h.mem f).mpr ⟨hf, hfull f hf⟩
        rw [hnil] at this
        cases this
    obtain ⟨p', others, rfl⟩ : ∃ p' others, queue = p' :: others :=
      List.exists_cons_of_ne_nil fun hnil => by
        have := h.entries
        rw [hnil] at this
        cases this
    obtain ⟨q', hdequeue', hlists⟩ := dequeue_ok h.lists
    rw [hdequeue'] at hdequeue
    obtain ⟨hff, rfl⟩ := Prod.mk.inj (Except.ok.inj hdequeue)
    obtain rfl := Int.ofNat_inj.mp hff
    obtain ⟨hnot, hnodup⟩ := List.nodup_cons.mp h.nodup
    have hkeep : ∀ g, g ≠ f' → (mt.coremap g).pte = (m.coremap g).pte := fun g hg => by
      rw [hplaced.coremap_of_ne hg, hvacated.coremap, hview.owner]
    have hlisted : ∀ g, g ∈ f' :: rest ↔ g < mt.memsize ∧ (mt.coremap g).inUse = true := by
      intro g
      rw [hsize, h.mem]
      by_cases hgf : g = f'
      · subst hgf
        rw [hplaced.coremap_self]
        simp [hf, hfull g hf]
      · rw [hplaced.coremap_of_ne hgf, hvacated.coremap, hview.inUse]
    obtain ⟨rfl, hF⟩ := fifoRef_placed (hsize ▸ hlists) hnodup hnot hlisted
      ((List.map_congr_left fun g hg => hkeep g fun hgf => hnot (hgf ▸ hg)).trans
        (List.cons.inj h.entries).2)
      (by rw [hplaced.coremap_self]) hplaced.frameNumber href
    rw [if_neg hmiss, if_neg fun hlt => h.length_lt_iff.mp hlt hfull]
    exact ⟨_, hF.of_sameView hview'⟩

theorem fifo_follows {memsize : Nat} (hmem : memsize < 2 ^ 19) :
    Follows fifoPolicy (fifo memsize) fun m q queue =>
      Owners m ∧ m.memsize = memsize ∧ ∃ frames, FifoEntries m q frames queue where
  owners := fun h => h.1
  resident := by
    rintro m s q ⟨hO, -, frames, hF⟩ p
    rw [Bool.eq_iff_iff]
    exact decide_eq_true_iff.trans (hF.mem_iff hO p)
  step := by
    rintro a m s q m' s' ⟨hO, rfl, frames, hF⟩ hrun
    obtain ⟨mt, qt, mr, htr, href, hview, -⟩ := accessStep_inv hrun
    have hstep : FrameStep fifoPolicy a m s mt qt := (translate_frameStep hO hmem.le).of_ok _ htr
    have hview' := (fifoPolicy.ref_same href).sameView.trans hview
    exact ⟨(hstep.owners hO).of_sameView hview', hview'.memsize.trans hstep.memsize,
      hF.step hO hmem hrun⟩

end

/-! ## Against the best schedule -/

/-- `misses` is at most `memsize / (memsize - h + 1)` times `best`, but for one window. -/
def CompetesWith (memsize h : Nat) (misses best : Int) : Prop :=
  (memsize - h + 1 : Int) * misses ≤ memsize * best + memsize * (memsize - h + 1)

/-- The counters of runs whose misses compete. -/
theorem competesWith_missCount {σ τ : Type} {P : Policy σ} {A : Policy τ} {s₀ s : σ} {t₀ t : τ}
    {trace : List Access} {h memsize : Nat} {physmem swapfile physmem' swapfile' : Memory}
    {b b' : Bitmap} {m mp : Machine} (hmem : memsize < 2 ^ 19) (hle : h ≤ memsize)
    (hlen : trace.length < 2 ^ 31)
    (hrun : replay A trace (boot memsize physmem swapfile b) t₀ = .ok (m, t))
    (hrun' : replay P trace (boot h physmem' swapfile' b') s₀ = .ok (mp, s))
    (hmisses : (memsize - h + 1) * missesOf A trace (boot memsize physmem swapfile b) t₀ ≤
      memsize * missesOf P trace (boot h physmem' swapfile' b') s₀ + memsize * (memsize - h + 1)) :
    CompetesWith memsize h m.missCount mp.missCount := by
  rw [missCount_eq_of_lt hmem hlen hrun, missCount_eq_of_lt (hle.trans_lt hmem) hlen hrun',
    CompetesWith, ← Int.ofNat_sub hle]
  exact_mod_cast hmisses

section

variable {σ : Type} {P : Policy σ} {s sp : σ} {trace : List Access} {h memsize swapsize : Nat}
  {physmem' swapfile' : Memory} {b b' : Bitmap} {mp : Machine}

theorem lru_competes (physmem swapfile : Memory) (hswap : swapsize < 2 ^ 32)
    (hb : bitmapCreate swapsize = .ok b) (hpos : 1 ≤ h) (hle : h ≤ memsize) (hmem : memsize < 2 ^ 19)
    (hvaddr : ∀ a ∈ trace, a.vaddr < 2 ^ 36) (hslots : (pagesOf trace).card ≤ b.slots.card)
    (hlen : trace.length < 2 ^ 31)
    (hrun : replay P trace (boot h physmem' swapfile' b') s = .ok (mp, sp)) :
    ∃ m s', replay lruPolicy trace (boot memsize physmem swapfile b) lruInit = .ok (m, s') ∧
      CompetesWith memsize h m.missCount mp.missCount := by
  obtain ⟨m, s', hreplay, -, -, hmiss⟩ := replay_lru_boot (List.prefix_refl trace) physmem swapfile
    hswap hb (hpos.trans hle) hmem hvaddr hslots (hlen.trans (by decide))
  refine ⟨m, s', hreplay, competesWith_missCount hmem hle hlen hreplay hrun ?_⟩
  rw [hmiss, ← faults_lru]
  exact (conservative_lru memsize).competitive List.nodup_nil hpos hle
    (serves_of_boot (hle.trans_lt hmem) hrun).2

theorem fifo_competes (physmem swapfile : Memory) (hswap : swapsize < 2 ^ 32)
    (hb : bitmapCreate swapsize = .ok b) (hpos : 1 ≤ h) (hle : h ≤ memsize) (hmem : memsize < 2 ^ 19)
    (hvaddr : ∀ a ∈ trace, a.vaddr < 2 ^ 36) (hslots : (pagesOf trace).card ≤ b.slots.card)
    (hlen : trace.length < 2 ^ 31)
    (hrun : replay P trace (boot h physmem' swapfile' b') s = .ok (mp, sp)) :
    ∃ m q, replay fifoPolicy trace (boot memsize physmem swapfile b) (fifoInit memsize) = .ok (m, q) ∧
      CompetesWith memsize h m.missCount mp.missCount := by
  obtain ⟨m, q, hreplay⟩ :=
    fifo_runs trace physmem swapfile hswap hb (hpos.trans hle) hmem hvaddr hslots
  refine ⟨m, q, hreplay, competesWith_missCount hmem hle hlen hreplay hrun ?_⟩
  have hstart : FifoEntries (boot memsize physmem swapfile b) (fifoInit memsize) [] [] :=
    ⟨lists_makeQueue (hpos.trans hle), List.nodup_nil, fun f => by simp [boot], rfl⟩
  rw [(fifo_follows hmem).missesOf trace ⟨Owners.boot memsize physmem swapfile b, rfl, [], hstart⟩
    hreplay]
  exact (conservative_fifo memsize).competitive List.nodup_nil hpos hle
    (serves_of_boot (hle.trans_lt hmem) hrun).1

theorem clock_competes (physmem swapfile : Memory) (hswap : swapsize < 2 ^ 32)
    (hb : bitmapCreate swapsize = .ok b) (hpos : 1 ≤ h) (hle : h ≤ memsize) (hmem : memsize < 2 ^ 19)
    (hvaddr : ∀ a ∈ trace, a.vaddr < 2 ^ 36) (hslots : (pagesOf trace).card ≤ b.slots.card)
    (hlen : trace.length < 2 ^ 31)
    (hrun : replay P trace (boot h physmem' swapfile' b') s = .ok (mp, sp)) :
    ∃ m arm, replay clockPolicy trace (boot memsize physmem swapfile b) clockInit = .ok (m, arm) ∧
      CompetesWith memsize h m.missCount mp.missCount := by
  obtain ⟨m, arm, hreplay⟩ :=
    clock_runs trace physmem swapfile hswap hb (hpos.trans hle) hmem hvaddr hslots
  refine ⟨m, arm, hreplay, competesWith_missCount hmem hle hlen hreplay hrun ?_⟩
  have hstart := ClockReached.boot (hpos.trans hle) physmem swapfile b
  rw [(clock_follows hmem).missesOf trace ⟨[], hstart, rfl⟩ hreplay]
  have hempty : (([] : List (PtePtr × Bool)).map Prod.fst).Nodup := List.nodup_nil
  exact (conservative_clock memsize).competitive hempty hpos hle
    (serves_of_boot (hle.trans_lt hmem) hrun).1

end

/-- **No policy does much better than `lru`, `fifo` or `clock`.**  With `memsize` frames each of them
misses at most `memsize / (memsize - h + 1)` times as often as any run with `h` of these frames, whatever
its policy knows of the trace, but for `memsize` misses more.  The traces are those on which
`miss_count` does not wrap. -/
theorem online_misses_competitive {σ : Type} (P : Policy σ) (s : σ) (trace : List Access)
    (h memsize swapsize : Nat) (physmem swapfile physmem' swapfile' : Memory) (b b' : Bitmap)
    (hswap : swapsize < 2 ^ 32) (hb : bitmapCreate swapsize = .ok b) (hpos : 1 ≤ h)
    (hle : h ≤ memsize) (hmem : memsize < 2 ^ 19) (hvaddr : ∀ a ∈ trace, a.vaddr < 2 ^ 36)
    (hslots : (pagesOf trace).card ≤ b.slots.card) (hlen : trace.length < 2 ^ 31) (mp : Machine)
    (sp : σ) (hrun : replay P trace (boot h physmem' swapfile' b') s = .ok (mp, sp)) :
    (∃ m s', replay lruPolicy trace (boot memsize physmem swapfile b) lruInit = .ok (m, s') ∧
      CompetesWith memsize h m.missCount mp.missCount) ∧
    (∃ m q, replay fifoPolicy trace (boot memsize physmem swapfile b) (fifoInit memsize)
        = .ok (m, q) ∧
      CompetesWith memsize h m.missCount mp.missCount) ∧
    ∃ m arm, replay clockPolicy trace (boot memsize physmem swapfile b) clockInit = .ok (m, arm) ∧
      CompetesWith memsize h m.missCount mp.missCount :=
  ⟨lru_competes physmem swapfile hswap hb hpos hle hmem hvaddr hslots hlen hrun,
    fifo_competes physmem swapfile hswap hb hpos hle hmem hvaddr hslots hlen hrun,
    clock_competes physmem swapfile hswap hb hpos hle hmem hvaddr hslots hlen hrun⟩

/-- `fifo` in three frames against `clock` in two. -/
theorem online_misses_competitive_example :
    ∃ mp sp, replay clockPolicy beladyTrace (boot 2 (fun _ => 0) (fun _ => 0) ⟨64, fun _ => 0#32⟩)
        clockInit = .ok (mp, sp) ∧
      ∃ m q, replay fifoPolicy beladyTrace (boot 3 (fun _ => 0) (fun _ => 0) ⟨64, fun _ => 0#32⟩)
          (fifoInit 3) = .ok (m, q) ∧
        CompetesWith 3 2 m.missCount mp.missCount := by
  have hb : bitmapCreate 64 = .ok ⟨64, fun _ => 0#32⟩ := rfl
  have hvaddr : ∀ a ∈ beladyTrace, a.vaddr < 2 ^ 36 := by decide
  have hslots : (pagesOf beladyTrace).card ≤ (Bitmap.slots ⟨64, fun _ => 0#32⟩).card := by
    rw [slots_of_bitmapCreate (by decide) hb]
    decide
  obtain ⟨mp, sp, hrun⟩ := clock_runs beladyTrace (fun _ => 0) (fun _ => 0) (by decide) hb
    (show 1 ≤ 2 by decide) (by decide) hvaddr hslots
  exact ⟨mp, sp, hrun, (online_misses_competitive clockPolicy clockInit beladyTrace 2 3 64
    (fun _ => 0) (fun _ => 0) (fun _ => 0) (fun _ => 0) _ _ (by decide) hb (by decide) (by decide)
    (by decide) hvaddr hslots (by decide) mp sp hrun).2.1⟩

/-- **A larger memory under `opt` beats every policy.**  In particular `opt` itself has no Belady
anomaly. -/
theorem opt_misses_least_of_le {σ : Type} (P : Policy σ) (s : σ) (trace : List Access)
    (addresses : List Nat) (h memsize swapsize : Nat)
    (physmem swapfile physmem' swapfile' : Memory) (b b' : Bitmap) (hswap : swapsize < 2 ^ 32)
    (hb : bitmapCreate swapsize = .ok b) (hmin : 5 ≤ memsize) (hle : h ≤ memsize)
    (hmem : memsize < 2 ^ 19) (hvaddr : ∀ a ∈ trace, a.vaddr < 2 ^ 36)
    (hslots : (pagesOf trace).card ≤ b.slots.card) (hlen : trace.length < 2 ^ 31)
    (hlist : addresses.map pageNumber = trace.map fun a => pageOf a.vaddr) (mp : Machine) (sp : σ)
    (hrun : replay P trace (boot h physmem' swapfile' b') s = .ok (mp, sp)) :
    ∃ so mo so', optInit memsize addresses = .ok so ∧
      replay optPolicy trace (boot memsize physmem swapfile b) so = .ok (mo, so') ∧
      mo.missCount ≤ mp.missCount := by
  have hn := (card_entriesOf trace).le.trans hslots
  have hT24 := (card_entriesOf trace).le.trans (card_pagesOf_le hvaddr)
  have htrace : ∀ a ∈ trace, ptrOf a.vaddr ∈ entriesOf trace ∧ a.vaddr < 2 ^ 36 :=
    fun a ha => ⟨ptrOf_mem_entriesOf ha, hvaddr a ha⟩
  obtain ⟨so, hinit, hI⟩ := optInit_ok ((length_addresses hlist).trans_le hlen.le) hmin (by omega)
  have hI := hI physmem swapfile b
  rw [hlist] at hI
  obtain ⟨mo, so', hopt, hfurthest⟩ :=
    servesFurthest_of_replay hn hT24 entriesOf_pages htrace
      (Residency.boot hswap hb (entriesOf trace) memsize physmem swapfile) hmem.le
      (by show 0 < memsize; omega) (residents_boot memsize physmem swapfile b) hI
  obtain ⟨n, hn, hserves⟩ := exists_serves_of_le hle (serves_of_boot (hle.trans_lt hmem) hrun).2
    (Finset.Subset.refl ∅) (Nat.zero_le h) (Nat.zero_le memsize)
  refine ⟨so, mo, so', hinit, hopt, ?_⟩
  rw [missCount_eq_of_lt hmem hlen hopt, missCount_eq_of_lt (hle.trans_lt hmem) hlen hrun]
  exact_mod_cast (hfurthest.le (Nat.zero_le _) hserves).trans hn

/-- `opt` in six frames against `fifo` in five. -/
theorem opt_misses_least_of_le_example :
    ∃ mp sp, replay fifoPolicy returnTrace (boot 5 (fun _ => 0) (fun _ => 0) ⟨64, fun _ => 0#32⟩)
        (fifoInit 5) = .ok (mp, sp) ∧
      ∃ so mo so', optInit 6 [0x1000, 0x2000, 0x3000, 0x4000, 0x5000, 0x6000, 0x1000] = .ok so ∧
        replay optPolicy returnTrace (boot 6 (fun _ => 0) (fun _ => 0) ⟨64, fun _ => 0#32⟩) so
          = .ok (mo, so') ∧
        mo.missCount ≤ mp.missCount := by
  have hb : bitmapCreate 64 = .ok ⟨64, fun _ => 0#32⟩ := rfl
  have hvaddr : ∀ a ∈ returnTrace, a.vaddr < 2 ^ 36 := by decide
  have hslots : (pagesOf returnTrace).card ≤ (Bitmap.slots ⟨64, fun _ => 0#32⟩).card := by
    rw [slots_of_bitmapCreate (by decide) hb]
    decide
  obtain ⟨mp, sp, hrun⟩ := fifo_runs returnTrace (fun _ => 0) (fun _ => 0) (by decide) hb
    (show 1 ≤ 5 by decide) (by decide) hvaddr hslots
  exact ⟨mp, sp, hrun, opt_misses_least_of_le fifoPolicy (fifoInit 5) returnTrace
    [0x1000, 0x2000, 0x3000, 0x4000, 0x5000, 0x6000, 0x1000] 5 6 64 (fun _ => 0) (fun _ => 0)
    (fun _ => 0) (fun _ => 0) _ _ (by decide) hb (by decide) (by decide) (by decide) hvaddr hslots
    (by decide) (by decide) mp sp hrun⟩

end Paging
end OsAssignments
