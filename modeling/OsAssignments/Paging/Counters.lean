import OsAssignments.Paging.History

/-!
# The event counters

* `Counters.after` — what an event adds to the numbers of events; `Machine.Counted` — the counters
  of the machine are these numbers, as `int`s.
* `accessStep_counted` — every access that returns counts its event; `replay_counted` — so the
  counters of a run are the numbers of its events, which below `2 ^ 31` references are exact.
* `Machine.inUseCount` — the number of frames in use; `FrameStep.inUseCount` — a miss without an
  eviction takes one more.
* `Balanced` — references are hits and misses, misses are evictions and frames in use;
  `Balanced.step` — an access keeps the balance.
-/

namespace OsAssignments
namespace Paging

open MachineWord ByteMemory ExceptSpec

/-! ## Counting events -/

/-- How many events of each kind there were, as the counters of `pagetable.c` tell them apart. -/
structure Counters where
  hit : Nat
  miss : Nat
  ref : Nat
  evictClean : Nat
  evictDirty : Nat
  deriving DecidableEq, Repr

/-- The counters of the machine are these numbers, each one wrapped to an `int`. -/
structure Machine.Counted (m : Machine) (c : Counters) : Prop where
  hit : m.hitCount = toInt32 c.hit
  miss : m.missCount = toInt32 c.miss
  ref : m.refCount = toInt32 c.ref
  evictClean : m.evictCleanCount = toInt32 c.evictClean
  evictDirty : m.evictDirtyCount = toInt32 c.evictDirty

/-- The counters after an eviction, if there was one. -/
def Counters.evicted (c : Counters) : Option (PtePtr × Bool) → Counters
  | none => c
  | some (_, true) => { c with evictDirty := c.evictDirty + 1 }
  | some (_, false) => { c with evictClean := c.evictClean + 1 }

/-- The counters after a hit or a miss. -/
def Counters.served (c : Counters) (missed : Bool) : Counters :=
  if missed then { c with miss := c.miss + 1 } else { c with hit := c.hit + 1 }

/-- The counters after an event, but for the references. -/
def Counters.afterFind (c : Counters) (e : Event) : Counters :=
  (c.served e.missed).evicted e.evicted

/-- The counters after an event. -/
def Counters.after (c : Counters) (e : Event) : Counters :=
  { c.afterFind e with ref := c.ref + 1 }

/-- The numbers of events of a history. -/
def countersOf (past : List Event) : Counters := past.foldl Counters.after ⟨0, 0, 0, 0, 0⟩

section

variable {σ : Type} {P : Policy σ} {a : Access} {m m' : Machine} {s s' : σ} {f : Nat} {q : PtePtr}

/-! ### What the steps count -/

theorem Machine.Counted.of_rest {c : Counters} (h : m.Counted c)
    (hhit : m'.hitCount = m.hitCount) (hmiss : m'.missCount = m.missCount)
    (href : m'.refCount = m.refCount) (hclean : m'.evictCleanCount = m.evictCleanCount)
    (hdirty : m'.evictDirtyCount = m.evictDirtyCount) : m'.Counted c :=
  ⟨hhit.trans h.hit, hmiss.trans h.miss, href.trans h.ref, hclean.trans h.evictClean,
    hdirty.trans h.evictDirty⟩

section

variable {c : Counters} (h : m.Counted c)
include h

theorem Machine.Counted.sameButBookkeeping (hsame : m.SameButBookkeeping m') : m'.Counted c := by
  rw [hsame.rest]
  exact h.of_rest rfl rfl rfl rfl rfl

theorem markAccess_counted (a : Access) : (markAccess a m).Counted c := by
  unfold markAccess
  split <;> exact h.of_rest rfl rfl rfl rfl rfl

theorem openDirectory_counted (dir : Nat) : (openDirectory dir m).Counted c := by
  rw [openDirectory_eq]
  exact h.of_rest rfl rfl rfl rfl rfl

theorem hitState_counted (vaddr : Nat) : (hitState vaddr m).Counted (c.served false) := by
  have hopen := openDirectory_counted h (pgdirIndex vaddr)
  refine ⟨?_, hopen.miss, hopen.ref, hopen.evictClean, hopen.evictDirty⟩
  exact (congrArg incr hopen.hit).trans (incr_toInt32 c.hit)

theorem missState_counted (vaddr : Nat) : (missState vaddr m).Counted (c.served true) := by
  have hopen := openDirectory_counted h (pgdirIndex vaddr)
  refine ⟨hopen.hit, ?_, hopen.ref, hopen.evictClean, hopen.evictDirty⟩
  exact (congrArg incr hopen.miss).trans (incr_toInt32 c.miss)

theorem swapPageout_counted (frame : Nat) (swapOffset : Int) :
    Meets (fun r => r.2.Counted c) AnyFault (swapPageout frame swapOffset m) := by
  have hwrite : ∀ off {m' : Machine}, m'.Counted c → (writeSwap frame off m').Counted c :=
    fun _ _ h' => h'.of_rest rfl rfl rfl rfl rfl
  unfold swapPageout
  refine Meets.ite (fun _ => ?_) fun _ => .ok (hwrite swapOffset h)
  refine Meets.bind (meets_any _) fun ⟨idx, swapmap⟩ _ => ?_
  have halloc : Machine.Counted { m with swapmap := swapmap } c := h.of_rest rfl rfl rfl rfl rfl
  cases idx with
  | none => exact .ok halloc
  | some idx => exact Meets.ite (fun _ => .error trivial) fun _ => .ok (hwrite _ halloc)

/-- An eviction counts as dirty or as clean. -/
theorem evictFrame_counted (hq : (m.coremap f).pte = some q) :
    Meets (fun m' => m'.Counted (c.evicted (some (q, (m.pte q).dirty)))) AnyFault
      (evictFrame f m) := by
  unfold evictFrame
  rw [hq]
  refine Meets.ite (fun hdirty => ?_) fun hclean => ?_
  · refine (swapPageout_counted h f _).bind fun ⟨off, mw⟩ hw => .ok ?_
    rw [hdirty]
    exact ⟨hw.hit, hw.miss, hw.ref, hw.evictClean,
      (congrArg incr hw.evictDirty).trans (incr_toInt32 c.evictDirty)⟩
  · rw [Bool.not_eq_true] at hclean
    rw [hclean]
    exact .ok ⟨h.hit, h.miss, h.ref,
      (congrArg incr h.evictClean).trans (incr_toInt32 c.evictClean), h.evictDirty⟩

theorem loadPage_counted (isSwapped : Bool) (f vaddr : Nat) :
    Meets (fun m' => m'.Counted c) AnyFault (loadPage isSwapped f vaddr m) := by
  cases isSwapped with
  | false => exact .ok (h.of_rest rfl rfl rfl rfl rfl)
  | true =>
    unfold loadPage swapPagein
    refine Meets.bind (Q := fun mw => mw.Counted c) ?_ fun mw hmw =>
      .ok (hmw.of_rest rfl rfl rfl rfl rfl)
    exact Meets.ite (fun _ => .error trivial) fun _ => .ok (h.of_rest rfl rfl rfl rfl rfl)

/-- **What `find_physpage` counts before the reference** is the event. -/
theorem translate_counted (hO : Owners m) :
    Meets (fun r => r.1.Counted (c.afterFind (eventOf P a m s))) AnyFault (translate P a m s) := by
  have hmissed := missState_counted h a.vaddr
  unfold translate
  refine Meets.ite (fun _ => .error trivial) fun _ => Meets.ite (fun hv => ?_) fun hv => ?_
  · rw [openDirectory_pte] at hv
    rw [Counters.afterFind, (eventOf_hit hv).1, (eventOf_hit hv).2]
    exact .ok (markAccess_counted (hitState_counted h a.vaddr) a)
  · rw [openDirectory_pte, Bool.not_eq_true] at hv
    rw [Counters.afterFind, eventOf_miss hv]
    unfold bringIn
    refine Meets.bind (Q := fun r => r.1.Counted
      ((c.served true).evicted (eventOf P a m s).evicted)) ?_
      fun ⟨mb, _⟩ hcount => .ok (markAccess_counted hcount a)
    refine Meets.bind (Q := fun r => r.2.1.Counted
      ((c.served true).evicted (eventOf P a m s).evicted)) ?_
      fun ⟨f, mf, _⟩ hcount => (loadPage_counted hcount _ f a.vaddr).bind fun ml hload => .ok hload
    unfold allocateFrame
    rw [firstFree_missState]
    cases hfree : firstFree m with
    | some f =>
      rw [eventOf_fill hfree]
      exact .ok (hmissed.of_rest rfl rfl rfl rfl rfl)
    | none =>
      cases hevict : P.evict (missState a.vaddr m) s with
      | error e => exact .error trivial
      | ok r =>
        obtain ⟨v, mp, sp⟩ := r
        have hviewp := (P.evict_same hevict).sameView
        refine Meets.ite (fun ⟨hv0, hvlt⟩ => ?_) fun _ => .error trivial
        obtain ⟨f, q, rfl, hf, hq, hqp⟩ := hO.victim hfree hevict hv0 hvlt
        have hcounted := hmissed.sameButBookkeeping (P.evict_same hevict)
        rw [eventOf_evict hv hfree hevict hf hq, ← missState_pte a.vaddr m q,
          ← (hviewp.pte q).dirty]
        exact (evictFrame_counted hcounted hqp).bind fun me hcount =>
          .ok (hcount.of_rest rfl rfl rfl rfl rfl)

end

theorem Counters.afterFind_ref (c : Counters) (e : Event) : (c.afterFind e).ref = c.ref := by
  have hserved : (c.served e.missed).ref = c.ref := by
    unfold Counters.served
    split <;> rfl
  rw [Counters.afterFind, ← hserved]
  cases e.evicted with
  | none => rfl
  | some x =>
    obtain ⟨q, written⟩ := x
    cases written <;> rfl

theorem Counters.after_miss (c : Counters) (e : Event) :
    (c.after e).miss = c.miss + if e.missed = true then 1 else 0 := by
  obtain ⟨entry, stores, missed, evicted⟩ := e
  cases missed <;> rcases evicted with _ | ⟨q, _ | _⟩ <;> rfl

/-- A reference is a hit or a miss. -/
theorem Counters.after_served (c : Counters) (e : Event) :
    (c.after e).hit + (c.after e).miss = c.hit + c.miss + 1 := by
  have hhit : (c.after e).hit = c.hit + if e.missed = true then 0 else 1 := by
    obtain ⟨entry, stores, missed, evicted⟩ := e
    cases missed <;> rcases evicted with _ | ⟨q, _ | _⟩ <;> rfl
  rw [hhit, c.after_miss e]
  split <;> omega

/-- An eviction is clean or dirty. -/
theorem Counters.after_evicted (c : Counters) (e : Event) :
    (c.after e).evictClean + (c.after e).evictDirty =
      c.evictClean + c.evictDirty + if e.evicted = none then 0 else 1 := by
  obtain ⟨entry, stores, missed, evicted⟩ := e
  cases missed <;> rcases evicted with _ | ⟨q, _ | _⟩ <;>
    simp [Counters.after, Counters.afterFind, Counters.served, Counters.evicted] <;> omega

/-- What an eviction counts as. -/
theorem Counters.after_dirty (c : Counters) {e : Event} {written : Bool}
    (h : e.evicted = some (q, written)) :
    (c.after e).evictDirty = c.evictDirty + if written then 1 else 0 := by
  obtain ⟨entry, stores, missed, evicted⟩ := e
  dsimp only at h
  subst h
  cases missed <;> cases written <;> rfl

theorem Counters.after_clean (c : Counters) {e : Event} {written : Bool}
    (h : e.evicted = some (q, written)) :
    (c.after e).evictClean = c.evictClean + if written then 0 else 1 := by
  obtain ⟨entry, stores, missed, evicted⟩ := e
  dsimp only at h
  subst h
  cases missed <;> cases written <;> rfl

theorem evicted_of_hit (h : (eventOf P a m s).missed = false) :
    (eventOf P a m s).evicted = none := by
  cases hv : (m.pte (ptrOf a.vaddr)).valid with
  | true => exact (eventOf_hit hv).2
  | false =>
    rw [eventOf_miss hv] at h
    cases h

/-- **Every access that returns counts its event.** -/
theorem accessStep_counted {c : Counters} (hcount : m.Counted c) (h : Owners m)
    (hrun : accessStep P a m s = .ok (m', s')) : m'.Counted (c.after (eventOf P a m s)) := by
  obtain ⟨m₁, s₁, mr, htr, href, -, hrest⟩ := accessStep_inv hrun
  have hfind := (translate_counted hcount h).of_ok _ htr
  have hmr := hfind.sameButBookkeeping (P.ref_same href)
  have hrefs := (congrArg incr hmr.ref).trans (incr_toInt32 _)
  rw [Counters.afterFind_ref] at hrefs
  rw [hrest]
  exact ⟨hmr.hit, hmr.miss, hrefs, hmr.evictClean, hmr.evictDirty⟩

/-! ### What a run counts -/

theorem countersOf_concat (past : List Event) (e : Event) :
    countersOf (past ++ [e]) = (countersOf past).after e := by
  rw [countersOf, List.foldl_concat, countersOf]

theorem countersOf_ref (past : List Event) : (countersOf past).ref = past.length := by
  induction past using List.reverseRecOn with
  | nil => rfl
  | append_singleton past e ih =>
    rw [countersOf_concat, List.length_append, List.length_singleton, ← ih]
    rfl

theorem countersOf_miss (past : List Event) : (countersOf past).miss = past.countP Event.missed := by
  induction past using List.reverseRecOn with
  | nil => rfl
  | append_singleton past e ih =>
    rw [countersOf_concat, Counters.after_miss, List.countP_append, List.countP_singleton, ih]

theorem boot_counted (memsize : Nat) (physmem swapfile : Memory) (b : Bitmap) :
    (boot memsize physmem swapfile b).Counted (countersOf []) := by
  have hzero : (0 : Int) = toInt32 ((0 : Nat) : Int) := (toInt32_natCast (by decide)).symm
  exact ⟨hzero, hzero, hzero, hzero, hzero⟩

/-- **The counters of a run** are the numbers of its events. -/
theorem replay_counted {memsize : Nat} (hmem : memsize < 2 ^ 19) {physmem swapfile : Memory}
    {b : Bitmap} {s₀ : σ} {past : List Access}
    (hrun : replay P past (boot memsize physmem swapfile b) s₀ = .ok (m, s)) :
    m.Counted (countersOf (history P past (boot memsize physmem swapfile b) s₀)) := by
  have h := replay_history (P := P) (I := fun past m _ =>
      Owners m ∧ m.memsize = memsize ∧ m.Counted (countersOf past))
    ⟨Owners.boot memsize physmem swapfile b, rfl, boot_counted memsize physmem swapfile b⟩
    (fun past a m s m' s' ⟨hO, hsize, hcount⟩ hstep => ?_) hrun
  · exact h.2.2
  · obtain ⟨m₁, s₁, mr, htr, href, hview, -⟩ := accessStep_inv hstep
    have hframe : FrameStep P a m s m₁ s₁ := (translate_frameStep hO (hsize ▸ hmem.le)).of_ok _ htr
    have hview' := (P.ref_same href).sameView.trans hview
    rw [countersOf_concat]
    exact ⟨(hframe.owners hO).of_sameView hview',
      hview'.memsize.trans (hframe.memsize.trans hsize), accessStep_counted hcount hO hstep⟩

theorem missesOf_le (P : Policy σ) (trace : List Access) (m : Machine) (s : σ) :
    missesOf P trace m s ≤ trace.length := by
  refine List.countP_le_length.trans ?_
  induction trace generalizing m s with
  | nil => exact le_refl _
  | cons a trace ih =>
    rw [history, List.length_cons, List.length_cons]
    cases accessStep P a m s with
    | error e => simp
    | ok r => exact Nat.succ_le_succ (ih r.1 r.2)

/-- **`miss_count`** is the number of misses, as an `int`. -/
theorem missCount_eq {memsize : Nat} (hmem : memsize < 2 ^ 19) {physmem swapfile : Memory}
    {b : Bitmap} {s₀ : σ} {trace : List Access}
    (hrun : replay P trace (boot memsize physmem swapfile b) s₀ = .ok (m, s)) :
    m.missCount = toInt32 (missesOf P trace (boot memsize physmem swapfile b) s₀) := by
  rw [(replay_counted hmem hrun).miss, countersOf_miss, missesOf]

/-- Below `2 ^ 31` references it is that number. -/
theorem missCount_eq_of_lt {memsize : Nat} (hmem : memsize < 2 ^ 19) {physmem swapfile : Memory}
    {b : Bitmap} {s₀ : σ} {trace : List Access} (hlen : trace.length < 2 ^ 31)
    (hrun : replay P trace (boot memsize physmem swapfile b) s₀ = .ok (m, s)) :
    m.missCount = missesOf P trace (boot memsize physmem swapfile b) s₀ := by
  rw [missCount_eq hmem hrun, toInt32_natCast ((missesOf_le P trace _ s₀).trans_lt hlen)]

/-! ## Frames in use -/

/-- The number of frames in use. -/
def Machine.inUseCount (m : Machine) : Nat :=
  ((Finset.range m.memsize).filter fun f => (m.coremap f).inUse = true).card

theorem inUseCount_congr (hsize : m'.memsize = m.memsize)
    (hinUse : ∀ f, (m'.coremap f).inUse = (m.coremap f).inUse) :
    m'.inUseCount = m.inUseCount := by
  unfold Machine.inUseCount
  rw [hsize]
  simp only [hinUse]

/-- A free frame that is taken is one more. -/
theorem Placed.inUseCount (h : Placed a f m m') (hf : f < m.memsize)
    (hfree : (m.coremap f).inUse = false) : m'.inUseCount = m.inUseCount + 1 := by
  have hset : ((Finset.range m'.memsize).filter fun g => (m'.coremap g).inUse = true) =
      insert f ((Finset.range m.memsize).filter fun g => (m.coremap g).inUse = true) := by
    ext g
    rw [Finset.mem_insert, Finset.mem_filter, Finset.mem_filter, Finset.mem_range, Finset.mem_range,
      h.memsize]
    by_cases hgf : g = f
    · subst hgf
      rw [h.coremap_self]
      simp [hf]
    · rw [h.coremap_of_ne hgf]
      simp [hgf]
  unfold Machine.inUseCount
  rw [hset, Finset.card_insert_of_notMem]
  rw [Finset.mem_filter, hfree]
  exact fun hmem => Bool.false_ne_true hmem.2

/-- The frames in use after a step: a miss without an eviction takes one more. -/
theorem FrameStep.inUseCount {m₁ : Machine} {s₁ : σ} (hstep : FrameStep P a m s m₁ s₁) :
    m₁.inUseCount = m.inUseCount +
      if (eventOf P a m s).missed = true ∧ (eventOf P a m s).evicted = none then 1 else 0 := by
  have hview := sameView_missState a.vaddr m
  have hsize := hstep.memsize
  cases hstep with
  | hit hv htouched _ =>
    rw [if_neg fun hmiss => by rw [(eventOf_hit hv).1] at hmiss; cases hmiss.1]
    refine inUseCount_congr hsize fun f => ?_
    rw [htouched.coremap, hitState, openDirectory_eq]
  | @fill f hv hfree hplaced _ =>
    obtain ⟨hf, hu⟩ := firstFree_some hfree
    rw [if_pos ⟨eventOf_miss hv, eventOf_fill hfree⟩,
      hplaced.inUseCount (hview.memsize.symm ▸ hf) ((hview.inUse f).trans hu),
      inUseCount_congr hview.memsize hview.inUse]
  | @evict f q mp me hv hfree hevict hf hq hvacated hplaced =>
    have hevicted := eventOf_evict hv hfree hevict hf hq
    rw [if_neg fun hmiss => by rw [hevicted] at hmiss; cases hmiss.2]
    have hviewp := hview.trans (P.evict_same hevict).sameView
    refine inUseCount_congr hsize fun g => ?_
    by_cases hgf : g = f
    · rw [hgf, hplaced.coremap_self, full_of_firstFree hfree f hf]
    · rw [hplaced.coremap_of_ne hgf, hvacated.coremap, hviewp.inUse]

/-! ## The balance -/

/-- References are hits and misses; misses are evictions and frames in use. -/
structure Balanced (c : Counters) (m : Machine) : Prop where
  ref : c.ref = c.hit + c.miss
  miss : c.miss = c.evictClean + c.evictDirty + m.inUseCount

theorem Balanced.boot (memsize : Nat) (physmem swapfile : Memory) (b : Bitmap) :
    Balanced (countersOf []) (boot memsize physmem swapfile b) where
  ref := rfl
  miss := by
    have hnone : (Paging.boot memsize physmem swapfile b).inUseCount = 0 := by
      rw [Machine.inUseCount, Finset.card_eq_zero, Finset.filter_eq_empty_iff]
      intro f _ hu
      cases hu
    rw [hnone]
    rfl

/-- **An access keeps the balance.** -/
theorem Balanced.step {c : Counters} (h : Balanced c m) (hO : Owners m) (hmem : m.memsize ≤ 2 ^ 19)
    (hrun : accessStep P a m s = .ok (m', s')) : Balanced (c.after (eventOf P a m s)) m' := by
  obtain ⟨m₁, s₁, mr, htr, href, hview, -⟩ := accessStep_inv hrun
  have hstep : FrameStep P a m s m₁ s₁ := (translate_frameStep hO hmem).of_ok _ htr
  have hviewr := (P.ref_same href).sameView.trans hview
  have hinUse : m'.inUseCount = m₁.inUseCount := inUseCount_congr hviewr.memsize hviewr.inUse
  rw [hstep.inUseCount] at hinUse
  have hhits := c.after_served (eventOf P a m s)
  have hmisses := c.after_miss (eventOf P a m s)
  have hevictions := c.after_evicted (eventOf P a m s)
  have hrefs : (c.after (eventOf P a m s)).ref = c.ref + 1 := rfl
  refine ⟨by rw [hrefs, h.ref, hhits], ?_⟩
  rw [hmisses, h.miss, hevictions, hinUse]
  cases hmissed : (eventOf P a m s).missed with
  | false =>
    rw [evicted_of_hit hmissed]
    simp
  | true =>
    cases (eventOf P a m s).evicted with
    | none => simp [Nat.add_assoc]
    | some x => simp; omega

end

end Paging
end OsAssignments
