import OsAssignments.Paging.Fifo
import OsAssignments.Paging.OptVictim

/-!
# Runs under `fifo`

* `FrameStep.fifo` — up to `ref_fcn`, the queue lists the frames in use, but for one just filled.
* `FifoQueue` — between accesses it lists them all; `FifoQueue.step` — one access.
* `FirstLoadedVictim` — what `fifo_evict` returns.
* `fifo_evicts_first_loaded` — in every state of a run.
-/

namespace OsAssignments
namespace Paging

open MachineWord ByteMemory RingQueue

section

variable {past : List Event} {a : Access} {m m₁ m' : Machine} {q q₁ q' : Queue}
  {frames : List Nat}

/-! ## One access -/

/-- **Up to `ref_fcn`** the queue lists the frames in use, but for a frame that was just filled. -/
theorem FrameStep.fifo (hstep : FrameStep fifoPolicy a m q m₁ q₁) (hO : Owners m)
    (hF : FifoFrames past m frames) (hQ : q.Lists m.memsize frames) :
    ∃ listed, q₁.Lists m.memsize listed ∧
      ((FifoFrames (past ++ [eventOf fifoPolicy a m q]) m₁ listed ∧
          (m₁.pte (ptrOf a.vaddr)).frameNumber ∈ listed) ∨
        ((m₁.pte (ptrOf a.vaddr)).frameNumber ∉ listed ∧
          FifoFrames (past ++ [eventOf fifoPolicy a m q]) m₁
            (listed ++ [(m₁.pte (ptrOf a.vaddr)).frameNumber]))) := by
  have hview := sameView_missState a.vaddr m
  have hO₁ := hstep.owners hO
  have hsize := hstep.memsize
  cases hstep with
  | hit hv htouched hs =>
    subst hs
    refine ⟨frames, hQ, .inl ⟨?_, ?_⟩⟩
    · refine hF.hit (eventOf_hit hv).1 hsize ?_
      rw [htouched.coremap, hitState, openDirectory_eq]
    · rw [htouched.frameNumber, hitState_pte, hF.mem]
      exact ⟨(hO.owner _ hv).1, (hO.owner _ hv).2.1⟩
  | @fill f hv hfree hplaced hs =>
    subst hs
    obtain ⟨hf, hu⟩ := firstFree_some hfree
    have hnot : f ∉ frames := by
      rw [hF.mem, hu]
      rintro ⟨-, ⟨⟩⟩
    refine ⟨frames, hQ, .inr ?_⟩
    rw [hplaced.frameNumber]
    refine ⟨hnot, .miss (m := m) (eventOf_miss hv) hF.loaded hF.ordered hF.nodup hnot
      (fun g => ?_) (fun g hg => ?_) ?_ fun g hg => ?_⟩
    · rw [hsize, List.mem_cons, hF.mem]
      by_cases hgf : g = f
      · subst hgf
        rw [hplaced.coremap_self]
        simp [hf]
      · rw [hplaced.coremap_of_ne hgf, hview.inUse]
        simp [hgf]
    · rw [hplaced.coremap_of_ne hg, hview.owner]
    · rw [hplaced.coremap_self]
      rfl
    · exact hO.pte_ne hv ((hF.mem g).mp hg).1 ((hF.mem g).mp hg).2
  | @evict f p mp me hv hfree hevict hf hp hvacated hplaced =>
    obtain ⟨rfl, hdequeue⟩ := fifoEvict_eq hevict
    have hfull := full_of_firstFree hfree
    cases hframes : frames with
    | nil =>
      have hmem := (hF.mem f).mpr ⟨hf, hfull f hf⟩
      rw [hframes] at hmem
      cases hmem
    | cons f' rest =>
      rw [hframes] at hQ hF
      obtain ⟨q', hrun, hQ'⟩ := dequeue_ok hQ
      rw [hrun] at hdequeue
      obtain ⟨hff, rfl⟩ := Prod.mk.inj (Except.ok.inj hdequeue)
      obtain rfl := Int.ofNat_inj.mp hff
      have hnot : f' ∉ rest := (List.nodup_cons.mp hF.nodup).1
      have hrest : ∀ g, g ∈ rest → g ∈ f' :: rest := fun g hg => List.mem_cons_of_mem f' hg
      refine ⟨rest, hQ', .inr ?_⟩
      rw [hplaced.frameNumber]
      refine ⟨hnot, .miss (m := m) (eventOf_miss hv) (fun g hg => hF.loaded g (hrest g hg))
        (List.pairwise_cons.mp hF.ordered).2 (List.nodup_cons.mp hF.nodup).2 hnot (fun g => ?_)
        (fun g hg => ?_) ?_ fun g hg => ?_⟩
      · rw [hsize, hF.mem]
        by_cases hgf : g = f'
        · subst hgf
          rw [hplaced.coremap_self]
          simp [hf, hfull g hf]
        · rw [hplaced.coremap_of_ne hgf, hvacated.coremap, hview.inUse]
      · rw [hplaced.coremap_of_ne hg, hvacated.coremap, hview.owner]
      · rw [hplaced.coremap_self]
        rfl
      · have hg' := (hF.mem g).mp (hrest g hg)
        exact hO.pte_ne hv hg'.1 hg'.2

/-- Between accesses: the queue lists the frames in use, in the order of loading. -/
structure FifoQueue (past : List Event) (m : Machine) (q : Queue) (frames : List Nat) : Prop where
  order : FifoFrames past m frames
  lists : q.Lists m.memsize frames

/-- **One access.** -/
theorem FifoQueue.step (h : FifoQueue past m q frames) (hO : Owners m) (hmem : m.memsize < 2 ^ 19)
    (hrun : accessStep fifoPolicy a m q = .ok (m', q')) :
    Owners m' ∧ m'.memsize = m.memsize ∧
      ∃ frames', FifoQueue (past ++ [eventOf fifoPolicy a m q]) m' q' frames' := by
  obtain ⟨m₁, q₁, mr, htr, href, hview, -⟩ := accessStep_inv hrun
  have hstep : FrameStep fifoPolicy a m q m₁ q₁ := (translate_frameStep hO hmem.le).of_ok _ htr
  obtain ⟨listed, hlists, hcases⟩ := hstep.fifo hO h.order h.lists
  obtain ⟨rfl, hqueue⟩ := fifoRef_eq href
  have hsize : m'.memsize = m.memsize := hview.memsize.trans hstep.memsize
  refine ⟨(hstep.owners hO).of_sameView hview, hsize, ?_⟩
  rw [contains_iff hlists, ← Bool.not_eq_true, contains_iff hlists] at hqueue
  rcases hcases with ⟨hframes, hin⟩ | ⟨hnot, hframes⟩
  · rcases hqueue with ⟨-, rfl⟩ | ⟨hnot, -⟩
    · exact ⟨listed, hframes.of_sameView hview, hsize.symm ▸ hlists⟩
    · exact absurd hin hnot
  · rcases hqueue with ⟨hin, -⟩ | ⟨-, henqueue⟩
    · exact absurd hin hnot
    · have hroom : listed.length < m.memsize := by
        have hle := hframes.length_le
        rw [List.length_append, List.length_singleton, hstep.memsize] at hle
        omega
      obtain ⟨q₂, hrun₂, hlists₂⟩ := enqueue_ok hlists hroom (mr.pte (ptrOf a.vaddr)).frameNumber
      obtain rfl : q' = q₂ := Except.ok.inj (henqueue.symm.trans hrun₂)
      exact ⟨_, hframes.of_sameView hview, hsize.symm ▸ hlists₂⟩

/-- The slot at the back is free whenever `fifo_ref` is to enqueue. -/
theorem FifoQueue.enqueue_free (h : FifoQueue past m q frames) (hO : Owners m)
    (hmem : m.memsize < 2 ^ 19) (htr : translate fifoPolicy a m q = .ok (m₁, q₁))
    (hnew : contains q₁ (m₁.pte (ptrOf a.vaddr)).frameNumber = false) :
    q₁.back < q₁.size ∧ q₁.contents q₁.back = emptyQueueSlot := by
  have hstep : FrameStep fifoPolicy a m q m₁ q₁ := (translate_frameStep hO hmem.le).of_ok _ htr
  obtain ⟨listed, hlists, hcases⟩ := hstep.fifo hO h.order h.lists
  rw [← Bool.not_eq_true, contains_iff hlists] at hnew
  rcases hcases with ⟨-, hin⟩ | ⟨-, hframes⟩
  · exact absurd hin hnew
  · refine hlists.empty_back ?_
    have hle := hframes.length_le
    rw [List.length_append, List.length_singleton, hstep.memsize] at hle
    omega

/-- `fifo_evict` returns the frame whose page was loaded first. -/
structure FirstLoadedVictim (past : List Event) (m : Machine) (q : Queue) (v : Nat) : Prop where
  evict : ∃ q', fifoEvict m q = .ok ((v : Int), m, q')
  nonempty : (v : Int) ≠ emptyQueueSlot
  lt : v < m.memsize
  first : ∀ g, g < m.memsize → g ≠ v → LoadedBefore past m v g

theorem FifoQueue.victim (h : FifoQueue past m q frames) (hpos : 1 ≤ m.memsize)
    (hfull : m.Full) : ∃ v, FirstLoadedVictim past m q v := by
  have hmem : ∀ g, g < m.memsize → g ∈ frames :=
    fun g hg => (h.order.mem g).mpr ⟨hg, hfull g hg⟩
  cases hframes : frames with
  | nil =>
    have h0 := hmem 0 hpos
    rw [hframes] at h0
    cases h0
  | cons v rest =>
    subst hframes
    obtain ⟨q', hrun, -⟩ := dequeue_ok h.lists
    refine ⟨v, ⟨q', ?_⟩, natCast_ne_emptyQueueSlot v,
      ((h.order.mem v).mp (List.mem_cons_self ..)).1, fun g hg hne => ?_⟩
    · rw [fifoEvict, bind_of_ok hrun]
      rfl
    · have hrest : g ∈ rest := (List.mem_cons.mp (hmem g hg)).resolve_left hne
      exact (List.pairwise_cons.mp h.order.ordered).1 g hrest

/-- What happens to be set up for the miss does not matter. -/
theorem FifoQueue.missState (h : FifoQueue past m q frames) (vaddr : Nat) :
    FifoQueue past (missState vaddr m) q frames :=
  ⟨h.order.of_sameView (sameView_missState vaddr m),
    (sameView_missState vaddr m).memsize.symm ▸ h.lists⟩

theorem FifoQueue.evicts (h : FifoQueue past m q frames) (hpos : 1 ≤ m.memsize)
    (hev : Evicts a m) : ∃ v, FirstLoadedVictim past (Paging.missState a.vaddr m) q v :=
  (h.missState a.vaddr).victim ((sameView_missState a.vaddr m).memsize.symm ▸ hpos)
    (full_of_firstFree hev.2)

/-- **`fifo` always answers.** -/
theorem FifoQueue.answers (h : FifoQueue past m q frames) (hO : Owners m) (hpos : 1 ≤ m.memsize)
    (hmem : m.memsize < 2 ^ 19) (a : Access) : fifoPolicy.Answers a m q where
  evict _ hfull := by
    obtain ⟨v, ⟨q', hrun⟩, -, hv, -⟩ := (h.missState a.vaddr).victim
      ((sameView_missState a.vaddr m).memsize.symm ▸ hpos) hfull
    exact ⟨v, _, q', hrun, hv, hfull v hv⟩
  ref m₁ q₁ htr := by
    show ∃ r, fifoRef (ptrOf a.vaddr) m₁ q₁ = .ok r
    cases hin : contains q₁ ((m₁.pte (ptrOf a.vaddr)).frameNumber : Int) with
    | true => exact ⟨(m₁, q₁), by simp only [fifoRef, hin, if_true]; rfl⟩
    | false =>
      obtain ⟨hback, -⟩ := h.enqueue_free hO hmem htr hin
      obtain ⟨q₂, hrun⟩ : ∃ q₂, enqueue q₁ (m₁.pte (ptrOf a.vaddr)).frameNumber = .ok q₂ :=
        ⟨_, if_pos hback⟩
      refine ⟨(m₁, q₂), ?_⟩
      simp only [fifoRef, hin, Bool.false_eq_true, if_false, hrun]
      rfl

end

/-! ## Runs -/

section

variable {memsize : Nat} {physmem swapfile : Memory} {b : Bitmap}

/-- A state of a run under `fifo`. -/
structure FifoReached (memsize : Nat) (past : List Event) (m : Machine) (q : Queue) : Prop where
  owners : Owners m
  memsize : m.memsize = memsize
  queue : ∃ frames, FifoQueue past m q frames

theorem FifoReached.boot (hpos : 1 ≤ memsize) (physmem swapfile : Memory) (b : Bitmap) :
    FifoReached memsize [] (boot memsize physmem swapfile b) (fifoInit memsize) where
  owners := Owners.boot memsize physmem swapfile b
  memsize := rfl
  queue := by
    refine ⟨[], ⟨List.nodup_nil, fun f => ?_, fun f hf => ?_, List.Pairwise.nil⟩,
      lists_makeQueue hpos⟩
    · rw [show ((Paging.boot memsize physmem swapfile b).coremap f).inUse = false from rfl]
      simp
    · cases hf

theorem FifoReached.step {past : List Event} {a : Access} {m m' : Machine} {q q' : Queue}
    (h : FifoReached memsize past m q) (hmem : memsize < 2 ^ 19)
    (hrun : accessStep fifoPolicy a m q = .ok (m', q')) :
    FifoReached memsize (past ++ [eventOf fifoPolicy a m q]) m' q' := by
  obtain ⟨frames, hqueue⟩ := h.queue
  obtain ⟨hO, hsize, hqueue'⟩ := hqueue.step h.owners (h.memsize.symm ▸ hmem) hrun
  exact ⟨hO, hsize.trans h.memsize, hqueue'⟩

theorem FifoReached.replay (hpos : 1 ≤ memsize) (hmem : memsize < 2 ^ 19) {past : List Access}
    {m : Machine} {q : Queue}
    (hrun : replay fifoPolicy past (Paging.boot memsize physmem swapfile b) (fifoInit memsize)
      = .ok (m, q)) :
    FifoReached memsize
      (history fifoPolicy past (Paging.boot memsize physmem swapfile b) (fifoInit memsize)) m q := by
  have hstart := FifoReached.boot hpos physmem swapfile b
  have hruns := @replay_history Queue fifoPolicy m q (FifoReached memsize) _ _ hstart
  exact hruns (fun past a m q m' q' h hstep => h.step hmem hstep) hrun

end

/-- **In every state of a run under `fifo`** the queue lists the frames in use once each, from its
front on and in the order in which their pages were loaded; `fifo_ref` enqueues into an empty slot
only; and at an eviction `dequeue` returns the frame whose page was loaded first. -/
theorem fifo_evicts_first_loaded (past : List Access) (memsize : Nat) (physmem swapfile : Memory)
    (b : Bitmap) (hpos : 1 ≤ memsize) (hmem : memsize < 2 ^ 19) (m : Machine) (q : Queue)
    (hrun : replay fifoPolicy past (boot memsize physmem swapfile b) (fifoInit memsize) = .ok (m, q)) :
    (∃ frames, FifoQueue
      (history fifoPolicy past (boot memsize physmem swapfile b) (fifoInit memsize)) m q frames) ∧
    ∀ a : Access,
      (∀ m₁ q₁, translate fifoPolicy a m q = .ok (m₁, q₁) →
        contains q₁ (m₁.pte (ptrOf a.vaddr)).frameNumber = false →
        q₁.back < q₁.size ∧ q₁.contents q₁.back = emptyQueueSlot) ∧
      (Evicts a m → ∃ v, FirstLoadedVictim
        (history fifoPolicy past (boot memsize physmem swapfile b) (fifoInit memsize))
        (missState a.vaddr m) q v) := by
  have hreached := FifoReached.replay hpos hmem hrun
  obtain ⟨frames, hqueue⟩ := hreached.queue
  have hpos' : 1 ≤ m.memsize := hreached.memsize.symm ▸ hpos
  have hmem' : m.memsize < 2 ^ 19 := hreached.memsize.symm ▸ hmem
  refine ⟨⟨frames, hqueue⟩, fun a => ⟨fun m₁ q₁ htr hnew => ?_, fun hev => ?_⟩⟩
  · exact hqueue.enqueue_free hreached.owners hmem' htr hnew
  · exact hqueue.evicts hpos' hev

/-- **With room on the swap file, `fifo` runs every trace to the end.** -/
theorem fifo_runs (trace : List Access) {memsize swapsize : Nat} (physmem swapfile : Memory)
    {b : Bitmap} (hswap : swapsize < 2 ^ 32) (hb : bitmapCreate swapsize = .ok b)
    (hpos : 1 ≤ memsize) (hmem : memsize < 2 ^ 19) (hvaddr : ∀ a ∈ trace, a.vaddr < 2 ^ 36)
    (hslots : (pagesOf trace).card ≤ b.slots.card) :
    ∃ m q, replay fifoPolicy trace (boot memsize physmem swapfile b) (fifoInit memsize)
      = .ok (m, q) := by
  refine (replay_answered (I := fun m q => ∃ past, FifoReached memsize past m q) physmem swapfile
    hswap hb hmem hvaddr hslots ⟨[], .boot hpos physmem swapfile b⟩ ?_ ?_).2
  · rintro a m q ⟨past, h⟩
    obtain ⟨frames, hqueue⟩ := h.queue
    exact hqueue.answers h.owners (h.memsize.symm ▸ hpos) (h.memsize.symm ▸ hmem) a
  · rintro a m q m' q' ⟨past, h⟩ hrun
    exact ⟨_, h.step hmem hrun⟩

/-- Seven references to six pages in five frames, two of which evict. -/
theorem fifo_evicts_first_loaded_example :
    ∃ m q, replay fifoPolicy returnTrace (boot 5 (fun _ => 0) (fun _ => 0) ⟨64, fun _ => 0#32⟩)
        (fifoInit 5) = .ok (m, q) ∧
      (∃ frames, FifoQueue (history fifoPolicy returnTrace
        (boot 5 (fun _ => 0) (fun _ => 0) ⟨64, fun _ => 0#32⟩) (fifoInit 5)) m q frames) ∧
      (Evicts ⟨'L', 0x2000⟩ m → ∃ v, FirstLoadedVictim (history fifoPolicy returnTrace
        (boot 5 (fun _ => 0) (fun _ => 0) ⟨64, fun _ => 0#32⟩) (fifoInit 5))
        (missState 0x2000 m) q v) := by
  have hb : bitmapCreate 64 = .ok ⟨64, fun _ => 0#32⟩ := rfl
  have hslots : (pagesOf returnTrace).card ≤ (Bitmap.slots ⟨64, fun _ => 0#32⟩).card := by
    rw [slots_of_bitmapCreate (by decide) hb]
    decide
  obtain ⟨m, q, hrun⟩ := fifo_runs returnTrace (fun _ => 0) (fun _ => 0) (by decide) hb
    (by decide : 1 ≤ 5) (by decide) (by decide) hslots
  obtain ⟨hqueue, hnext⟩ :=
    fifo_evicts_first_loaded returnTrace 5 _ _ _ (by decide) (by decide) m q hrun
  exact ⟨m, q, hrun, hqueue, (hnext ⟨'L', 0x2000⟩).2⟩

end Paging
end OsAssignments
