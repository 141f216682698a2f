import OsAssignments.Lib.RingQueue
import OsAssignments.Paging.History

/-!
# The queue of `fifo`

* `Queue`, `enqueue`, `dequeue`, `contains`, `fifoPolicy` — `fifo.c`.
* `Queue.Lists` — the frames a queue holds, in order; `enqueue_ok`, `dequeue_ok`, `contains_iff` —
  the functions on it.
* `FifoFrames` — the frames in use, in the order in which their pages were loaded;
  `FifoFrames.hit`, `FifoFrames.miss` — the order after an access.
-/

namespace OsAssignments
namespace Paging

open MachineWord ByteMemory RingQueue

/-! ## The circular queue -/

/-- `EMPTY_QUEUE_SLOT`. -/
def emptyQueueSlot : Int := -1

/-- `Queue`. -/
structure Queue where
  size : Nat
  front : Nat
  back : Nat
  contents : Nat → Int

/-- `makeQueue`. -/
def makeQueue (size : Nat) : Queue := ⟨size, 0, 0, fun _ => emptyQueueSlot⟩

/-- `enqueue`. -/
def enqueue (q : Queue) (value : Int) : Except Fault Queue :=
  if q.back < q.size then
    .ok { q with
      contents := Function.update q.contents q.back value, back := (q.back + 1) % q.size }
  else .error .outOfBounds

/-- `dequeue`. -/
def dequeue (q : Queue) : Except Fault (Int × Queue) :=
  if q.front < q.size then
    let ret := q.contents q.front
    if ret ≠ emptyQueueSlot then
      .ok (ret, { q with
        contents := Function.update q.contents q.front emptyQueueSlot,
        front := (q.front + 1) % q.size })
    else .ok (ret, q)
  else .error .outOfBounds

/-- `contains`. -/
def contains (q : Queue) (value : Int) : Bool :=
  (List.range q.size).any fun i => q.contents i == value

/-! ## The policy -/

/-- `fifo_evict`. -/
def fifoEvict (m : Machine) (q : Queue) : Except Fault (Int × Machine × Queue) := do
  let (ret, q) ← dequeue q
  pure (ret, m, q)

/-- `fifo_ref`. -/
def fifoRef (p : PtePtr) (m : Machine) (q : Queue) : Except Fault (Machine × Queue) := do
  let baseFrameNumber : Int := (m.pte p).frameNumber
  if contains q baseFrameNumber then pure (m, q)
  else
    let q ← enqueue q baseFrameNumber
    pure (m, q)

/-- `fifo_init`. -/
def fifoInit (memsize : Nat) : Queue := makeQueue memsize

theorem fifoEvict_eq {m m' : Machine} {q q' : Queue} {v : Int}
    (h : fifoEvict m q = .ok (v, m', q')) : m' = m ∧ dequeue q = .ok (v, q') := by
  unfold fifoEvict at h
  cases hrun : dequeue q with
  | error e =>
    rw [hrun] at h
    cases h
  | ok r =>
    rw [hrun] at h
    obtain ⟨rfl, hrest⟩ := Prod.mk.inj (Except.ok.inj h)
    obtain ⟨rfl, rfl⟩ := Prod.mk.inj hrest
    exact ⟨rfl, rfl⟩

theorem fifoRef_eq {p : PtePtr} {m m' : Machine} {q q' : Queue}
    (h : fifoRef p m q = .ok (m', q')) :
    m' = m ∧ ((contains q (m.pte p).frameNumber = true ∧ q' = q) ∨
      (contains q (m.pte p).frameNumber = false ∧ enqueue q (m.pte p).frameNumber = .ok q')) := by
  unfold fifoRef at h
  cases hin : contains q ((m.pte p).frameNumber : Int) with
  | true =>
    simp only [hin, if_true] at h
    obtain ⟨rfl, rfl⟩ := Prod.mk.inj (Except.ok.inj h)
    exact ⟨rfl, .inl ⟨rfl, rfl⟩⟩
  | false =>
    simp only [hin, Bool.false_eq_true, if_false] at h
    cases hrun : enqueue q ((m.pte p).frameNumber : Int) with
    | error e =>
      rw [hrun] at h
      cases h
    | ok q₁ =>
      rw [hrun] at h
      obtain ⟨rfl, rfl⟩ := Prod.mk.inj (Except.ok.inj h)
      exact ⟨rfl, .inr ⟨rfl, rfl⟩⟩

/-- The entry of `algs` for `fifo`. -/
def fifoPolicy : Policy Queue where
  ref := fifoRef
  evict := fifoEvict
  ref_same h := by
    obtain ⟨rfl, -⟩ := fifoRef_eq h
    exact .refl _
  evict_same h := by
    obtain ⟨rfl, -⟩ := fifoEvict_eq h
    exact .refl _

/-! ## What a queue lists -/

/-- The queue has `size` slots and holds `frames`, from `front` on. -/
structure Queue.Lists (q : Queue) (size : Nat) (frames : List Nat) : Prop where
  size_eq : q.size = size
  holds : InRing size emptyQueueSlot q.contents q.front q.back (frames.map fun f : Nat => (f : Int))

section

variable {q : Queue} {size f : Nat} {frames : List Nat}

theorem natCast_ne_emptyQueueSlot (f : Nat) : (f : Int) ≠ emptyQueueSlot := by
  unfold emptyQueueSlot
  omega

theorem lists_makeQueue (hpos : 0 < size) : (makeQueue size).Lists size [] :=
  ⟨rfl, InRing.nil hpos emptyQueueSlot⟩

/-- While not all frames are listed, the slot at the back is empty. -/
theorem Queue.Lists.empty_back (h : q.Lists size frames) (hroom : frames.length < size) :
    q.back < q.size ∧ q.contents q.back = emptyQueueSlot := by
  refine ⟨h.size_eq.symm ▸ h.holds.back_lt, h.holds.empty_back ?_⟩
  rwa [List.length_map]

theorem enqueue_ok (h : q.Lists size frames) (hroom : frames.length < size) (f : Nat) :
    ∃ q', enqueue q f = .ok q' ∧ q'.Lists size (frames ++ [f]) := by
  obtain ⟨hback, -⟩ := h.empty_back hroom
  refine ⟨_, if_pos hback, h.size_eq, ?_⟩
  rw [List.map_append, List.map_singleton]
  show InRing size emptyQueueSlot _ q.front ((q.back + 1) % q.size) _
  rw [h.size_eq]
  exact h.holds.push (by rwa [List.length_map]) (natCast_ne_emptyQueueSlot f)

theorem dequeue_ok (h : q.Lists size (f :: frames)) :
    ∃ q', dequeue q = .ok ((f : Int), q') ∧ q'.Lists size frames := by
  have hfront : q.front < q.size := h.size_eq.symm ▸ h.holds.front_lt
  have hhead : q.contents q.front = (f : Int) := h.holds.head
  have hne : q.contents q.front ≠ emptyQueueSlot := hhead ▸ natCast_ne_emptyQueueSlot f
  refine ⟨⟨q.size, (q.front + 1) % q.size, q.back,
    Function.update q.contents q.front emptyQueueSlot⟩, ?_, h.size_eq, ?_⟩
  · rw [dequeue, if_pos hfront, ← hhead]
    exact if_pos hne
  · show InRing size emptyQueueSlot _ ((q.front + 1) % q.size) q.back _
    rw [h.size_eq]
    exact h.holds.pop

theorem contains_iff (h : q.Lists size frames) (f : Nat) :
    contains q f = true ↔ f ∈ frames := by
  have hmem : (f : Int) ∈ frames.map (fun f : Nat => (f : Int)) ↔ f ∈ frames := by
    rw [List.mem_map]
    constructor
    · rintro ⟨g, hg, heq⟩
      obtain rfl := Int.ofNat_inj.mp heq
      exact hg
    · exact fun hf => ⟨f, hf, rfl⟩
  rw [← hmem, h.holds.mem_iff (natCast_ne_emptyQueueSlot f), contains, List.any_eq_true, h.size_eq]
  simp only [List.mem_range, beq_iff_eq]

end

/-! ## The frames in the order of loading -/

/-- The page in the frame `f` was loaded by the event number `t`. -/
def FrameLoadedAt (past : List Event) (m : Machine) (f t : Nat) : Prop :=
  ∃ p, (m.coremap f).pte = some p ∧ LoadedAt past p t

/-- The page in the frame `f` was loaded before the page in the frame `g`. -/
def LoadedBefore (past : List Event) (m : Machine) (f g : Nat) : Prop :=
  ∃ t u, FrameLoadedAt past m f t ∧ FrameLoadedAt past m g u ∧ t < u

/-- The frames in use, once each, in the order in which their pages were loaded. -/
structure FifoFrames (past : List Event) (m : Machine) (frames : List Nat) : Prop where
  nodup : frames.Nodup
  mem : ∀ f, f ∈ frames ↔ f < m.memsize ∧ (m.coremap f).inUse = true
  loaded : ∀ f ∈ frames, ∃ t, FrameLoadedAt past m f t
  ordered : frames.Pairwise (LoadedBefore past m)

section

variable {past : List Event} {a : Access} {m m₁ m' : Machine} {q q₁ q' : Queue} {f g t : Nat}
  {frames rest : List Nat}

theorem FifoFrames.length_le (h : FifoFrames past m frames) : frames.length ≤ m.memsize := by
  have hsub : frames ⊆ List.range m.memsize :=
    fun f hf => List.mem_range.mpr ((h.mem f).mp hf).1
  have hle := (h.nodup.subperm hsub).length_le
  rwa [List.length_range] at hle

/-- A hit, or an access to the page of another frame, leaves when the page was loaded. -/
theorem FrameLoadedAt.concat {e : Event} (h : FrameLoadedAt past m f t)
    (hpte : (m'.coremap f).pte = (m.coremap f).pte)
    (hne : e.missed = false ∨ (m.coremap f).pte ≠ some e.entry) :
    FrameLoadedAt (past ++ [e]) m' f t := by
  obtain ⟨p, hp, hloaded⟩ := h
  refine ⟨p, hpte.trans hp, hloaded.concat (hne.imp_right fun hne heq => hne ?_)⟩
  rw [hp, heq]

theorem LoadedBefore.concat {e : Event} (h : LoadedBefore past m f g)
    (hf : (m'.coremap f).pte = (m.coremap f).pte) (hg : (m'.coremap g).pte = (m.coremap g).pte)
    (hne : e.missed = false ∨
      (m.coremap f).pte ≠ some e.entry ∧ (m.coremap g).pte ≠ some e.entry) :
    LoadedBefore (past ++ [e]) m' f g := by
  obtain ⟨t, u, ht, hu, hlt⟩ := h
  exact ⟨t, u, ht.concat hf (hne.imp_right And.left), hu.concat hg (hne.imp_right And.right), hlt⟩

/-- A hit loads nothing. -/
theorem FifoFrames.hit {e : Event} (h : FifoFrames past m frames) (hmiss : e.missed = false)
    (hsize : m'.memsize = m.memsize) (hcoremap : m'.coremap = m.coremap) :
    FifoFrames (past ++ [e]) m' frames := by
  have hpte : ∀ f, (m'.coremap f).pte = (m.coremap f).pte := fun f => by rw [hcoremap]
  refine ⟨h.nodup, fun f => by rw [hsize, hcoremap]; exact h.mem f, fun f hf => ?_, ?_⟩
  · obtain ⟨t, ht⟩ := h.loaded f hf
    exact ⟨t, ht.concat (hpte f) (.inl hmiss)⟩
  · exact h.ordered.imp fun hbefore => hbefore.concat (hpte _) (hpte _) (.inl hmiss)

/-- The page that is brought in is the last one loaded. -/
theorem FifoFrames.miss {e : Event} (hmiss : e.missed = true)
    (hloaded : ∀ g ∈ rest, ∃ t, FrameLoadedAt past m g t)
    (hordered : rest.Pairwise (LoadedBefore past m)) (hnodup : rest.Nodup) (hf : f ∉ rest)
    (hmem : ∀ g, g ∈ f :: rest ↔ g < m'.memsize ∧ (m'.coremap g).inUse = true)
    (hpte : ∀ g, g ≠ f → (m'.coremap g).pte = (m.coremap g).pte)
    (hself : (m'.coremap f).pte = some e.entry)
    (hne : ∀ g ∈ rest, (m.coremap g).pte ≠ some e.entry) :
    FifoFrames (past ++ [e]) m' (rest ++ [f]) := by
  have hother : ∀ g ∈ rest, (m'.coremap g).pte = (m.coremap g).pte := by
    intro g hg
    refine hpte g ?_
    rintro rfl
    exact hf hg
  have hnew : FrameLoadedAt (past ++ [e]) m' f past.length :=
    ⟨e.entry, hself, loadedAt_concat_self hmiss⟩
  have hkept : ∀ g ∈ rest, ∃ t, FrameLoadedAt (past ++ [e]) m' g t ∧ t < past.length := by
    intro g hg
    obtain ⟨t, ht⟩ := hloaded g hg
    obtain ⟨p, -, hlast⟩ := id ht
    exact ⟨t, ht.concat (hother g hg) (.inr (hne g hg)), hlast.lt⟩
  constructor
  · rw [List.nodup_append]
    refine ⟨hnodup, List.nodup_singleton f, fun g hg f' hf' => ?_⟩
    rw [List.mem_singleton] at hf'
    rintro rfl
    exact hf (hf' ▸ hg)
  · intro g
    rw [← hmem g, List.mem_append, List.mem_singleton, List.mem_cons, or_comm]
  · intro g hg
    rcases List.mem_append.mp hg with hg | hg
    · obtain ⟨t, ht, -⟩ := hkept g hg
      exact ⟨t, ht⟩
    · rw [List.mem_singleton.mp hg]
      exact ⟨_, hnew⟩
  · rw [List.pairwise_append]
    refine ⟨?_, List.pairwise_singleton _ _, fun g hg f' hf' => ?_⟩
    · refine hordered.imp_of_mem fun hg hg' hbefore => ?_
      exact hbefore.concat (hother _ hg) (hother _ hg') (.inr ⟨hne _ hg, hne _ hg'⟩)
    · rw [List.mem_singleton.mp hf']
      obtain ⟨t, ht, hlt⟩ := hkept g hg
      exact ⟨t, past.length, ht, hnew, hlt⟩

/-- An entry that is not valid owns no frame. -/
theorem Owners.pte_ne (h : Owners m) {p : PtePtr} (hv : (m.pte p).valid = false)
    (hf : f < m.memsize) (hu : (m.coremap f).inUse = true) : (m.coremap f).pte ≠ some p := by
  intro hp
  obtain ⟨p', hp', hv', -⟩ := h.coremap_pte hf hu
  rw [hp] at hp'
  obtain rfl := Option.some.inj hp'
  rw [hv] at hv'
  cases hv'

/-- A policy, and what follows it, leave the order. -/
theorem FifoFrames.of_sameView (h : FifoFrames past m frames) (hs : m.SameView m') :
    FifoFrames past m' frames := by
  have hloaded : ∀ f t, FrameLoadedAt past m f t → FrameLoadedAt past m' f t := by
    rintro f t ⟨p, hp, hlast⟩
    exact ⟨p, (hs.owner f).trans hp, hlast⟩
  refine ⟨h.nodup, fun f => ?_, fun f hf => ?_, ?_⟩
  · rw [hs.memsize, hs.inUse]
    exact h.mem f
  · obtain ⟨t, ht⟩ := h.loaded f hf
    exact ⟨t, hloaded f t ht⟩
  · refine h.ordered.imp fun ⟨t, u, ht, hu, hlt⟩ => ?_
    exact ⟨t, u, hloaded _ t ht, hloaded _ u hu, hlt⟩

end

end Paging
end OsAssignments
