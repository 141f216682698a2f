import OsAssignments.Paging.Clock
import OsAssignments.Paging.Lru
import OsAssignments.Paging.OptVictim

/-!
# `clock` is second-chance FIFO

* `ClockQueue` — the coremap, read from the arm on, is the queue of the resident pages with their
  `PG_REF` bits; before memory is full the arm is at frame 0.
* `FrameStep.clock` — what `find_physpage` does is what the second-chance queue does.
* `clock_runs` — every trace runs to its end, as far as the swap file has room.
* `clock_is_second_chance` — the same pages are evicted at the same references, and each sweep ends
  within `memsize + 1` frames.
-/

namespace OsAssignments
namespace Paging

open MachineWord ByteMemory ExceptSpec RingQueue SecondChance

/-! ## The implicit queue -/

/-- The coremap from the arm on. -/
structure ClockQueue (m : Machine) (clockArm : Nat) (queue : List (PtePtr × Bool)) : Prop where
  holds : ∃ back, InRing m.memsize none (frameSlot m) clockArm back (queue.map some)
  start : queue.length < m.memsize → clockArm = 0

section

variable {a : Access} {m m₁ m' : Machine} {clockArm arm₁ f : Nat} {queue : List (PtePtr × Bool)}
  {p : PtePtr}

/-- The queue has the resident pages. -/
theorem ClockQueue.mem_iff (h : ClockQueue m clockArm queue) (hO : Owners m) (p : PtePtr) :
    p ∈ queue.map Prod.fst ↔ (m.pte p).valid = true := by
  obtain ⟨back, hholds⟩ := h.holds
  constructor
  · intro hp
    obtain ⟨⟨p', bit⟩, hmem, rfl⟩ := List.mem_map.mp hp
    obtain ⟨k, hk, hslot⟩ :=
      (hholds.mem_iff (x := some (p', bit)) (by simp)).mp (List.mem_map_of_mem hmem)
    obtain ⟨hu, hpte, -⟩ := frameSlot_some.mp hslot
    obtain ⟨q, hq, hv, -⟩ := hO.coremap_pte hk hu
    rw [hpte] at hq
    rwa [Option.some.inj hq]
  · intro hv
    obtain ⟨hlt, hu, hown⟩ := hO.owner p hv
    have hslot : frameSlot m (m.pte p).frameNumber = some (p, (m.pte p).referenced) :=
      frameSlot_some.mpr ⟨hu, hown, rfl⟩
    obtain ⟨x, hx, hxp⟩ := List.mem_map.mp ((hholds.mem_iff (by simp)).mpr ⟨_, hlt, hslot⟩)
    obtain rfl := Option.some.inj hxp
    exact List.mem_map.mpr ⟨_, hx, rfl⟩

/-- The frames before the first free one are in use. -/
theorem inUse_of_firstFree (h : firstFree m = some f) {j : Nat} (hj : j < f) :
    (m.coremap j).inUse = true := by
  have hfirst := (List.find?_range_eq_some.mp h).2.2 j hj
  simpa using hfirst

/-- While there is room, the first free frame is at the back. -/
theorem ClockQueue.firstFree (h : ClockQueue m clockArm queue) (hO : Owners m)
    (hroom : queue.length < m.memsize) : firstFree m = some queue.length ∧
      InRing m.memsize none (frameSlot m) 0 queue.length (queue.map some) := by
  obtain ⟨back, hholds⟩ := h.holds
  have hlen : (queue.map some).length = queue.length := List.length_map _
  rw [h.start hroom] at hholds
  obtain rfl : back = queue.length := by
    rw [hholds.back_eq, hlen, Nat.zero_add, Nat.mod_eq_of_lt hroom]
  refine ⟨?_, hholds⟩
  have hfree : (m.coremap queue.length).inUse = false :=
    (hO.frameSlot_none hroom).mp (hholds.empty_back (by rwa [hlen]))
  have hused : ∀ j, j < queue.length → (m.coremap j).inUse = true := by
    intro j hj
    have hslot := hholds.slot j (by rwa [hlen])
    rw [Nat.zero_add, Nat.mod_eq_of_lt (by omega)] at hslot
    by_contra hnot
    have hnone := (hO.frameSlot_none (by omega)).mpr (Bool.not_eq_true _ ▸ hnot)
    rw [hnone] at hslot
    exact hholds.item (List.mem_of_getElem? hslot)
  cases hfirst : Paging.firstFree m with
  | none =>
    rw [full_of_firstFree hfirst _ hroom] at hfree
    cases hfree
  | some f =>
    obtain ⟨hf, hu⟩ := firstFree_some hfirst
    rcases Nat.lt_trichotomy f queue.length with hlt | rfl | hgt
    · rw [hused f hlt] at hu
      cases hu
    · rfl
    · rw [inUse_of_firstFree hfirst hgt] at hfree
      cases hfree

/-- Without room, memory is full. -/
theorem ClockQueue.round (h : ClockQueue m clockArm queue) (hO : Owners m)
    (hfull : ¬ queue.length < m.memsize) :
    Paging.firstFree m = none ∧ ClockRound m clockArm queue := by
  obtain ⟨back, hholds⟩ := h.holds
  have hlen : (queue.map some).length = queue.length := List.length_map _
  have hle := hholds.length_le
  rw [hlen] at hle
  have hsize : queue.length = m.memsize := by omega
  have hback : back = clockArm := by
    rw [hholds.back_eq, hlen, hsize, Nat.add_mod_right, Nat.mod_eq_of_lt hholds.front_lt]
  subst hback
  refine ⟨?_, hholds, hsize⟩
  cases hfirst : Paging.firstFree m with
  | none => rfl
  | some f =>
    obtain ⟨hf, hu⟩ := firstFree_some hfirst
    obtain ⟨i, hi, rfl⟩ := exists_position hholds.front_lt hf
    have hslot := hholds.slot i (by omega)
    rw [(hO.frameSlot_none hf).mpr hu] at hslot
    exact absurd (List.mem_of_getElem? hslot) hholds.item

/-! ## One access -/

/-- A state with the same frames and bits has the same queue. -/
theorem ClockQueue.congr (h : ClockQueue m clockArm queue) (hsize : m'.memsize = m.memsize)
    (hslots : ∀ f, f < m.memsize → frameSlot m' f = frameSlot m f) :
    ClockQueue m' clockArm queue := by
  obtain ⟨back, hholds⟩ := h.holds
  refine ⟨⟨back, ?_⟩, hsize.symm ▸ h.start⟩
  rw [hsize]
  exact hholds.congr hslots

/-- **A hit** sets the bit of its page. -/
theorem ClockQueue.hit (h : ClockQueue m clockArm queue) (ht : Touched a m m') :
    ClockQueue m' clockArm (queue.map (mark (ptrOf a.vaddr))) := by
  obtain ⟨back, hholds⟩ := h.holds
  have hslots : ∀ f, frameSlot m' f = (frameSlot m f).map (mark (ptrOf a.vaddr)) := by
    intro f
    unfold frameSlot
    rw [ht.coremap]
    cases (m.coremap f).inUse with
    | false => rfl
    | true =>
      cases (m.coremap f).pte with
      | none => rfl
      | some p =>
        show some (p, (m'.pte p).referenced) = some (mark _ (p, (m.pte p).referenced))
        unfold mark
        by_cases hp : p = ptrOf a.vaddr
        · rw [if_pos hp, hp, ht.referenced]
        · rw [if_neg hp, ht.others p hp]
  have hmap := hholds.map (g := Option.map (mark (ptrOf a.vaddr))) rfl fun x hx => by
    obtain ⟨y, -, rfl⟩ := List.mem_map.mp hx
    simp
  refine ⟨⟨back, ?_⟩, fun hroom => h.start ?_⟩
  · rw [ht.memsize, List.map_map]
    rw [List.map_map] at hmap
    exact hmap.congr fun f _ => hslots f
  · rwa [List.length_map, ht.memsize] at hroom

/-- The page that is brought in holds its frame, with its bit set; the others are as they were. -/
theorem Placed.frameSlot (h : Placed a f m m') (hbut : OwnersBut f m)
    (hv : (m.pte (ptrOf a.vaddr)).valid = false) {g : Nat} (hg : g < m.memsize) :
    frameSlot m' g = Function.update (frameSlot m) f (some (ptrOf a.vaddr, true)) g := by
  by_cases hgf : g = f
  · rw [hgf, Function.update_self, frameSlot_some, h.coremap_self]
    exact ⟨rfl, rfl, h.referenced⟩
  · have hrow := h.coremap_of_ne hgf
    rw [Function.update_of_ne hgf]
    refine frameSlot_congr (by rw [hrow]) (by rw [hrow]) fun p hu hp => ?_
    have hpa : p ≠ ptrOf a.vaddr := by
      rintro rfl
      obtain ⟨q, hq, hqg⟩ := hbut.held g hgf hg hu
      obtain ⟨-, -, -, hown⟩ := hbut.owner q hq
      rw [hqg, hp] at hown
      rw [Option.some.inj hown, hq] at hv
      cases hv
    rw [h.others p hpa]

/-- A policy or the counters that are raised first leave what the frames hold. -/
theorem frameSlot_of_pte {m m' : Machine} (hcoremap : m'.coremap = m.coremap)
    (hpte : ∀ p, m'.pte p = m.pte p) (f : Nat) : Paging.frameSlot m' f = Paging.frameSlot m f := by
  unfold Paging.frameSlot
  rw [hcoremap]
  simp only [hpte]

/-- **A miss while there is room** puts its page at the tail. -/
theorem ClockQueue.fill (h : ClockQueue m clockArm queue) (hO : Owners m)
    (hfree : Paging.firstFree m = some f) (hp : Placed a f m m')
    (hv : (m.pte (ptrOf a.vaddr)).valid = false) :
    queue.length < m.memsize ∧ ClockQueue m' clockArm (queue ++ [(ptrOf a.vaddr, true)]) := by
  have hroom : queue.length < m.memsize := by
    by_contra hfull
    rw [(h.round hO hfull).1] at hfree
    cases hfree
  obtain ⟨hfirst, hholds⟩ := h.firstFree hO hroom
  obtain rfl : f = queue.length := Option.some.inj (hfree.symm.trans hfirst)
  have hlen : (queue.map some).length = queue.length := List.length_map _
  have hbut := hO.free (firstFree_some hfree).2
  refine ⟨hroom, ⟨(queue.length + 1) % m.memsize, ?_⟩, fun hless => ?_⟩
  · rw [hp.memsize, h.start hroom, List.map_append]
    exact (hholds.push (by rwa [hlen]) (by simp)).congr fun g hg => hp.frameSlot hbut hv hg
  · exact h.start hroom

/-- **A miss in full memory** puts its page where the victim was, which is the tail once the arm has
moved on. -/
theorem ClockRound.evict {me : Machine} {v : PtePtr} {bit : Bool} {rest : List (PtePtr × Bool)}
    (h : ClockRound m f ((v, bit) :: rest)) (hO : Owners m) (hvac : Vacated v m me)
    (hp : Placed a f me m') (hv : (m.pte (ptrOf a.vaddr)).valid = false) :
    ClockQueue m' ((f + 1) % m.memsize) (rest ++ [(ptrOf a.vaddr, true)]) := by
  obtain ⟨hf, hslot⟩ := h.head
  obtain ⟨hu, hpte, -⟩ := frameSlot_some.mp hslot
  have hbut := hvac.ownersBut hO hf hu hpte
  have hve : (me.pte (ptrOf a.vaddr)).valid = false := by
    by_cases hpv : ptrOf a.vaddr = v
    · rw [hpv]
      exact hvac.valid
    · rw [hvac.others _ hpv, hv]
  have hslots : ∀ g, g < m.memsize →
      Paging.frameSlot m' g
        = Function.update (Paging.frameSlot m) f (some (ptrOf a.vaddr, true)) g := by
    intro g hg
    rw [hp.frameSlot hbut hve (hvac.memsize.symm ▸ hg)]
    by_cases hgf : g = f
    · rw [hgf, Function.update_self, Function.update_self]
    · rw [Function.update_of_ne hgf, Function.update_of_ne hgf]
      refine frameSlot_congr (by rw [hvac.coremap]) (by rw [hvac.coremap]) fun p hup hpp => ?_
      rw [hvac.others p (hO.ne_of_ne hg hf hup hu hpp hpte hgf)]
  have hsize : m'.memsize = m.memsize := hp.memsize.trans hvac.memsize
  have hfull : rest.length + 1 = m.memsize := h.full
  have hrotate := h.holds.rotate (y := some (ptrOf a.vaddr, true))
    (by rw [List.length_map]; exact hfull) (by simp)
  refine ⟨⟨(f + 1) % m.memsize, ?_⟩, fun hroom => ?_⟩
  · rw [hsize, List.map_append]
    exact hrotate.congr hslots
  · rw [hsize, List.length_append, List.length_singleton, hfull] at hroom
    exact absurd hroom (lt_irrefl _)

/-- **What `find_physpage` does is what the second-chance queue does.** -/
theorem FrameStep.clock (hstep : FrameStep clockPolicy a m clockArm m₁ arm₁) (hO : Owners m)
    (hQ : ClockQueue m clockArm queue) :
    ClockQueue m₁ arm₁ (serve m.memsize queue (ptrOf a.vaddr)).1 ∧
      (eventOf clockPolicy a m clockArm).evicted.map Prod.fst
        = (serve m.memsize queue (ptrOf a.vaddr)).2 := by
  have hmem := hQ.mem_iff hO (ptrOf a.vaddr)
  have hview := sameView_missState a.vaddr m
  have hO' := hO.of_sameView hview
  have hQ' : ClockQueue (missState a.vaddr m) clockArm queue := hQ.congr hview.memsize fun f _ =>
    frameSlot_of_pte (missState_coremap a.vaddr m) (missState_pte a.vaddr m) f
  cases hstep with
  | hit hv htouched hs =>
    subst hs
    have hQh : ClockQueue (hitState a.vaddr m) arm₁ queue :=
      hQ.congr (sameView_hitState a.vaddr m).memsize fun f _ =>
        frameSlot_of_pte (by rw [hitState, openDirectory_eq]) (hitState_pte a.vaddr m) f
    rw [serve, if_pos (hmem.mpr hv), (eventOf_hit hv).2]
    exact ⟨hQh.hit htouched, rfl⟩
  | @fill f hv hfree hplaced hs =>
    subst hs
    have hnot : ptrOf a.vaddr ∉ queue.map Prod.fst := by
      rw [hmem, hv]
      exact Bool.false_ne_true
    obtain ⟨hroom, hQ₁⟩ := hQ'.fill hO' ((firstFree_missState a.vaddr m).trans hfree) hplaced
      (by rw [missState_pte, hv])
    rw [hview.memsize] at hroom
    rw [serve, if_neg hnot, if_pos hroom, eventOf_fill hfree]
    exact ⟨hQ₁, rfl⟩
  | @evict f q mp me hv hfree hevict hf hq hvacated hplaced =>
    have hnot : ptrOf a.vaddr ∉ queue.map Prod.fst := by
      rw [hmem, hv]
      exact Bool.false_ne_true
    have hfull : ¬ queue.length < m.memsize := by
      intro hroom
      rw [(hQ.firstFree hO hroom).1] at hfree
      cases hfree
    have hround := (hQ'.round hO' (by rwa [hview.memsize])).2
    obtain ⟨v, rest, m₂, f₂, hfound, hrun, hview₂, hround₂⟩ := clockEvict_ok hO' hround
    obtain ⟨hff, hrest⟩ := Prod.mk.inj (Except.ok.inj (hrun.symm.trans hevict))
    obtain ⟨rfl, rfl⟩ := Prod.mk.inj hrest
    obtain rfl := Int.ofNat_inj.mp hff
    have hqv : q = v := by
      obtain ⟨-, hpte, -⟩ := frameSlot_some.mp hround₂.head.2
      rw [hview₂.owner, hview.owner, hq] at hpte
      exact Option.some.inj hpte
    subst hqv
    rw [serve, if_neg hnot, if_neg hfull, hfound, eventOf_evict hv hfree hevict hf hq,
      ← hview₂.memsize]
    refine ⟨hround₂.evict (hO'.of_sameView hview₂) hvacated hplaced ?_, rfl⟩
    rw [(hview₂.pte _).valid, missState_pte, hv]

end

/-! ## Runs -/

/-- A state of a run under `clock`: the queue, and what was evicted, are those of the second-chance
algorithm. -/
structure ClockReached (memsize : Nat) (past : List Event) (m : Machine) (clockArm : Nat) :
    Prop where
  owners : Owners m
  size : m.memsize = memsize
  queue : ClockQueue m clockArm (queueAfter memsize [] (past.map Event.entry))
  evicted : (past.map fun e => e.evicted.map Prod.fst) =
    evictions memsize [] (past.map Event.entry)

section

variable {memsize : Nat} {past : List Event} {a : Access} {m m' : Machine} {clockArm arm' : Nat}

theorem ClockReached.boot (hpos : 1 ≤ memsize) (physmem swapfile : Memory) (b : Bitmap) :
    ClockReached memsize [] (boot memsize physmem swapfile b) clockInit where
  owners := Owners.boot memsize physmem swapfile b
  size := rfl
  queue := ⟨⟨0, (InRing.nil hpos none).congr fun _ _ => rfl⟩, fun _ => rfl⟩
  evicted := rfl

theorem ClockReached.step (h : ClockReached memsize past m clockArm) (hmem : memsize < 2 ^ 19)
    (hrun : accessStep clockPolicy a m clockArm = .ok (m', arm')) :
    ClockReached memsize (past ++ [eventOf clockPolicy a m clockArm]) m' arm' := by
  obtain ⟨m₁, arm₁, mr, htr, href, hview, hrest⟩ := accessStep_inv hrun
  have hcoremap : m'.coremap = mr.coremap := by rw [hrest]
  have hpgdir : m'.pgdir = mr.pgdir := by rw [hrest]
  obtain ⟨rfl, rfl⟩ := Prod.mk.inj (Except.ok.inj href)
  have hstep : FrameStep clockPolicy a m clockArm m₁ arm₁ :=
    (translate_frameStep h.owners (h.size ▸ hmem.le)).of_ok _ htr
  obtain ⟨hQ, hevicted⟩ := hstep.clock h.owners h.queue
  rw [h.size] at hQ hevicted
  have hentries : (past ++ [eventOf clockPolicy a m clockArm]).map Event.entry =
      past.map Event.entry ++ [ptrOf a.vaddr] := List.map_append
  constructor
  · exact (hstep.owners h.owners).of_sameView hview
  · exact hview.memsize.trans (hstep.memsize.trans h.size)
  · rw [hentries, queueAfter_concat]
    exact hQ.congr hview.memsize fun f _ =>
      frameSlot_of_pte hcoremap (fun p => by rw [Machine.pte, hpgdir]; rfl) f
  · rw [hentries, evictions_concat, ← h.evicted, ← hevicted, List.map_append]
    rfl

/-- In full memory, the queue is a round of the coremap. -/
theorem ClockReached.round (h : ClockReached memsize past m clockArm) {vaddr : Nat}
    (hfull : (missState vaddr m).Full) :
    ClockRound (missState vaddr m) clockArm (queueAfter memsize [] (past.map Event.entry)) := by
  have hview := sameView_missState vaddr m
  have hQ' := h.queue.congr hview.memsize fun f _ =>
    frameSlot_of_pte (missState_coremap vaddr m) (missState_pte vaddr m) f
  refine (hQ'.round (h.owners.of_sameView hview) fun hroom => ?_).2
  obtain ⟨hf, hfree⟩ := firstFree_some (hQ'.firstFree (h.owners.of_sameView hview) hroom).1
  rw [hfull _ hf] at hfree
  cases hfree

/-- At an eviction the sweep ends. -/
theorem ClockReached.sweep_ends (h : ClockReached memsize past m clockArm) (hev : Evicts a m) :
    ∃ m' arm', ∀ n, memsize + 1 ≤ n →
      clockSweep n (missState a.vaddr m) clockArm = .ok (some (m', arm')) := by
  have hview := sameView_missState a.vaddr m
  obtain ⟨-, -, m', arm', -, hends, -, -⟩ :=
    clockSweep_ends (h.owners.of_sameView hview) (h.round (full_of_firstFree hev.2))
  rw [hview.memsize, h.size] at hends
  exact ⟨m', arm', hends⟩

/-- **`clock` always answers.** -/
theorem ClockReached.answers (h : ClockReached memsize past m clockArm) (a : Access) :
    clockPolicy.Answers a m clockArm where
  evict _ hfull := by
    have hview := sameView_missState a.vaddr m
    obtain ⟨v, rest, m₂, f, -, hrun, hview₂, hround₂⟩ :=
      clockEvict_ok (h.owners.of_sameView hview) (h.round hfull)
    have hf : f < (missState a.vaddr m).memsize := hview₂.memsize ▸ hround₂.head.1
    exact ⟨f, m₂, _, hrun, hf, hfull f hf⟩
  ref m₁ arm₁ _ := ⟨(m₁, arm₁), rfl⟩

theorem ClockReached.replay {physmem swapfile : Memory} {b : Bitmap} (hpos : 1 ≤ memsize)
    (hmem : memsize < 2 ^ 19) {past : List Access}
    (hrun : replay clockPolicy past (Paging.boot memsize physmem swapfile b) clockInit
      = .ok (m, clockArm)) :
    ClockReached memsize
      (history clockPolicy past (Paging.boot memsize physmem swapfile b) clockInit) m clockArm := by
  have hstart := ClockReached.boot hpos physmem swapfile b
  have hruns := @replay_history Nat clockPolicy m clockArm (ClockReached memsize) _ _ hstart
  exact hruns (fun past a m arm m' arm' h hstep => h.step hmem hstep) hrun

end

/-- **With room on the swap file, `clock` runs every trace to the end.** -/
theorem clock_runs (trace : List Access) {memsize swapsize : Nat} (physmem swapfile : Memory)
    {b : Bitmap} (hswap : swapsize < 2 ^ 32) (hb : bitmapCreate swapsize = .ok b)
    (hpos : 1 ≤ memsize) (hmem : memsize < 2 ^ 19) (hvaddr : ∀ a ∈ trace, a.vaddr < 2 ^ 36)
    (hslots : (pagesOf trace).card ≤ b.slots.card) :
    ∃ m clockArm, replay clockPolicy trace (boot memsize physmem swapfile b) clockInit
      = .ok (m, clockArm) := by
  refine (replay_answered (I := fun m arm => ∃ past, ClockReached memsize past m arm) physmem
    swapfile hswap hb hmem hvaddr hslots ⟨[], .boot hpos physmem swapfile b⟩ ?_ ?_).2
  · rintro a m arm ⟨past, h⟩
    exact h.answers a
  · rintro a m arm m' arm' ⟨past, h⟩ hrun
    exact ⟨_, h.step hmem hrun⟩

/-- **`clock` is second-chance FIFO.**  Every reference evicts what it evicts of the second-chance
queue, which starts empty; and each sweep of the arm ends after looking at no more than
`memsize + 1` frames. -/
theorem clock_is_second_chance (trace : List Access) (memsize swapsize : Nat)
    (physmem swapfile : Memory) (b : Bitmap) (hswap : swapsize < 2 ^ 32)
    (hb : bitmapCreate swapsize = .ok b) (hpos : 1 ≤ memsize) (hmem : memsize < 2 ^ 19)
    (hvaddr : ∀ a ∈ trace, a.vaddr < 2 ^ 36) (hslots : (pagesOf trace).card ≤ b.slots.card) :
    (∃ m clockArm, replay clockPolicy trace (boot memsize physmem swapfile b) clockInit
      = .ok (m, clockArm)) ∧
    ((history clockPolicy trace (boot memsize physmem swapfile b) clockInit).map
        fun e => e.evicted.map Prod.fst)
      = (evictions memsize [] (trace.map fun a => pageOf a.vaddr)).map (Option.map ptrOfPage) ∧
    ∀ past a, past ++ [a] <+: trace → ∀ m clockArm,
      replay clockPolicy past (boot memsize physmem swapfile b) clockInit = .ok (m, clockArm) →
      Evicts a m → ∃ m' arm', ∀ n, memsize + 1 ≤ n →
        clockSweep n (missState a.vaddr m) clockArm = .ok (some (m', arm')) := by
  obtain ⟨m, clockArm, hrun⟩ := clock_runs trace physmem swapfile hswap hb hpos hmem hvaddr hslots
  refine ⟨⟨m, clockArm, hrun⟩, ?_, fun past a _ m' arm' hrun' hev => ?_⟩
  · have hpages : (trace.map fun a => ptrOf a.vaddr) =
        (trace.map fun a => pageOf a.vaddr).map ptrOfPage := by
      rw [List.map_map]
      exact List.map_congr_left fun a _ => ptrOf_eq a.vaddr
    rw [(ClockReached.replay hpos hmem hrun).evicted, history_entries trace hrun, hpages]
    exact evictions_rename ptrOfPage_injective memsize [] _
  · exact (ClockReached.replay hpos hmem hrun').sweep_ends hev

theorem clock_is_second_chance_example :
    (∃ m clockArm, replay clockPolicy beladyTrace
        (boot 3 (fun _ => 0) (fun _ => 0) ⟨64, fun _ => 0#32⟩) clockInit = .ok (m, clockArm)) ∧
      ((history clockPolicy beladyTrace (boot 3 (fun _ => 0) (fun _ => 0) ⟨64, fun _ => 0#32⟩)
        clockInit).map fun e => e.evicted.map Prod.fst)
      = [none, none, none, some (ptrOfPage 1), some (ptrOfPage 2), some (ptrOfPage 3),
        some (ptrOfPage 4), none, none, some (ptrOfPage 1), some (ptrOfPage 2), none] := by
  have hb : bitmapCreate 64 = .ok ⟨64, fun _ => 0#32⟩ := rfl
  have hslots : (pagesOf beladyTrace).card ≤ (Bitmap.slots ⟨64, fun _ => 0#32⟩).card := by
    rw [slots_of_bitmapCreate (by decide) hb]
    decide
  obtain ⟨hrun, hevicted, -⟩ := clock_is_second_chance beladyTrace 3 64 (fun _ => 0) (fun _ => 0) _
    (by decide) hb (by decide) (by decide) (by decide) hslots
  refine ⟨hrun, hevicted.trans ?_⟩
  decide

end Paging
end OsAssignments
