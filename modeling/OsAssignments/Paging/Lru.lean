import OsAssignments.Lib.RecencyStack
import OsAssignments.Paging.Counters
import OsAssignments.Paging.Demand
import OsAssignments.Paging.Owners

/-!
# The `lru` policy has no Belady anomaly

* `lruPolicy` — `lru_evict` and `lru_ref` over the globals of `lru.c`.
* `lruEvictFrom_ok` — the victim's frame has the smallest time stamp.
* `LruInv` — the stamp of a frame is the time its page was last referenced, which is where
  the page is in the recency stack of the references so far.
* `replay_lru` — a run under `lru` holds the pages at the top of that stack.
* `lru_no_belady_anomaly` — with more frames, `lru` holds the same pages and more.
-/

namespace OsAssignments
namespace Paging

open MachineWord ByteMemory RecencyStack

/-! ## The policy -/

/-- The globals of `lru.c`. -/
structure LruState where
  timestampList : Nat → Nat
  timestamp : Nat

/-- `lru_init`. -/
def lruInit : LruState := ⟨fun _ => 0, 0⟩

/-- `get_timestamp`. -/
def getTimestamp (p : PtePtr) (m : Machine) (s : LruState) : Except Fault Nat :=
  if (m.pte p).frameNumber < m.memsize then .ok (s.timestampList (m.pte p).frameNumber)
  else .error .outOfBounds

/-- `set_timestamp`. -/
def setTimestamp (p : PtePtr) (m : Machine) (s : LruState) : Except Fault LruState :=
  if (m.pte p).frameNumber < m.memsize then
    .ok ⟨Function.update s.timestampList (m.pte p).frameNumber s.timestamp,
      wrap 32 (s.timestamp + 1 : Nat)⟩
  else .error .outOfBounds

/-- The loop of `lru_evict`, with `n` frames left to look at. -/
def lruEvictFrom (m : Machine) (s : LruState) : Nat → Nat → Nat → Except Fault Nat
  | 0, _, oldest => .ok oldest
  | n + 1, i, oldest => do
    let cur ← framePte m i
    let old ← framePte m oldest
    let curTime ← getTimestamp cur m s
    let oldTime ← getTimestamp old m s
    if curTime < oldTime then lruEvictFrom m s n (i + 1) i
    else lruEvictFrom m s n (i + 1) oldest

/-- `lru_evict`. -/
def lruEvict (m : Machine) (s : LruState) : Except Fault (Int × Machine × LruState) := do
  let oldest ← lruEvictFrom m s m.memsize 0 0
  let p ← framePte m oldest
  pure (((m.pte p).frameNumber : Int), m, s)

/-- `lru_ref`. -/
def lruRef (p : PtePtr) (m : Machine) (s : LruState) : Except Fault (Machine × LruState) := do
  let s ← setTimestamp p m s
  pure (m, s)

theorem lruRef_ok {p : PtePtr} {m : Machine} (s : LruState)
    (h : (m.pte p).frameNumber < m.memsize) :
    lruRef p m s = .ok (m, ⟨Function.update s.timestampList (m.pte p).frameNumber s.timestamp,
      wrap 32 (s.timestamp + 1 : Nat)⟩) := by
  rw [lruRef, setTimestamp, if_pos h]
  rfl

theorem lruRef_eq {p : PtePtr} {m m' : Machine} {s s' : LruState}
    (h : lruRef p m s = .ok (m', s')) : m' = m := by
  unfold lruRef setTimestamp at h
  split at h <;> cases h
  rfl

theorem lruEvict_eq {m m' : Machine} {s s' : LruState} {v : Int}
    (h : lruEvict m s = .ok (v, m', s')) : m' = m ∧ s' = s := by
  unfold lruEvict at h
  cases hloop : lruEvictFrom m s m.memsize 0 0 with
  | error e => rw [hloop] at h; cases h
  | ok oldest =>
    rw [hloop] at h
    cases hp : framePte m oldest with
    | error e => simp [bind, Except.bind, hp] at h
    | ok p =>
      simp only [bind, Except.bind, hp, pure, Except.pure, Except.ok.injEq, Prod.mk.injEq] at h
      exact ⟨h.2.1.symm, h.2.2.symm⟩

/-- The entry of `algs` for `lru`. -/
def lruPolicy : Policy LruState where
  ref := lruRef
  evict := lruEvict
  ref_same h := by
    obtain rfl := lruRef_eq h
    exact .refl _
  evict_same h := by
    obtain ⟨rfl, -⟩ := lruEvict_eq h
    exact .refl _

/-! ## The victim -/

section

variable {n : Nat} {T : Finset PtePtr} {m : Machine} {s : LruState}

/-- In full memory, every frame has a stamp. -/
theorem Owners.getTimestamp_ok (h : Owners m) (hfull : m.Full) (s : LruState) {i : Nat}
    (hi : i < m.memsize) :
    ∃ p, framePte m i = .ok p ∧ (m.pte p).frameNumber = i ∧
      getTimestamp p m s = .ok (s.timestampList i) := by
  obtain ⟨q, hq, -, -, hfn⟩ := h.framePte_ok hfull hi
  refine ⟨q, hq, hfn, ?_⟩
  rw [getTimestamp, hfn, if_pos hi]

/-- The loop of `lru_evict`: `oldest` has the smallest stamp of the frames before `i`. -/
theorem lruEvictFrom_ok (h : Owners m) (hfull : m.Full) (s : LruState) (k : Nat) :
    ∀ i oldest : Nat, i + k = m.memsize → oldest < m.memsize →
      (∀ j, j < i → s.timestampList oldest ≤ s.timestampList j) →
      ∃ v, lruEvictFrom m s k i oldest = .ok v ∧ v < m.memsize ∧
        ∀ j, j < m.memsize → s.timestampList v ≤ s.timestampList j := by
  induction k with
  | zero =>
    intro i oldest hi hold hbelow
    exact ⟨oldest, rfl, hold, fun j hj => hbelow j (by omega)⟩
  | succ k ih =>
    intro i oldest hi hold hbelow
    obtain ⟨p, hp, -, htp⟩ := h.getTimestamp_ok hfull s (show i < m.memsize by omega)
    obtain ⟨q, hq, -, htq⟩ := h.getTimestamp_ok hfull s hold
    have hrun : lruEvictFrom m s (k + 1) i oldest =
        if s.timestampList i < s.timestampList oldest then lruEvictFrom m s k (i + 1) i
        else lruEvictFrom m s k (i + 1) oldest := by
      rw [lruEvictFrom, bind_of_ok hp, bind_of_ok hq, bind_of_ok htp, bind_of_ok htq]
    rw [hrun]
    split
    · rename_i hlt
      refine ih (i + 1) i (by omega) (by omega) fun j hj => ?_
      rcases Nat.lt_or_eq_of_le (Nat.le_of_lt_succ hj) with hj | rfl
      · exact hlt.le.trans (hbelow j hj)
      · exact le_refl _
    · rename_i hge
      refine ih (i + 1) oldest (by omega) hold fun j hj => ?_
      rcases Nat.lt_or_eq_of_le (Nat.le_of_lt_succ hj) with hj | rfl
      · exact hbelow j hj
      · exact not_lt.mp hge

theorem lruEvict_ok (h : Owners m) (hfull : m.Full) (hpos : 0 < m.memsize)
    (s : LruState) :
    ∃ v : Nat, lruEvict m s = .ok ((v : Int), m, s) ∧ v < m.memsize ∧
      ∀ j, j < m.memsize → s.timestampList v ≤ s.timestampList j := by
  obtain ⟨v, hrun, hv, hbest⟩ :=
    lruEvictFrom_ok h hfull s m.memsize 0 0 (by omega) hpos (fun j hj => absurd hj (by omega))
  obtain ⟨p, hp, hfn, -⟩ := h.getTimestamp_ok hfull s hv
  refine ⟨v, ?_, hv, hbest⟩
  rw [lruEvict, bind_of_ok hrun, bind_of_ok hp, hfn]
  rfl

/-- **`lru` always answers.** -/
theorem Residency.lru_answers (hR : Residency n T m) (hn : T.card ≤ n) (hT24 : T.card ≤ 2 ^ 24)
    {a : Access} (hp : ptrOf a.vaddr ∈ T) (hvaddr : a.vaddr < 2 ^ 36) (hmem : m.memsize ≤ 2 ^ 19)
    (hpos : 0 < m.memsize) (s : LruState) : lruPolicy.Answers a m s := by
  have hpicks : ((missState a.vaddr m).pte (ptrOf a.vaddr)).valid = false →
      (missState a.vaddr m).Full → lruPolicy.PicksInUse (missState a.vaddr m) s := by
    intro _ hfull
    have hview := sameView_missState a.vaddr m
    obtain ⟨v, hrun, hv, -⟩ :=
      lruEvict_ok (hR.of_sameView hview).owners hfull (hview.memsize.symm ▸ hpos) s
    exact ⟨v, _, s, hrun, hv, hfull v hv⟩
  refine ⟨hpicks, fun m₁ s₁ htr => ?_⟩
  obtain ⟨ht, hR₁⟩ := hR.translated_of_run hn hT24 hp hvaddr hmem hpicks htr
  exact ⟨_, lruRef_ok s₁ (hR₁.owner _ ht.valid).1⟩

end

/-! ## The invariant of a run -/

/-- The stamp of a frame is the time its page was last referenced. -/
structure LruInv (time : Nat → Nat) (now : Nat) (m : Machine) (s : LruState) : Prop where
  timestamp : s.timestamp = now
  stamp : ∀ f page, f < m.memsize → (m.coremap f).inUse = true →
    (m.coremap f).pte = some (ptrOfPage page) → s.timestampList f = time page

section

variable {n : Nat} {T : Finset PtePtr} {S : Finset Nat} {time : Nat → Nat} {now : Nat}
  {stack : List Nat} {a : Access} {m m₁ m₂ m' : Machine} {s s₁ s₂ : LruState}

/-- Up to the call of `lru_ref`, an access leaves the globals of `lru.c` and all frames but
that of its page. -/
theorem DemandStep.lru_frame (h : DemandStep lruPolicy a m s S m₁ s₁) :
    s₁ = s ∧ ∀ g, g ≠ (m₁.pte (ptrOf a.vaddr)).frameNumber → m₁.coremap g = m.coremap g :=
  h.frame lruEvict_eq

/-- **`lru_ref`** stamps the frame of its page with the present time. -/
theorem LruInv.ref (h : LruInv time now m s) (hnow : now + 1 < 2 ^ 32) (hO : Owners m₁)
    (hsize : m₁.memsize = m.memsize) (hv : (m₁.pte (ptrOf a.vaddr)).valid = true)
    (hother : ∀ g, g ≠ (m₁.pte (ptrOf a.vaddr)).frameNumber → m₁.coremap g = m.coremap g)
    (href : lruRef (ptrOf a.vaddr) m₁ s = .ok (m₂, s₂)) :
    LruInv (Function.update time (pageOf a.vaddr) now) (now + 1) m₂ s₂ := by
  obtain ⟨hlt, -, howner⟩ := hO.owner _ hv
  rw [lruRef_ok s hlt] at href
  obtain ⟨rfl, rfl⟩ := Prod.mk.inj (Except.ok.inj href)
  refine ⟨?_, fun f page hf hu hq => ?_⟩
  · rw [← h.timestamp] at hnow ⊢
    exact wrap_of_lt hnow
  · dsimp only
    by_cases hfp : f = (m₁.pte (ptrOf a.vaddr)).frameNumber
    · subst hfp
      rw [howner, ptrOf_eq] at hq
      obtain rfl := ptrOfPage_injective (Option.some.inj hq)
      rw [Function.update_self, Function.update_self, h.timestamp]
    · -- the page of any other frame is another one
      have hne : page ≠ pageOf a.vaddr := by
        rintro rfl
        obtain ⟨q, hq', -, hqf⟩ := hO.coremap_pte hf hu
        rw [hq, ← ptrOf_eq] at hq'
        exact hfp (by rw [Option.some.inj hq', hqf])
      rw [hother f hfp] at hu hq
      rw [Function.update_of_ne hfp, Function.update_of_ne hne]
      exact h.stamp f page (hsize ▸ hf) hu hq

/-- The invariant speaks of the coremap alone. -/
theorem LruInv.of_coremap (h : LruInv time now m s) (hcoremap : m'.coremap = m.coremap)
    (hsize : m'.memsize = m.memsize) : LruInv time now m' s := by
  refine ⟨h.timestamp, ?_⟩
  rw [hcoremap, hsize]
  exact h.stamp

/-- The victim of `lru` is the resident page with the smallest time stamp. -/
theorem LruInv.least_recent (h : LruInv time now m s) (hO : Owners m) (hfull : m.Full) {f v : Nat}
    {mp : Machine}
    (hevict : lruEvict (missState a.vaddr m) s = .ok ((f : Int), mp, s₁)) (hf : f < m.memsize)
    (hfv : (m.coremap f).pte = some (ptrOfPage v)) :
    ∀ q, (m.pte (ptrOfPage q)).valid = true → time v ≤ time q := by
  have hview := sameView_missState a.vaddr m
  have hfull' : (missState a.vaddr m).Full := fun g hg => by
    rw [hview.inUse]
    exact hfull g (hview.memsize ▸ hg)
  obtain ⟨f', hrun, -, hbest⟩ := lruEvict_ok (hO.of_sameView hview) hfull'
    (by rw [hview.memsize]; omega) s
  obtain rfl : f' = f := by
    rw [hrun] at hevict
    have := (Prod.mk.inj (Except.ok.inj hevict)).1
    omega
  intro q hq
  obtain ⟨hg, hu, hown⟩ := hO.owner _ hq
  have hle := hbest _ (hview.memsize.symm ▸ hg)
  rwa [h.stamp f' v hf (hfull f' hf) hfv, h.stamp _ q hg hu hown] at hle

/-! ## Runs under `lru` -/

/-- The next resident set is the top of the next stack. -/
theorem DemandStep.lru_top (h : DemandStep lruPolicy a m s (top m.memsize stack) m₁ s₁)
    (hstack : Recent stack time now) (hI : LruInv time now m s) (hR : Residency n T m)
    (hS : Residents (top m.memsize stack) m) :
    Residents (top m.memsize (touch stack (pageOf a.vaddr))) m₁ := by
  cases h with
  | hit hin hS' _ _ =>
    rw [top_touch_of_mem hstack.nodup hin]
    exact hS'
  | fill hnot hlt hS' _ _ _ =>
    rw [top_touch_of_room hstack.nodup hnot hlt]
    exact hS'
  | evict hnot hfull hge hv hS' hevict hf hfv _ _ =>
    have hleast : ∀ q ∈ top m.memsize stack, _ := fun q hq =>
      hI.least_recent hR.owners hfull hevict hf hfv q ((hS q).mp hq)
    rw [hstack.top_touch_of_full hnot hge hv hleast]
    exact hS'

/-- **A run under `lru` holds the pages referenced last.** -/
theorem replay_lru {trace : List Access} (hn : T.card ≤ n) (hT24 : T.card ≤ 2 ^ 24)
    (hT : ∀ p ∈ T, ∃ page, p = ptrOfPage page) :
    (∀ a ∈ trace, ptrOf a.vaddr ∈ T ∧ a.vaddr < 2 ^ 36) →
    ∀ {m : Machine} {s : LruState} {stack : List Nat} {time : Nat → Nat} {now : Nat},
      Residency n T m → m.memsize ≤ 2 ^ 19 → 0 < m.memsize → Recent stack time now →
      Residents (top m.memsize stack) m → LruInv time now m s → now + trace.length < 2 ^ 32 →
      ∃ m' s', replay lruPolicy trace m s = .ok (m', s') ∧ Residency n T m' ∧
        Residents (top m.memsize ((trace.map fun a => pageOf a.vaddr).foldl touch stack)) m' ∧
        missesOf lruPolicy trace m s
          = misses m.memsize stack (trace.map fun a => pageOf a.vaddr) := by
  induction trace with
  | nil => intro _ m s stack time now hR _ _ _ hS _ _; exact ⟨m, s, rfl, hR, hS, rfl⟩
  | cons a trace ih =>
    intro htrace m s stack time now hR hmem hpos hstack hS hI hnow
    rw [List.length_cons] at hnow
    obtain ⟨hp, hvaddr⟩ := htrace a (List.mem_cons_self ..)
    have hans := hR.lru_answers hn hT24 hp hvaddr hmem hpos s
    obtain ⟨m₁, s₁, m₂, s₂, m', hstep, hR₁, hv₁, href, hrun, hview, hcoremap, hR', hsize⟩ :=
      hR.accessStep_demand hn hT24 hT hp hvaddr hmem hans hS
    have hS₁ := hstep.lru_top hstack hI hR hS
    obtain ⟨rfl, hother⟩ := hstep.lru_frame
    obtain rfl := lruRef_eq href
    have hsize₁ : m₂.memsize = m.memsize := by rw [← hview.memsize, hsize]
    have hI₂ := hI.ref (by omega) hR₁.owners hsize₁ hv₁ hother href
    have hI' := hI₂.of_coremap hcoremap hview.memsize
    have hS' : Residents (top m'.memsize (touch stack (pageOf a.vaddr))) m' := by
      rw [hsize]
      exact hS₁.of_sameView hview
    obtain ⟨mf, sf, hfinal, hRf, hSf, hmissf⟩ :=
      ih (fun b hb => htrace b (List.mem_cons_of_mem a hb)) hR' (hsize ▸ hmem) (hsize ▸ hpos)
        (hstack.touch (pageOf a.vaddr)) hS' hI' (by omega)
    rw [hsize] at hSf hmissf
    refine ⟨mf, sf, ?_, hRf, hSf, ?_⟩
    · simp only [replay, runWith, hrun, bind, Except.bind]
      exact hfinal
    · rw [hS.missesOf_cons trace hrun, hmissf, List.map_cons, misses, Nat.add_comm]

end

/-! ## No Belady anomaly -/

/-- From the start, with the pages of the whole trace in mind, a prefix of the trace leads to
the top of its recency stack. -/
theorem replay_lru_boot {trace pre : List Access} (hpre : pre <+: trace)
    {memsize swapsize : Nat} (physmem swapfile : Memory) {b : Bitmap}
    (hswap : swapsize < 2 ^ 32) (hb : bitmapCreate swapsize = .ok b) (hpos : 1 ≤ memsize)
    (hmem : memsize < 2 ^ 19) (hvaddr : ∀ a ∈ trace, a.vaddr < 2 ^ 36)
    (hslots : (pagesOf trace).card ≤ b.slots.card) (hlen : trace.length < 2 ^ 32) :
    ∃ m' s', replay lruPolicy pre (boot memsize physmem swapfile b) lruInit = .ok (m', s') ∧
      Residency b.slots.card (entriesOf trace) m' ∧
      Residents (top memsize ((pre.map fun a => pageOf a.vaddr).foldl touch [])) m' ∧
      missesOf lruPolicy pre (boot memsize physmem swapfile b) lruInit
        = misses memsize [] (pre.map fun a => pageOf a.vaddr) := by
  have hS : Residents (top memsize []) (boot memsize physmem swapfile b) := by
    rw [top, List.take_nil]
    exact residents_boot memsize physmem swapfile b
  have hI : LruInv (fun _ => 0) 0 (boot memsize physmem swapfile b) lruInit :=
    ⟨rfl, fun f page _ hu _ => absurd (show false = true from hu) (by decide)⟩
  have hle := hpre.length_le
  exact replay_lru ((card_entriesOf trace).le.trans hslots)
    ((card_entriesOf trace).le.trans (card_pagesOf_le hvaddr)) entriesOf_pages
    (fun a ha => ⟨ptrOf_mem_entriesOf (hpre.subset ha), hvaddr a (hpre.subset ha)⟩)
    (Residency.boot hswap hb (entriesOf trace) memsize physmem swapfile) hmem.le hpos
    (Recent.nil _ 0) hS hI (by omega)

/-- **`lru` has no Belady anomaly.**  After every prefix of the trace, the pages resident in
the smaller memory are resident in the larger one, which has missed no more often; below `2 ^ 31`
references `miss_count` says so. -/
theorem lru_no_belady_anomaly (trace : List Access) (memsize memsize' swapsize swapsize' : Nat)
    (physmem swapfile physmem' swapfile' : Memory) (b b' : Bitmap)
    (hswap : swapsize < 2 ^ 32) (hb : bitmapCreate swapsize = .ok b)
    (hswap' : swapsize' < 2 ^ 32) (hb' : bitmapCreate swapsize' = .ok b')
    (hpos : 1 ≤ memsize) (hle : memsize ≤ memsize') (hmem : memsize' < 2 ^ 19)
    (hvaddr : ∀ a ∈ trace, a.vaddr < 2 ^ 36) (hlen : trace.length < 2 ^ 32)
    (hslots : (pagesOf trace).card ≤ b.slots.card)
    (hslots' : (pagesOf trace).card ≤ b'.slots.card) :
    ∀ pre, pre <+: trace → ∃ m s m' s',
      replay lruPolicy pre (boot memsize physmem swapfile b) lruInit = .ok (m, s) ∧
      replay lruPolicy pre (boot memsize' physmem' swapfile' b') lruInit = .ok (m', s') ∧
      (∀ p, (m.pte p).valid = true → (m'.pte p).valid = true) ∧
      missesOf lruPolicy pre (boot memsize' physmem' swapfile' b') lruInit
        ≤ missesOf lruPolicy pre (boot memsize physmem swapfile b) lruInit ∧
      (pre.length < 2 ^ 31 → m'.missCount ≤ m.missCount) := by
  intro pre hpre
  obtain ⟨m, s, hrun, hR, hS, hmiss⟩ := replay_lru_boot hpre physmem swapfile hswap hb hpos
    (by omega) hvaddr hslots hlen
  obtain ⟨m', s', hrun', -, hS', hmiss'⟩ := replay_lru_boot hpre physmem' swapfile' hswap' hb'
    (by omega) hmem hvaddr hslots' hlen
  have hless : missesOf lruPolicy pre (boot memsize' physmem' swapfile' b') lruInit
      ≤ missesOf lruPolicy pre (boot memsize physmem swapfile b) lruInit := by
    rw [hmiss, hmiss']
    exact misses_antitone hle _ _
  refine ⟨m, s, m', s', hrun, hrun', fun p hp => ?_, hless, fun hshort => ?_⟩
  · obtain ⟨page, -, rfl⟩ := Finset.mem_image.mp (hR.used p (.inl hp))
    exact (hS' page).mp (top_mono hle _ ((hS page).mpr hp))
  · rw [missCount_eq_of_lt (hle.trans_lt hmem) hshort hrun, missCount_eq_of_lt hmem hshort hrun']
    exact_mod_cast hless

/-- The string on which `fifo` misses 9 times in three frames and 10 times in four. -/
def beladyTrace : List Access :=
  [⟨'L', 0x1000⟩, ⟨'L', 0x2000⟩, ⟨'L', 0x3000⟩, ⟨'S', 0x4000⟩, ⟨'L', 0x1000⟩, ⟨'L', 0x2000⟩,
    ⟨'L', 0x5000⟩, ⟨'L', 0x1000⟩, ⟨'L', 0x2000⟩, ⟨'L', 0x3000⟩, ⟨'L', 0x4000⟩, ⟨'L', 0x5000⟩]

theorem lru_no_belady_anomaly_example :
    ∃ m s m' s',
      replay lruPolicy beladyTrace (boot 3 (fun _ => 0) (fun _ => 0) ⟨64, fun _ => 0#32⟩) lruInit
        = .ok (m, s) ∧
      replay lruPolicy beladyTrace (boot 4 (fun _ => 0) (fun _ => 0) ⟨64, fun _ => 0#32⟩) lruInit
        = .ok (m', s') ∧
      (∀ p, (m.pte p).valid = true → (m'.pte p).valid = true) ∧ m'.missCount ≤ m.missCount := by
  have hb : bitmapCreate 64 = .ok ⟨64, fun _ => 0#32⟩ := rfl
  have hslots : (pagesOf beladyTrace).card ≤ (Bitmap.slots ⟨64, fun _ => 0#32⟩).card := by
    rw [slots_of_bitmapCreate (by decide) hb]
    decide
  obtain ⟨m, s, m', s', hrun, hrun', hsub, -, hcount⟩ :=
    lru_no_belady_anomaly beladyTrace 3 4 64 64 _ _ _ _ _ _ (by decide) hb (by decide) hb
      (by decide) (by decide) (by decide) (by decide) (by decide) hslots hslots _
      (List.prefix_refl _)
  exact ⟨m, s, m', s', hrun, hrun', hsub, hcount (by decide)⟩

/-- `n` loads of two pages in turn. -/
def loadsInTurn (n : Nat) : List Access := (inTurn 1 2 n).map fun page => ⟨'L', page * 4096⟩

theorem loadsInTurn_pages (n : Nat) :
    (loadsInTurn n).map (fun a => pageOf a.vaddr) = inTurn 1 2 n := by
  rw [loadsInTurn, List.map_map]
  refine (List.map_congr_left fun page hpage => ?_).trans (List.map_id _)
  rcases mem_inTurn hpage with rfl | rfl <;> decide

/-- `2 ^ 31` loads of two pages in turn miss every time in one frame, where `miss_count` wraps, and
twice in two frames. -/
theorem missCount_anomaly : (loadsInTurn (2 ^ 31)).length < 2 ^ 32 ∧
    (∀ a ∈ loadsInTurn (2 ^ 31), a.vaddr < 2 ^ 36) ∧
    (pagesOf (loadsInTurn (2 ^ 31))).card ≤ (Bitmap.slots ⟨64, fun _ => 0#32⟩).card ∧
    ∃ m s m' s',
      replay lruPolicy (loadsInTurn (2 ^ 31))
        (boot 1 (fun _ => 0) (fun _ => 0) ⟨64, fun _ => 0#32⟩) lruInit = .ok (m, s) ∧
      replay lruPolicy (loadsInTurn (2 ^ 31))
        (boot 2 (fun _ => 0) (fun _ => 0) ⟨64, fun _ => 0#32⟩) lruInit = .ok (m', s') ∧
      m.missCount = -2 ^ 31 ∧ m'.missCount = 2 := by
  have hb : bitmapCreate 64 = .ok ⟨64, fun _ => 0#32⟩ := rfl
  have hlen : (loadsInTurn (2 ^ 31)).length < 2 ^ 32 := by
    rw [loadsInTurn, List.length_map, length_inTurn]
    decide
  have hvaddr : ∀ a ∈ loadsInTurn (2 ^ 31), a.vaddr < 2 ^ 36 := by
    intro a ha
    obtain ⟨page, hpage, rfl⟩ := List.mem_map.mp ha
    rcases mem_inTurn hpage with rfl | rfl <;> decide
  have hslots : (pagesOf (loadsInTurn (2 ^ 31))).card ≤ (Bitmap.slots ⟨64, fun _ => 0#32⟩).card := by
    have hsub : pagesOf (loadsInTurn (2 ^ 31)) ⊆ {1, 2} := by
      intro page hpage
      rw [pagesOf, loadsInTurn_pages, List.mem_toFinset] at hpage
      rcases mem_inTurn hpage with rfl | rfl <;> decide
    rw [slots_of_bitmapCreate (by decide) hb]
    exact (Finset.card_le_card hsub).trans (by decide)
  obtain ⟨m, s, hrun, -, -, hmiss⟩ := replay_lru_boot (List.prefix_refl _) (fun _ => 0) (fun _ => 0)
    (by decide) hb (show 1 ≤ 1 by decide) (by decide) hvaddr hslots hlen
  obtain ⟨m', s', hrun', -, -, hmiss'⟩ := replay_lru_boot (List.prefix_refl _) (fun _ => 0)
    (fun _ => 0) (by decide) hb (show 1 ≤ 2 by decide) (by decide) hvaddr hslots hlen
  refine ⟨hlen, hvaddr, hslots, m, s, m', s', hrun, hrun', ?_, ?_⟩
  · rw [missCount_eq (by decide) hrun, hmiss, loadsInTurn_pages, misses_one_inTurn (by decide)]
    decide
  · rw [missCount_eq (by decide) hrun', hmiss', loadsInTurn_pages,
      misses_two_inTurn (by decide) (by decide)]
    decide

end Paging
end OsAssignments
