import OsAssignments.Paging.Counters
import OsAssignments.Paging.Demand

/-!
# Clean and dirty evictions

* `StoredSince`, `WrittenBefore` — a store to a page since it was last brought in; an earlier
  eviction that wrote it to the swap file.
* `Tracked` — the flags `PG_DIRTY` and `PG_ONSWAP` say these two; `Tracked.translated` — an access
  keeps that.
* `WritesVictim` — an eviction that is counted as dirty, and written, or as clean, and not.
* `evictions_accounted` — after every part of a trace the counters are in balance, and the next
  eviction is dirty exactly if its page was stored to or never written.
-/

namespace OsAssignments
namespace Paging

open MachineWord ByteMemory ExceptSpec

/-! ## The history of a page -/

/-- The page of `p` was stored to, and not brought in after that. -/
def StoredSince (past : List Event) (p : PtePtr) : Prop :=
  ∃ (i : Nat) (e : Event), past[i]? = some e ∧ e.entry = p ∧ e.stores = true ∧
    ∀ (j : Nat) (e' : Event), i < j → past[j]? = some e' → ¬(e'.entry = p ∧ e'.missed = true)

/-- The page of `p` was evicted and written to the swap file. -/
def WrittenBefore (past : List Event) (p : PtePtr) : Prop :=
  ∃ e ∈ past, e.evicted = some (p, true)

section

variable {past : List Event} {e : Event} {p : PtePtr}

theorem not_writtenBefore_nil : ¬ WrittenBefore [] p := by
  rintro ⟨e, he, -⟩
  cases he

/-- One event more. -/
theorem storedSince_concat : StoredSince (past ++ [e]) p ↔
    (e.entry = p ∧ e.stores = true) ∨
      (¬(e.entry = p ∧ e.missed = true) ∧ StoredSince past p) := by
  have hlast : (past ++ [e])[past.length]? = some e := by
    rw [List.getElem?_append_right (le_refl _), Nat.sub_self]
    rfl
  constructor
  · rintro ⟨i, e', he', hentry, hstores, hafter⟩
    rcases Nat.lt_or_ge i past.length with hlt | hge
    · rw [List.getElem?_append_left hlt] at he'
      refine .inr ⟨hafter past.length e hlt hlast, i, e', he', hentry, hstores, ?_⟩
      intro j e'' hij hj
      refine hafter j e'' hij ?_
      rwa [List.getElem?_append_left (List.getElem?_eq_some_iff.mp hj).1]
    · rw [List.getElem?_append_right hge, List.getElem?_singleton] at he'
      split at he'
      · obtain rfl := Option.some.inj he'
        exact .inl ⟨hentry, hstores⟩
      · cases he'
  · rintro (⟨hentry, hstores⟩ | ⟨hnot, i, e', he', hentry, hstores, hafter⟩)
    · refine ⟨past.length, e, hlast, hentry, hstores, fun j e' hlt hj => ?_⟩
      have hj' := (List.getElem?_eq_some_iff.mp hj).1
      rw [List.length_append, List.length_singleton] at hj'
      omega
    · have hlt := (List.getElem?_eq_some_iff.mp he').1
      refine ⟨i, e', by rwa [List.getElem?_append_left hlt], hentry, hstores, ?_⟩
      intro j e'' hij hj
      rcases Nat.lt_or_ge j past.length with hjlt | hjge
      · rw [List.getElem?_append_left hjlt] at hj
        exact hafter j e'' hij hj
      · rw [List.getElem?_append_right hjge, List.getElem?_singleton] at hj
        split at hj
        · obtain rfl := Option.some.inj hj
          exact hnot
        · cases hj

theorem writtenBefore_concat : WrittenBefore (past ++ [e]) p ↔
    WrittenBefore past p ∨ e.evicted = some (p, true) := by
  unfold WrittenBefore
  simp only [List.mem_append, List.mem_singleton, or_and_right, exists_or, exists_eq_left]

/-- An event that is of another page and evicts another one. -/
theorem storedSince_concat_of_ne (hne : e.entry ≠ p) :
    StoredSince (past ++ [e]) p ↔ StoredSince past p := by
  rw [storedSince_concat]
  simp [hne]

end

/-! ## The flags -/

/-- In memory a page is dirty if it has to be written; on the swap file it has been. -/
structure Tracked (past : List Event) (m : Machine) : Prop where
  dirty : ∀ p, (m.pte p).valid = true →
    ((m.pte p).dirty = true ↔ StoredSince past p ∨ ¬ WrittenBefore past p)
  written : ∀ p, WrittenBefore past p → (m.pte p).valid = true ∨ (m.pte p).onswap = true
  onswap : ∀ p, (m.pte p).onswap = true → WrittenBefore past p

section

variable {σ : Type} {P : Policy σ} {past : List Event} {a : Access} {n : Nat} {T : Finset PtePtr}
  {m m₁ m' : Machine} {s s₁ s' : σ} {f : Nat} {p q : PtePtr}

theorem Tracked.boot (memsize : Nat) (physmem swapfile : Memory) (b : Bitmap) :
    Tracked [] (boot memsize physmem swapfile b) where
  dirty p hv := by
    rw [show (Paging.boot memsize physmem swapfile b).pte p = Pte.fresh from rfl,
      Pte.fresh_valid] at hv
    cases hv
  written p hw := absurd hw not_writtenBefore_nil
  onswap p hon := by
    rw [show (Paging.boot memsize physmem swapfile b).pte p = Pte.fresh from rfl,
      Pte.fresh_onswap] at hon
    cases hon

theorem Tracked.of_sameView (h : Tracked past m) (hs : m.SameView m') : Tracked past m' where
  dirty p hv := by
    rw [(hs.pte p).valid] at hv
    rw [(hs.pte p).dirty]
    exact h.dirty p hv
  written p hw := by
    rw [(hs.pte p).valid, (hs.pte p).onswap]
    exact h.written p hw
  onswap p hon := by
    rw [(hs.pte p).onswap] at hon
    exact h.onswap p hon

/-- A hit makes its page dirty if it stores. -/
theorem Tracked.hit (h : Tracked past m) (hv : (m.pte (ptrOf a.vaddr)).valid = true)
    (hm : Marked a m m') {e : Event} (hentry : e.entry = ptrOf a.vaddr)
    (hstores : e.stores = a.stores) (hmiss : e.missed = false) (hnone : e.evicted = none) :
    Tracked (past ++ [e]) m' := by
  have hwritten : ∀ p, WrittenBefore (past ++ [e]) p ↔ WrittenBefore past p := by
    intro p
    rw [writtenBefore_concat, hnone]
    simp
  constructor
  · intro p hp
    rw [hwritten]
    by_cases hpa : p = ptrOf a.vaddr
    · subst hpa
      rw [hm.dirty, storedSince_concat, hentry, hstores, hmiss, Bool.or_eq_true, h.dirty _ hv]
      simp [or_assoc]
    · rw [hm.others p hpa] at hp ⊢
      rw [storedSince_concat_of_ne (by rw [hentry]; exact Ne.symm hpa)]
      exact h.dirty p hp
  · intro p hw
    by_cases hpa : p = ptrOf a.vaddr
    · rw [hpa]
      exact .inl hm.valid
    · rw [hm.others p hpa]
      exact h.written p ((hwritten p).mp hw)
  · intro p hon
    rw [hwritten]
    by_cases hpa : p = ptrOf a.vaddr
    · subst hpa
      rw [hm.onswap] at hon
      exact h.onswap _ hon
    · rw [hm.others p hpa] at hon
      exact h.onswap p hon

/-- A page that is brought in is clean if it comes from the swap file and is not stored to. -/
theorem Tracked.loaded {e : Event} (hentry : e.entry = ptrOf a.vaddr)
    (hstores : e.stores = a.stores) (hmiss : e.missed = true) (hl : Loaded a f m m')
    (hown : (m.pte (ptrOf a.vaddr)).onswap = true ↔ WrittenBefore (past ++ [e]) (ptrOf a.vaddr))
    (hdirty : ∀ p, p ≠ ptrOf a.vaddr → (m.pte p).valid = true →
      ((m.pte p).dirty = true ↔ StoredSince past p ∨ ¬ WrittenBefore (past ++ [e]) p))
    (hwritten : ∀ p, p ≠ ptrOf a.vaddr → WrittenBefore (past ++ [e]) p →
      (m.pte p).valid = true ∨ (m.pte p).onswap = true)
    (honswap : ∀ p, p ≠ ptrOf a.vaddr → (m.pte p).onswap = true → WrittenBefore (past ++ [e]) p) :
    Tracked (past ++ [e]) m' := by
  constructor
  · intro p hp
    by_cases hpa : p = ptrOf a.vaddr
    · subst hpa
      rw [hl.dirty, storedSince_concat, hentry, hstores, hmiss, Bool.or_eq_true, ← hown]
      simp
    · rw [hl.others p hpa] at hp ⊢
      rw [storedSince_concat_of_ne (by rw [hentry]; exact Ne.symm hpa)]
      exact hdirty p hpa hp
  · intro p hw
    by_cases hpa : p = ptrOf a.vaddr
    · rw [hpa]
      exact .inl hl.valid
    · rw [hl.others p hpa]
      exact hwritten p hpa hw
  · intro p hon
    by_cases hpa : p = ptrOf a.vaddr
    · subst hpa
      rw [hl.onswap] at hon
      cases hon
    · rw [hl.others p hpa] at hon
      exact honswap p hpa hon

theorem firstFree_of_full (hfull : m.Full) : firstFree m = none := by
  cases hfree : firstFree m with
  | none => rfl
  | some f =>
    obtain ⟨hf, hu⟩ := firstFree_some hfree
    rw [hfull f hf] at hu
    cases hu

/-- A frame that was free is not evicted. -/
theorem eventOf_unused (hf : f < m.memsize) (hfree : (m.coremap f).inUse = false) :
    (eventOf P a m s).evicted = none := by
  cases hfirst : firstFree m with
  | none =>
    rw [full_of_firstFree hfirst f hf] at hfree
    cases hfree
  | some g => exact eventOf_fill hfirst

theorem firstFree_of_missState_full (h : (missState a.vaddr m).Full) : firstFree m = none := by
  rw [← firstFree_missState a.vaddr m]
  exact firstFree_of_full h

/-- The step whose event evicted a page. -/
theorem Translated.evict_inv (ht : Translated P a m s m₁ s₁) {written : Bool}
    (hevent : (eventOf P a m s).evicted = some (q, written)) :
    ∃ (f : Nat) (mp me : Machine), P.evict (missState a.vaddr m) s = .ok ((f : Int), mp, s₁) ∧
      q ≠ ptrOf a.vaddr ∧ (m.pte q).valid = true ∧ (m.pte q).frameNumber = f ∧
      written = (m.pte q).dirty ∧ Evicted f q mp me ∧ Loaded a f (releaseFrame f me) m₁ := by
  cases ht with
  | hit hv _ _ =>
    rw [(eventOf_hit hv).2] at hevent
    cases hevent
  | fill _ hf hfree _ _ =>
    rw [eventOf_unused hf hfree] at hevent
    cases hevent
  | @evict f q' mp me hv hfull hf hevict hq hqv hqf hevicted hloaded =>
    rw [eventOf_evict hv (firstFree_of_missState_full hfull) hevict hf hq] at hevent
    obtain ⟨rfl, rfl⟩ := Prod.mk.inj (Option.some.inj hevent)
    refine ⟨f, mp, me, hevict, ?_, hqv, hqf, rfl, hevicted, hloaded⟩
    rintro rfl
    rw [hv] at hqv
    cases hqv

/-- **An access keeps the flags in step with its history.** -/
theorem Tracked.translated (h : Tracked past m) (ht : Translated P a m s m₁ s₁) :
    Tracked (past ++ [eventOf P a m s]) m₁ := by
  have hview := sameView_missState a.vaddr m
  -- a page that is not in memory is on the swap file exactly if it was written to it
  have hout : ∀ {past' : List Event} {m' : Machine}, Tracked past' m' →
      (m'.pte (ptrOf a.vaddr)).valid = false →
      ((m'.pte (ptrOf a.vaddr)).onswap = true ↔ WrittenBefore past' (ptrOf a.vaddr)) := by
    intro past' m' h' hv
    refine ⟨h'.onswap _, fun hw => (h'.written _ hw).resolve_left ?_⟩
    rw [hv]
    exact Bool.false_ne_true
  cases ht with
  | hit hv hmarked _ =>
    have hhit := sameView_hitState a.vaddr m
    exact (h.of_sameView hhit).hit ((hhit.pte _).valid.trans hv) hmarked rfl rfl
      (eventOf_hit hv).1 (eventOf_hit hv).2
  | @fill f hv hf hfree hloaded _ =>
    have hnone := eventOf_unused (P := P) (a := a) (s := s) hf hfree
    have hwritten : ∀ p, WrittenBefore (past ++ [eventOf P a m s]) p ↔ WrittenBefore past p := by
      intro p
      rw [writtenBefore_concat, hnone]
      simp
    have hmiss := h.of_sameView hview
    refine .loaded rfl rfl (eventOf_miss hv) hloaded ?_ (fun p _ hp => ?_) (fun p _ hw => ?_)
      fun p _ hon => ?_
    · rw [hwritten]
      exact hout hmiss ((hview.pte _).valid.trans hv)
    · rw [hwritten]
      exact hmiss.dirty p hp
    · exact hmiss.written p ((hwritten p).mp hw)
    · exact (hwritten p).mpr (hmiss.onswap p hon)
  | @evict f q mp me hv hfull hf hevict hq hqv hqf hevicted hloaded =>
    have hviewp := hview.trans (P.evict_same hevict).sameView
    have hp := h.of_sameView hviewp
    have hevent := eventOf_evict hv (firstFree_of_missState_full hfull) hevict hf hq
    have hqa : q ≠ ptrOf a.vaddr := by
      rintro rfl
      rw [hv] at hqv
      cases hqv
    have hwritten : ∀ p, p ≠ q →
        (WrittenBefore (past ++ [eventOf P a m s]) p ↔ WrittenBefore past p) := by
      intro p hpq
      rw [writtenBefore_concat, hevent, Option.some.injEq, Prod.mk.injEq]
      simp [Ne.symm hpq]
    -- the victim was written before, or it is now
    have hvictim : WrittenBefore (past ++ [eventOf P a m s]) q := by
      rw [writtenBefore_concat, hevent]
      cases hd : (m.pte q).dirty with
      | true => exact .inr rfl
      | false =>
        have hclean := mt (h.dirty q hqv).mpr (by rw [hd]; exact Bool.false_ne_true)
        exact .inl (not_not.mp fun hnot => hclean (.inr hnot))
    have hothers : ∀ p, p ≠ q → (releaseFrame f me).pte p = mp.pte p := hevicted.others
    have hva : (mp.pte (ptrOf a.vaddr)).valid = false := (hviewp.pte _).valid.trans hv
    refine .loaded rfl rfl (eventOf_miss hv) hloaded ?_ (fun p _ hpv => ?_) (fun p _ hw => ?_)
      fun p _ hon => ?_
    · rw [hothers _ hqa.symm, hwritten _ hqa.symm]
      exact hout hp hva
    · have hpq : p ≠ q := by
        rintro rfl
        rw [show ((releaseFrame f me).pte p).valid = false from hevicted.valid] at hpv
        cases hpv
      rw [hothers p hpq] at hpv ⊢
      rw [hwritten p hpq]
      exact hp.dirty p hpv
    · by_cases hpq : p = q
      · rw [hpq]
        exact .inr hevicted.onswap
      · rw [hothers p hpq]
        exact hp.written p ((hwritten p hpq).mp hw)
    · by_cases hpq : p = q
      · rw [hpq]
        exact hvictim
      · rw [hothers p hpq] at hon
        exact (hwritten p hpq).mpr (hp.onswap p hon)

/-! ## The eviction itself -/

/-- The page of `q` is counted as a dirty eviction and its frame written to its slot of the swap
file, or it is counted as a clean eviction and nothing is written. -/
structure WritesVictim (m m' : Machine) (q : PtePtr) (written : Bool) : Prop where
  dirtyCount : m'.evictDirtyCount = if written then incr m.evictDirtyCount else m.evictDirtyCount
  cleanCount : m'.evictCleanCount = if written then m.evictCleanCount else incr m.evictCleanCount
  slot : (m'.pte q).swapOff ≠ invalidSwap
  swapfile : m'.swapfile = if written then
      copyBytes simpagesize m.physmem ((m.pte q).frameNumber * simpagesize) m.swapfile
        (m'.pte q).swapOff.toNat
    else m.swapfile

theorem Translated.writesVictim (ht : Translated P a m s m₁ s₁) (hO : Owners m) {c : Counters}
    (hc : m.Counted c) {written : Bool} (hevent : (eventOf P a m s).evicted = some (q, written))
    (htr : translate P a m s = .ok (m₁, s₁)) (hrun : accessStep P a m s = .ok (m', s')) :
    WritesVictim m m' q written := by
  obtain ⟨f, mp, me, hevict, hqa, hqv, hqf, hw, hevicted, hloaded⟩ := ht.evict_inv hevent
  have hcount := accessStep_counted hc hO hrun
  have hdirty : m'.evictDirtyCount
      = if written then incr m.evictDirtyCount else m.evictDirtyCount := by
    rw [hcount.evictDirty, c.after_dirty hevent, hc.evictDirty, incr_toInt32]
    split <;> rfl
  have hclean : m'.evictCleanCount
      = if written then m.evictCleanCount else incr m.evictCleanCount := by
    rw [hcount.evictClean, c.after_clean hevent, hc.evictClean, incr_toInt32]
    split <;> rfl
  obtain ⟨m₁', s₁', mr, htr', href, hviewr, hrest⟩ := accessStep_inv hrun
  obtain ⟨rfl, rfl⟩ := Prod.mk.inj (Except.ok.inj (htr.symm.trans htr'))
  have hsame := P.evict_same hevict
  have hview := (sameView_missState a.vaddr m).trans hsame.sameView
  have hmiss : (missState a.vaddr m).physmem = m.physmem ∧
      (missState a.vaddr m).swapfile = m.swapfile := by
    rw [missState, openDirectory_eq]
    exact ⟨rfl, rfl⟩
  have hswap : m'.swapfile = me.swapfile := by
    rw [hrest, ← show m₁.swapfile = me.swapfile from hloaded.swapfile]
    exact (P.ref_same href).swapfile
  have hoff : (m'.pte q).swapOff = (me.pte q).swapOff := by
    rw [(((P.ref_same href).sameView.trans hviewr).pte q).swapOff, hloaded.others q hqa]
    rfl
  refine ⟨hdirty, hclean, by rw [hoff]; exact hevicted.swapOff_ne, ?_⟩
  rw [hswap, hevicted.swapfile, (hview.pte q).dirty, hsame.physmem, hsame.swapfile, hmiss.1, hmiss.2,
    hoff, hqf, hw]

end

/-! ## Runs -/

section

variable {σ : Type} {P : Policy σ}

theorem Policy.AnswersAlong.append {next : Access → Machine → σ → Except Fault (Machine × σ)}
    {rest : List Access} (past : List Access) : ∀ {m : Machine} {s : σ},
      P.AnswersAlong next (past ++ rest) m s → P.AnswersAlong next past m s ∧
        ∀ m' s', runWith next past m s = .ok (m', s') → P.AnswersAlong next rest m' s' := by
  induction past with
  | nil =>
    intro m s h
    refine ⟨trivial, fun m' s' hrun => ?_⟩
    obtain ⟨rfl, rfl⟩ := Prod.mk.inj (Except.ok.inj hrun)
    exact h
  | cons a past ih =>
    intro m s h
    refine ⟨⟨h.1, fun m₁ s₁ hnext => (ih (h.2 m₁ s₁ hnext)).1⟩, fun m' s' hrun => ?_⟩
    rw [runWith] at hrun
    cases hnext : next a m s with
    | error e =>
      rw [hnext] at hrun
      cases hrun
    | ok r =>
      rw [hnext] at hrun
      exact (ih (h.2 r.1 r.2 hnext)).2 m' s' hrun

/-- A state of a run with room on the swap file. -/
structure Accounted (n : Nat) (T : Finset PtePtr) (memsize : Nat) (past : List Event) (m : Machine) :
    Prop where
  residency : Residency n T m
  size : m.memsize = memsize
  counted : m.Counted (countersOf past)
  balanced : Balanced (countersOf past) m
  tracked : Tracked past m

variable {n : Nat} {T : Finset PtePtr} {memsize : Nat} {past : List Event} {a : Access}
  {m : Machine} {s : σ}

/-- **One access.** -/
theorem Accounted.step (h : Accounted n T memsize past m) (hn : T.card ≤ n)
    (hT24 : T.card ≤ 2 ^ 24) (hp : ptrOf a.vaddr ∈ T) (hvaddr : a.vaddr < 2 ^ 36)
    (hmem : memsize < 2 ^ 19) (hans : P.Answers a m s) :
    ∃ m' s', accessStep P a m s = .ok (m', s') ∧
      Accounted n T memsize (past ++ [eventOf P a m s]) m' ∧
      ∀ q written, (eventOf P a m s).evicted = some (q, written) →
        (written = true ↔ StoredSince past q ∨ ¬ WrittenBefore past q) ∧
        WritesVictim m m' q written := by
  have hmem' : m.memsize ≤ 2 ^ 19 := h.size.symm ▸ hmem.le
  obtain ⟨m', s', hrun, hR', hsize⟩ := h.residency.accessStep_ok hn hT24 hp hvaddr hmem' hans
  obtain ⟨m₁, s₁, htr, ht, hR₁⟩ := h.residency.translate_ok hn hT24 hp hvaddr hmem' hans.evict
  obtain ⟨m₁', s₁', mr, htr', href, hviewr, -⟩ := accessStep_inv hrun
  obtain ⟨rfl, rfl⟩ := Prod.mk.inj (Except.ok.inj (htr.symm.trans htr'))
  have hO := h.residency.owners
  refine ⟨m', s', hrun, ⟨hR', hsize.trans h.size, ?_, ?_, ?_⟩, fun q written hevent => ?_⟩
  · rw [countersOf_concat]
    exact accessStep_counted h.counted hO hrun
  · rw [countersOf_concat]
    exact h.balanced.step hO hmem' hrun
  · exact (h.tracked.translated ht).of_sameView ((P.ref_same href).sameView.trans hviewr)
  · obtain ⟨-, -, -, -, -, hqv, -, hw, -, -⟩ := ht.evict_inv hevent
    rw [hw]
    exact ⟨h.tracked.dirty q hqv, hw ▸ ht.writesVictim hO h.counted hevent htr hrun⟩

/-- Below `2 ^ 31` references the counters are in balance themselves. -/
theorem Balanced.exact {c : Counters} (h : Balanced c m) (hc : m.Counted c) (hlt : c.ref < 2 ^ 31) :
    m.refCount = m.hitCount + m.missCount ∧
      m.missCount = m.evictCleanCount + m.evictDirtyCount + m.inUseCount := by
  have href := h.ref
  have hmiss := h.miss
  rw [hc.ref, hc.hit, hc.miss, hc.evictClean, hc.evictDirty, toInt32_natCast hlt,
    toInt32_natCast (by omega), toInt32_natCast (by omega), toInt32_natCast (by omega),
    toInt32_natCast (by omega)]
  omega

/-- **Every part of a trace** ends in such a state. -/
theorem replay_accounted (P : Policy σ) (s₀ : σ) {trace : List Access} {memsize swapsize : Nat}
    (physmem swapfile : Memory) {b : Bitmap} (hswap : swapsize < 2 ^ 32)
    (hb : bitmapCreate swapsize = .ok b) (hmem : memsize < 2 ^ 19)
    (hvaddr : ∀ a ∈ trace, a.vaddr < 2 ^ 36) (hslots : (pagesOf trace).card ≤ b.slots.card)
    {past : List Access} (hpast : past <+: trace)
    (hans : P.AnswersAlong (accessStep P) past (boot memsize physmem swapfile b) s₀) :
    ∃ m s, replay P past (boot memsize physmem swapfile b) s₀ = .ok (m, s) ∧
      Accounted b.slots.card (entriesOf trace) memsize
        (history P past (boot memsize physmem swapfile b) s₀) m := by
  let m₀ := boot memsize physmem swapfile b
  have hstart : Accounted b.slots.card (entriesOf trace) memsize [] m₀ :=
    ⟨.boot hswap hb (entriesOf trace) memsize physmem swapfile, rfl,
      boot_counted memsize physmem swapfile b, .boot memsize physmem swapfile b,
      .boot memsize physmem swapfile b⟩
  let I : List Access → Machine → σ → Prop := fun past m s =>
    replay P past m₀ s₀ = .ok (m, s) ∧
      Accounted b.slots.card (entriesOf trace) memsize (history P past m₀ s₀) m
  obtain ⟨m, s, hrun, -, h⟩ := runWith_ok (I := I) (fun past' a ha m s ⟨hrun, h⟩ hans => by
    have ha' := hpast.subset ha
    obtain ⟨m', s', hnext, h', -⟩ := h.step ((card_entriesOf trace).le.trans hslots)
      ((card_entriesOf trace).le.trans (card_pagesOf_le hvaddr)) (ptrOf_mem_entriesOf ha')
      (hvaddr a ha') hmem hans
    refine ⟨m', s', hnext, ?_, ?_⟩
    · rw [replay, runWith_concat, show runWith (accessStep P) past' m₀ s₀ = .ok (m, s) from hrun]
      exact hnext
    · rwa [history_concat past' a hrun]) [] hans ⟨rfl, hstart⟩
  exact ⟨m, s, hrun, h⟩

/-- **The counters account for every access and every eviction**, after every part of a trace: as
`int`s, and below `2 ^ 31` references exactly. -/
theorem evictions_accounted (P : Policy σ) (s₀ : σ) (trace : List Access) (memsize swapsize : Nat)
    (physmem swapfile : Memory) (b : Bitmap) (hswap : swapsize < 2 ^ 32)
    (hb : bitmapCreate swapsize = .ok b) (hmem : memsize < 2 ^ 19)
    (hvaddr : ∀ a ∈ trace, a.vaddr < 2 ^ 36) (hslots : (pagesOf trace).card ≤ b.slots.card)
    (hans : P.AnswersAlong (accessStep P) trace (boot memsize physmem swapfile b) s₀)
    (past : List Access) (hpast : past <+: trace) :
    ∃ m s events, replay P past (boot memsize physmem swapfile b) s₀ = .ok (m, s) ∧
      events = history P past (boot memsize physmem swapfile b) s₀ ∧
      events.length = past.length ∧
      m.Counted (countersOf events) ∧ Balanced (countersOf events) m ∧
      (past.length < 2 ^ 31 → m.refCount = m.hitCount + m.missCount ∧
        m.missCount = m.evictCleanCount + m.evictDirtyCount + m.inUseCount) ∧
      ∀ a, past ++ [a] <+: trace → ∃ m' s', accessStep P a m s = .ok (m', s') ∧
        ∀ q written, (eventOf P a m s).evicted = some (q, written) →
          (written = true ↔ StoredSince events q ∨ ¬ WrittenBefore events q) ∧
          WritesVictim m m' q written := by
  -- the accesses so far, and those to come
  obtain ⟨rest, rfl⟩ := hpast
  obtain ⟨hansPast, hansRest⟩ := Policy.AnswersAlong.append past hans
  obtain ⟨m, s, hrun, h⟩ := replay_accounted P s₀ physmem swapfile hswap hb hmem hvaddr hslots
    (List.prefix_append past rest) hansPast
  have hlength : (history P past (boot memsize physmem swapfile b) s₀).length = past.length := by
    have hentries := congrArg List.length (history_entries past hrun)
    rwa [List.length_map, List.length_map] at hentries
  refine ⟨m, s, _, hrun, rfl, hlength, h.counted, h.balanced, fun hlt => ?_, fun a hprefix => ?_⟩
  · exact h.balanced.exact h.counted (by rw [countersOf_ref, hlength]; exact hlt)
  · obtain ⟨later, hlater⟩ := hprefix
    rw [List.append_assoc] at hlater
    obtain rfl := List.append_cancel_left hlater
    have ha : a ∈ past ++ ([a] ++ later) :=
      List.mem_append_right past (List.mem_append_left later (List.mem_singleton_self a))
    obtain ⟨m', s', hnext, -, hevict⟩ := h.step ((card_entriesOf _).le.trans hslots)
      ((card_entriesOf _).le.trans (card_pagesOf_le hvaddr)) (ptrOf_mem_entriesOf ha) (hvaddr a ha)
      hmem (hansRest m s hrun).1
    exact ⟨m', s', hnext, hevict⟩

theorem evictions_accounted_example :
    ∃ m s, replay randPolicy reloadTrace
        (boot 1 (fun _ => 0) (fun _ => 0) ⟨64, fun _ => 0#32⟩) (fun _ => 0) = .ok (m, s) ∧
      m.refCount = m.hitCount + m.missCount ∧
      m.missCount = m.evictCleanCount + m.evictDirtyCount + m.inUseCount := by
  have hb : bitmapCreate 64 = .ok ⟨64, fun _ => 0#32⟩ := rfl
  have hvaddr : ∀ a ∈ reloadTrace, a.vaddr < 2 ^ 36 := by decide
  have hslots : (pagesOf reloadTrace).card ≤ (Bitmap.slots ⟨64, fun _ => 0#32⟩).card := by
    rw [slots_of_bitmapCreate (by decide) hb]
    decide
  have hans := randPolicy_answersReplay (fun _ => 0) (fun _ => 0) (by decide) hb
    (show 0 < 1 by decide) (by decide) hvaddr hslots (fun _ => 0)
  obtain ⟨m, s, -, hrun, -, -, -, -, hexact, -⟩ := evictions_accounted randPolicy (fun _ => 0)
    reloadTrace 1 64 (fun _ => 0) (fun _ => 0) _ (by decide) hb (by decide) hvaddr hslots hans
    reloadTrace (List.prefix_refl _)
  exact ⟨m, s, hrun, hexact (by decide)⟩

/-! ## Where the counters wrap -/

/-- After `2 ^ 31` loads of one page, one of which missed, `ref_count` alone has wrapped. -/
theorem refCount_wraps : Admissible (loadsOf (2 ^ 31)) 1 ⟨64, fun _ => 0#32⟩ ∧
    ∃ m s, replay randPolicy (loadsOf (2 ^ 31)) (boot 1 (fun _ => 0) (fun _ => 0) ⟨64, fun _ => 0#32⟩)
        (fun _ => 0) = .ok (m, s) ∧
      m.refCount = -2 ^ 31 ∧ m.refCount ≠ m.hitCount + m.missCount := by
  have hadm := loadsOf_admissible (2 ^ 31) (show 0 < 1 by decide) (by decide)
  have hb : bitmapCreate 64 = .ok ⟨64, fun _ => 0#32⟩ := rfl
  obtain ⟨m, s, hrun, h⟩ := replay_accounted randPolicy (fun _ => 0) (fun _ => 0) (fun _ => 0)
    (by decide) hb (by decide) hadm.vaddr hadm.slots (List.prefix_refl _) hadm.answers
  have hlength := congrArg List.length (history_entries _ hrun)
  rw [List.length_map, List.length_map, loadsOf, List.length_replicate, ← loadsOf] at hlength
  have href := (countersOf_ref _).trans hlength
  have hmiss := (countersOf_miss _).trans (missesOf_loadsOf (by decide) (by decide) hadm)
  have hhit := h.balanced.ref
  refine ⟨hadm, m, s, hrun, ?_⟩
  rw [h.counted.ref, h.counted.hit, h.counted.miss, href, hmiss]
  rw [href, hmiss] at hhit
  rw [show (countersOf (history randPolicy (loadsOf (2 ^ 31)) _ _)).hit = 2 ^ 31 - 1 by omega]
  decide

end

end Paging
end OsAssignments
