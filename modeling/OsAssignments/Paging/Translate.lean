import OsAssignments.Paging.Residency

/-!
# What one access does

An access to a resident page marks its entry.  An access to any other page puts
it into a free frame, which is one that no page has taken yet or the one the
policy's victim had to leave.

* `Marked` — the flags set on every access; `Loaded` — a miss, once a frame is
  free.
* `Translated` — the three ways in which `find_physpage` gets to the call of
  `ref_fcn`: a hit, a miss with a free frame, a miss with an eviction.
* `Residency.translate_ok`, `Residency.findPhyspage_ok` — one of the three always
  happens, without a fault, and the residency invariant holds afterwards.
-/

namespace OsAssignments
namespace Paging

open MachineWord ByteMemory

/-! ## Marking the entry -/

/-- What `markAccess` does. -/
structure Marked (a : Access) (m m' : Machine) : Prop where
  memsize : m'.memsize = m.memsize
  coremap : m'.coremap = m.coremap
  physmem : m'.physmem = m.physmem
  swapfile : m'.swapfile = m.swapfile
  swapmap : m'.swapmap = m.swapmap
  others : ∀ p, p ≠ ptrOf a.vaddr → m'.pte p = m.pte p
  valid : (m'.pte (ptrOf a.vaddr)).valid = true
  dirty : (m'.pte (ptrOf a.vaddr)).dirty = (a.stores || (m.pte (ptrOf a.vaddr)).dirty)
  onswap : (m'.pte (ptrOf a.vaddr)).onswap = (m.pte (ptrOf a.vaddr)).onswap
  frameNumber : (m'.pte (ptrOf a.vaddr)).frameNumber = (m.pte (ptrOf a.vaddr)).frameNumber
  swapOff : (m'.pte (ptrOf a.vaddr)).swapOff = (m.pte (ptrOf a.vaddr)).swapOff

theorem markAccess_pte (a : Access) (m : Machine) :
    (markAccess a m).pte (ptrOf a.vaddr) =
      { m.pte (ptrOf a.vaddr) with
        frame := (if a.stores then
            (((m.pte (ptrOf a.vaddr)).frame ||| pgValid) ||| pgRef) ||| pgDirty
          else ((m.pte (ptrOf a.vaddr)).frame ||| pgValid) ||| pgRef) } := by
  unfold markAccess Machine.orFrame
  split <;> simp

theorem markAccess_marked (a : Access) (m : Machine) : Marked a m (markAccess a m) := by
  have hrest : markAccess a m = { m with pgdir := (markAccess a m).pgdir } := by
    unfold markAccess
    split <;> rfl
  have hvr : ∀ e : Pte, ({ e with frame := (e.frame ||| pgValid) ||| pgRef } : Pte).valid = true :=
    fun e => (hasFlag_or_of_disjoint _ (by decide)).trans (hasFlag_or_self _ (by decide))
  have hflag : ∀ (x : BitVec 32) (k : BitVec 32), pgValid &&& k = 0#32 → pgRef &&& k = 0#32 →
      hasFlag ((x ||| pgValid) ||| pgRef) k = hasFlag x k :=
    fun x k hk hk' => (hasFlag_or_of_disjoint _ hk').trans (hasFlag_or_of_disjoint _ hk)
  have hshift : ∀ x : BitVec 32, ((x ||| pgValid) ||| pgRef) >>> pageShift = x >>> pageShift :=
    fun x => (or_ushiftRight _ (by decide)).trans (or_ushiftRight _ (by decide))
  constructor
  case memsize => rw [hrest]
  case coremap => rw [hrest]
  case physmem => rw [hrest]
  case swapfile => rw [hrest]
  case swapmap => rw [hrest]
  case others =>
    intro p hp
    unfold markAccess Machine.orFrame
    split <;> simp only [Machine.setPte_pte_of_ne _ _ hp]
  case valid =>
    rw [markAccess_pte]
    split
    · exact (hasFlag_or_of_disjoint _ (by decide)).trans (hvr (m.pte (ptrOf a.vaddr)))
    · exact hvr (m.pte (ptrOf a.vaddr))
  case dirty =>
    rw [markAccess_pte]
    cases ha : a.stores with
    | true => exact hasFlag_or_self _ (by decide)
    | false => exact hflag _ _ (by decide) (by decide)
  case onswap =>
    rw [markAccess_pte]
    split
    · exact (hasFlag_or_of_disjoint _ (by decide)).trans (hflag _ _ (by decide) (by decide))
    · exact hflag _ _ (by decide) (by decide)
  case frameNumber =>
    rw [markAccess_pte]
    split
    · exact congrArg BitVec.toNat ((or_ushiftRight _ (by decide)).trans (hshift _))
    · exact congrArg BitVec.toNat (hshift _)
  case swapOff => rw [markAccess_pte]

namespace Marked

variable {a : Access} {n : Nat} {T : Finset PtePtr} {m m' : Machine}

/-- Marking a resident page keeps the invariant: at most its entry becomes dirty. -/
theorem residency (h : Marked a m m') (hR : Residency n T m)
    (hv : (m.pte (ptrOf a.vaddr)).valid = true) : Residency n T m' := by
  have hvalid : ∀ p, (m'.pte p).valid = (m.pte p).valid := by
    intro p
    by_cases hp : p = ptrOf a.vaddr
    · rw [hp, h.valid, hv]
    · rw [h.others p hp]
  have honswap : ∀ p, (m'.pte p).onswap = (m.pte p).onswap := by
    intro p
    by_cases hp : p = ptrOf a.vaddr
    · rw [hp, h.onswap]
    · rw [h.others p hp]
  have hfn : ∀ p, (m'.pte p).frameNumber = (m.pte p).frameNumber := by
    intro p
    by_cases hp : p = ptrOf a.vaddr
    · rw [hp, h.frameNumber]
    · rw [h.others p hp]
  have hoff : ∀ p, (m'.pte p).swapOff = (m.pte p).swapOff := by
    intro p
    by_cases hp : p = ptrOf a.vaddr
    · rw [hp, h.swapOff]
    · rw [h.others p hp]
  have hclean : ∀ p, (m'.pte p).dirty = false → (m.pte p).dirty = false := by
    intro p hd
    by_cases hp : p = ptrOf a.vaddr
    · rw [hp, h.dirty, Bool.or_eq_false_iff] at hd
      rw [hp]
      exact hd.2
    · rwa [h.others p hp] at hd
  constructor
  case owner =>
    intro p hp
    rw [hvalid] at hp
    rw [hfn, h.memsize, h.coremap]
    exact hR.owner p hp
  case held =>
    intro f hf hu
    rw [h.coremap] at hu
    obtain ⟨p, hp, hpf⟩ := hR.held f (h.memsize ▸ hf) hu
    exact ⟨p, (hvalid p).trans hp, (hfn p).trans hpf⟩
  case exclusive =>
    intro p hp
    rw [hvalid] at hp
    rw [honswap]
    exact hR.exclusive p hp
  case backed =>
    intro p hp
    rw [honswap, hvalid] at hp
    rw [hoff]
    exact hR.backed p (hp.imp_right fun hc => ⟨hc.1, hclean p hc.2⟩)
  case slotted =>
    intro p hp
    rw [hoff] at hp
    rw [hvalid, honswap, hoff, h.swapmap]
    exact hR.slotted p hp
  case distinct =>
    intro p q hp hpq
    rw [hoff] at hp hpq
    rw [hoff] at hpq
    exact hR.distinct p q hp hpq
  case used =>
    intro p hp
    rw [hvalid, honswap] at hp
    exact hR.used p hp
  case taken =>
    intro i hi hfree
    rw [h.swapmap] at hfree
    obtain ⟨p, hp⟩ := hR.taken i hi hfree
    exact ⟨p, (hoff p).trans hp⟩
  case slots => rw [h.swapmap]; exact hR.slots
  case tail => rw [h.swapmap]; exact hR.tail

end Marked

/-! ## Filling a free frame -/

/-- What a miss does with the free frame `f`, up to the call of `ref_fcn`. -/
structure Loaded (a : Access) (f : Nat) (m m' : Machine) : Prop where
  memsize : m'.memsize = m.memsize
  coremap : m'.coremap = (claimFrame f (ptrOf a.vaddr) m).coremap
  swapfile : m'.swapfile = m.swapfile
  swapmap : m'.swapmap = m.swapmap
  others : ∀ p, p ≠ ptrOf a.vaddr → m'.pte p = m.pte p
  valid : (m'.pte (ptrOf a.vaddr)).valid = true
  dirty : (m'.pte (ptrOf a.vaddr)).dirty = (a.stores || !(m.pte (ptrOf a.vaddr)).onswap)
  onswap : (m'.pte (ptrOf a.vaddr)).onswap = false
  frameNumber : (m'.pte (ptrOf a.vaddr)).frameNumber = f
  swapOff : (m'.pte (ptrOf a.vaddr)).swapOff = (m.pte (ptrOf a.vaddr)).swapOff
  physmem : m'.physmem = if (m.pte (ptrOf a.vaddr)).onswap then
      copyBytes simpagesize m.swapfile (m.pte (ptrOf a.vaddr)).swapOff.toNat m.physmem
        (f * simpagesize)
    else (initFrame f a.vaddr m).physmem

theorem loadPage_ok {n : Nat} {T : Finset PtePtr} {m : Machine} (hR : Residency n T m) (a : Access)
    {f : Nat} (hf : f < 2 ^ 19) (hv : (m.pte (ptrOf a.vaddr)).valid = false) :
    ∃ m', loadPage (m.pte (ptrOf a.vaddr)).onswap f a.vaddr (claimFrame f (ptrOf a.vaddr) m) =
      .ok m' ∧ Loaded a f m (markAccess a m') := by
  have hfn : ∀ mask : BitVec 32, mask >>> pageShift = 0#32 → ∀ off,
      (⟨BitVec.ofNat 32 f <<< pageShift ||| mask, off⟩ : Pte).frameNumber = f :=
    fun mask hm _ => Pte.frameWord_lt hf mask hm
  cases hon : (m.pte (ptrOf a.vaddr)).onswap with
  | true =>
    have hoff := hR.backed _ (.inl hon)
    let m₁ : Machine :=
      { claimFrame f (ptrOf a.vaddr) m with
        physmem := copyBytes simpagesize m.swapfile (m.pte (ptrOf a.vaddr)).swapOff.toNat
          m.physmem (f * simpagesize) }
    let m₂ : Machine := m₁.setPte (ptrOf a.vaddr)
      { m.pte (ptrOf a.vaddr) with frame := BitVec.ofNat 32 f <<< pageShift &&& ~~~pgOnswap }
    have hrun : loadPage true f a.vaddr (claimFrame f (ptrOf a.vaddr) m) = .ok m₂ := by
      have hpte : (claimFrame f (ptrOf a.vaddr) m).pte (ptrOf a.vaddr) = m.pte (ptrOf a.vaddr) := rfl
      simp only [loadPage, if_true, swapPagein, hpte, hR.toInt32_swapOff, if_neg hoff, bind,
        Except.bind, pure, Except.pure]
      rfl
    have hmark := markAccess_marked a m₂
    have hpte : m₂.pte (ptrOf a.vaddr) = _ := Machine.setPte_pte_self m₁ _ _
    refine ⟨m₂, hrun, hmark.memsize, hmark.coremap, hmark.swapfile, hmark.swapmap,
      fun p hp => ?_, hmark.valid, ?_, ?_, ?_, ?_, ?_⟩
    · rw [hmark.others p hp]
      exact Machine.setPte_pte_of_ne m₁ _ hp
    · rw [hmark.dirty, hpte, hon]
      congr 1
      exact (hasFlag_clear_of_disjoint _ (by decide)).trans (Pte.hasFlag_frameWord f (by decide))
    · rw [hmark.onswap, hpte]
      exact hasFlag_clear_self _ _
    · rw [hmark.frameNumber, hpte]
      have hclear := clear_ushiftRight (BitVec.ofNat 32 f <<< pageShift) (m := pgOnswap)
        (n := pageShift) (by decide)
      have hzero := hfn 0#32 (by decide) 0
      rw [BitVec.or_zero] at hzero
      exact (congrArg BitVec.toNat hclear).trans hzero
    · rw [hmark.swapOff, hpte]
    · rw [hmark.physmem, hon]
      rfl
  | false =>
    have hoff : (m.pte (ptrOf a.vaddr)).swapOff = invalidSwap := by
      by_contra hne
      rcases (hR.slotted _ hne).1 with h | h
      · rw [hv] at h
        simp at h
      · rw [hon] at h
        simp at h
    let m₁ : Machine := initFrame f a.vaddr (claimFrame f (ptrOf a.vaddr) m)
    let m₂ : Machine := m₁.setPte (ptrOf a.vaddr)
      ⟨BitVec.ofNat 32 f <<< pageShift ||| pgDirty, invalidSwap⟩
    have hrun : loadPage false f a.vaddr (claimFrame f (ptrOf a.vaddr) m) = .ok m₂ := rfl
    have hmark := markAccess_marked a m₂
    have hpte : m₂.pte (ptrOf a.vaddr) = _ := Machine.setPte_pte_self m₁ _ _
    refine ⟨m₂, hrun, hmark.memsize, hmark.coremap, hmark.swapfile, hmark.swapmap,
      fun p hp => ?_, hmark.valid, ?_, ?_, ?_, ?_, ?_⟩
    · rw [hmark.others p hp]
      exact Machine.setPte_pte_of_ne m₁ _ hp
    · rw [hmark.dirty, hpte, hon]
      congr 1
      exact Pte.dirty_or_dirty ⟨_, _⟩
    · rw [hmark.onswap, hpte]
      exact (hasFlag_or_of_disjoint _ (by decide)).trans (Pte.hasFlag_frameWord f (by decide))
    · rw [hmark.frameNumber, hpte]
      exact hfn pgDirty (by decide) _
    · rw [hmark.swapOff, hpte, hoff]
    · rw [hmark.physmem, hon]
      rfl

namespace Loaded

variable {a : Access} {f n : Nat} {T : Finset PtePtr} {m m' : Machine}

/-- **Filling a free frame keeps the invariant.** -/
theorem residency (h : Loaded a f m m') (hR : Residency n T m) (hT : ptrOf a.vaddr ∈ T)
    (hf : f < m.memsize) (hfree : (m.coremap f).inUse = false)
    (hv : (m.pte (ptrOf a.vaddr)).valid = false) : Residency n T m' := by
  have hcore : ∀ g, g ≠ f → m'.coremap g = m.coremap g := by
    intro g hg
    rw [h.coremap]
    simp only [claimFrame, Function.update_of_ne hg]
  have hnew : m'.coremap f = { m.coremap f with inUse := true, pte := some (ptrOf a.vaddr) } := by
    rw [h.coremap]
    simp only [claimFrame, Function.update_self]
  have hoff : ∀ p, (m'.pte p).swapOff = (m.pte p).swapOff := by
    intro p
    by_cases hp : p = ptrOf a.vaddr
    · rw [hp, h.swapOff]
    · rw [h.others p hp]
  have hne : ∀ p, p ≠ ptrOf a.vaddr → (m.pte p).valid = true → (m.pte p).frameNumber ≠ f := by
    intro p _ hp hEq
    have := (hR.owner p hp).2.1
    rw [hEq, hfree] at this
    exact absurd this (by decide)
  constructor
  case owner =>
    intro p hp
    by_cases hpa : p = ptrOf a.vaddr
    · rw [hpa, h.frameNumber, hnew, h.memsize]
      exact ⟨hf, rfl, rfl⟩
    · rw [h.others p hpa] at hp ⊢
      rw [hcore _ (hne p hpa hp), h.memsize]
      exact hR.owner p hp
  case held =>
    intro g hg hu
    by_cases hgf : g = f
    · exact ⟨ptrOf a.vaddr, h.valid, h.frameNumber.trans hgf.symm⟩
    · rw [hcore g hgf] at hu
      obtain ⟨p, hp, hpg⟩ := hR.held g (h.memsize ▸ hg) hu
      have hpa : p ≠ ptrOf a.vaddr := by
        rintro rfl
        rw [hv] at hp
        simp at hp
      exact ⟨p, by rw [h.others p hpa]; exact hp, by rw [h.others p hpa]; exact hpg⟩
  case exclusive =>
    intro p hp
    by_cases hpa : p = ptrOf a.vaddr
    · rw [hpa, h.onswap]
    · rw [h.others p hpa] at hp ⊢
      exact hR.exclusive p hp
  case backed =>
    intro p hp
    rw [hoff]
    by_cases hpa : p = ptrOf a.vaddr
    · subst hpa
      rw [h.onswap, h.dirty, Bool.or_eq_false_iff, Bool.not_eq_false'] at hp
      rcases hp with hp | ⟨-, -, hon⟩
      · simp at hp
      · exact hR.backed _ (.inl hon)
    · rw [h.others p hpa] at hp
      exact hR.backed p hp
  case slotted =>
    intro p hp
    rw [hoff] at hp
    obtain ⟨hon, hslot⟩ := hR.slotted p hp
    rw [hoff, h.swapmap]
    refine ⟨?_, hslot⟩
    by_cases hpa : p = ptrOf a.vaddr
    · rw [hpa]
      exact .inl h.valid
    · rw [h.others p hpa]
      exact hon
  case distinct =>
    intro p q hp hpq
    rw [hoff] at hp hpq
    rw [hoff] at hpq
    exact hR.distinct p q hp hpq
  case used =>
    intro p hp
    by_cases hpa : p = ptrOf a.vaddr
    · rw [hpa]
      exact hT
    · rw [h.others p hpa] at hp
      exact hR.used p hp
  case taken =>
    intro i hi hi'
    rw [h.swapmap] at hi'
    obtain ⟨p, hp⟩ := hR.taken i hi hi'
    exact ⟨p, (hoff p).trans hp⟩
  case slots => rw [h.swapmap]; exact hR.slots
  case tail => rw [h.swapmap]; exact hR.tail

end Loaded

/-! ## The three ways through `find_physpage` -/

section

variable {σ : Type}

/-- What `find_physpage` does up to the call of `ref_fcn`. -/
inductive Translated (P : Policy σ) (a : Access) (m : Machine) (s : σ) (m' : Machine) (s' : σ) :
    Prop
  | hit : (m.pte (ptrOf a.vaddr)).valid = true →
      Marked a (hitState a.vaddr m) m' →
      s' = s → Translated P a m s m' s'
  | fill {f : Nat} : (m.pte (ptrOf a.vaddr)).valid = false → f < m.memsize →
      (m.coremap f).inUse = false → Loaded a f (missState a.vaddr m) m' → s' = s →
      Translated P a m s m' s'
  | evict {f : Nat} {q : PtePtr} {mp me : Machine} : (m.pte (ptrOf a.vaddr)).valid = false →
      (missState a.vaddr m).Full → f < m.memsize →
      P.evict (missState a.vaddr m) s = .ok ((f : Int), mp, s') →
      (m.coremap f).pte = some q → (m.pte q).valid = true → (m.pte q).frameNumber = f →
      Evicted f q mp me → Loaded a f (releaseFrame f me) m' → Translated P a m s m' s'

theorem Translated.memsize {P : Policy σ} {a : Access} {m m' : Machine} {s s' : σ}
    (h : Translated P a m s m' s') : m'.memsize = m.memsize := by
  cases h with
  | hit _ hmark _ => exact hmark.memsize.trans (sameView_hitState a.vaddr m).memsize
  | fill _ _ _ hload _ => exact hload.memsize.trans (sameView_missState a.vaddr m).memsize
  | evict _ _ _ hevict _ _ _ hevicted hload =>
    have hpolicy := (P.evict_same hevict).sameView.memsize
    exact hload.memsize.trans (hevicted.memsize.trans
      (hpolicy.trans (sameView_missState a.vaddr m).memsize))

theorem Translated.valid {P : Policy σ} {a : Access} {m m' : Machine} {s s' : σ}
    (ht : Translated P a m s m' s') :
    (m'.pte (ptrOf a.vaddr)).valid = true := by
  cases ht with
  | hit _ hmark _ => exact hmark.valid
  | fill _ _ _ hload _ => exact hload.valid
  | evict _ _ _ _ _ _ _ _ hload => exact hload.valid

theorem Translated.dirty {P : Policy σ} {a : Access} {m m' : Machine} {s s' : σ}
    (ht : Translated P a m s m' s') (ha : a.stores = true) :
    (m'.pte (ptrOf a.vaddr)).dirty = true := by
  cases ht with
  | hit _ hmark _ => rw [hmark.dirty, ha, Bool.true_or]
  | fill _ _ _ hload _ => rw [hload.dirty, ha, Bool.true_or]
  | evict _ _ _ _ _ _ _ _ hload => rw [hload.dirty, ha, Bool.true_or]

theorem firstFree_some {m : Machine} {f : Nat} (h : firstFree m = some f) :
    f < m.memsize ∧ (m.coremap f).inUse = false := by
  have hmem := List.mem_of_find?_eq_some h
  have hfree := List.find?_some h
  exact ⟨List.mem_range.mp hmem, by simpa using hfree⟩

theorem full_of_firstFree {m : Machine} (h : firstFree m = none) : m.Full := by
  intro f hf
  have := List.find?_eq_none.mp h f (List.mem_range.mpr hf)
  simpa using this

namespace Residency

variable {P : Policy σ} {a : Access} {n : Nat} {T : Finset PtePtr} {m : Machine} {s : σ}

/-- **`find_physpage` reaches `ref_fcn` in one of three ways**, whatever victim the
policy returns. -/
theorem translate_ok (hR : Residency n T m) (hn : T.card ≤ n) (hT24 : T.card ≤ 2 ^ 24)
    (hT : ptrOf a.vaddr ∈ T) (hvaddr : a.vaddr < 2 ^ 36) (hmem : m.memsize ≤ 2 ^ 19)
    (hans : ((missState a.vaddr m).pte (ptrOf a.vaddr)).valid = false →
      (missState a.vaddr m).Full → P.PicksInUse (missState a.vaddr m) s) :
    ∃ m' s', translate P a m s = .ok (m', s') ∧ Translated P a m s m' s' ∧ Residency n T m' := by
  have hdir : ¬ptrsPerPgdir ≤ pgdirIndex a.vaddr := by
    have := pgdirIndex_lt hvaddr
    omega
  have hview := sameView_missState a.vaddr m
  have hR' : Residency n T (missState a.vaddr m) := hR.of_sameView hview
  have hsize : (missState a.vaddr m).memsize = m.memsize := hview.memsize
  cases hv : (m.pte (ptrOf a.vaddr)).valid with
  | true =>
    have hmark := markAccess_marked a (hitState a.vaddr m)
    have hhit := sameView_hitState a.vaddr m
    have hvh : ((hitState a.vaddr m).pte (ptrOf a.vaddr)).valid = true :=
      (hhit.pte _).valid.trans hv
    refine ⟨_, s, ?_, .hit hv hmark rfl, hmark.residency (hR.of_sameView hhit) hvh⟩
    rw [translate, if_neg hdir, openDirectory_pte, if_pos hv]
  | false =>
    have hv' : ((missState a.vaddr m).pte (ptrOf a.vaddr)).valid = false :=
      (hview.pte _).valid.trans hv
    have hmiss : translate P a m s =
        (bringIn P a.vaddr (missState a.vaddr m) s).bind fun r => .ok (markAccess a r.1, r.2) := by
      rw [translate, if_neg hdir, openDirectory_pte, if_neg (by rw [hv]; decide)]
      rfl
    cases hfree : firstFree (missState a.vaddr m) with
    | some f =>
      obtain ⟨hf, hu⟩ := firstFree_some hfree
      obtain ⟨ml, hload, hloaded⟩ := loadPage_ok hR' a (by omega : f < 2 ^ 19) hv'
      refine ⟨markAccess a ml, s, ?_, .fill hv (hsize ▸ hf) ((hview.inUse f) ▸ hu) hloaded rfl,
        hloaded.residency hR' hT hf hu hv'⟩
      rw [hmiss]
      simp only [bringIn, allocateFrame, hfree, bind, Except.bind, hload, pure, Except.pure]
    | none =>
      have hfull := full_of_firstFree hfree
      obtain ⟨f, mp, sp, hevict, hf, hu⟩ := hans hv' hfull
      have hviewp := (P.evict_same hevict).sameView
      have hRp : Residency n T mp := hR'.of_sameView hviewp
      have hfp : f < mp.memsize := hviewp.memsize ▸ hf
      have hup : (mp.coremap f).inUse = true := (hviewp.inUse f).trans hu
      obtain ⟨q, hq, hqv, hqf⟩ := hRp.owners.coremap_pte hfp hup
      obtain ⟨me, hme, hevicted⟩ := hRp.evictFrame_ok hn hT24 hq hqv
      have hRe := hevicted.residency hRp hfp hqv hqf
      have hpq : ptrOf a.vaddr ≠ q := by
        rintro rfl
        rw [(hviewp.pte _).valid, hv'] at hqv
        simp at hqv
      have hpte : (releaseFrame f me).pte (ptrOf a.vaddr) = mp.pte (ptrOf a.vaddr) :=
        hevicted.others _ hpq
      have hve : ((releaseFrame f me).pte (ptrOf a.vaddr)).valid = false := by
        rw [hpte, (hviewp.pte _).valid, hv']
      have hon : ((releaseFrame f me).pte (ptrOf a.vaddr)).onswap =
          ((missState a.vaddr m).pte (ptrOf a.vaddr)).onswap := by
        rw [hpte, (hviewp.pte _).onswap]
      have hfe : f < (releaseFrame f me).memsize := by
        show f < me.memsize
        rw [hevicted.memsize]
        exact hfp
      have hue : ((releaseFrame f me).coremap f).inUse = false := by simp [releaseFrame]
      obtain ⟨ml, hload, hloaded⟩ := loadPage_ok hRe a (by omega : f < 2 ^ 19) hve
      rw [hon, claimFrame_releaseFrame] at hload
      have hq' : (m.coremap f).pte = some q := by
        rw [← hview.owner, ← hviewp.owner]
        exact hq
      have hqv' : (m.pte q).valid = true := by
        rw [← (hview.pte q).valid, ← (hviewp.pte q).valid]
        exact hqv
      have hqf' : (m.pte q).frameNumber = f := by
        rw [← (hview.pte q).frameNumber, ← (hviewp.pte q).frameNumber]
        exact hqf
      refine ⟨markAccess a ml, sp, ?_,
        .evict hv hfull (hsize ▸ hf) hevict hq' hqv' hqf' hevicted hloaded,
        hloaded.residency hRe hT hfe hue hve⟩
      rw [hmiss]
      have hrange : (0 : Int) ≤ f ∧ (f : Int) < mp.memsize := ⟨Int.natCast_nonneg f, by omega⟩
      simp only [bringIn, allocateFrame, hfree, hevict, bind, Except.bind, Int.toNat_natCast, hme,
        pure, Except.pure, if_pos hrange, hload]

/-- The way of a call that has reached `ref_fcn`. -/
theorem translated_of_run (hR : Residency n T m) (hn : T.card ≤ n) (hT24 : T.card ≤ 2 ^ 24)
    (hT : ptrOf a.vaddr ∈ T) (hvaddr : a.vaddr < 2 ^ 36) (hmem : m.memsize ≤ 2 ^ 19)
    (hans : ((missState a.vaddr m).pte (ptrOf a.vaddr)).valid = false →
      (missState a.vaddr m).Full → P.PicksInUse (missState a.vaddr m) s) {m' : Machine} {s' : σ}
    (hrun : translate P a m s = .ok (m', s')) : Translated P a m s m' s' ∧ Residency n T m' := by
  obtain ⟨m₁, s₁, htr, ht, hR₁⟩ := hR.translate_ok hn hT24 hT hvaddr hmem hans
  rw [htr] at hrun
  cases hrun
  exact ⟨ht, hR₁⟩

/-- **One call of `find_physpage`.** -/
theorem findPhyspage_ok (hR : Residency n T m) (hn : T.card ≤ n) (hT24 : T.card ≤ 2 ^ 24)
    (hT : ptrOf a.vaddr ∈ T) (hvaddr : a.vaddr < 2 ^ 36) (hmem : m.memsize ≤ 2 ^ 19)
    (hans : P.Answers a m s) :
    ∃ m₁ s₁ m₂ s₂, translate P a m s = .ok (m₁, s₁) ∧ Translated P a m s m₁ s₁ ∧
      Residency n T m₁ ∧ P.ref (ptrOf a.vaddr) m₁ s₁ = .ok (m₂, s₂) ∧
      findPhyspage P a m s = .ok ((m₂.pte (ptrOf a.vaddr)).frameNumber * simpagesize,
        { m₂ with refCount := incr m₂.refCount }, s₂) ∧
      Residency n T { m₂ with refCount := incr m₂.refCount } ∧ m₂.memsize = m.memsize := by
  obtain ⟨m₁, s₁, htr, hcases, hR₁⟩ := hR.translate_ok hn hT24 hT hvaddr hmem hans.evict
  obtain ⟨⟨m₂, s₂⟩, href⟩ := hans.ref m₁ s₁ htr
  have hview := (P.ref_same href).sameView
  refine ⟨m₁, s₁, m₂, s₂, htr, hcases, hR₁, href, ?_, hR₁.of_sameView (hview.trans
    ⟨rfl, fun _ => .refl _, fun _ => rfl, fun _ => rfl, rfl⟩), hview.memsize.trans hcases.memsize⟩
  simp only [findPhyspage, htr, href, bind, Except.bind, pure, Except.pure]
  rfl

/-- One `find_physpage` call, as a step of a run. -/
theorem findStep_ok (hR : Residency n T m) (hn : T.card ≤ n) (hT24 : T.card ≤ 2 ^ 24)
    (hT : ptrOf a.vaddr ∈ T) (hvaddr : a.vaddr < 2 ^ 36) (hmem : m.memsize ≤ 2 ^ 19)
    (hans : P.Answers a m s) :
    ∃ m' s', findStep P a m s = .ok (m', s') ∧ Residency n T m' ∧ m'.memsize = m.memsize := by
  obtain ⟨m₁, s₁, m₂, s₂, -, -, -, -, hfind, hR', hsize⟩ :=
    hR.findPhyspage_ok hn hT24 hT hvaddr hmem hans
  refine ⟨_, s₂, ?_, hR', hsize⟩
  simp only [findStep, hfind, bind, Except.bind, pure, Except.pure]

/-- One `access_mem` call, as a step of a run. -/
theorem accessStep_ok (hR : Residency n T m) (hn : T.card ≤ n) (hT24 : T.card ≤ 2 ^ 24)
    (hT : ptrOf a.vaddr ∈ T) (hvaddr : a.vaddr < 2 ^ 36) (hmem : m.memsize ≤ 2 ^ 19)
    (hans : P.Answers a m s) :
    ∃ m' s', accessStep P a m s = .ok (m', s') ∧ Residency n T m' ∧ m'.memsize = m.memsize := by
  obtain ⟨m₁, s₁, m₂, s₂, -, -, -, -, hfind, hR', hsize⟩ :=
    hR.findPhyspage_ok hn hT24 hT hvaddr hmem hans
  have hview := sameView_bumpVersion a ((m₂.pte (ptrOf a.vaddr)).frameNumber * simpagesize)
    { m₂ with refCount := incr m₂.refCount }
  refine ⟨_, s₂, ?_, hR'.of_sameView hview, hview.memsize.trans hsize⟩
  simp only [accessStep, accessMem, hfind, bind, Except.bind, pure, Except.pure]

end Residency

end

end Paging
end OsAssignments
