import OsAssignments.Paging.Correspondence

/-!
# Simulated paged memory refines a flat memory

The memory a trace is meant to see has one page per page number.  A page holds its
own address and a version, which every write access increments.

* `writesTo` — the flat memory: the version of each page after a trace.
* `Holds` — the 16 bytes at an address are the page, as physical memory and the swap
  file store it.
* `Contents` — where the newest bytes of each page are: in its frame; on swap if the
  page was evicted, or if it is in memory and clean.
* `Contents.translated`, `Contents.bump`, `Contents.accessMem_ok` — one access keeps
  this.
* `paging_refines_flat_memory` — after every prefix of a trace the next access finds
  its page as the flat memory has it.
-/

namespace OsAssignments
namespace Paging

open MachineWord ByteMemory

/-! ## The flat memory -/

/-- The number of write accesses a trace makes to a page. -/
def writesTo (past : List Access) (page : Nat) : Nat :=
  past.countP fun a => a.stores && pageOf a.vaddr == page

theorem writesTo_concat (past : List Access) (a : Access) (page : Nat) :
    writesTo (past ++ [a]) page =
      writesTo past page + if a.stores && pageOf a.vaddr == page then 1 else 0 := by
  unfold writesTo
  rw [List.countP_append, List.countP_singleton]

/-- The 16 bytes at `at_` are page `page` with version `v`. -/
structure Holds (mem : Memory) (at_ page v : Nat) : Prop where
  address : readLE mem 8 (at_ + 4) = page * 2 ^ pageShift
  version : readLE mem 4 at_ = v % 2 ^ 32

namespace Holds

variable {mem mem' : Memory} {at_ page v : Nat}

theorem of_agreeOn (h : Holds mem at_ page v) (hag : AgreeOn mem mem' at_ simpagesize) :
    Holds mem' at_ page v := by
  unfold simpagesize at hag
  have haddr : AgreeOn mem mem' (at_ + 4) 8 := hag.mono (by omega) (by omega)
  have hver : AgreeOn mem mem' at_ 4 := hag.mono (by omega) (by omega)
  exact ⟨haddr.readLE.trans h.address, hver.readLE.trans h.version⟩

/-- Moving a page between memory and swap moves its contents. -/
theorem copyBytes (h : Holds mem at_ page v) (dst : Nat) :
    Holds (ByteMemory.copyBytes simpagesize mem at_ mem' dst) dst page v := by
  constructor
  · rw [readLE_copyBytes _ _ _ _ _ (by omega) (by unfold simpagesize; omega),
      show dst + 4 - dst + at_ = at_ + 4 by omega]
    exact h.address
  · rw [readLE_copyBytes _ _ _ _ _ (le_refl dst) (by unfold simpagesize; omega),
      Nat.sub_self, Nat.zero_add]
    exact h.version

/-- Incrementing the version leaves the address. -/
theorem bump (h : Holds mem at_ page v) :
    Holds (writeLE 4 mem at_ (readLE mem 4 at_ + 1)) at_ page (v + 1) := by
  constructor
  · rw [(writeLE_of_disjoint 4 mem at_ _ (.inr (le_refl _)) : AgreeOn mem _ (at_ + 4) 8).readLE]
    exact h.address
  · rw [readLE_writeLE, h.version]
    omega

end Holds

theorem pageOf_mul {vaddr : Nat} (h : vaddr % 2 ^ pageShift = 0) :
    pageOf vaddr * 2 ^ pageShift = vaddr := by
  rw [pageOf, Nat.shiftRight_eq_div_pow]
  exact Nat.div_mul_cancel (Nat.dvd_of_mod_eq_zero h)

/-- `init_frame` makes a page of version zero. -/
theorem holds_initFrame (f vaddr : Nat) (m : Machine) (hv : vaddr < 2 ^ 36)
    (hal : vaddr % 2 ^ pageShift = 0) :
    Holds (initFrame f vaddr m).physmem (f * simpagesize) (pageOf vaddr) 0 := by
  constructor
  · rw [pageOf_mul hal]
    exact readLE_writeLE_of_lt _ _ (by omega)
  · have hframe : AgreeOn (fillBytes simpagesize m.physmem (f * simpagesize) 0)
        (initFrame f vaddr m).physmem (f * simpagesize) 4 :=
      writeLE_of_disjoint 8 _ _ _ (.inl (le_refl _))
    rw [hframe.readLE, readLE_fillBytes_zero _ _ _ (le_refl _) (by unfold simpagesize; omega)]
    rfl

/-! ## Where the newest bytes of a page are -/

/-- Every page is stored with the version `F` gives it. -/
structure Contents (F : Nat → Nat) (m : Machine) : Prop where
  resident : ∀ page, (m.pte (ptrOfPage page)).valid = true →
    Holds m.physmem ((m.pte (ptrOfPage page)).frameNumber * simpagesize) page (F page)
  /-- The slot of a page is up to date if the page was evicted, or is clean. -/
  swapped : ∀ page, (m.pte (ptrOfPage page)).onswap = true ∨
      ((m.pte (ptrOfPage page)).valid = true ∧ (m.pte (ptrOfPage page)).dirty = false) →
    Holds m.swapfile (m.pte (ptrOfPage page)).swapOff.toNat page (F page)
  untouched : ∀ page, (m.pte (ptrOfPage page)).valid = false →
    (m.pte (ptrOfPage page)).onswap = false → F page = 0

namespace Contents

variable {F : Nat → Nat} {n f : Nat} {T : Finset PtePtr} {q : PtePtr} {a : Access} {m m' : Machine}

theorem of_sameView (h : Contents F m) (hs : m.SameView m') (hphys : m'.physmem = m.physmem)
    (hswap : m'.swapfile = m.swapfile) : Contents F m' := by
  constructor
  · intro page hv
    rw [(hs.pte _).valid] at hv
    rw [(hs.pte _).frameNumber, hphys]
    exact h.resident page hv
  · intro page hon
    rw [(hs.pte _).onswap, (hs.pte _).valid, (hs.pte _).dirty] at hon
    rw [(hs.pte _).swapOff, hswap]
    exact h.swapped page hon
  · intro page hv hon
    rw [(hs.pte _).valid] at hv
    rw [(hs.pte _).onswap] at hon
    exact h.untouched page hv hon

theorem slot_disjoint {i j : Nat} (hij : i ≠ j) :
    (slotOffset i).toNat + simpagesize ≤ (slotOffset j).toNat ∨
      (slotOffset j).toNat + simpagesize ≤ (slotOffset i).toNat := by
  unfold slotOffset simpagesize
  omega

/-- **Eviction** writes a dirty victim to its slot, over no other page; a clean
victim is on swap already. -/
theorem evicted (h : Contents F m) (hR : Residency n T m) (he : Evicted f q m m')
    (hv : (m.pte q).valid = true) (hfn : (m.pte q).frameNumber = f)
    (hRe : Residency n T (releaseFrame f m')) : Contents F (releaseFrame f m') := by
  have hothers : ∀ page, ptrOfPage page ≠ q →
      (releaseFrame f m').pte (ptrOfPage page) = m.pte (ptrOfPage page) :=
    fun page hp => he.others _ hp
  have hslot : ∀ page, ptrOfPage page ≠ q → (m.pte (ptrOfPage page)).swapOff ≠ invalidSwap →
      Holds m.swapfile (m.pte (ptrOfPage page)).swapOff.toNat page (F page) →
      Holds m'.swapfile (m.pte (ptrOfPage page)).swapOff.toNat page (F page) := by
    intro page hp hoff hold
    rw [he.swapfile]
    split
    · obtain ⟨-, i, -, -, -, hi⟩ := hR.slotted _ hoff
      obtain ⟨-, j, -, -, -, hj⟩ := hRe.slotted q he.swapOff_ne
      have hj' : (m'.pte q).swapOff = slotOffset j := hj
      have hij : i ≠ j := by
        rintro rfl
        exact he.swapOff_others hR hp (hi.trans hj'.symm)
      refine hold.of_agreeOn (copyBytes_of_disjoint _ _ _ _ _ ?_)
      rw [hi, hj']
      exact slot_disjoint hij
    · exact hold
  constructor
  · intro page hpv
    by_cases hp : ptrOfPage page = q
    · have hinv : ((releaseFrame f m').pte q).valid = false := he.valid
      rw [hp, hinv] at hpv
      simp at hpv
    · rw [hothers page hp] at hpv ⊢
      show Holds m'.physmem _ _ _
      rw [he.physmem]
      exact h.resident page hpv
  · intro page hon
    by_cases hp : ptrOfPage page = q
    · subst hp
      show Holds m'.swapfile (m'.pte (ptrOfPage page)).swapOff.toNat _ _
      rw [he.swapfile]
      cases hd : (m.pte (ptrOfPage page)).dirty with
      | true =>
        rw [if_pos rfl]
        have hres := h.resident page hv
        rw [hfn] at hres
        exact hres.copyBytes _
      | false =>
        rw [if_neg (by decide)]
        have hoff := hR.backed _ (.inr ⟨hv, hd⟩)
        rcases he.slot with ⟨-, hEq, -⟩ | ⟨hnone, -⟩
        · rw [hEq]
          exact h.swapped page (.inr ⟨hv, hd⟩)
        · exact absurd hnone hoff
    · rw [hothers page hp] at hon ⊢
      exact hslot page hp (hR.backed _ hon) (h.swapped page hon)
  · intro page hpv hon
    by_cases hp : ptrOfPage page = q
    · have hons : ((releaseFrame f m').pte q).onswap = true := he.onswap
      rw [hp, hons] at hon
      simp at hon
    · rw [hothers page hp] at hpv hon
      exact h.untouched page hpv hon

/-- **A miss** brings the page back from its slot, or makes a page of version
zero, in a frame that holds no other page. -/
theorem loaded (h : Contents F m) (hR : Residency n T m) (hl : Loaded a f m m')
    (hfree : (m.coremap f).inUse = false) (hpv : (m.pte (ptrOf a.vaddr)).valid = false)
    (hvaddr : a.vaddr < 2 ^ 36) (hal : a.vaddr % 2 ^ pageShift = 0) : Contents F m' := by
  have hpage : ∀ page, page ≠ pageOf a.vaddr → ptrOfPage page ≠ ptrOf a.vaddr := by
    intro page hne hEq
    rw [ptrOf_eq] at hEq
    exact hne (ptrOfPage_injective hEq)
  have hown : m'.pte (ptrOfPage (pageOf a.vaddr)) = m'.pte (ptrOf a.vaddr) := by rw [ptrOf_eq]
  have hself : ptrOfPage (pageOf a.vaddr) = ptrOf a.vaddr := (ptrOf_eq a.vaddr).symm
  constructor
  · intro page hv
    by_cases hp : page = pageOf a.vaddr
    · subst hp
      rw [hown, hl.frameNumber, hl.physmem]
      cases hon : (m.pte (ptrOf a.vaddr)).onswap with
      | true =>
        rw [if_pos rfl]
        have hswap := h.swapped (pageOf a.vaddr) (by rw [hself]; exact .inl hon)
        rw [hself] at hswap
        exact hswap.copyBytes _
      | false =>
        rw [if_neg (by decide), h.untouched (pageOf a.vaddr) (by rw [hself]; exact hpv)
          (by rw [hself]; exact hon)]
        exact holds_initFrame f a.vaddr m hvaddr hal
    · rw [hl.others _ (hpage page hp)] at hv ⊢
      have hne : (m.pte (ptrOfPage page)).frameNumber ≠ f := by
        intro hEq
        have := (hR.owner _ hv).2.1
        rw [hEq, hfree] at this
        exact absurd this (by decide)
      have hdis : (m.pte (ptrOfPage page)).frameNumber * simpagesize + simpagesize ≤
            f * simpagesize ∨
          f * simpagesize + simpagesize ≤ (m.pte (ptrOfPage page)).frameNumber * simpagesize := by
        unfold simpagesize
        omega
      refine (h.resident page hv).of_agreeOn ?_
      rw [hl.physmem]
      split
      · exact copyBytes_of_disjoint _ _ _ _ _ hdis
      · refine (fillBytes_of_disjoint _ _ _ _ hdis).trans (writeLE_of_disjoint _ _ _ _ ?_)
        unfold simpagesize at hdis ⊢
        omega
  · intro page hon
    rw [hl.swapfile]
    by_cases hp : page = pageOf a.vaddr
    · subst hp
      rw [hown, hl.onswap, hl.dirty, Bool.or_eq_false_iff, Bool.not_eq_false'] at hon
      rcases hon with hon | ⟨-, -, hon⟩
      · simp at hon
      · rw [hown, hl.swapOff, ← hself]
        exact h.swapped _ (.inl (hself ▸ hon))
    · rw [hl.others _ (hpage page hp)] at hon ⊢
      exact h.swapped page hon
  · intro page hv hon
    by_cases hp : page = pageOf a.vaddr
    · rw [hp, hown, hl.valid] at hv
      simp at hv
    · rw [hl.others _ (hpage page hp)] at hv hon
      exact h.untouched page hv hon

theorem marked (h : Contents F m) (hm : Marked a m m')
    (hv : (m.pte (ptrOf a.vaddr)).valid = true) : Contents F m' := by
  have hsame : ∀ p, (m'.pte p).valid = (m.pte p).valid ∧ (m'.pte p).onswap = (m.pte p).onswap ∧
      (m'.pte p).frameNumber = (m.pte p).frameNumber ∧ (m'.pte p).swapOff = (m.pte p).swapOff ∧
      ((m'.pte p).dirty = false → (m.pte p).dirty = false) := by
    intro p
    by_cases hp : p = ptrOf a.vaddr
    · subst hp
      refine ⟨hm.valid.trans hv.symm, hm.onswap, hm.frameNumber, hm.swapOff, fun hd => ?_⟩
      rw [hm.dirty, Bool.or_eq_false_iff] at hd
      exact hd.2
    · rw [hm.others p hp]
      exact ⟨rfl, rfl, rfl, rfl, id⟩
  constructor
  · intro page hpv
    obtain ⟨hvalid, -, hfn, -, -⟩ := hsame (ptrOfPage page)
    rw [hvalid] at hpv
    rw [hfn, hm.physmem]
    exact h.resident page hpv
  · intro page hon
    obtain ⟨hvalid, honswap, -, hoff, hclean⟩ := hsame (ptrOfPage page)
    rw [honswap, hvalid] at hon
    rw [hoff, hm.swapfile]
    exact h.swapped page (hon.imp_right fun hc => ⟨hc.1, hclean hc.2⟩)
  · intro page hpv hon
    obtain ⟨hvalid, honswap, -, -, -⟩ := hsame (ptrOfPage page)
    rw [hvalid] at hpv
    rw [honswap] at hon
    exact h.untouched page hpv hon

/-- The state a write access leaves the accessed page in. -/
theorem bump (h : Contents F m) (hR : Residency n T m)
    (hv : (m.pte (ptrOf a.vaddr)).valid = true)
    (hd : a.stores = true → (m.pte (ptrOf a.vaddr)).dirty = true) :
    Contents (fun page => F page + if a.stores && pageOf a.vaddr == page then 1 else 0)
      (bumpVersion a ((m.pte (ptrOf a.vaddr)).frameNumber * simpagesize) m) := by
  have hself : ptrOfPage (pageOf a.vaddr) = ptrOf a.vaddr := (ptrOf_eq a.vaddr).symm
  cases ha : a.stores with
  | false =>
    have hsame : bumpVersion a ((m.pte (ptrOf a.vaddr)).frameNumber * simpagesize) m = m := by
      simp [bumpVersion, ha]
    rw [hsame]
    exact h
  | true =>
    have hrun : bumpVersion a ((m.pte (ptrOf a.vaddr)).frameNumber * simpagesize) m =
        { m with
          physmem := writeLE 4 m.physmem ((m.pte (ptrOf a.vaddr)).frameNumber * simpagesize)
            (version m ((m.pte (ptrOf a.vaddr)).frameNumber * simpagesize) + 1) } := by
      simp [bumpVersion, ha]
    rw [hrun]
    constructor
    · intro page hpv
      have hpv' : (m.pte (ptrOfPage page)).valid = true := hpv
      by_cases hp : page = pageOf a.vaddr
      · subst hp
        have hres := (h.resident _ hpv').bump
        simp only [beq_self_eq_true, Bool.and_self, if_true]
        rw [hself] at hres
        show Holds _ ((m.pte (ptrOfPage (pageOf a.vaddr))).frameNumber * simpagesize) _ _
        rw [hself]
        exact hres
      · have hne : (m.pte (ptrOfPage page)).frameNumber ≠ (m.pte (ptrOf a.vaddr)).frameNumber := by
          intro hEq
          have := hR.owners.eq_of_frameNumber hpv' hv hEq
          rw [← hself] at this
          exact hp (ptrOfPage_injective this)
        have hbeq : (pageOf a.vaddr == page) = false := beq_false_of_ne (Ne.symm hp)
        simp only [hbeq, Bool.and_false]
        refine (h.resident page hpv').of_agreeOn (writeLE_of_disjoint _ _ _ _ ?_)
        show (m.pte (ptrOfPage page)).frameNumber * simpagesize + simpagesize ≤ _ ∨
          _ ≤ (m.pte (ptrOfPage page)).frameNumber * simpagesize
        unfold simpagesize
        omega
    · intro page hon
      have hon' : (m.pte (ptrOfPage page)).onswap = true ∨
        ((m.pte (ptrOfPage page)).valid = true ∧ (m.pte (ptrOfPage page)).dirty = false) := hon
      have hp : pageOf a.vaddr ≠ page := by
        rintro rfl
        rw [hself, hR.exclusive _ hv, hd ha] at hon'
        simp at hon'
      simp only [beq_false_of_ne hp, Bool.and_false]
      exact h.swapped page hon'
    · intro page hpv hon
      have hpv' : (m.pte (ptrOfPage page)).valid = false := hpv
      have hp : pageOf a.vaddr ≠ page := by
        rintro rfl
        rw [hself, hv] at hpv'
        simp at hpv'
      simp only [beq_false_of_ne hp, Bool.and_false]
      exact h.untouched page hpv' hon

end Contents

/-! ## One access -/

section

variable {σ : Type} {P : Policy σ} {F : Nat → Nat} {n : Nat} {T : Finset PtePtr} {a : Access}
  {m m' : Machine} {s s' : σ}

/-- However `find_physpage` gets to the page, it keeps the contents of all pages. -/
theorem Contents.translated (h : Contents F m) (hR : Residency n T m)
    (ht : Translated P a m s m' s') (hvaddr : a.vaddr < 2 ^ 36)
    (hal : a.vaddr % 2 ^ pageShift = 0) : Contents F m' := by
  have hphys : ∀ dir, (openDirectory dir m).physmem = m.physmem := by
    intro dir
    rw [openDirectory_eq]
  have hfile : ∀ dir, (openDirectory dir m).swapfile = m.swapfile := by
    intro dir
    rw [openDirectory_eq]
  have hmiss := sameView_missState a.vaddr m
  have hRm : Residency n T (missState a.vaddr m) := hR.of_sameView hmiss
  have hCm : Contents F (missState a.vaddr m) := h.of_sameView hmiss (hphys _) (hfile _)
  cases ht with
  | hit hv hmark _ =>
    have hhit := sameView_hitState a.vaddr m
    have hCh : Contents F (hitState a.vaddr m) := h.of_sameView hhit (hphys _) (hfile _)
    exact hCh.marked hmark ((hhit.pte _).valid.trans hv)
  | fill hv _ hfree hload _ =>
    exact hCm.loaded hRm hload ((hmiss.inUse _).trans hfree) ((hmiss.pte _).valid.trans hv)
      hvaddr hal
  | @evict f q mp me hv _ hf hevict _ hqv hqf hevicted hload =>
    have hpolicy := P.evict_same hevict
    have hview := hmiss.trans hpolicy.sameView
    have hRp : Residency n T mp := hR.of_sameView hview
    have hCp : Contents F mp := hCm.of_sameView hpolicy.sameView hpolicy.physmem hpolicy.swapfile
    have hqv' : (mp.pte q).valid = true := (hview.pte q).valid.trans hqv
    have hqf' : (mp.pte q).frameNumber = f := (hview.pte q).frameNumber.trans hqf
    have hRe := hevicted.residency hRp (hview.memsize ▸ hf) hqv' hqf'
    have hCe := hCp.evicted hRp hevicted hqv' hqf' hRe
    refine hCe.loaded hRe hload (by simp [releaseFrame]) ?_ hvaddr hal
    have hpq : ptrOf a.vaddr ≠ q := by
      rintro rfl
      rw [hv] at hqv
      simp at hqv
    have hpte : (releaseFrame f me).pte (ptrOf a.vaddr) = mp.pte (ptrOf a.vaddr) :=
      hevicted.others _ hpq
    rw [hpte, (hview.pte _).valid, hv]

/-- **One access, on the flat memory's terms.**  The page is found with the version
the flat memory gives it, and the write goes to it alone. -/
theorem Contents.accessMem_ok (h : Contents F m) (hR : Residency n T m) (hn : T.card ≤ n)
    (hT24 : T.card ≤ 2 ^ 24) (hT : ptrOf a.vaddr ∈ T) (hvaddr : a.vaddr < 2 ^ 36)
    (hal : a.vaddr % 2 ^ pageShift = 0) (hmem : m.memsize ≤ 2 ^ 19) (hans : P.Answers a m s) :
    ∃ memptr mf m' s', findPhyspage P a m s = .ok (memptr, mf, s') ∧
      memptr + simpagesize ≤ m.memsize * simpagesize ∧
      Holds mf.physmem memptr (pageOf a.vaddr) (F (pageOf a.vaddr)) ∧
      accessMem P a m s = .ok (false, m', s') ∧ Residency n T m' ∧ m'.memsize = m.memsize ∧
      Contents (fun page => F page + if a.stores && pageOf a.vaddr == page then 1 else 0) m' := by
  obtain ⟨m₁, s₁, m₂, s₂, -, ht, hR₁, href, hfind, hR₂, hsize⟩ :=
    hR.findPhyspage_ok hn hT24 hT hvaddr hmem hans
  have hpolicy := P.ref_same href
  have hC₁ := h.translated hR ht hvaddr hal
  have hC₂ : Contents F { m₂ with refCount := incr m₂.refCount } :=
    (hC₁.of_sameView hpolicy.sameView hpolicy.physmem hpolicy.swapfile).of_sameView
      ⟨rfl, fun _ => .refl _, fun _ => rfl, fun _ => rfl, rfl⟩ rfl rfl
  have hv₂ : (m₂.pte (ptrOf a.vaddr)).valid = true :=
    (hpolicy.sameView.pte _).valid.trans ht.valid
  have hd₂ : a.stores = true → (m₂.pte (ptrOf a.vaddr)).dirty = true :=
    fun ha => (hpolicy.sameView.pte _).dirty.trans (ht.dirty ha)
  have hself : ptrOfPage (pageOf a.vaddr) = ptrOf a.vaddr := (ptrOf_eq a.vaddr).symm
  have hholds := hC₂.resident (pageOf a.vaddr) (hself ▸ hv₂)
  rw [hself] at hholds
  have hframe := (hR₂.owner (ptrOf a.vaddr) hv₂).1
  have hview := sameView_bumpVersion a ((m₂.pte (ptrOf a.vaddr)).frameNumber * simpagesize)
    { m₂ with refCount := incr m₂.refCount }
  refine ⟨_, _, _, s₂, hfind, ?_, hholds, ?_, hR₂.of_sameView hview, hview.memsize.trans hsize,
    hC₂.bump hR₂ hv₂ hd₂⟩
  · have hle := Nat.mul_le_mul_right simpagesize (Nat.succ_le_of_lt hframe)
    rw [Nat.succ_mul] at hle
    exact hsize ▸ hle
  · have hcheck : checkaddr { m₂ with refCount := incr m₂.refCount }
        ((m₂.pte (ptrOf a.vaddr)).frameNumber * simpagesize) = a.vaddr :=
      hholds.address.trans (pageOf_mul hal)
    simp only [accessMem, hfind, bind, Except.bind, pure, Except.pure, hcheck, bne_self_eq_false]

/-! ## Whole runs -/

theorem Policy.AnswersAlong.prefix {next : Access → Machine → σ → Except Fault (Machine × σ)} :
    ∀ {pre post : List Access} {m : Machine} {s : σ},
      P.AnswersAlong next (pre ++ a :: post) m s →
      P.AnswersAlong next pre m s ∧
        ∀ m' s', runWith next pre m s = .ok (m', s') → P.Answers a m' s' := by
  intro pre
  induction pre with
  | nil =>
    intro post m s h
    refine ⟨trivial, fun m' s' hrun => ?_⟩
    cases hrun
    exact h.1
  | cons b pre ih =>
    intro post m s h
    refine ⟨⟨h.1, fun m' s' hnext => (ih (h.2 m' s' hnext)).1⟩, fun m' s' hrun => ?_⟩
    cases hnext : next b m s with
    | error e => simp [runWith, hnext, bind, Except.bind] at hrun
    | ok r =>
      simp only [runWith, hnext, bind, Except.bind] at hrun
      exact (ih (h.2 r.1 r.2 hnext)).2 m' s' hrun

/-- **Simulated paged memory refines a flat memory.**  After every prefix of a
trace, `find_physpage` returns the address of 16 bytes in `physmem` that hold the
page's own address and the number of write accesses made to it so far, and the
check of `access_mem` reports nothing. -/
theorem paging_refines_flat_memory (P : Policy σ) (s : σ) (trace : List Access)
    (memsize swapsize : Nat) (physmem swapfile : Memory) (b : Bitmap)
    (hswap : swapsize < 2 ^ 32) (hb : bitmapCreate swapsize = .ok b) (hmem : memsize ≤ 2 ^ 19)
    (hvaddr : ∀ a ∈ trace, a.vaddr < 2 ^ 36 ∧ a.vaddr % 2 ^ pageShift = 0)
    (hslots : (pagesOf trace).card ≤ b.slots.card)
    (hans : P.AnswersAlong (accessStep P) trace (boot memsize physmem swapfile b) s)
    (pre post : List Access) (a : Access) (htrace : trace = pre ++ a :: post) :
    ∃ m s', replay P pre (boot memsize physmem swapfile b) s = .ok (m, s') ∧
      ∃ memptr mf sf, findPhyspage P a m s' = .ok (memptr, mf, sf) ∧
        memptr + simpagesize ≤ memsize * simpagesize ∧ checkaddr mf memptr = a.vaddr ∧
        version mf memptr = writesTo pre (pageOf a.vaddr) % 2 ^ 32 ∧
        ∃ m' s'', accessMem P a m s' = .ok (false, m', s'') := by
  have h36 : ∀ a ∈ trace, a.vaddr < 2 ^ 36 := fun a ha => (hvaddr a ha).1
  have hn := (card_entriesOf trace).le.trans hslots
  have hT24 := (card_entriesOf trace).le.trans (card_pagesOf_le h36)
  let I : List Access → Machine → σ → Prop := fun past m _ =>
    Residency b.slots.card (entriesOf trace) m ∧ m.memsize = memsize ∧ Contents (writesTo past) m
  have hstart : I [] (boot memsize physmem swapfile b) s := by
    refine ⟨Residency.boot hswap hb _ memsize physmem swapfile, rfl, ?_, ?_, fun _ _ _ => rfl⟩
    · intro page hv
      exact absurd (show Pte.fresh.valid = true from hv) (by decide)
    · intro page hon
      exact absurd (show Pte.fresh.onswap = true ∨ (Pte.fresh.valid = true ∧ _) from hon) (by simp)
  have hstep : ∀ past, ∀ a ∈ pre, ∀ m s, I past m s → P.Answers a m s →
      ∃ m' s', accessStep P a m s = .ok (m', s') ∧ I (past ++ [a]) m' s' := by
    rintro past a ha m s ⟨hR, hsize, hC⟩ hans
    have hat : a ∈ trace := htrace ▸ List.mem_append_left _ ha
    obtain ⟨_, _, m', s', -, -, -, hacc, hR', hsize', hC'⟩ := hC.accessMem_ok hR hn hT24
      (ptrOf_mem_entriesOf hat) (h36 a hat) (hvaddr a hat).2 (hsize ▸ hmem) hans
    refine ⟨m', s', ?_, hR', hsize'.trans hsize, ?_⟩
    · simp only [accessStep, hacc, bind, Except.bind, pure, Except.pure]
    · rw [funext (writesTo_concat past a)]
      exact hC'
  rw [htrace] at hans
  obtain ⟨hpre, hnext⟩ := hans.prefix
  obtain ⟨m, s', hrun, hR, hsize, hC⟩ := runWith_ok hstep [] hpre hstart
  have hat : a ∈ trace := htrace ▸ List.mem_append_right _ (List.mem_cons_self ..)
  obtain ⟨memptr, mf, m', sf, hfind, hin, hholds, hacc, -⟩ := hC.accessMem_ok hR hn hT24
    (ptrOf_mem_entriesOf hat) (h36 a hat) (hvaddr a hat).2 (hsize ▸ hmem) (hnext m s' hrun)
  have hcheck : checkaddr mf memptr = a.vaddr := hholds.address.trans (pageOf_mul (hvaddr a hat).2)
  exact ⟨m, s', hrun, memptr, mf, sf, hfind, hsize ▸ hin, hcheck, hholds.version, m', sf, hacc⟩

/-- In one frame, the third access finds its page as it came back from the swap
file. -/
theorem paging_refines_flat_memory_example :
    ∃ m s', replay randPolicy [⟨'L', 0x1000⟩, ⟨'S', 0x2000⟩]
        (boot 1 (fun _ => 0) (fun _ => 0) ⟨64, fun _ => 0#32⟩) (fun _ => 0) = .ok (m, s') ∧
      ∃ memptr mf sf, findPhyspage randPolicy ⟨'L', 0x1000⟩ m s' = .ok (memptr, mf, sf) ∧
        memptr + simpagesize ≤ 1 * simpagesize ∧ checkaddr mf memptr = 0x1000 ∧
        version mf memptr = writesTo [⟨'L', 0x1000⟩, ⟨'S', 0x2000⟩] (pageOf 0x1000) % 2 ^ 32 ∧
        ∃ m' s'', accessMem randPolicy ⟨'L', 0x1000⟩ m s' = .ok (false, m', s'') := by
  have hb : bitmapCreate 64 = .ok ⟨64, fun _ => 0#32⟩ := rfl
  have hvaddr : ∀ a ∈ reloadTrace, a.vaddr < 2 ^ 36 ∧ a.vaddr % 2 ^ pageShift = 0 := by decide
  have h36 : ∀ a ∈ reloadTrace, a.vaddr < 2 ^ 36 := fun a ha => (hvaddr a ha).1
  have hslots : (pagesOf reloadTrace).card ≤ (Bitmap.slots ⟨64, fun _ => 0#32⟩).card := by
    rw [slots_of_bitmapCreate (by decide) hb]
    decide
  have hstart := Residency.boot (by decide) hb (entriesOf reloadTrace) 1 (fun _ => 0) (fun _ => 0)
  refine paging_refines_flat_memory randPolicy _ reloadTrace 1 64 _ _ _ (by decide) hb (by decide)
    hvaddr hslots (randPolicy_answersAlong ?_ hstart (by decide) (by decide) _) _ [] _ rfl
  intro a ha m s hR hmem hans
  exact hR.accessStep_ok ((card_entriesOf _).le.trans hslots)
    ((card_entriesOf _).le.trans (card_pagesOf_le h36)) (ptrOf_mem_entriesOf ha) (h36 a ha)
    hmem hans

end

end Paging
end OsAssignments
