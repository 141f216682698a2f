import OsAssignments.Paging.Entries

/-!
# The residency invariant

Where the pages of a run are: in a frame of physical memory, in a slot of the swap
file, or nowhere yet.

* `Owners` — a frame in use and the valid entry that names it name each other.
* `Residency` — frames and valid entries correspond one to one, a page that is not
  dirty has a slot, no two pages share one, and every slot that is taken belongs to
  a page.
* `Evicted` — what the eviction branch of `allocate_frame` does to the victim's
  entry, the swap file and the swap bitmap; `Residency.evictFrame_ok` shows that it
  does so without a fault, and `Evicted.residency` that the invariant holds again
  with the frame free.
* `Loaded` — what a miss does with a free frame, likewise.

`n` is the number of slots the swap bitmap was created with and `T` the set of
entries a run uses.  The invariant never asks for more slots than there are
entries in `T`, which is why a run with `T.card ≤ n` cannot run out of them.
-/

namespace OsAssignments
namespace Paging

open MachineWord ByteMemory

/-! ## Owners -/

/-- A valid entry owns the frame it names, a frame in use is owned by a valid entry. -/
structure Owners (m : Machine) : Prop where
  owner : ∀ p, (m.pte p).valid = true → (m.pte p).frameNumber < m.memsize ∧
    (m.coremap (m.pte p).frameNumber).inUse = true ∧
    (m.coremap (m.pte p).frameNumber).pte = some p
  held : ∀ f, f < m.memsize → (m.coremap f).inUse = true →
    ∃ p, (m.pte p).valid = true ∧ (m.pte p).frameNumber = f

namespace Owners

variable {m m' : Machine}

theorem of_sameView (h : Owners m) (hs : m.SameView m') : Owners m' where
  owner p hp := by
    rw [(hs.pte p).valid] at hp
    rw [(hs.pte p).frameNumber, hs.memsize, hs.inUse, hs.owner]
    exact h.owner p hp
  held f hf hu := by
    rw [hs.inUse] at hu
    obtain ⟨p, hp, hpf⟩ := h.held f (hs.memsize ▸ hf) hu
    exact ⟨p, (hs.pte p).valid.trans hp, (hs.pte p).frameNumber.trans hpf⟩

/-- The owner of a frame in use. -/
theorem coremap_pte (h : Owners m) {f : Nat} (hf : f < m.memsize)
    (hu : (m.coremap f).inUse = true) :
    ∃ q, (m.coremap f).pte = some q ∧ (m.pte q).valid = true ∧ (m.pte q).frameNumber = f := by
  obtain ⟨q, hq, rfl⟩ := h.held f hf hu
  exact ⟨q, (h.owner q hq).2.2, hq, rfl⟩

theorem eq_of_frameNumber (h : Owners m) {p q : PtePtr} (hp : (m.pte p).valid = true)
    (hq : (m.pte q).valid = true) (hpq : (m.pte p).frameNumber = (m.pte q).frameNumber) :
    p = q := by
  have hown := (h.owner p hp).2.2
  rw [hpq, (h.owner q hq).2.2] at hown
  exact (Option.some.inj hown).symm

end Owners

/-! ## The invariant -/

/-- The byte offset of slot `i` of the swap file. -/
def slotOffset (i : Nat) : Int := ((i * simpagesize : Nat) : Int)

/-- The invariant of a machine whose swap bitmap was created with `n` slots, in a
run on the entries in `T`. -/
structure Residency (n : Nat) (T : Finset PtePtr) (m : Machine) : Prop where
  /-- A valid entry owns the frame it names. -/
  owner : ∀ p, (m.pte p).valid = true → (m.pte p).frameNumber < m.memsize ∧
    (m.coremap (m.pte p).frameNumber).inUse = true ∧
    (m.coremap (m.pte p).frameNumber).pte = some p
  /-- A frame in use is owned by a valid entry. -/
  held : ∀ f, f < m.memsize → (m.coremap f).inUse = true →
    ∃ p, (m.pte p).valid = true ∧ (m.pte p).frameNumber = f
  exclusive : ∀ p, (m.pte p).valid = true → (m.pte p).onswap = false
  /-- A page without a slot is in memory and dirty, or was never brought in. -/
  backed : ∀ p, (m.pte p).onswap = true ∨ ((m.pte p).valid = true ∧ (m.pte p).dirty = false) →
    (m.pte p).swapOff ≠ invalidSwap
  slotted : ∀ p, (m.pte p).swapOff ≠ invalidSwap →
    ((m.pte p).valid = true ∨ (m.pte p).onswap = true) ∧
    ∃ i, i < 2 ^ 24 ∧ i < n ∧ i ∉ m.swapmap.slots ∧ (m.pte p).swapOff = slotOffset i
  distinct : ∀ p q, (m.pte p).swapOff ≠ invalidSwap → (m.pte p).swapOff = (m.pte q).swapOff → p = q
  /-- Only entries of the run are used. -/
  used : ∀ p, (m.pte p).valid = true ∨ (m.pte p).onswap = true → p ∈ T
  /-- A slot that is taken belongs to an entry. -/
  taken : ∀ i, i < n → i ∉ m.swapmap.slots → ∃ p, (m.pte p).swapOff = slotOffset i
  slots : ∀ i ∈ m.swapmap.slots, i < n
  tail : m.swapmap.TailMarked

theorem slotOffset_ne_invalidSwap (i : Nat) : slotOffset i ≠ invalidSwap := by
  unfold slotOffset invalidSwap
  omega

theorem slotOffset_injective : Function.Injective slotOffset := by
  intro i j h
  unfold slotOffset simpagesize at h
  omega

theorem toInt32_slotOffset {i : Nat} (hi : i < 2 ^ 24) : toInt32 (slotOffset i) = slotOffset i := by
  unfold toInt32 slotOffset simpagesize
  rw [Int.bmod_eq_of_le] <;> norm_num <;> omega

/-! ## Consequences -/

namespace Residency

variable {n : Nat} {T : Finset PtePtr} {m m' : Machine}

theorem owners (h : Residency n T m) : Owners m := ⟨h.owner, h.held⟩

/-- The invariant speaks only of what `SameView` compares. -/
theorem of_sameView (h : Residency n T m) (hs : m.SameView m') : Residency n T m' := by
  have hpte := hs.pte
  constructor
  case owner => exact (h.owners.of_sameView hs).owner
  case held => exact (h.owners.of_sameView hs).held
  case exclusive =>
    intro p hp
    rw [(hpte p).onswap]
    exact h.exclusive p ((hpte p).valid ▸ hp)
  case backed =>
    intro p hp
    rw [(hpte p).onswap, (hpte p).valid, (hpte p).dirty] at hp
    rw [(hpte p).swapOff]
    exact h.backed p hp
  case slotted =>
    intro p hp
    rw [(hpte p).swapOff] at hp
    rw [(hpte p).valid, (hpte p).onswap, (hpte p).swapOff, hs.swapmap]
    exact h.slotted p hp
  case distinct =>
    intro p q hp hpq
    rw [(hpte p).swapOff] at hp hpq
    rw [(hpte q).swapOff] at hpq
    exact h.distinct p q hp hpq
  case used =>
    intro p hp
    rw [(hpte p).valid, (hpte p).onswap] at hp
    exact h.used p hp
  case taken =>
    intro i hi hfree
    rw [hs.swapmap] at hfree
    obtain ⟨p, hp⟩ := h.taken i hi hfree
    exact ⟨p, by rw [(hpte p).swapOff]; exact hp⟩
  case slots =>
    rw [hs.swapmap]
    exact h.slots
  case tail =>
    rw [hs.swapmap]
    exact h.tail

theorem toInt32_swapOff (h : Residency n T m) (p : PtePtr) :
    toInt32 (m.pte p).swapOff = (m.pte p).swapOff := by
  by_cases hoff : (m.pte p).swapOff = invalidSwap
  · rw [hoff]
    decide
  · obtain ⟨-, i, hi, -, -, hEq⟩ := h.slotted p hoff
    rw [hEq, toInt32_slotOffset hi]

/-- The slots below `n` that are taken, counted by the pages that own them. -/
theorem card_taken_lt (h : Residency n T m) {q : PtePtr} (hq : q ∈ T)
    (hoff : (m.pte q).swapOff = invalidSwap) : (Finset.range n \ m.swapmap.slots).card < T.card := by
  have hsub : (Finset.range n \ m.swapmap.slots).image slotOffset ⊆
      (T.erase q).image fun p => (m.pte p).swapOff := by
    intro o ho
    obtain ⟨i, hi, rfl⟩ := Finset.mem_image.mp ho
    rw [Finset.mem_sdiff, Finset.mem_range] at hi
    obtain ⟨p, hp⟩ := h.taken i hi.1 hi.2
    have hne : (m.pte p).swapOff ≠ invalidSwap := by rw [hp]; exact slotOffset_ne_invalidSwap i
    refine Finset.mem_image.mpr ⟨p, Finset.mem_erase.mpr ⟨?_, h.used p (h.slotted p hne).1⟩, hp⟩
    rintro rfl
    exact hne hoff
  calc (Finset.range n \ m.swapmap.slots).card
      = ((Finset.range n \ m.swapmap.slots).image slotOffset).card :=
        (Finset.card_image_of_injective _ slotOffset_injective).symm
    _ ≤ ((T.erase q).image fun p => (m.pte p).swapOff).card := Finset.card_le_card hsub
    _ ≤ (T.erase q).card := Finset.card_image_le
    _ < T.card := Finset.card_erase_lt_of_mem hq

/-- **There is always a slot for the victim.**  Fewer slots are taken than the run
has pages, and the lowest free one is below their number. -/
theorem exists_slot (h : Residency n T m) (hn : T.card ≤ n) (hT : T.card ≤ 2 ^ 24) {q : PtePtr}
    (hq : q ∈ T) (hoff : (m.pte q).swapOff = invalidSwap) :
    ∃ i b, bitmapAlloc m.swapmap = .ok (some i, b) ∧ i ∈ m.swapmap.slots ∧ i < 2 ^ 24 ∧
      b.slots = m.swapmap.slots.erase i ∧ b.TailMarked := by
  have hlt := h.card_taken_lt hq hoff
  have hne : m.swapmap.slots.Nonempty := by
    by_contra hempty
    rw [Finset.not_nonempty_iff_eq_empty] at hempty
    rw [hempty, Finset.sdiff_empty, Finset.card_range] at hlt
    omega
  obtain ⟨i, b, halloc, hi, hmin, hnb, hmark⟩ := bitmapAlloc_ok h.tail hne
  have hslots : b.slots = m.swapmap.slots.erase i := by
    ext j
    rw [Finset.mem_erase, Bitmap.mem_slots, Bitmap.mem_slots, hmark, Bitmap.words, Bitmap.words, hnb,
      Bool.or_eq_false_iff, decide_eq_false_iff_not]
    tauto
  have hbelow : Finset.range i ⊆ Finset.range n \ m.swapmap.slots := by
    intro j hj
    rw [Finset.mem_range] at hj
    rw [Finset.mem_sdiff, Finset.mem_range]
    have := h.slots i hi
    exact ⟨by omega, fun hmem => absurd (hmin j hmem) (by omega)⟩
  have hcard := Finset.card_le_card hbelow
  rw [Finset.card_range] at hcard
  refine ⟨i, b, halloc, hi, by omega, hslots, ?_⟩
  intro j hj
  rw [hnb]
  rw [hslots] at hj
  exact h.tail j (Finset.mem_of_mem_erase hj)

end Residency

/-! ## Eviction -/

/-- Take a frame away from its page: how the machine looks between the eviction of
the victim and the two stores that hand its frame on. -/
def releaseFrame (f : Nat) (m : Machine) : Machine :=
  { m with
    coremap := Function.update m.coremap f { m.coremap f with inUse := false } }

theorem claimFrame_releaseFrame (f : Nat) (p : PtePtr) (m : Machine) :
    claimFrame f p (releaseFrame f m) = claimFrame f p m := by
  simp [claimFrame, releaseFrame]

/-- What the eviction of the page in frame `f`, whose entry is `q`, does. -/
structure Evicted (f : Nat) (q : PtePtr) (m m' : Machine) : Prop where
  memsize : m'.memsize = m.memsize
  coremap : m'.coremap = m.coremap
  physmem : m'.physmem = m.physmem
  others : ∀ p, p ≠ q → m'.pte p = m.pte p
  valid : (m'.pte q).valid = false
  onswap : (m'.pte q).onswap = true
  /-- The page keeps its slot, or a dirty page without one gets a free slot. -/
  slot : ((m.pte q).swapOff ≠ invalidSwap ∧ (m'.pte q).swapOff = (m.pte q).swapOff ∧
      m'.swapmap = m.swapmap) ∨
    ((m.pte q).swapOff = invalidSwap ∧ ∃ i, i ∈ m.swapmap.slots ∧ i < 2 ^ 24 ∧
      (m'.pte q).swapOff = slotOffset i ∧ m'.swapmap.slots = m.swapmap.slots.erase i ∧
      m'.swapmap.TailMarked)
  /-- A clean page is not written. -/
  swapfile : m'.swapfile = if (m.pte q).dirty then
      copyBytes simpagesize m.physmem (f * simpagesize) m.swapfile (m'.pte q).swapOff.toNat
    else m.swapfile

namespace Residency

variable {n : Nat} {T : Finset PtePtr} {m : Machine}

theorem swapPageout_ok (h : Residency n T m) (hn : T.card ≤ n) (hT : T.card ≤ 2 ^ 24) {q : PtePtr}
    (hq : q ∈ T) (f : Nat) :
    ∃ off b, swapPageout f (toInt32 (m.pte q).swapOff) m =
        .ok (off, writeSwap f off { m with swapmap := b }) ∧
      (((m.pte q).swapOff ≠ invalidSwap ∧ off = (m.pte q).swapOff ∧ b = m.swapmap) ∨
        ((m.pte q).swapOff = invalidSwap ∧ ∃ i, i ∈ m.swapmap.slots ∧ i < 2 ^ 24 ∧
          off = slotOffset i ∧ b.slots = m.swapmap.slots.erase i ∧ b.TailMarked)) := by
  rw [h.toInt32_swapOff q]
  by_cases hoff : (m.pte q).swapOff = invalidSwap
  · obtain ⟨i, b, halloc, hi, hi24, hslots, htail⟩ := h.exists_slot hn hT hq hoff
    have hwrap : toInt32 (wrap 32 ((i * simpagesize : Nat) : Int)) = slotOffset i := by
      rw [wrap_of_lt (by unfold simpagesize; omega)]
      exact toInt32_slotOffset hi24
    refine ⟨slotOffset i, b, ?_, .inr ⟨hoff, i, hi, hi24, rfl, hslots, htail⟩⟩
    simp only [swapPageout, hoff, if_true, halloc, bind, Except.bind, hwrap]
    rw [if_neg (slotOffset_ne_invalidSwap i)]
  · refine ⟨(m.pte q).swapOff, m.swapmap, ?_, .inl ⟨hoff, rfl, rfl⟩⟩
    simp only [swapPageout]
    rw [if_neg hoff]

/-- **Eviction succeeds**, and moves the victim to swap. -/
theorem evictFrame_ok (h : Residency n T m) (hn : T.card ≤ n) (hT : T.card ≤ 2 ^ 24) {f : Nat}
    {q : PtePtr} (hq : (m.coremap f).pte = some q) (hv : (m.pte q).valid = true) :
    ∃ m', evictFrame f m = .ok m' ∧ Evicted f q m m' := by
  by_cases hd : (m.pte q).dirty = true
  · obtain ⟨off, b, hout, hslot⟩ := h.swapPageout_ok hn hT (h.used q (.inl hv)) f
    let m₁ : Machine := writeSwap f off { m with swapmap := b }
    let m₂ : Machine := m₁.setPte q { m₁.pte q with swapOff := off }
    let m₃ : Machine := { m₂ with evictDirtyCount := incr m₂.evictDirtyCount }
    have hrun : evictFrame f m = .ok (m₃.setPte q (m₃.pte q).swappedOut) := by
      simp only [evictFrame, hq, hd, if_true, hout, bind, Except.bind, pure, Except.pure]
      rfl
    have hoff : (m₃.pte q).swapOff = off := by
      have hself : m₃.pte q = { m₁.pte q with swapOff := off } := Machine.setPte_pte_self m₁ q _
      rw [hself]
    refine ⟨_, hrun, rfl, rfl, rfl, fun p hp => ?_, ?_, ?_, ?_, ?_⟩
    · rw [Machine.setPte_pte_of_ne _ _ hp]
      exact Machine.setPte_pte_of_ne m₁ _ hp
    · rw [Machine.setPte_pte_self, Pte.swappedOut_valid]
    · rw [Machine.setPte_pte_self, Pte.swappedOut_onswap]
    · rw [Machine.setPte_pte_self, Pte.swappedOut_swapOff, hoff]
      exact hslot
    · rw [Machine.setPte_pte_self, Pte.swappedOut_swapOff, hoff, if_pos hd]
      rfl
  · rw [Bool.not_eq_true] at hd
    let m₁ : Machine := { m with evictCleanCount := incr m.evictCleanCount }
    have hrun : evictFrame f m = .ok (m₁.setPte q (m₁.pte q).swappedOut) := by
      simp only [evictFrame, hq, hd, bind, Except.bind, pure, Except.pure]
      rfl
    refine ⟨_, hrun, rfl, rfl, rfl, fun p hp => ?_, ?_, ?_, .inl ⟨?_, ?_, rfl⟩, ?_⟩
    · exact Machine.setPte_pte_of_ne m₁ _ hp
    · rw [Machine.setPte_pte_self, Pte.swappedOut_valid]
    · rw [Machine.setPte_pte_self, Pte.swappedOut_onswap]
    · exact h.backed q (.inr ⟨hv, hd⟩)
    · rw [Machine.setPte_pte_self, Pte.swappedOut_swapOff]
      rfl
    · rw [if_neg (by rw [hd]; decide)]
      rfl

end Residency

namespace Evicted

variable {n : Nat} {T : Finset PtePtr} {f : Nat} {q : PtePtr} {m m' : Machine}

theorem swapOff_ne (h : Evicted f q m m') : (m'.pte q).swapOff ≠ invalidSwap := by
  rcases h.slot with ⟨hoff, hEq, -⟩ | ⟨-, i, -, -, hEq, -⟩
  · rw [hEq]
    exact hoff
  · rw [hEq]
    exact slotOffset_ne_invalidSwap i

/-- Free slots only become fewer. -/
theorem slots_subset (h : Evicted f q m m') : m'.swapmap.slots ⊆ m.swapmap.slots := by
  rcases h.slot with ⟨-, -, hmap⟩ | ⟨-, i, -, -, -, hslots, -⟩
  · rw [hmap]
  · rw [hslots]
    exact Finset.erase_subset _ _

/-- No other page sits on the slot the victim ends up with. -/
theorem swapOff_others (h : Evicted f q m m') (hR : Residency n T m) {p : PtePtr} (hp : p ≠ q) :
    (m.pte p).swapOff ≠ (m'.pte q).swapOff := by
  intro hpq
  have hne : (m.pte p).swapOff ≠ invalidSwap := hpq ▸ h.swapOff_ne
  rcases h.slot with ⟨-, hEq, -⟩ | ⟨-, i, hi, -, hEq, -⟩
  · exact hp (hR.distinct p q hne (hpq.trans hEq))
  · obtain ⟨-, j, -, -, hj, hoff⟩ := hR.slotted p hne
    rw [hpq, hEq] at hoff
    exact hj (slotOffset_injective hoff ▸ hi)

/-- **The invariant holds again once the victim's frame counts as free.** -/
theorem residency (h : Evicted f q m m') (hR : Residency n T m) (hf : f < m.memsize)
    (hv : (m.pte q).valid = true) (hfn : (m.pte q).frameNumber = f) :
    Residency n T (releaseFrame f m') := by
  have hframe : ∀ g, g ≠ f → (releaseFrame f m').coremap g = m.coremap g := by
    intro g hg
    simp only [releaseFrame, Function.update_of_ne hg, h.coremap]
  have hothers : ∀ p, p ≠ q → (releaseFrame f m').pte p = m.pte p := h.others
  have hvalid : ((releaseFrame f m').pte q).valid = false := h.valid
  have hne : ∀ p, (m.pte p).valid = true → p ≠ q → (m.pte p).frameNumber ≠ f :=
    fun p hp hpq hEq => hpq (hR.owners.eq_of_frameNumber hp hv (hEq.trans hfn.symm))
  have hoff : ∀ {p}, p ≠ q → (m.pte p).swapOff ≠ (m'.pte q).swapOff := h.swapOff_others hR
  constructor
  case owner =>
    intro p hp
    by_cases hpq : p = q
    · rw [hpq, hvalid] at hp
      simp at hp
    · rw [hothers p hpq] at hp ⊢
      rw [hframe _ (hne p hp hpq)]
      exact ⟨h.memsize ▸ (hR.owner p hp).1, (hR.owner p hp).2⟩
  case held =>
    intro g hg hu
    by_cases hgf : g = f
    · subst hgf
      simp [releaseFrame] at hu
    · rw [hframe g hgf] at hu
      obtain ⟨p, hp, hpg⟩ := hR.held g (h.memsize ▸ hg) hu
      have hpq : p ≠ q := by
        rintro rfl
        exact hgf (hpg.symm.trans hfn)
      exact ⟨p, by rw [hothers p hpq]; exact hp, by rw [hothers p hpq]; exact hpg⟩
  case exclusive =>
    intro p hp
    by_cases hpq : p = q
    · rw [hpq, hvalid] at hp
      simp at hp
    · rw [hothers p hpq] at hp ⊢
      exact hR.exclusive p hp
  case backed =>
    intro p hp
    by_cases hpq : p = q
    · rw [hpq]
      exact h.swapOff_ne
    · rw [hothers p hpq] at hp ⊢
      exact hR.backed p hp
  case slotted =>
    intro p hp
    by_cases hpq : p = q
    · subst hpq
      refine ⟨.inr h.onswap, ?_⟩
      rcases h.slot with ⟨hold, hEq, hmap⟩ | ⟨-, i, hi, hi24, hEq, hslots, -⟩
      · obtain ⟨-, i, hi24, hin, hi, hio⟩ := hR.slotted p hold
        exact ⟨i, hi24, hin, fun hmem => hi (h.slots_subset hmem), hEq.trans hio⟩
      · refine ⟨i, hi24, hR.slots i hi, fun hmem => ?_, hEq⟩
        have hmem' : i ∈ m'.swapmap.slots := hmem
        rw [hslots] at hmem'
        exact Finset.notMem_erase i _ hmem'
    · rw [hothers p hpq] at hp ⊢
      obtain ⟨hon, i, hi24, hin, hi, hio⟩ := hR.slotted p hp
      exact ⟨hon, i, hi24, hin, fun hmem => hi (h.slots_subset hmem), hio⟩
  case distinct =>
    intro p p' hp hpp'
    by_cases hpq : p = q <;> by_cases hpq' : p' = q
    · rw [hpq, hpq']
    · rw [hpq, hothers p' hpq'] at hpp'
      exact absurd hpp'.symm (hoff hpq')
    · rw [hpq', hothers p hpq] at hpp'
      exact absurd hpp' (hoff hpq)
    · rw [hothers p hpq] at hp hpp'
      rw [hothers p' hpq'] at hpp'
      exact hR.distinct p p' hp hpp'
  case used =>
    intro p hp
    by_cases hpq : p = q
    · rw [hpq]
      exact hR.used q (.inl hv)
    · rw [hothers p hpq] at hp
      exact hR.used p hp
  case taken =>
    intro i hi hfree
    by_cases hold : i ∈ m.swapmap.slots
    · -- the slot was free before: it is the one the victim got
      rcases h.slot with ⟨-, -, hmap⟩ | ⟨-, j, -, -, hEq, hslots, -⟩
      · exact absurd (show i ∈ m'.swapmap.slots by rw [hmap]; exact hold) hfree
      · refine ⟨q, ?_⟩
        have hij : i = j := by
          by_contra hij
          exact hfree (show i ∈ m'.swapmap.slots by rw [hslots]; exact Finset.mem_erase.mpr ⟨hij, hold⟩)
        rw [hij]
        exact hEq
    · obtain ⟨p, hp⟩ := hR.taken i hi hold
      by_cases hpq : p = q
      · subst hpq
        refine ⟨p, ?_⟩
        rcases h.slot with ⟨-, hEq, -⟩ | ⟨hnone, -⟩
        · exact hEq.trans hp
        · rw [hp] at hnone
          exact absurd hnone (slotOffset_ne_invalidSwap i)
      · exact ⟨p, by rw [hothers p hpq]; exact hp⟩
  case slots =>
    exact fun i hi => hR.slots i (h.slots_subset hi)
  case tail =>
    rcases h.slot with ⟨-, -, hmap⟩ | ⟨-, i, -, -, -, -, htail⟩
    · intro i hi
      have hi' : i ∈ m'.swapmap.slots := hi
      rw [hmap] at hi'
      show i < m'.swapmap.nbits
      rw [hmap]
      exact hR.tail i hi'
    · exact htail

end Evicted

end Paging
end OsAssignments
