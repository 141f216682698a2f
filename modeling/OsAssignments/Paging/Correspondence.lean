import OsAssignments.Paging.Translate

/-!
# Page table and coremap along a run

* `runWith_ok` — the induction over a run, once: an invariant that every answered
  access preserves holds wherever an answered run ends.
* `Residency.boot` — the simulator starts in the residency invariant.
* `OneToOne` — what the page table, the coremap and the swap offsets have to do with
  each other, over the entries that exist.
* `pageTable_coremap_one_to_one` — it holds in every state that `find_physpage` calls
  reach.
-/

namespace OsAssignments
namespace Paging

open MachineWord ByteMemory

/-! ## The pages of a trace -/

/-- The distinct pages a trace touches. -/
def pagesOf (trace : List Access) : Finset Nat := (trace.map fun a => pageOf a.vaddr).toFinset

/-- The entries that translate them. -/
def entriesOf (trace : List Access) : Finset PtePtr := (pagesOf trace).image ptrOfPage

theorem ptrOf_mem_entriesOf {trace : List Access} {a : Access} (h : a ∈ trace) :
    ptrOf a.vaddr ∈ entriesOf trace := by
  rw [ptrOf_eq]
  exact Finset.mem_image_of_mem _ (List.mem_toFinset.mpr (List.mem_map_of_mem h))

theorem card_entriesOf (trace : List Access) : (entriesOf trace).card = (pagesOf trace).card :=
  Finset.card_image_of_injective _ ptrOfPage_injective

theorem pageOf_lt {vaddr : Nat} (h : vaddr < 2 ^ 36) : pageOf vaddr < 2 ^ 24 := by
  rw [pageOf, pageShift, Nat.shiftRight_eq_div_pow]
  omega

/-- A trace of 36-bit addresses has at most `2 ^ 24` pages. -/
theorem card_pagesOf_le {trace : List Access} (h : ∀ a ∈ trace, a.vaddr < 2 ^ 36) :
    (pagesOf trace).card ≤ 2 ^ 24 := by
  have hsub : pagesOf trace ⊆ Finset.range (2 ^ 24) := by
    intro p hp
    obtain ⟨a, ha, rfl⟩ := List.mem_map.mp (List.mem_toFinset.mp hp)
    exact Finset.mem_range.mpr (pageOf_lt (h a ha))
  calc (pagesOf trace).card ≤ (Finset.range (2 ^ 24)).card := Finset.card_le_card hsub
    _ = 2 ^ 24 := Finset.card_range _

theorem mem_entriesOf_lt {trace : List Access} (h : ∀ a ∈ trace, a.vaddr < 2 ^ 36) {p : PtePtr}
    (hp : p ∈ entriesOf trace) : p.dir < ptrsPerPgdir ∧ p.idx < ptrsPerPgtbl := by
  obtain ⟨page, hpage, rfl⟩ := Finset.mem_image.mp hp
  obtain ⟨a, ha, rfl⟩ := List.mem_map.mp (List.mem_toFinset.mp hpage)
  have := pageOf_lt (h a ha)
  simp only [ptrOfPage, ptrsPerPgdir, ptrsPerPgtbl]
  omega

/-! ## The start -/

/-- A fresh bitmap has the slots `0, 1, …`, and only those. -/
theorem slots_eq_range {swapsize : Nat} (hs : swapsize < 2 ^ 32) {b : Bitmap}
    (hb : bitmapCreate swapsize = .ok b) :
    b.slots = Finset.range b.slots.card ∧ b.TailMarked := by
  obtain ⟨b', hb', hn, hmarked⟩ := bitmapCreate_ok hs
  obtain rfl : b = b' := by rw [hb] at hb'; exact Except.ok.inj hb'
  have htail : b.TailMarked := by
    intro i hi
    rw [Bitmap.mem_slots] at hi
    rw [hn]
    exact (hmarked i hi.1).mp hi.2
  rcases Nat.lt_or_ge (2 ^ 32 - 32) swapsize with hbig | hsmall
  · have hempty : b.slots = ∅ := by
      rw [Bitmap.slots, Bitmap.words, hn, divRoundUp_of_gt hbig hs]
      rfl
    exact ⟨by rw [hempty]; rfl, htail⟩
  · have hrange := slots_of_bitmapCreate hsmall hb
    rw [hrange, Finset.card_range]
    exact ⟨rfl, htail⟩

theorem Residency.boot {swapsize : Nat} (hs : swapsize < 2 ^ 32) {b : Bitmap}
    (hb : bitmapCreate swapsize = .ok b) (T : Finset PtePtr) (memsize : Nat)
    (physmem swapfile : Memory) :
    Residency b.slots.card T (Paging.boot memsize physmem swapfile b) := by
  obtain ⟨hrange, htail⟩ := slots_eq_range hs hb
  have hpte : ∀ p, (Paging.boot memsize physmem swapfile b).pte p = Pte.fresh := fun _ => rfl
  constructor
  case owner => intro p hp; rw [hpte] at hp; simp at hp
  case held => intro f _ hu; exact absurd (show false = true from hu) (by decide)
  case exclusive => intro p _; rw [hpte]; rfl
  case backed =>
    intro p hp
    rw [hpte] at hp
    simp at hp
  case slotted => intro p hp; rw [hpte] at hp; exact absurd rfl hp
  case distinct => intro p q hp _; rw [hpte] at hp; exact absurd rfl hp
  case used => intro p hp; rw [hpte] at hp; simp at hp
  case taken =>
    intro i hi hfree
    have hmem : i ∈ b.slots := by rw [hrange]; exact Finset.mem_range.mpr hi
    exact absurd hmem hfree
  case slots =>
    intro i hi
    have hmem : i ∈ b.slots := hi
    rw [hrange] at hmem
    exact Finset.mem_range.mp hmem
  case tail => exact htail

/-! ## Runs -/

section

variable {σ : Type} {P : Policy σ}

/-- **The induction over a run.**  `I` may speak of the accesses made so far. -/
theorem runWith_ok {next : Access → Machine → σ → Except Fault (Machine × σ)}
    {I : List Access → Machine → σ → Prop} {trace : List Access}
    (hstep : ∀ past, ∀ a ∈ trace, ∀ m s, I past m s → P.Answers a m s →
      ∃ m' s', next a m s = .ok (m', s') ∧ I (past ++ [a]) m' s') :
    ∀ (past : List Access) {m : Machine} {s : σ}, P.AnswersAlong next trace m s → I past m s →
      ∃ m' s', runWith next trace m s = .ok (m', s') ∧ I (past ++ trace) m' s' := by
  induction trace with
  | nil =>
    intro past m s _ hI
    exact ⟨m, s, rfl, by rwa [List.append_nil]⟩
  | cons a trace ih =>
    intro past m s hans hI
    obtain ⟨m₁, s₁, hnext, hI₁⟩ := hstep past a (List.mem_cons_self ..) m s hI hans.1
    obtain ⟨m', s', hrun, hI'⟩ :=
      ih (fun past b hb => hstep past b (List.mem_cons_of_mem a hb)) _ (hans.2 m₁ s₁ hnext) hI₁
    refine ⟨m', s', ?_, by simpa using hI'⟩
    simp only [runWith, hnext, bind, Except.bind]
    exact hrun

/-! ### Policies that always answer -/

/-- A policy that answers in the states with `I`, which accesses keep, answers along every run. -/
theorem Policy.answersAlong {next : Access → Machine → σ → Except Fault (Machine × σ)}
    {I : Machine → σ → Prop} {trace : List Access}
    (hstep : ∀ a ∈ trace, ∀ m s, I m s → P.Answers a m s →
      ∃ m' s', next a m s = .ok (m', s') ∧ I m' s')
    (hanswers : ∀ a ∈ trace, ∀ m s, I m s → P.Answers a m s) :
    ∀ {m : Machine} {s : σ}, I m s → P.AnswersAlong next trace m s := by
  induction trace with
  | nil => intro m s _; trivial
  | cons a trace ih =>
    intro m s hI
    have hans := hanswers a (List.mem_cons_self ..) m s hI
    refine ⟨hans, fun m' s' hnext => ?_⟩
    obtain ⟨m₁, s₁, hnext', hI₁⟩ := hstep a (List.mem_cons_self ..) m s hI hans
    obtain ⟨rfl, rfl⟩ : m₁ = m' ∧ s₁ = s' := by
      rw [hnext'] at hnext
      simpa using hnext
    exact ih (fun b hb => hstep b (List.mem_cons_of_mem a hb))
      (fun b hb => hanswers b (List.mem_cons_of_mem a hb)) hI₁

/-- `rand_evict` and `rand_ref`; the state is the sequence of values `random` is
going to return. -/
def randPolicy : Policy (Nat → Nat) where
  ref _ m s := .ok (m, s)
  evict m s :=
    if m.memsize = 0 then .error .divideByZero
    else .ok (((s 0 % m.memsize : Nat) : Int), m, fun i => s (i + 1))
  ref_same h := by
    obtain ⟨rfl, -⟩ := Prod.mk.inj (Except.ok.inj h)
    exact .refl _
  evict_same h := by
    split at h
    · cases h
    · cases h
      exact .refl _

theorem randPolicy_answers (a : Access) {m : Machine} (s : Nat → Nat) (h : 0 < m.memsize) :
    randPolicy.Answers a m s := by
  refine ⟨fun _ hfull => ?_, fun m₁ s₁ _ => ⟨_, rfl⟩⟩
  have hpos : 0 < (missState a.vaddr m).memsize := by
    rw [(sameView_missState a.vaddr m).memsize]
    exact h
  have hlt := Nat.mod_lt (s 0) hpos
  refine ⟨s 0 % (missState a.vaddr m).memsize, missState a.vaddr m, fun i => s (i + 1), ?_, hlt,
    hfull _ hlt⟩
  simp only [randPolicy, if_neg hpos.ne']

/-- **`rand` answers along every run** of a simulator with at least one frame. -/
theorem randPolicy_answersAlong {next : Access → Machine → (Nat → Nat) →
      Except Fault (Machine × (Nat → Nat))} {n : Nat} {T : Finset PtePtr} {trace : List Access}
    (hstep : ∀ a ∈ trace, ∀ m s, Residency n T m → m.memsize ≤ 2 ^ 19 → randPolicy.Answers a m s →
      ∃ m' s', next a m s = .ok (m', s') ∧ Residency n T m' ∧ m'.memsize = m.memsize)
    {m : Machine} (hR : Residency n T m) (hpos : 0 < m.memsize) (hmem : m.memsize ≤ 2 ^ 19)
    (s : Nat → Nat) : randPolicy.AnswersAlong next trace m s := by
  refine Policy.answersAlong (I := fun m' _ => Residency n T m' ∧ m'.memsize = m.memsize) ?_ ?_
    ⟨hR, rfl⟩
  · rintro a ha m₁ s₁ ⟨hR₁, hsize⟩ hans
    obtain ⟨m', s', hnext, hR', hsize'⟩ := hstep a ha m₁ s₁ hR₁ (hsize ▸ hmem) hans
    exact ⟨m', s', hnext, hR', hsize'.trans hsize⟩
  · rintro a _ m₁ s₁ ⟨-, hsize⟩
    exact randPolicy_answers a s₁ (hsize ▸ hpos)

/-- Replaying a trace, with room on the swap file. -/
theorem randPolicy_answersReplay {trace : List Access} {memsize swapsize : Nat}
    (physmem swapfile : Memory) {b : Bitmap} (hswap : swapsize < 2 ^ 32)
    (hb : bitmapCreate swapsize = .ok b) (hpos : 0 < memsize) (hmem : memsize < 2 ^ 19)
    (hvaddr : ∀ a ∈ trace, a.vaddr < 2 ^ 36) (hslots : (pagesOf trace).card ≤ b.slots.card)
    (s : Nat → Nat) :
    randPolicy.AnswersAlong (accessStep randPolicy) trace (boot memsize physmem swapfile b) s := by
  refine randPolicy_answersAlong (fun a ha m s hR hsize hans => ?_)
    (Residency.boot hswap hb (entriesOf trace) memsize physmem swapfile) hpos hmem.le s
  exact hR.accessStep_ok ((card_entriesOf _).le.trans hslots)
    ((card_entriesOf _).le.trans (card_pagesOf_le hvaddr)) (ptrOf_mem_entriesOf ha) (hvaddr a ha)
    hsize hans

/-! ## The correspondence -/

/-- An entry of a second-level table that has been set up. -/
def Machine.IsEntry (m : Machine) (p : PtePtr) : Prop :=
  p.dir < ptrsPerPgdir ∧ p.idx < ptrsPerPgtbl ∧ (m.pgdir p.dir).isSome = true

/-- The entry `p` is valid and names the frame `f`. -/
def Machine.Maps (m : Machine) (p : PtePtr) (f : Nat) : Prop :=
  m.IsEntry p ∧ (m.pte p).valid = true ∧ (m.pte p).frameNumber = f

/-- Page table, coremap and swap offsets are in step. -/
structure OneToOne (m : Machine) : Prop where
  inUse : ∀ f, f < m.memsize → ((m.coremap f).inUse = true ↔ ∃! p, m.Maps p f)
  owner : ∀ f, f < m.memsize → ∀ p, m.Maps p f → (m.coremap f).pte = some p
  inRange : ∀ p f, m.Maps p f → f < m.memsize
  exclusive : ∀ p, m.IsEntry p → ¬((m.pte p).valid = true ∧ (m.pte p).onswap = true)
  backed : ∀ p, m.IsEntry p → (m.pte p).onswap = true → (m.pte p).swapOff ≠ invalidSwap
  distinct : ∀ p q, m.IsEntry p → m.IsEntry q → p ≠ q → (m.pte p).swapOff ≠ invalidSwap →
    (m.pte p).swapOff ≠ (m.pte q).swapOff

theorem Residency.oneToOne {n : Nat} {T : Finset PtePtr} {m : Machine} (hR : Residency n T m)
    (hT : ∀ p ∈ T, p.dir < ptrsPerPgdir ∧ p.idx < ptrsPerPgtbl) : OneToOne m := by
  have hopen : ∀ p, (m.pte p).valid = true → m.IsEntry p := by
    intro p hp
    obtain ⟨hdir, hidx⟩ := hT p (hR.used p (.inl hp))
    refine ⟨hdir, hidx, ?_⟩
    cases hd : m.pgdir p.dir with
    | none =>
      have hfresh : m.pte p = Pte.fresh := by rw [Machine.pte, hd]
      rw [hfresh] at hp
      simp at hp
    | some table => rfl
  have hown : ∀ p f, m.Maps p f → f < m.memsize ∧ (m.coremap f).inUse = true ∧
      (m.coremap f).pte = some p := by
    rintro p f ⟨-, hv, rfl⟩
    exact hR.owner p hv
  constructor
  case inUse =>
    intro f hf
    constructor
    · intro hu
      obtain ⟨p, hp, hpf⟩ := hR.held f hf hu
      refine ⟨p, ⟨hopen p hp, hp, hpf⟩, ?_⟩
      rintro q ⟨-, hq, hqf⟩
      exact hR.owners.eq_of_frameNumber hq hp (hqf.trans hpf.symm)
    · rintro ⟨p, hp, -⟩
      exact (hown p f hp).2.1
  case owner => intro f _ p hp; exact (hown p f hp).2.2
  case inRange => intro p f hp; exact (hown p f hp).1
  case exclusive =>
    rintro p - ⟨hv, hon⟩
    rw [hR.exclusive p hv] at hon
    simp at hon
  case backed => intro p _ hon; exact hR.backed p (.inl hon)
  case distinct => intro p q _ _ hne hoff hEq; exact hne (hR.distinct p q hoff hEq)

/-- **Page table and coremap stay in one-to-one correspondence**, in every state
that any number of `find_physpage` calls reaches, under every policy that returns
in-use frames. -/
theorem pageTable_coremap_one_to_one (P : Policy σ) (s : σ) (trace : List Access)
    (memsize swapsize : Nat) (physmem swapfile : Memory) (b : Bitmap)
    (hswap : swapsize < 2 ^ 32) (hb : bitmapCreate swapsize = .ok b)
    (hmem : memsize ≤ 2 ^ 19) (hvaddr : ∀ a ∈ trace, a.vaddr < 2 ^ 36)
    (hslots : (pagesOf trace).card ≤ b.slots.card)
    (hans : P.AnswersAlong (findStep P) trace (boot memsize physmem swapfile b) s) :
    ∃ m' s', runFind P trace (boot memsize physmem swapfile b) s = .ok (m', s') ∧ OneToOne m' := by
  have hstart := Residency.boot hswap hb (entriesOf trace) memsize physmem swapfile
  let I : List Access → Machine → σ → Prop := fun _ m _ =>
    Residency b.slots.card (entriesOf trace) m ∧ m.memsize = memsize
  have hstep : ∀ past, ∀ a ∈ trace, ∀ m s, I past m s → P.Answers a m s →
      ∃ m' s', findStep P a m s = .ok (m', s') ∧ I (past ++ [a]) m' s' := by
    rintro _ a ha m s ⟨hR, hsize⟩ hans
    obtain ⟨m', s', hstep, hR', hsize'⟩ := hR.findStep_ok ((card_entriesOf trace).le.trans hslots)
      ((card_entriesOf trace).le.trans (card_pagesOf_le hvaddr)) (ptrOf_mem_entriesOf ha)
      (hvaddr a ha) (hsize ▸ hmem) hans
    exact ⟨m', s', hstep, hR', hsize'.trans hsize⟩
  obtain ⟨m', s', hrun, hR, -⟩ := runWith_ok hstep [] hans ⟨hstart, rfl⟩
  exact ⟨m', s', hrun, hR.oneToOne fun p hp => mem_entriesOf_lt hvaddr hp⟩

/-- Three accesses to two pages; in one frame, the first page comes back from the
swap file. -/
def reloadTrace : List Access := [⟨'L', 0x1000⟩, ⟨'S', 0x2000⟩, ⟨'L', 0x1000⟩]

theorem pageTable_coremap_one_to_one_example :
    ∃ m' s', runFind randPolicy reloadTrace
      (boot 1 (fun _ => 0) (fun _ => 0) ⟨64, fun _ => 0#32⟩) (fun _ => 0) = .ok (m', s') ∧
      OneToOne m' := by
  have hb : bitmapCreate 64 = .ok ⟨64, fun _ => 0#32⟩ := rfl
  have hvaddr : ∀ a ∈ reloadTrace, a.vaddr < 2 ^ 36 := by decide
  have hslots : (pagesOf reloadTrace).card ≤ (Bitmap.slots ⟨64, fun _ => 0#32⟩).card := by
    rw [slots_of_bitmapCreate (by decide) hb]
    decide
  have hstart := Residency.boot (by decide) hb (entriesOf reloadTrace) 1 (fun _ => 0) (fun _ => 0)
  refine pageTable_coremap_one_to_one randPolicy _ reloadTrace 1 64 _ _ _ (by decide) hb (by decide)
    hvaddr hslots (randPolicy_answersAlong ?_ hstart (by decide) (by decide) _)
  intro a ha m s hR hmem hans
  exact hR.findStep_ok ((card_entriesOf _).le.trans hslots)
    ((card_entriesOf _).le.trans (card_pagesOf_le hvaddr)) (ptrOf_mem_entriesOf ha) (hvaddr a ha)
    hmem hans

end

end Paging
end OsAssignments
