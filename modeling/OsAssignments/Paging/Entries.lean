import OsAssignments.Paging.Machine

/-!
# Page-table entries and the small steps of the simulator

How each store of the simulator changes the parts of an entry that matter for
residency: the flags `valid`, `dirty` and `onswap`, the frame number and the swap
offset.  `Pte.Same` is agreement of two entries on these parts; it is what a
replacement algorithm leaves of an entry.  The second half describes the single
steps of `allocate_frame` and `find_physpage` by equations.
-/

namespace OsAssignments
namespace Paging

open MachineWord ByteMemory

/-! ## Flags -/

namespace Pte

@[simp] theorem fresh_valid : fresh.valid = false := by decide
@[simp] theorem fresh_onswap : fresh.onswap = false := by decide
@[simp] theorem fresh_swapOff : fresh.swapOff = invalidSwap := rfl

/-- Two entries agree on everything but `PG_REF`. -/
structure Same (e e' : Pte) : Prop where
  valid : e'.valid = e.valid
  dirty : e'.dirty = e.dirty
  onswap : e'.onswap = e.onswap
  frameNumber : e'.frameNumber = e.frameNumber
  swapOff : e'.swapOff = e.swapOff

theorem Same.refl (e : Pte) : Same e e := ⟨rfl, rfl, rfl, rfl, rfl⟩

theorem Same.trans {e₁ e₂ e₃ : Pte} (h : Same e₁ e₂) (h' : Same e₂ e₃) : Same e₁ e₃ :=
  ⟨h'.valid.trans h.valid, h'.dirty.trans h.dirty, h'.onswap.trans h.onswap,
    h'.frameNumber.trans h.frameNumber, h'.swapOff.trans h.swapOff⟩

theorem same_of_clear_ref {e e' : Pte} (h : e'.frame &&& ~~~pgRef = e.frame &&& ~~~pgRef)
    (hoff : e'.swapOff = e.swapOff) : Same e e' := by
  have hflag : ∀ k : BitVec 32, pgRef &&& k = 0#32 → hasFlag e'.frame k = hasFlag e.frame k := by
    intro k hk
    rw [← hasFlag_clear_of_disjoint e'.frame hk, h, hasFlag_clear_of_disjoint e.frame hk]
  have hshift : e'.frame >>> pageShift = e.frame >>> pageShift := by
    rw [← clear_ushiftRight e'.frame (m := pgRef) (by decide), h,
      clear_ushiftRight e.frame (by decide)]
  exact ⟨hflag _ (by decide), hflag _ (by decide), hflag _ (by decide),
    congrArg BitVec.toNat hshift, hoff⟩

/-! ### Setting a flag -/

theorem dirty_or_dirty (e : Pte) : ({ e with frame := e.frame ||| pgDirty } : Pte).dirty = true :=
  hasFlag_or_self e.frame (by decide)

/-! ### Swapping out -/

theorem swappedOut_valid (e : Pte) : e.swappedOut.valid = false := by
  have h := hasFlag_or_of_disjoint ((e.frame &&& ~~~pgValid) &&& ~~~pgRef)
    (m := pgOnswap) (k := pgValid) (by decide)
  rw [hasFlag_clear_of_disjoint _ (by decide), hasFlag_clear_self] at h
  exact h

theorem swappedOut_onswap (e : Pte) : e.swappedOut.onswap = true := hasFlag_or_self _ (by decide)

theorem swappedOut_swapOff (e : Pte) : e.swappedOut.swapOff = e.swapOff := rfl

/-! ### Bringing in -/

theorem frameWord_lt {f : Nat} (hf : f < 2 ^ 19) (mask : BitVec 32) (hm : mask >>> pageShift = 0#32) :
    ((BitVec.ofNat 32 f <<< pageShift ||| mask) >>> pageShift).toNat = f := by
  rw [or_ushiftRight _ hm, BitVec.toNat_ushiftRight, BitVec.toNat_shiftLeft, BitVec.toNat_ofNat,
    Nat.shiftLeft_eq, Nat.shiftRight_eq_div_pow, pageShift]
  omega

theorem hasFlag_frameWord (f : Nat) {k : BitVec 32} (hk : k >>> 12 = 0#32) :
    hasFlag (BitVec.ofNat 32 f <<< pageShift) k = false := by
  have hz : (BitVec.ofNat 32 f <<< pageShift) &&& k = 0#32 := by
    refine BitVec.eq_of_getLsbD_eq fun i hi => ?_
    rw [BitVec.getLsbD_and, BitVec.getLsbD_shiftLeft, BitVec.getLsbD_zero]
    by_cases hlt : i < pageShift
    · simp [hlt]
    · have hki : k.getLsbD i = false := by
        have := congrArg (fun y => y.getLsbD (i - 12)) hk
        unfold pageShift at hlt
        simpa [show 12 + (i - 12) = i by omega] using this
      simp [hki]
  simp [hasFlag, hz]

end Pte

/-! ## Pointers -/

theorem pgdirIndex_eq (vaddr : Nat) : pgdirIndex vaddr = vaddr / 2 ^ 24 := by
  rw [pgdirIndex, pgdirShift, Nat.shiftRight_eq_div_pow]

theorem pgtblIndex_eq (vaddr : Nat) : pgtblIndex vaddr = vaddr / 2 ^ 12 % 2 ^ 12 := by
  rw [pgtblIndex, pageShift, show pgtblMask = 2 ^ 12 - 1 from rfl, Nat.shiftRight_eq_div_pow,
    Nat.and_two_pow_sub_one_eq_mod]

/-- The number of the page an address lies in. -/
def pageOf (vaddr : Nat) : Nat := vaddr >>> pageShift

/-- The entry that translates the addresses of a page. -/
def ptrOfPage (page : Nat) : PtePtr := ⟨page / 2 ^ 12, page % 2 ^ 12⟩

theorem ptrOf_eq (vaddr : Nat) : ptrOf vaddr = ptrOfPage (pageOf vaddr) := by
  rw [ptrOf, ptrOfPage, pageOf, pgdirIndex_eq, pgtblIndex_eq, pageShift,
    Nat.shiftRight_eq_div_pow, Nat.div_div_eq_div_mul,
    show (2 : Nat) ^ 12 * 2 ^ 12 = 2 ^ 24 by norm_num]

theorem ptrOfPage_injective : Function.Injective ptrOfPage := by
  intro a b h
  simp only [ptrOfPage, PtePtr.mk.injEq] at h
  omega

theorem pgdirIndex_lt {vaddr : Nat} (h : vaddr < 2 ^ 36) : pgdirIndex vaddr < ptrsPerPgdir := by
  rw [pgdirIndex_eq, ptrsPerPgdir]
  omega

/-! ## Stores -/

namespace Machine

@[simp] theorem setPte_pte_self (m : Machine) (p : PtePtr) (e : Pte) : (m.setPte p e).pte p = e := by
  simp [pte, setPte]

theorem setPte_pte_of_ne (m : Machine) {p q : PtePtr} (e : Pte) (h : q ≠ p) :
    (m.setPte p e).pte q = m.pte q := by
  unfold pte setPte
  by_cases hd : q.dir = p.dir
  · have hi : q.idx ≠ p.idx := fun hi => h (by cases p; cases q; simp_all)
    simp only [hd, Function.update_self, Function.update_of_ne hi]
    cases m.pgdir p.dir <;> rfl
  · simp only [Function.update_of_ne hd]

@[simp] theorem setPte_memsize (m : Machine) (p : PtePtr) (e : Pte) :
    (m.setPte p e).memsize = m.memsize := rfl
@[simp] theorem setPte_coremap (m : Machine) (p : PtePtr) (e : Pte) :
    (m.setPte p e).coremap = m.coremap := rfl
@[simp] theorem setPte_physmem (m : Machine) (p : PtePtr) (e : Pte) :
    (m.setPte p e).physmem = m.physmem := rfl
@[simp] theorem setPte_swapfile (m : Machine) (p : PtePtr) (e : Pte) :
    (m.setPte p e).swapfile = m.swapfile := rfl
@[simp] theorem setPte_swapmap (m : Machine) (p : PtePtr) (e : Pte) :
    (m.setPte p e).swapmap = m.swapmap := rfl

end Machine

theorem openDirectory_pte (dir : Nat) (m : Machine) (p : PtePtr) :
    (openDirectory dir m).pte p = m.pte p := by
  unfold openDirectory
  split
  · rename_i hnone
    unfold Machine.pte
    by_cases hd : p.dir = dir
    · subst hd
      rw [Option.isNone_iff_eq_none] at hnone
      simp [hnone]
    · simp only [Function.update_of_ne hd]
  · rfl

/-- Setting up a second-level table changes nothing but the directory. -/
theorem openDirectory_eq (dir : Nat) (m : Machine) :
    openDirectory dir m = { m with pgdir := (openDirectory dir m).pgdir } := by
  unfold openDirectory
  split <;> rfl

/-! ## What a policy leaves -/

namespace Machine

/-- Two machines that agree on everything the residency invariant speaks of. -/
structure SameView (m m' : Machine) : Prop where
  memsize : m'.memsize = m.memsize
  pte : ∀ p, Pte.Same (m.pte p) (m'.pte p)
  inUse : ∀ f, (m'.coremap f).inUse = (m.coremap f).inUse
  owner : ∀ f, (m'.coremap f).pte = (m.coremap f).pte
  swapmap : m'.swapmap = m.swapmap

theorem SameView.refl (m : Machine) : SameView m m :=
  ⟨rfl, fun _ => .refl _, fun _ => rfl, fun _ => rfl, rfl⟩

theorem SameView.trans {m₁ m₂ m₃ : Machine} (h : SameView m₁ m₂) (h' : SameView m₂ m₃) :
    SameView m₁ m₃ :=
  ⟨h'.memsize.trans h.memsize, fun p => (h.pte p).trans (h'.pte p),
    fun f => (h'.inUse f).trans (h.inUse f), fun f => (h'.owner f).trans (h.owner f),
    h'.swapmap.trans h.swapmap⟩

theorem SameButBookkeeping.refl (m : Machine) : m.SameButBookkeeping m :=
  ⟨fun _ => rfl, fun _ => rfl, fun _ => rfl, fun _ => rfl, rfl⟩

theorem SameButBookkeeping.sameView {m m' : Machine} (h : m.SameButBookkeeping m') :
    SameView m m' := by
  refine ⟨?_, fun p => Pte.same_of_clear_ref (h.frame p) (h.swapOff p), fun f => ?_, fun f => ?_, ?_⟩
  · rw [h.rest]
  · rw [h.coremap f]
  · rw [h.coremap f]
  · rw [h.rest]

theorem SameButBookkeeping.physmem {m m' : Machine} (h : m.SameButBookkeeping m') :
    m'.physmem = m.physmem := by rw [h.rest]

theorem SameButBookkeeping.swapfile {m m' : Machine} (h : m.SameButBookkeeping m') :
    m'.swapfile = m.swapfile := by rw [h.rest]

end Machine

theorem sameView_openDirectory (dir : Nat) (m : Machine) : m.SameView (openDirectory dir m) := by
  refine ⟨?_, fun p => ?_, fun f => ?_, fun f => ?_, ?_⟩
  · rw [openDirectory_eq]
  · rw [openDirectory_pte]; exact .refl _
  · rw [openDirectory_eq]
  · rw [openDirectory_eq]
  · rw [openDirectory_eq]

theorem sameView_hitState (vaddr : Nat) (m : Machine) : m.SameView (hitState vaddr m) :=
  (sameView_openDirectory (pgdirIndex vaddr) m).trans
    ⟨rfl, fun _ => .refl _, fun _ => rfl, fun _ => rfl, rfl⟩

theorem sameView_missState (vaddr : Nat) (m : Machine) : m.SameView (missState vaddr m) :=
  (sameView_openDirectory (pgdirIndex vaddr) m).trans
    ⟨rfl, fun _ => .refl _, fun _ => rfl, fun _ => rfl, rfl⟩

theorem sameView_bumpVersion (a : Access) (memptr : Nat) (m : Machine) :
    m.SameView (bumpVersion a memptr m) := by
  unfold bumpVersion
  split
  · exact ⟨rfl, fun _ => .refl _, fun _ => rfl, fun _ => rfl, rfl⟩
  · exact .refl m

end Paging
end OsAssignments
