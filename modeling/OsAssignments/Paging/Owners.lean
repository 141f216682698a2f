import OsAssignments.Lib.ExceptSpec
import OsAssignments.Paging.Translate

/-!
# Frames and their owners, with or without swap space

What `find_physpage` does with frames and entries does not depend on the swap file: it holds of every
call that returns, also after the last slot of the swap file was taken.

* `Touched`, `Vacated`, `Placed` — a hit, the victim's entry after an eviction, the page that is
  brought in.
* `FrameStep` — the three ways through `find_physpage`, up to the call of `ref_fcn`;
  `FrameStep.owners` — each keeps the owners.
* `replay_induction` — what every access keeps holds in every state of a run.
-/

namespace OsAssignments
namespace Paging

open MachineWord ByteMemory ExceptSpec

/-- Nothing is said about a call that does not return. -/
def AnyFault (_ : Fault) : Prop := True

theorem meets_any {α : Type} (x : Except Fault α) : Meets (fun _ => True) AnyFault x :=
  ⟨fun _ _ => trivial, fun _ _ => trivial⟩

/-! ## Owners -/

namespace Owners

theorem boot (memsize : Nat) (physmem swapfile : Memory) (b : Bitmap) :
    Owners (boot memsize physmem swapfile b) where
  owner p hp := by
    rw [show (Paging.boot memsize physmem swapfile b).pte p = Pte.fresh from rfl,
      Pte.fresh_valid] at hp
    cases hp
  held f _ hu := by cases hu

end Owners

/-- `coremap[i].pte`, to be dereferenced. -/
def framePte (m : Machine) (i : Nat) : Except Fault PtePtr :=
  if i < m.memsize then
    match (m.coremap i).pte with
    | none => .error .nullPointer
    | some p => .ok p
  else .error .outOfBounds

/-- In full memory every frame has an owner. -/
theorem Owners.framePte_ok {m : Machine} (h : Owners m) (hfull : m.Full) {i : Nat}
    (hi : i < m.memsize) : ∃ p, framePte m i = .ok p ∧ (m.coremap i).pte = some p ∧
      (m.pte p).valid = true ∧ (m.pte p).frameNumber = i := by
  obtain ⟨q, hq, hv, hfn⟩ := h.coremap_pte hi (hfull i hi)
  exact ⟨q, by rw [framePte, if_pos hi, hq], hq, hv, hfn⟩

/-! ## The steps of `find_physpage` -/

/-- What a hit does. -/
structure Touched (a : Access) (m m' : Machine) : Prop where
  memsize : m'.memsize = m.memsize
  coremap : m'.coremap = m.coremap
  others : ∀ p, p ≠ ptrOf a.vaddr → m'.pte p = m.pte p
  valid : (m'.pte (ptrOf a.vaddr)).valid = true
  referenced : (m'.pte (ptrOf a.vaddr)).referenced = true
  frameNumber : (m'.pte (ptrOf a.vaddr)).frameNumber = (m.pte (ptrOf a.vaddr)).frameNumber

/-- What an eviction does with the entry `q` of the victim. -/
structure Vacated (q : PtePtr) (m m' : Machine) : Prop where
  memsize : m'.memsize = m.memsize
  coremap : m'.coremap = m.coremap
  others : ∀ p, p ≠ q → m'.pte p = m.pte p
  valid : (m'.pte q).valid = false

/-- What a miss does with the frame `f` it was given. -/
structure Placed (a : Access) (f : Nat) (m m' : Machine) : Prop where
  memsize : m'.memsize = m.memsize
  coremap : m'.coremap = (claimFrame f (ptrOf a.vaddr) m).coremap
  others : ∀ p, p ≠ ptrOf a.vaddr → m'.pte p = m.pte p
  valid : (m'.pte (ptrOf a.vaddr)).valid = true
  referenced : (m'.pte (ptrOf a.vaddr)).referenced = true
  frameNumber : (m'.pte (ptrOf a.vaddr)).frameNumber = f

theorem Placed.coremap_of_ne {a : Access} {f g : Nat} {m m' : Machine} (h : Placed a f m m')
    (hg : g ≠ f) : m'.coremap g = m.coremap g := by
  rw [h.coremap]
  exact Function.update_of_ne hg _ _

theorem Placed.coremap_self {a : Access} {f : Nat} {m m' : Machine} (h : Placed a f m m') :
    m'.coremap f = { m.coremap f with inUse := true, pte := some (ptrOf a.vaddr) } := by
  rw [h.coremap]
  exact Function.update_self _ _ _

theorem markAccess_referenced (a : Access) (m : Machine) :
    ((markAccess a m).pte (ptrOf a.vaddr)).referenced = true := by
  rw [markAccess_pte]
  split
  · exact (hasFlag_or_of_disjoint _ (by decide)).trans (hasFlag_or_self _ (by decide))
  · exact hasFlag_or_self _ (by decide)

theorem markAccess_touched (a : Access) (m : Machine) : Touched a m (markAccess a m) := by
  have h := markAccess_marked a m
  exact ⟨h.memsize, h.coremap, h.others, h.valid, markAccess_referenced a m, h.frameNumber⟩

/-! ## What a call that returns has done -/

theorem writeSwap_frames (frame : Nat) (swapOffset : Int) (m : Machine) :
    (writeSwap frame swapOffset m).memsize = m.memsize ∧
      (writeSwap frame swapOffset m).coremap = m.coremap ∧
      (writeSwap frame swapOffset m).pgdir = m.pgdir := ⟨rfl, rfl, rfl⟩

/-- Swapping a page out changes no frame and no entry. -/
theorem swapPageout_frames (frame : Nat) (swapOffset : Int) (m : Machine) :
    Meets (fun r => r.2.memsize = m.memsize ∧ r.2.coremap = m.coremap ∧ r.2.pgdir = m.pgdir)
      AnyFault (swapPageout frame swapOffset m) := by
  unfold swapPageout
  refine Meets.ite (fun _ => ?_) fun _ => .ok (writeSwap_frames frame swapOffset m)
  refine Meets.bind (meets_any _) fun ⟨idx, swapmap⟩ _ => ?_
  cases idx with
  | none => exact .ok ⟨rfl, rfl, rfl⟩
  | some idx =>
    exact Meets.ite (fun _ => .error trivial) fun _ => .ok (writeSwap_frames _ _ _)

/-- `evict_fcn` chose `f`, which holds the page of `q`. -/
theorem evictFrame_vacated {f : Nat} {q : PtePtr} {m : Machine}
    (hq : (m.coremap f).pte = some q) :
    Meets (Vacated q m) AnyFault (evictFrame f m) := by
  -- whatever is written, the entry is stored last
  have hlast : ∀ mw : Machine, mw.memsize = m.memsize → mw.coremap = m.coremap →
      (∀ p, p ≠ q → mw.pte p = m.pte p) →
      Vacated q m (mw.setPte q (mw.pte q).swappedOut) := by
    intro mw hsize hcoremap hothers
    refine ⟨hsize, hcoremap, fun p hp => ?_, ?_⟩
    · rw [Machine.setPte_pte_of_ne _ _ hp, hothers p hp]
    · rw [Machine.setPte_pte_self]
      exact Pte.swappedOut_valid _
  unfold evictFrame
  rw [hq]
  refine Meets.ite (fun _ => ?_) fun _ => .ok (hlast _ rfl rfl fun p _ => rfl)
  refine (swapPageout_frames f _ m).bind fun ⟨off, mw⟩ ⟨hsize, hcoremap, hpgdir⟩ => .ok ?_
  refine hlast _ hsize hcoremap fun p hp => ?_
  show (mw.setPte q _).pte p = m.pte p
  rw [Machine.setPte_pte_of_ne _ _ hp, Machine.pte, hpgdir]
  rfl

/-- The page gets its entry, from swap or not. -/
theorem loadPage_placed (isSwapped : Bool) {f : Nat} (hf : f < 2 ^ 19) (a : Access) (m : Machine) :
    Meets (fun m' => Placed a f m (markAccess a m')) AnyFault
      (loadPage isSwapped f a.vaddr (claimFrame f (ptrOf a.vaddr) m)) := by
  -- only the frame word that is stored matters
  have hstore : ∀ (mw : Machine) (word : BitVec 32) (off : Int), mw.memsize = m.memsize →
      mw.coremap = (claimFrame f (ptrOf a.vaddr) m).coremap → mw.pgdir = m.pgdir →
      (word >>> pageShift).toNat = f →
      Placed a f m (markAccess a (mw.setPte (ptrOf a.vaddr) ⟨word, off⟩)) := by
    intro mw word off hsize hcoremap hpgdir hword
    have h := markAccess_touched a (mw.setPte (ptrOf a.vaddr) ⟨word, off⟩)
    refine ⟨h.memsize.trans hsize, h.coremap.trans hcoremap, fun p hp => ?_, h.valid, h.referenced,
      ?_⟩
    · rw [h.others p hp, Machine.setPte_pte_of_ne _ _ hp, Machine.pte, hpgdir]
      rfl
    · rw [h.frameNumber, Machine.setPte_pte_self]
      exact hword
  have hword := Pte.frameWord_lt hf
  cases isSwapped with
  | false => exact .ok (hstore _ _ _ rfl rfl rfl (hword pgDirty (by decide)))
  | true =>
    have hclear : ((BitVec.ofNat 32 f <<< pageShift &&& ~~~pgOnswap) >>> pageShift).toNat = f := by
      rw [clear_ushiftRight _ (by decide)]
      have hzero := hword 0#32 (by decide)
      rwa [BitVec.or_zero] at hzero
    unfold loadPage swapPagein
    refine Meets.bind (Q := fun mw => mw.memsize = m.memsize ∧
      mw.coremap = (claimFrame f (ptrOf a.vaddr) m).coremap ∧ mw.pgdir = m.pgdir) ?_
      fun mw hmw => .ok (hstore mw _ _ hmw.1 hmw.2.1 hmw.2.2 hclear)
    exact Meets.ite (fun _ => .error trivial) fun _ => .ok ⟨rfl, rfl, rfl⟩

/-! ## The three ways through `find_physpage` -/

section

variable {σ : Type} {P : Policy σ} {a : Access} {m m' : Machine} {s s' : σ}

/-- What `find_physpage` does with frames and entries, up to the call of `ref_fcn`. -/
inductive FrameStep (P : Policy σ) (a : Access) (m : Machine) (s : σ) (m' : Machine) (s' : σ) :
    Prop
  | hit : (m.pte (ptrOf a.vaddr)).valid = true → Touched a (hitState a.vaddr m) m' → s' = s →
      FrameStep P a m s m' s'
  | fill {f : Nat} : (m.pte (ptrOf a.vaddr)).valid = false → firstFree m = some f →
      Placed a f (missState a.vaddr m) m' → s' = s → FrameStep P a m s m' s'
  | evict {f : Nat} {q : PtePtr} {mp me : Machine} : (m.pte (ptrOf a.vaddr)).valid = false →
      firstFree m = none → P.evict (missState a.vaddr m) s = .ok ((f : Int), mp, s') →
      f < m.memsize → (m.coremap f).pte = some q → Vacated q mp me → Placed a f me m' →
      FrameStep P a m s m' s'

theorem missState_pte (vaddr : Nat) (m : Machine) (p : PtePtr) :
    (missState vaddr m).pte p = m.pte p := openDirectory_pte _ m p

theorem hitState_pte (vaddr : Nat) (m : Machine) (p : PtePtr) :
    (hitState vaddr m).pte p = m.pte p := openDirectory_pte _ m p

theorem firstFree_missState (vaddr : Nat) (m : Machine) :
    firstFree (missState vaddr m) = firstFree m := by
  have hview := sameView_missState vaddr m
  unfold firstFree
  rw [hview.memsize]
  simp only [hview.inUse]

/-- The victim of `evict_fcn`, if that is a frame, and the entry of its page. -/
theorem Owners.victim (h : Owners m) (hfree : firstFree m = none) {v : Int} {mp : Machine} {sp : σ}
    (hevict : P.evict (missState a.vaddr m) s = .ok (v, mp, sp)) (hv0 : 0 ≤ v)
    (hvlt : v < mp.memsize) : ∃ (f : Nat) (q : PtePtr), v = f ∧ f < m.memsize ∧
      (m.coremap f).pte = some q ∧ (mp.coremap f).pte = some q := by
  have hview := (sameView_missState a.vaddr m).trans (P.evict_same hevict).sameView
  obtain ⟨f, rfl⟩ := Int.eq_ofNat_of_zero_le hv0
  have hf : f < m.memsize := by
    rw [← hview.memsize]
    exact Int.ofNat_lt.mp hvlt
  obtain ⟨q, hq, -, -⟩ := h.coremap_pte hf (full_of_firstFree hfree f hf)
  exact ⟨f, q, rfl, hf, hq, (hview.owner f).trans hq⟩

/-- **Every call that gets to `ref_fcn` took one of the three ways.** -/
theorem translate_frameStep (h : Owners m) (hmem : m.memsize ≤ 2 ^ 19) :
    Meets (fun r => FrameStep P a m s r.1 r.2) AnyFault (translate P a m s) := by
  unfold translate
  refine Meets.ite (fun _ => .error trivial) fun _ => Meets.ite (fun hv => ?_) fun hv => ?_
  · rw [openDirectory_pte] at hv
    exact .ok (.hit hv (markAccess_touched a _) rfl)
  · rw [openDirectory_pte, Bool.not_eq_true] at hv
    unfold bringIn
    refine Meets.bind (Q := fun r => FrameStep P a m s (markAccess a r.1) r.2) ?_
      fun ⟨_, _⟩ hstep => .ok hstep
    unfold allocateFrame
    rw [firstFree_missState]
    cases hfree : firstFree m with
    | some f =>
      have hf := (firstFree_some hfree).1
      exact (loadPage_placed _ (by omega) a _).bind fun ml hplaced =>
        .ok (.fill hv hfree hplaced rfl)
    | none =>
      refine Meets.bind (Q := fun r => ∃ mp me q, P.evict (missState a.vaddr m) s
        = .ok ((r.1 : Int), mp, r.2.2) ∧ r.1 < m.memsize ∧ (m.coremap r.1).pte = some q ∧
        Vacated q mp me ∧ r.2.1 = claimFrame r.1 (ptrOf a.vaddr) me) ?_
        fun ⟨f, mc, sp⟩ ⟨mp, me, q, hevict, hf, hq, hvacated, hmc⟩ => ?_
      · cases hevict : P.evict (missState a.vaddr m) s with
        | error e => exact .error trivial
        | ok r =>
          obtain ⟨v, mp, sp⟩ := r
          refine Meets.ite (fun ⟨hv0, hvlt⟩ => ?_) fun _ => .error trivial
          obtain ⟨f, q, rfl, hf, hq, hqp⟩ := h.victim hfree hevict hv0 hvlt
          exact (evictFrame_vacated hqp).bind fun me hvacated =>
            .ok ⟨mp, me, q, rfl, hf, hq, hvacated, rfl⟩
      · dsimp only at hmc hf hq hevict
        subst hmc
        exact (loadPage_placed _ (by omega) a me).bind fun ml hplaced =>
          .ok (.evict hv hfree hevict hf hq hvacated hplaced)

/-! ## The owners are kept -/

/-- All frames but `f`, which is to be given away, have their owners. -/
structure OwnersBut (f : Nat) (m : Machine) : Prop where
  owner : ∀ p, (m.pte p).valid = true → (m.pte p).frameNumber ≠ f ∧
    (m.pte p).frameNumber < m.memsize ∧ (m.coremap (m.pte p).frameNumber).inUse = true ∧
    (m.coremap (m.pte p).frameNumber).pte = some p
  held : ∀ g, g ≠ f → g < m.memsize → (m.coremap g).inUse = true →
    ∃ p, (m.pte p).valid = true ∧ (m.pte p).frameNumber = g

theorem Owners.free (h : Owners m) {f : Nat} (hf : (m.coremap f).inUse = false) :
    OwnersBut f m where
  owner p hp := by
    refine ⟨?_, h.owner p hp⟩
    rintro rfl
    rw [(h.owner p hp).2.1] at hf
    cases hf
  held g _ := h.held g

theorem Vacated.ownersBut {f : Nat} {q : PtePtr} (hvac : Vacated q m m') (h : Owners m)
    (hf : f < m.memsize) (hu : (m.coremap f).inUse = true) (hq : (m.coremap f).pte = some q) :
    OwnersBut f m' where
  owner p hp := by
    have hpq : p ≠ q := by
      rintro rfl
      rw [hvac.valid] at hp
      cases hp
    rw [hvac.others p hpq] at hp ⊢
    rw [hvac.memsize, hvac.coremap]
    refine ⟨?_, h.owner p hp⟩
    rintro rfl
    rw [(h.owner p hp).2.2] at hq
    exact hpq (Option.some.inj hq)
  held g hg hlt hu' := by
    rw [hvac.coremap] at hu'
    obtain ⟨p, hp, hpg⟩ := h.held g (hvac.memsize ▸ hlt) hu'
    have hpq : p ≠ q := by
      rintro rfl
      obtain ⟨p', hp', hpv, hpf⟩ := h.coremap_pte hf hu
      rw [hq] at hp'
      obtain rfl := Option.some.inj hp'
      exact hg (hpg.symm.trans hpf)
    exact ⟨p, by rw [hvac.others p hpq]; exact hp, by rw [hvac.others p hpq]; exact hpg⟩

theorem Placed.owners {f : Nat} (h : Placed a f m m') (hbut : OwnersBut f m) (hf : f < m.memsize)
    (hv : (m.pte (ptrOf a.vaddr)).valid = false) : Owners m' where
  owner p hp := by
    by_cases hpa : p = ptrOf a.vaddr
    · subst hpa
      rw [h.frameNumber, h.memsize, h.coremap_self]
      exact ⟨hf, rfl, rfl⟩
    · rw [h.others p hpa] at hp ⊢
      obtain ⟨hne, hlt, hu, hown⟩ := hbut.owner p hp
      rw [h.memsize, h.coremap_of_ne hne]
      exact ⟨hlt, hu, hown⟩
  held g hg hu := by
    by_cases hgf : g = f
    · exact ⟨ptrOf a.vaddr, h.valid, by rw [h.frameNumber, hgf]⟩
    · rw [h.coremap_of_ne hgf] at hu
      obtain ⟨p, hp, hpg⟩ := hbut.held g hgf (h.memsize ▸ hg) hu
      have hpa : p ≠ ptrOf a.vaddr := by
        rintro rfl
        rw [hv] at hp
        cases hp
      exact ⟨p, by rw [h.others p hpa]; exact hp, by rw [h.others p hpa]; exact hpg⟩

theorem Touched.owners (h : Touched a m m') (hown : Owners m)
    (hv : (m.pte (ptrOf a.vaddr)).valid = true) : Owners m' := by
  have hpte : ∀ p, (m'.pte p).valid = (m.pte p).valid ∧
      (m'.pte p).frameNumber = (m.pte p).frameNumber := by
    intro p
    by_cases hpa : p = ptrOf a.vaddr
    · rw [hpa]
      exact ⟨h.valid.trans hv.symm, h.frameNumber⟩
    · rw [h.others p hpa]
      exact ⟨rfl, rfl⟩
  constructor
  · intro p hp
    rw [(hpte p).1] at hp
    rw [(hpte p).2, h.memsize, h.coremap]
    exact hown.owner p hp
  · intro g hg hu
    rw [h.coremap] at hu
    obtain ⟨p, hp, hpg⟩ := hown.held g (h.memsize ▸ hg) hu
    exact ⟨p, (hpte p).1.trans hp, (hpte p).2.trans hpg⟩

/-- **Every way through `find_physpage` keeps the owners.** -/
theorem FrameStep.owners (hstep : FrameStep P a m s m' s') (h : Owners m) : Owners m' := by
  have hmiss := h.of_sameView (sameView_missState a.vaddr m)
  have hview := sameView_missState a.vaddr m
  cases hstep with
  | hit hv htouched _ =>
    exact htouched.owners (h.of_sameView (sameView_hitState a.vaddr m)) (by rw [hitState_pte, hv])
  | fill hv hfree hplaced _ =>
    obtain ⟨hf, hu⟩ := firstFree_some hfree
    rw [← hview.inUse] at hu
    exact hplaced.owners (hmiss.free hu) (hview.memsize ▸ hf) (by rw [missState_pte, hv])
  | @evict f q mp me hv hfree hevict hf hq hvacated hplaced =>
    have hviewp := hview.trans (P.evict_same hevict).sameView
    have hp := h.of_sameView hviewp
    have hf' : f < mp.memsize := hviewp.memsize.symm ▸ hf
    have hu : (mp.coremap f).inUse = true := (hviewp.inUse f).trans (full_of_firstFree hfree f hf)
    have hq' : (mp.coremap f).pte = some q := (hviewp.owner f).trans hq
    refine hplaced.owners (hvacated.ownersBut hp hf' hu hq') (hvacated.memsize ▸ hf') ?_
    by_cases hpq : ptrOf a.vaddr = q
    · rw [hpq]
      exact hvacated.valid
    · rw [hvacated.others _ hpq, (hviewp.pte _).valid, hv]

theorem FrameStep.memsize (hstep : FrameStep P a m s m' s') : m'.memsize = m.memsize := by
  have hview := sameView_missState a.vaddr m
  cases hstep with
  | hit _ htouched _ => exact htouched.memsize.trans (sameView_hitState a.vaddr m).memsize
  | fill _ _ hplaced _ => exact hplaced.memsize.trans hview.memsize
  | evict _ _ hevict _ _ hvacated hplaced =>
    exact hplaced.memsize.trans (hvacated.memsize.trans
      (hview.trans (P.evict_same hevict).sameView).memsize)

theorem FrameStep.valid (hstep : FrameStep P a m s m' s') :
    (m'.pte (ptrOf a.vaddr)).valid = true := by
  cases hstep with
  | hit _ htouched _ => exact htouched.valid
  | fill _ _ hplaced _ => exact hplaced.valid
  | evict _ _ _ _ _ _ hplaced => exact hplaced.valid

/-! ## Accesses and runs -/

/-- An access that returns: `find_physpage` up to `ref_fcn`, `ref_fcn`, the count of the reference
and the version of the page. -/
theorem accessStep_inv {m₂ : Machine} {s₂ : σ} (hrun : accessStep P a m s = .ok (m₂, s₂)) :
    ∃ m₁ s₁ mr, translate P a m s = .ok (m₁, s₁) ∧ P.ref (ptrOf a.vaddr) m₁ s₁ = .ok (mr, s₂) ∧
      mr.SameView m₂ ∧ m₂ = { mr with refCount := incr mr.refCount, physmem := m₂.physmem } := by
  unfold accessStep accessMem findPhyspage at hrun
  cases htr : translate P a m s with
  | error e =>
    rw [htr] at hrun
    cases hrun
  | ok r =>
    obtain ⟨m₁, s₁⟩ := r
    cases href : P.ref (ptrOf a.vaddr) m₁ s₁ with
    | error e =>
      simp only [htr, href, bind, Except.bind] at hrun
      cases hrun
    | ok r =>
      obtain ⟨mr, sr⟩ := r
      simp only [htr, href, bind, Except.bind, pure, Except.pure] at hrun
      obtain ⟨rfl, rfl⟩ := Prod.mk.inj (Except.ok.inj hrun)
      refine ⟨m₁, s₁, mr, rfl, href, ?_, ?_⟩
      · have hcount : mr.SameView { mr with refCount := incr mr.refCount } :=
          ⟨rfl, fun _ => .refl _, fun _ => rfl, fun _ => rfl, rfl⟩
        exact hcount.trans (sameView_bumpVersion a _ _)
      · unfold bumpVersion
        split <;> rfl

/-- The run up to its last access. -/
theorem runWith_concat {next : Access → Machine → σ → Except Fault (Machine × σ)}
    (past : List Access) (a : Access) :
    ∀ (m : Machine) (s : σ), runWith next (past ++ [a]) m s =
      runWith next past m s >>= fun r => next a r.1 r.2 := by
  induction past with
  | nil =>
    intro m s
    show (next a m s >>= fun r => .ok (r.1, r.2)) = next a m s
    cases next a m s with
    | error e => rfl
    | ok r => rfl
  | cons b past ih =>
    intro m s
    rw [List.cons_append, runWith, runWith]
    cases next b m s with
    | error e => rfl
    | ok r => exact ih r.1 r.2

/-- **What every access keeps holds in every state of a run**, of the accesses so far. -/
theorem replay_induction {I : List Access → Machine → σ → Prop} {m₀ : Machine} {s₀ : σ}
    (hstart : I [] m₀ s₀)
    (hstep : ∀ past a m s m' s', I past m s → accessStep P a m s = .ok (m', s') →
      I (past ++ [a]) m' s') (past : List Access) :
    ∀ m s, replay P past m₀ s₀ = .ok (m, s) → I past m s := by
  induction past using List.reverseRecOn with
  | nil =>
    intro m s hrun
    obtain ⟨rfl, rfl⟩ := Prod.mk.inj (Except.ok.inj hrun)
    exact hstart
  | append_singleton past a ih =>
    intro m s hrun
    rw [replay, runWith_concat] at hrun
    cases hpast : runWith (accessStep P) past m₀ s₀ with
    | error e =>
      rw [hpast] at hrun
      cases hrun
    | ok r =>
      rw [hpast] at hrun
      exact hstep past a r.1 r.2 m s (ih r.1 r.2 hpast) hrun

end

end Paging
end OsAssignments
