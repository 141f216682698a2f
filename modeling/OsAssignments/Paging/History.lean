import OsAssignments.Paging.Correspondence
import OsAssignments.Paging.Owners

/-!
# The history of a run

* `Event` — what one access was: its entry, whether it stores, whether it missed, and what it
  evicted; `eventOf` and `history` read the events off a run, and `missesOf` counts the misses.
* `LoadedAt` — the event that brought a page in.
* `replay_history` — what every access keeps, of the events so far, holds in every state of a run.
-/

namespace OsAssignments
namespace Paging

open MachineWord ByteMemory

/-! ## Events -/

/-- An access that was served. -/
structure Event where
  entry : PtePtr
  stores : Bool
  missed : Bool
  /-- The entry of the victim, and whether `allocate_frame` calls `swap_pageout` for it. -/
  evicted : Option (PtePtr × Bool)

section

variable {σ : Type} {P : Policy σ} {a : Access} {m m' : Machine} {s s' : σ}

/-- What the access makes `allocate_frame` evict. -/
def evictedBy (P : Policy σ) (a : Access) (m : Machine) (s : σ) : Option (PtePtr × Bool) :=
  if ((missState a.vaddr m).pte (ptrOf a.vaddr)).valid then none
  else
    match firstFree (missState a.vaddr m) with
    | some _ => none
    | none =>
      match P.evict (missState a.vaddr m) s with
      | .error _ => none
      | .ok (v, mp, _) =>
        if 0 ≤ v ∧ v < mp.memsize then
          (mp.coremap v.toNat).pte.map fun q => (q, (mp.pte q).dirty)
        else none

/-- The event of an access. -/
def eventOf (P : Policy σ) (a : Access) (m : Machine) (s : σ) : Event where
  entry := ptrOf a.vaddr
  stores := a.stores
  missed := !((missState a.vaddr m).pte (ptrOf a.vaddr)).valid
  evicted := evictedBy P a m s

/-- The events of a run. -/
def history (P : Policy σ) : List Access → Machine → σ → List Event
  | [], _, _ => []
  | a :: as, m, s =>
    eventOf P a m s ::
      match accessStep P a m s with
      | .ok (m', s') => history P as m' s'
      | .error _ => []

theorem eventOf_hit (hv : (m.pte (ptrOf a.vaddr)).valid = true) :
    (eventOf P a m s).missed = false ∧ (eventOf P a m s).evicted = none := by
  unfold eventOf evictedBy
  rw [missState_pte, hv]
  exact ⟨rfl, rfl⟩

theorem eventOf_miss (hv : (m.pte (ptrOf a.vaddr)).valid = false) :
    (eventOf P a m s).missed = true := by
  unfold eventOf
  rw [missState_pte, hv]
  rfl

/-- The number of misses of a run. -/
def missesOf (P : Policy σ) (trace : List Access) (m : Machine) (s : σ) : Nat :=
  (history P trace m s).countP Event.missed

theorem eventOf_fill {f : Nat} (hfree : firstFree m = some f) :
    (eventOf P a m s).evicted = none := by
  unfold eventOf evictedBy
  rw [firstFree_missState, hfree]
  split <;> rfl

theorem eventOf_evict {f : Nat} {q : PtePtr} {mp : Machine}
    (hv : (m.pte (ptrOf a.vaddr)).valid = false) (hfree : firstFree m = none)
    (hevict : P.evict (missState a.vaddr m) s = .ok ((f : Int), mp, s')) (hf : f < m.memsize)
    (hq : (m.coremap f).pte = some q) :
    (eventOf P a m s).evicted = some (q, (m.pte q).dirty) := by
  have hview := (sameView_missState a.vaddr m).trans (P.evict_same hevict).sameView
  have hrange : (0 : Int) ≤ f ∧ (f : Int) < mp.memsize := by
    rw [hview.memsize]
    omega
  simp only [eventOf, evictedBy, missState_pte, hv, firstFree_missState, hfree, hevict, if_pos hrange,
    Int.toNat_natCast, hview.owner, hq, Option.map_some, (hview.pte q).dirty]
  rfl

/-! ## Runs -/

/-- The events up to the last one. -/
theorem history_concat (past : List Access) (a : Access) :
    ∀ {m₀ : Machine} {s₀ : σ}, replay P past m₀ s₀ = .ok (m, s) →
      history P (past ++ [a]) m₀ s₀ = history P past m₀ s₀ ++ [eventOf P a m s] := by
  induction past with
  | nil =>
    intro m₀ s₀ hrun
    obtain ⟨rfl, rfl⟩ := Prod.mk.inj (Except.ok.inj hrun)
    show eventOf P a m₀ s₀ :: _ = [eventOf P a m₀ s₀]
    cases accessStep P a m₀ s₀ with
    | error e => rfl
    | ok r => rfl
  | cons b past ih =>
    intro m₀ s₀ hrun
    rw [replay, runWith] at hrun
    rw [List.cons_append, history, history, List.cons_append]
    cases hstep : accessStep P b m₀ s₀ with
    | error e =>
      rw [hstep] at hrun
      cases hrun
    | ok r =>
      rw [hstep] at hrun
      exact congrArg _ (ih hrun)

/-- The misses of a run, from the first access on. -/
theorem missesOf_cons (trace : List Access) (hstep : accessStep P a m s = .ok (m', s')) :
    missesOf P (a :: trace) m s =
      missesOf P trace m' s' + if (eventOf P a m s).missed = true then 1 else 0 := by
  rw [missesOf, history, hstep, List.countP_cons, missesOf]

/-- The entries of the events are those of the accesses. -/
theorem history_entries (past : List Access) :
    ∀ {m₀ : Machine} {s₀ : σ}, replay P past m₀ s₀ = .ok (m, s) →
      (history P past m₀ s₀).map Event.entry = past.map fun a => ptrOf a.vaddr := by
  induction past with
  | nil => exact fun _ => rfl
  | cons b past ih =>
    intro m₀ s₀ hrun
    rw [replay, runWith] at hrun
    rw [history, List.map_cons, List.map_cons]
    cases hstep : accessStep P b m₀ s₀ with
    | error e =>
      rw [hstep] at hrun
      cases hrun
    | ok r =>
      rw [hstep] at hrun
      exact congrArg _ (ih hrun)

/-- **What every access keeps holds in every state of a run**, of the events so far. -/
theorem replay_history {I : List Event → Machine → σ → Prop} {m₀ : Machine} {s₀ : σ}
    (hstart : I [] m₀ s₀)
    (hstep : ∀ past a m s m' s', I past m s → accessStep P a m s = .ok (m', s') →
      I (past ++ [eventOf P a m s]) m' s') {past : List Access}
    (hrun : replay P past m₀ s₀ = .ok (m, s)) : I (history P past m₀ s₀) m s := by
  have hboth : replay P past m₀ s₀ = .ok (m, s) ∧ I (history P past m₀ s₀) m s := by
    refine replay_induction (P := P)
      (I := fun past m s => replay P past m₀ s₀ = .ok (m, s) ∧ I (history P past m₀ s₀) m s)
      ⟨rfl, hstart⟩ (fun past a m s m' s' h haccess => ?_) past m s hrun
    rw [history_concat past a h.1, replay, runWith_concat]
    refine ⟨?_, hstep _ a m s m' s' h.2 haccess⟩
    rw [show runWith (accessStep P) past m₀ s₀ = .ok (m, s) from h.1]
    exact haccess
  exact hboth.2

/-- **A policy that answers in the states it reaches runs every trace to the end** when the swap
file has room for its pages. -/
theorem replay_answered {I : Machine → σ → Prop} {trace : List Access} {memsize swapsize : Nat}
    (physmem swapfile : Memory) {b : Bitmap} {s₀ : σ} (hswap : swapsize < 2 ^ 32)
    (hb : bitmapCreate swapsize = .ok b) (hmem : memsize < 2 ^ 19)
    (hvaddr : ∀ a ∈ trace, a.vaddr < 2 ^ 36) (hslots : (pagesOf trace).card ≤ b.slots.card)
    (hstart : I (boot memsize physmem swapfile b) s₀)
    (hanswers : ∀ a m s, I m s → P.Answers a m s)
    (hstep : ∀ a m s m' s', I m s → accessStep P a m s = .ok (m', s') → I m' s') :
    P.AnswersAlong (accessStep P) trace (boot memsize physmem swapfile b) s₀ ∧
      ∃ m s, replay P trace (boot memsize physmem swapfile b) s₀ = .ok (m, s) := by
  have hR := Residency.boot hswap hb (entriesOf trace) memsize physmem swapfile
  -- one access, of a state with both invariants
  have hnext : ∀ a ∈ trace, ∀ m s,
      Residency b.slots.card (entriesOf trace) m ∧ m.memsize = memsize ∧ I m s →
      P.Answers a m s → ∃ m' s', accessStep P a m s = .ok (m', s') ∧
        Residency b.slots.card (entriesOf trace) m' ∧ m'.memsize = memsize ∧ I m' s' := by
    rintro a ha m s ⟨hR, hsize, hI⟩ hans
    obtain ⟨m', s', hrun, hR', hsize'⟩ := hR.accessStep_ok
      ((card_entriesOf trace).le.trans hslots)
      ((card_entriesOf trace).le.trans (card_pagesOf_le hvaddr)) (ptrOf_mem_entriesOf ha)
      (hvaddr a ha) (hsize ▸ hmem.le) hans
    exact ⟨m', s', hrun, hR', hsize'.trans hsize, hstep a m s m' s' hI hrun⟩
  have hans := Policy.answersAlong (P := P) hnext (fun a _ m s h => hanswers a m s h.2.2)
    ⟨hR, rfl, hstart⟩
  obtain ⟨m, s, hrun, -⟩ := runWith_ok (I := fun _ m s =>
    Residency b.slots.card (entriesOf trace) m ∧ m.memsize = memsize ∧ I m s)
    (fun _ => hnext) [] hans ⟨hR, rfl, hstart⟩
  exact ⟨hans, m, s, hrun⟩

end

/-! ## Loading -/

/-- The event number `t` is the last one that brought the page of `p` into memory. -/
def LoadedAt (past : List Event) (p : PtePtr) (t : Nat) : Prop :=
  IsGreatest {j | ∃ e, past[j]? = some e ∧ e.entry = p ∧ e.missed = true} t

theorem LoadedAt.lt {past : List Event} {p : PtePtr} {t : Nat} (h : LoadedAt past p t) :
    t < past.length := by
  obtain ⟨e, he, -⟩ := h.1
  exact (List.getElem?_eq_some_iff.mp he).1

/-- The event of a miss. -/
theorem loadedAt_concat_self {past : List Event} {e : Event} (hmiss : e.missed = true) :
    LoadedAt (past ++ [e]) e.entry past.length := by
  constructor
  · refine ⟨e, ?_, rfl, hmiss⟩
    rw [List.getElem?_append_right (le_refl _), Nat.sub_self]
    rfl
  · rintro j ⟨e', he', -⟩
    have hlt := (List.getElem?_eq_some_iff.mp he').1
    rw [List.length_append, List.length_singleton] at hlt
    omega

/-- Any other event. -/
theorem LoadedAt.concat {past : List Event} {p : PtePtr} {t : Nat} (h : LoadedAt past p t)
    {e : Event} (hne : e.missed = false ∨ e.entry ≠ p) : LoadedAt (past ++ [e]) p t := by
  constructor
  · obtain ⟨e', he', hrest⟩ := h.1
    refine ⟨e', ?_, hrest⟩
    rw [List.getElem?_append_left h.lt]
    exact he'
  · rintro j ⟨e', he', hentry, hmiss⟩
    rcases Nat.lt_or_ge j past.length with hlt | hge
    · rw [List.getElem?_append_left hlt] at he'
      exact h.2 ⟨e', he', hentry, hmiss⟩
    · rw [List.getElem?_append_right hge, List.getElem?_singleton] at he'
      split at he'
      · obtain rfl := Option.some.inj he'
        rcases hne with hne | hne
        · rw [hmiss] at hne
          cases hne
        · exact absurd hentry hne
      · cases he'

end Paging
end OsAssignments
