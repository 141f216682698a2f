import OsAssignments.Paging.Lru
import OsAssignments.Paging.OptVictim

/-!
# What `lru` evicts

* `LastRef` — the last reference to a page in the references so far.
* `LeastRecentVictim` — `lru_evict` picks the frame of the page with the earliest one.
* `LruHistory` — after every part of a run, whatever was swapped, a frame is stamped with the last
  reference to its page.
* `lru_evicts_least_recent` — so at every eviction `lru_evict` picks so.
-/

namespace OsAssignments
namespace Paging

open MachineWord ByteMemory

/-! ## The last reference -/

/-- The number of the last reference to `page`. -/
def LastRef (pages : List Nat) (page t : Nat) : Prop := IsGreatest {j | pages[j]? = some page} t

theorem LastRef.lt {pages : List Nat} {page t : Nat} (h : LastRef pages page t) :
    t < pages.length :=
  (List.getElem?_eq_some_iff.mp h.1).1

theorem lastRef_concat_self (pages : List Nat) (page : Nat) :
    LastRef (pages ++ [page]) page pages.length := by
  constructor
  · show (pages ++ [page])[pages.length]? = some page
    rw [List.getElem?_append_right (le_refl _), Nat.sub_self]
    rfl
  · intro j hj
    have hlt := (List.getElem?_eq_some_iff.mp hj).1
    rw [List.length_append, List.length_singleton] at hlt
    omega

theorem LastRef.concat {pages : List Nat} {page t r : Nat} (h : LastRef pages page t)
    (hne : page ≠ r) : LastRef (pages ++ [r]) page t := by
  constructor
  · show (pages ++ [r])[t]? = some page
    rw [List.getElem?_append_left h.lt]
    exact h.1
  · intro j hj
    change (pages ++ [r])[j]? = some page at hj
    rcases Nat.lt_or_ge j pages.length with hlt | hge
    · rw [List.getElem?_append_left hlt] at hj
      exact h.2 hj
    · rw [List.getElem?_append_right hge, List.getElem?_singleton] at hj
      split at hj
      · exact absurd (Option.some.inj hj).symm hne
      · cases hj

theorem LastRef.inj {pages : List Nat} {p q t : Nat} (h : LastRef pages p t)
    (h' : LastRef pages q t) : p = q :=
  Option.some.inj (h.1.symm.trans h'.1)

/-! ## The victim -/

/-- `lru_evict` returns `v`, the frame of the page whose last reference was before those of all
other resident pages. -/
structure LeastRecentVictim (pages : List Nat) (m : Machine) (s : LruState) (v : Nat) : Prop where
  evict : lruEvict m s = .ok ((v : Int), m, s)
  lt : v < m.memsize
  least : ∃ page t, (m.coremap v).pte = some (ptrOfPage page) ∧
    (m.pte (ptrOfPage page)).valid = true ∧ (m.pte (ptrOfPage page)).frameNumber = v ∧
    LastRef pages page t ∧
    ∀ q, q ≠ page → (m.pte (ptrOfPage q)).valid = true → ∃ t', LastRef pages q t' ∧ t < t'

section

variable {σ : Type} {P : Policy σ} {a : Access} {m m₁ m' : Machine} {s s₁ s' : LruState}

/-- Up to `ref_fcn`, the globals of `lru.c` and all frames but that of the page stay. -/
theorem FrameStep.lru_frame (h : FrameStep lruPolicy a m s m₁ s₁) :
    s₁ = s ∧ ∀ g, g ≠ (m₁.pte (ptrOf a.vaddr)).frameNumber → m₁.coremap g = m.coremap g := by
  have hmiss := missState_coremap a.vaddr m
  cases h with
  | hit _ htouched hs =>
    refine ⟨hs, fun g _ => ?_⟩
    rw [htouched.coremap, hitState, openDirectory_eq]
  | fill _ _ hplaced hs =>
    refine ⟨hs, fun g hg => ?_⟩
    rw [hplaced.frameNumber] at hg
    rw [hplaced.coremap_of_ne hg, hmiss]
  | evict _ _ hevict _ _ hvacated hplaced =>
    obtain ⟨rfl, hs⟩ := lruEvict_eq hevict
    refine ⟨hs, fun g hg => ?_⟩
    rw [hplaced.frameNumber] at hg
    rw [hplaced.coremap_of_ne hg, hvacated.coremap, hmiss]

/-- Only the page of the access becomes valid. -/
theorem FrameStep.valid_of_ne {m m₁ : Machine} {s s₁ : σ} (h : FrameStep P a m s m₁ s₁)
    {p : PtePtr} (hp : p ≠ ptrOf a.vaddr) (hv : (m₁.pte p).valid = true) :
    (m.pte p).valid = true := by
  cases h with
  | hit _ htouched _ => rwa [htouched.others p hp, hitState_pte] at hv
  | fill _ _ hplaced _ => rwa [hplaced.others p hp, missState_pte] at hv
  | @evict f q mp me _ _ hevict _ _ hvacated hplaced =>
    have hview := (sameView_missState a.vaddr m).trans (P.evict_same hevict).sameView
    rw [hplaced.others p hp] at hv
    by_cases hpq : p = q
    · rw [hpq, hvacated.valid] at hv
      cases hv
    · rwa [hvacated.others p hpq, (hview.pte p).valid] at hv

/-! ## Runs -/

/-- After the references `pages` every frame is stamped with the last one to its page. -/
structure LruHistory (memsize : Nat) (pages : List Nat) (m : Machine) (s : LruState) : Prop where
  memsize : m.memsize = memsize
  owners : Owners m
  stamps : pages.length < 2 ^ 32 → ∃ time, LruInv time pages.length m s ∧
    ∀ p, (m.pte p).valid = true → ∃ page, p = ptrOfPage page ∧ LastRef pages page (time page)

theorem LruHistory.step {memsize : Nat} {pages : List Nat} (h : LruHistory memsize pages m s)
    (hmem : memsize < 2 ^ 19) (hrun : accessStep lruPolicy a m s = .ok (m', s')) :
    LruHistory memsize (pages ++ [pageOf a.vaddr]) m' s' := by
  obtain ⟨m₁, s₁, mr, htr, href, hview, hrest⟩ := accessStep_inv hrun
  have hcoremap : m'.coremap = mr.coremap := by rw [hrest]
  have hstep : FrameStep lruPolicy a m s m₁ s₁ :=
    (translate_frameStep h.owners (h.memsize ▸ hmem.le)).of_ok _ htr
  obtain ⟨rfl, hother⟩ := hstep.lru_frame
  obtain rfl := lruRef_eq href
  have hO := hstep.owners h.owners
  refine ⟨hview.memsize.trans (hstep.memsize.trans h.memsize), hO.of_sameView hview, fun hlen => ?_⟩
  rw [List.length_append, List.length_singleton] at hlen
  obtain ⟨time, hI, hlast⟩ := h.stamps (by omega)
  have hI' := hI.ref hlen hO hstep.memsize hstep.valid hother href
  refine ⟨Function.update time (pageOf a.vaddr) pages.length, ?_, fun p hp => ?_⟩
  · rw [List.length_append, List.length_singleton]
    exact hI'.of_coremap hcoremap hview.memsize
  · rw [(hview.pte p).valid] at hp
    by_cases hpa : p = ptrOf a.vaddr
    · refine ⟨pageOf a.vaddr, hpa.trans (ptrOf_eq a.vaddr), ?_⟩
      rw [Function.update_self]
      exact lastRef_concat_self pages _
    · obtain ⟨page, rfl, hpage⟩ := hlast p (hstep.valid_of_ne hpa hp)
      have hne : page ≠ pageOf a.vaddr := by
        rintro rfl
        exact hpa (ptrOf_eq a.vaddr).symm
      refine ⟨page, rfl, ?_⟩
      rw [Function.update_of_ne hne]
      exact hpage.concat hne

theorem LruHistory.boot (memsize : Nat) (physmem swapfile : Memory) (b : Bitmap) :
    LruHistory memsize [] (boot memsize physmem swapfile b) lruInit where
  memsize := rfl
  owners := Owners.boot memsize physmem swapfile b
  stamps _ := by
    refine ⟨fun _ => 0, ⟨rfl, fun f page _ hu _ => ?_⟩, fun p hp => ?_⟩
    · cases hu
    · rw [show (Paging.boot memsize physmem swapfile b).pte p = Pte.fresh from rfl,
        Pte.fresh_valid] at hp
      cases hp

/-- **In every state of a run**, with or without swap space. -/
theorem LruHistory.replay {memsize : Nat} {physmem swapfile : Memory} {b : Bitmap}
    (hmem : memsize < 2 ^ 19) {past : List Access} {m : Machine} {s : LruState}
    (hrun : replay lruPolicy past (Paging.boot memsize physmem swapfile b) lruInit = .ok (m, s)) :
    LruHistory memsize (past.map fun x => pageOf x.vaddr) m s := by
  have hstart := LruHistory.boot memsize physmem swapfile b
  have hstep : ∀ past a m s m' s', LruHistory memsize (past.map fun x => pageOf x.vaddr) m s →
      accessStep lruPolicy a m s = .ok (m', s') →
      LruHistory memsize ((past ++ [a]).map fun x => pageOf x.vaddr) m' s' := by
    intro past a m s m' s' h hstep
    rw [List.map_append]
    exact h.step hmem hstep
  have hruns := @replay_induction LruState lruPolicy
    (fun past m s => LruHistory memsize (past.map fun x => pageOf x.vaddr) m s) _ _ hstart
  exact hruns hstep past m s hrun

/-- At an eviction. -/
theorem LruHistory.evicts {memsize : Nat} {pages : List Nat} (h : LruHistory memsize pages m s)
    (hpos : 1 ≤ memsize) (hlen : pages.length < 2 ^ 32) (hev : Evicts a m) :
    ∃ v, LeastRecentVictim pages (missState a.vaddr m) s v := by
  have hview := sameView_missState a.vaddr m
  obtain ⟨time, hI, hlast⟩ := h.stamps hlen
  have hO := h.owners.of_sameView hview
  have hfull := full_of_firstFree hev.2
  obtain ⟨v, hrun, hv, -⟩ := lruEvict_ok hO hfull (by rw [hview.memsize, h.memsize]; omega) s
  obtain ⟨p, hp, hpv, hpf⟩ := hO.coremap_pte hv (hfull v hv)
  have hpv' : (m.pte p).valid = true := by rwa [missState_pte] at hpv
  obtain ⟨page, rfl, hpage⟩ := hlast p hpv'
  have hfull' : m.Full := fun g hg => (hview.inUse g).symm.trans (hfull g (hview.memsize ▸ hg))
  have hleast := hI.least_recent h.owners hfull' hrun (hview.memsize ▸ hv)
    (by rw [← missState_coremap a.vaddr m]; exact hp)
  refine ⟨v, hrun, hv, page, time page, hp, hpv, hpf, hpage, fun q hq hqv => ?_⟩
  rw [missState_pte] at hqv
  obtain ⟨q', hq', hlastq⟩ := hlast _ hqv
  obtain rfl := ptrOfPage_injective hq'
  refine ⟨time q, hlastq, lt_of_le_of_ne (hleast q hqv) fun heq => hq ?_⟩
  exact LastRef.inj hlastq (heq ▸ hpage)

end

/-- **At every eviction of a run of fewer than `2 ^ 32` references, `lru_evict` picks the frame of
the page whose last reference was earliest**, also when no slot of the swap file is left. -/
theorem lru_evicts_least_recent (trace : List Access) (memsize : Nat) (physmem swapfile : Memory)
    (b : Bitmap) (hpos : 1 ≤ memsize) (hmem : memsize < 2 ^ 19) (hlen : trace.length < 2 ^ 32)
    (past : List Access) (a : Access) (hpast : past ++ [a] <+: trace) (m : Machine) (s : LruState)
    (hrun : replay lruPolicy past (boot memsize physmem swapfile b) lruInit = .ok (m, s))
    (hev : Evicts a m) :
    ∃ v, LeastRecentVictim (past.map fun x => pageOf x.vaddr) (missState a.vaddr m) s v := by
  have hle := hpast.length_le
  rw [List.length_append, List.length_singleton] at hle
  refine (LruHistory.replay hmem hrun).evicts hpos ?_ hev
  rw [List.length_map]
  omega

theorem lru_evicts_least_recent_example :
    ∃ m s, replay lruPolicy [⟨'L', 0x1000⟩, ⟨'S', 0x2000⟩, ⟨'L', 0x1000⟩]
        (boot 2 (fun _ => 0) (fun _ => 0) ⟨64, fun _ => 0#32⟩) lruInit = .ok (m, s) ∧
      ∃ v, LeastRecentVictim [1, 2, 1] (missState 0x3000 m) s v := by
  have hb : bitmapCreate 64 = .ok ⟨64, fun _ => 0#32⟩ := rfl
  let past : List Access := [⟨'L', 0x1000⟩, ⟨'S', 0x2000⟩, ⟨'L', 0x1000⟩]
  have hslots : (pagesOf past).card ≤ (Bitmap.slots ⟨64, fun _ => 0#32⟩).card := by
    rw [slots_of_bitmapCreate (by decide) hb]
    decide
  obtain ⟨m, s, hrun, hR, hS, -⟩ := replay_lru_boot (List.prefix_refl past) (fun _ => 0)
    (fun _ => 0) (by decide) hb (by decide : 1 ≤ 2) (by decide) (by decide) hslots (by decide)
  -- pages 1 and 2 are in the two frames
  have hev : Evicts ⟨'L', 0x3000⟩ m := by
    have hmiss : (m.pte (ptrOfPage 3)).valid = false :=
      Bool.eq_false_iff.mpr fun hv => absurd ((hS 3).mpr hv) (by decide)
    refine ⟨by rw [missState_pte]; exact hmiss, ?_⟩
    rw [firstFree_missState]
    cases hfree : firstFree m with
    | none => rfl
    | some f =>
      have hcard := hR.card_residents_lt hS (firstFree_some hfree).1 (firstFree_some hfree).2
      rw [(LruHistory.replay (by decide) hrun).memsize] at hcard
      exact absurd hcard (by decide)
  exact ⟨m, s, hrun, lru_evicts_least_recent (past ++ [⟨'L', 0x3000⟩]) 2 _ _ _ (by decide)
    (by decide) (by decide) past ⟨'L', 0x3000⟩ (List.prefix_refl _) m s hrun hev⟩

end Paging
end OsAssignments
