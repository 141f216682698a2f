import OsAssignments.Lib.ExceptSpec
import OsAssignments.Paging.Opt

/-!
# The number of buckets of `opt`

`makeBeladyTable` makes one bucket for every five frames, and `hashFunction` divides by the number of
buckets.

* `NotZeroDivision` — the faults other than a division by zero; a `Policy.DividesSafely` has no
  other, and then neither has a run (`DividesSafely.replay`).
* `optPolicy_dividesSafely` — `opt` is such a policy as long as its table has buckets.
* `optInit_noBuckets` — with less than five frames the first page divides by zero.
* `opt_divides_safely_iff` — so `opt` needs five frames.
-/

namespace OsAssignments
namespace Paging

open MachineWord ByteMemory ExceptSpec

/-- The fault is another one. -/
def NotZeroDivision (e : Fault) : Prop := e ≠ .divideByZero

theorem meets_fault {α : Type} {Q : α → Prop} {e : Fault} (h : e ≠ .divideByZero) :
    Meets Q NotZeroDivision (.error e) :=
  .error h

/-- A step that fails ends the program. -/
theorem bind_of_error {α β : Type} {x : Except Fault α} {e : Fault} {f : α → Except Fault β}
    (h : x = .error e) : (x >>= f) = .error e := by
  rw [h]
  rfl

/-! ## Lists -/

section

variable {α : Type} {list : CList α}

theorem slot_meets (list : CList α) (i : Nat) :
    Meets (fun _ => True) NotZeroDivision (list.slot i) := by
  unfold CList.slot
  cases list.contents[i]? with
  | some v => exact .ok trivial
  | none => exact meets_fault (by decide)

theorem slotAt_meets (list : CList α) (i : Int) :
    Meets (fun _ => True) NotZeroDivision (list.slotAt i) :=
  Meets.ite (fun _ => meets_fault (by decide)) fun _ => slot_meets list _

theorem setSlot_meets (list : CList α) (i : Nat) (v : Option α) :
    Meets (fun _ => True) NotZeroDivision (list.setSlot i v) :=
  Meets.ite (fun _ => .ok trivial) fun _ => meets_fault (by decide)

theorem listAppend_meets (list : CList α) (value : α) :
    Meets (fun _ => True) NotZeroDivision (listAppend list value) :=
  (setSlot_meets _ _ _).bind fun _ _ => .ok trivial

theorem shiftDown_meets (n : Nat) (i : Int) (list : CList α) :
    Meets (fun _ => True) NotZeroDivision (shiftDown n i list) := by
  induction n generalizing i list with
  | zero => exact .ok trivial
  | succ n ih =>
    rw [shiftDown]
    exact (slotAt_meets list _).bind fun v _ =>
      (setSlot_meets list _ v).bind fun list' _ => ih (incr i) list'

theorem listRemove_meets (list : CList α) (index : Int) :
    Meets (fun _ => True) NotZeroDivision (listRemove list index) := by
  rw [listRemove]
  refine Meets.ite (fun _ => .ok trivial) fun _ => (slotAt_meets list _).bind fun deleted _ => ?_
  exact (shiftDown_meets _ _ list).bind fun list₁ _ =>
    (setSlot_meets list₁ _ _).bind fun _ _ => .ok trivial

theorem listPeek_meets (list : CList α) :
    Meets (fun _ => True) NotZeroDivision (listPeek list) :=
  Meets.ite (fun _ => .ok trivial) fun _ => slot_meets list _

theorem scanFrom_meets {test : Option α → Except Fault Bool}
    (htest : ∀ v, Meets (fun _ => True) NotZeroDivision (test v)) (list : CList α) (n i : Nat) :
    Meets (fun _ => True) NotZeroDivision (scanFrom list test n i) := by
  induction n generalizing i with
  | zero => exact .ok trivial
  | succ n ih =>
    rw [scanFrom]
    exact (slot_meets list i).bind fun v _ => (htest v).bind fun _ _ =>
      Meets.ite (fun _ => .ok trivial) fun _ => ih (i + 1)

theorem listDelete_meets [DecidableEq α] (list : CList α) (value : α) :
    Meets (fun _ => True) NotZeroDivision (listDelete list value) := by
  have hfind : Meets (fun _ => True) NotZeroDivision (listFind list value) := by
    refine (scanFrom_meets (fun _ => .ok trivial) list _ _).bind fun found _ => ?_
    cases found <;> exact .ok trivial
  rw [listDelete]
  refine hfind.bind fun ind _ => Meets.ite (fun _ => .ok trivial) fun _ => ?_
  exact (listRemove_meets list ind).bind fun _ _ => .ok trivial

end

/-! ## The table -/

section

variable {α : Type} {table : HashTable α}

/-- A table with buckets is not divided by zero, and the index is the index of a bucket. -/
theorem HashTable.Proper.index (h : table.Proper) (key : Nat) :
    ∃ i : Nat, hashFunction table key = .ok (i : Int) ∧ i < table.numBuckets :=
  ⟨_, h.hashFunction_ok key, Nat.mod_lt key h.pos⟩

theorem HashTable.Proper.hashFunction_meets (h : table.Proper) (key : Nat) :
    Meets (fun _ => True) NotZeroDivision (hashFunction table key) := by
  rw [h.hashFunction_ok key]
  exact .ok trivial

theorem bucket_meets (table : HashTable α) (hash : Int) :
    Meets (fun _ => True) NotZeroDivision (table.bucket hash) := by
  rw [HashTable.bucket]
  refine Meets.ite (fun _ => meets_fault (by decide)) fun _ => ?_
  cases table.buckets[hash.toNat]? with
  | some bucket => exact .ok trivial
  | none => exact meets_fault (by decide)

theorem findMatchingPair_meets (bucket : CList (KeyValuePair α)) (key : Nat) :
    Meets (fun _ => True) NotZeroDivision (findMatchingPair bucket key) := by
  have htest : ∀ v : Option (KeyValuePair α),
      Meets (fun _ => True) NotZeroDivision (matchesKey key v) := by
    intro v
    cases v with
    | none => exact meets_fault (by decide)
    | some pair => exact .ok trivial
  refine (scanFrom_meets htest bucket _ _).bind fun found _ => ?_
  cases found with
  | none => exact .ok trivial
  | some i =>
    refine (slot_meets bucket i).bind fun pair _ => ?_
    cases pair with
    | none => exact meets_fault (by decide)
    | some pair => exact .ok trivial

theorem HashTable.Proper.get (h : table.Proper) (key : Nat) :
    Meets (fun _ => True) NotZeroDivision (hashTableGet table key) := by
  refine (h.hashFunction_meets key).bind fun hash _ => (bucket_meets table hash).bind fun bucket _ => ?_
  cases bucket with
  | none => exact .ok trivial
  | some bucket =>
    refine (findMatchingPair_meets bucket key).bind fun found _ => ?_
    cases found <;> exact .ok trivial

theorem HashTable.Proper.set (h : table.Proper) (key : Nat) (value : α) :
    Meets (fun r => r.2.Proper) NotZeroDivision (hashTableSet table key value) := by
  refine (h.hashFunction_meets key).bind fun hash _ => (bucket_meets table hash).bind fun bucket _ => ?_
  refine (findMatchingPair_meets _ key).bind fun found _ => ?_
  cases found with
  | none => exact (listAppend_meets _ _).bind fun _ _ => .ok (h.setBucket _ _)
  | some found => exact (setSlot_meets _ _ _).bind fun _ _ => .ok (h.setBucket _ _)

theorem HashTable.Proper.remove [DecidableEq α] (h : table.Proper) (key : Nat) :
    Meets (fun r => r.2.Proper) NotZeroDivision (hashTableRemove table key) := by
  refine (h.hashFunction_meets key).bind fun hash _ => (bucket_meets table hash).bind fun bucket _ => ?_
  cases bucket with
  | none => exact .ok h
  | some bucket =>
    refine (findMatchingPair_meets bucket key).bind fun found _ => ?_
    cases found with
    | none => exact .ok h
    | some found => exact (listDelete_meets _ _).bind fun _ _ => .ok (h.setBucket _ _)

end

/-! ## The reference times -/

section

variable {table : HashTable (CList Int)}

theorem addBeladyPage_meets (h : table.Proper) (pageNum : Nat) (time : Int) :
    Meets HashTable.Proper NotZeroDivision (addBeladyPage table pageNum time) := by
  have hensure : Meets HashTable.Proper NotZeroDivision (ensureList table pageNum) := by
    refine (h.get pageNum).bind fun found _ => ?_
    cases found with
    | none => exact (h.set pageNum _).bind fun _ h₁ => .ok h₁
    | some list => exact .ok h
  refine hensure.bind fun table₁ h₁ => (h₁.get pageNum).bind fun found _ => ?_
  cases found with
  | none => exact meets_fault (by decide)
  | some list =>
    exact (listAppend_meets list time).bind fun list' _ =>
      (h₁.set pageNum list').bind fun _ h₂ => .ok h₂

theorem makeBeladyTableFrom_meets (pageList : CList Nat) (n : Nat) (i : Int) (h : table.Proper) :
    Meets HashTable.Proper NotZeroDivision (makeBeladyTableFrom pageList n i table) := by
  induction n generalizing i table with
  | zero => exact .ok h
  | succ n ih =>
    rw [makeBeladyTableFrom]
    refine (slotAt_meets pageList _).bind fun found _ => ?_
    cases found with
    | none => exact meets_fault (by decide)
    | some pageNum => exact (addBeladyPage_meets h pageNum _).bind fun _ h₁ => ih (incr i) h₁

/-- With five frames the table has a bucket. -/
theorem optInit_meets {memsize : Nat} (hmin : 5 ≤ memsize) (hmem : memsize < 2 ^ 31)
    (addresses : List Nat) :
    Meets (fun so => so.beladyTable.Proper) NotZeroDivision (optInit memsize addresses) := by
  obtain ⟨list, hmake, -⟩ := makePageList_keeps addresses
  rw [optInit, bind_of_ok hmake]
  refine (makeBeladyTableFrom_meets list _ _ (proper_makeHashTable ?_ ?_)).bind fun _ h => .ok h
  all_goals omega

theorem removeEmptyList_meets (h : table.Proper) (page : Nat) (times : CList Int) :
    Meets HashTable.Proper NotZeroDivision (removeEmptyList table page times) :=
  Meets.ite (fun _ => (h.remove page).bind fun _ h₁ => .ok h₁) fun _ => .ok h

theorem popNextRefTime_meets (h : table.Proper) (page : Nat) :
    Meets (fun r => r.2.Proper) NotZeroDivision (popNextRefTime table page) := by
  refine (h.get page).bind fun found _ => ?_
  cases found with
  | none => exact .ok h
  | some times =>
    refine (listRemove_meets times _).bind fun ⟨popped, times'⟩ _ => ?_
    refine (h.set page times').bind fun ⟨_, table₁⟩ h₁ => ?_
    refine (removeEmptyList_meets h₁ page times').bind fun table₂ h₂ => ?_
    cases popped with
    | none => exact meets_fault (by decide)
    | some time => exact .ok h₂

theorem peekNextRefTime_meets (h : table.Proper) (page : Nat) :
    Meets (fun _ => True) NotZeroDivision (peekNextRefTime table page) := by
  refine (h.get page).bind fun found _ => ?_
  cases found with
  | none => exact .ok trivial
  | some times =>
    refine (listPeek_meets times).bind fun last _ => ?_
    cases last with
    | none => exact meets_fault (by decide)
    | some time => exact .ok trivial

/-! ## The policy -/

theorem optEvictFrom_meets (h : table.Proper) (m : Machine) (n i victim : Nat) (maxRefTime : Int) :
    Meets (fun _ => True) NotZeroDivision (optEvictFrom m table n i victim maxRefTime) := by
  induction n generalizing i victim maxRefTime with
  | zero => exact .ok trivial
  | succ n ih =>
    rw [optEvictFrom]
    exact (peekNextRefTime_meets h _).bind fun next _ =>
      Meets.ite (fun _ => .ok trivial) fun _ => Meets.ite (fun _ => ih _ _ _) fun _ => ih _ _ _

end

section

variable {σ : Type} {P : Policy σ} {I : σ → Prop} {m : Machine} {s : σ}

/-- In the states with `I` the policy divides by zero nowhere, and stays in them. -/
structure Policy.DividesSafely (P : Policy σ) (I : σ → Prop) : Prop where
  ref : ∀ p m s, I s → Meets (fun r => I r.2) NotZeroDivision (P.ref p m s)
  evict : ∀ m s, I s → Meets (fun r => I r.2.2) NotZeroDivision (P.evict m s)

theorem optPolicy_dividesSafely : optPolicy.DividesSafely fun s => s.beladyTable.Proper where
  ref p m s hs := by
    show Meets _ _ (optRef p m s)
    rw [optRef]
    refine (slotAt_meets s.pageList s.curRef).bind fun page _ => ?_
    cases page with
    | none => exact meets_fault (by decide)
    | some page =>
      exact Meets.ite (fun _ => (popNextRefTime_meets hs page).bind fun _ htable => .ok htable)
        fun _ => meets_fault (by decide)
  evict m s hs := by
    show Meets _ _ (optEvict m s)
    rw [optEvict]
    exact (optEvictFrom_meets hs m _ _ _ _).bind fun _ _ => .ok hs

/-! ## The machine -/

theorem bitmapAlloc_meets (b : Bitmap) : Meets (fun _ => True) NotZeroDivision (bitmapAlloc b) := by
  unfold bitmapAlloc
  split
  · exact .ok trivial
  · split
    · exact meets_fault (by decide)
    · exact Meets.ite (fun _ => .ok trivial) fun _ => meets_fault (by decide)

theorem swapPageout_meets (frame : Nat) (swapOffset : Int) (m : Machine) :
    Meets (fun _ => True) NotZeroDivision (swapPageout frame swapOffset m) := by
  rw [swapPageout]
  refine Meets.ite (fun _ => (bitmapAlloc_meets m.swapmap).bind ?_) fun _ => .ok trivial
  rintro ⟨idx, swapmap⟩ -
  cases idx with
  | none => exact .ok trivial
  | some idx => exact Meets.ite (fun _ => meets_fault (by decide)) fun _ => .ok trivial

theorem evictFrame_meets (f : Nat) (m : Machine) :
    Meets (fun _ => True) NotZeroDivision (evictFrame f m) := by
  rw [evictFrame]
  cases (m.coremap f).pte with
  | none => exact meets_fault (by decide)
  | some q =>
    refine Meets.ite (fun _ => ?_) fun _ => .ok trivial
    refine (swapPageout_meets f _ m).bind ?_
    rintro ⟨off, m₁⟩ -
    exact .ok trivial

theorem loadPage_meets (isSwapped : Bool) (f vaddr : Nat) (m : Machine) :
    Meets (fun _ => True) NotZeroDivision (loadPage isSwapped f vaddr m) := by
  have hpagein : ∀ off, Meets (fun _ => True) NotZeroDivision (swapPagein f off m) := fun off =>
    Meets.ite (fun _ => meets_fault (by decide)) fun _ => .ok trivial
  cases isSwapped with
  | true => exact (hpagein _).bind fun _ _ => .ok trivial
  | false => exact .ok trivial

variable (hP : P.DividesSafely I)
include hP

theorem Policy.DividesSafely.allocateFrame (p : PtePtr) (m : Machine) (hs : I s) :
    Meets (fun r => I r.2.2) NotZeroDivision (allocateFrame P p m s) := by
  unfold Paging.allocateFrame
  cases firstFree m with
  | some i => exact .ok hs
  | none =>
    refine (hP.evict m s hs).bind fun ⟨v, m₁, s₁⟩ hs₁ => ?_
    exact Meets.ite (fun _ => (evictFrame_meets _ m₁).bind fun _ _ => .ok hs₁)
      fun _ => meets_fault (by decide)

theorem Policy.DividesSafely.translate (a : Access) (m : Machine) (hs : I s) :
    Meets (fun r => I r.2) NotZeroDivision (translate P a m s) := by
  unfold Paging.translate
  refine Meets.ite (fun _ => meets_fault (by decide)) fun _ => .ite (fun _ => .ok hs) fun _ => ?_
  refine Meets.bind (Q := fun r => I r.2) ?_ fun ⟨_, _⟩ hs₁ => .ok hs₁
  exact (hP.allocateFrame _ _ hs).bind fun ⟨f, m₁, s₁⟩ hs₁ =>
    (loadPage_meets _ f a.vaddr m₁).bind fun _ _ => .ok hs₁

theorem Policy.DividesSafely.accessStep (a : Access) (m : Machine) (hs : I s) :
    Meets (fun r => I r.2) NotZeroDivision (accessStep P a m s) := by
  unfold Paging.accessStep accessMem findPhyspage
  refine Meets.bind (Q := fun r => I r.2.2) ?_ fun ⟨_, _, _⟩ hs₁ => .ok hs₁
  refine Meets.bind (Q := fun r => I r.2.2) ?_ fun ⟨_, _, _⟩ hs₁ => .ok hs₁
  exact (hP.translate a m hs).bind fun ⟨m₁, s₁⟩ hs₁ =>
    (hP.ref _ m₁ s₁ hs₁).bind fun _ hs₂ => .ok hs₂

/-- Runs. -/
theorem Policy.DividesSafely.replay (trace : List Access) (m : Machine) (hs : I s) :
    Meets (fun r => I r.2) NotZeroDivision (replay P trace m s) := by
  unfold Paging.replay
  induction trace generalizing m s with
  | nil => exact .ok hs
  | cons a trace ih =>
    rw [runWith]
    refine (hP.accessStep a m hs).bind ?_
    rintro ⟨m₁, s₁⟩ hs₁
    exact ih m₁ hs₁

end

/-! ## The number of frames -/

/-- No call of `hashFunction` in a run under `opt` divides by zero, and every index is the index of
a bucket.  The traces are those of any length, so that the end of a run is any of its states. -/
structure OptDividesSafely (memsize : Nat) (addresses : List Nat) : Prop where
  init : optInit memsize addresses ≠ .error .divideByZero
  run : ∀ so, optInit memsize addresses = .ok so → ∀ trace physmem swapfile b,
    replay optPolicy trace (boot memsize physmem swapfile b) so ≠ .error .divideByZero
  index : ∀ so, optInit memsize addresses = .ok so → ∀ trace physmem swapfile b m s,
    replay optPolicy trace (boot memsize physmem swapfile b) so = .ok (m, s) →
    ∀ key, ∃ i : Nat, hashFunction s.beladyTable key = .ok (i : Int) ∧ i < s.beladyTable.numBuckets

/-- Less than five frames make no bucket for the page at the first time. -/
theorem optInit_noBuckets {memsize : Nat} {addresses : List Nat} (hmem : memsize < 5)
    (hne : addresses ≠ []) (hfirst : (addresses.length - 1) % 2 ^ 32 < 2 ^ 31) :
    optInit memsize addresses = .error .divideByZero := by
  obtain ⟨list, hmake, hkeeps, -⟩ := makePageList_keeps addresses
  have hbuckets : memsize / 5 = 0 := by omega
  obtain ⟨k, hk⟩ := Nat.exists_eq_succ_of_ne_zero (List.length_pos_iff.mpr hne).ne'
  have hlen : (addresses.map pageNumber).length = k + 1 := by rw [List.length_map, hk]
  have hcount : list.count = k + 1 := hkeeps.count.trans hlen
  rw [hk, Nat.succ_eq_add_one, Nat.add_sub_cancel] at hfirst
  have htime : toInt32 (toInt32 (toInt32 list.count - 0) - 1) = ((k % 2 ^ 32 : Nat) : Int) := by
    rw [passTime_first hcount, toInt32_of_mod_lt hfirst]
  have hin : k % 2 ^ 32 < (addresses.map pageNumber).length :=
    (Nat.mod_le k _).trans_lt (by omega)
  have hslot : list.slotAt ((k % 2 ^ 32 : Nat) : Int)
      = .ok (some (addresses.map pageNumber)[k % 2 ^ 32]) := by
    rw [slotAt_natCast, CList.slot, hkeeps.kept _ hfirst hin, List.getElem?_eq_getElem hin]
  have hhash : ∀ page, hashFunction (makeHashTable 0 : HashTable (CList Int)) page
      = .error .divideByZero := by
    intro page
    rw [hashFunction]
    exact if_pos (by decide)
  have hadd : ∀ page time, addBeladyPage (makeHashTable 0) page time = .error .divideByZero := by
    intro page time
    rw [addBeladyPage, ensureList, hashTableGet, hhash]
    rfl
  have htable : makeBeladyTable memsize list = .error .divideByZero := by
    obtain ⟨n, hpasses⟩ := exists_intPasses hcount
    rw [makeBeladyTable, hbuckets, hpasses, makeBeladyTableFrom, htime, bind_of_ok hslot]
    dsimp only
    exact bind_of_error (hadd _ _)
  rw [optInit, bind_of_ok hmake]
  exact bind_of_error htable

/-- **`opt` never divides by zero** exactly if there are at least five frames, or the first time is
negative as an `int`: then `opt_init` leaves the page list before it hashes a page. -/
theorem opt_divides_safely_iff (memsize : Nat) (hpos : 1 ≤ memsize) (hint : memsize < 2 ^ 31)
    (addresses : List Nat) (hne : addresses ≠ []) :
    OptDividesSafely memsize addresses ↔
      5 ≤ memsize ∨ 2 ^ 31 ≤ (addresses.length - 1) % 2 ^ 32 := by
  constructor
  · intro hsafe
    by_contra hnot
    exact hsafe.init (optInit_noBuckets (by omega) hne (by omega))
  · intro hcond
    have hinit : Meets (fun so => so.beladyTable.Proper) NotZeroDivision
        (optInit memsize addresses) := by
      rcases hcond with hmin | hneg
      · exact optInit_meets hmin hint addresses
      · obtain ⟨k, hk⟩ := Nat.exists_eq_succ_of_ne_zero (List.length_pos_iff.mpr hne).ne'
        rw [optInit_outOfBounds hk (by rwa [hk, Nat.succ_sub_one] at hneg)]
        exact meets_fault (by decide)
    have hruns : ∀ so, optInit memsize addresses = .ok so → ∀ trace m,
        Meets (fun r => r.2.beladyTable.Proper) NotZeroDivision (replay optPolicy trace m so) :=
      fun so hso trace m => optPolicy_dividesSafely.replay trace m (hinit.of_ok so hso)
    refine ⟨fun hfault => hinit.of_error _ hfault rfl, fun so hso trace physmem swapfile b hfault => ?_,
      fun so hso trace physmem swapfile b m s hrun key => ?_⟩
    · exact (hruns so hso trace _).of_error _ hfault rfl
    · exact ((hruns so hso trace _).of_ok _ hrun).index key

theorem opt_divides_safely_example : OptDividesSafely 5 [0x1000] :=
  (opt_divides_safely_iff 5 (by decide) (by decide) [0x1000] (by decide)).mpr (.inl (by decide))

theorem opt_divides_by_zero : ¬ OptDividesSafely 4 [0x1000] :=
  fun hsafe => hsafe.init (optInit_noBuckets (by decide) (by decide) (by decide))

end Paging
end OsAssignments
