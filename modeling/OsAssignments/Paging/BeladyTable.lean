import OsAssignments.Paging.HashTable
import OsAssignments.Paging.Machine

/-!
# The table of reference times

`opt.c` reads the whole trace before it runs and keeps, for every page, the stack
of the times at which the page is still going to be used.

* `makePageList`, `addBeladyPage`, `makeBeladyTable`, `popNextRefTime`,
  `peekNextRefTime` — the source's functions.
* `makePageList_keeps` — the page list holds the page of every address, up to the `2 ^ 31` that an
  `int` counts.
* `refTimes` — the times of a page in the rest of a trace, the next one last.
* `BeladyRepr` — the table is the one for the references `rest`, the first of which
  is number `c`.  `makeBeladyTable_ok`, `popNextRefTime_ok` and `peekNextRefTime_ok`
  say that it starts there, moves on by one reference, and knows the next use of every
  page.
-/

namespace OsAssignments
namespace Paging

open MachineWord

/-! ## The functions -/

/-- `(unsigned) (virtualAddress >> PAGE_SHIFT)`. -/
def pageNumber (virtualAddress : Nat) : Nat := wrap 32 (virtualAddress >>> pageShift : Nat)

/-- `makePageList`, from the addresses `fscanf` reads. -/
def makePageList (addresses : List Nat) : Except Fault (CList Nat) :=
  addresses.foldlM (fun list virtualAddress => listAppend list (pageNumber virtualAddress))
    (makeList 100)

/-- The first step of `addBeladyPage`: a page without a list gets an empty one. -/
def ensureList (table : HashTable (CList Int)) (pageNum : Nat) :
    Except Fault (HashTable (CList Int)) := do
  match ← hashTableGet table pageNum with
  | none =>
    let (_, table) ← hashTableSet table pageNum (makeList 4)
    pure table
  | some _ => pure table

/-- `addBeladyPage`. -/
def addBeladyPage (table : HashTable (CList Int)) (pageNum : Nat) (time : Int) :
    Except Fault (HashTable (CList Int)) := do
  let table ← ensureList table pageNum
  match ← hashTableGet table pageNum with
  | none => .error .nullPointer
  | some list =>
    let list ← listAppend list time
    let (_, table) ← hashTableSet table pageNum list
    pure table

/-- The loop of `makeBeladyTable`, with `n` passes left. -/
def makeBeladyTableFrom (pageList : CList Nat) :
    Nat → Int → HashTable (CList Int) → Except Fault (HashTable (CList Int))
  | 0, _, table => .ok table
  | n + 1, i, table => do
    let time := toInt32 (toInt32 (toInt32 pageList.count - i) - 1)
    match ← pageList.slotAt time with
    | none => .error .nullPointer
    | some pageNum =>
      let table ← addBeladyPage table pageNum time
      makeBeladyTableFrom pageList n (incr i) table

/-- `makeBeladyTable`. -/
def makeBeladyTable (memsize : Nat) (pageList : CList Nat) :
    Except Fault (HashTable (CList Int)) :=
  makeBeladyTableFrom pageList (intPasses pageList.count) 0 (makeHashTable (memsize / 5))

/-- The last step of `popNextRefTime`: a page whose list is empty is removed. -/
def removeEmptyList (table : HashTable (CList Int)) (pageNum : Nat) (refTimes : CList Int) :
    Except Fault (HashTable (CList Int)) :=
  if refTimes.count = 0 then do
    let (_, table) ← hashTableRemove table pageNum
    pure table
  else .ok table

/-- `popNextRefTime`. -/
def popNextRefTime (table : HashTable (CList Int)) (pageNum : Nat) :
    Except Fault (Int × HashTable (CList Int)) := do
  match ← hashTableGet table pageNum with
  | none => pure (-1, table)
  | some refTimes =>
    let (popped, refTimes) ← listPop refTimes
    let (_, table) ← hashTableSet table pageNum refTimes
    let table ← removeEmptyList table pageNum refTimes
    match popped with
    | none => .error .nullPointer
    | some time => pure (time, table)

/-- `peekNextRefTime`. -/
def peekNextRefTime (table : HashTable (CList Int)) (pageNum : Nat) : Except Fault Int := do
  match ← hashTableGet table pageNum with
  | none => pure (-1)
  | some refTimes =>
    match ← listPeek refTimes with
    | none => .error .nullPointer
    | some time => pure time

/-! ## The page list -/

/-- **`makePageList` stores the page of every address**, of those that `transferContents` copies. -/
theorem makePageList_keeps (addresses : List Nat) :
    ∃ list, makePageList addresses = .ok list ∧ list.Keeps (addresses.map pageNumber) ∧
      (addresses.length ≤ 2 ^ 31 → list.Repr (addresses.map pageNumber)) := by
  have hfold : ∀ {list : CList Nat} {xs : List Nat}, list.Keeps xs →
      (xs.length ≤ 2 ^ 31 → list.Repr xs) → ∃ list',
        addresses.foldlM (fun list v => listAppend list (pageNumber v)) list = .ok list' ∧
          list'.Keeps (xs ++ addresses.map pageNumber) ∧
          (xs.length + addresses.length ≤ 2 ^ 31 →
            list'.Repr (xs ++ addresses.map pageNumber)) := by
    induction addresses with
    | nil => intro list xs h hrepr; exact ⟨list, rfl, by simpa using h, by simpa using hrepr⟩
    | cons v addresses ih =>
      intro list xs h hrepr
      obtain ⟨list₁, happend, h₁⟩ := h.listAppend (pageNumber v)
      have hrepr₁ : (xs ++ [pageNumber v]).length ≤ 2 ^ 31 → list₁.Repr (xs ++ [pageNumber v]) := by
        intro hle
        rw [List.length_append, List.length_singleton] at hle
        obtain ⟨list₂, happend₂, h₂⟩ :=
          listAppend_ok (hrepr (by omega)) (fun _ => by omega) (pageNumber v)
        obtain rfl := Except.ok.inj (happend.symm.trans happend₂)
        exact h₂
      obtain ⟨list', hrun, hkeeps', hrepr'⟩ := ih h₁ hrepr₁
      refine ⟨list', ?_, by simpa using hkeeps', fun hle => ?_⟩
      · rw [List.foldlM_cons, bind_of_ok happend]
        exact hrun
      · rw [List.length_cons] at hle
        simpa using hrepr' (by rw [List.length_append, List.length_singleton]; omega)
  have hstart : (makeList 100 : CList Nat).Repr [] := repr_makeList (by decide)
  obtain ⟨list, hmake, hkeeps, hrepr⟩ := hfold hstart.keeps fun _ => hstart
  exact ⟨list, hmake, hkeeps, fun hle => hrepr (by simpa using hle)⟩

theorem makePageList_ok {addresses : List Nat} (hlen : addresses.length ≤ 2 ^ 31) :
    ∃ list, makePageList addresses = .ok list ∧ list.Repr (addresses.map pageNumber) := by
  obtain ⟨list, hmake, -, hrepr⟩ := makePageList_keeps addresses
  exact ⟨list, hmake, hrepr hlen⟩

/-! ## Reference times -/

/-- The times at which `page` is used in the references `rest`, the first of which
is number `c`: the latest first. -/
def refTimes (c : Nat) : List Nat → Nat → List Int
  | [], _ => []
  | q :: rest, page => refTimes (c + 1) rest page ++ if q = page then [(c : Int)] else []

theorem refTimes_eq_nil {c : Nat} {rest : List Nat} {page : Nat} :
    refTimes c rest page = [] ↔ page ∉ rest := by
  induction rest generalizing c with
  | nil => simp [refTimes]
  | cons q rest ih =>
    rw [refTimes, List.append_eq_nil_iff, ih]
    by_cases hq : q = page
    · simp [hq]
    · simp [hq, Ne.symm hq]

/-- The last time on the stack is that of the next use. -/
theorem getLast?_refTimes {c : Nat} {rest : List Nat} {page : Nat} (h : page ∈ rest) :
    (refTimes c rest page).getLast? = some ((c + rest.idxOf page : Nat) : Int) := by
  induction rest generalizing c with
  | nil => exact absurd h (by simp)
  | cons q rest ih =>
    rw [refTimes]
    by_cases hq : q = page
    · subst hq
      simp
    · have hmem : page ∈ rest := (List.mem_cons.mp h).resolve_left (Ne.symm hq)
      rw [if_neg hq, List.append_nil, ih hmem, List.idxOf_cons_ne _ hq]
      congr 2
      omega

theorem length_refTimes_le (c : Nat) (rest : List Nat) (page : Nat) :
    (refTimes c rest page).length ≤ rest.length := by
  induction rest generalizing c with
  | nil => exact le_refl _
  | cons q rest ih =>
    rw [refTimes, List.length_append, List.length_cons]
    have hrest := ih (c + 1)
    split <;> simp <;> omega

/-- What the table holds for a page: no list, or the list of its times. -/
def StoresTimes (stored : Option (CList Int)) (times : List Int) : Prop :=
  (stored = none ∧ times = []) ∨ ∃ list, stored = some list ∧ list.Repr times ∧ times ≠ []

/-- Only pages that are used have a list. -/
theorem StoresTimes.mem {stored : Option (CList Int)} {c page : Nat} {rest : List Nat}
    (h : StoresTimes stored (refTimes c rest page)) (hstored : stored ≠ none) : page ∈ rest := by
  rcases h with ⟨hnone, -⟩ | ⟨-, -, -, htimes⟩
  · exact absurd hnone hstored
  · by_contra hnot
    exact htimes (refTimes_eq_nil.mpr hnot)

/-- The table for the references `rest`, the first of which is number `c`. -/
def BeladyRepr (table : HashTable (CList Int)) (c : Nat) (rest : List Nat) : Prop :=
  rest.length ≤ 2 ^ 31 ∧
    ∃ f, table.Repr f ∧ ∀ page, StoresTimes (f page) (refTimes c rest page)

theorem beladyRepr_makeHashTable {n : Nat} (hpos : 0 < n) (hn : n < 2 ^ 31) (c : Nat) :
    BeladyRepr (makeHashTable n) c [] :=
  ⟨by decide, _, repr_makeHashTable hpos hn, fun _ => .inl ⟨rfl, rfl⟩⟩

/-- **Adding a reference before the others.** -/
theorem addBeladyPage_ok {table : HashTable (CList Int)} {c : Nat} {rest : List Nat}
    (h : BeladyRepr table (c + 1) rest) (hlen : rest.length < 2 ^ 31) (page : Nat) :
    ∃ table', addBeladyPage table page c = .ok table' ∧ BeladyRepr table' c (page :: rest) := by
  obtain ⟨-, f, hrepr, hf⟩ := h
  have hlen' : (page :: rest).length ≤ 2 ^ 31 := by
    rw [List.length_cons]
    omega
  have hroom : ∀ list, Roomy table.numBuckets (Function.update f page (some list)) := fun list =>
    roomy_of_mem hlen' fun k hk => by
      by_cases hkp : k = page
      · exact hkp ▸ List.mem_cons_self ..
      · rw [Function.update_of_ne hkp] at hk
        exact List.mem_cons_of_mem page ((hf k).mem hk)
  obtain ⟨table₁, list, hmade, hrepr₁, hn, hlist⟩ : ∃ table₁ list,
      ensureList table page = .ok table₁ ∧ table₁.Repr (Function.update f page (some list)) ∧
      table₁.numBuckets = table.numBuckets ∧ list.Repr (refTimes (c + 1) rest page) := by
    rcases hf page with ⟨hnone, htimes⟩ | ⟨list, hsome, hlist, -⟩
    · obtain ⟨table₁, hset, hrepr₁, hn⟩ := hashTableSet_ok hrepr page (makeList 4) (hroom _)
      have hget : hashTableGet table page = .ok none := by rw [hashTableGet_ok hrepr, hnone]
      refine ⟨table₁, makeList 4, ?_, hrepr₁, hn, by rw [htimes]; exact repr_makeList (by decide)⟩
      rw [ensureList, bind_of_ok hget]
      exact bind_of_ok hset
    · have hget : hashTableGet table page = .ok (some list) := by rw [hashTableGet_ok hrepr, hsome]
      refine ⟨table, list, by rw [ensureList, bind_of_ok hget]; rfl, ?_, rfl, hlist⟩
      rw [← hsome, Function.update_eq_self]
      exact hrepr
  have hget : hashTableGet table₁ page = .ok (some list) := by
    rw [hashTableGet_ok hrepr₁, Function.update_self]
  obtain ⟨list', happend, hlist'⟩ :=
    listAppend_ok hlist (fun _ => (length_refTimes_le _ _ _).trans hlen.le) (c : Int)
  obtain ⟨table', hset, hrepr', -⟩ := hashTableSet_ok hrepr₁ page list' (by
    rw [hn, Function.update_idem]
    exact hroom list')
  rw [Function.update_idem] at hrepr'
  refine ⟨table', ?_, hlen', _, hrepr', fun q => ?_⟩
  · rw [addBeladyPage, bind_of_ok hmade, bind_of_ok hget]
    exact (bind_of_ok happend).trans (bind_of_ok hset)
  · rw [refTimes]
    by_cases hq : q = page
    · subst hq
      rw [Function.update_self, if_pos rfl]
      exact .inr ⟨list', rfl, hlist', by simp⟩
    · rw [Function.update_of_ne hq, if_neg (Ne.symm hq), List.append_nil]
      exact hf q

/-- The time of a pass. -/
theorem passTime_eq {n count i : Nat} (hcount : count ≤ 2 ^ 31) (hsum : i + (n + 1) = count) :
    toInt32 (toInt32 (toInt32 count - i) - 1) = n := by
  rw [toInt32_sub (count : Int), toInt32_sub, show (count : Int) - (i : Int) - 1 = n by omega,
    toInt32_natCast (by omega)]

theorem makeBeladyTableFrom_ok {pageList : CList Nat} {pages : List Nat} (hl : pageList.Repr pages)
    (hlen : pages.length ≤ 2 ^ 31) :
    ∀ (n : Nat) {i : Int}, (0 < n → ∃ j : Nat, i = j ∧ j + n = pages.length) →
      n ≤ pages.length → ∀ {table : HashTable (CList Int)}, BeladyRepr table n (pages.drop n) →
      ∃ table', makeBeladyTableFrom pageList n i table = .ok table' ∧
        BeladyRepr table' 0 pages := by
  intro n
  induction n with
  | zero => intro i _ _ table h; exact ⟨table, rfl, by simpa using h⟩
  | succ n ih =>
    intro i hi hn table h
    obtain ⟨j, rfl, hsum⟩ := hi (Nat.succ_pos n)
    have htime : toInt32 (toInt32 (toInt32 pageList.count - (j : Int)) - 1) = n :=
      passTime_eq (hl.count.trans_le hlen) (hsum.trans hl.count.symm)
    have hlt : n < pages.length := by omega
    have hrest : (pages.drop (n + 1)).length < 2 ^ 31 := by
      rw [List.length_drop]
      omega
    obtain ⟨table₁, hadd, h₁⟩ := addBeladyPage_ok h hrest pages[n]
    rw [← List.drop_eq_getElem_cons] at h₁
    have hnext : 0 < n → ∃ k : Nat, incr j = k ∧ k + n = pages.length := fun hpos =>
      ⟨j + 1, incr_natCast (by omega), by omega⟩
    obtain ⟨table', hrun, h'⟩ := ih hnext (by omega) h₁
    refine ⟨table', ?_, h'⟩
    simp only [makeBeladyTableFrom, htime]
    rw [slotAt_natCast, bind_of_ok (hl.slot hlt)]
    exact (bind_of_ok hadd).trans hrun

/-- **`makeBeladyTable` knows the whole trace.** -/
theorem makeBeladyTable_ok {pageList : CList Nat} {pages : List Nat} (hl : pageList.Repr pages)
    (hlen : pages.length ≤ 2 ^ 31) {memsize : Nat} (hpos : 5 ≤ memsize) (hmem : memsize < 2 ^ 31) :
    ∃ table, makeBeladyTable memsize pageList = .ok table ∧ BeladyRepr table 0 pages := by
  have hstart : BeladyRepr (makeHashTable (memsize / 5)) pages.length (pages.drop pages.length) := by
    rw [List.drop_length]
    exact beladyRepr_makeHashTable (by omega) (by omega) _
  obtain ⟨table, hrun, h⟩ := makeBeladyTableFrom_ok hl hlen pages.length
    (fun _ => ⟨0, rfl, Nat.zero_add _⟩) (le_refl _) hstart
  exact ⟨table, by rw [makeBeladyTable, hl.count, intPasses_of_le hlen]; exact hrun, h⟩

/-- The time of the first pass. -/
theorem passTime_first {count k : Nat} (hcount : count = k + 1) :
    toInt32 (toInt32 (toInt32 count - 0) - 1) = toInt32 k := by
  rw [toInt32_sub (count : Int), toInt32_sub, hcount]
  congr 1
  omega

/-- The first time, when it is negative as an `int`, is no place in the page list. -/
theorem makeBeladyTable_outOfBounds {pageList : CList Nat} {k : Nat}
    (hcount : pageList.count = k + 1) (hneg : 2 ^ 31 ≤ k % 2 ^ 32) (memsize : Nat) :
    makeBeladyTable memsize pageList = .error .outOfBounds := by
  obtain ⟨n, hpasses⟩ := exists_intPasses hcount
  rw [makeBeladyTable, hpasses, makeBeladyTableFrom, passTime_first hcount, CList.slotAt,
    if_pos (toInt32_neg_iff.mpr hneg)]
  rfl

/-- **Popping** gives the number of the reference being made, and leaves the table
of the references after it. -/
theorem popNextRefTime_ok {table : HashTable (CList Int)} {c page : Nat} {rest : List Nat}
    (h : BeladyRepr table c (page :: rest)) :
    ∃ table', popNextRefTime table page = .ok ((c : Int), table') ∧
      BeladyRepr table' (c + 1) rest := by
  obtain ⟨hlen, f, hrepr, hf⟩ := h
  rw [List.length_cons] at hlen
  have htimes : refTimes c (page :: rest) page = refTimes (c + 1) rest page ++ [(c : Int)] := by
    simp [refTimes]
  have hother : ∀ q, q ≠ page → refTimes c (page :: rest) q = refTimes (c + 1) rest q := by
    intro q hq
    simp [refTimes, Ne.symm hq]
  rcases hf page with ⟨-, hnil⟩ | ⟨list, hsome, hlist, -⟩
  · rw [htimes] at hnil
    exact absurd hnil (by simp)
  rw [htimes] at hlist
  have hshort : (refTimes (c + 1) rest page).length < 2 ^ 31 :=
    (length_refTimes_le _ _ _).trans_lt (by omega)
  obtain ⟨list₁, hpop, hlist₁⟩ := listPop_ok hlist hshort
  have hroom : Roomy table.numBuckets (Function.update f page (some list₁)) :=
    roomy_of_mem (show (page :: rest).length ≤ 2 ^ 31 from hlen) fun k hk => by
      by_cases hkp : k = page
      · exact hkp ▸ List.mem_cons_self ..
      · rw [Function.update_of_ne hkp] at hk
        exact (hf k).mem hk
  obtain ⟨table₁, hset, hrepr₁, -⟩ := hashTableSet_ok hrepr page list₁ hroom
  have hget : hashTableGet table page = .ok (some list) := by rw [hashTableGet_ok hrepr, hsome]
  by_cases hzero : list₁.count = 0
  · -- that was the last use of the page: its list goes
    obtain ⟨table', hremove, hrepr', -⟩ := hashTableRemove_ok hrepr₁ page
    have hnil : refTimes (c + 1) rest page = [] := by
      rw [← List.length_eq_zero_iff, ← hlist₁.count, hzero]
    have hdrop : removeEmptyList table₁ page list₁ = .ok table' := by
      rw [removeEmptyList, if_pos hzero]
      exact bind_of_ok hremove
    refine ⟨table', ?_, by omega, _, hrepr', fun q => ?_⟩
    · rw [popNextRefTime, bind_of_ok hget]
      exact (bind_of_ok hpop).trans ((bind_of_ok hset).trans (bind_of_ok hdrop))
    · by_cases hq : q = page
      · subst hq
        rw [Function.update_self]
        exact .inl ⟨rfl, hnil⟩
      · rw [Function.update_of_ne hq, Function.update_of_ne hq, ← hother q hq]
        exact hf q
  · have hne : refTimes (c + 1) rest page ≠ [] := by
      intro hnil
      rw [hlist₁.count, hnil] at hzero
      exact hzero rfl
    have hkeep : removeEmptyList table₁ page list₁ = .ok table₁ := by
      rw [removeEmptyList, if_neg hzero]
    refine ⟨table₁, ?_, by omega, _, hrepr₁, fun q => ?_⟩
    · rw [popNextRefTime, bind_of_ok hget]
      exact (bind_of_ok hpop).trans ((bind_of_ok hset).trans (bind_of_ok hkeep))
    · by_cases hq : q = page
      · subst hq
        rw [Function.update_self]
        exact .inr ⟨list₁, rfl, hlist₁, hne⟩
      · rw [Function.update_of_ne hq, ← hother q hq]
        exact hf q

/-- **Peeking** gives the number of the next reference to a page. -/
theorem peekNextRefTime_ok {table : HashTable (CList Int)} {c : Nat} {rest : List Nat}
    (h : BeladyRepr table c rest) (page : Nat) :
    peekNextRefTime table page =
      .ok (if page ∈ rest then ((c + rest.idxOf page : Nat) : Int) else -1) := by
  obtain ⟨-, f, hrepr, hf⟩ := h
  rcases hf page with ⟨hnone, hnil⟩ | ⟨list, hsome, hlist, hne⟩
  · have hget : hashTableGet table page = .ok none := by rw [hashTableGet_ok hrepr, hnone]
    rw [peekNextRefTime, bind_of_ok hget, if_neg (refTimes_eq_nil.mp hnil)]
    rfl
  · have hget : hashTableGet table page = .ok (some list) := by rw [hashTableGet_ok hrepr, hsome]
    have hmem : page ∈ rest := by
      by_contra hnot
      exact hne (refTimes_eq_nil.mpr hnot)
    have hpeek := listPeek_ok hlist
    rw [getLast?_refTimes hmem] at hpeek
    rw [peekNextRefTime, bind_of_ok hget, if_pos hmem]
    exact bind_of_ok hpeek

end Paging
end OsAssignments
