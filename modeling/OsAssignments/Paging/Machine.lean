import OsAssignments.Lib.ByteMemory
import OsAssignments.Paging.Bitmap

/-!
# The page-replacement simulator: machine, policies and memory accesses

The state and the functions of `pagetable.c`, `swap.c` and `sim.c`.

* `Pte`, `Frame`, `Machine` — a page-table entry, a row of `coremap`, and all
  globals of the simulator except those of the replacement algorithm.
* `Policy` — a replacement algorithm: its `ref_fcn` and `evict_fcn` over a state
  of its own.  What every algorithm of the repository respects is part of the
  type: it changes nothing of the machine but `PG_REF` bits and `coremap[].page`.
* `swapPagein`, `swapPageout`, `allocateFrame`, `findPhyspage`, `accessMem` — the
  source's functions.
* `runFind`, `replay` — any number of `find_physpage` calls, and
  `replay_trace` on the accesses of a trace.

A pointer to a page-table entry is the pair of indices it was computed from: the
second-level tables are never freed.  `lseek`, `read` and `write` on the swap
file succeed and treat it as an array of bytes.
-/

namespace OsAssignments
namespace Paging

open MachineWord ByteMemory

/-! ## Page-table entries -/

/-- `PG_VALID`. -/
def pgValid : BitVec 32 := 0x1#32
/-- `PG_DIRTY`. -/
def pgDirty : BitVec 32 := 0x2#32
/-- `PG_REF`. -/
def pgRef : BitVec 32 := 0x4#32
/-- `PG_ONSWAP`. -/
def pgOnswap : BitVec 32 := 0x8#32
/-- `INVALID_SWAP`. -/
def invalidSwap : Int := -1
/-- `PAGE_SHIFT`. -/
def pageShift : Nat := 12
/-- `PGDIR_SHIFT`. -/
def pgdirShift : Nat := 24
/-- `PTRS_PER_PGDIR`. -/
def ptrsPerPgdir : Nat := 4096
/-- `PTRS_PER_PGTBL`. -/
def ptrsPerPgtbl : Nat := 4096
/-- `PGTBL_MASK`. -/
def pgtblMask : Nat := ptrsPerPgtbl - 1
/-- `SIMPAGESIZE`. -/
def simpagesize : Nat := 16

/-- `pgtbl_entry_t`. -/
structure Pte where
  frame : BitVec 32
  swapOff : Int

namespace Pte

def valid (e : Pte) : Bool := hasFlag e.frame pgValid
def dirty (e : Pte) : Bool := hasFlag e.frame pgDirty
def referenced (e : Pte) : Bool := hasFlag e.frame pgRef
def onswap (e : Pte) : Bool := hasFlag e.frame pgOnswap

/-- The physical frame number, `frame >> PAGE_SHIFT`. -/
def frameNumber (e : Pte) : Nat := (e.frame >>> pageShift).toNat

/-- An entry as `init_second_level` leaves it. -/
def fresh : Pte := ⟨0#32, invalidSwap⟩

end Pte

/-- `pgtbl_entry_t*`: the index of the second-level table and the index in it. -/
structure PtePtr where
  dir : Nat
  idx : Nat
  deriving DecidableEq, Repr

/-- `PGDIR_INDEX`. -/
def pgdirIndex (vaddr : Nat) : Nat := vaddr >>> pgdirShift

/-- `PGTBL_INDEX`. -/
def pgtblIndex (vaddr : Nat) : Nat := (vaddr >>> pageShift) &&& pgtblMask

/-- The entry that translates `vaddr`. -/
def ptrOf (vaddr : Nat) : PtePtr := ⟨pgdirIndex vaddr, pgtblIndex vaddr⟩

/-! ## The machine -/

/-- `struct frame`. -/
structure Frame where
  inUse : Bool
  pte : Option PtePtr
  page : Nat

/-- The globals of the simulator. -/
structure Machine where
  memsize : Nat
  /-- `none` is a directory entry without `PG_VALID`. -/
  pgdir : Nat → Option (Nat → Pte)
  coremap : Nat → Frame
  physmem : Memory
  swapfile : Memory
  swapmap : Bitmap
  hitCount : Int
  missCount : Int
  refCount : Int
  evictCleanCount : Int
  evictDirtyCount : Int

namespace Machine

/-- The entry behind a pointer.  An entry of a table that was never set up reads
as `init_second_level` would set it up. -/
def pte (m : Machine) (p : PtePtr) : Pte :=
  match m.pgdir p.dir with
  | some table => table p.idx
  | none => Pte.fresh

/-- Store an entry through a pointer. -/
def setPte (m : Machine) (p : PtePtr) (e : Pte) : Machine :=
  { m with
    pgdir := Function.update m.pgdir p.dir
      (some (Function.update ((m.pgdir p.dir).getD fun _ => Pte.fresh) p.idx e)) }

/-- `p->frame |= mask`. -/
def orFrame (m : Machine) (p : PtePtr) (mask : BitVec 32) : Machine :=
  m.setPte p { m.pte p with frame := (m.pte p).frame ||| mask }

/-- Every frame of physical memory is in use. -/
def Full (m : Machine) : Prop := ∀ f, f < m.memsize → (m.coremap f).inUse = true

/-- What a replacement algorithm leaves of a machine it was called on: all but
`PG_REF` bits and the `page` fields of `coremap`. -/
structure SameButBookkeeping (m m' : Machine) : Prop where
  frame : ∀ p, (m'.pte p).frame &&& ~~~pgRef = (m.pte p).frame &&& ~~~pgRef
  swapOff : ∀ p, (m'.pte p).swapOff = (m.pte p).swapOff
  opened : ∀ d, (m'.pgdir d).isSome = (m.pgdir d).isSome
  coremap : ∀ f, m'.coremap f = { m.coremap f with page := (m'.coremap f).page }
  rest : m' = { m with pgdir := m'.pgdir, coremap := m'.coremap }

end Machine

/-! ## Replacement policies -/

/-- A replacement algorithm with state `σ`: an entry of `algs` without its
`init_fcn`. -/
structure Policy (σ : Type) where
  ref : PtePtr → Machine → σ → Except Fault (Machine × σ)
  evict : Machine → σ → Except Fault (Int × Machine × σ)
  ref_same : ∀ {p m s m' s'}, ref p m s = .ok (m', s') → m.SameButBookkeeping m'
  evict_same : ∀ {m s v m' s'}, evict m s = .ok (v, m', s') → m.SameButBookkeeping m'

/-! ## Swapping -/

/-- `swap_pagein`. -/
def swapPagein (frame : Nat) (swapOffset : Int) (m : Machine) : Except Fault Machine :=
  if swapOffset = invalidSwap then .error .assertion
  else
    .ok { m with
      physmem := copyBytes simpagesize m.swapfile swapOffset.toNat m.physmem (frame * simpagesize) }

/-- The `lseek` and `write` of `swap_pageout`. -/
def writeSwap (frame : Nat) (swapOffset : Int) (m : Machine) : Machine :=
  { m with
    swapfile := copyBytes simpagesize m.physmem (frame * simpagesize) m.swapfile swapOffset.toNat }

/-- `swap_pageout`; the result is the offset the page was written to. -/
def swapPageout (frame : Nat) (swapOffset : Int) (m : Machine) : Except Fault (Int × Machine) :=
  if swapOffset = invalidSwap then do
    let (idx, swapmap) ← bitmapAlloc m.swapmap
    let m := { m with swapmap := swapmap }
    match idx with
    | none => .ok (invalidSwap, m)
    | some idx =>
      let swapOffset := toInt32 (wrap 32 (idx * simpagesize : Nat))
      if swapOffset = invalidSwap then .error .assertion
      else .ok (swapOffset, writeSwap frame swapOffset m)
  else .ok (swapOffset, writeSwap frame swapOffset m)

/-! ## Allocating frames -/

/-- The search loop of `allocate_frame`. -/
def firstFree (m : Machine) : Option Nat :=
  (List.range m.memsize).find? fun i => !(m.coremap i).inUse

/-- `coremap[f].in_use = 1; coremap[f].pte = p`. -/
def claimFrame (f : Nat) (p : PtePtr) (m : Machine) : Machine :=
  { m with coremap := Function.update m.coremap f { m.coremap f with inUse := true, pte := some p } }

/-- The entry of an evicted page: no longer valid or referenced, and on swap. -/
def Pte.swappedOut (e : Pte) : Pte :=
  { e with frame := ((e.frame &&& ~~~pgValid) &&& ~~~pgRef) ||| pgOnswap }

/-- The eviction branch of `allocate_frame`, once the victim is chosen. -/
def evictFrame (f : Nat) (m : Machine) : Except Fault Machine :=
  match (m.coremap f).pte with
  | none => .error .nullPointer
  | some q => do
    let m ← if (m.pte q).dirty then do
        let (off, m) ← swapPageout f (toInt32 (m.pte q).swapOff) m
        let m := m.setPte q { m.pte q with swapOff := off }
        pure { m with evictDirtyCount := incr m.evictDirtyCount }
      else pure { m with evictCleanCount := incr m.evictCleanCount }
    pure (m.setPte q (m.pte q).swappedOut)

section

variable {σ : Type}

/-- `allocate_frame`. -/
def allocateFrame (P : Policy σ) (p : PtePtr) (m : Machine) (s : σ) :
    Except Fault (Nat × Machine × σ) :=
  match firstFree m with
  | some i => .ok (i, claimFrame i p m, s)
  | none => do
    let (v, m, s) ← P.evict m s
    if 0 ≤ v ∧ v < m.memsize then
      let m ← evictFrame v.toNat m
      pure (v.toNat, claimFrame v.toNat p m, s)
    else .error .outOfBounds

/-- `init_frame`. -/
def initFrame (f vaddr : Nat) (m : Machine) : Machine :=
  { m with
    physmem :=
      writeLE 8 (fillBytes simpagesize m.physmem (f * simpagesize) 0) (f * simpagesize + 4) vaddr }

/-! ## Translating an address -/

/-- One line of a trace. -/
structure Access where
  type : Char
  vaddr : Nat
  deriving DecidableEq, Repr

/-- Does the access write to its page? -/
def Access.stores (a : Access) : Bool := a.type == 'M' || a.type == 'S'

/-- Set up the second-level table of a directory entry if it has none. -/
def openDirectory (dir : Nat) (m : Machine) : Machine :=
  if (m.pgdir dir).isNone then
    { m with pgdir := Function.update m.pgdir dir (some fun _ => Pte.fresh) }
  else m

/-- The machine after the hit branch of `find_physpage`. -/
def hitState (vaddr : Nat) (m : Machine) : Machine :=
  let m := openDirectory (pgdirIndex vaddr) m
  { m with hitCount := incr m.hitCount }

/-- The machine `allocate_frame` is called on when `vaddr` misses. -/
def missState (vaddr : Nat) (m : Machine) : Machine :=
  let m := openDirectory (pgdirIndex vaddr) m
  { m with missCount := incr m.missCount }

/-- What the miss branch of `find_physpage` does with the frame it was given: the
page gets its contents and its entry. -/
def loadPage (isSwapped : Bool) (f vaddr : Nat) (m : Machine) : Except Fault Machine :=
  let p := ptrOf vaddr
  let frame := BitVec.ofNat 32 f <<< pageShift
  if isSwapped then do
    let m ← swapPagein f (toInt32 (m.pte p).swapOff) m
    pure (m.setPte p { m.pte p with frame := frame &&& ~~~pgOnswap })
  else
    let m := initFrame f vaddr m
    pure (m.setPte p ⟨frame ||| pgDirty, invalidSwap⟩)

/-- The miss branch of `find_physpage`, from the call of `allocate_frame` on. -/
def bringIn (P : Policy σ) (vaddr : Nat) (m : Machine) (s : σ) : Except Fault (Machine × σ) := do
  let isSwapped := (m.pte (ptrOf vaddr)).onswap
  let (f, m, s) ← allocateFrame P (ptrOf vaddr) m s
  let m ← loadPage isSwapped f vaddr m
  pure (m, s)

/-- The flags `find_physpage` sets on every access. -/
def markAccess (a : Access) (m : Machine) : Machine :=
  let m := (m.orFrame (ptrOf a.vaddr) pgValid).orFrame (ptrOf a.vaddr) pgRef
  if a.stores then m.orFrame (ptrOf a.vaddr) pgDirty else m

/-- `find_physpage` up to the call of `ref_fcn`. -/
def translate (P : Policy σ) (a : Access) (m : Machine) (s : σ) : Except Fault (Machine × σ) :=
  if ptrsPerPgdir ≤ pgdirIndex a.vaddr then .error .outOfBounds
  else if ((openDirectory (pgdirIndex a.vaddr) m).pte (ptrOf a.vaddr)).valid then
    .ok (markAccess a (hitState a.vaddr m), s)
  else do
    let (m, s) ← bringIn P a.vaddr (missState a.vaddr m) s
    pure (markAccess a m, s)

/-- `find_physpage`; the address returned is an offset into `physmem`. -/
def findPhyspage (P : Policy σ) (a : Access) (m : Machine) (s : σ) :
    Except Fault (Nat × Machine × σ) := do
  let (m, s) ← translate P a m s
  let (m, s) ← P.ref (ptrOf a.vaddr) m s
  let m := { m with refCount := incr m.refCount }
  pure ((m.pte (ptrOf a.vaddr)).frameNumber * simpagesize, m, s)

/-! ## Accessing memory -/

/-- The address field of the page at `memptr`. -/
def checkaddr (m : Machine) (memptr : Nat) : Nat := readLE m.physmem 8 (memptr + 4)

/-- The version field of the page at `memptr`. -/
def version (m : Machine) (memptr : Nat) : Nat := readLE m.physmem 4 memptr

/-- The last step of `access_mem`: a write access increments the version. -/
def bumpVersion (a : Access) (memptr : Nat) (m : Machine) : Machine :=
  if a.stores then { m with physmem := writeLE 4 m.physmem memptr (version m memptr + 1) } else m

/-- `access_mem`; the flag tells whether its check reported an error. -/
def accessMem (P : Policy σ) (a : Access) (m : Machine) (s : σ) :
    Except Fault (Bool × Machine × σ) := do
  let (memptr, m, s) ← findPhyspage P a m s
  pure (checkaddr m memptr != a.vaddr, bumpVersion a memptr m, s)

/-! ## Runs -/

/-- The machine `main` sets up: frames and swap file with arbitrary contents. -/
def boot (memsize : Nat) (physmem swapfile : Memory) (swapmap : Bitmap) : Machine where
  memsize := memsize
  pgdir _ := none
  coremap _ := ⟨false, none, 0⟩
  physmem := physmem
  swapfile := swapfile
  swapmap := swapmap
  hitCount := 0
  missCount := 0
  refCount := 0
  evictCleanCount := 0
  evictDirtyCount := 0

/-- One `find_physpage` call. -/
def findStep (P : Policy σ) (a : Access) (m : Machine) (s : σ) : Except Fault (Machine × σ) := do
  let (_, m, s) ← findPhyspage P a m s
  pure (m, s)

/-- One `access_mem` call. -/
def accessStep (P : Policy σ) (a : Access) (m : Machine) (s : σ) : Except Fault (Machine × σ) := do
  let (_, m, s) ← accessMem P a m s
  pure (m, s)

/-- The accesses in order, each served by `next`. -/
def runWith (next : Access → Machine → σ → Except Fault (Machine × σ)) :
    List Access → Machine → σ → Except Fault (Machine × σ)
  | [], m, s => .ok (m, s)
  | a :: as, m, s => do
    let (m, s) ← next a m s
    runWith next as m s

/-- Any number of `find_physpage` calls. -/
def runFind (P : Policy σ) : List Access → Machine → σ → Except Fault (Machine × σ) :=
  runWith (findStep P)

/-- `replay_trace`. -/
def replay (P : Policy σ) : List Access → Machine → σ → Except Fault (Machine × σ) :=
  runWith (accessStep P)

/-! ## Policies that return in-use frames -/

/-- `evict_fcn`, called now, returns the index of an in-use frame. -/
def Policy.PicksInUse (P : Policy σ) (m : Machine) (s : σ) : Prop :=
  ∃ (v : Nat) (m' : Machine) (s' : σ),
    P.evict m s = .ok ((v : Int), m', s') ∧ v < m.memsize ∧ (m.coremap v).inUse = true

/-- The calls the access `a` makes of the policy are answered: `evict_fcn`
returns an in-use frame where it is called, and `ref_fcn` returns. -/
structure Policy.Answers (P : Policy σ) (a : Access) (m : Machine) (s : σ) : Prop where
  evict : ((missState a.vaddr m).pte (ptrOf a.vaddr)).valid = false → (missState a.vaddr m).Full →
    P.PicksInUse (missState a.vaddr m) s
  ref : ∀ m₁ s₁, translate P a m s = .ok (m₁, s₁) → ∃ r, P.ref (ptrOf a.vaddr) m₁ s₁ = .ok r

/-- All calls a run makes of the policy are answered. -/
def Policy.AnswersAlong (P : Policy σ)
    (next : Access → Machine → σ → Except Fault (Machine × σ)) :
    List Access → Machine → σ → Prop
  | [], _, _ => True
  | a :: as, m, s =>
    P.Answers a m s ∧ ∀ m' s', next a m s = .ok (m', s') → P.AnswersAlong next as m' s'

end

end Paging
end OsAssignments
