import OsAssignments.Lib.TextScan
import OsAssignments.Lib.TraceWindows

/-!
# The trace reduction of `fastslim.py`

The script reads the output of the tracing tool and prints a shorter trace, of which `lru` should
miss as often.

* `keptRef` — which lines are references; `int16` is `int` with base 16.
* `emitMarkedInTsOrder`, `process`, `fastslim` — the script; the marks are set on items that are
  not in the buffer, and nothing is printed behind the last line.
* `fastslim_windows` — it prints the first references of the full windows.
* `MissesKept` — the reduced trace misses as often in a memory of `m` frames.
* `fastslim_misses` — when that is so.
-/

namespace OsAssignments
namespace Paging

open TextScan RecencyStack TraceWindows

/-! ## Lines -/

/-- `str.strip`. -/
def strip (cs : Text) : Text := (skipSpace (skipSpace cs).reverse).reverse

/-- The digits of a number of base 16, of which there has to be one. -/
def digits16 (cs : Text) : Option Nat :=
  let ds := skipPrefix cs
  if ds ≠ [] ∧ ds.all isxdigit then
    some ((ds.filterMap hexValue).foldl (fun v d => 16 * v + d) 0)
  else none

/-- `int(·, 16)` on a string without white space around it; no value stands for `ValueError`. -/
def int16 : Text → Option Int
  | [] => none
  | c :: cs =>
    if c = 45 then (digits16 cs).map fun v => -(v : Int)
    else if c = 43 then (digits16 cs).map fun v => (v : Int)
    else (digits16 (c :: cs)).map fun v => (v : Int)

/-- The reference type and the page of a line, if the line is not skipped. -/
def keptRef (keepcode : Bool) (line : Text) : Option (Text × Int) :=
  if line.head? = some 61 then none
  else
    let reftype := strip (line.take 2)
    if reftype = [73] ∧ keepcode = false then none
    else
      let addrstr := strip ((line.takeWhile (· ≠ 44)).drop 3)
      (int16 addrstr).map fun addr => (reftype, addr / 4096)

/-! ## The script -/

/-- `TraceItem`. -/
structure TraceItem where
  reftype : Text
  pg : Int
  tstamp : Nat
  marked : Bool
  deriving DecidableEq

/-- The globals, and what is printed. -/
structure Slim where
  ts : Nat
  tracebuffer : List TraceItem
  toprint : List TraceItem
  printed : List TraceItem

/-- The globals at the start. -/
def slimInit : Slim := ⟨0, [], [], []⟩

/-- `emit_marked_in_ts_order`. -/
def emitMarkedInTsOrder (s : Slim) : Slim :=
  let toprint := s.toprint ++ s.tracebuffer.filter fun ti => ti.marked
  { s with
    printed := s.printed ++ toprint.insertionSort fun a b => a.tstamp ≤ b.tstamp
    tracebuffer := []
    toprint := [] }

/-- The loop for a line that is not skipped. -/
def process (buffersize : Nat) (s : Slim) (ref : Text × Int) : Slim :=
  let ti : TraceItem := ⟨ref.1, ref.2, s.ts, false⟩
  if s.tracebuffer.any fun t => t.pg == ti.pg then
    -- the mark and the time are set on `ti`, and the equal item of the buffer stays as it is
    { s with ts := s.ts + 1 }
  else
    let s := if s.tracebuffer.length = buffersize then emitMarkedInTsOrder s else s
    { s with
      toprint := s.toprint ++ [ti]
      tracebuffer := s.tracebuffer ++ [ti]
      ts := s.ts + 1 }

/-- One round of the loop. -/
def slimLine (keepcode : Bool) (buffersize : Nat) (s : Slim) (line : Text) : Slim :=
  match keptRef keepcode line with
  | none => s
  | some ref => process buffersize s ref

/-- The script; the items of the result are the lines it prints. -/
def fastslim (keepcode : Bool) (buffersize : Nat) (lines : List Text) : List TraceItem :=
  (lines.foldl (slimLine keepcode buffersize) slimInit).printed

/-- The address a line of the output has. -/
def TraceItem.address (ti : TraceItem) : Int := ti.pg * 4096

/-- The pages of the reduced trace. -/
def printedPages (keepcode : Bool) (buffersize : Nat) (lines : List Text) : List Int :=
  (fastslim keepcode buffersize lines).map fun ti => ti.address / 4096

/-- The pages of the lines that are not skipped. -/
def inputPages (keepcode : Bool) (lines : List Text) : List Int :=
  (lines.filterMap (keptRef keepcode)).map Prod.snd

/-- In a memory of `m` frames, the reduced trace misses as often. -/
def MissesKept (keepcode : Bool) (buffersize m : Nat) (lines : List Text) : Prop :=
  misses m [] (printedPages keepcode buffersize lines) = misses m [] (inputPages keepcode lines)

/-! ## What is printed -/

section

variable {keepcode : Bool} {k m : Nat} {s : Slim} {w : List Int} {lines : List Text}

theorem TraceItem.address_div (ti : TraceItem) : ti.address / 4096 = ti.pg := by
  rw [TraceItem.address]
  omega

/-- The buffer holds the first references of the window `w`, in their order and without marks. -/
structure Buffers (s : Slim) (w : List Int) : Prop where
  buffer : s.tracebuffer = s.toprint
  pages : s.toprint.map (fun ti => ti.pg) = firstRefs w
  unmarked : ∀ ti ∈ s.toprint, ti.marked = false
  sorted : s.toprint.Pairwise fun a b => a.tstamp ≤ b.tstamp
  past : ∀ ti ∈ s.toprint, ti.tstamp < s.ts

theorem Buffers.any_iff (h : Buffers s w) (pg : Int) :
    (s.tracebuffer.any fun t => t.pg == pg) = true ↔ pg ∈ w := by
  rw [h.buffer, ← mem_firstRefs, ← h.pages]
  simp

theorem Buffers.length_eq (h : Buffers s w) : s.tracebuffer.length = (firstRefs w).length := by
  rw [h.buffer, ← h.pages, List.length_map]

/-- The full buffer is printed as it is. -/
theorem Buffers.emit (h : Buffers s w) : emitMarkedInTsOrder s =
    { s with printed := s.printed ++ s.toprint, tracebuffer := [], toprint := [] } := by
  have hnone : s.tracebuffer.filter (fun ti => ti.marked) = [] := by
    rw [h.buffer, List.filter_eq_nil_iff]
    exact fun ti hti => by simp [h.unmarked ti hti]
  rw [emitMarkedInTsOrder, hnone, List.append_nil, h.sorted.insertionSort_eq]

/-- A reference to a page of the window. -/
theorem Buffers.repeated (h : Buffers s w) {pg : Int} (hpg : pg ∈ w) :
    Buffers { s with ts := s.ts + 1 } (w ++ [pg]) where
  buffer := h.buffer
  pages := by rw [firstRefs_concat, if_pos hpg, h.pages]
  unmarked := h.unmarked
  sorted := h.sorted
  past := fun ti hti => (h.past ti hti).trans (Nat.lt_succ_self _)

/-- A reference to another page. -/
theorem Buffers.added (h : Buffers s w) {pg : Int} (hpg : pg ∉ w) (reftype : Text) :
    Buffers { s with
      toprint := s.toprint ++ [⟨reftype, pg, s.ts, false⟩]
      tracebuffer := s.tracebuffer ++ [⟨reftype, pg, s.ts, false⟩]
      ts := s.ts + 1 } (w ++ [pg]) where
  buffer := by rw [h.buffer]
  pages := by rw [firstRefs_concat, if_neg hpg, List.map_append, h.pages]; rfl
  unmarked := by
    simp only [List.forall_mem_append, List.forall_mem_singleton, and_true]
    exact h.unmarked
  sorted := by
    refine List.pairwise_append.mpr ⟨h.sorted, List.pairwise_singleton _ _, fun a ha b hb => ?_⟩
    rw [List.mem_singleton.mp hb]
    exact (h.past a ha).le
  past := by
    simp only [List.forall_mem_append, List.forall_mem_singleton]
    exact ⟨fun ti hti => (h.past ti hti).trans (Nat.lt_succ_self _), Nat.lt_succ_self _⟩

/-- The state after the buffer has been emptied. -/
theorem Buffers.emptied (s : Slim) (printed : List TraceItem) :
    Buffers { s with printed := printed, tracebuffer := [], toprint := [] } [] :=
  ⟨rfl, rfl, by simp, List.Pairwise.nil, by simp⟩

/-- **A run** prints the first references of the windows that get full. -/
theorem Buffers.run (h : Buffers s w) (refs : List (Text × Int)) :
    (refs.foldl (process k) s).printed.map (fun ti => ti.pg)
      = s.printed.map (fun ti => ti.pg) ++ reduced (cut k w (refs.map Prod.snd)).1 := by
  induction refs generalizing s w with
  | nil => simp [cut, reduced]
  | cons ref refs ih =>
    obtain ⟨reftype, pg⟩ := ref
    rw [List.foldl_cons, List.map_cons, cut]
    by_cases hpg : pg ∈ w
    · rw [if_pos hpg, process, if_pos ((h.any_iff pg).mpr hpg), ih (h.repeated hpg)]
    · rw [if_neg hpg, process, if_neg fun hany => hpg ((h.any_iff pg).mp hany), h.length_eq]
      by_cases hfull : (firstRefs w).length = k
      · rw [if_pos hfull, if_pos hfull, h.emit]
        have hrun := ih ((Buffers.emptied s (s.printed ++ s.toprint)).added
          (List.not_mem_nil : pg ∉ []) reftype)
        refine hrun.trans ?_
        rw [List.map_append, h.pages, List.append_assoc]
        rfl
      · rw [if_neg hfull, if_neg hfull, ih (h.added hpg reftype)]

theorem foldl_slimLine (s : Slim) (lines : List Text) :
    lines.foldl (slimLine keepcode k) s = (lines.filterMap (keptRef keepcode)).foldl (process k) s := by
  induction lines generalizing s with
  | nil => rfl
  | cons line lines ih =>
    rw [List.foldl_cons, ih, slimLine]
    cases hkept : keptRef keepcode line with
    | none => rw [List.filterMap_cons_none hkept]
    | some ref => rw [List.filterMap_cons_some hkept, List.foldl_cons]

/-- **The reduced trace** is made of the first references of the full windows. -/
theorem fastslim_windows (keepcode : Bool) (k : Nat) (lines : List Text) :
    printedPages keepcode k lines = reduced (cut k [] (inputPages keepcode lines)).1 := by
  have hstart : Buffers slimInit [] := ⟨rfl, rfl, by simp [slimInit], .nil, by simp [slimInit]⟩
  have hrun := hstart.run (k := k) (lines.filterMap (keptRef keepcode))
  rw [printedPages, fastslim, foldl_slimLine, inputPages]
  simp only [TraceItem.address_div]
  exact hrun

/-! ## When the misses are kept -/

/-- The full windows of the input. -/
def fullWindows (keepcode : Bool) (k : Nat) (lines : List Text) : List (List Int) :=
  (cut k [] (inputPages keepcode lines)).1

/-- The references behind the full windows. -/
def lastWindow (keepcode : Bool) (k : Nat) (lines : List Text) : List Int :=
  (cut k [] (inputPages keepcode lines)).2

/-- Dropping the repeated references of a full window changes no order, or all pages of the trace
fit into the memory. -/
def OrderIrrelevant (keepcode : Bool) (k m : Nat) (lines : List Text) : Prop :=
  InOrder (fullWindows keepcode k lines) ∨ (firstRefs (inputPages keepcode lines)).length ≤ m

/-- The pages of the last window are among the `m` pages referenced last before it. -/
def LastWindowHits (keepcode : Bool) (k m : Nat) (lines : List Text) : Prop :=
  ∀ p ∈ lastWindow keepcode k lines,
    p ∈ (lastRefs (fullWindows keepcode k lines).flatten).reverse.take m

instance (keepcode : Bool) (k m : Nat) (lines : List Text) :
    Decidable (OrderIrrelevant keepcode k m lines) :=
  inferInstanceAs (Decidable ((∀ w ∈ fullWindows keepcode k lines, lastRefs w = firstRefs w) ∨
    (firstRefs (inputPages keepcode lines)).length ≤ m))

instance (keepcode : Bool) (k m : Nat) (lines : List Text) :
    Decidable (LastWindowHits keepcode k m lines) :=
  inferInstanceAs (Decidable (∀ p ∈ lastWindow keepcode k lines,
    p ∈ (lastRefs (fullWindows keepcode k lines).flatten).reverse.take m))

instance (keepcode : Bool) (k m : Nat) (lines : List Text) :
    Decidable (MissesKept keepcode k m lines) :=
  inferInstanceAs (Decidable (misses m [] (printedPages keepcode k lines)
    = misses m [] (inputPages keepcode lines)))

/-- **The reduced trace keeps the misses** if the order of the references that it drops is
irrelevant and the last window, which is not printed, has no miss; if the order is irrelevant, the
last window has to be so. -/
theorem fastslim_misses (keepcode : Bool) (k m : Nat) (lines : List Text) (hk : 1 ≤ k)
    (hm : k ≤ m) :
    (OrderIrrelevant keepcode k m lines ∧ LastWindowHits keepcode k m lines →
      MissesKept keepcode k m lines) ∧
    (OrderIrrelevant keepcode k m lines → MissesKept keepcode k m lines →
      LastWindowHits keepcode k m lines) := by
  have hiff : OrderIrrelevant keepcode k m lines →
      (MissesKept keepcode k m lines ↔ LastWindowHits keepcode k m lines) := fun horder => by
    rw [MissesKept, fastslim_windows]
    exact reduced_misses_iff hk hm horder
  exact ⟨fun h => (hiff h.1).mpr h.2, fun horder => (hiff horder).mp⟩

/-- A load from the page with this digit: ` L d000,4`. -/
def loadLine (digit : UInt8) : Text := [32, 76, 32, digit, 48, 48, 48, 44, 52, 10]

/-- A comment, an instruction, and loads from the pages 1 2 3 1 2. -/
def slimmableTrace : List Text :=
  [61, 61, 49, 10] :: [73, 32, 32, 52, 48, 48, 48, 44, 51, 10] :: [49, 50, 51, 49, 50].map loadLine

theorem fastslim_misses_example : printedPages false 2 slimmableTrace = [1, 2, 3, 1] ∧
    MissesKept false 2 3 slimmableTrace :=
  ⟨by decide +kernel, (fastslim_misses false 2 3 slimmableTrace (by decide) (by decide)).1
    ⟨by decide +kernel, by decide +kernel⟩⟩

/-- **Misses get lost**: nothing is printed of a trace of one line; and of a trace whose last
window has no miss, the order 1 2 is printed in place of 1 2 1, so that page 1 is evicted. -/
theorem fastslim_loses_misses :
    ¬ MissesKept false 4 4 [loadLine 49] ∧
    let lines := [49, 50, 49, 51, 52, 49, 51, 52].map loadLine
    LastWindowHits false 2 3 lines ∧ printedPages false 2 lines = [1, 2, 3, 4, 1, 3] ∧
      ¬ MissesKept false 2 3 lines := by
  decide +kernel

end

end Paging
end OsAssignments
