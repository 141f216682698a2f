import OsAssignments.Lib.TextScan
import OsAssignments.Paging.BeladyTable
import OsAssignments.Paging.Correspondence

/-!
# Two readers of the trace file

`makePageList` reads the trace with `fscanf`, as a stream, and `replay_trace` reads it line
by line; only the second one knows that a line starting with `=` is a comment.

* `traceAddresses`, `replayTrace` — the addresses the first one reads, and the accesses the
  second one makes.
* `ReadersAgree` — the page list is the list of the pages accessed, and `curRef` finds them.
* `CleanTrace` — every line is an access that both of them read, and nothing else.
* `TraceFile` — accesses and comments as the tracing tools write them.
* `trace_readers_agree` — the readers agree on clean traces with no more lines than `curRef` counts,
  and of the files the tracing tools write, on no others.
-/

namespace OsAssignments
namespace Paging

open MachineWord TextScan

/-! ## The readers -/

/-- `MAXLINE`. -/
def maxline : Nat := 256

/-- What the language leaves open: the values of variables that are not initialised, and
whether `fscanf` returns `EOF` if the input ends after the character it suppresses. -/
structure Unspecified where
  type : Char
  virtualAddress : Nat
  eofAfterChar : Bool

/-- The loop of `makePageList`: `fscanf(file_ptr, "%*c %lx\n", &virtualAddress)`. -/
def fscanfFrom (eofAfterChar : Bool) : Nat → Text → Nat → List Nat
  | 0, _, _ => []
  | _ + 1, [], _ => []
  | fuel + 1, _ :: cs, virtualAddress =>
    match scanLx cs with
    | .inputFailure => if eofAfterChar then [] else [virtualAddress]
    | .matchFailure rest => virtualAddress :: fscanfFrom eofAfterChar fuel rest virtualAddress
    | .value v rest => v :: fscanfFrom eofAfterChar fuel (skipSpace rest) v

/-- The addresses `makePageList` reads. -/
def traceAddresses (u : Unspecified) (content : Text) : List Nat :=
  fscanfFrom u.eofAfterChar content.length content u.virtualAddress

/-- `sscanf(buf, "%c %lx", &type, &vaddr)`. -/
def sscanfLine (buf : Text) (a : Access) : Access :=
  match buf.takeWhile (· ≠ 0) with
  | [] => a
  | c :: cs =>
    match scanLx cs with
    | .value v _ => ⟨Char.ofNat c.toNat, v⟩
    | _ => ⟨Char.ofNat c.toNat, a.vaddr⟩

/-- The loop of `replay_trace`. -/
def replayTraceFrom : Nat → Text → Access → List Access
  | 0, _, _ => []
  | _ + 1, [], _ => []
  | fuel + 1, c :: cs, a =>
    let buf := (fgetsFrom (maxline - 1) (c :: cs)).1
    let rest := (fgetsFrom (maxline - 1) (c :: cs)).2
    if buf.head? = some 61 then replayTraceFrom fuel rest a
    else sscanfLine buf a :: replayTraceFrom fuel rest (sscanfLine buf a)

/-- The accesses `replay_trace` makes. -/
def replayTrace (u : Unspecified) (content : Text) : List Access :=
  replayTraceFrom content.length content ⟨u.type, 0⟩

/-- The page list is, element by element, the list of the pages accessed; and the entry at `curRef`,
an `int` counted up with every access, is the page of that access. -/
def ReadersAgree (u : Unspecified) (content : Text) : Prop :=
  ∃ pageList, makePageList (traceAddresses u content) = .ok pageList ∧
    pageList.Repr ((replayTrace u content).map fun a => pageOf a.vaddr) ∧
    ∀ past a future, replayTrace u content = past ++ a :: future →
      pageList.slotAt (toInt32 past.length) = .ok (some (pageOf a.vaddr))

/-! ## One step of a reader -/

section

variable {eofAfterChar : Bool} {cs rest : Text} {c : UInt8} {v w : Nat} {a : Access}

theorem fscanfFrom_fuel {n k : Nat} : ∀ {content : Text} {v : Nat}, content.length ≤ n →
    content.length ≤ k →
    fscanfFrom eofAfterChar n content v = fscanfFrom eofAfterChar k content v := by
  induction n generalizing k with
  | zero =>
    intro content v hn hk
    obtain rfl := List.eq_nil_of_length_eq_zero (by omega : content.length = 0)
    cases k <;> rfl
  | succ n ih =>
    intro content v hn hk
    cases content with
    | nil => cases k <;> rfl
    | cons c cs =>
      rw [List.length_cons] at hn hk
      obtain ⟨k, rfl⟩ : ∃ j, k = j + 1 := ⟨k - 1, by omega⟩
      have hle := scanLx_restLe cs
      rw [fscanfFrom, fscanfFrom]
      cases hscan : scanLx cs with
      | inputFailure => rfl
      | matchFailure rest =>
        rw [hscan] at hle
        have hle : rest.length ≤ cs.length := hle
        dsimp only
        rw [ih (k := k) (by omega) (by omega)]
      | value w rest =>
        rw [hscan] at hle
        have hle : (skipSpace rest).length ≤ cs.length := (length_skipSpace_le rest).trans hle
        dsimp only
        rw [ih (k := k) (by omega) (by omega)]

/-- `fscanfFrom` with as much fuel as it can use. -/
def fscanfAll (eofAfterChar : Bool) (content : Text) (v : Nat) : List Nat :=
  fscanfFrom eofAfterChar content.length content v

@[simp] theorem fscanfAll_nil : fscanfAll eofAfterChar [] v = [] := rfl

theorem fscanfAll_matchFailure (h : scanLx cs = .matchFailure rest) :
    fscanfAll eofAfterChar (c :: cs) v = v :: fscanfAll eofAfterChar rest v := by
  have hle := scanLx_restLe cs
  rw [h] at hle
  rw [fscanfAll, List.length_cons, fscanfFrom, h]
  dsimp only
  rw [fscanfFrom_fuel hle (le_refl _), fscanfAll]

theorem fscanfAll_value (h : scanLx cs = .value w rest) :
    fscanfAll eofAfterChar (c :: cs) v = w :: fscanfAll eofAfterChar (skipSpace rest) w := by
  have hle := scanLx_restLe cs
  rw [h] at hle
  rw [fscanfAll, List.length_cons, fscanfFrom, h]
  dsimp only
  rw [fscanfFrom_fuel ((length_skipSpace_le rest).trans hle) (le_refl _), fscanfAll]

theorem fgetsFrom_rest_lt (n : Nat) (c : UInt8) (cs : Text) :
    (fgetsFrom (n + 1) (c :: cs)).2.length ≤ cs.length := by
  have h := congrArg List.length (fgetsFrom_append n cs)
  rw [List.length_append] at h
  rw [fgetsFrom]
  split
  · exact le_refl _
  · dsimp only
    omega

theorem replayTraceFrom_fuel {n k : Nat} : ∀ {content : Text} {a : Access}, content.length ≤ n →
    content.length ≤ k → replayTraceFrom n content a = replayTraceFrom k content a := by
  induction n generalizing k with
  | zero =>
    intro content a hn hk
    obtain rfl := List.eq_nil_of_length_eq_zero (by omega : content.length = 0)
    cases k <;> rfl
  | succ n ih =>
    intro content a hn hk
    cases content with
    | nil => cases k <;> rfl
    | cons c cs =>
      rw [List.length_cons] at hn hk
      obtain ⟨k, rfl⟩ : ∃ j, k = j + 1 := ⟨k - 1, by omega⟩
      have hle : (fgetsFrom (maxline - 1) (c :: cs)).2.length ≤ cs.length :=
        fgetsFrom_rest_lt 254 c cs
      have hrest := fun b => ih (k := k) (a := b) (hle.trans (by omega)) (hle.trans (by omega))
      rw [replayTraceFrom, replayTraceFrom, hrest, hrest]

/-- `replayTraceFrom` with as much fuel as it can use. -/
def replayAll (content : Text) (a : Access) : List Access :=
  replayTraceFrom content.length content a

@[simp] theorem replayAll_nil : replayAll [] a = [] := rfl

theorem replayAll_comment (h : fgetsFrom (maxline - 1) (61 :: cs ++ rest) = (61 :: cs, rest)) :
    replayAll (61 :: cs ++ rest) a = replayAll rest a := by
  rw [replayAll, List.cons_append, List.length_cons, replayTraceFrom, ← List.cons_append, h]
  dsimp only
  rw [if_pos (show (61 :: cs).head? = some 61 from rfl),
    replayTraceFrom_fuel (by simp) (le_refl _), replayAll]

theorem replayAll_access (h : fgetsFrom (maxline - 1) (c :: cs ++ rest) = (c :: cs, rest))
    (hc : c ≠ 61) :
    replayAll (c :: cs ++ rest) a
      = sscanfLine (c :: cs) a :: replayAll rest (sscanfLine (c :: cs) a) := by
  rw [replayAll, List.cons_append, List.length_cons, replayTraceFrom, ← List.cons_append, h]
  dsimp only
  rw [if_neg (by simpa using hc), replayTraceFrom_fuel (by simp) (le_refl _), replayAll]

theorem sscanfLine_vaddr {tail : Text} (hnul : 0 ∉ c :: cs) (h : scanLx cs = .value v tail) :
    (sscanfLine (c :: cs) a).vaddr = v := by
  have htake : (c :: cs).takeWhile (· ≠ 0) = c :: cs := by
    rw [List.takeWhile_eq_self_iff]
    intro d hd
    have : d ≠ 0 := fun h0 => hnul (h0 ▸ hd)
    simpa using this
  rw [sscanfLine, htake]
  dsimp only
  rw [h]

end

/-! ## Clean traces -/

/-- A line of the trace, `rest` being what follows it: a character that is neither `=` nor
NUL nor, except at the start of the file, white space; then an address that ends within the
line; then nothing but white space. -/
structure AccessLine (first : Bool) (c : UInt8) (cs rest : Text) (v : Nat) (tail : Text) : Prop where
  line : fgetsFrom (maxline - 1) (c :: cs ++ rest) = (c :: cs, rest)
  notComment : c ≠ 61
  noNul : 0 ∉ c :: cs
  visible : isspace c = true → first = true
  address : scanLx cs = .value v tail
  ends : scanLx (cs ++ rest) = .value v (tail ++ rest)
  blank : tail.all isspace = true

/-- Every one of the `n` lines is an access, to a page whose number fits into an `unsigned`. -/
inductive CleanTrace : Bool → Nat → Text → Prop
  | nil {first : Bool} : CleanTrace first 0 []
  | line {first : Bool} {n : Nat} {c : UInt8} {cs rest tail : Text} {v : Nat} :
      AccessLine first c cs rest v tail → v < 2 ^ 44 → CleanTrace false n rest →
      CleanTrace first (n + 1) (c :: cs ++ rest)

theorem CleanTrace.skipSpace_eq {n : Nat} {content : Text} (h : CleanTrace false n content) :
    skipSpace content = content := by
  cases h with
  | nil => rfl
  | line hline _ _ =>
    refine List.dropWhile_cons_of_neg fun hspace => ?_
    exact absurd (hline.visible hspace) (by decide)

theorem CleanTrace.head_ne {first : Bool} {n : Nat} {content : Text} (h : CleanTrace first n content) :
    content.head? ≠ some 61 := by
  cases h with
  | nil => simp
  | line hline _ _ => simpa using hline.notComment

theorem pageNumber_eq_iff (v : Nat) : pageNumber v = pageOf v ↔ v < 2 ^ 44 := by
  rw [pageNumber, pageOf, pageShift, wrap, Nat.shiftRight_eq_div_pow]
  omega

section

variable {eofAfterChar : Bool} {first : Bool} {content cs rest tail : Text} {c : UInt8}
  {n v w : Nat} {a : Access}

/-- What the two readers make of an access line. -/
theorem AccessLine.fscanfAll (h : AccessLine first c cs rest v tail) (w : Nat) :
    fscanfAll eofAfterChar (c :: cs ++ rest) w
      = v :: Paging.fscanfAll eofAfterChar (skipSpace rest) v := by
  rw [List.cons_append, fscanfAll_value h.ends, skipSpace_append_of_all h.blank]

theorem AccessLine.replayAll (h : AccessLine first c cs rest v tail) (a : Access) :
    ∃ a', replayAll (c :: cs ++ rest) a = a' :: Paging.replayAll rest a' ∧ a'.vaddr = v :=
  ⟨_, replayAll_access h.line h.notComment, sscanfLine_vaddr h.noNul h.address⟩

theorem CleanTrace.length_replayAll (h : CleanTrace first n content) :
    ∀ a : Access, (replayAll content a).length = n := by
  induction h with
  | nil => intro a; rfl
  | line hline _ _ ih =>
    intro a
    obtain ⟨a', hreplay, -⟩ := hline.replayAll a
    rw [hreplay, List.length_cons, ih]

theorem CleanTrace.pages_eq (h : CleanTrace first n content) :
    ∀ (v : Nat) (a : Access), (fscanfAll eofAfterChar content v).map pageNumber
      = (replayAll content a).map fun a => pageOf a.vaddr := by
  induction h with
  | nil => intro v a; rfl
  | @line first n c cs rest tail w hline hw hrest ih =>
    intro v a
    obtain ⟨a', hreplay, ha'⟩ := hline.replayAll a
    rw [hline.fscanfAll, hreplay, hrest.skipSpace_eq, List.map_cons, List.map_cons, ha', ih w a',
      (pageNumber_eq_iff w).mpr hw]

end

theorem CList.Repr.unique {α : Type} {list : CList α} {xs ys : List α} (hx : list.Repr xs)
    (hy : list.Repr ys) : xs = ys := by
  have hlen : xs.length = ys.length := hx.count.symm.trans hy.count
  have hcontents := hx.contents.symm.trans hy.contents
  rw [hlen] at hcontents
  exact List.map_injective_iff.mpr (Option.some_injective α)
    (List.append_cancel_right hcontents)

/-- Behind the largest `int` there is no entry at `curRef`. -/
theorem ReadersAgree.length_le {u : Unspecified} {content : Text} (h : ReadersAgree u content) :
    (replayTrace u content).length ≤ 2 ^ 31 := by
  obtain ⟨list, -, -, hslots⟩ := h
  by_contra hlong
  have hsplit := List.take_append_drop (2 ^ 31) (replayTrace u content)
  rw [List.drop_eq_getElem_cons (by omega)] at hsplit
  have hslot := hslots _ _ _ hsplit.symm
  rw [List.length_take, min_eq_left (by omega), CList.slotAt,
    if_pos (toInt32_neg_iff.mpr (by decide))] at hslot
  cases hslot

theorem readersAgree_iff (u : Unspecified) (content : Text) :
    ReadersAgree u content ↔
      (replayAll content ⟨u.type, 0⟩).length ≤ 2 ^ 31 ∧
      (fscanfAll u.eofAfterChar content u.virtualAddress).map pageNumber
        = (replayAll content ⟨u.type, 0⟩).map fun a => pageOf a.vaddr := by
  constructor
  · intro h
    have hle := h.length_le
    refine ⟨hle, ?_⟩
    obtain ⟨list, hmake, hrepr, -⟩ := h
    obtain ⟨list', hmake', hkeeps, hrepr'⟩ := makePageList_keeps (traceAddresses u content)
    obtain rfl := Except.ok.inj (hmake.symm.trans hmake')
    -- the number of entries is the number of accesses
    have hlen : ((traceAddresses u content).map pageNumber).length =
        ((replayTrace u content).map fun a => pageOf a.vaddr).length :=
      hkeeps.count.symm.trans hrepr.count
    rw [List.length_map, List.length_map] at hlen
    exact (hrepr' (hlen.trans_le hle)).unique hrepr
  · rintro ⟨hle, h⟩
    have hlen : (traceAddresses u content).length = (replayTrace u content).length := by
      have hmapped := congrArg List.length h
      rwa [List.length_map, List.length_map] at hmapped
    obtain ⟨list, hmake, hrepr⟩ := makePageList_ok (hlen.trans_le hle)
    rw [show (traceAddresses u content).map pageNumber = _ from h] at hrepr
    refine ⟨list, hmake, hrepr, fun past a future hsplit => ?_⟩
    have hle' : (past ++ a :: future).length ≤ 2 ^ 31 := hsplit ▸ hle
    rw [List.length_append, List.length_cons] at hle'
    rw [show replayAll content ⟨u.type, 0⟩ = _ from hsplit, List.map_append, List.map_cons] at hrepr
    have hslot := hrepr.slot (i := past.length) (by simp)
    rw [toInt32_natCast (by omega), slotAt_natCast, hslot]
    simp

/-- **On clean traces the readers agree.** -/
theorem readersAgree_of_cleanTrace (u : Unspecified) {content : Text} {n : Nat} (hn : n ≤ 2 ^ 31)
    (h : CleanTrace true n content) : ReadersAgree u content :=
  (readersAgree_iff u content).mpr ⟨(h.length_replayAll _).trans_le hn, h.pages_eq _ _⟩

/-! ## Files of the tracing tools -/

/-- `I`, `L`, `M` and `S`. -/
def typeChars : Text := [73, 76, 77, 83]

/-- Accesses and comments, as the tracing tools write them. -/
inductive TraceFile : Text → Prop
  | nil : TraceFile []
  | access {c : UInt8} {cs rest tail : Text} {v : Nat} : c ∈ typeChars →
      fgetsFrom (maxline - 1) (c :: cs ++ rest) = (c :: cs, rest) → 0 ∉ cs →
      scanLx cs = .value v tail → tail.all isspace = true → TraceFile rest →
      TraceFile (c :: cs ++ rest)
  | comment {cs rest : Text} :
      fgetsFrom (maxline - 1) (61 :: 61 :: cs ++ rest) = (61 :: 61 :: cs, rest) →
      TraceFile rest → TraceFile (61 :: 61 :: cs ++ rest)

theorem stops_of_mem {c : UInt8} (h : c ∈ 61 :: typeChars) (post : Text) : Stops (c :: post) := by
  have hall : ∀ c ∈ 61 :: typeChars, isspace c = false ∧ isxdigit c = false ∧ c ≠ 120 ∧ c ≠ 88 ∧
      c ≠ 43 ∧ c ≠ 45 := by decide +kernel
  intro d hd
  obtain rfl : c = d := by simpa using hd
  exact hall c h

theorem TraceFile.stops {content : Text} (h : TraceFile content) : Stops content := by
  cases h with
  | nil => exact fun c hc => by simp at hc
  | access hc => exact stops_of_mem (List.mem_cons_of_mem _ hc) _
  | comment => exact stops_of_mem (List.mem_cons_self ..) _

section

variable {eofAfterChar : Bool} {content cs rest tail : Text} {c : UInt8} {v : Nat}

/-- A line of the tracing tools that is not a comment. -/
theorem TraceFile.accessLine (hrest : TraceFile rest) (hc : c ∈ typeChars)
    (hline : fgetsFrom (maxline - 1) (c :: cs ++ rest) = (c :: cs, rest)) (hnul : 0 ∉ cs)
    (haddress : scanLx cs = .value v tail) (hblank : tail.all isspace = true) :
    AccessLine false c cs rest v tail := by
  have hall : ∀ c ∈ typeChars, c ≠ 61 ∧ c ≠ 0 ∧ isspace c = false := by decide +kernel
  obtain ⟨hcomment, hzero, hspace⟩ := hall c hc
  have hcs : cs.all isspace = false := by
    by_contra hne
    have := scanLx_append_of_all (Bool.of_not_eq_false hne) []
    rw [List.append_nil, haddress] at this
    cases this
  refine ⟨hline, hcomment, by simp [Ne.symm hzero, hnul], by simp [hspace], haddress, ?_, hblank⟩
  rw [hrest.stops.scanLx_append hcs, haddress]
  rfl

/-- Whatever stands in front of a line, `fscanf` reads on at that line. -/
theorem exists_fscanfAll_le (eofAfterChar : Bool) (hrest : Stops rest) (n : Nat) :
    ∀ (pre : Text) (v : Nat), pre.length ≤ n →
      ∃ w, (fscanfAll eofAfterChar rest w).length
        ≤ (fscanfAll eofAfterChar (pre ++ rest) v).length := by
  induction n with
  | zero =>
    intro pre v hlen
    obtain rfl := List.eq_nil_of_length_eq_zero (by omega : pre.length = 0)
    exact ⟨v, le_refl _⟩
  | succ n ih =>
    intro pre v hlen
    cases pre with
    | nil => exact ⟨v, le_refl _⟩
    | cons c cs =>
      rw [List.length_cons] at hlen
      rw [List.cons_append]
      by_cases hblank : cs.all isspace = true
      · -- the conversion gets as far as the line, and fails there
        cases rest with
        | nil => exact ⟨v, Nat.zero_le _⟩
        | cons d post =>
          have hscan := (scanLx_append_of_all hblank (d :: post)).trans hrest.scanLx_eq
          refine ⟨v, ?_⟩
          rw [fscanfAll_matchFailure hscan]
          exact Nat.le_succ _
      · have hscan := hrest.scanLx_append (Bool.of_not_eq_true hblank)
        have hle := scanLx_restLe cs
        cases hcs : scanLx cs with
        | inputFailure => exact absurd (all_isspace_of_inputFailure hcs) hblank
        | matchFailure tail =>
          rw [hcs] at hscan hle
          obtain ⟨w, hw⟩ := ih tail v (hle.trans (by omega))
          rw [fscanfAll_matchFailure hscan]
          exact ⟨w, hw.trans (Nat.le_succ _)⟩
        | value x tail =>
          rw [hcs] at hscan hle
          obtain ⟨w, hw⟩ :=
            ih (skipSpace tail) x ((length_skipSpace_le tail).trans (Nat.le_trans hle (by omega)))
          rw [fscanfAll_value hscan, hrest.skipSpace_append]
          exact ⟨w, hw.trans (Nat.le_succ _)⟩

/-- A comment costs the page list at least one page too many. -/
theorem exists_fscanfAll_comment (eofAfterChar : Bool) (hrest : TraceFile rest) (cs : Text) (v : Nat) :
    ∃ w, (fscanfAll eofAfterChar rest w).length
      < (fscanfAll eofAfterChar (61 :: 61 :: cs ++ rest) v).length := by
  have hscan : scanLx (61 :: cs ++ rest) = .matchFailure (61 :: cs ++ rest) :=
    (stops_of_mem (List.mem_cons_self ..) (cs ++ rest)).scanLx_eq
  obtain ⟨w, hw⟩ := exists_fscanfAll_le eofAfterChar hrest.stops _ (61 :: cs) v (le_refl _)
  refine ⟨w, ?_⟩
  rw [show (61 :: 61 :: cs ++ rest : Text) = 61 :: (61 :: cs ++ rest) from rfl,
    fscanfAll_matchFailure hscan]
  exact Nat.lt_succ_of_le hw

theorem TraceFile.length_le (eofAfterChar : Bool) (h : TraceFile content) : ∀ (v : Nat) (a : Access),
    (replayAll content a).length ≤ (fscanfAll eofAfterChar content v).length := by
  induction h with
  | nil => intro v a; exact le_refl _
  | access hc hline hnul haddress hblank hrest ih =>
    intro v a
    have haccess := hrest.accessLine hc hline hnul haddress hblank
    obtain ⟨a', hreplay, -⟩ := haccess.replayAll a
    rw [haccess.fscanfAll, hreplay, hrest.stops.skipSpace_eq, List.length_cons, List.length_cons]
    exact Nat.succ_le_succ (ih _ a')
  | @comment cs rest hline hrest ih =>
    intro v a
    obtain ⟨w, hw⟩ := exists_fscanfAll_comment eofAfterChar hrest cs v
    rw [replayAll_comment hline]
    exact (ih w a).trans hw.le

/-- If the pages are the same, there was no comment and no page number was cut. -/
theorem TraceFile.cleanTrace (h : TraceFile content) : ∀ {v : Nat} {a : Access},
    (fscanfAll eofAfterChar content v).map pageNumber
      = (replayAll content a).map (fun a => pageOf a.vaddr) →
      CleanTrace false (replayAll content a).length content := by
  induction h with
  | nil => intro v a _; exact .nil
  | access hc hline hnul haddress hblank hrest ih =>
    intro v a hEq
    have haccess := hrest.accessLine hc hline hnul haddress hblank
    obtain ⟨a', hreplay, ha'⟩ := haccess.replayAll a
    rw [haccess.fscanfAll, hreplay, hrest.stops.skipSpace_eq, List.map_cons, List.map_cons, ha',
      List.cons.injEq, pageNumber_eq_iff] at hEq
    rw [hreplay, List.length_cons]
    exact .line haccess hEq.1 (ih hEq.2)
  | @comment cs rest hline hrest ih =>
    intro v a hEq
    obtain ⟨w, hw⟩ := exists_fscanfAll_comment eofAfterChar hrest cs v
    have hlen := congrArg List.length hEq
    rw [List.length_map, List.length_map, replayAll_comment hline] at hlen
    have := hrest.length_le eofAfterChar w a
    omega

theorem CleanTrace.start {n : Nat} (h : CleanTrace false n content) : CleanTrace true n content := by
  cases h with
  | nil => exact .nil
  | line hline hv hrest =>
    exact .line ⟨hline.line, hline.notComment, hline.noNul, fun _ => rfl, hline.address, hline.ends,
      hline.blank⟩ hv hrest

end

/-- **Where the readers agree.**  They agree on every clean trace of at most `2 ^ 31` lines, and of
the files the tracing tools write, on these only. -/
theorem trace_readers_agree (u : Unspecified) (content : Text) :
    ((∃ n, n ≤ 2 ^ 31 ∧ CleanTrace true n content) → ReadersAgree u content) ∧
      (TraceFile content →
        (ReadersAgree u content ↔ ∃ n, n ≤ 2 ^ 31 ∧ CleanTrace true n content)) := by
  have hclean : (∃ n, n ≤ 2 ^ 31 ∧ CleanTrace true n content) → ReadersAgree u content :=
    fun ⟨_, hn, h⟩ => readersAgree_of_cleanTrace u hn h
  refine ⟨hclean, fun hfile => ⟨fun h => ?_, hclean⟩⟩
  obtain ⟨hle, hpages⟩ := (readersAgree_iff u content).mp h
  exact ⟨_, hle, (hfile.cleanTrace hpages).start⟩

/-- Two accesses, `S 1000` and `L 2a000`. -/
theorem trace_readers_agree_example :
    ReadersAgree ⟨'?', 77, false⟩
      [83, 32, 49, 48, 48, 48, 10, 76, 32, 50, 97, 48, 48, 48, 10] := by
  have hlast : AccessLine false 76 [32, 50, 97, 48, 48, 48, 10] [] 0x2a000 [10] :=
    ⟨rfl, by decide, by decide, by decide, rfl, rfl, rfl⟩
  have hfirst : AccessLine true 83 [32, 49, 48, 48, 48, 10]
      [76, 32, 50, 97, 48, 48, 48, 10] 0x1000 [10] :=
    ⟨rfl, by decide, by decide, by decide, rfl, rfl, rfl⟩
  exact (trace_readers_agree _ _).1
    ⟨2, by decide, .line hfirst (by decide) (.line hlast (by decide) .nil)⟩

/-- A comment `==1==` in front of the access `S 1000`. -/
def commentedTrace : Text := [61, 61, 49, 61, 61, 10, 83, 32, 49, 48, 48, 48, 10]

theorem commentedTrace_readers_disagree :
    TraceFile commentedTrace ∧ ∀ u : Unspecified,
      replayTrace u commentedTrace = [⟨'S', 0x1000⟩] ∧ ¬ ReadersAgree u commentedTrace := by
  have haccess : TraceFile [83, 32, 49, 48, 48, 48, 10] :=
    @TraceFile.access 83 [32, 49, 48, 48, 48, 10] [] [10] 0x1000 (by simp [typeChars]) rfl
      (by simp) rfl rfl .nil
  have hfile : TraceFile commentedTrace :=
    @TraceFile.comment [49, 61, 61, 10] [83, 32, 49, 48, 48, 48, 10] rfl haccess
  refine ⟨hfile, fun u => ⟨rfl, fun h => ?_⟩⟩
  exact (hfile.cleanTrace ((readersAgree_iff u commentedTrace).mp h).2).head_ne rfl

end Paging
end OsAssignments
