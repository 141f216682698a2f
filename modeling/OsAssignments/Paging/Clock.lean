import OsAssignments.Lib.RingQueue
import OsAssignments.Lib.SecondChance
import OsAssignments.Paging.History

/-!
# The sweep of `clock`

* `isReferenced`, `turnOffReference`, `sweepClockArm`, `clockEvict`, `clockPolicy` — `clock.c`;
  `clockSweep n` is the loop of `clock_evict`, looking at no more than `n` frames.
* `frameSlot` — the coremap as the slots of a ring: a frame in use holds its entry, with the
  `PG_REF` bit.
* `clockSweep_secondChance` — the sweep from the arm on is the search of the second-chance queue.
* `clockSweep_ends` — it looks at no more than `memsize + 1` frames.
-/

namespace OsAssignments
namespace Paging

open MachineWord ByteMemory ExceptSpec RingQueue SecondChance

/-! ## The policy -/

/-- `is_referenced`. -/
def isReferenced (m : Machine) (clockArm : Nat) : Except Fault Bool := do
  let p ← framePte m clockArm
  pure (m.pte p).referenced

/-- `turn_off_reference`. -/
def turnOffReference (m : Machine) (clockArm : Nat) : Except Fault Machine := do
  let p ← framePte m clockArm
  -- an entry can be stored only in a table that was set up
  if (m.pgdir p.dir).isSome then
    .ok (m.setPte p { m.pte p with frame := (m.pte p).frame &&& ~~~pgRef })
  else .error .nullPointer

/-- `sweep_clock_arm`. -/
def sweepClockArm (m : Machine) (clockArm : Nat) : Except Fault Nat :=
  if m.memsize = 0 then .error .divideByZero else .ok ((clockArm + 1) % m.memsize)

/-- The loop of `clock_evict`; `none` if it has not ended after looking at `n` frames. -/
def clockSweep : Nat → Machine → Nat → Except Fault (Option (Machine × Nat))
  | 0, _, _ => .ok none
  | n + 1, m, clockArm => do
    if ← isReferenced m clockArm then
      let m ← turnOffReference m clockArm
      let clockArm ← sweepClockArm m clockArm
      clockSweep n m clockArm
    else pure (some (m, clockArm))

/-- `clock_evict`. -/
def clockEvict (m : Machine) (clockArm : Nat) : Except Fault (Int × Machine × Nat) := do
  match ← clockSweep (m.memsize + 1) m clockArm with
  | none => .error .assertion -- the loop always ends before: `clockSweep_ends`
  | some (m, currentFrame) =>
    let clockArm ← sweepClockArm m currentFrame
    pure ((currentFrame : Int), m, clockArm)

/-- `clock_init`. -/
def clockInit : Nat := 0

/-! ### What the policy leaves -/

theorem Machine.SameButBookkeeping.trans {m₁ m₂ m₃ : Machine} (h : m₁.SameButBookkeeping m₂)
    (h' : m₂.SameButBookkeeping m₃) : m₁.SameButBookkeeping m₃ where
  frame p := (h'.frame p).trans (h.frame p)
  swapOff p := (h'.swapOff p).trans (h.swapOff p)
  opened d := (h'.opened d).trans (h.opened d)
  coremap f := by
    rw [h'.coremap f, h.coremap f]
  rest := by
    rw [h'.rest, h.rest]

/-- Clearing `PG_REF` in an entry. -/
theorem sameButBookkeeping_clearRef {m : Machine} {p : PtePtr}
    (hopen : (m.pgdir p.dir).isSome = true) : m.SameButBookkeeping
      (m.setPte p { m.pte p with frame := (m.pte p).frame &&& ~~~pgRef }) where
  frame q := by
    by_cases hq : q = p
    · rw [hq, Machine.setPte_pte_self, BitVec.and_assoc, BitVec.and_self]
    · rw [Machine.setPte_pte_of_ne _ _ hq]
  swapOff q := by
    by_cases hq : q = p
    · rw [hq, Machine.setPte_pte_self]
    · rw [Machine.setPte_pte_of_ne _ _ hq]
  opened d := by
    by_cases hd : d = p.dir
    · rw [hd, hopen]
      simp [Machine.setPte]
    · simp [Machine.setPte, Function.update_of_ne hd]
  coremap f := rfl
  rest := rfl

theorem clockSweep_same (n : Nat) : ∀ (m : Machine) (clockArm : Nat),
    Meets (fun r => ∀ m' arm', r = some (m', arm') → m.SameButBookkeeping m') AnyFault
      (clockSweep n m clockArm) := by
  induction n with
  | zero => exact fun m clockArm => .ok fun m' arm' h => by cases h
  | succ n ih =>
    intro m clockArm
    rw [clockSweep]
    refine (meets_any (isReferenced m clockArm)).bind fun referenced _ => ?_
    cases referenced with
    | false =>
      refine .ok fun m' arm' h => ?_
      obtain ⟨rfl, rfl⟩ := Prod.mk.inj (Option.some.inj h)
      exact .refl m
    | true =>
      have hoff : Meets (fun m' => m.SameButBookkeeping m') AnyFault
          (turnOffReference m clockArm) := by
        unfold turnOffReference
        exact (meets_any _).bind fun p _ =>
          Meets.ite (fun hopen => .ok (sameButBookkeeping_clearRef hopen)) fun _ => .error trivial
      refine hoff.bind fun m₁ hsame => (meets_any _).bind fun arm₁ _ => ?_
      have hrest := ih m₁ arm₁
      exact ⟨fun r hr m' arm' h => hsame.trans (hrest.of_ok r hr m' arm' h), fun _ _ => trivial⟩

theorem clockEvict_same (m : Machine) (clockArm : Nat) :
    Meets (fun r => m.SameButBookkeeping r.2.1) AnyFault (clockEvict m clockArm) := by
  unfold clockEvict
  refine (clockSweep_same _ m clockArm).bind fun r hr => ?_
  cases r with
  | none => exact .error trivial
  | some r =>
    obtain ⟨m', frame⟩ := r
    exact (meets_any _).bind fun _ _ => .ok (hr m' frame rfl)

/-- The entry of `algs` for `clock`. -/
def clockPolicy : Policy Nat where
  ref _ m clockArm := .ok (m, clockArm)
  evict := clockEvict
  ref_same h := by
    obtain ⟨rfl, -⟩ := Prod.mk.inj (Except.ok.inj h)
    exact .refl _
  evict_same h := (clockEvict_same _ _).of_ok _ h

/-! ## The coremap as a ring -/

/-- What the frame `f` holds: the entry of its page, and whether that has `PG_REF`. -/
def frameSlot (m : Machine) (f : Nat) : Option (PtePtr × Bool) :=
  if (m.coremap f).inUse then (m.coremap f).pte.map fun p => (p, (m.pte p).referenced) else none

section

variable {m m' : Machine} {p : PtePtr} {bit : Bool} {f clockArm : Nat}

theorem frameSlot_some : frameSlot m f = some (p, bit) ↔
    (m.coremap f).inUse = true ∧ (m.coremap f).pte = some p ∧ (m.pte p).referenced = bit := by
  unfold frameSlot
  cases hu : (m.coremap f).inUse with
  | false => simp
  | true =>
    cases hp : (m.coremap f).pte with
    | none => simp
    | some q =>
      simp only [if_true, Option.map_some, Option.some.injEq, Prod.mk.injEq, true_and]
      constructor
      · rintro ⟨rfl, hbit⟩
        exact ⟨rfl, hbit⟩
      · rintro ⟨rfl, hbit⟩
        exact ⟨rfl, hbit⟩

/-- A frame without a page is free. -/
theorem Owners.frameSlot_none (h : Owners m) (hf : f < m.memsize) :
    frameSlot m f = none ↔ (m.coremap f).inUse = false := by
  unfold frameSlot
  cases hu : (m.coremap f).inUse with
  | false => simp
  | true =>
    obtain ⟨q, hq, -, -⟩ := h.coremap_pte hf hu
    simp [hq]

/-- A frame holds what it held if its row and the bit of its owner are as they were. -/
theorem frameSlot_congr (hu : (m'.coremap f).inUse = (m.coremap f).inUse)
    (hpte : (m'.coremap f).pte = (m.coremap f).pte)
    (hbit : ∀ p, (m.coremap f).inUse = true → (m.coremap f).pte = some p →
      (m'.pte p).referenced = (m.pte p).referenced) : frameSlot m' f = frameSlot m f := by
  unfold frameSlot
  rw [hu, hpte]
  cases hin : (m.coremap f).inUse with
  | false => rfl
  | true =>
    cases hp : (m.coremap f).pte with
    | none => rfl
    | some p => simp only [Option.map_some, if_true, hbit p hin hp]

/-- The owner of another frame is another entry. -/
theorem Owners.ne_of_ne (h : Owners m) {g : Nat} {q : PtePtr} (hf : f < m.memsize)
    (hg : g < m.memsize) (huf : (m.coremap f).inUse = true) (hug : (m.coremap g).inUse = true)
    (hp : (m.coremap f).pte = some p) (hq : (m.coremap g).pte = some q) (hne : f ≠ g) : p ≠ q := by
  rintro rfl
  obtain ⟨p₁, hp₁, -, hf₁⟩ := h.coremap_pte hf huf
  obtain ⟨p₂, hp₂, -, hg₂⟩ := h.coremap_pte hg hug
  rw [hp] at hp₁
  rw [hq] at hp₂
  obtain rfl := Option.some.inj hp₁
  obtain rfl := Option.some.inj hp₂
  exact hne (hf₁.symm.trans hg₂)

/-! ## The sweep -/

/-- What `is_referenced` reads. -/
theorem isReferenced_ok (hlt : clockArm < m.memsize) (hslot : frameSlot m clockArm = some (p, bit)) :
    isReferenced m clockArm = .ok bit := by
  obtain ⟨-, hp, hbit⟩ := frameSlot_some.mp hslot
  rw [isReferenced, framePte, if_pos hlt, hp, ← hbit]
  rfl

/-- A valid entry is in a table that was set up. -/
theorem isSome_of_valid (hv : (m.pte p).valid = true) : (m.pgdir p.dir).isSome = true := by
  unfold Machine.pte at hv
  cases hdir : m.pgdir p.dir with
  | none =>
    rw [hdir, Pte.fresh_valid] at hv
    cases hv
  | some table => rfl

/-- **`turn_off_reference`** clears the bit of the frame under the arm. -/
theorem turnOffReference_ok (h : Owners m) (hlt : clockArm < m.memsize)
    (hslot : frameSlot m clockArm = some (p, bit)) :
    ∃ m', turnOffReference m clockArm = .ok m' ∧ m.SameView m' ∧
      ∀ f, f < m.memsize → frameSlot m' f =
        Function.update (frameSlot m) clockArm (some (p, false)) f := by
  obtain ⟨hu, hp, -⟩ := frameSlot_some.mp hslot
  obtain ⟨p', hp', hv, -⟩ := h.coremap_pte hlt hu
  rw [hp] at hp'
  obtain rfl := Option.some.inj hp'
  have hopen := isSome_of_valid hv
  refine ⟨_, ?_, (sameButBookkeeping_clearRef hopen).sameView, fun f hf => ?_⟩
  · have harm : framePte m clockArm = .ok p := by rw [framePte, if_pos hlt, hp]
    rw [turnOffReference, bind_of_ok harm]
    exact if_pos hopen
  · by_cases hfa : f = clockArm
    · subst hfa
      rw [Function.update_self, frameSlot_some]
      refine ⟨hu, hp, ?_⟩
      rw [Machine.setPte_pte_self]
      exact hasFlag_clear_self _ _
    · rw [Function.update_of_ne hfa]
      refine frameSlot_congr rfl rfl fun q huq hq => ?_
      rw [Machine.setPte_pte_of_ne _ _ (h.ne_of_ne hf hlt huq hu hq hp hfa)]

/-- In full memory, the coremap from the arm on is the queue. -/
structure ClockRound (m : Machine) (clockArm : Nat) (queue : List (PtePtr × Bool)) : Prop where
  holds : InRing m.memsize none (frameSlot m) clockArm clockArm (queue.map some)
  full : queue.length = m.memsize

/-- The arm is at the head. -/
theorem ClockRound.head {queue : List (PtePtr × Bool)} (h : ClockRound m clockArm ((p, bit) :: queue)) :
    clockArm < m.memsize ∧ frameSlot m clockArm = some (p, bit) :=
  ⟨h.holds.front_lt, h.holds.head⟩

/-- **The sweep is the search of the queue.** -/
theorem clockSweep_secondChance (n : Nat) :
    ∀ {m : Machine} {clockArm : Nat} {queue rest : List (PtePtr × Bool)} {v : PtePtr},
      Owners m → ClockRound m clockArm queue → secondChance n queue = some (v, rest) →
      ∃ m' arm', clockSweep n m clockArm = .ok (some (m', arm')) ∧ m.SameView m' ∧
        ClockRound m' arm' ((v, false) :: rest) := by
  induction n with
  | zero => exact fun _ _ h => by cases h
  | succ n ih =>
    intro m clockArm queue rest v hO hround hfound
    cases queue with
    | nil => cases hfound
    | cons x queue =>
      obtain ⟨p, bit⟩ := x
      obtain ⟨hlt, hslot⟩ := hround.head
      have hreferenced := isReferenced_ok hlt hslot
      rw [clockSweep, bind_of_ok hreferenced]
      cases bit with
      | false =>
        obtain ⟨rfl, rfl⟩ := Prod.mk.inj (Option.some.inj hfound)
        exact ⟨m, clockArm, rfl, .refl m, hround⟩
      | true =>
        obtain ⟨m₁, hoff, hview, hslots⟩ := turnOffReference_ok hO hlt hslot
        have hpos : m₁.memsize ≠ 0 := by rw [hview.memsize]; omega
        have hsweep : sweepClockArm m₁ clockArm = .ok ((clockArm + 1) % m.memsize) := by
          rw [sweepClockArm, if_neg hpos, hview.memsize]
        have hround₁ : ClockRound m₁ ((clockArm + 1) % m.memsize) (queue ++ [(p, false)]) := by
          have hrotate := hround.holds.rotate (y := some (p, false))
            (by rw [List.length_map]; exact hround.full) (by simp)
          constructor
          · rw [hview.memsize, List.map_append]
            exact hrotate.congr hslots
          · rw [hview.memsize, ← hround.full, List.length_append, List.length_singleton,
              List.length_cons]
        obtain ⟨m', arm', hrun, hview', hround'⟩ := ih (hO.of_sameView hview) hround₁ hfound
        refine ⟨m', arm', ?_, hview.trans hview', hround'⟩
        rw [if_pos rfl, bind_of_ok hoff, bind_of_ok hsweep]
        exact hrun

/-- A sweep that has ended has ended. -/
theorem clockSweep_mono {n k : Nat} (hle : n ≤ k) {r : Machine × Nat} :
    ∀ {m : Machine} {clockArm : Nat}, clockSweep n m clockArm = .ok (some r) →
      clockSweep k m clockArm = .ok (some r) := by
  induction n generalizing k with
  | zero => exact fun h => by cases h
  | succ n ih =>
    intro m clockArm h
    obtain ⟨k, rfl⟩ : ∃ k', k = k' + 1 := ⟨k - 1, by omega⟩
    rw [clockSweep] at h ⊢
    cases href : isReferenced m clockArm with
    | error e =>
      rw [href] at h
      cases h
    | ok referenced =>
      rw [bind_of_ok href] at h
      rw [bind_of_ok rfl]
      cases referenced with
      | false => exact h
      | true =>
        rw [if_pos rfl] at h ⊢
        cases hoff : turnOffReference m clockArm with
        | error e =>
          rw [hoff] at h
          cases h
        | ok m₁ =>
          rw [bind_of_ok hoff] at h
          rw [bind_of_ok rfl]
          cases hsweep : sweepClockArm m₁ clockArm with
          | error e =>
            rw [hsweep] at h
            cases h
          | ok arm₁ =>
            rw [bind_of_ok hsweep] at h
            rw [bind_of_ok rfl]
            exact ih (Nat.le_of_succ_le_succ hle) h

/-- **`clock_evict` looks at no more than `memsize + 1` frames**, and finds the victim of the
queue. -/
theorem clockSweep_ends {queue : List (PtePtr × Bool)} (hO : Owners m)
    (hround : ClockRound m clockArm queue) :
    ∃ v rest m' arm', secondChance (queue.length + 1) queue = some (v, rest) ∧
      (∀ n, m.memsize + 1 ≤ n → clockSweep n m clockArm = .ok (some (m', arm'))) ∧
      m.SameView m' ∧ ClockRound m' arm' ((v, false) :: rest) := by
  have hne : queue ≠ [] := by
    rintro rfl
    have hlt := hround.holds.front_lt
    rw [← hround.full] at hlt
    exact absurd hlt (Nat.not_lt_zero _)
  obtain ⟨⟨v, rest⟩, hfound⟩ := secondChance_ends queue hne
  obtain ⟨m', arm', hrun, hview, hround'⟩ := clockSweep_secondChance _ hO hround hfound
  refine ⟨v, rest, m', arm', hfound, fun n hn => ?_, hview, hround'⟩
  rw [hround.full] at hrun
  exact clockSweep_mono hn hrun

/-- **`clock_evict`** returns the frame of the victim, and moves the arm past it. -/
theorem clockEvict_ok {queue : List (PtePtr × Bool)} (hO : Owners m)
    (hround : ClockRound m clockArm queue) :
    ∃ (v : PtePtr) (rest : List (PtePtr × Bool)) (m' : Machine) (f : Nat),
      secondChance (queue.length + 1) queue = some (v, rest) ∧
      clockEvict m clockArm = .ok ((f : Int), m', (f + 1) % m.memsize) ∧ m.SameView m' ∧
      ClockRound m' f ((v, false) :: rest) := by
  obtain ⟨v, rest, m', f, hfound, hends, hview, hround'⟩ := clockSweep_ends hO hround
  refine ⟨v, rest, m', f, hfound, ?_, hview, hround'⟩
  have hpos : m'.memsize ≠ 0 := by
    have hlt := hround'.holds.front_lt
    omega
  have hsweep : sweepClockArm m' f = .ok ((f + 1) % m.memsize) := by
    rw [sweepClockArm, if_neg hpos, hview.memsize]
  rw [clockEvict, bind_of_ok (hends _ (le_refl _))]
  dsimp only
  rw [bind_of_ok hsweep]
  rfl

end

end Paging
end OsAssignments
