import OsAssignments.Ext2.DirUpdate

/-!
# Slack in a block of the ext2 format

The ext2 format pads a `rec_len` to the next multiple of 4, which may leave nothing behind
the name.  `total_entry_length` always adds at least one byte of padding, so it asks for
4 bytes too many if the name fills its entry exactly.

* `Filled` — in a block of the ext2 format, an entry that its name fills exactly;
  `TiledAs.hit_iff` — at these and at those with room the slack computed is enough.
* `TiledAs.refuses_iff` — the blocks that refuse a name.
* `visited` — the entries the loop of `make_entry_in_existing_block` looks at.
* `SlackSound` — at each of them the slack is the true difference, and a new entry is not
  laid over the bytes of another one.
* `slackSound_iff` — this holds exactly if every entry filled by its name is preceded by
  an entry with room.
-/

namespace OsAssignments
namespace Ext2

open ByteMemory MachineWord RecordTiling

/-! ## The slack of one entry -/

/-- The name fills its entry exactly. -/
structure Filled (mem : Memory) (entry : Nat) : Prop where
  aligned : 4 ∣ entryNameLen mem entry
  recLen : entryRecLen mem entry = 8 + entryNameLen mem entry

/-- The header and a name of length `n`, with one to four bytes of padding. -/
def paddedLen (n : Nat) : Nat := (n + 12) / 4 * 4

/-- An entry with room behind its padded name for another one of length `n`. -/
def HasRoom (mem : Memory) (entry n : Nat) : Prop :=
  paddedLen (entryNameLen mem entry) + paddedLen n ≤ entryRecLen mem entry

/-- The minimal length exceeds `rec_len` at the filled entries only. -/
theorem EntryFits.minRecLen_le_iff {pad : Bool} {mem : Memory} {e : Nat} (h : EntryFits pad mem e) :
    minRecLen mem e ≤ entryRecLen mem e ↔ ¬ Filled mem e := by
  have hal := h.aligned
  have hroom := h.room
  rw [minRecLen_eq]
  constructor
  · rintro hle ⟨hn, hrec⟩
    omega
  · intro hnot
    by_contra hlt
    exact hnot ⟨by omega, by omega⟩

/-- At a filled entry the unsigned difference wraps to `2^16 - 4`. -/
theorem Filled.spaceLeft_eq {mem : Memory} {e : Nat} (h : Filled mem e) :
    spaceLeft mem e = 65532 := by
  have hn := h.aligned
  have hlt := entryNameLen_lt mem e
  rw [spaceLeft, h.recLen, minRecLen_eq, wrap]
  omega

/-- The slack computed is enough at the filled entries and at those with room. -/
theorem TiledAs.hit_iff {pad : Bool} {mem : Memory} {start e n : Nat} (hT : TiledAs pad mem start)
    (he : e ∈ blockEntries mem start) (hn : n < 256) :
    spaceLeft mem e ≥ totalEntryLength n ↔ Filled mem e ∨ HasRoom mem e n := by
  have hiff := (hT.fits he).minRecLen_le_iff
  have hmin : minRecLen mem e = paddedLen (entryNameLen mem e) := minRecLen_eq mem e
  have hneed : totalEntryLength n = paddedLen n := totalEntryLength_eq hn
  have hpad : 0 < paddedLen n ∧ paddedLen n ≤ 264 := by
    rw [paddedLen]
    omega
  rw [HasRoom, ← hmin, hneed]
  by_cases hf : Filled mem e
  · rw [hf.spaceLeft_eq]
    simp only [hf, true_or, iff_true]
    omega
  · have hle := hiff.mpr hf
    rw [spaceLeft_of_le hle]
    simp only [hf, false_or]
    omega

/-- A filled entry has no room. -/
theorem Filled.not_hasRoom {mem : Memory} {e n : Nat} (h : Filled mem e) : ¬ HasRoom mem e n := by
  intro hroom
  have hn := h.aligned
  rw [HasRoom, h.recLen, paddedLen, paddedLen] at hroom
  omega

/-- An entry that takes a new one of length `n`: it has room, or it is filled by its name and another
entry lies behind it, where the wrapped slack puts the new one. -/
def Accepts (mem : Memory) (start entry n : Nat) : Prop :=
  HasRoom mem entry n ∨
    Filled mem entry ∧ entry + entryRecLen mem entry < start + ext2BlockSize

/-- Behind an entry that is not the last one there is the header of another. -/
theorem TiledAs.lt_end {pad : Bool} {mem : Memory} {start e : Nat} (hT : TiledAs pad mem start)
    (he : e ∈ blockEntries mem start) (hlt : e + entryRecLen mem e < start + ext2BlockSize) :
    e + entryRecLen mem e + 8 ≤ start + ext2BlockSize := by
  obtain ⟨l₁, l₂, hsplit⟩ := List.append_of_mem he
  rw [TiledAs, hsplit] at hT
  obtain ⟨_, -, rfl, -, -, ht₂⟩ := tiles_append.mp hT
  cases l₂ with
  | nil =>
    rw [tiles_nil] at ht₂
    omega
  | cons f l₂ =>
    obtain ⟨rfl, -, hfit, ht₃⟩ := ht₂
    have hroom := hfit.room
    have hle := ht₃.le
    omega

/-- The place behind an entry with enough slack is in the block exactly if the entry takes the new
one. -/
theorem TiledAs.isEntryInBlock_iff {pad : Bool} {mem : Memory} {start cur n : Nat}
    (hT : TiledAs pad mem start) (hcur : cur ∈ blockEntries mem start)
    (hhit : Filled mem cur ∨ HasRoom mem cur n) :
    isEntryInBlock start (cur + minRecLen mem cur) = true ↔ Accepts mem start cur n := by
  have hmin : minRecLen mem cur = paddedLen (entryNameLen mem cur) := minRecLen_eq mem cur
  obtain ⟨hlo, hhi, -⟩ := hT.bounds hcur
  rw [isEntryInBlock, decide_eq_true_iff, Accepts]
  rcases hhit with hf | hr
  · have hal := hf.aligned
    have hrec := hf.recLen
    have hend := hT.lt_end hcur
    rw [paddedLen] at hmin
    simp only [hf.not_hasRoom, hf, true_and, false_or]
    omega
  · refine iff_of_true ?_ (.inl hr)
    have hpos : 0 < paddedLen n := by
      rw [paddedLen]
      omega
    rw [HasRoom, ← hmin] at hr
    omega

/-- **A block refuses a name** exactly if no entry takes the bytes of it that are stored. -/
theorem TiledAs.refuses_iff {pad : Bool} {mem : Memory} {start : Nat} (hT : TiledAs pad mem start)
    {inode fileType : Nat} {name : CString} :
    (makeEntryInExistingBlock mem start inode name fileType).1 = none ↔
      ∀ e ∈ blockEntries mem start, ¬ Accepts mem start e (wrap 8 name.length) := by
  have hhit : ∀ e ∈ blockEntries mem start,
      decide (spaceLeft mem e ≥ totalEntryLength (wrap 8 name.length)) = true ↔
        Filled mem e ∨ HasRoom mem e (wrap 8 name.length) := fun e he => by
    rw [decide_eq_true_iff]
    exact hT.hit_iff he (wrap_length_lt name)
  have hof : ∀ {e}, Accepts mem start e (wrap 8 name.length) →
      Filled mem e ∨ HasRoom mem e (wrap 8 name.length) := fun hacc => hacc.symm.imp_left And.left
  rw [makeEntryInExistingBlock]
  split
  · rename_i hfind
    refine iff_of_true rfl fun e he hacc => ?_
    exact List.find?_eq_none.mp hfind e he ((hhit e he).mpr (hof hacc))
  · rename_i cur hfind
    have hcur := List.mem_of_find?_eq_some hfind
    obtain ⟨hcurHit, l₁, l₂, hsplit, hbefore⟩ := List.find?_eq_some_iff_append.mp hfind
    have hin := hT.isEntryInBlock_iff hcur ((hhit cur hcur).mp hcurHit)
    dsimp only [getShiftedDirEntry]
    split
    · rename_i hplace
      exact iff_of_false (by simp) fun hall => hall cur hcur (hin.mp hplace)
    · rename_i hplace
      refine iff_of_true rfl fun e he hacc => ?_
      -- the entry found is the last one of the block, and those in front of it have no slack
      have hlast : start + ext2BlockSize ≤ cur + entryRecLen mem cur := by
        by_contra hlt
        have hnot := mt hin.mpr hplace
        rw [Accepts, not_or] at hnot
        exact hnot.2 ⟨((hhit cur hcur).mp hcurHit).resolve_right hnot.1, by omega⟩
      have hehit := (hhit e he).mpr (hof hacc)
      rw [hsplit, List.mem_append, List.mem_cons] at he
      rcases he with he | rfl | he
      · have := hbefore e he
        rw [hehit] at this
        cases this
      · exact hplace (hin.mpr hacc)
      · rw [TiledAs, hsplit] at hT
        obtain ⟨_, -, rfl, -, -, ht₂⟩ := tiles_append.mp hT
        obtain ⟨hlo, hhi, hpos, -⟩ := ht₂.of_mem he
        omega

/-! ## The loop -/

/-- The elements a search for the first `p` looks at: all up to the first `p` included. -/
def visited {α : Type} (p : α → Bool) : List α → List α
  | [] => []
  | a :: l => if p a then [a] else a :: visited p l

theorem mem_of_mem_visited {α : Type} {p : α → Bool} {l : List α} {a : α}
    (h : a ∈ visited p l) : a ∈ l := by
  induction l with
  | nil => simp [visited] at h
  | cons b l ih =>
    rw [visited] at h
    split at h
    · simp_all
    · rcases List.mem_cons.mp h with rfl | h
      · simp
      · exact List.mem_cons_of_mem _ (ih h)

theorem mem_visited_of_find {α : Type} {p : α → Bool} {l : List α} {a : α}
    (h : l.find? p = some a) : a ∈ visited p l := by
  induction l with
  | nil => simp at h
  | cons b l ih =>
    rw [visited]
    cases hb : p b with
    | true => simp_all
    | false =>
      rw [List.find?_cons_of_neg (by simp [hb])] at h
      simpa using .inr (ih h)

/-- If the hits of a search are the bad elements and some others, the search looks at no bad
one exactly if each bad one comes behind another hit. -/
theorem visited_avoids_iff {α : Type} {p : α → Bool} {bad hit : α → Prop} {l : List α}
    (hp : ∀ a ∈ l, p a = true ↔ bad a ∨ hit a) (hdisj : ∀ a ∈ l, bad a → ¬ hit a) :
    (∀ a ∈ visited p l, ¬ bad a) ↔ ∀ l₁ a l₂, l = l₁ ++ a :: l₂ → bad a → ∃ b ∈ l₁, hit b := by
  induction l with
  | nil => simp [visited]
  | cons b l ih =>
    have ih := ih (fun a ha => hp a (by simp [ha])) fun a ha => hdisj a (by simp [ha])
    have hb := hp b (by simp)
    rw [visited]
    split
    · rename_i hpb
      constructor
      · rintro hgood l₁ a l₂ hl hbad
        have hhit : hit b := (hb.mp hpb).resolve_left (hgood b (by simp))
        cases l₁ with
        | nil =>
          obtain ⟨rfl, -⟩ := List.cons.inj hl
          exact absurd hbad (hgood b (by simp))
        | cons c l₁ =>
          obtain ⟨rfl, -⟩ := List.cons.inj hl
          exact ⟨b, by simp, hhit⟩
      · rintro hcond a ha hbad
        obtain rfl : a = b := by simpa using ha
        simpa using hcond [] a l rfl hbad
    · rename_i hpb
      rw [hb, not_or] at hpb
      rw [List.forall_mem_cons, ih]
      constructor
      · rintro ⟨hgood, hrest⟩ l₁ a l₂ hl hbad
        cases l₁ with
        | nil =>
          obtain ⟨rfl, -⟩ := List.cons.inj hl
          exact absurd hbad hgood
        | cons c l₁ =>
          obtain ⟨rfl, rfl⟩ := List.cons.inj hl
          obtain ⟨d, hd, hhit⟩ := hrest l₁ a l₂ rfl hbad
          exact ⟨d, by simp [hd], hhit⟩
      · intro hcond
        refine ⟨hpb.1, fun l₁ a l₂ hl hbad => ?_⟩
        obtain ⟨d, hd, hhit⟩ := hcond (b :: l₁) a l₂ (by simp [hl]) hbad
        rcases List.mem_cons.mp hd with rfl | hd
        · exact absurd hhit hpb.2
        · exact ⟨d, hd, hhit⟩

/-- The entries at which `make_entry_in_existing_block` computes a slack. -/
def visitedEntries (mem : Memory) (start : Nat) (name : CString) : List Nat :=
  visited (fun cur => decide (spaceLeft mem cur ≥ totalEntryLength (wrap 8 name.length)))
    (blockEntries mem start)

/-! ## The slack computed -/

/-- No slack computed for the new entry wraps, and the new entry is laid over no byte in use. -/
structure SlackSound (mem : Memory) (start inode : Nat) (name : CString) (fileType : Nat) :
    Prop where
  min_le : ∀ e ∈ visitedEntries mem start name, minRecLen mem e ≤ entryRecLen mem e
  slack : ∀ e ∈ visitedEntries mem start name,
    (spaceLeft mem e : Int) = entryRecLen mem e - minRecLen mem e
  apart : ∀ ret mem', makeEntryInExistingBlock mem start inode name fileType = (some ret, mem') →
    ∀ e ∈ blockEntries mem start,
      e + 8 + entryNameLen mem e ≤ ret ∨ ret + entryRecLen mem' ret ≤ e

/-- An entry cut behind its name leaves its own bytes and those of all others alone. -/
theorem TiledAs.apart {pad : Bool} {mem : Memory} {start cur : Nat} (h : TiledAs pad mem start)
    (hcur : cur ∈ blockEntries mem start) (hroom : minRecLen mem cur ≤ entryRecLen mem cur)
    {e : Nat} (he : e ∈ blockEntries mem start) :
    e + 8 + entryNameLen mem e ≤ cur + minRecLen mem cur ∨ cur + entryRecLen mem cur ≤ e := by
  have hmin := minRecLen_eq mem cur
  obtain ⟨l₁, l₂, hsplit⟩ := List.append_of_mem hcur
  have hfits := (h.fits he).room
  rw [TiledAs, hsplit] at h
  obtain ⟨mid, ht₁, rfl, -, -, ht₂⟩ := tiles_append.mp h
  rw [hsplit, List.mem_append, List.mem_cons] at he
  rcases he with he | rfl | he
  · have := (ht₁.of_mem he).2.1
    omega
  · omega
  · have := (ht₂.of_mem he).1
    omega

/-- The search stops at an entry it looks at, and the new entry gets the rest of its bytes. -/
theorem makeEntryInExistingBlock_visited {mem mem' : Memory} {start inode fileType ret : Nat}
    {name : CString} (h : makeEntryInExistingBlock mem start inode name fileType = (some ret, mem')) :
    ∃ cur ∈ visitedEntries mem start name, ret = cur + minRecLen mem cur ∧
      entryRecLen mem' ret = spaceLeft mem cur := by
  rw [makeEntryInExistingBlock] at h
  split at h
  · simp at h
  · rename_i cur hfind
    dsimp only at h
    split at h
    · obtain ⟨hret, hmem'⟩ := Prod.mk.inj h
      refine ⟨cur, mem_visited_of_find hfind, (Option.some.inj hret).symm, ?_⟩
      have hmin := minRecLen_eq mem cur
      have hlt := entryNameLen_lt mem cur
      have hcut : entryRecLen (setEntryRecLen mem cur (minRecLen mem cur)) cur
          = minRecLen mem cur :=
        readLE_writeLE_of_lt mem (cur + 4) (by omega)
      rw [← hmem', ← Option.some.inj hret, entryRecLen_fillEntry, hcut]
      exact Nat.mod_eq_of_lt (wrap_lt 16 _)
    · simp at h

/-- **Where the slack is right.**  In a block of the ext2 format, the slack computed for a
new name is right at every entry visited, and the new entry is laid over no other, exactly
if in front of every entry filled by its name there is an entry with room. -/
theorem slackSound_iff {mem : Memory} {start : Nat} (hT : FormatTiled mem start) (inode : Nat)
    {name : CString} (hname : 1 ≤ name.length ∧ name.length ≤ 255) (fileType : Nat) :
    SlackSound mem start inode name fileType ↔
      ∀ l₁ e l₂, blockEntries mem start = l₁ ++ e :: l₂ → Filled mem e →
        ∃ e' ∈ l₁, HasRoom mem e' name.length := by
  have hlen : wrap 8 (name.length : Int) = name.length := by
    rw [wrap_length]
    omega
  have hhit : ∀ e ∈ blockEntries mem start,
      decide (spaceLeft mem e ≥ totalEntryLength (wrap 8 name.length)) = true ↔
        Filled mem e ∨ HasRoom mem e name.length := by
    intro e he
    rw [decide_eq_true_iff, hlen]
    exact hT.hit_iff he (by omega)
  rw [← visited_avoids_iff hhit fun e _ hf => hf.not_hasRoom]
  constructor
  · intro h e he
    exact (hT.fits (mem_of_mem_visited he)).minRecLen_le_iff.mp (h.min_le e he)
  · intro hgood
    have hmin : ∀ e ∈ visitedEntries mem start name, minRecLen mem e ≤ entryRecLen mem e :=
      fun e he => (hT.fits (mem_of_mem_visited he)).minRecLen_le_iff.mpr (hgood e he)
    refine ⟨hmin, fun e he => ?_, fun ret mem' hret e he => ?_⟩
    · have := hmin e he
      rw [spaceLeft_of_le this]
      omega
    · obtain ⟨cur, hcur, rfl, hrec⟩ := makeEntryInExistingBlock_visited hret
      have hle := hmin cur hcur
      have hapart := hT.apart (mem_of_mem_visited hcur) hle he
      rw [hrec, spaceLeft_of_le hle]
      omega

/-- A block whose first entry, `abcd`, fills its 12 bytes; the second one is `z`. -/
def filledBlock : Memory :=
  fillEntry (fillEntry (fun _ => 0) 0 12 12 1 4 [97, 98, 99, 100]) 12 13 1012 1 1 [122]

theorem formatTiled_filledBlock :
    blockEntries filledBlock 0 = [0, 12] ∧ FormatTiled filledBlock 0 := by
  have ht : TiledBy false filledBlock 0 [0, 12] :=
    ⟨rfl, by decide, by decide, by decide, by decide, by decide, by rw [tiles_nil]; decide⟩
  exact ⟨ht.blockEntries_eq, ht.tiled⟩

/-- **The slack can wrap.**  The new entry `w` is laid over the entry `z` of the block. -/
theorem filledBlock_not_slackSound :
    FormatTiled filledBlock 0 ∧
      (∀ e ∈ blockEntries filledBlock 0, entryName filledBlock e ≠ [119]) ∧
      ¬ SlackSound filledBlock 0 14 [119] 1 ∧
      ∃ mem', makeEntryInExistingBlock filledBlock 0 14 [119] 1 = (some 16, mem') := by
  obtain ⟨hes, htiled⟩ := formatTiled_filledBlock
  refine ⟨htiled, ?_, fun h => ?_, ?_⟩
  · rw [hes]
    decide
  · have hmem : 0 ∈ visitedEntries filledBlock 0 [119] := by
      rw [visitedEntries, hes]
      decide
    have := h.min_le 0 hmem
    revert this
    decide
  · rw [makeEntryInExistingBlock, hes]
    exact ⟨_, rfl⟩

/-- A single entry `abc` with room behind it: the slack for `w` is right. -/
theorem slackSound_example :
    SlackSound (fillEntry (fun _ => 0) 0 12 1024 1 3 [97, 98, 99]) 0 14 [119] 1 := by
  have ht : TiledBy false (fillEntry (fun _ => 0) 0 12 1024 1 3 [97, 98, 99]) 0 [0] :=
    ⟨rfl, by decide, by decide, by rw [tiles_nil]; decide⟩
  refine (slackSound_iff ht.tiled 14 (by decide) 1).mpr fun l₁ e l₂ hl hf => ?_
  obtain ⟨rfl, rfl⟩ : e = 0 ∧ l₁ = [] := by
    rw [ht.blockEntries_eq] at hl
    cases l₁ with
    | nil => exact ⟨(List.cons.inj hl).1.symm, rfl⟩
    | cons b l₁ => simp at hl
  exact absurd hf.aligned (by decide)

end Ext2
end OsAssignments
