import OsAssignments.Ext2.DirBlock

/-!
# Insertion, lookup and removal in a directory block

What the three functions on one directory block do to a tiled block.

* `CutsSlack` — the slack of the entry that `make_entry_in_existing_block` cuts is a true one; in
  a block padded as the program pads it, it always is.
* `CutsSlack.insertion` — then the entry is cut at the end of its name (`Cut`), and the rest of its
  bytes becomes the new entry.
* `matchingPairFrom_some` — `block_matching_pair` finds the first entry of a name and
  the one before it.
* `TiledAs.removal` — the removal of `delete_child_entry` takes away the entry found: the
  first one of a block stays as a tombstone without a name, any other is swallowed by
  its predecessor.

An insertion and a removal keep the tiling, every other binding and every byte outside
the block.
-/

namespace OsAssignments
namespace Ext2

open ByteMemory MachineWord RecordTiling

/-! ## Insertion -/

theorem entryBinding_congr {mem mem' : Memory} {e : Nat} (hino : AgreeOn mem mem' e 4)
    (hrest : AgreeOn mem mem' (e + 6) (2 + entryNameLen mem e)) :
    entryBinding mem' e = entryBinding mem e := by
  have hlen : entryNameLen mem' e = entryNameLen mem e :=
    (hrest.mono (by omega) (by omega)).readLE
  have hname : entryName mem' e = entryName mem e := by
    rw [entryName, entryName, hlen]
    exact (hrest.mono (by omega) (by omega)).readBytes
  have hinode : entryInode mem' e = entryInode mem e := hino.readLE
  have htype : entryFileType mem' e = entryFileType mem e :=
    (hrest.mono (by omega) (by omega)).readLE
  rw [entryBinding, entryBinding, hname, hinode, htype]

/-- A refused insertion writes nothing. -/
theorem makeEntryInExistingBlock_none {mem : Memory} {start inode fileType : Nat} {name : CString}
    (h : (makeEntryInExistingBlock mem start inode name fileType).1 = none) :
    (makeEntryInExistingBlock mem start inode name fileType).2 = mem := by
  revert h
  rw [makeEntryInExistingBlock]
  split
  · simp
  · dsimp only
    split <;> simp

/-- The first entry with enough slack, as `make_entry_in_existing_block` computes it. -/
def cutEntry (mem : Memory) (start : Nat) (name : CString) : Option Nat :=
  (blockEntries mem start).find? fun cur =>
    decide (spaceLeft mem cur ≥ totalEntryLength (wrap 8 name.length))

theorem mem_of_cutEntry {mem : Memory} {start cur : Nat} {name : CString}
    (h : cutEntry mem start name = some cur) : cur ∈ blockEntries mem start :=
  List.mem_of_find?_eq_some h

/-- An insertion cuts the first entry with enough slack, at the end of its name. -/
theorem makeEntryInExistingBlock_some {mem mem' : Memory} {start inode fileType ret : Nat}
    {name : CString} (h : makeEntryInExistingBlock mem start inode name fileType = (some ret, mem')) :
    ∃ cur, cutEntry mem start name = some cur ∧
      totalEntryLength (wrap 8 name.length) ≤ spaceLeft mem cur ∧
      ret = cur + minRecLen mem cur ∧ isEntryInBlock start ret = true ∧
      mem' = fillEntry (setEntryRecLen mem cur (minRecLen mem cur)) ret inode (spaceLeft mem cur)
        fileType (wrap 8 name.length) (name.take (wrap 8 name.length)) := by
  rw [makeEntryInExistingBlock] at h
  split at h
  · simp at h
  · rename_i cur hfind
    dsimp only at h
    split at h
    · rename_i hin
      have hspace : totalEntryLength (wrap 8 name.length) ≤ spaceLeft mem cur := by
        simpa using List.find?_some hfind
      have hcut : entryRecLen (setEntryRecLen mem cur (minRecLen mem cur)) cur
          = minRecLen mem cur := by
        have hlt := entryNameLen_lt mem cur
        have := minRecLen_eq mem cur
        exact readLE_writeLE_of_lt mem (cur + 4) (by omega)
      obtain ⟨hret, hmem'⟩ := Prod.mk.inj h
      refine ⟨cur, hfind, hspace, (Option.some.inj hret).symm, ?_, ?_⟩
      · rw [← Option.some.inj hret]
        exact hin
      · rw [← hmem', ← Option.some.inj hret, hcut]
        rfl
    · simp at h

/-- The binding a caller asks for, as the fields of an entry hold it. -/
def storedBinding (inode fileType : Nat) (name : CString) : CString × Nat × Nat :=
  (name.take (wrap 8 name.length), inode % 2 ^ 32, fileType % 2 ^ 8)

/-- The entry `cur` is cut at the end of its name and the rest of its bytes becomes an
entry that holds `binding`. -/
structure Cut (mem mem' : Memory) (cur : Nat) (binding : CString × Nat × Nat) : Prop where
  room : totalEntryLength binding.1.length ≤ entryRecLen mem cur - minRecLen mem cur
  recLen : entryRecLen mem' cur = minRecLen mem cur
  newRecLen : entryRecLen mem' (cur + minRecLen mem cur)
    = entryRecLen mem cur - minRecLen mem cur
  newBinding : entryBinding mem' (cur + minRecLen mem cur) = binding
  frame : ∀ {b m : Nat}, b + m ≤ cur + 4 ∨ cur + 6 ≤ b →
    b + m ≤ cur + minRecLen mem cur ∨ cur + entryRecLen mem cur ≤ b → AgreeOn mem mem' b m

/-- The slack of the entry that is cut for the name, if a place in the block comes of it, is the number
of its bytes behind its padded name: the difference does not wrap. -/
def CutsSlack (mem : Memory) (start : Nat) (name : CString) : Prop :=
  ∀ cur, cutEntry mem start name = some cur →
    isEntryInBlock start (cur + minRecLen mem cur) = true → minRecLen mem cur ≤ entryRecLen mem cur

/-- In a block padded as the program pads it no difference wraps. -/
theorem TiledAs.cutsSlack {mem : Memory} {start : Nat} (hT : Tiled mem start) (name : CString) :
    CutsSlack mem start name :=
  fun _ hcut _ => (hT.fits (mem_of_cutEntry hcut)).padded rfl

theorem TiledAs.cutsSlack_congr {pad : Bool} {mem mem' : Memory} {start : Nat} {name : CString}
    (hT : TiledAs pad mem start) (hag : AgreeOn mem mem' start ext2BlockSize)
    (h : CutsSlack mem start name) : CutsSlack mem' start name := by
  have hcut : cutEntry mem' start name = cutEntry mem start name := by
    rw [cutEntry, (hT.congr hag).blockEntries_eq, cutEntry]
    exact List.find?_congr fun e he => by rw [(hT.sameEntry hag he).spaceLeft]
  intro cur hfind hin
  rw [hcut] at hfind
  have hsame := hT.sameEntry hag (mem_of_cutEntry hfind)
  rw [hsame.minRecLen] at hin ⊢
  rw [hsame.recLen]
  exact h cur hfind hin

theorem CutsSlack.cut {mem mem' : Memory} {start inode fileType ret : Nat} {name : CString}
    (hslack : CutsSlack mem start name)
    (h : makeEntryInExistingBlock mem start inode name fileType = (some ret, mem')) :
    ∃ cur ∈ blockEntries mem start, ret = cur + minRecLen mem cur ∧
      Cut mem mem' cur (storedBinding inode fileType name) := by
  obtain ⟨cur, hcut, hspace, rfl, hin, rfl⟩ := makeEntryInExistingBlock_some h
  have hcur := mem_of_cutEntry hcut
  rw [spaceLeft_of_le (hslack cur hcut hin)] at hspace ⊢
  have hmin := minRecLen_eq mem cur
  have hneed := totalEntryLength_eq (wrap_length_lt name)
  have hlt := entryRecLen_lt mem cur
  have hnl := entryNameLen_lt mem cur
  have hlen := length_take_wrap name
  refine ⟨cur, hcur, rfl, ?_, ?_, ?_, ?_, fun h₁ h₂ => ?_⟩
  · rw [storedBinding, hlen]
    exact hspace
  · rw [entryRecLen, (fillEntry_agreeOn _ _ _ _ _ _ _ (by omega)).readLE, setEntryRecLen,
      readLE_writeLE_of_lt mem (cur + 4) (by omega)]
  · rw [entryRecLen_fillEntry, Nat.mod_eq_of_lt (by omega)]
  · rw [entryBinding, entryName_fillEntry _ _ _ _ _ _ _ hlen.symm (wrap_length_lt name),
      entryInode_fillEntry, entryFileType_fillEntry, storedBinding]
  · exact (writeLE_of_disjoint 2 _ _ _ h₁).trans (fillEntry_agreeOn _ _ _ _ _ _ _ (by omega))

/-- What an insertion does to a block: one more entry in the walk, with the binding
asked for, and every other binding as before. -/
structure Insertion (mem mem' : Memory) (start ret : Nat) (binding : CString × Nat × Nat) :
    Prop where
  entries : ∃ l₁ l₂, blockEntries mem start = l₁ ++ l₂ ∧ blockEntries mem' start = l₁ ++ ret :: l₂
  tiled : ∀ {pad : Bool}, TiledAs pad mem start → TiledAs pad mem' start
  kept : ∀ e ∈ blockEntries mem start, entryBinding mem' e = entryBinding mem e
  added : entryBinding mem' ret = binding
  frame : ∀ {b m : Nat}, b + m ≤ start ∨ start + ext2BlockSize ≤ b → AgreeOn mem mem' b m

namespace Cut

variable {pad : Bool} {mem mem' : Memory} {start cur : Nat} {binding : CString × Nat × Nat}

theorem binding_cur (h : Cut mem mem' cur binding) :
    entryBinding mem' cur = entryBinding mem cur := by
  have hmin := minRecLen_eq mem cur
  exact entryBinding_congr (h.frame (by omega) (by omega)) (h.frame (by omega) (by omega))

/-- Entries that lie before or behind the one cut are untouched. -/
theorem sameEntry (h : Cut mem mem' cur binding) {e : Nat} (hfit : EntryFits pad mem e)
    (hcur : EntryFits pad mem cur)
    (he : e + entryRecLen mem e ≤ cur ∨ cur + entryRecLen mem cur ≤ e) :
    SameEntry mem mem' e := by
  have hroom := hfit.room
  have hcurRoom := hcur.room
  have hmin := minRecLen_eq mem cur
  exact SameEntry.of_agreeOn (h.frame (by omega) (by omega)) (le_refl _)

theorem fits_cur (h : Cut mem mem' cur binding) : EntryFits pad mem' cur := by
  have hlen : entryNameLen mem' cur = entryNameLen mem cur := nameLen_eq_of_binding h.binding_cur
  refine .of_minRecLen_le ?_ ?_ pad
  · rw [h.recLen, minRecLen_eq]
    exact Nat.dvd_mul_left 4 _
  · rw [minRecLen, hlen, h.recLen, minRecLen]

theorem fits_new (h : Cut mem mem' cur binding) (hfit : EntryFits pad mem cur) :
    EntryFits pad mem' (cur + minRecLen mem cur) := by
  refine .of_minRecLen_le ?_ ?_ pad
  · have := hfit.aligned
    rw [h.newRecLen, minRecLen_eq]
    omega
  · rw [minRecLen, ← length_entryName,
      show entryName mem' (cur + minRecLen mem cur) = binding.1 from
        congrArg Prod.fst h.newBinding, h.newRecLen]
    exact h.room

/-- Some bytes are left for the new entry. -/
theorem lt_recLen (h : Cut mem mem' cur binding) : minRecLen mem cur < entryRecLen mem cur := by
  have hroom := h.room
  have hb : binding.1.length < 256 := by
    rw [← h.newBinding]
    exact (length_entryName _ _).trans_lt (entryNameLen_lt _ _)
  rw [totalEntryLength_eq hb] at hroom
  omega

/-- The new walk, whatever is asked of the entries. -/
theorem tiledBy (h : Cut mem mem' cur binding) {l₁ l₂ : List Nat}
    (hT : TiledBy pad mem start (l₁ ++ cur :: l₂)) :
    TiledBy pad mem' start (l₁ ++ cur :: (cur + minRecLen mem cur) :: l₂) ∧
      ∀ e ∈ l₁ ++ l₂, SameEntry mem mem' e := by
  have hmin := minRecLen_eq mem cur
  have hlt := h.lt_recLen
  obtain ⟨mid, ht₁, rfl, -, hcurFits, ht₂⟩ := tiles_append.mp hT
  have hsame : ∀ e ∈ l₁ ++ l₂, SameEntry mem mem' e := by
    intro e he
    rcases List.mem_append.mp he with he | he
    · exact h.sameEntry (ht₁.of_mem he).2.2.2 hcurFits (.inl (ht₁.of_mem he).2.1)
    · exact h.sameEntry (ht₂.of_mem he).2.2.2 hcurFits (.inr (ht₂.of_mem he).1)
  exact ⟨Tiles.split hT (fun e he => (hsame e he).recLen) (fun e he => (hsame e he).fits)
    h.recLen h.newRecLen (by omega) hlt h.fits_cur (h.fits_new hcurFits), hsame⟩

theorem insertion (h : Cut mem mem' cur binding) (hT : TiledAs pad mem start)
    (hcur : cur ∈ blockEntries mem start) :
    Insertion mem mem' start (cur + minRecLen mem cur) binding := by
  obtain ⟨hlo, hhi, hname⟩ := hT.bounds hcur
  have hmin := minRecLen_eq mem cur
  obtain ⟨l₁, l₂, hsplit⟩ := List.append_of_mem hcur
  rw [TiledAs, hsplit] at hT
  obtain ⟨hnew, hsame⟩ := h.tiledBy hT
  refine ⟨⟨l₁ ++ [cur], l₂, by simp [hsplit], by simp [hnew.blockEntries_eq]⟩, fun {pad'} hT' => ?_,
    fun e he => ?_, h.newBinding, fun hb => h.frame (by omega) (by omega)⟩
  · rw [TiledAs, hsplit] at hT'
    exact (h.tiledBy hT').1.tiled
  · rw [hsplit, List.mem_append, List.mem_cons] at he
    rcases he with he | rfl | he
    · exact (hsame e (by simp [he])).binding
    · exact h.binding_cur
    · exact (hsame e (by simp [he])).binding

end Cut

/-- **Insertion into a block of the format** adds one entry and leaves every other binding, where the
slack does not wrap. -/
theorem CutsSlack.insertion {pad : Bool} {mem mem' : Memory} {start inode fileType ret : Nat}
    {name : CString} (hslack : CutsSlack mem start name) (hT : TiledAs pad mem start)
    (h : makeEntryInExistingBlock mem start inode name fileType = (some ret, mem')) :
    Insertion mem mem' start ret (storedBinding inode fileType name) := by
  obtain ⟨cur, hcur, rfl, hcut⟩ := hslack.cut h
  exact hcut.insertion hT hcur

/-- In a block padded as the program pads it it never does. -/
theorem TiledAs.insertion {mem mem' : Memory} {start inode fileType ret : Nat} {name : CString}
    (hT : Tiled mem start)
    (h : makeEntryInExistingBlock mem start inode name fileType = (some ret, mem')) :
    Insertion mem mem' start ret (storedBinding inode fileType name) :=
  (hT.cutsSlack name).insertion hT h

theorem Insertion.liveEntries_eq {mem mem' : Memory} {start ret : Nat}
    {binding : CString × Nat × Nat} (h : Insertion mem mem' start ret binding) :
    ∃ l₁ l₂, liveEntries mem start = l₁ ++ l₂ ∧
      liveEntries mem' start = l₁ ++ (if binding.1 = [] then [] else [ret]) ++ l₂ := by
  obtain ⟨l₁, l₂, hold, hnew⟩ := h.entries
  have hkept := h.kept
  have hlen : entryNameLen mem' ret = binding.1.length := by
    rw [← length_entryName, show entryName mem' ret = binding.1 from congrArg Prod.fst h.added]
  rw [hold] at hkept
  refine ⟨l₁.filter _, l₂.filter _, by rw [liveEntries, hold, List.filter_append], ?_⟩
  rw [liveEntries, hnew, List.filter_append, List.filter_cons,
    filter_live_congr fun e he => hkept e (by simp [he]),
    filter_live_congr fun e he => hkept e (by simp [he]), hlen]
  by_cases hb : binding.1 = []
  · simp [hb]
  · simp [hb, List.length_pos_iff]

/-! ## The first entry -/

section First

variable (mem : Memory) (start inode fileType : Nat) (name : CString)

theorem entryNameLen_makeFirstEntry :
    entryNameLen (makeFirstEntry mem start inode name fileType) start = wrap 8 name.length := by
  rw [makeFirstEntry, entryNameLen_fillEntry]
  exact Nat.mod_eq_of_lt (wrap_length_lt name)

/-- The first entry of a block takes all of it. -/
theorem tiledBy_makeFirstEntry (pad : Bool) :
    TiledBy pad (makeFirstEntry mem start inode name fileType) start [start] := by
  have hrec : entryRecLen (makeFirstEntry mem start inode name fileType) start = 1024 := by
    simp [makeFirstEntry, entryRecLen_fillEntry, ext2BlockSize_eq]
  have hlen := entryNameLen_makeFirstEntry mem start inode fileType name
  have hlt := wrap_length_lt name
  refine ⟨rfl, by omega, .of_minRecLen_le (by omega) ?_ pad, ?_⟩
  · rw [minRecLen_eq, hlen, hrec]
    omega
  · rw [hrec, ext2BlockSize_eq, tiles_nil]

theorem entryBinding_makeFirstEntry {name : CString} (hlen : wrap 8 name.length = name.length) :
    entryBinding (makeFirstEntry mem start inode name fileType) start
      = (name, inode % 2 ^ 32, fileType % 2 ^ 8) := by
  rw [makeFirstEntry, entryBinding, entryName_fillEntry _ _ _ _ _ _ _ hlen (wrap_length_lt name),
    entryInode_fillEntry, entryFileType_fillEntry]

end First

/-! ## Lookup -/

/-- A pair found consists of the first entry of that name and the one before it. -/
theorem matchingPairFrom_some {mem : Memory} {name : CString} {prev p : Option Nat}
    {es : List Nat} {cur : Nat} (h : matchingPairFrom mem name prev es = some (p, cur)) :
    entryName mem cur = name ∧ ∃ l₁ l₂, es = l₁ ++ cur :: l₂ ∧
      (∀ e ∈ l₁, entryName mem e ≠ name) ∧ p = l₁.getLast?.or prev := by
  induction es generalizing prev with
  | nil => simp [matchingPairFrom] at h
  | cons e es ih =>
    rw [matchingPairFrom] at h
    split at h
    · rename_i hname
      obtain ⟨rfl, rfl⟩ := Prod.mk.inj (Option.some.inj h)
      exact ⟨(entryNameComparison_iff mem e name).mp hname, [], es, rfl, by simp, by simp⟩
    · rename_i hname
      rw [entryNameComparison_iff] at hname
      obtain ⟨hcur, l₁, l₂, rfl, hl₁, rfl⟩ := ih h
      refine ⟨hcur, e :: l₁, l₂, rfl, ?_, ?_⟩
      · simpa using ⟨hname, hl₁⟩
      · cases l₁ with
        | nil => rfl
        | cons f l₁ => simp [List.getLast?_cons]

/-! ## Removal -/

/-- What the removal of `cur` does to a block: one live entry fewer, and every other
binding as before. -/
structure Removal (mem mem' : Memory) (start cur : Nat) : Prop where
  live : ∃ l₁ l₂, liveEntries mem start = l₁ ++ cur :: l₂ ∧ liveEntries mem' start = l₁ ++ l₂
  tiled : ∀ {pad : Bool}, TiledAs pad mem start → TiledAs pad mem' start
  kept : ∀ e ∈ liveEntries mem' start, entryBinding mem' e = entryBinding mem e
  inode : entryInode mem' cur = entryInode mem cur
  frame : ∀ {b m : Nat}, b + m ≤ start ∨ start + ext2BlockSize ≤ b → AgreeOn mem mem' b m

/-- The first entry of a block keeps its bytes and loses its name. -/
theorem tiledBy_removal_first {pad : Bool} {mem : Memory} {start cur : Nat} {l₂ : List Nat}
    (hT : TiledBy pad mem start (cur :: l₂)) :
    TiledBy pad (setEntryNameLen mem cur 0) start (cur :: l₂) ∧
      ∀ e ∈ l₂, SameEntry mem (setEntryNameLen mem cur 0) e := by
  obtain ⟨rfl, hpos, hfit, ht₂⟩ := hT
  have hroom := hfit.room
  have hframe : ∀ {b m : Nat}, b + m ≤ cur + 6 ∨ cur + 7 ≤ b →
      AgreeOn mem (setEntryNameLen mem cur 0) b m :=
    fun h => writeLE_of_disjoint 1 _ _ _ h
  have hsame : ∀ e ∈ l₂, SameEntry mem (setEntryNameLen mem cur 0) e := by
    intro e he
    have hb := (ht₂.of_mem he).1
    exact SameEntry.of_agreeOn (n := 8 + entryNameLen mem e) (hframe (by omega)) (le_refl _)
  have hrec : entryRecLen (setEntryNameLen mem cur 0) cur = entryRecLen mem cur :=
    (hframe (by omega)).readLE
  have hlen : entryNameLen (setEntryNameLen mem cur 0) cur = 0 := readLE_writeLE 1 mem (cur + 6) 0
  have hcurFits : EntryFits pad (setEntryNameLen mem cur 0) cur := by
    refine ⟨?_, ?_, fun hpad => ?_⟩
    · rw [hrec]
      exact hfit.aligned
    · rw [hlen, hrec]
      omega
    · have hmin := hfit.padded hpad
      rw [minRecLen_eq] at hmin
      rw [minRecLen_eq, hlen, hrec]
      omega
  refine ⟨⟨rfl, by omega, hcurFits, ?_⟩, hsame⟩
  rw [hrec]
  exact ht₂.congr (fun e he => (hsame e he).recLen) fun e he => (hsame e he).fits

theorem TiledAs.removal_first {pad : Bool} {mem : Memory} {start cur : Nat} {l₂ : List Nat}
    (hT : TiledAs pad mem start) (hes : blockEntries mem start = cur :: l₂)
    (hlive : 0 < entryNameLen mem cur) :
    Removal mem (setEntryNameLen mem cur 0) start cur := by
  have hcurMem : cur ∈ blockEntries mem start := by simp [hes]
  obtain ⟨hlo, hhi, hname⟩ := hT.bounds hcurMem
  have hframe : ∀ {b m : Nat}, b + m ≤ cur + 6 ∨ cur + 7 ≤ b →
      AgreeOn mem (setEntryNameLen mem cur 0) b m :=
    fun h => writeLE_of_disjoint 1 _ _ _ h
  have hlen : entryNameLen (setEntryNameLen mem cur 0) cur = 0 := readLE_writeLE 1 mem (cur + 6) 0
  rw [TiledAs, hes] at hT
  obtain ⟨hnew, hsame⟩ := tiledBy_removal_first hT
  have hlive' : liveEntries (setEntryNameLen mem cur 0) start
      = l₂.filter fun e => decide (0 < entryNameLen mem e) := by
    rw [liveEntries, hnew.blockEntries_eq, List.filter_cons, hlen,
      filter_live_congr fun e he => (hsame e he).binding]
    simp
  refine ⟨⟨[], l₂.filter fun e => decide (0 < entryNameLen mem e), ?_, hlive'⟩,
    fun {pad'} hT' => ?_, fun e he => ?_, (hframe (by omega)).readLE, fun hb => hframe (by omega)⟩
  · rw [liveEntries, hes, List.filter_cons]
    simp [hlive]
  · rw [TiledAs, hes] at hT'
    exact (tiledBy_removal_first hT').1.tiled
  · rw [hlive'] at he
    exact (hsame e (List.mem_filter.mp he).1).binding

/-- The removal of any other entry, by the `rec_len` of its predecessor. -/
theorem tiledBy_removal_merge {pad : Bool} {mem : Memory} {start prev cur : Nat}
    {l₁ l₂ : List Nat} (hT : TiledBy pad mem start (l₁ ++ prev :: cur :: l₂)) :
    TiledBy pad (unlinkEntry mem (some prev, cur)) start (l₁ ++ prev :: l₂) ∧
      (∀ e ∈ l₁ ++ cur :: l₂, SameEntry mem (unlinkEntry mem (some prev, cur)) e) ∧
      entryBinding (unlinkEntry mem (some prev, cur)) prev = entryBinding mem prev := by
  obtain ⟨_, ht₁, rfl, -, hpfit, hcur, -, hcfit, ht₂⟩ := tiles_append.mp hT
  have hpname := hpfit.room
  have hcname := hcfit.room
  have hlo := ht₁.le
  have hend := ht₂.le
  have hsize := ext2BlockSize_eq
  have hsum : wrap 16 (entryRecLen mem prev + entryRecLen mem cur : Nat)
      = entryRecLen mem prev + entryRecLen mem cur := wrap_of_lt (by omega)
  rw [unlinkEntry, hsum]
  set mem' := setEntryRecLen mem prev (entryRecLen mem prev + entryRecLen mem cur)
  have hframe : ∀ {b m : Nat}, b + m ≤ prev + 4 ∨ prev + 6 ≤ b → AgreeOn mem mem' b m :=
    fun h => writeLE_of_disjoint 2 _ _ _ h
  have hsame : ∀ e ∈ l₁ ++ cur :: l₂, SameEntry mem mem' e := by
    intro e he
    have hdisj : e + (8 + entryNameLen mem e) ≤ prev + 4 ∨ prev + 6 ≤ e := by
      rcases List.mem_append.mp he with he | he
      · obtain ⟨-, hend, -, hfit⟩ := ht₁.of_mem he
        have hroom := hfit.room
        omega
      · rcases List.mem_cons.mp he with rfl | he
        · omega
        · have := (ht₂.of_mem he).1
          omega
    exact SameEntry.of_agreeOn (hframe hdisj) (le_refl _)
  have hprev : entryBinding mem' prev = entryBinding mem prev :=
    entryBinding_congr (hframe (by omega)) (hframe (by omega))
  have hprevRec : entryRecLen mem' prev = entryRecLen mem prev + entryRecLen mem cur :=
    readLE_writeLE_of_lt mem (prev + 4) (by omega)
  have hprevFits : EntryFits pad mem' prev := by
    refine ⟨?_, ?_, fun hpad => ?_⟩
    · rw [hprevRec]
      exact hpfit.aligned.add hcfit.aligned
    · rw [nameLen_eq_of_binding hprev, hprevRec]
      omega
    · rw [minRecLen, nameLen_eq_of_binding hprev, hprevRec]
      exact (hpfit.padded hpad).trans (Nat.le_add_right _ _)
  have hrest : ∀ e ∈ l₁ ++ l₂, SameEntry mem mem' e := by
    intro e he
    rcases List.mem_append.mp he with he | he
    · exact hsame e (by simp [he])
    · exact hsame e (by simp [he])
  exact ⟨Tiles.merge hT (fun e he => (hrest e he).recLen) (fun e he => (hrest e he).fits)
    hprevRec hprevFits, hsame, hprev⟩

/-- Any other entry is swallowed by the `rec_len` of its predecessor. -/
theorem TiledAs.removal_merge {pad : Bool} {mem : Memory} {start prev cur : Nat}
    {l₁ l₂ : List Nat} (hT : TiledAs pad mem start)
    (hes : blockEntries mem start = l₁ ++ prev :: cur :: l₂) (hlive : 0 < entryNameLen mem cur) :
    Removal mem (unlinkEntry mem (some prev, cur)) start cur := by
  obtain ⟨hplo, hphi, hpname⟩ := hT.bounds (e := prev) (by simp [hes])
  rw [TiledAs, hes] at hT
  obtain ⟨hnew, hsame, hprev⟩ := tiledBy_removal_merge hT
  have hkept : ∀ e ∈ l₁ ++ prev :: l₂,
      entryBinding (unlinkEntry mem (some prev, cur)) e = entryBinding mem e := by
    intro e he
    rcases List.mem_append.mp he with he | he
    · exact (hsame e (by simp [he])).binding
    · rcases List.mem_cons.mp he with rfl | he
      · exact hprev
      · exact (hsame e (by simp [he])).binding
  have hlive' : liveEntries (unlinkEntry mem (some prev, cur)) start
      = (l₁ ++ [prev]).filter (fun e => decide (0 < entryNameLen mem e))
        ++ l₂.filter fun e => decide (0 < entryNameLen mem e) := by
    rw [liveEntries, hnew.blockEntries_eq, filter_live_congr hkept, ← List.filter_append]
    simp
  refine ⟨⟨_, _, ?_, hlive'⟩, fun {pad'} hT' => ?_, fun e he => hkept e ?_,
    (hsame cur (by simp)).inode, fun hb => writeLE_of_disjoint 2 _ _ _ (by omega)⟩
  · rw [liveEntries, hes, List.append_cons, List.filter_append, List.filter_cons,
      if_pos (by simpa using hlive)]
  · rw [TiledAs, hes] at hT'
    exact (tiledBy_removal_merge hT').1.tiled
  · have := (mem_liveEntries.mp he).1
    rwa [hnew.blockEntries_eq] at this

/-- **Removal from a tiled block** takes away the entry found and no other. -/
theorem TiledAs.removal {pad : Bool} {mem : Memory} {start : Nat} {name : CString}
    {pair : Option Nat × Nat} (hT : TiledAs pad mem start)
    (h : blockMatchingPair mem start name = some pair) (hne : name ≠ []) :
    entryName mem pair.2 = name ∧ Removal mem (unlinkEntry mem pair) start pair.2 := by
  obtain ⟨prev, cur⟩ := pair
  obtain ⟨hname, l₁, l₂, hes, -, hprev⟩ := matchingPairFrom_some h
  have hlive : 0 < entryNameLen mem cur := by
    rw [← length_entryName, hname]
    exact List.length_pos_iff.mpr hne
  refine ⟨hname, ?_⟩
  cases prev with
  | none =>
    obtain rfl : l₁ = [] := by simpa using hprev.symm
    exact hT.removal_first hes hlive
  | some prev =>
    obtain ⟨l₁', rfl⟩ : ∃ l, l₁ = l ++ [prev] := by
      rw [Option.or_none] at hprev
      exact List.getLast?_eq_some_iff.mp hprev.symm
    exact hT.removal_merge (by simpa using hes) hlive

end Ext2
end OsAssignments
