import OsAssignments.Ext2.DirUpdate

/-!
# A directory block as a finite map

What a directory block is for: a map from file names to an inode number and a file
type.  `Reached` is the runs of the operations on one block, from the block that
`make_entry_in_inode` lays out for its first entry, next to the map they should leave.

* `FileName` — what the operations may be called with.
* `blockLookup` — the answer of `block_matching_pair`, which is a lookup in the list of
  live bindings (`blockLookup_eq_lookup`).
* `dirBlock_finite_map` — along every run the block is well formed and answers like the
  map.

Tombstones and the stale bytes of swallowed entries are in no list of live bindings, so
the map never sees them.
-/

namespace OsAssignments
namespace Ext2

open ByteMemory MachineWord RecordTiling

/-- A file name: between 1 and `EXT2_NAME_LEN` characters, none of them NUL. -/
@[ext] structure FileName where
  chars : CString
  nonempty : chars ≠ []
  length_le : chars.length ≤ 255
  noNul : 0 ∉ chars
  deriving DecidableEq

/-- The map a block implements: the inode number and the file type under a name. -/
abbrev DirMap := FileName → Option (Nat × Nat)

/-- The part of `delete_child_entry` that works on one block. -/
def deleteFromBlock (mem : Memory) (start : Nat) (name : CString) : Memory :=
  match blockMatchingPair mem start name with
  | none => mem
  | some pair => unlinkEntry mem pair

/-- What `block_matching_pair` answers: the inode and the type of the entry found. -/
def blockLookup (mem : Memory) (start : Nat) (name : CString) : Option (Nat × Nat) :=
  (blockMatchingPair mem start name).map fun pair =>
    (entryInode mem pair.2, entryFileType mem pair.2)

/-- The bindings of the live entries, in the order of the walk. -/
def bindings (mem : Memory) (start : Nat) : List (CString × Nat × Nat) :=
  (liveEntries mem start).map (entryBinding mem)

/-- The runs of the operations on the block at `start`, with the map each of them should
leave. -/
inductive Reached (start : Nat) : Memory → DirMap → Prop
  /-- A block begins with one entry. -/
  | first (mem : Memory) (name : FileName) (inode : UInt32) (fileType : UInt8) :
      Reached start (makeFirstEntry mem start inode.toNat name.chars fileType.toNat)
        (Function.update (fun _ => none) name (some (inode.toNat, fileType.toNat)))
  /-- An insertion that finds space. -/
  | inserted {mem mem' : Memory} {map : DirMap} (h : Reached start mem map) (name : FileName)
      (inode : UInt32) (fileType : UInt8) {ret : Nat}
      (hnew : name.chars ∉ (liveEntries mem start).map (entryName mem))
      (hret : makeEntryInExistingBlock mem start inode.toNat name.chars fileType.toNat
        = (some ret, mem')) :
      Reached start mem' (Function.update map name (some (inode.toNat, fileType.toNat)))
  /-- An insertion that returns NULL. -/
  | refused {mem mem' : Memory} {map : DirMap} (h : Reached start mem map) (name : FileName)
      (inode : UInt32) (fileType : UInt8)
      (hnew : name.chars ∉ (liveEntries mem start).map (entryName mem))
      (hret : makeEntryInExistingBlock mem start inode.toNat name.chars fileType.toNat
        = (none, mem')) :
      Reached start mem' map
  /-- A deletion. -/
  | deleted {mem : Memory} {map : DirMap} (h : Reached start mem map) (name : FileName) :
      Reached start (deleteFromBlock mem start name.chars) (Function.update map name none)

/-! ## Association lists -/

section Lookup

variable {α β : Type} [BEq α] [LawfulBEq α] {l₁ l₂ : List (α × β)} {k k' : α} {v : β}

theorem lookup_eq_none_of_not_mem {l : List (α × β)} (h : k ∉ l.map Prod.fst) :
    l.lookup k = none := by
  rw [List.lookup_eq_none_iff]
  intro p hp
  have hne : ¬ k = p.1 := fun heq => h (by rw [heq]; exact List.mem_map_of_mem hp)
  simpa using hne

/-- A binding put anywhere into a list without its key. -/
theorem lookup_middle_self (h : k ∉ l₁.map Prod.fst) :
    (l₁ ++ (k, v) :: l₂).lookup k = some v := by
  rw [List.lookup_append, lookup_eq_none_of_not_mem h, List.lookup_cons_self, Option.none_or]

theorem lookup_middle_of_ne (h : k' ≠ k) :
    (l₁ ++ (k, v) :: l₂).lookup k' = (l₁ ++ l₂).lookup k' := by
  rw [List.lookup_append, List.lookup_append, List.lookup_cons, beq_false_of_ne h]

end Lookup

/-! ## Lookup in a block -/

theorem map_fst_bindings (mem : Memory) (start : Nat) :
    (bindings mem start).map Prod.fst = (liveEntries mem start).map (entryName mem) := by
  rw [bindings, List.map_map]
  rfl

/-- The loop of `block_matching_pair` is a lookup among the live bindings. -/
theorem matchingPairFrom_eq_lookup (mem : Memory) {name : CString} (hne : name ≠ [])
    (es : List Nat) (prev : Option Nat) :
    (matchingPairFrom mem name prev es).map
        (fun pair => (entryInode mem pair.2, entryFileType mem pair.2))
      = ((es.filter fun e => decide (0 < entryNameLen mem e)).map (entryBinding mem)).lookup
          name := by
  induction es generalizing prev with
  | nil => rfl
  | cons e es ih =>
    rw [matchingPairFrom]
    by_cases hname : entryName mem e = name
    · have hlive : 0 < entryNameLen mem e := by
        rw [← length_entryName, hname]
        exact List.length_pos_iff.mpr hne
      rw [if_pos ((entryNameComparison_iff mem e name).mpr hname), List.filter_cons]
      simp [hlive, entryBinding, hname]
    · have hcmp : ¬ entryNameComparison mem e name = true := by
        rwa [entryNameComparison_iff]
      rw [if_neg hcmp, ih, List.filter_cons]
      split
      · simp [entryBinding, List.lookup_cons, beq_false_of_ne (Ne.symm hname)]
      · rfl

theorem blockLookup_eq_lookup (mem : Memory) (start : Nat) {name : CString} (hne : name ≠ []) :
    blockLookup mem start name = (bindings mem start).lookup name :=
  matchingPairFrom_eq_lookup mem hne (blockEntries mem start) none

/-! ## The operations on the bindings -/

theorem FileName.wrap_length (name : FileName) :
    wrap 8 name.chars.length = name.chars.length :=
  wrap_of_lt (Nat.lt_succ_of_le name.length_le)

/-- A file name is stored whole, and so are an inode number and a file type. -/
theorem storedBinding_eq (name : FileName) (inode : UInt32) (fileType : UInt8) :
    storedBinding inode.toNat fileType.toNat name.chars
      = (name.chars, inode.toNat, fileType.toNat) := by
  rw [storedBinding, name.wrap_length, List.take_length, Nat.mod_eq_of_lt inode.toNat_lt,
    Nat.mod_eq_of_lt fileType.toNat_lt]

theorem Insertion.bindings_eq {mem mem' : Memory} {start ret : Nat}
    {binding : CString × Nat × Nat} (h : Insertion mem mem' start ret binding)
    (hne : binding.1 ≠ []) : ∃ l₁ l₂, bindings mem start = l₁ ++ l₂ ∧
      bindings mem' start = l₁ ++ binding :: l₂ := by
  obtain ⟨l₁, l₂, hold, hnew⟩ := h.liveEntries_eq
  have hkept : ∀ e ∈ l₁ ++ l₂, entryBinding mem' e = entryBinding mem e := by
    intro e he
    rw [← hold, mem_liveEntries] at he
    exact h.kept e he.1
  refine ⟨l₁.map (entryBinding mem), l₂.map (entryBinding mem), ?_, ?_⟩
  · rw [bindings, hold, List.map_append]
  · rw [bindings, hnew, if_neg hne, List.map_append, List.map_append,
      List.map_congr_left fun e he => hkept e (by simp [he]),
      List.map_congr_left (l := l₂) fun e he => hkept e (by simp [he])]
    simp [h.added]

theorem Removal.bindings_eq {mem mem' : Memory} {start cur : Nat} (h : Removal mem mem' start cur) :
    ∃ l₁ l₂, bindings mem start = l₁ ++ entryBinding mem cur :: l₂ ∧
      bindings mem' start = l₁ ++ l₂ := by
  obtain ⟨l₁, l₂, hold, hnew⟩ := h.live
  have hkept := h.kept
  rw [hnew] at hkept
  refine ⟨l₁.map (entryBinding mem), l₂.map (entryBinding mem), ?_, ?_⟩
  · rw [bindings, hold, List.map_append, List.map_cons]
  · rw [bindings, hnew, List.map_congr_left hkept, List.map_append]

theorem WellFormed.of_bindings {mem : Memory} {start : Nat} (hT : Tiled mem start)
    (h : ((bindings mem start).map Prod.fst).Nodup) : WellFormed mem start :=
  ⟨hT, by rwa [map_fst_bindings] at h⟩

/-- The invariant of a run: the block is well formed and answers like the map. -/
structure Implements (mem : Memory) (start : Nat) (map : DirMap) : Prop where
  wellFormed : WellFormed mem start
  answers : ∀ name : FileName, blockLookup mem start name.chars = map name

namespace Implements

variable {mem mem' : Memory} {start : Nat} {map : DirMap}

theorem inserted (h : Implements mem start map) {name : FileName} {inode : UInt32}
    {fileType : UInt8} {ret : Nat}
    (hnew : name.chars ∉ (liveEntries mem start).map (entryName mem))
    (hret : makeEntryInExistingBlock mem start inode.toNat name.chars fileType.toNat
      = (some ret, mem')) :
    Implements mem' start (Function.update map name (some (inode.toNat, fileType.toNat))) := by
  have hT := h.wellFormed.tiled
  have hins := hT.insertion hret
  rw [storedBinding_eq] at hins
  obtain ⟨l₁, l₂, hold, hbind⟩ := hins.bindings_eq name.nonempty
  rw [← map_fst_bindings, hold, List.map_append, List.mem_append, not_or] at hnew
  refine ⟨WellFormed.of_bindings (hins.tiled hT) ?_, fun other => ?_⟩
  · have hd := h.wellFormed.distinct
    rw [← map_fst_bindings, hold, List.map_append] at hd
    rw [hbind, List.map_append, List.map_cons, List.nodup_middle]
    exact List.nodup_cons.mpr ⟨by simpa using hnew, hd⟩
  · rw [blockLookup_eq_lookup mem' start other.nonempty, hbind]
    by_cases heq : other = name
    · subst heq
      rw [lookup_middle_self hnew.1, Function.update_self]
    · have hchars : other.chars ≠ name.chars := fun hc => heq (FileName.ext hc)
      rw [lookup_middle_of_ne hchars, ← hold, ← blockLookup_eq_lookup mem start other.nonempty,
        h.answers, Function.update_of_ne heq]

theorem deleted (h : Implements mem start map) (name : FileName) :
    Implements (deleteFromBlock mem start name.chars) start (Function.update map name none) := by
  rw [deleteFromBlock]
  cases hpair : blockMatchingPair mem start name.chars with
  | none =>
    refine ⟨h.wellFormed, fun other => ?_⟩
    by_cases heq : other = name
    · subst heq
      simp [blockLookup, hpair]
    · rw [h.answers, Function.update_of_ne heq]
  | some pair =>
    have hT := h.wellFormed.tiled
    obtain ⟨hname, hrem⟩ := hT.removal hpair name.nonempty
    obtain ⟨l₁, l₂, hold, hbind⟩ := hrem.bindings_eq
    have hd := h.wellFormed.distinct
    rw [← map_fst_bindings, hold, List.map_append, List.map_cons, List.nodup_middle,
      List.nodup_cons, ← List.map_append] at hd
    refine ⟨WellFormed.of_bindings (hrem.tiled hT) (by rw [hbind]; exact hd.2), fun other => ?_⟩
    rw [blockLookup_eq_lookup _ start other.nonempty, hbind]
    by_cases heq : other = name
    · subst heq
      rw [Function.update_self]
      exact lookup_eq_none_of_not_mem (by simpa [entryBinding, hname] using hd.1)
    · have hchars : other.chars ≠ (entryBinding mem pair.2).1 := by
        rw [entryBinding, hname]
        exact fun hc => heq (FileName.ext hc)
      rw [← lookup_middle_of_ne hchars, Prod.mk.eta, ← hold,
        ← blockLookup_eq_lookup mem start other.nonempty, h.answers, Function.update_of_ne heq]

theorem first (mem : Memory) (start : Nat) (name : FileName) (inode : UInt32) (fileType : UInt8) :
    Implements (makeFirstEntry mem start inode.toNat name.chars fileType.toNat) start
      (Function.update (fun _ => none) name (some (inode.toNat, fileType.toNat))) := by
  have hT := tiledBy_makeFirstEntry mem start inode.toNat fileType.toNat name.chars true
  have hlen : entryNameLen (makeFirstEntry mem start inode.toNat name.chars fileType.toNat) start
      = name.chars.length := by
    rw [entryNameLen_makeFirstEntry, name.wrap_length]
  have hbinding := entryBinding_makeFirstEntry mem start inode.toNat fileType.toNat
    (show wrap 8 name.chars.length = name.chars.length from name.wrap_length)
  rw [Nat.mod_eq_of_lt inode.toNat_lt, Nat.mod_eq_of_lt fileType.toNat_lt] at hbinding
  have hbind : bindings (makeFirstEntry mem start inode.toNat name.chars fileType.toNat) start
      = [(name.chars, inode.toNat, fileType.toNat)] := by
    have hpos : 0 < name.chars.length := List.length_pos_iff.mpr name.nonempty
    rw [bindings, liveEntries, hT.blockEntries_eq, List.filter_cons, hlen,
      if_pos (by simpa using hpos)]
    simp [hbinding]
  refine ⟨WellFormed.of_bindings hT.tiled (by simp [hbind]), fun other => ?_⟩
  rw [blockLookup_eq_lookup _ start other.nonempty, hbind, List.lookup_cons]
  by_cases heq : other = name
  · subst heq
    simp
  · have hchars : other.chars ≠ name.chars := fun hc => heq (FileName.ext hc)
    simp [beq_false_of_ne hchars, Function.update_of_ne heq]

end Implements

/-- **A directory block is a finite map.**  After every run of insertions and deletions
the block is well formed and `block_matching_pair` answers like the map; and an insertion
that returns NULL has changed nothing. -/
theorem dirBlock_finite_map {start : Nat} {mem : Memory} {map : DirMap}
    (h : Reached start mem map) :
    WellFormed mem start ∧
    (∀ name : FileName, blockLookup mem start name.chars = map name) ∧
    ∀ (name : FileName) (inode : UInt32) (fileType : UInt8),
      (makeEntryInExistingBlock mem start inode.toNat name.chars fileType.toNat).1 = none →
      (makeEntryInExistingBlock mem start inode.toNat name.chars fileType.toNat).2 = mem := by
  have himpl : Implements mem start map := by
    induction h with
    | first mem name inode fileType => exact Implements.first mem start name inode fileType
    | inserted _ name inode fileType hnew hret ih => exact ih.inserted hnew hret
    | @refused mem mem' map _ name inode fileType hnew hret ih =>
      have hsame := makeEntryInExistingBlock_none (congrArg Prod.fst hret)
      rw [hret] at hsame
      obtain rfl : mem' = mem := hsame
      exact ih
    | deleted _ name ih => exact ih.deleted name
  exact ⟨himpl.wellFormed, himpl.answers, fun _ _ _ hnone => makeEntryInExistingBlock_none hnone⟩

/-- A name of one character. -/
def FileName.single (c : UInt8) (h : c ≠ 0) : FileName :=
  ⟨[c], by simp, by simp, by simpa using h.symm⟩

theorem dirBlock_finite_map_example :
    let block := makeFirstEntry (fun _ => 0) 0 11 [97] 1
    let block := (makeEntryInExistingBlock block 0 12 [98] 7).2
    let block := deleteFromBlock block 0 [97]
    WellFormed block 0 ∧ blockLookup block 0 [97] = none ∧
      blockLookup block 0 [98] = some (12, 7) := by
  have hfirst : Reached 0 _ _ :=
    Reached.first (fun _ => 0) (FileName.single 97 (by decide)) 11 1
  have hret : (makeEntryInExistingBlock (makeFirstEntry (fun _ => 0) 0 11 [97] 1) 0 12 [98] 7).1
      = some 12 := by
    decide +kernel
  have hinsert := hfirst.inserted (FileName.single 98 (by decide)) 12 7 (by decide +kernel)
    (Prod.ext hret rfl)
  have h := dirBlock_finite_map (hinsert.deleted (FileName.single 97 (by decide)))
  exact ⟨h.1, (h.2.1 (FileName.single 97 (by decide))).trans (by simp),
    (h.2.1 (FileName.single 98 (by decide))).trans (by simp [FileName.single])⟩

end Ext2
end OsAssignments
