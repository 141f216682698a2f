import OsAssignments.Lib.ByteMemory
import OsAssignments.Lib.MachineWord
import OsAssignments.Lib.RecordTiling

/-!
# Directory blocks

A directory block holds `struct ext2_dir_entry_2` records, each of which says with
its `rec_len` where the next one starts.  An entry pointer is an address of the
image; the walk of `is_valid_dir_entry` and `get_next_dir_entry` is `blockEntries`.

* `blockMatchingPair`, `makeEntryInExistingBlock`, `unlinkEntry` — lookup, insertion
  and the removal of `delete_child_entry`, on the bytes of one block.
* `FormatTiled` — the entries of a block lie end to end, each with a `rec_len` that is a
  multiple of 4 and has room for its name, as the ext2 format has it; `Tiled` adds the padding
  of the entries that the program makes, `WellFormed` that no name is live twice.
* `liveEntries`, `entryBinding` — the entries in use, and what each of them says.
-/

namespace OsAssignments
namespace Ext2

open ByteMemory MachineWord RecordTiling

/-- The characters of a C string, without the terminating NUL. -/
abbrev CString := List UInt8

/-- `EXT2_BLOCK_SIZE`. -/
def ext2BlockSize : Nat := 1024

theorem ext2BlockSize_eq : ext2BlockSize = 1024 := rfl

/-! ## `struct ext2_dir_entry_2` -/

def entryInode (mem : Memory) (entry : Nat) : Nat := readLE mem 4 entry

def entryRecLen (mem : Memory) (entry : Nat) : Nat := readLE mem 2 (entry + 4)

def entryNameLen (mem : Memory) (entry : Nat) : Nat := readLE mem 1 (entry + 6)

def entryFileType (mem : Memory) (entry : Nat) : Nat := readLE mem 1 (entry + 7)

/-- The first `name_len` bytes of the name. -/
def entryName (mem : Memory) (entry : Nat) : CString :=
  readBytes mem (entryNameLen mem entry) (entry + 8)

def setEntryRecLen (mem : Memory) (entry recLen : Nat) : Memory :=
  writeLE 2 mem (entry + 4) recLen

def setEntryNameLen (mem : Memory) (entry nameLen : Nat) : Memory :=
  writeLE 1 mem (entry + 6) nameLen

/-- The assignments to a new entry: `strncpy` of its name, then its fields. -/
def fillEntry (mem : Memory) (entry inode recLen fileType nameLen : Nat) (name : CString) :
    Memory :=
  let mem := writeBytes mem (entry + 8) name
  let mem := setEntryNameLen mem entry nameLen
  let mem := setEntryRecLen mem entry recLen
  let mem := writeLE 1 mem (entry + 7) fileType
  writeLE 4 mem entry inode

/-! ## The functions on one block -/

/-- `get_shifted_dir_entry`. -/
def getShiftedDirEntry (entry shift : Nat) : Nat := entry + shift

/-- `get_next_dir_entry`. -/
def getNextDirEntry (mem : Memory) (entry : Nat) : Nat :=
  getShiftedDirEntry entry (entryRecLen mem entry)

/-- `is_entry_in_block`; the distance is unsigned. -/
def isEntryInBlock (start entry : Nat) : Bool :=
  decide (start ≤ entry ∧ entry < start + ext2BlockSize)

/-- `is_valid_dir_entry`. -/
def isValidDirEntry (mem : Memory) (start entry : Nat) : Bool :=
  isEntryInBlock start entry && decide (entryRecLen mem entry > 0)

/-- The entries the loops over a block visit from `cur` on.  Each of them has a
length, so `fuel` of them are enough to leave a block of `fuel` bytes. -/
def entriesFrom (mem : Memory) (start : Nat) : Nat → Nat → List Nat
  | 0, _ => []
  | fuel + 1, cur =>
    if isValidDirEntry mem start cur then
      cur :: entriesFrom mem start fuel (getNextDirEntry mem cur)
    else []

/-- The entries of the block at `start`, in the order of the loops. -/
def blockEntries (mem : Memory) (start : Nat) : List Nat :=
  entriesFrom mem start ext2BlockSize start

/-- `entry_name_comparison`. -/
def entryNameComparison (mem : Memory) (entry : Nat) (name : CString) : Bool :=
  if entryNameLen mem entry ≠ name.length then false
  else (List.range (entryNameLen mem entry)).all fun i => mem (entry + 8 + i) == name.getD i 0

/-- `is_entry_block_empty`. -/
def isEntryBlockEmpty (mem : Memory) (start : Nat) : Bool :=
  (blockEntries mem start).all fun cur => decide (entryNameLen mem cur = 0)

/-- The loop of `block_matching_pair`, with `ret->prev`. -/
def matchingPairFrom (mem : Memory) (name : CString) :
    Option Nat → List Nat → Option (Option Nat × Nat)
  | _, [] => none
  | prev, cur :: rest =>
    if entryNameComparison mem cur name then some (prev, cur)
    else matchingPairFrom mem name (some cur) rest

/-- `block_matching_pair`. -/
def blockMatchingPair (mem : Memory) (start : Nat) (name : CString) : Option (Option Nat × Nat) :=
  matchingPairFrom mem name none (blockEntries mem start)

/-- `total_entry_length`. -/
def totalEntryLength (nameLen : Nat) : Nat :=
  let rawLength := 4 + 2 + 2 * 1 + nameLen * 1
  let padding := 4 - rawLength % 4
  wrap 16 (rawLength + padding : Nat)

/-- `min_rec_len`. -/
def minRecLen (mem : Memory) (entry : Nat) : Nat := totalEntryLength (entryNameLen mem entry)

/-- `space_left` of `make_entry_in_existing_block`. -/
def spaceLeft (mem : Memory) (entry : Nat) : Nat :=
  wrap 16 (entryRecLen mem entry - minRecLen mem entry : Int)

/-- `make_entry_in_existing_block`. -/
def makeEntryInExistingBlock (mem : Memory) (start inodeNumber : Nat) (name : CString)
    (fileType : Nat) : Option Nat × Memory :=
  let nameLen := wrap 8 name.length
  let spaceNeeded := totalEntryLength nameLen
  match (blockEntries mem start).find? (fun cur => decide (spaceLeft mem cur ≥ spaceNeeded)) with
  | none => (none, mem)
  | some cur =>
    let curMinRecLen := minRecLen mem cur
    let ret := getShiftedDirEntry cur curMinRecLen
    if isEntryInBlock start ret then
      let oldRecLen := entryRecLen mem cur
      let mem := setEntryRecLen mem cur curMinRecLen
      let recLen := wrap 16 (oldRecLen - entryRecLen mem cur : Int)
      (some ret, fillEntry mem ret inodeNumber recLen fileType nameLen (name.take nameLen))
    else (none, mem)

/-- The first entry of a block, as `make_entry_in_inode` fills it in. -/
def makeFirstEntry (mem : Memory) (start inode : Nat) (name : CString) (fileType : Nat) : Memory :=
  fillEntry mem start inode ext2BlockSize fileType (wrap 8 name.length) name

/-- The branch of `delete_child_entry` on the pair it found. -/
def unlinkEntry (mem : Memory) : Option Nat × Nat → Memory
  | (none, cur) => setEntryNameLen mem cur 0
  | (some prev, cur) =>
    setEntryRecLen mem prev (wrap 16 (entryRecLen mem prev + entryRecLen mem cur : Nat))

/-! ## Lengths -/

theorem totalEntryLength_eq {n : Nat} (h : n < 256) : totalEntryLength n = (n + 12) / 4 * 4 := by
  rw [totalEntryLength, wrap_of_lt (by omega)]
  omega

theorem entryNameLen_lt (mem : Memory) (entry : Nat) : entryNameLen mem entry < 256 :=
  readLE_lt mem 1 (entry + 6)

theorem entryRecLen_lt (mem : Memory) (entry : Nat) : entryRecLen mem entry < 65536 :=
  readLE_lt mem 2 (entry + 4)

theorem minRecLen_eq (mem : Memory) (entry : Nat) :
    minRecLen mem entry = (entryNameLen mem entry + 12) / 4 * 4 :=
  totalEntryLength_eq (entryNameLen_lt mem entry)

@[simp] theorem length_entryName (mem : Memory) (entry : Nat) :
    (entryName mem entry).length = entryNameLen mem entry := by
  simp [entryName]

/-- The name a caller passes, cut to the 8 bits of `name_len`. -/
theorem wrap_length_lt (name : CString) : wrap 8 (name.length : Int) < 256 := by
  simpa using wrap_lt 8 name.length

theorem wrap_length (name : CString) : wrap 8 (name.length : Int) = name.length % 256 := by
  rw [wrap]
  omega

theorem length_take_wrap (name : CString) :
    (name.take (wrap 8 name.length)).length = wrap 8 name.length := by
  rw [List.length_take, wrap_length]
  omega

/-! ## Names -/

theorem entryNameComparison_iff (mem : Memory) (entry : Nat) (name : CString) :
    entryNameComparison mem entry name = true ↔ entryName mem entry = name := by
  rw [entryNameComparison]
  split
  · rename_i hlen
    have hne : entryName mem entry ≠ name := fun h => hlen (by rw [← length_entryName, h])
    simp [hne]
  · rename_i hlen
    rw [not_not] at hlen
    simp only [List.all_eq_true, List.mem_range, beq_iff_eq]
    constructor
    · intro h
      refine List.ext_getElem (by simp [hlen]) fun i hi hi' => ?_
      have := h i (by omega)
      rw [List.getD_eq_getElem _ _ hi'] at this
      simpa [entryName, readBytes] using this
    · rintro rfl i hi
      rw [List.getD_eq_getElem _ _ (by simpa using hi)]
      simp [entryName, readBytes]

/-! ## Frames -/

/-- Two memories hold the same entry at an address. -/
structure SameEntry (mem mem' : Memory) (entry : Nat) : Prop where
  inode : entryInode mem' entry = entryInode mem entry
  recLen : entryRecLen mem' entry = entryRecLen mem entry
  nameLen : entryNameLen mem' entry = entryNameLen mem entry
  fileType : entryFileType mem' entry = entryFileType mem entry
  name : entryName mem' entry = entryName mem entry

namespace SameEntry

variable {mem mem' : Memory} {entry : Nat}

theorem of_agreeOn {n : Nat} (h : AgreeOn mem mem' entry n)
    (hn : 8 + entryNameLen mem entry ≤ n) : SameEntry mem mem' entry := by
  have hlen : entryNameLen mem' entry = entryNameLen mem entry :=
    (h.mono (by omega) (by omega)).readLE
  refine ⟨(h.mono (by omega) (by omega)).readLE, (h.mono (by omega) (by omega)).readLE, hlen,
    (h.mono (by omega) (by omega)).readLE, ?_⟩
  rw [entryName, entryName, hlen]
  exact (h.mono (by omega) (by omega)).readBytes

theorem minRecLen (h : SameEntry mem mem' entry) :
    Ext2.minRecLen mem' entry = Ext2.minRecLen mem entry := by
  rw [Ext2.minRecLen, Ext2.minRecLen, h.nameLen]

theorem spaceLeft (h : SameEntry mem mem' entry) :
    Ext2.spaceLeft mem' entry = Ext2.spaceLeft mem entry := by
  rw [Ext2.spaceLeft, h.recLen, h.minRecLen, Ext2.spaceLeft]

end SameEntry

/-- The bytes an insertion can touch: `rec_len` of the entry cut in two, and the new
entry with its name. -/
theorem fillEntry_agreeOn (mem : Memory) (entry inode recLen fileType nameLen : Nat)
    (name : CString) {b m : Nat} (h : b + m ≤ entry ∨ entry + 8 + name.length ≤ b) :
    AgreeOn mem (fillEntry mem entry inode recLen fileType nameLen name) b m := by
  refine AgreeOn.trans ?_ (writeLE_of_disjoint 4 _ _ _ (by omega))
  refine AgreeOn.trans ?_ (writeLE_of_disjoint 1 _ _ _ (by omega))
  refine AgreeOn.trans ?_ (writeLE_of_disjoint 2 _ _ _ (by omega))
  refine AgreeOn.trans ?_ (writeLE_of_disjoint 1 _ _ _ (by omega))
  exact writeBytes_of_disjoint _ _ _ (by omega)

section Filled

variable (mem : Memory) (entry inode recLen fileType nameLen : Nat) (name : CString)

theorem entryInode_fillEntry :
    entryInode (fillEntry mem entry inode recLen fileType nameLen name) entry = inode % 2 ^ 32 := by
  simp [entryInode, fillEntry, readLE_writeLE]

theorem entryRecLen_fillEntry :
    entryRecLen (fillEntry mem entry inode recLen fileType nameLen name) entry
      = recLen % 2 ^ 16 := by
  simp (disch := omega) [entryRecLen, fillEntry, setEntryRecLen, setEntryNameLen, readLE_writeLE,
    readLE_writeLE_of_disjoint]

theorem entryNameLen_fillEntry :
    entryNameLen (fillEntry mem entry inode recLen fileType nameLen name) entry
      = nameLen % 2 ^ 8 := by
  simp (disch := omega) [entryNameLen, fillEntry, setEntryRecLen, setEntryNameLen, readLE_writeLE,
    readLE_writeLE_of_disjoint]

theorem entryFileType_fillEntry :
    entryFileType (fillEntry mem entry inode recLen fileType nameLen name) entry
      = fileType % 2 ^ 8 := by
  simp (disch := omega) [entryFileType, fillEntry, readLE_writeLE, readLE_writeLE_of_disjoint]

theorem entryName_fillEntry (hlen : nameLen = name.length) (hlt : nameLen < 256) :
    entryName (fillEntry mem entry inode recLen fileType nameLen name) entry = name := by
  rw [entryName, entryNameLen_fillEntry, Nat.mod_eq_of_lt (by omega), hlen]
  simp (disch := omega) only [fillEntry, setEntryRecLen, setEntryNameLen,
    readBytes_writeLE_of_disjoint, readBytes_writeBytes]

end Filled
/-! ## The walk -/

theorem entriesFrom_eq_walk (mem : Memory) (start : Nat) {fuel cur : Nat} (hcur : start ≤ cur) :
    entriesFrom mem start fuel cur = walk (entryRecLen mem) (start + ext2BlockSize) fuel cur := by
  induction fuel generalizing cur with
  | zero => rfl
  | succ fuel ih =>
    have hnext : start ≤ getNextDirEntry mem cur := by
      rw [getNextDirEntry, getShiftedDirEntry]
      omega
    rw [entriesFrom, walk, ih hnext]
    simp only [isValidDirEntry, isEntryInBlock, getNextDirEntry, getShiftedDirEntry, hcur]
    simp

/-- What the ext2 format asks of an entry: a multiple of 4 with room for the name.  With `pad` there
is also the room that `min_rec_len` asks for, as in the entries the program makes. -/
structure EntryFits (pad : Bool) (mem : Memory) (entry : Nat) : Prop where
  aligned : 4 ∣ entryRecLen mem entry
  room : 8 + entryNameLen mem entry ≤ entryRecLen mem entry
  padded : pad = true → minRecLen mem entry ≤ entryRecLen mem entry

theorem SameEntry.fits {pad : Bool} {mem mem' : Memory} {entry : Nat}
    (h : SameEntry mem mem' entry) (hfit : EntryFits pad mem entry) : EntryFits pad mem' entry := by
  refine ⟨?_, ?_, fun hpad => ?_⟩
  · rw [h.recLen]
    exact hfit.aligned
  · rw [h.nameLen, h.recLen]
    exact hfit.room
  · rw [h.minRecLen, h.recLen]
    exact hfit.padded hpad

instance (pad : Bool) (mem : Memory) : DecidablePred (EntryFits pad mem) := fun entry =>
  decidable_of_iff (4 ∣ entryRecLen mem entry ∧ 8 + entryNameLen mem entry ≤ entryRecLen mem entry ∧
      (pad = true → minRecLen mem entry ≤ entryRecLen mem entry))
    ⟨fun h => ⟨h.1, h.2.1, h.2.2⟩, fun h => ⟨h.aligned, h.room, h.padded⟩⟩

theorem EntryFits.of_minRecLen_le {mem : Memory} {entry : Nat} (hal : 4 ∣ entryRecLen mem entry)
    (hmin : minRecLen mem entry ≤ entryRecLen mem entry) (pad : Bool) : EntryFits pad mem entry := by
  refine ⟨hal, ?_, fun _ => hmin⟩
  rw [minRecLen_eq] at hmin
  omega

theorem EntryFits.format {pad : Bool} {mem : Memory} {entry : Nat} (h : EntryFits pad mem entry) :
    EntryFits false mem entry := ⟨h.aligned, h.room, fun hpad => nomatch hpad⟩

/-- The entries `es` tile the block at `start`. -/
abbrev TiledBy (pad : Bool) (mem : Memory) (start : Nat) (es : List Nat) : Prop :=
  Tiles (entryRecLen mem) (EntryFits pad mem) start es (start + ext2BlockSize)

/-- The walk of the block tiles it. -/
def TiledAs (pad : Bool) (mem : Memory) (start : Nat) : Prop :=
  TiledBy pad mem start (blockEntries mem start)

/-- A directory block of the ext2 format. -/
abbrev FormatTiled (mem : Memory) (start : Nat) : Prop := TiledAs false mem start

/-- A directory block padded as the program pads it. -/
abbrev Tiled (mem : Memory) (start : Nat) : Prop := TiledAs true mem start

instance (pad : Bool) (mem : Memory) (start : Nat) : Decidable (TiledAs pad mem start) :=
  inferInstanceAs (Decidable (TiledBy pad mem start (blockEntries mem start)))

theorem TiledBy.blockEntries_eq {pad : Bool} {mem : Memory} {start : Nat} {es : List Nat}
    (h : TiledBy pad mem start es) : blockEntries mem start = es := by
  rw [blockEntries, entriesFrom_eq_walk mem start (le_refl start)]
  exact walk_eq_of_tiles h (by omega)

theorem TiledBy.tiled {pad : Bool} {mem : Memory} {start : Nat} {es : List Nat}
    (h : TiledBy pad mem start es) : TiledAs pad mem start := by
  rw [TiledAs, h.blockEntries_eq]
  exact h

/-- Where the minimal length does not exceed `rec_len`, the slack does not wrap. -/
theorem spaceLeft_of_le {mem : Memory} {e : Nat} (h : minRecLen mem e ≤ entryRecLen mem e) :
    spaceLeft mem e = entryRecLen mem e - minRecLen mem e := by
  have hlt := entryRecLen_lt mem e
  rw [spaceLeft, wrap]
  omega

namespace TiledAs

variable {pad : Bool} {mem mem' : Memory} {start : Nat}

theorem fits (h : TiledAs pad mem start) {e : Nat} (he : e ∈ blockEntries mem start) :
    EntryFits pad mem e := (h.of_mem he).2.2.2

theorem format (h : TiledAs pad mem start) : FormatTiled mem start :=
  Tiles.congr h (fun _ _ => rfl) fun _ _ hfit => hfit.format

/-- A block padded as the program pads it is a directory block in either sense. -/
theorem weaken (h : Tiled mem start) (pad : Bool) : TiledAs pad mem start := by
  cases pad with
  | true => exact h
  | false => exact h.format

/-- An entry of a tiled block lies in it, with its name. -/
theorem bounds (h : TiledAs pad mem start) {e : Nat} (he : e ∈ blockEntries mem start) :
    start ≤ e ∧ e + entryRecLen mem e ≤ start + ext2BlockSize ∧
      8 + entryNameLen mem e ≤ entryRecLen mem e := by
  obtain ⟨h₁, h₂, -, hfit⟩ := h.of_mem he
  exact ⟨h₁, h₂, hfit.room⟩

theorem sameEntry (h : TiledAs pad mem start) (hag : AgreeOn mem mem' start ext2BlockSize) {e : Nat}
    (he : e ∈ blockEntries mem start) : SameEntry mem mem' e := by
  obtain ⟨h₁, h₂, h₃⟩ := h.bounds he
  refine SameEntry.of_agreeOn (hag.mono h₁ ?_) (le_refl _)
  omega

theorem congr (h : TiledAs pad mem start) (hag : AgreeOn mem mem' start ext2BlockSize) :
    TiledBy pad mem' start (blockEntries mem start) :=
  Tiles.congr h (fun _ he => (h.sameEntry hag he).recLen) fun _ he hfit =>
    (h.sameEntry hag he).fits hfit

end TiledAs

/-! ## Live entries -/

/-- The entries of the block whose name is in use. -/
def liveEntries (mem : Memory) (start : Nat) : List Nat :=
  (blockEntries mem start).filter fun e => decide (0 < entryNameLen mem e)

/-- What an entry says: the name, the inode it names and the type. -/
def entryBinding (mem : Memory) (e : Nat) : CString × Nat × Nat :=
  (entryName mem e, entryInode mem e, entryFileType mem e)

theorem mem_liveEntries {mem : Memory} {start e : Nat} :
    e ∈ liveEntries mem start ↔ e ∈ blockEntries mem start ∧ 0 < entryNameLen mem e := by
  simp [liveEntries]

theorem SameEntry.binding {mem mem' : Memory} {e : Nat} (h : SameEntry mem mem' e) :
    entryBinding mem' e = entryBinding mem e := by
  rw [entryBinding, entryBinding, h.name, h.inode, h.fileType]

theorem nameLen_eq_of_binding {mem mem' : Memory} {e : Nat}
    (h : entryBinding mem' e = entryBinding mem e) : entryNameLen mem' e = entryNameLen mem e := by
  rw [← length_entryName, ← length_entryName, show entryName mem' e = entryName mem e from
    congrArg Prod.fst h]

theorem filter_live_congr {mem mem' : Memory} {es : List Nat}
    (h : ∀ e ∈ es, entryBinding mem' e = entryBinding mem e) :
    es.filter (fun e => decide (0 < entryNameLen mem' e))
      = es.filter fun e => decide (0 < entryNameLen mem e) :=
  List.filter_congr fun e he => by rw [nameLen_eq_of_binding (h e he)]

theorem TiledAs.liveEntries_congr {pad : Bool} {mem mem' : Memory} {start : Nat}
    (h : TiledAs pad mem start) (hag : AgreeOn mem mem' start ext2BlockSize) :
    liveEntries mem' start = liveEntries mem start := by
  rw [liveEntries, (h.congr hag).blockEntries_eq,
    filter_live_congr fun e he => (h.sameEntry hag he).binding, liveEntries]

/-- A block well formed: tiled, and no name live twice. -/
structure WellFormed (mem : Memory) (start : Nat) : Prop where
  tiled : Tiled mem start
  distinct : ((liveEntries mem start).map (entryName mem)).Nodup

end Ext2
end OsAssignments
