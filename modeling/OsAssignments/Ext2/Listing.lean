import OsAssignments.Ext2.Names

/-!
# Directory listings

`ext2_ls` prints a directory with `print_dir_contents`, which walks the blocks as
`find_matching_pair` does.  Names on disk are counted, but the filter for `.` and `..`
compares the bytes of an entry as a C string.

* `printDirContents` — the lines of a listing.
* `dirEntries` — the entries in use, block by block; `findable_iff` — a lookup finds
  exactly their names.
* `ListingAgrees` — what a listing is for; `CleanNames` — the names and the bytes behind
  them that let it do that.
* `listing_agrees_iff` — the one holds exactly if the other does.
-/

namespace OsAssignments
namespace Ext2

open ByteMemory

/-! ## Printing -/

/-- `strcmp(s, t) == 0`. -/
def strcmpEq (mem : Memory) : Nat → CString → Bool
  | s, [] => mem s == 0
  | s, c :: t => mem s == c && strcmpEq mem (s + 1) t

/-- `print_dir_name`, as the line it prints. -/
def printDirName (mem : Memory) (dir : Nat) : CString :=
  (List.range (entryNameLen mem dir)).map fun u => mem (dir + 8 + u)

/-- The test of `print_block_contents` for an entry to skip. -/
def isDots (mem : Memory) (cur : Nat) : Bool :=
  strcmpEq mem (cur + 8) dot || strcmpEq mem (cur + 8) dotDot

/-- `print_block_contents`. -/
def printBlockContents (mem : Memory) (start : Nat) (showDots : Bool) : List CString :=
  (blockEntries mem start).filterMap fun cur =>
    if !showDots && isDots mem cur then none
    else if entryNameLen mem cur ≠ 0 then some (printDirName mem cur)
    else none

/-- `print_dir_contents`, as the lines it prints. -/
def printDirContents (d : Disk) (entry : Nat) (showDots : Bool) : List CString :=
  (List.range inodeBlockLimit).flatMap fun i =>
    let blockNum := getInodeBlockNumber d (entryInode d.data entry) i
    if blockNum = 0 then [] else printBlockContents d.data (getBlock blockNum) showDots

theorem isDots_iff (mem : Memory) (cur : Nat) : isDots mem cur = true ↔
    (mem (cur + 8) = 46 ∧ mem (cur + 9) = 0) ∨
      (mem (cur + 8) = 46 ∧ mem (cur + 9) = 46 ∧ mem (cur + 10) = 0) := by
  simp [isDots, strcmpEq, dot, dotDot]

/-! ## The entries of a directory -/

/-- The entries in use, in the order of the loops. -/
def dirEntries (d : Disk) (inode : Nat) : List Nat :=
  (List.range inodeBlockLimit).flatMap fun i =>
    if getInodeBlockNumber d inode i = 0 then []
    else liveEntries d.data (getBlock (getInodeBlockNumber d inode i))

/-- `find_matching_entry` finds the name, a nonempty C string. -/
def Findable (d : Disk) (inode : Nat) (name : CString) : Prop :=
  name ≠ [] ∧ 0 ∉ name ∧ (findMatchingEntry d inode name).isSome = true

section

variable {d : Disk} {inode entry e : Nat} {name : CString}

theorem mem_dirEntries : e ∈ dirEntries d inode ↔
    ∃ i, i < inodeBlockLimit ∧ getInodeBlockNumber d inode i ≠ 0 ∧
      e ∈ liveEntries d.data (getBlock (getInodeBlockNumber d inode i)) := by
  rw [dirEntries, List.mem_flatMap]
  constructor
  · rintro ⟨i, hi, he⟩
    split at he
    · cases he
    · rename_i hne
      exact ⟨i, List.mem_range.mp hi, hne, he⟩
  · rintro ⟨i, hi, hne, he⟩
    refine ⟨i, List.mem_range.mpr hi, ?_⟩
    rwa [if_neg hne]

theorem entryName_ne_nil (he : e ∈ dirEntries d inode) : entryName d.data e ≠ [] := by
  obtain ⟨i, -, -, he⟩ := mem_dirEntries.mp he
  have hpos := (mem_liveEntries.mp he).2
  rw [← length_entryName] at hpos
  exact List.length_pos_iff.mp hpos

/-- A lookup searches the slots of the inode. -/
theorem isSome_findMatchingEntry (hname : name ≠ []) :
    (findMatchingEntry d inode name).isSome = true ↔
      ∃ e ∈ dirEntries d inode, entryName d.data e = name := by
  rw [findMatchingEntry_eq, List.findSome?_isSome_iff]
  constructor
  · rintro ⟨i, hi, hslot⟩
    rw [slotEntry] at hslot
    split at hslot
    · cases hslot
    · rename_i hne
      rw [List.find?_isSome] at hslot
      obtain ⟨e, he, hnamed⟩ := hslot
      rw [decide_eq_true_eq] at hnamed
      have hpos : 0 < entryNameLen d.data e := by
        rw [← length_entryName, hnamed]
        exact List.length_pos_iff.mpr hname
      exact ⟨e, mem_dirEntries.mpr ⟨i, List.mem_range.mp hi, hne, mem_liveEntries.mpr ⟨he, hpos⟩⟩,
        hnamed⟩
  · rintro ⟨e, he, hnamed⟩
    obtain ⟨i, hi, hne, he⟩ := mem_dirEntries.mp he
    refine ⟨i, List.mem_range.mpr hi, ?_⟩
    rw [slotEntry, if_neg hne, List.find?_isSome]
    exact ⟨e, (mem_liveEntries.mp he).1, decide_eq_true hnamed⟩

/-- **A lookup finds exactly the names of the entries in use** that are C strings. -/
theorem findable_iff : Findable d inode name ↔
    (∃ e ∈ dirEntries d inode, entryName d.data e = name) ∧ 0 ∉ name := by
  constructor
  · rintro ⟨hname, hnul, hfind⟩
    exact ⟨(isSome_findMatchingEntry hname).mp hfind, hnul⟩
  · rintro ⟨⟨e, he, rfl⟩, hnul⟩
    have hname := entryName_ne_nil he
    exact ⟨hname, hnul, (isSome_findMatchingEntry hname).mpr ⟨e, he, rfl⟩⟩

/-! ## The lines -/

theorem printBlockContents_eq (mem : Memory) (start : Nat) (showDots : Bool) :
    printBlockContents mem start showDots =
      ((liveEntries mem start).filter fun e => showDots || !isDots mem e).map (entryName mem) := by
  rw [printBlockContents, liveEntries, List.filter_filter, ← List.filterMap_eq_map,
    List.filterMap_filter]
  refine List.filterMap_congr fun e _ => ?_
  by_cases hlen : entryNameLen mem e = 0
  · simp [hlen]
  · cases showDots <;> cases isDots mem e <;>
      simp [hlen, Nat.pos_of_ne_zero hlen, printDirName, entryName, readBytes]

/-- **A listing prints the names of the entries in use**, or of those that pass the test. -/
theorem printDirContents_eq (d : Disk) (entry : Nat) (showDots : Bool) :
    printDirContents d entry showDots =
      ((dirEntries d (entryInode d.data entry)).filter fun e =>
        showDots || !isDots d.data e).map (entryName d.data) := by
  rw [printDirContents, dirEntries, List.filter_flatMap, List.map_flatMap]
  refine List.flatMap_congr fun i _ => ?_
  dsimp only
  split
  · rfl
  · exact printBlockContents_eq _ _ _

theorem mem_printDirContents {showDots : Bool} : name ∈ printDirContents d entry showDots ↔
    ∃ e ∈ dirEntries d (entryInode d.data entry),
      (showDots || !isDots d.data e) = true ∧ entryName d.data e = name := by
  rw [printDirContents_eq, List.mem_map]
  simp only [List.mem_filter, and_assoc]

/-! ## Listing and lookup -/

/-- A listing is a list of what lookups find. -/
structure ListingAgrees (d : Disk) (entry : Nat) : Prop where
  allOnce : (printDirContents d entry true).Nodup
  all : ∀ name, name ∈ printDirContents d entry true ↔ Findable d (entryInode d.data entry) name
  visibleOnce : (printDirContents d entry false).Nodup
  visible : ∀ name, name ∈ printDirContents d entry false ↔
    Findable d (entryInode d.data entry) name ∧ name ≠ dot ∧ name ≠ dotDot

/-- The names are C strings, and the bytes behind `.` and `..` let `strcmp` recognise one of the
two. -/
structure CleanNames (d : Disk) (inode : Nat) : Prop where
  nulFree : ∀ e ∈ dirEntries d inode, 0 ∉ entryName d.data e
  dot : ∀ e ∈ dirEntries d inode, entryName d.data e = dot →
    d.data (e + 9) = 0 ∨ (d.data (e + 9) = 46 ∧ d.data (e + 10) = 0)
  dotDot : ∀ e ∈ dirEntries d inode, entryName d.data e = dotDot → d.data (e + 10) = 0

theorem entryName_one {mem : Memory} (hlen : entryNameLen mem e = 1) :
    entryName mem e = [mem (e + 8)] := by
  simp [entryName, readBytes, hlen]

theorem entryName_two {mem : Memory} (hlen : entryNameLen mem e = 2) :
    entryName mem e = [mem (e + 8), mem (e + 9)] := by
  simp [entryName, readBytes, hlen, List.range_succ]

/-- Which entries named `.` are skipped. -/
theorem isDots_of_dot {mem : Memory} (hname : entryName mem e = dot) :
    isDots mem e = true ↔ mem (e + 9) = 0 ∨ (mem (e + 9) = 46 ∧ mem (e + 10) = 0) := by
  have hlen : entryNameLen mem e = 1 := by rw [← length_entryName, hname, dot, List.length_singleton]
  rw [entryName_one hlen, dot, List.cons.injEq] at hname
  rw [isDots_iff]
  simp [hname.1]

/-- Which entries named `..` are skipped. -/
theorem isDots_of_dotDot {mem : Memory} (hname : entryName mem e = dotDot) :
    isDots mem e = true ↔ mem (e + 10) = 0 := by
  have hlen : entryNameLen mem e = 2 := by
    rw [← length_entryName, hname, dotDot, List.length_cons, List.length_singleton]
  rw [entryName_two hlen, dotDot, List.cons.injEq, List.cons.injEq] at hname
  rw [isDots_iff]
  simp [hname.1, hname.2.1]

/-- No other name without a NUL is skipped. -/
theorem dots_of_isDots {mem : Memory} (hne : entryName mem e ≠ []) (hnul : 0 ∉ entryName mem e)
    (hdots : isDots mem e = true) : entryName mem e = dot ∨ entryName mem e = dotDot := by
  have hpos : 0 < entryNameLen mem e := by
    rw [← length_entryName]
    exact List.length_pos_iff.mpr hne
  -- the name ends before a NUL
  have hend : ∀ k, mem (e + 8 + k) = 0 → entryNameLen mem e ≤ k := by
    intro k hk
    by_contra hlt
    refine hnul ?_
    rw [entryName, readBytes, List.mem_map]
    exact ⟨k, List.mem_range.mpr (by omega), hk⟩
  rcases (isDots_iff mem e).mp hdots with ⟨h₀, h₁⟩ | ⟨h₀, h₁, h₂⟩
  · have hlen : entryNameLen mem e = 1 := le_antisymm (hend 1 h₁) hpos
    rw [entryName_one hlen, h₀]
    exact .inl rfl
  · have hle : entryNameLen mem e ≤ 2 := hend 2 h₂
    rcases (by omega : entryNameLen mem e = 1 ∨ entryNameLen mem e = 2) with hlen | hlen
    · rw [entryName_one hlen, h₀]
      exact .inl rfl
    · rw [entryName_two hlen, h₀, h₁]
      exact .inr rfl

theorem nodup_printDirContents {showDots : Bool}
    (hdistinct : ((dirEntries d (entryInode d.data entry)).map (entryName d.data)).Nodup) :
    (printDirContents d entry showDots).Nodup := by
  rw [printDirContents_eq]
  exact hdistinct.sublist (List.filter_sublist.map _)

theorem CleanNames.listingAgrees (h : CleanNames d (entryInode d.data entry))
    (hdistinct : ((dirEntries d (entryInode d.data entry)).map (entryName d.data)).Nodup) :
    ListingAgrees d entry where
  allOnce := nodup_printDirContents hdistinct
  all name := by
    rw [mem_printDirContents, findable_iff]
    constructor
    · rintro ⟨e, he, -, rfl⟩
      exact ⟨⟨e, he, rfl⟩, h.nulFree e he⟩
    · rintro ⟨⟨e, he, hname⟩, -⟩
      exact ⟨e, he, rfl, hname⟩
  visibleOnce := nodup_printDirContents hdistinct
  visible name := by
    rw [mem_printDirContents, findable_iff]
    constructor
    · rintro ⟨e, he, hshown, rfl⟩
      rw [Bool.false_or, Bool.not_eq_true', ← Bool.not_eq_true] at hshown
      refine ⟨⟨⟨e, he, rfl⟩, h.nulFree e he⟩, fun hdot => ?_, fun hdotDot => ?_⟩
      · exact hshown ((isDots_of_dot hdot).mpr (h.dot e he hdot))
      · exact hshown ((isDots_of_dotDot hdotDot).mpr (h.dotDot e he hdotDot))
    · rintro ⟨⟨⟨e, he, rfl⟩, hnul⟩, hdot, hdotDot⟩
      refine ⟨e, he, ?_, rfl⟩
      rw [Bool.false_or, Bool.not_eq_true', ← Bool.not_eq_true]
      intro hdots
      rcases dots_of_isDots (entryName_ne_nil he) hnul hdots with h' | h'
      · exact hdot h'
      · exact hdotDot h'

theorem ListingAgrees.cleanNames (h : ListingAgrees d entry) :
    CleanNames d (entryInode d.data entry) := by
  -- an entry that is named `.` or `..` must be skipped
  have hskipped : ∀ e ∈ dirEntries d (entryInode d.data entry),
      entryName d.data e = Ext2.dot ∨ entryName d.data e = Ext2.dotDot →
      isDots d.data e = true := by
    intro e he hname
    by_contra hdots
    have hprinted := mem_printDirContents.mpr
      ⟨e, he, show (false || !isDots d.data e) = true by simp [hdots], rfl⟩
    obtain ⟨-, hdot, hdotDot⟩ := (h.visible _).mp hprinted
    rcases hname with hname | hname
    · exact hdot hname
    · exact hdotDot hname
  constructor
  · intro e he
    have hprinted := mem_printDirContents.mpr ⟨e, he, Bool.true_or _, rfl⟩
    exact ((h.all _).mp hprinted).2.1
  · intro e he hname
    exact (isDots_of_dot hname).mp (hskipped e he (.inl hname))
  · intro e he hname
    exact (isDots_of_dotDot hname).mp (hskipped e he (.inr hname))

/-- **Listing and lookup agree exactly if the names are clean.** -/
theorem listing_agrees_iff (d : Disk) (entry : Nat)
    (hdistinct : ((dirEntries d (entryInode d.data entry)).map (entryName d.data)).Nodup) :
    ListingAgrees d entry ↔ CleanNames d (entryInode d.data entry) :=
  ⟨ListingAgrees.cleanNames, fun h => h.listingAgrees hdistinct⟩

end

/-! ## The small image -/

theorem listing_agrees_example : ListingAgrees smallImage 23552 :=
  (listing_agrees_iff smallImage 23552 (by decide +kernel)).mpr
    ⟨by decide +kernel, by decide +kernel, by decide +kernel⟩

/-- The small image with a byte left over behind the name of `.`. -/
def leftoverImage : Disk := smallImage.withData (Function.update smallData 23561 120)

theorem leftoverImage_tiled : Tiled leftoverImage.data (getBlock 23) := by decide +kernel

/-- A listing without the dots shows `.`. -/
theorem listing_shows_dot :
    IsDirInode leftoverImage (entryInode leftoverImage.data 23552) ∧
    (∀ i, i < inodeBlockLimit → getInodeBlockNumber leftoverImage 2 i ≠ 0 →
      Tiled leftoverImage.data (getBlock (getInodeBlockNumber leftoverImage 2 i))) ∧
    ((dirEntries leftoverImage 2).map (entryName leftoverImage.data)).Nodup ∧
    printDirContents leftoverImage 23552 false = [dot, [102]] ∧
    ¬ ListingAgrees leftoverImage 23552 := by
  have hslots : ∀ i, i < inodeBlockLimit → getInodeBlockNumber leftoverImage 2 i ≠ 0 →
      getInodeBlockNumber leftoverImage 2 i = 23 := by decide +kernel
  have hinode : entryInode leftoverImage.data 23552 = 2 := by decide +kernel
  have hlines : printDirContents leftoverImage 23552 false = [dot, [102]] := by decide +kernel
  refine ⟨hinode ▸ smallImage_consistent.root, fun i hi hne => ?_, by decide +kernel, hlines,
    fun hagrees => ?_⟩
  · rw [hslots i hi hne]
    exact leftoverImage_tiled
  · have hdot : dot ∈ printDirContents leftoverImage 23552 false := hlines ▸ List.mem_cons_self
    exact ((hagrees.visible dot).mp hdot).2.1 rfl

end Ext2
end OsAssignments
