import OsAssignments.Ext2.DirBlockMap
import OsAssignments.Ext2.Directory
import OsAssignments.Ext2.EntrySlack

/-!
# Insertion into a directory

What `make_entry_in_inode` does to the names of a directory.

* `resolve` — what `find_matching_entry` finds: the entry and what it says.
* `DirInode` — an inode whose blocks are directory blocks, marked in use and apart from each
  other and from the indirect block.
* `DirInodeAs.existing`, `DirInodeAs.attached`, `DirInodeAs.dropped` — an insertion into an
  existing block, into a new block, and into a new block whose number goes nowhere.
-/

namespace OsAssignments
namespace Ext2

open ByteMemory MachineWord ExitState

/-! ## Names -/

/-- The first entry of that name in the block, with what it says. -/
def blockResolve (mem : Memory) (start : Nat) (name : CString) :
    Option (Nat × CString × Nat × Nat) :=
  ((blockEntries mem start).find? fun e => decide (entryName mem e = name)).map fun e =>
    (e, entryBinding mem e)

/-- The entry `find_matching_entry` finds, with what it says. -/
def resolve (d : Disk) (inode : Nat) (name : CString) : Option (Nat × CString × Nat × Nat) :=
  (findMatchingEntry d inode name).map fun e => (e, entryBinding d.data e)

/-- The same in one slot. -/
def slotResolve (d : Disk) (inode : Nat) (name : CString) (i : Nat) :
    Option (Nat × CString × Nat × Nat) :=
  if getInodeBlockNumber d inode i = 0 then none
  else blockResolve d.data (getBlock (getInodeBlockNumber d inode i)) name

theorem resolve_eq (d : Disk) (inode : Nat) (name : CString) :
    resolve d inode name = (List.range inodeBlockLimit).findSome? (slotResolve d inode name) := by
  rw [resolve, findMatchingEntry_eq, map_findSome]
  congr 1
  funext i
  rw [slotEntry, slotResolve]
  split
  · rfl
  · rfl

theorem findSome_congr_of_mem {α β : Type} {f g : α → Option β} {l : List α}
    (h : ∀ a ∈ l, f a = g a) : l.findSome? f = l.findSome? g := by
  induction l with
  | nil => rfl
  | cons a l ih =>
    rw [List.findSome?_cons, List.findSome?_cons, h a (by simp), ih fun b hb => h b (by simp [hb])]

/-- Changes that leave what every slot says leave what the directory says. -/
theorem resolve_congr {d d' : Disk} {inode : Nat} {name : CString}
    (h : ∀ i, i < inodeBlockLimit → slotResolve d' inode name i = slotResolve d inode name i) :
    resolve d' inode name = resolve d inode name := by
  rw [resolve_eq, resolve_eq]
  exact findSome_congr_of_mem fun i hi => h i (List.mem_range.mp hi)

theorem resolve_eq_none {d : Disk} {inode : Nat} {name : CString} :
    resolve d inode name = none ↔
      ∀ i, i < inodeBlockLimit → slotResolve d inode name i = none := by
  rw [resolve_eq, List.findSome?_eq_none_iff]
  simp

/-- A name that one slot alone knows. -/
theorem resolve_of_slot {d : Disk} {inode : Nat} {name : CString} {i : Nat}
    {found : Nat × CString × Nat × Nat} (hi : i < inodeBlockLimit)
    (hfound : slotResolve d inode name i = some found)
    (hother : ∀ j, j < inodeBlockLimit → j ≠ i → slotResolve d inode name j = none) :
    resolve d inode name = some found := by
  cases h : resolve d inode name with
  | none =>
    rw [resolve_eq_none.mp h i hi] at hfound
    cases hfound
  | some found' =>
    rw [resolve_eq] at h
    obtain ⟨j, hj, hsome⟩ := List.exists_of_findSome?_eq_some h
    by_cases hji : j = i
    · rw [← hsome, hji, hfound]
    · rw [hother j (List.mem_range.mp hj) hji] at hsome
      cases hsome

theorem find_congr_of_mem {α : Type} {p q : α → Bool} {l : List α} (h : ∀ a ∈ l, p a = q a) :
    l.find? p = l.find? q := by
  induction l with
  | nil => rfl
  | cons a l ih =>
    have ih := ih fun b hb => h b (by simp [hb])
    rw [List.find?_cons, List.find?_cons, h a (by simp), ih]

theorem entryName_eq_of_binding {mem mem' : Memory} {e : Nat}
    (h : entryBinding mem' e = entryBinding mem e) : entryName mem' e = entryName mem e :=
  congrArg Prod.fst h

/-- What a list of entries says depends on what each of them says. -/
theorem find_map_congr {mem mem' : Memory} {name : CString} {es : List Nat}
    (h : ∀ e ∈ es, entryBinding mem' e = entryBinding mem e) :
    (es.find? fun e => decide (entryName mem' e = name)).map (fun e => (e, entryBinding mem' e))
      = (es.find? fun e => decide (entryName mem e = name)).map fun e =>
        (e, entryBinding mem e) := by
  rw [find_congr_of_mem fun e he => by rw [entryName_eq_of_binding (h e he)]]
  cases hfind : es.find? fun e => decide (entryName mem e = name) with
  | none => rfl
  | some e => simp only [Option.map_some, h e (List.mem_of_find?_eq_some hfind)]

theorem TiledAs.blockResolve_congr {mem mem' : Memory} {start : Nat} (hT : Tiled mem start)
    (hag : AgreeOn mem mem' start ext2BlockSize) (name : CString) :
    blockResolve mem' start name = blockResolve mem start name := by
  rw [blockResolve, (hT.congr hag).blockEntries_eq]
  exact find_map_congr fun e he => (hT.sameEntry hag he).binding

namespace Insertion

variable {mem mem' : Memory} {start ret : Nat} {binding : CString × Nat × Nat}

/-- No other name is affected. -/
theorem blockResolve_other (h : Insertion mem mem' start ret binding) {name : CString}
    (hne : name ≠ binding.1) : blockResolve mem' start name = blockResolve mem start name := by
  obtain ⟨l₁, l₂, hold, hnew⟩ := h.entries
  have hret : entryName mem' ret ≠ name := by
    rw [show entryName mem' ret = binding.1 from congrArg Prod.fst h.added]
    exact hne.symm
  have hskip : (l₁ ++ ret :: l₂).find? (fun e => decide (entryName mem' e = name))
      = (l₁ ++ l₂).find? fun e => decide (entryName mem' e = name) := by
    rw [List.find?_append, List.find?_append, List.find?_cons_of_neg (by simpa using hret)]
  rw [blockResolve, blockResolve, hnew, hskip, ← hold]
  exact find_map_congr h.kept

/-- The new name is found, if it is new. -/
theorem blockResolve_self (h : Insertion mem mem' start ret binding)
    (hnew : blockResolve mem start binding.1 = none) :
    blockResolve mem' start binding.1 = some (ret, binding) := by
  obtain ⟨l₁, l₂, hold, hnew'⟩ := h.entries
  have hname : entryName mem' ret = binding.1 := congrArg Prod.fst h.added
  rw [blockResolve, Option.map_eq_none_iff, hold, List.find?_eq_none] at hnew
  have hkept := h.kept
  rw [hold] at hkept
  have hnone : l₁.find? (fun e => decide (entryName mem' e = binding.1)) = none := by
    rw [List.find?_eq_none]
    intro e he
    rw [entryName_eq_of_binding (hkept e (by simp [he]))]
    exact hnew e (by simp [he])
  rw [blockResolve, hnew', List.find?_append, hnone,
    List.find?_cons_of_pos (by simpa using hname)]
  simp [h.added]

end Insertion

/-- A block with a single entry knows one name. -/
theorem blockResolve_makeFirstEntry (mem : Memory) (start inode fileType : Nat) {name : CString}
    (hlen : wrap 8 name.length = name.length) (other : CString) :
    blockResolve (makeFirstEntry mem start inode name fileType) start other
      = if other = name then some (start, name, inode % 2 ^ 32, fileType % 2 ^ 8) else none := by
  have hbinding := entryBinding_makeFirstEntry mem start inode fileType hlen
  have hname : entryName (makeFirstEntry mem start inode name fileType) start = name :=
    congrArg Prod.fst hbinding
  rw [blockResolve, (tiledBy_makeFirstEntry mem start inode fileType name true).blockEntries_eq]
  by_cases hother : other = name
  · rw [if_pos hother, List.find?_cons_of_pos (by rw [hname, hother]; simp), Option.map_some,
      hbinding]
  · rw [if_neg hother, List.find?_cons_of_neg (by rw [hname]; simpa using Ne.symm hother)]
    rfl

/-! ## Directory inodes -/

/-- An inode whose blocks are directory blocks. -/
structure DirInodeAs (pad : Bool) (d : Disk) (n : Nat) : Prop where
  tiled : ∀ i, i < inodeBlockLimit → getInodeBlockNumber d n i ≠ 0 →
    TiledAs pad d.data (getBlock (getInodeBlockNumber d n i))
  used : ∀ i, i < inodeBlockLimit → getInodeBlockNumber d n i ≠ 0 →
    getBlockUsage d (getInodeBlockNumber d n i) = true
  indirectUsed : indirectBlock d n ≠ 0 → getBlockUsage d (indirectBlock d n) = true
  distinct : ∀ i j, i < inodeBlockLimit → j < inodeBlockLimit → getInodeBlockNumber d n i ≠ 0 →
    getInodeBlockNumber d n i = getInodeBlockNumber d n j → i = j
  apart : ∀ i, i < inodeBlockLimit → getInodeBlockNumber d n i ≠ 0 →
    getInodeBlockNumber d n i ≠ indirectBlock d n

/-- An inode whose blocks are directory blocks padded as the program pads them. -/
abbrev DirInode (d : Disk) (n : Nat) : Prop := DirInodeAs true d n

theorem block_disjoint {b c : Nat} (h : b ≠ c) :
    getBlock b + ext2BlockSize ≤ getBlock c ∨ getBlock c + ext2BlockSize ≤ getBlock b := by
  rw [getBlock_eq, getBlock_eq, ext2BlockSize_eq]
  omega

/-- A first entry with a short name stays in its block. -/
theorem makeFirstEntry_agreeOn (mem : Memory) {b c : Nat} (inode fileType : Nat) {name : CString}
    (hbc : b ≠ c) (hlen : name.length ≤ 1016) :
    AgreeOn mem (makeFirstEntry mem (getBlock b) inode name fileType) (getBlock c) ext2BlockSize := by
  refine fillEntry_agreeOn _ _ _ _ _ _ _ ?_
  have := block_disjoint hbc
  rw [ext2BlockSize_eq] at this ⊢
  omega

section

variable {d : Disk} {n : Nat}

theorem takeBlock_agreeOn (d : Disk) {b c : Nat} (h : c ≠ b) :
    AgreeOn d.data (takeBlock d b).data (getBlock c) ext2BlockSize :=
  fillBytes_of_disjoint _ _ _ _ (block_disjoint h)

@[simp] theorem takeBlock_inodeTable (d : Disk) (b : Nat) :
    (takeBlock d b).inodeTable = d.inodeTable := rfl

/-- The slots of the inode that `attachBlock` worked on. -/
theorem getInodeBlockNumber_attachBlock {i b : Nat} (hb : b < 2 ^ 32)
    (hind : indirectBlock d n ≠ 0 → indirectBlock d n ≠ b) (j : Nat) :
    getInodeBlockNumber (attachBlock d n i b) n j
      = if j = i ∧ Attachable d n i then b else getInodeBlockNumber d n j := by
  have htake : ∀ k, getInodeBlockNumber (takeBlock d b) n k = getInodeBlockNumber d n k :=
    getInodeBlockNumber_congr rfl fun hne => takeBlock_agreeOn d (hind hne)
  have hset := getInodeBlockNumber_set_self (takeBlock d b) n i j hb
  have hsame : getInodeBlockNumber (attachBlock d n i b) n j
      = getInodeBlockNumber (setInodeBlockNumber (takeBlock d b) n i b) n j := by
    apply getInodeBlockNumber_congr
    · rw [attachBlock, Disk.modifyInode_inodeTable_self]
    · exact fun _ => AgreeOn.refl _ _ _
  rw [hsame, hset, htake j]
  rfl

/-- A block other than the new one and the indirect one keeps its bytes. -/
theorem attachBlock_agreeOn {i b c : Nat} (hcb : c ≠ b) (hc : c ≠ indirectBlock d n) :
    AgreeOn d.data (attachBlock d n i b).data (getBlock c) ext2BlockSize := by
  refine (takeBlock_agreeOn d hcb).trans ?_
  refine setInodeBlockNumber_data (takeBlock d b) n i b ?_
  have := block_disjoint hc
  rw [show indirectBlock (takeBlock d b) n = indirectBlock d n from rfl]
  tauto

/-- Only the block of slot `i` changes. -/
theorem DirInodeAs.slotResolve_congr (h : DirInode d n) {d' : Disk} {name : CString} {i : Nat}
    (hi : i < inodeBlockLimit) (hslot : getInodeBlockNumber d' n i = getInodeBlockNumber d n i)
    (hag : getInodeBlockNumber d n i ≠ 0 →
      AgreeOn d.data d'.data (getBlock (getInodeBlockNumber d n i)) ext2BlockSize) :
    slotResolve d' n name i = slotResolve d n name i := by
  rw [slotResolve, slotResolve, hslot]
  split
  · rfl
  · rename_i hne
    exact (h.tiled i hi hne).blockResolve_congr (hag hne) name

/-! ## The three ways an insertion can go -/

/-- The entry made is found under its name, and every other name resolves as before. -/
structure CreatedFound (d d' : Disk) (n entry : Nat) (binding : CString × Nat × Nat) : Prop where
  found : resolve d' n binding.1 = some (entry, binding)
  others : ∀ other, other ≠ binding.1 → resolve d' n other = resolve d n other

/-- An insertion into an existing block. -/
theorem DirInodeAs.existing (h : DirInode d n) {i entry : Nat} {mem : Memory}
    {binding : CString × Nat × Nat} (hi : i < inodeBlockLimit)
    (hne : getInodeBlockNumber d n i ≠ 0)
    (hins : Insertion d.data mem (getBlock (getInodeBlockNumber d n i)) entry binding)
    (hnew : resolve d n binding.1 = none) : CreatedFound d (d.withData mem) n entry binding := by
  have hframe : ∀ c, c ≠ getInodeBlockNumber d n i →
      AgreeOn d.data (d.withData mem).data (getBlock c) ext2BlockSize :=
    fun c hc => hins.frame (by have := block_disjoint hc; omega)
  have hslot : ∀ j, getInodeBlockNumber (d.withData mem) n j = getInodeBlockNumber d n j :=
    getInodeBlockNumber_congr rfl fun _ => hframe _ (h.apart i hi hne).symm
  have hother : ∀ name j, j < inodeBlockLimit → j ≠ i →
      slotResolve (d.withData mem) n name j = slotResolve d n name j := fun name j hj hji =>
    h.slotResolve_congr hj (hslot j) fun hjne =>
      hframe _ fun heq => hji (h.distinct j i hj hi hjne heq)
  have hself : ∀ name, slotResolve (d.withData mem) n name i
      = blockResolve mem (getBlock (getInodeBlockNumber d n i)) name := fun name => by
    rw [slotResolve, hslot, if_neg hne, withData_data]
  have hbefore : ∀ name, slotResolve d n name i
      = blockResolve d.data (getBlock (getInodeBlockNumber d n i)) name := fun name => if_neg hne
  have hnone := resolve_eq_none.mp hnew
  refine ⟨resolve_of_slot hi ?_ fun j hj hji => ?_, fun other hname => ?_⟩
  · rw [hself]
    exact hins.blockResolve_self (by rw [← hbefore]; exact hnone i hi)
  · rw [hother _ j hj hji]
    exact hnone j hj
  · refine resolve_congr fun j hj => ?_
    by_cases hji : j = i
    · rw [hji, hself, hbefore]
      exact hins.blockResolve_other hname
    · exact hother other j hj hji

/-- The block of a new entry, and what is left of all other blocks. -/
theorem newEntry_agreeOn {i b c child fileType : Nat} {name : CString} (hlen : name.length ≤ 1016)
    (hcb : c ≠ b) (hc : c ≠ indirectBlock d n) :
    AgreeOn d.data (newEntry d n i b child name fileType).data (getBlock c) ext2BlockSize :=
  (attachBlock_agreeOn hcb hc).trans (makeFirstEntry_agreeOn _ _ _ hcb.symm hlen)

theorem getInodeBlockNumber_newEntry {i b child fileType : Nat} {name : CString}
    (hlen : name.length ≤ 1016) (hb : b < 2 ^ 32)
    (hind : indirectBlock d n ≠ 0 → indirectBlock d n ≠ b) (j : Nat) :
    getInodeBlockNumber (newEntry d n i b child name fileType) n j
      = if j = i ∧ Attachable d n i then b else getInodeBlockNumber d n j := by
  rw [← getInodeBlockNumber_attachBlock hb hind j]
  have hsame : indirectBlock (attachBlock d n i b) n = indirectBlock d n := by
    rw [indirectBlock, attachBlock, Disk.modifyInode_inodeTable_self]
    exact setInodeBlockNumber_indirectBlock (takeBlock d b) n i b n
  apply getInodeBlockNumber_congr
  · rfl
  · intro hne
    rw [hsame] at hne ⊢
    exact makeFirstEntry_agreeOn _ _ _ (hind hne).symm hlen

section NewBlock

variable {i b child fileType : Nat} {name : CString}

/-- The block handed out is none of the directory's. -/
theorem DirInodeAs.ne_of_free (h : DirInode d n) (hfree : getBlockUsage d b = false) :
    (∀ j, j < inodeBlockLimit → getInodeBlockNumber d n j ≠ 0 → getInodeBlockNumber d n j ≠ b) ∧
      (indirectBlock d n ≠ 0 → indirectBlock d n ≠ b) := by
  refine ⟨fun j hj hne heq => ?_, fun hne heq => ?_⟩
  · have := h.used j hj hne
    rw [heq, hfree] at this
    cases this
  · have := h.indirectUsed hne
    rw [heq, hfree] at this
    cases this

theorem DirInodeAs.slotResolve_newEntry (h : DirInode d n) (hlen : name.length ≤ 1016)
    (hb : b < 2 ^ 32) (hfree : getBlockUsage d b = false) {j : Nat} (hj : j < inodeBlockLimit)
    (hji : ¬ (j = i ∧ Attachable d n i)) (other : CString) :
    slotResolve (newEntry d n i b child name fileType) n other j = slotResolve d n other j := by
  obtain ⟨hslots, hind⟩ := h.ne_of_free hfree
  refine h.slotResolve_congr hj ?_ fun hne =>
    newEntry_agreeOn hlen (hslots j hj hne) (h.apart j hj hne)
  rw [getInodeBlockNumber_newEntry hlen hb hind, if_neg hji]

/-- An insertion into a new block. -/
theorem DirInodeAs.attached (h : DirInode d n) (hi : i < inodeBlockLimit)
    (hlen : name.length ≤ 255) (hb : b < 2 ^ 32) (hb0 : b ≠ 0) (hfree : getBlockUsage d b = false)
    (hempty : getInodeBlockNumber d n i = 0) (hatt : Attachable d n i)
    (hnew : resolve d n name = none) :
    CreatedFound d (newEntry d n i b child name fileType) n (getBlock b)
      (name, child % 2 ^ 32, fileType % 2 ^ 8) := by
  have hwrap : wrap 8 name.length = name.length := by
    rw [wrap_length]
    omega
  have hself : ∀ other, slotResolve (newEntry d n i b child name fileType) n other i
      = if other = name then some (getBlock b, name, child % 2 ^ 32, fileType % 2 ^ 8)
        else none := by
    intro other
    have hslot : getInodeBlockNumber (newEntry d n i b child name fileType) n i = b := by
      rw [getInodeBlockNumber_newEntry (by omega) hb (h.ne_of_free hfree).2, if_pos ⟨rfl, hatt⟩]
    rw [slotResolve, hslot, if_neg hb0]
    exact blockResolve_makeFirstEntry _ _ _ _ hwrap other
  have hother : ∀ other j, j < inodeBlockLimit → j ≠ i →
      slotResolve (newEntry d n i b child name fileType) n other j = slotResolve d n other j :=
    fun other j hj hji =>
      h.slotResolve_newEntry (by omega) hb hfree hj (fun hand => hji hand.1) other
  refine ⟨resolve_of_slot hi ?_ fun j hj hji => ?_, fun other hname => ?_⟩
  · exact (hself name).trans (if_pos rfl)
  · rw [hother _ j hj hji]
    exact resolve_eq_none.mp hnew j hj
  · refine resolve_congr fun j hj => ?_
    by_cases hji : j = i
    · rw [hji, hself, if_neg hname, slotResolve, if_pos hempty]
    · exact hother other j hj hji

/-- **A block number that goes nowhere.**  The new block is lost, and the directory says what
it said before. -/
theorem DirInodeAs.dropped (h : DirInode d n) (hlen : name.length ≤ 1016) (hb : b < 2 ^ 32)
    (hfree : getBlockUsage d b = false) (hatt : ¬ Attachable d n i) (other : CString) :
    resolve (newEntry d n i b child name fileType) n other = resolve d n other :=
  resolve_congr fun _ hj => h.slotResolve_newEntry hlen hb hfree hj (fun hand => hatt hand.2) other

end NewBlock

end

end Ext2
end OsAssignments
