import OsAssignments.Ext2.TreeEffect
import OsAssignments.Lib.NameGraph

/-!
# The file system that an image stands for

What the commands are for, without blocks and bitmaps: directories give names to numbered nodes, and
the nodes that are not directories have a content.

* `FileSystem` — names and contents; `FileSystem.lookup` — paths from the root.
* `FileSystem.Does` — what a command that succeeds does; `FileSystem.Untouched` — what a command
  that fails may leave behind, which no path leads to.
* `FileSystem.Run` — commands one after the other, with their exit statuses.
* `Untouched.lookup_eq`, `Untouched.content_eq` — a command that fails changes nothing that a path
  leads to.
-/

namespace OsAssignments
namespace Ext2

open NameGraph

/-! ## Names and contents -/

@[ext] structure FileSystem where
  names : Graph Nat CString Nat
  /-- Nothing for directories, and for nodes that are not in use. -/
  content : Nat → Option (List UInt8)

/-- A command with the time and the files of the host it finds. -/
structure Invocation where
  now : Nat
  host : CString → Option (List UInt8)
  command : TreeCommand

/-- The names of every directory that do not lead down. -/
def dotNames : Set CString := {dot, dotDot}

/-- Bytes that the direct blocks of an inode hold. -/
def directBytes : Nat := ext2BlockSize * indirect1Index

namespace FileSystem

/-- Where a path leads from the root. -/
def lookup (fs : FileSystem) (path : List CString) : Option (Nat × Nat) :=
  walk fs.names ext2RootIno path

def link (fs : FileSystem) (p : Nat) (name : CString) (n kind : Nat) : FileSystem :=
  { fs with names := NameGraph.link fs.names p name (n, kind) }

def unlink (fs : FileSystem) (p : Nat) (name : CString) : FileSystem :=
  { fs with names := NameGraph.unlink fs.names p name }

def setContent (fs : FileSystem) (n : Nat) (content : Option (List UInt8)) : FileSystem :=
  { fs with content := Function.update fs.content n content }

/-- A directory with its two names, and a name for it. -/
def makeDir (fs : FileSystem) (p : Nat) (name : CString) (n : Nat) : FileSystem :=
  ((fs.link n dot n ext2FtDir).link n dotDot p ext2FtDir).link p name n ext2FtDir

/-- A node that is not in use. -/
structure Fresh (fs : FileSystem) (n : Nat) : Prop where
  notRoot : n ≠ ext2RootIno
  unnamed : Unnamed fs.names n
  empty : ∀ name, fs.names n name = none
  absent : fs.content n = none

/-- The path can be made in directory `p`. -/
structure Place (fs : FileSystem) (path : List CString) (p : Nat) : Prop where
  parent : fs.lookup path.dropLast = some (p, ext2FtDir)
  absent : fs.lookup path = none

/-- The destination of a copy: a directory stands for a file in it with the name of the source. -/
def destPath (fs : FileSystem) (source dest : CString) : List CString :=
  if (fs.lookup (splitPath dest)).map Prod.snd = some ext2FtDir then
    splitPath dest ++ [(splitPath source).getLastD []]
  else splitPath dest

/-! ## Commands -/

/-- What is kept of a content: what the direct blocks do not hold may be lost. -/
def Keeps (content stored : List UInt8) : Prop :=
  stored = content ∨ stored = content.take directBytes

/-- What a command does that succeeds. -/
inductive Does (fs : FileSystem) (host : CString → Option (List UInt8)) :
    TreeCommand → FileSystem → Prop
  | mkdir {path : CString} {p n : Nat} : fs.Place (splitPath path) p → fs.Fresh n →
      Does fs host (.mkdir path) (fs.makeDir p (lastComponent path) n)
  | hardLink {source dest : CString} {n kind p : Nat} :
      fs.lookup (splitPath source) = some (n, kind) → kind ≠ ext2FtDir →
      fs.Place (splitPath dest) p →
      Does fs host (.file (.ln source dest false))
        (fs.link p (lastComponent dest) n ext2FtRegFile)
  | symLink {source dest : CString} {m kind p n : Nat} :
      fs.lookup (splitPath source) = some (m, kind) → kind ≠ ext2FtDir →
      fs.Place (splitPath dest) p → fs.Fresh n →
      Does fs host (.file (.ln source dest true))
        ((fs.link p (lastComponent dest) n ext2FtSymlink).setContent n (some (afterStrtok source)))
  | copyNew {source dest : CString} {content stored : List UInt8} {p n : Nat} :
      host (afterStrtok source) = some content → fs.Place (fs.destPath source dest) p →
      fs.Fresh n → Keeps content stored →
      Does fs host (.file (.cp source dest))
        ((fs.link p ((fs.destPath source dest).getLastD []) n ext2FtRegFile).setContent n
          (some stored))
  | copyOver {source dest : CString} {content stored : List UInt8} {n kind : Nat} :
      host (afterStrtok source) = some content →
      fs.lookup (fs.destPath source dest) = some (n, kind) → kind ≠ ext2FtDir →
      Keeps content stored →
      Does fs host (.file (.cp source dest)) (fs.setContent n (some stored))
  | removeName {path : CString} {p n kind : Nat} :
      fs.lookup (splitPath path) = some (n, kind) → kind ≠ ext2FtDir →
      fs.lookup (splitPath path).dropLast = some (p, ext2FtDir) →
      ¬ Unnamed (fs.unlink p (lastComponent path)).names n →
      Does fs host (.rm path) (fs.unlink p (lastComponent path))
  | removeFile {path : CString} {p n kind : Nat} :
      fs.lookup (splitPath path) = some (n, kind) → kind ≠ ext2FtDir →
      fs.lookup (splitPath path).dropLast = some (p, ext2FtDir) →
      Unnamed (fs.unlink p (lastComponent path)).names n →
      Does fs host (.rm path) ((fs.unlink p (lastComponent path)).setContent n none)

/-- What a command may leave behind that fails: a node that was not in use, with no names but those
that every directory has. -/
structure LeftBehind (fs fs' : FileSystem) (n : Nat) : Prop where
  fresh : fs.Fresh n
  names : ∀ m, m ≠ n → fs'.names m = fs.names m
  orphan : ∀ name b, fs'.names n name = some b → name ∈ dotNames ∧ b.2 = ext2FtDir
  content : ∀ m, m ≠ n → fs'.content m = fs.content m

def Untouched (fs fs' : FileSystem) : Prop := fs' = fs ∨ ∃ n, LeftBehind fs fs' n

/-- Commands one after the other, and their exit statuses. -/
inductive Run : FileSystem → List Invocation → List Nat → FileSystem → Prop
  | nil (fs : FileSystem) : Run fs [] [] fs
  | done {fs fs₁ fs' : FileSystem} {inv : Invocation} {invs : List Invocation}
      {statuses : List Nat} : fs.Does inv.host inv.command fs₁ → Run fs₁ invs statuses fs' →
      Run fs (inv :: invs) (0 :: statuses) fs'
  | failed {fs fs₁ fs' : FileSystem} {inv : Invocation} {invs : List Invocation}
      {status : Nat} {statuses : List Nat} : status ≠ 0 → fs.Untouched fs₁ →
      Run fs₁ invs statuses fs' → Run fs (inv :: invs) (status :: statuses) fs'

/-! ## What a user sees -/

section

variable {fs fs' : FileSystem} {path : List CString} {p n kind : Nat} {name : CString}

/-- A command that fails changes no path, -/
theorem Untouched.lookup_eq (h : fs.Untouched fs') (path : List CString) :
    fs'.lookup path = fs.lookup path := by
  rcases h with rfl | ⟨n, hleft⟩
  · rfl
  · exact walk_eq_of_unnamed hleft.fresh.unnamed hleft.names hleft.fresh.notRoot.symm path

/-- nor the content of what a path leads to. -/
theorem Untouched.content_eq (h : fs.Untouched fs') (hpath : fs.lookup path = some (n, kind)) :
    fs'.content n = fs.content n := by
  rcases h with rfl | ⟨m, hleft⟩
  · rfl
  · obtain ⟨q, x, hname⟩ := exists_name_of_walk hpath
    exact hleft.content n (hleft.fresh.unnamed q x _ hname)

/-- A content that the direct blocks hold is kept as it is. -/
theorem Keeps.eq {content stored : List UInt8} (h : Keeps content stored)
    (hlen : content.length ≤ directBytes) : stored = content := by
  rcases h with rfl | rfl
  · rfl
  · exact List.take_of_length_le hlen

/-- The last name of a path that leads somewhere through `p`. -/
theorem lookup_last (hne : path.dropLast ≠ [])
    (hparent : fs.lookup path.dropLast = some (p, kind)) :
    fs.lookup path = fs.names p (path.getLastD []) := by
  induction path using List.reverseRecOn with
  | nil => exact absurd rfl hne
  | append_singleton names name _ =>
    rw [List.dropLast_concat] at hne hparent
    rw [lookup] at hparent ⊢
    rw [walk_concat hne, hparent, List.getLastD_concat, Option.bind_some]

theorem ne_nil_of_lookup {b : Nat × Nat} (h : fs.lookup path = some b) : path ≠ [] := by
  rintro rfl
  cases h

/-- The name is new. -/
theorem Place.free (h : fs.Place path p) : fs.names p (path.getLastD []) = none :=
  (lookup_last (ne_nil_of_lookup h.parent) h.parent).symm.trans h.absent

end

end FileSystem
end Ext2
end OsAssignments
