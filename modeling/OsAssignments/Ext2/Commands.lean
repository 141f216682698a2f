import OsAssignments.Ext2.Directory

/-!
# The commands

`ext2_mkdir`, `ext2_ln`, `ext2_cp` and `ext2_rm` as programs on the image.

* `splitPath`, `afterStrtok` — the components of a path, and what `strtok` leaves of the
  string it was called with.
* `traversePath` — the entry a list of components leads to.
* `allocateDirInode`, `allocateLinkInode`, `allocateFileInode`, `writePathToSymlinkInode`.
* `ext2Mkdir`, `ext2Ln`, `ext2Cp`, `ext2Rm`.

`now` is what `time` returns, and `host` the files `fopen` can open with what is in them.
The image is mapped shared: what a command has written stays, also when it exits.
-/

namespace OsAssignments
namespace Ext2

open ByteMemory MachineWord ExitState

/-! ## Paths -/

/-- The character `/`. -/
def slash : UInt8 := 47

/-- `"."`. -/
def dot : CString := [46]

/-- `".."`. -/
def dotDot : CString := [46, 46]

/-- `split_path`; `strtok` returns no empty tokens. -/
def splitPath (path : CString) : List CString :=
  dot :: (path.splitOn slash).filter fun token => decide (token ≠ [])

/-- The string a path has become after `split_path`: `strtok` has put a NUL behind the
first token. -/
def afterStrtok (path : CString) : CString :=
  path.takeWhile (fun c => decide (c = slash)) ++
    (path.dropWhile fun c => decide (c = slash)).takeWhile fun c => decide (c ≠ slash)

/-- `is_directory`. -/
def isDirectory (d : Disk) : Option Nat → Bool
  | none => false
  | some entry => decide (entryFileType d.data entry = ext2FtDir)

/-- `EXT2_ROOT_INO`. -/
def ext2RootIno : Nat := 2

/-- The loop of `traverse_path`, with the entry found last and the inode to look into. -/
def traverseFrom (d : Disk) : Option Nat → Nat → List CString → Option Nat
  | entry, _, [] => entry
  | _, entryInodeNum, component :: rest =>
    match findMatchingEntry d entryInodeNum component with
    | none => none
    | some entry =>
      if isDirectory d (some entry) then
        traverseFrom d (some entry) (entryInode d.data entry) rest
      else if rest = [] then some entry
      else none

/-- `traverse_path`. -/
def traversePath (d : Disk) (pathComponents : List CString) : Option Nat :=
  traverseFrom d none ext2RootIno pathComponents

/-! ## New inodes -/

/-- `EXT2_S_IFLNK`. -/
def ext2SIflnk : Nat := 0xA000

/-- `EXT2_S_IFREG`. -/
def ext2SIfreg : Nat := 0x8000

/-- `EXT2_S_IFDIR`. -/
def ext2SIfdir : Nat := 0x4000

/-- The fields all three functions set.  The inode with number 0, which `allocate_inode`
returns if the bitmap has no clear bit, lies far behind the mapping. -/
def allocateTypedInode (now mode size : Nat) : Command Nat := do
  let inodeNum ← allocateInode
  if inodeNum = 0 then Command.crash
  else
    Command.modify fun d => d.modifyInode inodeNum fun i => { i with
      iMode := mode
      iSize := size
      iCtime := now
      iDtime := 0
      iBlocks := 0
      iLinksCount := 1 }
    pure inodeNum

/-- `allocate_dir_inode`. -/
def allocateDirInode (now : Nat) : Command Nat := do
  let dirInodeNum ← allocateTypedInode now ext2SIfdir ext2BlockSize
  Command.modify fun d =>
    { d with groupDesc := { d.groupDesc with
      bgUsedDirsCount := wrap 16 (d.groupDesc.bgUsedDirsCount + 1 : Nat) } }
  pure dirInodeNum

/-- `allocate_link_inode`. -/
def allocateLinkInode (now : Nat) (source : CString) : Command Nat :=
  allocateTypedInode now ext2SIflnk (wrap 32 source.length)

/-- `allocate_file_inode`; the mode is that of an entry. -/
def allocateFileInode (now size : Nat) : Command Nat :=
  allocateTypedInode now ext2FtRegFile size

/-- `ENOENT`. -/
def eNoEnt : Nat := 2

/-- `EEXIST`. -/
def eExist : Nat := 17

/-- `EISDIR`. -/
def eIsDir : Nat := 21

/-- `ENAMETOOLONG`. -/
def eNameTooLong : Nat := 36

/-- `write_path_to_symlink_inode`; `strcpy` writes the NUL, too. -/
def writePathToSymlinkInode (inode : Nat) (content : CString) : Command Unit := do
  if content.length < ext2BlockSize then
    let blockNum ← allocateBlockOnInode inode 0
    Command.modify fun d => d.withData (writeBytes d.data (getBlock blockNum) (content ++ [0]))
  else Command.exit eNameTooLong

/-! ## The commands -/

/-- What `ext2_mkdir` does if an entry cannot be made. -/
def undoInode (now inodeNum : Nat) : Command Unit := do
  Command.modify fun d => freeInode now d inodeNum
  Command.exit 1

/-- `ext2_mkdir`, once it has checked its path. -/
def makeDirectory (now parentEntry : Nat) (newDir : CString) : Command Unit := do
  let dirInodeNum ← allocateDirInode now
  let self ← makeEntryInInode dirInodeNum dirInodeNum dot ext2FtDir
  if self = none then undoInode now dirInodeNum
  else
    let d ← Command.get
    let parent ← makeEntryInInode dirInodeNum (entryInode d.data parentEntry) dotDot ext2FtDir
    if parent = none then undoInode now dirInodeNum
    else
      let d ← Command.get
      let child ← makeEntryInInode (entryInode d.data parentEntry) dirInodeNum newDir ext2FtDir
      if child = none then undoInode now dirInodeNum
      else pure ()

/-- `ext2_mkdir`. -/
def ext2Mkdir (now : Nat) (path : CString) : Command Unit := do
  let components := splitPath path
  let d ← Command.get
  if components.dropLast = [] then Command.exit eExist
  else
    match traversePath d components.dropLast with
    | none => Command.exit eNoEnt
    | some parentEntry =>
      if isDirectory d (some parentEntry) = false then Command.exit eNoEnt
      else if traversePath d components ≠ none then Command.exit eExist
      else makeDirectory now parentEntry (components.getLastD [])

/-- The two kinds of links that `ext2_ln` makes, once it has checked its paths. -/
def makeLink (now : Nat) (source : CString) (srcEntry dstParentEntry : Nat) (dstFileName : CString)
    (isSymLink : Bool) : Command (Option Nat) := do
  let d ← Command.get
  let dstParentInode := entryInode d.data dstParentEntry
  if isSymLink then
    let symInodeNum ← allocateLinkInode now source
    writePathToSymlinkInode symInodeNum source
    let attempt ← makeEntryInInode dstParentInode symInodeNum dstFileName ext2FtSymlink
    if attempt = none then
      Command.modify fun d => freeInode now d symInodeNum
    pure attempt
  else
    let attempt ← makeEntryInInode dstParentInode (entryInode d.data srcEntry) dstFileName
      ext2FtRegFile
    Command.modify fun d => d.modifyInode (entryInode d.data srcEntry) fun i =>
      { i with iLinksCount := wrap 16 (i.iLinksCount + 1 : Nat) }
    pure attempt

/-- `ext2_ln`. -/
def ext2Ln (now : Nat) (source dest : CString) (isSymLink : Bool) : Command Unit := do
  let d ← Command.get
  let dstComponents := splitPath dest
  match traversePath d (splitPath source) with
  | none => Command.exit eNoEnt
  | some srcEntry =>
    if isDirectory d (some srcEntry) then Command.exit eIsDir
    else if isDirectory d (traversePath d dstComponents) then Command.exit eIsDir
    else if traversePath d dstComponents ≠ none then Command.exit eExist
    else
      match traversePath d dstComponents.dropLast with
      | none => Command.exit eExist
      | some dstParentEntry =>
        let attempt ← makeLink now (afterStrtok source) srcEntry dstParentEntry
          (dstComponents.getLastD []) isSymLink
        if attempt = none then Command.exit 1
        else pure ()

/-- The components of the destination of `ext2_cp`: if it is a directory, the name of the
source is added. -/
def destComponents (d : Disk) (source dest : CString) : List CString :=
  if isDirectory d (traversePath d (splitPath dest)) then
    splitPath dest ++ [(splitPath source).getLastD []]
  else splitPath dest

/-- The inode that `ext2_cp` copies to. -/
def receivingInode (now numBlocksNeeded fSize : Nat) (destEntry : Option Nat) (dstParentEntry : Nat)
    (destName : CString) : Command Nat := do
  match destEntry with
  | some entry =>
    let d ← Command.get
    pure (entryInode d.data entry)
  | none =>
    if numBlocksNeeded > inodeBlockLimit then Command.exit 1
    else
      let inodeNum ← allocateFileInode now (wrap 32 fSize)
      let d ← Command.get
      let _ ← makeEntryInInode (entryInode d.data dstParentEntry) inodeNum destName ext2FtRegFile
      pure inodeNum

/-- `ext2_cp`. -/
def ext2Cp (now : Nat) (host : CString → Option (List UInt8)) (source dest : CString) :
    Command Unit := do
  let d ← Command.get
  let components := destComponents d source dest
  let destEntry := traversePath d components
  match host (afterStrtok source) with
  | none => Command.exit eNoEnt
  | some content =>
    let blocks ← allocateBlocks (getRequiredBlockCount content.length)
    let d ← Command.get
    match traversePath d components.dropLast with
    | none => Command.exit eExist
    | some dstParentEntry =>
      let inode ← receivingInode now (getRequiredBlockCount content.length) content.length
        destEntry dstParentEntry (components.getLastD [])
      attachContent now inode blocks content

/-- `ext2_rm`. -/
def ext2Rm (now : Nat) (path : CString) : Command Unit := do
  let components := splitPath path
  let d ← Command.get
  match traversePath d components with
  | none => Command.exit eNoEnt
  | some entry =>
    if isDirectory d (some entry) then Command.exit eIsDir
    else
      match traversePath d components.dropLast with
      | none => Command.crash
      | some parentEntry =>
        let inode := entryInode d.data entry
        Command.modify fun d =>
          deleteChildEntry d (entryInode d.data parentEntry) (components.getLastD [])
        Command.modify fun d => d.modifyInode inode fun i =>
          { i with iLinksCount := wrap 16 (i.iLinksCount - 1 : Int) }
        let d ← Command.get
        if (d.inodeTable inode).iLinksCount = 0 then
          Command.modify fun d => freeInode now d (entryInode d.data entry)
        else pure ()

end Ext2
end OsAssignments
