import BochsOs.Fs.Inode

/-!
# Directories

`fs/dir.c`.  The blocks of a directory hold arrays of 24-byte entries; an entry of
type `FT_UNKNOWN` is free.  `searchDirEntry` looks a name up, `syncDirEntry` adds
an entry, `deleteDirEntry` removes the entry of an inode number, `dirRead`
delivers the entries one after the other.
-/

namespace BochsOs

open ByteMemory Suspend Suspend.Prog

/-- `enum file_types`; a word read from the disk can also be none of them. -/
inductive FileType where
  | unknown
  | regular
  | directory
  | other (code : ℕ)
  deriving DecidableEq, Repr

/-- The word that stands for a file type. -/
def FileType.code : FileType → ℕ
  | unknown => 0
  | regular => 1
  | directory => 2
  | other code => code

/-- The file type a word stands for. -/
def FileType.ofCode : ℕ → FileType
  | 0 => unknown
  | 1 => regular
  | 2 => directory
  | code => other code

/-- `MAX_FILE_NAME_LEN`. -/
def maxFileNameLen : ℕ := 16

/-- `sizeof(struct dir_entry)`. -/
def direntSize : ℕ := 24

/-- `struct dir_entry`; the bytes of `filename` after the given ones are zero. -/
structure DirEntry where
  filename : List UInt8
  iNo : ℕ
  fType : FileType

/-- The bytes of a `struct dir_entry`. -/
def DirEntry.image (e : DirEntry) : Bytes :=
  writeU32 (writeU32 (fun a => e.filename.getD a 0) 16 e.iNo) 20 e.fType.code

/-- The `i_no` of the entry at `a`. -/
def entryINo (m : Bytes) (a : ℕ) : ℕ := readU32 m (a + 16)

/-- The `f_type` of the entry at `a`. -/
def entryType (m : Bytes) (a : ℕ) : FileType := .ofCode (readU32 m (a + 20))

/-- `strcmp` of the string at `a` with `s` is zero. -/
def strEq (m : Bytes) : ℕ → List UInt8 → Bool
  | a, [] => m a = 0
  | a, c :: s => m a = c && strEq m (a + 1) s

/-- `'.'`. -/
def dotChar : UInt8 := 46

/-- The name `"."`. -/
def dotName : List UInt8 := [dotChar]

/-- The name `".."`. -/
def dotDotName : List UInt8 := [dotChar, dotChar]

/-- The first block of a directory: the entries `.` and `..`. -/
def dotEntries (self parent : ℕ) : Bytes :=
  copy (copy zeroBuf 0 (DirEntry.image ⟨dotName, self, .directory⟩) 0 direntSize) direntSize
    (DirEntry.image ⟨dotDotName, parent, .directory⟩) 0 direntSize

/-- `&root_dir`. -/
def rootDir : ℕ := 0

/-- `open_root_dir`. -/
def openRootDir (t : Transfer) : Prog Kernel Unit := do
  let k ← read
  let a ← inodeOpen t k.part.sb.rootInodeNo
  modify fun k => { k with dirs := Function.update k.dirs rootDir ⟨a, 0⟩ }

/-- `dir_open`. -/
def dirOpen (t : Transfer) (inodeNo : ℕ) : Prog Kernel ℕ := do
  sysMallocUnchecked
  let a ← inodeOpen t inodeNo
  let k ← read
  write { k with
    dirs := Function.update k.dirs k.nextDir ⟨a, 0⟩
    nextDir := k.nextDir + 1
    liveDirs := k.nextDir :: k.liveDirs }
  return k.nextDir

/-- `dir_close`. -/
def dirClose (dir : ℕ) : Prog Kernel Unit := do
  if dir = rootDir then return ()
  else
    let k ← read
    if dir ∈ k.liveDirs then
      inodeClose (k.dirs dir).inode
      modify fun k => { k with liveDirs := k.liveDirs.erase dir }
    else stop .undefined

/-- The inode of an open directory. -/
def Kernel.dirInode (k : Kernel) (dir : ℕ) : Inode := k.inodes (k.dirs dir).inode

/-- The number of entries of a sector. -/
def Kernel.entriesPerSec (k : Kernel) : ℕ := sectorSize / k.part.sb.dirEntrySize

/-- The blocks loop of `search_dir_entry` from pointer `blkI` on: the inode number
and type of the first entry called `name`. -/
def searchBlocks (t : Transfer) (allBlocks : ℕ → ℕ) (name : List UInt8) :
    (left blkI : ℕ) → Prog Kernel (Option (ℕ × FileType))
  | 0, _ => return none
  | left + 1, blkI => do
      if allBlocks blkI = 0 then searchBlocks t allBlocks name left (blkI + 1)
      else
        let buf ← ideRead t (allBlocks blkI) zeroBuf 1
        let k ← read
        match (List.range k.entriesPerSec).find? fun i => strEq buf (direntSize * i) name with
        | some i => return some (entryINo buf (direntSize * i), entryType buf (direntSize * i))
        | none => searchBlocks t allBlocks name left (blkI + 1)

/-- `search_dir_entry`. -/
def searchDirEntry (t : Transfer) (pdir : ℕ) (name : List UInt8) :
    Prog Kernel (Option (ℕ × FileType)) := do
  let ok ← sysMalloc
  if ok then
    let k ← read
    let iSectors := (k.dirInode pdir).iSectors
    let table ← readIndirect t iSectors
    sysMallocUnchecked
    searchBlocks t (flattenBlocks iSectors table) name flattenPtrs 0
  else return none

/-- `create_dir_entry` on a cleared entry. -/
def createDirEntry (filename : List UInt8) (inodeNo : ℕ) (fileType : FileType) :
    Prog Kernel DirEntry := do
  assert (filename.length ≤ maxFileNameLen)
  return ⟨filename, inodeNo, fileType⟩

/-- Change the inode of an open directory. -/
def modifyDirInode (dir : ℕ) (f : Inode → Inode) : Prog Kernel Unit :=
  modify fun k => k.setInode (k.dirs dir).inode (f (k.dirInode dir))

/-- `dir_inode->i_sectors[i] = lba`. -/
def Inode.setSector (inode : Inode) (i lba : ℕ) : Inode :=
  { inode with iSectors := Function.update inode.iSectors i lba }

/-- `dir_inode->i_size += size`. -/
def Inode.grow (inode : Inode) (size : ℕ) : Inode := { inode with iSize := inode.iSize + size }

/-- The words of `all_blocks + 12` as the bytes of an indirect table. -/
def indirectImage (allBlocks : ℕ → ℕ) : Bytes := wordImage fun i => allBlocks (directPtrs + i)

/-- The end of the first branch of `sync_dir_entry`'s loop: the new block of the
directory holds the entry and nothing else. -/
def writeNewBlock (t : Transfer) (parentDir : ℕ) (e : DirEntry) (lba : ℕ) : Prog Kernel Bool := do
  let k ← read
  ideWrite t lba (copy zeroBuf 0 e.image 0 k.part.sb.dirEntrySize) 1
  modifyDirInode parentDir (·.grow k.part.sb.dirEntrySize)
  return true

/-- The first branch of `sync_dir_entry`'s loop: pointer `blkI` is free, so a new
block is attached to the directory. -/
def syncNewBlock (t : Transfer) (parentDir : ℕ) (e : DirEntry) (blkI : ℕ) (allBlocks : ℕ → ℕ)
    (hasFlatten : Bool) : Prog Kernel Bool := do
  match ← blockBitmapAlloc with
  | none => return false
  | some blkLba =>
      let k ← read
      let dataStart := k.part.sb.dataStartLba
      assert (subU32 blkLba dataStart ≠ 2 ^ 32 - 1)
      bitmapSync t (subU32 blkLba dataStart) .blockBitmap
      if blkI < directPtrs then
        modifyDirInode parentDir (·.setSector blkI blkLba)
        writeNewBlock t parentDir e blkLba
      else if blkI = directPtrs ∧ hasFlatten = false then
        -- the block just taken becomes the indirect table
        modifyDirInode parentDir (·.setSector directPtrs blkLba)
        match ← blockBitmapAlloc with
        | none =>
            setBlockBit (subU32 blkLba dataStart) false
            modifyDirInode parentDir (·.setSector directPtrs 0)
            return false
        | some entryLba =>
            assert (subU32 entryLba dataStart ≠ 2 ^ 32 - 1)
            bitmapSync t (subU32 entryLba dataStart) .blockBitmap
            ideWrite t blkLba (indirectImage (Function.update allBlocks directPtrs entryLba)) 1
            writeNewBlock t parentDir e entryLba
      else
        let k ← read
        ideWrite t ((k.dirInode parentDir).iSectors directPtrs)
          (indirectImage (Function.update allBlocks blkI blkLba)) 1
        writeNewBlock t parentDir e blkLba

/-- The loop of `sync_dir_entry`.  A loop that is still running after `fuel` rounds
goes round for ever: only the load of the indirect table leaves `blk_i` as it is. -/
def syncLoop (t : Transfer) (parentDir : ℕ) (e : DirEntry) :
    (fuel blkI : ℕ) → (allBlocks : ℕ → ℕ) → (hasFlatten : Bool) → Prog Kernel Bool
  | 0, _, _, _ => stop .hang
  | fuel + 1, blkI, allBlocks, hasFlatten => do
      if flattenPtrs ≤ blkI then return false
      else if allBlocks blkI = 0 then syncNewBlock t parentDir e blkI allBlocks hasFlatten
      else if blkI = directPtrs then
        let k ← read
        let table ← ideRead t ((k.dirInode parentDir).iSectors directPtrs) zeroBuf 1
        syncLoop t parentDir e fuel blkI
          (fun i => if i < directPtrs then allBlocks i else readU32 table (4 * (i - directPtrs))) true
      else
        let buf ← ideRead t (allBlocks blkI) zeroBuf 1
        let k ← read
        match (List.range k.entriesPerSec).find? fun i =>
            entryType buf (direntSize * i) = .unknown with
        | some i =>
            ideWrite t (allBlocks blkI)
              (copy buf (direntSize * i) e.image 0 k.part.sb.dirEntrySize) 1
            modifyDirInode parentDir (·.grow k.part.sb.dirEntrySize)
            return true
        | none => syncLoop t parentDir e fuel (blkI + 1) allBlocks hasFlatten

/-- `sync_dir_entry`: add an entry to a directory. -/
def syncDirEntry (t : Transfer) (parentDir : ℕ) (e : DirEntry) : Prog Kernel Bool := do
  let k ← read
  let dirInode := k.dirInode parentDir
  assert (dirInode.iSize % k.part.sb.dirEntrySize = 0)
  syncLoop t parentDir e (flattenPtrs + 2) 0
    (fun i => if i < directPtrs then dirInode.iSectors i else 0) false

/-- What the entry loop of `delete_dir_entry` finds in a block: the index of the
entry with the inode number, the number of entries other than `.` and `..`, and
whether `.` is among them. -/
structure BlockScan where
  found : Option ℕ
  cnt : ℕ
  isDirFirstBlock : Bool

/-- One round of the entry loop of `delete_dir_entry`. -/
def scanEntry (buf : Bytes) (inodeNo : ℕ) (scan : BlockScan) (i : ℕ) : Prog Kernel BlockScan :=
  let a := direntSize * i
  if entryType buf a = .unknown then return scan
  else if strEq buf a dotName then return { scan with isDirFirstBlock := true }
  else if strEq buf a dotDotName then return scan
  else if entryINo buf a = inodeNo then do
    assert scan.found.isNone
    return { scan with cnt := scan.cnt + 1, found := some i }
  else return { scan with cnt := scan.cnt + 1 }

/-- The entry loop of `delete_dir_entry` from entry `i` on. -/
def scanEntries (buf : Bytes) (inodeNo : ℕ) : (left i : ℕ) → BlockScan → Prog Kernel BlockScan
  | 0, _, scan => return scan
  | left + 1, i, scan => do
      let scan ← scanEntry buf inodeNo scan i
      scanEntries buf inodeNo left (i + 1) scan

/-- Detach and free the block of pointer `blkI`.  For an indirect block the count of
indirect blocks is a loop whose index is never advanced. -/
def deleteBlock (t : Transfer) (pdir blkI lba : ℕ) : Prog Kernel Unit := do
  let k ← read
  let blockBitmapIdx := subU32 lba k.part.sb.dataStartLba
  setBlockBit blockBitmapIdx false
  bitmapSync t blockBitmapIdx .blockBitmap
  if blkI < directPtrs then modifyDirInode pdir (·.setSector blkI 0) else stop .hang

/-- The end of `delete_dir_entry`: the directory is one entry smaller. -/
def deleteFinish (t : Transfer) (pdir : ℕ) : Prog Kernel Bool := do
  let k ← read
  assert (k.part.sb.dirEntrySize ≤ (k.dirInode pdir).iSize)
  modifyDirInode pdir fun inode => { inode with iSize := inode.iSize - k.part.sb.dirEntrySize }
  let k ← read
  inodeSync t (k.dirInode pdir) 2
  return true

/-- The blocks loop of `delete_dir_entry` from pointer `blkI` on. -/
def deleteLoop (t : Transfer) (pdir inodeNo : ℕ) (allBlocks : ℕ → ℕ) :
    (left blkI : ℕ) → Prog Kernel Bool
  | 0, _ => return false
  | left + 1, blkI => do
      if allBlocks blkI = 0 then deleteLoop t pdir inodeNo allBlocks left (blkI + 1)
      else
        let buf ← ideRead t (allBlocks blkI) zeroBuf 1
        let k ← read
        let scan ← scanEntries buf inodeNo k.entriesPerSec 0 ⟨none, 0, false⟩
        match scan.found with
        | none => deleteLoop t pdir inodeNo allBlocks left (blkI + 1)
        | some i =>
            if scan.cnt = 1 ∧ scan.isDirFirstBlock = false then
              deleteBlock t pdir blkI (allBlocks blkI)
            else
              ideWrite t (allBlocks blkI)
                (fill buf (direntSize * i) k.part.sb.dirEntrySize 0) 1
            deleteFinish t pdir

/-- `delete_dir_entry`: remove the entry of an inode number from a directory. -/
def deleteDirEntry (t : Transfer) (pdir inodeNo : ℕ) : Prog Kernel Bool := do
  let k ← read
  let iSectors := (k.dirInode pdir).iSectors
  let table ← readIndirect t iSectors
  deleteLoop t pdir inodeNo (flattenBlocks iSectors table) flattenPtrs 0

/-- Change the position of a directory handle. -/
def modifyDirPos (dir : ℕ) (f : ℕ → ℕ) : Prog Kernel Unit :=
  modify fun k =>
    { k with dirs := Function.update k.dirs dir ⟨(k.dirs dir).inode, f (k.dirs dir).dirPos⟩ }

/-- The entry loop of `dir_read` from entry `i` on, with `pos` the position of the
next used entry.  It stops at the used entry that lies at `dirPos`, or returns the
position reached at the end of the block. -/
def readEntries (buf : Bytes) (entrySize dirPos : ℕ) :
    (left i pos : ℕ) → Prog Kernel (ℕ ⊕ ℕ)
  | 0, _, pos => return .inl pos
  | left + 1, i, pos => do
      if entryType buf (direntSize * i) = .unknown then
        readEntries buf entrySize dirPos left (i + 1) pos
      else if pos < dirPos then readEntries buf entrySize dirPos left (i + 1) (pos + entrySize)
      else do
        assert (pos = dirPos)
        return .inr i

/-- The blocks loop of `dir_read` from pointer `blkI` on; an empty pointer is skipped
together with the one after it. -/
def readLoop (t : Transfer) (dir : ℕ) (allBlocks : ℕ → ℕ) (blockCnt : ℕ) :
    (fuel blkI pos : ℕ) → Prog Kernel (Option (Bytes × ℕ))
  | 0, _, _ => return none
  | fuel + 1, blkI, pos => do
      let k ← read
      if blockCnt ≤ blkI then return none
      else if (k.dirInode dir).iSize ≤ (k.dirs dir).dirPos then return none
      else if allBlocks blkI = 0 then readLoop t dir allBlocks blockCnt fuel (blkI + 2) pos
      else
        let buf ← ideRead t (allBlocks blkI) zeroBuf 1
        let k ← read
        let size := k.part.sb.dirEntrySize
        match ← readEntries buf size (k.dirs dir).dirPos k.entriesPerSec 0 pos with
        | .inl pos => readLoop t dir allBlocks blockCnt fuel (blkI + 1) pos
        | .inr i =>
            modifyDirPos dir (· + size)
            return some (buf, direntSize * i)

/-- `dir_read`: the block of the next entry and its place in it. -/
def dirRead (t : Transfer) (dir : ℕ) : Prog Kernel (Option (Bytes × ℕ)) := do
  let k ← read
  let iSectors := (k.dirInode dir).iSectors
  let table ← readIndirect t iSectors
  let blockCnt := if iSectors directPtrs ≠ 0 then flattenPtrs else directPtrs
  readLoop t dir (flattenBlocks iSectors table) blockCnt flattenPtrs 0 0

/-- `dir_is_empty`: the size is that of `.` and `..`. -/
def dirIsEmpty (dir : ℕ) : Prog Kernel Bool := do
  let k ← read
  return (k.dirInode dir).iSize = k.part.sb.dirEntrySize * 2

/-- `dir_remove`: remove an empty directory. -/
def dirRemove (t : Transfer) (parentDir childDir : ℕ) : Prog Kernel ℤ := do
  let k ← read
  let child := k.dirInode childDir
  assert ((List.range' 1 (totalPtrs - 1)).all fun blkI => child.iSectors blkI = 0)
  let ok ← sysMalloc
  if ok then
    let _ ← deleteDirEntry t parentDir child.iNo
    inodeRelease t child.iNo
    return 0
  else return -1

end BochsOs
