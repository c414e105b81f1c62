import BochsOs.Fs.Dir

/-!
# Files

The second part of `fs/file.c`.  An open file is an entry of `file_table` that
points to an open inode.  Writing always appends: `fileWrite` first makes sure that
the blocks of the new size exist, one more than the bytes need when the size is a
multiple of the block size, and then writes block by block.  `fileRead` reads from
`fd_pos` on.
-/

namespace BochsOs

open ByteMemory Suspend Suspend.Prog

/-- `O_WRONLY`. -/
def oWronly : ℕ := 1

/-- `O_RDWR`. -/
def oRdwr : ℕ := 2

/-- `O_CREAT`. -/
def oCreat : ℕ := 4

/-- `flag & O_WRONLY || flag & O_RDWR`. -/
def wantsWrite (flag : ℕ) : Bool := flag &&& oWronly ≠ 0 || flag &&& oRdwr ≠ 0

/-- `BLOCK_SIZE * FLATTEN_PTRS`. -/
def maxFileSize : ℕ := sectorSize * flattenPtrs

/-! ## Creating, opening and closing -/

/-- `file_create`: a new file in a directory, opened. -/
def fileCreate (t : Transfer) (parentDir : ℕ) (filename : List UInt8) (flag : ℕ) :
    Prog Kernel ℤ := do
  let ok ← sysMalloc
  if !ok then return -1 else
  match ← inodeBitmapAlloc with
  | none => return -1
  | some inodeNo =>
      let ok ← sysMalloc
      if !ok then
        setInodeBit inodeNo false
        return -1
      else
      let k ← read
      let a := k.nextInode
      write { k.setInode a (inodeInit inodeNo) with nextInode := a + 1 }
      match ← getFreeSlotInGlobal with
      | none =>
          setInodeBit inodeNo false
          return -1
      | some fdI =>
          modify (·.setFile fdI ⟨0, flag, some a⟩)
          let e ← createDirEntry filename inodeNo .regular
          if ← syncDirEntry t parentDir e then
            let k ← read
            inodeSync t (k.dirInode parentDir) 2
            let k ← read
            inodeSync t (k.inodes a) 2
            bitmapSync t inodeNo .inodeBitmap
            modify fun k =>
              { k.setInode a { k.inodes a with iOpenCnts := 1 } with
                openInodes := a :: k.openInodes }
            pcbFdInstall fdI
          else
            modify (·.setFile fdI ⟨0, 0, none⟩)
            setInodeBit inodeNo false
            return -1

/-- `file_open`.  When the file has a writer already, the entry stays taken. -/
def fileOpen (t : Transfer) (inodeNo flag : ℕ) : Prog Kernel ℤ := do
  match ← getFreeSlotInGlobal with
  | none => return -1
  | some fdI =>
      let a ← inodeOpen t inodeNo
      modify (·.setFile fdI ⟨0, flag, some a⟩)
      if wantsWrite flag then
        let k ← read
        if (k.inodes a).writeDeny then return -1
        else
          write (k.setInode a { k.inodes a with writeDeny := true })
          pcbFdInstall fdI
      else pcbFdInstall fdI

/-- `file_close` on entry `fd` of `file_table`. -/
def fileClose (fd : ℕ) : Prog Kernel ℤ := do
  let k ← read
  match (k.fileTable fd).fdInode with
  | none => stop .undefined
  | some a =>
      write (k.setInode a { k.inodes a with writeDeny := false })
      inodeClose a
      modify fun k => k.setFile fd { k.fileTable fd with fdInode := none }
      return 0

/-! ## Writing -/

/-- Change the inode at `a`. -/
def modifyInode (a : ℕ) (f : Inode → Inode) : Prog Kernel Unit :=
  modify fun k => k.setInode a (f (k.inodes a))

/-- The loops of `file_write` that take a block for each pointer from `blkI` on.  All
three loops of the source are this one: pointers below 12 go to the inode and to
`all_blocks`, the others to `all_blocks` alone.  `none` is the early `return -1`. -/
def allocBlocks (t : Transfer) (a : ℕ) :
    (left blkI : ℕ) → (ℕ → ℕ) → Prog Kernel (Option (ℕ → ℕ))
  | 0, _, allBlocks => return some allBlocks
  | left + 1, blkI, allBlocks => do
      match ← blockBitmapAlloc with
      | none => return none
      | some blockLba =>
          let k ← read
          if blkI < directPtrs then do
            assert ((k.inodes a).iSectors blkI = 0)
            modifyInode a (·.setSector blkI blockLba)
          bitmapSync t (subU32 blockLba k.part.sb.dataStartLba) .blockBitmap
          allocBlocks t a left (blkI + 1) (Function.update allBlocks blkI blockLba)

/-- The first allocation of `file_write`: an empty file gets its first block. -/
def allocFirst (t : Transfer) (a : ℕ) : Prog Kernel Bool := do
  let k ← read
  if (k.inodes a).iSectors 0 = 0 then
    match ← blockBitmapAlloc with
    | none => return false
    | some blockLba =>
        modifyInode a (·.setSector 0 blockLba)
        let blockBitmapIdx := subU32 blockLba k.part.sb.dataStartLba
        assert (blockBitmapIdx ≠ 0)
        bitmapSync t blockBitmapIdx .blockBitmap
        return true
  else return true

/-- `all_blocks` with the indirect table read into its upper part. -/
def withIndirect (allBlocks : ℕ → ℕ) (table : Bytes) : ℕ → ℕ :=
  fun i => if directPtrs ≤ i ∧ i < flattenPtrs then readU32 table (4 * (i - directPtrs))
    else allBlocks i

/-- `all_blocks` with the pointers `first`, …, `last` of the inode in it. -/
def directPart (iSectors : ℕ → ℕ) (first last : ℕ) : ℕ → ℕ :=
  fun i => if first ≤ i ∧ i ≤ last then iSectors i else 0

/-- The block map of `file_write`: `all_blocks` for the blocks the write touches, with
the blocks that are missing taken from the bitmap.  `has` and `will` are
`file_has_used_blocks` and `file_will_use_blocks`. -/
def buildBlocks (t : Transfer) (a has will : ℕ) : Prog Kernel (Option (ℕ → ℕ)) := do
  let k ← read
  let iSectors := (k.inodes a).iSectors
  if subU32 will has = 0 then
    if has ≤ directPtrs then return some (directPart iSectors (has - 1) (has - 1))
    else
      assert (iSectors directPtrs ≠ 0)
      let table ← ideRead t (iSectors directPtrs) zeroBuf 1
      return some (withIndirect (fun _ => 0) table)
  else if will ≤ directPtrs then
    assert (iSectors (has - 1) ≠ 0)
    allocBlocks t a (will - has) has (directPart iSectors (has - 1) (has - 1))
  else if has ≤ directPtrs then
    match ← blockBitmapAlloc with
    | none => return none
    | some tableLba =>
        assert (iSectors directPtrs = 0)
        modifyInode a (·.setSector directPtrs tableLba)
        match ← allocBlocks t a (will - has) has (directPart iSectors (has - 1) (has - 1)) with
        | none => return none
        | some allBlocks =>
            ideWrite t tableLba (indirectImage allBlocks) 1
            return some allBlocks
  else
    assert (iSectors directPtrs ≠ 0)
    let table ← ideRead t (iSectors directPtrs) zeroBuf 1
    match ← allocBlocks t a (will - has) has (withIndirect (fun _ => 0) table) with
    | none => return none
    | some allBlocks =>
        ideWrite t (iSectors directPtrs) (indirectImage allBlocks) 1
        return some allBlocks

/-- The last loop of `file_write`: `written` of the `count` bytes of `src` are on
disk.  Every round writes at least one byte, so `fuel` rounds suffice for `fuel`
bytes. -/
def writeLoop (t : Transfer) (fd a : ℕ) (allBlocks : ℕ → ℕ) (src : Bytes) (count : ℕ) :
    (fuel written : ℕ) → (firstWriteBlock : Bool) → Prog Kernel Unit
  | 0, _, _ => return ()
  | fuel + 1, written, firstWriteBlock => do
      if count ≤ written then return ()
      else
        let k ← read
        let size := (k.inodes a).iSize
        let secIdx := size / sectorSize
        if flattenPtrs ≤ secIdx then stop .undefined
        else
          let secOffBytes := size % sectorSize
          let chunkSize := min (count - written) (sectorSize - secOffBytes)
          let ioBuf ← if firstWriteBlock then ideRead t (allBlocks secIdx) zeroBuf 1
            else pure zeroBuf
          ideWrite t (allBlocks secIdx) (copy ioBuf secOffBytes src written chunkSize) 1
          modifyInode a (·.grow chunkSize)
          modify fun k => k.setFile fd
            { k.fileTable fd with fdPos := ((k.fileTable fd).fdPos + chunkSize) % 2 ^ 32 }
          writeLoop t fd a allBlocks src count fuel (written + chunkSize) false

/-- `file_write` on entry `fd` of `file_table`. -/
def fileWrite (t : Transfer) (fd : ℕ) (buf : Bytes) (count : ℕ) : Prog Kernel ℤ := do
  let k ← read
  match (k.fileTable fd).fdInode with
  | none => stop .undefined
  | some a =>
      let size := (k.inodes a).iSize
      if maxFileSize < (size + count) % 2 ^ 32 then return -1
      else
      let ok ← sysMalloc
      if !ok then return -1
      else
      let ok ← sysMalloc
      if !ok then return -1
      else
      if !(← allocFirst t a) then return -1
      else
      let has := size / sectorSize + 1
      let will := (size + count) % 2 ^ 32 / sectorSize + 1
      assert (will ≤ flattenPtrs)
      match ← buildBlocks t a has will with
      | none => return -1
      | some allBlocks =>
          modify fun k => k.setFile fd { k.fileTable fd with fdPos := subU32 size 1 }
          writeLoop t fd a allBlocks buf count count 0 true
          let k ← read
          -- `io_buf` is one sector here, also for an inode that lies in two
          inodeSync t (k.inodes a) 1
          return count

/-! ## Reading -/

/-- The block map of `file_read`: `all_blocks` for the blocks `first`, …, `last`. -/
def readBlocks (t : Transfer) (iSectors : ℕ → ℕ) (first last : ℕ) : Prog Kernel (ℕ → ℕ) := do
  if subU32 first last = 0 then
    assert (last = first)
    if last < directPtrs then return directPart iSectors last last
    else
      let table ← ideRead t (iSectors directPtrs) zeroBuf 1
      return withIndirect (fun _ => 0) table
  else if last < directPtrs then return directPart iSectors first last
  else if first < directPtrs then
    assert (iSectors directPtrs ≠ 0)
    let table ← ideRead t (iSectors directPtrs) zeroBuf 1
    return withIndirect (directPart iSectors first (directPtrs - 1)) table
  else
    assert (iSectors directPtrs ≠ 0)
    let table ← ideRead t (iSectors directPtrs) zeroBuf 1
    return withIndirect (fun _ => 0) table

/-- The last loop of `file_read`: `done` of the `size` bytes are in `dst`. -/
def readFileLoop (t : Transfer) (fd : ℕ) (allBlocks : ℕ → ℕ) (size : ℕ) :
    (fuel done : ℕ) → Bytes → Prog Kernel Bytes
  | 0, _, dst => return dst
  | fuel + 1, done, dst => do
      if size ≤ done then return dst
      else
        let k ← read
        let pos := (k.fileTable fd).fdPos
        let secIdx := pos / sectorSize
        if flattenPtrs ≤ secIdx then stop .undefined
        else
          let secOffBytes := pos % sectorSize
          let chunkSize := min (size - done) (sectorSize - secOffBytes)
          let ioBuf ← ideRead t (allBlocks secIdx) zeroBuf 1
          modify fun k => k.setFile fd
            { k.fileTable fd with fdPos := ((k.fileTable fd).fdPos + chunkSize) % 2 ^ 32 }
          readFileLoop t fd allBlocks size fuel (done + chunkSize)
            (copy dst done ioBuf secOffBytes chunkSize)

/-- An unsigned byte count returned as an `int32_t`. -/
def asInt32 (n : ℕ) : ℤ := if n < 2 ^ 31 then n else n - 2 ^ 32

/-- `file_read` on entry `fd` of `file_table`: the result and the buffer after it. -/
def fileRead (t : Transfer) (fd : ℕ) (buf : Bytes) (count : ℕ) : Prog Kernel (ℤ × Bytes) := do
  let k ← read
  match (k.fileTable fd).fdInode with
  | none => stop .undefined
  | some a =>
      let pos := (k.fileTable fd).fdPos
      let inode := k.inodes a
      let size := if inode.iSize < (pos + count) % 2 ^ 32 then subU32 inode.iSize pos else count
      if inode.iSize < (pos + count) % 2 ^ 32 ∧ size = 0 then return (-1, buf)
      else
      sysMallocUnchecked
      let ok ← sysMalloc
      if !ok then return (-1, buf)
      else
      let first := pos / sectorSize
      let last := (pos + size) % 2 ^ 32 / sectorSize
      assert (first < 139 ∧ last < 139)
      let allBlocks ← readBlocks t inode.iSectors first last
      let dst ← readFileLoop t fd allBlocks size size 0 buf
      return (asInt32 size, dst)

end BochsOs
