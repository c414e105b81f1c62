import BochsOs.Device.Ioqueue
import BochsOs.Fs.Path

/-!
# The file-system calls

The `sys_` functions of `fs/fs.c`, with the pipe operations of `shell/pipe.c` that
`sys_read`, `sys_write` and `sys_close` branch to.  A result of `-1` is an error.
What goes to the console is left out.
-/

namespace BochsOs

open ByteMemory Suspend Suspend.Prog

/-! ## Descriptors -/

/-- `fd_local2global`. -/
def fdLocal2global (localFd : ℕ) : Prog Kernel ℕ := do
  if maxFilesOpenPerProc ≤ localFd then stop .undefined
  else
    let k ← read
    let globalFd := k.cur.fdTable localFd
    assert (0 ≤ globalFd ∧ globalFd < maxFileOpen)
    return globalFd.toNat

theorem fdLocal2global_spec {k : Kernel} {localFd : ℕ} :
    (fdLocal2global localFd).wp
      (fun g k' => k' = k ∧ localFd < maxFilesOpenPerProc ∧ k.cur.fdTable localFd = g ∧
        g < maxFileOpen) k := by
  unfold fdLocal2global
  split
  · trivial
  next hlt =>
    simp only [wp_bind, wp_read, wp_assert, wp_pure, decide_eq_true_eq, true_and]
    intro h
    refine ⟨by omega, by omega, by omega⟩

/-- `PIPE_FLAG`. -/
def pipeFlag : ℕ := 0xFFFF

/-- `is_pipe`. -/
def isPipe (localFd : ℕ) : Prog Kernel Bool := do
  let globalFd ← fdLocal2global localFd
  let k ← read
  return (k.fileTable globalFd).fdFlag = pipeFlag

theorem isPipe_spec {k : Kernel} {localFd : ℕ} :
    (isPipe localFd).wp (fun _ k' => k' = k) k := by
  simp only [isPipe, wp_bind, wp_read, wp_pure]
  exact wp_mono fdLocal2global_spec fun _ _ h => h.1

/-- The answer of `is_pipe` is read off the entry. -/
theorem isPipe_entry {k : Kernel} {localFd : ℕ} :
    (isPipe localFd).wp (fun pipe _ => ∃ g < maxFileOpen, k.cur.fdTable localFd = g ∧
      (pipe = true ↔ (k.fileTable g).fdFlag = pipeFlag)) k := by
  simp only [isPipe, wp_bind, wp_read, wp_pure]
  refine wp_mono fdLocal2global_spec ?_
  rintro g _ ⟨rfl, -, hg, hlt⟩
  exact ⟨g, hlt, hg, decide_eq_true_iff⟩

/-- Drop one reference to a pipe, which is freed with the last one. -/
def pipeDrop (globalFd : ℕ) : Prog Kernel Unit :=
  modify fun k =>
    let file := k.fileTable globalFd
    let fdPos := subU32 file.fdPos 1
    k.setFile globalFd
      { file with fdPos := fdPos, fdInode := if fdPos = 0 then none else file.fdInode }

/-- The loop of `pipe_read`: `left` more bytes to `dst + done`. -/
def pipeReadLoop (a : ℕ) : (left done : ℕ) → Bytes → Prog Kernel Bytes
  | 0, _, dst => return dst
  | left + 1, done, dst => do
      let byte ← ioqGetchar a
      pipeReadLoop a left (done + 1) (Function.update dst done byte)

/-- `pipe_read`. -/
def pipeRead (localFd : ℕ) (buf : Bytes) (count : ℕ) : Prog Kernel (ℤ × Bytes) := do
  let globalFd ← fdLocal2global localFd
  let k ← read
  match (k.fileTable globalFd).fdInode with
  | none => stop .undefined
  | some a =>
      let size := min (ioqLength (k.ioqueues a)) count
      let dst ← pipeReadLoop a size 0 buf
      return (size, dst)

/-- The loop of `pipe_write`: `left` more bytes from `src + done`. -/
def pipeWriteLoop (a : ℕ) (src : Bytes) : (left done : ℕ) → Prog Kernel Unit
  | 0, _ => return ()
  | left + 1, done => do
      ioqPutchar a (src done)
      pipeWriteLoop a src left (done + 1)

/-- `pipe_write`. -/
def pipeWrite (localFd : ℕ) (buf : Bytes) (count : ℕ) : Prog Kernel ℤ := do
  let globalFd ← fdLocal2global localFd
  let k ← read
  match (k.fileTable globalFd).fdInode with
  | none => stop .undefined
  | some a =>
      let size := min count (bufsize - ioqLength (k.ioqueues a))
      pipeWriteLoop a buf size 0
      return size

/-! ## Open files -/

/-- `sys_open`. -/
def sysOpen (t : Transfer) (pathname : CString) (flags : ℕ) : Prog Kernel ℤ := do
  let path := pathname.val
  -- for the empty path this is the byte before the string
  let before ← arbitrary
  if path.getLastD (UInt8.ofNat before) = slash then return -1
  else
  assert (flags ≤ 7)
  let pathnameDepth ← pathDepthCnt path
  let (inodeNo, record) ← searchFile t pathname
  if record.fileType = .directory then
    dirClose record.parentDir
    return -1
  else
  let pathSearchedDepth ← pathDepthCnt record.searchedPath
  if pathnameDepth ≠ pathSearchedDepth then
    dirClose record.parentDir
    return -1
  else
  match inodeNo with
  | none =>
      if flags &&& oCreat = 0 then
        dirClose record.parentDir
        return -1
      else
        let fd ← fileCreate t record.parentDir (afterLastSlash path) flags
        dirClose record.parentDir
        return fd
  | some inodeNo =>
      if flags &&& oCreat ≠ 0 then
        dirClose record.parentDir
        return -1
      else
        -- `parent_dir` stays open here
        fileOpen t inodeNo flags

/-- `sys_close`. -/
def sysClose (fd : ℤ) : Prog Kernel ℤ := do
  if fd ≤ 2 then return -1
  else
    let globalFd ← fdLocal2global fd.toNat
    let ret ← if ← isPipe fd.toNat then do
        pipeDrop globalFd
        pure 0
      else fileClose globalFd
    modify fun k => k.setTask k.running
      { k.cur with fdTable := Function.update k.cur.fdTable fd.toNat (-1) }
    return ret

/-- `sys_write`. -/
def sysWrite (t : Transfer) (fd : ℤ) (buf : Bytes) (count : ℕ) : Prog Kernel ℤ := do
  if fd < 0 then return -1
  else if ← isPipe fd.toNat then pipeWrite fd.toNat buf count
  else if fd = 1 then
    -- the text is copied to an array of 1024 bytes first
    if 1024 < count then stop .undefined else return count
  else
    let globalFd ← fdLocal2global fd.toNat
    let k ← read
    if wantsWrite (k.fileTable globalFd).fdFlag then fileWrite t globalFd buf count
    else return -1

/-- The loop of `sys_read` over the keyboard. -/
def readStdin : (left done : ℕ) → Bytes → Prog Kernel Bytes
  | 0, _, dst => return dst
  | left + 1, done, dst => do
      block
      let byte ← arbitrary
      readStdin left (done + 1) (Function.update dst done (UInt8.ofNat byte))

/-- `sys_read`: the result and the buffer after it. -/
def sysRead (t : Transfer) (fd : ℤ) (buf : Bytes) (count : ℕ) : Prog Kernel (ℤ × Bytes) := do
  if fd < 0 ∨ fd = 1 ∨ fd = 2 then return (-1, buf)
  else if ← isPipe fd.toNat then pipeRead fd.toNat buf count
  else if fd = 0 then
    let dst ← readStdin count 0 buf
    return (if count = 0 then -1 else asInt32 count, dst)
  else
    let globalFd ← fdLocal2global fd.toNat
    fileRead t globalFd buf count

/-- An integer reduced to `int32_t`. -/
def wrap32 (z : ℤ) : ℤ := (z + 2 ^ 31) % 2 ^ 32 - 2 ^ 31

/-- `enum whence`. -/
inductive Whence where
  | set
  | cur
  | «end»
  deriving DecidableEq, Repr

/-- `sys_lseek`. -/
def sysLseek (fd offset : ℤ) (whence : Whence) : Prog Kernel ℤ := do
  if fd < 0 then return -1
  else
    let globalFd ← fdLocal2global fd.toNat
    let k ← read
    let file := k.fileTable globalFd
    if file.fdFlag = pipeFlag then stop .undefined
    else
    match file.fdInode with
    | none => stop .undefined
    | some a =>
        let fileSize := asInt32 (k.inodes a).iSize
        let newPos := match whence with
          | .set => offset
          | .cur => wrap32 (asInt32 file.fdPos + offset)
          | .end => wrap32 (fileSize + offset)
        if newPos < 0 ∨ fileSize - 1 < newPos then return -1
        else
          write (k.setFile globalFd { file with fdPos := newPos.toNat })
          return newPos

/-! ## Removing files and making directories -/

/-- A file of this inode number is open. -/
def Kernel.isOpen (k : Kernel) (inodeNo : ℕ) : Bool :=
  (List.range maxFileOpen).any fun fd =>
    match (k.fileTable fd).fdInode with
    | none => false
    | some a => (k.inodes a).iNo = inodeNo

/-- `sys_unlink`. -/
def sysUnlink (t : Transfer) (pathname : CString) : Prog Kernel ℤ := do
  assert (pathname.val.length < maxPathLen)
  let (inodeNo, record) ← searchFile t pathname
  assert (inodeNo ≠ some 0)
  match inodeNo with
  | none =>
      dirClose record.parentDir
      return -1
  | some inodeNo =>
      if record.fileType = .directory then
        dirClose record.parentDir
        return -1
      else
      let k ← read
      if k.isOpen inodeNo then
        dirClose record.parentDir
        return -1
      else
      let ok ← sysMalloc
      if !ok then
        dirClose record.parentDir
        return -1
      else
        let _ ← deleteDirEntry t record.parentDir inodeNo
        inodeRelease t inodeNo
        dirClose record.parentDir
        return 0

/-- `sys_mkdir` from the allocation of the block on, with the inode allocated. -/
def mkdirIn (t : Transfer) (parentDir : ℕ) (dirname : List UInt8) (inodeNo : ℕ) :
    Prog Kernel ℤ := do
  match ← blockBitmapAlloc with
  | none =>
      setInodeBit inodeNo false
      dirClose parentDir
      return -1
  | some blockLba =>
      let k ← read
      let blockBitmapIdx := subU32 blockLba k.part.sb.dataStartLba
      assert (blockBitmapIdx ≠ 0)
      bitmapSync t blockBitmapIdx .blockBitmap
      let k ← read
      ideWrite t blockLba (dotEntries inodeNo (k.dirInode parentDir).iNo) 1
      let newDirInode :=
        { (inodeInit inodeNo).setSector 0 blockLba with iSize := 2 * k.part.sb.dirEntrySize }
      let e ← createDirEntry dirname inodeNo .directory
      if ← syncDirEntry t parentDir e then
        let k ← read
        inodeSync t (k.dirInode parentDir) 2
        inodeSync t newDirInode 2
        bitmapSync t inodeNo .inodeBitmap
        dirClose parentDir
        return 0
      else
        setInodeBit inodeNo false
        dirClose parentDir
        return -1

/-- `sys_mkdir`. -/
def sysMkdir (t : Transfer) (pathname : CString) : Prog Kernel ℤ := do
  let ok ← sysMalloc
  if !ok then return -1
  else
  let (inodeNo, record) ← searchFile t pathname
  match inodeNo with
  | some _ =>
      dirClose record.parentDir
      return -1
  | none =>
      let pathnameDepth ← pathDepthCnt pathname.val
      let pathSearchedDepth ← pathDepthCnt record.searchedPath
      if pathnameDepth ≠ pathSearchedDepth then
        dirClose record.parentDir
        return -1
      else if slash ∉ record.searchedPath then
        -- `strrchr` has found nothing
        stop .undefined
      else
        match ← inodeBitmapAlloc with
        | none =>
            dirClose record.parentDir
            return -1
        | some inodeNo => mkdirIn t record.parentDir (afterLastSlash record.searchedPath) inodeNo

/-- `sys_rmdir`. -/
def sysRmdir (t : Transfer) (pathname : CString) : Prog Kernel ℤ := do
  let (inodeNo, record) ← searchFile t pathname
  assert (inodeNo ≠ some 0)
  match inodeNo with
  | none =>
      dirClose record.parentDir
      return -1
  | some inodeNo =>
      if record.fileType = .regular then
        dirClose record.parentDir
        return -1
      else
        let dir ← dirOpen t inodeNo
        let retval ← if ← dirIsEmpty dir then do
            let ret ← dirRemove t record.parentDir dir
            pure (if ret = 0 then 0 else -1)
          else pure (-1)
        dirClose dir
        dirClose record.parentDir
        return retval

/-! ## Directory handles -/

/-- `sys_opendir`; `none` is `NULL`. -/
def sysOpendir (t : Transfer) (name : CString) : Prog Kernel (Option ℕ) := do
  assert (name.val.length < maxPathLen)
  if name.val = [slash] then return some rootDir
  else
    let (inodeNo, record) ← searchFile t name
    let ret ← match inodeNo with
      | none => pure none
      | some inodeNo =>
          if record.fileType = .directory then do
            let dir ← dirOpen t inodeNo
            pure (some dir)
          else pure none
    dirClose record.parentDir
    return ret

/-- `sys_closedir`. -/
def sysClosedir (dir : Option ℕ) : Prog Kernel ℤ :=
  match dir with
  | none => return -1
  | some dir => do
      dirClose dir
      return 0

/-- Stop unless `dir` is the root handle or one that is still open. -/
def checkDir (dir : ℕ) : Prog Kernel Unit := do
  let k ← read
  if dir = rootDir ∨ dir ∈ k.liveDirs then return () else stop .undefined

/-- `sys_readdir`: the block of the next entry and its place in it. -/
def sysReaddir (t : Transfer) (dir : ℕ) : Prog Kernel (Option (Bytes × ℕ)) := do
  checkDir dir
  dirRead t dir

/-- `sys_rewinddir`. -/
def sysRewinddir (dir : ℕ) : Prog Kernel Unit := do
  checkDir dir
  modifyDirPos dir fun _ => 0

/-! ## The working directory and file status -/

/-- The string at `a`, of at most `fuel` bytes. -/
def stringAt (m : Bytes) : (fuel a : ℕ) → List UInt8
  | 0, _ => []
  | fuel + 1, a => if m a = 0 then [] else m a :: stringAt m fuel (a + 1)

/-- `get_parent_dir_inode_nr`. -/
def getParentDirInodeNr (t : Transfer) (childInodeNr : ℕ) : Prog Kernel ℕ := do
  let a ← inodeOpen t childInodeNr
  let k ← read
  let blockLba := (k.inodes a).iSectors 0
  assert (k.part.sb.dataStartLba ≤ blockLba)
  inodeClose a
  let ioBuf ← ideRead t blockLba zeroBuf 1
  assert (entryINo ioBuf direntSize < maxFilesPerPart ∧ entryType ioBuf direntSize = .directory)
  return entryINo ioBuf direntSize

/-- The blocks loop of `get_child_dir_name` from pointer `blkI` on. -/
def childNameLoop (t : Transfer) (allBlocks : ℕ → ℕ) (childInodeNr : ℕ) :
    (left blkI : ℕ) → Prog Kernel (Option (List UInt8))
  | 0, _ => return none
  | left + 1, blkI => do
      if allBlocks blkI = 0 then childNameLoop t allBlocks childInodeNr left (blkI + 1)
      else
        let ioBuf ← ideRead t (allBlocks blkI) zeroBuf 1
        let k ← read
        match (List.range k.entriesPerSec).find? fun i =>
            entryINo ioBuf (direntSize * i) = childInodeNr with
        | some i => return some (stringAt ioBuf sectorSize (direntSize * i))
        | none => childNameLoop t allBlocks childInodeNr left (blkI + 1)

/-- `get_child_dir_name`: the name to append to the path. -/
def getChildDirName (t : Transfer) (parentInodeNr childInodeNr : ℕ) :
    Prog Kernel (Option (List UInt8)) := do
  let a ← inodeOpen t parentInodeNr
  let k ← read
  let iSectors := (k.inodes a).iSectors
  let table ← readIndirect t iSectors
  let blockCnt := if iSectors directPtrs ≠ 0 then flattenPtrs else directPtrs
  inodeClose a
  childNameLoop t (flattenBlocks iSectors table) childInodeNr blockCnt 0

/-- The first loop of `sys_getcwd`: the names from the directory up to the root.  Every
round makes the path longer, so it leaves its array after 512 rounds. -/
def cwdLoop (t : Transfer) :
    (fuel childInodeNr : ℕ) → List UInt8 → Prog Kernel (Option (List UInt8))
  | 0, _, _ => stop .undefined
  | fuel + 1, childInodeNr, fullPathReverse => do
      if childInodeNr = 0 then return some fullPathReverse
      else
        let parentInodeNr ← getParentDirInodeNr t childInodeNr
        match ← getChildDirName t parentInodeNr childInodeNr with
        | none => return none
        | some name =>
            let fullPathReverse := fullPathReverse ++ slash :: name
            if maxPathLen ≤ fullPathReverse.length then stop .undefined
            else cwdLoop t fuel parentInodeNr fullPathReverse

/-- The last loop of `sys_getcwd`: append the names of `fullPathReverse`, last name
first. -/
def reverseLoop : (fuel : ℕ) → (fullPathReverse buf : List UInt8) → List UInt8
  | 0, _, buf => buf
  | fuel + 1, fullPathReverse, buf =>
      if slash ∉ fullPathReverse then buf
      else
        let lastSlash := slash :: afterLastSlash fullPathReverse
        reverseLoop fuel
          (fullPathReverse.take (fullPathReverse.length - lastSlash.length)) (buf ++ lastSlash)

/-- `sys_getcwd`: the string left in the buffer. -/
def sysGetcwd (t : Transfer) (size : ℕ) : Prog Kernel (Option (List UInt8)) := do
  let ok ← sysMalloc
  if !ok then return none
  else
    let k ← read
    assert (k.cur.cwdInodeNr < maxFilesPerPart)
    if k.cur.cwdInodeNr = 0 then return some [slash]
    else
      match ← cwdLoop t maxPathLen k.cur.cwdInodeNr [] with
      | none => return none
      | some fullPathReverse =>
          assert (fullPathReverse.length ≤ size)
          return some (reverseLoop maxPathLen fullPathReverse [])

/-- `sys_chdir`. -/
def sysChdir (t : Transfer) (path : CString) : Prog Kernel ℤ := do
  let (inodeNo, record) ← searchFile t path
  let ret ← match inodeNo with
    | none => pure (-1)
    | some inodeNo =>
        if record.fileType = .directory then do
          modify fun k => k.setTask k.running { k.cur with cwdInodeNr := inodeNo }
          pure 0
        else pure (-1)
  dirClose record.parentDir
  return ret

/-- `struct stat`. -/
structure Stat where
  stIno : ℕ
  stSize : ℕ
  stFiletype : FileType

/-- `sys_stat`; `none` for `-1`. -/
def sysStat (t : Transfer) (path : CString) : Prog Kernel (Option Stat) := do
  if isRootPath path.val then
    let k ← read
    return some ⟨0, (k.dirInode rootDir).iSize, .directory⟩
  else
    let (inodeNo, record) ← searchFile t path
    let ret ← match inodeNo with
      | none => pure none
      | some inodeNo => do
          let a ← inodeOpen t inodeNo
          let k ← read
          inodeClose a
          pure (some ⟨inodeNo, (k.inodes a).iSize, record.fileType⟩)
    dirClose record.parentDir
    return ret

end BochsOs
