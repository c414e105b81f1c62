import BochsOs.Fs.Alloc

/-!
# Inodes

`fs/inode.c`.  An inode takes 76 bytes of the inode table, so some lie across two
sectors.  `inodeOpen` looks for the inode among the open ones and reads it from
the table otherwise; `inodeClose` drops it from the list when its count reaches
zero; `inodeSync` writes an inode back.

`inode_sync` keeps the inode number in a `uint8_t`, so inode `n` is written to the
place of inode `n % 256`.
-/

namespace BochsOs

open ByteMemory Suspend Suspend.Prog

/-- `sizeof(struct inode)`. -/
def inodeSize : ℕ := 76

/-- The words of a `struct inode`; the last two are its list links. -/
def Inode.word (inode : Inode) : ℕ → ℕ
  | 0 => inode.iNo
  | 1 => inode.iSize
  | 2 => inode.iOpenCnts
  | 3 => if inode.writeDeny then 1 else 0
  | n + 4 => if n < totalPtrs then inode.iSectors n else 0

/-- The bytes of a `struct inode` with `NULL` list links. -/
def Inode.image (inode : Inode) : Bytes := wordImage inode.word

/-- The `struct inode` found at `a`. -/
def inodeAt (m : Bytes) (a : ℕ) : Inode where
  iNo := readU32 m a
  iSize := readU32 m (a + 4)
  iOpenCnts := readU32 m (a + 8)
  writeDeny := readU32 m (a + 12) ≠ 0
  iSectors n := if n < totalPtrs then readU32 m (a + 16 + 4 * n) else 0

/-- An inode that can be stored: its words are words, and it has 13 block pointers. -/
structure Inode.Storable (inode : Inode) : Prop where
  iNo : inode.iNo < 2 ^ 32
  iSize : inode.iSize < 2 ^ 32
  iOpenCnts : inode.iOpenCnts < 2 ^ 32
  iSectors : ∀ i, inode.iSectors i < 2 ^ 32
  rest : ∀ i, totalPtrs ≤ i → inode.iSectors i = 0

theorem inodeAt_congr {m m' : Bytes} {a a' : ℕ} (h : ∀ i < inodeSize, m (a + i) = m' (a' + i)) :
    inodeAt m a = inodeAt m' a' := by
  have hword : ∀ i < 17, readU32 m (a + 4 * i) = readU32 m' (a' + 4 * i) := by
    intro i hi
    refine readU32_congr fun j hj => ?_
    rw [Nat.add_assoc, Nat.add_assoc]
    exact h _ (by unfold inodeSize; omega)
  have h0 := hword 0 (by omega)
  have h1 := hword 1 (by omega)
  have h2 := hword 2 (by omega)
  have h3 := hword 3 (by omega)
  simp only [Nat.mul_zero, Nat.add_zero, Nat.mul_one, Nat.reduceMul] at h0 h1 h2 h3
  simp only [inodeAt, h0, h1, h2, h3, Inode.mk.injEq, true_and]
  funext n
  split
  next hn =>
    unfold totalPtrs at hn
    have hw := hword (4 + n) (by omega)
    rwa [show a + 4 * (4 + n) = a + 16 + 4 * n by ring,
      show a' + 4 * (4 + n) = a' + 16 + 4 * n by ring] at hw
  next => rfl

/-- An inode is read back as it was stored. -/
theorem inodeAt_image {inode : Inode} (hst : inode.Storable) : inodeAt inode.image 0 = inode := by
  have hword : ∀ i, inode.word i < 2 ^ 32 → readU32 inode.image (4 * i) = inode.word i := by
    intro i hi
    rw [Inode.image, readU32_wordImage, Nat.mod_eq_of_lt hi]
  have h0 := hword 0 hst.iNo
  have h1 := hword 1 hst.iSize
  have h2 := hword 2 hst.iOpenCnts
  have h3 := hword 3 (by simp only [Inode.word]; split <;> omega)
  simp only [Nat.mul_zero, Nat.mul_one, Nat.reduceMul, Inode.word] at h0 h1 h2 h3
  have hptr : ∀ n < totalPtrs, readU32 inode.image (16 + 4 * n) = inode.iSectors n := by
    intro n hn
    have hw := hword (n + 4) (by
      simp only [Inode.word, if_pos hn]
      exact hst.iSectors n)
    simp only [Inode.word, if_pos hn] at hw
    rwa [show 4 * (n + 4) = 16 + 4 * n by ring] at hw
  obtain ⟨iNo, iSize, iOpenCnts, writeDeny, iSectors⟩ := inode
  simp only [inodeAt, Nat.zero_add, h0, h1, h2, h3, Inode.mk.injEq, true_and]
  refine ⟨by cases writeDeny <;> simp, ?_⟩
  funext n
  split
  next hn => exact hptr n hn
  next hn => exact (hst.rest n (by omega)).symm

/-- `struct inode_position`. -/
structure InodePosition where
  twoSec : Bool
  secLba : ℕ
  offSize : ℕ

/-- `inode_locate`, less its `ASSERT`. -/
def inodePosition (sb : SuperBlock) (inodeNo : ℕ) : InodePosition where
  twoSec := sectorSize < inodeNo * inodeSize % sectorSize + inodeSize
  secLba := sb.inodeTableLba + inodeNo * inodeSize / sectorSize
  offSize := inodeNo * inodeSize % sectorSize

/-- `inode_locate`. -/
def inodeLocate (inodeNo : ℕ) : Prog Kernel InodePosition := do
  assert (inodeNo < maxFilesPerPart)
  let k ← read
  return inodePosition k.part.sb inodeNo

@[simp] theorem wp_inodeLocate {inodeNo : ℕ} {Q : InodePosition → Kernel → Prop} {k : Kernel} :
    (inodeLocate inodeNo).wp Q k ↔
      (inodeNo < maxFilesPerPart → Q (inodePosition k.part.sb inodeNo) k) := by
  simp [inodeLocate]

/-- The number of sectors an inode is spread over. -/
def InodePosition.secs (pos : InodePosition) : ℕ := if pos.twoSec then 2 else 1

/-- `inode_sync` with an `io_buf` of `bufSecs` sectors. -/
def inodeSync (t : Transfer) (inode : Inode) (bufSecs : ℕ) : Prog Kernel Unit := do
  -- `uint8_t inode_no = inode->i_no`
  let pos ← inodeLocate (inode.iNo % 256)
  let k ← read
  assert (pos.secLba < k.part.startLba + k.part.secCnt)
  let inodeBuf := { inode with iOpenCnts := 0, writeDeny := false }
  if bufSecs < pos.secs then stop .overrun
  else
  let secBuf ← ideRead t pos.secLba zeroBuf pos.secs
  ideWrite t pos.secLba (copy secBuf pos.offSize inodeBuf.image 0 inodeSize) pos.secs

/-- The node of `open_inodes` that `inode_open` finds for a number. -/
def Kernel.findOpen (k : Kernel) (inodeNo : ℕ) : Option ℕ :=
  k.openInodes.find? fun a => (k.inodes a).iNo = inodeNo

/-- `inode_open`: the address of the inode. -/
def inodeOpen (t : Transfer) (inodeNo : ℕ) : Prog Kernel ℕ := do
  let k ← read
  match k.findOpen inodeNo with
  | some a =>
      write (k.setInode a { k.inodes a with iOpenCnts := (k.inodes a).iOpenCnts + 1 })
      return a
  | none => do
      let pos ← inodeLocate inodeNo
      sysMallocUnchecked
      let k ← read
      let a := k.nextInode
      write { k with nextInode := a + 1 }
      sysMallocUnchecked
      let inodeBuf ← ideRead t pos.secLba zeroBuf pos.secs
      modify fun k =>
        { k.setInode a { inodeAt inodeBuf pos.offSize with iOpenCnts := 1 } with
          openInodes := a :: k.openInodes }
      return a

/-- `--inode->i_open_cnts`. -/
def Inode.dropOpenCnt (inode : Inode) : Inode :=
  { inode with iOpenCnts := subU32 inode.iOpenCnts 1 }

/-- `inode_close`. -/
def inodeClose (a : ℕ) : Prog Kernel Unit := do
  let k ← read
  let inode := (k.inodes a).dropOpenCnt
  if inode.iOpenCnts = 0 then
    write { k.setInode a inode with openInodes := k.openInodes.erase a }
  else
    write (k.setInode a inode)

/-- `inode_delete` with an `io_buf` of `bufSecs` sectors: clear the place of an inode in
the table. -/
def inodeDelete (t : Transfer) (inodeNo bufSecs : ℕ) : Prog Kernel Unit := do
  assert (inodeNo < maxFilesPerPart)
  let pos ← inodeLocate inodeNo
  let k ← read
  assert (pos.secLba ≤ k.part.startLba + k.part.secCnt)
  if bufSecs < pos.secs then stop .overrun
  else
  let inodeBuf ← ideRead t pos.secLba zeroBuf pos.secs
  ideWrite t pos.secLba (fill inodeBuf pos.offSize inodeSize 0) pos.secs

/-- The block pointers of an inode in one array, the paradigm of `all_blocks`: the
direct pointers, then the entries of the indirect table if there is one. -/
def flattenBlocks (iSectors : ℕ → ℕ) (table : Bytes) : ℕ → ℕ :=
  fun i =>
    if i < directPtrs then iSectors i
    else if i < flattenPtrs ∧ iSectors directPtrs ≠ 0 then readU32 table (4 * (i - directPtrs))
    else 0

/-- The indirect table of an inode, read from the disk if there is one. -/
def readIndirect (t : Transfer) (iSectors : ℕ → ℕ) : Prog Kernel Bytes :=
  if iSectors directPtrs ≠ 0 then ideRead t (iSectors directPtrs) zeroBuf 1 else return zeroBuf

/-- Clear the bit of one block, in memory and on disk. -/
def freeBlock (t : Transfer) (lba : ℕ) : Prog Kernel Unit := do
  let k ← read
  let blockBitmapIdx := subU32 lba k.part.sb.dataStartLba
  assert (0 < blockBitmapIdx)
  setBlockBit blockBitmapIdx false
  bitmapSync t blockBitmapIdx .blockBitmap

/-- The last loop of `inode_release`: free the blocks from pointer `blkI` on. -/
def freeBlocks (t : Transfer) (allBlocks : ℕ → ℕ) : (left blkI : ℕ) → Prog Kernel Unit
  | 0, _ => return ()
  | left + 1, blkI => do
      if allBlocks blkI ≠ 0 then freeBlock t (allBlocks blkI)
      freeBlocks t allBlocks left (blkI + 1)

/-- `inode_release`: free the blocks of an inode, then the inode. -/
def inodeRelease (t : Transfer) (inodeNo : ℕ) : Prog Kernel Unit := do
  let a ← inodeOpen t inodeNo
  let k ← read
  let inode := k.inodes a
  assert (inode.iNo = inodeNo)
  let table ← readIndirect t inode.iSectors
  if inode.iSectors directPtrs ≠ 0 then freeBlock t (inode.iSectors directPtrs)
  let blockCnt := if inode.iSectors directPtrs ≠ 0 then flattenPtrs else directPtrs
  freeBlocks t (flattenBlocks inode.iSectors table) blockCnt 0
  setInodeBit inodeNo false
  bitmapSync t inodeNo .inodeBitmap
  sysMallocUnchecked
  inodeDelete t inodeNo 2
  inodeClose a

/-- `inode_init`. -/
def inodeInit (inodeNo : ℕ) : Inode where
  iNo := inodeNo
  iSize := 0
  iOpenCnts := 0
  writeDeny := false
  iSectors _ := 0

end BochsOs
