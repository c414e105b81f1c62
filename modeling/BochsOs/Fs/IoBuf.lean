import BochsOs.Fs.InodeTable
import BochsOs.Fs.Frame

/-!
# The transfer buffers

`inode_sync` and `inode_delete` transfer the one or two sectors of an inode through a
buffer of their caller, who has allocated it without knowing the inode.  A transfer that
is longer than the buffer is the fault `overrun`.

Four of the five callers pass two sectors and never overrun (`Never .overrun`).
`file_write` passes its buffer of one sector, which is too small for the inodes that
lie in two (`fits_iff`).
-/

namespace BochsOs

open ByteMemory Suspend Suspend.Prog

/-! ## What has no such buffer -/

theorem assert_never (c : Bool) : Never .overrun (assert c : Prog Kernel Unit) :=
  .assert (by decide) c

theorem sysMalloc_never : Never .overrun sysMalloc := Never.arbitrary.bind fun _ => .pure _

theorem sysMallocUnchecked_never : Never .overrun sysMallocUnchecked := by
  refine sysMalloc_never.bind fun ok => ?_
  split
  · exact .pure _
  · exact .stop (by decide)

theorem ideReadSector_never (lba : ℕ) (buf : Bytes) (off : ℕ) :
    Never .overrun (ideReadSector lba buf off) :=
  (assert_never _).bind fun _ => Never.block.bind fun _ => Never.read.bind fun _ =>
    Never.block.bind fun _ => .pure _

theorem ideRead_never (t : Transfer) (lba : ℕ) (buf : Bytes) (secCnt : ℕ) :
    Never .overrun (ideRead t lba buf secCnt) := by
  have hloop : ∀ left i buf, Never .overrun (ideReadLoop t lba left i buf) := by
    intro left
    induction left with
    | zero => exact fun _ _ => .pure _
    | succ left ih => exact fun _ _ => (ideReadSector_never _ _ _).bind fun _ => ih _ _
  exact hloop _ _ _

theorem ideWriteSector_never (lba : ℕ) (buf : Bytes) (off : ℕ) :
    Never .overrun (ideWriteSector lba buf off) :=
  (assert_never _).bind fun _ => Never.block.bind fun _ => (Never.modify _).bind fun _ => .block

theorem ideWrite_never (t : Transfer) (lba : ℕ) (buf : Bytes) (secCnt : ℕ) :
    Never .overrun (ideWrite t lba buf secCnt) := by
  have hloop : ∀ left i, Never .overrun (ideWriteLoop t lba buf left i) := by
    intro left
    induction left with
    | zero => exact fun _ => .pure _
    | succ left ih => exact fun _ => (ideWriteSector_never _ _ _).bind fun _ => ih _
  exact hloop _ _

theorem bitmapSync_never (t : Transfer) (bitIdx : ℕ) (btmpType : BitmapType) :
    Never .overrun (bitmapSync t bitIdx btmpType) := by
  refine Never.read.bind fun k => ?_
  cases btmpType with
  | inodeBitmap => exact ideWrite_never _ _ _ _
  | blockBitmap => exact ideWrite_never _ _ _ _

theorem blockBitmapAlloc_never : Never .overrun blockBitmapAlloc := by
  refine Never.read.bind fun k => ?_
  split
  · exact .pure _
  · exact (Never.write _).bind fun _ => .pure _

theorem inodeBitmapAlloc_never : Never .overrun inodeBitmapAlloc := by
  refine Never.read.bind fun k => ?_
  split
  · exact .pure _
  · exact (Never.write _).bind fun _ => .pure _

theorem inodeLocate_never (inodeNo : ℕ) : Never .overrun (inodeLocate inodeNo) :=
  (assert_never _).bind fun _ => Never.read.bind fun _ => .pure _

theorem readIndirect_never (t : Transfer) (iSectors : ℕ → ℕ) :
    Never .overrun (readIndirect t iSectors) := by
  unfold readIndirect
  split
  · exact ideRead_never _ _ _ _
  · exact .pure _

theorem freeBlock_never (t : Transfer) (lba : ℕ) : Never .overrun (freeBlock t lba) :=
  Never.read.bind fun _ => (assert_never _).bind fun _ => (Never.modify _).bind fun _ =>
    bitmapSync_never _ _ _

theorem freeBlocks_never (t : Transfer) (allBlocks : ℕ → ℕ) (left blkI : ℕ) :
    Never .overrun (freeBlocks t allBlocks left blkI) := by
  induction left generalizing blkI with
  | zero => exact .pure _
  | succ left ih =>
      unfold freeBlocks
      split
      · exact (freeBlock_never _ _).bind fun _ => ih _
      · exact ih _

theorem inodeOpen_never (t : Transfer) (inodeNo : ℕ) : Never .overrun (inodeOpen t inodeNo) := by
  refine Never.read.bind fun k => ?_
  split
  · exact (Never.write _).bind fun _ => .pure _
  · exact (inodeLocate_never _).bind fun _ => sysMallocUnchecked_never.bind fun _ =>
      Never.read.bind fun _ => (Never.write _).bind fun _ => sysMallocUnchecked_never.bind fun _ =>
        (ideRead_never _ _ _ _).bind fun _ => (Never.modify _).bind fun _ => .pure _

theorem inodeClose_never (a : ℕ) : Never .overrun (inodeClose a) := by
  refine Never.read.bind fun k => ?_
  dsimp only
  split
  · exact .write _
  · exact .write _

/-! ### Adding an entry to a directory -/

theorem writeNewBlock_never (t : Transfer) (parentDir : ℕ) (e : DirEntry) (lba : ℕ) :
    Never .overrun (writeNewBlock t parentDir e lba) :=
  Never.read.bind fun _ => (ideWrite_never _ _ _ _).bind fun _ => (Never.modify _).bind fun _ =>
    .pure _

theorem syncNewBlock_never (t : Transfer) (parentDir : ℕ) (e : DirEntry) (blkI : ℕ)
    (allBlocks : ℕ → ℕ) (hasFlatten : Bool) :
    Never .overrun (syncNewBlock t parentDir e blkI allBlocks hasFlatten) := by
  refine blockBitmapAlloc_never.bind fun lba => ?_
  split
  · exact .pure _
  refine Never.read.bind fun k => (assert_never _).bind fun _ => (bitmapSync_never _ _ _).bind
    fun _ => ?_
  split
  · exact (Never.modify _).bind fun _ => writeNewBlock_never _ _ _ _
  split
  · refine (Never.modify _).bind fun _ => blockBitmapAlloc_never.bind fun entryLba => ?_
    split
    · exact (Never.modify _).bind fun _ => (Never.modify _).bind fun _ => .pure _
    · exact (assert_never _).bind fun _ => (bitmapSync_never _ _ _).bind fun _ =>
        (ideWrite_never _ _ _ _).bind fun _ => writeNewBlock_never _ _ _ _
  · exact Never.read.bind fun _ => (ideWrite_never _ _ _ _).bind fun _ => writeNewBlock_never _ _ _ _

theorem syncLoop_never (t : Transfer) (parentDir : ℕ) (e : DirEntry) (fuel blkI : ℕ)
    (allBlocks : ℕ → ℕ) (hasFlatten : Bool) :
    Never .overrun (syncLoop t parentDir e fuel blkI allBlocks hasFlatten) := by
  induction fuel generalizing blkI allBlocks hasFlatten with
  | zero => exact .stop (by decide)
  | succ fuel ih =>
      unfold syncLoop
      split
      · exact .pure _
      split
      · exact syncNewBlock_never _ _ _ _ _ _
      split
      · exact Never.read.bind fun _ => (ideRead_never _ _ _ _).bind fun _ => ih _ _ _
      · refine (ideRead_never _ _ _ _).bind fun buf => Never.read.bind fun k => ?_
        split
        · exact (ideWrite_never _ _ _ _).bind fun _ => (Never.modify _).bind fun _ => .pure _
        · exact ih _ _ _

theorem syncDirEntry_never (t : Transfer) (parentDir : ℕ) (e : DirEntry) :
    Never .overrun (syncDirEntry t parentDir e) :=
  Never.read.bind fun _ => (assert_never _).bind fun _ => syncLoop_never _ _ _ _ _ _ _

/-! ### Looking a path up -/

theorem searchDirEntry_never (t : Transfer) (pdir : ℕ) (name : List UInt8) :
    Never .overrun (searchDirEntry t pdir name) := by
  have hblocks : ∀ allBlocks left blkI,
      Never .overrun (searchBlocks t allBlocks name left blkI) := by
    intro allBlocks left
    induction left with
    | zero => exact fun _ => .pure _
    | succ left ih =>
        intro blkI
        unfold searchBlocks
        split
        · exact ih _
        · refine (ideRead_never _ _ _ _).bind fun buf => Never.read.bind fun k => ?_
          split
          · exact .pure _
          · exact ih _
  refine sysMalloc_never.bind fun ok => ?_
  split
  · exact Never.read.bind fun k => (readIndirect_never _ _).bind fun table =>
      sysMallocUnchecked_never.bind fun _ => hblocks _ _ _
  · exact .pure _

theorem dirOpen_never (t : Transfer) (inodeNo : ℕ) : Never .overrun (dirOpen t inodeNo) :=
  sysMallocUnchecked_never.bind fun _ => (inodeOpen_never _ _).bind fun _ =>
    Never.read.bind fun _ => (Never.write _).bind fun _ => .pure _

theorem dirClose_never (dir : ℕ) : Never .overrun (dirClose dir) := by
  unfold dirClose
  split
  · exact .pure _
  · refine Never.read.bind fun k => ?_
    split
    · exact (inodeClose_never _).bind fun _ => .modify _
    · exact .stop (by decide)

theorem searchFile_never (t : Transfer) (pathname : CString) :
    Never .overrun (searchFile t pathname) := by
  have hnext : ∀ subPath, Never .overrun (nextNameBy parseFits subPath) := by
    intro subPath
    rw [nextNameBy_parseFits]
    split
    · exact .stop (by decide)
    · exact .pure _
  have hloop : ∀ fuel w, Never .overrun (searchLoop t fuel w) := by
    intro fuel
    induction fuel with
    | zero => exact fun _ => .stop (by decide)
    | succ fuel ih =>
        intro w
        unfold searchLoopBy
        split
        · exact (dirClose_never _).bind fun _ => (dirOpen_never _ _).bind fun _ => .pure _
        split
        · exact .stop (by decide)
        refine (assert_never _).bind fun _ => (searchDirEntry_never _ _ _).bind fun found => ?_
        split
        · exact .pure _
        refine (hnext _).bind fun ⟨name, subPath⟩ => ?_
        dsimp only
        split
        · exact .pure _
        · exact Never.read.bind fun _ => (dirClose_never _).bind fun _ =>
            (dirOpen_never _ _).bind fun _ => ih _
        · exact ih _
  unfold searchFile searchFileBy
  dsimp only
  split
  · exact .pure _
  · exact (assert_never _).bind fun _ => Never.arbitrary.bind fun _ =>
      (hnext (some _)).bind fun _ => hloop _ _

theorem pathDepthCnt_never (pathname : List UInt8) : Never .overrun (pathDepthCnt pathname) := by
  have hloop : ∀ fuel subPath depth, Never .overrun (depthLoop fuel subPath depth) := by
    intro fuel
    induction fuel with
    | zero => exact fun _ _ => .pure _
    | succ fuel ih =>
        intro subPath depth
        unfold depthLoop
        dsimp only
        split
        · exact .stop (by decide)
        split
        · exact .pure _
        · exact ih _ _
  unfold pathDepthCnt
  dsimp only
  split
  · exact .stop (by decide)
  split
  · refine Never.arbitrary.bind fun byte => ?_
    split
    · exact .pure _
    · exact hloop _ _ _
  · exact hloop _ _ _

/-! ## Two sectors are enough -/

/-- With a buffer of two sectors `inode_sync` never overruns it. -/
theorem inodeSync_never (t : Transfer) (inode : Inode) : Never .overrun (inodeSync t inode 2) := by
  refine (inodeLocate_never _).bind fun pos => Never.read.bind fun k => (assert_never _).bind
    fun _ => ?_
  dsimp only
  rw [if_neg (Nat.not_lt.mpr pos.secs_bounds.2)]
  exact (ideRead_never _ _ _ _).bind fun _ => ideWrite_never _ _ _ _

theorem inodeDelete_never (t : Transfer) (inodeNo : ℕ) :
    Never .overrun (inodeDelete t inodeNo 2) := by
  refine (assert_never _).bind fun _ => (inodeLocate_never _).bind fun pos => Never.read.bind
    fun k => (assert_never _).bind fun _ => ?_
  rw [if_neg (Nat.not_lt.mpr pos.secs_bounds.2)]
  exact (ideRead_never _ _ _ _).bind fun _ => ideWrite_never _ _ _ _

theorem deleteFinish_never (t : Transfer) (pdir : ℕ) : Never .overrun (deleteFinish t pdir) :=
  Never.read.bind fun _ => (assert_never _).bind fun _ => (Never.modify _).bind fun _ =>
    Never.read.bind fun _ => (inodeSync_never _ _).bind fun _ => .pure _

theorem deleteBlock_never (t : Transfer) (pdir blkI lba : ℕ) :
    Never .overrun (deleteBlock t pdir blkI lba) := by
  refine Never.read.bind fun k => (Never.modify _).bind fun _ => (bitmapSync_never _ _ _).bind
    fun _ => ?_
  split
  · exact .modify _
  · exact .stop (by decide)

theorem scanEntries_never (buf : Bytes) (inodeNo left i : ℕ) (scan : BlockScan) :
    Never .overrun (scanEntries buf inodeNo left i scan) := by
  induction left generalizing i scan with
  | zero => exact .pure _
  | succ left ih =>
      refine Never.bind ?_ fun _ => ih _ _
      unfold scanEntry
      dsimp only
      split
      · exact .pure _
      split
      · exact .pure _
      split
      · exact .pure _
      split
      · exact (assert_never _).bind fun _ => .pure _
      · exact .pure _

theorem deleteDirEntry_never (t : Transfer) (pdir inodeNo : ℕ) :
    Never .overrun (deleteDirEntry t pdir inodeNo) := by
  have hloop : ∀ allBlocks left blkI,
      Never .overrun (deleteLoop t pdir inodeNo allBlocks left blkI) := by
    intro allBlocks left
    induction left with
    | zero => exact fun _ => .pure _
    | succ left ih =>
        intro blkI
        unfold deleteLoop
        split
        · exact ih _
        refine (ideRead_never _ _ _ _).bind fun buf => Never.read.bind fun k =>
          (scanEntries_never _ _ _ _ _).bind fun scan => ?_
        split
        · exact ih _
        split
        · exact (deleteBlock_never _ _ _ _).bind fun _ => deleteFinish_never _ _
        · exact (ideWrite_never _ _ _ _).bind fun _ => deleteFinish_never _ _
  exact Never.read.bind fun _ => (readIndirect_never _ _).bind fun _ => hloop _ _ _

theorem inodeRelease_never (t : Transfer) (inodeNo : ℕ) :
    Never .overrun (inodeRelease t inodeNo) := by
  have hend : ∀ a allBlocks blockCnt, Never .overrun (do
      freeBlocks t allBlocks blockCnt 0
      setInodeBit inodeNo false
      bitmapSync t inodeNo .inodeBitmap
      sysMallocUnchecked
      inodeDelete t inodeNo 2
      inodeClose a : Prog Kernel Unit) := fun a allBlocks blockCnt =>
    (freeBlocks_never _ _ _ _).bind fun _ => (Never.modify _).bind fun _ =>
      (bitmapSync_never _ _ _).bind fun _ => sysMallocUnchecked_never.bind fun _ =>
        (inodeDelete_never _ _).bind fun _ => inodeClose_never _
  refine (inodeOpen_never _ _).bind fun a => Never.read.bind fun k => (assert_never _).bind
    fun _ => (readIndirect_never _ _).bind fun table => ?_
  dsimp only
  split
  · exact (freeBlock_never _ _).bind fun _ => hend _ _ _
  · exact hend _ _ _

theorem createDirEntry_never (filename : List UInt8) (inodeNo : ℕ) (fileType : FileType) :
    Never .overrun (createDirEntry filename inodeNo fileType) :=
  (assert_never _).bind fun _ => .pure _

theorem pcbFdInstall_never (globalFd : ℕ) : Never .overrun (pcbFdInstall globalFd) := by
  refine Never.read.bind fun k => ?_
  split
  · exact (Never.write _).bind fun _ => .pure _
  · exact .pure _

theorem fileCreate_never (t : Transfer) (parentDir : ℕ) (filename : List UInt8) (flag : ℕ) :
    Never .overrun (fileCreate t parentDir filename flag) := by
  refine sysMalloc_never.bind fun ok => ?_
  split
  · exact .pure _
  refine inodeBitmapAlloc_never.bind fun inodeNo => ?_
  split
  · exact .pure _
  refine sysMalloc_never.bind fun ok => ?_
  split
  · exact (Never.modify _).bind fun _ => .pure _
  refine Never.read.bind fun k => (Never.write _).bind fun _ => Never.bind
    (Never.read.bind fun _ => .pure _) fun slot => ?_
  split
  · exact (Never.modify _).bind fun _ => .pure _
  refine (Never.modify _).bind fun _ => (createDirEntry_never _ _ _).bind fun e =>
    (syncDirEntry_never _ _ _).bind fun synced => ?_
  split
  · exact Never.read.bind fun _ => (inodeSync_never _ _).bind fun _ => Never.read.bind fun _ =>
      (inodeSync_never _ _).bind fun _ => (bitmapSync_never _ _ _).bind fun _ =>
        (Never.modify _).bind fun _ => pcbFdInstall_never _
  · exact (Never.modify _).bind fun _ => (Never.modify _).bind fun _ => .pure _

theorem mkdirIn_never (t : Transfer) (parentDir : ℕ) (dirname : List UInt8) (inodeNo : ℕ) :
    Never .overrun (mkdirIn t parentDir dirname inodeNo) := by
  refine blockBitmapAlloc_never.bind fun lba => ?_
  split
  · exact (Never.modify _).bind fun _ => (dirClose_never _).bind fun _ => .pure _
  refine Never.read.bind fun k => (assert_never _).bind fun _ => (bitmapSync_never _ _ _).bind
    fun _ => Never.read.bind fun _ => (ideWrite_never _ _ _ _).bind fun _ =>
      (createDirEntry_never _ _ _).bind fun e => (syncDirEntry_never _ _ _).bind fun synced => ?_
  split
  · exact Never.read.bind fun _ => (inodeSync_never _ _).bind fun _ =>
      (inodeSync_never _ _).bind fun _ => (bitmapSync_never _ _ _).bind fun _ =>
        (dirClose_never _).bind fun _ => .pure _
  · exact (Never.modify _).bind fun _ => (dirClose_never _).bind fun _ => .pure _

theorem sysMkdir_never (t : Transfer) (pathname : CString) :
    Never .overrun (sysMkdir t pathname) := by
  refine sysMalloc_never.bind fun ok => ?_
  split
  · exact .pure _
  refine (searchFile_never _ _).bind fun found => ?_
  dsimp only
  split
  · exact (dirClose_never _).bind fun _ => .pure _
  refine (pathDepthCnt_never _).bind fun _ => (pathDepthCnt_never _).bind fun _ => ?_
  split
  · exact (dirClose_never _).bind fun _ => .pure _
  split
  · exact .stop (by decide)
  refine inodeBitmapAlloc_never.bind fun inodeNo => ?_
  split
  · exact (dirClose_never _).bind fun _ => .pure _
  · exact mkdirIn_never _ _ _ _

/-! ## `file_write` -/

theorem allocFirst_never (t : Transfer) (a : ℕ) : Never .overrun (allocFirst t a) := by
  refine Never.read.bind fun k => ?_
  split
  · refine blockBitmapAlloc_never.bind fun lba => ?_
    split
    · exact .pure _
    · exact (Never.modify _).bind fun _ => (assert_never _).bind fun _ =>
        (bitmapSync_never _ _ _).bind fun _ => .pure _
  · exact .pure _

theorem allocBlocks_never (t : Transfer) (a left blkI : ℕ) (allBlocks : ℕ → ℕ) :
    Never .overrun (allocBlocks t a left blkI allBlocks) := by
  induction left generalizing blkI allBlocks with
  | zero => exact .pure _
  | succ left ih =>
      refine blockBitmapAlloc_never.bind fun lba => ?_
      split
      · exact .pure _
      refine Never.read.bind fun k => ?_
      split
      · exact (assert_never _).bind fun _ => (Never.modify _).bind fun _ =>
          (bitmapSync_never _ _ _).bind fun _ => ih _ _
      · exact (bitmapSync_never _ _ _).bind fun _ => ih _ _

theorem buildBlocks_never (t : Transfer) (a has will : ℕ) :
    Never .overrun (buildBlocks t a has will) := by
  refine Never.read.bind fun k => ?_
  dsimp only
  split
  · split
    · exact .pure _
    · exact (assert_never _).bind fun _ => (ideRead_never _ _ _ _).bind fun _ => .pure _
  split
  · exact (assert_never _).bind fun _ => allocBlocks_never _ _ _ _ _
  split
  · refine blockBitmapAlloc_never.bind fun lba => ?_
    split
    · exact .pure _
    refine (assert_never _).bind fun _ => (Never.modify _).bind fun _ =>
      (allocBlocks_never _ _ _ _ _).bind fun all => ?_
    split
    · exact .pure _
    · exact (ideWrite_never _ _ _ _).bind fun _ => .pure _
  · refine (assert_never _).bind fun _ => (ideRead_never _ _ _ _).bind fun _ =>
      (allocBlocks_never _ _ _ _ _).bind fun all => ?_
    split
    · exact .pure _
    · exact (ideWrite_never _ _ _ _).bind fun _ => .pure _

theorem writeLoop_never (t : Transfer) (fd a : ℕ) (allBlocks : ℕ → ℕ) (src : Bytes)
    (count fuel written : ℕ) (first : Bool) :
    Never .overrun (writeLoop t fd a allBlocks src count fuel written first) := by
  induction fuel generalizing written first with
  | zero => exact .pure _
  | succ fuel ih =>
      have hend : ∀ (lba chunk off : ℕ) (ioBuf : Bytes), Never .overrun (do
          ideWrite t lba (copy ioBuf off src written chunk) 1
          modifyInode a (·.grow chunk)
          modify fun k => k.setFile fd
            { k.fileTable fd with fdPos := ((k.fileTable fd).fdPos + chunk) % 2 ^ 32 }
          writeLoop t fd a allBlocks src count fuel (written + chunk) false : Prog Kernel Unit) :=
        fun _ _ _ _ => (ideWrite_never _ _ _ _).bind fun _ => (Never.modify _).bind fun _ =>
          (Never.modify _).bind fun _ => ih _ _
      unfold writeLoop
      split
      · exact .pure _
      refine Never.read.bind fun k => ?_
      dsimp only
      split
      · exact .stop (by decide)
      split
      · exact (ideRead_never _ _ _ _).bind fun ioBuf => hend _ _ _ ioBuf
      · exact (Never.pure _).bind fun ioBuf => hend _ _ _ ioBuf

/-- The numbers of the inodes stay. -/
def SameNumbers (k k' : Kernel) : Prop := ∀ a, (k'.inodes a).iNo = (k.inodes a).iNo

theorem sameNumbers_setInode (k : Kernel) (a : ℕ) {inode : Inode}
    (h : inode.iNo = (k.inodes a).iNo) : SameNumbers k (k.setInode a inode) := by
  intro b
  change (Function.update k.inodes a inode b).iNo = _
  by_cases hb : b = a
  · rw [hb, Function.update_self, h]
  · rw [Function.update_of_ne hb]

instance : BlockFrame SameNumbers where
  refl _ _ := rfl
  trans _ _ _ h h' a := (h' a).trans (h a)
  disk _ _ _ := rfl
  blockBitmap _ _ _ := rfl
  inode k a _ h := sameNumbers_setInode k a h.iNo

instance (a : ℕ) : WriteFrame a SameNumbers where
  grow k _ := sameNumbers_setInode k a rfl
  pos _ _ _ _ := rfl

/-! ## The five callers -/

/-- `inode_locate`: an inode of this number lies in two sectors. -/
def inodeTwoSec (n : ℕ) : Bool := sectorSize < n * inodeSize % sectorSize + inodeSize

theorem inodePosition_secs (sb : SuperBlock) (n : ℕ) :
    (inodePosition sb n).secs = if inodeTwoSec n then 2 else 1 := rfl

/-- One sector is enough for an inode that lies in one. -/
theorem inodeSync_one_never (t : Transfer) {inode : Inode}
    (hone : inodeTwoSec (inode.iNo % 256) = false) : Never .overrun (inodeSync t inode 1) := by
  intro k
  rw [inodeSync, avoids_bind, wp_inodeLocate]
  refine ⟨inodeLocate_never _ k, fun _ => ?_⟩
  have hsecs : ¬ 1 < (inodePosition k.part.sb (inode.iNo % 256)).secs := by
    rw [inodePosition_secs, hone]
    decide
  rw [if_neg hsecs]
  exact (Never.read.bind fun _ => (assert_never _).bind fun _ => (ideRead_never _ _ _ _).bind
    fun _ => ideWrite_never _ _ _ _) k

/-- One sector is too small for an inode that lies in two. -/
theorem inodeSync_one_overruns {t : Transfer} {inode : Inode} {k : Kernel}
    (hpart : (inodePosition k.part.sb (inode.iNo % 256)).secLba < k.part.startLba + k.part.secCnt)
    (htwo : inodeTwoSec (inode.iNo % 256) = true) : ¬ (inodeSync t inode 1).avoids .overrun k := by
  intro h
  have hn : inode.iNo % 256 < maxFilesPerPart := by
    unfold maxFilesPerPart
    omega
  have hsecs : 1 < (inodePosition k.part.sb (inode.iNo % 256)).secs := by
    rw [inodePosition_secs, htwo]
    decide
  rw [inodeSync, avoids_bind, wp_inodeLocate] at h
  have hrest := (avoids_bind.mp (h.2 hn)).2
  rw [wp_read, if_pos hsecs, avoids_bind, wp_assert] at hrest
  exact hrest.2 (decide_eq_true hpart) rfl

/-- A call of one of the functions that transfer inodes through a buffer. -/
inductive IoBufCall where
  | fileWrite (fd : ℕ) (buf : Bytes) (count : ℕ)
  | fileCreate (parentDir : ℕ) (filename : List UInt8) (flag : ℕ)
  | sysMkdir (pathname : CString)
  | deleteDirEntry (pdir inodeNo : ℕ)
  | inodeRelease (inodeNo : ℕ)

/-- No `inode_sync` and no `inode_delete` of the call transfers more than its buffer
holds, whatever the call runs into. -/
def IoBufCall.Fits (t : Transfer) (k : Kernel) : IoBufCall → Prop
  | fileWrite fd buf count => (BochsOs.fileWrite t fd buf count).avoids .overrun k
  | fileCreate parentDir filename flag =>
      (BochsOs.fileCreate t parentDir filename flag).avoids .overrun k
  | sysMkdir pathname => (BochsOs.sysMkdir t pathname).avoids .overrun k
  | deleteDirEntry pdir inodeNo => (BochsOs.deleteDirEntry t pdir inodeNo).avoids .overrun k
  | inodeRelease inodeNo => (BochsOs.inodeRelease t inodeNo).avoids .overrun k

/-- The call may store the inode `n`: a write stores the inode of its file, the other
calls can store any. -/
def IoBufCall.MayStore (k : Kernel) (n : ℕ) : IoBufCall → Prop
  | fileWrite fd _ _ => ∀ a ∈ (k.fileTable fd).fdInode, (k.inodes a).iNo = n
  | _ => True

/-- A write to a file whose inode lies in one sector stays within its buffer. -/
theorem fileWrite_avoids {t : Transfer} {k : Kernel} {n fd : ℕ} {buf : Bytes} {count : ℕ}
    (hstore : ∀ a ∈ (k.fileTable fd).fdInode, (k.inodes a).iNo = n)
    (hone : inodeTwoSec (n % 256) = false) : (fileWrite t fd buf count).avoids .overrun k := by
  rw [fileWrite, avoids_bind, wp_read]
  refine ⟨trivial, ?_⟩
  rcases hinode : (k.fileTable fd).fdInode with _ | a
  · exact Fault.noConfusion
  have hiNo := hstore a hinode
  dsimp only
  split
  · trivial
  -- the number of the inode is kept up to the last step
  have hsync : ∀ k', SameNumbers k k' → (do
      let k ← Prog.read
      inodeSync t (k.inodes a) 1
      return (count : ℤ) : Prog Kernel ℤ).avoids .overrun k' := by
    intro k' hk'
    have hone' : inodeTwoSec ((k'.inodes a).iNo % 256) = false := by rw [hk' a, hiNo, hone]
    rw [avoids_bind, wp_read]
    exact ⟨trivial, ((inodeSync_one_never t hone').bind fun _ => .pure _) k'⟩
  rw [avoids_bind, wp_sysMalloc]
  refine ⟨sysMalloc_never k, fun ok => ?_⟩
  split
  · trivial
  rw [avoids_bind, wp_sysMalloc]
  refine ⟨sysMalloc_never k, fun ok => ?_⟩
  split
  · trivial
  rw [avoids_bind]
  refine ⟨allocFirst_never _ _ k, ?_⟩
  have hfirst : Within SameNumbers (allocFirst t a) := allocFirst_within t
  refine wp_mono (hfirst.wp_of (refl k)) fun ok k₁ hk₁ => ?_
  split
  · trivial
  rw [avoids_bind, wp_assert]
  refine ⟨assert_never _ k₁, fun _ => ?_⟩
  rw [avoids_bind]
  refine ⟨buildBlocks_never _ _ _ _ k₁, ?_⟩
  refine wp_mono ((buildBlocks_within t _ _).wp_of hk₁) fun all k₂ hk₂ => ?_
  rcases all with _ | allBlocks
  · trivial
  dsimp only
  rw [avoids_bind, wp_modify, avoids_bind]
  refine ⟨trivial, writeLoop_never _ _ _ _ _ _ _ _ _ _, ?_⟩
  refine wp_mono ((writeLoop_within t fd allBlocks buf count count 0 true).wp_of ?_)
    fun _ k₃ hk₃ => hsync k₃ hk₃
  exact hk₂

/-- A new file system with the inode `n` open as a file of one block and no bytes. -/
def fileMachine (n : ℕ) : Kernel :=
  { smallMachine.newFs with
    inodes := fun _ => (inodeInit n).setSector 0 (smallMachine.newSb.dataStartLba + 1)
    fileTable := fun _ => ⟨0, oRdwr, some 1⟩ }

/-- Writing nothing to an empty file that has its first block goes straight to the store
of its inode. -/
theorem fileWrite_nothing {t : Transfer} {k : Kernel} {fd a : ℕ} {buf : Bytes}
    (hinode : (k.fileTable fd).fdInode = some a) (hsize : (k.inodes a).iSize = 0)
    (hblock : (k.inodes a).iSectors 0 ≠ 0) (h : (fileWrite t fd buf 0).avoids .overrun k) :
    (inodeSync t (k.inodes a) 1).avoids .overrun
      (k.setFile fd { k.fileTable fd with fdPos := subU32 0 1 }) := by
  have hrest := (avoids_bind.mp h).2
  rw [wp_read, hinode] at hrest
  dsimp only at hrest
  rw [hsize, if_neg (by decide), avoids_bind, wp_sysMalloc] at hrest
  have hrest := hrest.2 true
  rw [if_neg (by decide), avoids_bind, wp_sysMalloc] at hrest
  have hrest := hrest.2 true
  rw [if_neg (by decide), avoids_bind, allocFirst, wp_bind, wp_read, if_neg hblock, wp_pure,
    if_neg (by decide)] at hrest
  have hrest := (avoids_bind.mp hrest.2).2
  rw [wp_assert] at hrest
  have hrest := (avoids_bind.mp (hrest (by decide))).2
  rw [buildBlocks, wp_bind, wp_read] at hrest
  dsimp only at hrest
  rw [if_pos (by decide), if_pos (by decide), wp_pure] at hrest
  have hrest := (avoids_bind.mp hrest).2
  rw [wp_modify, writeLoop] at hrest
  have hrest := (avoids_bind.mp (avoids_bind.mp hrest).2).2
  rw [wp_read] at hrest
  have hsync := (avoids_bind.mp hrest).1
  exact hsync

/-- Writing nothing to a file whose inode lies in two sectors overruns the buffer. -/
theorem fileWrite_overruns {n : ℕ} (htwo : inodeTwoSec (n % 256) = true) :
    ¬ (fileWrite .consecutive 3 zeroBuf 0).avoids .overrun (fileMachine n) := by
  intro h
  have hn : n % 256 < maxFilesPerPart := by
    unfold maxFilesPerPart
    omega
  have hnew := smallMachine_roomy.tableFits
  have hfits : (fileMachine n).TableFits := ⟨hnew.disk, hnew.part⟩
  have hiNo : ((fileMachine n).inodes 1).iNo = n := rfl
  have hfirst : ((fileMachine n).inodes 1).iSectors 0 = smallMachine.newSb.dataStartLba + 1 := by
    change Function.update (inodeInit n).iSectors 0 _ 0 = _
    exact Function.update_self _ _ _
  have hblock : ((fileMachine n).inodes 1).iSectors 0 ≠ 0 := by
    rw [hfirst]
    exact Nat.succ_ne_zero _
  have hsync := fileWrite_nothing (a := 1) rfl rfl hblock h
  refine inodeSync_one_overruns ?_ ?_ hsync
  · rw [hiNo]
    exact (hfits.position hn).1
  · rw [hiNo]
    exact htwo

/-- The buffers of the five callers are large enough for an inode number just if its
place lies in one sector. -/
theorem fits_iff (n : ℕ) : (∀ t k, ∀ call : IoBufCall, call.MayStore k n → call.Fits t k) ↔
    inodeTwoSec (n % 256) = false := by
  constructor
  · intro h
    by_contra htwo
    exact fileWrite_overruns (Bool.eq_true_of_not_eq_false htwo)
      (h .consecutive (fileMachine n) (.fileWrite 3 zeroBuf 0) fun a ha => by
        cases ha
        rfl)
  · intro hone t k call hstore
    cases call with
    | fileWrite fd buf count => exact fileWrite_avoids hstore hone
    | fileCreate parentDir filename flag => exact fileCreate_never t parentDir filename flag k
    | sysMkdir pathname => exact sysMkdir_never t pathname k
    | deleteDirEntry pdir inodeNo => exact deleteDirEntry_never t pdir inodeNo k
    | inodeRelease inodeNo => exact inodeRelease_never t inodeNo k

/-- A write to the file with the inode 6 overruns its buffer. -/
theorem not_fits_six : ¬ (IoBufCall.fileWrite 3 zeroBuf 0).Fits .consecutive (fileMachine 6) :=
  fileWrite_overruns (by decide)

end BochsOs
