import BochsOs.Fs.Syscall

/-!
# What the file system leaves alone

Most functions of `inode.c`, `dir.c` and `file.c` read the disk (`Within Eq`), or write
the disk, the bitmaps and the size and blocks of inodes (`Within R`, for every relation
`R` that such writes respect).  Only `inode_open`, `inode_close` and their callers change
the list of open inodes, the counts and the handles; for them `R` has to respect that.
-/

namespace BochsOs

open ByteMemory Suspend Suspend.Prog

/-! ## Reading -/

theorem sysMalloc_same : Steady Eq sysMalloc := Steady.arbitrary.bind fun _ => .pure _

theorem sysMallocUnchecked_same : Steady Eq sysMallocUnchecked := by
  refine sysMalloc_same.bind fun ok => ?_
  split
  · exact .pure _
  · exact .stop _

theorem ideReadSector_same (lba : ℕ) (buf : Bytes) (off : ℕ) :
    Steady Eq (ideReadSector lba buf off) :=
  (Steady.assert _).bind fun _ => Steady.block.bind fun _ => Steady.read.bind fun _ =>
    Steady.block.bind fun _ => .pure _

theorem ideReadLoop_same (t : Transfer) (lba left i : ℕ) (buf : Bytes) :
    Steady Eq (ideReadLoop t lba left i buf) := by
  induction left generalizing i buf with
  | zero => exact .pure _
  | succ left ih => exact (ideReadSector_same _ _ _).bind fun _ => ih _ _

theorem ideRead_same (t : Transfer) (lba : ℕ) (buf : Bytes) (secCnt : ℕ) :
    Steady Eq (ideRead t lba buf secCnt) :=
  ideReadLoop_same t lba secCnt 0 buf

theorem getFreeSlotInGlobal_same : Steady Eq getFreeSlotInGlobal :=
  Steady.read.bind fun _ => .pure _

theorem inodeLocate_same (inodeNo : ℕ) : Steady Eq (inodeLocate inodeNo) :=
  (Steady.assert _).bind fun _ => Steady.read.bind fun _ => .pure _

theorem readIndirect_same (t : Transfer) (iSectors : ℕ → ℕ) :
    Steady Eq (readIndirect t iSectors) := by
  unfold readIndirect
  split
  · exact ideRead_same _ _ _ _
  · exact .pure _

theorem searchBlocks_same (t : Transfer) (allBlocks : ℕ → ℕ) (name : List UInt8)
    (left blkI : ℕ) : Steady Eq (searchBlocks t allBlocks name left blkI) := by
  induction left generalizing blkI with
  | zero => exact .pure _
  | succ left ih =>
      unfold searchBlocks
      split
      · exact ih _
      · refine (ideRead_same _ _ _ _).bind fun buf => Steady.read.bind fun k => ?_
        split
        · exact .pure _
        · exact ih _

theorem searchDirEntry_same (t : Transfer) (pdir : ℕ) (name : List UInt8) :
    Steady Eq (searchDirEntry t pdir name) := by
  refine sysMalloc_same.bind fun ok => ?_
  split
  · exact Steady.read.bind fun k => (readIndirect_same _ _).bind fun table =>
      sysMallocUnchecked_same.bind fun _ => searchBlocks_same _ _ _ _ _
  · exact .pure _

theorem createDirEntry_same (filename : List UInt8) (inodeNo : ℕ) (fileType : FileType) :
    Steady Eq (createDirEntry filename inodeNo fileType) :=
  (Steady.assert _).bind fun _ => .pure _

theorem scanEntry_same (buf : Bytes) (inodeNo : ℕ) (scan : BlockScan) (i : ℕ) :
    Steady Eq (scanEntry buf inodeNo scan i) := by
  unfold scanEntry
  dsimp only
  split
  · exact .pure _
  split
  · exact .pure _
  split
  · exact .pure _
  split
  · exact (Steady.assert _).bind fun _ => .pure _
  · exact .pure _

theorem scanEntries_same (buf : Bytes) (inodeNo left i : ℕ) (scan : BlockScan) :
    Steady Eq (scanEntries buf inodeNo left i scan) := by
  induction left generalizing i scan with
  | zero => exact .pure _
  | succ left ih => exact (scanEntry_same _ _ _ _).bind fun _ => ih _ _

theorem dirIsEmpty_same (dir : ℕ) : Steady Eq (dirIsEmpty dir) := Steady.read.bind fun _ => .pure _

theorem depthLoop_same (fuel : ℕ) (subPath : Option (List UInt8)) (depth : ℕ) :
    Steady Eq (depthLoop fuel subPath depth) := by
  induction fuel generalizing subPath depth with
  | zero => exact .pure _
  | succ fuel ih =>
      unfold depthLoop
      dsimp only
      split
      · exact .stop _
      split
      · exact .pure _
      · exact ih _ _

/-- Counting names leaves the state alone. -/
theorem pathDepthCnt_same (pathname : List UInt8) : Steady Eq (pathDepthCnt pathname) := by
  unfold pathDepthCnt
  dsimp only
  split
  · exact .stop _
  split
  · refine Steady.arbitrary.bind fun byte => ?_
    split
    · exact .pure _
    · exact depthLoop_same _ _ _
  · exact depthLoop_same _ _ _

theorem fdLocal2global_same (localFd : ℕ) : Steady Eq (fdLocal2global localFd) := by
  unfold fdLocal2global
  split
  · exact .stop _
  · exact Steady.read.bind fun _ => (Steady.assert _).bind fun _ => .pure _

theorem isPipe_same (localFd : ℕ) : Steady Eq (isPipe localFd) :=
  (fdLocal2global_same localFd).bind fun _ => Steady.read.bind fun _ => .pure _

/-! ## Writing -/

/-- The inodes differ in size and blocks only. -/
structure Inode.SameRefs (inode inode' : Inode) : Prop where
  iNo : inode'.iNo = inode.iNo
  iOpenCnts : inode'.iOpenCnts = inode.iOpenCnts
  writeDeny : inode'.writeDeny = inode.writeDeny

/-- A relation that the disk does not matter for. -/
class DiskFrame (R : Kernel → Kernel → Prop) : Prop extends IsPreorder Kernel R where
  disk : ∀ (k : Kernel) (disk : Bytes), R k { k with disk := disk }

/-- A relation that the disk, the bitmap of blocks and the blocks of the inodes do not matter
for. -/
class SectorFrame (R : Kernel → Kernel → Prop) : Prop extends DiskFrame R where
  blockBitmap : ∀ (k : Kernel) (b : Bitmap), R k { k with part := { k.part with blockBitmap := b } }
  sector : ∀ (k : Kernel) (a i lba : ℕ), R k (k.setInode a ((k.inodes a).setSector i lba))

/-- A relation that the disk and the bitmap of blocks do not matter for. -/
class BitmapFrame (R : Kernel → Kernel → Prop) : Prop extends DiskFrame R where
  blockBitmap : ∀ (k : Kernel) (b : Bitmap), R k { k with part := { k.part with blockBitmap := b } }

instance (R : Kernel → Kernel → Prop) [SectorFrame R] : BitmapFrame R where
  blockBitmap := SectorFrame.blockBitmap

/-- Nor do the blocks of the inode at `a` matter for the relation. -/
class FileFrame (a : ℕ) (R : Kernel → Kernel → Prop) : Prop extends BitmapFrame R where
  sector : ∀ (k : Kernel) (i lba : ℕ), R k (k.setInode a ((k.inodes a).setSector i lba))

instance (a : ℕ) (R : Kernel → Kernel → Prop) [SectorFrame R] : FileFrame a R where
  sector k i lba := SectorFrame.sector k a i lba

/-- Nor do the size of this inode and the positions of the open files. -/
class WriteFrame (a : ℕ) (R : Kernel → Kernel → Prop) : Prop extends FileFrame a R where
  grow : ∀ (k : Kernel) (size : ℕ), R k (k.setInode a ((k.inodes a).grow size))
  pos : ∀ (k : Kernel) (g pos : ℕ), R k (k.setFile g { k.fileTable g with fdPos := pos })

/-- Nor does it matter for the relation that inodes grow. -/
class GrowFrame (R : Kernel → Kernel → Prop) : Prop extends SectorFrame R where
  grow : ∀ (k : Kernel) (a size : ℕ), R k (k.setInode a ((k.inodes a).grow size))

/-- A relation that the disk, the bitmap of blocks and the size and blocks of the inodes do
not matter for. -/
class BlockFrame (R : Kernel → Kernel → Prop) : Prop extends DiskFrame R where
  blockBitmap : ∀ (k : Kernel) (b : Bitmap), R k { k with part := { k.part with blockBitmap := b } }
  inode : ∀ (k : Kernel) (a : ℕ) (inode : Inode), (k.inodes a).SameRefs inode → R k (k.setInode a inode)

instance (R : Kernel → Kernel → Prop) [BlockFrame R] : GrowFrame R where
  blockBitmap := BlockFrame.blockBitmap
  sector k a _ _ := BlockFrame.inode k a _ ⟨rfl, rfl, rfl⟩
  grow k a _ := BlockFrame.inode k a _ ⟨rfl, rfl, rfl⟩

/-- A relation that the disk, the bitmaps and the size and blocks of the inodes do not
matter for. -/
class ContentFrame (R : Kernel → Kernel → Prop) : Prop extends BlockFrame R where
  inodeBitmap : ∀ (k : Kernel) (b : Bitmap), R k { k with part := { k.part with inodeBitmap := b } }

section Disk

variable {R : Kernel → Kernel → Prop} [DiskFrame R]

theorem ideWriteSector_within (lba : ℕ) (buf : Bytes) (off : ℕ) :
    Within R (ideWriteSector lba buf off) :=
  (Within.assert _).bind fun _ => Within.block.bind fun _ =>
    (Within.modify fun k => DiskFrame.disk k _).bind fun _ => .block

theorem ideWriteLoop_within (t : Transfer) (lba : ℕ) (buf : Bytes) (left i : ℕ) :
    Within R (ideWriteLoop t lba buf left i) := by
  induction left generalizing i with
  | zero => exact .pure _
  | succ left ih => exact (ideWriteSector_within _ _ _).bind fun _ => ih _

theorem ideWrite_within (t : Transfer) (lba : ℕ) (buf : Bytes) (secCnt : ℕ) :
    Within R (ideWrite t lba buf secCnt) :=
  ideWriteLoop_within t lba buf secCnt 0

theorem bitmapSync_within (t : Transfer) (bitIdx : ℕ) (btmpType : BitmapType) :
    Within R (bitmapSync t bitIdx btmpType) := by
  refine Within.read.bind fun k => ?_
  cases btmpType with
  | inodeBitmap => exact ideWrite_within _ _ _ _
  | blockBitmap => exact ideWrite_within _ _ _ _

theorem inodeSync_within (t : Transfer) (inode : Inode) (bufSecs : ℕ) :
    Within R (inodeSync t inode bufSecs) := by
  refine (inodeLocate_same _).of_eq.bind fun _ => Within.read.bind fun _ =>
    (Within.assert _).bind fun _ => ?_
  dsimp only
  split
  · exact .stop _
  · exact (ideRead_same _ _ _ _).of_eq.bind fun _ => ideWrite_within _ _ _ _

theorem inodeDelete_within (t : Transfer) (inodeNo bufSecs : ℕ) :
    Within R (inodeDelete t inodeNo bufSecs) := by
  refine (Within.assert _).bind fun _ => (inodeLocate_same _).of_eq.bind fun _ =>
    Within.read.bind fun _ => (Within.assert _).bind fun _ => ?_
  split
  · exact .stop _
  · exact (ideRead_same _ _ _ _).of_eq.bind fun _ => ideWrite_within _ _ _ _

end Disk

section Bitmap

variable {R : Kernel → Kernel → Prop} [BitmapFrame R]

theorem blockBitmapAlloc_within : Within R blockBitmapAlloc := by
  refine .read_bind fun k => ?_
  split
  · exact refl k
  · exact ⟨refl k, BitmapFrame.blockBitmap k _⟩

theorem setBlockBit_within (bitIdx : ℕ) (value : Bool) : Within R (setBlockBit bitIdx value) :=
  .modify fun k => BitmapFrame.blockBitmap k _

theorem freeBlock_within (t : Transfer) (lba : ℕ) : Within R (freeBlock t lba) :=
  Within.read.bind fun _ => (Within.assert _).bind fun _ =>
    (setBlockBit_within _ _).bind fun _ => bitmapSync_within _ _ _

theorem freeBlocks_within (t : Transfer) (allBlocks : ℕ → ℕ) (left blkI : ℕ) :
    Within R (freeBlocks t allBlocks left blkI) := by
  induction left generalizing blkI with
  | zero => exact .pure _
  | succ left ih =>
      unfold freeBlocks
      split
      · exact (freeBlock_within _ _).bind fun _ => ih _
      · exact ih _

end Bitmap

section Sector

variable {R : Kernel → Kernel → Prop} [SectorFrame R]

theorem setSector_within (dir i lba : ℕ) : Within R (modifyDirInode dir (·.setSector i lba)) :=
  .modify fun k => SectorFrame.sector k _ _ _

end Sector

/-! ### Files -/

section File

variable {R : Kernel → Kernel → Prop} {a : ℕ} [FileFrame a R]

theorem modifyInode_setSector_within (i lba : ℕ) : Within R (modifyInode a (·.setSector i lba)) :=
  .modify fun k => FileFrame.sector k _ _

theorem allocFirst_within (t : Transfer) : Within R (allocFirst t a) := by
  refine Within.read.bind fun k => ?_
  split
  · refine blockBitmapAlloc_within.bind fun blk => ?_
    split
    · exact .pure _
    · exact (modifyInode_setSector_within _ _).bind fun _ => (Within.assert _).bind fun _ =>
        (bitmapSync_within _ _ _).bind fun _ => .pure _
  · exact .pure _

theorem allocBlocks_within (t : Transfer) (left blkI : ℕ) (allBlocks : ℕ → ℕ) :
    Within R (allocBlocks t a left blkI allBlocks) := by
  induction left generalizing blkI allBlocks with
  | zero => exact .pure _
  | succ left ih =>
      unfold allocBlocks
      refine blockBitmapAlloc_within.bind fun blk => ?_
      split
      · exact .pure _
      · refine Within.read.bind fun k => ?_
        split
        · exact (Within.assert _).bind fun _ => (modifyInode_setSector_within _ _).bind fun _ =>
            (bitmapSync_within _ _ _).bind fun _ => ih _ _
        · exact (bitmapSync_within _ _ _).bind fun _ => ih _ _

theorem buildBlocks_within (t : Transfer) (has will : ℕ) : Within R (buildBlocks t a has will) := by
  refine Within.read.bind fun k => ?_
  dsimp only
  split
  · split
    · exact .pure _
    · exact (Within.assert _).bind fun _ => (ideRead_same _ _ _ _).of_eq.bind fun _ => .pure _
  split
  · exact (Within.assert _).bind fun _ => allocBlocks_within _ _ _ _
  split
  · refine blockBitmapAlloc_within.bind fun blk => ?_
    split
    · exact .pure _
    · refine (Within.assert _).bind fun _ => (modifyInode_setSector_within _ _).bind fun _ =>
        (allocBlocks_within _ _ _ _).bind fun blocks => ?_
      split
      · exact .pure _
      · exact (ideWrite_within _ _ _ _).bind fun _ => .pure _
  · refine (Within.assert _).bind fun _ => (ideRead_same _ _ _ _).of_eq.bind fun _ =>
      (allocBlocks_within _ _ _ _).bind fun blocks => ?_
    split
    · exact .pure _
    · exact (ideWrite_within _ _ _ _).bind fun _ => .pure _

end File

theorem writeLoop_within {R : Kernel → Kernel → Prop} {a : ℕ} [WriteFrame a R] (t : Transfer) (fd : ℕ)
    (allBlocks : ℕ → ℕ) (src : Bytes) (count fuel written : ℕ) (first : Bool) :
    Within R (writeLoop t fd a allBlocks src count fuel written first) := by
  induction fuel generalizing written first with
  | zero => exact .pure _
  | succ fuel ih =>
      have hend : ∀ (lba chunk off : ℕ) (ioBuf : Bytes), Within R (do
          ideWrite t lba (copy ioBuf off src written chunk) 1
          modifyInode a (·.grow chunk)
          modify fun k => k.setFile fd
            { k.fileTable fd with fdPos := ((k.fileTable fd).fdPos + chunk) % 2 ^ 32 }
          writeLoop t fd a allBlocks src count fuel (written + chunk) false : Prog Kernel Unit) :=
        fun _ _ _ _ => (ideWrite_within _ _ _ _).bind fun _ =>
          (Within.modify fun k => WriteFrame.grow k _).bind fun _ =>
            (Within.modify fun k => WriteFrame.pos a k fd _).bind fun _ => ih _ _
      unfold writeLoop
      split
      · exact .pure _
      refine Within.read.bind fun k => ?_
      dsimp only
      split
      · exact .stop _
      split
      · exact (ideRead_same _ _ _ _).of_eq.bind fun ioBuf => hend _ _ _ ioBuf
      · exact (Within.pure _).bind fun ioBuf => hend _ _ _ ioBuf

/-! ### Directories -/

section Grow

variable {R : Kernel → Kernel → Prop} [GrowFrame R]

theorem grow_within (dir size : ℕ) : Within R (modifyDirInode dir (·.grow size)) :=
  .modify fun k => GrowFrame.grow k _ _

theorem writeNewBlock_within (t : Transfer) (parentDir : ℕ) (e : DirEntry) (lba : ℕ) :
    Within R (writeNewBlock t parentDir e lba) :=
  Within.read.bind fun _ => (ideWrite_within _ _ _ _).bind fun _ =>
    (grow_within _ _).bind fun _ => .pure _

theorem syncNewBlock_within (t : Transfer) (parentDir : ℕ) (e : DirEntry) (blkI : ℕ)
    (allBlocks : ℕ → ℕ) (hasFlatten : Bool) :
    Within R (syncNewBlock t parentDir e blkI allBlocks hasFlatten) := by
  refine blockBitmapAlloc_within.bind fun blk => ?_
  split
  · exact .pure _
  next blkLba =>
    refine Within.read.bind fun k => (Within.assert _).bind fun _ =>
      (bitmapSync_within _ _ _).bind fun _ => ?_
    split
    · exact (setSector_within _ _ _).bind fun _ => writeNewBlock_within _ _ _ _
    split
    · refine (setSector_within _ _ _).bind fun _ => blockBitmapAlloc_within.bind fun entry => ?_
      split
      · exact (setBlockBit_within _ _).bind fun _ => (setSector_within _ _ _).bind fun _ => .pure _
      · exact (Within.assert _).bind fun _ => (bitmapSync_within _ _ _).bind fun _ =>
          (ideWrite_within _ _ _ _).bind fun _ => writeNewBlock_within _ _ _ _
    · exact Within.read.bind fun _ => (ideWrite_within _ _ _ _).bind fun _ =>
        writeNewBlock_within _ _ _ _

theorem syncLoop_within (t : Transfer) (parentDir : ℕ) (e : DirEntry) (fuel blkI : ℕ)
    (allBlocks : ℕ → ℕ) (hasFlatten : Bool) :
    Within R (syncLoop t parentDir e fuel blkI allBlocks hasFlatten) := by
  induction fuel generalizing blkI allBlocks hasFlatten with
  | zero => exact .stop _
  | succ fuel ih =>
      unfold syncLoop
      split
      · exact .pure _
      split
      · exact syncNewBlock_within _ _ _ _ _ _
      split
      · exact Within.read.bind fun _ => (ideRead_same _ _ _ _).of_eq.bind fun _ => ih _ _ _
      · refine (ideRead_same _ _ _ _).of_eq.bind fun buf => Within.read.bind fun k => ?_
        split
        · exact (ideWrite_within _ _ _ _).bind fun _ => (grow_within _ _).bind fun _ => .pure _
        · exact ih _ _ _

theorem syncDirEntry_within (t : Transfer) (parentDir : ℕ) (e : DirEntry) :
    Within R (syncDirEntry t parentDir e) :=
  Within.read.bind fun _ => (Within.assert _).bind fun _ => syncLoop_within _ _ _ _ _ _ _

end Grow

section Block

variable {R : Kernel → Kernel → Prop} [BlockFrame R]

theorem modifyDirInode_within (dir : ℕ) {f : Inode → Inode}
    (hf : ∀ inode : Inode, inode.SameRefs (f inode)) : Within R (modifyDirInode dir f) :=
  .modify fun k => BlockFrame.inode k _ _ (hf _)

theorem deleteBlock_within (t : Transfer) (pdir blkI lba : ℕ) :
    Within R (deleteBlock t pdir blkI lba) := by
  refine Within.read.bind fun k => (setBlockBit_within _ _).bind fun _ =>
    (bitmapSync_within _ _ _).bind fun _ => ?_
  split
  · exact setSector_within _ _ _
  · exact .stop _

theorem deleteFinish_within (t : Transfer) (pdir : ℕ) : Within R (deleteFinish t pdir) := by
  refine Within.read.bind fun k => (Within.assert _).bind fun _ => Within.bind ?_ fun _ =>
    Within.read.bind fun _ => (inodeSync_within _ _ _).bind fun _ => .pure _
  exact modifyDirInode_within pdir fun _ => ⟨rfl, rfl, rfl⟩

theorem deleteLoop_within (t : Transfer) (pdir inodeNo : ℕ) (allBlocks : ℕ → ℕ) (left blkI : ℕ) :
    Within R (deleteLoop t pdir inodeNo allBlocks left blkI) := by
  induction left generalizing blkI with
  | zero => exact .pure _
  | succ left ih =>
      unfold deleteLoop
      split
      · exact ih _
      refine (ideRead_same _ _ _ _).of_eq.bind fun buf => Within.read.bind fun k =>
        (scanEntries_same _ _ _ _ _).of_eq.bind fun scan => ?_
      split
      · exact ih _
      · split
        · exact (deleteBlock_within _ _ _ _).bind fun _ => deleteFinish_within _ _
        · exact (ideWrite_within _ _ _ _).bind fun _ => deleteFinish_within _ _

theorem deleteDirEntry_within (t : Transfer) (pdir inodeNo : ℕ) :
    Within R (deleteDirEntry t pdir inodeNo) :=
  Within.read.bind fun _ => (readIndirect_same _ _).of_eq.bind fun _ =>
    deleteLoop_within _ _ _ _ _ _

end Block

section Content

variable {R : Kernel → Kernel → Prop} [ContentFrame R]

theorem inodeBitmapAlloc_within : Within R inodeBitmapAlloc := by
  refine .read_bind fun k => ?_
  split
  · exact refl k
  · exact ⟨refl k, ContentFrame.inodeBitmap k _⟩

theorem setInodeBit_within (inodeNo : ℕ) (value : Bool) : Within R (setInodeBit inodeNo value) :=
  .modify fun k => ContentFrame.inodeBitmap k _

end Content

/-! ## Opening and closing -/

/-- A relation that opening and closing inodes and directory handles respects. -/
class WalkFrame (R : Kernel → Kernel → Prop) : Prop extends IsPreorder Kernel R where
  count : ∀ (k : Kernel) (a n : ℕ), R k (k.setInode a { k.inodes a with iOpenCnts := n })
  erase : ∀ (k : Kernel) (a : ℕ), R k { k with openInodes := k.openInodes.erase a }
  alloc : ∀ k : Kernel, R k { k with nextInode := k.nextInode + 1 }
  newInode : ∀ (k : Kernel) (inode : Inode),
    R k { { k with nextInode := k.nextInode + 1 }.setInode k.nextInode inode with
      openInodes := k.nextInode :: k.openInodes }
  newDir : ∀ (k : Kernel) (a : ℕ), R k { k with
    dirs := Function.update k.dirs k.nextDir ⟨a, 0⟩
    nextDir := k.nextDir + 1
    liveDirs := k.nextDir :: k.liveDirs }
  freeDir : ∀ (k : Kernel) (d : ℕ), R k { k with liveDirs := k.liveDirs.erase d }

section Walk

variable {R : Kernel → Kernel → Prop} [WalkFrame R]

theorem inodeOpen_within (t : Transfer) (inodeNo : ℕ) : Within R (inodeOpen t inodeNo) := by
  refine .read_bind fun k => ?_
  cases hfind : k.findOpen inodeNo with
  | some a => exact ⟨refl k, WalkFrame.count k a _⟩
  | none =>
      have halloc : R k { k with nextInode := k.nextInode + 1 } := WalkFrame.alloc k
      simp only [always_bind, wp_inodeLocate, wp_sysMallocUnchecked, always_read, wp_read,
        always_write, wp_write]
      refine ⟨(inodeLocate_same _).of_eq k, fun _ => ⟨sysMallocUnchecked_same.of_eq k, refl k,
        ⟨refl k, halloc⟩, sysMallocUnchecked_same.of_eq.always_of halloc,
        (ideRead_same _ _ _ _).of_eq.always_of halloc, ?_⟩⟩
      refine wp_mono (ideRead_same _ _ _ _).wp_eq ?_
      rintro buf _ rfl
      exact ⟨⟨halloc, WalkFrame.newInode k _⟩, WalkFrame.newInode k _⟩

theorem inodeClose_within (a : ℕ) : Within R (inodeClose a) := by
  refine .read_bind fun k => ?_
  have hset : R k (k.setInode a (k.inodes a).dropOpenCnt) := WalkFrame.count k a _
  dsimp only
  split
  · exact ⟨refl k, trans_of R hset (WalkFrame.erase (k.setInode a (k.inodes a).dropOpenCnt) a)⟩
  · exact ⟨refl k, hset⟩

theorem dirOpen_within (t : Transfer) (inodeNo : ℕ) : Within R (dirOpen t inodeNo) := by
  refine sysMallocUnchecked_same.of_eq.bind fun _ => (inodeOpen_within t inodeNo).bind fun a => ?_
  exact .read_bind fun k => ⟨refl k, WalkFrame.newDir k a⟩

theorem dirClose_within (dir : ℕ) : Within R (dirClose dir) := by
  unfold dirClose
  split
  · exact .pure _
  · refine Within.read.bind fun k => ?_
    split
    · exact (inodeClose_within _).bind fun _ => .modify fun k => WalkFrame.freeDir k _
    · exact .stop _

theorem nextNameBy_within (subPath : Option (List UInt8)) :
    Within R (nextNameBy parseFits subPath) := by
  rw [nextNameBy_parseFits]
  split
  · exact .stop _
  · exact .pure _

theorem searchLoop_within (t : Transfer) (fuel : ℕ) (w : Walk) :
    Within R (searchLoop t fuel w) := by
  induction fuel generalizing w with
  | zero => exact .stop _
  | succ fuel ih =>
      unfold searchLoopBy
      split
      · exact (dirClose_within _).bind fun _ => (dirOpen_within _ _).bind fun _ => .pure _
      split
      · exact .stop _
      refine (Within.assert _).bind fun _ => (searchDirEntry_same _ _ _).of_eq.bind fun found => ?_
      split
      · exact .pure _
      refine (nextNameBy_within _).bind fun ⟨name, subPath⟩ => ?_
      dsimp only
      split
      · exact .pure _
      · exact Within.read.bind fun _ => (dirClose_within _).bind fun _ =>
          (dirOpen_within _ _).bind fun _ => ih _
      · exact ih _

theorem searchFile_within (t : Transfer) (pathname : CString) :
    Within R (searchFile t pathname) := by
  unfold searchFile searchFileBy
  dsimp only
  split
  · exact .pure _
  · exact (Within.assert _).bind fun _ => Within.arbitrary.bind fun _ =>
      (nextNameBy_within (some _)).bind fun _ => searchLoop_within _ _ _

theorem sysOpendir_within (t : Transfer) (name : CString) : Within R (sysOpendir t name) := by
  refine (Within.assert _).bind fun _ => ?_
  split
  · exact .pure _
  refine (searchFile_within t name).bind fun found => ?_
  obtain ⟨inodeNo, record⟩ := found
  have hclose : ∀ r : Option ℕ,
      Within R (do dirClose record.parentDir; return r : Prog Kernel (Option ℕ)) := fun r =>
    (dirClose_within _).bind fun _ => .pure _
  cases inodeNo with
  | none => exact hclose none
  | some inodeNo =>
      dsimp only
      split
      · exact (dirOpen_within _ _).bind fun dir => hclose (some dir)
      · exact hclose none

theorem sysClosedir_within (dir : Option ℕ) : Within R (sysClosedir dir) := by
  cases dir with
  | none => exact .pure _
  | some dir => exact (dirClose_within _).bind fun _ => .pure _

end Walk

section ContentWalk

variable {R : Kernel → Kernel → Prop} [ContentFrame R] [WalkFrame R]

theorem mkdirIn_within (t : Transfer) (parentDir : ℕ) (dirname : List UInt8) (inodeNo : ℕ) :
    Within R (mkdirIn t parentDir dirname inodeNo) := by
  have hfail : Within R (do
      setInodeBit inodeNo false
      dirClose parentDir
      return -1 : Prog Kernel ℤ) :=
    (setInodeBit_within _ _).bind fun _ => (dirClose_within _).bind fun _ => .pure _
  refine blockBitmapAlloc_within.bind fun block => ?_
  cases block with
  | none => exact hfail
  | some blockLba =>
      refine Within.read.bind fun k => (Within.assert _).bind fun _ =>
        (bitmapSync_within _ _ _).bind fun _ => Within.read.bind fun k =>
          (ideWrite_within _ _ _ _).bind fun _ =>
            (createDirEntry_same _ _ _).of_eq.bind fun e =>
              (syncDirEntry_within _ _ _).bind fun synced => ?_
      cases synced with
      | true => exact Within.read.bind fun _ => (inodeSync_within _ _ _).bind fun _ =>
          (inodeSync_within _ _ _).bind fun _ => (bitmapSync_within _ _ _).bind fun _ =>
            (dirClose_within _).bind fun _ => .pure _
      | false => exact hfail

theorem sysMkdir_within (t : Transfer) (pathname : CString) : Within R (sysMkdir t pathname) := by
  refine sysMalloc_same.of_eq.bind fun ok => ?_
  split
  · exact .pure _
  refine (searchFile_within t pathname).bind fun found => ?_
  obtain ⟨inodeNo, record⟩ := found
  have hclose : Within R (do dirClose record.parentDir; return -1 : Prog Kernel ℤ) :=
    (dirClose_within _).bind fun _ => .pure _
  cases inodeNo with
  | some inodeNo => exact hclose
  | none =>
      refine (pathDepthCnt_same _).of_eq.bind fun depth => (pathDepthCnt_same _).of_eq.bind fun _ => ?_
      split
      · exact hclose
      split
      · exact .stop _
      · refine inodeBitmapAlloc_within.bind fun inodeNo => ?_
        cases inodeNo with
        | none => exact hclose
        | some inodeNo => exact mkdirIn_within _ _ _ _

end ContentWalk

end BochsOs
