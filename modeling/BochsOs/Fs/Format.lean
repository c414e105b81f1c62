import BochsOs.Fs.Syscall

/-!
# Making and mounting a file system

`partition_format`, `mount_partition` and the end of `fs_init` in `fs/fs.c`.  The
partition holds, in this order, a boot sector, the super block, the bitmap of blocks,
the bitmap of inodes, the table of inodes and the blocks.
-/

namespace BochsOs

open ByteMemory Suspend Suspend.Prog

/-- The magic number of the file system. -/
def fsMagic : ℕ := 0x19491001

/-- The sectors of the inode table. -/
def inodeTableSects : ℕ := divRoundUp (inodeSize * maxFilesPerPart) sectorSize

/-- `free_sects` for a partition of `secCnt` sectors. -/
def freeSects (secCnt : ℕ) : ℕ :=
  subU32 secCnt (2 + divRoundUp maxFilesPerPart bitsPerSector + inodeTableSects)

/-- `block_bitmap_bit_len`: the number of blocks. -/
def blockBitmapBitLen (secCnt : ℕ) : ℕ :=
  subU32 (freeSects secCnt) (divRoundUp (freeSects secCnt) bitsPerSector)

/-- The super block of a new file system. -/
def formatSuperBlock (startLba secCnt : ℕ) : SuperBlock :=
  let blockBitmapLba := addU32 startLba 2
  let blockBitmapSects := divRoundUp (blockBitmapBitLen secCnt) bitsPerSector
  let inodeBitmapLba := addU32 blockBitmapLba blockBitmapSects
  let inodeBitmapSects := divRoundUp maxFilesPerPart bitsPerSector
  let inodeTableLba := addU32 inodeBitmapLba inodeBitmapSects
  { magic := fsMagic
    secCnt := secCnt
    inodeCnt := maxFilesPerPart
    partLbaBase := startLba
    blockBitmapLba := blockBitmapLba
    blockBitmapSects := blockBitmapSects
    inodeBitmapLba := inodeBitmapLba
    inodeBitmapSects := inodeBitmapSects
    inodeTableLba := inodeTableLba
    inodeTableSects := inodeTableSects
    dataStartLba := addU32 inodeTableLba inodeTableSects
    rootInodeNo := 0
    dirEntrySize := direntSize }

/-- The words of a `struct super_block`. -/
def SuperBlock.word (sb : SuperBlock) : ℕ → ℕ
  | 0 => sb.magic
  | 1 => sb.secCnt
  | 2 => sb.inodeCnt
  | 3 => sb.partLbaBase
  | 4 => sb.blockBitmapLba
  | 5 => sb.blockBitmapSects
  | 6 => sb.inodeBitmapLba
  | 7 => sb.inodeBitmapSects
  | 8 => sb.inodeTableLba
  | 9 => sb.inodeTableSects
  | 10 => sb.dataStartLba
  | 11 => sb.rootInodeNo
  | 12 => sb.dirEntrySize
  | _ => 0

/-- The super block found at `a`. -/
def superBlockAt (m : Bytes) (a : ℕ) : SuperBlock where
  magic := readU32 m a
  secCnt := readU32 m (a + 4)
  inodeCnt := readU32 m (a + 8)
  partLbaBase := readU32 m (a + 12)
  blockBitmapLba := readU32 m (a + 16)
  blockBitmapSects := readU32 m (a + 20)
  inodeBitmapLba := readU32 m (a + 24)
  inodeBitmapSects := readU32 m (a + 28)
  inodeTableLba := readU32 m (a + 32)
  inodeTableSects := readU32 m (a + 36)
  dataStartLba := readU32 m (a + 40)
  rootInodeNo := readU32 m (a + 44)
  dirEntrySize := readU32 m (a + 48)

/-- The loop of `partition_format` that clears the bits `bitI`, … of a byte. -/
def clearBits : (left bitI : ℕ) → UInt8 → UInt8
  | 0, _, byte => byte
  | left + 1, bitI, byte => clearBits left (bitI + 1) (byte &&& ~~~bitMask bitI)

/-- The block bitmap of a new file system: the block of the root directory is taken, and
so are the bits past the last block, except the first of them, which the loop clears as
well. -/
def blockBitmapImage (bitLen : ℕ) : Bytes :=
  let lastByte := bitLen / 8
  let buf := fill (Function.update zeroBuf 0 1) lastByte (sectorSize - lastByte % sectorSize) 0xff
  Function.update buf lastByte (clearBits (bitLen % 8 + 1) 0 (buf lastByte))

/-- The inode of the root directory of a new file system. -/
def rootInode (sb : SuperBlock) : Inode :=
  { (inodeInit 0).setSector 0 sb.dataStartLba with iSize := sb.dirEntrySize * 2 }

/-- `partition_format`. -/
def partitionFormat (t : Transfer) : Prog Kernel Unit := do
  let k ← read
  let sb := formatSuperBlock k.part.startLba k.part.secCnt
  ideWrite t (addU32 k.part.startLba 1) (wordImage sb.word) 1
  sysMallocUnchecked
  ideWrite t sb.blockBitmapLba (blockBitmapImage (blockBitmapBitLen k.part.secCnt))
    sb.blockBitmapSects
  ideWrite t sb.inodeBitmapLba (Function.update zeroBuf 0 1) sb.inodeBitmapSects
  ideWrite t sb.inodeTableLba (copy zeroBuf 0 (rootInode sb).image 0 inodeSize) sb.inodeTableSects
  ideWrite t sb.dataStartLba (dotEntries 0 0) 1

/-- An allocation without which the kernel panics. -/
def sysMallocPanic : Prog Kernel Unit := do
  let ok ← sysMalloc
  if ok then return () else stop .halt

@[simp] theorem wp_sysMallocPanic {Q : Unit → Kernel → Prop} {k : Kernel} :
    sysMallocPanic.wp Q k ↔ Q () k := by
  simp [sysMallocPanic]

/-- `mount_partition` on `cur_part`. -/
def mountPartition (t : Transfer) : Prog Kernel Unit := do
  let k ← read
  sysMallocUnchecked
  sysMallocPanic
  let sbBuf ← ideRead t (addU32 k.part.startLba 1) zeroBuf 1
  let sb := superBlockAt sbBuf 0
  sysMallocPanic
  let blockBits ← ideRead t sb.blockBitmapLba zeroBuf sb.blockBitmapSects
  sysMallocPanic
  let inodeBits ← ideRead t sb.inodeBitmapLba zeroBuf sb.inodeBitmapSects
  modify fun k =>
    { k with
      part :=
        { k.part with
          sb := sb
          blockBitmap := ⟨sb.blockBitmapSects * sectorSize, blockBits⟩
          inodeBitmap := ⟨sb.inodeBitmapSects * sectorSize, inodeBits⟩ }
      openInodes := [] }

/-- The last loop of `fs_init`: no file is open. -/
def clearFileTable : Prog Kernel Unit :=
  modify fun k =>
    { k with
      fileTable := fun fd =>
        if fd < maxFileOpen then { k.fileTable fd with fdInode := none } else k.fileTable fd }

/-- `fs_init`, as far as `cur_part` is concerned. -/
def fsInit (t : Transfer) : Prog Kernel Unit := do
  sysMallocPanic
  let k ← read
  let sbBuf ← ideRead t (addU32 k.part.startLba 1) zeroBuf 1
  if readU32 sbBuf 0 ≠ fsMagic then partitionFormat t
  mountPartition t
  openRootDir t
  clearFileTable

/-- What `fs_init` does with a partition that has no file system yet. -/
def installFs (t : Transfer) : Prog Kernel Unit := do
  partitionFormat t
  mountPartition t
  openRootDir t
  clearFileTable

/-! ## The new file system -/

/-- The partition lies on the disk and has room for some blocks. -/
structure Kernel.Roomy (k : Kernel) : Prop where
  room : 620 ≤ k.part.secCnt
  last : k.part.startLba + k.part.secCnt ≤ maxLba + 1

theorem blockBitmapBitLen_eq {secCnt : ℕ} (hroom : 620 ≤ secCnt) (hlast : secCnt ≤ maxLba + 1) :
    blockBitmapBitLen secCnt = secCnt - 611 - (secCnt - 611 + 4095) / 4096 := by
  have hmax : maxLba + 1 = 163840 := rfl
  have hfree : freeSects secCnt = secCnt - 611 := subU32_of_le (by
    change 611 ≤ secCnt
    omega)
  have hround : divRoundUp (secCnt - 611) bitsPerSector = (secCnt - 611 + 4095) / 4096 := by
    unfold divRoundUp bitsPerSector
    rw [Nat.mod_eq_of_lt (by omega)]
  rw [blockBitmapBitLen, hfree, hround, subU32_of_le (by omega)]

/-- The block bitmap takes at least one sector, and the blocks lie inside the partition. -/
theorem blockBitmapSects_bounds {secCnt : ℕ} (hroom : 620 ≤ secCnt) (hlast : secCnt ≤ maxLba + 1) :
    0 < divRoundUp (blockBitmapBitLen secCnt) bitsPerSector ∧
      divRoundUp (blockBitmapBitLen secCnt) bitsPerSector + 611 + 8 ≤ secCnt ∧
      8 ≤ blockBitmapBitLen secCnt := by
  have hmax : maxLba + 1 = 163840 := rfl
  rw [blockBitmapBitLen_eq hroom hlast]
  unfold divRoundUp bitsPerSector
  rw [Nat.mod_eq_of_lt (by omega)]
  omega

namespace Kernel

variable (k : Kernel)

/-- The super block of the new file system. -/
def newSb : SuperBlock := formatSuperBlock k.part.startLba k.part.secCnt

/-- The disk after `partition_format`. -/
def newDisk : Bytes :=
  copy (copy (copy (copy (copy k.disk
    (sectorSize * (k.part.startLba + 1)) (wordImage k.newSb.word) 0 sectorSize)
    (sectorSize * k.newSb.blockBitmapLba) (blockBitmapImage (blockBitmapBitLen k.part.secCnt)) 0
      (sectorSize * k.newSb.blockBitmapSects))
    (sectorSize * k.newSb.inodeBitmapLba) (Function.update zeroBuf 0 1) 0 sectorSize)
    (sectorSize * k.newSb.inodeTableLba) (copy zeroBuf 0 (rootInode k.newSb).image 0 inodeSize) 0
      (sectorSize * inodeTableSects))
    (sectorSize * k.newSb.dataStartLba) (dotEntries 0 0) 0 sectorSize

/-- The partition once it is mounted. -/
def newPart : Partition :=
  { k.part with
    sb := k.newSb
    blockBitmap := ⟨k.newSb.blockBitmapSects * sectorSize,
      copy zeroBuf 0 (blockBitmapImage (blockBitmapBitLen k.part.secCnt)) 0
        (sectorSize * k.newSb.blockBitmapSects)⟩
    inodeBitmap := ⟨1 * sectorSize, copy zeroBuf 0 (Function.update zeroBuf 0 1) 0 sectorSize⟩ }

/-- The state after `installFs`. -/
def newFs : Kernel :=
  { k with
    disk := k.newDisk
    part := k.newPart
    openInodes := [k.nextInode]
    inodes := Function.update k.inodes k.nextInode { rootInode k.newSb with iOpenCnts := 1 }
    nextInode := k.nextInode + 1
    dirs := Function.update k.dirs rootDir ⟨k.nextInode, 0⟩
    fileTable := fun fd =>
      if fd < maxFileOpen then { k.fileTable fd with fdInode := none } else k.fileTable fd }

end Kernel

section NewFs

variable {k : Kernel} (hk : k.Roomy)

include hk

theorem Kernel.Roomy.sects : 0 < k.newSb.blockBitmapSects ∧
    k.newSb.blockBitmapSects + 611 + 8 ≤ k.part.secCnt := by
  have h := blockBitmapSects_bounds hk.room (by have := hk.last; omega)
  exact ⟨h.1, h.2.1⟩

/-- Where the parts of the new file system lie. -/
theorem Kernel.Roomy.layout : k.newSb.blockBitmapLba = k.part.startLba + 2 ∧
    k.newSb.inodeBitmapLba = k.part.startLba + 2 + k.newSb.blockBitmapSects ∧
    k.newSb.inodeTableLba = k.part.startLba + 3 + k.newSb.blockBitmapSects ∧
    k.newSb.dataStartLba = k.part.startLba + 611 + k.newSb.blockBitmapSects ∧
    k.newSb.dataStartLba + 8 ≤ maxLba + 1 := by
  have hlast := hk.last
  have hsects := hk.sects.2
  have hmax : maxLba + 1 = 163840 := rfl
  have hblba : k.newSb.blockBitmapLba = addU32 k.part.startLba 2 := rfl
  have hilba : k.newSb.inodeBitmapLba = addU32 k.newSb.blockBitmapLba k.newSb.blockBitmapSects := rfl
  have htlba : k.newSb.inodeTableLba = addU32 k.newSb.inodeBitmapLba 1 := rfl
  have hdata : k.newSb.dataStartLba = addU32 k.newSb.inodeTableLba 608 := rfl
  unfold addU32 at *
  refine ⟨by omega, by omega, by omega, by omega, by omega⟩

/-- The sector of the super block. -/
theorem Kernel.Roomy.superLba : addU32 k.part.startLba 1 = k.part.startLba + 1 := by
  have hmax : maxLba + 1 = 163840 := rfl
  have hlast := hk.last
  have hroom := hk.room
  exact addU32_of_lt (by omega)

theorem wp_partitionFormat {Q : Unit → Kernel → Prop} :
    (partitionFormat .consecutive).wp Q k ↔ Q () { k with disk := k.newDisk } := by
  obtain ⟨hsects, -⟩ := hk.sects
  obtain ⟨hblba, hilba, htlba, hdata, hend⟩ := hk.layout
  have hbits : k.newSb.inodeBitmapSects = 1 := rfl
  have htable : k.newSb.inodeTableSects = 608 := rfl
  change (partitionFormat .consecutive).wp Q k ↔ _
  unfold partitionFormat
  rw [wp_bind, wp_read]
  change Prog.wp (do
    ideWrite .consecutive (addU32 k.part.startLba 1) (wordImage k.newSb.word) 1
    sysMallocUnchecked
    ideWrite .consecutive k.newSb.blockBitmapLba (blockBitmapImage (blockBitmapBitLen k.part.secCnt))
      k.newSb.blockBitmapSects
    ideWrite .consecutive k.newSb.inodeBitmapLba (Function.update zeroBuf 0 1)
      k.newSb.inodeBitmapSects
    ideWrite .consecutive k.newSb.inodeTableLba
      (copy zeroBuf 0 (rootInode k.newSb).image 0 inodeSize) k.newSb.inodeTableSects
    ideWrite .consecutive k.newSb.dataStartLba (dotEntries 0 0) 1) Q k ↔ _
  rw [hbits, htable, hk.superLba]
  rw [wp_bind, wp_ideWrite_one, imp_iff_right (by omega), wp_bind, wp_sysMallocUnchecked, wp_bind,
    wp_ideWrite_consecutive hsects, imp_iff_right (by omega), wp_bind, wp_ideWrite_one,
    imp_iff_right (by omega), wp_bind, wp_ideWrite_consecutive (by omega), imp_iff_right (by omega),
    wp_ideWrite_one, imp_iff_right (by omega)]
  rfl

/-- What stands in the sector of the super block. -/
theorem Kernel.Roomy.newDisk_super {a : ℕ} (ha : a < sectorSize) :
    k.newDisk (sectorSize * (k.part.startLba + 1) + a) = wordImage k.newSb.word a := by
  obtain ⟨hblba, hilba, htlba, hdata, -⟩ := hk.layout
  unfold sectorSize at ha
  unfold Kernel.newDisk sectorSize
  rw [copy_outside (by omega), copy_outside (by omega), copy_outside (by omega),
    copy_outside (by omega), copy_add ha, Nat.zero_add]

/-- What stands in the sectors of the block bitmap. -/
theorem Kernel.Roomy.newDisk_blockBitmap {a : ℕ} (ha : a < sectorSize * k.newSb.blockBitmapSects) :
    k.newDisk (sectorSize * k.newSb.blockBitmapLba + a) =
      blockBitmapImage (blockBitmapBitLen k.part.secCnt) a := by
  obtain ⟨hblba, hilba, htlba, hdata, -⟩ := hk.layout
  unfold sectorSize at ha
  unfold Kernel.newDisk sectorSize
  rw [copy_outside (by omega), copy_outside (by omega), copy_outside (by omega),
    copy_add ha, Nat.zero_add]

/-- What stands in the sector of the inode bitmap. -/
theorem Kernel.Roomy.newDisk_inodeBitmap {a : ℕ} (ha : a < sectorSize) :
    k.newDisk (sectorSize * k.newSb.inodeBitmapLba + a) = Function.update zeroBuf 0 1 a := by
  obtain ⟨hblba, hilba, htlba, hdata, -⟩ := hk.layout
  unfold sectorSize at ha
  unfold Kernel.newDisk sectorSize
  rw [copy_outside (by omega), copy_outside (by omega), copy_add ha, Nat.zero_add]

/-- What stands in the inode table. -/
theorem Kernel.Roomy.newDisk_inodeTable {a : ℕ} (ha : a < sectorSize * inodeTableSects) :
    k.newDisk (sectorSize * k.newSb.inodeTableLba + a) =
      copy zeroBuf 0 (rootInode k.newSb).image 0 inodeSize a := by
  obtain ⟨hblba, hilba, htlba, hdata, -⟩ := hk.layout
  change a < 512 * 608 at ha
  have htable : inodeTableSects = 608 := rfl
  unfold Kernel.newDisk sectorSize
  rw [htable, copy_outside (by omega), copy_add ha, Nat.zero_add]

theorem Kernel.Roomy.newSb_word (i : ℕ) : k.newSb.word i < 2 ^ 32 := by
  obtain ⟨hblba, hilba, htlba, hdata, hend⟩ := hk.layout
  have hmax : maxLba + 1 = 163840 := rfl
  have hsects := hk.sects.2
  have hlast := hk.last
  match i with
  | 0 => change fsMagic < 2 ^ 32; decide
  | 1 => change k.part.secCnt < 2 ^ 32; omega
  | 2 => change 4096 < 2 ^ 32; omega
  | 3 => change k.part.startLba < 2 ^ 32; omega
  | 4 => change k.newSb.blockBitmapLba < 2 ^ 32; omega
  | 5 => change k.newSb.blockBitmapSects < 2 ^ 32; omega
  | 6 => change k.newSb.inodeBitmapLba < 2 ^ 32; omega
  | 7 => change 1 < 2 ^ 32; omega
  | 8 => change k.newSb.inodeTableLba < 2 ^ 32; omega
  | 9 => change 608 < 2 ^ 32; omega
  | 10 => change k.newSb.dataStartLba < 2 ^ 32; omega
  | 11 => change 0 < 2 ^ 32; omega
  | 12 => change 24 < 2 ^ 32; omega
  | _ + 13 => change 0 < 2 ^ 32; omega

/-- The super block is read back as it was written. -/
theorem Kernel.Roomy.superBlockAt_newDisk :
    superBlockAt (copy zeroBuf 0 k.newDisk (sectorSize * (k.part.startLba + 1)) sectorSize) 0 =
      k.newSb := by
  have hword : ∀ i < 128, readU32 (copy zeroBuf 0 k.newDisk (sectorSize * (k.part.startLba + 1))
      sectorSize) (4 * i) = k.newSb.word i := by
    intro i hi
    calc readU32 (copy zeroBuf 0 k.newDisk (sectorSize * (k.part.startLba + 1)) sectorSize) (4 * i)
        = readU32 (wordImage k.newSb.word) (4 * i) := by
          refine readU32_congr fun j hj => ?_
          have hin : 4 * i + j < sectorSize := by unfold sectorSize; omega
          rw [copy_inside (by omega) (by omega), Nat.sub_zero, hk.newDisk_super hin]
      _ = k.newSb.word i := by
          rw [readU32_wordImage, Nat.mod_eq_of_lt (hk.newSb_word i)]
  unfold superBlockAt
  have h0 := hword 0 (by omega)
  have h1 := hword 1 (by omega)
  have h2 := hword 2 (by omega)
  have h3 := hword 3 (by omega)
  have h4 := hword 4 (by omega)
  have h5 := hword 5 (by omega)
  have h6 := hword 6 (by omega)
  have h7 := hword 7 (by omega)
  have h8 := hword 8 (by omega)
  have h9 := hword 9 (by omega)
  have h10 := hword 10 (by omega)
  have h11 := hword 11 (by omega)
  have h12 := hword 12 (by omega)
  simp only [Nat.mul_zero, Nat.mul_one, Nat.reduceMul] at h0 h1 h2 h3 h4 h5 h6 h7 h8 h9 h10 h11 h12
  simp only [Nat.zero_add, h0, h1, h2, h3, h4, h5, h6, h7, h8, h9, h10, h11, h12]
  rfl

theorem wp_mountPartition {Q : Unit → Kernel → Prop} :
    (mountPartition .consecutive).wp Q { k with disk := k.newDisk } ↔
      Q () { k with disk := k.newDisk, part := k.newPart, openInodes := [] } := by
  obtain ⟨hsects, -⟩ := hk.sects
  obtain ⟨hblba, hilba, htlba, hdata, hend⟩ := hk.layout
  have hbits : k.newSb.inodeBitmapSects = 1 := rfl
  unfold mountPartition
  simp only [wp_bind, wp_read, wp_sysMallocUnchecked, wp_sysMallocPanic, wp_ideRead_one, hk.superLba]
  rw [imp_iff_right (by omega), hk.superBlockAt_newDisk, wp_ideRead_consecutive hsects,
    imp_iff_right (by omega), hbits, wp_ideRead_one, imp_iff_right (by omega), wp_modify]
  have hblock : copy zeroBuf 0 k.newDisk (sectorSize * k.newSb.blockBitmapLba)
      (sectorSize * k.newSb.blockBitmapSects) =
      copy zeroBuf 0 (blockBitmapImage (blockBitmapBitLen k.part.secCnt)) 0
        (sectorSize * k.newSb.blockBitmapSects) := by
    refine copy_congr fun a ha => ?_
    rw [hk.newDisk_blockBitmap ha, Nat.zero_add]
  have hinode : copy zeroBuf 0 k.newDisk (sectorSize * k.newSb.inodeBitmapLba) sectorSize =
      copy zeroBuf 0 (Function.update zeroBuf 0 1) 0 sectorSize := by
    refine copy_congr fun a ha => ?_
    rw [hk.newDisk_inodeBitmap ha, Nat.zero_add]
  rw [hblock, hinode]
  rfl

/-- The root inode is read back as it was written. -/
theorem Kernel.Roomy.inodeAt_newDisk :
    inodeAt (copy zeroBuf 0 k.newDisk (sectorSize * k.newSb.inodeTableLba) sectorSize) 0 =
      rootInode k.newSb := by
  have hst : (rootInode k.newSb).Storable := by
    obtain ⟨-, -, -, -, hend⟩ := hk.layout
    have hmax : maxLba + 1 = 163840 := rfl
    refine ⟨show 0 < 2 ^ 32 by omega, show 24 * 2 < 2 ^ 32 by omega, show 0 < 2 ^ 32 by omega,
      fun i => ?_, fun i hi => ?_⟩
    · change Function.update (fun _ => 0) 0 k.newSb.dataStartLba i < 2 ^ 32
      by_cases hi : i = 0
      · rw [hi, Function.update_self]
        omega
      · rw [Function.update_of_ne hi]
        omega
    · exact Function.update_of_ne (by unfold totalPtrs at hi; omega) _ _
  rw [← inodeAt_image hst]
  refine inodeAt_congr fun i hi => ?_
  unfold inodeSize at hi
  have hin : i < sectorSize := by unfold sectorSize; omega
  rw [Nat.zero_add, copy_inside (by omega) (by omega), Nat.sub_zero,
    hk.newDisk_inodeTable (by change i < 512 * 608; omega),
    copy_inside (by omega) (by unfold inodeSize; omega), Nat.zero_add, Nat.sub_zero]

/-- What making and mounting a file system leaves behind. -/
theorem wp_installFs {Q : Unit → Kernel → Prop} :
    (installFs .consecutive).wp Q k ↔ Q () k.newFs := by
  obtain ⟨hblba, hilba, htlba, hdata, hend⟩ := hk.layout
  unfold installFs
  rw [wp_bind, wp_partitionFormat hk, wp_bind, wp_mountPartition hk]
  set k₁ : Kernel := { k with disk := k.newDisk, part := k.newPart, openInodes := [] } with hk₁
  have hopen : ∀ R : ℕ → Kernel → Prop, (inodeOpen .consecutive 0).wp R k₁ ↔
      R k.nextInode { k₁ with
        nextInode := k.nextInode + 1
        inodes := Function.update k.inodes k.nextInode { rootInode k.newSb with iOpenCnts := 1 }
        openInodes := [k.nextInode] } := by
    intro R
    have hpos : inodePosition k₁.part.sb 0 = ⟨false, k.newSb.inodeTableLba, 0⟩ := rfl
    have hnone : k₁.findOpen 0 = none := rfl
    rw [inodeOpen, wp_bind, wp_read, hnone]
    simp only [wp_bind, wp_inodeLocate, hpos]
    rw [imp_iff_right (by decide), wp_sysMallocUnchecked, wp_read, wp_write, wp_sysMallocUnchecked]
    have hsecs : InodePosition.secs ⟨false, k.newSb.inodeTableLba, 0⟩ = 1 := rfl
    rw [hsecs, wp_ideRead_one, imp_iff_right (by omega), wp_modify, wp_pure]
    have hinode : inodeAt (copy zeroBuf 0 k₁.disk (sectorSize * k.newSb.inodeTableLba) sectorSize) 0 =
        rootInode k.newSb := hk.inodeAt_newDisk
    rw [hinode]
    rfl
  have hroot : k₁.part.sb.rootInodeNo = 0 := rfl
  rw [openRootDir, wp_bind, wp_bind, wp_read, wp_bind, hroot, hopen, wp_modify, clearFileTable, wp_modify]
  rfl

end NewFs

/-! ## A small partition -/

/-- A machine with a partition of 2000 sectors from sector 63 on and threads that have
no file open. -/
def smallMachine : Kernel :=
  { (default : Kernel) with
    part := { (default : Partition) with startLba := 63, secCnt := 2000 }
    nextDir := 1
    tasks := fun _ => { (default : Task) with fdTable := fun fd => if fd < 3 then fd else -1 } }

theorem smallMachine_roomy : smallMachine.Roomy := ⟨by decide, by decide⟩

/-- `"/"`. -/
def pathRoot : CString := ⟨[slash], by decide⟩

/-- `"/a"`. -/
def pathA : CString := ⟨[slash, 97], by decide⟩

/-- `"/d"`. -/
def pathD : CString := ⟨[slash, 100], by decide⟩

end BochsOs
