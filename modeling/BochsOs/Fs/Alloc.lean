import BochsOs.Device.Ide

/-!
# Free slots, inodes and blocks

The first part of `fs/file.c`: a free entry of the global file table, a free
descriptor of the running process, a free inode number and a free block.  The
bitmaps are changed in memory first; `bitmapSync` writes the sector of the bitmap
that holds one bit.
-/

namespace BochsOs

open ByteMemory Suspend Suspend.Prog

/-- `get_free_slot_in_global`: the first free entry from 3 on. -/
def getFreeSlotInGlobal : Prog Kernel (Option ℕ) := do
  let k ← read
  return (List.range' 3 (maxFileOpen - 3)).find? fun fd => (k.fileTable fd).fdInode.isNone

/-- `pcb_fd_install`: the first free descriptor of the running process from 3 on
now stands for the entry `globalFd`; `-1` if there is none. -/
def pcbFdInstall (globalFd : ℕ) : Prog Kernel ℤ := do
  let k ← read
  match (List.range' 3 (maxFilesOpenPerProc - 3)).find? fun fd => k.cur.fdTable fd = -1 with
  | some localFd =>
      write (k.setTask k.running
        { k.cur with fdTable := Function.update k.cur.fdTable localFd globalFd })
      return localFd
  | none => return -1

/-- `inode_bitmap_alloc`. -/
def inodeBitmapAlloc : Prog Kernel (Option ℕ) := do
  let k ← read
  match bitmapScan k.part.inodeBitmap 1 with
  | none => return none
  | some bitI =>
      write { k with part := { k.part with inodeBitmap := bitmapSet k.part.inodeBitmap bitI true } }
      return some bitI

/-- `block_bitmap_alloc`: the sector of a block that was free. -/
def blockBitmapAlloc : Prog Kernel (Option ℕ) := do
  let k ← read
  match bitmapScan k.part.blockBitmap 1 with
  | none => return none
  | some bitI =>
      write { k with part := { k.part with blockBitmap := bitmapSet k.part.blockBitmap bitI true } }
      return some (k.part.sb.dataStartLba + bitI)

/-- `bitmap_set` on the inode bitmap. -/
def setInodeBit (inodeNo : ℕ) (value : Bool) : Prog Kernel Unit :=
  modify fun k =>
    { k with part := { k.part with inodeBitmap := bitmapSet k.part.inodeBitmap inodeNo value } }

/-- `bitmap_set` on the block bitmap. -/
def setBlockBit (bitIdx : ℕ) (value : Bool) : Prog Kernel Unit :=
  modify fun k =>
    { k with part := { k.part with blockBitmap := bitmapSet k.part.blockBitmap bitIdx value } }

/-- `enum bitmap_type`. -/
inductive BitmapType where
  | inodeBitmap
  | blockBitmap
  deriving DecidableEq, Repr

/-- `bitmap_sync`: write the sector of the bitmap that holds bit `bitIdx`. -/
def bitmapSync (t : Transfer) (bitIdx : ℕ) (btmpType : BitmapType) : Prog Kernel Unit := do
  let k ← read
  let offSec := bitIdx / bitsPerSector
  let offSize := offSec * sectorSize
  match btmpType with
  | .inodeBitmap =>
      ideWrite t (k.part.sb.inodeBitmapLba + offSec)
        (fun a => k.part.inodeBitmap.bits (offSize + a)) 1
  | .blockBitmap =>
      ideWrite t (k.part.sb.blockBitmapLba + offSec)
        (fun a => k.part.blockBitmap.bits (offSize + a)) 1

end BochsOs
