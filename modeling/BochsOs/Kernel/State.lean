import BochsOs.Library.Prog
import BochsOs.Kernel.Bitmap

/-!
# The global variables of the kernel

One record for what `ide.c`, `inode.c`, `dir.c`, `file.c`, `fs.c`, `thread.c`,
`fork.c` and `wait_exit.c` share: the sectors of the disk that `cur_part` lies
on, the mounted partition, the inodes and directory handles on the kernel heap,
the global file table, the process control blocks and the thread lists.

Pointers are addresses.  `inodes`, `dirs` and `tasks` give the object at an
address; allocation hands out `nextInode`, `nextDir` and `nextTask`, so an address
is never given out twice.  An intrusive list is the list of the addresses of its
nodes, first node first.
-/

namespace BochsOs

open ByteMemory

/-- `SECTOR_SIZE`, which is also `BLOCK_SIZE`. -/
def sectorSize : ℕ := 512

/-- `DIV_ROUND_UP` in `uint32_t`. -/
def divRoundUp (x step : ℕ) : ℕ := (x + (step - 1)) % 2 ^ 32 / step

/-- `MAX_FILES_PER_PART`. -/
def maxFilesPerPart : ℕ := 4096

/-- `BITS_PER_SECTOR`. -/
def bitsPerSector : ℕ := 4096

/-- `DIRECT_PTRS`. -/
def directPtrs : ℕ := 12

/-- `TOTAL_PTRS`: the direct pointers and the pointer to the indirect table. -/
def totalPtrs : ℕ := 13

/-- `FLATTEN_PTRS`: the direct pointers and the entries of the indirect table. -/
def flattenPtrs : ℕ := 140

/-- `MAX_FILE_OPEN`. -/
def maxFileOpen : ℕ := 32

/-- `MAX_FILES_OPEN_PER_PROC`. -/
def maxFilesOpenPerProc : ℕ := 8

/-- `struct super_block`, less its padding. -/
structure SuperBlock where
  magic : ℕ
  secCnt : ℕ
  inodeCnt : ℕ
  partLbaBase : ℕ
  blockBitmapLba : ℕ
  blockBitmapSects : ℕ
  inodeBitmapLba : ℕ
  inodeBitmapSects : ℕ
  inodeTableLba : ℕ
  inodeTableSects : ℕ
  dataStartLba : ℕ
  rootInodeNo : ℕ
  dirEntrySize : ℕ
  deriving Inhabited

/-- `struct partition`, less its list of open inodes. -/
structure Partition where
  startLba : ℕ
  secCnt : ℕ
  sb : SuperBlock
  blockBitmap : Bitmap
  inodeBitmap : Bitmap
  deriving Inhabited

/-- `struct inode`, less its list links. -/
structure Inode where
  iNo : ℕ
  iSize : ℕ
  iOpenCnts : ℕ
  writeDeny : Bool
  iSectors : ℕ → ℕ
  deriving Inhabited

/-- `struct dir`, less the buffer `dir_read` fills anew in every call. -/
structure Dir where
  inode : ℕ
  dirPos : ℕ
  deriving Inhabited

/-- `struct file`: an entry of `file_table`; `none` is a `NULL` inode pointer. -/
structure File where
  fdPos : ℕ
  fdFlag : ℕ
  fdInode : Option ℕ
  deriving Inhabited

/-- `struct ioqueue`, less its lock and waiters. -/
structure Ioqueue where
  buf : ℕ → UInt8
  head : ℕ
  tail : ℕ
  deriving Inhabited

/-- `enum task_status`. -/
inductive TaskStatus where
  | running
  | ready
  | blocked
  | waiting
  | hanging
  | died
  deriving DecidableEq, Repr, Inhabited

/-- `struct task_struct`, less the kernel stack and the memory of the process. -/
structure Task where
  pid : ℕ
  status : TaskStatus
  priority : ℕ
  ticks : ℕ
  elapsedTicks : ℕ
  fdTable : ℕ → ℤ
  /-- `pgdir != NULL`: a process with its own address space. -/
  isProcess : Bool
  cwdInodeNr : ℕ
  /-- `none` is the value `-1` of a task that was not forked. -/
  parentPid : Option ℕ
  /-- An `int8_t`. -/
  exitStatus : ℤ
  deriving Inhabited

/-- The global state. -/
structure Kernel where
  /-- The bytes of the disk; sector `lba` is the 512 bytes from `512 * lba` on. -/
  disk : Bytes
  /-- `cur_part`. -/
  part : Partition
  /-- `cur_part->open_inodes`. -/
  openInodes : List ℕ
  /-- The `struct inode`s on the kernel heap. -/
  inodes : ℕ → Inode
  nextInode : ℕ
  /-- The `struct dir`s; the one at address `0` is the static `root_dir`. -/
  dirs : ℕ → Dir
  nextDir : ℕ
  /-- The handles that `dir_open` gave out and `dir_close` has not freed. -/
  liveDirs : List ℕ
  /-- `file_table`. -/
  fileTable : ℕ → File
  /-- The queues behind the pipes, by the address that stands in `fd_inode`. -/
  ioqueues : ℕ → Ioqueue
  /-- The process control blocks. -/
  tasks : ℕ → Task
  nextTask : ℕ
  /-- `running_thread()`. -/
  running : ℕ
  /-- `thread_ready_list`. -/
  threadReadyList : List ℕ
  /-- `thread_all_list`. -/
  threadAllList : List ℕ
  idleThread : ℕ
  /-- `pid_pool.pid_bitmap`. -/
  pidBitmap : Bitmap
  deriving Inhabited

namespace Kernel

open Suspend Suspend.Prog

variable (k : Kernel)

/-- The control block of the running thread. -/
def cur : Task := k.tasks k.running

/-- Overwrite the inode at `a`. -/
def setInode (a : ℕ) (inode : Inode) : Kernel :=
  { k with inodes := Function.update k.inodes a inode }

/-- Overwrite the entry `fd` of `file_table`. -/
def setFile (fd : ℕ) (file : File) : Kernel :=
  { k with fileTable := Function.update k.fileTable fd file }

/-- Overwrite the control block at `p`. -/
def setTask (p : ℕ) (task : Task) : Kernel :=
  { k with tasks := Function.update k.tasks p task }

end Kernel

section Malloc

open Suspend Suspend.Prog

/-- A `sys_malloc` whose result is checked: the environment decides whether there
is memory. -/
def sysMalloc : Prog Kernel Bool := do
  let answer ← arbitrary
  return answer = 0

/-- A `sys_malloc` whose result is used unchecked: without memory the caller goes
through a `NULL` pointer. -/
def sysMallocUnchecked : Prog Kernel Unit := do
  let ok ← sysMalloc
  if ok then return () else stop .undefined

/-- A buffer from `sys_malloc`, which clears what it hands out. -/
def zeroBuf : Bytes := fun _ => 0

@[simp] theorem wp_sysMalloc {Q : Bool → Kernel → Prop} {k : Kernel} :
    sysMalloc.wp Q k ↔ ∀ ok, Q ok k := by
  simp only [sysMalloc, wp_bind, wp_arbitrary, wp_pure]
  constructor
  · intro h ok
    cases ok with
    | false => simpa using h 1
    | true => simpa using h 0
  · intro h n
    exact h _

@[simp] theorem wp_sysMallocUnchecked {Q : Unit → Kernel → Prop} {k : Kernel} :
    sysMallocUnchecked.wp Q k ↔ Q () k := by
  simp [sysMallocUnchecked]

/-- An environment in which memory runs out only if programs may stop. -/
def FairEnv (e : Env) : Prop := ∀ n, e.answer n → n = 0 ∨ e.stops

theorem fairEnv_any : FairEnv .any := fun _ _ => Or.inr trivial

theorem fairEnv_zero : FairEnv .zero := fun _ hn => Or.inl hn

/-- A `sys_malloc` succeeds or fails, and in a fair environment it fails only if programs may stop. -/
theorem ensures_sysMalloc_cases {e : Env} {k : Kernel} {Q : Bool → Kernel → Prop} (hok : Q true k)
    (hfail : (FairEnv e → e.stops) → Q false k) : sysMalloc.ensures e Q k := by
  simp only [sysMalloc, ensures_bind, ensures_arbitrary, ensures_pure]
  intro n hn
  by_cases hzero : n = 0
  · rwa [decide_eq_true hzero]
  · rw [decide_eq_false hzero]
    exact hfail fun he => (he n hn).resolve_left hzero

section Ensures

variable {e : Env} (he : FairEnv e) {k : Kernel}

include he

theorem ensures_sysMalloc {Q : Bool → Kernel → Prop} (hok : Q true k) (hfail : e.stops → Q false k) :
    sysMalloc.ensures e Q k := ensures_sysMalloc_cases hok fun hstops => hfail (hstops he)

theorem ensures_sysMallocUnchecked {Q : Unit → Kernel → Prop} (h : Q () k) :
    sysMallocUnchecked.ensures e Q k := by
  rw [sysMallocUnchecked, ensures_bind]
  exact ensures_sysMalloc he h id

end Ensures

end Malloc

/-! ## Unsigned 32-bit arithmetic -/

/-- `a + b` for two values of type `uint32_t`. -/
@[irreducible] def addU32 (a b : ℕ) : ℕ := (a + b) % 2 ^ 32

theorem addU32_of_lt {a b : ℕ} (h : a + b < 2 ^ 32) : addU32 a b = a + b := by
  unfold addU32
  exact Nat.mod_eq_of_lt h

/-- `a - b` for two values of type `uint32_t`. -/
def subU32 (a b : ℕ) : ℕ := if b ≤ a then a - b else 2 ^ 32 - (b - a)

theorem subU32_of_le {a b : ℕ} (hba : b ≤ a) : subU32 a b = a - b := if_pos hba

/-- A `uint32_t` read as an `int` that may be `-1`. -/
def asInt (n : ℕ) : Option ℕ := if n = 2 ^ 32 - 1 then none else some n

end BochsOs
