import BochsOs.Library.Prog
import BochsOs.Library.Runs
import BochsOs.Kernel.Bitmap
import BochsOs.Kernel.State

/-!
# The heaps of the user processes

`sys_malloc` and `sys_free` of `kernel/memory.c`, called by a process.  Small blocks
come from pages that are cut into blocks of one size (arenas); the header of an
arena, at the start of its page, points to the descriptor of that size in the
control block of the process that made the arena, and the free blocks hang in the
list of that descriptor.  Large blocks take whole pages.

The state has, for each process, the words that a page would have as a header, the
bitmap of its pages and the seven free lists, an intrusive list being the list of
its nodes.  `fork` copies the pages and the bitmap, headers included, and clears the
free lists of the child.
-/

namespace BochsOs

open Suspend Suspend.Prog Runs

/-- `PG_SIZE`. -/
def pgSize : ℕ := 4096

/-- `DESC_CNT`. -/
def descCnt : ℕ := 7

/-- `sizeof(struct arena)`. -/
def arenaSize : ℕ := 12

/-- `USER_VADDR_START`. -/
def userVaddrStart : ℕ := 0x8048000

/-- `block_size` of descriptor `i`. -/
def blockSize (i : ℕ) : ℕ := 16 * 2 ^ i

/-- `blocks_per_arena` of descriptor `i`. -/
def blocksPerArena (i : ℕ) : ℕ := (pgSize - arenaSize) / blockSize i

/-- `struct arena`.  The pointer to a descriptor is the process it belongs to and its
index. -/
structure Arena where
  desc : Option (ℕ × ℕ)
  cnt : ℕ
  large : Bool
  deriving Inhabited, DecidableEq

/-- The heaps of all processes. -/
structure Heaps where
  /-- The header found at a page of a process. -/
  arena : ℕ → ℕ → Arena
  /-- `userprog_vaddr.vaddr_bitmap`. -/
  vaddrBitmap : ℕ → Bitmap
  /-- `u_block_desc[i].free_list`. -/
  freeList : ℕ → ℕ → List ℕ
  /-- `user_pool.pool_size`. -/
  poolSize : ℕ
  running : ℕ
  deriving Inhabited

namespace Heaps

variable (h : Heaps)

/-- Overwrite the header of a page of the running process. -/
def setArena (a : ℕ) (arena : Arena) : Heaps :=
  { h with
    arena := Function.update h.arena h.running (Function.update (h.arena h.running) a arena) }

/-- Overwrite a free list. -/
def setFreeList (p i : ℕ) (blocks : List ℕ) : Heaps :=
  { h with freeList := Function.update h.freeList p (Function.update (h.freeList p) i blocks) }

/-- Overwrite the page bitmap of the running process. -/
def setBitmap (btmp : Bitmap) : Heaps :=
  { h with vaddrBitmap := Function.update h.vaddrBitmap h.running btmp }

end Heaps

/-! ## Pages -/

/-- The bit of a page. -/
def pageBit (vaddr : ℕ) : ℕ := (vaddr - userVaddrStart) / pgSize

/-- `bitmap_set` on `cnt` bits from `start` on. -/
def setBits (btmp : Bitmap) (start : ℕ) (value : Bool) : (cnt : ℕ) → Bitmap
  | 0 => btmp
  | cnt + 1 => bitmapSet (setBits btmp start value cnt) (start + cnt) value

theorem bit_setBits (btmp : Bitmap) (start : ℕ) (value : Bool) (cnt k : ℕ) :
    (setBits btmp start value cnt).bit k =
      if start ≤ k ∧ k < start + cnt then value else btmp.bit k := by
  induction cnt with
  | zero =>
      rw [setBits, if_neg (by omega)]
  | succ cnt ih =>
      rw [setBits, bit_bitmapSet, ih]
      by_cases hk : k = start + cnt
      · rw [if_pos hk, if_pos (by omega)]
      · rw [if_neg hk]
        by_cases hin : start ≤ k ∧ k < start + cnt
        · rw [if_pos hin, if_pos (by omega)]
        · rw [if_neg hin, if_neg (by omega)]

@[simp] theorem btmpBytesLen_setBits (btmp : Bitmap) (start : ℕ) (value : Bool) (cnt : ℕ) :
    (setBits btmp start value cnt).btmpBytesLen = btmp.btmpBytesLen := by
  induction cnt with
  | zero => rfl
  | succ cnt ih => rw [setBits, btmpBytesLen_bitmapSet, ih]

/-- `vaddr_get`. -/
def vaddrGet (pgCnt : ℕ) : Prog Heaps (Option ℕ) := do
  let h ← read
  let btmp := h.vaddrBitmap h.running
  match bitmapScan btmp pgCnt with
  | none => return none
  | some start =>
      write (h.setBitmap (setBits btmp start true pgCnt))
      let vaddrStart := userVaddrStart + start * pgSize
      assert (vaddrStart < 0xc0000000 - pgSize)
      return some vaddrStart

/-- `malloc_page`; the environment decides whether there are frames.  Without frames
the bits stay set. -/
def mallocPage (pgCnt : ℕ) : Prog Heaps (Option ℕ) := do
  assert (0 < pgCnt ∧ pgCnt < 3840)
  match ← vaddrGet pgCnt with
  | none => return none
  | some vaddr =>
      let frames ← arbitrary
      return if frames = 0 then some vaddr else none

/-- `mfree_page`. -/
def mfreePage (vaddr pgCnt : ℕ) : Prog Heaps Unit :=
  modify fun h => h.setBitmap (setBits (h.vaddrBitmap h.running) (pageBit vaddr) false pgCnt)

/-- `memset(a, 0, pgCnt * PG_SIZE)`, as far as headers go. -/
def clearPages (a : ℕ) : (pgCnt : ℕ) → Prog Heaps Unit
  | 0 => return ()
  | pgCnt + 1 => do
      clearPages a pgCnt
      modify fun h => h.setArena (a + pgCnt * pgSize) ⟨none, 0, false⟩

/-! ## Blocks -/

/-- `arena2block`. -/
def arena2block (a i idx : ℕ) : ℕ := a + arenaSize + idx * blockSize i

/-- `block2arena`. -/
def block2arena (b : ℕ) : ℕ := b - b % pgSize

/-- The blocks of an arena, in order. -/
def arenaBlocks (a i : ℕ) : List ℕ := (List.range (blocksPerArena i)).map (arena2block a i)

/-! ### Where blocks lie -/

/-- An arena starts at the page of any of its bytes. -/
theorem block2arena_of_lt {a off : ℕ} (ha : a % pgSize = 0) (hoff : off < pgSize) :
    block2arena (a + off) = a := by
  simp only [block2arena, pgSize] at ha hoff ⊢
  omega

/-- The blocks of an arena end within its page. -/
theorem block_end_le {i j : ℕ} (hj : j < blocksPerArena i) :
    arenaSize + (j + 1) * blockSize i ≤ pgSize := by
  have hle : (j + 1) * blockSize i ≤ pgSize - arenaSize :=
    calc (j + 1) * blockSize i ≤ blocksPerArena i * blockSize i := Nat.mul_le_mul_right _ hj
      _ ≤ pgSize - arenaSize := Nat.div_mul_le_self _ _
  have : arenaSize ≤ pgSize := by decide
  omega

theorem blockSize_pos (i : ℕ) : 0 < blockSize i := by
  simp [blockSize]

theorem block2arena_arena2block {a i j : ℕ} (ha : a % pgSize = 0) (hj : j < blocksPerArena i) :
    block2arena (arena2block a i j) = a := by
  rw [arena2block, Nat.add_assoc]
  refine block2arena_of_lt ha ?_
  have hend := block_end_le hj
  have hpos := blockSize_pos i
  rw [Nat.add_mul, Nat.one_mul] at hend
  omega

theorem arena2block_injective {a i j j' : ℕ} (h : arena2block a i j = arena2block a i j') :
    j = j' := by
  simp only [arena2block] at h
  exact Nat.eq_of_mul_eq_mul_right (blockSize_pos i) (by omega)

theorem nodup_arenaBlocks (a i : ℕ) : (arenaBlocks a i).Nodup :=
  List.nodup_range.map_on fun _ _ _ _ h => arena2block_injective h

theorem mem_arenaBlocks {a i x : ℕ} :
    x ∈ arenaBlocks a i ↔ ∃ j < blocksPerArena i, arena2block a i j = x := by
  simp [arenaBlocks]

/-! ### Allocation and release -/

/-- The loop of `sys_malloc` that puts the blocks of a new arena into the free list. -/
def appendBlocks (i : ℕ) : (blocks : List ℕ) → Prog Heaps Unit
  | [] => return ()
  | b :: blocks => do
      let h ← read
      assert (b ∉ h.freeList h.running i)
      write (h.setFreeList h.running i (h.freeList h.running i ++ [b]))
      appendBlocks i blocks

/-- The part of `sys_malloc` that makes a new arena for descriptor `i`. -/
def newArena (i : ℕ) : Prog Heaps Bool := do
  match ← mallocPage 1 with
  | none => return false
  | some a =>
      clearPages a 1
      modify fun h => h.setArena a ⟨some (h.running, i), blocksPerArena i, false⟩
      appendBlocks i (arenaBlocks a i)
      return true

/-- The last part of `sys_malloc`: take the first free block. -/
def takeBlock (i : ℕ) : Prog Heaps (Option ℕ) := do
  let h ← read
  match h.freeList h.running i with
  | [] => stop .undefined
  | b :: rest =>
      let a := block2arena b
      let arena := h.arena h.running a
      write ((h.setFreeList h.running i rest).setArena a { arena with cnt := subU32 arena.cnt 1 })
      return some b

/-- `sys_malloc` for a large block. -/
def mallocLarge (size : ℕ) : Prog Heaps (Option ℕ) := do
  let pageCnt := divRoundUp ((size + arenaSize) % 2 ^ 32) pgSize
  match ← mallocPage pageCnt with
  | none => return none
  | some a =>
      clearPages a pageCnt
      modify fun h => h.setArena a ⟨none, pageCnt, true⟩
      return some (a + arenaSize)

/-- `sys_malloc`; `none` is `NULL`. -/
def UserHeap.sysMalloc (size : ℕ) : Prog Heaps (Option ℕ) := do
  let h ← read
  if ¬ (0 < size ∧ size < h.poolSize) then return none
  else if 1024 < size then mallocLarge size
  else
    match (List.range descCnt).find? fun i => size ≤ blockSize i with
    | none => stop .undefined
    | some i =>
        if h.freeList h.running i = [] then
          if ← newArena i then takeBlock i else return none
        else takeBlock i

/-- The loop of `sys_free` that takes the blocks of an arena out of the free list. -/
def removeBlocks (p i : ℕ) : (blocks : List ℕ) → Prog Heaps Unit
  | [] => return ()
  | b :: blocks => do
      let h ← read
      assert (b ∈ h.freeList p i)
      write (h.setFreeList p i ((h.freeList p i).erase b))
      removeBlocks p i blocks

/-- `sys_free` of a small block whose arena points to descriptor `i` of process `p`. -/
def freeSmall (b p i : ℕ) : Prog Heaps Unit := do
  let h ← read
  let a := block2arena b
  let arena := h.arena h.running a
  let cnt := arena.cnt + 1
  write ((h.setFreeList p i (h.freeList p i ++ [b])).setArena a { arena with cnt := cnt })
  if cnt = blocksPerArena i then
    removeBlocks p i (arenaBlocks a i)
    mfreePage a 1
  else return ()

/-- `sys_free`. -/
def UserHeap.sysFree (ptr : ℕ) : Prog Heaps Unit := do
  assert (ptr ≠ 0)
  let h ← read
  let a := block2arena ptr
  let arena := h.arena h.running a
  match arena.desc with
  | none => if arena.large then mfreePage a arena.cnt else stop .undefined
  | some (p, i) => freeSmall ptr p i

/-- The heap part of `sys_fork`: the pages in use and the bitmap are copied, the free
lists of the child are empty (`block_desc_init`), and the child runs. -/
def Heaps.fork (h : Heaps) (parent child : ℕ) (junk : ℕ → Arena) : Heaps :=
  { h with
    arena := Function.update h.arena child fun a =>
      if (h.vaddrBitmap parent).bit (pageBit a) then h.arena parent a else junk a
    vaddrBitmap := Function.update h.vaddrBitmap child (h.vaddrBitmap parent)
    freeList := Function.update h.freeList child fun _ => []
    running := child }

end BochsOs
