import BochsOs.Kernel.Heap

/-!
# The arena allocator

`sys_malloc` and `sys_free` for one owner of a heap, a kernel thread or a process, over
any page allocator: `malloc_page` answers with fresh pages or with `NULL`.  The functions
are those of `BochsOs.Kernel.Heap`, with the pages they take and give back made visible
and a failed `ASSERT` as `none`; what a process runs there is one of the runs here
(`sysMalloc_becomes`, `sysFree_becomes`).

`BlockInv` relates the headers of the arenas, the free lists, the blocks in use and the
pages held.  From it follows `heap_sound`: blocks in use lie apart from each other, from
the free blocks and from the headers, the free lists hold the other blocks, and a page
goes back with the last block in it.
-/

namespace BochsOs

open Runs

/-- `K_HEAP_START`. -/
def kHeapStart : ℕ := 0xc0100000

/-- Who calls: a kernel thread, which has no `pgdir`, or a process. -/
structure Owner where
  kernel : Bool
  /-- The table of descriptors: `k_block_descs`, or that of the process. -/
  descs : ℕ
  /-- The number of pages of the pool, a `uint16_t` in `mem_pool_init`. -/
  freePages : UInt16

/-- `pool_size`. -/
def Owner.poolSize (o : Owner) : ℕ := o.freePages.toNat * pgSize

/-- The headers of the pages, and the free list of a descriptor (its table and index). -/
structure BlockHeap where
  arena : ℕ → Arena
  freeList : ℕ × ℕ → List ℕ

/-! ## The code -/

namespace BlockHeap

variable (h : BlockHeap)

/-- Overwrite a header. -/
def setArena (a : ℕ) (arena : Arena) : BlockHeap :=
  { h with arena := Function.update h.arena a arena }

/-- Overwrite a free list. -/
def setFreeList (d : ℕ × ℕ) (blocks : List ℕ) : BlockHeap :=
  { h with freeList := Function.update h.freeList d blocks }

@[simp]
theorem setArena_arena_self (a : ℕ) (arena : Arena) : (h.setArena a arena).arena a = arena :=
  Function.update_self _ _ _

theorem setArena_arena_of_ne {a x : ℕ} (arena : Arena) (hne : x ≠ a) :
    (h.setArena a arena).arena x = h.arena x :=
  Function.update_of_ne hne _ _

@[simp]
theorem setArena_freeList (a : ℕ) (arena : Arena) : (h.setArena a arena).freeList = h.freeList := rfl

@[simp]
theorem setFreeList_freeList_self (d : ℕ × ℕ) (blocks : List ℕ) :
    (h.setFreeList d blocks).freeList d = blocks :=
  Function.update_self _ _ _

theorem setFreeList_freeList_of_ne {d d' : ℕ × ℕ} (blocks : List ℕ) (hne : d' ≠ d) :
    (h.setFreeList d blocks).freeList d' = h.freeList d' :=
  Function.update_of_ne hne _ _

@[simp]
theorem setFreeList_arena (d : ℕ × ℕ) (blocks : List ℕ) : (h.setFreeList d blocks).arena = h.arena :=
  rfl

/-- `memset(a, 0, pgCnt * PG_SIZE)`, as far as headers go. -/
def clearPages (a : ℕ) : (pgCnt : ℕ) → BlockHeap
  | 0 => h
  | pgCnt + 1 => (clearPages a pgCnt).setArena (a + pgCnt * pgSize) ⟨none, 0, false⟩

/-- The loop that puts the blocks of a new arena into the free list. -/
def appendBlocks (h : BlockHeap) (d : ℕ × ℕ) : (blocks : List ℕ) → Option BlockHeap
  | [] => some h
  | b :: blocks =>
      if b ∈ h.freeList d then none
      else (h.setFreeList d (h.freeList d ++ [b])).appendBlocks d blocks

/-- A new arena in the page `a`. -/
def newArena (d : ℕ × ℕ) (a : ℕ) : Option BlockHeap :=
  ((h.clearPages a 1).setArena a ⟨some d, blocksPerArena d.2, false⟩).appendBlocks d
    (arenaBlocks a d.2)

/-- Take the first free block. -/
def takeBlock (d : ℕ × ℕ) : Option (ℕ × BlockHeap) :=
  match h.freeList d with
  | [] => none
  | b :: rest =>
      let a := block2arena b
      some (b, (h.setFreeList d rest).setArena a
        { h.arena a with cnt := subU32 (h.arena a).cnt 1 })

/-- The loop that takes the blocks of an arena out of the free list. -/
def removeBlocks (h : BlockHeap) (d : ℕ × ℕ) : (blocks : List ℕ) → Option BlockHeap
  | [] => some h
  | b :: blocks =>
      if b ∈ h.freeList d then
        (h.setFreeList d ((h.freeList d).erase b)).removeBlocks d blocks
      else none

end BlockHeap

/-- How a call of `sys_malloc` or `sys_free` ends: the pointer it returns, the pages it
got from `malloc_page` or gave to `mfree_page`, and the heap. -/
structure HeapResult where
  ptr : Option ℕ
  pages : Option (ℕ × ℕ)
  heap : BlockHeap

/-- How many pages `sys_malloc` asks `malloc_page` for, if it does. -/
def pagesFor (size : ℕ) : ℕ :=
  if 1024 < size then divRoundUp ((size + arenaSize) % 2 ^ 32) pgSize else 1

/-- `sys_malloc`; `page` is the answer of `malloc_page`. -/
def BlockHeap.sysMalloc (h : BlockHeap) (o : Owner) (size : ℕ) (page : Option ℕ) : Option HeapResult :=
  if ¬ (0 < size ∧ size < o.poolSize) then some ⟨none, none, h⟩
  else if 1024 < size then
    match page with
    | none => some ⟨none, none, h⟩
    | some a =>
        some ⟨some (a + arenaSize), some (a, pagesFor size),
          (h.clearPages a (pagesFor size)).setArena a ⟨none, pagesFor size, true⟩⟩
  else
    match (List.range descCnt).find? fun i => size ≤ blockSize i with
    | none => none
    | some i =>
        let d := (o.descs, i)
        if h.freeList d = [] then
          match page with
          | none => some ⟨none, none, h⟩
          | some a => do
              let h ← h.newArena d a
              let (b, h) ← h.takeBlock d
              return ⟨some b, some (a, 1), h⟩
        else do
          let (b, h) ← h.takeBlock d
          return ⟨some b, none, h⟩

/-- `sys_free`. -/
def BlockHeap.sysFree (h : BlockHeap) (o : Owner) (ptr : ℕ) : Option HeapResult :=
  if ptr = 0 ∨ (o.kernel ∧ ptr < kHeapStart) then none
  else
    let a := block2arena ptr
    let arena := h.arena a
    match arena.desc with
    | none => if arena.large then some ⟨none, some (a, arena.cnt), h⟩ else none
    | some d =>
        let h := (h.setFreeList d (h.freeList d ++ [ptr])).setArena a
          { arena with cnt := arena.cnt + 1 }
        if arena.cnt + 1 = blocksPerArena d.2 then do
          let h ← h.removeBlocks d (arenaBlocks a d.2)
          return ⟨none, some (a, 1), h⟩
        else some ⟨none, none, h⟩

/-! ## The heap of a process -/

section ProcessHeap

open Suspend Suspend.Prog

/-- The heap of the running process. -/
def Heaps.block (h : Heaps) : BlockHeap where
  arena := h.arena h.running
  freeList d := h.freeList d.1 d.2

/-- From `h` to `h'` the same process runs, and its heap becomes `heap`. -/
def Heaps.Becomes (h h' : Heaps) (heap : BlockHeap) : Prop := h'.running = h.running ∧ h'.block = heap

theorem Heaps.block_setArena (h : Heaps) (a : ℕ) (arena : Arena) :
    (h.setArena a arena).block = h.block.setArena a arena := by
  simp [Heaps.block, Heaps.setArena, BlockHeap.setArena]

theorem Heaps.block_setFreeList (h : Heaps) (p i : ℕ) (blocks : List ℕ) :
    (h.setFreeList p i blocks).block = h.block.setFreeList (p, i) blocks := by
  have hlist : (fun d : ℕ × ℕ => (h.setFreeList p i blocks).freeList d.1 d.2) =
      Function.update (fun d : ℕ × ℕ => h.freeList d.1 d.2) (p, i) blocks := by
    funext ⟨q, j⟩
    by_cases hq : q = p
    · subst hq
      by_cases hj : j = i
      · subst hj
        simp [Heaps.setFreeList]
      · simp [Heaps.setFreeList, hj]
    · simp [Heaps.setFreeList, hq]
  simp only [Heaps.block, BlockHeap.setFreeList, hlist]
  rfl

theorem mallocPage_becomes (h : Heaps) (pgCnt : ℕ) :
    (mallocPage pgCnt).wp (fun _ h' => h.Becomes h' h.block) h := by
  rw [mallocPage, wp_bind, wp_assert]
  intro _
  rw [wp_bind, vaddrGet, wp_bind, wp_read]
  dsimp only
  split
  · exact ⟨rfl, rfl⟩
  · rw [wp_bind, wp_write, wp_bind, wp_assert]
    intro _
    rw [wp_pure]
    dsimp only
    rw [wp_bind, wp_arbitrary]
    exact fun _ => ⟨rfl, rfl⟩

theorem clearPages_becomes (h : Heaps) (a pgCnt : ℕ) :
    (clearPages a pgCnt).wp (fun _ h' => h.Becomes h' (h.block.clearPages a pgCnt)) h := by
  induction pgCnt with
  | zero => exact ⟨rfl, rfl⟩
  | succ pgCnt ih =>
      rw [clearPages, wp_bind]
      refine wp_mono ih ?_
      rintro - h₁ ⟨hrunning, hblock⟩
      exact ⟨hrunning, by rw [Heaps.block_setArena, hblock]; rfl⟩

theorem appendBlocks_becomes (i : ℕ) (blocks : List ℕ) (h : Heaps) :
    (appendBlocks i blocks).wp (fun _ h' => ∃ heap,
      h.block.appendBlocks (h.running, i) blocks = some heap ∧ h.Becomes h' heap) h := by
  induction blocks generalizing h with
  | nil => exact ⟨_, rfl, rfl, rfl⟩
  | cons b blocks ih =>
      rw [appendBlocks, wp_bind, wp_read, wp_bind, wp_assert]
      intro hb
      have hb : b ∉ h.block.freeList (h.running, i) := of_decide_eq_true hb
      rw [wp_bind, wp_write, BlockHeap.appendBlocks, if_neg hb]
      have hrest := ih (h.setFreeList h.running i (h.freeList h.running i ++ [b]))
      rw [Heaps.block_setFreeList] at hrest
      exact hrest

theorem newArena_becomes (h : Heaps) (i : ℕ) :
    (newArena i).wp (fun ok h' =>
      if ok then ∃ a heap, h.block.newArena (h.running, i) a = some heap ∧ h.Becomes h' heap
      else h.Becomes h' h.block) h := by
  rw [newArena, wp_bind]
  refine wp_mono (mallocPage_becomes h 1) ?_
  rintro (_ | a) h₁ ⟨hrunning, hblock⟩
  · exact ⟨hrunning, hblock⟩
  · dsimp only
    rw [wp_bind]
    refine wp_mono (clearPages_becomes h₁ a 1) ?_
    rintro - h₂ ⟨hrunning₂, hblock₂⟩
    rw [wp_bind, wp_modify, wp_bind]
    refine wp_mono (appendBlocks_becomes i (arenaBlocks a i) _) ?_
    rintro - h₃ ⟨heap, heq, hrunning₃, hblock₃⟩
    have hrun : h₂.running = h.running := hrunning₂.trans hrunning
    rw [Heaps.block_setArena, hblock₂, hblock, hrun] at heq
    change BlockHeap.appendBlocks _ (h₂.running, i) _ = _ at heq
    rw [hrun] at heq
    exact ⟨a, heap, heq, (hrunning₃.trans hrun), hblock₃⟩

theorem takeBlock_becomes (h : Heaps) (i : ℕ) :
    (takeBlock i).wp (fun ptr h' => ∃ b heap, ptr = some b ∧
      h.block.takeBlock (h.running, i) = some (b, heap) ∧ h.Becomes h' heap) h := by
  rw [takeBlock, wp_bind, wp_read]
  cases hfree : h.freeList h.running i with
  | nil => trivial
  | cons b rest =>
      refine ⟨b, _, rfl, ?_, rfl, rfl⟩
      have hfree' : h.block.freeList (h.running, i) = b :: rest := hfree
      simp only [BlockHeap.takeBlock, hfree']
      rw [Heaps.block_setArena, Heaps.block_setFreeList]
      rfl

/-- What a process gets from `sys_malloc`, and what becomes of its heap. -/
theorem sysMalloc_becomes (h : Heaps) (freePages : UInt16) (size : ℕ)
    (hpool : h.poolSize = (⟨false, h.running, freePages⟩ : Owner).poolSize) :
    (UserHeap.sysMalloc size).wp (fun ptr h' => ∃ page res,
      h.block.sysMalloc ⟨false, h.running, freePages⟩ size page = some res ∧ res.ptr = ptr ∧
        h.Becomes h' res.heap) h := by
  rw [UserHeap.sysMalloc, wp_bind, wp_read]
  simp only [BlockHeap.sysMalloc, ← hpool]
  split
  · exact ⟨none, _, rfl, rfl, rfl, rfl⟩
  split
  · rw [mallocLarge, wp_bind]
    refine wp_mono (mallocPage_becomes h _) ?_
    rintro (_ | a) h₁ ⟨hrunning, hblock⟩
    · exact ⟨none, _, rfl, rfl, hrunning, hblock⟩
    · dsimp only
      rw [wp_bind]
      refine wp_mono (clearPages_becomes h₁ a _) ?_
      rintro - h₂ ⟨hrunning₂, hblock₂⟩
      rw [wp_bind, wp_modify]
      refine ⟨some a, _, rfl, rfl, hrunning₂.trans hrunning, ?_⟩
      rw [Heaps.block_setArena, hblock₂, hblock, pagesFor, if_pos ‹_›]
  cases (List.range descCnt).find? fun i => size ≤ blockSize i with
  | none => trivial
  | some i =>
      have hfree : h.block.freeList (h.running, i) = h.freeList h.running i := rfl
      simp only [hfree]
      split
      · rw [wp_bind]
        refine wp_mono (newArena_becomes h i) ?_
        rintro (_ | _) h₁ hnew
        · exact ⟨none, _, rfl, rfl, hnew⟩
        · obtain ⟨a, heap, hnew, hrunning, hblock⟩ := hnew
          rw [if_pos rfl]
          refine wp_mono (takeBlock_becomes h₁ i) ?_
          rintro _ h₂ ⟨b, heap', rfl, htake, hrunning', hblock'⟩
          rw [hblock, hrunning] at htake
          refine ⟨some a, ⟨some b, some (a, 1), heap'⟩, ?_, rfl, hrunning'.trans hrunning, hblock'⟩
          simp only [hnew, htake, Option.bind_eq_bind, Option.bind_some, Option.pure_def]
      · refine wp_mono (takeBlock_becomes h i) ?_
        rintro _ h₁ ⟨b, heap, rfl, htake, hbecomes⟩
        refine ⟨none, ⟨some b, none, heap⟩, ?_, rfl, hbecomes⟩
        simp only [htake, Option.bind_eq_bind, Option.bind_some, Option.pure_def]

theorem removeBlocks_becomes (p i : ℕ) (blocks : List ℕ) (h : Heaps) :
    (removeBlocks p i blocks).wp (fun _ h' => ∃ heap,
      h.block.removeBlocks (p, i) blocks = some heap ∧ h.Becomes h' heap) h := by
  induction blocks generalizing h with
  | nil => exact ⟨_, rfl, rfl, rfl⟩
  | cons b blocks ih =>
      rw [removeBlocks, wp_bind, wp_read, wp_bind, wp_assert]
      intro hb
      have hb : b ∈ h.block.freeList (p, i) := of_decide_eq_true hb
      rw [wp_bind, wp_write, BlockHeap.removeBlocks, if_pos hb]
      have hrest := ih (h.setFreeList p i ((h.freeList p i).erase b))
      rw [Heaps.block_setFreeList] at hrest
      exact hrest

/-- What `sys_free` does to the heap of a process. -/
theorem sysFree_becomes (h : Heaps) (freePages : UInt16) (ptr : ℕ) :
    (UserHeap.sysFree ptr).wp (fun _ h' => ∃ res,
      h.block.sysFree ⟨false, h.running, freePages⟩ ptr = some res ∧ h.Becomes h' res.heap) h := by
  rw [UserHeap.sysFree, wp_bind, wp_assert]
  intro hptr
  have hptr : ptr ≠ 0 := of_decide_eq_true hptr
  rw [wp_bind, wp_read, BlockHeap.sysFree, if_neg (by simp [hptr])]
  have harena : h.block.arena (block2arena ptr) = h.arena h.running (block2arena ptr) := rfl
  simp only [harena]
  cases hdesc : (h.arena h.running (block2arena ptr)).desc with
  | none =>
      dsimp only
      split
      · exact ⟨_, rfl, rfl, rfl⟩
      · trivial
  | some d =>
      obtain ⟨p, i⟩ := d
      dsimp only
      rw [freeSmall, wp_bind, wp_read, wp_bind, wp_write]
      set arena := h.arena h.running (block2arena ptr)
      have hblock : ((h.setFreeList p i (h.freeList p i ++ [ptr])).setArena (block2arena ptr)
          { arena with cnt := arena.cnt + 1 }).block =
            (h.block.setFreeList (p, i) (h.block.freeList (p, i) ++ [ptr])).setArena (block2arena ptr)
              ⟨some (p, i), arena.cnt + 1, arena.large⟩ := by
        rw [Heaps.block_setArena, Heaps.block_setFreeList, ← hdesc]
        rfl
      split
      · rw [wp_bind]
        refine wp_mono (removeBlocks_becomes p i _ _) ?_
        rintro - h₁ ⟨heap, hremove, hrunning, hblock₁⟩
        rw [hblock] at hremove
        refine ⟨⟨none, some (block2arena ptr, 1), heap⟩, ?_, hrunning, hblock₁⟩
        simp only [hremove, Option.bind_eq_bind, Option.bind_some, Option.pure_def]
      · exact ⟨⟨none, none, _⟩, rfl, rfl, hblock⟩

end ProcessHeap

/-! ## Runs of calls -/

/-- A heap with the blocks in use (with the sizes asked for) and the runs of pages held. -/
structure HeapSystem where
  heap : BlockHeap
  live : List (ℕ × ℕ)
  runs : List (ℕ × ℕ)

/-- Two runs of pages have no page in common. -/
def Apart (r r' : ℕ × ℕ) : Prop :=
  r.1 + r.2 * pgSize ≤ r'.1 ∨ r'.1 + r'.2 * pgSize ≤ r.1

/-- What `malloc_page` may return to an owner. -/
structure IsRun (o : Owner) (r : ℕ × ℕ) : Prop where
  aligned : r.1 % pgSize = 0
  pos : 0 < r.1
  kernel : o.kernel = true → kHeapStart ≤ r.1
  fits : r.1 + r.2 * pgSize ≤ 2 ^ 32

/-- The blocks in use. -/
def HeapSystem.ptrs (s : HeapSystem) : List ℕ := s.live.map Prod.fst

/-- A call, or a write of the owner into a block of its own. -/
inductive HeapEvent where
  | malloc (size : ℕ) (page : Option ℕ)
  | free (ptr : ℕ)
  /-- The bytes at page `a` where a header would be are overwritten. -/
  | store (a : ℕ) (arena : Arena)

/-- One step.  `malloc_page` returns fresh pages, `sys_free` gets a pointer that is in
use, and the owner writes inside its blocks. -/
def HeapSystem.Step (o : Owner) (s : HeapSystem) (e : HeapEvent) (s' : HeapSystem) : Prop :=
  match e with
  | .malloc size page =>
      size < 2 ^ 32 ∧
        (∀ a ∈ page, IsRun o (a, pagesFor size) ∧ ∀ r ∈ s.runs, Apart (a, pagesFor size) r) ∧
        ∃ res, s.heap.sysMalloc o size page = some res ∧
          s' = ⟨res.heap, (res.ptr.map fun x => (x, size)).toList ++ s.live,
            res.pages.toList ++ s.runs⟩
  | .free ptr =>
      ∃ size, (ptr, size) ∈ s.live ∧ ∃ res, s.heap.sysFree o ptr = some res ∧
        s' = ⟨res.heap, s.live.erase (ptr, size), res.pages.elim s.runs s.runs.erase⟩
  | .store a arena =>
      a % pgSize = 0 ∧ (∃ b ∈ s.live, b.1 < a + arenaSize ∧ a < b.1 + b.2) ∧
        s' = { s with heap := s.heap.setArena a arena }

/-- After `block_desc_init`, before the first call. -/
def HeapSystem.Start (o : Owner) (s : HeapSystem) : Prop :=
  s.live = [] ∧ s.runs = [] ∧ ∀ i, s.heap.freeList (o.descs, i) = []

/-! ## The invariant -/

section Invariant

variable {o : Owner} {h h' : BlockHeap} {live : List (ℕ × ℕ)} {runs : List (ℕ × ℕ)}

/-- The page at `a` is an arena of descriptor `i`. -/
structure IsArena (o : Owner) (h : BlockHeap) (runs : List (ℕ × ℕ)) (i a : ℕ) : Prop where
  mem : (a, 1) ∈ runs
  desc : (h.arena a).desc = some (o.descs, i)

/-- The `n` pages at `a` are a large block. -/
structure IsLargeRun (h : BlockHeap) (runs : List (ℕ × ℕ)) (n a : ℕ) : Prop where
  mem : (a, n) ∈ runs
  arena : h.arena a = ⟨none, n, true⟩

/-- The free blocks of a list that lie in the page `a`. -/
def freeIn (blocks : List ℕ) (a : ℕ) : List ℕ := blocks.filter fun x => block2arena x = a

/-- Where a block in use lies. -/
def IsBlock (o : Owner) (h : BlockHeap) (runs : List (ℕ × ℕ)) (b : ℕ × ℕ) : Prop :=
  (∃ n a, IsLargeRun h runs n a ∧ b.1 = a + arenaSize ∧ arenaSize + b.2 ≤ n * pgSize) ∨
    ∃ i a, IsArena o h runs i a ∧ b.1 ∈ arenaBlocks a i ∧ b.2 ≤ blockSize i

/-- The invariant of a heap. -/
structure BlockInv (o : Owner) (h : BlockHeap) (live runs : List (ℕ × ℕ)) : Prop where
  run : ∀ r ∈ runs, IsRun o r ∧ 0 < r.2
  apart : runs.Pairwise Apart
  kind : ∀ r ∈ runs, IsLargeRun h runs r.2 r.1 ∨ ∃ i, IsArena o h runs i r.1 ∧ r.2 = 1
  block : ∀ b ∈ live, IsBlock o h runs b
  nodup : (live.map Prod.fst).Nodup
  free : ∀ i x, x ∈ h.freeList (o.descs, i) ↔
    ∃ a, IsArena o h runs i a ∧ x ∈ arenaBlocks a i ∧ x ∉ live.map Prod.fst
  free_nodup : ∀ i, (h.freeList (o.descs, i)).Nodup
  cnt : ∀ i a, IsArena o h runs i a → (h.arena a).cnt = (freeIn (h.freeList (o.descs, i)) a).length

/-- Every run of pages has a block in use. -/
def AllHeld (live runs : List (ℕ × ℕ)) : Prop :=
  ∀ r ∈ runs, ∃ b ∈ live, block2arena b.1 = r.1

instance : Std.Symm Apart := ⟨fun _ _ h => Or.symm h⟩

/-! ### Arenas and runs -/

theorem BlockInv.apart_of_ne (hi : BlockInv o h live runs) {r r' : ℕ × ℕ} (hr : r ∈ runs)
    (hr' : r' ∈ runs) (hne : r ≠ r') : Apart r r' :=
  hi.apart.forall hr hr' hne

/-- A run is known by its first page. -/
theorem BlockInv.run_eq (hi : BlockInv o h live runs) {r r' : ℕ × ℕ} (hr : r ∈ runs)
    (hr' : r' ∈ runs) (hstart : r.1 = r'.1) : r = r' := by
  by_contra hne
  have hpos := (hi.run r hr).2
  have hpos' := (hi.run r' hr').2
  have hpage : 0 < pgSize := by decide
  rcases hi.apart_of_ne hr hr' hne with hle | hle
  · have := Nat.mul_pos hpos hpage
    omega
  · have := Nat.mul_pos hpos' hpage
    omega

theorem BlockInv.runs_nodup (hi : BlockInv o h live runs) : runs.Nodup := by
  refine hi.apart.imp_of_mem fun {r r'} hr hr' hap => ?_
  rintro rfl
  have hpos := Nat.mul_pos (hi.run r hr).2 (by decide : 0 < pgSize)
  rcases hap with hle | hle <;> omega

theorem IsArena.inj {i i' a : ℕ} (ha : IsArena o h runs i a) (ha' : IsArena o h runs i' a) :
    i = i' := by
  have := ha.desc.symm.trans ha'.desc
  simpa using this

theorem BlockInv.arena_aligned (hi : BlockInv o h live runs) {i a : ℕ} (ha : IsArena o h runs i a) :
    a % pgSize = 0 :=
  (hi.run _ ha.mem).1.aligned

/-- The arena of a block is found from its address. -/
theorem BlockInv.block2arena_eq (hi : BlockInv o h live runs) {i a x : ℕ}
    (ha : IsArena o h runs i a) (hx : x ∈ arenaBlocks a i) : block2arena x = a := by
  obtain ⟨j, hj, rfl⟩ := mem_arenaBlocks.mp hx
  exact block2arena_arena2block (hi.arena_aligned ha) hj

/-- A block lies in one arena only. -/
theorem BlockInv.arena_eq (hi : BlockInv o h live runs) {i i' a a' x : ℕ}
    (ha : IsArena o h runs i a) (hx : x ∈ arenaBlocks a i) (ha' : IsArena o h runs i' a')
    (hx' : x ∈ arenaBlocks a' i') : a = a' ∧ i = i' := by
  have heq : a = a' := (hi.block2arena_eq ha hx).symm.trans (hi.block2arena_eq ha' hx')
  subst heq
  exact ⟨rfl, ha.inj ha'⟩

/-- The header of a run says of which kind it is, whatever its count. -/
def SameKinds (h h' : BlockHeap) (runs : List (ℕ × ℕ)) : Prop :=
  ∀ r ∈ runs, (h'.arena r.1).desc = (h.arena r.1).desc ∧
    ((h.arena r.1).desc = none → h'.arena r.1 = h.arena r.1)

theorem SameKinds.of_eq (heq : ∀ r ∈ runs, h'.arena r.1 = h.arena r.1) : SameKinds h h' runs :=
  fun r hr => ⟨by rw [heq r hr], fun _ => heq r hr⟩

theorem SameKinds.isArena (hk : SameKinds h h' runs) {i a : ℕ} :
    IsArena o h' runs i a ↔ IsArena o h runs i a := by
  constructor
  · rintro ⟨hmem, hdesc⟩
    exact ⟨hmem, (hk _ hmem).1.symm.trans hdesc⟩
  · rintro ⟨hmem, hdesc⟩
    exact ⟨hmem, (hk _ hmem).1.trans hdesc⟩

theorem SameKinds.isLargeRun (hk : SameKinds h h' runs) {n a : ℕ} (hl : IsLargeRun h runs n a) :
    IsLargeRun h' runs n a := by
  refine ⟨hl.mem, ((hk _ hl.mem).2 ?_).trans hl.arena⟩
  simp only [hl.arena]

theorem SameKinds.isBlock (hk : SameKinds h h' runs) {b : ℕ × ℕ} (hb : IsBlock o h runs b) :
    IsBlock o h' runs b := by
  rcases hb with ⟨n, a, hl, hrest⟩ | ⟨i, a, ha, hrest⟩
  · exact Or.inl ⟨n, a, hk.isLargeRun hl, hrest⟩
  · exact Or.inr ⟨i, a, hk.isArena.mpr ha, hrest⟩

theorem SameKinds.kind (hk : SameKinds h h' runs) (hi : BlockInv o h live runs) :
    ∀ r ∈ runs, IsLargeRun h' runs r.2 r.1 ∨ ∃ i, IsArena o h' runs i r.1 ∧ r.2 = 1 := by
  intro r hr
  rcases hi.kind r hr with hl | ⟨i, ha, hone⟩
  · exact Or.inl (hk.isLargeRun hl)
  · exact Or.inr ⟨i, hk.isArena.mpr ha, hone⟩

theorem isArena_cons {r : ℕ × ℕ} {i a : ℕ} :
    IsArena o h (r :: runs) i a ↔
      IsArena o h runs i a ∨ (r = (a, 1) ∧ (h.arena a).desc = some (o.descs, i)) := by
  constructor
  · rintro ⟨hmem, hdesc⟩
    rcases List.mem_cons.mp hmem with heq | hmem
    · exact Or.inr ⟨heq.symm, hdesc⟩
    · exact Or.inl ⟨hmem, hdesc⟩
  · rintro (⟨hmem, hdesc⟩ | ⟨rfl, hdesc⟩)
    · exact ⟨List.mem_cons_of_mem _ hmem, hdesc⟩
    · exact ⟨List.mem_cons_self, hdesc⟩

theorem IsBlock.cons {b r : ℕ × ℕ} (hb : IsBlock o h runs b) : IsBlock o h (r :: runs) b := by
  rcases hb with ⟨n, a, hl, hrest⟩ | ⟨i, a, ha, hrest⟩
  · exact Or.inl ⟨n, a, ⟨List.mem_cons_of_mem _ hl.mem, hl.arena⟩, hrest⟩
  · exact Or.inr ⟨i, a, isArena_cons.mpr (Or.inl ha), hrest⟩

/-- Where a block in use lies in its run. -/
theorem BlockInv.block_run (hi : BlockInv o h live runs) {b : ℕ × ℕ} (hb : IsBlock o h runs b) :
    ∃ r ∈ runs, r.1 = block2arena b.1 ∧ r.1 + arenaSize ≤ b.1 ∧ b.1 + b.2 ≤ r.1 + r.2 * pgSize := by
  rcases hb with ⟨n, a, hl, hptr, hsize⟩ | ⟨i, a, ha, hx, hsize⟩
  · have halign := (hi.run _ hl.mem).1.aligned
    refine ⟨(a, n), hl.mem, ?_, ?_, ?_⟩
    · rw [hptr]
      exact (block2arena_of_lt halign (by decide)).symm
    · rw [hptr]
    · dsimp only
      omega
  · refine ⟨(a, 1), ha.mem, (hi.block2arena_eq ha hx).symm, ?_⟩
    obtain ⟨j, hj, hj'⟩ := mem_arenaBlocks.mp hx
    have hend := block_end_le hj
    rw [← hj', arena2block]
    rw [Nat.add_mul, Nat.one_mul] at hend
    dsimp only
    omega

/-! ### Taking pages -/

@[simp]
theorem BlockHeap.clearPages_freeList (a n : ℕ) : (h.clearPages a n).freeList = h.freeList := by
  induction n with
  | zero => rfl
  | succ n ih => exact ih

theorem BlockHeap.clearPages_arena_of_ne {a n x : ℕ} (hx : x + pgSize ≤ a ∨ a + n * pgSize ≤ x) :
    (h.clearPages a n).arena x = h.arena x := by
  induction n with
  | zero => rfl
  | succ n ih =>
      rw [Nat.succ_mul] at hx
      have hpos : 0 < pgSize := by decide
      have hne : x ≠ a + n * pgSize := by omega
      rw [clearPages, setArena_arena_of_ne _ _ hne]
      exact ih (by omega)

/-- Fresh pages for an owner. -/
structure IsFresh (o : Owner) (runs : List (ℕ × ℕ)) (r : ℕ × ℕ) : Prop where
  run : IsRun o r
  pos : 0 < r.2
  apart : ∀ r' ∈ runs, Apart r r'

theorem IsFresh.start_ne {r : ℕ × ℕ} (hf : IsFresh o runs r) {r' : ℕ × ℕ} (hr' : r' ∈ runs)
    (hpos : 0 < r'.2) : r'.1 ≠ r.1 := by
  have hpos₁ := Nat.mul_pos hf.pos (by decide : 0 < pgSize)
  have hpos₂ := Nat.mul_pos hpos (by decide : 0 < pgSize)
  rcases hf.apart r' hr' with hle | hle <;> omega

/-- Nothing that is held is cleared with fresh pages. -/
theorem BlockInv.clear_fresh (hi : BlockInv o h live runs) {a n : ℕ} (hf : IsFresh o runs (a, n))
    (arena : Arena) :
    ∀ r ∈ runs, ((h.clearPages a n).setArena a arena).arena r.1 = h.arena r.1 := by
  intro r hr
  have hpos := (hi.run r hr).2
  rw [BlockHeap.setArena_arena_of_ne _ _ (hf.start_ne hr hpos)]
  refine BlockHeap.clearPages_arena_of_ne ?_
  have hle : pgSize ≤ r.2 * pgSize := Nat.le_mul_of_pos_left _ hpos
  rcases hf.apart r hr with hle' | hle'
  · exact Or.inr hle'
  · exact Or.inl (by omega)

/-- No block of an arena starts in fresh pages. -/
theorem BlockInv.fresh_not_mem (hi : BlockInv o h live runs) {a n : ℕ} (hf : IsFresh o runs (a, n))
    {x : ℕ} (hx : block2arena x = a) : x ∉ live.map Prod.fst := by
  intro hmem
  obtain ⟨b, hb, rfl⟩ := List.mem_map.mp hmem
  obtain ⟨r, hr, hstart, -⟩ := hi.block_run (hi.block b hb)
  exact hf.start_ne hr (hi.run r hr).2 (hstart.trans hx)

theorem BlockInv.run_cons (hi : BlockInv o h live runs) {r : ℕ × ℕ} (hf : IsFresh o runs r) :
    ∀ r' ∈ r :: runs, IsRun o r' ∧ 0 < r'.2 := by
  intro r' hr'
  rcases List.mem_cons.mp hr' with rfl | hr'
  · exact ⟨hf.run, hf.pos⟩
  · exact hi.run r' hr'

/-- `sys_malloc` of a large block. -/
theorem BlockInv.addLarge (hi : BlockInv o h live runs) {a n size : ℕ} (hf : IsFresh o runs (a, n))
    (hsize : arenaSize + size ≤ n * pgSize) :
    BlockInv o ((h.clearPages a n).setArena a ⟨none, n, true⟩) ((a + arenaSize, size) :: live)
      ((a, n) :: runs) := by
  set h' := (h.clearPages a n).setArena a ⟨none, n, true⟩ with hh'
  have hk : SameKinds h h' runs := SameKinds.of_eq (hi.clear_fresh hf _)
  have hself : h'.arena a = ⟨none, n, true⟩ := BlockHeap.setArena_arena_self _ _ _
  have hfree : h'.freeList = h.freeList := BlockHeap.clearPages_freeList a n
  have harena : ∀ i a', IsArena o h' ((a, n) :: runs) i a' ↔ IsArena o h runs i a' := by
    intro i a'
    rw [isArena_cons, hk.isArena, or_iff_left]
    rintro ⟨heq, hdesc⟩
    simp only [Prod.mk.injEq] at heq
    rw [← heq.1, hself] at hdesc
    cases hdesc
  have hpage : block2arena (a + arenaSize) = a := block2arena_of_lt hf.run.aligned (by decide)
  have hlarge : IsLargeRun h' ((a, n) :: runs) n a := ⟨List.mem_cons_self, hself⟩
  refine ⟨hi.run_cons hf, List.pairwise_cons.mpr ⟨hf.apart, hi.apart⟩, fun r hr => ?_,
    fun b hb => ?_, ?_, fun i x => ?_, fun i => ?_, fun i a' ha' => ?_⟩
  · rcases List.mem_cons.mp hr with rfl | hr
    · exact Or.inl hlarge
    · rcases hk.kind hi r hr with hl | ⟨i, ha, hone⟩
      · exact Or.inl ⟨List.mem_cons_of_mem _ hl.mem, hl.arena⟩
      · exact Or.inr ⟨i, isArena_cons.mpr (Or.inl ha), hone⟩
  · rcases List.mem_cons.mp hb with rfl | hb
    · exact Or.inl ⟨n, a, hlarge, rfl, hsize⟩
    · exact (hk.isBlock (hi.block b hb)).cons
  · exact List.nodup_cons.mpr ⟨hi.fresh_not_mem hf hpage, hi.nodup⟩
  · rw [hfree, hi.free i x]
    refine exists_congr fun a' => ?_
    rw [harena]
    refine and_congr_right fun ha' => and_congr_right fun hx => ?_
    rw [List.map_cons, List.mem_cons, not_or]
    refine ⟨fun hn => ⟨?_, hn⟩, fun hn => hn.2⟩
    rintro rfl
    have heq : a' = a := (hi.block2arena_eq ha' hx).symm.trans hpage
    exact hf.start_ne ha'.mem (by simp) heq
  · rw [hfree]
    exact hi.free_nodup i
  · have ha := (harena i a').mp ha'
    rw [hfree, hi.clear_fresh hf _ _ ha.mem]
    exact hi.cnt i a' ha

theorem BlockHeap.appendBlocks_eq {d : ℕ × ℕ} {blocks : List ℕ} (hnodup : blocks.Nodup)
    (hnew : ∀ b ∈ blocks, b ∉ h.freeList d) :
    h.appendBlocks d blocks = some (h.setFreeList d (h.freeList d ++ blocks)) := by
  induction blocks generalizing h with
  | nil => simp [appendBlocks, setFreeList]
  | cons b blocks ih =>
      rw [List.nodup_cons] at hnodup
      rw [appendBlocks, if_neg (hnew b List.mem_cons_self), ih hnodup.2]
      · simp [setFreeList]
      · intro c hc hmem
        simp only [setFreeList_freeList_self, List.mem_append, List.mem_singleton] at hmem
        rcases hmem with hmem | rfl
        · exact hnew c (List.mem_cons_of_mem _ hc) hmem
        · exact hnodup.1 hc

theorem mem_freeIn {blocks : List ℕ} {a x : ℕ} : x ∈ freeIn blocks a ↔ x ∈ blocks ∧ block2arena x = a := by
  simp [freeIn]

theorem freeIn_append (blocks blocks' : List ℕ) (a : ℕ) :
    freeIn (blocks ++ blocks') a = freeIn blocks a ++ freeIn blocks' a :=
  List.filter_append _ _

theorem nodup_freeIn {blocks : List ℕ} (hnodup : blocks.Nodup) (a : ℕ) : (freeIn blocks a).Nodup :=
  hnodup.filter _

theorem freeIn_eq_self {blocks : List ℕ} {a : ℕ} (hall : ∀ x ∈ blocks, block2arena x = a) :
    freeIn blocks a = blocks :=
  List.filter_eq_self.mpr fun x hx => decide_eq_true (hall x hx)

theorem freeIn_eq_nil {blocks : List ℕ} {a : ℕ} (hnone : ∀ x ∈ blocks, block2arena x ≠ a) :
    freeIn blocks a = [] :=
  List.filter_eq_nil_iff.mpr fun x hx => by simpa using hnone x hx

/-- `sys_malloc` of a new arena, whose blocks are all free. -/
theorem BlockInv.addArena (hi : BlockInv o h live runs) {i a : ℕ} (hf : IsFresh o runs (a, 1)) :
    ∃ h', h.newArena (o.descs, i) a = some h' ∧ BlockInv o h' live ((a, 1) :: runs) ∧
      h'.freeList (o.descs, i) = h.freeList (o.descs, i) ++ arenaBlocks a i := by
  have hblock : ∀ x ∈ arenaBlocks a i, block2arena x = a := by
    intro x hx
    obtain ⟨j, hj, rfl⟩ := mem_arenaBlocks.mp hx
    exact block2arena_arena2block hf.run.aligned hj
  -- free blocks lie in the arenas that are there already
  have hold : ∀ i', ∀ x ∈ h.freeList (o.descs, i'), block2arena x ≠ a := by
    intro i' x hx hpage
    obtain ⟨a', ha', hmem, -⟩ := (hi.free i' x).mp hx
    exact hf.start_ne ha'.mem (by simp) ((hi.block2arena_eq ha' hmem).symm.trans hpage)
  set h₁ := (h.clearPages a 1).setArena a ⟨some (o.descs, i), blocksPerArena i, false⟩ with hh₁
  have hfree₁ : h₁.freeList = h.freeList := BlockHeap.clearPages_freeList a 1
  refine ⟨h₁.setFreeList (o.descs, i) (h.freeList (o.descs, i) ++ arenaBlocks a i), ?_, ?_,
    BlockHeap.setFreeList_freeList_self _ _ _⟩
  · have hnew : ∀ b ∈ arenaBlocks a i, b ∉ h₁.freeList (o.descs, i) := by
      intro b hb hmem
      rw [hfree₁] at hmem
      exact hold i b hmem (hblock b hb)
    rw [BlockHeap.newArena, BlockHeap.appendBlocks_eq (nodup_arenaBlocks a i) hnew, hfree₁]
  set h' := h₁.setFreeList (o.descs, i) (h.freeList (o.descs, i) ++ arenaBlocks a i) with hh'
  have hk : SameKinds h h' runs := SameKinds.of_eq (hi.clear_fresh hf _)
  have hself : h'.arena a = ⟨some (o.descs, i), blocksPerArena i, false⟩ :=
    BlockHeap.setArena_arena_self _ _ _
  have hlist : h'.freeList (o.descs, i) = h.freeList (o.descs, i) ++ arenaBlocks a i :=
    BlockHeap.setFreeList_freeList_self _ _ _
  have hother : ∀ i', i' ≠ i → h'.freeList (o.descs, i') = h.freeList (o.descs, i') := by
    intro i' hne
    rw [hh', BlockHeap.setFreeList_freeList_of_ne _ _ (by simpa using hne), hfree₁]
  have harena : ∀ i' a', IsArena o h' ((a, 1) :: runs) i' a' ↔
      IsArena o h runs i' a' ∨ (a' = a ∧ i' = i) := by
    intro i' a'
    rw [isArena_cons, hk.isArena]
    refine or_congr_right ⟨?_, ?_⟩
    · rintro ⟨heq, hdesc⟩
      simp only [Prod.mk.injEq, and_true] at heq
      rw [← heq, hself] at hdesc
      simp only [Option.some.injEq, Prod.mk.injEq, true_and] at hdesc
      exact ⟨heq.symm, hdesc.symm⟩
    · rintro ⟨rfl, rfl⟩
      exact ⟨rfl, by rw [hself]⟩
  refine ⟨hi.run_cons hf, List.pairwise_cons.mpr ⟨hf.apart, hi.apart⟩, fun r hr => ?_,
    fun b hb => (hk.isBlock (hi.block b hb)).cons, hi.nodup, fun i' x => ?_, fun i' => ?_,
    fun i' a' ha' => ?_⟩
  · rcases List.mem_cons.mp hr with rfl | hr
    · exact Or.inr ⟨i, (harena i a).mpr (Or.inr ⟨rfl, rfl⟩), rfl⟩
    · rcases hk.kind hi r hr with hl | ⟨i', ha, hone⟩
      · exact Or.inl ⟨List.mem_cons_of_mem _ hl.mem, hl.arena⟩
      · exact Or.inr ⟨i', isArena_cons.mpr (Or.inl ha), hone⟩
  · by_cases hne : i' = i
    · subst hne
      rw [hlist, List.mem_append, hi.free i' x]
      constructor
      · rintro (⟨a', ha', hx, hn⟩ | hx)
        · exact ⟨a', (harena i' a').mpr (Or.inl ha'), hx, hn⟩
        · exact ⟨a, (harena i' a).mpr (Or.inr ⟨rfl, rfl⟩), hx, hi.fresh_not_mem hf (hblock x hx)⟩
      · rintro ⟨a', ha', hx, hn⟩
        rcases (harena i' a').mp ha' with ha' | ⟨rfl, -⟩
        · exact Or.inl ⟨a', ha', hx, hn⟩
        · exact Or.inr hx
    · rw [hother i' hne, hi.free i' x]
      refine exists_congr fun a' => and_congr_left fun _ => ?_
      rw [harena, or_iff_left]
      exact fun hcon => hne hcon.2
  · by_cases hne : i' = i
    · subst hne
      rw [hlist]
      refine List.nodup_append.mpr ⟨hi.free_nodup i', nodup_arenaBlocks a i', ?_⟩
      rintro x hx y hy rfl
      exact hold i' x hx (hblock x hy)
    · rw [hother i' hne]
      exact hi.free_nodup i'
  · rcases (harena i' a').mp ha' with ha | ⟨rfl, rfl⟩
    · have hne' : a' ≠ a := hf.start_ne ha.mem (by simp)
      have hcnt : (h'.arena a').cnt = (freeIn (h.freeList (o.descs, i')) a').length := by
        rw [← hi.cnt i' a' ha]
        exact congrArg Arena.cnt (hi.clear_fresh hf _ _ ha.mem)
      rw [hcnt]
      by_cases hne : i' = i
      · subst hne
        rw [hlist, freeIn_append, @freeIn_eq_nil (arenaBlocks a i'), List.append_nil]
        intro x hx hpage
        exact hne' (hpage.symm.trans (hblock x hx))
      · rw [hother i' hne]
    · rw [hself, hlist, freeIn_append, freeIn_eq_nil (hold i'), freeIn_eq_self hblock]
      simp [arenaBlocks]

/-! ### Taking a block -/

/-- A new count for an arena is no new kind. -/
theorem sameKinds_setCnt {i a : ℕ} (ha : IsArena o h runs i a) (d : ℕ × ℕ) (blocks : List ℕ) (cnt : ℕ) :
    SameKinds h ((h.setFreeList d blocks).setArena a { h.arena a with cnt := cnt }) runs := by
  intro r hr
  by_cases heq : r.1 = a
  · rw [heq, BlockHeap.setArena_arena_self]
    refine ⟨rfl, fun hnone => ?_⟩
    rw [ha.desc] at hnone
    cases hnone
  · rw [BlockHeap.setArena_arena_of_ne _ _ heq]
    exact ⟨rfl, fun _ => rfl⟩

/-- `sys_malloc` takes the first free block. -/
theorem BlockInv.takeBlock (hi : BlockInv o h live runs) {i b size : ℕ} {rest : List ℕ}
    (hlist : h.freeList (o.descs, i) = b :: rest) (hsize : size ≤ blockSize i) :
    ∃ h', h.takeBlock (o.descs, i) = some (b, h') ∧ BlockInv o h' ((b, size) :: live) runs := by
  have hmem : b ∈ h.freeList (o.descs, i) := by
    rw [hlist]
    exact List.mem_cons_self
  obtain ⟨a, ha, hb, hnot⟩ := (hi.free i b).mp hmem
  have hpage : block2arena b = a := hi.block2arena_eq ha hb
  set h' := (h.setFreeList (o.descs, i) rest).setArena a
    { h.arena a with cnt := subU32 (h.arena a).cnt 1 } with hh'
  have hrest : h'.freeList (o.descs, i) = rest := BlockHeap.setFreeList_freeList_self _ _ _
  have hother : ∀ i', i' ≠ i → h'.freeList (o.descs, i') = h.freeList (o.descs, i') := by
    intro i' hne
    exact BlockHeap.setFreeList_freeList_of_ne _ _ (by simpa using hne)
  have hk : SameKinds h h' runs := sameKinds_setCnt ha _ _ _
  have hnodup := hi.free_nodup i
  rw [hlist, List.nodup_cons] at hnodup
  refine ⟨h', by simp only [BlockHeap.takeBlock, hlist, hpage, hh'], hi.run, hi.apart, hk.kind hi,
    fun c hc => ?_, List.nodup_cons.mpr ⟨hnot, hi.nodup⟩, fun i' x => ?_, fun i' => ?_,
    fun i' a' ha' => ?_⟩
  · rcases List.mem_cons.mp hc with rfl | hc
    · exact Or.inr ⟨i, a, hk.isArena.mpr ha, hb, hsize⟩
    · exact hk.isBlock (hi.block c hc)
  · simp only [hk.isArena, List.map_cons, List.mem_cons, not_or]
    by_cases hne : i' = i
    · subst hne
      rw [hrest]
      have hfree := hi.free i' x
      rw [hlist, List.mem_cons] at hfree
      constructor
      · intro hx
        obtain ⟨a', ha', hxa, hxn⟩ := hfree.mp (Or.inr hx)
        refine ⟨a', ha', hxa, ?_, hxn⟩
        rintro rfl
        exact hnodup.1 hx
      · rintro ⟨a', ha', hxa, hxb, hxn⟩
        exact (hfree.mpr ⟨a', ha', hxa, hxn⟩).resolve_left hxb
    · rw [hother i' hne, hi.free i' x]
      refine exists_congr fun a' => and_congr_right fun ha' => and_congr_right fun hxa => ?_
      refine ⟨fun hn => ⟨?_, hn⟩, fun hn => hn.2⟩
      rintro rfl
      exact hne (hi.arena_eq ha' hxa ha hb).2
  · by_cases hne : i' = i
    · subst hne
      rw [hrest]
      exact hnodup.2
    · rw [hother i' hne]
      exact hi.free_nodup i'
  · have hold := hk.isArena.mp ha'
    have hcnt := hi.cnt i' a' hold
    by_cases heq : a' = a
    · subst heq
      obtain rfl := hold.inj ha
      rw [hrest, hh', BlockHeap.setArena_arena_self]
      have hfilter : freeIn (b :: rest) a' = b :: freeIn rest a' :=
        List.filter_cons_of_pos (decide_eq_true hpage)
      rw [hlist, hfilter, List.length_cons] at hcnt
      simp only [hcnt]
      rw [subU32_of_le (Nat.succ_pos _)]
      rfl
    · rw [hh', BlockHeap.setArena_arena_of_ne _ _ heq, ← hh']
      by_cases hne : i' = i
      · subst hne
        rw [hrest]
        rw [hlist] at hcnt
        refine hcnt.trans (congrArg List.length ?_)
        refine List.filter_cons_of_neg ?_
        rw [decide_eq_true_iff, hpage]
        exact fun hcon => heq hcon.symm
      · rw [hother i' hne]
        exact hcnt

/-! ### Giving a block back -/

theorem mem_ptrs_erase (hnodup : (live.map Prod.fst).Nodup) {b : ℕ × ℕ} (hb : b ∈ live) {x : ℕ} :
    x ∈ (live.erase b).map Prod.fst ↔ x ∈ live.map Prod.fst ∧ x ≠ b.1 := by
  have hperm := (List.perm_cons_erase hb).map Prod.fst
  rw [List.map_cons] at hperm
  have hnodup' := hperm.nodup_iff.mp hnodup
  rw [hperm.mem_iff, List.mem_cons]
  constructor
  · intro hx
    refine ⟨Or.inr hx, ?_⟩
    rintro rfl
    exact (List.nodup_cons.mp hnodup').1 hx
  · rintro ⟨hx | hx, hne⟩
    · exact absurd hx hne
    · exact hx

theorem nodup_ptrs_erase (hnodup : (live.map Prod.fst).Nodup) (b : ℕ × ℕ) :
    ((live.erase b).map Prod.fst).Nodup :=
  hnodup.sublist (List.erase_sublist.map Prod.fst)

/-- `sys_free` of a small block, before it looks at the count. -/
theorem BlockInv.giveBlock (hi : BlockInv o h live runs) {i a : ℕ} {b : ℕ × ℕ} (hb : b ∈ live)
    (ha : IsArena o h runs i a) (hba : b.1 ∈ arenaBlocks a i) :
    BlockInv o ((h.setFreeList (o.descs, i) (h.freeList (o.descs, i) ++ [b.1])).setArena a
      { h.arena a with cnt := (h.arena a).cnt + 1 }) (live.erase b) runs := by
  have hpage : block2arena b.1 = a := hi.block2arena_eq ha hba
  set h' := (h.setFreeList (o.descs, i) (h.freeList (o.descs, i) ++ [b.1])).setArena a
    { h.arena a with cnt := (h.arena a).cnt + 1 } with hh'
  have hlist : h'.freeList (o.descs, i) = h.freeList (o.descs, i) ++ [b.1] :=
    BlockHeap.setFreeList_freeList_self _ _ _
  have hother : ∀ i', i' ≠ i → h'.freeList (o.descs, i') = h.freeList (o.descs, i') := by
    intro i' hne
    exact BlockHeap.setFreeList_freeList_of_ne _ _ (by simpa using hne)
  have hk : SameKinds h h' runs := sameKinds_setCnt ha _ _ _
  have hmem : b.1 ∈ live.map Prod.fst := List.mem_map_of_mem hb
  refine ⟨hi.run, hi.apart, hk.kind hi, fun c hc => hk.isBlock (hi.block c (List.mem_of_mem_erase hc)),
    nodup_ptrs_erase hi.nodup b, fun i' x => ?_, fun i' => ?_, fun i' a' ha' => ?_⟩
  · simp only [hk.isArena, mem_ptrs_erase hi.nodup hb, not_and_or, not_not]
    by_cases hne : i' = i
    · subst hne
      rw [hlist, List.mem_append, List.mem_singleton, hi.free i' x]
      constructor
      · rintro (⟨a', ha', hxa, hxn⟩ | rfl)
        · exact ⟨a', ha', hxa, Or.inl hxn⟩
        · exact ⟨a, ha, hba, Or.inr rfl⟩
      · rintro ⟨a', ha', hxa, hxn | hxb⟩
        · exact Or.inl ⟨a', ha', hxa, hxn⟩
        · exact Or.inr hxb
    · rw [hother i' hne, hi.free i' x]
      refine exists_congr fun a' => and_congr_right fun ha' => and_congr_right fun hxa => ?_
      refine ⟨Or.inl, fun hn => hn.resolve_right ?_⟩
      rintro rfl
      exact hne (hi.arena_eq ha' hxa ha hba).2
  · by_cases hne : i' = i
    · subst hne
      rw [hlist]
      refine List.nodup_append.mpr ⟨hi.free_nodup i', List.nodup_singleton _, ?_⟩
      rintro x hx y hy rfl
      obtain ⟨-, -, -, hn⟩ := (hi.free i' x).mp hx
      rw [List.mem_singleton.mp hy] at hn
      exact hn hmem
    · rw [hother i' hne]
      exact hi.free_nodup i'
  · have hold := hk.isArena.mp ha'
    have hcnt := hi.cnt i' a' hold
    by_cases heq : a' = a
    · subst heq
      obtain rfl := hold.inj ha
      rw [hlist, hh', BlockHeap.setArena_arena_self, freeIn_append, List.length_append, ← hcnt]
      rw [@freeIn_eq_self [b.1] _ (by simpa using hpage), List.length_singleton]
    · rw [hh', BlockHeap.setArena_arena_of_ne _ _ heq, ← hh']
      by_cases hne : i' = i
      · subst hne
        rw [hlist, freeIn_append, @freeIn_eq_nil [b.1], List.append_nil]
        · exact hcnt
        · intro x hx hxa
          rw [List.mem_singleton.mp hx, hpage] at hxa
          exact heq hxa.symm
      · rw [hother i' hne]
        exact hcnt

theorem BlockHeap.removeBlocks_eq {d : ℕ × ℕ} {blocks : List ℕ} (hnodup : blocks.Nodup)
    (hall : ∀ b ∈ blocks, b ∈ h.freeList d) :
    h.removeBlocks d blocks = some (h.setFreeList d ((h.freeList d).diff blocks)) := by
  induction blocks generalizing h with
  | nil => simp [removeBlocks, setFreeList]
  | cons b blocks ih =>
      rw [List.nodup_cons] at hnodup
      rw [removeBlocks, if_pos (hall b List.mem_cons_self), ih hnodup.2]
      · simp [setFreeList]
      · intro c hc
        rw [setFreeList_freeList_self]
        refine (List.mem_erase_of_ne ?_).mpr (hall c (List.mem_cons_of_mem _ hc))
        rintro rfl
        exact hnodup.1 hc

/-- An arena with a full count has all its blocks in the free list. -/
theorem BlockInv.all_free (hi : BlockInv o h live runs) {i a : ℕ} (ha : IsArena o h runs i a)
    (hcnt : (h.arena a).cnt = blocksPerArena i) :
    ∀ x ∈ arenaBlocks a i, x ∈ h.freeList (o.descs, i) := by
  have hsub : freeIn (h.freeList (o.descs, i)) a ⊆ arenaBlocks a i := by
    intro x hx
    obtain ⟨hx, hpage⟩ := mem_freeIn.mp hx
    obtain ⟨a', ha', hxa, -⟩ := (hi.free i x).mp hx
    have heq : a' = a := (hi.block2arena_eq ha' hxa).symm.trans hpage
    exact heq ▸ hxa
  have hnodup := nodup_freeIn (hi.free_nodup i) a
  have hlength : (arenaBlocks a i).length ≤ (freeIn (h.freeList (o.descs, i)) a).length := by
    rw [← hi.cnt i a ha, hcnt]
    simp [arenaBlocks]
  have hperm := (hnodup.subperm hsub).perm_of_length_le hlength
  intro x hx
  exact (mem_freeIn.mp (hperm.mem_iff.mpr hx)).1

theorem isArena_erase {r : ℕ × ℕ} (hnodup : runs.Nodup) {i a : ℕ} :
    IsArena o h (runs.erase r) i a ↔ IsArena o h runs i a ∧ (a, 1) ≠ r := by
  constructor
  · rintro ⟨hmem, hdesc⟩
    obtain ⟨hne, hmem⟩ := hnodup.mem_erase_iff.mp hmem
    exact ⟨⟨hmem, hdesc⟩, hne⟩
  · rintro ⟨⟨hmem, hdesc⟩, hne⟩
    exact ⟨hnodup.mem_erase_iff.mpr ⟨hne, hmem⟩, hdesc⟩

/-- A run without a block in use goes back; the free lists have lost its blocks. -/
theorem BlockInv.dropRun (hi : BlockInv o h live runs) {r : ℕ × ℕ} (hr : r ∈ runs)
    (hempty : ∀ b ∈ live, block2arena b.1 ≠ r.1) (harena : ∀ a, h'.arena a = h.arena a)
    (hfree : ∀ i x, x ∈ h'.freeList (o.descs, i) ↔
      x ∈ h.freeList (o.descs, i) ∧ ∀ i' a, IsArena o h runs i' a → (a, 1) = r → x ∉ arenaBlocks a i')
    (hsub : ∀ i, (h'.freeList (o.descs, i)).Sublist (h.freeList (o.descs, i))) :
    BlockInv o h' live (runs.erase r) := by
  have hnodup := hi.runs_nodup
  have hk : SameKinds h h' (runs.erase r) := SameKinds.of_eq fun r' _ => harena r'.1
  have hlarge : ∀ n a, IsLargeRun h runs n a → (a, n) ≠ r → IsLargeRun h' (runs.erase r) n a := by
    intro n a hl hne
    exact ⟨hnodup.mem_erase_iff.mpr ⟨hne, hl.mem⟩, (harena a).trans hl.arena⟩
  have hmemrun : ∀ r' ∈ runs.erase r, r' ∈ runs ∧ r' ≠ r := by
    intro r' hr'
    obtain ⟨hne, hmem⟩ := hnodup.mem_erase_iff.mp hr'
    exact ⟨hmem, hne⟩
  refine ⟨fun r' hr' => hi.run r' (hmemrun r' hr').1, hi.apart.sublist List.erase_sublist,
    fun r' hr' => ?_, fun b hb => ?_, hi.nodup, fun i x => ?_,
    fun i => (hi.free_nodup i).sublist (hsub i), fun i a ha => ?_⟩
  · obtain ⟨hmem, hne⟩ := hmemrun r' hr'
    rcases hi.kind r' hmem with hl | ⟨i, ha, hone⟩
    · exact Or.inl (hlarge _ _ hl hne)
    · refine Or.inr ⟨i, hk.isArena.mpr ((isArena_erase hnodup).mpr ⟨ha, ?_⟩), hone⟩
      rw [← hone]
      exact hne
  · obtain ⟨r', hr', hstart, -⟩ := hi.block_run (hi.block b hb)
    have hne : r' ≠ r := by
      rintro rfl
      exact hempty b hb hstart.symm
    rcases hi.block b hb with ⟨n, a, hl, hptr, hsize⟩ | ⟨i, a, ha, hx, hsize⟩
    · refine Or.inl ⟨n, a, hlarge n a hl ?_, hptr, hsize⟩
      rintro rfl
      refine hempty b hb ?_
      rw [hptr]
      exact block2arena_of_lt (hi.run _ hl.mem).1.aligned (by decide)
    · refine Or.inr ⟨i, a, hk.isArena.mpr ((isArena_erase hnodup).mpr ⟨ha, ?_⟩), hx, hsize⟩
      rintro rfl
      exact hempty b hb (hi.block2arena_eq ha hx)
  · rw [hfree, hi.free i x]
    constructor
    · rintro ⟨⟨a, ha, hx, hn⟩, hout⟩
      refine ⟨a, hk.isArena.mpr ((isArena_erase hnodup).mpr ⟨ha, ?_⟩), hx, hn⟩
      exact fun heq => hout i a ha heq hx
    · rintro ⟨a, ha, hx, hn⟩
      obtain ⟨ha, hne⟩ := (isArena_erase hnodup).mp (hk.isArena.mp ha)
      refine ⟨⟨a, ha, hx, hn⟩, fun i' a' ha' heq hx' => hne ?_⟩
      rw [(hi.arena_eq ha hx ha' hx').1]
      exact heq
  · obtain ⟨ha, hne⟩ := (isArena_erase hnodup).mp (hk.isArena.mp ha)
    rw [harena a, hi.cnt i a ha]
    -- the blocks that left the list lie in another page
    have hperm : (freeIn (h'.freeList (o.descs, i)) a).Perm (freeIn (h.freeList (o.descs, i)) a) := by
      refine (List.perm_ext_iff_of_nodup (nodup_freeIn ((hi.free_nodup i).sublist (hsub i)) a)
        (nodup_freeIn (hi.free_nodup i) a)).mpr fun x => ?_
      rw [mem_freeIn, mem_freeIn, hfree]
      refine and_congr_left fun hpage => and_iff_left_of_imp fun _ => ?_
      intro i' a' ha' heq hx'
      refine hne ?_
      rw [← hpage, hi.block2arena_eq ha' hx']
      exact heq
    exact hperm.length_eq.symm

/-! ### The calls -/

theorem exists_desc {size : ℕ} (hsize : size ≤ 1024) :
    ∃ i, ((List.range descCnt).find? fun i => size ≤ blockSize i) = some i ∧ i < descCnt ∧ size ≤ blockSize i := by
  cases hfind : (List.range descCnt).find? fun i => decide (size ≤ blockSize i) with
  | none =>
      rw [List.find?_eq_none] at hfind
      have hlast : blockSize 6 = 1024 := rfl
      have hnot := hfind 6 (by decide)
      rw [decide_eq_true_iff, hlast] at hnot
      exact absurd hsize hnot
  | some i =>
      refine ⟨i, rfl, List.mem_range.mp (List.mem_of_find?_eq_some hfind), ?_⟩
      simpa using List.find?_some hfind

theorem pagesFor_mul_ge {o : Owner} {size : ℕ} (hbig : 1024 < size) (hlt : size < o.poolSize) :
    arenaSize + size ≤ pagesFor size * pgSize := by
  have hpool : o.poolSize < 2 ^ 16 * pgSize := by
    unfold Owner.poolSize
    have := o.freePages.toNat_lt
    exact Nat.mul_lt_mul_of_pos_right this (by decide)
  simp only [pgSize] at hpool
  have hsum : (size + arenaSize) % 2 ^ 32 = size + arenaSize := by
    refine Nat.mod_eq_of_lt ?_
    simp only [arenaSize]
    omega
  have hround : (size + arenaSize + (pgSize - 1)) % 2 ^ 32 = size + arenaSize + (pgSize - 1) := by
    refine Nat.mod_eq_of_lt ?_
    simp only [arenaSize, pgSize]
    omega
  rw [pagesFor, if_pos hbig, divRoundUp, hsum, hround]
  simp only [arenaSize, pgSize]
  omega

theorem blocksPerArena_pos {i : ℕ} (hi : i < descCnt) : 0 < blocksPerArena i := by
  have : ∀ i < descCnt, 0 < blocksPerArena i := by decide
  exact this i hi

/-- What `sys_malloc` does, with fresh pages at hand. -/
theorem BlockInv.sysMalloc (hi : BlockInv o h live runs) (hheld : AllHeld live runs) (size : ℕ)
    (page : Option ℕ)
    (hpage : ∀ a ∈ page, IsRun o (a, pagesFor size) ∧ ∀ r ∈ runs, Apart (a, pagesFor size) r) :
    ∃ res, h.sysMalloc o size page = some res ∧
      BlockInv o res.heap ((res.ptr.map fun x => (x, size)).toList ++ live)
        (res.pages.toList ++ runs) ∧
      AllHeld ((res.ptr.map fun x => (x, size)).toList ++ live) (res.pages.toList ++ runs) := by
  have hnull : ∃ res : HeapResult, some (⟨none, none, h⟩ : HeapResult) = some res ∧
      BlockInv o res.heap ((res.ptr.map fun x => (x, size)).toList ++ live)
        (res.pages.toList ++ runs) ∧
      AllHeld ((res.ptr.map fun x => (x, size)).toList ++ live) (res.pages.toList ++ runs) :=
    ⟨_, rfl, hi, hheld⟩
  have hmore : ∀ b : ℕ × ℕ, AllHeld (b :: live) runs := by
    intro b r hr
    obtain ⟨c, hc, hstart⟩ := hheld r hr
    exact ⟨c, List.mem_cons_of_mem _ hc, hstart⟩
  unfold BlockHeap.sysMalloc
  split
  · exact hnull
  next hvalid =>
  push Not at hvalid
  obtain ⟨hpos, hlt⟩ := hvalid
  split
  next hbig =>
    cases page with
    | none => exact hnull
    | some a =>
        obtain ⟨hrun, hapart⟩ := hpage a rfl
        have hsize : arenaSize + size ≤ pagesFor size * pgSize := pagesFor_mul_ge hbig hlt
        have hpages : 0 < pagesFor size := by
          by_contra hzero
          rw [Nat.eq_zero_of_not_pos hzero] at hsize
          simp only [arenaSize] at hsize
          omega
        refine ⟨_, rfl, hi.addLarge ⟨hrun, hpages, hapart⟩ hsize, ?_⟩
        intro r hr
        rcases List.mem_cons.mp hr with rfl | hr
        · exact ⟨_, List.mem_cons_self, block2arena_of_lt hrun.aligned (by decide)⟩
        · exact hmore _ r hr
  next hsmall =>
  obtain ⟨i, hfind, hdesc, hsize⟩ := exists_desc (Nat.le_of_not_lt hsmall)
  rw [hfind]
  dsimp only
  split
  next hempty =>
    cases page with
    | none => exact hnull
    | some a =>
        have hone : pagesFor size = 1 := if_neg hsmall
        rw [hone] at hpage
        obtain ⟨hrun, hapart⟩ := hpage a rfl
        obtain ⟨h₁, hnew, hi₁, hlist⟩ := hi.addArena (i := i) ⟨hrun, Nat.one_pos, hapart⟩
        rw [hempty, List.nil_append] at hlist
        have hne : h₁.freeList (o.descs, i) ≠ [] := by
          rw [hlist]
          refine List.ne_nil_of_length_pos ?_
          simp only [arenaBlocks, List.length_map, List.length_range]
          exact blocksPerArena_pos hdesc
        obtain ⟨b, rest, hb⟩ := List.exists_cons_of_ne_nil hne
        obtain ⟨h₂, htake, hi₂⟩ := hi₁.takeBlock hb hsize
        refine ⟨⟨some b, some (a, 1), h₂⟩, ?_, hi₂, ?_⟩
        · simp only [hnew, Option.bind_eq_bind, Option.bind_some, htake]
          rfl
        · intro r hr
          rcases List.mem_cons.mp hr with rfl | hr
          · refine ⟨_, List.mem_cons_self, ?_⟩
            have hmem : b ∈ arenaBlocks a i := by
              rw [← hlist, hb]
              exact List.mem_cons_self
            obtain ⟨j, hj, rfl⟩ := mem_arenaBlocks.mp hmem
            exact block2arena_arena2block hrun.aligned hj
          · exact hmore _ r hr
  next hne =>
    obtain ⟨b, rest, hb⟩ := List.exists_cons_of_ne_nil hne
    obtain ⟨h₁, htake, hi₁⟩ := hi.takeBlock hb hsize
    refine ⟨⟨some b, none, h₁⟩, ?_, hi₁, hmore _⟩
    simp only [htake, Option.bind_eq_bind, Option.bind_some]
    rfl

/-- No block in use but `b` lies in the run of `b`. -/
def LastIn (live : List (ℕ × ℕ)) (b : ℕ × ℕ) : Prop :=
  ∀ c ∈ live, block2arena c.1 = block2arena b.1 → c = b

/-- A block in use in the page of an arena is a block of the arena. -/
theorem BlockInv.mem_arenaBlocks_of_page (hi : BlockInv o h live runs) {i a : ℕ} {c : ℕ × ℕ}
    (ha : IsArena o h runs i a) (hc : c ∈ live) (hpage : block2arena c.1 = a) :
    c.1 ∈ arenaBlocks a i := by
  rcases hi.block c hc with ⟨n, a', hl, hptr, -⟩ | ⟨i', a', ha', hx, -⟩
  · have heq : a' = a := by
      rw [← hpage, hptr]
      exact (block2arena_of_lt (hi.run _ hl.mem).1.aligned (by decide)).symm
    have hdesc := ha.desc
    rw [← heq, hl.arena] at hdesc
    cases hdesc
  · have heq : a' = a := (hi.block2arena_eq ha' hx).symm.trans hpage
    subst heq
    rw [ha.inj ha']
    exact hx

theorem BlockInv.eq_of_ptr_eq (hi : BlockInv o h live runs) {b c : ℕ × ℕ} (hb : b ∈ live)
    (hc : c ∈ live) (heq : c.1 = b.1) : c = b :=
  List.inj_on_of_nodup_map hi.nodup hc hb heq

/-- A large block has its pages to itself. -/
theorem BlockInv.lastIn_large (hi : BlockInv o h live runs) {n a : ℕ} {b : ℕ × ℕ} (hb : b ∈ live)
    (hl : IsLargeRun h runs n a) (hptr : b.1 = a + arenaSize) : LastIn live b := by
  have hpage : block2arena b.1 = a := by
    rw [hptr]
    exact block2arena_of_lt (hi.run _ hl.mem).1.aligned (by decide)
  intro c hc hsame
  rw [hpage] at hsame
  rcases hi.block c hc with ⟨n', a', hl', hptr', -⟩ | ⟨i', a', ha', hx, -⟩
  · have heq : a' = a := by
      rw [← hsame, hptr']
      exact (block2arena_of_lt (hi.run _ hl'.mem).1.aligned (by decide)).symm
    refine hi.eq_of_ptr_eq hb hc ?_
    rw [hptr, hptr', heq]
  · have heq : a' = a := (hi.block2arena_eq ha' hx).symm.trans hsame
    have hdesc := ha'.desc
    rw [heq, hl.arena] at hdesc
    cases hdesc

/-- `sys_free` of a large block. -/
theorem BlockInv.freeLarge (hi : BlockInv o h live runs) {n a : ℕ} {b : ℕ × ℕ} (hb : b ∈ live)
    (hl : IsLargeRun h runs n a) (hptr : b.1 = a + arenaSize) :
    BlockInv o h (live.erase b) (runs.erase (a, n)) := by
  have hpage : block2arena b.1 = a := by
    rw [hptr]
    exact block2arena_of_lt (hi.run _ hl.mem).1.aligned (by decide)
  have hlast := hi.lastIn_large hb hl hptr
  -- a block of an arena does not lie in the pages at `a`
  have hnotArena : ∀ i a', IsArena o h runs i a' → a' ≠ a := by
    rintro i a' ha' rfl
    have hdesc := ha'.desc
    rw [hl.arena] at hdesc
    cases hdesc
  have hi' : BlockInv o h (live.erase b) runs := by
    refine ⟨hi.run, hi.apart, hi.kind, fun c hc => hi.block c (List.mem_of_mem_erase hc),
      nodup_ptrs_erase hi.nodup b, fun i x => ?_, hi.free_nodup, hi.cnt⟩
    rw [hi.free i x]
    refine exists_congr fun a' => and_congr_right fun ha' => and_congr_right fun hx => ?_
    rw [mem_ptrs_erase hi.nodup hb, not_and_or, not_not, or_iff_left]
    rintro rfl
    exact hnotArena i a' ha' ((hi.block2arena_eq ha' hx).symm.trans hpage)
  refine hi'.dropRun hl.mem (fun c hc hsame => ?_) (fun _ => rfl) (fun i x => ?_)
    (fun i => List.Sublist.refl _)
  · have hc' := List.mem_of_mem_erase hc
    have heq := hlast c hc' (hsame.trans hpage.symm)
    rw [heq] at hc
    exact ((mem_ptrs_erase hi.nodup hb).mp (List.mem_map_of_mem hc)).2 rfl
  · refine (and_iff_left ?_).symm
    intro i' a' ha' heq
    simp only [Prod.mk.injEq] at heq
    exact absurd heq.1 (hnotArena i' a' ha')

/-- A small block is the last one in its arena if its release makes the count full. -/
theorem BlockInv.lastIn_small (hi : BlockInv o h live runs) {i a : ℕ} {b : ℕ × ℕ} (hb : b ∈ live)
    (ha : IsArena o h runs i a) (hba : b.1 ∈ arenaBlocks a i) :
    LastIn live b ↔ (h.arena a).cnt + 1 = blocksPerArena i := by
  have hpage : block2arena b.1 = a := hi.block2arena_eq ha hba
  have hi₁ := hi.giveBlock hb ha hba
  set h₁ := (h.setFreeList (o.descs, i) (h.freeList (o.descs, i) ++ [b.1])).setArena a
    { h.arena a with cnt := (h.arena a).cnt + 1 } with hh₁
  have ha₁ : IsArena o h₁ runs i a := (sameKinds_setCnt ha _ _ _).isArena.mpr ha
  have hcnt : (h₁.arena a).cnt = (h.arena a).cnt + 1 := by
    rw [hh₁, BlockHeap.setArena_arena_self]
  constructor
  · intro hlast
    have hsub : arenaBlocks a i ⊆ freeIn (h₁.freeList (o.descs, i)) a := by
      intro x hx
      refine mem_freeIn.mpr ⟨(hi₁.free i x).mpr ⟨a, ha₁, hx, fun hmem => ?_⟩, hi.block2arena_eq ha hx⟩
      obtain ⟨hmem, hne⟩ := (mem_ptrs_erase hi.nodup hb).mp hmem
      obtain ⟨c, hc, rfl⟩ := List.mem_map.mp hmem
      exact hne (congrArg Prod.fst (hlast c hc ((hi.block2arena_eq ha hx).trans hpage.symm)))
    have hsup : freeIn (h₁.freeList (o.descs, i)) a ⊆ arenaBlocks a i := by
      intro x hx
      obtain ⟨hx, hxa⟩ := mem_freeIn.mp hx
      obtain ⟨a', ha', hxa', -⟩ := (hi₁.free i x).mp hx
      have heq : a' = a := (hi₁.block2arena_eq ha' hxa').symm.trans hxa
      exact heq ▸ hxa'
    have hle := ((nodup_arenaBlocks a i).subperm hsub).length_le
    have hge := ((nodup_freeIn (hi₁.free_nodup i) a).subperm hsup).length_le
    have hlen : (arenaBlocks a i).length = blocksPerArena i := by simp [arenaBlocks]
    rw [← hcnt, hi₁.cnt i a ha₁, ← hlen]
    exact Nat.le_antisymm hge hle
  · intro hfull c hc hsame
    by_contra hne
    have hmem : c.1 ∈ (live.erase b).map Prod.fst :=
      List.mem_map_of_mem ((List.mem_erase_of_ne hne).mpr hc)
    have hca := hi.mem_arenaBlocks_of_page ha hc (hsame.trans hpage)
    obtain ⟨-, -, -, hnot⟩ := (hi₁.free i c.1).mp (hi₁.all_free ha₁ (hcnt.trans hfull) c.1 hca)
    exact hnot hmem

/-- The runs other than that of `b` keep their blocks. -/
theorem BlockInv.allHeld_erase (hi : BlockInv o h live runs) (hheld : AllHeld live runs)
    {b r : ℕ × ℕ} (hr : r ∈ runs) (hpage : r.1 = block2arena b.1) :
    AllHeld (live.erase b) (runs.erase r) := by
  intro r' hr'
  obtain ⟨hne, hmem⟩ := hi.runs_nodup.mem_erase_iff.mp hr'
  obtain ⟨c, hc, hstart⟩ := hheld r' hmem
  refine ⟨c, (List.mem_erase_of_ne ?_).mpr hc, hstart⟩
  rintro rfl
  exact hne (hi.run_eq hmem hr (hstart.symm.trans hpage.symm))

theorem BlockHeap.sysFree_small {ptr : ℕ} {d : ℕ × ℕ}
    (hvalid : ¬ (ptr = 0 ∨ (o.kernel = true ∧ ptr < kHeapStart)))
    (hdesc : (h.arena (block2arena ptr)).desc = some d) {h₁ : BlockHeap}
    (hh₁ : h₁ = (h.setFreeList d (h.freeList d ++ [ptr])).setArena (block2arena ptr)
      { h.arena (block2arena ptr) with cnt := (h.arena (block2arena ptr)).cnt + 1 }) :
    h.sysFree o ptr =
      if (h.arena (block2arena ptr)).cnt + 1 = blocksPerArena d.2 then
        (h₁.removeBlocks d (arenaBlocks (block2arena ptr) d.2)).bind fun h₂ =>
          some ⟨none, some (block2arena ptr, 1), h₂⟩
      else some ⟨none, none, h₁⟩ := by
  unfold BlockHeap.sysFree
  rw [if_neg hvalid]
  dsimp only
  split
  next hnone =>
    rw [hdesc] at hnone
    cases hnone
  next d' hd' =>
    rw [hdesc, Option.some.injEq] at hd'
    subst hd' hh₁
    rfl

/-- What `sys_free` does with a block in use. -/
theorem BlockInv.sysFree (hi : BlockInv o h live runs) (hheld : AllHeld live runs) {b : ℕ × ℕ}
    (hb : b ∈ live) :
    ∃ res, h.sysFree o b.1 = some res ∧
      BlockInv o res.heap (live.erase b) (res.pages.elim runs runs.erase) ∧
      AllHeld (live.erase b) (res.pages.elim runs runs.erase) ∧
      (∀ r ∈ res.pages, r ∈ runs ∧ r.1 = block2arena b.1 ∧ LastIn live b) ∧
      (res.pages = none → ¬ LastIn live b) := by
  obtain ⟨r, hr, hstart, hoff, -⟩ := hi.block_run (hi.block b hb)
  have hrun := (hi.run r hr).1
  have hvalid : ¬ (b.1 = 0 ∨ (o.kernel = true ∧ b.1 < kHeapStart)) := by
    have hpos := hrun.pos
    rintro (hzero | ⟨hkernel, hlow⟩)
    · omega
    · have := hrun.kernel hkernel
      omega
  rcases hi.block b hb with ⟨n, a, hl, hptr, -⟩ | ⟨i, a, ha, hba, -⟩
  · have hpage : block2arena b.1 = a := by
      rw [hptr]
      exact block2arena_of_lt (hi.run _ hl.mem).1.aligned (by decide)
    have hlast := hi.lastIn_large hb hl hptr
    refine ⟨⟨none, some (a, n), h⟩, ?_, hi.freeLarge hb hl hptr,
      hi.allHeld_erase hheld hl.mem hpage.symm, ?_, fun hnone => by cases hnone⟩
    · simp only [BlockHeap.sysFree, if_neg hvalid, hpage, hl.arena, if_true]
    · intro r' hr'
      obtain rfl := Option.some.inj hr'
      exact ⟨hl.mem, hpage.symm, hlast⟩
  · have hpage : block2arena b.1 = a := hi.block2arena_eq ha hba
    have hlast := hi.lastIn_small hb ha hba
    have hi₁ := hi.giveBlock hb ha hba
    set h₁ := (h.setFreeList (o.descs, i) (h.freeList (o.descs, i) ++ [b.1])).setArena a
      { h.arena a with cnt := (h.arena a).cnt + 1 } with hh₁
    have ha₁ : IsArena o h₁ runs i a := (sameKinds_setCnt ha _ _ _).isArena.mpr ha
    have hsys := BlockHeap.sysFree_small (o := o) (h := h) hvalid (d := (o.descs, i))
      (by rw [hpage]; exact ha.desc) (show h₁ = _ by rw [hpage])
    rw [hpage] at hsys
    by_cases hfull : (h.arena a).cnt + 1 = blocksPerArena i
    · -- the last block of the arena: its page goes back
      have hcnt : (h₁.arena a).cnt = blocksPerArena i := by
        rw [hh₁, BlockHeap.setArena_arena_self]
        exact hfull
      have hall := hi₁.all_free ha₁ hcnt
      have hremove := BlockHeap.removeBlocks_eq (nodup_arenaBlocks a i) hall
      refine ⟨⟨none, some (a, 1), h₁.setFreeList (o.descs, i)
        ((h₁.freeList (o.descs, i)).diff (arenaBlocks a i))⟩, ?_, ?_,
        hi.allHeld_erase hheld ha.mem hpage.symm, ?_, fun hnone => by cases hnone⟩
      · rw [hsys, if_pos hfull, hremove]
        rfl
      · refine hi₁.dropRun ha.mem (fun c hc hsame => ?_) (fun _ => rfl) (fun i' x => ?_) (fun i' => ?_)
        · have hca := hi₁.mem_arenaBlocks_of_page ha₁ hc hsame
          obtain ⟨-, -, -, hnot⟩ := (hi₁.free i c.1).mp (hall c.1 hca)
          exact hnot (List.mem_map_of_mem hc)
        · by_cases hne : i' = i
          · subst hne
            rw [BlockHeap.setFreeList_freeList_self, (hi₁.free_nodup i').mem_sdiff_iff]
            refine and_congr_right fun _ => ⟨fun hnot i₂ a₂ ha₂ heq hx => ?_, fun hout =>
              hout i' a ha₁ rfl⟩
            simp only [Prod.mk.injEq, and_true] at heq
            subst heq
            rw [ha₂.inj ha₁] at hx
            exact hnot hx
          · rw [BlockHeap.setFreeList_freeList_of_ne _ _ (by simpa using hne)]
            refine (and_iff_left_of_imp fun hx i₂ a₂ ha₂ heq hx₂ => ?_).symm
            simp only [Prod.mk.injEq, and_true] at heq
            subst heq
            obtain ⟨a₃, ha₃, hx₃, -⟩ := (hi₁.free i' x).mp hx
            exact hne ((hi₁.arena_eq ha₃ hx₃ ha₂ hx₂).2.trans (ha₂.inj ha₁))
        · by_cases hne : i' = i
          · subst hne
            rw [BlockHeap.setFreeList_freeList_self]
            exact List.diff_sublist _ _
          · rw [BlockHeap.setFreeList_freeList_of_ne _ _ (by simpa using hne)]
      · intro r' hr'
        obtain rfl := Option.some.inj hr'
        exact ⟨ha.mem, hpage.symm, hlast.mpr hfull⟩
    · refine ⟨⟨none, none, h₁⟩, ?_, hi₁, ?_, (fun r' hr' => by cases hr'), fun _ => ?_⟩
      · rw [hsys, if_neg hfull]
      · intro r' hr'
        obtain ⟨c, hc, hcr⟩ := hheld r' hr'
        by_cases hcb : c = b
        · -- another block is left in the arena of `b`
          have hmore : ¬ LastIn live b := fun hcon => hfull (hlast.mp hcon)
          unfold LastIn at hmore
          push Not at hmore
          obtain ⟨c', hc', hsame, hne⟩ := hmore
          refine ⟨c', (List.mem_erase_of_ne hne).mpr hc', ?_⟩
          rw [hsame, ← hcb, hcr]
        · exact ⟨c, (List.mem_erase_of_ne hcb).mpr hc, hcr⟩
      · exact fun hcon => hfull (hlast.mp hcon)

/-! ### Addresses -/

/-- Blocks at different addresses do not overlap. -/
theorem BlockInv.isBlock_apart (hi : BlockInv o h live runs) {b c : ℕ × ℕ} (hb : IsBlock o h runs b)
    (hc : IsBlock o h runs c) (hne : b.1 ≠ c.1) : b.1 + b.2 ≤ c.1 ∨ c.1 + c.2 ≤ b.1 := by
  obtain ⟨r, hr, hstart, hlow, hhigh⟩ := hi.block_run hb
  obtain ⟨r', hr', hstart', hlow', hhigh'⟩ := hi.block_run hc
  by_cases hrun : r = r'
  · subst hrun
    rcases hb with ⟨n, a, hl, hptr, -⟩ | ⟨i, a, ha, hx, hsize⟩
    · -- both would be the large block of the run
      have ha : block2arena b.1 = a := by
        rw [hptr]
        exact block2arena_of_lt (hi.run _ hl.mem).1.aligned (by decide)
      rcases hc with ⟨n', a', hl', hptr', -⟩ | ⟨i', a', ha', hx', -⟩
      · have ha' : block2arena c.1 = a' := by
          rw [hptr']
          exact block2arena_of_lt (hi.run _ hl'.mem).1.aligned (by decide)
        refine absurd ?_ hne
        rw [hptr, hptr', ← ha, ← ha', ← hstart, ← hstart']
      · have heq : a' = a := by
          rw [← hi.block2arena_eq ha' hx', ← ha, ← hstart, ← hstart']
        have hdesc := ha'.desc
        rw [heq, hl.arena] at hdesc
        cases hdesc
    · have hpage := hi.block2arena_eq ha hx
      rcases hc with ⟨n', a', hl', hptr', -⟩ | ⟨i', a', ha', hx', hsize'⟩
      · have ha' : block2arena c.1 = a' := by
          rw [hptr']
          exact block2arena_of_lt (hi.run _ hl'.mem).1.aligned (by decide)
        have heq : a = a' := by
          rw [← hpage, ← ha', ← hstart, ← hstart']
        have hdesc := ha.desc
        rw [heq, hl'.arena] at hdesc
        cases hdesc
      · have heq : a' = a := by
          rw [← hi.block2arena_eq ha' hx', ← hpage, ← hstart, ← hstart']
        subst heq
        obtain rfl := ha.inj ha'
        obtain ⟨j, -, hj⟩ := mem_arenaBlocks.mp hx
        obtain ⟨j', -, hj'⟩ := mem_arenaBlocks.mp hx'
        rw [← hj, ← hj'] at hne ⊢
        have hjj : j ≠ j' := fun hcon => hne (by rw [hcon])
        simp only [arena2block]
        rcases Nat.lt_or_gt_of_ne hjj with hlt | hgt
        · have hmul := Nat.mul_le_mul_right (blockSize i) hlt
          rw [Nat.succ_mul] at hmul
          exact Or.inl (by omega)
        · have hmul := Nat.mul_le_mul_right (blockSize i) hgt
          rw [Nat.succ_mul] at hmul
          exact Or.inr (by omega)
  · rcases hi.apart_of_ne hr hr' hrun with hle | hle
    · exact Or.inl (by omega)
    · exact Or.inr (by omega)

/-- A block does not overlap the header of a run. -/
theorem BlockInv.isBlock_header (hi : BlockInv o h live runs) {b r : ℕ × ℕ} (hb : IsBlock o h runs b)
    (hr : r ∈ runs) : r.1 + arenaSize ≤ b.1 ∨ b.1 + b.2 ≤ r.1 := by
  obtain ⟨r', hr', -, hlow, hhigh⟩ := hi.block_run hb
  by_cases hrun : r = r'
  · rw [hrun]
    exact Or.inl hlow
  · have hsize : arenaSize ≤ r.2 * pgSize :=
      calc arenaSize ≤ pgSize := by decide
        _ ≤ r.2 * pgSize := Nat.le_mul_of_pos_left _ (hi.run r hr).2
    rcases hi.apart_of_ne hr hr' hrun with hle | hle
    · exact Or.inl (by omega)
    · exact Or.inr (by omega)

/-- The owner writes into its blocks only. -/
theorem BlockInv.store (hi : BlockInv o h live runs) {a : ℕ} (arena : Arena) {b : ℕ × ℕ}
    (hb : b ∈ live) (hlow : b.1 < a + arenaSize) (hhigh : a < b.1 + b.2) :
    BlockInv o (h.setArena a arena) live runs := by
  have hne : ∀ r ∈ runs, r.1 ≠ a := by
    rintro r hr rfl
    rcases hi.isBlock_header (hi.block b hb) hr with hle | hle <;> omega
  have heq : ∀ r ∈ runs, (h.setArena a arena).arena r.1 = h.arena r.1 := fun r hr =>
    BlockHeap.setArena_arena_of_ne _ _ (hne r hr)
  have hk : SameKinds h (h.setArena a arena) runs := SameKinds.of_eq heq
  refine ⟨hi.run, hi.apart, hk.kind hi, fun c hc => hk.isBlock (hi.block c hc), hi.nodup,
    fun i x => ?_, hi.free_nodup, fun i a' ha' => ?_⟩
  · simp only [hk.isArena]
    exact hi.free i x
  · have ha := hk.isArena.mp ha'
    rw [heq _ ha.mem]
    exact hi.cnt i a' ha

end Invariant

/-! ## The allocator is sound -/

namespace HeapSystem

variable {o : Owner} {s s' : HeapSystem}

/-- What the allocator promises in a state. -/
structure Sound (o : Owner) (s : HeapSystem) : Prop where
  disjoint : s.live.Pairwise fun b c => b.1 + b.2 ≤ c.1 ∨ c.1 + c.2 ≤ b.1
  inside : ∀ b ∈ s.live, ∃ r ∈ s.runs, r.1 ≤ b.1 ∧ b.1 + b.2 ≤ r.1 + r.2 * pgSize
  headers : ∀ b ∈ s.live, ∀ r ∈ s.runs, r.1 + arenaSize ≤ b.1 ∨ b.1 + b.2 ≤ r.1
  /-- The nodes of the free lists, which lie in the free blocks, are safe too. -/
  nodes : ∀ b ∈ s.live, ∀ i, ∀ x ∈ s.heap.freeList (o.descs, i),
    b.1 + b.2 ≤ x ∨ x + blockSize i ≤ b.1
  free : ∀ i x, x ∈ s.heap.freeList (o.descs, i) ↔
    ∃ a, IsArena o s.heap s.runs i a ∧ x ∈ arenaBlocks a i ∧ x ∉ s.ptrs
  once : ∀ i, (s.heap.freeList (o.descs, i)).Nodup
  cnt : ∀ i a, IsArena o s.heap s.runs i a →
    (s.heap.arena a).cnt = (freeIn (s.heap.freeList (o.descs, i)) a).length
  /-- `sys_free` succeeds, and gives the pages of the block back if no other block in use
  lies in them. -/
  returned : ∀ b ∈ s.live, ∃ res, s.heap.sysFree o b.1 = some res ∧
    (∀ r ∈ res.pages, r ∈ s.runs ∧ r.1 = block2arena b.1) ∧
    (res.pages ≠ none ↔ LastIn s.live b)
  /-- `sys_malloc` succeeds or returns `NULL`. -/
  taken : ∀ size page,
    (∀ a ∈ page, IsRun o (a, pagesFor size) ∧ ∀ r ∈ s.runs, Apart (a, pagesFor size) r) →
    (s.heap.sysMalloc o size page).isSome

/-- The invariant along a run. -/
def Inv (o : Owner) (s : HeapSystem) : Prop := BlockInv o s.heap s.live s.runs ∧ AllHeld s.live s.runs

theorem Start.inv (hs : s.Start o) : s.Inv o := by
  obtain ⟨hlive, hruns, hfree⟩ := hs
  unfold Inv
  rw [hlive, hruns]
  have hno : ∀ i a, ¬ IsArena o s.heap [] i a := fun i a ha => List.not_mem_nil ha.mem
  refine ⟨⟨fun r hr => absurd hr List.not_mem_nil, List.Pairwise.nil,
    fun r hr => absurd hr List.not_mem_nil, fun b hb => absurd hb List.not_mem_nil, List.nodup_nil,
    fun i x => ?_, fun i => ?_, fun i a ha => absurd ha (hno i a)⟩,
    fun r hr => absurd hr List.not_mem_nil⟩
  · rw [hfree i]
    refine ⟨fun hx => absurd hx List.not_mem_nil, ?_⟩
    rintro ⟨a, ha, -⟩
    exact absurd ha (hno i a)
  · rw [hfree i]
    exact List.nodup_nil

theorem Inv.step {e : HeapEvent} (hi : s.Inv o) (hs : s.Step o e s') : s'.Inv o := by
  obtain ⟨hinv, hheld⟩ := hi
  cases e with
  | malloc size page =>
      obtain ⟨-, hfresh, res, hres, rfl⟩ := hs
      obtain ⟨res', hres', hinv', hheld'⟩ := hinv.sysMalloc hheld size page hfresh
      rw [hres, Option.some.injEq] at hres'
      rw [hres']
      exact ⟨hinv', hheld'⟩
  | free ptr =>
      obtain ⟨size, hmem, res, hres, rfl⟩ := hs
      obtain ⟨res', hres', hinv', hheld', -⟩ := hinv.sysFree hheld hmem
      rw [hres, Option.some.injEq] at hres'
      rw [hres']
      exact ⟨hinv', hheld'⟩
  | store a arena =>
      obtain ⟨-, ⟨b, hb, hlow, hhigh⟩, rfl⟩ := hs
      exact ⟨hinv.store arena hb hlow hhigh, hheld⟩

theorem Inv.sound (hi : s.Inv o) : s.Sound o := by
  obtain ⟨hinv, hheld⟩ := hi
  refine ⟨?_, fun b hb => ?_, fun b hb r hr => hinv.isBlock_header (hinv.block b hb) hr,
    fun b hb i x hx => ?_, hinv.free, hinv.free_nodup, hinv.cnt, fun b hb => ?_,
    fun size page hfresh => ?_⟩
  · have hne : s.live.Pairwise fun b c => b.1 ≠ c.1 := List.pairwise_map.mp hinv.nodup
    exact hne.imp_of_mem fun hb hc hbc =>
      hinv.isBlock_apart (hinv.block _ hb) (hinv.block _ hc) hbc
  · obtain ⟨r, hr, -, hlow, hhigh⟩ := hinv.block_run (hinv.block b hb)
    exact ⟨r, hr, by omega, hhigh⟩
  · obtain ⟨a, ha, hxa, hnot⟩ := (hinv.free i x).mp hx
    have hfree : IsBlock o s.heap s.runs (x, blockSize i) := Or.inr ⟨i, a, ha, hxa, le_refl _⟩
    refine hinv.isBlock_apart (hinv.block b hb) hfree ?_
    rintro rfl
    exact hnot (List.mem_map_of_mem hb)
  · obtain ⟨res, hres, -, -, hpages, hnone⟩ := hinv.sysFree hheld hb
    refine ⟨res, hres, fun r hr => ⟨(hpages r hr).1, (hpages r hr).2.1⟩, fun hne => ?_, fun hlast hcon =>
      hnone hcon hlast⟩
    obtain ⟨r, hr⟩ := Option.ne_none_iff_exists'.mp hne
    exact (hpages r hr).2.2
  · obtain ⟨res, hres, -⟩ := hinv.sysMalloc hheld size page hfresh
    rw [hres]
    rfl

end HeapSystem

/-- Whatever calls an owner makes and whatever fresh pages `malloc_page` returns, the
allocator is sound. -/
theorem heap_sound (o : Owner) (s : HeapSystem)
    (hs : Reachable (HeapSystem.Start o) (HeapSystem.Step o) (fun _ _ => True) s) : s.Sound o := by
  have hinv : s.Inv o :=
    hs.invariant (HeapSystem.Inv o) (fun _ hstart => hstart.inv) (fun _ _ _ hi _ hstep => hi.step hstep)
  exact hinv.sound

/-- A kernel thread before its first call. -/
def kernelHeap : HeapSystem := ⟨⟨fun _ => default, fun _ => []⟩, [], []⟩

/-- A kernel thread asks for 1000 bytes and gets the first of three blocks of a new
arena. -/
theorem heap_sound_after_malloc :
    ∃ s, Reachable (HeapSystem.Start ⟨true, 0, 3840⟩) (HeapSystem.Step ⟨true, 0, 3840⟩)
        (fun _ _ => True) s ∧
      s.live = [(0xc010000c, 1000)] ∧ s.heap.freeList (0, 6) = [0xc010040c, 0xc010080c] ∧
      s.Sound ⟨true, 0, 3840⟩ := by
  have hcall : (kernelHeap.heap.sysMalloc ⟨true, 0, 3840⟩ 1000 (some 0xc0100000)).map
      (fun res => (res.ptr, res.pages, res.heap.freeList (0, 6))) =
        some (some 0xc010000c, some (0xc0100000, 1), [0xc010040c, 0xc010080c]) := by
    decide +kernel
  obtain ⟨res, hres, hparts⟩ := Option.map_eq_some_iff.mp hcall
  simp only [Prod.mk.injEq] at hparts
  obtain ⟨hptr, hpages, hlist⟩ := hparts
  have hrun : IsRun ⟨true, 0, 3840⟩ (0xc0100000, pagesFor 1000) :=
    ⟨by decide, by decide, fun _ => by decide, by decide⟩
  have hreach : Reachable (HeapSystem.Start ⟨true, 0, 3840⟩) (HeapSystem.Step ⟨true, 0, 3840⟩)
      (fun _ _ => True) ⟨res.heap, [(0xc010000c, 1000)], [(0xc0100000, 1)]⟩ := by
    refine .next (i := .malloc 1000 (some 0xc0100000)) (.start (s := kernelHeap) ⟨rfl, rfl, fun _ => rfl⟩)
      trivial ⟨by decide, fun a ha => ?_, res, hres, ?_⟩
    · obtain rfl := Option.some.inj ha
      exact ⟨hrun, fun r hr => absurd hr List.not_mem_nil⟩
    · rw [hptr, hpages]
      rfl
  exact ⟨_, hreach, rfl, hlist, heap_sound _ _ hreach⟩

end BochsOs
