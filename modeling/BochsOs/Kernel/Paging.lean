import BochsOs.Kernel.Malloc

/-!
# Pages and frames

The part of `kernel/memory.c` below the heaps: the pools of frames, the bitmap of kernel
pages, the page tables, and `malloc_page` and `mfree_page` on top of them.  The page tables
of the kernel half exist from the boot on and are shared by all address spaces; those of a
process are made on demand, from frames of the kernel pool.

`Memory` adds this state to that of `BochsOs.Kernel.State`.  The locks of the pools are free
between two calls and are left out.
-/

namespace BochsOs

open Suspend Suspend.Prog

/-! ## The state -/

/-- `enum pool_flags`. -/
inductive PoolFlags where
  | kernel
  | user
  deriving DecidableEq

/-- `struct pool`, less its lock. -/
structure Pool where
  poolBitmap : Bitmap
  phyAddrStart : ℕ
  /-- `pool_size` in pages, a `uint16_t` in `mem_pool_init`. -/
  freePages : UInt16
  deriving Inhabited

/-- An entry of a page directory or a page table: a frame and the bit `PG_P_1`. -/
structure Entry where
  frame : ℕ
  present : Bool
  deriving Inhabited, DecidableEq

/-- Where the memory of a process lies. -/
structure AddrSpace where
  /-- The page of its control block. -/
  pcb : ℕ
  pgdir : ℕ
  /-- `userprog_vaddr.vaddr_bitmap.bits`. -/
  bitmapPages : ℕ
  /-- `userprog_vaddr.vaddr_bitmap`, with the bytes found there. -/
  vaddrBitmap : Bitmap
  deriving Inhabited

/-- The kernel and its memory. -/
structure Memory where
  kernel : Kernel
  kernelPool : Pool
  userPool : Pool
  /-- `kernel_vaddr.vaddr_bitmap`. -/
  kernelVaddr : Bitmap
  /-- The page tables of the kernel half: the entry of a page. -/
  kernelTable : ℕ → Entry
  /-- The user half of the page directory in the page `pgdir`. -/
  pageDir : ℕ → ℕ → Entry
  /-- The page table in a frame. -/
  pageTable : ℕ → ℕ → Entry
  /-- The page directory that `page_dir_activate` loaded last. -/
  cr3 : ℕ
  spaces : ℕ → AddrSpace
  /-- The headers found in the pages of a process. -/
  arenas : ℕ → ℕ → Arena
  /-- `u_block_desc[i].free_list` of a process. -/
  freeLists : ℕ × ℕ → List ℕ
  /-- The kernel heap. -/
  kernelHeap : BlockHeap
  /-- The block of the kernel heap that an open inode lies in. -/
  inodeBlock : ℕ → ℕ
  mainThread : ℕ

/-- Code that does not touch the memory. -/
def Memory.onKernel {α : Type} (x : Prog Kernel α) : Prog Memory α :=
  x.focus Memory.kernel fun k m => { m with kernel := k }

namespace Memory

theorem wp_onKernel {α : Type} {x : Prog Kernel α} {Q : α → Memory → Prop} {m : Memory} :
    (onKernel x).wp Q m ↔ x.wp (fun a k => Q a { m with kernel := k }) m.kernel := by
  unfold onKernel
  refine wp_focus ?_ ?_ ?_
  · exact fun _ _ => rfl
  · exact fun _ _ _ => rfl
  · exact fun _ => rfl

variable (m : Memory)

/-- The pool that `pf` selects. -/
def pool : PoolFlags → Pool
  | .kernel => m.kernelPool
  | .user => m.userPool

/-- Overwrite the bitmap of a pool. -/
def setPool (pf : PoolFlags) (btmp : Bitmap) : Memory :=
  match pf with
  | .kernel => { m with kernelPool := { m.kernelPool with poolBitmap := btmp } }
  | .user => { m with userPool := { m.userPool with poolBitmap := btmp } }

/-- Overwrite what is known of the address space of a process. -/
def setSpace (p : ℕ) (space : AddrSpace) : Memory :=
  { m with spaces := Function.update m.spaces p space }

/-! ## Page tables -/

/-- The first address of the kernel half. -/
def kernelBase : ℕ := 0xc0000000

/-- `PDE_IDX`. -/
def pdeIdx (vaddr : ℕ) : ℕ := vaddr / 2 ^ 22

/-- `PTE_IDX`. -/
def pteIdx (vaddr : ℕ) : ℕ := vaddr / pgSize % 1024

/-- The entry of the page directory in use for a user address. -/
def pde (vaddr : ℕ) : Entry := m.pageDir m.cr3 (pdeIdx vaddr)

/-- The entry of a page, if it has a page table. -/
def pte (vaddr : ℕ) : Option Entry :=
  if kernelBase ≤ vaddr then some (m.kernelTable (vaddr / pgSize))
  else if (m.pde vaddr).present then some (m.pageTable (m.pde vaddr).frame (pteIdx vaddr))
  else none

/-- Overwrite the entry of a page that has a page table. -/
def setPte (vaddr : ℕ) (entry : Entry) : Memory :=
  if kernelBase ≤ vaddr then
    { m with kernelTable := Function.update m.kernelTable (vaddr / pgSize) entry }
  else
    let table := (m.pde vaddr).frame
    { m with
      pageTable := Function.update m.pageTable table
        (Function.update (m.pageTable table) (pteIdx vaddr) entry) }

/-- Give a user address a page table in the frame `table`, which is cleared. -/
def setPde (vaddr table : ℕ) : Memory :=
  { m with
    pageDir := Function.update m.pageDir m.cr3
      (Function.update (m.pageDir m.cr3) (pdeIdx vaddr) ⟨table, true⟩)
    pageTable := Function.update m.pageTable table fun _ => ⟨0, false⟩ }

end Memory

/-- An access to a page that is not present is a page fault. -/
def touch (vaddr : ℕ) : Prog Memory Unit := do
  let m ← read
  match m.pte vaddr with
  | none => stop .undefined
  | some pte => if pte.present then return () else stop .undefined

/-- `palloc`. -/
def palloc (pf : PoolFlags) : Prog Memory (Option ℕ) := do
  let m ← read
  match bitmapScan (m.pool pf).poolBitmap 1 with
  | none => return none
  | some bitIdx =>
      write (m.setPool pf (bitmapSet (m.pool pf).poolBitmap bitIdx true))
      return some (bitIdx * pgSize + (m.pool pf).phyAddrStart)

/-- `page_table_add`.  The result of `palloc` for a new page table is not checked. -/
def pageTableAdd (vaddr frame : ℕ) : Prog Memory Unit := do
  let m ← read
  match m.pte vaddr with
  | some pte =>
      assert (!pte.present)
      write (m.setPte vaddr ⟨frame, true⟩)
  | none =>
      let table ← palloc .kernel
      modify fun m => m.setPde vaddr (table.getD 0)
      modify fun m => m.setPte vaddr ⟨frame, true⟩

/-! ## Taking pages -/

namespace Paging

open Memory

/-- `vaddr_get`. -/
def vaddrGet (pf : PoolFlags) (pgCnt : ℕ) : Prog Memory (Option ℕ) := do
  let m ← read
  match pf with
  | .kernel =>
      match bitmapScan m.kernelVaddr pgCnt with
      | none => return none
      | some start =>
          write { m with kernelVaddr := setBits m.kernelVaddr start true pgCnt }
          return some (kHeapStart + start * pgSize)
  | .user =>
      let space := m.spaces m.kernel.running
      match bitmapScan space.vaddrBitmap pgCnt with
      | none => return none
      | some start =>
          write (m.setSpace m.kernel.running
            { space with vaddrBitmap := setBits space.vaddrBitmap start true pgCnt })
          let vaddrStart := userVaddrStart + start * pgSize
          assert (vaddrStart < 0xc0000000 - pgSize)
          return some vaddrStart

/-- The loop of `malloc_page`: a frame for each of `cnt` pages from `vaddr` on. -/
def mapPages (pf : PoolFlags) : (vaddr cnt : ℕ) → Prog Memory Bool
  | _, 0 => return true
  | vaddr, cnt + 1 => do
      match ← palloc pf with
      | none => return false
      | some frame =>
          pageTableAdd vaddr frame
          mapPages pf (vaddr + pgSize) cnt

/-- `malloc_page`.  When the frames run out, what was taken stays taken. -/
def mallocPage (pf : PoolFlags) (pgCnt : ℕ) : Prog Memory (Option ℕ) := do
  assert (0 < pgCnt ∧ pgCnt < 3840)
  match ← vaddrGet pf pgCnt with
  | none => return none
  | some vaddrStart => if ← mapPages pf vaddrStart pgCnt then return some vaddrStart else return none

/-- `get_kernel_pages`. -/
def getKernelPages (pgCnt : ℕ) : Prog Memory (Option ℕ) := mallocPage .kernel pgCnt

/-- `get_a_page_without_opvaddrbitmap`. -/
def getAPageWithoutOpvaddrbitmap (pf : PoolFlags) (vaddr : ℕ) : Prog Memory (Option ℕ) := do
  match ← palloc pf with
  | none => return none
  | some frame =>
      pageTableAdd vaddr frame
      return some vaddr

/-! ## Giving pages back -/

/-- `addr_v2p` of the start of a page.  It reads the frame also when the page is not
present. -/
def addrV2p (vaddr : ℕ) : Prog Memory ℕ := do
  let m ← read
  match m.pte vaddr with
  | none => stop .undefined
  | some pte => return pte.frame

/-- `pfree`. -/
def pfree (frame : ℕ) : Prog Memory Unit :=
  modify fun m =>
    if m.userPool.phyAddrStart ≤ frame then
      m.setPool .user (bitmapSet m.userPool.poolBitmap
        (subU32 frame m.userPool.phyAddrStart / pgSize) false)
    else
      m.setPool .kernel (bitmapSet m.kernelPool.poolBitmap
        (subU32 frame m.kernelPool.phyAddrStart / pgSize) false)

/-- `free_a_phy_page`, the same code as `pfree`. -/
def freeAPhyPage (frame : ℕ) : Prog Memory Unit := pfree frame

/-- `page_table_pte_remove`. -/
def pageTablePteRemove (vaddr : ℕ) : Prog Memory Unit := do
  let m ← read
  match m.pte vaddr with
  | none => stop .undefined
  | some pte => write (m.setPte vaddr { pte with present := false })

/-- The bit of a kernel page. -/
def kernelBit (vaddr : ℕ) : ℕ := subU32 vaddr kHeapStart / pgSize

/-- `vaddr_remove`. -/
def vaddrRemove (pf : PoolFlags) (vaddr pgCnt : ℕ) : Prog Memory Unit :=
  modify fun m =>
    match pf with
    | .kernel => { m with kernelVaddr := setBits m.kernelVaddr (kernelBit vaddr) false pgCnt }
    | .user =>
        let space := m.spaces m.kernel.running
        m.setSpace m.kernel.running
          { space with
            vaddrBitmap := setBits space.vaddrBitmap
              (subU32 vaddr userVaddrStart / pgSize) false pgCnt }

/-- The two loops of `mfree_page`; `user` tells whose frames they expect. -/
def unmapPages (user : Bool) : (vaddr pgCnt : ℕ) → Prog Memory Unit
  | _, 0 => return ()
  | vaddr, pgCnt + 1 => do
      let frame ← addrV2p vaddr
      let m ← read
      assert (frame % pgSize = 0 ∧
        if user then m.userPool.phyAddrStart ≤ frame
        else m.kernelPool.phyAddrStart ≤ frame ∧ frame < m.userPool.phyAddrStart)
      pfree frame
      pageTablePteRemove vaddr
      unmapPages user (vaddr + pgSize) pgCnt

/-- `mfree_page`. -/
def mfreePage (pf : PoolFlags) (vaddr pgCnt : ℕ) : Prog Memory Unit := do
  assert (1 ≤ pgCnt ∧ vaddr % pgSize = 0)
  let frame ← addrV2p vaddr
  assert (frame % pgSize = 0 ∧ 0x102000 ≤ frame)
  let m ← read
  unmapPages (m.userPool.phyAddrStart ≤ frame) vaddr pgCnt
  vaddrRemove pf vaddr pgCnt

/-! ## The heaps -/

/-- The heap of a process. -/
def heapOf (m : Memory) (p : ℕ) : BlockHeap := ⟨m.arenas p, m.freeLists⟩

/-- Overwrite the heap of a process. -/
def setHeap (m : Memory) (p : ℕ) (h : BlockHeap) : Memory :=
  { m with arenas := Function.update m.arenas p h.arena, freeLists := h.freeList }

/-- Whether `sys_malloc` calls `malloc_page`. -/
def asksPages (h : BlockHeap) (o : Owner) (size : ℕ) : Bool :=
  0 < size ∧ size < o.poolSize ∧
    (1024 < size ∨ ∀ i ∈ (List.range descCnt).find? fun i => size ≤ blockSize i,
      h.freeList (o.descs, i) = [])

/-- `sys_malloc`, called by a process. -/
def sysMalloc (size : ℕ) : Prog Memory (Option ℕ) := do
  let m ← read
  let p := m.kernel.running
  let o : Owner := ⟨false, p, m.userPool.freePages⟩
  let page ← if asksPages (heapOf m p) o size then mallocPage .user (pagesFor size) else pure none
  let m ← read
  match (heapOf m p).sysMalloc o size page with
  | none => stop .halt
  | some res =>
      write (setHeap m p res.heap)
      return res.ptr

/-- `sys_free`, called by a process. -/
def sysFree (ptr : ℕ) : Prog Memory Unit := do
  touch (block2arena ptr)
  let m ← read
  let p := m.kernel.running
  match (heapOf m p).sysFree ⟨false, p, m.userPool.freePages⟩ ptr with
  | none => stop .halt
  | some res =>
      write (setHeap m p res.heap)
      match res.pages with
      | none => return ()
      | some (a, pgCnt) => mfreePage .user a pgCnt

/-- `sys_free` of a block of the kernel heap. -/
def sysFreeKernel (ptr : ℕ) : Prog Memory Unit := do
  let m ← read
  match m.kernelHeap.sysFree ⟨true, 0, m.kernelPool.freePages⟩ ptr with
  | none => stop .halt
  | some res =>
      write { m with kernelHeap := res.heap }
      match res.pages with
      | none => return ()
      | some (a, pgCnt) => mfreePage .kernel a pgCnt

/-! ## Frames of the kernel pool -/

section Frames

variable {m m' : Memory}

/-- The bit of the kernel pool that `pfree` of a frame clears. -/
def kernelFrame (m : Memory) (frame : ℕ) : Option ℕ :=
  if m.userPool.phyAddrStart ≤ frame then none
  else some (subU32 frame m.kernelPool.phyAddrStart / pgSize)

/-- The kernel pool starts above address 0 and ends below 4 GiB. -/
structure Layout (m : Memory) : Prop where
  pos : 0 < m.kernelPool.phyAddrStart
  fits : m.kernelPool.phyAddrStart + 8 * m.kernelPool.poolBitmap.btmpBytesLen * pgSize ≤ 2 ^ 32

/-- `palloc` takes a frame whose bit is clear, if there is one. -/
theorem palloc_spec {pf : PoolFlags} :
    (palloc pf).wp (fun r m' => r = none ∧ m' = m ∨
      ∃ i < 8 * (m.pool pf).poolBitmap.btmpBytesLen, (m.pool pf).poolBitmap.bit i = false ∧
        r = some (i * pgSize + (m.pool pf).phyAddrStart) ∧
        m' = m.setPool pf (bitmapSet (m.pool pf).poolBitmap i true)) m := by
  simp only [palloc, wp_bind, wp_read]
  cases hscan : bitmapScan (m.pool pf).poolBitmap 1 with
  | none => exact Or.inl ⟨rfl, rfl⟩
  | some i =>
      obtain ⟨hlt, hclear⟩ := bit_of_bitmapScan_one hscan
      exact Or.inr ⟨i, by omega, hclear, rfl, rfl⟩

/-- Giving back a frame of the user pool leaves the kernel pool alone. -/
theorem kernelFrame_user {i : ℕ} : kernelFrame m (i * pgSize + m.userPool.phyAddrStart) = none :=
  if_pos (Nat.le_add_left _ _)

/-- A frame of the kernel pool has the bit it was taken with. -/
theorem kernelFrame_kernel {i y : ℕ}
    (hy : kernelFrame m (i * pgSize + m.kernelPool.phyAddrStart) = some y) : y = i := by
  unfold kernelFrame at hy
  split at hy
  · cases hy
  · rw [subU32_of_le (Nat.le_add_left _ _), Nat.add_sub_cancel,
      Nat.mul_div_cancel _ (by decide : 0 < pgSize)] at hy
    exact (Option.some_injective _ hy).symm

/-- Frame 0 has no bit in the kernel pool. -/
theorem kernelFrame_zero (hl : Layout m) {y : ℕ} (hy : y < 8 * m.kernelPool.poolBitmap.btmpBytesLen) :
    kernelFrame m 0 ≠ some y := by
  have hpos := hl.pos
  have hfits := hl.fits
  unfold kernelFrame
  split
  · exact fun h => by cases h
  · rw [subU32, if_neg (by omega)]
    intro h
    have hdiv := Option.some_injective _ h
    have hlt : (2 ^ 32 - m.kernelPool.phyAddrStart) / pgSize < 8 * m.kernelPool.poolBitmap.btmpBytesLen := by
      rw [Nat.sub_zero] at hdiv
      omega
    rw [Nat.div_lt_iff_lt_mul (by decide)] at hlt
    omega

end Frames

/-! ## Taking kernel pages -/

section Kernel

variable {m m' m'' : Memory}

theorem pte_kernel {vaddr : ℕ} (hv : kernelBase ≤ vaddr) :
    m.pte vaddr = some (m.kernelTable (vaddr / pgSize)) := if_pos hv

theorem setPte_kernel {vaddr : ℕ} (hv : kernelBase ≤ vaddr) (entry : Entry) :
    m.setPte vaddr entry =
      { m with kernelTable := Function.update m.kernelTable (vaddr / pgSize) entry } := if_pos hv

/-- The entry `e` points to a frame that was free in `m` and is taken in `m'`, if it is one of
the kernel pool. -/
def NewFrame (m m' : Memory) (e : Entry) : Prop :=
  ∀ y, kernelFrame m' e.frame = some y →
    m.kernelPool.poolBitmap.bit y = false ∧ m'.kernelPool.poolBitmap.bit y = true

/-- From `m` to `m'` some of the `n` kernel pages from number `first` on got new frames. -/
structure Maps (first n : ℕ) (m m' : Memory) : Prop where
  rest : m' = { m with kernelPool := m'.kernelPool, kernelTable := m'.kernelTable }
  start : m'.kernelPool.phyAddrStart = m.kernelPool.phyAddrStart
  len : m'.kernelPool.poolBitmap.btmpBytesLen = m.kernelPool.poolBitmap.btmpBytesLen
  pool : ∀ y, m.kernelPool.poolBitmap.bit y = true → m'.kernelPool.poolBitmap.bit y = true
  entry : ∀ j, m'.kernelTable j = m.kernelTable j ∨
    (first ≤ j ∧ j < first + n ∧ NewFrame m m' (m'.kernelTable j))

theorem Maps.refl (first n : ℕ) (m : Memory) : Maps first n m m :=
  ⟨rfl, rfl, rfl, fun _ h => h, fun _ => Or.inl rfl⟩

theorem Maps.kernelFrame_eq {first n : ℕ} (h : Maps first n m m') :
    kernelFrame m' = kernelFrame m := by
  have huser : m'.userPool = m.userPool := by rw [h.rest]
  funext frame
  simp only [kernelFrame, h.start, huser]

theorem NewFrame.trans {first n : ℕ} {e : Entry} (h : NewFrame m' m'' e)
    (hmap : Maps first n m m') : NewFrame m m'' e := by
  intro y hy
  obtain ⟨hclear, hset⟩ := h y hy
  refine ⟨?_, hset⟩
  by_contra hne
  rw [hmap.pool y (by simpa using hne)] at hclear
  cases hclear

theorem NewFrame.later {first n : ℕ} {e : Entry} (h : NewFrame m m' e) (hmap : Maps first n m' m'') :
    NewFrame m m'' e := by
  intro y hy
  rw [hmap.kernelFrame_eq] at hy
  exact ⟨(h y hy).1, hmap.pool y (h y hy).2⟩

/-- One page, then the others. -/
theorem Maps.cons {first n : ℕ} (h : Maps first 1 m m') (h' : Maps (first + 1) n m' m'') :
    Maps first (n + 1) m m'' where
  rest := by
    rw [h'.rest, h.rest]
  start := h'.start.trans h.start
  len := h'.len.trans h.len
  pool y hy := h'.pool y (h.pool y hy)
  entry j := by
    rcases h'.entry j with heq | ⟨hlow, hhigh, hnew⟩
    · rw [heq]
      refine (h.entry j).imp_right fun ⟨hlow, hhigh, hnew⟩ => ⟨hlow, by omega, hnew.later h'⟩
    · exact Or.inr ⟨by omega, by omega, hnew.trans h⟩

/-- The page at `vaddr` gets the frame `i`. -/
theorem maps_one (vaddr : ℕ) {i : ℕ} (hclear : m.kernelPool.poolBitmap.bit i = false) :
    Maps (vaddr / pgSize) 1 m
      { m.setPool .kernel (bitmapSet m.kernelPool.poolBitmap i true) with
        kernelTable := Function.update m.kernelTable (vaddr / pgSize)
          ⟨i * pgSize + m.kernelPool.phyAddrStart, true⟩ } where
  rest := rfl
  start := rfl
  len := rfl
  pool y hy := by
    change (bitmapSet m.kernelPool.poolBitmap i true).bit y = true
    rw [bit_bitmapSet]
    split
    · rfl
    · exact hy
  entry j := by
    by_cases hj : j = vaddr / pgSize
    · refine Or.inr ⟨hj.ge, by omega, fun y hy => ?_⟩
      change kernelFrame m (Function.update m.kernelTable (vaddr / pgSize) _ j).frame = some y at hy
      rw [hj, Function.update_self] at hy
      rw [kernelFrame_kernel hy]
      refine ⟨hclear, ?_⟩
      change (bitmapSet m.kernelPool.poolBitmap i true).bit i = true
      rw [bit_bitmapSet, if_pos rfl]
    · exact Or.inl (Function.update_of_ne hj _ _)

/-- The frames that `malloc_page` maps to `n` kernel pages are new; the last of them is not
the frame of any other page that it maps. -/
structure MapsAll (first n : ℕ) (m m' : Memory) : Prop extends Maps first n m m' where
  new : ∀ c < n, NewFrame m m' (m'.kernelTable (first + c))
  last : 0 < n → ∃ x < 8 * m.kernelPool.poolBitmap.btmpBytesLen,
    m.kernelPool.poolBitmap.bit x = false ∧ m'.kernelPool.poolBitmap.bit x = true ∧
      ∀ c < n - 1, kernelFrame m' (m'.kernelTable (first + c)).frame ≠ some x

theorem mapPages_kernel {vaddr n : ℕ} (hv : kernelBase ≤ vaddr) :
    (mapPages .kernel vaddr n).wp (fun ok m' => Maps (vaddr / pgSize) n m m' ∧
      (ok = true → MapsAll (vaddr / pgSize) n m m')) m := by
  induction n generalizing m vaddr with
  | zero =>
      refine ⟨Maps.refl _ _ m, fun _ => ⟨Maps.refl _ _ m, ?_, ?_⟩⟩
      · exact fun _ h => absurd h (Nat.not_lt_zero _)
      · exact fun h => absurd h (lt_irrefl 0)
  | succ n ih =>
      have hdiv : (vaddr + pgSize) / pgSize = vaddr / pgSize + 1 :=
        Nat.add_div_right _ (by decide)
      simp only [mapPages, wp_bind]
      refine wp_mono palloc_spec ?_
      rintro r m₁ (⟨rfl, rfl⟩ | ⟨i, hi, hclear, rfl, rfl⟩)
      · exact ⟨Maps.refl _ _ _, fun h => by cases h⟩
      · simp only [wp_bind, pageTableAdd, wp_read]
        rw [pte_kernel hv]
        simp only [wp_bind, wp_assert, wp_write]
        rintro -
        rw [setPte_kernel hv]
        have hone := maps_one vaddr hclear
        set m₂ : Memory := { m.setPool .kernel (bitmapSet m.kernelPool.poolBitmap i true) with
          kernelTable := Function.update m.kernelTable (vaddr / pgSize)
            ⟨i * pgSize + m.kernelPool.phyAddrStart, true⟩ } with hm₂
        have hentry : m₂.kernelTable (vaddr / pgSize) =
            ⟨i * pgSize + m.kernelPool.phyAddrStart, true⟩ := Function.update_self _ _ _
        change (mapPages .kernel (vaddr + pgSize) n).wp _ m₂
        refine wp_mono (ih (hv.trans (Nat.le_add_right _ _))) ?_
        rintro ok m₃ ⟨hmaps, hall⟩
        rw [hdiv] at hmaps hall
        refine ⟨hone.cons hmaps, fun hok => ⟨hone.cons hmaps, fun c hc => ?_, fun _ => ?_⟩⟩
        · rcases Nat.eq_zero_or_pos c with rfl | hpos
          · rcases hmaps.entry (vaddr / pgSize) with heq | ⟨hlow, -, -⟩
            · rw [Nat.add_zero, heq]
              rcases hone.entry (vaddr / pgSize) with hsame | ⟨-, -, hnew⟩
              · -- the entry was there already, with this very frame
                intro y hy
                rw [hentry, hmaps.kernelFrame_eq] at hy
                have hyi : y = i := kernelFrame_kernel (m := m₂) hy
                rw [hyi]
                refine ⟨hclear, hmaps.pool i ?_⟩
                change (bitmapSet m.kernelPool.poolBitmap i true).bit i = true
                rw [bit_bitmapSet, if_pos rfl]
              · exact hnew.later hmaps
            · omega
          · have hnew := (hall hok).new (c - 1) (by omega)
            rw [show vaddr / pgSize + 1 + (c - 1) = vaddr / pgSize + c by omega] at hnew
            exact hnew.trans hone
        · rcases Nat.eq_zero_or_pos n with rfl | hpos
          · refine ⟨i, hi, hclear, hmaps.pool i ?_, fun c hc => absurd hc (Nat.not_lt_zero _)⟩
            change (bitmapSet m.kernelPool.poolBitmap i true).bit i = true
            rw [bit_bitmapSet, if_pos rfl]
          · obtain ⟨x, hx, hxclear, hxset, hother⟩ := (hall hok).last hpos
            have hxi : x ≠ i := by
              rintro rfl
              have hset : (bitmapSet m.kernelPool.poolBitmap x true).bit x = true := by
                rw [bit_bitmapSet, if_pos rfl]
              exact absurd (hset.symm.trans hxclear) (by decide)
            refine ⟨x, hx, ?_, hxset, fun c hc => ?_⟩
            · by_contra hne
              rw [hone.pool x (by simpa using hne)] at hxclear
              cases hxclear
            · rcases Nat.eq_zero_or_pos c with rfl | hcpos
              · rcases hmaps.entry (vaddr / pgSize) with heq | ⟨hlow, -, -⟩
                · rw [Nat.add_zero, heq, hentry, hmaps.kernelFrame_eq]
                  intro hy
                  exact hxi (kernelFrame_kernel (m := m₂) hy)
                · omega
              · have := hother (c - 1) (by omega)
                rwa [show vaddr / pgSize + 1 + (c - 1) = vaddr / pgSize + c by omega] at this

/-- From `m` to `m'` kernel pages were taken. -/
structure Takes (m m' : Memory) : Prop where
  rest : m' = { m with
    kernelPool := m'.kernelPool, kernelVaddr := m'.kernelVaddr, kernelTable := m'.kernelTable }
  start : m'.kernelPool.phyAddrStart = m.kernelPool.phyAddrStart
  len : m'.kernelPool.poolBitmap.btmpBytesLen = m.kernelPool.poolBitmap.btmpBytesLen
  pool : ∀ y, m.kernelPool.poolBitmap.bit y = true → m'.kernelPool.poolBitmap.bit y = true
  vaddr : ∀ j, m.kernelVaddr.bit j = true → m'.kernelVaddr.bit j = true
  entry : ∀ j, m'.kernelTable j = m.kernelTable j ∨ NewFrame m m' (m'.kernelTable j)

theorem Takes.refl (m : Memory) : Takes m m :=
  ⟨rfl, rfl, rfl, fun _ h => h, fun _ h => h, fun _ => Or.inl rfl⟩

theorem Takes.kernelFrame_eq (h : Takes m m') : kernelFrame m' = kernelFrame m := by
  have huser : m'.userPool = m.userPool := by rw [h.rest]
  funext frame
  simp only [kernelFrame, h.start, huser]

theorem Takes.layout (h : Takes m m') (hl : Layout m) : Layout m' := by
  refine ⟨?_, ?_⟩
  · rw [h.start]
    exact hl.pos
  · rw [h.start, h.len]
    exact hl.fits

/-- The `n` pages from `v` on were taken. -/
structure Taken (n v : ℕ) (m m' : Memory) : Prop where
  base : kHeapStart ≤ v
  aligned : v % pgSize = 0
  clear : ∀ c < n, m.kernelVaddr.bit (kernelBit v + c) = false
  set : ∀ c < n, m'.kernelVaddr.bit (kernelBit v + c) = true
  new : ∀ c < n, NewFrame m m' (m'.kernelTable (v / pgSize + c))
  last : 0 < n → ∃ x < 8 * m.kernelPool.poolBitmap.btmpBytesLen,
    m.kernelPool.poolBitmap.bit x = false ∧ m'.kernelPool.poolBitmap.bit x = true ∧
      ∀ c < n - 1, kernelFrame m' (m'.kernelTable (v / pgSize + c)).frame ≠ some x
  other : ∀ j, j < v / pgSize ∨ v / pgSize + n ≤ j → m'.kernelTable j = m.kernelTable j

theorem kernelBit_add (start : ℕ) : kernelBit (kHeapStart + start * pgSize) = start := by
  rw [kernelBit, subU32_of_le (Nat.le_add_right _ _), Nat.add_sub_cancel_left,
    Nat.mul_div_cancel _ (by decide : 0 < pgSize)]

theorem kernelBase_le_of_heap {v : ℕ} (hv : kHeapStart ≤ v) : kernelBase ≤ v :=
  le_trans (by decide) hv

theorem getKernelPages_spec (n : ℕ) :
    (getKernelPages n).wp (fun r m' => Takes m m' ∧ ∀ v ∈ r, Taken n v m m') m := by
  simp only [getKernelPages, mallocPage, vaddrGet, wp_bind, wp_assert, wp_read]
  rintro -
  cases hscan : bitmapScan m.kernelVaddr n with
  | none => exact ⟨Takes.refl m, fun _ h => by cases h⟩
  | some start =>
      simp only [wp_bind, wp_write, wp_pure]
      set m₁ : Memory := { m with kernelVaddr := setBits m.kernelVaddr start true n } with hm₁
      have hbase : kernelBase ≤ kHeapStart + start * pgSize :=
        kernelBase_le_of_heap (Nat.le_add_right _ _)
      have hbit (j : ℕ) : m₁.kernelVaddr.bit j =
          if start ≤ j ∧ j < start + n then true else m.kernelVaddr.bit j :=
        bit_setBits m.kernelVaddr start true n j
      refine wp_mono (mapPages_kernel hbase) ?_
      rintro ok m₂ ⟨hmaps, hall⟩
      have hvaddr : m₂.kernelVaddr = m₁.kernelVaddr := by rw [hmaps.rest]
      have htakes : Takes m m₂ := by
        refine ⟨?_, hmaps.start, hmaps.len, hmaps.pool, fun j hj => ?_, fun j => ?_⟩
        · rw [hmaps.rest]
        · rw [hvaddr, hbit]
          split
          · rfl
          · exact hj
        · exact (hmaps.entry j).imp_right fun h => h.2.2
      cases ok with
      | false => exact ⟨htakes, fun _ h => by cases h⟩
      | true =>
          refine ⟨htakes, fun v hv => ?_⟩
          obtain rfl : kHeapStart + start * pgSize = v := Option.some_injective _ hv
          refine ⟨Nat.le_add_right _ _, ?_, fun c hc => ?_, fun c hc => ?_, (hall rfl).new,
            (hall rfl).last, fun j hj => ?_⟩
          · rw [Nat.add_mul_mod_self_right]
            decide
          · rw [kernelBit_add]
            exact bit_of_bitmapScan hscan c hc
          · rw [kernelBit_add, hvaddr, hbit, if_pos (by omega)]
          · refine (hmaps.entry j).resolve_right fun h => ?_
            omega

/-- The page `v` is in use, and so is its frame. -/
structure Held (m : Memory) (v : ℕ) : Prop where
  base : kHeapStart ≤ v
  vaddr : m.kernelVaddr.bit (kernelBit v) = true
  pool : ∀ y, kernelFrame m (m.kernelTable (v / pgSize)).frame = some y →
    m.kernelPool.poolBitmap.bit y = true

theorem Held.takes {v : ℕ} (hv : Held m v) (h : Takes m m') : Held m' v where
  base := hv.base
  vaddr := h.vaddr _ hv.vaddr
  pool y hy := by
    rcases h.entry (v / pgSize) with heq | hnew
    · rw [heq, h.kernelFrame_eq] at hy
      exact h.pool y (hv.pool y hy)
    · exact (hnew y hy).2

theorem kernelBit_page {v : ℕ} (hv : kHeapStart ≤ v) :
    v / pgSize = kHeapStart / pgSize + kernelBit v := by
  rw [kernelBit, subU32_of_le hv]
  simp only [kHeapStart, pgSize] at hv ⊢
  omega

theorem Taken.held {n v c : ℕ} (h : Taken n v m m') (hc : c < n) : Held m' (v + c * pgSize) := by
  have hpage : (v + c * pgSize) / pgSize = v / pgSize + c :=
    Nat.add_mul_div_right _ _ (by decide)
  have hbase : kHeapStart ≤ v + c * pgSize := h.base.trans (Nat.le_add_right _ _)
  refine ⟨hbase, ?_, fun y hy => ?_⟩
  · have hbit : kernelBit (v + c * pgSize) = kernelBit v + c := by
      have h₁ := kernelBit_page h.base
      have h₂ := kernelBit_page hbase
      omega
    rw [hbit]
    exact h.set c hc
  · rw [hpage] at hy
    exact (h.new c hc y hy).2

/-- Taking pages leaves the pages in use alone. -/
theorem Held.entry_eq {n v w : ℕ} (hw : Held m w) (h : Taken n v m m') :
    m'.kernelTable (w / pgSize) = m.kernelTable (w / pgSize) := by
  refine h.other _ ?_
  by_contra hin
  have h₁ := kernelBit_page h.base
  have h₂ := kernelBit_page hw.base
  have hclear := h.clear (w / pgSize - v / pgSize) (by omega)
  rw [show kernelBit v + (w / pgSize - v / pgSize) = kernelBit w by omega, hw.vaddr] at hclear
  cases hclear

/-- A page in use does not have a frame that is taken later. -/
theorem Held.ne_new {n v w x : ℕ} (hw : Held m w) (ht : Takes m m') (h : Taken n v m m')
    (hx : m.kernelPool.poolBitmap.bit x = false) :
    kernelFrame m' (m'.kernelTable (w / pgSize)).frame ≠ some x := by
  rw [hw.entry_eq h, ht.kernelFrame_eq]
  intro hy
  rw [hw.pool x hy] at hx
  cases hx

end Kernel

end Paging

end BochsOs
