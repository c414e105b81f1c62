import BochsOs.Kernel.Paging
import BochsOs.Userprog.Process

/-!
# The pages of a process

`sys_fork`, `sys_exit` and `sys_wait` with the pages they take and give back.  A process
gets its pages in five places: the control block, the bitmap of its pages, the page directory,
the page tables and the pages themselves.  `sys_exit` gives back the pages, the page tables
and the bitmap, `sys_wait` the other two.

The bitmap takes 23 pages, and the count that `release_prog_resource` computes is 22: every
process leaves a frame of the kernel pool behind (`page_not_conserved`).
-/

namespace BochsOs

open Suspend Suspend.Prog

/-! ## Fork -/

/-- `btmp_bytes_len` of the bitmap of a process. -/
def userBitmapLen : ℕ := (0xc0000000 - userVaddrStart) / pgSize / 8

/-- `bitmap_pg_cnt` of `copy_pcb_vaddrbitmap_stack0`. -/
def bitmapPgCnt : ℕ := divRoundUp userBitmapLen pgSize

/-- `page_dir_activate`. -/
def pageDirActivate (p : ℕ) : Prog Memory Unit :=
  modify fun m =>
    { m with cr3 := if (m.kernel.tasks p).isProcess then (m.spaces p).pgdir else 0 }

namespace Paging

open Memory

/-- `create_page_dir`; the user half is empty. -/
def createPageDir : Prog Memory (Option ℕ) := do
  match ← getKernelPages 1 with
  | none => return none
  | some pgdir =>
      modify fun m => { m with pageDir := Function.update m.pageDir pgdir fun _ => ⟨0, false⟩ }
      return some pgdir

/-- The child gets the control block of the parent, but for its number, times and status,
and no free blocks. -/
def copyPcb (child pid : ℕ) (m : Memory) : Memory :=
  { m.setSpace child { m.spaces m.kernel.running with pcb := (m.spaces child).pcb } with
    kernel := m.kernel.setTask child (forkTask m.kernel.cur pid)
    freeLists := fun d => if d.1 = child then [] else m.freeLists d }

/-- `copy_pcb_vaddrbitmap_stack0`. -/
def copyPcbVaddrbitmapStack0 (child : ℕ) : Prog Memory Bool := do
  let pid ← onKernel allocatePid
  modify (copyPcb child pid)
  match ← getKernelPages bitmapPgCnt with
  | none => return false
  | some pages =>
      modify fun m => m.setSpace child { m.spaces child with bitmapPages := pages }
      return true

/-- The body of the loops of `copy_body_stack3`: copy the page at `vaddr`. -/
def copyPage (child parent vaddr : ℕ) : Prog Memory Unit := do
  touch vaddr
  pageDirActivate child
  let _ ← getAPageWithoutOpvaddrbitmap .user vaddr
  -- without a frame the copy goes to a page that is not there
  touch vaddr
  modify fun m =>
    { m with
      arenas := Function.update m.arenas child
        (Function.update (m.arenas child) vaddr (m.arenas parent vaddr)) }
  pageDirActivate parent

/-- The inner loop of `copy_body_stack3`, over the bits of a byte. -/
def copyBits (child parent idxByte : ℕ) : (left idxBit : ℕ) → Prog Memory Unit
  | 0, _ => return ()
  | left + 1, idxBit => do
      let m ← read
      if bitMask idxBit &&& (m.spaces parent).vaddrBitmap.bits idxByte ≠ 0 then
        copyPage child parent ((idxByte * 8 + idxBit) * pgSize + userVaddrStart)
      copyBits child parent idxByte left (idxBit + 1)

/-- The outer loop of `copy_body_stack3`, over the bytes of the bitmap of the parent. -/
def copyBody (child parent : ℕ) : (left idxByte : ℕ) → Prog Memory Unit
  | 0, _ => return ()
  | left + 1, idxByte => do
      let m ← read
      if (m.spaces parent).vaddrBitmap.bits idxByte ≠ 0 then copyBits child parent idxByte 8 0
      copyBody child parent left (idxByte + 1)

/-- `copy_body_stack3`. -/
def copyBodyStack3 (child : ℕ) : Prog Memory Unit := do
  let m ← read
  let parent := m.kernel.running
  copyBody child parent (m.spaces parent).vaddrBitmap.btmpBytesLen 0

/-- The part of `copy_process` before `copy_body_stack3`: the page of the buffer. -/
def copyHead (child : ℕ) : Prog Memory (Option ℕ) := do
  match ← getKernelPages 1 with
  | none => return none
  | some bufPage =>
      if ← copyPcbVaddrbitmapStack0 child then
        match ← createPageDir with
        | none => return none
        | some pgdir =>
            modify fun m => m.setSpace child { m.spaces child with pgdir := pgdir }
            return some bufPage
      else return none

/-- `copy_process`. -/
def copyProcess (child : ℕ) : Prog Memory Bool := do
  match ← copyHead child with
  | none => return false
  | some bufPage =>
      copyBodyStack3 child
      onKernel (updateInodeOpenCnts child (maxFilesOpenPerProc - 3) 3)
      mfreePage .kernel bufPage 1
      return true

/-- `sys_fork`: the control block of the child, unless it fails. -/
def sysFork : Prog Memory (Option ℕ) := do
  match ← getKernelPages 1 with
  | none => return none
  | some pcb =>
      let m ← read
      assert m.kernel.cur.isProcess
      let child := m.kernel.nextTask
      write { m.setSpace child { m.spaces child with pcb := pcb } with
        kernel := { m.kernel with nextTask := child + 1 } }
      if ← copyProcess child then
        onKernel (modify fun k =>
          { k with
            threadReadyList := k.threadReadyList ++ [child]
            threadAllList := k.threadAllList ++ [child] })
        return some child
      else return none

/-! ## Exit -/

/-- The inner loop of `release_prog_resource`, over the entries of a page table. -/
def releasePtes (table : ℕ) : (left pteI : ℕ) → Prog Memory Unit
  | 0, _ => return ()
  | left + 1, pteI => do
      let m ← read
      let pte := m.pageTable table pteI
      if pte.present then freeAPhyPage pte.frame
      releasePtes table left (pteI + 1)

/-- The outer loop of `release_prog_resource`, over the user half of the page directory. -/
def releasePdes (pgdir : ℕ) : (left pdeI : ℕ) → Prog Memory Unit
  | 0, _ => return ()
  | left + 1, pdeI => do
      let m ← read
      let curPde := m.pageDir pgdir pdeI
      if curPde.present then
        releasePtes curPde.frame 1024 0
        freeAPhyPage curPde.frame
      releasePdes pgdir left (pdeI + 1)

/-- `sys_free` for each of the inodes `gone`. -/
def freeInodes : (gone : List ℕ) → Prog Memory Unit
  | [] => return ()
  | a :: gone => do
      let m ← read
      sysFreeKernel (m.inodeBlock a)
      freeInodes gone

/-- One round of the last loop of `release_prog_resource`. -/
def releaseFd (fd : ℕ) : Prog Memory Unit := do
  let m ← read
  if m.kernel.cur.fdTable fd = -1 then return ()
  else if ← onKernel (isPipe fd) then
    let globalFd ← onKernel (fdLocal2global fd)
    let file := m.kernel.fileTable globalFd
    onKernel (pipeDrop globalFd)
    if subU32 file.fdPos 1 = 0 then
      match file.fdInode with
      | none => stop .undefined
      | some page => mfreePage .kernel page 1
  else
    let _ ← onKernel (sysClose fd)
    -- `inode_close` frees the inodes that it takes off the list
    let m' ← read
    freeInodes (m.kernel.openInodes.filter (· ∉ m'.kernel.openInodes))

/-- The last loop of `release_prog_resource` from descriptor `fd` on. -/
def releaseFds : (left fd : ℕ) → Prog Memory Unit
  | 0, _ => return ()
  | left + 1, fd => do
      releaseFd fd
      releaseFds left (fd + 1)

/-- `release_prog_resource`, called by the process itself. -/
def releaseProgResource : Prog Memory Unit := do
  let m ← read
  let space := m.spaces m.kernel.running
  releasePdes space.pgdir 768 0
  mfreePage .kernel space.bitmapPages (space.vaddrBitmap.btmpBytesLen / pgSize)
  releaseFds (maxFilesOpenPerProc - 3) 3

/-- `sys_exit`, up to the point where another thread runs. -/
def sysExit (status : ℤ) : Prog Memory Unit := do
  onKernel (modify fun k => k.setTask k.running { k.cur with exitStatus := wrap8 status })
  let m ← read
  match m.kernel.cur.parentPid with
  | none => stop .halt
  | some _ =>
      onKernel (modify fun k => k.adoptChildren k.cur.pid)
      releaseProgResource
      onKernel exitFinish
      let m ← read
      pageDirActivate m.kernel.running

/-! ## Wait -/

/-- `thread_exit` of another thread. -/
def threadExit (p : ℕ) : Prog Memory Unit := do
  let m ← read
  if (m.kernel.tasks p).isProcess then mfreePage .kernel (m.spaces p).pgdir 1
  if p ≠ m.mainThread then mfreePage .kernel (m.spaces p).pcb 1
  onKernel (BochsOs.threadExit p false)

/-- The part of `sys_wait` that finds a hanging child: the number and the exit status. -/
def sysWaitHanging : Prog Memory (Option (ℤ × ℤ)) := do
  let m ← read
  match m.kernel.findHangingChild m.kernel.cur.pid with
  | none => return none
  | some child =>
      let task := m.kernel.tasks child
      threadExit child
      return some (task.pid, task.exitStatus)

end Paging

/-! ## A lifetime -/

/-- Other threads run, which neither allocate nor touch the files. -/
structure Elsewhere (m m' : Memory) : Prop where
  memory : m' = { m with kernel := m'.kernel, cr3 := m'.cr3 }
  cr3 : (m'.kernel.tasks m'.kernel.running).isProcess →
    m'.cr3 = (m.spaces m'.kernel.running).pgdir
  all : m'.kernel.threadAllList = m.kernel.threadAllList
  openInodes : m'.kernel.openInodes = m.kernel.openInodes
  fileTable : m'.kernel.fileTable = m.kernel.fileTable
  pid : ∀ p, (m'.kernel.tasks p).pid = (m.kernel.tasks p).pid
  process : ∀ p, (m'.kernel.tasks p).isProcess = (m.kernel.tasks p).isProcess

/-- The process `p` runs, in its own address space. -/
def Memory.Runs (m : Memory) (p : ℕ) : Prop :=
  m.kernel.running = p ∧ m.cr3 = (m.spaces p).pgdir

/-- The pages of the block at `ptr` lie in the user half. -/
def Memory.InUserHalf (m : Memory) (ptr : ℕ) : Prop :=
  let arena := m.arenas m.kernel.running (block2arena ptr)
  block2arena ptr + (if arena.desc = none then arena.cnt else 1) * pgSize ≤ Memory.kernelBase

/-- Between its fork and its exit the child calls `sys_malloc` and `sys_free`. -/
inductive ChildStep (child : ℕ) (m m' : Memory) : Prop where
  | malloc {size : ℕ} {r : Option ℕ} (hrun : m.Runs child)
      (hcall : (Paging.sysMalloc size).Returns m r m')
  | free {ptr : ℕ} (hrun : m.Runs child) (huser : m.InUserHalf ptr)
      (hcall : (Paging.sysFree ptr).Returns m () m')
  | elsewhere (h : Elsewhere m m')

/-- The running process forks a child, which allocates and frees, exits, and is returned by
the `sys_wait` of its parent. -/
inductive Lifetime (m : Memory) : Memory → Prop where
  | intro {child : ℕ} {m₁ m₂ m₃ m₄ m' : Memory} {status code : ℤ}
      (hfork : Paging.sysFork.Returns m (some child) m₁)
      (hcalls : Relation.ReflTransGen (ChildStep child) m₁ m₂) (hrun : m₂.Runs child)
      (hexit : (Paging.sysExit status).Returns m₂ () m₃)
      (hswitch : Elsewhere m₃ m₄) (hparent : m₄.kernel.running = m.kernel.running)
      (hwait : Paging.sysWaitHanging.Returns m₄ (some ((m₄.kernel.tasks child).pid, code)) m') :
      Lifetime m m'

/-- The pages and frames in use are the same. -/
structure PagesConserved (m m' : Memory) : Prop where
  kernelPool : ∀ i < 8 * m.kernelPool.poolBitmap.btmpBytesLen,
    m'.kernelPool.poolBitmap.bit i = m.kernelPool.poolBitmap.bit i
  userPool : ∀ i < 8 * m.userPool.poolBitmap.btmpBytesLen,
    m'.userPool.poolBitmap.bit i = m.userPool.poolBitmap.bit i
  kernelVaddr : ∀ i < 8 * m.kernelVaddr.btmpBytesLen, m'.kernelVaddr.bit i = m.kernelVaddr.bit i

/-! ## Steps that spare a frame -/

namespace Paging

open Memory

section Spares

variable {m m' m'' : Memory} {x : ℕ}

/-- `pfree` of the frame does not clear bit `x` of the kernel pool. -/
def Avoids (m : Memory) (x frame : ℕ) : Prop := kernelFrame m frame ≠ some x

/-- The page tables of a page directory have no frame with bit `x`. -/
def SafeDir (m : Memory) (x pgdir : ℕ) : Prop :=
  ∀ d, (m.pageDir pgdir d).present = true → Avoids m x (m.pageDir pgdir d).frame ∧
    ∀ t, Avoids m x (m.pageTable (m.pageDir pgdir d).frame t).frame

/-- The frame of a page does not have bit `x`. -/
def SafePage (m : Memory) (x vaddr : ℕ) : Prop := ∀ e, m.pte vaddr = some e → Avoids m x e.frame

/-- The pages that `sys_free` of a block gives back, if it does: the first and how many. -/
def heapRun (h : BlockHeap) (b : ℕ) : ℕ × ℕ :=
  (block2arena b, if (h.arena (block2arena b)).desc = none then (h.arena (block2arena b)).cnt else 1)

/-- From `m` to `m'` memory was taken or given back, but the frame with bit `x` stays as it
is and gets no second owner. -/
structure Spares (x : ℕ) (m m' : Memory) : Prop where
  kernel : m'.kernel = m.kernel
  start : m'.kernelPool.phyAddrStart = m.kernelPool.phyAddrStart
  user : m'.userPool.phyAddrStart = m.userPool.phyAddrStart
  len : m'.kernelPool.poolBitmap.btmpBytesLen = m.kernelPool.poolBitmap.btmpBytesLen
  main : m'.mainThread = m.mainThread
  block : m'.inodeBlock = m.inodeBlock
  heap : ∀ b, heapRun m'.kernelHeap b = heapRun m.kernelHeap b
  pcb : ∀ p, (m'.spaces p).pcb = (m.spaces p).pcb
  pgdir : ∀ p, (m'.spaces p).pgdir = (m.spaces p).pgdir
  bitmapPages : ∀ p, (m'.spaces p).bitmapPages = (m.spaces p).bitmapPages
  bitmapLen : ∀ p, (m'.spaces p).vaddrBitmap.btmpBytesLen = (m.spaces p).vaddrBitmap.btmpBytesLen
  pool : m.kernelPool.poolBitmap.bit x = true → m'.kernelPool.poolBitmap.bit x = true
  table : ∀ j, Avoids m x (m.kernelTable j).frame → Avoids m x (m'.kernelTable j).frame
  pageTable : ∀ f t, Avoids m x (m.pageTable f t).frame → Avoids m x (m'.pageTable f t).frame
  pageDir : ∀ g d, (m'.pageDir g d).present = true → m'.pageDir g d = m.pageDir g d ∨
    (Avoids m x (m'.pageDir g d).frame ∧ ∀ t, Avoids m x (m'.pageTable (m'.pageDir g d).frame t).frame)

theorem Spares.refl (x : ℕ) (m : Memory) : Spares x m m := by
  constructor <;> simp

theorem Spares.avoids (h : Spares x m m') (frame : ℕ) : Avoids m' x frame ↔ Avoids m x frame := by
  simp only [Avoids, kernelFrame, h.start, h.user]

theorem Spares.trans (h : Spares x m m') (h' : Spares x m' m'') : Spares x m m'' where
  kernel := h'.kernel.trans h.kernel
  start := h'.start.trans h.start
  user := h'.user.trans h.user
  len := h'.len.trans h.len
  main := h'.main.trans h.main
  block := h'.block.trans h.block
  heap b := (h'.heap b).trans (h.heap b)
  pcb p := (h'.pcb p).trans (h.pcb p)
  pgdir p := (h'.pgdir p).trans (h.pgdir p)
  bitmapPages p := (h'.bitmapPages p).trans (h.bitmapPages p)
  bitmapLen p := (h'.bitmapLen p).trans (h.bitmapLen p)
  pool hx := h'.pool (h.pool hx)
  table j hj := by
    have := h'.table j
    simp only [h.avoids] at this
    exact this (h.table j hj)
  pageTable f t hf := by
    have := h'.pageTable f t
    simp only [h.avoids] at this
    exact this (h.pageTable f t hf)
  pageDir g d hd := by
    have htable := h'.pageTable
    simp only [h.avoids] at htable
    rcases h'.pageDir g d hd with heq | hnew
    · rw [heq] at hd ⊢
      exact (h.pageDir g d hd).imp_right fun hnew => ⟨hnew.1, fun t => htable _ t (hnew.2 t)⟩
    · simp only [h.avoids] at hnew
      exact Or.inr hnew

theorem Spares.safeDir (h : Spares x m m') {g : ℕ} (hg : SafeDir m x g) : SafeDir m' x g := by
  intro d hd
  simp only [h.avoids]
  rcases h.pageDir g d hd with heq | hnew
  · rw [heq] at hd ⊢
    exact ⟨(hg d hd).1, fun t => h.pageTable _ t ((hg d hd).2 t)⟩
  · exact hnew

/-- A page of the address space in use is safe if its page directory is. -/
theorem SafeDir.page {vaddr : ℕ} (hg : SafeDir m x m.cr3) (hv : vaddr < kernelBase) :
    SafePage m x vaddr := by
  intro e he
  rw [Memory.pte, if_neg (by omega)] at he
  split at he
  next hpresent =>
    cases he
    exact (hg _ hpresent).2 _
  next => cases he

theorem safePage_kernel {vaddr : ℕ} (hv : kernelBase ≤ vaddr)
    (h : Avoids m x (m.kernelTable (vaddr / pgSize)).frame) : SafePage m x vaddr := by
  intro e he
  rw [pte_kernel hv] at he
  cases he
  exact h

/-! ### Frames -/

/-- The frame with bit `x` is taken and cannot be mistaken for frame 0. -/
structure Frame (x : ℕ) (m : Memory) : Prop where
  layout : Layout m
  range : x < 8 * m.kernelPool.poolBitmap.btmpBytesLen
  pool : m.kernelPool.poolBitmap.bit x = true

theorem Frame.spares (hx : Frame x m) (h : Spares x m m') : Frame x m' where
  layout := by
    refine ⟨?_, ?_⟩
    · rw [h.start]
      exact hx.layout.pos
    · rw [h.start, h.len]
      exact hx.layout.fits
  range := by
    rw [h.len]
    exact hx.range
  pool := h.pool hx.pool

theorem Frame.zero (hx : Frame x m) : Avoids m x 0 := kernelFrame_zero hx.layout hx.range

theorem spares_setPool (pf : PoolFlags) {btmp : Bitmap}
    (hlen : btmp.btmpBytesLen = (m.pool pf).poolBitmap.btmpBytesLen)
    (hbit : pf = .kernel → m.kernelPool.poolBitmap.bit x = true → btmp.bit x = true) :
    Spares x m (m.setPool pf btmp) := by
  cases pf with
  | kernel =>
      refine { Spares.refl x m with len := hlen, pool := hbit rfl }
  | user => exact { Spares.refl x m with }

theorem spares_setSpace (m : Memory) {p : ℕ} (space : AddrSpace) (hpcb : space.pcb = (m.spaces p).pcb)
    (hpgdir : space.pgdir = (m.spaces p).pgdir)
    (hpages : space.bitmapPages = (m.spaces p).bitmapPages)
    (hlen : space.vaddrBitmap.btmpBytesLen = (m.spaces p).vaddrBitmap.btmpBytesLen) :
    Spares x m (m.setSpace p space) := by
  refine { Spares.refl x m with pcb := ?_, pgdir := ?_, bitmapPages := ?_, bitmapLen := ?_ }
  all_goals
    intro q
    by_cases hq : q = p <;> simp [Memory.setSpace, hq, hpcb, hpgdir, hpages, hlen]

theorem palloc_spares {pf : PoolFlags} (hx : Frame x m) :
    (palloc pf).wp (fun r m' => Spares x m m' ∧ ∀ frame ∈ r, Avoids m x frame) m := by
  refine wp_mono palloc_spec ?_
  rintro r m' (⟨rfl, rfl⟩ | ⟨i, -, hclear, rfl, rfl⟩)
  · exact ⟨Spares.refl x m', fun _ h => by cases h⟩
  · refine ⟨spares_setPool pf rfl fun hpf hbit => ?_, fun frame hframe => ?_⟩
    · rw [bit_bitmapSet]
      split
      · rfl
      · rw [hpf]
        exact hbit
    · obtain rfl := Option.some_injective _ hframe
      cases pf with
      | user =>
          intro h
          rw [show (m.pool .user).phyAddrStart = m.userPool.phyAddrStart from rfl, kernelFrame_user] at h
          cases h
      | kernel =>
          intro h
          have hxi : x = i := kernelFrame_kernel h
          change m.kernelPool.poolBitmap.bit i = false at hclear
          rw [← hxi, hx.pool] at hclear
          cases hclear

theorem spares_setPte {vaddr : ℕ} {e : Entry} (he : Avoids m x e.frame) : Spares x m (m.setPte vaddr e) := by
  unfold Memory.setPte
  split
  · refine { Spares.refl x m with table := fun j hj => ?_ }
    change Avoids m x (Function.update m.kernelTable (vaddr / pgSize) e j).frame
    by_cases hv : j = vaddr / pgSize
    · rw [hv, Function.update_self]
      exact he
    · rw [Function.update_of_ne hv]
      exact hj
  · refine { Spares.refl x m with pageTable := fun f t hf => ?_, pageDir := fun _ _ _ => Or.inl rfl }
    change Avoids m x (Function.update m.pageTable (m.pde vaddr).frame
      (Function.update (m.pageTable (m.pde vaddr).frame) (pteIdx vaddr) e) f t).frame
    by_cases hframe : f = (m.pde vaddr).frame
    · rw [hframe, Function.update_self]
      by_cases ht : t = pteIdx vaddr
      · rw [ht, Function.update_self]
        exact he
      · rw [Function.update_of_ne ht]
        exact hframe ▸ hf
    · rw [Function.update_of_ne hframe]
      exact hf

theorem spares_setPde (vaddr : ℕ) {table : ℕ} (hx : Frame x m) (htable : Avoids m x table) :
    Spares x m (m.setPde vaddr table) := by
  have hcleared : ∀ f t, Avoids m x (m.pageTable f t).frame →
      Avoids m x ((m.setPde vaddr table).pageTable f t).frame := by
    intro f t hf
    change Avoids m x (Function.update m.pageTable table (fun _ => ⟨0, false⟩) f t).frame
    by_cases hframe : f = table
    · rw [hframe, Function.update_self]
      exact hx.zero
    · rw [Function.update_of_ne hframe]
      exact hf
  refine { Spares.refl x m with pageTable := hcleared, pageDir := fun g d hd => ?_ }
  by_cases hg : g = m.cr3 ∧ d = pdeIdx vaddr
  · obtain ⟨rfl, rfl⟩ := hg
    refine Or.inr ?_
    simp only [Memory.setPde, Function.update_self]
    exact ⟨htable, fun _ => hx.zero⟩
  · refine Or.inl ?_
    simp only [Memory.setPde]
    by_cases hcr3 : g = m.cr3
    · have hd' : d ≠ pdeIdx vaddr := fun h => hg ⟨hcr3, h⟩
      rw [hcr3, Function.update_self, Function.update_of_ne hd']
    · rw [Function.update_of_ne hcr3]

theorem pageTableAdd_spares {vaddr frame : ℕ} (hx : Frame x m) (hframe : Avoids m x frame) :
    (pageTableAdd vaddr frame).wp (fun _ => Spares x m) m := by
  simp only [pageTableAdd, wp_bind, wp_read]
  cases m.pte vaddr with
  | some e =>
      simp only [wp_bind, wp_assert, wp_write]
      intro _
      exact spares_setPte hframe
  | none =>
      simp only [wp_bind, wp_modify]
      refine wp_mono (palloc_spares hx) ?_
      rintro table m₁ ⟨h₁, htable⟩
      -- without a frame for the page table, it is put in frame 0
      have havoid : Avoids m₁ x (table.getD 0) := by
        cases table with
        | none => exact (hx.spares h₁).zero
        | some t => exact (h₁.avoids t).mpr (htable t rfl)
      have h₂ := spares_setPde vaddr (hx.spares h₁) havoid
      refine (h₁.trans h₂).trans (spares_setPte ?_)
      rw [(h₁.trans h₂).avoids]
      exact hframe

theorem pfree_spares {frame : ℕ} (hframe : Avoids m x frame) :
    (pfree frame).wp (fun _ m' => Spares x m m' ∧ m'.cr3 = m.cr3 ∧ m'.pte = m.pte) m := by
  rw [pfree, wp_modify]
  split
  · exact ⟨spares_setPool .user rfl (by simp), rfl, rfl⟩
  next huser =>
    refine ⟨spares_setPool .kernel rfl fun _ hbit => ?_, rfl, rfl⟩
    rw [bit_bitmapSet, if_neg, hbit]
    rintro rfl
    exact hframe (if_neg huser)

theorem pageTablePteRemove_spares {vaddr : ℕ} (hv : SafePage m x vaddr) :
    (pageTablePteRemove vaddr).wp (fun _ m' => Spares x m m' ∧ m'.cr3 = m.cr3) m := by
  simp only [pageTablePteRemove, wp_bind, wp_read]
  cases hpte : m.pte vaddr with
  | none => trivial
  | some e =>
      refine ⟨spares_setPte (hv e hpte), ?_⟩
      unfold Memory.setPte
      split <;> rfl

/-- Each of the `n` pages from `vaddr` on is safe, in every later state. -/
def SafePages (m : Memory) (x vaddr n : ℕ) : Prop :=
  ∀ m', Spares x m m' → m'.cr3 = m.cr3 → ∀ c < n, SafePage m' x (vaddr + c * pgSize)

theorem SafePages.spares {vaddr n : ℕ} (hs : SafePages m x vaddr n) (h : Spares x m m')
    (hcr3 : m'.cr3 = m.cr3) : SafePages m' x vaddr n :=
  fun _ h' hcr3' => hs _ (h.trans h') (hcr3'.trans hcr3)

theorem SafeDir.pages {vaddr n : ℕ} (hg : SafeDir m x m.cr3) (hv : vaddr + n * pgSize ≤ kernelBase) :
    SafePages m x vaddr n := by
  intro m' h hcr3 c hc
  refine SafeDir.page ?_ ?_
  · rw [hcr3]
    exact h.safeDir hg
  · have : (c + 1) * pgSize ≤ n * pgSize := Nat.mul_le_mul_right _ hc
    have : 0 < pgSize := by decide
    rw [Nat.succ_mul] at *
    omega

theorem safePages_kernel {vaddr n : ℕ} (hv : kernelBase ≤ vaddr)
    (h : ∀ c < n, Avoids m x (m.kernelTable (vaddr / pgSize + c)).frame) :
    SafePages m x vaddr n := by
  intro m' h' _ c hc
  refine safePage_kernel (hv.trans (Nat.le_add_right _ _)) ?_
  rw [h'.avoids, Nat.add_mul_div_right _ _ (by decide : 0 < pgSize)]
  exact h'.table _ (h c hc)

theorem unmapPages_spares {user : Bool} {vaddr n : ℕ} (hs : SafePages m x vaddr n) :
    (unmapPages user vaddr n).wp (fun _ m' => Spares x m m' ∧ m'.cr3 = m.cr3) m := by
  induction n generalizing m vaddr with
  | zero => exact ⟨Spares.refl x m, rfl⟩
  | succ n ih =>
      have hfirst : SafePage m x vaddr := by
        simpa using hs m (Spares.refl x m) rfl 0 (Nat.succ_pos n)
      simp only [unmapPages, addrV2p, wp_bind, wp_read]
      cases hpte : m.pte vaddr with
      | none => trivial
      | some e =>
          simp only [wp_pure, wp_assert]
          intro _
          refine wp_mono (pfree_spares (hfirst e hpte)) ?_
          rintro - m₁ ⟨h₁, hcr3₁, hpte₁⟩
          have hsafe₁ : SafePage m₁ x vaddr := by
            intro e' he'
            rw [hpte₁] at he'
            exact (h₁.avoids _).mpr (hfirst e' he')
          refine wp_mono (pageTablePteRemove_spares hsafe₁) ?_
          rintro - m₂ ⟨h₂, hcr3₂⟩
          have h := h₁.trans h₂
          have hcr3 := hcr3₂.trans hcr3₁
          refine wp_mono (ih fun m' h' hcr3' c hc => ?_) ?_
          · have := hs m' (h.trans h') (hcr3'.trans hcr3) (c + 1) (Nat.succ_lt_succ hc)
            rwa [Nat.succ_mul, Nat.add_comm (c * pgSize), ← Nat.add_assoc] at this
          · exact fun _ m' h' => ⟨h.trans h'.1, h'.2.trans hcr3⟩

theorem mfreePage_spares {pf : PoolFlags} {vaddr n : ℕ} (hs : SafePages m x vaddr n) :
    (mfreePage pf vaddr n).wp (fun _ m' => Spares x m m' ∧ m'.cr3 = m.cr3) m := by
  simp only [mfreePage, addrV2p, wp_bind, wp_assert, wp_read]
  intro _
  cases m.pte vaddr with
  | none => trivial
  | some e =>
      simp only [wp_pure]
      intro _
      refine wp_mono (unmapPages_spares hs) ?_
      rintro - m₁ ⟨h₁, hcr3₁⟩
      rw [vaddrRemove, wp_modify]
      cases pf with
      | kernel => exact ⟨{ h₁ with }, hcr3₁⟩
      | user =>
          refine ⟨h₁.trans (spares_setSpace m₁ _ rfl rfl rfl ?_), hcr3₁⟩
          exact btmpBytesLen_setBits _ _ _ _

/-! ### Heaps -/

theorem vaddrGet_user_spares (n : ℕ) :
    (vaddrGet .user n).wp (fun _ => Spares x m) m := by
  simp only [vaddrGet, wp_bind, wp_read]
  cases bitmapScan (m.spaces m.kernel.running).vaddrBitmap n with
  | none => exact Spares.refl x m
  | some start =>
      simp only [wp_bind, wp_write, wp_assert, wp_pure]
      intro _
      exact spares_setSpace m _ rfl rfl rfl (btmpBytesLen_setBits _ _ _ _)

theorem mapPages_user_spares {vaddr n : ℕ} (hx : Frame x m) :
    (mapPages .user vaddr n).wp (fun _ => Spares x m) m := by
  induction n generalizing m vaddr with
  | zero => exact Spares.refl x m
  | succ n ih =>
      simp only [mapPages, wp_bind]
      refine wp_mono (palloc_spares hx) ?_
      rintro r m₁ ⟨h₁, hframe⟩
      cases r with
      | none => exact h₁
      | some frame =>
          have hx₁ := hx.spares h₁
          simp only [wp_bind]
          refine wp_mono (pageTableAdd_spares hx₁ ((h₁.avoids frame).mpr (hframe frame rfl))) ?_
          rintro - m₂ h₂
          exact wp_mono (ih (hx₁.spares h₂)) fun _ m₃ h₃ => (h₁.trans h₂).trans h₃

theorem mallocPage_user_spares {n : ℕ} (hx : Frame x m) :
    (mallocPage .user n).wp (fun _ => Spares x m) m := by
  simp only [mallocPage, wp_bind, wp_assert]
  intro _
  refine wp_mono (vaddrGet_user_spares (x := x) n) ?_
  rintro r m₁ h₁
  cases r with
  | none => exact h₁
  | some vaddr =>
      simp only [wp_bind]
      refine wp_mono (mapPages_user_spares (hx.spares h₁)) ?_
      rintro ok m₂ h₂
      cases ok with
      | true => exact h₁.trans h₂
      | false => exact h₁.trans h₂

theorem spares_setHeap (m : Memory) (p : ℕ) (h : BlockHeap) : Spares x m (setHeap m p h) :=
  { Spares.refl x m with }

theorem sysMalloc_spares {size : ℕ} (hx : Frame x m) :
    (Paging.sysMalloc size).wp (fun _ => Spares x m) m := by
  simp only [Paging.sysMalloc, wp_bind, wp_read]
  -- whether or not pages are asked for
  split
  · simp only [wp_bind, wp_read]
    refine wp_mono (mallocPage_user_spares hx) ?_
    intro page m₁ h₁
    split
    · trivial
    · exact h₁.trans (spares_setHeap m₁ _ _)
  · simp only [wp_bind, wp_pure, wp_read]
    split
    · trivial
    · exact spares_setHeap m _ _

theorem removeBlocks_arena {h h' : BlockHeap} {d : ℕ × ℕ} {blocks : List ℕ}
    (hres : h.removeBlocks d blocks = some h') : h'.arena = h.arena := by
  induction blocks generalizing h with
  | nil =>
      cases hres
      rfl
  | cons b blocks ih =>
      simp only [BlockHeap.removeBlocks] at hres
      split at hres
      · exact (ih hres).trans (h.setFreeList_arena d _)
      · cases hres

/-- What `sys_free` does to a heap, as far as its pages go: it gives back the pages of the
block or none, and the other blocks keep theirs. -/
theorem sysFree_run {o : Owner} {h : BlockHeap} {b : ℕ} {res : HeapResult}
    (hres : h.sysFree o b = some res) :
    (∀ run ∈ res.pages, run = heapRun h b) ∧ ∀ c, heapRun res.heap c = heapRun h c := by
  unfold BlockHeap.sysFree at hres
  split at hres
  · cases hres
  · cases hdesc : (h.arena (block2arena b)).desc with
    | none =>
        simp only [hdesc] at hres
        split at hres
        · cases hres
          refine ⟨fun run hrun => ?_, fun _ => rfl⟩
          rw [← Option.some_injective _ hrun, heapRun, if_pos hdesc]
        · cases hres
    | some d =>
        simp only [hdesc] at hres
        set h₁ := (h.setFreeList d (h.freeList d ++ [b])).setArena (block2arena b)
          ⟨some d, (h.arena (block2arena b)).cnt + 1, (h.arena (block2arena b)).large⟩ with hh₁
        -- the header of a small arena keeps its descriptor, the others stay as they are
        have hkeep : ∀ c, heapRun h₁ c = heapRun h c := by
          intro c
          simp only [heapRun]
          by_cases hc : block2arena c = block2arena b
          · rw [hc, hh₁, BlockHeap.setArena_arena_self, hdesc]
            simp
          · rw [hh₁, BlockHeap.setArena_arena_of_ne _ _ hc, BlockHeap.setFreeList_arena]
        split at hres
        · obtain ⟨h₂, hremove, hres⟩ := Option.bind_eq_some_iff.mp hres
          cases hres
          refine ⟨fun run hrun => ?_, fun c => ?_⟩
          · rw [← Option.some_injective _ hrun, heapRun, hdesc]
            rfl
          · rw [← hkeep c]
            simp only [heapRun, removeBlocks_arena hremove]
        · cases hres
          exact ⟨(fun _ h => by cases h), hkeep⟩

theorem sysFree_spares {ptr : ℕ} (hdir : SafeDir m x m.cr3) (hptr : m.InUserHalf ptr) :
    (Paging.sysFree ptr).wp (fun _ => Spares x m) m := by
  simp only [Paging.sysFree, touch, wp_bind, wp_read]
  cases m.pte (block2arena ptr) with
  | none => trivial
  | some e =>
      simp only
      split
      · simp only [wp_pure]
        cases hres : (heapOf m m.kernel.running).sysFree
            ⟨false, m.kernel.running, m.userPool.freePages⟩ ptr with
        | none => trivial
        | some res =>
            have h₁ := spares_setHeap (x := x) m m.kernel.running res.heap
            simp only [wp_bind, wp_write]
            cases hpages : res.pages with
            | none => exact h₁
            | some run =>
                have hrun := (sysFree_run hres).1 run hpages
                have hsafe : SafePages m x run.1 run.2 := by
                  refine hdir.pages ?_
                  rw [hrun]
                  exact hptr
                have hsafe₁ : SafePages (setHeap m m.kernel.running res.heap) x run.1 run.2 :=
                  hsafe.spares h₁ rfl
                refine wp_mono (mfreePage_spares hsafe₁) ?_
                exact fun _ m₂ h₂ => h₁.trans h₂.1
      · trivial

theorem sysFreeKernel_spares {ptr : ℕ}
    (hsafe : SafePages m x (heapRun m.kernelHeap ptr).1 (heapRun m.kernelHeap ptr).2) :
    (sysFreeKernel ptr).wp (fun _ m' => Spares x m m' ∧ m'.cr3 = m.cr3) m := by
  simp only [sysFreeKernel, wp_bind, wp_read]
  cases hres : m.kernelHeap.sysFree ⟨true, 0, m.kernelPool.freePages⟩ ptr with
  | none => trivial
  | some res =>
      obtain ⟨hrun, hkeep⟩ := sysFree_run hres
      have h₁ : Spares x m { m with kernelHeap := res.heap } := { Spares.refl x m with heap := hkeep }
      simp only [wp_bind, wp_write]
      cases hpages : res.pages with
      | none => exact ⟨h₁, rfl⟩
      | some run =>
          rw [← hrun run hpages] at hsafe
          refine wp_mono (mfreePage_spares (hsafe.spares h₁ rfl)) ?_
          exact fun _ m₂ h₂ => ⟨h₁.trans h₂.1, h₂.2⟩

end Spares

/-! ## The lost frame -/

/-- A page that `sys_exit` or `sys_wait` may give back, other than those of the bitmap. -/
inductive Owned (m : Memory) : ℕ → Prop where
  | pcb {p : ℕ} (hp : p ∈ m.kernel.threadAllList) (hmain : p ≠ m.mainThread) :
      Owned m (m.spaces p).pcb
  | pgdir {p : ℕ} (hp : p ∈ m.kernel.threadAllList) (hproc : (m.kernel.tasks p).isProcess = true) :
      Owned m (m.spaces p).pgdir
  | pipe {g page : ℕ} (hflag : (m.kernel.fileTable g).fdFlag = pipeFlag)
      (hpage : (m.kernel.fileTable g).fdInode = some page) : Owned m page
  | inode {a c : ℕ} (ha : a ∈ m.kernel.openInodes)
      (hc : c < (heapRun m.kernelHeap (m.inodeBlock a)).2) :
      Owned m ((heapRun m.kernelHeap (m.inodeBlock a)).1 + c * pgSize)

/-- From `k` to `k'` threads and files may have been closed, but none was opened. -/
structure Closes (k k' : Kernel) : Prop where
  all : k'.threadAllList ⊆ k.threadAllList
  openInodes : k'.openInodes ⊆ k.openInodes
  pipe : ∀ g page, (k'.fileTable g).fdFlag = pipeFlag → (k'.fileTable g).fdInode = some page →
    (k.fileTable g).fdFlag = pipeFlag ∧ (k.fileTable g).fdInode = some page
  process : ∀ p, (k'.tasks p).isProcess = (k.tasks p).isProcess

theorem Closes.refl (k : Kernel) : Closes k k :=
  ⟨fun _ h => h, fun _ h => h, fun _ _ hflag hpage => ⟨hflag, hpage⟩, fun _ => rfl⟩

instance closesPreorder : IsPreorder Kernel Closes where
  refl := Closes.refl
  trans _ _ _ h h' :=
    { all := fun _ hp => h.all (h'.all hp)
      openInodes := fun _ ha => h.openInodes (h'.openInodes ha)
      pipe := fun g page hflag hpage =>
        h.pipe g page (h'.pipe g page hflag hpage).1 (h'.pipe g page hflag hpage).2
      process := fun p => (h'.process p).trans (h.process p) }

/-- The frame with bit `x` is taken, and nothing that `child` or its parent may give back
has it. -/
structure Lost (child x : ℕ) (m : Memory) : Prop extends Frame x m where
  owned : ∀ v, Owned m v → kHeapStart ≤ v ∧ Avoids m x (m.kernelTable (v / pgSize)).frame
  base : kHeapStart ≤ (m.spaces child).bitmapPages
  bitmap : ∀ c < userBitmapLen / pgSize,
    Avoids m x (m.kernelTable ((m.spaces child).bitmapPages / pgSize + c)).frame
  len : (m.spaces child).vaddrBitmap.btmpBytesLen = userBitmapLen
  dir : SafeDir m x (m.spaces child).pgdir

section Lost

variable {m m' : Memory} {child x : ℕ}

theorem Owned.spares (h : Spares x m m') {v : ℕ} (hv : Owned m' v) : Owned m v := by
  cases hv with
  | pcb hp hmain =>
      rw [h.pcb]
      rw [h.kernel] at hp
      rw [h.main] at hmain
      exact .pcb hp hmain
  | pgdir hp hproc =>
      rw [h.pgdir]
      rw [h.kernel] at hp hproc
      exact .pgdir hp hproc
  | pipe hflag hpage =>
      rw [h.kernel] at hflag hpage
      exact .pipe hflag hpage
  | inode ha hc =>
      rw [h.kernel] at ha
      rw [h.block, h.heap] at hc ⊢
      exact .inode ha hc

theorem Lost.spares (hm : Lost child x m) (h : Spares x m m') : Lost child x m' where
  toFrame := hm.toFrame.spares h
  owned v hv := by
    obtain ⟨hbase, havoid⟩ := hm.owned v (hv.spares h)
    exact ⟨hbase, (h.avoids _).mpr (h.table _ havoid)⟩
  base := by
    rw [h.bitmapPages]
    exact hm.base
  bitmap c hc := by
    rw [h.bitmapPages, h.avoids]
    exact h.table _ (hm.bitmap c hc)
  len := by
    rw [h.bitmapLen]
    exact hm.len
  dir := by
    rw [h.pgdir]
    exact h.safeDir hm.dir

theorem Owned.closes {k' : Kernel} (h : Closes m.kernel k') {cr3 v : ℕ}
    (hv : Owned { m with kernel := k', cr3 := cr3 } v) : Owned m v := by
  cases hv with
  | pcb hp hmain => exact .pcb (h.all hp) hmain
  | pgdir hp hproc => exact .pgdir (h.all hp) ((h.process _).symm.trans hproc)
  | pipe hflag hpage => exact .pipe (h.pipe _ _ hflag hpage).1 (h.pipe _ _ hflag hpage).2
  | inode ha hc => exact .inode (h.openInodes ha) hc

theorem Lost.closes (hm : Lost child x m) {k' : Kernel} (h : Closes m.kernel k') (cr3 : ℕ) :
    Lost child x { m with kernel := k', cr3 := cr3 } :=
  { hm with
    layout := ⟨hm.layout.pos, hm.layout.fits⟩
    owned := fun v hv => hm.owned v (hv.closes h) }

/-- Pages that may be given back are safe, whatever the files are by then. -/
theorem Lost.page (hm : Lost child x m) {v : ℕ} (hv : Owned m v) (k' : Kernel) :
    SafePages { m with kernel := k' } x v 1 := by
  obtain ⟨hbase, havoid⟩ := hm.owned v hv
  refine safePages_kernel (kernelBase_le_of_heap hbase) fun c hc => ?_
  rw [Nat.lt_one_iff.mp hc]
  exact havoid

end Lost

/-! ### What closing leaves alone -/

section Closes

theorem closes_setTask (k : Kernel) {p : ℕ} {task : Task} (readyList : List ℕ) (running : ℕ)
    (hproc : task.isProcess = (k.tasks p).isProcess) :
    Closes k { k.setTask p task with threadReadyList := readyList, running := running } := by
  refine { Closes.refl k with process := fun q => ?_ }
  change (Function.update k.tasks p task q).isProcess = _
  by_cases hq : q = p
  · rw [hq, Function.update_self, hproc]
  · rw [Function.update_of_ne hq]

theorem closes_setInode (k : Kernel) (a : ℕ) (inode : Inode) : Closes k (k.setInode a inode) :=
  { Closes.refl k with }

/-- An entry of `file_table` keeps its inode or loses it. -/
theorem closes_setFile (k : Kernel) (g : ℕ) {file : File} (hflag : file.fdFlag = (k.fileTable g).fdFlag)
    (hinode : file.fdInode = (k.fileTable g).fdInode ∨ file.fdInode = none) :
    Closes k (k.setFile g file) := by
  refine { Closes.refl k with pipe := fun g' page hflag' hpage' => ?_ }
  simp only [Kernel.setFile] at hflag' hpage'
  by_cases hg : g' = g
  · subst hg
    rw [Function.update_self] at hflag' hpage'
    rcases hinode with heq | hnone
    · exact ⟨hflag.symm.trans hflag', heq.symm.trans hpage'⟩
    · rw [hnone] at hpage'
      cases hpage'
  · rw [Function.update_of_ne hg] at hflag' hpage'
    exact ⟨hflag', hpage'⟩

theorem threadUnblock_closes (p : ℕ) : Within Closes (threadUnblock p) := by
  refine .read_bind fun k => ?_
  refine always_bind.mpr ⟨always_assert.mpr (refl k), wp_assert.mpr fun _ => ?_⟩
  refine always_bind.mpr ⟨always_assert.mpr (refl k), wp_assert.mpr fun _ => ?_⟩
  exact ⟨refl k, closes_setTask k _ k.running rfl⟩

theorem requeue_closes : Within Closes requeue := by
  refine .read_bind fun k => ?_
  split
  · refine always_bind.mpr ⟨always_assert.mpr (refl k), wp_assert.mpr fun _ => ?_⟩
    exact ⟨refl k, closes_setTask k _ k.running rfl⟩
  · exact refl k

theorem dispatch_closes : Within Closes dispatch := by
  refine .read_bind fun k => ?_
  split
  · exact refl k
  · exact ⟨refl k, closes_setTask k _ _ rfl⟩

theorem schedule_closes : Within Closes schedule := by
  refine requeue_closes.bind fun _ => Within.read.bind fun k => ?_
  split
  · exact (threadUnblock_closes _).bind fun _ => dispatch_closes
  · exact dispatch_closes

theorem threadBlock_closes (status : TaskStatus) : Within Closes (threadBlock status) := by
  refine (Within.assert _).bind fun _ => (Within.modify fun k => ?_).bind fun _ => schedule_closes
  exact closes_setTask k k.threadReadyList k.running rfl

theorem exitFinish_closes : Within Closes exitFinish := by
  refine Within.read.bind fun k => ?_
  split
  · exact .stop _
  · split
    · exact (threadUnblock_closes _).bind fun _ => threadBlock_closes _
    · exact threadBlock_closes _

theorem adoptChildren_closes (k : Kernel) (pid : ℕ) : Closes k (k.adoptChildren pid) := by
  refine { Closes.refl k with process := fun p => ?_ }
  simp only [Kernel.adoptChildren]
  split <;> rfl

theorem fdLocal2global_closes (fd : ℕ) : Within Closes (fdLocal2global fd) := by
  unfold fdLocal2global
  split
  · exact .stop _
  · exact Within.read.bind fun _ => (Within.assert _).bind fun _ => .pure _

theorem isPipe_closes (fd : ℕ) : Within Closes (isPipe fd) :=
  (fdLocal2global_closes fd).bind fun _ => Within.read.bind fun _ => .pure _

theorem pipeDrop_closes (g : ℕ) : Within Closes (pipeDrop g) := by
  refine Within.modify fun k => closes_setFile k g rfl ?_
  dsimp only
  split
  · exact Or.inr rfl
  · exact Or.inl rfl

theorem inodeClose_closes (a : ℕ) : Within Closes (inodeClose a) := by
  refine .read_bind fun k => ?_
  dsimp only
  have hset : Closes k (k.setInode a (k.inodes a).dropOpenCnt) := closes_setInode k a _
  split
  · exact ⟨refl k, { hset with openInodes := List.erase_subset }⟩
  · exact ⟨refl k, hset⟩

theorem fileClose_closes (g : ℕ) : Within Closes (fileClose g) := by
  refine .read_bind fun k => ?_
  split
  · exact refl k
  next a _ =>
    refine always_bind.mpr ⟨⟨refl k, closes_setInode k a _⟩, ?_⟩
    rw [wp_write]
    refine ((inodeClose_closes a).bind fun _ => (Within.modify fun k => ?_).bind fun _ =>
      .pure _).always_of (closes_setInode k a _)
    exact closes_setFile k g rfl (Or.inr rfl)

theorem sysClose_closes (fd : ℤ) : Within Closes (sysClose fd) := by
  unfold sysClose
  split
  · exact .pure _
  · refine (fdLocal2global_closes _).bind fun g => (isPipe_closes _).bind fun pipe => ?_
    have hend : ∀ ret : ℤ, Within Closes (do
        modify fun k => k.setTask k.running
          { k.cur with fdTable := Function.update k.cur.fdTable fd.toNat (-1) }
        return ret : Prog Kernel ℤ) := by
      refine fun ret => (Within.modify fun k => ?_).bind fun _ => .pure _
      exact closes_setTask k k.threadReadyList k.running rfl
    cases pipe with
    | true => exact (pipeDrop_closes g).bind fun _ => hend 0
    | false => exact (fileClose_closes g).bind fun ret => hend ret

theorem updateInodeOpenCnts_closes (child left fd : ℕ) :
    Within Closes (updateInodeOpenCnts child left fd) := by
  induction left generalizing fd with
  | zero => exact .pure _
  | succ left ih =>
      refine Within.bind ?_ fun _ => ih (fd + 1)
      refine Within.read.bind fun k => (Within.assert _).bind fun _ => ?_
      split
      · exact .pure _
      · refine (isPipe_closes fd).bind fun pipe => ?_
        cases pipe with
        | true => exact Within.modify fun k => closes_setFile k _ rfl (Or.inl rfl)
        | false =>
            simp only [Bool.false_eq_true, if_false]
            split
            · exact .stop _
            · exact Within.modify fun k => closes_setInode k _ _

theorem threadExit_closes (p : ℕ) : Within Closes (BochsOs.threadExit p false) := by
  refine (Within.modify fun k => ?_).bind fun _ => Within.read.bind fun _ =>
    (Within.modify fun k => ?_).bind fun _ => ?_
  · have hset : Closes k (k.setStatus p .died) := closes_setTask k k.threadReadyList k.running rfl
    exact { hset with all := List.erase_subset }
  · exact { Closes.refl k with }
  · simp only [Bool.false_eq_true, if_false]
    exact .pure _

end Closes

/-! ### Exit and wait -/

section Exit

variable {m m' : Memory} {child x : ℕ}

theorem onKernel_lost {α : Type} {y : Prog Kernel α} (hy : Within Closes y) (hm : Lost child x m) :
    (onKernel y).wp (fun _ => Lost child x) m := by
  rw [wp_onKernel]
  exact wp_mono (wp_of_always (hy m.kernel)) fun _ k' h => hm.closes h m.cr3

theorem releasePtes_spares {table left pteI : ℕ}
    (htable : ∀ t, Avoids m x (m.pageTable table t).frame) :
    (releasePtes table left pteI).wp (fun _ => Spares x m) m := by
  induction left generalizing m pteI with
  | zero => exact Spares.refl x m
  | succ left ih =>
      have hround : ∀ m₁, Spares x m m₁ →
          (releasePtes table left (pteI + 1)).wp (fun _ => Spares x m) m₁ := by
        intro m₁ h₁
        have htable₁ : ∀ t, Avoids m₁ x (m₁.pageTable table t).frame := fun t =>
          (h₁.avoids _).mpr (h₁.pageTable _ t (htable t))
        exact wp_mono (ih htable₁) fun _ m₂ h₂ => h₁.trans h₂
      simp only [releasePtes, wp_bind, wp_read]
      split
      · rw [wp_bind]
        exact wp_mono (pfree_spares (htable pteI)) fun _ m₁ h₁ => hround m₁ h₁.1
      · exact hround m (Spares.refl x m)

theorem releasePdes_spares {pgdir left pdeI : ℕ} (hdir : SafeDir m x pgdir) :
    (releasePdes pgdir left pdeI).wp (fun _ => Spares x m) m := by
  induction left generalizing m pdeI with
  | zero => exact Spares.refl x m
  | succ left ih =>
      have hround : ∀ m₁, Spares x m m₁ →
          (releasePdes pgdir left (pdeI + 1)).wp (fun _ => Spares x m) m₁ := fun m₁ h₁ =>
        wp_mono (ih (h₁.safeDir hdir)) fun _ m₂ h₂ => h₁.trans h₂
      simp only [releasePdes, wp_bind, wp_read]
      split
      next hpresent =>
        obtain ⟨htable, hptes⟩ := hdir pdeI hpresent
        simp only [wp_bind]
        refine wp_mono (releasePtes_spares hptes) ?_
        rintro - m₁ h₁
        refine wp_mono (pfree_spares ((h₁.avoids _).mpr htable)) ?_
        exact fun _ m₂ h₂ => hround m₂ (h₁.trans h₂.1)
      · exact hround m (Spares.refl x m)

/-- The pages of the block of an open inode. -/
theorem Lost.inodePages (hm : Lost child x m) {a : ℕ} (ha : a ∈ m.kernel.openInodes) (k' : Kernel) :
    SafePages { m with kernel := k' } x (heapRun m.kernelHeap (m.inodeBlock a)).1
      (heapRun m.kernelHeap (m.inodeBlock a)).2 := by
  set run := heapRun m.kernelHeap (m.inodeBlock a) with hrun
  have hpage : ∀ c < run.2, kHeapStart ≤ run.1 + c * pgSize ∧
      Avoids m x (m.kernelTable ((run.1 + c * pgSize) / pgSize)).frame := fun c hc =>
    hm.owned _ (.inode ha hc)
  rcases Nat.eq_zero_or_pos run.2 with hzero | hpos
  · rw [hzero]
    exact fun _ _ _ c hc => absurd hc (Nat.not_lt_zero c)
  · have hbase : kHeapStart ≤ run.1 := by simpa using (hpage 0 hpos).1
    refine safePages_kernel (kernelBase_le_of_heap hbase) fun c hc => ?_
    rw [← Nat.add_mul_div_right _ _ (by decide : 0 < pgSize)]
    exact (hpage c hc).2

/-- The inodes that `inode_close` took off the list are freed. -/
theorem freeInodes_lost {gone : List ℕ} (hm : Lost child x m)
    (hgone : ∀ a ∈ gone, SafePages m x (heapRun m.kernelHeap (m.inodeBlock a)).1
      (heapRun m.kernelHeap (m.inodeBlock a)).2) :
    (freeInodes gone).wp (fun _ => Lost child x) m := by
  induction gone generalizing m with
  | nil => exact hm
  | cons a gone ih =>
      simp only [freeInodes, wp_bind, wp_read]
      refine wp_mono (sysFreeKernel_spares (hgone a List.mem_cons_self)) ?_
      rintro - m₁ ⟨h₁, hcr3⟩
      refine ih (hm.spares h₁) fun b hb => ?_
      rw [h₁.heap, h₁.block]
      exact (hgone b (List.mem_cons_of_mem a hb)).spares h₁ hcr3

theorem releaseFd_lost {fd : ℕ} (hm : Lost child x m) :
    (releaseFd fd).wp (fun _ => Lost child x) m := by
  simp only [releaseFd, wp_bind, wp_read]
  split
  · exact hm
  · rw [wp_bind, wp_onKernel]
    refine wp_mono (wp_and isPipe_spec isPipe_entry) ?_
    rintro pipe k₁ ⟨rfl, g, hg, htable, hflag⟩
    cases pipe with
    | true =>
        simp only [if_true, wp_bind]
        rw [wp_onKernel]
        refine wp_mono fdLocal2global_spec ?_
        rintro g' _ ⟨rfl, -, htable', -⟩
        obtain rfl : g' = g := by
          rw [htable] at htable'
          exact_mod_cast htable'.symm
        rw [wp_onKernel]
        refine wp_mono (wp_of_always (pipeDrop_closes g' m.kernel)) ?_
        intro _ k' hk'
        have hm' : Lost child x { m with kernel := k' } := hm.closes hk' m.cr3
        split
        · split
          · trivial
          next page hpage =>
            have hv : Owned m page := .pipe (hflag.mp rfl) hpage
            refine wp_mono (mfreePage_spares (hm.page hv k')) ?_
            exact fun _ m₂ h₂ => hm'.spares h₂.1
        · exact hm'
    | false =>
        simp only [Bool.false_eq_true, if_false, wp_bind]
        rw [wp_onKernel]
        refine wp_mono (wp_of_always (sysClose_closes fd m.kernel)) ?_
        intro _ k' hk'
        have hm' : Lost child x { m with kernel := k' } := hm.closes hk' m.cr3
        rw [wp_read]
        exact freeInodes_lost hm' fun a ha => hm.inodePages (List.mem_of_mem_filter ha) k'

theorem releaseFds_lost {left fd : ℕ} (hm : Lost child x m) :
    (releaseFds left fd).wp (fun _ => Lost child x) m := by
  induction left generalizing m fd with
  | zero => exact hm
  | succ left ih =>
      simp only [releaseFds, wp_bind]
      exact wp_mono (releaseFd_lost hm) fun _ m₁ hm₁ => ih hm₁

theorem releaseProgResource_lost (hm : Lost child x m) (hrun : m.kernel.running = child) :
    Paging.releaseProgResource.wp (fun _ => Lost child x) m := by
  simp only [Paging.releaseProgResource, wp_bind, wp_read, hrun]
  refine wp_mono (releasePdes_spares hm.dir) ?_
  rintro - m₁ h₁
  have hm₁ := hm.spares h₁
  have hpages : SafePages m₁ x (m.spaces child).bitmapPages
      ((m.spaces child).vaddrBitmap.btmpBytesLen / pgSize) := by
    rw [hm.len, ← h₁.bitmapPages]
    exact safePages_kernel (kernelBase_le_of_heap hm₁.base) hm₁.bitmap
  refine wp_mono (mfreePage_spares hpages) ?_
  exact fun _ m₂ h₂ => releaseFds_lost (hm₁.spares h₂.1)

theorem sysExit_lost {status : ℤ} (hm : Lost child x m) (hrun : m.kernel.running = child) :
    (Paging.sysExit status).wp (fun _ => Lost child x) m := by
  simp only [Paging.sysExit, wp_bind]
  rw [wp_onKernel, wp_modify, wp_read]
  set k₁ := m.kernel.setTask m.kernel.running { m.kernel.cur with exitStatus := wrap8 status }
  have h₁ : Closes m.kernel k₁ := closes_setTask m.kernel m.kernel.threadReadyList m.kernel.running rfl
  change (match k₁.cur.parentPid with
    | none => _
    | some _ => _ : Prog Memory Unit).wp _ _
  cases k₁.cur.parentPid with
  | none => trivial
  | some n =>
      simp only [wp_bind]
      rw [wp_onKernel, wp_modify]
      have hm₂ : Lost child x { m with kernel := k₁.adoptChildren k₁.cur.pid } :=
        hm.closes (Trans.trans h₁ (adoptChildren_closes k₁ _)) m.cr3
      refine wp_mono (releaseProgResource_lost hm₂ hrun) ?_
      rintro - m₃ hm₃
      refine wp_mono (onKernel_lost exitFinish_closes hm₃) ?_
      rintro - m₄ hm₄
      exact hm₄.closes (Closes.refl _) _

theorem threadExit_lost {p : ℕ} (hm : Lost child x m) (hp : p ∈ m.kernel.threadAllList) :
    (Paging.threadExit p).wp (fun _ => Lost child x) m := by
  -- the control block, after the page directory
  have hend : ∀ m₁, Spares x m m₁ → m₁.cr3 = m.cr3 →
      (if p ≠ m.mainThread then do
          mfreePage .kernel (m.spaces p).pcb 1
          onKernel (BochsOs.threadExit p false)
        else onKernel (BochsOs.threadExit p false) : Prog Memory Unit).wp
        (fun _ => Lost child x) m₁ := by
    intro m₁ h₁ hcr3
    split
    next hmain =>
      have hpcb := (hm.page (.pcb hp hmain) m.kernel).spares h₁ hcr3
      rw [wp_bind]
      refine wp_mono (mfreePage_spares hpcb) ?_
      exact fun _ m₂ h₂ => onKernel_lost (threadExit_closes p) (hm.spares (h₁.trans h₂.1))
    · exact onKernel_lost (threadExit_closes p) (hm.spares h₁)
  simp only [Paging.threadExit, wp_bind, wp_read]
  split
  next hproc =>
    rw [wp_bind]
    refine wp_mono (mfreePage_spares (hm.page (.pgdir hp hproc) m.kernel)) ?_
    exact fun _ m₁ h₁ => hend m₁ h₁.1 h₁.2
  · exact hend m (Spares.refl x m) rfl

theorem sysWaitHanging_lost (hm : Lost child x m) :
    sysWaitHanging.wp (fun _ => Lost child x) m := by
  simp only [sysWaitHanging, wp_bind, wp_read]
  split
  · exact hm
  next p hfind =>
    simp only [wp_bind, wp_pure]
    exact threadExit_lost hm (List.mem_of_find?_eq_some hfind)

theorem Elsewhere.lost (h : Elsewhere m m') (hm : Lost child x m) : Lost child x m' := by
  have hcloses : Closes m.kernel m'.kernel := by
    refine ⟨?_, ?_, fun g page hflag hpage => ?_, h.process⟩
    · rw [h.all]
      exact fun _ hp => hp
    · rw [h.openInodes]
      exact fun _ ha => ha
    · rw [h.fileTable] at hflag hpage
      exact ⟨hflag, hpage⟩
  rw [h.memory]
  exact hm.closes hcloses _

theorem ChildStep.lost (h : ChildStep child m m') (hm : Lost child x m) : Lost child x m' := by
  cases h with
  | malloc hrun hcall =>
      exact hm.spares (wp_iff_returns.mp (sysMalloc_spares hm.toFrame) _ _ hcall)
  | free hrun huser hcall =>
      have hdir : SafeDir m x m.cr3 := by
        rw [hrun.2]
        exact hm.dir
      exact hm.spares (wp_iff_returns.mp (sysFree_spares hdir huser) _ _ hcall)
  | elsewhere h => exact Elsewhere.lost h hm

end Exit

/-! ### Fork -/

section Fork

variable {m m' : Memory} {child x : ℕ}

/-- The page `v` is not on the frame with bit `x`. -/
def Kept (x : ℕ) (m : Memory) (v : ℕ) : Prop :=
  kHeapStart ≤ v ∧ Avoids m x (m.kernelTable (v / pgSize)).frame

theorem Kept.spares {v : ℕ} (hv : Kept x m v) (h : Spares x m m') : Kept x m' v :=
  ⟨hv.1, (h.avoids _).mpr (h.table _ hv.2)⟩

theorem avoids_takes {j : ℕ} (h : Takes m m') (hx : m.kernelPool.poolBitmap.bit x = true)
    (hj : Avoids m x (m.kernelTable j).frame) : Avoids m' x (m'.kernelTable j).frame := by
  rcases h.entry j with heq | hnew
  · rw [heq, Avoids, h.kernelFrame_eq]
    exact hj
  · intro hy
    rw [(hnew x hy).1] at hx
    cases hx

theorem Kept.takes {v : ℕ} (hv : Kept x m v) (h : Takes m m')
    (hx : m.kernelPool.poolBitmap.bit x = true) : Kept x m' v :=
  ⟨hv.1, avoids_takes h hx hv.2⟩

theorem Owned.takes (h : Takes m m') {v : ℕ} (hv : Owned m' v) : Owned m v := by
  rw [h.rest] at hv
  cases hv with
  | pcb hp hmain => exact .pcb hp hmain
  | pgdir hp hproc => exact .pgdir hp hproc
  | pipe hflag hpage => exact .pipe hflag hpage
  | inode ha hc => exact .inode ha hc

/-- Before the bitmap is taken, all pages with an owner are in use. -/
structure Ready (child : ℕ) (m : Memory) : Prop where
  layout : Layout m
  owned : ∀ v, Owned m v → Held m v
  pcb : Held m (m.spaces child).pcb
  fresh : child ∉ m.kernel.threadAllList
  running : m.kernel.running ≠ child
  len : (m.spaces m.kernel.running).vaddrBitmap.btmpBytesLen = userBitmapLen

theorem Ready.takes (hm : Ready child m) (h : Takes m m') : Ready child m' where
  layout := h.layout hm.layout
  owned v hv := (hm.owned v (hv.takes h)).takes h
  pcb := by
    have hspaces : m'.spaces = m.spaces := by rw [h.rest]
    rw [hspaces]
    exact hm.pcb.takes h
  fresh := by
    rw [h.rest]
    exact hm.fresh
  running := by
    rw [h.rest]
    exact hm.running
  len := by
    rw [h.rest]
    exact hm.len

/-- The control block of the child changes, and its place is known. -/
theorem Ready.setChild (hm : Ready child m) {k' : Kernel} {space : AddrSpace}
    {freeLists : ℕ × ℕ → List ℕ} (hall : k'.threadAllList = m.kernel.threadAllList)
    (hopen : k'.openInodes = m.kernel.openInodes) (hfile : k'.fileTable = m.kernel.fileTable)
    (hrun : k'.running = m.kernel.running)
    (hproc : ∀ p, p ≠ child → (k'.tasks p).isProcess = (m.kernel.tasks p).isProcess)
    (hpcb : space.pcb = (m.spaces child).pcb) :
    Ready child { m.setSpace child space with kernel := k', freeLists := freeLists } := by
  have hspace : ∀ p, p ≠ child → (m.setSpace child space).spaces p = m.spaces p := fun p hp =>
    Function.update_of_ne hp _ _
  have hself : (m.setSpace child space).spaces child = space := Function.update_self _ _ _
  have hne : ∀ p ∈ k'.threadAllList, p ≠ child := by
    rintro p hp rfl
    rw [hall] at hp
    exact hm.fresh hp
  have hheld : ∀ v, Held m v →
      Held { m.setSpace child space with kernel := k', freeLists := freeLists } v := fun v hv =>
    ⟨hv.base, hv.vaddr, hv.pool⟩
  refine ⟨⟨hm.layout.pos, hm.layout.fits⟩, fun v hv => hheld v ?_, ?_, ?_, ?_, ?_⟩
  · cases hv with
    | @pcb p hp hmain =>
        change Held m ((m.setSpace child space).spaces p).pcb
        rw [hspace p (hne p hp)]
        exact hm.owned _ (.pcb (hall ▸ hp) hmain)
    | @pgdir p hp hproc' =>
        change Held m ((m.setSpace child space).spaces p).pgdir
        rw [hspace p (hne p hp)]
        exact hm.owned _ (.pgdir (hall ▸ hp) ((hproc p (hne p hp)).symm.trans hproc'))
    | pipe hflag hpage =>
        change (k'.fileTable _).fdFlag = _ at hflag
        change (k'.fileTable _).fdInode = _ at hpage
        rw [hfile] at hflag hpage
        exact hm.owned _ (.pipe hflag hpage)
    | inode ha hc => exact hm.owned _ (.inode (hopen ▸ ha) hc)
  · refine hheld _ ?_
    change Held m ((m.setSpace child space).spaces child).pcb
    rw [hself, hpcb]
    exact hm.pcb
  · change child ∉ k'.threadAllList
    rw [hall]
    exact hm.fresh
  · change k'.running ≠ child
    rw [hrun]
    exact hm.running
  · change ((m.setSpace child space).spaces k'.running).vaddrBitmap.btmpBytesLen = _
    rw [hrun, hspace _ hm.running]
    exact hm.len

/-- With the bitmap of the child: what holds of the frame of its last page. -/
structure Made (child x : ℕ) (m : Memory) : Prop extends Frame x m where
  owned : ∀ v, Owned m v → Kept x m v
  pcb : Kept x m (m.spaces child).pcb
  base : kHeapStart ≤ (m.spaces child).bitmapPages
  bitmap : ∀ c < userBitmapLen / pgSize,
    Avoids m x (m.kernelTable ((m.spaces child).bitmapPages / pgSize + c)).frame
  len : (m.spaces child).vaddrBitmap.btmpBytesLen = userBitmapLen
  fresh : child ∉ m.kernel.threadAllList

theorem copyPcb_spec {m : Memory} (hm : Ready child m) {buf : ℕ} (hbuf : Held m buf) :
    (copyPcbVaddrbitmapStack0 child).wp (fun ok m' => ok = true →
      ∃ x < 8 * m.kernelPool.poolBitmap.btmpBytesLen, m.kernelPool.poolBitmap.bit x = false ∧
        Made child x m' ∧ Kept x m' buf) m := by
  simp only [copyPcbVaddrbitmapStack0, wp_bind]
  rw [wp_onKernel]
  refine wp_mono allocatePid_spec ?_
  rintro pid k₁ ⟨-, -, -, rfl⟩
  rw [wp_modify]
  set m₁ := copyPcb child pid { m with kernel := m.kernel.takePid pid } with hm₁
  have hspace : m₁.spaces child =
      { m.spaces m.kernel.running with pcb := (m.spaces child).pcb } := Function.update_self _ _ _
  have hready : Ready child m₁ := by
    refine hm.setChild rfl rfl rfl rfl (fun p hp => ?_) rfl
    change (Function.update m.kernel.tasks child _ p).isProcess = _
    rw [Function.update_of_ne hp]
  have hbuf₁ : Held m₁ buf := ⟨hbuf.base, hbuf.vaddr, hbuf.pool⟩
  change (getKernelPages bitmapPgCnt).wp _ m₁
  refine wp_mono (getKernelPages_spec bitmapPgCnt) ?_
  rintro r m₂ ⟨htakes, htaken⟩
  cases r with
  | none => exact fun h => by cases h
  | some pages =>
      have ht := htaken pages rfl
      have hspaces : m₂.spaces = m₁.spaces := by rw [htakes.rest]
      obtain ⟨x, hrange, hclear, hset, hother⟩ := ht.last (by decide)
      have hkept : ∀ v, Held m₁ v → Kept x m₂ v := fun v hv =>
        ⟨hv.base, hv.ne_new htakes ht hclear⟩
      simp only [wp_bind, wp_modify, wp_pure]
      intro _
      refine ⟨x, hrange, hclear, ?_, hkept buf hbuf₁⟩
      set m₃ := m₂.setSpace child { m₂.spaces child with bitmapPages := pages } with hm₃
      have hspace₃ : m₃.spaces child = { m₂.spaces child with bitmapPages := pages } :=
        Function.update_self _ _ _
      refine ⟨⟨?_, ?_, hset⟩, fun v hv => ?_, ?_, ?_, ?_, ?_, ?_⟩
      · exact ⟨(htakes.layout hready.layout).pos, (htakes.layout hready.layout).fits⟩
      · change x < 8 * m₂.kernelPool.poolBitmap.btmpBytesLen
        rw [htakes.len]
        exact hrange
      · refine hkept v (hready.owned v (Owned.takes htakes ?_))
        cases hv with
        | @pcb p hp hmain =>
            have hne : p ≠ child := by
              rintro rfl
              exact (hready.takes htakes).fresh hp
            rw [show m₃.spaces p = m₂.spaces p from Function.update_of_ne hne _ _]
            exact .pcb hp hmain
        | @pgdir p hp hproc =>
            have hne : p ≠ child := by
              rintro rfl
              exact (hready.takes htakes).fresh hp
            rw [show m₃.spaces p = m₂.spaces p from Function.update_of_ne hne _ _]
            exact .pgdir hp hproc
        | pipe hflag hpage => exact .pipe hflag hpage
        | inode ha hc => exact .inode ha hc
      · rw [hspace₃, hspaces]
        exact hkept _ hready.pcb
      · rw [hspace₃]
        exact ht.base
      · rw [hspace₃]
        exact hother
      · rw [hspace₃, hspaces, hspace]
        exact hm.len
      · exact (hready.takes htakes).fresh

/-- The page directory of the child is empty, and its page is not the lost one. -/
theorem createPageDir_spec {buf : ℕ} (hm : Made child x m) (hbuf : Kept x m buf) :
    createPageDir.wp (fun r m₁ => ∀ pgdir ∈ r,
      let m' := m₁.setSpace child { m₁.spaces child with pgdir := pgdir }
      Lost child x m' ∧ child ∉ m'.kernel.threadAllList ∧ Kept x m' (m'.spaces child).pcb ∧
        Kept x m' (m'.spaces child).pgdir ∧ Kept x m' buf) m := by
  simp only [createPageDir, wp_bind]
  refine wp_mono (getKernelPages_spec 1) ?_
  rintro r m₁ ⟨htakes, htaken⟩
  cases r with
  | none => exact fun _ h => by cases h
  | some pgdir =>
      have ht := htaken pgdir rfl
      have hspaces : m₁.spaces = m.spaces := by rw [htakes.rest]
      have hall : m₁.kernel = m.kernel := by rw [htakes.rest]
      have hnew : Kept x m₁ pgdir := by
        refine ⟨ht.base, fun hy => ?_⟩
        have hclear := (ht.new 0 Nat.one_pos x hy).1
        rw [hm.pool] at hclear
        cases hclear
      simp only [wp_bind, wp_modify, wp_pure]
      intro pgdir' hpgdir'
      obtain rfl := Option.some_injective _ hpgdir'
      set m₂ : Memory :=
        { m₁ with pageDir := Function.update m₁.pageDir pgdir fun _ => ⟨0, false⟩ } with hm₂
      set m₃ := m₂.setSpace child { m₂.spaces child with pgdir := pgdir } with hm₃
      have hself : m₃.spaces child = { m.spaces child with pgdir := pgdir } := by
        rw [← hspaces]
        exact Function.update_self _ _ _
      have hkept : ∀ v, Kept x m v → Kept x m₃ v := fun v hv =>
        ⟨hv.1, (hv.takes htakes hm.pool).2⟩
      have hne : ∀ p ∈ m₁.kernel.threadAllList, p ≠ child := by
        rintro p hp rfl
        rw [hall] at hp
        exact hm.fresh hp
      have hframe : Frame x m₁ := ⟨htakes.layout hm.layout, by rw [htakes.len]; exact hm.range,
        htakes.pool x hm.pool⟩
      refine ⟨⟨⟨⟨hframe.layout.pos, hframe.layout.fits⟩, hframe.range, hframe.pool⟩,
        fun v hv => ?_, ?_, fun c hc => ?_, ?_, fun d hd => ?_⟩, ?_, ?_, ?_, hkept buf hbuf⟩
      · refine hkept v (hm.owned v (Owned.takes htakes ?_))
        cases hv with
        | @pcb p hp hmain =>
            rw [show m₃.spaces p = m₁.spaces p from Function.update_of_ne (hne p hp) _ _]
            exact .pcb hp hmain
        | @pgdir p hp hproc =>
            rw [show m₃.spaces p = m₁.spaces p from Function.update_of_ne (hne p hp) _ _]
            exact .pgdir hp hproc
        | pipe hflag hpage => exact .pipe hflag hpage
        | inode ha hc => exact .inode ha hc
      · rw [hself]
        exact hm.base
      · rw [hself]
        have havoid := avoids_takes htakes hm.pool (hm.bitmap c hc)
        exact havoid
      · rw [hself]
        exact hm.len
      · -- no page table is present yet
        rw [hself] at hd
        change (Function.update m₁.pageDir pgdir (fun _ => ⟨0, false⟩) pgdir d).present = true at hd
        rw [Function.update_self] at hd
        cases hd
      · change child ∉ m₁.kernel.threadAllList
        rw [hall]
        exact hm.fresh
      · rw [hself]
        exact hkept _ hm.pcb
      · rw [hself]
        exact hnew

theorem copyPage_spares {parent vaddr : ℕ} (hx : Frame x m) :
    (copyPage child parent vaddr).wp (fun _ => Spares x m) m := by
  have htouch : ∀ (m₁ : Memory) (Q : Unit → Memory → Prop), Q () m₁ → (touch vaddr).wp Q m₁ := by
    intro m₁ Q hQ
    simp only [touch, wp_bind, wp_read]
    split
    · trivial
    · split
      · exact hQ
      · trivial
  simp only [copyPage, wp_bind, getAPageWithoutOpvaddrbitmap]
  refine htouch m _ ?_
  rw [pageDirActivate, wp_modify]
  set m₁ : Memory :=
    { m with cr3 := if (m.kernel.tasks child).isProcess then (m.spaces child).pgdir else 0 } with hm₁
  have h₁ : Spares x m m₁ := { Spares.refl x m with }
  refine wp_mono (palloc_spares (hx.spares h₁)) ?_
  rintro r m₂ ⟨h₂, hframe⟩
  have hend : ∀ m₃, Spares x m m₃ →
      (do
        touch vaddr
        modify fun m =>
          { m with
            arenas := Function.update m.arenas child
              (Function.update (m.arenas child) vaddr (m.arenas parent vaddr)) }
        pageDirActivate parent : Prog Memory Unit).wp (fun _ => Spares x m) m₃ := by
    intro m₃ h₃
    simp only [wp_bind]
    refine htouch m₃ _ ?_
    rw [wp_modify, pageDirActivate, wp_modify]
    exact { h₃ with }
  cases r with
  | none =>
      have := hend m₂ (h₁.trans h₂)
      simpa only [wp_bind, wp_pure] using this
  | some frame =>
      have hx₂ := (hx.spares h₁).spares h₂
      simp only [wp_bind]
      refine wp_mono (pageTableAdd_spares hx₂ ((h₂.avoids frame).mpr (hframe frame rfl))) ?_
      rintro - m₃ h₃
      have := hend m₃ ((h₁.trans h₂).trans h₃)
      simpa only [wp_bind, wp_pure] using this

theorem copyBits_spares {parent idxByte left idxBit : ℕ} (hx : Frame x m) :
    (copyBits child parent idxByte left idxBit).wp (fun _ => Spares x m) m := by
  induction left generalizing m idxBit with
  | zero => exact Spares.refl x m
  | succ left ih =>
      have hround : ∀ m₁, Spares x m m₁ →
          (copyBits child parent idxByte left (idxBit + 1)).wp (fun _ => Spares x m) m₁ := fun m₁ h₁ =>
        wp_mono (ih (hx.spares h₁)) fun _ m₂ h₂ => h₁.trans h₂
      simp only [copyBits, wp_bind, wp_read]
      generalize (idxByte * 8 + idxBit) * pgSize + userVaddrStart = vaddr
      split
      · rw [wp_bind]
        exact wp_mono (copyPage_spares hx) fun _ m₁ h₁ => hround m₁ h₁
      · exact hround m (Spares.refl x m)

theorem copyBody_spares {parent left idxByte : ℕ} (hx : Frame x m) :
    (copyBody child parent left idxByte).wp (fun _ => Spares x m) m := by
  induction left generalizing m idxByte with
  | zero => exact Spares.refl x m
  | succ left ih =>
      simp only [copyBody, wp_bind, wp_read]
      split
      · rw [wp_bind]
        refine wp_mono (copyBits_spares hx) ?_
        exact fun _ m₁ h₁ => wp_mono (ih (hx.spares h₁)) fun _ m₂ h₂ => h₁.trans h₂
      · exact ih hx

/-- A page that was taken, on another frame than the lost one, can be given back. -/
theorem Kept.safePages {v : ℕ} (hv : Kept x m v) : SafePages m x v 1 := by
  refine safePages_kernel (kernelBase_le_of_heap hv.1) fun c hc => ?_
  rw [Nat.lt_one_iff.mp hc]
  exact hv.2

/-- What `sys_fork` leaves behind. -/
structure Forked (child x : ℕ) (m : Memory) : Prop extends Lost child x m where
  fresh : child ∉ m.kernel.threadAllList
  pcb : Kept x m (m.spaces child).pcb
  pgdir : Kept x m (m.spaces child).pgdir

theorem Forked.spares (hm : Forked child x m) (h : Spares x m m') : Forked child x m' where
  toLost := hm.toLost.spares h
  fresh := by
    rw [h.kernel]
    exact hm.fresh
  pcb := by
    rw [h.pcb]
    exact hm.pcb.spares h
  pgdir := by
    rw [h.pgdir]
    exact hm.pgdir.spares h

theorem Forked.closes (hm : Forked child x m) {k' : Kernel} (h : Closes m.kernel k') :
    Forked child x { m with kernel := k' } where
  toLost := hm.toLost.closes h m.cr3
  fresh := fun hmem => hm.fresh (h.all hmem)
  pcb := hm.pcb
  pgdir := hm.pgdir

/-- The child is put into the list of all threads. -/
theorem Forked.listed (hm : Forked child x m) {readyList : List ℕ} :
    Lost child x { m with
      kernel := { m.kernel with
        threadReadyList := readyList
        threadAllList := m.kernel.threadAllList ++ [child] } } :=
  { hm.toLost with
    layout := ⟨hm.layout.pos, hm.layout.fits⟩
    owned := by
      intro v hv
      cases hv with
      | pcb hp hmain =>
          rcases List.mem_append.mp hp with hp | hp
          · exact hm.owned _ (.pcb hp hmain)
          · rw [List.mem_singleton.mp hp]
            exact hm.pcb
      | pgdir hp hproc =>
          rcases List.mem_append.mp hp with hp | hp
          · exact hm.owned _ (.pgdir hp hproc)
          · rw [List.mem_singleton.mp hp]
            exact hm.pgdir
      | pipe hflag hpage => exact hm.owned _ (.pipe hflag hpage)
      | inode ha hc => exact hm.owned _ (.inode ha hc) }

/-- Before the pages are copied. -/
theorem copyHead_spec (hm : Ready child m) :
    (copyHead child).wp (fun r m' => ∀ buf ∈ r,
      ∃ x < 8 * m.kernelPool.poolBitmap.btmpBytesLen, m.kernelPool.poolBitmap.bit x = false ∧
        Forked child x m' ∧ Kept x m' buf) m := by
  simp only [copyHead, wp_bind]
  refine wp_mono (getKernelPages_spec 1) ?_
  rintro r m₁ ⟨htakes, htaken⟩
  cases r with
  | none => exact fun _ h => by cases h
  | some buf =>
      have hbuf : Held m₁ buf := by
        simpa using (htaken buf rfl).held Nat.one_pos
      simp only [wp_bind]
      refine wp_mono (copyPcb_spec (hm.takes htakes) hbuf) ?_
      intro ok m₂ hm₂
      cases ok with
      | false => exact fun _ h => by cases h
      | true =>
          obtain ⟨x, hrange, hclear, hmade, hbuf₂⟩ := hm₂ rfl
          rw [htakes.len] at hrange
          have hclear₀ : m.kernelPool.poolBitmap.bit x = false := by
            by_contra hne
            rw [htakes.pool x (by simpa using hne)] at hclear
            cases hclear
          simp only [if_true, wp_bind]
          refine wp_mono (createPageDir_spec hmade hbuf₂) ?_
          intro r m₃ hm₃
          cases r with
          | none => exact fun _ h => by cases h
          | some pgdir =>
              obtain ⟨hlost, hfresh, hpcb, hpgdir, hbuf₃⟩ := hm₃ pgdir rfl
              simp only [wp_bind, wp_modify, wp_pure]
              intro buf' hbuf'
              obtain rfl : buf = buf' := Option.some_injective _ hbuf'
              exact ⟨x, hrange, hclear₀, ⟨hlost, hfresh, hpcb, hpgdir⟩, hbuf₃⟩

theorem copyProcess_spec (hm : Ready child m) :
    (copyProcess child).wp (fun ok m' => ok = true →
      ∃ x < 8 * m.kernelPool.poolBitmap.btmpBytesLen, m.kernelPool.poolBitmap.bit x = false ∧
        Forked child x m') m := by
  simp only [copyProcess, wp_bind]
  refine wp_mono (copyHead_spec hm) ?_
  intro r m₄ hm₄
  cases r with
  | none => exact fun h => by cases h
  | some buf =>
      obtain ⟨x, hrange, hclear, hforked, hbuf₄⟩ := hm₄ buf rfl
      simp only [wp_bind, copyBodyStack3, wp_read]
      refine wp_mono (copyBody_spares hforked.toFrame) ?_
      intro _ m₅ h₅
      rw [wp_onKernel]
      refine wp_mono (wp_of_always (updateInodeOpenCnts_closes child _ _ m₅.kernel)) ?_
      intro _ k₆ h₆
      have hbuf₅ := hbuf₄.spares h₅
      have hbuf₆ : Kept x { m₅ with kernel := k₆ } buf := ⟨hbuf₅.1, hbuf₅.2⟩
      refine wp_mono (mfreePage_spares hbuf₆.safePages) ?_
      intro _ m₇ h₇ _
      exact ⟨x, hrange, hclear, ((hforked.spares h₅).closes h₆).spares h₇.1⟩

end Fork

end Paging

open Paging

/-- What holds between two calls: the pages with an owner are in use, and their frames are
taken. -/
structure Memory.WellFormed (m : Memory) : Prop where
  layout : Layout m
  owned : ∀ v, Owned m v → Held m v
  running : m.kernel.running ∈ m.kernel.threadAllList
  fresh : ∀ p ∈ m.kernel.threadAllList, p < m.kernel.nextTask
  len : (m.spaces m.kernel.running).vaddrBitmap.btmpBytesLen = userBitmapLen

/-- `sys_fork` takes a frame that nobody can give back. -/
theorem sysFork_loses {m : Memory} (hm : m.WellFormed) :
    Paging.sysFork.wp (fun r m' => ∀ child ∈ r,
      ∃ x < 8 * m.kernelPool.poolBitmap.btmpBytesLen, m.kernelPool.poolBitmap.bit x = false ∧
        Lost child x m') m := by
  simp only [Paging.sysFork, wp_bind]
  refine wp_mono (getKernelPages_spec 1) ?_
  rintro r m₁ ⟨htakes, htaken⟩
  cases r with
  | none => exact fun _ h => by cases h
  | some pcb =>
      have hkernel : m₁.kernel = m.kernel := by rw [htakes.rest]
      have hspaces : m₁.spaces = m.spaces := by rw [htakes.rest]
      have hpcb : Held m₁ pcb := by
        simpa using (htaken pcb rfl).held Nat.one_pos
      have hne : ∀ p ∈ m₁.kernel.threadAllList, p ≠ m₁.kernel.nextTask := fun p hp => by
        rw [hkernel] at hp ⊢
        exact (hm.fresh p hp).ne
      simp only [wp_bind, wp_read, wp_assert, wp_write]
      intro _
      set child := m₁.kernel.nextTask with hchild
      set m₂ : Memory := { m₁.setSpace child { m₁.spaces child with pcb := pcb } with
        kernel := { m₁.kernel with nextTask := child + 1 } } with hm₂
      have hspace : ∀ p, p ≠ child → m₂.spaces p = m₁.spaces p := fun p hp =>
        Function.update_of_ne hp _ _
      have hready : Ready child m₂ := by
        refine ⟨⟨(htakes.layout hm.layout).pos, (htakes.layout hm.layout).fits⟩, fun v hv => ?_, ?_,
          fun hmem => hne child hmem rfl, ?_, ?_⟩
        · have hv₁ : Owned m₁ v := by
            cases hv with
            | @pcb p hp hmain =>
                rw [hspace p (hne p hp)]
                exact .pcb hp hmain
            | @pgdir p hp hproc =>
                rw [hspace p (hne p hp)]
                exact .pgdir hp hproc
            | pipe hflag hpage => exact .pipe hflag hpage
            | inode ha hc => exact .inode ha hc
          have hheld := (hm.owned v (hv₁.takes htakes)).takes htakes
          exact ⟨hheld.base, hheld.vaddr, hheld.pool⟩
        · rw [show m₂.spaces child = { m₁.spaces child with pcb := pcb } from
            Function.update_self _ _ _]
          exact ⟨hpcb.base, hpcb.vaddr, hpcb.pool⟩
        · refine hne _ ?_
          change m₁.kernel.running ∈ _
          rw [hkernel]
          exact hm.running
        · have hrun : m₁.kernel.running ≠ child := hne _ (by rw [hkernel]; exact hm.running)
          change (m₂.spaces m₁.kernel.running).vaddrBitmap.btmpBytesLen = _
          rw [hspace _ hrun, hspaces, hkernel]
          exact hm.len
      refine wp_mono (copyProcess_spec hready) ?_
      intro ok m₃ hm₃
      cases ok with
      | false => exact fun _ h => by cases h
      | true =>
          obtain ⟨x, hrange, hclear, hforked⟩ := hm₃ rfl
          change x < 8 * m₁.kernelPool.poolBitmap.btmpBytesLen at hrange
          rw [htakes.len] at hrange
          have hclear₀ : m.kernelPool.poolBitmap.bit x = false := by
            by_contra hset
            have : m₁.kernelPool.poolBitmap.bit x = true := htakes.pool x (by simpa using hset)
            exact absurd (this.symm.trans hclear) (by decide)
          simp only [if_true, wp_bind]
          rw [Memory.wp_onKernel, wp_modify, wp_pure]
          intro child' hchild'
          obtain rfl : child = child' := Option.some_injective _ hchild'
          exact ⟨x, hrange, hclear₀, hforked.listed⟩

/-- Bit `x` of the kernel pool was clear before the lifetime and is set after it. -/
theorem lifetime_loses {m m' : Memory} (hm : m.WellFormed) (h : Lifetime m m') :
    ∃ x < 8 * m.kernelPool.poolBitmap.btmpBytesLen,
      m.kernelPool.poolBitmap.bit x = false ∧ m'.kernelPool.poolBitmap.bit x = true := by
  obtain ⟨hfork, hcalls, hrun, hexit, hswitch, -, hwait⟩ := h
  obtain ⟨x, hrange, hclear, hlost₁⟩ := wp_iff_returns.mp (sysFork_loses hm) _ _ hfork _ rfl
  rename_i child m₁ m₂ m₃ m₄ status code
  have hlost₂ : Lost child x m₂ := by
    clear hrun hexit
    induction hcalls with
    | refl => exact hlost₁
    | tail _ hstep ih => exact ChildStep.lost hstep ih
  have hlost₃ : Lost child x m₃ :=
    wp_iff_returns.mp (sysExit_lost hlost₂ hrun.1) _ _ hexit
  have hlost : Lost child x m' :=
    wp_iff_returns.mp (sysWaitHanging_lost (Elsewhere.lost hswitch hlost₃)) _ _ hwait
  exact ⟨x, hrange, hclear, hlost.pool⟩

/-- In no lifetime of a process are the pages conserved: the kernel pool loses a frame. -/
theorem page_not_conserved {m m' : Memory} (hm : m.WellFormed) (h : Lifetime m m') :
    ¬ PagesConserved m m' := by
  obtain ⟨x, hrange, hclear, hset⟩ := lifetime_loses hm h
  intro hsame
  have hbit := hsame.kernelPool x hrange
  rw [hclear, hset] at hbit
  cases hbit

/-! ## A run

After the boot `init` forks a child, which allocates a block and exits. -/

/-- What a change of threads leaves alone. -/
structure Switches (k k' : Kernel) : Prop where
  all : k'.threadAllList = k.threadAllList
  openInodes : k'.openInodes = k.openInodes
  fileTable : k'.fileTable = k.fileTable
  pid : ∀ p, (k'.tasks p).pid = (k.tasks p).pid
  process : ∀ p, (k'.tasks p).isProcess = (k.tasks p).isProcess

theorem Switches.refl (k : Kernel) : Switches k k := by
  constructor <;> simp

theorem Switches.trans {k k' k'' : Kernel} (h : Switches k k') (h' : Switches k' k'') :
    Switches k k'' where
  all := h'.all.trans h.all
  openInodes := h'.openInodes.trans h.openInodes
  fileTable := h'.fileTable.trans h.fileTable
  pid p := (h'.pid p).trans (h.pid p)
  process p := (h'.process p).trans (h.process p)

theorem switches_setTask (k : Kernel) (p : ℕ) (task : Task) (threadReadyList : List ℕ) (running : ℕ)
    (hpid : task.pid = (k.tasks p).pid) (hproc : task.isProcess = (k.tasks p).isProcess) :
    Switches k { k.setTask p task with threadReadyList := threadReadyList, running := running } := by
  refine ⟨rfl, rfl, rfl, fun q => ?_, fun q => ?_⟩ <;>
    by_cases hq : q = p <;> simp [Kernel.setTask, hq, hpid, hproc]

theorem dispatch_switches {k : Kernel} : dispatch.wp (fun _ => Switches k) k := by
  simp only [dispatch, wp_bind, wp_read]
  split
  · trivial
  · exact switches_setTask k _ _ _ _ rfl rfl

theorem schedule_switches {k : Kernel} : schedule.wp (fun _ => Switches k) k := by
  have hrequeue : requeue.wp (fun _ => Switches k) k := by
    simp only [requeue, wp_bind, wp_read]
    split
    · simp only [wp_bind, wp_assert, wp_write]
      exact fun _ => switches_setTask k _ _ _ k.running rfl rfl
    · exact Switches.refl k
  simp only [schedule, wp_bind]
  refine wp_mono hrequeue ?_
  intro _ k₁ h₁
  rw [wp_read]
  split
  · simp only [threadUnblock, wp_bind, wp_read, wp_assert, wp_write]
    intro _ _
    exact wp_mono dispatch_switches fun _ k₂ h₂ =>
      (h₁.trans (switches_setTask k₁ k₁.idleThread { k₁.tasks k₁.idleThread with status := .ready }
        _ k₁.running rfl rfl)).trans h₂
  · exact wp_mono dispatch_switches fun _ k₂ h₂ => h₁.trans h₂

theorem threadYield_switches {k : Kernel} : threadYield.wp (fun _ => Switches k) k := by
  simp only [threadYield, wp_bind, wp_read, wp_assert, wp_write]
  intro _
  exact wp_mono schedule_switches fun _ k₁ h₁ =>
    (switches_setTask k k.running { k.cur with status := .ready } _ k.running rfl rfl).trans h₁

/-- Another thread runs, in its own address space. -/
def Memory.switched (m : Memory) (k' : Kernel) : Memory :=
  { m with kernel := k', cr3 := (m.spaces k'.running).pgdir }

theorem elsewhere_yield {m : Memory} {k' : Kernel} (h : threadYield.Returns m.kernel () k') :
    Elsewhere m (m.switched k') := by
  have hk := wp_iff_returns.mp threadYield_switches _ _ h
  exact ⟨rfl, fun _ => rfl, hk.all, hk.openInodes, hk.fileTable, hk.pid, hk.process⟩

/-- `init`, with the idle thread. -/
def initKernel : Kernel :=
  { (default : Kernel) with
    tasks := fun p =>
      if p = 0 then { initTask 1 defaultPrio with status := .running, isProcess := true }
      else { initTask 3 10 with status := .blocked }
    nextTask := 3
    running := 0
    threadAllList := [0, 2]
    idleThread := 2
    pidBitmap := bitmapSet (bitmapSet pidPoolInit 0 true) 2 true }

/-- The address of a page of the kernel heap. -/
def heapPage (i : ℕ) : ℕ := kHeapStart + i * pgSize

/-- The pages of `init` and of the idle thread: the control blocks are pages 0 and 25, the
bitmap starts at page 1 and the page directory is page 24.  The stack of `init` has one page. -/
def initMemory : Memory where
  kernel := initKernel
  kernelPool := ⟨setBits ⟨480, fun _ => 0⟩ 0 true 27, 0x200000, 3840⟩
  userPool := ⟨setBits ⟨480, fun _ => 0⟩ 0 true 1, 0x1100000, 3840⟩
  kernelVaddr := setBits ⟨480, fun _ => 0⟩ 0 true 26
  kernelTable j := ⟨0x200000 + (j - kHeapStart / pgSize) * pgSize, j - kHeapStart / pgSize < 26⟩
  pageDir pgdir d := ⟨0x200000 + 26 * pgSize, pgdir = heapPage 24 ∧ d = 767⟩
  pageTable _ t := ⟨0x1100000, t = 1023⟩
  cr3 := heapPage 24
  spaces p :=
    if p = 0 then
      ⟨heapPage 0, heapPage 24, heapPage 1, userBitmapLen, fun i => if i = 94198 then 0x80 else 0⟩
    else ⟨heapPage 25, 0, 0, default⟩
  arenas _ _ := default
  freeLists _ := []
  kernelHeap := ⟨fun _ => default, fun _ => []⟩
  inodeBlock _ := 0
  mainThread := 1

namespace Paging

/-- The loop over the bitmap does nothing where the bytes are zero. -/
theorem copyBody_skip {m m' : Memory} {child parent n left idxByte : ℕ}
    (hzero : ∀ i, idxByte ≤ i → i < idxByte + n → (m.spaces parent).vaddrBitmap.bits i = 0)
    (h : (copyBody child parent left (idxByte + n)).Returns m () m') :
    (copyBody child parent (n + left) idxByte).Returns m () m' := by
  induction n generalizing idxByte with
  | zero =>
      rw [Nat.zero_add]
      exact h
  | succ n ih =>
      rw [Nat.add_right_comm, copyBody]
      refine returns_bind.mpr ⟨m, m, show Returns read m m m from ⟨rfl, rfl⟩, ?_⟩
      rw [if_neg (by rw [hzero idxByte le_rfl (by omega)]; simp)]
      change (copyBody child parent (n + left) (idxByte + 1)).Returns m () m'
      refine ih (fun i hi hi' => hzero i (by omega) (by omega)) ?_
      rw [show idxByte + 1 + n = idxByte + (n + 1) by omega]
      exact h

theorem copyHead_spaces {m : Memory} {child : ℕ} :
    (copyHead child).wp (fun _ m' => ∀ p, p ≠ child → m'.spaces p = m.spaces p) m := by
  have htakes : ∀ {m₁ m₂ : Memory}, Takes m₁ m₂ → (∀ p, p ≠ child → m₁.spaces p = m.spaces p) →
      ∀ p, p ≠ child → m₂.spaces p = m.spaces p := fun h h₁ p hp => by
    rw [h.rest]
    exact h₁ p hp
  have hset : ∀ {m₁ : Memory} (space : AddrSpace), (∀ p, p ≠ child → m₁.spaces p = m.spaces p) →
      ∀ p, p ≠ child → (m₁.setSpace child space).spaces p = m.spaces p := fun space h₁ p hp =>
    (Function.update_of_ne hp _ _).trans (h₁ p hp)
  simp only [copyHead, wp_bind]
  refine wp_mono (getKernelPages_spec 1) ?_
  rintro (_ | buf) m₁ ⟨h₁, -⟩
  · exact htakes h₁ fun _ _ => rfl
  simp only [wp_bind, copyPcbVaddrbitmapStack0]
  rw [Memory.wp_onKernel]
  refine wp_mono wp_true ?_
  intro pid k₂ _
  rw [wp_modify]
  have h₁' := htakes h₁ fun _ _ => rfl
  have h₂ : ∀ p, p ≠ child → (copyPcb child pid { m₁ with kernel := k₂ }).spaces p = m.spaces p :=
    @hset { m₁ with kernel := k₂ } _ h₁'
  refine wp_mono (getKernelPages_spec bitmapPgCnt) ?_
  rintro (_ | pages) m₃ ⟨h₃, -⟩
  · exact htakes h₃ h₂
  simp only [wp_bind, wp_modify, wp_pure, if_true, createPageDir]
  refine wp_mono (getKernelPages_spec 1) ?_
  rintro (_ | pgdir) m₄ ⟨h₄, -⟩
  · exact htakes h₄ (hset _ (htakes h₃ h₂))
  simp only [wp_bind, wp_modify, wp_pure]
  have h₅ := htakes h₄ (hset { m₃.spaces child with bitmapPages := pages } (htakes h₃ h₂))
  exact hset _ h₅

theorem initMemory_wellFormed : initMemory.WellFormed := by
  have hbits : ∀ i < 26, initMemory.kernelVaddr.bit (kernelBit (heapPage i)) = true ∧
      kernelFrame initMemory (initMemory.kernelTable (heapPage i / pgSize)).frame = some i ∧
      initMemory.kernelPool.poolBitmap.bit i = true := by
    decide +kernel
  have hheld : ∀ i < 26, Held initMemory (heapPage i) := by
    intro i hi
    obtain ⟨hvaddr, hframe, hpool⟩ := hbits i hi
    refine ⟨Nat.le_add_right _ _, hvaddr, fun y hy => ?_⟩
    rw [hframe] at hy
    rw [← Option.some_injective _ hy]
    exact hpool
  refine ⟨⟨by decide, by decide⟩, fun v hv => ?_, by decide, by decide, rfl⟩
  cases hv with
  | @pcb p hp hmain =>
      rcases (by simpa [initMemory, initKernel] using hp : p = 0 ∨ p = 2) with rfl | rfl
      · exact hheld 0 (by decide)
      · exact hheld 25 (by decide)
  | @pgdir p hp hproc =>
      rcases (by simpa [initMemory, initKernel] using hp : p = 0 ∨ p = 2) with rfl | rfl
      · exact hheld 24 (by decide)
      · cases hproc
  | pipe hflag => cases hflag
  | inode ha => cases ha

theorem initMemory_len : (initMemory.spaces 0).vaddrBitmap.btmpBytesLen = 94198 + 1 := rfl

theorem initMemory_zero {i : ℕ} (hi : i < 94198) : (initMemory.spaces 0).vaddrBitmap.bits i = 0 :=
  if_neg (by omega)

theorem initMemory_running : initMemory.kernel.running = 0 := rfl

theorem initMemory_spare : initMemory.kernelPool.poolBitmap.bit 51 = false := by decide +kernel

attribute [irreducible] initMemory

/-- With the control block of the child. -/
def pcbMemory : Memory :=
  let m := after (getKernelPages 1) initMemory
  { m.setSpace m.kernel.nextTask { m.spaces m.kernel.nextTask with pcb := heapPage 26 } with
    kernel := { m.kernel with nextTask := m.kernel.nextTask + 1 } }

/-- With the page directory of the child. -/
def headMemory : Memory := after (copyHead 3) pcbMemory

/-- With the body of the child, whose first page is on the stack. -/
def bodyMemory : Memory := after (copyBody 3 0 1 94198) headMemory

/-- After `copy_process`. -/
def copiedMemory : Memory :=
  after (do
    Memory.onKernel (updateInodeOpenCnts 3 (maxFilesOpenPerProc - 3) 3)
    mfreePage .kernel (heapPage 27) 1
    return true) bodyMemory

/-- After `sys_fork`. -/
def forkedMemory : Memory :=
  { copiedMemory with
    kernel := { copiedMemory.kernel with
      threadReadyList := copiedMemory.kernel.threadReadyList ++ [3]
      threadAllList := copiedMemory.kernel.threadAllList ++ [3] } }

/-- The child runs. -/
@[irreducible] def yieldedMemory : Memory :=
  forkedMemory.switched (after threadYield forkedMemory.kernel)

/-- The child has allocated a block. -/
def childMemory : Memory := after (sysMalloc 100) yieldedMemory

/-- After the `sys_exit` of the child. -/
def exitedMemory : Memory := after (sysExit 7) childMemory

/-- After the `sys_wait` of the parent. -/
def waitedMemory : Memory := after sysWaitHanging exitedMemory

/-- The results of the calls. -/
theorem initMemory_results :
    (((getKernelPages 1).exec [] initMemory).map Prod.fst = some (some (heapPage 26)) ∧
      (after (getKernelPages 1) initMemory).kernel.nextTask = 3 ∧
      (after (getKernelPages 1) initMemory).kernel.cur.isProcess = true) ∧
    (((copyHead 3).exec [] pcbMemory).map Prod.fst = some (some (heapPage 27)) ∧
      headMemory.kernel.running = 0 ∧
      ((copyBody 3 0 1 94198).exec [] headMemory).map Prod.fst = some () ∧
      ((do
        Memory.onKernel (updateInodeOpenCnts 3 (maxFilesOpenPerProc - 3) 3)
        mfreePage .kernel (heapPage 27) 1
        return true : Prog Memory Bool).exec [] bodyMemory).map Prod.fst = some true) ∧
    ((threadYield.exec [] forkedMemory.kernel).map Prod.fst = some () ∧
      ((sysMalloc 100).exec [] yieldedMemory).map Prod.fst = some (some 134512652) ∧
      yieldedMemory.kernel.running = 3 ∧ yieldedMemory.cr3 = (yieldedMemory.spaces 3).pgdir) ∧
    (((sysExit 7).exec [] childMemory).map Prod.fst = some () ∧
      (childMemory.kernel.running = 3 ∧ childMemory.cr3 = (childMemory.spaces 3).pgdir) ∧
      (sysWaitHanging.exec [] exitedMemory).map Prod.fst =
        some (some (((exitedMemory.kernel.tasks 3).pid : ℤ), (7 : ℤ))) ∧
      exitedMemory.kernel.running = 0 ∧
      exitedMemory.cr3 = (exitedMemory.spaces exitedMemory.kernel.running).pgdir ∧
      waitedMemory.kernelPool.poolBitmap.bit 51 = true) := by
  decide +kernel

/-- The page of the control block. -/
theorem initMemory_page :
    ((getKernelPages 1).exec [] initMemory).map Prod.fst = some (some (heapPage 26)) ∧
      (after (getKernelPages 1) initMemory).kernel.nextTask = 3 ∧
      (after (getKernelPages 1) initMemory).kernel.cur.isProcess = true :=
  initMemory_results.1

theorem headMemory_spaces : headMemory.spaces 0 = initMemory.spaces 0 := by
  have hpages : (getKernelPages 1).Returns initMemory (some (heapPage 26))
      (after (getKernelPages 1) initMemory) := returns_after initMemory_page.1
  have hpcb : pcbMemory.spaces 0 = initMemory.spaces 0 := by
    have hchild : 0 ≠ (after (getKernelPages 1) initMemory).kernel.nextTask := by
      rw [initMemory_page.2.1]
      decide
    refine (Function.update_of_ne hchild _ _).trans ?_
    rw [(wp_iff_returns.mp (getKernelPages_spec 1) _ _ hpages).1.rest]
  exact (wp_iff_returns.mp copyHead_spaces _ _ (returns_after initMemory_results.2.1.1) 0 (by decide)).trans hpcb

theorem copyBody_init : (copyBodyStack3 3).Returns headMemory () bodyMemory := by
  rw [copyBodyStack3, returns_bind]
  refine ⟨headMemory, headMemory, ⟨rfl, rfl⟩, ?_⟩
  obtain ⟨-, hrun, hbody, -⟩ := initMemory_results.2.1
  change (copyBody 3 headMemory.kernel.running _ 0).Returns _ _ _
  rw [hrun, headMemory_spaces, initMemory_len]
  refine copyBody_skip (fun i _ hi => ?_) (returns_after hbody)
  rw [headMemory_spaces]
  exact initMemory_zero (by omega)

theorem copyProcess_init : (copyProcess 3).Returns pcbMemory true copiedMemory := by
  obtain ⟨hhead, -, -, htail⟩ := initMemory_results.2.1
  rw [copyProcess, returns_bind]
  refine ⟨some (heapPage 27), headMemory, returns_after hhead, ?_⟩
  rw [returns_bind]
  exact ⟨(), bodyMemory, copyBody_init, returns_after htail⟩

theorem sysFork_init : sysFork.Returns initMemory (some 3) forkedMemory := by
  obtain ⟨hpage, hchild, hproc⟩ := initMemory_page
  rw [sysFork, returns_bind]
  refine ⟨some (heapPage 26), _, returns_after hpage, ?_⟩
  refine returns_bind.mpr ⟨_, _, ⟨rfl, rfl⟩, ?_⟩
  rw [hproc, returns_bind]
  refine ⟨(), _, ⟨rfl, rfl⟩, ?_⟩
  refine returns_bind.mpr ⟨(), pcbMemory, ⟨rfl, rfl⟩, ?_⟩
  rw [hchild, returns_bind]
  exact ⟨true, copiedMemory, copyProcess_init, ⟨rfl, rfl⟩⟩

theorem childStep_init : ChildStep 3 yieldedMemory childMemory := by
  obtain ⟨-, hexec, hrun, hcr3⟩ := initMemory_results.2.2.1
  have hruns : yieldedMemory.Runs 3 := ⟨hrun, hcr3⟩
  rw [childMemory]
  generalize yieldedMemory = m at *
  exact .malloc hruns (returns_after hexec)

theorem lifetime_init : Lifetime initMemory waitedMemory := by
  have hcall : threadYield.Returns forkedMemory.kernel () (after threadYield forkedMemory.kernel) :=
    returns_after initMemory_results.2.2.1.1
  have hyield : Elsewhere forkedMemory yieldedMemory := by
    rw [yieldedMemory]
    exact elsewhere_yield hcall
  obtain ⟨hexit, ⟨hrun, hchild⟩, hwait, hparent, hcr3, -⟩ := initMemory_results.2.2.2
  have hself : Elsewhere exitedMemory exitedMemory :=
    ⟨rfl, fun _ => hcr3, rfl, rfl, rfl, fun _ => rfl, fun _ => rfl⟩
  have hparent' : exitedMemory.kernel.running = initMemory.kernel.running := by
    rw [hparent, initMemory_running]
  exact .intro sysFork_init (.tail (.single (.elsewhere hyield)) childStep_init) ⟨hrun, hchild⟩
    (returns_after hexit) hself hparent' (returns_after hwait)

end Paging

/-- The lifetime of the child of `init` leaves a frame behind. -/
theorem page_not_conserved_init : ¬ PagesConserved initMemory waitedMemory :=
  page_not_conserved initMemory_wellFormed lifetime_init

/-- Bit 51 of the kernel pool, the last page of the bitmap of the child, stays set. -/
theorem init_loses_frame : initMemory.WellFormed ∧ Lifetime initMemory waitedMemory ∧
    ¬ PagesConserved initMemory waitedMemory := by
  refine ⟨initMemory_wellFormed, lifetime_init, fun h => ?_⟩
  obtain ⟨-, -, -, -, -, hbit⟩ := initMemory_results.2.2.2
  have hsame := h.kernelPool 51 (by decide +kernel)
  rw [hbit, initMemory_spare] at hsame
  cases hsame

end BochsOs
