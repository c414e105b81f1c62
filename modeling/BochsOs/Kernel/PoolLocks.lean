import BochsOs.Kernel.PageRuns
import BochsOs.Library.Waiting
import BochsOs.Thread.Lock
import BochsOs.Thread.Thread

/-!
# The locks of the pools

The functions of `kernel/memory.c` that take the lock of a pool, with their locks; what they do
to the memory in between is in `BochsOs.Kernel.Paging`.  A call by the running thread waits while
another thread holds the lock, and the others change the memory meanwhile.

`restores_iff`: a call leaves the locks as they were, unless it is a `get_a_page` that finds no
free frame.
-/

namespace BochsOs

open Suspend Suspend.Prog

/-! ## The code -/

/-- The memory with `kernel_pool.lock` and `user_pool.lock`. -/
structure LockedMemory where
  memory : Memory
  lock : PoolFlags → Lock

namespace LockedMemory

variable (w : LockedMemory)

/-- `running_thread()`. -/
def running : ℕ := w.memory.kernel.running

/-- Change the lock of a pool. -/
def setLock (pf : PoolFlags) (lock : Lock) : LockedMemory :=
  { w with lock := Function.update w.lock pf lock }

end LockedMemory

/-- Code that does not touch the locks. -/
def onMemory {α : Type} (x : Prog Memory α) : Prog LockedMemory α :=
  x.focus LockedMemory.memory fun m w => { w with memory := m }

namespace PoolLocks

open Memory Paging

/-- `sema_down` of the semaphore of a lock, which tests it at most `rounds` times. -/
def semaDown (pf : PoolFlags) : (rounds : ℕ) → Prog LockedMemory Unit
  | 0 => stop .hang
  | rounds + 1 => do
      let w ← read
      let lock := w.lock pf
      let sema := lock.semaphore
      if sema.value = 0 then
        assert (w.running ∉ sema.waiters)
        write (w.setLock pf { lock with semaphore := ⟨sema.value, sema.waiters ++ [w.running]⟩ })
        onMemory (Memory.onKernel (threadBlock .blocked))
        block
        semaDown pf rounds
      else
        write (w.setLock pf { lock with semaphore := ⟨sema.value - 1, sema.waiters⟩ })
        assert (sema.value - 1 = 0)

/-- `sema_up`. -/
def semaUp (pf : PoolFlags) : Prog LockedMemory Unit := do
  let w ← read
  let lock := w.lock pf
  let sema := lock.semaphore
  assert (sema.value = 0)
  match sema.waiters with
  | [] => write (w.setLock pf { lock with semaphore := ⟨sema.value + 1, []⟩ })
  | q :: rest =>
      write (w.setLock pf { lock with semaphore := ⟨sema.value, rest⟩ })
      onMemory (Memory.onKernel (threadUnblock q))
      modify fun w => w.setLock pf { w.lock pf with semaphore := ⟨sema.value + 1, rest⟩ }

/-- `lock_acquire`. -/
def lockAcquire (pf : PoolFlags) (rounds : ℕ) : Prog LockedMemory Unit := do
  let w ← read
  if (w.lock pf).holder = some w.running then
    write (w.setLock pf { w.lock pf with holderRepeatNr := (w.lock pf).holderRepeatNr + 1 })
  else
    semaDown pf rounds
    let w ← read
    write (w.setLock pf { w.lock pf with holder := some w.running })
    assert ((w.lock pf).holderRepeatNr = 0)
    modify fun w => w.setLock pf { w.lock pf with holderRepeatNr := 1 }

/-- `lock_release`. -/
def lockRelease (pf : PoolFlags) : Prog LockedMemory Unit := do
  let w ← read
  let lock := w.lock pf
  assert (lock.holder = some w.running)
  if 1 < lock.holderRepeatNr then
    write (w.setLock pf { lock with holderRepeatNr := lock.holderRepeatNr - 1 })
  else
    assert (lock.holderRepeatNr = 1)
    write (w.setLock pf { lock with holder := none, holderRepeatNr := 0 })
    semaUp pf

/-- `get_kernel_pages`. -/
def getKernelPages (rounds pgCnt : ℕ) : Prog LockedMemory (Option ℕ) := do
  lockAcquire .kernel rounds
  let vaddr ← onMemory (Paging.mallocPage .kernel pgCnt)
  lockRelease .kernel
  return vaddr

/-- `get_user_pages`.  Its second `memset` does not accept `NULL`. -/
def getUserPages (rounds pgCnt : ℕ) : Prog LockedMemory (Option ℕ) := do
  lockAcquire .user rounds
  let vaddr ← onMemory (Paging.mallocPage .user pgCnt)
  assert vaddr.isSome
  lockRelease .user
  return vaddr

/-- What `get_a_page` does to the bitmap of virtual pages. -/
def markPage (pf : PoolFlags) (vaddr : ℕ) : Prog Memory Unit := do
  let m ← read
  match m.kernel.cur.isProcess, pf with
  | true, .user =>
      let space := m.spaces m.kernel.running
      write (m.setSpace m.kernel.running { space with
        vaddrBitmap := bitmapSet space.vaddrBitmap (subU32 vaddr userVaddrStart / pgSize) true })
  | false, .kernel =>
      assert (0 < kernelBit vaddr)
      write { m with kernelVaddr := bitmapSet m.kernelVaddr (kernelBit vaddr) true }
  | _, _ => stop .halt

/-- `get_a_page`. -/
def getAPage (rounds : ℕ) (pf : PoolFlags) (vaddr : ℕ) : Prog LockedMemory (Option ℕ) := do
  lockAcquire pf rounds
  onMemory (markPage pf vaddr)
  match ← onMemory (palloc pf) with
  | none => return none
  | some frame =>
      onMemory (pageTableAdd vaddr frame)
      lockRelease pf
      return some vaddr

/-- `get_a_page_without_opvaddrbitmap`. -/
def getAPageWithoutOpvaddrbitmap (rounds : ℕ) (pf : PoolFlags) (vaddr : ℕ) :
    Prog LockedMemory (Option ℕ) := do
  lockAcquire pf rounds
  match ← onMemory (palloc pf) with
  | none =>
      lockRelease pf
      return none
  | some frame =>
      onMemory (pageTableAdd vaddr frame)
      lockRelease pf
      return some vaddr

/-- The pool for the blocks of the running thread. -/
def poolFor (m : Memory) : PoolFlags := if m.kernel.cur.isProcess then .user else .kernel

/-- Whose blocks `sys_malloc` and `sys_free` deal with. -/
def ownerFor (m : Memory) : Owner :=
  if m.kernel.cur.isProcess then ⟨false, m.kernel.running, m.userPool.freePages⟩
  else ⟨true, 0, m.kernelPool.freePages⟩

/-- The heap of the running thread. -/
def heapFor (m : Memory) : BlockHeap :=
  if m.kernel.cur.isProcess then heapOf m m.kernel.running else m.kernelHeap

/-- Overwrite that heap. -/
def setHeapFor (m : Memory) (h : BlockHeap) : Memory :=
  if m.kernel.cur.isProcess then setHeap m m.kernel.running h else { m with kernelHeap := h }

/-- The header of a large block. -/
def largeHeader (a pgCnt : ℕ) : Prog Memory Unit :=
  modify fun m => setHeapFor m (((heapFor m).clearPages a pgCnt).setArena a ⟨none, pgCnt, true⟩)

/-- A new arena for a descriptor in the page `a`. -/
def fillArena (d : ℕ × ℕ) (a : ℕ) : Prog Memory Unit := do
  let m ← read
  match (heapFor m).newArena d a with
  | none => stop .halt
  | some h => write (setHeapFor m h)

/-- Take the first free block of a descriptor. -/
def popBlock (d : ℕ × ℕ) : Prog Memory ℕ := do
  let m ← read
  match (heapFor m).takeBlock d with
  | none => stop .undefined
  | some (b, h) =>
      write (setHeapFor m h)
      return b

/-- `sys_malloc`. -/
def sysMalloc (rounds size : ℕ) : Prog LockedMemory (Option ℕ) := do
  let w ← read
  let pf := poolFor w.memory
  let o := ownerFor w.memory
  if ¬ (0 < size ∧ size < o.poolSize) then return none
  else
    lockAcquire pf rounds
    if 1024 < size then
      match ← onMemory (Paging.mallocPage pf (pagesFor size)) with
      | some a =>
          onMemory (largeHeader a (pagesFor size))
          lockRelease pf
          return some (a + arenaSize)
      | none =>
          lockRelease pf
          return none
    else
      match (List.range descCnt).find? fun i => size ≤ blockSize i with
      | none => stop .undefined
      | some i =>
          let d := (o.descs, i)
          let m ← onMemory read
          if (heapFor m).freeList d = [] then
            match ← onMemory (Paging.mallocPage pf 1) with
            | none =>
                lockRelease pf
                return none
            | some a =>
                onMemory (fillArena d a)
                let b ← onMemory (popBlock d)
                lockRelease pf
                return some b
          else
            let b ← onMemory (popBlock d)
            lockRelease pf
            return some b

/-- `sys_free`. -/
def sysFree (rounds ptr : ℕ) : Prog LockedMemory Unit := do
  assert (ptr ≠ 0)
  let w ← read
  let pf := poolFor w.memory
  assert (pf = .user ∨ kHeapStart ≤ ptr)
  lockAcquire pf rounds
  onMemory (if pf = .user then Paging.sysFree ptr else sysFreeKernel ptr)
  lockRelease pf

end PoolLocks

/-- A call of one of these functions. -/
inductive PoolCall where
  | getKernelPages (pgCnt : ℕ)
  | getUserPages (pgCnt : ℕ)
  | getAPage (pf : PoolFlags) (vaddr : ℕ)
  | getAPageWithoutOpvaddrbitmap (pf : PoolFlags) (vaddr : ℕ)
  | sysMalloc (size : ℕ)
  | sysFree (ptr : ℕ)

/-- The call, with at most `rounds` tests of a semaphore. -/
def PoolCall.run (rounds : ℕ) : PoolCall → Prog LockedMemory (Option ℕ)
  | getKernelPages pgCnt => PoolLocks.getKernelPages rounds pgCnt
  | getUserPages pgCnt => PoolLocks.getUserPages rounds pgCnt
  | getAPage pf vaddr => PoolLocks.getAPage rounds pf vaddr
  | getAPageWithoutOpvaddrbitmap pf vaddr => PoolLocks.getAPageWithoutOpvaddrbitmap rounds pf vaddr
  | sysMalloc size => PoolLocks.sysMalloc rounds size
  | sysFree ptr => do
      PoolLocks.sysFree rounds ptr
      return none

/-! ## What a call should do -/

/-- A lock between two calls: it is free, or a thread holds it. -/
inductive Lock.Sound : Lock → Prop
  | free (waiters : List ℕ) : Lock.Sound ⟨none, ⟨1, waiters⟩, 0⟩
  | held (p nr : ℕ) (waiters : List ℕ) : Lock.Sound ⟨some p, ⟨0, waiters⟩, nr + 1⟩

/-- For the thread `p` the lock is as before. -/
structure Lock.SameFor (p : ℕ) (l l' : Lock) : Prop where
  own : l.holder = some p → l'.holder = some p ∧ l'.holderRepeatNr = l.holderRepeatNr
  other : l.holder ≠ some p → l'.holder ≠ some p

/-- The lock is as before. -/
structure Lock.Same (l l' : Lock) : Prop where
  holder : l'.holder = l.holder
  nr : l'.holderRepeatNr = l.holderRepeatNr

namespace Lock

variable {l l' l'' : Lock} {p : ℕ}

theorem Sound.cases (h : l.Sound) : (∃ waiters, l = ⟨none, ⟨1, waiters⟩, 0⟩) ∨
    ∃ p nr waiters, l = ⟨some p, ⟨0, waiters⟩, nr + 1⟩ := by
  cases h with
  | free waiters => exact Or.inl ⟨waiters, rfl⟩
  | held p nr waiters => exact Or.inr ⟨p, nr, waiters, rfl⟩

theorem Same.refl (l : Lock) : l.Same l := ⟨rfl, rfl⟩

theorem Same.trans (h : l.Same l') (h' : l'.Same l'') : l.Same l'' :=
  ⟨h'.holder.trans h.holder, h'.nr.trans h.nr⟩

theorem Same.sameFor (h : l.Same l') (p : ℕ) : l.SameFor p l' where
  own hl := ⟨h.holder.trans hl, h.nr⟩
  other hl := fun hl' => hl (h.holder.symm.trans hl')

theorem SameFor.trans (h : l.SameFor p l') (h' : l'.SameFor p l'') : l.SameFor p l'' where
  own hl := ⟨(h'.own (h.own hl).1).1, (h'.own (h.own hl).1).2.trans (h.own hl).2⟩
  other hl := h'.other (h.other hl)

end Lock

namespace LockedMemory

/-- The locks are free or held. -/
def LocksSound (w : LockedMemory) : Prop := ∀ q, (w.lock q).Sound

/-- Another thread holds the lock. -/
def Contended (w : LockedMemory) (pf : PoolFlags) : Prop :=
  ∃ p, p ≠ w.running ∧ (w.lock pf).holder = some p

/-- What the other threads may do while the thread `p` waits: they leave the locks that it holds
alone and take none in its name. -/
structure Meanwhile (p : ℕ) (w w' : LockedMemory) : Prop where
  running : w'.running = p
  sound : w'.LocksSound
  locks : ∀ q, (w.lock q).SameFor p (w'.lock q)

/-- For the running thread the locks are as before; if it did not have to wait for that of the
pool, they are so altogether. -/
structure Restored (pf : PoolFlags) (w w' : LockedMemory) : Prop where
  own : ∀ q, (w.lock q).SameFor w.running (w'.lock q)
  same : ¬ w.Contended pf → ∀ q, (w.lock q).Same (w'.lock q)

end LockedMemory

namespace PoolCall

/-- The pool whose lock the call takes. -/
def pool (m : Memory) : PoolCall → PoolFlags
  | getKernelPages _ => .kernel
  | getUserPages _ => .user
  | getAPage pf _ => pf
  | getAPageWithoutOpvaddrbitmap pf _ => pf
  | sysMalloc _ => PoolLocks.poolFor m
  | sysFree _ => PoolLocks.poolFor m

/-- The call is a `get_a_page` that is allowed and finds no free frame. -/
def Exhausted (m : Memory) : PoolCall → Prop
  | getAPage .user _ => m.freeFrames .user = ∅ ∧ m.kernel.cur.isProcess = true
  | getAPage .kernel vaddr =>
      m.freeFrames .kernel = ∅ ∧ m.kernel.cur.isProcess = false ∧ 0 < Paging.kernelBit vaddr
  | _ => False

/-- Whenever the call returns, it has left the locks as they were, where the others change the
memory by `R` while it waits. -/
def Restores (c : PoolCall) (R : LockedMemory → LockedMemory → Prop) (w : LockedMemory) : Prop :=
  ∀ rounds, (c.run rounds).amid R (fun _ w' => w.Restored (c.pool w.memory) w') w

end PoolCall

/-! ## Taking and releasing a lock -/

namespace PoolLocks

open LockedMemory

section Locks

variable {R : LockedMemory → LockedMemory → Prop} {w w' : LockedMemory} {pf q : PoolFlags}

@[simp]
theorem lock_setLock_self (lock : Lock) : (w.setLock pf lock).lock pf = lock :=
  Function.update_self _ _ _

theorem lock_setLock_of_ne (lock : Lock) (hq : q ≠ pf) : (w.setLock pf lock).lock q = w.lock q :=
  Function.update_of_ne hq _ _

@[simp]
theorem memory_setLock (lock : Lock) : (w.setLock pf lock).memory = w.memory := rfl

@[simp]
theorem running_setLock (lock : Lock) : (w.setLock pf lock).running = w.running := rfl

theorem setLock_setLock (lock lock' : Lock) :
    (w.setLock pf lock).setLock pf lock' = w.setLock pf lock' := by
  unfold setLock
  rw [Function.update_idem]

theorem amid_onMemory {α : Type} {x : Prog Memory α} (hx : steady x)
    {Q : α → LockedMemory → Prop} :
    (onMemory x).amid R Q w ↔ x.wp (fun a m => Q a { w with memory := m }) w.memory := by
  unfold onMemory
  rw [amid_iff_wp (steady_focus hx)]
  refine wp_focus ?_ ?_ ?_
  · exact fun _ _ => rfl
  · exact fun _ _ _ => rfl
  · exact fun _ => rfl

/-- Code that does not touch the locks, where only they count. -/
theorem amid_onMemory_of {α : Type} {x : Prog Memory α} (hx : steady x)
    {Q : α → LockedMemory → Prop} (h : ∀ a m, Q a { w with memory := m }) :
    (onMemory x).amid R Q w :=
  (amid_onMemory hx).mpr (wp_mono wp_true fun a m _ => h a m)

theorem threadUnblock_steady (p : ℕ) : steady (threadUnblock p) := by
  unfold threadUnblock
  exact steady_bind steady_read fun _ => steady_bind steady_assert fun _ =>
    steady_bind steady_assert fun _ => steady_write

theorem dispatch_steady : steady dispatch := by
  unfold dispatch
  refine steady_bind steady_read fun k => ?_
  cases k.threadReadyList with
  | nil => exact steady_stop
  | cons next rest => exact steady_write

theorem threadBlock_steady (status : TaskStatus) : steady (threadBlock status) := by
  unfold threadBlock schedule requeue
  refine steady_bind steady_assert fun _ => steady_bind steady_modify fun _ => ?_
  refine steady_bind (steady_bind steady_read fun k => ?_) fun _ => steady_bind steady_read fun k => ?_
  · exact steady_ite (steady_bind steady_assert fun _ => steady_write) steady_pure
  · refine steady_ite ?_ dispatch_steady
    exact steady_bind (threadUnblock_steady _) fun _ => dispatch_steady

theorem same_setSemaphore (sema : Semaphore) (q : PoolFlags) :
    (w.lock q).Same ((w.setLock pf { w.lock pf with semaphore := sema }).lock q) := by
  by_cases hq : q = pf
  · rw [hq, lock_setLock_self]
    exact ⟨rfl, rfl⟩
  · rw [lock_setLock_of_ne _ hq]
    exact ⟨rfl, rfl⟩

/-- `sema_up` leaves the holders alone. -/
theorem semaUp_amid : (semaUp pf).amid R (fun _ w' => ∀ q, (w.lock q).Same (w'.lock q)) w := by
  simp only [semaUp, amid_bind, amid_read, amid_assert]
  intro _
  cases (w.lock pf).semaphore.waiters with
  | nil => exact same_setSemaphore _
  | cons p rest =>
      simp only [amid_bind, amid_write, amid_modify]
      refine amid_onMemory_of (steady_focus (threadUnblock_steady p)) fun _ m q => ?_
      have h₁ : (w.lock q).Same ((w.setLock pf { w.lock pf with
          semaphore := ⟨(w.lock pf).semaphore.value, rest⟩ }).lock q) := same_setSemaphore _ q
      exact h₁.trans (same_setSemaphore _ q)

/-- The state after `lock_acquire`, if the lock need not be waited for. -/
def acquired (w : LockedMemory) (pf : PoolFlags) : LockedMemory :=
  w.setLock pf ⟨some w.running, ⟨0, (w.lock pf).semaphore.waiters⟩,
    if (w.lock pf).holder = some w.running then (w.lock pf).holderRepeatNr + 1 else 1⟩

theorem lockAcquire_own (hsound : w.LocksSound) (hown : (w.lock pf).holder = some w.running)
    (rounds : ℕ) {Q : Unit → LockedMemory → Prop} :
    (lockAcquire pf rounds).amid R Q w ↔ Q () (acquired w pf) := by
  have hlock := hsound pf
  have hacq : acquired w pf =
      w.setLock pf { w.lock pf with holderRepeatNr := (w.lock pf).holderRepeatNr + 1 } := by
    rw [acquired, if_pos hown]
    generalize w.lock pf = lock at hlock hown
    cases hlock with
    | free waiters => cases hown
    | held p nr waiters =>
        rw [← hown]
  simp only [lockAcquire, amid_bind, amid_read, if_pos hown, amid_write, hacq]

/-- `lock_acquire` of a lock that the thread does not hold. -/
theorem lockAcquire_other (hnot : (w.lock pf).holder ≠ some w.running) (rounds : ℕ)
    {Q : Unit → LockedMemory → Prop} :
    (lockAcquire pf rounds).amid R Q w ↔ (semaDown pf rounds).amid R (fun _ w' =>
      (w'.lock pf).holderRepeatNr = 0 →
        Q () (w'.setLock pf ⟨some w'.running, (w'.lock pf).semaphore, 1⟩)) w := by
  simp only [lockAcquire, amid_bind, amid_read, if_neg hnot, amid_write, amid_assert, amid_modify,
    lock_setLock_self, setLock_setLock, decide_eq_true_iff]

theorem semaDown_free {waiters : List ℕ} (hfree : w.lock pf = ⟨none, ⟨1, waiters⟩, 0⟩)
    (rounds : ℕ) {Q : Unit → LockedMemory → Prop} :
    (semaDown pf (rounds + 1)).amid R Q w ↔ Q () (w.setLock pf ⟨none, ⟨0, waiters⟩, 0⟩) := by
  have hvalue : ¬ (w.lock pf).semaphore.value = 0 := by
    rw [hfree]
    exact one_ne_zero
  simp only [semaDown, amid_bind, amid_read, if_neg hvalue, amid_write, amid_assert]
  rw [hfree]
  exact forall_prop_of_true rfl

theorem lockAcquire_free {waiters : List ℕ} (hfree : w.lock pf = ⟨none, ⟨1, waiters⟩, 0⟩)
    (rounds : ℕ) {Q : Unit → LockedMemory → Prop} :
    (lockAcquire pf (rounds + 1)).amid R Q w ↔ Q () (acquired w pf) := by
  have hnot : (w.lock pf).holder ≠ some w.running := by
    rw [hfree]
    exact fun h => by cases h
  rw [lockAcquire_other hnot, semaDown_free hfree, lock_setLock_self, setLock_setLock,
    forall_prop_of_true rfl, acquired, if_neg hnot, hfree]
  rfl

/-! ### Holding the lock -/

/-- The running thread of `w` holds the lock in `w'`, one time more than in `w`, and has not seen
the other one change. -/
structure Holding (pf : PoolFlags) (w w' : LockedMemory) : Prop where
  holder : (w'.lock pf).holder = some w.running
  nr : (w'.lock pf).holderRepeatNr =
    if (w.lock pf).holder = some w.running then (w.lock pf).holderRepeatNr + 1 else 1
  other : ∀ q, q ≠ pf → (w.lock q).SameFor w.running (w'.lock q)
  same : ¬ w.Contended pf → ∀ q, q ≠ pf → (w.lock q).Same (w'.lock q)

theorem acquired_holding : Holding pf w (acquired w pf) where
  holder := by rw [acquired, lock_setLock_self]
  nr := by rw [acquired, lock_setLock_self]
  other q hq := by
    rw [acquired, lock_setLock_of_ne _ hq]
    exact (Lock.Same.refl _).sameFor _
  same _ q hq := by
    rw [acquired, lock_setLock_of_ne _ hq]
    exact Lock.Same.refl _

theorem Holding.restored {w'' : LockedMemory} (h : Holding pf w w')
    (hpf : (w.lock pf).SameFor w.running (w''.lock pf))
    (hsame : ¬ w.Contended pf → (w.lock pf).Same (w''.lock pf))
    (hother : ∀ q, q ≠ pf → (w'.lock q).Same (w''.lock q)) : w.Restored pf w'' where
  own q := by
    by_cases hq : q = pf
    · rw [hq]
      exact hpf
    · exact (h.other q hq).trans ((hother q hq).sameFor _)
  same hnot q := by
    by_cases hq : q = pf
    · rw [hq]
      exact hsame hnot
    · exact (h.same hnot q hq).trans (hother q hq)

/-- Once the lock is held, `lock_release` brings it back to what it was. -/
theorem lockRelease_restored (hsound : w.LocksSound) (h : Holding pf w w') :
    (lockRelease pf).amid R (fun _ w'' => w.Restored pf w'') w' := by
  have hnr := h.nr
  simp only [lockRelease, amid_bind, amid_read, amid_assert]
  intro _
  by_cases hmany : 1 < (w'.lock pf).holderRepeatNr
  · rw [if_pos hmany]
    have hown : (w.lock pf).holder = some w.running := by
      by_contra hnot
      rw [if_neg hnot] at hnr
      omega
    rw [if_pos hown] at hnr
    have hpf : (w.lock pf).Same ((w'.setLock pf { w'.lock pf with
        holderRepeatNr := (w'.lock pf).holderRepeatNr - 1 }).lock pf) := by
      rw [lock_setLock_self]
      exact ⟨h.holder.trans hown.symm, by rw [hnr]; rfl⟩
    refine h.restored (hpf.sameFor _) (fun _ => hpf) fun q hq => ?_
    rw [lock_setLock_of_ne _ hq]
    exact Lock.Same.refl _
  · rw [if_neg hmany]
    simp only [amid_bind, amid_assert, amid_write]
    intro _
    have hnot : (w.lock pf).holder ≠ some w.running := by
      intro hown
      rw [if_pos hown] at hnr
      rcases (hsound pf).cases with ⟨_, hlock⟩ | ⟨_, _, _, hlock⟩
      · rw [hlock] at hown
        cases hown
      · rw [hlock] at hnr
        dsimp only at hnr
        omega
    refine amid_mono semaUp_amid fun _ w'' hup => ?_
    have hpf := hup pf
    rw [lock_setLock_self] at hpf
    refine h.restored ⟨fun hown => absurd hown hnot, fun _ hown => ?_⟩ (fun hfree => ?_) fun q hq => ?_
    · rw [hpf.holder] at hown
      cases hown
    · rcases (hsound pf).cases with ⟨_, hlock⟩ | ⟨r, _, _, hlock⟩
      · rw [hlock]
        exact ⟨hpf.holder, hpf.nr⟩
      · have hholder : (w.lock pf).holder = some r := by rw [hlock]
        refine absurd ⟨r, ?_, hholder⟩ hfree
        rintro rfl
        exact hnot hholder
    · have hsame := hup q
      rw [lock_setLock_of_ne _ hq] at hsame
      exact hsame

/-- What `sema_down` leaves after waiting. -/
structure Waited (R : LockedMemory → LockedMemory → Prop) (pf : PoolFlags) (p : ℕ)
    (w w' : LockedMemory) : Prop where
  running : w'.running = p
  lock : ∃ waiters, w'.lock pf = ⟨none, ⟨0, waiters⟩, 0⟩
  other : ∀ q, q ≠ pf → (w.lock q).SameFor p (w'.lock q)
  memory : ∃ s t, R s t ∧ w'.memory = t.memory

/-- Waiting for a lock that another thread holds. -/
theorem semaDown_held {p r nr : ℕ} {waiters : List ℕ} (hR : ∀ s t, R s t → Meanwhile p s t)
    (hr : r ≠ p) (hheld : w.lock pf = ⟨some r, ⟨0, waiters⟩, nr + 1⟩) (rounds : ℕ) :
    (semaDown pf rounds).amid R (fun _ w' => Waited R pf p w w') w := by
  induction rounds generalizing w r nr waiters with
  | zero => trivial
  | succ rounds ih =>
      have hvalue : (w.lock pf).semaphore.value = 0 := by rw [hheld]
      simp only [semaDown, amid_bind, amid_read, if_pos hvalue, amid_write, amid_assert]
      intro _
      refine amid_onMemory_of (steady_focus (threadBlock_steady _)) fun _ m => ?_
      rw [amid_block]
      intro t ht
      obtain ⟨hrun, hsound, hlocks⟩ := hR _ _ ht
      have hsame : ∀ q, (w.lock q).SameFor p (t.lock q) := fun q =>
        ((same_setSemaphore _ q).sameFor p).trans (hlocks q)
      have hnot : (t.lock pf).holder ≠ some p := by
        refine (hsame pf).other ?_
        rw [hheld]
        exact fun h => hr (Option.some_inj.mp h)
      rcases (hsound pf).cases with ⟨ws, hlock⟩ | ⟨r', nr', ws, hlock⟩
      · cases rounds with
        | zero => trivial
        | succ rounds =>
            rw [semaDown_free hlock]
            refine ⟨hrun, ⟨ws, lock_setLock_self _⟩, fun q hq => ?_, _, t, ht, rfl⟩
            rw [lock_setLock_of_ne _ hq]
            exact hsame q
      · have hr' : r' ≠ p := by
          rintro rfl
          exact hnot (by rw [hlock])
        refine amid_mono (ih hr' hlock) fun _ w' h => ?_
        exact ⟨h.running, h.lock, fun q hq => (hsame q).trans (h.other q hq), h.memory⟩

/-- The memory is as before, or as the others have left it. -/
def MemoryFrom (R : LockedMemory → LockedMemory → Prop) (pf : PoolFlags) (w : LockedMemory)
    (m : Memory) : Prop :=
  (¬ w.Contended pf ∧ m = w.memory) ∨ ∃ s t, R s t ∧ m = t.memory

/-- `lock_acquire`, with or without waiting. -/
theorem lockAcquire_holding (hR : ∀ s t, R s t → Meanwhile w.running s t) (hsound : w.LocksSound)
    (rounds : ℕ) :
    (lockAcquire pf rounds).amid R (fun _ w' => Holding pf w w' ∧ MemoryFrom R pf w w'.memory) w := by
  by_cases hown : (w.lock pf).holder = some w.running
  · rw [lockAcquire_own hsound hown]
    refine ⟨acquired_holding, Or.inl ⟨?_, rfl⟩⟩
    rintro ⟨p, hp, hholder⟩
    exact hp (Option.some_inj.mp (hholder.symm.trans hown))
  · rcases (hsound pf).cases with ⟨ws, hlock⟩ | ⟨r, nr, ws, hlock⟩
    · cases rounds with
      | zero =>
          rw [lockAcquire_other hown]
          trivial
      | succ rounds =>
          rw [lockAcquire_free hlock]
          refine ⟨acquired_holding, Or.inl ⟨?_, rfl⟩⟩
          rintro ⟨p, -, hholder⟩
          rw [hlock] at hholder
          cases hholder
    · have hr : r ≠ w.running := by
        rintro rfl
        exact hown (by rw [hlock])
      have hcontended : w.Contended pf := ⟨r, hr, by rw [hlock]⟩
      rw [lockAcquire_other hown]
      refine amid_mono (semaDown_held hR hr hlock rounds) fun _ w' h _ => ⟨⟨?_, ?_, ?_, ?_⟩, ?_⟩
      · rw [lock_setLock_self, h.running]
      · rw [lock_setLock_self, if_neg hown]
      · intro q hq
        rw [lock_setLock_of_ne _ hq]
        exact h.other q hq
      · exact fun hnot => absurd hcontended hnot
      · exact Or.inr h.memory

end Locks

/-! ## What is done under the lock -/

section Steady

theorem palloc_steady (pf : PoolFlags) : steady (palloc pf) := by
  unfold palloc
  refine steady_bind steady_read fun m => ?_
  cases bitmapScan (m.pool pf).poolBitmap 1 with
  | none => exact steady_pure
  | some i => exact steady_bind steady_write fun _ => steady_pure

theorem pageTableAdd_steady (vaddr frame : ℕ) : steady (pageTableAdd vaddr frame) := by
  unfold pageTableAdd
  refine steady_bind steady_read fun m => ?_
  cases m.pte vaddr with
  | none =>
      exact steady_bind (palloc_steady _) fun _ => steady_bind steady_modify fun _ => steady_modify
  | some pte => exact steady_bind steady_assert fun _ => steady_write

theorem vaddrGet_steady (pf : PoolFlags) (n : ℕ) : steady (Paging.vaddrGet pf n) := by
  unfold Paging.vaddrGet
  refine steady_bind steady_read fun m => ?_
  cases pf with
  | kernel =>
      dsimp only
      cases bitmapScan m.kernelVaddr n with
      | none => exact steady_pure
      | some s => exact steady_bind steady_write fun _ => steady_pure
  | user =>
      dsimp only
      cases bitmapScan (m.spaces m.kernel.running).vaddrBitmap n with
      | none => exact steady_pure
      | some s =>
          exact steady_bind steady_write fun _ => steady_bind steady_assert fun _ => steady_pure

theorem mapPages_steady (pf : PoolFlags) (v n : ℕ) : steady (Paging.mapPages pf v n) := by
  induction n generalizing v with
  | zero => exact steady_pure
  | succ n ih =>
      rw [Paging.mapPages]
      refine steady_bind (palloc_steady pf) fun r => ?_
      cases r with
      | none => exact steady_pure
      | some frame => exact steady_bind (pageTableAdd_steady _ _) fun _ => ih _

theorem mallocPage_steady (pf : PoolFlags) (n : ℕ) : steady (Paging.mallocPage pf n) := by
  unfold Paging.mallocPage
  refine steady_bind steady_assert fun _ => steady_bind (vaddrGet_steady pf n) fun r => ?_
  cases r with
  | none => exact steady_pure
  | some v => exact steady_bind (mapPages_steady _ _ _) fun ok => steady_ite steady_pure steady_pure

theorem markPage_steady (pf : PoolFlags) (v : ℕ) : steady (markPage pf v) := by
  unfold markPage
  refine steady_bind steady_read fun m => ?_
  cases m.kernel.cur.isProcess <;> cases pf
  · exact steady_bind steady_assert fun _ => steady_write
  · exact steady_stop
  · exact steady_stop
  · exact steady_write

theorem fillArena_steady (d : ℕ × ℕ) (a : ℕ) : steady (fillArena d a) := by
  unfold fillArena
  refine steady_bind steady_read fun m => ?_
  cases (heapFor m).newArena d a with
  | none => exact steady_stop
  | some h => exact steady_write

theorem popBlock_steady (d : ℕ × ℕ) : steady (popBlock d) := by
  unfold popBlock
  refine steady_bind steady_read fun m => ?_
  cases (heapFor m).takeBlock d with
  | none => exact steady_stop
  | some r => exact steady_bind steady_write fun _ => steady_pure

theorem addrV2p_steady (v : ℕ) : steady (Paging.addrV2p v) := by
  unfold Paging.addrV2p
  refine steady_bind steady_read fun m => ?_
  cases m.pte v with
  | none => exact steady_stop
  | some pte => exact steady_pure

theorem pageTablePteRemove_steady (v : ℕ) : steady (Paging.pageTablePteRemove v) := by
  unfold Paging.pageTablePteRemove
  refine steady_bind steady_read fun m => ?_
  cases m.pte v with
  | none => exact steady_stop
  | some pte => exact steady_write

theorem unmapPages_steady (user : Bool) (v n : ℕ) : steady (Paging.unmapPages user v n) := by
  induction n generalizing v with
  | zero => exact steady_pure
  | succ n ih =>
      rw [Paging.unmapPages]
      refine steady_bind (addrV2p_steady v) fun frame => steady_bind steady_read fun m => ?_
      refine steady_bind steady_assert fun _ => steady_bind steady_modify fun _ => ?_
      exact steady_bind (pageTablePteRemove_steady v) fun _ => ih _

theorem mfreePage_steady (pf : PoolFlags) (v n : ℕ) : steady (Paging.mfreePage pf v n) := by
  unfold Paging.mfreePage
  refine steady_bind steady_assert fun _ => steady_bind (addrV2p_steady v) fun frame => ?_
  refine steady_bind steady_assert fun _ => steady_bind steady_read fun m => ?_
  exact steady_bind (unmapPages_steady _ _ _) fun _ => steady_modify

theorem sysFree_steady (ptr : ℕ) : steady (Paging.sysFree ptr) := by
  unfold Paging.sysFree touch
  refine steady_bind (steady_bind steady_read fun m => ?_) fun _ => steady_bind steady_read fun m => ?_
  · cases m.pte (block2arena ptr) with
    | none => exact steady_stop
    | some pte => exact steady_ite steady_pure steady_stop
  · dsimp only
    cases (Paging.heapOf m m.kernel.running).sysFree ⟨false, m.kernel.running, m.userPool.freePages⟩
        ptr with
    | none => exact steady_stop
    | some res =>
        refine steady_bind steady_write fun _ => ?_
        cases res.pages with
        | none => exact steady_pure
        | some r => exact mfreePage_steady _ _ _

theorem sysFreeKernel_steady (ptr : ℕ) : steady (Paging.sysFreeKernel ptr) := by
  unfold Paging.sysFreeKernel
  refine steady_bind steady_read fun m => ?_
  cases m.kernelHeap.sysFree ⟨true, 0, m.kernelPool.freePages⟩ ptr with
  | none => exact steady_stop
  | some res =>
      refine steady_bind steady_write fun _ => ?_
      cases res.pages with
      | none => exact steady_pure
      | some r => exact mfreePage_steady _ _ _

end Steady

/-! ## The calls -/

section Calls

variable {R : LockedMemory → LockedMemory → Prop} {w w' : LockedMemory} {pf : PoolFlags}

/-- Under the lock only the memory changes. -/
theorem Holding.onMemory {α β : Type} {x : Prog Memory α} (hx : steady x) (h : Holding pf w w')
    {f : α → Prog LockedMemory β} {Q : β → LockedMemory → Prop}
    (hf : ∀ a w'', Holding pf w w'' → (f a).amid R Q w'') :
    (BochsOs.onMemory x >>= f).amid R Q w' := by
  rw [amid_bind]
  exact amid_onMemory_of hx fun a _ => hf a _ ⟨h.holder, h.nr, h.other, h.same⟩

/-- The lock is released, and the call returns. -/
theorem Holding.returns {α : Type} (hsound : w.LocksSound) (h : Holding pf w w') (a : α) :
    (lockRelease pf >>= fun _ => pure a).amid R (fun _ w'' => w.Restored pf w'') w' := by
  rw [amid_bind]
  exact amid_mono (lockRelease_restored hsound h) fun _ _ hres => hres

theorem getKernelPages_restored (hR : ∀ s t, R s t → Meanwhile w.running s t)
    (hsound : w.LocksSound) (rounds n : ℕ) :
    (getKernelPages rounds n).amid R (fun _ w' => w.Restored .kernel w') w := by
  rw [getKernelPages, amid_bind]
  refine amid_mono (lockAcquire_holding hR hsound rounds) fun _ w₁ h => ?_
  exact h.1.onMemory (mallocPage_steady _ _) fun v _ h₂ => h₂.returns hsound v

theorem getUserPages_restored (hR : ∀ s t, R s t → Meanwhile w.running s t)
    (hsound : w.LocksSound) (rounds n : ℕ) :
    (getUserPages rounds n).amid R (fun _ w' => w.Restored .user w') w := by
  rw [getUserPages, amid_bind]
  refine amid_mono (lockAcquire_holding hR hsound rounds) fun _ w₁ h => ?_
  refine h.1.onMemory (mallocPage_steady _ _) fun v _ h₂ => ?_
  rw [amid_bind, amid_assert]
  exact fun _ => h₂.returns hsound v

theorem getAPageWithoutOpvaddrbitmap_restored (hR : ∀ s t, R s t → Meanwhile w.running s t)
    (hsound : w.LocksSound) (rounds vaddr : ℕ) :
    (getAPageWithoutOpvaddrbitmap rounds pf vaddr).amid R (fun _ w' => w.Restored pf w') w := by
  rw [getAPageWithoutOpvaddrbitmap, amid_bind]
  refine amid_mono (lockAcquire_holding hR hsound rounds) fun _ w₁ h => ?_
  refine h.1.onMemory (palloc_steady _) fun r _ h₂ => ?_
  cases r with
  | none => exact h₂.returns hsound none
  | some frame =>
      exact h₂.onMemory (pageTableAdd_steady _ _) fun _ _ h₃ => h₃.returns hsound (some vaddr)

theorem sysFree_restored (hR : ∀ s t, R s t → Meanwhile w.running s t)
    (hsound : w.LocksSound) (rounds ptr : ℕ) :
    (sysFree rounds ptr).amid R (fun _ w' => w.Restored (poolFor w.memory) w') w := by
  simp only [sysFree, amid_bind, amid_assert, amid_read]
  intro _ _
  refine amid_mono (lockAcquire_holding hR hsound rounds) fun _ w₁ h => ?_
  rw [← amid_bind]
  refine h.1.onMemory (steady_ite (sysFree_steady ptr) (sysFreeKernel_steady ptr)) fun _ _ h₂ => ?_
  exact lockRelease_restored hsound h₂

/-- Nothing has happened. -/
theorem restored_refl (pf : PoolFlags) (w : LockedMemory) : w.Restored pf w where
  own _ := (Lock.Same.refl _).sameFor _
  same _ _ := Lock.Same.refl _

theorem sysMalloc_restored (hR : ∀ s t, R s t → Meanwhile w.running s t)
    (hsound : w.LocksSound) (rounds size : ℕ) :
    (sysMalloc rounds size).amid R (fun _ w' => w.Restored (poolFor w.memory) w') w := by
  rw [sysMalloc, amid_bind, amid_read]
  dsimp only
  split
  next => exact restored_refl _ w
  next =>
    rw [amid_bind]
    refine amid_mono (lockAcquire_holding hR hsound rounds) fun _ w₁ h => ?_
    split
    next =>
      -- a large block
      refine h.1.onMemory (mallocPage_steady _ _) fun r _ h₂ => ?_
      cases r with
      | none => exact h₂.returns hsound none
      | some a => exact h₂.onMemory steady_modify fun _ _ h₃ => h₃.returns hsound _
    next =>
      cases (List.range descCnt).find? fun i => size ≤ blockSize i with
      | none => trivial
      | some i =>
          refine h.1.onMemory steady_read fun m _ h₂ => ?_
          split
          next =>
            -- a new arena
            refine h₂.onMemory (mallocPage_steady _ _) fun r _ h₃ => ?_
            cases r with
            | none => exact h₃.returns hsound none
            | some a =>
                refine h₃.onMemory (fillArena_steady _ _) fun _ _ h₄ => ?_
                exact h₄.onMemory (popBlock_steady _) fun b _ h₅ => h₅.returns hsound _
          next => exact h₂.onMemory (popBlock_steady _) fun b _ h₃ => h₃.returns hsound _

/-! ### `get_a_page` -/

theorem palloc_wp_nonempty {m : Memory} (hfree : (m.freeFrames pf).Nonempty) :
    (palloc pf).wp (fun r _ => r ≠ none) m := by
  refine wp_of_succeeds (Memory.palloc_succeeds (fun hempty => ?_) fun i _ => Option.some_ne_none _)
  rw [hempty] at hfree
  exact absurd hfree Finset.not_nonempty_empty

theorem palloc_wp_empty {m : Memory} (hempty : m.freeFrames pf = ∅) {Q : Option ℕ → Memory → Prop}
    (h : (palloc pf).wp Q m) : Q none m := by
  simp only [palloc, wp_bind, wp_read] at h
  cases hscan : bitmapScan (m.pool pf).poolBitmap 1 with
  | none =>
      rw [hscan] at h
      exact h
  | some i =>
      have hi : i ∈ m.freeFrames pf := mem_freeBits_of_scan hscan
      rw [hempty] at hi
      exact absurd hi (Finset.notMem_empty i)

/-- `get_a_page` goes on only if the call is allowed. -/
theorem markPage_wp_nonempty {m : Memory} {vaddr : ℕ}
    (hspare : ¬ (PoolCall.getAPage pf vaddr).Exhausted m) :
    (markPage pf vaddr).wp (fun _ m' => (m'.freeFrames pf).Nonempty) m := by
  simp only [markPage, wp_bind, wp_read]
  cases hproc : m.kernel.cur.isProcess <;> cases pf
  · simp only [wp_bind, wp_assert, wp_write, decide_eq_true_iff]
    exact fun hbit => Finset.nonempty_iff_ne_empty.mpr fun hempty => hspare ⟨hempty, hproc, hbit⟩
  · trivial
  · trivial
  · exact Finset.nonempty_iff_ne_empty.mpr fun hempty => hspare ⟨hempty, hproc⟩

theorem markPage_wp_empty {m : Memory} {vaddr : ℕ}
    (hexhausted : (PoolCall.getAPage pf vaddr).Exhausted m) {Q : Unit → Memory → Prop}
    (h : (markPage pf vaddr).wp Q m) : ∃ m', m'.freeFrames pf = ∅ ∧ Q () m' := by
  simp only [markPage, wp_bind, wp_read] at h
  cases pf with
  | kernel =>
      obtain ⟨hempty, hproc, hbit⟩ := hexhausted
      rw [hproc] at h
      simp only [wp_bind, wp_assert, wp_write, decide_eq_true_iff] at h
      exact ⟨{ m with kernelVaddr := bitmapSet m.kernelVaddr (Paging.kernelBit vaddr) true }, hempty,
        h hbit⟩
  | user =>
      obtain ⟨hempty, hproc⟩ := hexhausted
      rw [hproc] at h
      let space := m.spaces m.kernel.running
      exact ⟨m.setSpace m.kernel.running { space with
        vaddrBitmap := bitmapSet space.vaddrBitmap (subU32 vaddr userVaddrStart / pgSize) true },
        hempty, h⟩

/-- `get_a_page` restores the locks if there is a free frame. -/
theorem getAPage_restored {vaddr : ℕ} (hR : ∀ s t, R s t → Meanwhile w.running s t)
    (hsound : w.LocksSound)
    (hspare : ∀ m, MemoryFrom R pf w m → ¬ (PoolCall.getAPage pf vaddr).Exhausted m) (rounds : ℕ) :
    (getAPage rounds pf vaddr).amid R (fun _ w' => w.Restored pf w') w := by
  rw [getAPage, amid_bind]
  refine amid_mono (lockAcquire_holding hR hsound rounds) fun _ w₁ ⟨h, hmemory⟩ => ?_
  rw [amid_bind, amid_onMemory (markPage_steady _ _)]
  refine wp_mono (markPage_wp_nonempty (hspare _ hmemory)) fun _ m hfree => ?_
  rw [amid_bind, amid_onMemory (palloc_steady _)]
  refine wp_mono (palloc_wp_nonempty hfree) fun r m' hr => ?_
  have h₂ : Holding pf w { w₁ with memory := m' } := ⟨h.holder, h.nr, h.other, h.same⟩
  cases r with
  | none => exact absurd rfl hr
  | some frame =>
      exact h₂.onMemory (pageTableAdd_steady _ _) fun _ _ h₃ => h₃.returns hsound (some vaddr)

/-- Without a free frame it keeps the lock. -/
theorem getAPage_not_restored {vaddr : ℕ} (hsound : w.LocksSound) (hfree : ¬ w.Contended pf)
    (hexhausted : (PoolCall.getAPage pf vaddr).Exhausted w.memory) :
    ¬ (getAPage 1 pf vaddr).amid R (fun _ w' => w.Restored pf w') w := by
  intro h
  rw [getAPage, amid_bind] at h
  have hacq : (onMemory (markPage pf vaddr) >>= fun _ => do
      match ← onMemory (palloc pf) with
      | none => return none
      | some frame =>
          onMemory (pageTableAdd vaddr frame)
          lockRelease pf
          return some vaddr).amid R (fun _ w' => w.Restored pf w') (acquired w pf) := by
    rcases (hsound pf).cases with ⟨ws, hlock⟩ | ⟨r, nr, ws, hlock⟩
    · exact (lockAcquire_free hlock 0).mp h
    · by_cases hr : r = w.running
      · exact (lockAcquire_own hsound (by rw [hlock, hr]) 1).mp h
      · exact absurd ⟨r, hr, by rw [hlock]⟩ hfree
  rw [amid_bind, amid_onMemory (markPage_steady _ _)] at hacq
  obtain ⟨m, hempty, hmarked⟩ := markPage_wp_empty hexhausted hacq
  rw [amid_bind, amid_onMemory (palloc_steady _)] at hmarked
  have hres : w.Restored pf { acquired w pf with memory := m } := palloc_wp_empty hempty hmarked
  have hsame := hres.same hfree pf
  have hholding : Holding pf w (acquired w pf) := acquired_holding
  have hown : (w.lock pf).holder = some w.running := hsame.holder.symm.trans hholding.holder
  have hnr := hholding.nr
  rw [if_pos hown] at hnr
  have hnr' : ((acquired w pf).lock pf).holderRepeatNr = (w.lock pf).holderRepeatNr := hsame.nr
  omega

end Calls

end PoolLocks

theorem PoolCall.exhausted_not_restores {c : PoolCall} {R : LockedMemory → LockedMemory → Prop}
    {w : LockedMemory} (hsound : w.LocksSound) (hfree : ¬ w.Contended (c.pool w.memory))
    (hexhausted : c.Exhausted w.memory) : ¬ c.Restores R w := by
  intro h
  cases c with
  | getAPage pf vaddr => exact PoolLocks.getAPage_not_restored hsound hfree hexhausted (h 1)
  | _ => exact hexhausted

/-- A call restores the locks, unless it is a `get_a_page` that finds no free frame; where it has to
wait, the others must leave it one. -/
theorem PoolCall.restores_iff (c : PoolCall) {R : LockedMemory → LockedMemory → Prop}
    {w : LockedMemory} (hsound : w.LocksSound)
    (hR : ∀ s t, R s t → LockedMemory.Meanwhile w.running s t ∧ ¬ c.Exhausted t.memory) :
    c.Restores R w ↔ w.Contended (c.pool w.memory) ∨ ¬ c.Exhausted w.memory := by
  have hR' : ∀ s t, R s t → LockedMemory.Meanwhile w.running s t := fun s t h => (hR s t h).1
  constructor
  · intro h
    by_contra hnot
    rw [not_or, Classical.not_not] at hnot
    exact exhausted_not_restores hsound hnot.1 hnot.2 h
  · intro h rounds
    cases c with
    | getKernelPages pgCnt => exact PoolLocks.getKernelPages_restored hR' hsound rounds pgCnt
    | getUserPages pgCnt => exact PoolLocks.getUserPages_restored hR' hsound rounds pgCnt
    | getAPage pf vaddr =>
        refine PoolLocks.getAPage_restored hR' hsound (fun m hm => ?_) rounds
        rcases hm with ⟨hfree, rfl⟩ | ⟨s, t, ht, rfl⟩
        · exact h.resolve_left hfree
        · exact (hR s t ht).2
    | getAPageWithoutOpvaddrbitmap pf vaddr =>
        exact PoolLocks.getAPageWithoutOpvaddrbitmap_restored hR' hsound rounds vaddr
    | sysMalloc size => exact PoolLocks.sysMalloc_restored hR' hsound rounds size
    | sysFree ptr =>
        rw [PoolCall.run, amid_bind]
        exact amid_mono (PoolLocks.sysFree_restored hR' hsound rounds ptr) fun _ _ hres => hres

/-! ### At boot -/

/-- The memory at boot, and with all frames of the kernel pool taken; the locks are free. -/
def bootLocked : LockedMemory := ⟨Memory.bootMemory, fun _ => lockInit⟩

def exhaustedLocked : LockedMemory := ⟨Memory.exhaustedMemory, fun _ => lockInit⟩

/-- The second page of the kernel heap. -/
def secondPage : PoolCall := .getAPage .kernel (kHeapStart + pgSize)

theorem exhaustedLocked_exhausted : secondPage.Exhausted exhaustedLocked.memory := by
  have hfull : bitmapScan (Memory.exhaustedMemory.pool .kernel).poolBitmap 1 = none := by
    decide +kernel
  exact ⟨freeBits_of_scan_none hfull, rfl, by decide⟩

theorem restores_iff_boot : bootLocked.LocksSound ∧
    secondPage.Restores (fun s t => LockedMemory.Meanwhile bootLocked.running s t ∧
      ¬ secondPage.Exhausted t.memory) bootLocked := by
  have hsound : bootLocked.LocksSound := fun _ => .free []
  have hfree : 0 ∈ Memory.bootMemory.freeFrames .kernel :=
    Memory.mem_freeFrames.mpr ⟨by decide, by decide⟩
  refine ⟨hsound, (secondPage.restores_iff hsound fun _ _ h => h).mpr (Or.inr ?_)⟩
  rintro ⟨hempty, -⟩
  have hmem : 0 ∈ (∅ : Finset ℕ) := hempty ▸ hfree
  exact absurd hmem (Finset.notMem_empty 0)

/-- `get_a_page` keeps the lock when there is no frame, even if no other thread runs. -/
theorem not_restores_exhausted : ¬ secondPage.Restores (fun _ _ => False) exhaustedLocked := by
  refine PoolCall.exhausted_not_restores (fun _ => .free []) ?_ exhaustedLocked_exhausted
  rintro ⟨p, -, hholder⟩
  cases hholder

end BochsOs
