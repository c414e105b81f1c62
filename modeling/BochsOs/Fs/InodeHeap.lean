import BochsOs.Fs.Handles
import BochsOs.Fs.OpenCounts
import BochsOs.Userprog.SameProcs

/-!
# The heap of a cached inode

`sys_malloc` and `sys_free` take the heap from `pgdir` of the running thread.  `inode_open`
sets it to `NULL` around its `sys_malloc`, and `inode_close` around its `sys_free`, so a
cached inode should lie in the kernel heap whoever has opened it.  `file_create` allocates
the inode of a new file as the caller: for a process it lies in the heap of that process
(`user_inode_cached`), and `inode_close` fails the `ASSERT` of `sys_free`.  Without that,
every cached inode lies in the kernel heap in every run (`inodes_in_kernel_heap`).
-/

namespace BochsOs

open Suspend Suspend.Prog Runs

/-! ## The system -/

/-- A heap: that of the kernel, or that of the process at `p`. -/
inductive Heap where
  | kernel
  | user (p : ℕ)
  deriving DecidableEq

/-- The heap that `sys_malloc` takes for the running thread. -/
def Kernel.callerHeap (k : Kernel) : Heap := if k.cur.isProcess then .user k.running else .kernel

/-- The heap that `sys_malloc` takes in `inode_open`, after `cur->pgdir = NULL`: without a `pgdir` the
running thread is no process. -/
def Kernel.inodeOpenHeap (k : Kernel) : Heap :=
  (k.setTask k.running { k.cur with isProcess := false }).callerHeap

@[simp]
theorem inodeOpenHeap_eq (k : Kernel) : k.inodeOpenHeap = .kernel := by
  have hcur : (k.setTask k.running { k.cur with isProcess := false }).cur.isProcess = false := by
    change (Function.update k.tasks k.running _ k.running).isProcess = false
    rw [Function.update_self]
  rw [Kernel.inodeOpenHeap, Kernel.callerHeap, hcur]
  rfl

/-- The kernel, and the heap that each `struct inode` was allocated from. -/
structure InodeHeaps where
  kernel : Kernel
  heap : ℕ → Heap

namespace InodeHeaps

/-- Code that allocates no inode. -/
def onKernel {α : Type} (x : Prog Kernel α) : Prog InodeHeaps α :=
  x.focus InodeHeaps.kernel fun k w => { w with kernel := k }

/-- The state when the kernel has gone on to `k'` and has allocated its inodes from `h`. -/
def allocated (w : InodeHeaps) (h : Heap) (k' : Kernel) : InodeHeaps where
  kernel := k'
  heap a := if w.kernel.nextInode ≤ a ∧ a < k'.nextInode then h else w.heap a

/-- Code that allocates its inodes from the heap `h`, as `pgdir` of the thread says. -/
def allocFrom {α : Type} (h : Kernel → Heap) (x : Prog Kernel α) : Prog InodeHeaps α := do
  let w ← read
  let r ← onKernel x
  modify fun w' => w.allocated (h w.kernel) w'.kernel
  return r

/-- `sys_open`: `search_file` and `file_open` allocate in `inode_open`, `file_create` as
the caller. -/
def sysOpen (t : Transfer) (pathname : CString) (flags : ℕ) : Prog InodeHeaps ℤ := do
  let path := pathname.val
  let before ← arbitrary
  if path.getLastD (UInt8.ofNat before) = slash then return -1
  else
  assert (flags ≤ 7)
  let pathnameDepth ← onKernel (pathDepthCnt path)
  let (inodeNo, record) ← allocFrom Kernel.inodeOpenHeap (searchFile t pathname)
  if record.fileType = .directory then
    onKernel (dirClose record.parentDir)
    return -1
  else
  let pathSearchedDepth ← onKernel (pathDepthCnt record.searchedPath)
  if pathnameDepth ≠ pathSearchedDepth then
    onKernel (dirClose record.parentDir)
    return -1
  else
  match inodeNo with
  | none =>
      if flags &&& oCreat = 0 then
        onKernel (dirClose record.parentDir)
        return -1
      else
        let fd ← allocFrom Kernel.callerHeap
          (fileCreate t record.parentDir (afterLastSlash path) flags)
        onKernel (dirClose record.parentDir)
        return fd
  | some inodeNo =>
      if flags &&& oCreat ≠ 0 then
        onKernel (dirClose record.parentDir)
        return -1
      else
        allocFrom Kernel.inodeOpenHeap (fileOpen t inodeNo flags)

end InodeHeaps

/-- The calls that put inodes on `open_inodes` or take them off. -/
inductive CacheCall where
  | open (pathname : CString) (flags : ℕ)
  | opendir (name : CString)
  | closedir (dir : Option ℕ)
  | mkdir (pathname : CString)
  | close (fd : ℤ)
  | exit (status : ℤ)

/-- Thread `task` makes a call.  All calls but `sys_open` allocate in `inode_open` only. -/
inductive CacheStep (t : Transfer) (w : InodeHeaps) : ℕ × CacheCall → InodeHeaps → Prop where
  | open {task : ℕ} {pathname : CString} {flags : ℕ} {ret : ℤ} {w' : InodeHeaps}
      (h : (InodeHeaps.sysOpen t pathname flags).Returns ⟨w.kernel.runTask task, w.heap⟩ ret w') :
      CacheStep t w (task, .open pathname flags) w'
  | opendir {task : ℕ} {name : CString} {ret : Option ℕ} {w' : InodeHeaps}
      (h : (InodeHeaps.allocFrom Kernel.inodeOpenHeap (sysOpendir t name)).Returns
        ⟨w.kernel.runTask task, w.heap⟩ ret w') : CacheStep t w (task, .opendir name) w'
  | closedir {task : ℕ} {dir : Option ℕ} {ret : ℤ} {w' : InodeHeaps}
      (h : (InodeHeaps.allocFrom Kernel.inodeOpenHeap (sysClosedir dir)).Returns
        ⟨w.kernel.runTask task, w.heap⟩ ret w') : CacheStep t w (task, .closedir dir) w'
  | mkdir {task : ℕ} {pathname : CString} {ret : ℤ} {w' : InodeHeaps}
      (h : (InodeHeaps.allocFrom Kernel.inodeOpenHeap (sysMkdir t pathname)).Returns
        ⟨w.kernel.runTask task, w.heap⟩ ret w') : CacheStep t w (task, .mkdir pathname) w'
  | close {task : ℕ} {fd ret : ℤ} {w' : InodeHeaps}
      (h : (InodeHeaps.allocFrom Kernel.inodeOpenHeap (sysClose fd)).Returns
        ⟨w.kernel.runTask task, w.heap⟩ ret w') : CacheStep t w (task, .close fd) w'
  | exit {task : ℕ} {status : ℤ} {w' : InodeHeaps}
      (h : (InodeHeaps.allocFrom Kernel.inodeOpenHeap (sysExit status)).Returns
        ⟨w.kernel.runTask task, w.heap⟩ () w') : CacheStep t w (task, .exit status) w'

/-- The cached inodes were allocated, from the kernel heap; after the mount this is so for
the root. -/
def CacheInit (w : InodeHeaps) : Prop :=
  ∀ a ∈ w.kernel.openInodes, a < w.kernel.nextInode ∧ w.heap a = .kernel

/-- A process creates a file: there is none of this name, and there are a free inode number
and a free entry of `file_table` for it. -/
def UserCreates (t : Transfer) (k : Kernel) : CacheCall → Prop
  | .open pathname flags =>
      k.cur.isProcess = true ∧ flags &&& oCreat ≠ 0 ∧ pathname.val.getLast? ≠ some slash ∧
        NamesNothing t k pathname ∧ bitmapScan k.part.inodeBitmap 1 ≠ none ∧ k.FreeEntry
  | _ => False

/-- The side condition of a step. -/
def NoUserCreate (t : Transfer) (w : InodeHeaps) (call : ℕ × CacheCall) : Prop :=
  ¬ UserCreates t (w.kernel.runTask call.1) call.2

/-- Every cached inode lies in the kernel heap. -/
def InKernelHeap (w : InodeHeaps) : Prop := ∀ a ∈ w.kernel.openInodes, w.heap a = .kernel

/-- The inodes that a step takes off the list, which `inode_close` frees, lie in the kernel
heap. -/
def FreesKernelHeap (w w' : InodeHeaps) : Prop :=
  ∀ a ∈ w.kernel.openInodes, a ∉ w'.kernel.openInodes → w.heap a = .kernel

/-! ## What is put on the list -/

/-- From `k` to `k'` only new inodes are put on `open_inodes`. -/
structure OpensNew (k k' : Kernel) : Prop where
  next : k.nextInode ≤ k'.nextInode
  opened : ∀ a ∈ k'.openInodes, a ∈ k.openInodes ∨ k.nextInode ≤ a ∧ a < k'.nextInode

theorem opensNew_same {k k' : Kernel} (hnext : k'.nextInode = k.nextInode)
    (hopened : k'.openInodes = k.openInodes) : OpensNew k k' :=
  ⟨hnext.ge, fun _ ha => Or.inl (hopened ▸ ha)⟩

instance : IsPreorder Kernel OpensNew where
  refl _ := opensNew_same rfl rfl
  trans k₁ k₂ k₃ h h' := by
    refine ⟨h.next.trans h'.next, fun a ha => ?_⟩
    rcases h'.opened a ha with ha | ⟨hlow, hhigh⟩
    · rcases h.opened a ha with ha | ⟨hlow, hhigh⟩
      · exact Or.inl ha
      · exact Or.inr ⟨hlow, hhigh.trans_le h'.next⟩
    · exact Or.inr ⟨h.next.trans hlow, hhigh⟩

instance : ContentFrame OpensNew where
  disk _ _ := opensNew_same rfl rfl
  blockBitmap _ _ := opensNew_same rfl rfl
  inodeBitmap _ _ := opensNew_same rfl rfl
  inode _ _ _ _ := opensNew_same rfl rfl

instance : WalkFrame OpensNew where
  count _ _ _ := opensNew_same rfl rfl
  erase _ _ := ⟨le_rfl, fun _ ha => Or.inl (List.mem_of_mem_erase ha)⟩
  alloc _ := ⟨Nat.le_succ _, fun _ ha => Or.inl ha⟩
  newInode k _ := by
    refine ⟨Nat.le_succ _, fun a ha => ?_⟩
    rcases List.mem_cons.mp ha with rfl | ha
    · exact Or.inr ⟨le_rfl, Nat.lt_succ_self _⟩
    · exact Or.inl ha
  newDir _ _ := opensNew_same rfl rfl
  freeDir _ _ := opensNew_same rfl rfl

instance : TurnFrame OpensNew where
  task _ _ _ _ _ _ _ := opensNew_same rfl rfl

/-- From `k` to `k'` inodes and directories were opened and closed, and nothing else. -/
structure SameWorld (k k' : Kernel) : Prop where
  disk : k'.disk = k.disk
  part : k'.part = k.part
  files : k'.fileTable = k.fileTable
  tasks : k'.tasks = k.tasks
  running : k'.running = k.running

theorem SameWorld.cur {k k' : Kernel} (h : SameWorld k k') : k'.cur = k.cur := by
  rw [Kernel.cur, h.tasks, h.running]
  rfl

instance : IsPreorder Kernel SameWorld where
  refl _ := ⟨rfl, rfl, rfl, rfl, rfl⟩
  trans _ _ _ h h' := ⟨h'.disk.trans h.disk, h'.part.trans h.part, h'.files.trans h.files,
    h'.tasks.trans h.tasks, h'.running.trans h.running⟩

instance : WalkFrame SameWorld where
  count _ _ _ := ⟨rfl, rfl, rfl, rfl, rfl⟩
  erase _ _ := ⟨rfl, rfl, rfl, rfl, rfl⟩
  alloc _ := ⟨rfl, rfl, rfl, rfl, rfl⟩
  newInode _ _ := ⟨rfl, rfl, rfl, rfl, rfl⟩
  newDir _ _ := ⟨rfl, rfl, rfl, rfl, rfl⟩
  freeDir _ _ := ⟨rfl, rfl, rfl, rfl, rfl⟩

/-- `file_create` puts its inode on the list if there were a free inode number and a free
entry, and puts nothing on it otherwise. -/
theorem fileCreate_opens {t : Transfer} {parentDir flag : ℕ} {filename : List UInt8} {k : Kernel} :
    (fileCreate t parentDir filename flag).wp (fun _ k' => k.nextInode ≤ k'.nextInode ∧
      (k'.openInodes = k.openInodes ∨ bitmapScan k.part.inodeBitmap 1 ≠ none ∧ k.FreeEntry ∧
        k.nextInode < k'.nextInode ∧ k'.openInodes = k.nextInode :: k.openInodes)) k := by
  simp only [fileCreate, wp_bind, wp_sysMalloc]
  rintro (_ | _)
  · exact ⟨le_rfl, Or.inl rfl⟩
  simp only [Bool.not_true, Bool.false_eq_true, if_false, wp_bind, inodeBitmapAlloc, wp_read]
  cases hscan : bitmapScan k.part.inodeBitmap 1 with
  | none => exact ⟨le_rfl, Or.inl rfl⟩
  | some inodeNo =>
      simp only [wp_bind, wp_write, wp_pure, wp_sysMalloc]
      rintro (_ | _)
      · exact ⟨le_rfl, Or.inl rfl⟩
      simp only [Bool.not_true, Bool.false_eq_true, if_false, wp_bind, wp_read, wp_write]
      refine getFreeSlotInGlobal_spec ⟨Nat.le_succ _, Or.inl rfl⟩ fun g hlow hg hfree => ?_
      have hentry : k.FreeEntry := ⟨g, hlow, hg, hfree⟩
      rw [wp_bind, wp_modify, wp_bind]
      refine wp_mono (createDirEntry_same _ _ _).wp_eq ?_
      rintro e k₁ rfl
      rw [wp_bind]
      refine wp_mono (wp_of_always (syncDirEntry_within (R := SameOpen) _ _ _ _)) ?_
      intro synced k₂ hsame
      cases synced with
      | false =>
          refine ⟨?_, Or.inl hsame.opened⟩
          change k.nextInode ≤ k₂.nextInode
          rw [hsame.next]
          exact Nat.le_succ _
      | true =>
          simp only [if_true, wp_bind, wp_read]
          refine wp_mono (wp_of_always (inodeSync_within (R := SameOpen) _ _ _ _)) ?_
          intro _ k₃ hsame₃
          refine wp_mono (wp_of_always (inodeSync_within (R := SameOpen) _ _ _ _)) ?_
          intro _ k₄ hsame₄
          refine wp_mono (wp_of_always (bitmapSync_within (R := SameOpen) _ _ _ _)) ?_
          intro _ k₅ hsame₅
          have hall := ((hsame.trans hsame₃).trans hsame₄).trans hsame₅
          have hnext : k₅.nextInode = k.nextInode + 1 := hall.next
          have hopened : k₅.openInodes = k.openInodes := hall.opened
          have hlt : k.nextInode < k₅.nextInode := by omega
          have hcreated : k₅.nextInode = k.nextInode + 1 ∧
              k.nextInode :: k₅.openInodes = k.nextInode :: k.openInodes := ⟨hnext, by rw [hopened]⟩
          simp only [wp_modify, pcbFdInstall, wp_bind, wp_read]
          split
          · exact ⟨hlt.le, Or.inr ⟨Option.some_ne_none _, hentry, hlt, hcreated.2⟩⟩
          · exact ⟨hlt.le, Or.inr ⟨Option.some_ne_none _, hentry, hlt, hcreated.2⟩⟩

/-! ## Every run -/

namespace InodeHeaps

variable {α : Type} {w : InodeHeaps} {h : Kernel → Heap} {x : Prog Kernel α}

theorem wp_onKernel {Q : α → InodeHeaps → Prop} :
    (onKernel x).wp Q w ↔ x.wp (fun r k' => Q r ⟨k', w.heap⟩) w.kernel := by
  unfold onKernel
  refine wp_focus ?_ ?_ ?_
  · exact fun _ _ => rfl
  · exact fun _ _ _ => rfl
  · exact fun _ => rfl

theorem wp_allocFrom {Q : α → InodeHeaps → Prop} :
    (allocFrom h x).wp Q w ↔ x.wp (fun r k' => Q r (w.allocated (h w.kernel) k')) w.kernel := by
  simp only [allocFrom, wp_bind, wp_read, wp_onKernel, wp_modify, wp_pure]

/-- Without the heaps, `y` is `x`. -/
def Erases (y : Prog InodeHeaps α) (x : Prog Kernel α) : Prop :=
  ∀ ⦃w r w'⦄, y.Returns w r w' → x.Returns w.kernel r w'.kernel

theorem onKernel_erases : Erases (onKernel x) x := by
  intro w r w' hret
  have hall : (onKernel x).wp (fun r w' => x.Returns w.kernel r w'.kernel) w :=
    wp_onKernel.mpr (wp_iff_returns.mpr fun _ _ h => h)
  exact wp_iff_returns.mp hall _ _ hret

theorem allocFrom_erases : Erases (allocFrom h x) x := by
  intro w r w' hret
  have hall : (allocFrom h x).wp (fun r w' => x.Returns w.kernel r w'.kernel) w :=
    wp_allocFrom.mpr (wp_iff_returns.mpr fun _ _ h => h)
  exact wp_iff_returns.mp hall _ _ hret

theorem Erases.pure (a : α) : Erases (Pure.pure a) (Pure.pure a) := by
  rintro w r w' ⟨rfl, rfl⟩
  exact ⟨rfl, rfl⟩

theorem Erases.bind {β : Type} {y : Prog InodeHeaps α} {g : α → Prog InodeHeaps β}
    {f : α → Prog Kernel β} (hy : Erases y x) (hg : ∀ a, Erases (g a) (f a)) :
    Erases (y >>= g) (x >>= f) := by
  intro w r w' hret
  obtain ⟨a, w₁, ha, hr⟩ := returns_bind.mp hret
  exact returns_bind.mpr ⟨a, w₁.kernel, hy ha, hg a hr⟩

/-- Without the heaps, `sys_open` is the one of the file system. -/
theorem sysOpen_erases (t : Transfer) (pathname : CString) (flags : ℕ) :
    Erases (sysOpen t pathname flags) (BochsOs.sysOpen t pathname flags) := by
  have harbitrary : Erases (arbitrary : Prog InodeHeaps ℕ) (arbitrary : Prog Kernel ℕ) := by
    rintro w r w' ⟨n, rfl, rfl⟩
    exact ⟨_, rfl, rfl⟩
  have hassert : ∀ c : Bool, Erases (assert c) (assert c) := by
    rintro (_ | _)
    · exact fun _ _ _ h => h.elim
    · exact Erases.pure ()
  refine harbitrary.bind fun before => ?_
  split
  · exact .pure _
  refine (hassert _).bind fun _ => onKernel_erases.bind fun depth => allocFrom_erases.bind fun found => ?_
  obtain ⟨inodeNo, record⟩ := found
  have hclose : ∀ ret : ℤ, Erases (do onKernel (dirClose record.parentDir); return ret)
      (do dirClose record.parentDir; return ret) := fun ret =>
    onKernel_erases.bind fun _ => .pure _
  dsimp only
  split
  · exact hclose _
  refine onKernel_erases.bind fun searched => ?_
  split
  · exact hclose _
  cases inodeNo with
  | none =>
      dsimp only
      split
      · exact hclose _
      · exact allocFrom_erases.bind fun fd => hclose fd
  | some inodeNo =>
      dsimp only
      split
      · exact hclose _
      · exact allocFrom_erases

theorem cacheInit_allocated (hw : CacheInit w) {k' : Kernel} (hnew : OpensNew w.kernel k') :
    CacheInit (w.allocated .kernel k') := by
  intro a ha
  simp only [allocated]
  rcases hnew.opened a ha with hold | ⟨hlow, hhigh⟩
  · obtain ⟨hlt, hheap⟩ := hw a hold
    refine ⟨hlt.trans_le hnew.next, ?_⟩
    rw [if_neg (by omega), hheap]
  · exact ⟨hhigh, if_pos ⟨hlow, hhigh⟩⟩

/-- Inodes that are not on the list may come from any heap. -/
theorem cacheInit_unlisted (hw : CacheInit w) {h : Heap} {k' : Kernel}
    (hnext : w.kernel.nextInode ≤ k'.nextInode) (hopened : k'.openInodes = w.kernel.openInodes) :
    CacheInit (w.allocated h k') := by
  intro a ha
  obtain ⟨hlt, hheap⟩ := hw a (hopened ▸ ha)
  refine ⟨hlt.trans_le hnext, ?_⟩
  simp only [allocated]
  rw [if_neg (by omega), hheap]

theorem allocFrom_cacheInit (hw : CacheInit w) (hx : Within OpensNew x) :
    (allocFrom Kernel.inodeOpenHeap x).wp (fun _ => CacheInit) w :=
  wp_allocFrom.mpr (wp_mono (wp_of_always (hx w.kernel)) fun _ _ hnew => by
    rw [inodeOpenHeap_eq]
    exact cacheInit_allocated hw hnew)

theorem onKernel_cacheInit (hw : CacheInit w) (hx : Within OpensNew x)
    (hnext : x.wp (fun _ k' => k'.nextInode = w.kernel.nextInode) w.kernel) :
    (onKernel x).wp (fun _ => CacheInit) w := by
  rw [wp_onKernel]
  refine wp_mono (wp_and (wp_of_always (hx w.kernel)) hnext) ?_
  rintro _ k' ⟨hnew, hsame⟩ a ha
  rcases hnew.opened a ha with hold | ⟨hlow, hhigh⟩
  · exact ⟨(hw a hold).1.trans_le hnew.next, (hw a hold).2⟩
  · omega

/-- `dir_close` allocates nothing. -/
theorem dirClose_cacheInit (hw : CacheInit w) (dir : ℕ) :
    (onKernel (dirClose dir)).wp (fun _ => CacheInit) w := by
  refine onKernel_cacheInit hw (dirClose_within dir) ?_
  unfold dirClose
  split
  · rfl
  rw [wp_bind, wp_read]
  split
  · rw [wp_bind, wp_inodeClose, wp_modify]
    unfold Kernel.closed
    split <;> rfl
  · trivial

theorem setFile_opensNew (g : ℕ) (file : Kernel → File) :
    Within OpensNew (modify fun k => k.setFile g (file k)) :=
  .modify fun _ => opensNew_same rfl rfl

theorem pcbFdInstall_opensNew (g : ℕ) : Within OpensNew (pcbFdInstall g) := by
  refine .read_bind fun k => ?_
  split
  · exact ⟨refl k, opensNew_same rfl rfl⟩
  · exact refl k

theorem fileOpen_opensNew (t : Transfer) (inodeNo flag : ℕ) :
    Within OpensNew (fileOpen t inodeNo flag) := by
  refine getFreeSlotInGlobal_same.of_eq.bind fun slot => ?_
  cases slot with
  | none => exact .pure _
  | some fdI =>
      refine (inodeOpen_within t inodeNo).bind fun a =>
        (setFile_opensNew fdI fun _ => ⟨0, flag, some a⟩).bind fun _ => ?_
      split
      · refine .read_bind fun k => ?_
        split
        · exact refl k
        · have hset : OpensNew k (k.setInode a { k.inodes a with writeDeny := true }) :=
            opensNew_same rfl rfl
          exact always_bind.mpr ⟨⟨refl k, hset⟩, (pcbFdInstall_opensNew fdI).always_of hset⟩
      · exact pcbFdInstall_opensNew fdI

theorem fileCreate_cacheInit (hw : CacheInit w) {t : Transfer} {parentDir flag : ℕ}
    {filename : List UInt8} (hcond : w.kernel.cur.isProcess = true →
      bitmapScan w.kernel.part.inodeBitmap 1 ≠ none → ¬ w.kernel.FreeEntry) :
    (allocFrom Kernel.callerHeap (fileCreate t parentDir filename flag)).wp
      (fun _ => CacheInit) w := by
  rw [wp_allocFrom]
  refine wp_mono fileCreate_opens ?_
  rintro _ k' ⟨hnext, hsame | ⟨hbit, hentry, hlt, hopened⟩⟩
  · exact cacheInit_unlisted hw hnext hsame
  · have hcaller : w.kernel.callerHeap = .kernel := if_neg fun hproc => hcond hproc hbit hentry
    rw [hcaller]
    refine cacheInit_allocated hw ⟨hnext, fun a ha => ?_⟩
    rw [hopened] at ha
    rcases List.mem_cons.mp ha with rfl | ha
    · exact Or.inr ⟨le_rfl, hlt⟩
    · exact Or.inl ha

theorem sysOpen_cacheInit (hw : CacheInit w) {t : Transfer} {pathname : CString} {flags : ℕ}
    (hcond : ¬ UserCreates t w.kernel (.open pathname flags)) :
    (sysOpen t pathname flags).wp (fun _ => CacheInit) w := by
  simp only [sysOpen, wp_bind, wp_arbitrary]
  intro before
  split
  · exact hw
  next hslash =>
    have hlast : pathname.val.getLast? ≠ some slash := by
      intro hlast
      rw [List.getLastD_eq_getLast?, hlast] at hslash
      exact hslash rfl
    rw [wp_bind, wp_assert]
    intro _
    rw [wp_bind, wp_onKernel, wp_iff_returns]
    intro depth k₀ hdepth
    obtain rfl : k₀ = w.kernel := wp_iff_returns.mp (pathDepthCnt_same _).wp_eq _ _ hdepth
    rw [wp_bind, wp_allocFrom, wp_iff_returns]
    rintro ⟨found, record⟩ k₁ hsearch
    rw [inodeOpenHeap_eq]
    have hnew := wp_iff_returns.mp (wp_of_always (searchFile_within (R := OpensNew) t pathname _)) _ _ hsearch
    have hw₁ : CacheInit (w.allocated .kernel k₁) := cacheInit_allocated hw hnew
    have hclose : ∀ (ret : ℤ) {w : InodeHeaps}, CacheInit w →
        (onKernel (dirClose record.parentDir) >>= fun _ => pure ret : Prog InodeHeaps ℤ).wp
          (fun _ => CacheInit) w := fun ret w hw =>
      wp_bind.mpr (dirClose_cacheInit hw _)
    dsimp only
    split
    · exact hclose _ hw₁
    next hfile =>
      rw [wp_bind, wp_onKernel, wp_iff_returns]
      intro searched k₂ hsearched
      obtain rfl : k₂ = k₁ := wp_iff_returns.mp (pathDepthCnt_same _).wp_eq _ _ hsearched
      split
      · exact hclose _ hw₁
      next hdeep =>
        obtain rfl : depth = searched := not_not.mp hdeep
        cases found with
        | none =>
            dsimp only
            split
            · exact hclose _ hw₁
            next hcreat =>
              rw [wp_bind]
              refine wp_mono (fileCreate_cacheInit hw₁ ?_) fun fd w₃ hw₃ => hclose fd hw₃
              intro hproc hbit hentry
              have hkept := wp_iff_returns.mp (wp_of_always (searchFile_within (R := SameWorld) t
                pathname _)) _ _ hsearch
              refine hcond ⟨?_, hcreat, hlast, ⟨record, k₂, hsearch, hfile, depth, hdepth, hsearched⟩,
                ?_, ?_⟩
              · rw [← hkept.cur]
                exact hproc
              · rw [← hkept.part]
                exact hbit
              · rw [Kernel.FreeEntry, ← hkept.files]
                exact hentry
        | some inodeNo =>
            dsimp only
            split
            · exact hclose _ hw₁
            · exact allocFrom_cacheInit hw₁ (fileOpen_opensNew _ _ _)

end InodeHeaps

theorem fileClose_opensNew (fd : ℕ) : Within OpensNew (fileClose fd) := by
  refine .read_bind fun k => ?_
  split
  · exact refl k
  next a _ =>
    have hset : OpensNew k (k.setInode a { k.inodes a with writeDeny := false }) :=
      opensNew_same rfl rfl
    have hrest : Within OpensNew (do
        inodeClose a
        modify fun k => k.setFile fd { k.fileTable fd with fdInode := none }
        return 0 : Prog Kernel ℤ) :=
      (inodeClose_within a).bind fun _ => (InodeHeaps.setFile_opensNew fd _).bind fun _ => .pure _
    exact ⟨refl k, hrest.always_of hset⟩

theorem pipeDrop_opensNew (g : ℕ) : Within OpensNew (pipeDrop g) :=
  .modify fun _ => opensNew_same rfl rfl

theorem sysClose_opensNew (fd : ℤ) : Within OpensNew (sysClose fd) := by
  unfold sysClose
  split
  · exact .pure _
  refine (fdLocal2global_same _).of_eq.bind fun g => (isPipe_same _).of_eq.bind fun pipe => ?_
  have hset : ∀ k : Kernel, OpensNew k (k.setTask k.running
      { k.cur with fdTable := Function.update k.cur.fdTable fd.toNat (-1) }) := fun _ =>
    opensNew_same rfl rfl
  have hclear : ∀ ret : ℤ, Within OpensNew (do
      modify fun k => k.setTask k.running
        { k.cur with fdTable := Function.update k.cur.fdTable fd.toNat (-1) }
      return ret : Prog Kernel ℤ) := fun ret => (Within.modify hset).bind fun _ => .pure _
  cases pipe with
  | true => exact (pipeDrop_opensNew g).bind fun _ => hclear 0
  | false => exact (fileClose_opensNew g).bind fun ret => hclear ret

theorem releaseFds_opensNew (left fd : ℕ) : Within OpensNew (releaseFds left fd) := by
  induction left generalizing fd with
  | zero => exact .pure _
  | succ left ih =>
      have hround : Within OpensNew (releaseFd fd) := by
        refine Within.read.bind fun k => ?_
        split
        · exact .pure _
        · refine (isPipe_same _).of_eq.bind fun pipe => ?_
          cases pipe with
          | true => exact (fdLocal2global_same _).of_eq.bind fun g => pipeDrop_opensNew g
          | false => exact (sysClose_opensNew _).bind fun _ => .pure _
      exact hround.bind fun _ => ih (fd + 1)

theorem sysExit_opensNew (status : ℤ) : Within OpensNew (sysExit status) := by
  have hset : ∀ k : Kernel, OpensNew k
      (k.setTask k.running { k.cur with exitStatus := wrap8 status }) := fun _ =>
    opensNew_same rfl rfl
  refine (Within.modify hset).bind fun _ => .read_bind fun k => ?_
  split
  · exact refl k
  · have hadopt : OpensNew k (k.adoptChildren k.cur.pid) := opensNew_same rfl rfl
    have hrest : Within OpensNew (do releaseProgResource; exitFinish : Prog Kernel Unit) :=
      (releaseFds_opensNew _ 3).bind fun _ => exitFinish_within
    exact ⟨refl k, hrest.always_of hadopt⟩

variable {t : Transfer} {w w' : InodeHeaps} {call : ℕ × CacheCall}

theorem CacheInit.step (hw : CacheInit w) (hcond : NoUserCreate t w call) (h : CacheStep t w call w') :
    CacheInit w' := by
  have hrun : ∀ task, CacheInit ⟨w.kernel.runTask task, w.heap⟩ := fun _ => hw
  cases h with
  | «open» h => exact wp_iff_returns.mp (InodeHeaps.sysOpen_cacheInit (hrun _) hcond) _ _ h
  | opendir h =>
      exact wp_iff_returns.mp (InodeHeaps.allocFrom_cacheInit (hrun _) (sysOpendir_within t _)) _ _ h
  | closedir h =>
      exact wp_iff_returns.mp (InodeHeaps.allocFrom_cacheInit (hrun _) (sysClosedir_within _)) _ _ h
  | mkdir h =>
      exact wp_iff_returns.mp (InodeHeaps.allocFrom_cacheInit (hrun _) (sysMkdir_within t _)) _ _ h
  | close h =>
      exact wp_iff_returns.mp (InodeHeaps.allocFrom_cacheInit (hrun _) (sysClose_opensNew _)) _ _ h
  | exit h =>
      exact wp_iff_returns.mp (InodeHeaps.allocFrom_cacheInit (hrun _) (sysExit_opensNew _)) _ _ h

/-- As long as only kernel threads create files, every cached inode lies in the kernel heap,
and so does every inode that the next call frees. -/
theorem inodes_in_kernel_heap (hw : Reachable CacheInit (CacheStep t) (NoUserCreate t) w) :
    InKernelHeap w ∧ ∀ call w', CacheStep t w call w' → FreesKernelHeap w w' := by
  have hinv : CacheInit w := hw.invariant CacheInit (fun _ h => h) fun _ _ _ hw hcond h =>
    CacheInit.step hw hcond h
  exact ⟨fun a ha => (hinv a ha).2, fun _ _ _ a ha _ => (hinv a ha).2⟩

/-! ## Two runs -/

/-- The new file system, with a process at 1. -/
def twoThreads : InodeHeaps where
  kernel := smallMachine.newFs.setTask 1 { smallMachine.newFs.cur with isProcess := true }
  heap _ := .kernel

theorem twoThreads_init : CacheInit twoThreads := by
  intro a (ha : a ∈ [smallMachine.nextInode])
  rw [List.mem_singleton.mp ha]
  exact ⟨Nat.lt_succ_self _, rfl⟩

/-- The state after thread `task` has created `/a`. -/
def creates (task : ℕ) : Option (ℤ × InodeHeaps) :=
  (InodeHeaps.sysOpen .repeated pathA 6).exec [] ⟨twoThreads.kernel.runTask task, twoThreads.heap⟩

/-- A kernel thread creates a file: its inode is cached, in the kernel heap. -/
theorem inodes_in_kernel_heap_thread :
    ∃ w, Reachable CacheInit (CacheStep .repeated) (NoUserCreate .repeated) w ∧
      w.kernel.openInodes.length = 2 ∧ InKernelHeap w := by
  have hrun : (creates 0).map (fun r => r.2.kernel.openInodes.length) = some 2 := by
    decide +kernel
  obtain ⟨⟨ret, w⟩, hexec, hlength⟩ := Option.map_eq_some_iff.mp hrun
  have hreach : Reachable CacheInit (CacheStep .repeated) (NoUserCreate .repeated) w := by
    refine .next (i := (0, .open pathA 6)) (.start twoThreads_init) ?_ (.open (returns_of_exec hexec))
    rintro ⟨hproc, -⟩
    exact Bool.false_ne_true hproc
  exact ⟨w, hreach, hlength, (inodes_in_kernel_heap hreach).1⟩

/-- A process creates a file: its inode is cached, and lies in the heap of the process. -/
theorem user_inode_cached :
    ¬ ∀ w, Reachable CacheInit (CacheStep .repeated) (fun _ _ => True) w →
      InKernelHeap w ∧ ∀ call w', CacheStep .repeated w call w' → FreesKernelHeap w w' := by
  intro hclaim
  have hrun : (creates 1).map (fun r => decide (∃ a ∈ r.2.kernel.openInodes, r.2.heap a ≠ .kernel)) =
      some true := by
    decide +kernel
  obtain ⟨⟨ret, w⟩, hexec, huser⟩ := Option.map_eq_some_iff.mp hrun
  have hreach : Reachable CacheInit (CacheStep .repeated) (fun _ _ => True) w :=
    .next (i := (1, .open pathA 6)) (.start twoThreads_init) trivial (.open (returns_of_exec hexec))
  obtain ⟨a, ha, hheap⟩ := of_decide_eq_true huser
  exact hheap ((hclaim w hreach).1 a ha)

end BochsOs
