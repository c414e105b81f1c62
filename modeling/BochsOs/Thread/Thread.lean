import BochsOs.Kernel.State

/-!
# Threads

`thread/pid.c` and `thread/thread.c`.  `schedule` hands the processor to the first
thread of the ready list: in the model it changes `running`.  What the thread that
gave it up does next is for whoever called `schedule` to say.
-/

namespace BochsOs

open Suspend Suspend.Prog

/-! ## Process numbers -/

/-- `pid_pool.pid_start`. -/
def pidStart : ℕ := 1

/-- `pid_pool_init`, as far as the bitmap goes: 128 bytes of zeros. -/
def pidPoolInit : Bitmap := ⟨128, fun _ => 0⟩

/-- `allocate_pid`.  When the numbers are used up, the bit to set is number `-1`. -/
def allocatePid : Prog Kernel ℕ := do
  let k ← read
  match bitmapScan k.pidBitmap 1 with
  | none => stop .undefined
  | some bitIdx =>
      write { k with pidBitmap := bitmapSet k.pidBitmap bitIdx true }
      return bitIdx + pidStart

/-- `release_pid`. -/
def releasePid (pid : ℕ) : Prog Kernel Unit :=
  modify fun k => { k with pidBitmap := bitmapSet k.pidBitmap (pid - pidStart) false }

/-! ## Scheduling -/

/-- Set the status of the thread at `p`. -/
def Kernel.setStatus (k : Kernel) (p : ℕ) (status : TaskStatus) : Kernel :=
  k.setTask p { k.tasks p with status := status }

theorem Kernel.setStatus_pid (k : Kernel) (p q : ℕ) (status : TaskStatus) :
    ((k.setStatus p status).tasks q).pid = (k.tasks q).pid := by
  by_cases hq : q = p <;> simp [Kernel.setStatus, Kernel.setTask, hq]

theorem Kernel.setStatus_parent (k : Kernel) (p q : ℕ) (status : TaskStatus) :
    ((k.setStatus p status).tasks q).parentPid = (k.tasks q).parentPid := by
  by_cases hq : q = p <;> simp [Kernel.setStatus, Kernel.setTask, hq]

theorem Kernel.setStatus_process (k : Kernel) (p q : ℕ) (status : TaskStatus) :
    ((k.setStatus p status).tasks q).isProcess = (k.tasks q).isProcess := by
  by_cases hq : q = p <;> simp [Kernel.setStatus, Kernel.setTask, hq]

theorem Kernel.setStatus_exitStatus (k : Kernel) (p q : ℕ) (status : TaskStatus) :
    ((k.setStatus p status).tasks q).exitStatus = (k.tasks q).exitStatus := by
  by_cases hq : q = p <;> simp [Kernel.setStatus, Kernel.setTask, hq]

theorem Kernel.setStatus_self (k : Kernel) (p : ℕ) (status : TaskStatus) :
    ((k.setStatus p status).tasks p).status = status := by
  simp [Kernel.setStatus, Kernel.setTask]

theorem Kernel.setStatus_of_ne (k : Kernel) {p q : ℕ} (status : TaskStatus) (hq : q ≠ p) :
    (k.setStatus p status).tasks q = k.tasks q := by
  simp [Kernel.setStatus, Kernel.setTask, hq]

theorem nodup_append_singleton {l : List ℕ} {a : ℕ} (hl : l.Nodup) (ha : a ∉ l) :
    (l ++ [a]).Nodup := by
  rw [← List.concat_eq_append]
  exact hl.concat ha

/-- `thread_unblock`. -/
def threadUnblock (p : ℕ) : Prog Kernel Unit := do
  let k ← read
  let status := (k.tasks p).status
  assert (status = .blocked ∨ status = .waiting ∨ status = .hanging)
  assert (p ∉ k.threadReadyList)
  write { k.setStatus p .ready with threadReadyList := p :: k.threadReadyList }

/-- The first part of `schedule`: a thread whose time is up goes to the end of the
ready list. -/
def requeue : Prog Kernel Unit := do
  let k ← read
  if k.cur.status = .running then
    assert (k.running ∉ k.threadReadyList)
    write { k.setTask k.running { k.cur with ticks := k.cur.priority, status := .ready } with
      threadReadyList := k.threadReadyList ++ [k.running] }
  else return ()

/-- The last part of `schedule`: the first thread of the ready list runs. -/
def dispatch : Prog Kernel Unit := do
  let k ← read
  match k.threadReadyList with
  | [] => stop .undefined
  | next :: rest => write { k.setStatus next .running with threadReadyList := rest, running := next }

/-- `schedule`. -/
def schedule : Prog Kernel Unit := do
  requeue
  let k ← read
  if k.threadReadyList = [] then threadUnblock k.idleThread
  dispatch

/-- `thread_block`, up to the point where another thread runs. -/
def threadBlock (status : TaskStatus) : Prog Kernel Unit := do
  assert (status = .blocked ∨ status = .waiting ∨ status = .hanging)
  modify fun k => k.setStatus k.running status
  schedule

/-- `thread_yield`, up to the point where another thread runs. -/
def threadYield : Prog Kernel Unit := do
  let k ← read
  assert (k.running ∉ k.threadReadyList)
  write { k.setStatus k.running .ready with threadReadyList := k.threadReadyList ++ [k.running] }
  schedule

/-- `intr_timer_handler`. -/
def intrTimerHandler : Prog Kernel Unit := do
  let k ← read
  write (k.setTask k.running { k.cur with elapsedTicks := k.cur.elapsedTicks + 1 })
  if k.cur.ticks = 0 then schedule
  else modify fun k => k.setTask k.running { k.cur with ticks := k.cur.ticks - 1 }

/-- `thread_exit`, up to the point where another thread runs.  The number is read from
the control block after its page was given back. -/
def threadExit (p : ℕ) (needSchedule : Bool) : Prog Kernel Unit := do
  modify fun k =>
    { k.setStatus p .died with
      threadReadyList := k.threadReadyList.erase p
      threadAllList := k.threadAllList.erase p }
  let k ← read
  releasePid (k.tasks p).pid
  if needSchedule then schedule

/-- `pid2thread`. -/
def Kernel.pid2thread (k : Kernel) (pid : ℕ) : Option ℕ :=
  k.threadAllList.find? fun p => (k.tasks p).pid = pid

/-! ## Creating threads -/

/-- `default_prio`. -/
def defaultPrio : ℕ := 31

/-- `init_task`, with the status of a thread other than the running one. -/
def initTask (pid prio : ℕ) : Task where
  pid := pid
  status := .ready
  priority := prio
  ticks := prio
  elapsedTicks := 0
  fdTable i := if i < 3 then i else -1
  isProcess := false
  cwdInodeNr := 0
  parentPid := none
  exitStatus := 0

/-- Put a new control block at the next address into the list of all threads. -/
def addTask (task : Task) : Prog Kernel ℕ := do
  let k ← read
  let p := k.nextTask
  write { k.setTask p task with nextTask := p + 1, threadAllList := k.threadAllList ++ [p] }
  return p

/-- `list_append(&thread_ready_list, ..)`. -/
def appendReady (p : ℕ) : Prog Kernel Unit :=
  modify fun k => { k with threadReadyList := k.threadReadyList ++ [p] }

/-- `thread_create`. -/
def threadCreate (prio : ℕ) : Prog Kernel ℕ := do
  sysMallocUnchecked
  let pid ← allocatePid
  let p ← addTask (initTask pid prio)
  appendReady p
  return p

/-- `process_execute`. -/
def processExecute : Prog Kernel ℕ := do
  sysMallocUnchecked
  let pid ← allocatePid
  sysMallocUnchecked
  let p ← addTask { initTask pid defaultPrio with isProcess := true }
  appendReady p
  return p

/-- `make_main_thread`: the running thread gets its control block. -/
def makeMainThread : Prog Kernel Unit := do
  let pid ← allocatePid
  let p ← addTask { initTask pid 31 with status := .running }
  modify fun k => { k with running := p }

/-- `thread_init`: the process `init`, the main thread and the idle thread. -/
def threadInit : Prog Kernel Unit := do
  modify fun k =>
    { k with threadReadyList := [], threadAllList := [], pidBitmap := pidPoolInit }
  let _ ← processExecute
  makeMainThread
  let idle ← threadCreate 10
  modify fun k => { k with idleThread := idle }

/-! ## What stays the same -/

/-- Between `k` and `k'` nothing that concerns processes as such has changed. -/
structure SameProcs (k k' : Kernel) : Prop where
  all : k'.threadAllList = k.threadAllList
  ready : k'.threadReadyList = k.threadReadyList
  running : k'.running = k.running
  bits : k'.pidBitmap = k.pidBitmap
  next : k'.nextTask = k.nextTask
  idle : k'.idleThread = k.idleThread
  pid : ∀ p, (k'.tasks p).pid = (k.tasks p).pid
  parent : ∀ p, (k'.tasks p).parentPid = (k.tasks p).parentPid
  process : ∀ p, (k'.tasks p).isProcess = (k.tasks p).isProcess
  status : ∀ p, (k'.tasks p).status = (k.tasks p).status

theorem SameProcs.refl (k : Kernel) : SameProcs k k := by
  constructor <;> simp

theorem SameProcs.trans {k₁ k₂ k₃ : Kernel} (h : SameProcs k₁ k₂) (h' : SameProcs k₂ k₃) :
    SameProcs k₁ k₃ where
  all := h'.all.trans h.all
  ready := h'.ready.trans h.ready
  running := h'.running.trans h.running
  bits := h'.bits.trans h.bits
  next := h'.next.trans h.next
  idle := h'.idle.trans h.idle
  pid p := (h'.pid p).trans (h.pid p)
  parent p := (h'.parent p).trans (h.parent p)
  process p := (h'.process p).trans (h.process p)
  status p := (h'.status p).trans (h.status p)

/-- Nor have the exit codes. -/
structure SameTasks (k k' : Kernel) : Prop extends SameProcs k k' where
  exitStatus : ∀ p, (k'.tasks p).exitStatus = (k.tasks p).exitStatus

theorem SameTasks.refl (k : Kernel) : SameTasks k k := ⟨SameProcs.refl k, fun _ => rfl⟩

theorem SameTasks.trans {k₁ k₂ k₃ : Kernel} (h : SameTasks k₁ k₂) (h' : SameTasks k₂ k₃) :
    SameTasks k₁ k₃ :=
  ⟨h.toSameProcs.trans h'.toSameProcs, fun p => (h'.exitStatus p).trans (h.exitStatus p)⟩

theorem sameTasks_setFile (k : Kernel) (fd : ℕ) (file : File) : SameTasks k (k.setFile fd file) := by
  constructor
  · constructor <;> simp [Kernel.setFile]
  · exact fun _ => rfl

theorem sameTasks_setInode (k : Kernel) (a : ℕ) (inode : Inode) :
    SameTasks k (k.setInode a inode) := by
  constructor
  · constructor <;> simp [Kernel.setInode]
  · exact fun _ => rfl

theorem sameProcs_setTask (k : Kernel) {p : ℕ} {task : Task} (hpid : task.pid = (k.tasks p).pid)
    (hparent : task.parentPid = (k.tasks p).parentPid)
    (hproc : task.isProcess = (k.tasks p).isProcess) (hstatus : task.status = (k.tasks p).status) :
    SameProcs k (k.setTask p task) := by
  refine ⟨rfl, rfl, rfl, rfl, rfl, rfl, ?_, ?_, ?_, ?_⟩ <;> intro q <;> by_cases hq : q = p <;>
    simp [Kernel.setTask, *]

theorem sameTasks_setTask (k : Kernel) {p : ℕ} {task : Task} (hpid : task.pid = (k.tasks p).pid)
    (hparent : task.parentPid = (k.tasks p).parentPid)
    (hproc : task.isProcess = (k.tasks p).isProcess) (hstatus : task.status = (k.tasks p).status)
    (hexit : task.exitStatus = (k.tasks p).exitStatus) : SameTasks k (k.setTask p task) := by
  refine ⟨sameProcs_setTask k hpid hparent hproc hstatus, fun q => ?_⟩
  by_cases hq : q = p <;> simp [Kernel.setTask, *]

/-! ## Numbers and exits -/

theorem allocatePid_spec {k : Kernel} :
    allocatePid.wp
      (fun pid k' => 1 ≤ pid ∧ k.pidBitmap.bit (pid - 1) = false ∧
        pid - 1 < k.pidBitmap.btmpBytesLen * 8 ∧
        k' = { k with pidBitmap := bitmapSet k.pidBitmap (pid - 1) true }) k := by
  simp only [allocatePid, wp_bind, wp_read]
  cases hscan : bitmapScan k.pidBitmap 1 with
  | none => trivial
  | some bitIdx =>
      obtain ⟨hlast, hbit⟩ := bit_of_bitmapScan_one hscan
      exact ⟨by simp [pidStart], hbit, hlast, rfl⟩

/-- The kernel without the thread at `p`, before the next thread runs. -/
def Kernel.without (k : Kernel) (p : ℕ) : Kernel :=
  { k.setStatus p .died with
    threadReadyList := k.threadReadyList.erase p
    threadAllList := k.threadAllList.erase p
    pidBitmap := bitmapSet k.pidBitmap ((k.tasks p).pid - 1) false }

theorem Kernel.without_tasks (k : Kernel) {p q : ℕ} (hne : q ≠ p) :
    (k.without p).tasks q = k.tasks q := by
  simp [Kernel.without, Kernel.setStatus, Kernel.setTask, hne]

theorem threadExit_eq (p : ℕ) (needSchedule : Bool) (k : Kernel) {Q : Unit → Kernel → Prop} :
    (threadExit p needSchedule).wp Q k ↔
      if needSchedule then schedule.wp Q (k.without p) else Q () (k.without p) := by
  simp only [threadExit, releasePid, wp_bind, wp_modify, wp_read, Kernel.setStatus_pid]
  cases needSchedule with
  | true => exact Iff.rfl
  | false => exact Iff.rfl

/-- The kernel with a new thread at the end of both lists. -/
def Kernel.withTask (k : Kernel) (task : Task) : Kernel :=
  { k.setTask k.nextTask task with
    nextTask := k.nextTask + 1
    threadReadyList := k.threadReadyList ++ [k.nextTask]
    threadAllList := k.threadAllList ++ [k.nextTask] }

theorem Kernel.withTask_of_ne (k : Kernel) (task : Task) {p : ℕ} (hp : p ≠ k.nextTask) :
    (k.withTask task).tasks p = k.tasks p := by
  simp [Kernel.withTask, Kernel.setTask, hp]

theorem Kernel.withTask_self (k : Kernel) (task : Task) :
    (k.withTask task).tasks k.nextTask = task := by
  simp [Kernel.withTask, Kernel.setTask]

/-- The kernel with a process number taken. -/
def Kernel.takePid (k : Kernel) (pid : ℕ) : Kernel :=
  { k with pidBitmap := bitmapSet k.pidBitmap (pid - 1) true }

theorem threadCreate_spec {k : Kernel} {prio : ℕ} :
    (threadCreate prio).wp
      (fun _ k' => ∃ pid, k' = (k.takePid pid).withTask (initTask pid prio)) k := by
  simp only [threadCreate, wp_bind, wp_sysMallocUnchecked]
  refine wp_mono allocatePid_spec ?_
  rintro pid k₁ ⟨-, -, -, rfl⟩
  exact ⟨pid, rfl⟩

end BochsOs
