import BochsOs.Fs.Syscall
import BochsOs.Thread.Thread

/-!
# Processes

`userprog/fork.c` and `userprog/wait_exit.c`.  The calls run with interrupts off and
are switched out only inside `thread_block`.  `sysWaitRound` is one round of the
loop of `sys_wait`; a process that blocked in it starts the next round when it runs
again.
-/

namespace BochsOs

open Suspend Suspend.Prog

/-! ## Fork -/

/-- One round of `update_inode_open_cnts`: the child holds the descriptor too. -/
def updateInodeOpenCnt (child localFd : ℕ) : Prog Kernel Unit := do
  let k ← read
  let globalFd := (k.tasks child).fdTable localFd
  assert (globalFd < maxFileOpen)
  if globalFd = -1 then return ()
  else if ← isPipe localFd then
    modify fun k =>
      let file := k.fileTable globalFd.toNat
      k.setFile globalFd.toNat { file with fdPos := (file.fdPos + 1) % 2 ^ 32 }
  else
    match (k.fileTable globalFd.toNat).fdInode with
    | none => stop .undefined
    | some a =>
        modify fun k =>
          k.setInode a { k.inodes a with iOpenCnts := ((k.inodes a).iOpenCnts + 1) % 2 ^ 32 }

/-- `update_inode_open_cnts` from descriptor `localFd` on. -/
def updateInodeOpenCnts (child : ℕ) : (left localFd : ℕ) → Prog Kernel Unit
  | 0, _ => return ()
  | left + 1, localFd => do
      updateInodeOpenCnt child localFd
      updateInodeOpenCnts child left (localFd + 1)

/-- The control block of the child: that of the parent but for its own number, times
and status. -/
def forkTask (parent : Task) (pid : ℕ) : Task :=
  { parent with
    pid := pid
    elapsedTicks := 0
    status := .ready
    ticks := parent.priority
    parentPid := some parent.pid }

/-- `sys_fork`.  When it fails after the number was taken, the number stays taken. -/
def sysFork : Prog Kernel ℤ := do
  let ok ← sysMalloc
  if !ok then return -1
  else
  let k ← read
  assert k.cur.isProcess
  -- the page of `copy_process`
  let ok ← sysMalloc
  if !ok then return -1
  else
  let pid ← allocatePid
  -- the bitmap of the child
  let ok ← sysMalloc
  if !ok then return -1
  else
  -- the page directory of the child
  let ok ← sysMalloc
  if !ok then return -1
  else
  -- the pages of the child
  sysMallocUnchecked
  let k ← read
  let child := k.nextTask
  write { k.setTask child (forkTask k.cur pid) with nextTask := child + 1 }
  updateInodeOpenCnts child (maxFilesOpenPerProc - 3) 3
  modify fun k =>
    { k with
      threadReadyList := k.threadReadyList ++ [child]
      threadAllList := k.threadAllList ++ [child] }
  return pid

/-! ## Exit and wait -/

/-- One round of the last loop of `release_prog_resource`. -/
def releaseFd (fd : ℕ) : Prog Kernel Unit := do
  let k ← read
  if k.cur.fdTable fd = -1 then return ()
  else if ← isPipe fd then
    let globalFd ← fdLocal2global fd
    pipeDrop globalFd
  else
    let _ ← sysClose fd

/-- The last loop of `release_prog_resource` from descriptor `fd` on. -/
def releaseFds : (left fd : ℕ) → Prog Kernel Unit
  | 0, _ => return ()
  | left + 1, fd => do
      releaseFd fd
      releaseFds left (fd + 1)

/-- `release_prog_resource`, less the pages it gives back. -/
def releaseProgResource : Prog Kernel Unit := releaseFds (maxFilesOpenPerProc - 3) 3

/-- `list_traversal(&thread_all_list, init_adopt_a_child, pid)`. -/
def Kernel.adoptChildren (k : Kernel) (pid : ℕ) : Kernel :=
  { k with
    tasks := fun p =>
      if p ∈ k.threadAllList ∧ (k.tasks p).parentPid = some pid then
        { k.tasks p with parentPid := some 1 }
      else k.tasks p }

/-- An integer reduced to `int8_t`. -/
def wrap8 (z : ℤ) : ℤ := (z + 2 ^ 7) % 2 ^ 8 - 2 ^ 7

/-- The last part of `sys_exit`: wake the parent if it waits, then hang. -/
def exitFinish : Prog Kernel Unit := do
  let k ← read
  match k.cur.parentPid.bind k.pid2thread with
  | none => stop .undefined
  | some parent =>
      if (k.tasks parent).status = .waiting then threadUnblock parent
      threadBlock .hanging

/-- `sys_exit`, up to the point where another thread runs. -/
def sysExit (status : ℤ) : Prog Kernel Unit := do
  modify fun k => k.setTask k.running { k.cur with exitStatus := wrap8 status }
  let k ← read
  match k.cur.parentPid with
  | none => stop .halt
  | some _ =>
      write (k.adoptChildren k.cur.pid)
      releaseProgResource
      exitFinish

/-- `find_child`. -/
def Kernel.findChild (k : Kernel) (ppid : ℕ) : Option ℕ :=
  k.threadAllList.find? fun p => (k.tasks p).parentPid = some ppid

/-- `find_hanging_child`. -/
def Kernel.findHangingChild (k : Kernel) (ppid : ℕ) : Option ℕ :=
  k.threadAllList.find? fun p => (k.tasks p).parentPid = some ppid ∧ (k.tasks p).status = .hanging

/-- One round of `sys_wait`: the number and the exit status of a child that is gone,
`-1` without a child, `none` if the caller blocks. -/
def sysWaitRound : Prog Kernel (Option (ℤ × ℤ)) := do
  let k ← read
  match k.findHangingChild k.cur.pid with
  | some child =>
      let task := k.tasks child
      threadExit child false
      return some (task.pid, task.exitStatus)
  | none =>
      match k.findChild k.cur.pid with
      | none => return some (-1, 0)
      | some _ =>
          threadBlock .waiting
          return none

end BochsOs
