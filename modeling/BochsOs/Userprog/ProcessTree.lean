import BochsOs.Thread.Scheduler
import BochsOs.Userprog.WakeUp

/-!
# The process tree

The system of `BochsOs.Userprog.WakeUp` with its history: which processes `sys_fork` made,
which have called `sys_exit` and with what code, and which `sys_wait` has returned.  Parents
are numbers, and numbers are used again; still a forked process always has a parent that has
not exited, and an exited process stays in the list, hanging and with its number, until its
parent of that moment gets it from `sys_wait` (`process_tree`).
-/

namespace BochsOs

open Suspend Suspend.Prog Runs

/-! ## The history -/

/-- A child that `sys_wait` has returned: its control block, who waited, and the exit code. -/
structure Waited where
  child : ℕ
  waiter : ℕ
  status : ℤ

/-- The machine and what happened so far. -/
structure History where
  machine : Machine
  /-- The control blocks that `sys_fork` has made. -/
  forked : List ℕ
  /-- The argument of the `sys_exit` that a process has called. -/
  exited : ℕ → Option ℤ
  waited : List Waited

namespace History

/-- The kernel of the machine. -/
def kernel (h : History) : Kernel := h.machine.kernel

/-- The machine after a call that returned `k`. -/
def moveTo (h : History) (k : Kernel) (waits : Bool) : History :=
  { h with machine := ⟨k, Function.update h.machine.inWait h.machine.kernel.running waits⟩ }

/-- The processes with the number that `sys_wait` returned. -/
def returned (h : History) : Option (ℤ × ℤ) → List Waited
  | none => []
  | some (pid, status) =>
      (h.kernel.threadAllList.filter fun p => (h.kernel.tasks p).pid = pid).map fun p =>
        ⟨p, h.kernel.running, status⟩

/-- One event, with its trace in the history. -/
def Step (h : History) (e : Event) (h' : History) : Prop :=
  e.Enabled h.machine ∧
    match e with
    | .fork => ∃ r k, sysFork.Returns h.kernel r k ∧
        h' = { h.moveTo k false with
          forked := if r = -1 then h.forked else h.forked ++ [h.kernel.nextTask] }
    | .exit v => ∃ k, (sysExit v).Returns h.kernel () k ∧
        h' = { h.moveTo k false with
          exited := Function.update h.exited h.kernel.running (some v) }
    | .wait => ∃ r k, sysWaitRound.Returns h.kernel r k ∧
        h' = { h.moveTo k r.isNone with waited := h.waited ++ h.returned r }
    | e => ∃ waits k, e.body.Returns h.kernel waits k ∧ h' = h.moveTo k waits

/-- After `thread_init`. -/
def Booted (h : History) : Prop :=
  h.machine.Booted ∧ h.forked = [] ∧ (∀ p, h.exited p = none) ∧ h.waited = []

/-- The children that `sys_wait` has returned. -/
def gone (h : History) : List ℕ := h.waited.map Waited.child

/-- The kernel in which `sys_exit` looks for the parent: the exit code is stored, the
children are adopted and the files are closed. -/
def LooksForParent (h : History) (v : ℤ) (k : Kernel) : Prop :=
  let k₀ := h.kernel.setTask h.kernel.running { h.kernel.cur with exitStatus := wrap8 v }
  releaseProgResource.Returns (k₀.adoptChildren k₀.cur.pid) () k

/-- What holds of the processes in a state. -/
structure TreeSound (h : History) : Prop where
  /-- A forked process has a parent that has not exited. -/
  parent : ∀ c ∈ h.forked, c ∈ h.kernel.threadAllList → ∃ n, (h.kernel.tasks c).parentPid = some n ∧
    ∃ p ∈ h.kernel.threadAllList, (h.kernel.tasks p).pid = n ∧ h.exited p = none
  /-- `pid2thread` finds it. -/
  found : h.kernel.cur.parentPid ≠ none → ∀ v k, h.LooksForParent v k →
    (k.cur.parentPid.bind k.pid2thread).isSome
  /-- An exited process keeps its place and its number until it is returned. -/
  kept : ∀ c, h.exited c ≠ none → c ∈ h.gone ∨ (c ∈ h.kernel.threadAllList ∧
    (h.kernel.tasks c).status = .hanging ∧
    h.kernel.pidBitmap.bit ((h.kernel.tasks c).pid - 1) = true)
  once : h.gone.Nodup
  /-- What is returned had exited, with that code. -/
  code : ∀ w ∈ h.waited, ∃ v, h.exited w.child = some v ∧ w.status = wrap8 v
  /-- A `sys_wait` that returns a number returns an exited child of the caller that was not
  returned before, takes it out of the list and frees its number. -/
  wait : ∀ pid status k, sysWaitRound.Returns h.kernel (some (pid, status)) k → pid ≠ -1 →
    ∃ c ∈ h.kernel.threadAllList, h.returned (some (pid, status)) = [⟨c, h.kernel.running, status⟩] ∧
      (h.kernel.tasks c).parentPid = some h.kernel.cur.pid ∧ h.exited c ≠ none ∧ c ∉ h.gone ∧
      c ∉ k.threadAllList ∧ h.kernel.pidBitmap.bit ((h.kernel.tasks c).pid - 1) = true ∧
      k.pidBitmap.bit ((h.kernel.tasks c).pid - 1) = false

end History

/-! ## Between two kernels -/

/-- From `k` to `k'` nobody has exited or been removed. -/
structure Quiet (k k' : Kernel) : Prop where
  all : k'.threadAllList = k.threadAllList
  next : k'.nextTask = k.nextTask
  idle : k'.idleThread = k.idleThread
  process : ∀ p, (k'.tasks p).isProcess = (k.tasks p).isProcess
  exitStatus : ∀ p, (k'.tasks p).exitStatus = (k.tasks p).exitStatus
  parent : ∀ p ∈ k.threadAllList, (k.tasks p).parentPid ≠ none → (k'.tasks p).parentPid ≠ none
  hanging : ∀ p ∈ k.threadAllList, (k'.tasks p).status = .hanging ↔ (k.tasks p).status = .hanging

theorem Quiet.refl (k : Kernel) : Quiet k k := by
  constructor <;> simp

theorem Quiet.trans {k₁ k₂ k₃ : Kernel} (h : Quiet k₁ k₂) (h' : Quiet k₂ k₃) : Quiet k₁ k₃ where
  all := h'.all.trans h.all
  next := h'.next.trans h.next
  idle := h'.idle.trans h.idle
  process p := (h'.process p).trans (h.process p)
  exitStatus p := (h'.exitStatus p).trans (h.exitStatus p)
  parent p hp hne := h'.parent p (h.all ▸ hp) (h.parent p hp hne)
  hanging p hp := (h'.hanging p (h.all ▸ hp)).trans (h.hanging p hp)

theorem SameTasks.quiet {k k' : Kernel} (h : SameTasks k k') : Quiet k k' where
  all := h.all
  next := h.next
  idle := h.idle
  process := h.process
  exitStatus := h.exitStatus
  parent p _ hne := by
    rw [h.parent]
    exact hne
  hanging p _ := by rw [h.status]

/-- A switch wakes no hanging process. -/
theorem Turns.quiet {k k' : Kernel} (h : Turns k k') (hidle : (k.tasks k.idleThread).status.OfIdle) :
    Quiet k k' where
  all := h.all
  next := h.next
  idle := h.idle
  process := h.process
  exitStatus := h.exitStatus
  parent p _ hne := by
    rw [h.parent]
    exact hne
  hanging p _ := by
    rcases h.status p with heq | ⟨hfrom, hto⟩
    · rw [heq]
    · have hnot : (k.tasks p).status ≠ .hanging := by
        rcases hfrom with h | h | h
        · rw [h]
          decide
        · rw [h]
          decide
        · rw [h]
          rcases hidle with h | h | h <;> rw [h] <;> decide
      have hnot' : (k'.tasks p).status ≠ .hanging := by
        rcases hto with h | h <;> rw [h] <;> decide
      exact ⟨fun h => absurd h hnot', fun h => absurd h hnot⟩

theorem quiet_setStatus (k : Kernel) {p : ℕ} {status : TaskStatus} (hp : (k.tasks p).status ≠ .hanging)
    (hstatus : status ≠ .hanging) : Quiet k (k.setStatus p status) where
  all := rfl
  next := rfl
  idle := rfl
  process q := k.setStatus_process p q status
  exitStatus q := k.setStatus_exitStatus p q status
  parent q _ hne := by
    rw [Kernel.setStatus_parent]
    exact hne
  hanging q _ := by
    by_cases hq : q = p
    · rw [hq, Kernel.setStatus_self]
      exact ⟨fun h => absurd h hstatus, fun h => absurd h hp⟩
    · rw [k.setStatus_of_ne _ hq]

theorem quiet_unblocked (k : Kernel) {p : ℕ} (hp : (k.tasks p).status ≠ .hanging) :
    Quiet k (k.unblocked p) := by
  have hset : Quiet k (k.setStatus p .ready) := quiet_setStatus k hp (by decide)
  exact ⟨hset.all, hset.next, hset.idle, hset.process, hset.exitStatus, hset.parent, hset.hanging⟩

theorem quiet_adoptChildren (k : Kernel) (pid : ℕ) : Quiet k (k.adoptChildren pid) where
  all := rfl
  next := rfl
  idle := rfl
  process := Kernel.adoptChildren_process pid
  exitStatus p := by
    simp only [Kernel.adoptChildren]
    split <;> rfl
  parent p hp hne := by
    rw [Kernel.adoptChildren_parent hp]
    split
    · exact Option.some_ne_none 1
    · exact hne
  hanging p _ := by rw [Kernel.adoptChildren_status]

theorem Scheduled.adoptChildren {k : Kernel} (hk : Scheduled k) (pid : ℕ) :
    Scheduled (k.adoptChildren pid) := by
  have hstatus := Kernel.adoptChildren_status (k := k) pid
  refine ⟨⟨hk.all_nodup, hk.ready_nodup, fun p => ?_, fun p hp hrun => ?_, fun p hp => ?_, hk.idle, ?_⟩,
    hk.mem, ?_⟩
  · rw [hstatus]
    exact hk.ready p
  · rw [hstatus] at hrun
    exact hk.one p hp hrun
  · rw [hstatus]
    exact hk.alive p hp
  · rw [hstatus]
    exact hk.idle_status
  · rw [Kernel.cur, hstatus]
    exact hk.status

/-! ## Exit and wait -/

/-- From `k` to `k'` the running process has come to hang. -/
structure Hangs (k k' : Kernel) : Prop where
  all : k'.threadAllList = k.threadAllList
  next : k'.nextTask = k.nextTask
  idle : k'.idleThread = k.idleThread
  process : ∀ p, (k'.tasks p).isProcess = (k.tasks p).isProcess
  exitStatus : ∀ p, (k'.tasks p).exitStatus = (k.tasks p).exitStatus
  parent : ∀ p ∈ k.threadAllList, (k.tasks p).parentPid ≠ none → (k'.tasks p).parentPid ≠ none
  hanging : ∀ p ∈ k.threadAllList, (k'.tasks p).status = .hanging ↔
    (k.tasks p).status = .hanging ∨ p = k.running

/-- The last part of `sys_exit`, for a process that is not the idle thread. -/
theorem exitFinish_hangs {k k₁ : Kernel} (hk₁ : Scheduled k₁) (hq : Quiet k k₁)
    (hrun : k₁.running = k.running) (hidle : k.running ≠ k.idleThread) :
    exitFinish.wp (fun _ k' => Scheduled k' ∧ Hangs k k') k₁ := by
  have hstatus : TaskStatus.hanging = .blocked ∨ TaskStatus.hanging = .waiting ∨
      TaskStatus.hanging = .hanging := Or.inr (Or.inr rfl)
  -- whether or not the parent was woken, the process hangs in the end
  have hblock : ∀ k₂, Scheduled k₂ → Quiet k k₂ → k₂.running = k.running →
      (threadBlock .hanging).wp (fun _ k' => Scheduled k' ∧ Hangs k k') k₂ := by
    intro k₂ hk₂ hq₂ hrun₂
    have hidle₂ : k₂.running = k₂.idleThread → TaskStatus.hanging = .blocked := by
      intro heq
      rw [hrun₂, hq₂.idle] at heq
      exact absurd heq hidle
    refine wp_mono (wp_of_succeeds (threadBlock_succeeds hk₂ hstatus hidle₂)) ?_
    rintro - k' ⟨hk', ht⟩
    rw [hrun₂] at ht
    have hidle' : ((k₂.setStatus k.running .hanging).tasks k₂.idleThread).status.OfIdle := by
      rw [k₂.setStatus_of_ne _ (by rw [hq₂.idle]; exact hidle.symm)]
      exact hk₂.idle_status
    have hq' := ht.quiet hidle'
    refine ⟨hk', hq'.all.trans hq₂.all, hq'.next.trans hq₂.next, hq'.idle.trans hq₂.idle,
      fun p => ?_, fun p => ?_, fun p hp hne => ?_, fun p hp => ?_⟩
    · rw [hq'.process, Kernel.setStatus_process, hq₂.process]
    · rw [hq'.exitStatus, Kernel.setStatus_exitStatus, hq₂.exitStatus]
    · refine hq'.parent p (hq₂.all ▸ hp) ?_
      rw [Kernel.setStatus_parent]
      exact hq₂.parent p hp hne
    · rw [hq'.hanging p (hq₂.all ▸ hp)]
      by_cases hpr : p = k.running
      · rw [hpr, Kernel.setStatus_self]
        simp
      · rw [k₂.setStatus_of_ne _ hpr, hq₂.hanging p hp]
        simp [hpr]
  simp only [exitFinish, wp_bind, wp_read]
  split
  · trivial
  next parent hparent =>
    split
    next hwaits =>
      have hsleeps : k₁.Sleeps parent := Or.inr (Or.inl hwaits)
      have hmem : parent ∈ k₁.threadAllList := by
        obtain ⟨n, -, hfind⟩ := Option.bind_eq_some_iff.mp hparent
        exact (Kernel.mem_of_pid2thread hfind).1
      rw [wp_bind]
      refine wp_mono (wp_of_succeeds (threadUnblock_succeeds hk₁.toParked hsleeps)) ?_
      rintro - k₂ rfl
      have hwoken : Quiet k₁ (k₁.unblocked parent) := quiet_unblocked k₁ (by rw [hwaits]; decide)
      exact hblock _ (hk₁.unblocked hmem hsleeps) (hq.trans hwoken) hrun
    next => exact hblock k₁ hk₁ hq hrun

theorem sysExit_hangs {k : Kernel} {v : ℤ} (hk : Scheduled k)
    (hidle : (k.tasks k.idleThread).parentPid = none) :
    (sysExit v).wp (fun _ k' => Scheduled k' ∧
      Hangs (k.setTask k.running { k.cur with exitStatus := wrap8 v }) k') k := by
  simp only [sysExit, wp_bind, wp_modify, wp_read]
  set k₀ := k.setTask k.running { k.cur with exitStatus := wrap8 v } with hk₀
  have h₀ : SameProcs k k₀ := sameProcs_setTask k rfl rfl rfl rfl
  cases hparent : k₀.cur.parentPid with
  | none => trivial
  | some n =>
      have hne : k₀.running ≠ k₀.idleThread := by
        intro heq
        have hnone : (k₀.tasks k₀.idleThread).parentPid = none := by
          rw [h₀.parent, h₀.idle]
          exact hidle
        rw [Kernel.cur, heq, hnone] at hparent
        cases hparent
      simp only [wp_bind, wp_write]
      refine wp_mono (releaseFds_sameTasks _ _) ?_
      rintro - k₁ h₁
      exact exitFinish_hangs (((hk.same h₀).adoptChildren _).same h₁.toSameProcs)
        ((quiet_adoptChildren k₀ _).trans h₁.quiet) h₁.running hne

/-- What one round of `sys_wait` does. -/
inductive Waits (k : Kernel) : Option (ℤ × ℤ) → Kernel → Prop where
  | child {c : ℕ} (hmem : c ∈ k.threadAllList) (hparent : (k.tasks c).parentPid = some k.cur.pid)
      (hhang : (k.tasks c).status = .hanging) :
      Waits k (some ((k.tasks c).pid, (k.tasks c).exitStatus)) (k.without c)
  | childless : Waits k (some (-1, 0)) k
  | blocks {k' : Kernel} (hidle : k.running ≠ k.idleThread) (hsched : Scheduled k') (hturns : Turns (k.setStatus k.running .waiting) k') :
      Waits k none k'

theorem sysWaitRound_waits {k : Kernel} (hk : Scheduled k) (hf : Family k)
    (hidle : (k.tasks k.idleThread).isProcess = false) : sysWaitRound.wp (Waits k) k := by
  simp only [sysWaitRound, wp_bind, wp_read]
  cases hfind : k.findHangingChild k.cur.pid with
  | some c =>
      have hmem : c ∈ k.threadAllList := List.mem_of_find?_eq_some hfind
      obtain ⟨hparent, hhang⟩ : (k.tasks c).parentPid = some k.cur.pid ∧
          (k.tasks c).status = .hanging := by
        simpa using List.find?_some hfind
      simp only [wp_bind, wp_pure, threadExit_eq, Bool.false_eq_true, if_false]
      exact .child hmem hparent hhang
  | none =>
      cases hchild : k.findChild k.cur.pid with
      | none => exact .childless
      | some c =>
          have hmem : c ∈ k.threadAllList := List.mem_of_find?_eq_some hchild
          have hparent : (k.tasks c).parentPid = some k.cur.pid := by
            simpa using List.find?_some hchild
          -- the idle thread has no children, so it does not wait
          have hne : k.running ≠ k.idleThread := by
            intro heq
            rw [← heq] at hidle
            exact hf.childless_of_thread hk.mem hidle c hmem hparent
          simp only [wp_bind, wp_pure]
          refine wp_mono (wp_of_succeeds (threadBlock_succeeds hk (Or.inr (Or.inl rfl))
            fun heq => absurd heq hne)) ?_
          rintro - k' ⟨hk', ht⟩
          exact .blocks hne hk' ht

/-! ## The invariant -/

namespace History

/-- The invariant of the process tree with its history. -/
structure TreeInv (h : History) : Prop where
  family : Family h.kernel
  running : Running h.kernel
  sched : Scheduled h.kernel
  idle : (h.kernel.tasks h.kernel.idleThread).isProcess = false
  hang : ∀ p ∈ h.kernel.threadAllList, (h.kernel.tasks p).status = .hanging ↔ h.exited p ≠ none
  code : ∀ p ∈ h.kernel.threadAllList, ∀ v, h.exited p = some v →
    (h.kernel.tasks p).exitStatus = wrap8 v
  forked : ∀ p ∈ h.forked, p ∈ h.kernel.threadAllList → (h.kernel.tasks p).parentPid ≠ none
  kept : ∀ p, h.exited p ≠ none → p ∈ h.gone ∨ p ∈ h.kernel.threadAllList
  made : ∀ p, p ∈ h.forked ∨ h.exited p ≠ none → p < h.kernel.nextTask
  waited : ∀ w ∈ h.waited, w.child ∉ h.kernel.threadAllList ∧
    ∃ v, h.exited w.child = some v ∧ w.status = wrap8 v
  once : h.gone.Nodup

variable {h : History} {k' : Kernel}

@[simp]
theorem moveTo_kernel (waits : Bool) : (h.moveTo k' waits).kernel = k' := rfl

@[simp]
theorem moveTo_gone (waits : Bool) : (h.moveTo k' waits).gone = h.gone := rfl

theorem TreeInv.quiet (hi : h.TreeInv) (hq : Quiet h.kernel k') (hf : Family k') (hr : Running k')
    (hs : Scheduled k') (waits : Bool) : (h.moveTo k' waits).TreeInv where
  family := hf
  running := hr
  sched := hs
  idle := by
    rw [moveTo_kernel, hq.idle, hq.process]
    exact hi.idle
  hang p hp := by
    rw [moveTo_kernel, hq.all] at hp
    exact (hq.hanging p hp).trans (hi.hang p hp)
  code p hp v hv := by
    rw [moveTo_kernel, hq.all] at hp
    rw [moveTo_kernel, hq.exitStatus]
    exact hi.code p hp v hv
  forked p hmem hp := by
    rw [moveTo_kernel, hq.all] at hp
    exact hq.parent p hp (hi.forked p hmem hp)
  kept p hp := by
    rw [moveTo_kernel, hq.all]
    exact hi.kept p hp
  made p hp := by
    rw [moveTo_kernel, hq.next]
    exact hi.made p hp
  waited w hw := by
    rw [moveTo_kernel, hq.all]
    exact hi.waited w hw
  once := hi.once

/-- A process that has not exited does not hang. -/
theorem TreeInv.running_not_exited (hi : h.TreeInv) : h.exited h.kernel.running = none := by
  by_contra hne
  exact hi.sched.status_ne (by decide) ((hi.hang _ hi.sched.mem).mpr hne)

/-- A new child is known to nobody. -/
theorem TreeInv.withChild (hi : h.TreeInv) {pid : ℕ}
    (hsame : SameTasks ((h.kernel.takePid pid).withChild pid) k') (hf : Family k') (hr : Running k')
    (hs : Scheduled k') :
    TreeInv { h.moveTo k' false with forked := h.forked ++ [h.kernel.nextTask] } := by
  set k₁ := (h.kernel.takePid pid).withChild pid with hk₁
  have hnew : h.exited h.kernel.nextTask = none := by
    by_contra hne
    exact (hi.made _ (Or.inr hne)).false
  have hchild : k₁.tasks h.kernel.nextTask = forkTask h.kernel.cur pid :=
    (h.kernel.takePid pid).withTask_self _
  have hold : ∀ p, p ≠ h.kernel.nextTask → k₁.tasks p = h.kernel.tasks p := fun p hp =>
    (h.kernel.takePid pid).withTask_of_ne _ hp
  have hlt : ∀ p ∈ h.kernel.threadAllList, p ≠ h.kernel.nextTask := fun p hp =>
    (hi.family.fresh p hp).ne
  have hall : ∀ p, p ∈ k'.threadAllList ↔ p ∈ h.kernel.threadAllList ∨ p = h.kernel.nextTask := by
    intro p
    rw [hsame.all]
    exact List.mem_append.trans (or_congr_right List.mem_singleton)
  refine ⟨hf, hr, hs, ?_, fun p hp => ?_, fun p hp v hv => ?_, fun p hmem hp => ?_, fun p hp => ?_,
    fun p hp => ?_, fun w hw => ?_, hi.once⟩
  · change (k'.tasks k'.idleThread).isProcess = false
    rw [hsame.idle, hsame.process]
    change (k₁.tasks h.kernel.idleThread).isProcess = false
    rw [hold _ (hlt _ hi.sched.idle)]
    exact hi.idle
  · change (k'.tasks p).status = .hanging ↔ _
    rw [hsame.status]
    rcases (hall p).mp hp with hp | rfl
    · rw [hold p (hlt p hp)]
      exact hi.hang p hp
    · rw [hchild]
      simp [forkTask, moveTo, hnew]
  · change (k'.tasks p).exitStatus = _
    rw [hsame.exitStatus]
    rcases (hall p).mp hp with hp | rfl
    · rw [hold p (hlt p hp)]
      exact hi.code p hp v hv
    · change h.exited _ = some v at hv
      rw [hnew] at hv
      cases hv
  · change (k'.tasks p).parentPid ≠ none
    rw [hsame.parent]
    rcases (hall p).mp hp with hp | rfl
    · have hmem' : p ∈ h.forked := by
        rcases List.mem_append.mp hmem with hmem | hmem
        · exact hmem
        · exact absurd (List.mem_singleton.mp hmem) (hlt p hp)
      rw [hold p (hlt p hp)]
      exact hi.forked p hmem' hp
    · rw [hchild]
      exact Option.some_ne_none _
  · rcases hi.kept p hp with hgone | hlist
    · exact Or.inl hgone
    · exact Or.inr ((hall p).mpr (Or.inl hlist))
  · change p < k'.nextTask
    rw [hsame.next]
    change p < h.kernel.nextTask + 1
    rcases hp with hp | hp
    · rcases List.mem_append.mp hp with hp | hp
      · exact (hi.made p (Or.inl hp)).trans (Nat.lt_succ_self _)
      · rw [List.mem_singleton.mp hp]
        exact Nat.lt_succ_self _
    · exact (hi.made p (Or.inr hp)).trans (Nat.lt_succ_self _)
  · obtain ⟨hnot, v, hv, hstatus⟩ := hi.waited w hw
    refine ⟨fun hmem => ?_, v, hv, hstatus⟩
    rcases (hall _).mp hmem with hmem | heq
    · exact hnot hmem
    · change h.exited w.child = some v at hv
      rw [heq, hnew] at hv
      cases hv

/-- The running process exits. -/
theorem TreeInv.exit (hi : h.TreeInv) {v : ℤ}
    (hx : Hangs (h.kernel.setTask h.kernel.running { h.kernel.cur with exitStatus := wrap8 v }) k')
    (hf : Family k') (hr : Running k') (hs : Scheduled k') :
    TreeInv { h.moveTo k' false with
      exited := Function.update h.exited h.kernel.running (some v) } := by
  set k₀ := h.kernel.setTask h.kernel.running { h.kernel.cur with exitStatus := wrap8 v } with hk₀
  have h₀ : SameProcs h.kernel k₀ := sameProcs_setTask h.kernel rfl rfl rfl rfl
  have hcode : (k₀.tasks h.kernel.running).exitStatus = wrap8 v := by
    simp [hk₀, Kernel.setTask]
  have hother : ∀ p, p ≠ h.kernel.running → k₀.tasks p = h.kernel.tasks p := by
    intro p hp
    simp [hk₀, Kernel.setTask, hp]
  refine ⟨hf, hr, hs, ?_, fun p hp => ?_, fun p hp v' hv' => ?_, fun p hmem hp => ?_, fun p hp => ?_,
    fun p hp => ?_, fun w hw => ?_, hi.once⟩
  · change (k'.tasks k'.idleThread).isProcess = false
    rw [hx.idle, hx.process, h₀.process]
    exact hi.idle
  · change p ∈ k'.threadAllList at hp
    rw [hx.all] at hp
    change (k'.tasks p).status = .hanging ↔ Function.update h.exited h.kernel.running (some v) p ≠ none
    rw [hx.hanging p hp, h₀.status]
    by_cases hpr : p = h.kernel.running
    · rw [hpr, Function.update_self]
      exact ⟨fun _ => Option.some_ne_none v, fun _ => Or.inr rfl⟩
    · rw [Function.update_of_ne hpr, ← hi.hang p hp]
      exact or_iff_left hpr
  · change p ∈ k'.threadAllList at hp
    rw [hx.all] at hp
    change (k'.tasks p).exitStatus = _
    rw [hx.exitStatus]
    by_cases hpr : p = h.kernel.running
    · subst hpr
      simp only [Function.update_self, Option.some.injEq] at hv'
      rw [hcode, hv']
    · simp only [Function.update_of_ne hpr] at hv'
      rw [hother p hpr]
      exact hi.code p hp v' hv'
  · change p ∈ k'.threadAllList at hp
    rw [hx.all] at hp
    refine hx.parent p hp ?_
    rw [h₀.parent]
    exact hi.forked p hmem hp
  · change p ∈ h.gone ∨ p ∈ k'.threadAllList
    rw [hx.all]
    by_cases hpr : p = h.kernel.running
    · rw [hpr]
      exact Or.inr hi.sched.mem
    · simp only [Function.update_of_ne hpr] at hp
      exact hi.kept p hp
  · change p < k'.nextTask
    rw [hx.next]
    by_cases hpr : p = h.kernel.running
    · rw [hpr]
      exact hi.family.fresh _ hi.sched.mem
    · refine hi.made p (hp.imp_right fun hne => ?_)
      simpa only [Function.update_of_ne hpr] using hne
  · obtain ⟨hnot, v', hv', hstatus⟩ := hi.waited w hw
    have hne : w.child ≠ h.kernel.running := by
      intro heq
      rw [heq] at hnot
      exact hnot hi.sched.mem
    refine ⟨?_, v', ?_, hstatus⟩
    · change w.child ∉ k'.threadAllList
      rw [hx.all]
      exact hnot
    · change Function.update h.exited h.kernel.running (some v) w.child = some v'
      rw [Function.update_of_ne hne]
      exact hv'

/-- The tasks with the number of a task in the list. -/
theorem filter_pid {k : Kernel} (hf : Family k) {c : ℕ} (hc : c ∈ k.threadAllList) :
    (k.threadAllList.filter fun p => ((k.tasks p).pid : ℤ) = (k.tasks c).pid) = [c] := by
  have heq : (k.threadAllList.filter fun p => ((k.tasks p).pid : ℤ) = (k.tasks c).pid) =
      k.threadAllList.filter (· == c) := by
    refine List.filter_congr fun p hp => ?_
    refine decide_eq_decide.mpr ⟨fun h => hf.pid_inj p hp c hc (by exact_mod_cast h), ?_⟩
    rintro rfl
    rfl
  rw [heq, List.filter_beq, List.count_eq_one_of_mem hf.nodup hc]
  rfl

theorem returned_child (hf : Family h.kernel) {c : ℕ} (hc : c ∈ h.kernel.threadAllList) (status : ℤ) :
    h.returned (some ((h.kernel.tasks c).pid, status)) = [⟨c, h.kernel.running, status⟩] := by
  simp only [returned, filter_pid hf hc, List.map_cons, List.map_nil]

/-- No thread has the number -1. -/
theorem returned_none (status : ℤ) : h.returned (some (-1, status)) = [] := by
  simp only [returned, List.map_eq_nil_iff, List.filter_eq_nil_iff, decide_eq_true_eq]
  intro p _
  omega

/-- A thread leaves the list: one that has not exited, or one that is returned now. -/
theorem TreeInv.without (hi : h.TreeInv) {c : ℕ} (hc : c ∈ h.kernel.threadAllList)
    {waited : List Waited} (hwaited : waited = h.waited ∧ h.exited c = none ∨
      ∃ v, h.exited c = some v ∧ waited = h.waited ++ [⟨c, h.kernel.running, wrap8 v⟩])
    (hq : Quiet (h.kernel.without c) k') (hidle : h.kernel.idleThread ≠ c) (hf : Family k')
    (hr : Running k') (hs : Scheduled k') (waits : Bool) :
    TreeInv { h.moveTo k' waits with waited := waited } := by
  have hmem : ∀ p, p ∈ k'.threadAllList ↔ p ≠ c ∧ p ∈ h.kernel.threadAllList := by
    intro p
    rw [hq.all]
    exact hi.family.nodup.mem_erase_iff
  have hmem' : ∀ p, p ∈ k'.threadAllList → p ∈ (h.kernel.without c).threadAllList := by
    intro p hp
    rw [← hq.all]
    exact hp
  have hold : ∀ w ∈ waited, w ∈ h.waited ∨ ∃ v, h.exited c = some v ∧
      w = ⟨c, h.kernel.running, wrap8 v⟩ := by
    intro w hw
    rcases hwaited with ⟨rfl, -⟩ | ⟨v, hv, rfl⟩
    · exact Or.inl hw
    · exact (List.mem_append.mp hw).imp_right fun hw => ⟨v, hv, List.mem_singleton.mp hw⟩
  have hgone : c ∉ h.gone := by
    intro hin
    obtain ⟨w, hw, rfl⟩ := List.mem_map.mp hin
    exact (hi.waited w hw).1 hc
  refine ⟨hf, hr, hs, ?_, fun p hp => ?_, fun p hp v hv => ?_, fun p hfork hp => ?_, fun p hp => ?_,
    fun p hp => ?_, fun w hw => ?_, ?_⟩
  · change (k'.tasks k'.idleThread).isProcess = false
    rw [hq.idle, hq.process]
    change ((h.kernel.without c).tasks h.kernel.idleThread).isProcess = false
    rw [h.kernel.without_tasks hidle]
    exact hi.idle
  · obtain ⟨hne, hp'⟩ := (hmem p).mp hp
    refine (hq.hanging p (hmem' p hp)).trans ?_
    rw [h.kernel.without_tasks hne]
    exact hi.hang p hp'
  · obtain ⟨hne, hp'⟩ := (hmem p).mp hp
    change (k'.tasks p).exitStatus = _
    rw [hq.exitStatus, h.kernel.without_tasks hne]
    exact hi.code p hp' v hv
  · obtain ⟨hne, hp'⟩ := (hmem p).mp hp
    refine hq.parent p (hmem' p hp) ?_
    rw [h.kernel.without_tasks hne]
    exact hi.forked p hfork hp'
  · change p ∈ waited.map Waited.child ∨ p ∈ k'.threadAllList
    change h.exited p ≠ none at hp
    rw [hmem]
    by_cases hpc : p = c
    · subst hpc
      rcases hwaited with ⟨-, hnone⟩ | ⟨v, -, rfl⟩
      · exact absurd hnone hp
      · exact Or.inl (by simp)
    · rcases hi.kept p hp with hin | hin
      · rcases hwaited with ⟨rfl, -⟩ | ⟨v, -, rfl⟩
        · exact Or.inl hin
        · rw [List.map_append]
          exact Or.inl (List.mem_append_left _ hin)
      · exact Or.inr ⟨hpc, hin⟩
  · change p < k'.nextTask
    rw [hq.next]
    exact hi.made p hp
  · change w.child ∉ k'.threadAllList ∧ _
    rw [hmem]
    rcases hold w hw with hw | ⟨v, hv, rfl⟩
    · obtain ⟨hnot, hcode⟩ := hi.waited w hw
      exact ⟨fun hin => hnot hin.2, hcode⟩
    · exact ⟨fun hin => hin.1 rfl, v, hv, rfl⟩
  · change (waited.map Waited.child).Nodup
    rcases hwaited with ⟨rfl, -⟩ | ⟨v, -, rfl⟩
    · exact hi.once
    · rw [List.map_append]
      exact nodup_append_singleton hi.once hgone

/-! ## Every run -/

theorem TreeInv.fork (hi : h.TreeInv) {r : ℤ} (hret : sysFork.Returns h.kernel r k') :
    TreeInv { h.moveTo k' false with
      forked := if r = -1 then h.forked else h.forked ++ [h.kernel.nextTask] } := by
  obtain ⟨hf, hr, -⟩ := wp_iff_returns.mp (sysFork_keeps hi.family hi.running) r k' hret
  cases wp_iff_returns.mp (sysFork_spec (k := h.kernel)) r k' hret with
  | nothing => exact hi.quiet (Quiet.refl _) hf hr hi.sched false
  | @number pid hpid hfree =>
      have hq : Quiet h.kernel (h.kernel.takePid pid) := ⟨rfl, rfl, rfl, fun _ => rfl, fun _ => rfl,
        fun _ _ hne => hne, fun _ _ => Iff.rfl⟩
      exact hi.quiet hq hf hr (hi.sched.takePid _) false
  | @child pid _ hproc hpid hfree hsame =>
      have hne : (pid : ℤ) ≠ -1 := by omega
      rw [if_neg hne]
      have hsched : Scheduled ((h.kernel.takePid pid).withChild pid) :=
        (hi.sched.takePid pid).withTask hi.family.fresh rfl
      exact hi.withChild hsame hf hr (hsched.same hsame.toSameProcs)

theorem TreeInv.wait_step (hi : h.TreeInv) {r : Option (ℤ × ℤ)}
    (hret : sysWaitRound.Returns h.kernel r k') :
    TreeInv { h.moveTo k' r.isNone with waited := h.waited ++ h.returned r } := by
  obtain ⟨hf, hr, -⟩ := wp_iff_returns.mp (sysWaitRound_keeps hi.family hi.running) r k' hret
  have hwaits := wp_iff_returns.mp (sysWaitRound_waits hi.sched hi.family hi.idle) r k' hret
  cases hwaits with
  | @child c hmem hparent hhang =>
      obtain ⟨v, hv⟩ := Option.ne_none_iff_exists'.mp ((hi.hang c hmem).mp hhang)
      have hidle : h.kernel.idleThread ≠ c := by
        rintro rfl
        rw [hi.running.idle_parent] at hparent
        cases hparent
      have hrun : h.kernel.running ≠ c := by
        rintro rfl
        exact hi.sched.status_ne (by decide) hhang
      refine hi.without hmem (Or.inr ⟨v, hv, ?_⟩) (Quiet.refl _) hidle hf hr
        (hi.sched.without hidle hrun) false
      rw [returned_child hi.family hmem, hi.code c hmem v hv]
  | childless =>
      rw [returned_none, List.append_nil]
      exact hi.quiet (Quiet.refl _) hf hr hi.sched false
  | blocks hne hsched hturns =>
      rw [show h.returned none = [] from rfl, List.append_nil]
      have hset : Quiet h.kernel (h.kernel.setStatus h.kernel.running .waiting) :=
        quiet_setStatus h.kernel (hi.sched.status_ne (by decide)) (by decide)
      have hidle : ((h.kernel.setStatus h.kernel.running .waiting).tasks
          h.kernel.idleThread).status.OfIdle := by
        rw [h.kernel.setStatus_of_ne _ hne.symm]
        exact hi.sched.idle_status
      exact hi.quiet (hset.trans (hturns.quiet hidle)) hf hr hsched true

theorem TreeInv.exit_step (hi : h.TreeInv) {v : ℤ} (hret : (sysExit v).Returns h.kernel () k') :
    TreeInv { h.moveTo k' false with
      exited := Function.update h.exited h.kernel.running (some v) } := by
  obtain ⟨hf, hr, -⟩ := wp_iff_returns.mp (sysExit_keeps hi.family hi.running) () k' hret
  obtain ⟨hs, hx⟩ := wp_iff_returns.mp (sysExit_hangs hi.sched hi.running.idle_parent) () k' hret
  exact hi.exit hx hf hr hs

/-- Any other event exits nobody and returns nobody. -/
theorem TreeInv.other_step (hi : h.TreeInv) {e : Event} (hen : e.Enabled h.machine) {waits : Bool}
    (hret : e.body.Returns h.kernel waits k') (hfork : e ≠ .fork) (hexit : ∀ v, e ≠ .exit v)
    (hwait : e ≠ .wait) : (h.moveTo k' waits).TreeInv := by
  obtain ⟨hf, hr, -⟩ := Machine.Step.keeps (m := h.machine) ⟨hen, waits, k', hret, rfl⟩
    hi.family hi.running
  have hends : ∀ {x : Prog Kernel Unit} {Q : Kernel → Prop},
      (e.body.wp (fun _ => Q) h.kernel = (do x; return false : Prog Kernel Bool).wp (fun _ => Q) h.kernel) →
      x.succeeds (fun _ => Q) h.kernel → Q k' := by
    intro x Q hbody hx
    have hwp : e.body.wp (fun _ => Q) h.kernel := by
      simpa only [hbody, wp_bind, wp_pure] using wp_of_succeeds hx
    exact wp_iff_returns.mp hwp waits k' hret
  cases e with
  | fork => exact absurd rfl hfork
  | exit v => exact absurd rfl (hexit v)
  | wait => exact absurd rfl hwait
  | tick =>
      obtain ⟨hs, ht⟩ := hends rfl (intrTimerHandler_succeeds hi.sched)
      exact hi.quiet (ht.quiet hi.sched.idle_status) hf hr hs waits
  | yield =>
      obtain ⟨hs, ht⟩ := hends rfl (threadYield_succeeds hi.sched)
      exact hi.quiet (ht.quiet hi.sched.idle_status) hf hr hs waits
  | block =>
      obtain ⟨hs, ht⟩ := hends rfl (threadBlock_succeeds hi.sched (Or.inl rfl) fun _ => rfl)
      have hset : Quiet h.kernel (h.kernel.setStatus h.kernel.running .blocked) :=
        quiet_setStatus h.kernel (hi.sched.status_ne (by decide)) (by decide)
      have hidle := (hi.sched.asleep (Or.inl rfl) fun _ => rfl).idle_status
      exact hi.quiet (hset.trans (ht.quiet hidle)) hf hr hs waits
  | wake p =>
      obtain ⟨-, hmem, hblocked⟩ := hen
      change (h.kernel.tasks p).status = .blocked at hblocked
      have hk' := hends rfl (threadUnblock_succeeds hi.sched.toParked (Or.inl hblocked))
      have hq : Quiet h.kernel k' := hk' ▸ quiet_unblocked h.kernel (by rw [hblocked]; decide)
      exact hi.quiet hq hf hr (hk' ▸ hi.sched.unblocked hmem (Or.inl hblocked)) waits
  | leave =>
      obtain ⟨-, -, hidle⟩ := hen
      obtain ⟨hs, ht⟩ := hends rfl (threadExit_self_succeeds hi.sched hidle)
      have hstill := (hi.sched.toParked.without hidle.symm).idle_status
      exact hi.without hi.sched.mem (Or.inl ⟨rfl, hi.running_not_exited⟩) (ht.quiet hstill)
        hidle.symm hf hr hs waits

/-- One event keeps the invariant. -/
theorem TreeInv.step (hi : h.TreeInv) {e : Event} {h' : History} (hstep : h.Step e h') :
    h'.TreeInv := by
  obtain ⟨hen, htrace⟩ := hstep
  cases e with
  | fork =>
      obtain ⟨r, k, hret, rfl⟩ := htrace
      exact hi.fork hret
  | exit v =>
      obtain ⟨k, hret, rfl⟩ := htrace
      exact hi.exit_step hret
  | wait =>
      obtain ⟨r, k, hret, rfl⟩ := htrace
      exact hi.wait_step hret
  | _ =>
      obtain ⟨waits, k, hret, rfl⟩ := htrace
      refine hi.other_step hen hret ?_ ?_ ?_ <;> simp

theorem Booted.treeInv (hb : h.Booted) : h.TreeInv := by
  obtain ⟨⟨⟨k, hret⟩, -⟩, hforked, hexited, hwaited⟩ := hb
  have hboot : Boot h.kernel _ := wp_iff_returns.mp (threadInit_boot k) _ _ hret
  have hgone : h.gone = [] := by
    rw [gone, hwaited, List.map_nil]
  refine ⟨hboot.family, hboot.running_spec, hboot.scheduled, ?_, fun p hp => ?_, fun p hp v hv => ?_,
    fun p hp => ?_, fun p hp => absurd (hexited p) hp, fun p hp => ?_, fun w hw => ?_, ?_⟩
  · rw [hboot.idle, hboot.idleTask]
    rfl
  · rw [hboot.all] at hp
    simp only [List.mem_cons, List.not_mem_nil, or_false] at hp
    rcases hp with rfl | rfl | rfl <;> simp [hboot.init, hboot.main, hboot.idleTask, initTask, hexited]
  · rw [hexited] at hv
    cases hv
  · rw [hforked] at hp
    cases hp
  · rw [hforked] at hp
    rcases hp with hp | hp
    · cases hp
    · exact absurd (hexited p) hp
  · rw [hwaited] at hw
    cases hw
  · rw [hgone]
    exact List.nodup_nil

/-- The parent that `sys_exit` looks for is in the list. -/
theorem TreeInv.finds_parent (hi : h.TreeInv) (hparent : h.kernel.cur.parentPid ≠ none) {v : ℤ}
    {k : Kernel} (hlooks : h.LooksForParent v k) :
    (k.cur.parentPid.bind k.pid2thread).isSome := by
  set k₀ := h.kernel.setTask h.kernel.running { h.kernel.cur with exitStatus := wrap8 v } with hk₀
  have h₀ : SameProcs h.kernel k₀ := sameProcs_setTask h.kernel rfl rfl rfl rfl
  have h₁ : SameTasks (k₀.adoptChildren k₀.cur.pid) k :=
    wp_iff_returns.mp (releaseFds_sameTasks _ _) () k hlooks
  have hf : Family k := (hi.family.wakes h₀.wakes).adoptChildren.wakes h₁.toSameProcs.wakes
  have hmem : k.running ∈ k.threadAllList := (hi.sched.same h₀).adoptChildren _ |>.same
    h₁.toSameProcs |>.mem
  have hsome : k.cur.parentPid ≠ none := by
    rw [Kernel.cur, h₁.parent, h₁.running]
    refine (quiet_adoptChildren k₀ _).parent _ hi.sched.mem ?_
    rw [h₀.parent]
    exact hparent
  obtain ⟨n, hn⟩ := Option.ne_none_iff_exists'.mp hsome
  obtain ⟨p, hp, hpid, -⟩ := hf.parent _ hmem n hn
  rw [hn, Option.bind_some, Kernel.pid2thread, List.find?_isSome]
  exact ⟨p, hp, by simpa using hpid⟩

theorem TreeInv.sound (hi : h.TreeInv) : h.TreeSound where
  parent c hfork hc := by
    obtain ⟨n, hn⟩ := Option.ne_none_iff_exists'.mp (hi.forked c hfork hc)
    obtain ⟨p, hp, hpid, -, hstatus⟩ := hi.family.parent c hc n hn
    refine ⟨n, hn, p, hp, hpid, ?_⟩
    by_contra hne
    exact hstatus ((hi.hang p hp).mpr hne)
  found hparent v k hlooks := hi.finds_parent hparent hlooks
  kept c hc := by
    refine (hi.kept c hc).imp_right fun hmem => ⟨hmem, (hi.hang c hmem).mpr hc, ?_⟩
    exact (hi.family.pid_bit c hmem).2
  once := hi.once
  code w hw := (hi.waited w hw).2
  wait pid status k hret hpid := by
    have hwaits := wp_iff_returns.mp (sysWaitRound_waits hi.sched hi.family hi.idle) _ k hret
    cases hwaits with
    | @child c hmem hparent hhang =>
        have hgone : c ∉ h.gone := by
          intro hin
          obtain ⟨w, hw, rfl⟩ := List.mem_map.mp hin
          exact (hi.waited w hw).1 hmem
        refine ⟨c, hmem, returned_child hi.family hmem _, hparent, (hi.hang c hmem).mp hhang, hgone,
          hi.family.nodup.not_mem_erase, (hi.family.pid_bit c hmem).2, ?_⟩
        simp [Kernel.without, bit_bitmapSet]
    | childless => exact absurd rfl hpid

end History

open History

/-- In every state that any order of forks, exits and waits can reach, the process tree is
sound. -/
theorem process_tree {h : History} (hreach : Reachable Booted Step (fun _ _ => True) h) :
    h.TreeSound := by
  refine (hreach.invariant TreeInv (fun _ hb => hb.treeInv) ?_).sound
  exact fun _ _ _ hi _ hstep => hi.step hstep

/-! ## A run -/

/-- One event, with every allocation successful. -/
def History.exec (h : History) (e : Event) : Option History :=
  if e.Enabled h.machine then
    match e with
    | .fork => (sysFork.exec [] h.kernel).map fun (r, k) =>
        { h.moveTo k false with
          forked := if r = -1 then h.forked else h.forked ++ [h.kernel.nextTask] }
    | .exit v => ((sysExit v).exec [] h.kernel).map fun (_, k) =>
        { h.moveTo k false with
          exited := Function.update h.exited h.kernel.running (some v) }
    | .wait => (sysWaitRound.exec [] h.kernel).map fun (r, k) =>
        { h.moveTo k r.isNone with waited := h.waited ++ h.returned r }
    | e => (e.body.exec [] h.kernel).map fun (waits, k) => h.moveTo k waits
  else none

theorem History.step_of_exec {h h' : History} {e : Event} (hexec : h.exec e = some h') :
    h.Step e h' := by
  unfold History.exec at hexec
  split at hexec
  next hen =>
    refine ⟨hen, ?_⟩
    cases e with
    | exit v =>
        obtain ⟨⟨⟨⟩, k⟩, hk, rfl⟩ := Option.map_eq_some_iff.mp hexec
        exact ⟨k, returns_of_exec hk, rfl⟩
    | _ =>
        obtain ⟨⟨r, k⟩, hk, rfl⟩ := Option.map_eq_some_iff.mp hexec
        exact ⟨r, k, returns_of_exec hk, rfl⟩
  next => cases hexec

/-- Nothing has happened to the machine. -/
def historyOf (m : Machine) : History := ⟨m, [], fun _ => none, []⟩

/-- `init` (at address 0) forks (at address 3) and waits; the child exits with code 7, and the
second round of the wait returns it. -/
theorem process_tree_after_wait :
    ∃ h, Reachable Booted Step (fun _ _ => True) h ∧ h.waited.map Waited.child = [3] ∧
      h.waited.map Waited.waiter = [0] ∧ h.waited.map Waited.status = [7] ∧ h.TreeSound := by
  have hrun : (((bootMachine.map historyOf).bind
      (follow History.exec [.leave, .fork, .wait, .block, .exit 7, .wait])).map fun h =>
      (h.waited.map Waited.child, h.waited.map Waited.waiter, h.waited.map Waited.status)) =
        some ([3], [0], [7]) := by
    decide +kernel
  obtain ⟨h, hfollow, hwaited⟩ := Option.map_eq_some_iff.mp hrun
  obtain ⟨h₀, hboot, hfollow⟩ := Option.bind_eq_some_iff.mp hfollow
  obtain ⟨m, hm, rfl⟩ := Option.map_eq_some_iff.mp hboot
  have hbooted : (historyOf m).Booted := ⟨booted_of_bootMachine hm, rfl, fun _ => rfl, rfl⟩
  have hreach : Reachable Booted Step (fun _ _ => True) h := by
    refine Reachable.of_follow ?_ (.start hbooted) hfollow
    exact fun _ _ _ hexec => ⟨trivial, History.step_of_exec hexec⟩
  obtain ⟨hchild, hrest⟩ := Prod.mk.inj hwaited
  obtain ⟨hwaiter, hstatus⟩ := Prod.mk.inj hrest
  exact ⟨h, hreach, hchild, hwaiter, hstatus, process_tree hreach⟩

end BochsOs
