import BochsOs.Thread.Thread

/-!
# The scheduler

What the lists of threads and the states of the threads have to do with each other:
`Scheduled` holds between any two operations of `thread/thread.c`, and `Parked` when
`schedule` is called, with the running thread on its way out.  Under these conditions no
`ASSERT` of these operations fails.
-/

namespace BochsOs

open Suspend Suspend.Prog

/-- The states that the idle thread can be in. -/
def TaskStatus.OfIdle (status : TaskStatus) : Prop :=
  status = .ready ∨ status = .running ∨ status = .blocked

/-- The lists and states before `schedule`: the ready list holds the ready threads, each
once, and nobody but the running thread is marked as running. -/
structure Parked (k : Kernel) : Prop where
  all_nodup : k.threadAllList.Nodup
  ready_nodup : k.threadReadyList.Nodup
  ready : ∀ p, p ∈ k.threadReadyList ↔ p ∈ k.threadAllList ∧ (k.tasks p).status = .ready
  one : ∀ p ∈ k.threadAllList, (k.tasks p).status = .running → p = k.running
  alive : ∀ p ∈ k.threadAllList, (k.tasks p).status ≠ .died
  idle : k.idleThread ∈ k.threadAllList
  idle_status : (k.tasks k.idleThread).status.OfIdle

/-- The lists and states between two operations: the running thread is marked as running. -/
structure Scheduled (k : Kernel) : Prop extends Parked k where
  mem : k.running ∈ k.threadAllList
  status : k.cur.status = .running

/-- The running thread is in no other state. -/
theorem Scheduled.status_ne {k : Kernel} (hk : Scheduled k) {status : TaskStatus}
    (hne : status ≠ .running) : (k.tasks k.running).status ≠ status := by
  rw [show (k.tasks k.running).status = .running from hk.status]
  exact hne.symm

/-- From `k` to `k'` another thread may have got the processor; threads that do not wait
for it stay as they are, but for the idle thread. -/
structure Turns (k k' : Kernel) : Prop where
  all : k'.threadAllList = k.threadAllList
  bits : k'.pidBitmap = k.pidBitmap
  next : k'.nextTask = k.nextTask
  idle : k'.idleThread = k.idleThread
  pid : ∀ p, (k'.tasks p).pid = (k.tasks p).pid
  parent : ∀ p, (k'.tasks p).parentPid = (k.tasks p).parentPid
  process : ∀ p, (k'.tasks p).isProcess = (k.tasks p).isProcess
  exitStatus : ∀ p, (k'.tasks p).exitStatus = (k.tasks p).exitStatus
  status : ∀ p, (k'.tasks p).status = (k.tasks p).status ∨
    (((k.tasks p).status = .running ∨ (k.tasks p).status = .ready ∨ p = k.idleThread) ∧
      ((k'.tasks p).status = .ready ∨ (k'.tasks p).status = .running))

theorem Turns.refl (k : Kernel) : Turns k k := by
  constructor <;> simp

theorem Turns.trans {k₁ k₂ k₃ : Kernel} (h : Turns k₁ k₂) (h' : Turns k₂ k₃) : Turns k₁ k₃ where
  all := h'.all.trans h.all
  bits := h'.bits.trans h.bits
  next := h'.next.trans h.next
  idle := h'.idle.trans h.idle
  pid p := (h'.pid p).trans (h.pid p)
  parent p := (h'.parent p).trans (h.parent p)
  process p := (h'.process p).trans (h.process p)
  exitStatus p := (h'.exitStatus p).trans (h.exitStatus p)
  status p := by
    rcases h'.status p with hp' | ⟨hfrom', hto'⟩
    · rw [hp']
      exact h.status p
    · refine Or.inr ⟨?_, hto'⟩
      rcases h.status p with hp | ⟨hfrom, -⟩
      · rw [hp, h.idle] at hfrom'
        exact hfrom'
      · exact hfrom

/-- Changing one thread, which may run, to ready or running. -/
theorem Turns.setTask (k : Kernel) (p : ℕ) (task : Task) (readyList : List ℕ) (running : ℕ)
    (hpid : task.pid = (k.tasks p).pid) (hparent : task.parentPid = (k.tasks p).parentPid)
    (hproc : task.isProcess = (k.tasks p).isProcess)
    (hexit : task.exitStatus = (k.tasks p).exitStatus)
    (hfrom : (k.tasks p).status = .running ∨ (k.tasks p).status = .ready ∨ p = k.idleThread)
    (hto : task.status = .ready ∨ task.status = .running) :
    Turns k { k.setTask p task with threadReadyList := readyList, running := running } := by
  refine ⟨rfl, rfl, rfl, rfl, ?_, ?_, ?_, ?_, ?_⟩ <;> intro q <;> by_cases hq : q = p
  all_goals simp [Kernel.setTask, hq, hpid, hparent, hproc, hexit]
  exact Or.inr ⟨hfrom, hto⟩

/-- A thread that neither runs nor is ready keeps its state. -/
theorem Turns.status_eq {k k' : Kernel} (h : Turns k k') {p : ℕ} (hrun : (k.tasks p).status ≠ .running)
    (hready : (k.tasks p).status ≠ .ready) (hidle : p ≠ k.idleThread) :
    (k'.tasks p).status = (k.tasks p).status := by
  rcases h.status p with hp | ⟨hp | hp | hp, -⟩
  · exact hp
  · exact absurd hp hrun
  · exact absurd hp hready
  · exact absurd hp hidle

section Operations

variable {k : Kernel}

/-- `p` becomes ready and goes to the front of the ready list. -/
def Kernel.unblocked (k : Kernel) (p : ℕ) : Kernel :=
  { k.setStatus p .ready with threadReadyList := p :: k.threadReadyList }

theorem Kernel.unblocked_of_ne (k : Kernel) {p q : ℕ} (hq : q ≠ p) :
    (k.unblocked p).tasks q = k.tasks q := by
  simp [Kernel.unblocked, Kernel.setStatus_of_ne k _ hq]

theorem Kernel.unblocked_status (k : Kernel) (p : ℕ) :
    ((k.unblocked p).tasks p).status = .ready := k.setStatus_self p .ready

/-- What `thread_unblock` asks for. -/
def Kernel.Sleeps (k : Kernel) (p : ℕ) : Prop :=
  (k.tasks p).status = .blocked ∨ (k.tasks p).status = .waiting ∨ (k.tasks p).status = .hanging

theorem Parked.not_ready (hk : Parked k) {p : ℕ} (hp : (k.tasks p).status ≠ .ready) :
    p ∉ k.threadReadyList := by
  rw [hk.ready]
  exact fun h => hp h.2

theorem Kernel.Sleeps.ne_ready {p : ℕ} (hp : k.Sleeps p) : (k.tasks p).status ≠ .ready := by
  rcases hp with hp | hp | hp <;> rw [hp] <;> decide

theorem Kernel.Sleeps.ne_running {p : ℕ} (hp : k.Sleeps p) : (k.tasks p).status ≠ .running := by
  rcases hp with hp | hp | hp <;> rw [hp] <;> decide

theorem threadUnblock_succeeds (hk : Parked k) {p : ℕ} (hp : k.Sleeps p) :
    (threadUnblock p).succeeds (fun _ k' => k' = k.unblocked p) k := by
  simp only [threadUnblock, succeeds_bind, succeeds_read, succeeds_assert, succeeds_write,
    decide_eq_true_eq]
  exact ⟨hp, hk.not_ready hp.ne_ready, rfl⟩

theorem Parked.unblocked (hk : Parked k) {p : ℕ} (hmem : p ∈ k.threadAllList) (hp : k.Sleeps p) :
    Parked (k.unblocked p) where
  all_nodup := hk.all_nodup
  ready_nodup := List.nodup_cons.mpr ⟨hk.not_ready hp.ne_ready, hk.ready_nodup⟩
  ready q := by
    change q ∈ p :: k.threadReadyList ↔ q ∈ k.threadAllList ∧ _
    rw [List.mem_cons]
    by_cases hq : q = p
    · subst hq
      simp [Kernel.unblocked_status, hmem]
    · rw [k.unblocked_of_ne hq, hk.ready]
      simp [hq]
  one q hq hrun := by
    by_cases hqp : q = p
    · rw [hqp, Kernel.unblocked_status] at hrun
      cases hrun
    · rw [k.unblocked_of_ne hqp] at hrun
      exact hk.one q hq hrun
  alive q hq := by
    by_cases hqp : q = p
    · rw [hqp, Kernel.unblocked_status]
      decide
    · rw [k.unblocked_of_ne hqp]
      exact hk.alive q hq
  idle := hk.idle
  idle_status := by
    change TaskStatus.OfIdle ((k.unblocked p).tasks k.idleThread).status
    by_cases hq : k.idleThread = p
    · rw [hq, Kernel.unblocked_status]
      exact Or.inl rfl
    · rw [k.unblocked_of_ne hq]
      exact hk.idle_status

theorem Scheduled.unblocked (hk : Scheduled k) {p : ℕ} (hmem : p ∈ k.threadAllList)
    (hp : k.Sleeps p) : Scheduled (k.unblocked p) := by
  have hne : k.running ≠ p := by
    rintro rfl
    exact hp.ne_running hk.status
  refine ⟨hk.toParked.unblocked hmem hp, hk.mem, ?_⟩
  rw [Kernel.cur]
  change ((k.unblocked p).tasks k.running).status = _
  rw [k.unblocked_of_ne hne]
  exact hk.status

/-- The first ready thread runs. -/
theorem dispatch_succeeds (hk : Parked k) (hquiet : ∀ p ∈ k.threadAllList, (k.tasks p).status ≠ .running)
    (hne : k.threadReadyList ≠ []) :
    dispatch.succeeds (fun _ k' => Scheduled k' ∧ Turns k k') k := by
  simp only [dispatch, succeeds_bind, succeeds_read]
  cases hlist : k.threadReadyList with
  | nil => exact absurd hlist hne
  | cons next rest =>
      obtain ⟨hmem, hstatus⟩ := (hk.ready next).mp (by rw [hlist]; exact List.mem_cons_self)
      have hnodup := hk.ready_nodup
      rw [hlist, List.nodup_cons] at hnodup
      rw [succeeds_write]
      refine ⟨⟨⟨hk.all_nodup, hnodup.2, fun q => ?_, fun q hq hrun => ?_, fun q hq => ?_, hk.idle, ?_⟩,
        hmem, k.setStatus_self next .running⟩, ?_⟩
      · change q ∈ rest ↔ q ∈ k.threadAllList ∧ ((k.setStatus next .running).tasks q).status = .ready
        by_cases hq : q = next
        · rw [hq, k.setStatus_self]
          simp [hnodup.1]
        · rw [k.setStatus_of_ne _ hq, ← hk.ready, hlist]
          simp [hq]
      · change ((k.setStatus next .running).tasks q).status = .running at hrun
        by_contra hqn
        rw [k.setStatus_of_ne _ hqn] at hrun
        exact hquiet q hq hrun
      · change ((k.setStatus next .running).tasks q).status ≠ .died
        by_cases hqn : q = next
        · rw [hqn, k.setStatus_self]
          decide
        · rw [k.setStatus_of_ne _ hqn]
          exact hk.alive q hq
      · change TaskStatus.OfIdle ((k.setStatus next .running).tasks k.idleThread).status
        by_cases hqn : k.idleThread = next
        · rw [hqn, k.setStatus_self]
          exact Or.inr (Or.inl rfl)
        · rw [k.setStatus_of_ne _ hqn]
          exact hk.idle_status
      · exact Turns.setTask k next { k.tasks next with status := .running } rest next rfl rfl rfl rfl
          (Or.inr (Or.inl hstatus)) (Or.inr rfl)

/-- The kernel after the running thread has gone to the end of the ready list. -/
def Kernel.requeued (k : Kernel) (task : Task) : Kernel :=
  { k.setTask k.running task with threadReadyList := k.threadReadyList ++ [k.running] }

theorem Kernel.requeued_of_ne (k : Kernel) {task : Task} {q : ℕ} (hq : q ≠ k.running) :
    (k.requeued task).tasks q = k.tasks q := by
  simp [Kernel.requeued, Kernel.setTask, hq]

theorem Kernel.requeued_self (k : Kernel) (task : Task) : (k.requeued task).tasks k.running = task := by
  simp [Kernel.requeued, Kernel.setTask]

/-- The running thread goes to the end of the ready list, and nobody runs. -/
theorem Scheduled.requeued (hk : Scheduled k) {task : Task} (hready : task.status = .ready) :
    Parked (k.requeued task) ∧
      ∀ p ∈ k.threadAllList, ((k.requeued task).tasks p).status ≠ .running := by
  have hnot : k.running ∉ k.threadReadyList := hk.not_ready (hk.status_ne (by decide))
  have hquiet : ∀ p ∈ k.threadAllList, ((k.requeued task).tasks p).status ≠ .running := by
    intro p hp hrun
    by_cases hpr : p = k.running
    · rw [hpr, k.requeued_self, hready] at hrun
      cases hrun
    · rw [k.requeued_of_ne hpr] at hrun
      exact hpr (hk.one p hp hrun)
  refine ⟨⟨hk.all_nodup, nodup_append_singleton hk.ready_nodup hnot, fun q => ?_,
    fun q hq hrun => absurd hrun (hquiet q hq), fun q hq => ?_, hk.idle, ?_⟩, hquiet⟩
  · change q ∈ k.threadReadyList ++ [k.running] ↔ q ∈ k.threadAllList ∧ _
    by_cases hq : q = k.running
    · rw [hq, k.requeued_self]
      simp [hready, hk.mem]
    · rw [k.requeued_of_ne hq, List.mem_append, hk.ready]
      simp [hq]
  · by_cases hqr : q = k.running
    · rw [hqr, k.requeued_self, hready]
      decide
    · rw [k.requeued_of_ne hqr]
      exact hk.alive q hq
  · change TaskStatus.OfIdle ((k.requeued task).tasks k.idleThread).status
    by_cases hqr : k.idleThread = k.running
    · rw [hqr, k.requeued_self]
      exact Or.inl hready
    · rw [k.requeued_of_ne hqr]
      exact hk.idle_status

/-- `schedule` for a thread that does not run any more: no `ASSERT` fails, since the idle
thread is blocked whenever no thread is ready. -/
theorem schedule_succeeds (hk : Parked k)
    (hrun : k.cur.status = .running → k.running ∈ k.threadAllList) :
    schedule.succeeds (fun _ k' => Scheduled k' ∧ Turns k k') k := by
  simp only [schedule, requeue, succeeds_bind, succeeds_read]
  split
  next hstatus =>
    have hk' : Scheduled k := ⟨hk, hrun hstatus, hstatus⟩
    have hnot : k.running ∉ k.threadReadyList := hk.not_ready (hk'.status_ne (by decide))
    simp only [succeeds_bind, succeeds_assert, succeeds_write, decide_eq_true_eq]
    refine ⟨hnot, ?_⟩
    set task : Task := { k.cur with ticks := k.cur.priority, status := .ready }
    obtain ⟨hpark, hquiet⟩ := hk'.requeued (show task.status = .ready from rfl)
    have hturns : Turns k (k.requeued task) :=
      Turns.setTask k k.running task _ k.running rfl rfl rfl rfl (Or.inl hstatus) (Or.inl rfl)
    have hne : (k.requeued task).threadReadyList ≠ [] := by
      simp [Kernel.requeued]
    change (if (k.requeued task).threadReadyList = [] then _ else _ : Prog Kernel Unit).succeeds _
      (k.requeued task)
    rw [if_neg hne]
    refine succeeds_mono (dispatch_succeeds hpark hquiet hne) ?_
    exact fun _ k' h => ⟨h.1, hturns.trans h.2⟩
  next hstatus =>
    have hquiet : ∀ p ∈ k.threadAllList, (k.tasks p).status ≠ .running := by
      intro p hp hcon
      rw [hk.one p hp hcon] at hcon
      exact hstatus hcon
    rw [succeeds_pure]
    split
    next hempty =>
      have hidle : (k.tasks k.idleThread).status = .blocked := by
        rcases hk.idle_status with hready | hrunning | hblocked
        · have := (hk.ready k.idleThread).mpr ⟨hk.idle, hready⟩
          rw [hempty] at this
          cases this
        · exact absurd hrunning (hquiet _ hk.idle)
        · exact hblocked
      rw [succeeds_bind]
      refine succeeds_mono (threadUnblock_succeeds hk (Or.inl hidle)) ?_
      rintro - k₁ rfl
      have hturns : Turns k (k.unblocked k.idleThread) :=
        Turns.setTask k k.idleThread { k.tasks k.idleThread with status := .ready } _ k.running
          rfl rfl rfl rfl (Or.inr (Or.inr rfl)) (Or.inl rfl)
      refine succeeds_mono (dispatch_succeeds (hk.unblocked hk.idle (Or.inl hidle)) ?_ ?_) ?_
      · intro p hp
        by_cases hpi : p = k.idleThread
        · rw [hpi, Kernel.unblocked_status]
          decide
        · rw [k.unblocked_of_ne hpi]
          exact hquiet p hp
      · simp [Kernel.unblocked]
      · exact fun _ k' h => ⟨h.1, hturns.trans h.2⟩
    next hne => exact dispatch_succeeds hk hquiet hne

/-! ## The operations -/

theorem Scheduled.same {k' : Kernel} (hk : Scheduled k) (h : SameProcs k k') : Scheduled k' where
  all_nodup := h.all ▸ hk.all_nodup
  ready_nodup := h.ready ▸ hk.ready_nodup
  ready p := by
    rw [h.ready, h.all, h.status]
    exact hk.ready p
  one p hp hrun := by
    rw [h.all] at hp
    rw [h.status] at hrun
    rw [h.running]
    exact hk.one p hp hrun
  alive p hp := by
    rw [h.all] at hp
    rw [h.status]
    exact hk.alive p hp
  idle := by
    rw [h.idle, h.all]
    exact hk.idle
  idle_status := by
    rw [h.idle, h.status]
    exact hk.idle_status
  mem := by
    rw [h.running, h.all]
    exact hk.mem
  status := by
    rw [Kernel.cur, h.running, h.status]
    exact hk.status

theorem SameTasks.turns {k' : Kernel} (h : SameTasks k k') : Turns k k' :=
  ⟨h.all, h.bits, h.next, h.idle, h.pid, h.parent, h.process, h.exitStatus, fun p => Or.inl (h.status p)⟩

/-- The running thread goes to sleep. -/
theorem Scheduled.asleep (hk : Scheduled k) {status : TaskStatus}
    (hstatus : status = .blocked ∨ status = .waiting ∨ status = .hanging)
    (hidle : k.running = k.idleThread → status = .blocked) : Parked (k.setStatus k.running status) := by
  have hne : status ≠ .ready ∧ status ≠ .running ∧ status ≠ .died := by
    rcases hstatus with h | h | h <;> rw [h] <;> decide
  refine ⟨hk.all_nodup, hk.ready_nodup, fun q => ?_, fun q hq hrun => ?_, fun q hq => ?_, hk.idle, ?_⟩
  · change q ∈ k.threadReadyList ↔ q ∈ k.threadAllList ∧ _
    by_cases hq : q = k.running
    · rw [hq, k.setStatus_self, hk.ready,
        show (k.tasks k.running).status = .running from hk.status]
      simp [hne.1]
    · rw [k.setStatus_of_ne _ hq]
      exact hk.ready q
  · change q = k.running
    by_contra hqr
    rw [k.setStatus_of_ne _ hqr] at hrun
    exact hqr (hk.one q hq hrun)
  · by_cases hqr : q = k.running
    · rw [hqr, k.setStatus_self]
      exact hne.2.2
    · rw [k.setStatus_of_ne _ hqr]
      exact hk.alive q hq
  · change TaskStatus.OfIdle ((k.setStatus k.running status).tasks k.idleThread).status
    by_cases hqr : k.idleThread = k.running
    · rw [hqr, k.setStatus_self]
      exact Or.inr (Or.inr (hidle hqr.symm))
    · rw [k.setStatus_of_ne _ hqr]
      exact hk.idle_status

theorem threadBlock_succeeds (hk : Scheduled k) {status : TaskStatus}
    (hstatus : status = .blocked ∨ status = .waiting ∨ status = .hanging)
    (hidle : k.running = k.idleThread → status = .blocked) :
    (threadBlock status).succeeds
      (fun _ k' => Scheduled k' ∧ Turns (k.setStatus k.running status) k') k := by
  simp only [threadBlock, succeeds_bind, succeeds_assert, succeeds_modify, decide_eq_true_eq]
  refine ⟨hstatus, schedule_succeeds (hk.asleep hstatus hidle) fun hrun => ?_⟩
  change ((k.setStatus k.running status).tasks k.running).status = .running at hrun
  rw [k.setStatus_self] at hrun
  rw [hrun] at hstatus
  rcases hstatus with h | h | h <;> cases h

theorem threadYield_succeeds (hk : Scheduled k) :
    threadYield.succeeds (fun _ k' => Scheduled k' ∧ Turns k k') k := by
  have hnot : k.running ∉ k.threadReadyList := hk.not_ready (hk.status_ne (by decide))
  simp only [threadYield, succeeds_bind, succeeds_read, succeeds_assert, succeeds_write,
    decide_eq_true_eq]
  refine ⟨hnot, ?_⟩
  set task : Task := { k.tasks k.running with status := .ready }
  have hturns : Turns k (k.requeued task) :=
    Turns.setTask k k.running task _ k.running rfl rfl rfl rfl (Or.inl hk.status) (Or.inl rfl)
  change schedule.succeeds _ (k.requeued task)
  refine succeeds_mono (schedule_succeeds (hk.requeued (show task.status = .ready from rfl)).1 fun hrun => ?_) ?_
  · change ((k.requeued task).tasks k.running).status = .running at hrun
    rw [k.requeued_self] at hrun
    cases hrun
  · exact fun _ k' h => ⟨h.1, hturns.trans h.2⟩

theorem intrTimerHandler_succeeds (hk : Scheduled k) :
    intrTimerHandler.succeeds (fun _ k' => Scheduled k' ∧ Turns k k') k := by
  simp only [intrTimerHandler, succeeds_bind, succeeds_read, succeeds_write]
  have h₁ : SameTasks k (k.setTask k.running { k.cur with elapsedTicks := k.cur.elapsedTicks + 1 }) :=
    sameTasks_setTask k rfl rfl rfl rfl rfl
  have hk₁ := hk.same h₁.toSameProcs
  split
  · refine succeeds_mono (schedule_succeeds hk₁.toParked fun _ => hk₁.mem) ?_
    exact fun _ k' h => ⟨h.1, h₁.turns.trans h.2⟩
  · have hsame : ∀ k', SameTasks k k' → Scheduled k' ∧ Turns k k' := fun k' h =>
      ⟨hk.same h.toSameProcs, h.turns⟩
    exact hsame _ (h₁.trans (sameTasks_setTask _ rfl rfl rfl rfl rfl))

/-- A thread that is not the idle thread dies. -/
theorem Parked.without (hk : Parked k) {p : ℕ} (hidle : k.idleThread ≠ p) : Parked (k.without p) where
  all_nodup := hk.all_nodup.erase p
  ready_nodup := hk.ready_nodup.erase p
  ready q := by
    change q ∈ k.threadReadyList.erase p ↔ q ∈ k.threadAllList.erase p ∧ _
    rw [hk.ready_nodup.mem_erase_iff, hk.all_nodup.mem_erase_iff]
    by_cases hq : q = p
    · simp [hq]
    · rw [k.without_tasks hq, hk.ready]
      simp [hq]
  one q hq hrun := by
    obtain ⟨hne, hq⟩ := hk.all_nodup.mem_erase_iff.mp hq
    rw [k.without_tasks hne] at hrun
    exact hk.one q hq hrun
  alive q hq := by
    obtain ⟨hne, hq⟩ := hk.all_nodup.mem_erase_iff.mp hq
    rw [k.without_tasks hne]
    exact hk.alive q hq
  idle := hk.all_nodup.mem_erase_iff.mpr ⟨hidle, hk.idle⟩
  idle_status := by
    change TaskStatus.OfIdle ((k.without p).tasks k.idleThread).status
    rw [k.without_tasks hidle]
    exact hk.idle_status

theorem Scheduled.without (hk : Scheduled k) {p : ℕ} (hidle : k.idleThread ≠ p) (hrun : k.running ≠ p) :
    Scheduled (k.without p) := by
  refine ⟨hk.toParked.without hidle, hk.all_nodup.mem_erase_iff.mpr ⟨hrun, hk.mem⟩, ?_⟩
  change ((k.without p).tasks k.running).status = .running
  rw [k.without_tasks hrun]
  exact hk.status

theorem threadExit_succeeds_iff (p : ℕ) (needSchedule : Bool) {Q : Unit → Kernel → Prop} :
    (threadExit p needSchedule).succeeds Q k ↔
      if needSchedule then schedule.succeeds Q (k.without p) else Q () (k.without p) := by
  simp only [threadExit, releasePid, succeeds_bind, succeeds_modify, succeeds_read, Kernel.setStatus_pid]
  cases needSchedule with
  | true => exact Iff.rfl
  | false => exact Iff.rfl

/-- The running thread leaves. -/
theorem threadExit_self_succeeds (hk : Scheduled k) (hidle : k.running ≠ k.idleThread) :
    (threadExit k.running true).succeeds
      (fun _ k' => Scheduled k' ∧ Turns (k.without k.running) k') k := by
  rw [threadExit_succeeds_iff, if_pos rfl]
  refine schedule_succeeds (hk.toParked.without hidle.symm) fun hrun => ?_
  change ((k.setStatus k.running .died).tasks k.running).status = .running at hrun
  rw [k.setStatus_self] at hrun
  cases hrun

/-- A new thread is ready. -/
theorem Scheduled.withTask (hk : Scheduled k) (hfresh : ∀ p ∈ k.threadAllList, p < k.nextTask)
    {task : Task} (hready : task.status = .ready) : Scheduled (k.withTask task) := by
  have hnot : k.nextTask ∉ k.threadAllList := fun hmem => (hfresh _ hmem).false
  have hold : ∀ p ∈ k.threadAllList, (k.withTask task).tasks p = k.tasks p := fun p hp =>
    k.withTask_of_ne _ (hfresh p hp).ne
  have hmem : ∀ p, p ∈ (k.withTask task).threadAllList ↔ p ∈ k.threadAllList ∨ p = k.nextTask := by
    intro p
    simp [Kernel.withTask]
  refine ⟨⟨nodup_append_singleton hk.all_nodup hnot, nodup_append_singleton hk.ready_nodup
    fun hin => hnot ((hk.ready _).mp hin).1, fun p => ?_, fun p hp hrun => ?_, fun p hp => ?_,
    List.mem_append_left _ hk.idle, ?_⟩, List.mem_append_left _ hk.mem, ?_⟩
  · rw [hmem]
    change p ∈ k.threadReadyList ++ [k.nextTask] ↔ _
    rw [List.mem_append, List.mem_singleton]
    by_cases hp : p = k.nextTask
    · rw [hp, k.withTask_self, hready]
      simp
    · rw [k.withTask_of_ne _ hp, hk.ready]
      simp [hp]
  · rcases (hmem p).mp hp with hp | rfl
    · rw [hold p hp] at hrun
      exact hk.one p hp hrun
    · rw [k.withTask_self, hready] at hrun
      cases hrun
  · rcases (hmem p).mp hp with hp | rfl
    · rw [hold p hp]
      exact hk.alive p hp
    · rw [k.withTask_self, hready]
      decide
  · change TaskStatus.OfIdle ((k.withTask task).tasks k.idleThread).status
    rw [hold _ hk.idle]
    exact hk.idle_status
  · change ((k.withTask task).tasks k.running).status = .running
    rw [hold _ hk.mem]
    exact hk.status

theorem Scheduled.takePid (hk : Scheduled k) (pid : ℕ) : Scheduled (k.takePid pid) := { hk with }

end Operations

/-! ## After the boot -/

theorem scan_pidPool : bitmapScan pidPoolInit 1 = some 0 := by
  decide +kernel

theorem scan_pidPool_one : bitmapScan (bitmapSet pidPoolInit 0 true) 1 = some 1 := by
  decide +kernel

theorem scan_pidPool_two :
    bitmapScan (bitmapSet (bitmapSet pidPoolInit 0 true) 1 true) 1 = some 2 := by
  decide +kernel

/-- The three threads after `thread_init`, from address `n` on. -/
structure Boot (k : Kernel) (n : ℕ) : Prop where
  all : k.threadAllList = [n, n + 1, n + 2]
  ready : k.threadReadyList = [n, n + 2]
  running : k.running = n + 1
  idle : k.idleThread = n + 2
  next : k.nextTask = n + 3
  bits : k.pidBitmap = bitmapSet (bitmapSet (bitmapSet pidPoolInit 0 true) 1 true) 2 true
  init : k.tasks n = { initTask 1 defaultPrio with isProcess := true }
  main : k.tasks (n + 1) = { initTask 2 31 with status := .running }
  idleTask : k.tasks (n + 2) = initTask 3 10

theorem threadInit_boot (k : Kernel) : threadInit.wp (fun _ k' => Boot k' k.nextTask) k := by
  simp only [threadInit, processExecute, makeMainThread, threadCreate, allocatePid, addTask,
    appendReady, wp_bind, wp_modify, wp_sysMallocUnchecked, wp_read, wp_write, wp_pure,
    scan_pidPool, scan_pidPool_one, scan_pidPool_two, Kernel.setTask]
  constructor <;> simp [pidStart, Nat.add_assoc]

theorem Boot.scheduled {k : Kernel} {n : ℕ} (hb : Boot k n) : Scheduled k where
  all_nodup := by simp [hb.all]
  ready_nodup := by simp [hb.ready]
  ready p := by
    rw [hb.ready, hb.all]
    constructor
    · intro hp
      simp only [List.mem_cons, List.not_mem_nil, or_false] at hp
      rcases hp with rfl | rfl
      · simp [hb.init, initTask]
      · simp [hb.idleTask, initTask]
    · rintro ⟨hp, hstatus⟩
      simp only [List.mem_cons, List.not_mem_nil, or_false] at hp ⊢
      rcases hp with rfl | rfl | rfl
      · exact Or.inl rfl
      · rw [hb.main] at hstatus
        cases hstatus
      · exact Or.inr rfl
  one p hp hrun := by
    rw [hb.all] at hp
    simp only [List.mem_cons, List.not_mem_nil, or_false] at hp
    rcases hp with rfl | rfl | rfl
    · rw [hb.init] at hrun
      cases hrun
    · exact hb.running.symm
    · rw [hb.idleTask] at hrun
      cases hrun
  alive := by simp [hb.all, hb.init, hb.main, hb.idleTask, initTask]
  idle := by simp [hb.idle, hb.all]
  idle_status := by
    rw [hb.idle, hb.idleTask]
    exact Or.inl rfl
  mem := by simp [hb.running, hb.all]
  status := by simp [Kernel.cur, hb.running, hb.main]

end BochsOs
