import BochsOs.Library.Runs
import BochsOs.Thread.Scheduler
import BochsOs.Userprog.SameProcs

/-!
# Exit and wait

The system of all processes: fork, exit and wait in any order, with timer
interrupts, threads that block for other reasons and are woken again, and the main
thread leaving after the boot.  The calls of a process run with interrupts off, so a
step is one call up to the point where it returns or blocks; a process that blocked
in `sys_wait` goes on with the next round of its loop.

`Family` is what the process numbers and parents satisfy in every reachable state.
A parent that waits is woken by the exit of its own child.  What `sys_exit` does not
do is wake `init` when it hands over children that are hanging already
(`exit_loses_wakeup`); as long as that does not happen, no waiting process has a
hanging child (`no_lost_wakeup`).
-/

namespace BochsOs

open Suspend Suspend.Prog Runs

/-! ## The system -/

/-- The kernel and which threads are inside `sys_wait`. -/
structure Machine where
  kernel : Kernel
  inWait : ℕ → Bool

/-- What happens next. -/
inductive Event where
  | fork
  | exit (status : ℤ)
  | wait
  /-- A timer interrupt. -/
  | tick
  /-- The running thread blocks for another reason. -/
  | block
  | yield
  /-- A thread that blocked for another reason is woken. -/
  | wake (p : ℕ)
  /-- A kernel thread leaves: the end of `main`. -/
  | leave

/-- The code that runs; the result says whether the thread is now inside `sys_wait`. -/
def Event.body : Event → Prog Kernel Bool
  | fork => do
      let _ ← sysFork
      return false
  | exit status => do
      sysExit status
      return false
  | wait => do
      let result ← sysWaitRound
      return result.isNone
  | tick => do
      intrTimerHandler
      return false
  | block => do
      threadBlock .blocked
      return false
  | yield => do
      threadYield
      return false
  | wake p => do
      threadUnblock p
      return false
  | leave => do
      let k ← read
      threadExit k.running true
      return false

/-- When an event can happen: a thread inside `sys_wait` does nothing but the next
round, only blocked threads are woken, and only kernel threads leave. -/
def Event.Enabled (m : Machine) : Event → Prop
  | wait => True
  | wake p =>
      m.inWait m.kernel.running = false ∧ p ∈ m.kernel.threadAllList ∧
        (m.kernel.tasks p).status = .blocked
  | leave =>
      m.inWait m.kernel.running = false ∧ m.kernel.cur.isProcess = false ∧
        m.kernel.running ≠ m.kernel.idleThread
  | _ => m.inWait m.kernel.running = false

instance (m : Machine) (e : Event) : Decidable (e.Enabled m) := by
  cases e <;> unfold Event.Enabled <;> infer_instance

/-- One event. -/
def Machine.Step (m : Machine) (e : Event) (m' : Machine) : Prop :=
  e.Enabled m ∧ ∃ waits k, e.body.Returns m.kernel waits k ∧
    m' = ⟨k, Function.update m.inWait m.kernel.running waits⟩

/-- The machine after `thread_init`. -/
def Machine.Booted (m : Machine) : Prop :=
  (∃ k, threadInit.Returns k () m.kernel) ∧ m.inWait = fun _ => false

/-- One event, with every allocation successful. -/
def Machine.exec (m : Machine) (e : Event) : Option Machine :=
  if e.Enabled m then
    (e.body.exec [] m.kernel).map fun (waits, k) =>
      ⟨k, Function.update m.inWait m.kernel.running waits⟩
  else none

theorem Machine.step_of_exec {m m' : Machine} {e : Event} (h : m.exec e = some m') :
    m.Step e m' := by
  unfold Machine.exec at h
  split at h
  next hen =>
    obtain ⟨⟨waits, k⟩, hexec, rfl⟩ := Option.map_eq_some_iff.mp h
    exact ⟨hen, waits, k, returns_of_exec hexec, rfl⟩
  next => simp at h

/-- No waiting process has a hanging child. -/
def NoLostWakeup (k : Kernel) : Prop :=
  ∀ p ∈ k.threadAllList, (k.tasks p).status = .waiting →
    ∀ c ∈ k.threadAllList, (k.tasks c).parentPid = some (k.tasks p).pid →
      (k.tasks c).status ≠ .hanging

instance (k : Kernel) : Decidable (NoLostWakeup k) := by
  unfold NoLostWakeup
  infer_instance

/-- The running process would hand a hanging child over to `init` while `init` waits,
and its own exit does not wake `init`. -/
def OrphansZombie (k : Kernel) : Prop :=
  k.cur.parentPid ≠ some 1 ∧
    (∃ i ∈ k.threadAllList, (k.tasks i).pid = 1 ∧ (k.tasks i).status = .waiting) ∧
    ∃ c ∈ k.threadAllList, (k.tasks c).parentPid = some k.cur.pid ∧ (k.tasks c).status = .hanging

instance (k : Kernel) : Decidable (OrphansZombie k) := by
  unfold OrphansZombie
  infer_instance

/-- The side condition on exits. -/
def ExitSafe (m : Machine) : Event → Prop
  | .exit _ => ¬ OrphansZombie m.kernel
  | _ => True

/-! ## Threads that become ready or run -/

/-- From `k` to `k'` threads at most become ready or start to run. -/
structure Wakes (k k' : Kernel) : Prop where
  all : k'.threadAllList = k.threadAllList
  bits : k'.pidBitmap = k.pidBitmap
  next : k'.nextTask = k.nextTask
  idle : k'.idleThread = k.idleThread
  pid : ∀ p, (k'.tasks p).pid = (k.tasks p).pid
  parent : ∀ p, (k'.tasks p).parentPid = (k.tasks p).parentPid
  process : ∀ p, (k'.tasks p).isProcess = (k.tasks p).isProcess
  status : ∀ p, (k'.tasks p).status = (k.tasks p).status ∨ (k'.tasks p).status = .ready ∨
    (k'.tasks p).status = .running

theorem Wakes.refl (k : Kernel) : Wakes k k := by
  constructor <;> simp

theorem Wakes.trans {k₁ k₂ k₃ : Kernel} (h : Wakes k₁ k₂) (h' : Wakes k₂ k₃) : Wakes k₁ k₃ where
  all := h'.all.trans h.all
  bits := h'.bits.trans h.bits
  next := h'.next.trans h.next
  idle := h'.idle.trans h.idle
  pid p := (h'.pid p).trans (h.pid p)
  parent p := (h'.parent p).trans (h.parent p)
  process p := (h'.process p).trans (h.process p)
  status p := by
    rcases h'.status p with hp | hp
    · rw [hp]
      exact h.status p
    · exact Or.inr hp

/-- Changing one thread to ready or running, and the ready list with it. -/
theorem Wakes.setTask (k : Kernel) (p : ℕ) (task : Task) (readyList : List ℕ) (running : ℕ)
    (hpid : task.pid = (k.tasks p).pid) (hparent : task.parentPid = (k.tasks p).parentPid)
    (hproc : task.isProcess = (k.tasks p).isProcess)
    (hstatus : task.status = .ready ∨ task.status = .running) :
    Wakes k { k.setTask p task with threadReadyList := readyList, running := running } := by
  refine ⟨rfl, rfl, rfl, rfl, ?_, ?_, ?_, ?_⟩ <;> intro q <;> by_cases hq : q = p <;>
    simp [Kernel.setTask, *]

/-- The threads of the ready list, and the idle thread, are in the list of all threads. -/
structure Queued (k : Kernel) : Prop where
  nodup : k.threadReadyList.Nodup
  ready : ∀ p ∈ k.threadReadyList, p ∈ k.threadAllList
  idle : k.idleThread ∈ k.threadAllList
  idle_parent : (k.tasks k.idleThread).parentPid = none

/-- The running thread is in the list of all threads and marked as running. -/
structure Running (k : Kernel) : Prop extends Queued k where
  mem : k.running ∈ k.threadAllList
  status : k.cur.status = .running

theorem Queued.wakes_idle {k k' : Kernel} (hq : Queued k) (hw : Wakes k k') :
    (k'.tasks k'.idleThread).parentPid = none := by
  rw [hw.parent, hw.idle]
  exact hq.idle_parent

theorem threadUnblock_spec {k : Kernel} {p : ℕ} (hq : Queued k) (hp : p ∈ k.threadAllList) :
    (threadUnblock p).wp
      (fun _ k' => Wakes k k' ∧ Queued k' ∧ k'.running = k.running ∧ p ∈ k'.threadReadyList ∧
        (k'.tasks p).status = .ready ∧ ∀ q, q ≠ p → (k'.tasks q).status = (k.tasks q).status) k := by
  simp only [threadUnblock, wp_bind, wp_read, wp_assert, wp_write, decide_eq_true_eq]
  intro _ hnew
  have hw := Wakes.setTask k p { k.tasks p with status := .ready } (p :: k.threadReadyList)
    k.running rfl rfl rfl (Or.inl rfl)
  refine ⟨hw, ⟨List.nodup_cons.mpr ⟨hnew, hq.nodup⟩, ?_, hq.idle, hq.wakes_idle hw⟩, rfl, by simp,
    ?_, ?_⟩
  · intro q hmem
    rcases List.mem_cons.mp hmem with rfl | hmem
    · exact hp
    · exact hq.ready q hmem
  · simp [Kernel.setStatus, Kernel.setTask]
  · intro q hne
    simp [Kernel.setStatus, Kernel.setTask, hne]

theorem requeue_spec {k : Kernel} (hq : Queued k)
    (hrun : k.cur.status = .running → k.running ∈ k.threadAllList) :
    requeue.wp (fun _ k' => Wakes k k' ∧ Queued k') k := by
  simp only [requeue, wp_bind, wp_read]
  split
  next hstatus =>
    simp only [wp_bind, wp_assert, wp_write, decide_eq_true_eq]
    intro hnew
    have hw := Wakes.setTask k k.running
      { k.cur with ticks := k.cur.priority, status := .ready }
      (k.threadReadyList ++ [k.running]) k.running rfl rfl rfl (Or.inl rfl)
    refine ⟨hw, nodup_append_singleton hq.nodup hnew, ?_, hq.idle, hq.wakes_idle hw⟩
    intro p hmem
    rcases List.mem_append.mp hmem with hmem | hmem
    · exact hq.ready p hmem
    · rw [List.mem_singleton.mp hmem]
      exact hrun hstatus
  next => exact ⟨Wakes.refl k, hq⟩

theorem dispatch_spec {k : Kernel} (hq : Queued k) :
    dispatch.wp (fun _ k' => Wakes k k' ∧ Running k') k := by
  simp only [dispatch, wp_bind, wp_read]
  cases hready : k.threadReadyList with
  | nil => trivial
  | cons next rest =>
      have hmem : ∀ p ∈ next :: rest, p ∈ k.threadAllList := hready ▸ hq.ready
      have hnodup : (next :: rest).Nodup := hready ▸ hq.nodup
      have hw := Wakes.setTask k next { k.tasks next with status := .running } rest next
        rfl rfl rfl (Or.inr rfl)
      refine ⟨hw, ⟨⟨hnodup.of_cons, ?_, hq.idle, hq.wakes_idle hw⟩, ?_, ?_⟩⟩
      · exact fun p hp => hmem p (List.mem_cons_of_mem _ hp)
      · exact hmem next List.mem_cons_self
      · simp [Kernel.cur, Kernel.setStatus, Kernel.setTask]

/-- After `schedule` the running thread is one of all threads, and no thread has gone
to sleep. -/
theorem schedule_spec {k : Kernel} (hq : Queued k)
    (hrun : k.cur.status = .running → k.running ∈ k.threadAllList) :
    schedule.wp (fun _ k' => Wakes k k' ∧ Running k') k := by
  simp only [schedule, wp_bind, wp_read]
  refine wp_mono (requeue_spec hq hrun) ?_
  rintro - k₁ ⟨hw₁, hq₁⟩
  split
  · rw [wp_bind]
    refine wp_mono (threadUnblock_spec hq₁ hq₁.idle) ?_
    rintro - k₂ ⟨hw₂, hq₂, -⟩
    exact wp_mono (dispatch_spec hq₂) fun _ k₃ h => ⟨(hw₁.trans hw₂).trans h.1, h.2⟩
  · exact wp_mono (dispatch_spec hq₁) fun _ k₃ h => ⟨hw₁.trans h.1, h.2⟩

/-! ## Numbers and parents -/

/-- What holds of the process numbers and parents. -/
structure Family (k : Kernel) : Prop where
  nodup : k.threadAllList.Nodup
  fresh : ∀ p ∈ k.threadAllList, p < k.nextTask
  pid_bit : ∀ p ∈ k.threadAllList, 1 ≤ (k.tasks p).pid ∧ k.pidBitmap.bit ((k.tasks p).pid - 1) = true
  pid_inj : ∀ p ∈ k.threadAllList, ∀ q ∈ k.threadAllList, (k.tasks p).pid = (k.tasks q).pid → p = q
  init : ∃ p ∈ k.threadAllList, (k.tasks p).pid = 1 ∧ (k.tasks p).parentPid = none ∧
    (k.tasks p).isProcess = true
  parent : ∀ c ∈ k.threadAllList, ∀ n, (k.tasks c).parentPid = some n →
    ∃ p ∈ k.threadAllList, (k.tasks p).pid = n ∧ (k.tasks p).isProcess = true ∧
      (k.tasks p).status ≠ .hanging
  not_self : ∀ p ∈ k.threadAllList, (k.tasks p).parentPid ≠ some (k.tasks p).pid
  /-- `init` never hangs, so it is there to adopt. -/
  init_status : ∀ p ∈ k.threadAllList, (k.tasks p).parentPid = none → (k.tasks p).status ≠ .hanging

theorem Wakes.not_hanging {k k' : Kernel} (hw : Wakes k k') {p : ℕ}
    (h : (k.tasks p).status ≠ .hanging) : (k'.tasks p).status ≠ .hanging := by
  rcases hw.status p with hp | hp | hp <;> rw [hp]
  · exact h
  · decide
  · decide

theorem Family.wakes {k k' : Kernel} (hf : Family k) (hw : Wakes k k') : Family k' where
  nodup := hw.all ▸ hf.nodup
  fresh p hp := by
    rw [hw.all] at hp
    rw [hw.next]
    exact hf.fresh p hp
  pid_bit p hp := by
    rw [hw.all] at hp
    rw [hw.pid, hw.bits]
    exact hf.pid_bit p hp
  pid_inj p hp q hq hpid := by
    rw [hw.all] at hp hq
    rw [hw.pid, hw.pid] at hpid
    exact hf.pid_inj p hp q hq hpid
  init := by
    obtain ⟨p, hp, hpid, hparent, hproc⟩ := hf.init
    exact ⟨p, hw.all ▸ hp, by rw [hw.pid, hpid], by rw [hw.parent, hparent], by rw [hw.process, hproc]⟩
  parent c hc n hn := by
    rw [hw.all] at hc
    rw [hw.parent] at hn
    obtain ⟨p, hp, hpid, hproc, hstatus⟩ := hf.parent c hc n hn
    exact ⟨p, hw.all ▸ hp, by rw [hw.pid, hpid], by rw [hw.process, hproc], hw.not_hanging hstatus⟩
  not_self p hp := by
    rw [hw.all] at hp
    rw [hw.parent, hw.pid]
    exact hf.not_self p hp
  init_status p hp hparent := by
    rw [hw.all] at hp
    rw [hw.parent] at hparent
    exact hw.not_hanging (hf.init_status p hp hparent)

theorem NoLostWakeup.wakes {k k' : Kernel} (hn : NoLostWakeup k) (hw : Wakes k k') :
    NoLostWakeup k' := by
  intro p hp hwait c hc hparent
  rw [hw.all] at hp hc
  rw [hw.parent, hw.pid] at hparent
  have hwait' : (k.tasks p).status = .waiting := by
    rcases hw.status p with h | h | h
    · rw [← h, hwait]
    · rw [hwait] at h
      cases h
    · rw [hwait] at h
      cases h
  exact hw.not_hanging (hn p hp hwait' c hc hparent)

theorem SameProcs.wakes {k k' : Kernel} (h : SameProcs k k') : Wakes k k' :=
  ⟨h.all, h.bits, h.next, h.idle, h.pid, h.parent, h.process, fun p => Or.inl (h.status p)⟩

theorem Running.same {k k' : Kernel} (hr : Running k) (h : SameProcs k k') : Running k' where
  nodup := h.ready ▸ hr.nodup
  ready p hp := by
    rw [h.ready] at hp
    rw [h.all]
    exact hr.ready p hp
  idle := by
    rw [h.idle, h.all]
    exact hr.idle
  idle_parent := hr.wakes_idle h.wakes
  mem := by
    rw [h.running, h.all]
    exact hr.mem
  status := by
    rw [Kernel.cur, h.running, h.status]
    exact hr.status

/-! ### Fork -/

/-- The threads keep their numbers when another number is taken. -/
theorem Family.takePid {k : Kernel} (hf : Family k) (i : ℕ) :
    Family { k with pidBitmap := bitmapSet k.pidBitmap i true } :=
  { hf with
    pid_bit := fun p hp => by
      refine ⟨(hf.pid_bit p hp).1, ?_⟩
      rw [bit_bitmapSet]
      split
      · rfl
      · exact (hf.pid_bit p hp).2 }

theorem Kernel.withChild_tasks {k : Kernel} (hf : Family k) (pid : ℕ) {p : ℕ}
    (hp : p ∈ k.threadAllList) : (k.withChild pid).tasks p = k.tasks p := by
  exact k.withTask_of_ne _ (hf.fresh p hp).ne

theorem Kernel.withChild_child (k : Kernel) (pid : ℕ) :
    (k.withChild pid).tasks k.nextTask = forkTask k.cur pid :=
  k.withTask_self _

theorem Family.withChild {k : Kernel} (hf : Family k) (hr : Running k) (hproc : k.cur.isProcess = true)
    {pid : ℕ} (hpid : 1 ≤ pid) (hbit : k.pidBitmap.bit (pid - 1) = true)
    (hfree : ∀ p ∈ k.threadAllList, (k.tasks p).pid ≠ pid) : Family (k.withChild pid) := by
  have hold {p : ℕ} (hp : p ∈ k.threadAllList) := Kernel.withChild_tasks hf pid hp
  have hnew := Kernel.withChild_child k pid
  have hmem : ∀ p ∈ (k.withChild pid).threadAllList, p ∈ k.threadAllList ∨ p = k.nextTask := by
    intro p hp
    simpa [Kernel.withChild, Kernel.withTask] using hp
  have hkeep : ∀ p ∈ k.threadAllList, p ∈ (k.withChild pid).threadAllList :=
    fun p hp => List.mem_append_left _ hp
  refine ⟨?_, ?_, ?_, ?_, ?_, ?_, ?_, ?_⟩
  · refine List.nodup_append.mpr ⟨hf.nodup, List.nodup_singleton _, ?_⟩
    intro p hp q hq
    rw [List.mem_singleton.mp hq]
    exact (hf.fresh p hp).ne
  · intro p hp
    change p < k.nextTask + 1
    rcases hmem p hp with hp | rfl
    · exact (hf.fresh p hp).trans (Nat.lt_succ_self _)
    · exact Nat.lt_succ_self _
  · intro p hp
    rcases hmem p hp with hp | rfl
    · rw [hold hp]
      exact hf.pid_bit p hp
    · rw [hnew]
      exact ⟨hpid, hbit⟩
  · intro p hp q hq heq
    rcases hmem p hp with hp | rfl <;> rcases hmem q hq with hq | rfl
    · rw [hold hp, hold hq] at heq
      exact hf.pid_inj p hp q hq heq
    · rw [hold hp, hnew] at heq
      exact absurd heq (hfree p hp)
    · rw [hold hq, hnew] at heq
      exact absurd heq.symm (hfree q hq)
    · rfl
  · obtain ⟨p, hp, hinit⟩ := hf.init
    exact ⟨p, hkeep p hp, by rwa [hold hp]⟩
  · intro c hc n hn
    rcases hmem c hc with hc | rfl
    · rw [hold hc] at hn
      obtain ⟨p, hp, hparent⟩ := hf.parent c hc n hn
      exact ⟨p, hkeep p hp, by rwa [hold hp]⟩
    · -- the parent of the new child is the running process
      rw [hnew] at hn
      cases hn
      refine ⟨k.running, hkeep _ hr.mem, ?_⟩
      rw [hold hr.mem]
      refine ⟨rfl, hproc, ?_⟩
      rw [show (k.tasks k.running).status = .running from hr.status]
      decide
  · intro p hp
    rcases hmem p hp with hp | rfl
    · rw [hold hp]
      exact hf.not_self p hp
    · rw [hnew]
      simpa [forkTask, Kernel.cur] using hfree k.running hr.mem
  · intro p hp hnone
    rcases hmem p hp with hp | rfl
    · rw [hold hp] at hnone ⊢
      exact hf.init_status p hp hnone
    · rw [hnew] at hnone
      cases hnone

theorem Running.withChild {k : Kernel} (hf : Family k) (hr : Running k) (pid : ℕ) :
    Running (k.withChild pid) where
  nodup := nodup_append_singleton hr.nodup fun hmem => (hf.fresh _ (hr.ready _ hmem)).false
  ready p hp := by
    rcases List.mem_append.mp hp with hp | hp
    · exact List.mem_append_left _ (hr.ready p hp)
    · exact List.mem_append_right _ hp
  idle := List.mem_append_left _ hr.idle
  idle_parent := by
    rw [show (k.withChild pid).idleThread = k.idleThread from rfl, Kernel.withChild_tasks hf pid hr.idle]
    exact hr.idle_parent
  mem := List.mem_append_left _ hr.mem
  status := by
    change ((k.withChild pid).tasks k.running).status = _
    rw [Kernel.withChild_tasks hf pid hr.mem]
    exact hr.status

theorem NoLostWakeup.withChild {k : Kernel} (hf : Family k) (hn : NoLostWakeup k) (pid : ℕ) :
    NoLostWakeup (k.withChild pid) := by
  intro p hp hwait c hc hparent
  have hnew := Kernel.withChild_child k pid
  -- the new child is ready, so it neither waits nor hangs
  rcases List.mem_append.mp hp with hp | hp
  · rcases List.mem_append.mp hc with hc | hc
    · rw [Kernel.withChild_tasks hf pid hp] at hwait hparent
      rw [Kernel.withChild_tasks hf pid hc] at hparent ⊢
      exact hn p hp hwait c hc hparent
    · rw [List.mem_singleton.mp hc, hnew]
      simp [forkTask]
  · rw [List.mem_singleton.mp hp, hnew] at hwait
    simp [forkTask] at hwait

/-- What a call keeps: the process tree, and that no wake-up is lost if `safe` holds. -/
def Keeps (k : Kernel) (safe : Prop) (k' : Kernel) : Prop :=
  Family k' ∧ Running k' ∧ (safe → NoLostWakeup k → NoLostWakeup k')

theorem Keeps.of_same {k k' : Kernel} (hf : Family k) (hr : Running k) (h : SameProcs k k') :
    Keeps k True k' :=
  ⟨hf.wakes h.wakes, hr.same h, fun _ hn => hn.wakes h.wakes⟩

theorem Keeps.takePid {k : Kernel} (hf : Family k) (hr : Running k) (pid : ℕ) :
    Keeps k True (k.takePid pid) :=
  ⟨hf.takePid (pid - 1), { hr with }, fun _ hn => hn⟩

theorem sysFork_keeps {k : Kernel} (hf : Family k) (hr : Running k) :
    sysFork.wp (fun _ => Keeps k True) k := by
  refine wp_mono sysFork_spec ?_
  intro r k' hforks
  cases hforks with
  | nothing => exact Keeps.of_same hf hr (SameProcs.refl k)
  | number hpid hfree => exact Keeps.takePid hf hr _
  | @child pid _ hproc hpid hfree hsame =>
      have htake := Keeps.takePid hf hr pid
      have hbit : (k.takePid pid).pidBitmap.bit (pid - 1) = true := by
        rw [Kernel.takePid, bit_bitmapSet, if_pos rfl]
      have hnew : ∀ p ∈ k.threadAllList, (k.tasks p).pid ≠ pid := by
        intro p hp heq
        have hbit := (hf.pid_bit p hp).2
        rw [heq, hfree] at hbit
        cases hbit
      have hchild := htake.1.withChild htake.2.1 hproc hpid hbit hnew
      have hrun := Running.withChild htake.1 htake.2.1 pid
      have hsame := hsame.toSameProcs
      exact ⟨hchild.wakes hsame.wakes, hrun.same hsame,
        fun h hn => (NoLostWakeup.withChild htake.1 (htake.2.2 h hn) pid).wakes hsame.wakes⟩

/-! ### Exit -/

/-- A process with a parent is not `init`. -/
theorem Family.pid_ne_one {k : Kernel} (hf : Family k) {p n : ℕ} (hp : p ∈ k.threadAllList)
    (hparent : (k.tasks p).parentPid = some n) : (k.tasks p).pid ≠ 1 := by
  intro hpid
  obtain ⟨i, hi, hipid, hinone, -⟩ := hf.init
  have heq : p = i := hf.pid_inj p hp i hi (hpid.trans hipid.symm)
  rw [heq, hinone] at hparent
  cases hparent

section Adopt

variable {k : Kernel} (pid : ℕ)

theorem Kernel.adoptChildren_pid (p : ℕ) : ((k.adoptChildren pid).tasks p).pid = (k.tasks p).pid := by
  simp only [Kernel.adoptChildren]
  split <;> rfl

theorem Kernel.adoptChildren_process (p : ℕ) :
    ((k.adoptChildren pid).tasks p).isProcess = (k.tasks p).isProcess := by
  simp only [Kernel.adoptChildren]
  split <;> rfl

theorem Kernel.adoptChildren_status (p : ℕ) :
    ((k.adoptChildren pid).tasks p).status = (k.tasks p).status := by
  simp only [Kernel.adoptChildren]
  split <;> rfl

variable {pid}

/-- The children of `pid` become children of `init`; the others keep their parent. -/
theorem Kernel.adoptChildren_parent {p : ℕ} (hp : p ∈ k.threadAllList) :
    ((k.adoptChildren pid).tasks p).parentPid =
      if (k.tasks p).parentPid = some pid then some 1 else (k.tasks p).parentPid := by
  simp only [Kernel.adoptChildren, hp, true_and]
  split <;> rfl

theorem Family.adoptChildren (hf : Family k) : Family (k.adoptChildren pid) where
  nodup := hf.nodup
  fresh := hf.fresh
  pid_bit p hp := by
    rw [Kernel.adoptChildren_pid]
    exact hf.pid_bit p hp
  pid_inj p hp q hq heq := by
    rw [Kernel.adoptChildren_pid, Kernel.adoptChildren_pid] at heq
    exact hf.pid_inj p hp q hq heq
  init := by
    obtain ⟨p, hp, hpid, hparent, hproc⟩ := hf.init
    refine ⟨p, hp, ?_, ?_, ?_⟩
    · rw [Kernel.adoptChildren_pid, hpid]
    · rw [Kernel.adoptChildren_parent hp, hparent]
      rfl
    · rw [Kernel.adoptChildren_process, hproc]
  parent c hc n hn := by
    rw [Kernel.adoptChildren_parent (k := k) hc] at hn
    simp only [Kernel.adoptChildren_pid, Kernel.adoptChildren_process, Kernel.adoptChildren_status]
    split at hn
    · cases hn
      obtain ⟨p, hp, hpid, hparent, hproc⟩ := hf.init
      exact ⟨p, hp, hpid, hproc, hf.init_status p hp hparent⟩
    · exact hf.parent c hc n hn
  not_self p hp := by
    rw [Kernel.adoptChildren_parent (k := k) hp, Kernel.adoptChildren_pid]
    split
    next hparent =>
      intro heq
      exact hf.pid_ne_one hp hparent (Option.some_injective _ heq.symm)
    next => exact hf.not_self p hp
  init_status p hp hnone := by
    rw [Kernel.adoptChildren_parent (k := k) hp] at hnone
    rw [Kernel.adoptChildren_status]
    split at hnone
    · cases hnone
    · exact hf.init_status p hp hnone

theorem Running.adoptChildren (hr : Running k) : Running (k.adoptChildren pid) where
  nodup := hr.nodup
  ready := hr.ready
  idle := hr.idle
  idle_parent := by
    rw [show (k.adoptChildren pid).idleThread = k.idleThread from rfl,
      Kernel.adoptChildren_parent hr.idle, hr.idle_parent]
    rfl
  mem := hr.mem
  status := by
    rw [Kernel.cur, Kernel.adoptChildren_status]
    exact hr.status

end Adopt

theorem Kernel.mem_of_pid2thread {k : Kernel} {pid p : ℕ} (h : k.pid2thread pid = some p) :
    p ∈ k.threadAllList ∧ (k.tasks p).pid = pid := by
  refine ⟨List.mem_of_find?_eq_some h, ?_⟩
  simpa using List.find?_some h

/-- A thread may take any status, but only a process without children, and not `init`,
may hang. -/
theorem Family.setStatus {k : Kernel} (hf : Family k) {p : ℕ} {status : TaskStatus}
    (hhang : status = .hanging → (k.tasks p).parentPid ≠ none ∧
      ∀ c ∈ k.threadAllList, (k.tasks c).parentPid ≠ some (k.tasks p).pid) :
    Family (k.setStatus p status) := by
  have hpid q := k.setStatus_pid p q status
  have hpar q := k.setStatus_parent p q status
  have hproc q := k.setStatus_process p q status
  refine ⟨hf.nodup, hf.fresh, ?_, ?_, ?_, ?_, ?_, ?_⟩
  · intro q hq
    rw [hpid]
    exact hf.pid_bit q hq
  · intro q hq r hr heq
    rw [hpid, hpid] at heq
    exact hf.pid_inj q hq r hr heq
  · obtain ⟨q, hq, hinit⟩ := hf.init
    exact ⟨q, hq, by rwa [hpid, hpar, hproc]⟩
  · intro c hc n hn
    rw [hpar] at hn
    obtain ⟨q, hq, hqpid, hqproc, hqstatus⟩ := hf.parent c hc n hn
    refine ⟨q, hq, by rw [hpid, hqpid], by rw [hproc, hqproc], ?_⟩
    by_cases hqp : q = p
    · subst hqp
      rw [Kernel.setStatus_self]
      exact fun h => (hhang h).2 c hc (hqpid ▸ hn)
    · rwa [k.setStatus_of_ne _ hqp]
  · intro q hq
    rw [hpid, hpar]
    exact hf.not_self q hq
  · intro q hq hnone
    rw [hpar] at hnone
    by_cases hqp : q = p
    · subst hqp
      rw [Kernel.setStatus_self]
      exact fun h => (hhang h).1 hnone
    · rw [k.setStatus_of_ne _ hqp]
      exact hf.init_status q hq hnone

theorem Wakes.waiting {k k' : Kernel} (hw : Wakes k k') {p : ℕ}
    (h : (k'.tasks p).status = .waiting) : (k.tasks p).status = .waiting := by
  rcases hw.status p with hp | hp | hp
  · rw [← hp, h]
  · rw [h] at hp
    cases hp
  · rw [h] at hp
    cases hp

theorem Wakes.hanging {k k' : Kernel} (hw : Wakes k k') {p : ℕ}
    (h : (k'.tasks p).status = .hanging) : (k.tasks p).status = .hanging := by
  by_contra hne
  exact hw.not_hanging hne h

/-- The wake-ups of `sys_exit`: after the children of the running process were adopted
and its parent was woken, its own hanging and that of its children are noticed. -/
theorem NoLostWakeup.hang {k k' : Kernel} (hf : Family k) (hn : NoLostWakeup k)
    (hsafe : ¬ OrphansZombie k) (hw : Wakes (k.adoptChildren k.cur.pid) k')
    (hwoken : ∀ p ∈ k.threadAllList, k.cur.parentPid = some (k.tasks p).pid →
      (k'.tasks p).status ≠ .waiting) :
    NoLostWakeup (k'.setStatus k.running .hanging) := by
  have hall : k'.threadAllList = k.threadAllList := hw.all
  intro p hp hwait c hc hparent hhang
  have hp' : p ∈ k.threadAllList := hall ▸ hp
  have hc' : c ∈ k.threadAllList := hall ▸ hc
  -- the waiting process is not the one that exits
  have hpne : p ≠ k.running := by
    rintro rfl
    rw [Kernel.setStatus_self] at hwait
    cases hwait
  have hpwait : (k'.tasks p).status = .waiting := by
    rwa [k'.setStatus_of_ne _ hpne] at hwait
  have hppid : ((k'.setStatus k.running .hanging).tasks p).pid = (k.tasks p).pid := by
    rw [Kernel.setStatus_pid, hw.pid, Kernel.adoptChildren_pid]
  have hpwait' : (k.tasks p).status = .waiting := by
    rw [← Kernel.adoptChildren_status k.cur.pid]
    exact hw.waiting hpwait
  have hcparent : ((k.adoptChildren k.cur.pid).tasks c).parentPid = some (k.tasks p).pid := by
    rw [← hppid, ← hparent, ← hw.parent, Kernel.setStatus_parent]
  rw [Kernel.adoptChildren_parent hc'] at hcparent
  have hwoken' : k.cur.parentPid ≠ some (k.tasks p).pid := fun h => hwoken p hp' h hpwait
  by_cases hcr : c = k.running
  · subst hcr
    have hself : (k.tasks k.running).parentPid ≠ some k.cur.pid := hf.not_self _ hc'
    rw [if_neg hself] at hcparent
    exact hwoken' hcparent
  · have hchang : (k.tasks c).status = .hanging := by
      rw [← Kernel.adoptChildren_status k.cur.pid]
      refine hw.hanging ?_
      rwa [k'.setStatus_of_ne _ hcr] at hhang
    split at hcparent
    next hcur =>
      -- the child was handed over to `init`, which waits
      have hone : (k.tasks p).pid = 1 := by simpa using hcparent.symm
      refine hsafe ⟨?_, ⟨p, hp', hone, hpwait'⟩, c, hc', hcur, hchang⟩
      rw [← hone]
      exact hwoken'
    next => exact hn p hp' hpwait' c hc' hcparent hchang

theorem threadBlock_spec {k : Kernel} {status : TaskStatus} (hq : Queued k)
    (hstatus : status ≠ .running) :
    (threadBlock status).wp
      (fun _ k' => Wakes (k.setStatus k.running status) k' ∧ Running k') k := by
  simp only [threadBlock, wp_bind, wp_assert, wp_modify]
  intro _
  refine schedule_spec ⟨hq.nodup, hq.ready, hq.idle, ?_⟩ fun hrun => ?_
  · change ((k.setStatus k.running status).tasks k.idleThread).parentPid = none
    rw [Kernel.setStatus_parent]
    exact hq.idle_parent
  simp only [Kernel.cur, Kernel.setStatus, Kernel.setTask, Function.update_self] at hrun
  exact absurd hrun hstatus

theorem OrphansZombie.same {k k' : Kernel} (h : SameProcs k k') (ho : OrphansZombie k') :
    OrphansZombie k := by
  obtain ⟨hparent, ⟨i, hi, hpid, hwait⟩, c, hc, hcparent, hhang⟩ := ho
  rw [Kernel.cur, h.running] at hparent hcparent
  rw [h.parent] at hparent
  rw [h.parent, h.pid] at hcparent
  rw [h.all] at hi hc
  rw [h.pid] at hpid
  rw [h.status] at hwait hhang
  exact ⟨hparent, ⟨i, hi, hpid, hwait⟩, c, hc, hcparent, hhang⟩

theorem exitFinish_keeps {k k₁ : Kernel} (hf : Family k) (hr : Running k) {n : ℕ}
    (hparent : k.cur.parentPid = some n) (h : SameProcs (k.adoptChildren k.cur.pid) k₁) :
    exitFinish.wp (fun _ => Keeps k (¬ OrphansZombie k)) k₁ := by
  have hself : (k.tasks k.running).parentPid ≠ some k.cur.pid := hf.not_self _ hr.mem
  have hrun₁ : k₁.running = k.running := h.running
  have hparent₁ : k₁.cur.parentPid = some n := by
    rw [Kernel.cur, hrun₁, h.parent, Kernel.adoptChildren_parent hr.mem, if_neg hself]
    exact hparent
  have hf₁ : Family k₁ := hf.adoptChildren.wakes h.wakes
  have hr₁ : Running k₁ := hr.adoptChildren.same h
  simp only [exitFinish, wp_bind, wp_read, hparent₁, Option.bind_some]
  cases hfind : k₁.pid2thread n with
  | none => trivial
  | some parent =>
      obtain ⟨hmem, hpid⟩ := Kernel.mem_of_pid2thread hfind
      -- whatever the parent did before, it does not wait when the process hangs
      have hblock : ∀ k₂, Wakes k₁ k₂ → Queued k₂ → k₂.running = k.running →
          (k₂.tasks parent).status ≠ .waiting →
          (threadBlock .hanging).wp (fun _ => Keeps k (¬ OrphansZombie k)) k₂ := by
        intro k₂ hw₂ hq₂ hrun₂ hawake
        have hw : Wakes (k.adoptChildren k.cur.pid) k₂ := h.wakes.trans hw₂
        refine wp_mono (threadBlock_spec hq₂ (by decide)) ?_
        rintro - k₃ ⟨hw₃, hr₃⟩
        rw [hrun₂] at hw₃
        have hf₂ : Family k₂ := hf₁.wakes hw₂
        have hcur : (k₂.tasks k.running).pid = k.cur.pid := by
          rw [hw.pid, Kernel.adoptChildren_pid]
          rfl
        have hhang : Family (k₂.setStatus k.running .hanging) := by
          refine hf₂.setStatus fun _ => ⟨?_, ?_⟩
          · rw [hw.parent, Kernel.adoptChildren_parent hr.mem, if_neg hself]
            exact hparent ▸ Option.some_ne_none n
          · intro c hc
            rw [hw.all] at hc
            rw [hcur, hw.parent, Kernel.adoptChildren_parent (k := k) hc]
            split
            · have hne := hf.pid_ne_one hr.mem hparent
              exact fun heq => hne (Option.some_injective _ heq).symm
            next hother => exact hother
        refine ⟨hhang.wakes hw₃, hr₃, fun hsafe hn => ?_⟩
        refine (hn.hang hf hsafe hw ?_).wakes hw₃
        intro p hp hppid
        have heq : p = parent := by
          rw [hparent] at hppid
          refine hf.pid_inj p hp parent (h.all ▸ hmem) ?_
          rw [h.pid, Kernel.adoptChildren_pid] at hpid
          rw [hpid, Option.some_injective _ hppid]
        rw [heq]
        exact hawake
      dsimp only
      split
      · rw [wp_bind]
        refine wp_mono (threadUnblock_spec hr₁.toQueued hmem) ?_
        rintro - k₂ ⟨hw₂, hq₂, hrun₂, -, hready, -⟩
        exact hblock k₂ hw₂ hq₂ (hrun₂.trans hrun₁) (by rw [hready]; decide)
      next hawake => exact hblock k₁ (Wakes.refl k₁) hr₁.toQueued hrun₁ hawake

theorem sysExit_keeps {k : Kernel} {status : ℤ} (hf : Family k) (hr : Running k) :
    (sysExit status).wp (fun _ => Keeps k (¬ OrphansZombie k)) k := by
  simp only [sysExit, wp_bind, wp_modify, wp_read]
  set k₀ := k.setTask k.running { k.cur with exitStatus := wrap8 status }
  have h₀ : SameProcs k k₀ := sameProcs_setTask k rfl rfl rfl rfl
  cases hparent : k₀.cur.parentPid with
  | none => trivial
  | some n =>
      simp only [wp_bind, wp_write]
      refine wp_mono (releaseFds_sameTasks _ _) ?_
      rintro - k₁ h₁
      refine wp_mono (exitFinish_keeps (hf.wakes h₀.wakes) (hr.same h₀) hparent h₁.toSameProcs) ?_
      rintro - k₂ ⟨hf₂, hr₂, hn₂⟩
      exact ⟨hf₂, hr₂, fun hsafe hn => hn₂ (fun ho => hsafe (ho.same h₀)) (hn.wakes h₀.wakes)⟩

/-! ### Wait, and threads that leave -/

theorem Family.without {k : Kernel} (hf : Family k) {p : ℕ} (hp : p ∈ k.threadAllList)
    (hchildless : ∀ c ∈ k.threadAllList, (k.tasks c).parentPid ≠ some (k.tasks p).pid)
    (hinit : (k.tasks p).pid ≠ 1) : Family (k.without p) := by
  have hmem : ∀ q, q ∈ (k.without p).threadAllList ↔ q ≠ p ∧ q ∈ k.threadAllList :=
    fun q => hf.nodup.mem_erase_iff
  refine ⟨hf.nodup.erase p, ?_, ?_, ?_, ?_, ?_, ?_, ?_⟩
  · intro q hq
    exact hf.fresh q ((hmem q).mp hq).2
  · intro q hq
    obtain ⟨hne, hq⟩ := (hmem q).mp hq
    rw [k.without_tasks hne]
    obtain ⟨hpos, hbit⟩ := hf.pid_bit q hq
    refine ⟨hpos, ?_⟩
    have hother : (k.tasks q).pid - 1 ≠ (k.tasks p).pid - 1 := by
      have hpid : (k.tasks q).pid ≠ (k.tasks p).pid := fun h => hne (hf.pid_inj q hq p hp h)
      have hppos := (hf.pid_bit p hp).1
      omega
    change (bitmapSet k.pidBitmap ((k.tasks p).pid - 1) false).bit _ = true
    rw [bit_bitmapSet, if_neg hother]
    exact hbit
  · intro q hq r hr heq
    obtain ⟨hqne, hq⟩ := (hmem q).mp hq
    obtain ⟨hrne, hr⟩ := (hmem r).mp hr
    rw [k.without_tasks hqne, k.without_tasks hrne] at heq
    exact hf.pid_inj q hq r hr heq
  · obtain ⟨i, hi, hipid, hrest⟩ := hf.init
    have hne : i ≠ p := by
      rintro rfl
      exact hinit hipid
    exact ⟨i, (hmem i).mpr ⟨hne, hi⟩, by rw [k.without_tasks hne]; exact ⟨hipid, hrest⟩⟩
  · intro c hc n hn
    obtain ⟨hcne, hc'⟩ := (hmem c).mp hc
    rw [k.without_tasks hcne] at hn
    obtain ⟨q, hq, hqpid, hrest⟩ := hf.parent c hc' n hn
    have hne : q ≠ p := by
      rintro rfl
      exact hchildless c hc' (hqpid ▸ hn)
    exact ⟨q, (hmem q).mpr ⟨hne, hq⟩, by rw [k.without_tasks hne]; exact ⟨hqpid, hrest⟩⟩
  · intro q hq
    obtain ⟨hne, hq⟩ := (hmem q).mp hq
    rw [k.without_tasks hne]
    exact hf.not_self q hq
  · intro q hq hnone
    obtain ⟨hne, hq⟩ := (hmem q).mp hq
    rw [k.without_tasks hne] at hnone ⊢
    exact hf.init_status q hq hnone

theorem Queued.without {k : Kernel} (hf : Family k) (hq : Queued k) {p : ℕ}
    (hidle : k.idleThread ≠ p) : Queued (k.without p) where
  nodup := hq.nodup.erase p
  ready q hmem := by
    obtain ⟨hne, hmem⟩ := hq.nodup.mem_erase_iff.mp hmem
    exact hf.nodup.mem_erase_iff.mpr ⟨hne, hq.ready q hmem⟩
  idle := hf.nodup.mem_erase_iff.mpr ⟨hidle, hq.idle⟩
  idle_parent := by
    rw [show (k.without p).idleThread = k.idleThread from rfl, k.without_tasks hidle]
    exact hq.idle_parent

theorem NoLostWakeup.without {k : Kernel} (hf : Family k) (hn : NoLostWakeup k) (p : ℕ) :
    NoLostWakeup (k.without p) := by
  intro q hq hwait c hc hparent
  obtain ⟨hqne, hq⟩ := hf.nodup.mem_erase_iff.mp hq
  obtain ⟨hcne, hc⟩ := hf.nodup.mem_erase_iff.mp hc
  rw [k.without_tasks hqne] at hwait hparent
  rw [k.without_tasks hcne] at hparent ⊢
  exact hn q hq hwait c hc hparent

/-- Nobody has a hanging process as parent. -/
theorem Family.childless_of_hanging {k : Kernel} (hf : Family k) {p : ℕ} (hp : p ∈ k.threadAllList)
    (hhang : (k.tasks p).status = .hanging) :
    ∀ c ∈ k.threadAllList, (k.tasks c).parentPid ≠ some (k.tasks p).pid := by
  intro c hc hparent
  obtain ⟨q, hq, hqpid, -, hstatus⟩ := hf.parent c hc _ hparent
  rw [hf.pid_inj q hq p hp hqpid] at hstatus
  exact hstatus hhang

/-- Nobody has a kernel thread as parent. -/
theorem Family.childless_of_thread {k : Kernel} (hf : Family k) {p : ℕ} (hp : p ∈ k.threadAllList)
    (hthread : (k.tasks p).isProcess = false) :
    ∀ c ∈ k.threadAllList, (k.tasks c).parentPid ≠ some (k.tasks p).pid := by
  intro c hc hparent
  obtain ⟨q, hq, hqpid, hproc, -⟩ := hf.parent c hc _ hparent
  rw [hf.pid_inj q hq p hp hqpid, hthread] at hproc
  cases hproc

theorem sysWaitRound_keeps {k : Kernel} (hf : Family k) (hr : Running k) :
    sysWaitRound.wp (fun _ => Keeps k True) k := by
  simp only [sysWaitRound, wp_bind, wp_read]
  cases hfind : k.findHangingChild k.cur.pid with
  | some child =>
      have hmem : child ∈ k.threadAllList := List.mem_of_find?_eq_some hfind
      obtain ⟨hparent, hhang⟩ : (k.tasks child).parentPid = some k.cur.pid ∧
          (k.tasks child).status = .hanging := by
        simpa using List.find?_some hfind
      have hrunning : k.running ≠ child := by
        rintro rfl
        rw [show (k.tasks k.running).status = .running from hr.status] at hhang
        cases hhang
      have hidle : k.idleThread ≠ child := by
        rintro rfl
        rw [hr.idle_parent] at hparent
        cases hparent
      simp only [wp_bind, wp_pure, threadExit_eq, Bool.false_eq_true, if_false]
      refine ⟨hf.without hmem (hf.childless_of_hanging hmem hhang) (hf.pid_ne_one hmem hparent),
        ⟨Queued.without hf hr.toQueued hidle, ?_, ?_⟩, fun _ hn => hn.without hf child⟩
      · exact hf.nodup.mem_erase_iff.mpr ⟨hrunning, hr.mem⟩
      · change ((k.without child).tasks k.running).status = .running
        rw [k.without_tasks hrunning]
        exact hr.status
  | none =>
      have hnone : ∀ c ∈ k.threadAllList, (k.tasks c).parentPid = some k.cur.pid →
          (k.tasks c).status ≠ .hanging := by
        intro c hc hparent hhang
        have := List.find?_eq_none.mp hfind c hc
        simp [hparent, hhang] at this
      cases hchild : k.findChild k.cur.pid with
      | none => exact Keeps.of_same hf hr (SameProcs.refl k)
      | some _ =>
          simp only [wp_bind, wp_pure]
          refine wp_mono (threadBlock_spec hr.toQueued (by decide)) ?_
          rintro - k' ⟨hw, hr'⟩
          have hwaiting : Family (k.setStatus k.running .waiting) := hf.setStatus (by simp)
          refine ⟨hwaiting.wakes hw, hr', fun _ hn => NoLostWakeup.wakes ?_ hw⟩
          intro p hp hwait c hc hparent
          rw [Kernel.setStatus_parent, Kernel.setStatus_pid] at hparent
          by_cases hcr : c = k.running
          · rw [hcr, Kernel.setStatus_self]
            decide
          rw [k.setStatus_of_ne _ hcr]
          by_cases hpr : p = k.running
          · rw [hpr] at hparent
            exact hnone c hc hparent
          · rw [k.setStatus_of_ne _ hpr] at hwait
            exact hn p hp hwait c hc hparent

theorem threadYield_keeps {k : Kernel} (hf : Family k) (hr : Running k) :
    threadYield.wp (fun _ => Keeps k True) k := by
  simp only [threadYield, wp_bind, wp_read, wp_assert, wp_write, decide_eq_true_eq]
  intro hnew
  have hw := Wakes.setTask k k.running { k.tasks k.running with status := .ready }
    (k.threadReadyList ++ [k.running]) k.running rfl rfl rfl (Or.inl rfl)
  refine wp_mono (schedule_spec ⟨nodup_append_singleton hr.nodup hnew, ?_, hr.idle, hr.wakes_idle hw⟩
    fun _ => hr.mem) ?_
  · intro p hp
    rcases List.mem_append.mp hp with hp | hp
    · exact hr.ready p hp
    · rw [List.mem_singleton.mp hp]
      exact hr.mem
  · rintro - k' ⟨hw', hr'⟩
    have htrans := hw.trans hw'
    exact ⟨hf.wakes htrans, hr', fun _ hn => hn.wakes htrans⟩

theorem intrTimerHandler_keeps {k : Kernel} (hf : Family k) (hr : Running k) :
    intrTimerHandler.wp (fun _ => Keeps k True) k := by
  simp only [intrTimerHandler, wp_bind, wp_read, wp_write]
  have h₁ : SameProcs k (k.setTask k.running { k.cur with elapsedTicks := k.cur.elapsedTicks + 1 }) :=
    sameProcs_setTask k rfl rfl rfl rfl
  have hr₁ := hr.same h₁
  split
  · refine wp_mono (schedule_spec hr₁.toQueued fun _ => hr₁.mem) ?_
    rintro - k' ⟨hw', hr'⟩
    have htrans := h₁.wakes.trans hw'
    exact ⟨hf.wakes htrans, hr', fun _ hn => hn.wakes htrans⟩
  · exact Keeps.of_same hf hr (h₁.trans (sameProcs_setTask _ rfl rfl rfl rfl))

theorem threadBlock_keeps {k : Kernel} (hf : Family k) (hr : Running k) :
    (threadBlock .blocked).wp (fun _ => Keeps k True) k := by
  refine wp_mono (threadBlock_spec hr.toQueued (by decide)) ?_
  rintro - k' ⟨hw, hr'⟩
  have hblocked : Family (k.setStatus k.running .blocked) := hf.setStatus (by simp)
  refine ⟨hblocked.wakes hw, hr', fun _ hn => NoLostWakeup.wakes ?_ hw⟩
  intro p hp hwait c hc hparent hhang
  rw [Kernel.setStatus_parent, Kernel.setStatus_pid] at hparent
  have hpne : p ≠ k.running := by
    rintro rfl
    rw [Kernel.setStatus_self] at hwait
    cases hwait
  have hcne : c ≠ k.running := by
    rintro rfl
    rw [Kernel.setStatus_self] at hhang
    cases hhang
  rw [k.setStatus_of_ne _ hpne] at hwait
  rw [k.setStatus_of_ne _ hcne] at hhang
  exact hn p hp hwait c hc hparent hhang

theorem threadUnblock_keeps {k : Kernel} (hf : Family k) (hr : Running k) {p : ℕ}
    (hp : p ∈ k.threadAllList) (hblocked : (k.tasks p).status = .blocked) :
    (threadUnblock p).wp (fun _ => Keeps k True) k := by
  refine wp_mono (threadUnblock_spec hr.toQueued hp) ?_
  rintro - k' ⟨hw, hq, hrun, -, -, hother⟩
  have hne : k.running ≠ p := by
    rintro rfl
    rw [show (k.tasks k.running).status = .running from hr.status] at hblocked
    cases hblocked
  refine ⟨hf.wakes hw, ⟨hq, ?_, ?_⟩, fun _ hn => hn.wakes hw⟩
  · rw [hrun, hw.all]
    exact hr.mem
  · rw [Kernel.cur, hrun, hother _ hne]
    exact hr.status

theorem leave_keeps {k : Kernel} (hf : Family k) (hr : Running k) (hthread : k.cur.isProcess = false)
    (hidle : k.running ≠ k.idleThread) :
    (threadExit k.running true).wp (fun _ => Keeps k True) k := by
  rw [threadExit_eq, if_pos rfl]
  have hinit : (k.tasks k.running).pid ≠ 1 := by
    intro hpid
    obtain ⟨i, hi, hipid, -, hproc⟩ := hf.init
    rw [hf.pid_inj i hi _ hr.mem (hipid.trans hpid.symm)] at hproc
    rw [show (k.tasks k.running).isProcess = false from hthread] at hproc
    cases hproc
  have hf' := hf.without hr.mem (hf.childless_of_thread hr.mem hthread) hinit
  refine wp_mono (schedule_spec (Queued.without hf hr.toQueued hidle.symm) fun hrun => ?_) ?_
  · change ((k.setStatus k.running .died).tasks k.running).status = .running at hrun
    rw [Kernel.setStatus_self] at hrun
    cases hrun
  · rintro - k' ⟨hw, hr'⟩
    exact ⟨hf'.wakes hw, hr', fun _ hn => (hn.without hf k.running).wakes hw⟩

/-! ## Every run -/

/-- One event keeps the process tree; it loses no wake-up if it is not an exit that
hands a hanging child to a waiting `init`. -/
theorem Machine.Step.keeps {m m' : Machine} {e : Event} (h : m.Step e m') (hf : Family m.kernel)
    (hr : Running m.kernel) : Keeps m.kernel (ExitSafe m e) m'.kernel := by
  obtain ⟨hen, waits, k, hret, rfl⟩ := h
  suffices hwp : e.body.wp (fun _ => Keeps m.kernel (ExitSafe m e)) m.kernel from
    wp_iff_returns.mp hwp waits k hret
  have hpure {α : Type} {x : Prog Kernel α} {f : α → Bool} {safe : Prop}
      (h : x.wp (fun _ => Keeps m.kernel safe) m.kernel) :
      (x >>= fun a => pure (f a) : Prog Kernel Bool).wp (fun _ => Keeps m.kernel safe) m.kernel := by
    simpa only [wp_bind, wp_pure] using h
  cases e with
  | fork => exact hpure (sysFork_keeps hf hr)
  | exit status => exact hpure (sysExit_keeps hf hr)
  | wait => exact hpure (sysWaitRound_keeps hf hr)
  | tick => exact hpure (intrTimerHandler_keeps hf hr)
  | block => exact hpure (threadBlock_keeps hf hr)
  | yield => exact hpure (threadYield_keeps hf hr)
  | wake p => exact hpure (threadUnblock_keeps hf hr hen.2.1 hen.2.2)
  | leave => exact hpure (leave_keeps hf hr hen.2.1 hen.2.2)

theorem Boot.family {k : Kernel} {n : ℕ} (hb : Boot k n) : Family k where
  nodup := by simp [hb.all]
  fresh := by simp [hb.all, hb.next]
  pid_bit := by
    have hbit (i : ℕ) (hi : i < 3) : k.pidBitmap.bit i = true := by
      rw [hb.bits, bit_bitmapSet, bit_bitmapSet, bit_bitmapSet]
      interval_cases i <;> rfl
    simp [hb.all, hb.init, hb.main, hb.idleTask, initTask, hbit]
  pid_inj := by simp [hb.all, hb.init, hb.main, hb.idleTask, initTask]
  init := ⟨n, by simp [hb.all], by simp [hb.init, initTask]⟩
  parent := by simp [hb.all, hb.init, hb.main, hb.idleTask, initTask]
  not_self := by simp [hb.all, hb.init, hb.main, hb.idleTask, initTask]
  init_status := by simp [hb.all, hb.init, hb.main, hb.idleTask, initTask]

theorem Boot.running_spec {k : Kernel} {n : ℕ} (hb : Boot k n) : Running k where
  nodup := by simp [hb.ready]
  ready := by simp [hb.ready, hb.all]
  idle := by simp [hb.idle, hb.all]
  idle_parent := by simp [hb.idle, hb.idleTask, initTask]
  mem := by simp [hb.running, hb.all]
  status := by simp [Kernel.cur, hb.running, hb.main]

theorem Boot.noLostWakeup {k : Kernel} {n : ℕ} (hb : Boot k n) : NoLostWakeup k := by
  simp [NoLostWakeup, hb.all, hb.init, hb.main, hb.idleTask, initTask]

/-- As long as no exit hands a hanging child to a waiting `init`, no wake-up between exit
and wait is lost. -/
theorem no_lost_wakeup {m : Machine} (h : Reachable Machine.Booted Machine.Step ExitSafe m) :
    NoLostWakeup m.kernel := by
  refine (h.invariant (fun m => Family m.kernel ∧ Running m.kernel ∧ NoLostWakeup m.kernel) ?_ ?_).2.2
  · rintro s ⟨⟨k, hret⟩, -⟩
    have hb := wp_iff_returns.mp (threadInit_boot k) _ _ hret
    exact ⟨hb.family, hb.running_spec, hb.noLostWakeup⟩
  · rintro s e s' ⟨hf, hr, hn⟩ hsafe hstep
    obtain ⟨hf', hr', hn'⟩ := hstep.keeps hf hr
    exact ⟨hf', hr', hn' hsafe hn⟩

/-! ## Two runs -/

instance (m : Machine) (e : Event) : Decidable (ExitSafe m e) := by
  cases e <;> unfold ExitSafe <;> infer_instance

/-- One event that meets the side condition. -/
def Machine.execSafe (m : Machine) (e : Event) : Option Machine :=
  if ExitSafe m e then m.exec e else none

/-- The machine after a boot in which all allocations succeed. -/
def bootMachine : Option Machine :=
  (threadInit.exec [] default).map fun (_, k) => ⟨k, fun _ => false⟩

theorem booted_of_bootMachine {m : Machine} (h : bootMachine = some m) : m.Booted := by
  obtain ⟨⟨⟨⟩, k⟩, hexec, rfl⟩ := Option.map_eq_some_iff.mp h
  exact ⟨⟨default, returns_of_exec hexec⟩, rfl⟩

/-- The machine after a boot and some events. -/
def runFromBoot (exec : Machine → Event → Option Machine) (es : List Event) : Option Machine :=
  bootMachine.bind (follow exec es)

theorem reachable_of_run {exec : Machine → Event → Option Machine} {ok : Machine → Event → Prop}
    (hexec : ∀ m e m', exec m e = some m' → ok m e ∧ m.Step e m') {es : List Event} {m : Machine}
    (h : runFromBoot exec es = some m) : Reachable Machine.Booted Machine.Step ok m := by
  obtain ⟨m₀, hboot, hfollow⟩ := Option.bind_eq_some_iff.mp h
  exact Reachable.of_follow hexec (.start (booted_of_bootMachine hboot)) hfollow

/-- `init` (at address 0) waits for a child (at address 3); the exit of the child wakes
it. -/
theorem no_lost_wakeup_after_exit :
    ∃ m, Reachable Machine.Booted Machine.Step ExitSafe m ∧ (m.kernel.tasks 0).status = .running ∧
      (m.kernel.tasks 3).status = .hanging ∧ NoLostWakeup m.kernel := by
  have hrun : ((runFromBoot Machine.execSafe [.leave, .fork, .wait, .block, .exit 0]).map fun m =>
      ((m.kernel.tasks 0).status, (m.kernel.tasks 3).status)) = some (.running, .hanging) := by
    decide +kernel
  obtain ⟨m, hm, hstatus⟩ := Option.map_eq_some_iff.mp hrun
  have hreach : Reachable Machine.Booted Machine.Step ExitSafe m := by
    refine reachable_of_run ?_ hm
    intro m e m' h
    unfold Machine.execSafe at h
    split at h
    next hsafe => exact ⟨hsafe, Machine.step_of_exec h⟩
    next => cases h
  exact ⟨m, hreach, congrArg Prod.fst hstatus, congrArg Prod.snd hstatus, no_lost_wakeup hreach⟩

/-- `init` waits for its child, which waits for its own child, which forks once more and
then uses up its time.  The youngest process exits, and after it its parent: the hanging
child goes to `init`, and nobody wakes `init`. -/
theorem exit_loses_wakeup :
    ∃ m, Reachable Machine.Booted Machine.Step (fun _ _ => True) m ∧ ¬ NoLostWakeup m.kernel := by
  have hrun : ((runFromBoot Machine.exec ([.leave, .fork, .wait, .block, .fork, .wait, .fork] ++
      List.replicate 32 .tick ++ [.exit 0, .exit 0])).map fun m => decide (NoLostWakeup m.kernel)) =
        some false := by
    decide +kernel
  obtain ⟨m, hm, hlost⟩ := Option.map_eq_some_iff.mp hrun
  refine ⟨m, reachable_of_run ?_ hm, of_decide_eq_false hlost⟩
  exact fun m e m' h => ⟨trivial, Machine.step_of_exec h⟩

end BochsOs
