import BochsOs.Library.Runs
import BochsOs.Thread.Lock
import BochsOs.Thread.Scheduler
import BochsOs.Userprog.SameProcs

/-!
# Runs of the scheduler

Threads that are created, interrupted by the timer, yield, block and are woken, take and
give semaphores, fork and leave, in any order from `thread_init` on.  A thread that
`sema_up` has woken is still in the loop of `sema_down`, with interrupts off: what it does
next is to test the semaphore again.  The idle thread does nothing but block itself; the
interrupt handlers that wake other threads may run on top of it.

`scheduler_sound`: one thread runs, the ready list holds the ready threads, the waiters of
a semaphore are blocked and in no other list, and no `ASSERT` of the scheduler fails.
-/

namespace BochsOs

open Suspend Suspend.Prog Runs

/-! ## The system -/

/-- The kernel with its semaphores. -/
structure Sched where
  kernel : Kernel
  sema : ℕ → Semaphore
  /-- The semaphore in whose `sema_down` a thread is. -/
  inSema : ℕ → Option ℕ
  /-- The address of the first control block. -/
  first : ℕ

/-- Code of the kernel that does not touch semaphores. -/
def onKernel {α : Type} (x : Prog Kernel α) : Prog Sched α :=
  x.focus Sched.kernel fun k s => { s with kernel := k }

/-- `sema_down` from the test of its loop on; `false` if the thread blocks and tests again
when it runs next. -/
def semaDown (a : ℕ) : Prog Sched Bool := do
  let s ← read
  let sema := s.sema a
  if sema.value = 0 then
    assert (s.kernel.running ∉ sema.waiters)
    write { s with
      sema := Function.update s.sema a ⟨sema.value, sema.waiters ++ [s.kernel.running]⟩ }
    onKernel (threadBlock .blocked)
    return false
  else
    write { s with sema := Function.update s.sema a ⟨sema.value - 1, sema.waiters⟩ }
    assert (sema.value - 1 = 0)
    return true

/-- `sema_up`. -/
def semaUp (a : ℕ) : Prog Sched Unit := do
  let s ← read
  let sema := s.sema a
  assert (sema.value = 0)
  match sema.waiters with
  | [] => write { s with sema := Function.update s.sema a ⟨sema.value + 1, []⟩ }
  | q :: rest =>
      write { s with sema := Function.update s.sema a ⟨sema.value, rest⟩ }
      onKernel (threadUnblock q)
      modify fun s => { s with sema := Function.update s.sema a ⟨sema.value + 1, rest⟩ }

/-- What happens next. -/
inductive SchedEvent where
  | create (prio : ℕ)
  | tick
  | yield
  | block (status : TaskStatus)
  | unblock (p : ℕ)
  | semaDown (a : ℕ)
  | semaUp (a : ℕ)
  | fork
  /-- The running thread leaves: the end of `main`. -/
  | leave
  /-- `sys_wait` removes a child that hangs. -/
  | reap (c : ℕ)

/-- The code that runs. -/
def SchedEvent.body : SchedEvent → Prog Sched Unit
  | create prio => do
      let _ ← onKernel (threadCreate prio)
  | tick => onKernel intrTimerHandler
  | yield => onKernel threadYield
  | block status => onKernel (threadBlock status)
  | unblock p => onKernel (threadUnblock p)
  | semaDown a => do
      let s ← read
      let through ← BochsOs.semaDown a
      modify fun s' => { s' with
        inSema := Function.update s'.inSema s.kernel.running (if through then none else some a) }
  | semaUp a => BochsOs.semaUp a
  | fork => do
      let _ ← onKernel sysFork
  | leave => do
      let s ← read
      onKernel (threadExit s.kernel.running true)
  | reap c => onKernel (threadExit c false)

/-- When an event can happen: a thread inside `sema_down` goes on there, the idle thread
does what `idle` does, and the event is called as its callers do. -/
def SchedEvent.Enabled (s : Sched) (e : SchedEvent) : Prop :=
  let k := s.kernel
  match e with
  | semaDown a =>
      k.running ≠ k.idleThread ∧ (s.inSema k.running = none ∨ s.inSema k.running = some a)
  | tick => s.inSema k.running = none
  | semaUp _ => s.inSema k.running = none
  | unblock p =>
      s.inSema k.running = none ∧ p ∈ k.threadAllList ∧ k.Sleeps p ∧ s.inSema p = none
  | block status =>
      s.inSema k.running = none ∧
        (status = .blocked ∨ status = .waiting ∨ status = .hanging) ∧
        (k.running = k.idleThread → status = .blocked)
  | reap c =>
      s.inSema k.running = none ∧ k.running ≠ k.idleThread ∧ c ∈ k.threadAllList ∧
        (k.tasks c).status = .hanging ∧ (k.tasks c).parentPid = some k.cur.pid
  | _ => s.inSema k.running = none ∧ k.running ≠ k.idleThread

/-- What `sync.c` asserts about the value of the semaphore. -/
def SchedEvent.ValueOk (s : Sched) : SchedEvent → Prop
  | semaDown a => (s.sema a).value ≤ 1
  | semaUp a => (s.sema a).value = 0
  | _ => True

/-- The event calls `schedule`, `thread_block`, `thread_unblock` or `thread_yield`, if it
comes to that. -/
def SchedEvent.Switches : SchedEvent → Prop
  | create _ | fork => False
  | _ => True

/-- One event. -/
def Sched.Step (s : Sched) (e : SchedEvent) (s' : Sched) : Prop :=
  e.Enabled s ∧ e.body.Returns s () s'

/-- After `thread_init`, with semaphores that nobody waits for. -/
def Sched.Booted (s : Sched) : Prop :=
  (∃ k, k.nextTask = s.first ∧ threadInit.Returns k () s.kernel) ∧ (∀ a, (s.sema a).waiters = []) ∧
    ∀ p, s.inSema p = none

/-- The scheduler is sound in a state. -/
structure Sched.Sound (s : Sched) : Prop where
  one : ∃! p, p ∈ s.kernel.threadAllList ∧ (s.kernel.tasks p).status = .running
  ready_nodup : s.kernel.threadReadyList.Nodup
  ready : ∀ p, p ∈ s.kernel.threadReadyList ↔
    p ∈ s.kernel.threadAllList ∧ (s.kernel.tasks p).status = .ready
  waiters_nodup : ∀ a, (s.sema a).waiters.Nodup
  waiters : ∀ a, ∀ p ∈ (s.sema a).waiters, (s.kernel.tasks p).status = .blocked ∧
    p ∉ s.kernel.threadReadyList ∧ ∀ b, b ≠ a → p ∉ (s.sema b).waiters
  all_nodup : s.kernel.threadAllList.Nodup
  /-- The control blocks made so far are those from `first` up to `nextTask`. -/
  all : ∀ p, p ∈ s.kernel.threadAllList ↔
    s.first ≤ p ∧ p < s.kernel.nextTask ∧ (s.kernel.tasks p).status ≠ .died
  idle : s.kernel.threadReadyList = [] → s.kernel.running ≠ s.kernel.idleThread →
    (s.kernel.tasks s.kernel.idleThread).status = .blocked
  /-- No `ASSERT` of the scheduler fails; those of `sync.c` on the value of the semaphore
  are up to its users. -/
  asserts : ∀ e : SchedEvent, e.Enabled s → e.ValueOk s → e.Switches →
    e.body.succeeds (fun _ _ => True) s

/-! ## The invariant -/

theorem wp_onKernel {α : Type} {x : Prog Kernel α} {Q : α → Sched → Prop} {s : Sched} :
    (onKernel x).wp Q s ↔ x.wp (fun a k => Q a { s with kernel := k }) s.kernel := by
  unfold onKernel
  refine wp_focus ?_ ?_ ?_
  · exact fun _ _ => rfl
  · exact fun _ _ _ => rfl
  · exact fun _ => rfl

theorem succeeds_onKernel {α : Type} {x : Prog Kernel α} {Q : α → Sched → Prop} {s : Sched} :
    (onKernel x).succeeds Q s ↔ x.succeeds (fun a k => Q a { s with kernel := k }) s.kernel := by
  unfold onKernel
  refine succeeds_focus ?_ ?_ ?_
  · exact fun _ _ => rfl
  · exact fun _ _ _ => rfl
  · exact fun _ => rfl

namespace Sched

/-- The control blocks and the waiters of the semaphores. -/
structure Bound (s : Sched) : Prop where
  born : ∀ p, p ∈ s.kernel.threadAllList ↔
    s.first ≤ p ∧ p < s.kernel.nextTask ∧ (s.kernel.tasks p).status ≠ .died
  nodup : ∀ a, (s.sema a).waiters.Nodup
  waiting : ∀ a, ∀ p ∈ (s.sema a).waiters, p ∈ s.kernel.threadAllList ∧
    (s.kernel.tasks p).status = .blocked ∧ s.inSema p = some a
  idle : s.inSema s.kernel.idleThread = none

/-- The invariant along a run. -/
structure Inv (s : Sched) : Prop extends Bound s where
  sched : Scheduled s.kernel

variable {s : Sched} {k' : Kernel}

/-- A switch changes nothing for the waiters. -/
theorem Bound.turns (hb : s.Bound) (hidle : (s.kernel.tasks s.kernel.idleThread).status.OfIdle)
    (ht : Turns s.kernel k') : Bound { s with kernel := k' } := by
  refine ⟨fun p => ?_, hb.nodup, fun a p hp => ?_, ?_⟩
  · change p ∈ k'.threadAllList ↔ _ ≤ p ∧ p < k'.nextTask ∧ _
    rw [ht.all, ht.next, hb.born]
    refine and_congr_right fun _ => and_congr_right fun _ => not_congr ?_
    rcases ht.status p with heq | ⟨hfrom, hto⟩
    · rw [heq]
    · have hnot : (s.kernel.tasks p).status ≠ .died := by
        rcases hfrom with h | h | h
        · rw [h]
          decide
        · rw [h]
          decide
        · rw [h]
          rcases hidle with h | h | h <;> rw [h] <;> decide
      have hnot' : (k'.tasks p).status ≠ .died := by
        rcases hto with h | h <;> rw [h] <;> decide
      exact ⟨fun h => absurd h hnot, fun h => absurd h hnot'⟩
  · obtain ⟨hmem, hblocked, hsema⟩ := hb.waiting a p hp
    have hne : p ≠ s.kernel.idleThread := by
      rintro rfl
      rw [hb.idle] at hsema
      cases hsema
    refine ⟨ht.all ▸ hmem, ?_, hsema⟩
    rw [ht.status_eq (by rw [hblocked]; decide) (by rw [hblocked]; decide) hne]
    exact hblocked
  · change s.inSema k'.idleThread = none
    rw [ht.idle]
    exact hb.idle

/-- A thread that no semaphore knows takes another state, and stays alive. -/
theorem Bound.setStatus (hb : s.Bound) {p : ℕ} (hp : p ∈ s.kernel.threadAllList)
    (hout : ∀ a, p ∉ (s.sema a).waiters) {status : TaskStatus} (hstatus : status ≠ .died) :
    Bound { s with kernel := s.kernel.setStatus p status } := by
  refine ⟨fun q => ?_, hb.nodup, fun a q hq => ?_, hb.idle⟩
  · change q ∈ s.kernel.threadAllList ↔ _ ≤ q ∧ q < s.kernel.nextTask ∧
      ((s.kernel.setStatus p status).tasks q).status ≠ .died
    by_cases hqp : q = p
    · obtain ⟨hfirst, hnext, -⟩ := (hb.born p).mp hp
      rw [hqp, Kernel.setStatus_self]
      simp [hp, hfirst, hnext, hstatus]
    · rw [Kernel.setStatus_of_ne _ _ hqp]
      exact hb.born q
  · obtain ⟨hmem, hblocked, hsema⟩ := hb.waiting a q hq
    have hne : q ≠ p := by
      rintro rfl
      exact hout a hq
    refine ⟨hmem, ?_, hsema⟩
    change ((s.kernel.setStatus p status).tasks q).status = .blocked
    rw [Kernel.setStatus_of_ne _ _ hne]
    exact hblocked

theorem Bound.without (hb : s.Bound) (hnodup : s.kernel.threadAllList.Nodup) {p : ℕ}
    (hout : ∀ a, p ∉ (s.sema a).waiters) : Bound { s with kernel := s.kernel.without p } := by
  refine ⟨fun q => ?_, hb.nodup, fun a q hq => ?_, hb.idle⟩
  · change q ∈ s.kernel.threadAllList.erase p ↔ _ ≤ q ∧ q < s.kernel.nextTask ∧
      ((s.kernel.without p).tasks q).status ≠ .died
    rw [hnodup.mem_erase_iff]
    by_cases hqp : q = p
    · have hdied : ((s.kernel.without p).tasks p).status = .died := s.kernel.setStatus_self p .died
      rw [hqp, hdied]
      simp
    · rw [Kernel.without_tasks _ hqp, hb.born]
      simp [hqp]
  · obtain ⟨hmem, hblocked, hsema⟩ := hb.waiting a q hq
    have hne : q ≠ p := by
      rintro rfl
      exact hout a hq
    refine ⟨hnodup.mem_erase_iff.mpr ⟨hne, hmem⟩, ?_, hsema⟩
    change ((s.kernel.without p).tasks q).status = .blocked
    rw [Kernel.without_tasks _ hne]
    exact hblocked

theorem Inv.fresh (hi : s.Inv) : ∀ p ∈ s.kernel.threadAllList, p < s.kernel.nextTask := fun p hp =>
  ((hi.born p).mp hp).2.1

theorem Inv.withTask (hi : s.Inv) (pid : ℕ) {task : Task} (hready : task.status = .ready) :
    Inv { s with kernel := (s.kernel.takePid pid).withTask task } := by
  have hfirst : s.first ≤ s.kernel.nextTask := by
    obtain ⟨hle, hlt, -⟩ := (hi.born _).mp hi.sched.idle
    omega
  refine ⟨⟨fun p => ?_, hi.nodup, fun a p hp => ?_, hi.idle⟩,
    (hi.sched.takePid pid).withTask hi.fresh hready⟩
  · change p ∈ s.kernel.threadAllList ++ [s.kernel.nextTask] ↔ _ ≤ p ∧ p < s.kernel.nextTask + 1 ∧ _
    rw [List.mem_append, List.mem_singleton]
    by_cases hp : p = s.kernel.nextTask
    · have hself := (s.kernel.takePid pid).withTask_self task
      change ((s.kernel.takePid pid).withTask task).tasks s.kernel.nextTask = task at hself
      rw [hp, hself, hready]
      simp [hfirst]
    · rw [(s.kernel.takePid pid).withTask_of_ne task hp]
      change (p ∈ s.kernel.threadAllList ∨ p = s.kernel.nextTask) ↔
        _ ≤ p ∧ p < s.kernel.nextTask + 1 ∧ (s.kernel.tasks p).status ≠ .died
      rw [hi.born, or_iff_left hp]
      refine and_congr_right fun _ => and_congr_left fun _ => ?_
      omega
  · obtain ⟨hmem, hblocked, hsema⟩ := hi.waiting a p hp
    refine ⟨List.mem_append_left _ hmem, ?_, hsema⟩
    change (((s.kernel.takePid pid).withTask task).tasks p).status = .blocked
    rw [(s.kernel.takePid pid).withTask_of_ne task (hi.fresh p hmem).ne]
    exact hblocked

theorem Inv.same (hi : s.Inv) (h : SameTasks s.kernel k') : Inv { s with kernel := k' } :=
  ⟨hi.toBound.turns hi.sched.idle_status h.turns, hi.sched.same h.toSameProcs⟩

/-- The running thread waits for nothing. -/
theorem Inv.running_out (hi : s.Inv) (a : ℕ) : s.kernel.running ∉ (s.sema a).waiters := by
  intro hmem
  obtain ⟨-, hblocked, -⟩ := hi.waiting a _ hmem
  rw [show (s.kernel.tasks s.kernel.running).status = .running from hi.sched.status] at hblocked
  cases hblocked

/-- A thread that is in no `sema_down` waits for no semaphore. -/
theorem Bound.out_of_none (hb : s.Bound) {p : ℕ} (hp : s.inSema p = none) (a : ℕ) :
    p ∉ (s.sema a).waiters := by
  intro hmem
  obtain ⟨-, -, hsema⟩ := hb.waiting a p hmem
  rw [hp] at hsema
  cases hsema

/-! ### The events -/

/-- What an operation of the scheduler leaves holds again. -/
theorem Inv.of_turns (hi : s.Inv) (hs : Scheduled k') (ht : Turns s.kernel k') :
    Inv { s with kernel := k' } :=
  ⟨hi.toBound.turns hi.sched.idle_status ht, hs⟩

theorem Inv.block (hi : s.Inv) {status : TaskStatus}
    (hstatus : status = .blocked ∨ status = .waiting ∨ status = .hanging)
    (hidle : s.kernel.running = s.kernel.idleThread → status = .blocked) :
    (threadBlock status).succeeds (fun _ k' => Inv { s with kernel := k' }) s.kernel := by
  refine succeeds_mono (threadBlock_succeeds hi.sched hstatus hidle) ?_
  rintro - k' ⟨hs, ht⟩
  have hdied : status ≠ .died := by
    rcases hstatus with h | h | h <;> rw [h] <;> decide
  have hb := hi.toBound.setStatus hi.sched.mem hi.running_out hdied
  exact ⟨hb.turns (hi.sched.asleep hstatus hidle).idle_status ht, hs⟩

theorem Inv.unblock (hi : s.Inv) {p : ℕ} (hp : p ∈ s.kernel.threadAllList) (hsleeps : s.kernel.Sleeps p)
    (hout : ∀ a, p ∉ (s.sema a).waiters) : Inv { s with kernel := s.kernel.unblocked p } := by
  have hb := hi.toBound.setStatus hp hout (show TaskStatus.ready ≠ .died by decide)
  exact ⟨⟨hb.born, hb.nodup, hb.waiting, hb.idle⟩, hi.sched.unblocked hp hsleeps⟩

theorem Inv.leave (hi : s.Inv) (hidle : s.kernel.running ≠ s.kernel.idleThread) :
    (threadExit s.kernel.running true).succeeds (fun _ k' => Inv { s with kernel := k' }) s.kernel := by
  refine succeeds_mono (threadExit_self_succeeds hi.sched hidle) ?_
  rintro - k' ⟨hs, ht⟩
  have hb := hi.toBound.without hi.sched.all_nodup hi.running_out
  exact ⟨hb.turns (hi.sched.toParked.without hidle.symm).idle_status ht, hs⟩

theorem Inv.reap (hi : s.Inv) {c : ℕ} (hhang : (s.kernel.tasks c).status = .hanging) :
    (threadExit c false).succeeds (fun _ k' => Inv { s with kernel := k' }) s.kernel := by
  rw [threadExit_succeeds_iff, if_neg Bool.false_ne_true]
  have hidle : s.kernel.idleThread ≠ c := by
    rintro rfl
    have := hi.sched.idle_status
    rw [hhang] at this
    rcases this with h | h | h <;> cases h
  have hrun : s.kernel.running ≠ c := by
    rintro rfl
    rw [show (s.kernel.tasks s.kernel.running).status = .running from hi.sched.status] at hhang
    cases hhang
  have hout : ∀ a, c ∉ (s.sema a).waiters := by
    intro a hmem
    obtain ⟨-, hblocked, -⟩ := hi.waiting a c hmem
    rw [hhang] at hblocked
    cases hblocked
  exact ⟨hi.toBound.without hi.sched.all_nodup hout, hi.sched.without hidle hrun⟩

/-- A thread that finds the semaphore taken joins its waiters. -/
theorem Inv.semaDown_block (hi : s.Inv) (a : ℕ) (hidle : s.kernel.running ≠ s.kernel.idleThread) :
    (threadBlock .blocked).succeeds
      (fun _ k' => Inv ⟨k', Function.update s.sema a
          ⟨(s.sema a).value, (s.sema a).waiters ++ [s.kernel.running]⟩,
        Function.update s.inSema s.kernel.running (some a), s.first⟩) s.kernel := by
  have hblocked : TaskStatus.blocked = .blocked ∨ TaskStatus.blocked = .waiting ∨
      TaskStatus.blocked = .hanging := Or.inl rfl
  refine succeeds_mono (threadBlock_succeeds hi.sched hblocked fun _ => rfl) ?_
  rintro - k' ⟨hs, ht⟩
  have hb := hi.toBound.setStatus hi.sched.mem hi.running_out
    (show TaskStatus.blocked ≠ .died by decide)
  have hb' : Bound ⟨s.kernel.setStatus s.kernel.running .blocked, Function.update s.sema a
      ⟨(s.sema a).value, (s.sema a).waiters ++ [s.kernel.running]⟩,
      Function.update s.inSema s.kernel.running (some a), s.first⟩ := by
    refine ⟨hb.born, fun b => ?_, fun b p hp => ?_, ?_⟩
    · by_cases hba : b = a
      · subst hba
        simp only [Function.update_self]
        exact nodup_append_singleton (hi.nodup b) (hi.running_out b)
      · simp only [Function.update_of_ne hba]
        exact hi.nodup b
    · by_cases hpr : p = s.kernel.running
      · subst hpr
        have hba : b = a := by
          by_contra hba
          simp only [Function.update_of_ne hba] at hp
          exact hi.running_out b hp
        rw [hba]
        exact ⟨hi.sched.mem, s.kernel.setStatus_self _ _, Function.update_self _ _ _⟩
      · have hp' : p ∈ (s.sema b).waiters := by
          by_cases hba : b = a
          · subst hba
            simp only [Function.update_self, List.mem_append, List.mem_singleton] at hp
            exact hp.resolve_right hpr
          · simp only [Function.update_of_ne hba] at hp
            exact hp
        simp only [Function.update_of_ne hpr]
        exact hb.waiting b p hp'
    · change Function.update s.inSema s.kernel.running (some a) s.kernel.idleThread = none
      rw [Function.update_of_ne hidle.symm]
      exact hi.idle
  exact ⟨hb'.turns (hi.sched.asleep hblocked fun _ => rfl).idle_status ht, hs⟩

/-- The value of a semaphore is nothing to the scheduler. -/
theorem Inv.setValue (hi : s.Inv) (a value : ℕ) :
    Inv { s with sema := Function.update s.sema a ⟨value, (s.sema a).waiters⟩ } := by
  have hwaiters : ∀ b, (Function.update s.sema a ⟨value, (s.sema a).waiters⟩ b).waiters =
      (s.sema b).waiters := by
    intro b
    by_cases hba : b = a
    · rw [hba, Function.update_self]
    · rw [Function.update_of_ne hba]
  refine ⟨⟨hi.born, fun b => ?_, fun b p hp => ?_, hi.idle⟩, hi.sched⟩
  · simp only [hwaiters]
    exact hi.nodup b
  · simp only [hwaiters] at hp
    exact hi.waiting b p hp

/-- The running thread returns from `sema_down`. -/
theorem Inv.returnDown (hi : s.Inv) :
    Inv { s with inSema := Function.update s.inSema s.kernel.running none } := by
  refine ⟨⟨hi.born, hi.nodup, fun b p hp => ?_, ?_⟩, hi.sched⟩
  · obtain ⟨hmem, hblocked, hsema⟩ := hi.waiting b p hp
    have hne : p ≠ s.kernel.running := by
      rintro rfl
      exact hi.running_out b hp
    refine ⟨hmem, hblocked, ?_⟩
    simp only [Function.update_of_ne hne]
    exact hsema
  · change Function.update s.inSema s.kernel.running none s.kernel.idleThread = none
    by_cases heq : s.kernel.idleThread = s.kernel.running
    · rw [heq, Function.update_self]
    · rw [Function.update_of_ne heq]
      exact hi.idle

/-- The first waiter leaves the list. -/
theorem Inv.popWaiter (hi : s.Inv) {a q : ℕ} {rest : List ℕ} (hw : (s.sema a).waiters = q :: rest)
    (value : ℕ) :
    Inv { s with sema := Function.update s.sema a ⟨value, rest⟩ } ∧
      ∀ b, q ∉ (Function.update s.sema a ⟨value, rest⟩ b).waiters := by
  have hnodup := hi.nodup a
  rw [hw, List.nodup_cons] at hnodup
  have hsub : ∀ b, ∀ p ∈ (Function.update s.sema a ⟨value, rest⟩ b).waiters,
      p ∈ (s.sema b).waiters := by
    intro b p hp
    by_cases hba : b = a
    · subst hba
      rw [Function.update_self] at hp
      rw [hw]
      exact List.mem_cons_of_mem _ hp
    · rw [Function.update_of_ne hba] at hp
      exact hp
  refine ⟨⟨⟨hi.born, fun b => ?_, fun b p hp => hi.waiting b p (hsub b p hp), hi.idle⟩, hi.sched⟩,
    fun b hq => ?_⟩
  · by_cases hba : b = a
    · subst hba
      simp only [Function.update_self]
      exact hnodup.2
    · simp only [Function.update_of_ne hba]
      exact hi.nodup b
  · by_cases hba : b = a
    · subst hba
      rw [Function.update_self] at hq
      exact hnodup.1 hq
    · have hsema := (hi.waiting b q (hsub b q hq)).2.2
      have hsema' := (hi.waiting a q (by rw [hw]; exact List.mem_cons_self)).2.2
      rw [hsema, Option.some.injEq] at hsema'
      exact hba hsema'

/-- The events of the scheduler do not stop, and keep the invariant. -/
theorem Inv.succeeds (hi : s.Inv) {e : SchedEvent} (hen : e.Enabled s)
    (hok : e.ValueOk s) (hswitch : e.Switches) : e.body.succeeds (fun _ s' => s'.Inv) s := by
  cases e with
  | create prio => exact hswitch.elim
  | fork => exact hswitch.elim
  | tick =>
      refine succeeds_onKernel.mpr (succeeds_mono (intrTimerHandler_succeeds hi.sched) ?_)
      exact fun _ k' h => hi.of_turns h.1 h.2
  | yield =>
      refine succeeds_onKernel.mpr (succeeds_mono (threadYield_succeeds hi.sched) ?_)
      exact fun _ k' h => hi.of_turns h.1 h.2
  | block status =>
      obtain ⟨-, hstatus, hidle⟩ := hen
      exact succeeds_onKernel.mpr (hi.block hstatus hidle)
  | unblock p =>
      obtain ⟨-, hp, hsleeps, hnone⟩ := hen
      refine succeeds_onKernel.mpr (succeeds_mono
        (threadUnblock_succeeds hi.sched.toParked hsleeps) ?_)
      rintro - k' rfl
      exact hi.unblock hp hsleeps (hi.toBound.out_of_none hnone)
  | semaDown a =>
      obtain ⟨hidle, -⟩ := hen
      simp only [SchedEvent.body, BochsOs.semaDown, succeeds_bind, succeeds_read, succeeds_modify]
      split
      next hzero =>
        simp only [succeeds_bind, succeeds_assert, succeeds_write, succeeds_onKernel, succeeds_pure,
          decide_eq_true_eq]
        exact ⟨hi.running_out a, hi.semaDown_block a hidle⟩
      next hpos =>
        simp only [succeeds_bind, succeeds_assert, succeeds_write, succeeds_pure, decide_eq_true_eq]
        have hone : (s.sema a).value - 1 = 0 := by
          have : (s.sema a).value ≤ 1 := hok
          omega
        exact ⟨hone, (hi.setValue a _).returnDown⟩
  | semaUp a =>
      have hzero : (s.sema a).value = 0 := hok
      simp only [SchedEvent.body, BochsOs.semaUp, succeeds_bind, succeeds_read, succeeds_assert,
        decide_eq_true_eq]
      refine ⟨hzero, ?_⟩
      cases hw : (s.sema a).waiters with
      | nil =>
          have hi' := hi.setValue a ((s.sema a).value + 1)
          rw [hw] at hi'
          exact hi'
      | cons q rest =>
          obtain ⟨hmem, hblocked, -⟩ := hi.waiting a q (by rw [hw]; exact List.mem_cons_self)
          obtain ⟨hi', hout⟩ := hi.popWaiter hw ((s.sema a).value + 1)
          simp only [succeeds_bind, succeeds_write, succeeds_onKernel, succeeds_modify]
          refine succeeds_mono (threadUnblock_succeeds hi.sched.toParked (Or.inl hblocked)) ?_
          rintro - k' rfl
          have hup := hi'.unblock hmem (Or.inl hblocked) hout
          simpa only [Function.update_idem] using hup
  | leave =>
      obtain ⟨-, hidle⟩ := hen
      simp only [SchedEvent.body, succeeds_bind, succeeds_read]
      exact succeeds_onKernel.mpr (hi.leave hidle)
  | reap c =>
      obtain ⟨-, -, -, hhang, -⟩ := hen
      exact succeeds_onKernel.mpr (hi.reap hhang)

/-- Every event keeps the invariant. -/
theorem Inv.step (hi : s.Inv) {e : SchedEvent} {s' : Sched} (hs : s.Step e s') : s'.Inv := by
  obtain ⟨hen, hret⟩ := hs
  suffices hwp : e.body.wp (fun _ s' => s'.Inv) s from wp_iff_returns.mp hwp () s' hret
  by_cases hswitch : e.Switches
  · by_cases hok : e.ValueOk s
    · exact wp_of_succeeds (hi.succeeds hen hok hswitch)
    · -- the value of the semaphore fails an `ASSERT` of `sync.c`
      cases e with
      | semaDown a =>
          have hvalue : ¬ (s.sema a).value ≤ 1 := hok
          have hpos : (s.sema a).value ≠ 0 := by omega
          have hone : (s.sema a).value - 1 ≠ 0 := by omega
          simp only [SchedEvent.body, BochsOs.semaDown, wp_bind, wp_read, if_neg hpos, wp_write,
            wp_assert, decide_eq_true_eq]
          exact fun hcon => absurd hcon hone
      | semaUp a =>
          simp only [SchedEvent.body, BochsOs.semaUp, wp_bind, wp_read, wp_assert, decide_eq_true_eq]
          exact fun hcon => absurd hcon hok
      | _ => exact absurd trivial hok
  · cases e with
    | create prio =>
        simp only [SchedEvent.body, wp_bind, wp_onKernel, wp_pure]
        refine wp_mono threadCreate_spec ?_
        rintro - k' ⟨pid, rfl⟩
        exact hi.withTask pid rfl
    | fork =>
        simp only [SchedEvent.body, wp_bind, wp_onKernel, wp_pure]
        refine wp_mono sysFork_spec ?_
        intro r k' hforks
        cases hforks with
        | nothing => exact hi
        | number hpid hfree => exact ⟨⟨hi.born, hi.nodup, hi.waiting, hi.idle⟩, hi.sched.takePid _⟩
        | child hproc hpid hfree hsame => exact (hi.withTask _ rfl).same hsame
    | _ => exact absurd trivial hswitch

theorem Booted.inv (hb : s.Booted) : s.Inv := by
  obtain ⟨⟨k, hfirst, hret⟩, hsema, hin⟩ := hb
  have hboot := wp_iff_returns.mp (threadInit_boot k) _ _ hret
  rw [hfirst] at hboot
  refine ⟨⟨fun p => ?_, fun a => ?_, fun a p hp => ?_, hin _⟩, hboot.scheduled⟩
  · rw [hboot.all, hboot.next]
    simp only [List.mem_cons, List.not_mem_nil, or_false]
    constructor
    · rintro (rfl | rfl | rfl)
      · simp [hboot.init, initTask]
      · simp [hboot.main]
      · simp [hboot.idleTask, initTask]
    · rintro ⟨hle, hlt, -⟩
      omega
  · rw [hsema a]
    exact List.nodup_nil
  · rw [hsema a] at hp
    cases hp

theorem Inv.sound (hi : s.Inv) : s.Sound where
  one := by
    refine ⟨s.kernel.running, ⟨hi.sched.mem, hi.sched.status⟩, ?_⟩
    rintro p ⟨hp, hrun⟩
    exact hi.sched.one p hp hrun
  ready_nodup := hi.sched.ready_nodup
  ready := hi.sched.ready
  waiters_nodup := hi.nodup
  waiters a p hp := by
    obtain ⟨-, hblocked, hsema⟩ := hi.waiting a p hp
    refine ⟨hblocked, hi.sched.not_ready ?_, fun b hb hpb => ?_⟩
    · rw [hblocked]
      decide
    · obtain ⟨-, -, hsema'⟩ := hi.waiting b p hpb
      rw [hsema, Option.some.injEq] at hsema'
      exact hb hsema'.symm
  all_nodup := hi.sched.all_nodup
  all := hi.born
  idle hempty hidle := by
    rcases hi.sched.idle_status with h | h | h
    · have hmem := (hi.sched.ready _).mpr ⟨hi.sched.idle, h⟩
      rw [hempty] at hmem
      cases hmem
    · exact absurd (hi.sched.one _ hi.sched.idle h).symm hidle
    · exact h
  asserts e hen hok hswitch := succeeds_mono (hi.succeeds hen hok hswitch) fun _ _ _ => trivial

end Sched

/-- The scheduler is sound after every sequence of events. -/
theorem scheduler_sound (s : Sched)
    (hs : Reachable Sched.Booted Sched.Step (fun _ _ => True) s) : s.Sound := by
  have hi : s.Inv :=
    hs.invariant Sched.Inv (fun _ hb => hb.inv) (fun _ _ _ hinv _ hstep => hinv.step hstep)
  exact hi.sound

/-! ## A run -/

instance Kernel.decidableSleeps (k : Kernel) (p : ℕ) : Decidable (k.Sleeps p) := by
  unfold Kernel.Sleeps
  infer_instance

instance SchedEvent.decidableEnabled (s : Sched) (e : SchedEvent) : Decidable (e.Enabled s) := by
  cases e <;> unfold SchedEvent.Enabled <;> infer_instance

/-- One event, with every allocation successful. -/
def Sched.exec (s : Sched) (e : SchedEvent) : Option Sched :=
  if e.Enabled s then (e.body.exec [] s).map Prod.snd else none

theorem Sched.step_of_exec {s s' : Sched} {e : SchedEvent} (h : s.exec e = some s') : s.Step e s' := by
  obtain ⟨hen, h⟩ := Option.ite_none_right_eq_some.mp h
  obtain ⟨⟨⟨⟩, t⟩, hexec, rfl⟩ := Option.map_eq_some_iff.mp h
  exact ⟨hen, returns_of_exec hexec⟩

/-- After the boot, with semaphores of value one. -/
def bootSched : Option Sched :=
  (threadInit.exec [] default).map fun (_, k) => ⟨k, fun _ => ⟨1, []⟩, fun _ => none, 0⟩

theorem booted_of_bootSched {s : Sched} (h : bootSched = some s) : s.Booted := by
  obtain ⟨⟨⟨⟩, k⟩, hexec, rfl⟩ := Option.map_eq_some_iff.mp h
  exact ⟨⟨default, rfl, returns_of_exec hexec⟩, fun _ => rfl, fun _ => rfl⟩

/-- The main thread (at address 1) takes a semaphore and yields; `init` (at address 0)
waits for it, the idle thread blocks itself, and the main thread runs again. -/
theorem scheduler_sound_while_waiting :
    ∃ s, Reachable Sched.Booted Sched.Step (fun _ _ => True) s ∧ (s.sema 5).waiters = [0] ∧
      s.kernel.running = 1 ∧ (s.kernel.tasks 2).status = .blocked ∧ s.Sound := by
  have hrun : ((bootSched.bind (follow Sched.exec [.semaDown 5, .yield, .semaDown 5,
      .block .blocked])).map fun s => ((s.sema 5).waiters, s.kernel.running,
        (s.kernel.tasks 2).status)) = some ([0], 1, .blocked) := by
    decide +kernel
  obtain ⟨s, hs, hparts⟩ := Option.map_eq_some_iff.mp hrun
  obtain ⟨s₀, hboot, hfollow⟩ := Option.bind_eq_some_iff.mp hs
  simp only [Prod.mk.injEq] at hparts
  have hreach : Reachable Sched.Booted Sched.Step (fun _ _ => True) s := by
    refine Reachable.of_follow ?_ (.start (booted_of_bootSched hboot)) hfollow
    exact fun s e s' h => ⟨trivial, Sched.step_of_exec h⟩
  exact ⟨s, hreach, hparts.1, hparts.2.1, hparts.2.2, scheduler_sound s hreach⟩

end BochsOs
