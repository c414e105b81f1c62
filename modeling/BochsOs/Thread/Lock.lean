import BochsOs.Library.Runs
import BochsOs.Kernel.State

/-!
# Semaphores and locks

`thread/sync.c`, with the scheduler left free: a step runs any thread that is not
blocked through its next atomic piece.  The bodies of `sema_down` and `sema_up` run with
interrupts off and are one piece each, except that `sema_down` gives up the processor in
`thread_block`; every other statement of `lock_acquire` and `lock_release` is a piece of
its own.  A failed `ASSERT` is `none`.

A thread that `sema_up` wakes does not own the semaphore yet: it tests the value again
when it runs, and others may have taken the semaphore meanwhile.  `LockInv` is what holds
at all program points of all threads, and `lock_excludes` follows from it.

`holder_repeat_nr` is a `uint32_t` that nothing keeps from wrapping around: the holder that calls
`lock_acquire` at the nesting depth 2 ^ 32 - 1 brings it to 0 (`not_excludes_wrapped`), and its
next `lock_release` fails an `ASSERT`.  So `lock_excludes` is about the runs in which no thread
nests its calls so deeply.
-/

namespace BochsOs

open Runs

/-! ## The code -/

/-- `struct semaphore`. -/
structure Semaphore where
  value : ℕ
  waiters : List ℕ

/-- `struct lock`; the count is a `uint32_t`. -/
structure Lock where
  holder : Option ℕ
  semaphore : Semaphore
  holderRepeatNr : ℕ

/-- A lock and the status of the threads. -/
structure LockWorld where
  lock : Lock
  status : ℕ → TaskStatus

/-- `lock_init`. -/
def lockInit : Lock := ⟨none, ⟨1, []⟩, 0⟩

namespace LockWorld

variable (w : LockWorld)

/-- Change the semaphore of the lock. -/
def setSemaphore (semaphore : Semaphore) : LockWorld :=
  { w with lock := { w.lock with semaphore := semaphore } }

/-- Change the holder. -/
def setHolder (holder : Option ℕ) : LockWorld :=
  { w with lock := { w.lock with holder := holder } }

/-- Change the count. -/
def setRepeatNr (nr : ℕ) : LockWorld :=
  { w with lock := { w.lock with holderRepeatNr := nr } }

/-- Change the status of a thread. -/
def setStatus (p : ℕ) (status : TaskStatus) : LockWorld :=
  { w with status := Function.update w.status p status }

/-- `thread_block(TASK_BLOCKED)` and `thread_unblock`, as far as they concern a thread. -/
def threadUnblock (q : ℕ) : Option LockWorld :=
  if w.status q = .blocked ∨ w.status q = .waiting ∨ w.status q = .hanging then
    some (w.setStatus q .ready)
  else none

/-- `sema_down` by `p` from the test of the loop on: `true` if it went through, `false`
if `p` blocks and has to test again when it runs next. -/
def semaDown (p : ℕ) : Option (Bool × LockWorld) :=
  let sema := w.lock.semaphore
  if sema.value = 0 then
    if p ∈ sema.waiters then none
    else some (false, (w.setSemaphore ⟨sema.value, sema.waiters ++ [p]⟩).setStatus p .blocked)
  else if sema.value - 1 = 0 then some (true, w.setSemaphore ⟨sema.value - 1, sema.waiters⟩)
  else none

/-- `sema_up`. -/
def semaUp : Option LockWorld :=
  let sema := w.lock.semaphore
  if sema.value = 0 then
    match sema.waiters with
    | [] => some (w.setSemaphore ⟨sema.value + 1, []⟩)
    | q :: rest => (w.setSemaphore ⟨sema.value + 1, rest⟩).threadUnblock q
  else none

end LockWorld

/-- Where a thread is in the code of the lock. -/
inductive LockPoint where
  /-- Not in the code of the lock. -/
  | out
  /-- `lock_acquire`: at the test of `holder`. -/
  | acquire
  /-- At the call of `sema_down`. -/
  | down
  /-- Inside the loop of `sema_down`, after its `thread_block`. -/
  | downLoop
  /-- At `plock->holder = running_thread()`. -/
  | setHolder
  /-- At `ASSERT(plock->holder_repeat_nr == 0)`. -/
  | assertZero
  /-- At `plock->holder_repeat_nr = 1`. -/
  | setOne
  /-- At `plock->holder_repeat_nr++`. -/
  | increment
  /-- `lock_release`: at `ASSERT(plock->holder == running_thread())`. -/
  | release
  /-- At the test of `holder_repeat_nr`. -/
  | testRepeat
  /-- At `plock->holder_repeat_nr--`. -/
  | decrement
  /-- At `ASSERT(plock->holder_repeat_nr == 1)`. -/
  | assertOne
  /-- At `plock->holder = NULL`. -/
  | clearHolder
  /-- At `plock->holder_repeat_nr = 0`. -/
  | clearRepeat
  /-- At the call of `sema_up`. -/
  | up
  deriving DecidableEq, Repr

/-- The next piece of `lock_acquire` or `lock_release` by thread `p`: where it is then. -/
def LockWorld.exec (w : LockWorld) (p : ℕ) : LockPoint → Option (LockPoint × LockWorld)
  | .out => none
  | .acquire => some (if w.lock.holder = some p then .increment else .down, w)
  | .down => (w.semaDown p).map fun (through, w') => (if through then .setHolder else .downLoop, w')
  | .downLoop =>
      (w.semaDown p).map fun (through, w') => (if through then .setHolder else .downLoop, w')
  | .setHolder => some (.assertZero, w.setHolder (some p))
  | .assertZero => if w.lock.holderRepeatNr = 0 then some (.setOne, w) else none
  | .setOne => some (.out, w.setRepeatNr 1)
  | .increment => some (.out, w.setRepeatNr ((w.lock.holderRepeatNr + 1) % 2 ^ 32))
  | .release => if w.lock.holder = some p then some (.testRepeat, w) else none
  | .testRepeat => some (if 1 < w.lock.holderRepeatNr then .decrement else .assertOne, w)
  | .decrement => some (.out, w.setRepeatNr ((w.lock.holderRepeatNr + (2 ^ 32 - 1)) % 2 ^ 32))
  | .assertOne => if w.lock.holderRepeatNr = 1 then some (.clearHolder, w) else none
  | .clearHolder => some (.clearRepeat, w.setHolder none)
  | .clearRepeat => some (.up, w.setRepeatNr 0)
  | .up => w.semaUp.map fun w' => (.out, w')

/-! ## Any number of threads -/

/-- The lock, the program point of every thread, and how many more `lock_acquire`s than
`lock_release`s of a thread have returned. -/
structure LockSystem where
  world : LockWorld
  point : ℕ → LockPoint
  depth : ℕ → ℕ

/-- What thread does what. -/
inductive LockEvent where
  | acquire (p : ℕ)
  | release (p : ℕ)
  /-- The thread goes on with the call it is in. -/
  | run (p : ℕ)

/-- The nesting depth after the thread has gone on from a program point. -/
def depthAfter (point : LockPoint) (depth : ℕ) : ℕ :=
  match point with
  | .setOne | .increment => depth + 1
  | .decrement | .up => depth - 1
  | _ => depth

namespace LockSystem

/-- One step: only a thread that is not blocked takes one, and only a thread that holds
the lock calls `lock_release`. -/
def Step (s : LockSystem) (e : LockEvent) (s' : LockSystem) : Prop :=
  match e with
  | .acquire p => s.world.status p = .ready ∧ s.point p = .out ∧
      s' = { s with point := Function.update s.point p .acquire }
  | .release p => s.world.status p = .ready ∧ s.point p = .out ∧ 0 < s.depth p ∧
      s' = { s with point := Function.update s.point p .release }
  | .run p => s.world.status p = .ready ∧ ∃ point w, s.world.exec p (s.point p) = some (point, w) ∧
      s' = ⟨w, Function.update s.point p point,
        Function.update s.depth p (depthAfter (s.point p) (s.depth p))⟩

/-- The step, executed. -/
def next (s : LockSystem) : LockEvent → Option LockSystem
  | .acquire p =>
      if s.world.status p = .ready ∧ s.point p = .out then
        some { s with point := Function.update s.point p .acquire }
      else none
  | .release p =>
      if s.world.status p = .ready ∧ s.point p = .out ∧ 0 < s.depth p then
        some { s with point := Function.update s.point p .release }
      else none
  | .run p =>
      if s.world.status p = .ready then
        (s.world.exec p (s.point p)).map fun (point, w) => ⟨w, Function.update s.point p point,
          Function.update s.depth p (depthAfter (s.point p) (s.depth p))⟩
      else none

theorem step_of_next {s s' : LockSystem} {e : LockEvent} (h : s.next e = some s') :
    s.Step e s' := by
  cases e with
  | acquire p =>
      obtain ⟨⟨hready, hpoint⟩, h⟩ := Option.ite_none_right_eq_some.mp h
      exact ⟨hready, hpoint, (Option.some.inj h).symm⟩
  | release p =>
      obtain ⟨⟨hready, hpoint, hpos⟩, h⟩ := Option.ite_none_right_eq_some.mp h
      exact ⟨hready, hpoint, hpos, (Option.some.inj h).symm⟩
  | run p =>
      obtain ⟨hready, h⟩ := Option.ite_none_right_eq_some.mp h
      obtain ⟨⟨point, w⟩, hexec, h⟩ := Option.map_eq_some_iff.mp h
      exact ⟨hready, point, w, hexec, h.symm⟩

/-- The lock is initialised, and no thread has called it. -/
def Start (s : LockSystem) : Prop :=
  s.world.lock = lockInit ∧ (∀ p, s.world.status p = .ready) ∧ (∀ p, s.point p = .out) ∧
    ∀ p, s.depth p = 0

/-- The thread is between its outermost `lock_acquire` and the matching `lock_release`. -/
def Inside (s : LockSystem) (p : ℕ) : Prop :=
  0 < s.depth p ∧ (s.depth p = 1 → s.point p ∉
    [LockPoint.release, .testRepeat, .assertOne, .clearHolder, .clearRepeat, .up])

/-- The step does not nest the calls of a thread deeper than its count goes. -/
def Nests (s : LockSystem) : LockEvent → Prop
  | .acquire p => s.depth p + 1 < 2 ^ 32
  | _ => True

end LockSystem

/-! ## The invariant -/

namespace LockSystem

/-- The thread has taken the semaphore and not given it back. -/
def Owns (s : LockSystem) (p : ℕ) : Prop :=
  0 < s.depth p ∨ s.point p = .setHolder ∨ s.point p = .assertZero ∨ s.point p = .setOne

end LockSystem

/-- What a thread at a program point can rely on. -/
def PointOk (lock : Lock) (p depth : ℕ) : LockPoint → Prop
  | .out => depth < 2 ^ 32 ∧ (0 < depth → lock.holder = some p ∧ lock.holderRepeatNr = depth)
  | .acquire =>
      depth + 1 < 2 ^ 32 ∧ (0 < depth → lock.holder = some p ∧ lock.holderRepeatNr = depth)
  | .increment =>
      depth + 1 < 2 ^ 32 ∧ 0 < depth ∧ lock.holder = some p ∧ lock.holderRepeatNr = depth
  | .release | .testRepeat =>
      depth < 2 ^ 32 ∧ 0 < depth ∧ lock.holder = some p ∧ lock.holderRepeatNr = depth
  | .decrement =>
      depth < 2 ^ 32 ∧ 1 < depth ∧ lock.holder = some p ∧ lock.holderRepeatNr = depth
  | .assertOne | .clearHolder => depth = 1 ∧ lock.holder = some p ∧ lock.holderRepeatNr = 1
  | .clearRepeat => depth = 1 ∧ lock.holder = none ∧ lock.holderRepeatNr = 1
  | .up => depth = 1 ∧ lock.holder = none ∧ lock.holderRepeatNr = 0
  | .down | .downLoop => depth = 0
  | .setHolder => depth = 0 ∧ lock.holder = none ∧ lock.holderRepeatNr = 0
  | .assertZero | .setOne => depth = 0 ∧ lock.holder = some p ∧ lock.holderRepeatNr = 0

/-- The invariant of the lock. -/
structure LockInv (s : LockSystem) : Prop where
  point : ∀ p, PointOk s.world.lock p (s.depth p) (s.point p)
  unique : ∀ p q, s.Owns p → s.Owns q → p = q
  value : (s.world.lock.semaphore.value = 0 ∧ ∃ p, s.Owns p) ∨
    (s.world.lock.semaphore.value = 1 ∧ (∀ p, ¬ s.Owns p) ∧ s.world.lock.holder = none ∧
      s.world.lock.holderRepeatNr = 0)
  holder : ∀ p, s.world.lock.holder = some p → s.Owns p
  status : ∀ p, s.world.status p = .ready ∨ s.world.status p = .blocked
  waiters : ∀ p, p ∈ s.world.lock.semaphore.waiters ↔ s.world.status p = .blocked
  waiting : ∀ p ∈ s.world.lock.semaphore.waiters, s.point p = .downLoop
  nodup : s.world.lock.semaphore.waiters.Nodup
  /-- While the semaphore is free, a thread that was woken is on its way to it. -/
  woken : s.world.lock.semaphore.value = 1 → s.world.lock.semaphore.waiters ≠ [] →
    ∃ q, s.world.status q = .ready ∧ s.point q = .downLoop

/-- A thread that does not own the semaphore relies on nothing. -/
theorem pointOk_of_not_owns {s : LockSystem} {lock : Lock} {q : ℕ} (hq : ¬ s.Owns q)
    (h : PointOk s.world.lock q (s.depth q) (s.point q)) :
    PointOk lock q (s.depth q) (s.point q) := by
  unfold LockSystem.Owns at hq
  push Not at hq
  obtain ⟨hdepth, hset, hzero, hone⟩ := hq
  have hd : s.depth q = 0 := by omega
  cases hpt : s.point q <;> simp_all [PointOk]

/-- The rest of the system does not see a step of an owner that keeps the semaphore. -/
theorem LockInv.owner_step {s s' : LockSystem} {p : ℕ} (h : LockInv s) (hp : s.Owns p)
    (hstatus : s'.world.status = s.world.status)
    (hsema : s'.world.lock.semaphore = s.world.lock.semaphore)
    (hpoint : ∀ q, q ≠ p → s'.point q = s.point q) (hdepth : ∀ q, q ≠ p → s'.depth q = s.depth q)
    (hp' : s'.Owns p) (hok : PointOk s'.world.lock p (s'.depth p) (s'.point p))
    (hholder : s'.world.lock.holder = none ∨ s'.world.lock.holder = some p)
    (hnow : s'.point p ≠ .downLoop) (hready : s.world.status p = .ready) : LockInv s' := by
  have hother : ∀ q, q ≠ p → (s'.Owns q ↔ s.Owns q) := by
    intro q hq
    unfold LockSystem.Owns
    rw [hpoint q hq, hdepth q hq]
  have hnone : ∀ q, q ≠ p → ¬ s.Owns q := fun q hq hown => hq (h.unique q p hown hp)
  have honly : ∀ q, s'.Owns q → q = p := by
    intro q hq
    by_contra hne
    exact hnone q hne ((hother q hne).mp hq)
  have hzero : s.world.lock.semaphore.value = 0 := by
    rcases h.value with ⟨hv, -⟩ | ⟨-, hno, -⟩
    · exact hv
    · exact absurd hp (hno p)
  refine ⟨fun q => ?_, fun q q' hq hq' => (honly q hq).trans (honly q' hq').symm, ?_, fun q hq => ?_,
    ?_, ?_, fun q hq => ?_, ?_, fun hone => ?_⟩
  · by_cases hq : q = p
    · rw [hq]
      exact hok
    · rw [hpoint q hq, hdepth q hq]
      exact pointOk_of_not_owns (hnone q hq) (h.point q)
  · rw [hsema]
    exact Or.inl ⟨hzero, p, hp'⟩
  · rcases hholder with hh | hh
    · rw [hh] at hq
      cases hq
    · rw [hh, Option.some.injEq] at hq
      rw [← hq]
      exact hp'
  · rw [hstatus]
    exact h.status
  · rw [hstatus, hsema]
    exact h.waiters
  · rw [hsema] at hq
    have hne : q ≠ p := by
      rintro rfl
      rw [h.waiters, hready] at hq
      cases hq
    rw [hpoint q hne]
    exact h.waiting q hq
  · rw [hsema]
    exact h.nodup
  · rw [hsema, hzero] at hone
    cases hone

/-- A thread goes from one program point to another and changes nothing else. -/
theorem LockInv.move {s : LockSystem} {p : ℕ} {point : LockPoint} (h : LockInv s)
    (hready : s.world.status p = .ready) (hfrom : s.point p ≠ .downLoop)
    (hown : LockSystem.Owns { s with point := Function.update s.point p point } p ↔ s.Owns p)
    (hok : PointOk s.world.lock p (s.depth p) point) :
    LockInv { s with point := Function.update s.point p point } := by
  have howns : ∀ q, LockSystem.Owns { s with point := Function.update s.point p point } q ↔
      s.Owns q := by
    intro q
    by_cases hq : q = p
    · rw [hq]
      exact hown
    · unfold LockSystem.Owns
      dsimp only
      rw [Function.update_of_ne hq]
  refine ⟨fun q => ?_, fun q q' hq hq' => ?_, ?_, fun q hq => ?_, h.status, h.waiters, fun q hq => ?_,
    h.nodup, fun hone hne => ?_⟩
  · by_cases hq : q = p
    · subst hq
      dsimp only
      rw [Function.update_self]
      exact hok
    · dsimp only
      rw [Function.update_of_ne hq]
      exact h.point q
  · exact h.unique q q' ((howns q).mp hq) ((howns q').mp hq')
  · rcases h.value with ⟨hv, q, hq⟩ | ⟨hv, hno, hrest⟩
    · exact Or.inl ⟨hv, q, (howns q).mpr hq⟩
    · exact Or.inr ⟨hv, fun q hq => hno q ((howns q).mp hq), hrest⟩
  · exact (howns q).mpr (h.holder q hq)
  · have hne : q ≠ p := by
      rintro rfl
      rw [h.waiters, hready] at hq
      cases hq
    dsimp only
    rw [Function.update_of_ne hne]
    exact h.waiting q hq
  · obtain ⟨q, hq, hpt⟩ := h.woken hone hne
    have hne' : q ≠ p := by
      rintro rfl
      exact hfrom hpt
    refine ⟨q, hq, ?_⟩
    dsimp only
    rw [Function.update_of_ne hne']
    exact hpt

/-- `sema_down` goes through, or the thread joins the waiters. -/
theorem LockInv.semaDown {s : LockSystem} {p : ℕ} (h : LockInv s)
    (hready : s.world.status p = .ready) (hpoint : s.point p = .down ∨ s.point p = .downLoop) :
    ∃ through w, s.world.semaDown p = some (through, w) ∧
      LockInv ⟨w, Function.update s.point p (if through then .setHolder else .downLoop), s.depth⟩ := by
  have hdepth : s.depth p = 0 := by
    have := h.point p
    rcases hpoint with hpt | hpt <;> rw [hpt] at this <;> exact this
  have hnot : ¬ s.Owns p := by
    unfold LockSystem.Owns
    rcases hpoint with hpt | hpt <;> simp [hpt, hdepth]
  have hnotin : p ∉ s.world.lock.semaphore.waiters := by
    rw [h.waiters, hready]
    simp
  rcases h.value with ⟨hv, q₀, hq₀⟩ | ⟨hv, hno, hholder, hnr⟩
  · -- the semaphore is taken: `p` joins the waiters
    refine ⟨false, (s.world.setSemaphore
        ⟨0, s.world.lock.semaphore.waiters ++ [p]⟩).setStatus p .blocked,
      by simp only [LockWorld.semaDown, hv, if_true, if_neg hnotin], ?_⟩
    have howns : ∀ w q, LockSystem.Owns ⟨w, Function.update s.point p .downLoop, s.depth⟩ q ↔
        s.Owns q := by
      intro w q
      by_cases hq : q = p
      · subst hq
        simp only [LockSystem.Owns, Function.update_self, hdepth]
        rcases hpoint with hpt | hpt <;> simp [hpt]
      · simp only [LockSystem.Owns, Function.update_of_ne hq]
    refine ⟨fun q => ?_, fun q q' hq hq' => h.unique q q' ((howns _ q).mp hq) ((howns _ q').mp hq'),
      Or.inl ⟨rfl, q₀, (howns _ q₀).mpr hq₀⟩, fun q hq => (howns _ q).mpr (h.holder q hq), fun q => ?_,
      fun q => ?_, fun q hq => ?_, ?_, fun hone => ?_⟩
    · by_cases hq : q = p
      · subst hq
        simp only [Function.update_self]
        exact hdepth
      · simp only [Function.update_of_ne hq]
        exact h.point q
    · simp only [LockWorld.setStatus]
      by_cases hq : q = p
      · rw [hq, Function.update_self]
        exact Or.inr rfl
      · rw [Function.update_of_ne hq]
        exact h.status q
    · simp only [LockWorld.setStatus, LockWorld.setSemaphore, List.mem_append, List.mem_singleton]
      by_cases hq : q = p
      · simp [hq]
      · rw [Function.update_of_ne hq, h.waiters]
        simp [hq]
    · simp only [LockWorld.setStatus, LockWorld.setSemaphore, List.mem_append,
        List.mem_singleton] at hq
      by_cases hqp : q = p
      · rw [hqp]
        exact Function.update_self _ _ _
      · simp only [Function.update_of_ne hqp]
        exact h.waiting q (hq.resolve_right hqp)
    · simp only [LockWorld.setStatus, LockWorld.setSemaphore]
      exact List.nodup_append.mpr ⟨h.nodup, List.nodup_singleton p, by
        intro x hx y hy
        rw [List.mem_singleton.mp hy]
        rintro rfl
        exact hnotin hx⟩
    · cases hone
  · -- the semaphore is free: `p` takes it
    refine ⟨true, s.world.setSemaphore ⟨0, s.world.lock.semaphore.waiters⟩,
      by simp only [LockWorld.semaDown, hv]; rfl, ?_⟩
    have hown : ∀ w q, LockSystem.Owns ⟨w, Function.update s.point p .setHolder, s.depth⟩ q →
        q = p := by
      intro w q hq
      by_contra hne
      simp only [LockSystem.Owns, Function.update_of_ne hne] at hq
      exact hno q hq
    refine ⟨fun q => ?_, fun q q' hq hq' => (hown _ q hq).trans (hown _ q' hq').symm,
      Or.inl ⟨rfl, p, Or.inr (Or.inl (Function.update_self _ _ _))⟩, fun q hq => ?_, h.status, h.waiters,
      fun q hq => ?_, h.nodup, fun hone => ?_⟩
    · by_cases hq : q = p
      · subst hq
        simp only [if_true, Function.update_self]
        exact ⟨hdepth, hholder, hnr⟩
      · simp only [Function.update_of_ne hq]
        exact pointOk_of_not_owns (hno q) (h.point q)
    · simp only [LockWorld.setSemaphore, hholder] at hq
      cases hq
    · have hne : q ≠ p := by
        rintro rfl
        exact hnotin hq
      simp only [Function.update_of_ne hne]
      exact h.waiting q hq
    · cases hone

/-- `sema_up` by the owner: the semaphore is free, and a waiter is on its way. -/
theorem LockInv.semaUp {s : LockSystem} {p : ℕ} (h : LockInv s) (hready : s.world.status p = .ready)
    (hpoint : s.point p = .up) :
    ∃ w, s.world.semaUp = some w ∧
      LockInv ⟨w, Function.update s.point p .out, Function.update s.depth p (s.depth p - 1)⟩ := by
  obtain ⟨hdepth, hholder, hnr⟩ : s.depth p = 1 ∧ s.world.lock.holder = none ∧
      s.world.lock.holderRepeatNr = 0 := by
    have := h.point p
    rwa [hpoint] at this
  have hp : s.Owns p := Or.inl (by omega)
  have hv : s.world.lock.semaphore.value = 0 := by
    rcases h.value with ⟨hv, -⟩ | ⟨-, hno, -⟩
    · exact hv
    · exact absurd hp (hno p)
  have hnone : ∀ q, q ≠ p → ¬ s.Owns q := fun q hq hown => hq (h.unique q p hown hp)
  -- whatever becomes of the waiters, nobody owns the semaphore afterwards
  have hno : ∀ w q, ¬ LockSystem.Owns ⟨w, Function.update s.point p .out,
      Function.update s.depth p (s.depth p - 1)⟩ q := by
    intro w q hq
    by_cases hqp : q = p
    · subst hqp
      simp [LockSystem.Owns, hdepth] at hq
    · simp only [LockSystem.Owns, Function.update_of_ne hqp] at hq
      exact hnone q hqp hq
  have hpointOk : ∀ lock q, PointOk lock q (Function.update s.depth p (s.depth p - 1) q)
      (Function.update s.point p .out q) := by
    intro lock q
    by_cases hq : q = p
    · subst hq
      simp only [Function.update_self, hdepth]
      exact ⟨by omega, fun hpos => absurd hpos (by omega)⟩
    · simp only [Function.update_of_ne hq]
      exact pointOk_of_not_owns (hnone q hq) (h.point q)
  have hne : ∀ q ∈ s.world.lock.semaphore.waiters, q ≠ p := by
    rintro q hq rfl
    rw [h.waiters, hready] at hq
    cases hq
  cases hw : s.world.lock.semaphore.waiters with
  | nil =>
      refine ⟨s.world.setSemaphore ⟨1, []⟩, by simp only [LockWorld.semaUp, hv, hw]; rfl, ?_⟩
      refine ⟨hpointOk _, fun q q' hq => absurd hq (hno _ q), Or.inr ⟨rfl, hno _, hholder, hnr⟩,
        fun q hq => ?_, h.status, fun q => ?_, fun q hq => ?_, List.nodup_nil, fun _ hne => absurd rfl hne⟩
      · simp only [LockWorld.setSemaphore, hholder] at hq
        cases hq
      · have := h.waiters q
        rw [hw] at this
        exact this
      · simp [LockWorld.setSemaphore] at hq
  | cons q₀ rest =>
      have hblocked : s.world.status q₀ = .blocked := by
        rw [← h.waiters, hw]
        exact List.mem_cons_self
      have hq₀ : q₀ ≠ p := hne q₀ (by rw [hw]; exact List.mem_cons_self)
      have hnodup := h.nodup
      rw [hw, List.nodup_cons] at hnodup
      refine ⟨(s.world.setSemaphore ⟨1, rest⟩).setStatus q₀ .ready, ?_, ?_⟩
      · simp only [LockWorld.semaUp, hv, hw, if_true, LockWorld.threadUnblock]
        exact if_pos (Or.inl hblocked)
      refine ⟨hpointOk _, fun q q' hq => absurd hq (hno _ q), Or.inr ⟨rfl, hno _, hholder, hnr⟩,
        fun q hq => ?_, fun q => ?_, fun q => ?_, fun q hq => ?_, hnodup.2, fun _ _ => ⟨q₀, ?_, ?_⟩⟩
      · simp only [LockWorld.setStatus, LockWorld.setSemaphore, hholder] at hq
        cases hq
      · simp only [LockWorld.setStatus]
        by_cases hq : q = q₀
        · rw [hq, Function.update_self]
          exact Or.inl rfl
        · rw [Function.update_of_ne hq]
          exact h.status q
      · simp only [LockWorld.setStatus, LockWorld.setSemaphore]
        by_cases hq : q = q₀
        · rw [hq, Function.update_self]
          simp [hnodup.1]
        · rw [Function.update_of_ne hq, ← h.waiters q, hw]
          simp [hq]
      · have hmem : q ∈ s.world.lock.semaphore.waiters := by
          rw [hw]
          exact List.mem_cons_of_mem _ hq
        simp only [Function.update_of_ne (hne q hmem)]
        exact h.waiting q hmem
      · exact Function.update_self _ _ _
      · simp only [Function.update_of_ne hq₀]
        exact h.waiting q₀ (by rw [hw]; exact List.mem_cons_self)

/-- A thread that is not blocked gets through its next piece, and the invariant holds
again. -/
theorem LockInv.run {s : LockSystem} {p : ℕ} (h : LockInv s) (hready : s.world.status p = .ready)
    (hout : s.point p ≠ .out) :
    ∃ point w, s.world.exec p (s.point p) = some (point, w) ∧
      LockInv ⟨w, Function.update s.point p point,
        Function.update s.depth p (depthAfter (s.point p) (s.depth p))⟩ := by
  have hok := h.point p
  -- a step that only moves on
  have hmove : ∀ point, depthAfter (s.point p) (s.depth p) = s.depth p →
      LockInv { s with point := Function.update s.point p point } →
      LockInv ⟨s.world, Function.update s.point p point,
        Function.update s.depth p (depthAfter (s.point p) (s.depth p))⟩ := by
    intro point hdepth hinv
    rw [hdepth, Function.update_eq_self]
    exact hinv
  -- a step of an owner
  have howner : ∀ point w, s.Owns p → w.status = s.world.status →
      w.lock.semaphore = s.world.lock.semaphore →
      (0 < depthAfter (s.point p) (s.depth p) ∨ point = .assertZero) →
      PointOk w.lock p (depthAfter (s.point p) (s.depth p)) point →
      (w.lock.holder = none ∨ w.lock.holder = some p) → point ≠ .downLoop →
      LockInv ⟨w, Function.update s.point p point,
        Function.update s.depth p (depthAfter (s.point p) (s.depth p))⟩ := by
    intro point w hp hstatus hsema hown hpoint hholder hne
    refine h.owner_step hp hstatus hsema (fun q hq => Function.update_of_ne hq _ _)
      (fun q hq => Function.update_of_ne hq _ _) ?_ ?_ hholder ?_ hready
    · simp only [LockSystem.Owns, Function.update_self]
      rcases hown with hown | hown
      · exact Or.inl hown
      · exact Or.inr (Or.inr (Or.inl hown))
    · simp only [Function.update_self]
      exact hpoint
    · simp only [Function.update_self]
      exact hne
  cases hpt : s.point p with
  | out => exact absurd hpt hout
  | acquire =>
      rw [hpt] at hok hmove
      refine ⟨_, _, rfl, hmove _ rfl (h.move hready (by simp [hpt]) ?_ ?_)⟩
      · simp only [LockSystem.Owns, Function.update_self, hpt]
        split <;> simp
      · split
        next hself =>
          have hown : 0 < s.depth p := by
            have := h.holder p hself
            simpa [LockSystem.Owns, hpt] using this
          exact ⟨hok.1, hown, hok.2 hown⟩
        next hself =>
          by_contra hpos
          exact hself (hok.2 (Nat.pos_of_ne_zero hpos)).1
  | down =>
      obtain ⟨through, w, hw, hinv⟩ := h.semaDown hready (Or.inl hpt)
      refine ⟨if through then .setHolder else .downLoop, w, by simp [LockWorld.exec, hw], ?_⟩
      simp only [depthAfter, Function.update_eq_self]
      exact hinv
  | downLoop =>
      obtain ⟨through, w, hw, hinv⟩ := h.semaDown hready (Or.inr hpt)
      refine ⟨if through then .setHolder else .downLoop, w, by simp [LockWorld.exec, hw], ?_⟩
      simp only [depthAfter, Function.update_eq_self]
      exact hinv
  | setHolder =>
      rw [hpt] at hok howner
      refine ⟨_, _, rfl, howner _ _ (by simp [LockSystem.Owns, hpt]) rfl rfl (Or.inr rfl) ?_
        (Or.inr rfl) (by simp)⟩
      exact ⟨hok.1, rfl, hok.2.2⟩
  | assertZero =>
      rw [hpt] at hok hmove
      refine ⟨.setOne, s.world, if_pos hok.2.2, hmove _ rfl (h.move hready (by simp [hpt]) ?_ hok)⟩
      simp [LockSystem.Owns, hpt]
  | setOne =>
      rw [hpt] at hok howner
      refine ⟨_, _, rfl, howner _ _ (by simp [LockSystem.Owns, hpt]) rfl rfl
        (Or.inl (Nat.succ_pos _)) ?_ (Or.inr hok.2.1) (by simp)⟩
      simp only [depthAfter, hok.1]
      exact ⟨by omega, fun _ => ⟨hok.2.1, rfl⟩⟩
  | increment =>
      rw [hpt] at hok howner
      obtain ⟨hshort, hpos, hholder, hnr⟩ := hok
      refine ⟨_, _, rfl, howner _ _ (Or.inl hpos) rfl rfl (Or.inl (Nat.succ_pos _)) ?_
        (Or.inr hholder) (by simp)⟩
      refine ⟨hshort, fun _ => ⟨hholder, ?_⟩⟩
      -- the count does not wrap around
      simp only [depthAfter, LockWorld.setRepeatNr, hnr]
      exact Nat.mod_eq_of_lt hshort
  | release =>
      rw [hpt] at hok hmove
      refine ⟨.testRepeat, s.world, if_pos hok.2.2.1,
        hmove _ rfl (h.move hready (by simp [hpt]) ?_ hok)⟩
      simp [LockSystem.Owns, hpt]
  | testRepeat =>
      rw [hpt] at hok hmove
      obtain ⟨hshort, hpos, hholder, hnr⟩ := hok
      refine ⟨_, _, rfl, hmove _ rfl (h.move hready (by simp [hpt]) ?_ ?_)⟩
      · simp only [LockSystem.Owns, Function.update_self, hpt]
        split <;> simp
      · split
        next hgt => exact ⟨hshort, by omega, hholder, hnr⟩
        next hle =>
          have hone : s.depth p = 1 := by omega
          exact ⟨hone, hholder, hnr.trans hone⟩
  | decrement =>
      rw [hpt] at hok howner
      obtain ⟨hshort, hgt, hholder, hnr⟩ := hok
      have hpos : 0 < depthAfter .decrement (s.depth p) := by
        simp only [depthAfter]
        omega
      have hcount : (s.world.lock.holderRepeatNr + (2 ^ 32 - 1)) % 2 ^ 32 = s.depth p - 1 := by omega
      refine ⟨.out, s.world.setRepeatNr (s.depth p - 1), ?_,
        howner .out (s.world.setRepeatNr (s.depth p - 1)) (Or.inl (by omega)) rfl rfl (Or.inl hpos) ?_
          (Or.inr hholder) (by simp)⟩
      · rw [LockWorld.exec, hcount]
      · simp only [depthAfter]
        exact ⟨by omega, fun _ => ⟨hholder, rfl⟩⟩
  | assertOne =>
      rw [hpt] at hok hmove
      refine ⟨.clearHolder, s.world, if_pos hok.2.2,
        hmove _ rfl (h.move hready (by simp [hpt]) ?_ hok)⟩
      simp [LockSystem.Owns, hpt]
  | clearHolder =>
      rw [hpt] at hok howner
      obtain ⟨hdepth, hholder, hnr⟩ := hok
      refine ⟨_, _, rfl, howner _ _ (Or.inl (by omega)) rfl rfl
        (Or.inl (by simp only [depthAfter]; omega)) ?_ (Or.inl rfl) (by simp)⟩
      exact ⟨hdepth, rfl, hnr⟩
  | clearRepeat =>
      rw [hpt] at hok howner
      obtain ⟨hdepth, hholder, hnr⟩ := hok
      refine ⟨_, _, rfl, howner _ _ (Or.inl (by omega)) rfl rfl
        (Or.inl (by simp only [depthAfter]; omega)) ?_ (Or.inl hholder) (by simp)⟩
      exact ⟨hdepth, hholder, rfl⟩
  | up =>
      obtain ⟨w, hw, hinv⟩ := h.semaUp hready hpt
      exact ⟨.out, w, by simp [LockWorld.exec, hw], hinv⟩

/-- The invariant holds before the first call. -/
theorem LockSystem.Start.lockInv {s : LockSystem} (h : s.Start) : LockInv s := by
  obtain ⟨hlock, hstatus, hpoint, hdepth⟩ := h
  have hno : ∀ p, ¬ s.Owns p := by
    intro p
    simp [LockSystem.Owns, hpoint p, hdepth p]
  refine ⟨fun p => ?_, fun p q hp => absurd hp (hno p), Or.inr ⟨?_, hno, ?_, ?_⟩, fun p hp => ?_,
    fun p => Or.inl (hstatus p), fun p => ?_, fun p hp => ?_, ?_, fun _ hne => ?_⟩
  · rw [hpoint p, hdepth p]
    exact ⟨by omega, fun hpos => absurd hpos (by omega)⟩
  · rw [hlock]
    rfl
  · rw [hlock]
    rfl
  · rw [hlock]
    rfl
  · rw [hlock] at hp
    cases hp
  · rw [hlock, hstatus p]
    simp [lockInit]
  · rw [hlock] at hp
    cases hp
  · rw [hlock]
    exact List.nodup_nil
  · rw [hlock] at hne
    exact absurd rfl hne

/-- Every step that does not nest too deeply keeps the invariant. -/
theorem LockInv.step {s s' : LockSystem} {e : LockEvent} (h : LockInv s) (hn : s.Nests e)
    (hs : s.Step e s') :
    LockInv s' := by
  cases e with
  | acquire p =>
      obtain ⟨hready, hpoint, rfl⟩ := hs
      have hok := h.point p
      rw [hpoint] at hok
      refine h.move hready (by simp [hpoint]) ?_ ⟨hn, hok.2⟩
      simp [LockSystem.Owns, hpoint]
  | release p =>
      obtain ⟨hready, hpoint, hpos, rfl⟩ := hs
      have hok := h.point p
      rw [hpoint] at hok
      refine h.move hready (by simp [hpoint]) ?_ ⟨hok.1, hpos, hok.2 hpos⟩
      simp [LockSystem.Owns, hpoint]
  | run p =>
      obtain ⟨hready, point, w, hexec, rfl⟩ := hs
      have hout : s.point p ≠ .out := by
        intro hpt
        rw [hpt] at hexec
        cases hexec
      obtain ⟨point', w', hexec', hinv⟩ := h.run hready hout
      rw [hexec, Option.some.injEq, Prod.mk.injEq] at hexec'
      rw [hexec'.1, hexec'.2]
      exact hinv

/-- A thread inside is the holder, as often as it has acquired the lock. -/
theorem LockInv.inside {s : LockSystem} {p : ℕ} (h : LockInv s) (hp : s.Inside p) :
    s.world.lock.holder = some p ∧ s.world.lock.holderRepeatNr = s.depth p := by
  obtain ⟨hpos, hpoint⟩ := hp
  have hok := h.point p
  cases hpt : s.point p <;> rw [hpt] at hok hpoint
  case out => exact hok.2 hpos
  case acquire => exact hok.2 hpos
  case increment => exact hok.2.2
  case release => exact hok.2.2
  case testRepeat => exact hok.2.2
  case decrement => exact hok.2.2
  all_goals
    simp only [PointOk] at hok
    first
      | exact absurd hok.1 (by omega)
      | exact absurd hok (by omega)
      | exact absurd (hpoint hok.1) (by simp)

/-! ## Mutual exclusion -/

/-- The property of a state of the system: at most one thread is inside, the lock records
it with its nesting depth, no thread is about to fail an `ASSERT`, and a free semaphore
with waiters has a woken thread on its way to it. -/
def LockSystem.Excludes (s : LockSystem) : Prop :=
  (∀ p q, s.Inside p → s.Inside q → p = q) ∧
    (∀ p, s.Inside p → s.world.lock.holder = some p ∧ s.world.lock.holderRepeatNr = s.depth p) ∧
    (∀ p, s.world.status p = .ready → s.point p ≠ .out → (s.world.exec p (s.point p)).isSome) ∧
    (s.world.lock.semaphore.value = 1 → s.world.lock.semaphore.waiters ≠ [] →
      ∃ q, q ∉ s.world.lock.semaphore.waiters ∧ s.world.status q = .ready ∧ s.point q = .downLoop)

/-- In every interleaving in which no thread nests its calls too deeply, the lock excludes and
forgets no waiter. -/
theorem lock_excludes (s : LockSystem)
    (hs : Reachable LockSystem.Start LockSystem.Step LockSystem.Nests s) : s.Excludes := by
  have h : LockInv s :=
    hs.invariant LockInv (fun _ hstart => hstart.lockInv)
      (fun _ _ _ hinv hnests hstep => hinv.step hnests hstep)
  refine ⟨fun p q hp hq => h.unique p q (Or.inl hp.1) (Or.inl hq.1), fun p hp => h.inside hp,
    fun p hready hout => ?_, fun hvalue hne => ?_⟩
  · obtain ⟨point, w, hexec, -⟩ := h.run hready hout
    rw [hexec]
    rfl
  · obtain ⟨q, hready, hpoint⟩ := h.woken hvalue hne
    refine ⟨q, fun hmem => ?_, hready, hpoint⟩
    rw [h.waiters, hready] at hmem
    cases hmem

/-- Every thread before its first call. -/
def lockStart : LockSystem := ⟨⟨lockInit, fun _ => .ready⟩, fun _ => .out, fun _ => 0⟩

instance (s : LockSystem) (e : LockEvent) : Decidable (s.Nests e) :=
  match e with
  | .acquire p => inferInstanceAs (Decidable (s.depth p + 1 < 2 ^ 32))
  | .release _ => isTrue trivial
  | .run _ => isTrue trivial

/-- Two threads wait for the lock when it is released by a thread that has nested two calls: one
is woken and the other still waits, with the semaphore free. -/
theorem lock_excludes_after_wakeup :
    ∃ s, Reachable LockSystem.Start LockSystem.Step LockSystem.Nests s ∧
      s.world.lock.semaphore.value = 1 ∧ s.world.lock.semaphore.waiters = [2] ∧ s.Excludes := by
  have hrun : (follow (fun s e => if LockSystem.Nests s e then s.next e else none)
      [.acquire 0, .run 0, .run 0, .run 0, .run 0, .run 0, .acquire 0, .run 0, .run 0, .acquire 1,
        .run 1, .run 1, .release 0, .run 0, .run 0, .run 0, .acquire 2, .run 2, .run 2, .release 0,
        .run 0, .run 0, .run 0, .run 0, .run 0, .run 0]
      lockStart).map (fun s => decide (s.world.lock.semaphore.value = 1 ∧
        s.world.lock.semaphore.waiters = [2])) = some true := by
    decide +kernel
  obtain ⟨s, hs, hwoken⟩ := Option.map_eq_some_iff.mp hrun
  have hreach : Reachable LockSystem.Start LockSystem.Step LockSystem.Nests s := by
    refine Reachable.of_follow ?_ (.start ⟨rfl, fun _ => rfl, fun _ => rfl, fun _ => rfl⟩) hs
    intro s e s' h
    obtain ⟨hnests, hnext⟩ := Option.ite_none_right_eq_some.mp h
    exact ⟨hnests, LockSystem.step_of_next hnext⟩
  obtain ⟨hvalue, hwaiters⟩ := of_decide_eq_true hwoken
  exact ⟨s, hreach, hvalue, hwaiters, lock_excludes s hreach⟩

/-! ## The count wraps around -/

/-- Thread 0 has nested `n` calls of `lock_acquire`. -/
def nested (n : ℕ) : LockSystem :=
  ⟨⟨⟨some 0, ⟨0, []⟩, n % 2 ^ 32⟩, fun _ => .ready⟩, fun _ => .out, fun p => if p = 0 then n else 0⟩

/-- Any state with the same fields. -/
theorem lockSystem_ext {s t : LockSystem} (hlock : s.world.lock = t.world.lock)
    (hstatus : ∀ p, s.world.status p = t.world.status p) (hpoint : ∀ p, s.point p = t.point p)
    (hdepth : ∀ p, s.depth p = t.depth p) : s = t := by
  obtain ⟨⟨lock, status⟩, point, depth⟩ := s
  obtain ⟨⟨lock', status'⟩, point', depth'⟩ := t
  rw [show lock = lock' from hlock, show status = status' from funext hstatus,
    show point = point' from funext hpoint, show depth = depth' from funext hdepth]

/-- The outermost call, and every further one, returns. -/
theorem reachable_nested (n : ℕ) :
    Reachable LockSystem.Start LockSystem.Step (fun _ _ => True) (nested (n + 1)) := by
  have hexec : ∀ (s : LockSystem) (e : LockEvent) (s' : LockSystem), s.next e = some s' →
      True ∧ s.Step e s' := fun s e s' h => ⟨trivial, LockSystem.step_of_next h⟩
  induction n with
  | zero =>
      have hfirst : follow LockSystem.next
          [.acquire 0, .run 0, .run 0, .run 0, .run 0, .run 0] lockStart = some (nested 1) := by
        refine congrArg some (lockSystem_ext rfl (fun _ => rfl) (fun p => ?_) fun p => ?_)
        · by_cases hp : p = 0 <;> simp [hp, nested, lockStart]
        · by_cases hp : p = 0 <;> simp [hp, nested, lockStart, lockInit, depthAfter]
      exact Reachable.of_follow hexec (.start ⟨rfl, fun _ => rfl, fun _ => rfl, fun _ => rfl⟩) hfirst
  | succ n ih =>
      have hagain : follow LockSystem.next [.acquire 0, .run 0, .run 0] (nested (n + 1)) =
          some (nested (n + 2)) := by
        refine congrArg some (lockSystem_ext ?_ (fun _ => rfl) (fun p => ?_) fun p => ?_)
        · exact congrArg (Lock.mk (some 0) ⟨0, []⟩) (Nat.mod_add_mod ..)
        · by_cases hp : p = 0 <;> simp [hp, nested]
        · by_cases hp : p = 0 <;> simp [hp, nested, depthAfter]
      exact Reachable.of_follow hexec ih hagain

/-- After 2 ^ 32 nested calls of one thread the count is 0. -/
theorem not_excludes_wrapped :
    ∃ s, Reachable LockSystem.Start LockSystem.Step (fun _ _ => True) s ∧ s.depth 0 = 2 ^ 32 ∧
      s.world.lock.holderRepeatNr = 0 ∧ ¬ s.Excludes := by
  refine ⟨nested (2 ^ 32), reachable_nested (2 ^ 32 - 1), rfl, rfl, fun h => ?_⟩
  have hinside : (nested (2 ^ 32)).Inside 0 := ⟨by decide, fun hone => absurd hone (by decide)⟩
  have hcount : (0 : ℕ) = 2 ^ 32 := (h.2.1 0 hinside).2
  omega

end BochsOs
