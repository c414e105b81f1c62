import BochsOs.Device.Ioqueue
import BochsOs.Thread.Lock

/-!
# A byte queue shared by threads

`ioq_getchar` and `ioq_putchar` with their lock and waiters, called by any number of
threads with interrupts off.  A call runs until it blocks, in the `sema_down` of
`lock_acquire` or in `ioq_wait`, and goes on from there once the thread has been woken.

Both functions look at the queue, take the lock and sleep.  Taking the lock may block,
and the queue may have changed when the thread gets it; it sleeps all the same.
`sleepers_wait_for_queue` says that nothing else puts a thread to sleep on a queue that
it could use, and `queue_is_fifo` that no byte is lost, duplicated or reordered whatever
the order of the threads.
-/

namespace BochsOs

open Runs

/-! ## The lock, taken and released without a switch -/

namespace LockWorld

variable (w : LockWorld)

/-- `lock_acquire` from the loop of `sema_down` on; `false` if the thread blocks there. -/
def lockDown (p : ℕ) : Option (Bool × LockWorld) := do
  let (through, w) ← w.semaDown p
  if through then
    if w.lock.holderRepeatNr = 0 then return (true, (w.setHolder (some p)).setRepeatNr 1) else none
  else return (false, w)

/-- `lock_acquire`. -/
def lockAcquire (p : ℕ) : Option (Bool × LockWorld) :=
  if w.lock.holder = some p then some (true, w.setRepeatNr (w.lock.holderRepeatNr + 1))
  else w.lockDown p

/-- `lock_release`. -/
def lockRelease (p : ℕ) : Option LockWorld :=
  if w.lock.holder = some p then
    if 1 < w.lock.holderRepeatNr then some (w.setRepeatNr (w.lock.holderRepeatNr - 1))
    else if w.lock.holderRepeatNr = 1 then ((w.setHolder none).setRepeatNr 0).semaUp
    else none
  else none

end LockWorld

/-! ## The queue with its waiters -/

/-- `struct ioqueue`, and the status of the threads. -/
structure QueueWorld where
  ioq : Ioqueue
  threads : LockWorld
  producer : Option ℕ
  consumer : Option ℕ

/-- A call of the queue. -/
inductive QueueCall where
  | getchar
  | putchar (byte : UInt8)
  deriving DecidableEq, Repr

namespace QueueCall

/-- What a call waits for the end of. -/
def busy : QueueCall → Ioqueue → Bool
  | .getchar => ioqEmpty
  | .putchar _ => ioqFull

/-- `ioq_wait` on the waiter of the call. -/
def ioqWait (call : QueueCall) (p : ℕ) (q : QueueWorld) : Option QueueWorld :=
  match call with
  | .getchar =>
      if q.consumer = none then
        some { q with consumer := some p, threads := q.threads.setStatus p .blocked }
      else none
  | .putchar _ =>
      if q.producer = none then
        some { q with producer := some p, threads := q.threads.setStatus p .blocked }
      else none

/-- The call after its loop: the byte is moved and a waiter on the other side is woken
with `ioq_wake`. -/
def transfer (call : QueueCall) (q : QueueWorld) : Option QueueWorld :=
  match call with
  | .getchar =>
      let q' := { q with ioq := { q.ioq with tail := nextPos q.ioq.tail } }
      match q.producer with
      | none => some q'
      | some p => (q.threads.threadUnblock p).map fun threads =>
          { q' with threads := threads, producer := none }
  | .putchar byte =>
      let q' := { q with ioq := { q.ioq with
        buf := Function.update q.ioq.buf q.ioq.head byte, head := nextPos q.ioq.head } }
      match q.consumer with
      | none => some q'
      | some p => (q.threads.threadUnblock p).map fun threads =>
          { q' with threads := threads, consumer := none }

end QueueCall

/-- Where a thread is between two of its turns. -/
inductive QueuePoint where
  /-- Not in a call. -/
  | out
  /-- Blocked in the `lock_acquire` of the call. -/
  | locking (call : QueueCall)
  /-- Blocked in the `ioq_wait` of the call. -/
  | sleeping (call : QueueCall)
  deriving DecidableEq, Repr

/-- The queue, the point of every thread, and the bytes stored and returned so far. -/
structure QueueSystem where
  world : QueueWorld
  point : ℕ → QueuePoint
  stored : List UInt8
  returned : List UInt8

namespace QueueSystem

variable (s : QueueSystem)

/-- A thread stops at a point. -/
def stopAt (p : ℕ) (point : QueuePoint) (q : QueueWorld) : QueueSystem :=
  { s with world := q, point := Function.update s.point p point }

/-- The call returns. -/
def finish (p : ℕ) (call : QueueCall) : Option QueueSystem :=
  (call.transfer s.world).map fun q =>
    { stopAt s p .out q with
      stored := match call with
        | .getchar => s.stored
        | .putchar byte => s.stored ++ [byte]
      returned := match call with
        | .getchar => s.returned ++ [s.world.ioq.buf s.world.ioq.tail]
        | .putchar _ => s.returned }

/-- After the lock has been tried for: the thread sleeps in `ioq_wait`, or it blocks. -/
def afterLock (p : ℕ) (call : QueueCall) (locked : Option (Bool × LockWorld)) :
    Option QueueSystem := do
  let (through, threads) ← locked
  let q := { s.world with threads := threads }
  if through then
    let q ← call.ioqWait p q
    return s.stopAt p (.sleeping call) q
  else return s.stopAt p (.locking call) q

/-- The call from the test of its loop on. -/
def loop (p : ℕ) (call : QueueCall) : Option QueueSystem :=
  if call.busy s.world.ioq then s.afterLock p call (s.world.threads.lockAcquire p)
  else s.finish p call

/-- The call goes on after the thread has been woken. -/
def resume (p : ℕ) : Option QueueSystem :=
  match s.point p with
  | .out => none
  | .locking call => s.afterLock p call (s.world.threads.lockDown p)
  | .sleeping call => do
      let threads ← s.world.threads.lockRelease p
      loop { s with world := { s.world with threads := threads } } p call

end QueueSystem

/-- A thread calls the queue, or goes on with its call. -/
inductive QueueEvent where
  | call (p : ℕ) (call : QueueCall)
  | run (p : ℕ)

namespace QueueSystem

/-- One turn of a thread that is not blocked. -/
def next (s : QueueSystem) : QueueEvent → Option QueueSystem
  | .call p call =>
      if s.world.threads.status p = .ready ∧ s.point p = .out then s.loop p call else none
  | .run p => if s.world.threads.status p = .ready then s.resume p else none

/-- The system takes a turn. -/
def Turn (s : QueueSystem) (e : QueueEvent) (s' : QueueSystem) : Prop := s.next e = some s'

/-- After `ioqueue_init`: the lock is free and the queue is empty, with any bytes in its
buffer. -/
def Start (s : QueueSystem) : Prop :=
  s.world.ioq.head = 0 ∧ s.world.ioq.tail = 0 ∧ s.world.threads.lock = lockInit ∧
    s.world.producer = none ∧ s.world.consumer = none ∧
    (∀ p, s.world.threads.status p = .ready) ∧ (∀ p, s.point p = .out) ∧
    s.stored = [] ∧ s.returned = []

end QueueSystem

/-! ## What a turn does to the queue -/

namespace QueueSystem

variable {s s' : QueueSystem} {p : ℕ} {call : QueueCall}

/-- The turn leaves the queue, its waiters and the bytes alone. -/
structure Keeps (s s' : QueueSystem) : Prop where
  ioq : s'.world.ioq = s.world.ioq
  producer : s'.world.producer = s.world.producer
  consumer : s'.world.consumer = s.world.consumer
  stored : s'.stored = s.stored
  returned : s'.returned = s.returned

/-- The turn ends in `ioq_wait`. -/
structure Sleeps (call : QueueCall) (s s' : QueueSystem) : Prop where
  ioq : s'.world.ioq = s.world.ioq
  waiters : match call with
    | .getchar => s'.world.consumer ≠ none ∧ s'.world.producer = s.world.producer
    | .putchar _ => s'.world.producer ≠ none ∧ s'.world.consumer = s.world.consumer
  stored : s'.stored = s.stored
  returned : s'.returned = s.returned

/-- The turn moves the byte of the call. -/
def Moves (call : QueueCall) (s s' : QueueSystem) : Prop :=
  match call with
  | .getchar =>
      s'.world.ioq = { s.world.ioq with tail := nextPos s.world.ioq.tail } ∧
        s'.world.producer = none ∧ s'.world.consumer = s.world.consumer ∧ s'.stored = s.stored ∧
        s'.returned = s.returned ++ [s.world.ioq.buf s.world.ioq.tail]
  | .putchar byte =>
      s'.world.ioq = { s.world.ioq with
          buf := Function.update s.world.ioq.buf s.world.ioq.head byte
          head := nextPos s.world.ioq.head } ∧
        s'.world.consumer = none ∧ s'.world.producer = s.world.producer ∧
        s'.stored = s.stored ++ [byte] ∧ s'.returned = s.returned

theorem finish_spec (h : s.finish p call = some s') : Moves call s s' := by
  obtain ⟨q, hq, rfl⟩ := Option.map_eq_some_iff.mp h
  cases call with
  | getchar =>
      cases hwaiter : s.world.producer with
      | none =>
          simp only [QueueCall.transfer, hwaiter, Option.some.injEq] at hq
          subst hq
          exact ⟨rfl, rfl, rfl, rfl, rfl⟩
      | some r =>
          simp only [QueueCall.transfer, hwaiter, Option.map_eq_some_iff] at hq
          obtain ⟨threads, -, rfl⟩ := hq
          exact ⟨rfl, rfl, rfl, rfl, rfl⟩
  | putchar byte =>
      cases hwaiter : s.world.consumer with
      | none =>
          simp only [QueueCall.transfer, hwaiter, Option.some.injEq] at hq
          subst hq
          exact ⟨rfl, rfl, rfl, rfl, rfl⟩
      | some r =>
          simp only [QueueCall.transfer, hwaiter, Option.map_eq_some_iff] at hq
          obtain ⟨threads, -, rfl⟩ := hq
          exact ⟨rfl, rfl, rfl, rfl, rfl⟩

theorem afterLock_spec {locked : Option (Bool × LockWorld)}
    (h : s.afterLock p call locked = some s') :
    ∃ through threads, locked = some (through, threads) ∧
      if through then Sleeps call s s' else Keeps s s' := by
  obtain ⟨⟨through, threads⟩, hlocked, h⟩ := Option.bind_eq_some_iff.mp h
  refine ⟨through, threads, hlocked, ?_⟩
  cases through with
  | false =>
      obtain rfl := Option.some.inj h
      exact ⟨rfl, rfl, rfl, rfl, rfl⟩
  | true =>
      obtain ⟨q, hq, h⟩ := Option.bind_eq_some_iff.mp h
      obtain rfl := Option.some.inj h
      cases call with
      | getchar =>
          obtain ⟨-, hq⟩ := Option.ite_none_right_eq_some.mp hq
          obtain rfl := Option.some.inj hq
          exact ⟨rfl, ⟨Option.some_ne_none p, rfl⟩, rfl, rfl⟩
      | putchar byte =>
          obtain ⟨-, hq⟩ := Option.ite_none_right_eq_some.mp hq
          obtain rfl := Option.some.inj hq
          exact ⟨rfl, ⟨Option.some_ne_none p, rfl⟩, rfl, rfl⟩

theorem loop_spec (h : s.loop p call = some s') :
    Keeps s s' ∨ (call.busy s.world.ioq = true ∧ Sleeps call s s') ∨
      (call.busy s.world.ioq = false ∧ Moves call s s') := by
  unfold loop at h
  split at h
  next hbusy =>
    obtain ⟨through, -, -, hs⟩ := afterLock_spec h
    cases through with
    | false => exact Or.inl hs
    | true => exact Or.inr (Or.inl ⟨hbusy, hs⟩)
  next hbusy => exact Or.inr (Or.inr ⟨Bool.eq_false_iff.mpr hbusy, finish_spec h⟩)

/-- The thread that runs has been woken in `lock_acquire` and gets the lock now. -/
def GetsLock (s : QueueSystem) (e : QueueEvent) (call : QueueCall) : Prop :=
  ∃ p, e = .run p ∧ s.point p = .locking call ∧ s.world.threads.lock.semaphore.value ≠ 0

theorem lockDown_through {w w' : LockWorld} (h : w.lockDown p = some (true, w')) :
    w.lock.semaphore.value ≠ 0 := by
  intro hzero
  obtain ⟨⟨through, w₁⟩, hdown, h⟩ := Option.bind_eq_some_iff.mp h
  simp only [LockWorld.semaDown, hzero, if_true] at hdown
  obtain ⟨-, hdown⟩ := Option.ite_none_left_eq_some.mp hdown
  simp only [Option.some.injEq, Prod.mk.injEq] at hdown
  rw [← hdown.1] at h
  cases h

theorem lockDown_blocks {w w' : LockWorld} (h : w.lockDown p = some (false, w')) :
    w.lock.semaphore.value = 0 := by
  by_contra hpos
  obtain ⟨⟨through, w₁⟩, hdown, h⟩ := Option.bind_eq_some_iff.mp h
  simp only [LockWorld.semaDown, if_neg hpos] at hdown
  obtain ⟨-, hdown⟩ := Option.ite_none_right_eq_some.mp hdown
  simp only [Option.some.injEq, Prod.mk.injEq] at hdown
  rw [← hdown.1] at h
  obtain ⟨-, h⟩ := Option.ite_none_right_eq_some.mp h
  cases h

/-- Everything a turn can do. -/
theorem turn_cases {e : QueueEvent} (h : s.Turn e s') :
    Keeps s s' ∨ (∃ call, call.busy s.world.ioq = true ∧ Sleeps call s s') ∨
      (∃ call, call.busy s.world.ioq = false ∧ Moves call s s') ∨
      ∃ call, s.GetsLock e call ∧ Sleeps call s s' := by
  have hloop : ∀ {t : QueueSystem} {p call}, t.loop p call = some s' →
      Keeps t s' ∨ (∃ call, call.busy t.world.ioq = true ∧ Sleeps call t s') ∨
        ∃ call, call.busy t.world.ioq = false ∧ Moves call t s' := by
    intro t p call hl
    rcases loop_spec hl with hk | hs | hm
    · exact Or.inl hk
    · exact Or.inr (Or.inl ⟨call, hs⟩)
    · exact Or.inr (Or.inr ⟨call, hm⟩)
  unfold Turn next at h
  cases e with
  | call p call =>
      obtain ⟨-, h⟩ := Option.ite_none_right_eq_some.mp h
      rcases hloop h with hk | hs | hm
      · exact Or.inl hk
      · exact Or.inr (Or.inl hs)
      · exact Or.inr (Or.inr (Or.inl hm))
  | run p =>
      obtain ⟨-, h⟩ := Option.ite_none_right_eq_some.mp h
      unfold resume at h
      split at h
      next => cases h
      next call hpoint =>
        obtain ⟨through, threads, hlocked, hs⟩ := afterLock_spec h
        cases through with
        | false => exact Or.inl hs
        | true =>
            exact Or.inr (Or.inr (Or.inr ⟨call, ⟨p, rfl, hpoint, lockDown_through hlocked⟩, hs⟩))
      next call hpoint =>
        obtain ⟨threads, -, h⟩ := Option.bind_eq_some_iff.mp h
        -- the release changes neither the queue nor its waiters
        rcases hloop h with hk | ⟨call', hbusy, hs⟩ | ⟨call', hbusy, hm⟩
        · exact Or.inl ⟨hk.ioq, hk.producer, hk.consumer, hk.stored, hk.returned⟩
        · exact Or.inr (Or.inl ⟨call', hbusy, hs.ioq, hs.waiters, hs.stored, hs.returned⟩)
        · exact Or.inr (Or.inr (Or.inl ⟨call', hbusy, hm⟩))

/-- A thread that gets the lock goes to sleep whatever the queue holds. -/
theorem sleeps_of_getsLock {e : QueueEvent} (hlock : s.GetsLock e call) (h : s.Turn e s') :
    Sleeps call s s' := by
  obtain ⟨p, rfl, hpoint, hpos⟩ := hlock
  unfold Turn next at h
  obtain ⟨-, h⟩ := Option.ite_none_right_eq_some.mp h
  simp only [resume, hpoint] at h
  obtain ⟨through, threads, hlocked, hs⟩ := afterLock_spec h
  cases through with
  | false => exact absurd (lockDown_blocks hlocked) hpos
  | true => exact hs

end QueueSystem

/-! ## Sleepers -/

namespace QueueSystem

/-- No thread sleeps on a queue that it could use. -/
def NoIdleSleeper (s : QueueSystem) : Prop :=
  (s.world.consumer ≠ none → ioqEmpty s.world.ioq = true) ∧
    (s.world.producer ≠ none → ioqFull s.world.ioq = true)

/-- A thread that was blocked in `lock_acquire` gets the lock only while the queue is
still as it found it: empty for `ioq_getchar`, full for `ioq_putchar`. -/
def LockInTime (s : QueueSystem) (e : QueueEvent) : Prop :=
  ∀ call, s.GetsLock e call → call.busy s.world.ioq = true

variable {s s' : QueueSystem} {call : QueueCall}

theorem NoIdleSleeper.of_sleeps (h : s.NoIdleSleeper) (hs : Sleeps call s s')
    (hbusy : call.busy s.world.ioq = true) : s'.NoIdleSleeper := by
  have hwaiters := hs.waiters
  unfold NoIdleSleeper
  rw [hs.ioq]
  cases call with
  | getchar =>
      obtain ⟨-, hproducer⟩ := hwaiters
      rw [hproducer]
      exact ⟨fun _ => hbusy, h.2⟩
  | putchar byte =>
      obtain ⟨-, hconsumer⟩ := hwaiters
      rw [hconsumer]
      exact ⟨h.1, fun _ => hbusy⟩

/-- A byte that moves wakes the other side, and nobody on its own side sleeps. -/
theorem NoIdleSleeper.of_moves (h : s.NoIdleSleeper) (hs : Moves call s s')
    (hbusy : call.busy s.world.ioq = false) : s'.NoIdleSleeper := by
  cases call with
  | getchar =>
      obtain ⟨-, hproducer, hconsumer, -, -⟩ := hs
      refine ⟨fun hne => ?_, fun hne => absurd hproducer hne⟩
      rw [hconsumer] at hne
      have hempty := h.1 hne
      rw [show ioqEmpty s.world.ioq = false from hbusy] at hempty
      cases hempty
  | putchar byte =>
      obtain ⟨-, hconsumer, hproducer, -, -⟩ := hs
      refine ⟨fun hne => absurd hconsumer hne, fun hne => ?_⟩
      rw [hproducer] at hne
      have hfull := h.2 hne
      rw [show ioqFull s.world.ioq = false from hbusy] at hfull
      cases hfull

theorem NoIdleSleeper.turn {e : QueueEvent} (h : s.NoIdleSleeper) (htime : s.LockInTime e)
    (hs : s.Turn e s') : s'.NoIdleSleeper := by
  rcases turn_cases hs with hk | ⟨call, hbusy, hsl⟩ | ⟨call, hbusy, hm⟩ | ⟨call, hlock, hsl⟩
  · unfold NoIdleSleeper
    rw [hk.ioq, hk.producer, hk.consumer]
    exact h
  · exact h.of_sleeps hsl hbusy
  · exact h.of_moves hm hbusy
  · exact h.of_sleeps hsl (htime call hlock)

/-- A thread that gets the lock too late sleeps on a queue that it could use. -/
theorem idleSleeper_of_late {e : QueueEvent} (hlate : ¬ s.LockInTime e) (hs : s.Turn e s') :
    ¬ s'.NoIdleSleeper := by
  unfold LockInTime at hlate
  push Not at hlate
  obtain ⟨call, hlock, hbusy⟩ := hlate
  have hsl := sleeps_of_getsLock hlock hs
  have hwaiters := hsl.waiters
  rintro ⟨hconsumer, hproducer⟩
  rw [hsl.ioq] at hconsumer hproducer
  cases call with
  | getchar => exact hbusy (hconsumer hwaiters.1)
  | putchar byte => exact hbusy (hproducer hwaiters.1)

end QueueSystem

/-- While every thread gets the lock in time, no thread sleeps on a queue that it could
use, and the first that gets it late does. -/
theorem sleepers_wait_for_queue (s : QueueSystem)
    (hs : Reachable QueueSystem.Start QueueSystem.Turn QueueSystem.LockInTime s) :
    s.NoIdleSleeper ∧ ∀ e s', s.Turn e s' → ¬ s.LockInTime e → ¬ s'.NoIdleSleeper := by
  refine ⟨?_, fun e s' hturn hlate => QueueSystem.idleSleeper_of_late hlate hturn⟩
  refine hs.invariant QueueSystem.NoIdleSleeper (fun s hstart => ?_)
    (fun s e s' h htime hturn => h.turn htime hturn)
  obtain ⟨-, -, -, hproducer, hconsumer, -⟩ := hstart
  exact ⟨fun hne => absurd hconsumer hne, fun hne => absurd hproducer hne⟩

/-- An empty queue that no thread has called yet. -/
def queueStart : QueueSystem :=
  ⟨⟨⟨fun _ => 0, 0, 0⟩, ⟨lockInit, fun _ => .ready⟩, none, none⟩, fun _ => .out, [], []⟩

theorem queueStart_start : queueStart.Start :=
  ⟨rfl, rfl, rfl, rfl, rfl, fun _ => rfl, fun _ => rfl, rfl, rfl⟩

/-- Executable `LockInTime`. -/
def QueueSystem.nextInTime (s : QueueSystem) (e : QueueEvent) : Option QueueSystem :=
  match e with
  | .call _ _ => s.next e
  | .run p =>
      match s.point p with
      | .locking call => if call.busy s.world.ioq then s.next e else none
      | _ => s.next e

theorem QueueSystem.nextInTime_spec {s s' : QueueSystem} {e : QueueEvent}
    (h : s.nextInTime e = some s') : s.LockInTime e ∧ s.Turn e s' := by
  unfold nextInTime at h
  split at h
  next p call =>
    refine ⟨?_, h⟩
    rintro c ⟨q, hq, -⟩
    cases hq
  next p =>
    split at h
    next call hpoint =>
      obtain ⟨hbusy, h⟩ := Option.ite_none_right_eq_some.mp h
      refine ⟨?_, h⟩
      rintro c ⟨q, hq, hpt, -⟩
      cases hq
      rw [hpoint] at hpt
      cases hpt
      exact hbusy
    next hpoint =>
      refine ⟨?_, h⟩
      rintro c ⟨q, hq, hpt, -⟩
      cases hq
      exact absurd hpt (hpoint c)

/-- Two readers of an empty queue, one asleep and one blocked on the lock; a byte comes
and is taken by the first, and the second sleeps in its place. -/
theorem sleepers_wait_for_queue_two_readers :
    ∃ s, Reachable QueueSystem.Start QueueSystem.Turn QueueSystem.LockInTime s ∧
      s.world.consumer = some 2 ∧ s.NoIdleSleeper := by
  have hrun : (follow QueueSystem.nextInTime [.call 1 .getchar, .call 2 .getchar,
      .call 3 (.putchar 7), .run 1, .run 2] queueStart).map (fun s => s.world.consumer) =
        some (some 2) := by
    decide +kernel
  obtain ⟨s, hs, hconsumer⟩ := Option.map_eq_some_iff.mp hrun
  have hreach : Reachable QueueSystem.Start QueueSystem.Turn QueueSystem.LockInTime s :=
    Reachable.of_follow (fun _ _ _ h => QueueSystem.nextInTime_spec h) (.start queueStart_start) hs
  exact ⟨s, hreach, hconsumer, (sleepers_wait_for_queue s hreach).1⟩

/-- The same readers with two bytes: the second sleeps although a byte is left for it. -/
theorem reader_sleeps_on_stored_byte :
    ∃ s, Reachable QueueSystem.Start QueueSystem.Turn (fun _ _ => True) s ∧
      ¬ s.NoIdleSleeper := by
  have hrun : (follow QueueSystem.next [.call 1 .getchar, .call 2 .getchar,
      .call 3 (.putchar 7), .call 3 (.putchar 8), .run 1, .run 2] queueStart).map
        (fun s => decide (s.world.consumer = some 2 ∧ ioqEmpty s.world.ioq = false)) =
        some true := by
    decide +kernel
  obtain ⟨s, hs, hsleeps⟩ := Option.map_eq_some_iff.mp hrun
  obtain ⟨hconsumer, hempty⟩ := of_decide_eq_true hsleeps
  have hreach : Reachable QueueSystem.Start QueueSystem.Turn (fun _ _ => True) s := by
    refine Reachable.of_follow ?_ (.start queueStart_start) hs
    exact fun s e s' h => ⟨trivial, h⟩
  refine ⟨s, hreach, fun h => ?_⟩
  have := h.1 (by rw [hconsumer]; exact Option.some_ne_none 2)
  rw [hempty] at this
  cases this

/-! ## First in, first out -/

namespace QueueSystem

/-- The queue holds the bytes that have been stored and not returned, in their order. -/
structure IsFifo (s : QueueSystem) : Prop where
  head : s.world.ioq.head < bufsize
  tail : s.world.ioq.tail < bufsize
  bytes : s.returned ++ s.world.ioq.content = s.stored

variable {s s' : QueueSystem} {call : QueueCall}

theorem nextPos_lt (pos : ℕ) : nextPos pos < bufsize := Nat.mod_lt _ (by decide)

theorem IsFifo.of_moves (h : s.IsFifo) (hs : Moves call s s')
    (hbusy : call.busy s.world.ioq = false) : s'.IsFifo := by
  cases call with
  | getchar =>
      obtain ⟨hioq, -, -, hstored, hreturned⟩ := hs
      have hne : s.world.ioq.head ≠ s.world.ioq.tail := of_decide_eq_false hbusy
      have hpop : s.world.ioq.content = s.world.ioq.buf s.world.ioq.tail :: s'.world.ioq.content := by
        rw [hioq]
        exact Ring.content_pop h.tail h.head hne
      refine ⟨?_, ?_, ?_⟩
      · rw [hioq]
        exact h.head
      · rw [hioq]
        exact nextPos_lt _
      · rw [hreturned, hstored, ← h.bytes, hpop, List.append_assoc, List.singleton_append]
  | putchar byte =>
      obtain ⟨hioq, -, -, hstored, hreturned⟩ := hs
      have hfree : nextPos s.world.ioq.head ≠ s.world.ioq.tail := of_decide_eq_false hbusy
      have hpush : s'.world.ioq.content = s.world.ioq.content ++ [byte] := by
        rw [hioq]
        exact Ring.content_push byte h.tail h.head hfree
      refine ⟨?_, ?_, ?_⟩
      · rw [hioq]
        exact nextPos_lt _
      · rw [hioq]
        exact h.tail
      · rw [hreturned, hstored, hpush, ← h.bytes, List.append_assoc]

theorem IsFifo.turn {e : QueueEvent} (h : s.IsFifo) (hs : s.Turn e s') : s'.IsFifo := by
  have hsame : s'.world.ioq = s.world.ioq → s'.stored = s.stored → s'.returned = s.returned →
      s'.IsFifo := by
    intro hioq hstored hreturned
    refine ⟨?_, ?_, ?_⟩
    · rw [hioq]
      exact h.head
    · rw [hioq]
      exact h.tail
    · rw [hioq, hstored, hreturned]
      exact h.bytes
  rcases turn_cases hs with hk | ⟨call, -, hsl⟩ | ⟨call, hbusy, hm⟩ | ⟨call, -, hsl⟩
  · exact hsame hk.ioq hk.stored hk.returned
  · exact hsame hsl.ioq hsl.stored hsl.returned
  · exact h.of_moves hm hbusy
  · exact hsame hsl.ioq hsl.stored hsl.returned

/-- An empty queue holds nothing. -/
theorem Start.isFifo (h : s.Start) : s.IsFifo := by
  obtain ⟨hhead, htail, -, -, -, -, -, hstored, hreturned⟩ := h
  refine ⟨?_, ?_, ?_⟩
  · rw [hhead]
    decide
  · rw [htail]
    decide
  · rw [hstored, hreturned, Ioqueue.content, hhead, htail]
    rfl

end QueueSystem

/-- Whatever the order of the threads, the queue is a first-in first-out queue of 63
bytes: what has been returned is a prefix of what has been stored, and the queue holds
the bytes in between. -/
theorem queue_is_fifo (s : QueueSystem)
    (hs : Reachable QueueSystem.Start QueueSystem.Turn (fun _ _ => True) s) :
    s.returned <+: s.stored ∧ s.returned ++ s.world.ioq.content = s.stored ∧
      s.world.ioq.head < 64 ∧ s.world.ioq.tail < 64 ∧
      ioqLength s.world.ioq = s.stored.length - s.returned.length ∧
      ioqLength s.world.ioq ≤ 63 ∧
      (ioqEmpty s.world.ioq = true ↔ s.world.ioq.content = []) ∧
      (ioqFull s.world.ioq = true ↔ s.world.ioq.content.length = 63) := by
  have h : s.IsFifo :=
    hs.invariant QueueSystem.IsFifo (fun _ hstart => hstart.isFifo)
      (fun _ _ _ hinv _ hturn => hinv.turn hturn)
  have hlength : s.world.ioq.content.length =
      Ring.count bufsize s.world.ioq.tail s.world.ioq.head := Ring.length_content _ _ _
  have hlt : Ring.count bufsize s.world.ioq.tail s.world.ioq.head < bufsize :=
    Ring.count_lt h.tail h.head
  refine ⟨⟨_, h.bytes⟩, h.bytes, h.head, h.tail, ?_, ?_, ?_, ?_⟩
  · rw [ioqLength_eq, ← h.bytes, List.length_append, Nat.add_sub_cancel_left]
  · rw [ioqLength_eq, hlength]
    exact Nat.le_of_lt_succ hlt
  · rw [← List.length_eq_zero_iff, hlength, Ring.count_eq_zero h.tail]
    exact decide_eq_true_iff
  · have hfull := Ring.count_full h.tail h.head
    rw [hlength]
    refine Iff.trans decide_eq_true_iff (hfull.symm.trans ?_)
    exact Nat.succ_inj

/-- A reader that waits, a writer that stores three bytes, and the reader again. -/
theorem queue_is_fifo_after_wait :
    ∃ s, Reachable QueueSystem.Start QueueSystem.Turn (fun _ _ => True) s ∧
      s.stored = [7, 8, 9] ∧ s.returned = [7] ∧ s.world.ioq.content = [8, 9] ∧
      ioqLength s.world.ioq = s.stored.length - s.returned.length := by
  have hrun : (follow QueueSystem.next [.call 1 .getchar, .call 3 (.putchar 7),
      .call 3 (.putchar 8), .call 3 (.putchar 9), .run 1] queueStart).map
        (fun s => (s.stored, s.returned, s.world.ioq.content)) =
        some ([7, 8, 9], [7], [8, 9]) := by
    decide +kernel
  obtain ⟨s, hs, hbytes⟩ := Option.map_eq_some_iff.mp hrun
  simp only [Prod.mk.injEq] at hbytes
  have hreach : Reachable QueueSystem.Start QueueSystem.Turn (fun _ _ => True) s := by
    refine Reachable.of_follow ?_ (.start queueStart_start) hs
    exact fun s e s' h => ⟨trivial, h⟩
  obtain ⟨-, -, -, -, hlength, -⟩ := queue_is_fifo s hreach
  exact ⟨s, hreach, hbytes.1, hbytes.2.1, hbytes.2.2, hlength⟩

end BochsOs
