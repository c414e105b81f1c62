import BochsOs.Library.Ring
import BochsOs.Kernel.State

/-!
# Byte queues

`device/ioqueue.c`, as far as the pipes use it.  A thread that finds the queue full
or empty sleeps and looks again when it is woken; here it looks again after any
number of suspensions, and hangs if the queue has not changed by then.
-/

namespace BochsOs

open Suspend Suspend.Prog

/-- `bufsize`. -/
def bufsize : ℕ := 64

/-- `next_pos`. -/
def nextPos (pos : ℕ) : ℕ := (pos + 1) % bufsize

/-- `ioq_full`. -/
def ioqFull (ioq : Ioqueue) : Bool := nextPos ioq.head = ioq.tail

/-- `ioq_empty`. -/
def ioqEmpty (ioq : Ioqueue) : Bool := ioq.head = ioq.tail

/-- `ioq_length`. -/
def ioqLength (ioq : Ioqueue) : ℕ :=
  if ioq.tail ≤ ioq.head then ioq.head - ioq.tail else ioq.head + bufsize - ioq.tail

/-- The bytes in the queue, from `tail` to `head`. -/
def Ioqueue.content (ioq : Ioqueue) : List UInt8 :=
  Ring.content bufsize ioq.buf ioq.tail ioq.head

theorem ioqLength_eq (ioq : Ioqueue) : ioqLength ioq = ioq.content.length := by
  rw [Ioqueue.content, Ring.length_content]
  rfl

/-- The loop of `ioq_getchar` and `ioq_putchar` that sleeps while `busy` holds. -/
def ioqWait (a : ℕ) (busy : Ioqueue → Bool) : (rounds : ℕ) → Prog Kernel Unit
  | 0 => do
      let k ← read
      if busy (k.ioqueues a) then stop .hang else return ()
  | rounds + 1 => do
      let k ← read
      if busy (k.ioqueues a) then
        block
        ioqWait a busy rounds
      else return ()

/-- `ioq_getchar` on the queue at `a`. -/
def ioqGetchar (a : ℕ) : Prog Kernel UInt8 := do
  let rounds ← arbitrary
  ioqWait a ioqEmpty rounds
  let k ← read
  let ioq := k.ioqueues a
  write { k with ioqueues := Function.update k.ioqueues a { ioq with tail := nextPos ioq.tail } }
  return ioq.buf ioq.tail

/-- `ioq_putchar` on the queue at `a`. -/
def ioqPutchar (a : ℕ) (byte : UInt8) : Prog Kernel Unit := do
  let rounds ← arbitrary
  ioqWait a ioqFull rounds
  let k ← read
  let ioq := k.ioqueues a
  write { k with
    ioqueues := Function.update k.ioqueues a
      { ioq with buf := Function.update ioq.buf ioq.head byte, head := nextPos ioq.head } }

end BochsOs
