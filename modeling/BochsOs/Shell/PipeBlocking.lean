import BochsOs.Library.Blocking
import BochsOs.Shell.DescriptorCalls
import BochsOs.Shell.Pipeline

/-!
# Reads and writes of a pipe that block

`pipe_read` and `pipe_write` compute in advance how many bytes to move, so that
`ioq_getchar` and `ioq_putchar` never put the caller to sleep.  A queue of 64 cells holds at
most 63 bytes, but `pipe_write` takes `bufsize - ioq_length` for the room that is left: a write
of more than fits moves one byte too many and sleeps (`pipeOp_free_iff`).

The queues of the pipes are those reached by storing and taking single bytes
(`PipeQueue`), which covers the calls in every order, also one that sleeps halfway.
-/

namespace BochsOs

open ByteMemory Suspend Suspend.Prog Runs

/-! ## The queues of pipes -/

/-- The queue without its first byte. -/
def Ioqueue.pop (ioq : Ioqueue) : Ioqueue := { ioq with tail := nextPos ioq.tail }

/-- What a call does to the queue, byte by byte. -/
inductive ByteMove where
  | store (byte : UInt8)
  | take

/-- A byte is stored in a queue that is not full, or taken from one that is not empty. -/
def ByteMove.Step (ioq : Ioqueue) : ByteMove → Ioqueue → Prop
  | store byte, ioq' => ioqFull ioq = false ∧ ioq' = ioq.push byte
  | take, ioq' => ioqEmpty ioq = false ∧ ioq' = ioq.pop

/-- A queue that calls on a pipe can lead to. -/
def PipeQueue (ioq : Ioqueue) : Prop :=
  Reachable (fun ioq => ioq = ioqueueInit) ByteMove.Step (fun _ _ => True) ioq

/-- A call on the pipe behind a descriptor. -/
inductive PipeOp where
  | read (fd : ℤ) (buf : Bytes) (count : ℕ)
  | write (fd : ℤ) (buf : Bytes) (count : ℕ)

namespace PipeOp

/-- The descriptor. -/
def fd : PipeOp → ℤ
  | .read fd _ _ => fd
  | .write fd _ _ => fd

/-- The call returns without blocking, and it returns how many bytes it moved between the
buffer and the queue at `a`. -/
def Free (k : Kernel) (a : ℕ) : PipeOp → Prop
  | .read fd buf count => (pipeRead fd.toNat buf count).unblocked (fun r k' => ∃ n ≤ count,
      r.1 = (n : ℕ) ∧ (k.ioqueues a).content =
        ((List.range n).map fun i => r.2 i) ++ (k'.ioqueues a).content) k
  | .write fd buf count => (pipeWrite fd.toNat buf count).unblocked (fun r k' => ∃ n ≤ count,
      r = (n : ℕ) ∧ (k'.ioqueues a).content =
        (k.ioqueues a).content ++ (List.range n).map fun i => buf i) k

/-- A read, or a write of no more bytes than the queue has room for. -/
def Fits (ioq : Ioqueue) : PipeOp → Prop
  | .read _ _ _ => True
  | .write _ _ count => ioqLength ioq + count < bufsize

end PipeOp

/-! ## Queues stay sound -/

section Queue

variable {ioq : Ioqueue} {bytes : List UInt8}

theorem Ioqueue.Holds.pop {b : UInt8} (h : ioq.Holds (b :: bytes)) :
    ioq.buf ioq.tail = b ∧ ioq.pop.Holds bytes := by
  have hne : ioq.head ≠ ioq.tail := by
    intro heq
    have hcount : Ring.count bufsize ioq.tail ioq.head = 0 := (Ring.count_eq_zero h.tail).mpr heq
    have hlen := congrArg List.length h.content
    rw [Ioqueue.content, Ring.length_content, hcount] at hlen
    cases hlen
  have hcontent := h.content
  rw [Ioqueue.content, Ring.content_pop h.tail h.head hne, List.cons.injEq] at hcontent
  exact ⟨hcontent.1, Nat.mod_lt _ (by decide), h.head, hcontent.2⟩

/-- A queue is empty if it holds nothing, and full if it holds 63 bytes. -/
theorem Ioqueue.Holds.empty_iff (h : ioq.Holds bytes) : ioqEmpty ioq = true ↔ bytes = [] := by
  have hcount : Ring.count bufsize ioq.tail ioq.head = 0 ↔ ioq.head = ioq.tail :=
    Ring.count_eq_zero h.tail
  have hlen := congrArg List.length h.content
  rw [Ioqueue.content, Ring.length_content] at hlen
  rw [ioqEmpty, decide_eq_true_iff, ← hcount, hlen, List.length_eq_zero_iff]

theorem Ioqueue.Holds.full_iff (h : ioq.Holds bytes) :
    ioqFull ioq = true ↔ bytes.length + 1 = bufsize := by
  have hcount := Ring.count_full h.tail h.head
  have hlen := congrArg List.length h.content
  rw [Ioqueue.content, Ring.length_content] at hlen
  rw [ioqFull, decide_eq_true_iff, nextPos, ← hcount, hlen]

theorem Ioqueue.Holds.length_lt (h : ioq.Holds bytes) : bytes.length < bufsize := by
  have hlen := congrArg List.length h.content
  rw [Ioqueue.content, Ring.length_content] at hlen
  rw [← hlen]
  exact Ring.count_lt h.tail h.head

/-- The queue of a pipe holds some bytes. -/
theorem PipeQueue.holds (h : PipeQueue ioq) : ∃ bytes, ioq.Holds bytes := by
  refine Reachable.invariant (fun ioq => ∃ bytes, ioq.Holds bytes) ?_ ?_ h
  · rintro _ rfl
    exact ⟨[], ioqueueInit_holds⟩
  · rintro ioq move ioq' ⟨bytes, hbytes⟩ - hstep
    cases move with
    | store byte =>
        obtain ⟨hfull, rfl⟩ := hstep
        exact ⟨_, hbytes.push byte hfull⟩
    | take =>
        obtain ⟨hempty, rfl⟩ := hstep
        cases bytes with
        | nil =>
            rw [hbytes.empty_iff.mpr rfl] at hempty
            cases hempty
        | cons b bytes => exact ⟨bytes, hbytes.pop.2⟩

end Queue

/-! ## The loops -/

section Loops

variable {a : ℕ} {k : Kernel} {bytes : List UInt8}

theorem setQueue_ioqueues (k : Kernel) (a : ℕ) (ioq : Ioqueue) :
    (k.setQueue a ioq).ioqueues a = ioq := Function.update_self _ _ _

/-- Nobody waits for a queue that is not busy, and only for one that is. -/
theorem unblocked_ioqWait {busy : Ioqueue → Bool} {rounds : ℕ} {Q : Unit → Kernel → Prop} :
    (ioqWait a busy rounds).unblocked Q k ↔ busy (k.ioqueues a) = false ∧ Q () k := by
  cases rounds with
  | zero =>
      simp only [ioqWait, unblocked_bind, unblocked_read]
      cases busy (k.ioqueues a) <;> simp
  | succ rounds =>
      simp only [ioqWait, unblocked_bind, unblocked_read]
      cases busy (k.ioqueues a) <;> simp

theorem unblocked_ioqPutchar {byte : UInt8} {Q : Unit → Kernel → Prop} :
    (ioqPutchar a byte).unblocked Q k ↔
      ioqFull (k.ioqueues a) = false ∧ Q () (k.setQueue a ((k.ioqueues a).push byte)) := by
  simp only [ioqPutchar, unblocked_bind, unblocked_arbitrary, unblocked_ioqWait, unblocked_read,
    unblocked_write]
  exact ⟨fun h => h 0, fun h _ => h⟩

theorem unblocked_ioqGetchar {Q : UInt8 → Kernel → Prop} :
    (ioqGetchar a).unblocked Q k ↔ ioqEmpty (k.ioqueues a) = false ∧
      Q ((k.ioqueues a).buf (k.ioqueues a).tail) (k.setQueue a (k.ioqueues a).pop) := by
  simp only [ioqGetchar, unblocked_bind, unblocked_arbitrary, unblocked_ioqWait, unblocked_read,
    unblocked_write, unblocked_pure]
  exact ⟨fun h => h 0, fun h _ => h⟩

/-- As long as there is room, `pipe_write` does not sleep. -/
theorem pipeWriteLoop_free {src : Bytes} {left done : ℕ} (hq : (k.ioqueues a).Holds bytes)
    (hfit : bytes.length + left < bufsize) :
    (pipeWriteLoop a src left done).unblocked (fun _ _ => True) k := by
  induction left generalizing done bytes k with
  | zero => trivial
  | succ left ih =>
      have hroom : ioqFull (k.ioqueues a) = false := by
        rw [← Bool.not_eq_true, hq.full_iff]
        omega
      have hpush := hq.push (src done) hroom
      rw [← setQueue_ioqueues k a ((k.ioqueues a).push (src done))] at hpush
      rw [pipeWriteLoop, unblocked_bind, unblocked_ioqPutchar]
      refine ⟨hroom, ih hpush ?_⟩
      rw [List.length_append, List.length_singleton]
      omega

/-- As long as there are bytes, `pipe_read` does not sleep; it moves the first `left` of
them. -/
theorem pipeReadLoop_free {left done : ℕ} {dst : Bytes} (hq : (k.ioqueues a).Holds bytes)
    (hleft : left ≤ bytes.length) :
    (pipeReadLoop a left done dst).unblocked (fun r k' =>
      bytes = ((List.range left).map fun i => r (done + i)) ++ (k'.ioqueues a).content ∧
        ∀ i < done, r i = dst i) k := by
  induction left generalizing done dst bytes k with
  | zero => exact ⟨by simpa using hq.content.symm, fun _ _ => rfl⟩
  | succ left ih =>
      cases bytes with
      | nil => exact absurd hleft (Nat.not_succ_le_zero left)
      | cons b bytes =>
          have hempty : ioqEmpty (k.ioqueues a) = false := by
            rw [← Bool.not_eq_true, hq.empty_iff]
            exact List.cons_ne_nil b bytes
          obtain ⟨hfirst, hpop⟩ := hq.pop
          rw [pipeReadLoop, unblocked_bind, unblocked_ioqGetchar, hfirst]
          refine ⟨hempty, ?_⟩
          rw [← setQueue_ioqueues k a (k.ioqueues a).pop] at hpop
          refine unblocked_mono (ih hpop (Nat.le_of_succ_le_succ hleft)) ?_
          rintro r k' ⟨hrest, hkeep⟩
          have hdone : r done = b := by
            rw [hkeep done (Nat.lt_succ_self done)]
            exact Function.update_self _ _ _
          refine ⟨?_, fun i hi => ?_⟩
          · rw [List.range_succ_eq_map, List.map_cons, List.map_map, List.cons_append, Nat.add_zero,
              hdone]
            congr 1
            rw [hrest]
            congr 1
            refine List.map_congr_left fun i _ => ?_
            simp only [Function.comp_apply]
            congr 1
            omega
          · rw [hkeep i (by omega)]
            exact Function.update_of_ne (by omega) _ _

end Loops

/-! ## The calls -/

section Calls

variable {k : Kernel} {fd : ℤ} {g a : ℕ}

theorem unblocked_fdLocal2global (h : k.Entry fd g) {Q : ℕ → Kernel → Prop} :
    (fdLocal2global fd.toNat).unblocked Q k ↔ Q g k := by
  have hslot := h.slot
  have hbound := h.bound
  unfold fdLocal2global
  rw [if_neg (by omega)]
  simp only [unblocked_bind, unblocked_read, unblocked_assert, unblocked_pure, h.value,
    decide_eq_true_iff, Int.toNat_natCast]
  exact ⟨fun hQ => hQ.2, fun hQ => ⟨⟨by omega, by exact_mod_cast hbound⟩, hQ⟩⟩

/-- `pipe_read` never blocks. -/
theorem pipeRead_free (hentry : k.Entry fd g) (hopen : k.InUse g a) {bytes : List UInt8}
    (hq : (k.ioqueues a).Holds bytes) (buf : Bytes) (count : ℕ) :
    (PipeOp.read fd buf count).Free k a := by
  rw [PipeOp.Free, pipeRead, unblocked_bind, unblocked_fdLocal2global hentry, unblocked_bind,
    unblocked_read, hopen]
  dsimp only
  rw [unblocked_bind]
  refine unblocked_mono (pipeReadLoop_free hq ?_) ?_
  · rw [hq.length]
    exact min_le_left _ _
  · rintro r k' ⟨hbytes, -⟩
    refine ⟨min (ioqLength (k.ioqueues a)) count, min_le_right _ _, rfl, ?_⟩
    rw [hq.content, hbytes]
    simp only [Nat.zero_add]

/-- `pipe_write` does not block when all bytes fit. -/
theorem pipeWrite_free (hentry : k.Entry fd g) (hopen : k.InUse g a) {bytes : List UInt8}
    (hq : (k.ioqueues a).Holds bytes) (buf : Bytes) {count : ℕ}
    (hfit : ioqLength (k.ioqueues a) + count < bufsize) : (PipeOp.write fd buf count).Free k a := by
  have hsize : min count (bufsize - ioqLength (k.ioqueues a)) = count := by omega
  rw [PipeOp.Free, pipeWrite, unblocked_bind, unblocked_fdLocal2global hentry, unblocked_bind,
    unblocked_read, hopen]
  dsimp only
  rw [hsize, unblocked_bind]
  rw [hq.length] at hfit
  refine unblocked_mono (unblocked_of_wp (pipeWriteLoop_free hq hfit) (pipeWriteLoop_stores hq)) ?_
  rintro - k' ⟨ioq, rfl, hioq, -⟩
  refine ⟨count, le_rfl, rfl, ?_⟩
  rw [setQueue_ioqueues, hioq.content, hq.content]
  simp only [Nat.zero_add]

/-- `pipe_write` sleeps on the last byte when not all bytes fit. -/
theorem fits_of_pipeWrite_free (hentry : k.Entry fd g) (hopen : k.InUse g a) {bytes : List UInt8}
    (hq : (k.ioqueues a).Holds bytes) {buf : Bytes} {count : ℕ}
    (hfree : (PipeOp.write fd buf count).Free k a) :
    ioqLength (k.ioqueues a) + count < bufsize := by
  rw [PipeOp.Free, pipeWrite, unblocked_bind, unblocked_fdLocal2global hentry, unblocked_bind,
    unblocked_read, hopen] at hfree
  dsimp only at hfree
  rw [unblocked_bind] at hfree
  obtain ⟨_, _, hret, -⟩ := returns_of_succeeds (succeeds_of_unblocked hfree)
  obtain ⟨_, -, -, hroom⟩ := wp_iff_returns.mp (pipeWriteLoop_stores hq) _ _ hret
  have hlen := hq.length
  have hlt := hq.length_lt
  rcases Nat.eq_zero_or_pos count with rfl | hpos
  · omega
  · have := hroom (by omega)
    omega

theorem PipeQueue.store (h : PipeQueue (k.ioqueues a)) {byte : UInt8}
    (hroom : ioqFull (k.ioqueues a) = false) :
    PipeQueue ((k.setQueue a ((k.ioqueues a).push byte)).ioqueues a) := by
  rw [setQueue_ioqueues]
  exact .next (i := .store byte) h trivial ⟨hroom, rfl⟩

theorem pipeWriteLoop_queue {src : Bytes} {left done : ℕ} (h : PipeQueue (k.ioqueues a)) :
    (pipeWriteLoop a src left done).wp (fun _ k' => PipeQueue (k'.ioqueues a)) k := by
  induction left generalizing done k with
  | zero => exact h
  | succ left ih =>
      rw [pipeWriteLoop, wp_bind, wp_ioqPutchar]
      exact fun hroom => ih (h.store hroom)

theorem pipeReadLoop_queue {dst : Bytes} {left done : ℕ} (h : PipeQueue (k.ioqueues a)) :
    (pipeReadLoop a left done dst).wp (fun _ k' => PipeQueue (k'.ioqueues a)) k := by
  induction left generalizing done dst k with
  | zero => exact h
  | succ left ih =>
      rw [pipeReadLoop, wp_bind]
      simp only [ioqGetchar, wp_bind, wp_arbitrary, wp_ioqWait, wp_read, wp_write, wp_pure]
      intro _ hbytes
      refine ih ?_
      change PipeQueue ((k.setQueue a (k.ioqueues a).pop).ioqueues a)
      rw [setQueue_ioqueues]
      exact .next (i := .take) h trivial ⟨hbytes, rfl⟩

theorem wp_fdLocal2global_entry (hentry : k.Entry fd g) :
    (fdLocal2global fd.toNat).wp (fun g' k' => g' = g ∧ k' = k) k :=
  wp_of_succeeds (succeeds_of_unblocked ((unblocked_fdLocal2global hentry).mpr ⟨rfl, rfl⟩))

/-- The calls lead from queue to queue that a pipe can have. -/
theorem pipeWrite_queue (hentry : k.Entry fd g) (hopen : k.InUse g a)
    (h : PipeQueue (k.ioqueues a)) (buf : Bytes) (count : ℕ) :
    (pipeWrite fd.toNat buf count).wp (fun _ k' => PipeQueue (k'.ioqueues a)) k := by
  rw [pipeWrite, wp_bind]
  refine wp_mono (wp_fdLocal2global_entry hentry) ?_
  rintro _ _ ⟨rfl, rfl⟩
  rw [wp_bind, wp_read, hopen]
  dsimp only
  rw [wp_bind]
  exact pipeWriteLoop_queue h

theorem pipeRead_queue (hentry : k.Entry fd g) (hopen : k.InUse g a)
    (h : PipeQueue (k.ioqueues a)) (buf : Bytes) (count : ℕ) :
    (pipeRead fd.toNat buf count).wp (fun _ k' => PipeQueue (k'.ioqueues a)) k := by
  rw [pipeRead, wp_bind]
  refine wp_mono (wp_fdLocal2global_entry hentry) ?_
  rintro _ _ ⟨rfl, rfl⟩
  rw [wp_bind, wp_read, hopen]
  dsimp only
  rw [wp_bind]
  exact pipeReadLoop_queue h

/-- On every queue that a pipe can have, a call returns without blocking exactly when it is a
read or everything fits. -/
theorem pipeOp_free_iff (k : Kernel) (op : PipeOp) (g a : ℕ) (hentry : k.Entry op.fd g)
    (hopen : k.InUse g a) (hqueue : PipeQueue (k.ioqueues a)) :
    op.Free k a ↔ op.Fits (k.ioqueues a) := by
  obtain ⟨bytes, hbytes⟩ := hqueue.holds
  cases op with
  | read fd buf count => exact ⟨fun _ => trivial, fun _ => pipeRead_free hentry hopen hbytes buf count⟩
  | write fd buf count =>
      exact ⟨fits_of_pipeWrite_free hentry hopen hbytes, pipeWrite_free hentry hopen hbytes buf⟩

/-- A pipe that is still empty, behind descriptor 3. -/
def emptyPipe : Kernel :=
  { (default : Kernel) with
    fileTable := fun _ => ⟨2, pipeFlag, some 0⟩
    ioqueues := fun _ => ioqueueInit
    tasks := fun _ => { (default : Task) with fdTable := fun _ => 3 } }

theorem emptyPipe_entry : emptyPipe.Entry 3 3 := ⟨by decide, by decide, rfl, by decide⟩

theorem emptyPipe_inUse : emptyPipe.InUse 3 0 := rfl

theorem emptyPipe_queue : PipeQueue (emptyPipe.ioqueues 0) := .start rfl

/-- 63 bytes fit into an empty pipe. -/
theorem pipeOp_free_iff_empty :
    (emptyPipe.Entry 3 3 ∧ emptyPipe.InUse 3 0 ∧ PipeQueue (emptyPipe.ioqueues 0)) ∧
      (PipeOp.write 3 (fun _ => 0) 63).Free emptyPipe 0 := by
  refine ⟨⟨emptyPipe_entry, emptyPipe_inUse, emptyPipe_queue⟩, ?_⟩
  refine (pipeOp_free_iff emptyPipe (.write 3 (fun _ => 0) 63) 3 0 emptyPipe_entry emptyPipe_inUse
    emptyPipe_queue).mpr ?_
  change 0 + 63 < bufsize
  decide

/-- A write of 64 bytes into an empty pipe blocks. -/
theorem not_pipeOp_free_64 :
    (emptyPipe.Entry 3 3 ∧ emptyPipe.InUse 3 0 ∧ PipeQueue (emptyPipe.ioqueues 0)) ∧
      ¬ (PipeOp.write 3 (fun _ => 0) 64).Free emptyPipe 0 := by
  refine ⟨⟨emptyPipe_entry, emptyPipe_inUse, emptyPipe_queue⟩, fun hfree => ?_⟩
  have hfits := fits_of_pipeWrite_free emptyPipe_entry emptyPipe_inUse ioqueueInit_holds hfree
  exact absurd hfits (by decide)

end Calls

end BochsOs
