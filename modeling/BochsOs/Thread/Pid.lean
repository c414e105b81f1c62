import BochsOs.Library.Runs
import BochsOs.Thread.Thread

/-!
# Process numbers

`thread/pid.c` at the widths of the source: the result of `bitmap_scan` is an `int32_t`, the
index that `bitmap_set` takes a `uint32_t`, a number a `uint16_t`.  `PidPool` is the memory
from `pid_bitmap_bits` on with the numbers that are in use.  As long as a number is left,
`allocate_pid` hands out a new one from 1 to 1024 and writes nothing but the 128 bytes of the
bitmap (`pids_sound`).  When all are in use it hands out 0 and sets a bit half a gigabyte
behind the bitmap.
-/

namespace BochsOs

open ByteMemory Suspend Suspend.Prog Runs

/-- The number of bytes of `pid_bitmap_bits`. -/
def pidBytes : ℕ := 128

/-- The largest process number. -/
def pidMax : ℕ := 1024

/-- The bit that `allocate_pid` sets: `-1` as a `uint32_t` if there is no clear one. -/
def pidScan (btmp : Bitmap) : ℕ := (bitmapScan btmp 1).getD (2 ^ 32 - 1)

/-- `bit_idx + pid_pool.pid_start` as a `pid_t`. -/
def pidOfBit (bitIdx : ℕ) : ℕ := (bitIdx + pidStart) % 2 ^ 32 % 2 ^ 16

/-- `pid - pid_pool.pid_start` as a `uint32_t`. -/
def bitOfPid (pid : ℕ) : ℕ := subU32 pid pidStart

/-- `pid_pool`, and the numbers that were handed out and not released. -/
structure PidPool where
  pidBitmap : Bitmap
  outstanding : List ℕ

/-- A call of `pid.c`. -/
inductive PidCall where
  | allocate
  | release (pid : ℕ)

namespace PidPool

/-- The bit that the call sets or clears. -/
def bitIdx (s : PidPool) : PidCall → ℕ
  | .allocate => pidScan s.pidBitmap
  | .release pid => bitOfPid pid

/-- The number that `allocate_pid` returns. -/
def nextPid (s : PidPool) : ℕ := pidOfBit (s.bitIdx .allocate)

/-- The pool after the call. -/
def step (s : PidPool) : PidCall → PidPool
  | .allocate => ⟨bitmapSet s.pidBitmap (s.bitIdx .allocate) true, s.nextPid :: s.outstanding⟩
  | .release pid => ⟨bitmapSet s.pidBitmap (s.bitIdx (.release pid)) false, s.outstanding.erase pid⟩

/-- The pool after `pid_pool_init`, whatever stood in the memory before. -/
def Init (s : PidPool) : Prop := ∃ bits, s = ⟨bitmapInit ⟨pidBytes, bits⟩, []⟩

/-- Only numbers in use are released. -/
def Legal (s : PidPool) : PidCall → Prop
  | .allocate => True
  | .release pid => pid ∈ s.outstanding

/-- A number is left when one is asked for. -/
def Left (s : PidPool) : PidCall → Prop
  | .allocate => s.outstanding.length < pidMax
  | .release _ => True

/-- The call writes a byte of the bitmap, and a number that it returns is a new one. -/
def Sound (s : PidPool) (c : PidCall) : Prop :=
  s.bitIdx c / 8 < pidBytes ∧
    (c = .allocate → 1 ≤ s.nextPid ∧ s.nextPid ≤ pidMax ∧ s.nextPid ∉ s.outstanding)

/-- The bits that are set are those of the numbers in use. -/
structure Inv (s : PidPool) : Prop where
  bytes : s.pidBitmap.btmpBytesLen = pidBytes
  nodup : s.outstanding.Nodup
  range : ∀ pid ∈ s.outstanding, 1 ≤ pid ∧ pid ≤ pidMax
  bit : ∀ i < pidMax, s.pidBitmap.bit i = true ↔ i + 1 ∈ s.outstanding

theorem Inv.init {s : PidPool} (hs : s.Init) : s.Inv := by
  obtain ⟨bits, rfl⟩ := hs
  refine ⟨rfl, List.nodup_nil, by simp, fun i hi => ?_⟩
  have hbyte : fill bits 0 pidBytes 0 (i / 8) = 0 := by
    unfold fill pidBytes
    unfold pidMax at hi
    rw [if_pos (by omega)]
  simp only [bitmapInit, Bitmap.bit, hbyte]
  simp

variable {s : PidPool}

/-- As many different numbers as there are: all of them. -/
theorem Inv.all_outstanding (h : s.Inv) (hfull : pidMax ≤ s.outstanding.length) {pid : ℕ}
    (hlow : 1 ≤ pid) (hhigh : pid ≤ pidMax) : pid ∈ s.outstanding := by
  have hsub : s.outstanding ⊆ List.range' 1 pidMax := by
    intro q hq
    have hrange := h.range q hq
    rw [List.mem_range'_1]
    omega
  have hperm := (List.subperm_of_subset h.nodup hsub).perm_of_length_le
    (by rw [List.length_range']; exact hfull)
  rw [hperm.mem_iff, List.mem_range'_1]
  omega

/-- While a number is left, the scan finds the bit of one. -/
theorem Inv.scan_of_left (h : s.Inv) (hleft : s.outstanding.length < pidMax) :
    ∃ i < pidMax, bitmapScan s.pidBitmap 1 = some i ∧ i + 1 ∉ s.outstanding := by
  rcases hscan : bitmapScan s.pidBitmap 1 with _ | i
  · -- all bits are set, so all numbers are in use
    have hsub : List.range' 1 pidMax ⊆ s.outstanding := by
      intro pid hpid
      rw [List.mem_range'_1] at hpid
      have hi : pid - 1 < pidMax := by omega
      have hbit := bit_of_bitmapScan_none hscan (i := pid - 1)
        (by rw [h.bytes]; unfold pidBytes; unfold pidMax at hi; omega)
      rw [h.bit _ hi, Nat.sub_add_cancel hpid.1] at hbit
      exact hbit
    have hle := (List.subperm_of_subset List.nodup_range' hsub).length_le
    rw [List.length_range'] at hle
    omega
  · obtain ⟨hi, hbit⟩ := bit_of_bitmapScan_one hscan
    rw [h.bytes] at hi
    have hi' : i < pidMax := by unfold pidMax; unfold pidBytes at hi; omega
    refine ⟨i, hi', rfl, fun hmem => ?_⟩
    rw [(h.bit i hi').mpr hmem] at hbit
    cases hbit

/-- When all numbers are in use, the scan fails. -/
theorem Inv.scan_of_full (h : s.Inv) (hfull : pidMax ≤ s.outstanding.length) :
    bitmapScan s.pidBitmap 1 = none := by
  rcases hscan : bitmapScan s.pidBitmap 1 with _ | i
  · rfl
  · obtain ⟨hi, hbit⟩ := bit_of_bitmapScan_one hscan
    rw [h.bytes] at hi
    have hi' : i < pidMax := by unfold pidMax; unfold pidBytes at hi; omega
    rw [(h.bit i hi').mpr (h.all_outstanding hfull (by omega) (by omega))] at hbit
    cases hbit

theorem pidOfBit_of_lt {i : ℕ} (hi : i < pidMax) : pidOfBit i = i + 1 := by
  unfold pidMax at hi
  unfold pidOfBit pidStart
  omega

theorem bitOfPid_of_le {pid : ℕ} (hlow : 1 ≤ pid) : bitOfPid pid = pid - 1 := subU32_of_le hlow

/-- The call does what it should as long as a number is left. -/
theorem Inv.sound_iff (h : s.Inv) {c : PidCall} (hc : s.Legal c) : s.Sound c ↔ s.Left c := by
  cases c with
  | allocate =>
      constructor
      · intro hsound
        by_contra hleft
        have hscan := h.scan_of_full (Nat.not_lt.mp hleft)
        have hbyte := hsound.1
        unfold bitIdx pidScan at hbyte
        rw [hscan] at hbyte
        revert hbyte
        decide
      · intro hleft
        obtain ⟨i, hi, hscan, hnew⟩ := h.scan_of_left hleft
        have hidx : s.bitIdx .allocate = i := by
          unfold bitIdx pidScan
          rw [hscan]
          rfl
        have hpid : s.nextPid = i + 1 := by rw [nextPid, hidx, pidOfBit_of_lt hi]
        unfold Sound
        rw [hidx, hpid]
        refine ⟨by unfold pidMax at hi; unfold pidBytes; omega, fun _ => ⟨by omega, by omega, hnew⟩⟩
  | release pid =>
      refine iff_of_true ⟨?_, fun heq => by cases heq⟩ trivial
      obtain ⟨hlow, hhigh⟩ := h.range pid hc
      change bitOfPid pid / 8 < pidBytes
      rw [bitOfPid_of_le hlow]
      unfold pidMax at hhigh
      unfold pidBytes
      omega

theorem Inv.step (h : s.Inv) {c : PidCall} (hc : s.Legal c) (hleft : s.Left c) : (s.step c).Inv := by
  cases c with
  | allocate =>
      obtain ⟨i, hi, hscan, hnew⟩ := h.scan_of_left hleft
      have hidx : s.bitIdx .allocate = i := by
        unfold bitIdx pidScan
        rw [hscan]
        rfl
      have hpid : s.nextPid = i + 1 := by rw [nextPid, hidx, pidOfBit_of_lt hi]
      unfold PidPool.step
      rw [hidx, hpid]
      refine ⟨h.bytes, List.nodup_cons.mpr ⟨hnew, h.nodup⟩, fun pid hmem => ?_, fun j hj => ?_⟩
      · rcases List.mem_cons.mp hmem with rfl | hmem
        · omega
        · exact h.range pid hmem
      · rw [bit_bitmapSet, List.mem_cons, Nat.add_right_cancel_iff]
        by_cases hji : j = i
        · simp [hji]
        · rw [if_neg hji, h.bit j hj]
          simp [hji]
  | release pid =>
      obtain ⟨hlow, hhigh⟩ := h.range pid hc
      have hstep : s.step (.release pid) =
          ⟨bitmapSet s.pidBitmap (pid - 1) false, s.outstanding.erase pid⟩ := by
        rw [← bitOfPid_of_le hlow]
        rfl
      rw [hstep]
      refine ⟨h.bytes, h.nodup.erase pid, fun q hq => h.range q (List.mem_of_mem_erase hq),
        fun j hj => ?_⟩
      rw [bit_bitmapSet, h.nodup.mem_erase_iff]
      by_cases hj' : j = pid - 1
      · have heq : j + 1 = pid := by omega
        rw [if_pos hj', heq]
        simp
      · have hne : j + 1 ≠ pid := by omega
        rw [if_neg hj', h.bit j hj]
        simp [hne]

/-- The pool after `n` calls of `allocate_pid`. -/
def allocated (s : PidPool) : ℕ → PidPool
  | 0 => s
  | n + 1 => (s.allocated n).step .allocate

theorem Inv.allocated (h : s.Inv) {n : ℕ} (hn : s.outstanding.length + n ≤ pidMax) :
    (s.allocated n).Inv ∧ (s.allocated n).outstanding.length = s.outstanding.length + n := by
  induction n with
  | zero => exact ⟨h, rfl⟩
  | succ n ih =>
      obtain ⟨hinv, hlen⟩ := ih (by omega)
      have hleft : (s.allocated n).Left .allocate := by
        change (s.allocated n).outstanding.length < pidMax
        omega
      refine ⟨hinv.step trivial hleft, ?_⟩
      change ((s.allocated n).outstanding.length + 1) = _
      omega

theorem reachable_allocated {init : PidPool → Prop} (hs : init s) (n : ℕ) :
    Reachable init (fun s c t => t = s.step c) Legal (s.allocated n) := by
  induction n with
  | zero => exact .start hs
  | succ n ih => exact .next ih (i := .allocate) trivial rfl

end PidPool

/-! ## The kernel's calls -/

/-- `allocate_pid` of a thread is the call on the pool, as long as a number is left. -/
theorem wp_allocatePid {k : Kernel} (hbytes : k.pidBitmap.btmpBytesLen = pidBytes)
    {Q : ℕ → Kernel → Prop} : allocatePid.wp Q k ↔ ((bitmapScan k.pidBitmap 1).isSome = true →
      Q (pidOfBit (pidScan k.pidBitmap))
        { k with pidBitmap := bitmapSet k.pidBitmap (pidScan k.pidBitmap) true }) := by
  simp only [allocatePid, wp_bind, wp_read, pidScan]
  rcases hscan : bitmapScan k.pidBitmap 1 with _ | i
  · simp
  · have hi := (bit_of_bitmapScan_one hscan).1
    rw [hbytes] at hi
    have hpid : pidOfBit i = i + pidStart := by
      rw [PidPool.pidOfBit_of_lt hi]
      rfl
    simp only [Option.isSome_some, Option.getD_some, forall_const, wp_bind, wp_write, wp_pure, hpid]

/-- So is `release_pid`, for a number that was handed out. -/
theorem wp_releasePid {k : Kernel} {pid : ℕ} (hlow : 1 ≤ pid) {Q : Unit → Kernel → Prop} :
    (releasePid pid).wp Q k ↔
      Q () { k with pidBitmap := bitmapSet k.pidBitmap (bitOfPid pid) false } := by
  rw [PidPool.bitOfPid_of_le hlow]
  exact Iff.rfl

open PidPool

/-- In every run in which only numbers in use are released, and one is asked for only while
one is left, a call is sound just if a number is left for it. -/
theorem pids_sound {s : PidPool}
    (hs : Reachable Init (fun s c t => t = s.step c) (fun s c => s.Legal c ∧ s.Left c) s)
    {c : PidCall} (hc : s.Legal c) : s.Sound c ↔ s.Left c := by
  have hinv : s.Inv := hs.invariant PidPool.Inv (fun _ => .init) fun s c t h hok hstep => by
    subst hstep
    exact h.step hok.1 hok.2
  exact hinv.sound_iff hc

/-- Two numbers are handed out and the first one comes back: it is handed out once more. -/
theorem pids_sound_released :
    ∃ s, Reachable Init (fun s c t => t = s.step c) (fun s c => s.Legal c ∧ s.Left c) s ∧
      s.outstanding = [2] ∧ s.nextPid = 1 ∧ (s.Sound .allocate ↔ s.Left .allocate) := by
  let start : PidPool := ⟨bitmapInit ⟨pidBytes, zeroBuf⟩, []⟩
  have hresults : (start.step .allocate).outstanding.length < pidMax ∧
      1 ∈ (start.allocated 2).outstanding ∧
      ((start.allocated 2).step (.release 1)).outstanding = [2] ∧
      ((start.allocated 2).step (.release 1)).nextPid = 1 := by
    decide +kernel
  obtain ⟨hleft, hmem, houtstanding, hnext⟩ := hresults
  have hs : Reachable Init (fun s c t => t = s.step c) (fun s c => s.Legal c ∧ s.Left c)
      ((start.allocated 2).step (.release 1)) :=
    .next (i := .release 1) (.next (i := .allocate) (.next (i := .allocate) (.start ⟨zeroBuf, rfl⟩)
      ⟨trivial, Nat.succ_pos _⟩ rfl) ⟨trivial, hleft⟩ rfl) ⟨hmem, trivial⟩ rfl
  exact ⟨_, hs, houtstanding, hnext, pids_sound hs trivial⟩

/-- The call after 1024 calls of `allocate_pid` is not sound. -/
theorem allocate_exhausted :
    ∃ s, Reachable Init (fun s c t => t = s.step c) Legal s ∧ s.Legal .allocate ∧
      ¬ s.Sound .allocate := by
  have hinit : Init ⟨bitmapInit ⟨pidBytes, zeroBuf⟩, []⟩ := ⟨zeroBuf, rfl⟩
  obtain ⟨hinv, hlen⟩ := (Inv.init hinit).allocated (n := pidMax) (by simp)
  refine ⟨_, reachable_allocated hinit pidMax, trivial, ?_⟩
  rw [hinv.sound_iff (c := .allocate) trivial]
  change ¬ (PidPool.allocated _ pidMax).outstanding.length < pidMax
  rw [hlen]
  simp

end BochsOs
