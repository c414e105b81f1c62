import BochsOs.Userprog.Process

/-!
# What the calls of a process leave alone

Closing files changes neither the lists of threads nor the numbers, parents and states
of the processes.  `sysFork_spec` says what `sys_fork` does to them.  A relation that the
states of the threads do not matter for is kept when the processor changes hands
(`TurnFrame`).
-/

namespace BochsOs

open Suspend Suspend.Prog

/-! ## Closing the descriptors of a process -/

theorem inodeClose_sameTasks {k : Kernel} {a : ℕ} : (inodeClose a).wp (fun _ => SameTasks k) k := by
  simp only [inodeClose, wp_bind, wp_read]
  split
  · constructor
    · constructor <;> simp [Kernel.setInode]
    · exact fun _ => rfl
  · exact sameTasks_setInode k a _

theorem fileClose_sameTasks {k : Kernel} {fd : ℕ} : (fileClose fd).wp (fun _ => SameTasks k) k := by
  simp only [fileClose, wp_bind, wp_read]
  split
  · trivial
  · simp only [wp_bind, wp_write, wp_modify, wp_pure]
    refine wp_mono inodeClose_sameTasks ?_
    rintro - k₁ h₁
    exact ((sameTasks_setInode k _ _).trans h₁).trans (sameTasks_setFile k₁ _ _)

theorem sysClose_sameTasks {k : Kernel} {fd : ℤ} : (sysClose fd).wp (fun _ => SameTasks k) k := by
  unfold sysClose
  split
  · exact SameTasks.refl k
  · simp only [wp_bind]
    refine wp_mono fdLocal2global_spec ?_
    rintro g _ ⟨rfl, -⟩
    refine wp_mono isPipe_spec ?_
    rintro pipe k₁ rfl
    have hclear : ∀ k₂ : Kernel, SameTasks k₁ k₂ → SameTasks k₁ (k₂.setTask k₂.running
        { k₂.cur with fdTable := Function.update k₂.cur.fdTable fd.toNat (-1) }) :=
      fun k₂ h => h.trans (sameTasks_setTask k₂ rfl rfl rfl rfl rfl)
    cases pipe with
    | true =>
        rw [if_pos rfl]
        exact hclear _ (sameTasks_setFile k₁ g _)
    | false =>
        rw [if_neg Bool.false_ne_true, wp_bind]
        exact wp_mono fileClose_sameTasks fun _ k₂ h₂ => hclear k₂ h₂

theorem releaseFds_sameTasks {k : Kernel} (left fd : ℕ) :
    (releaseFds left fd).wp (fun _ => SameTasks k) k := by
  induction left generalizing k fd with
  | zero => exact SameTasks.refl k
  | succ left ih =>
      have hround : (releaseFd fd).wp (fun _ => SameTasks k) k := by
        simp only [releaseFd, wp_bind, wp_read]
        split
        · exact SameTasks.refl k
        · rw [wp_bind]
          refine wp_mono isPipe_spec ?_
          rintro pipe k₁ rfl
          cases pipe with
          | true =>
              simp only [if_true, wp_bind]
              refine wp_mono fdLocal2global_spec ?_
              rintro g _ ⟨rfl, -⟩
              exact sameTasks_setFile _ g _
          | false =>
              simp only [Bool.false_eq_true, if_false, wp_bind, wp_pure]
              exact sysClose_sameTasks
      simp only [releaseFds, wp_bind]
      refine wp_mono hround ?_
      rintro - k₁ h₁
      exact wp_mono (ih (fd + 1)) fun _ k₂ h₂ => h₁.trans h₂

/-! ## Fork -/

theorem updateInodeOpenCnts_sameTasks {k : Kernel} (child left localFd : ℕ) :
    (updateInodeOpenCnts child left localFd).wp (fun _ => SameTasks k) k := by
  induction left generalizing k localFd with
  | zero => exact SameTasks.refl k
  | succ left ih =>
      have hround : (updateInodeOpenCnt child localFd).wp (fun _ => SameTasks k) k := by
        simp only [updateInodeOpenCnt, wp_bind, wp_read, wp_assert]
        intro _
        split
        · exact SameTasks.refl k
        · rw [wp_bind]
          refine wp_mono isPipe_spec ?_
          rintro pipe k₁ rfl
          cases pipe with
          | true => exact sameTasks_setFile _ _ _
          | false =>
              rw [if_neg Bool.false_ne_true]
              split
              · trivial
              · exact sameTasks_setInode _ _ _
      simp only [updateInodeOpenCnts, wp_bind]
      refine wp_mono hround ?_
      rintro - k₁ h₁
      exact wp_mono (ih (localFd + 1)) fun _ k₂ h₂ => h₁.trans h₂

/-- The kernel with a new child of the running process. -/
def Kernel.withChild (k : Kernel) (pid : ℕ) : Kernel := k.withTask (forkTask k.cur pid)

/-- What `sys_fork` does to the processes: nothing, a number taken in vain, or a child. -/
inductive Forks (k : Kernel) : ℤ → Kernel → Prop where
  | nothing : Forks k (-1) k
  | number {pid : ℕ} (hpid : 1 ≤ pid) (hfree : k.pidBitmap.bit (pid - 1) = false) :
      Forks k (-1) (k.takePid pid)
  | child {pid : ℕ} {k' : Kernel} (hproc : k.cur.isProcess = true) (hpid : 1 ≤ pid)
      (hfree : k.pidBitmap.bit (pid - 1) = false)
      (hsame : SameTasks ((k.takePid pid).withChild pid) k') : Forks k pid k'

/-- How `sys_fork` goes: it fails before or after it has taken a number, or the descriptors
of the child are counted and the child joins the lists. -/
theorem wp_sysFork {k : Kernel} {Q : ℤ → Kernel → Prop} (hnothing : Q (-1) k)
    (hnumber : ∀ pid, 1 ≤ pid → k.pidBitmap.bit (pid - 1) = false →
      pid - 1 < k.pidBitmap.btmpBytesLen * 8 → Q (-1) (k.takePid pid))
    (hchild : ∀ pid, k.cur.isProcess = true → 1 ≤ pid → k.pidBitmap.bit (pid - 1) = false →
      pid - 1 < k.pidBitmap.btmpBytesLen * 8 →
      (updateInodeOpenCnts k.nextTask (maxFilesOpenPerProc - 3) 3).wp
        (fun _ k' => Q pid { k' with
          threadReadyList := k'.threadReadyList ++ [k.nextTask]
          threadAllList := k'.threadAllList ++ [k.nextTask] })
        { (k.takePid pid).setTask k.nextTask (forkTask k.cur pid) with nextTask := k.nextTask + 1 }) :
    sysFork.wp Q k := by
  simp only [sysFork, wp_bind, wp_sysMalloc]
  rintro (_ | _)
  · exact hnothing
  simp only [Bool.not_true, Bool.false_eq_true, if_false, wp_bind, wp_read, wp_assert, wp_sysMalloc]
  rintro hproc (_ | _)
  · exact hnothing
  simp only [Bool.not_true, Bool.false_eq_true, if_false, wp_bind]
  refine wp_mono allocatePid_spec ?_
  rintro pid k₁ ⟨hpid, hfree, hlast, hk₁⟩
  obtain rfl : k₁ = k.takePid pid := hk₁
  rw [wp_sysMalloc]
  rintro (_ | _)
  · exact hnumber pid hpid hfree hlast
  simp only [Bool.not_true, Bool.false_eq_true, if_false, wp_bind, wp_sysMalloc]
  rintro (_ | _)
  · exact hnumber pid hpid hfree hlast
  simp only [Bool.not_true, Bool.false_eq_true, if_false, wp_bind, wp_sysMallocUnchecked, wp_read,
    wp_write, wp_modify, wp_pure]
  exact hchild pid hproc hpid hfree hlast

theorem sysFork_spec {k : Kernel} : sysFork.wp (Forks k) k := by
  refine wp_sysFork .nothing (fun pid hpid hfree _ => .number hpid hfree) ?_
  intro pid hproc hpid hfree _
  refine wp_mono (updateInodeOpenCnts_sameTasks _ _ _) ?_
  rintro - k₂ h₂
  refine .child hproc hpid hfree ?_
  refine ⟨⟨?_, ?_, h₂.running, h₂.bits, h₂.next, h₂.idle, h₂.pid, h₂.parent, h₂.process, h₂.status⟩,
    h₂.exitStatus⟩
  · simp only [h₂.all]
    rfl
  · simp only [h₂.ready]
    rfl

/-! ## The processor changes hands -/

/-- A relation that the states, the time and the order of the threads do not matter for. -/
class TurnFrame (R : Kernel → Kernel → Prop) : Prop extends IsPreorder Kernel R where
  task : ∀ (k : Kernel) (p : ℕ) (status : TaskStatus) (ticks elapsedTicks : ℕ) (readyList : List ℕ)
    (running : ℕ), R k { k.setTask p { k.tasks p with
      status := status, ticks := ticks, elapsedTicks := elapsedTicks } with
      threadReadyList := readyList, running := running }

section Turn

variable {R : Kernel → Kernel → Prop} [TurnFrame R]

theorem threadUnblock_within (p : ℕ) : Within R (threadUnblock p) := by
  refine .read_bind fun k => ?_
  refine always_bind.mpr ⟨always_assert.mpr (refl k), wp_assert.mpr fun _ => ?_⟩
  refine always_bind.mpr ⟨always_assert.mpr (refl k), wp_assert.mpr fun _ => ?_⟩
  exact ⟨refl k, TurnFrame.task k p .ready (k.tasks p).ticks (k.tasks p).elapsedTicks _ k.running⟩

theorem requeue_within : Within R requeue := by
  refine .read_bind fun k => ?_
  split
  · refine always_bind.mpr ⟨always_assert.mpr (refl k), wp_assert.mpr fun _ => ?_⟩
    exact ⟨refl k, TurnFrame.task k k.running .ready k.cur.priority k.cur.elapsedTicks _ k.running⟩
  · exact refl k

theorem dispatch_within : Within R dispatch := by
  refine .read_bind fun k => ?_
  split
  · exact refl k
  next next rest _ =>
    exact ⟨refl k, TurnFrame.task k next .running (k.tasks next).ticks (k.tasks next).elapsedTicks rest next⟩

theorem schedule_within : Within R schedule := by
  refine requeue_within.bind fun _ => Within.read.bind fun k => ?_
  split
  · exact (threadUnblock_within _).bind fun _ => dispatch_within
  · exact dispatch_within

theorem threadBlock_within (status : TaskStatus) : Within R (threadBlock status) := by
  refine (Within.assert _).bind fun _ => (Within.modify fun k => ?_).bind fun _ => schedule_within
  exact TurnFrame.task k k.running status k.cur.ticks k.cur.elapsedTicks k.threadReadyList k.running

theorem exitFinish_within : Within R exitFinish := by
  refine Within.read.bind fun k => ?_
  split
  · exact .stop _
  · split
    · exact (threadUnblock_within _).bind fun _ => threadBlock_within _
    · exact threadBlock_within _

theorem intrTimerHandler_within : Within R intrTimerHandler := by
  refine .read_bind fun k => ?_
  set k₁ := k.setTask k.running { k.cur with elapsedTicks := k.cur.elapsedTicks + 1 } with hk₁
  have h₁ : R k k₁ :=
    TurnFrame.task k k.running k.cur.status k.cur.ticks (k.cur.elapsedTicks + 1) k.threadReadyList
      k.running
  refine ⟨refl k, ?_⟩
  split
  · exact schedule_within.always_of h₁
  · refine ⟨h₁, ?_⟩
    exact trans_of R h₁ (TurnFrame.task k₁ k₁.running k₁.cur.status (k₁.cur.ticks - 1)
      k₁.cur.elapsedTicks k₁.threadReadyList k₁.running)

end Turn

end BochsOs
