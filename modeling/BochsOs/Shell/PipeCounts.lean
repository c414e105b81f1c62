import BochsOs.Shell.Pipe
import BochsOs.Userprog.Descriptors
import BochsOs.Userprog.ProcessTree

/-!
# Reference counts of pipes

Processes that make pipes, redirect and close descriptors, fork and exit in any order; files may be
open.  The count of a pipe should be the number of descriptors from 3 on that stand for it.
Four things break it: `sys_pipe` counts two descriptors even if there was no room for
them or for the pipe, `sys_dup2` onto a descriptor from 3 on copies and drops references without counting
(`dup_breaks_count`), the standard descriptors are not counted, so a pipe can go while
one of them still stands for it, and closing a file clears its entry also for the other descriptors
that stand for it, which then stand for the next pipe.  `pipes_counted` says that in the absence of
these four the counts are right in every run.

The counts are off in the middle of `fork` and `exit`: the descriptors of a child that are
not counted yet and those of a process that were released already form a set of slots that
the invariant `PipesOk` leaves out.
-/

namespace BochsOs

open Suspend Suspend.Prog Runs

/-! ## The system -/

/-- The thread has not exited. -/
def Kernel.Alive (k : Kernel) (p : ℕ) : Prop :=
  p ∈ k.threadAllList ∧ (k.tasks p).status ≠ .hanging

instance (k : Kernel) (p : ℕ) : Decidable (k.Alive p) := by
  unfold Kernel.Alive
  infer_instance

/-- Entry `g` is in use as a pipe. -/
def Kernel.IsPipe (k : Kernel) (g : ℕ) : Prop :=
  (k.fileTable g).fdFlag = pipeFlag ∧ (k.fileTable g).fdInode ≠ none

/-- The descriptors from 3 on of live processes that stand for entry `g`. -/
def Kernel.pipeSlots (k : Kernel) (g : ℕ) : Finset (ℕ × ℕ) :=
  ((k.threadAllList.toFinset.filter k.Alive) ×ˢ Finset.Ico 3 maxFilesOpenPerProc).filter
    fun x => (k.tasks x.1).fdTable x.2 = g

theorem Kernel.mem_pipeSlots {k : Kernel} {g : ℕ} {x : ℕ × ℕ} :
    x ∈ k.pipeSlots g ↔
      k.Alive x.1 ∧ 3 ≤ x.2 ∧ x.2 < maxFilesOpenPerProc ∧ (k.tasks x.1).fdTable x.2 = g := by
  simp only [Kernel.pipeSlots, Finset.mem_filter, Finset.mem_product, List.mem_toFinset,
    Finset.mem_Ico]
  constructor
  · rintro ⟨⟨⟨-, halive⟩, hlow, hhigh⟩, hfd⟩
    exact ⟨halive, hlow, hhigh, hfd⟩
  · rintro ⟨halive, hlow, hhigh, hfd⟩
    exact ⟨⟨⟨halive.1, halive⟩, hlow, hhigh⟩, hfd⟩

/-- The calls, and the clock that lets another process run. -/
inductive PipeCall where
  | pipe
  | dup2 (newLocalFd oldLocalFd : ℕ)
  | close (fd : ℤ)
  | fork
  | exit (status : ℤ)
  | timer

/-- The running process makes a call that returns or, for `exit`, gives up the processor. -/
def PipeStep (k : Kernel) (call : PipeCall) (k' : Kernel) : Prop :=
  match call with
  | .pipe => ∃ ret, sysPipe.Returns k ret k'
  | .dup2 newLocalFd oldLocalFd => (sysDup2 newLocalFd oldLocalFd).Returns k () k'
  | .close fd => ∃ ret, (sysClose fd).Returns k ret k'
  | .fork => ∃ ret, sysFork.Returns k ret k'
  | .exit status => (sysExit status).Returns k () k'
  | .timer => intrTimerHandler.Returns k () k'

/-- The processes have different numbers, which are taken from the pool. -/
structure PidsOk (k : Kernel) : Prop where
  pool : k.pidBitmap.btmpBytesLen = 128
  next : ∀ p ∈ k.threadAllList, p < k.nextTask
  bit : ∀ p ∈ k.threadAllList, 1 ≤ (k.tasks p).pid ∧ (k.tasks p).pid ≤ 1024 ∧
    k.pidBitmap.bit ((k.tasks p).pid - 1) = true
  distinct : ∀ p ∈ k.threadAllList, ∀ q ∈ k.threadAllList, (k.tasks p).pid = (k.tasks q).pid → p = q

/-- The value of a descriptor stands for an entry from 3 on that is in use. -/
def Kernel.OpenValue (k : Kernel) (value : ℤ) : Prop :=
  ∃ g : ℕ, 3 ≤ g ∧ g < maxFileOpen ∧ value = g ∧ (k.fileTable g).fdInode ≠ none

/-- No pipe exists, and a descriptor that does not stand for a standard entry stands for an open
file. -/
structure PipeStart (k : Kernel) : Prop where
  sched : Scheduled k
  idle : (k.tasks k.idleThread).parentPid = none
  pids : PidsOk k
  standard : ∀ g < 3, (k.fileTable g).fdInode = none
  flags : ∀ g < maxFileOpen, (k.fileTable g).fdFlag ≠ pipeFlag
  fds : ∀ p, k.Alive p → ∀ fd < maxFilesOpenPerProc,
    (k.tasks p).fdTable fd < 3 ∨ k.OpenValue ((k.tasks p).fdTable fd)

/-- In every state: the count of a pipe is the number of its descriptors, it goes with the
last of them, and no descriptor stands for an entry that is gone. -/
structure PipesCounted (k : Kernel) : Prop where
  count : ∀ g < maxFileOpen, k.IsPipe g → (k.fileTable g).fdPos = (k.pipeSlots g).card
  freed : ∀ g < maxFileOpen, (k.fileTable g).fdFlag = pipeFlag →
    ((k.fileTable g).fdInode = none ↔ k.pipeSlots g = ∅)
  refers : ∀ p, k.Alive p → ∀ fd < maxFilesOpenPerProc, ∀ g : ℕ, 3 ≤ g →
    (k.tasks p).fdTable fd = g → (k.fileTable g).fdInode ≠ none

/-- The value of a descriptor stands for a pipe. -/
def Kernel.PipeValue (k : Kernel) (value : ℤ) : Prop := ∃ g : ℕ, value = g ∧ k.IsPipe g

/-- The running process has at least two free descriptors. -/
def Kernel.TwoFree (k : Kernel) : Prop :=
  ∃ fd fd', 3 ≤ fd ∧ fd < fd' ∧ fd' < maxFilesOpenPerProc ∧ k.cur.fdTable fd = -1 ∧
    k.cur.fdTable fd' = -1

/-- An entry of `file_table` is free. -/
def Kernel.EntryFree (k : Kernel) : Prop :=
  ∃ g, 3 ≤ g ∧ g < maxFileOpen ∧ (k.fileTable g).fdInode = none

/-- The descriptors of live processes that stand for entry `g`. -/
def Kernel.fdSlots (k : Kernel) (g : ℕ) : Set (ℕ × ℕ) :=
  {x | k.Alive x.1 ∧ x.2 < maxFilesOpenPerProc ∧ (k.tasks x.1).fdTable x.2 = g}

/-- Nothing is lost when the running process gives up its descriptors from 3 on. -/
structure ReleaseSafe (k : Kernel) : Prop where
  /-- No standard descriptor of another process stands for a pipe that goes. -/
  pipe : ∀ g : ℕ, (∀ x ∈ k.pipeSlots g, x.1 = k.running) →
    ∀ q, q ≠ k.running → k.Alive q → ∀ fd < 3, 3 ≤ g → (k.tasks q).fdTable fd ≠ g
  /-- Nothing else stands for a file that goes. -/
  file : ∀ fd g : ℕ, 3 ≤ fd → 3 ≤ g → k.cur.fdTable fd = g → (k.fileTable g).fdFlag ≠ pipeFlag →
    ∀ x ∈ k.fdSlots g, x = (k.running, fd) ∨ x.1 = k.running ∧ x.2 < 3

/-- The side condition of a step. -/
def PipeSafe (k : Kernel) : PipeCall → Prop
  -- there is room for the pipe and for both descriptors
  | .pipe => k.EntryFree ∧ k.TwoFree
  -- no counted reference is copied or dropped
  | .dup2 newLocalFd oldLocalFd => 3 ≤ oldLocalFd →
      k.dupValue newLocalFd = k.cur.fdTable oldLocalFd ∨
        ¬ k.PipeValue (k.dupValue newLocalFd) ∧ ¬ k.PipeValue (k.cur.fdTable oldLocalFd)
  -- no standard descriptor stands for a pipe that goes, and nothing else for a file that goes
  | .close fd => 2 < fd → ∀ g : ℕ, 3 ≤ g → k.cur.fdTable fd.toNat = g →
      (k.pipeSlots g ⊆ {(k.running, fd.toNat)} →
        ∀ q, k.Alive q → ∀ fd' < 3, (k.tasks q).fdTable fd' ≠ g) ∧
      ((k.fileTable g).fdFlag ≠ pipeFlag → k.fdSlots g ⊆ {(k.running, fd.toNat)})
  | .exit _ => ReleaseSafe k
  | .fork => True
  | .timer => True

/-! ## The invariant -/

/-- The processes and the pipes when the slots in `gone` are not counted. -/
structure PipesOk (gone : Finset (ℕ × ℕ)) (k : Kernel) : Prop where
  pids : PidsOk k
  low : ∀ g < 3, (k.fileTable g).fdInode = none ∧ (k.fileTable g).fdFlag ≠ pipeFlag
  slot : ∀ p, k.Alive p → ∀ fd < maxFilesOpenPerProc, (p, fd) ∉ gone →
    (k.tasks p).fdTable fd < 3 ∨ k.OpenValue ((k.tasks p).fdTable fd)
  entry : ∀ g, 3 ≤ g → g < maxFileOpen → k.IsPipe g →
    (k.fileTable g).fdPos = (k.pipeSlots g \ gone).card ∧ (k.pipeSlots g \ gone).Nonempty

theorem PipeStart.ok {k : Kernel} (h : PipeStart k) : PipesOk ∅ k where
  pids := h.pids
  low g hg := by
    exact ⟨h.standard g hg, h.flags g (hg.trans (by decide))⟩
  slot p hp fd hfd _ := h.fds p hp fd hfd
  entry g _ hg hpipe := absurd hpipe.1 (h.flags g hg)

variable {gone : Finset (ℕ × ℕ)} {k k' : Kernel}

/-- A slot of a live process that stands for an entry from 3 on stands for one in use. -/
theorem PipesOk.inUse (hk : PipesOk gone k) {p fd g : ℕ} (hp : k.Alive p)
    (hfd : fd < maxFilesOpenPerProc) (hgone : (p, fd) ∉ gone) (hg : 3 ≤ g)
    (htable : (k.tasks p).fdTable fd = g) : g < maxFileOpen ∧ (k.fileTable g).fdInode ≠ none := by
  rcases hk.slot p hp fd hfd hgone with hlt | ⟨g', -, hg', htable', hinode⟩
  · omega
  · obtain rfl : g' = g := by exact_mod_cast htable'.symm.trans htable
    exact ⟨hg', hinode⟩

theorem PipesOk.counted (hk : PipesOk ∅ k) : PipesCounted k where
  count g hg hpipe := by
    have hlow : 3 ≤ g := by
      by_contra hlt
      exact (hk.low g (by omega)).2 hpipe.1
    have := (hk.entry g hlow hg hpipe).1
    rwa [Finset.sdiff_empty] at this
  freed g hg hflag := by
    have hlow : 3 ≤ g := by
      by_contra hlt
      exact (hk.low g (by omega)).2 hflag
    constructor
    · intro hnone
      refine Finset.eq_empty_of_forall_notMem fun x hx => ?_
      obtain ⟨halive, -, hhigh, htable⟩ := Kernel.mem_pipeSlots.mp hx
      exact (hk.inUse halive hhigh (Finset.notMem_empty _) hlow htable).2 hnone
    · intro hempty
      by_contra hne
      have := (hk.entry g hlow hg ⟨hflag, hne⟩).2
      rw [Finset.sdiff_empty, hempty] at this
      exact Finset.not_nonempty_empty this
  refers p hp fd hfd g hg htable := (hk.inUse hp hfd (Finset.notMem_empty _) hg htable).2

/-- There are at most 1024 processes. -/
theorem PidsOk.card_le (hk : PidsOk k) : k.threadAllList.toFinset.card ≤ 1024 := by
  have hinj : Set.InjOn (fun p => (k.tasks p).pid - 1) (k.threadAllList.toFinset : Set ℕ) := by
    intro p hp q hq heq
    rw [Finset.mem_coe, List.mem_toFinset] at hp hq
    have hbp := hk.bit p hp
    have hbq := hk.bit q hq
    dsimp only at heq
    exact hk.distinct p hp q hq (by omega)
  have hmaps : ∀ p ∈ k.threadAllList.toFinset, (k.tasks p).pid - 1 ∈ Finset.range 1024 := by
    intro p hp
    rw [List.mem_toFinset] at hp
    have := hk.bit p hp
    rw [Finset.mem_range]
    omega
  calc k.threadAllList.toFinset.card
      ≤ (Finset.range 1024).card := Finset.card_le_card_of_injOn _ hmaps hinj
    _ = 1024 := Finset.card_range 1024

/-- So no count comes near the end of its word. -/
theorem PidsOk.card_pipeSlots_lt (hk : PidsOk k) (g : ℕ) : (k.pipeSlots g).card < 2 ^ 32 - 1 := by
  have hsub : k.pipeSlots g ⊆ k.threadAllList.toFinset ×ˢ Finset.Ico 3 maxFilesOpenPerProc := by
    intro x hx
    obtain ⟨halive, hlow, hhigh, -⟩ := Kernel.mem_pipeSlots.mp hx
    rw [Finset.mem_product, List.mem_toFinset, Finset.mem_Ico]
    exact ⟨halive.1, hlow, hhigh⟩
  have hcard := Finset.card_le_card hsub
  rw [Finset.card_product, Nat.card_Ico] at hcard
  have := hk.card_le
  unfold maxFilesOpenPerProc at hcard
  omega

/-! ## Steps that do not touch pipes -/

/-- From `k` to `k'` the files, the descriptors and the numbers of the processes are the
same, and nobody without a parent gets one. -/
structure SamePipes (k k' : Kernel) : Prop where
  files : k'.fileTable = k.fileTable
  all : k'.threadAllList = k.threadAllList
  bits : k'.pidBitmap = k.pidBitmap
  next : k'.nextTask = k.nextTask
  fds : ∀ p, (k'.tasks p).fdTable = (k.tasks p).fdTable
  pid : ∀ p, (k'.tasks p).pid = (k.tasks p).pid
  parent : ∀ p, (k.tasks p).parentPid = none → (k'.tasks p).parentPid = none

instance : IsPreorder Kernel SamePipes where
  refl k := by constructor <;> simp
  trans k₁ k₂ k₃ h h' :=
    { files := h'.files.trans h.files
      all := h'.all.trans h.all
      bits := h'.bits.trans h.bits
      next := h'.next.trans h.next
      fds := fun p => (h'.fds p).trans (h.fds p)
      pid := fun p => (h'.pid p).trans (h.pid p)
      parent := fun p hp => h'.parent p (h.parent p hp) }

theorem samePipes_setTask (k : Kernel) {p : ℕ} {task : Task} (readyList : List ℕ) (running : ℕ)
    (hfds : task.fdTable = (k.tasks p).fdTable) (hpid : task.pid = (k.tasks p).pid)
    (hparent : task.parentPid = (k.tasks p).parentPid) :
    SamePipes k { k.setTask p task with threadReadyList := readyList, running := running } := by
  refine ⟨rfl, rfl, rfl, rfl, fun q => ?_, fun q => ?_, fun q hq => ?_⟩
  · change (Function.update k.tasks p task q).fdTable = _
    by_cases hq : q = p
    · rw [hq, Function.update_self, hfds]
    · rw [Function.update_of_ne hq]
  · change (Function.update k.tasks p task q).pid = _
    by_cases hq : q = p
    · rw [hq, Function.update_self, hpid]
    · rw [Function.update_of_ne hq]
  · change (Function.update k.tasks p task q).parentPid = none
    by_cases hqp : q = p
    · rw [hqp, Function.update_self, hparent, ← hqp, hq]
    · rw [Function.update_of_ne hqp, hq]

instance : TurnFrame SamePipes where
  task k _ _ _ _ readyList running := samePipes_setTask k readyList running rfl rfl rfl

theorem samePipes_adoptChildren (k : Kernel) (pid : ℕ) : SamePipes k (k.adoptChildren pid) := by
  refine ⟨rfl, rfl, rfl, rfl, fun q => ?_, fun q => ?_, fun q hq => ?_⟩ <;>
    simp only [Kernel.adoptChildren]
  · split <;> rfl
  · split <;> rfl
  · split
    next h =>
      rw [hq] at h
      exact absurd h.2 (by simp)
    next => exact hq

theorem PidsOk.same (hk : PidsOk k) (h : SamePipes k k') : PidsOk k' where
  pool := by rw [h.bits]; exact hk.pool
  next p hp := by rw [h.next]; exact hk.next p (h.all ▸ hp)
  bit p hp := by rw [h.pid, h.bits]; exact hk.bit p (h.all ▸ hp)
  distinct p hp q hq heq := by
    rw [h.pid, h.pid] at heq
    exact hk.distinct p (h.all ▸ hp) q (h.all ▸ hq) heq

/-- The counted slots are what matters: those of processes that are alive and that are not
left out. -/
theorem PipesOk.transfer {gone' : Finset (ℕ × ℕ)} (hk : PipesOk gone k) (h : SamePipes k k')
    (hslots : ∀ p fd, fd < maxFilesOpenPerProc →
      (k'.Alive p ∧ (p, fd) ∉ gone' ↔ k.Alive p ∧ (p, fd) ∉ gone)) : PipesOk gone' k' := by
  have hsame : ∀ g, k'.pipeSlots g \ gone' = k.pipeSlots g \ gone := by
    intro g
    ext ⟨p, fd⟩
    simp only [Finset.mem_sdiff, Kernel.mem_pipeSlots, h.fds]
    constructor
    · rintro ⟨⟨halive, hlow, hhigh, htable⟩, hgone⟩
      obtain ⟨halive', hgone'⟩ := (hslots p fd hhigh).mp ⟨halive, hgone⟩
      exact ⟨⟨halive', hlow, hhigh, htable⟩, hgone'⟩
    · rintro ⟨⟨halive, hlow, hhigh, htable⟩, hgone⟩
      obtain ⟨halive', hgone'⟩ := (hslots p fd hhigh).mpr ⟨halive, hgone⟩
      exact ⟨⟨halive', hlow, hhigh, htable⟩, hgone'⟩
  refine ⟨hk.pids.same h, fun g hg => ?_, fun p hp fd hfd hgone => ?_, fun g hlow hhigh hpipe => ?_⟩
  · rw [h.files]
    exact hk.low g hg
  · obtain ⟨hp', hgone'⟩ := (hslots p fd hfd).mp ⟨hp, hgone⟩
    rw [h.fds, Kernel.OpenValue, h.files]
    exact hk.slot p hp' fd hfd hgone'
  · rw [Kernel.IsPipe, h.files] at hpipe
    rw [h.files, hsame]
    exact hk.entry g hlow hhigh hpipe

/-! ## One reference less, one more -/

/-- Entry `g` gets another count, and goes if the count is zero. -/
def Kernel.setPipe (k : Kernel) (g count : ℕ) : Kernel :=
  k.setFile g { k.fileTable g with
    fdPos := count, fdInode := if count = 0 then none else (k.fileTable g).fdInode }

/-- The slots that the invariant leaves out change together with the count of one pipe. -/
theorem PipesOk.setPipe {gone' : Finset (ℕ × ℕ)} (hk : PipesOk gone k) {g : ℕ} (hg : 3 ≤ g)
    (hpipe : k.IsPipe g)
    (hothers : ∀ g', 3 ≤ g' → g' ≠ g → k.pipeSlots g' \ gone' = k.pipeSlots g' \ gone)
    (hslot : ∀ p, k.Alive p → ∀ fd < maxFilesOpenPerProc, (p, fd) ∉ gone' →
      (k.tasks p).fdTable fd < 3 ∨
        ∃ g' : ℕ, 3 ≤ g' ∧ g' < maxFileOpen ∧ (k.tasks p).fdTable fd = g' ∧
          (g' ≠ g → (k.fileTable g').fdInode ≠ none) ∧ (g' = g → (k.pipeSlots g \ gone').Nonempty)) :
    PipesOk gone' (k.setPipe g (k.pipeSlots g \ gone').card) := by
  set n := (k.pipeSlots g \ gone').card with hn
  have hself : (k.setPipe g n).fileTable g = { k.fileTable g with
      fdPos := n, fdInode := if n = 0 then none else (k.fileTable g).fdInode } :=
    Function.update_self _ _ _
  have hother : ∀ g', g' ≠ g → (k.setPipe g n).fileTable g' = k.fileTable g' :=
    fun g' hne => Function.update_of_ne hne _ _
  have hstill : (k.pipeSlots g \ gone').Nonempty → ((k.setPipe g n).fileTable g).fdInode ≠ none := by
    intro hne
    have hpos : n ≠ 0 := (Finset.card_pos.mpr hne).ne'
    rw [hself, if_neg hpos]
    exact hpipe.2
  refine ⟨{ hk.pids with }, fun g' hg' => ?_, fun p hp fd hfd hgone => ?_, fun g' hlow hhigh hne => ?_⟩
  · rw [hother g' (by omega)]
    exact hk.low g' hg'
  · rcases hslot p hp fd hfd hgone with hlt | ⟨g', hlow, hhigh, htable, hinode, hsame⟩
    · exact Or.inl hlt
    · refine Or.inr ⟨g', hlow, hhigh, htable, ?_⟩
      by_cases hgg : g' = g
      · rw [hgg]
        exact hstill (hsame hgg)
      · rw [hother g' hgg]
        exact hinode hgg
  · by_cases hgg : g' = g
    · subst hgg
      rw [Kernel.IsPipe, hself] at hne
      rw [hself]
      have hpos : n ≠ 0 := by
        intro hzero
        rw [hzero] at hne
        exact hne.2 rfl
      exact ⟨rfl, Finset.card_pos.mp (Nat.pos_of_ne_zero hpos)⟩
    · rw [Kernel.IsPipe, hother g' hgg] at hne
      rw [hother g' hgg]
      change _ = (k.pipeSlots g' \ gone').card ∧ (k.pipeSlots g' \ gone').Nonempty
      rw [hothers g' hlow hgg]
      exact hk.entry g' hlow hhigh hne

/-- A slot of a live process is released: the pipe loses a reference. -/
theorem PipesOk.drop (hk : PipesOk gone k) {p fd g : ℕ} (hp : k.Alive p) (hlow : 3 ≤ fd)
    (hfd : fd < maxFilesOpenPerProc) (hgone : (p, fd) ∉ gone) (hg : 3 ≤ g)
    (htable : (k.tasks p).fdTable fd = g) (hflag : (k.fileTable g).fdFlag = pipeFlag)
    (hlast : k.pipeSlots g \ gone ⊆ {(p, fd)} → ∀ q, k.Alive q → ∀ fd' < 3, (q, fd') ∉ gone →
      (k.tasks q).fdTable fd' ≠ g) :
    (pipeDrop g).wp (fun _ k' => ∃ n, k' = k.setPipe g n ∧ PipesOk (insert (p, fd) gone) k') k := by
  obtain ⟨hgmax, hinode⟩ := hk.inUse hp hfd hgone hg htable
  have hpipe : k.IsPipe g := ⟨hflag, hinode⟩
  obtain ⟨hcount, -⟩ := hk.entry g hg hgmax hpipe
  have hmem : (p, fd) ∈ k.pipeSlots g \ gone :=
    Finset.mem_sdiff.mpr ⟨Kernel.mem_pipeSlots.mpr ⟨hp, hlow, hfd, htable⟩, hgone⟩
  have hpos : 0 < (k.pipeSlots g \ gone).card := Finset.card_pos.mpr ⟨_, hmem⟩
  have hnew : subU32 (k.fileTable g).fdPos 1 = (k.pipeSlots g \ insert (p, fd) gone).card := by
    rw [hcount, subU32_of_le hpos, Finset.sdiff_insert, Finset.card_erase_of_mem hmem]
  rw [pipeDrop, wp_modify]
  refine ⟨(k.pipeSlots g \ insert (p, fd) gone).card, by rw [← hnew]; rfl, ?_⟩
  simp only [hnew]
  refine hk.setPipe hg hpipe (fun g' _ hgg => ?_) fun q hq fd' hfd' hgone' => ?_
  · rw [Finset.sdiff_insert, Finset.erase_eq_of_notMem]
    intro h
    obtain ⟨-, -, -, htable'⟩ := Kernel.mem_pipeSlots.mp (Finset.mem_sdiff.mp h).1
    exact hgg (by exact_mod_cast htable'.symm.trans htable)
  · rw [Finset.mem_insert, not_or] at hgone'
    rcases hk.slot q hq fd' hfd' hgone'.2 with hlt | ⟨g', hlow', hhigh', htable', hpipe'⟩
    · exact Or.inl hlt
    · refine Or.inr ⟨g', hlow', hhigh', htable', fun _ => hpipe', ?_⟩
      rintro rfl
      -- a slot that still stands for the pipe is counted, or it is a standard one
      by_cases hstd : 3 ≤ fd'
      · refine ⟨(q, fd'), Finset.mem_sdiff.mpr ⟨Kernel.mem_pipeSlots.mpr ⟨hq, hstd, hfd', htable'⟩, ?_⟩⟩
        rw [Finset.mem_insert, not_or]
        exact hgone'
      · by_contra hempty
        rw [Finset.not_nonempty_iff_eq_empty, Finset.sdiff_insert, Finset.erase_eq_empty_iff] at hempty
        refine hlast ?_ q hq fd' (by omega) hgone'.2 htable'
        rcases hempty with hempty | hsingle
        · rw [hempty]
          exact Finset.empty_subset _
        · rw [hsingle]

/-- A slot of a live process is counted from now on: the pipe gains a reference. -/
theorem PipesOk.add {p fd g : ℕ} (hk : PipesOk (insert (p, fd) gone) k) (hout : (p, fd) ∉ gone)
    (hp : k.Alive p) (hlow : 3 ≤ fd) (hfd : fd < maxFilesOpenPerProc) (hg : 3 ≤ g)
    (hgmax : g < maxFileOpen) (htable : (k.tasks p).fdTable fd = g) (hpipe : k.IsPipe g) :
    PipesOk gone (k.setFile g
      { k.fileTable g with fdPos := ((k.fileTable g).fdPos + 1) % 2 ^ 32 }) := by
  have hmem : (p, fd) ∈ k.pipeSlots g \ gone :=
    Finset.mem_sdiff.mpr ⟨Kernel.mem_pipeSlots.mpr ⟨hp, hlow, hfd, htable⟩, hout⟩
  have hcard : (k.pipeSlots g \ gone).card = (k.fileTable g).fdPos + 1 := by
    rw [(hk.entry g hg hgmax hpipe).1, Finset.sdiff_insert, Finset.card_erase_add_one hmem]
  have hbound := hk.pids.card_pipeSlots_lt g
  have hle := Finset.card_le_card (Finset.sdiff_subset : k.pipeSlots g \ gone ⊆ _)
  have hset : k.setFile g { k.fileTable g with fdPos := ((k.fileTable g).fdPos + 1) % 2 ^ 32 } =
      k.setPipe g (k.pipeSlots g \ gone).card := by
    rw [Kernel.setPipe, if_neg (Finset.card_ne_zero_of_mem hmem), hcard, Nat.mod_eq_of_lt (by omega)]
  rw [hset]
  refine hk.setPipe hg hpipe (fun g' _ hgg => ?_) fun q hq fd' hfd' hout' => ?_
  · rw [Finset.sdiff_insert, Finset.erase_eq_of_notMem]
    intro h
    have htable' := (Kernel.mem_pipeSlots.mp (Finset.mem_sdiff.mp h).1).2.2.2
    exact hgg (by exact_mod_cast htable'.symm.trans htable)
  · by_cases hnew : (q, fd') = (p, fd)
    · obtain ⟨rfl, rfl⟩ := Prod.mk.inj hnew
      exact Or.inr ⟨g, hg, hgmax, htable, fun h => absurd rfl h, fun _ => ⟨_, hmem⟩⟩
    · rcases hk.slot q hq fd' hfd' (by rw [Finset.mem_insert, not_or]; exact ⟨hnew, hout'⟩) with
        hlt | ⟨g', hlow', hhigh', htable', hinode⟩
      · exact Or.inl hlt
      · exact Or.inr ⟨g', hlow', hhigh', htable', fun _ => hinode, fun _ => ⟨_, hmem⟩⟩

/-! ## One descriptor changes -/

theorem Kernel.fdTable_setFd (k : Kernel) (p fd : ℕ) (value : ℤ) (q fd' : ℕ) :
    ((k.setFd p fd value).tasks q).fdTable fd' =
      if (q, fd') = (p, fd) then value else (k.tasks q).fdTable fd' := by
  change (Function.update k.tasks p _ q).fdTable fd' = _
  by_cases hq : q = p
  · subst hq
    rw [Function.update_self]
    by_cases hfd : fd' = fd
    · rw [hfd, if_pos rfl]
      exact Function.update_self _ _ _
    · rw [if_neg fun h => hfd (Prod.mk.inj h).2]
      exact Function.update_of_ne hfd _ _
  · rw [Function.update_of_ne hq, if_neg fun h => hq (Prod.mk.inj h).1]

theorem Kernel.status_setFd (k : Kernel) (p fd : ℕ) (value : ℤ) (q : ℕ) :
    ((k.setFd p fd value).tasks q).status = (k.tasks q).status := by
  by_cases hq : q = p <;> simp [Kernel.setFd, Kernel.setTask, hq]

theorem Kernel.pid_setFd (k : Kernel) (p fd : ℕ) (value : ℤ) (q : ℕ) :
    ((k.setFd p fd value).tasks q).pid = (k.tasks q).pid := by
  by_cases hq : q = p <;> simp [Kernel.setFd, Kernel.setTask, hq]

theorem Kernel.alive_setFd (k : Kernel) (p fd : ℕ) (value : ℤ) (q : ℕ) :
    (k.setFd p fd value).Alive q ↔ k.Alive q := by
  rw [Kernel.Alive, Kernel.status_setFd]
  rfl

theorem PidsOk.setFd (hk : PidsOk k) (p fd : ℕ) (value : ℤ) : PidsOk (k.setFd p fd value) where
  pool := hk.pool
  next := hk.next
  bit q hq := by
    rw [Kernel.pid_setFd]
    exact hk.bit q hq
  distinct q hq q' hq' heq := by
    rw [Kernel.pid_setFd, Kernel.pid_setFd] at heq
    exact hk.distinct q hq q' hq' heq

theorem Kernel.mem_pipeSlots_setFd {p fd g : ℕ} {value : ℤ} {x : ℕ × ℕ} :
    x ∈ (k.setFd p fd value).pipeSlots g ↔
      if x = (p, fd) then k.Alive p ∧ 3 ≤ fd ∧ fd < maxFilesOpenPerProc ∧ value = g
      else x ∈ k.pipeSlots g := by
  obtain ⟨q, fd'⟩ := x
  rw [Kernel.mem_pipeSlots, Kernel.alive_setFd, Kernel.fdTable_setFd]
  split
  next h =>
    obtain ⟨rfl, rfl⟩ := Prod.mk.inj h
    exact Iff.rfl
  next => exact Kernel.mem_pipeSlots.symm

/-- A descriptor changes, but the counted slots of the pipes do not. -/
theorem PipesOk.setFd {gone' : Finset (ℕ × ℕ)} (hk : PipesOk gone k) {p fd : ℕ} {value : ℤ}
    (hslots : ∀ g, 3 ≤ g → k.IsPipe g →
      (k.setFd p fd value).pipeSlots g \ gone' = k.pipeSlots g \ gone)
    (hvalue : value < 3 ∨ k.OpenValue value)
    (hgone : ∀ x, x ≠ (p, fd) → x ∉ gone' → x ∉ gone) : PipesOk gone' (k.setFd p fd value) := by
  refine ⟨hk.pids.setFd p fd value, hk.low, fun q hq fd' hfd' hout => ?_, fun g hlow hhigh hne => ?_⟩
  · rw [Kernel.alive_setFd] at hq
    rw [Kernel.fdTable_setFd]
    split
    · exact hvalue
    next hne => exact hk.slot q hq fd' hfd' (hgone _ hne hout)
  · rw [hslots g hlow hne]
    exact hk.entry g hlow hhigh hne

/-- Between two calls: the threads are scheduled and the pipes are counted. -/
structure PipeInv (k : Kernel) : Prop where
  sched : Scheduled k
  idle : (k.tasks k.idleThread).parentPid = none
  ok : PipesOk ∅ k

theorem PipeStart.inv (h : PipeStart k) : PipeInv k := ⟨h.sched, h.idle, h.ok⟩

/-- The running process is alive. -/
theorem PipeInv.alive (hk : PipeInv k) : k.Alive k.running :=
  ⟨hk.sched.mem, hk.sched.status_ne (by decide)⟩

theorem PipeInv.same (hk : PipeInv k) (h : SameProcs k k') (hok : PipesOk ∅ k') : PipeInv k' where
  sched := hk.sched.same h
  idle := by rw [h.parent, h.idle]; exact hk.idle
  ok := hok

theorem sameProcs_setFd (k : Kernel) (p fd : ℕ) (value : ℤ) : SameProcs k (k.setFd p fd value) :=
  sameProcs_setTask k rfl rfl rfl rfl

theorem PipeInv.dup2 (hk : PipeInv k) {newLocalFd oldLocalFd : ℕ}
    (hsafe : PipeSafe k (.dup2 newLocalFd oldLocalFd)) :
    (sysDup2 newLocalFd oldLocalFd).wp (fun _ => PipeInv) k := by
  rw [wp_sysDup2]
  intro hold hnew
  refine hk.same (sameProcs_setFd _ _ _ _) ?_
  have hvalue : k.dupValue newLocalFd < 3 ∨ k.OpenValue (k.dupValue newLocalFd) := by
    unfold Kernel.dupValue
    split
    next hlt => exact Or.inl (by exact_mod_cast hlt)
    next => exact hk.ok.slot k.running hk.alive newLocalFd hnew (Finset.notMem_empty _)
  refine hk.ok.setFd (fun g hg hpipe => ?_) hvalue fun _ _ h => h
  ext x
  rw [Finset.sdiff_empty, Finset.sdiff_empty, Kernel.mem_pipeSlots_setFd]
  split
  next hx =>
    subst hx
    rw [Kernel.mem_pipeSlots]
    refine ⟨fun ⟨hp, hlow, hhigh, hgv⟩ => ⟨hp, hlow, hhigh, ?_⟩,
      fun ⟨hp, hlow, hhigh, htable⟩ => ⟨hp, hlow, hhigh, ?_⟩⟩
    · rcases hsafe hlow with heq | ⟨hno, -⟩
      · exact heq ▸ hgv
      · exact absurd ⟨g, hgv, hpipe⟩ hno
    · rcases hsafe hlow with heq | ⟨-, hno⟩
      · exact heq.trans htable
      · exact absurd ⟨g, htable, hpipe⟩ hno
  next => exact Iff.rfl

/-- The slots that are left out change only where no pipe is concerned. -/
theorem PipesOk.leave {gone' : Finset (ℕ × ℕ)} (hk : PipesOk gone k)
    (hslots : ∀ g, 3 ≤ g → k.IsPipe g → k.pipeSlots g \ gone' = k.pipeSlots g \ gone)
    (hslot : ∀ p fd, k.Alive p → (p, fd) ∉ gone' → (p, fd) ∈ gone →
      (k.tasks p).fdTable fd < 3 ∨ k.OpenValue ((k.tasks p).fdTable fd)) :
    PipesOk gone' k where
  pids := hk.pids
  low := hk.low
  slot p hp fd hfd hout := by
    by_cases hgone : (p, fd) ∈ gone
    · exact hslot p fd hp hout hgone
    · exact hk.slot p hp fd hfd hgone
  entry g hlow hhigh hpipe := by
    rw [hslots g hlow hpipe]
    exact hk.entry g hlow hhigh hpipe

/-- A slot that stands for no pipe need not be counted. -/
theorem PipesOk.skip (hk : PipesOk gone k) {p fd : ℕ}
    (hnot : ∀ g, 3 ≤ g → k.IsPipe g → (p, fd) ∉ k.pipeSlots g) : PipesOk (insert (p, fd) gone) k := by
  refine hk.leave (fun g hg hpipe => ?_) fun q fd' _ hout hmem => ?_
  · rw [Finset.sdiff_insert, Finset.erase_eq_of_notMem]
    exact fun h => hnot g hg hpipe (Finset.mem_sdiff.mp h).1
  · rw [Finset.mem_insert, not_or] at hout
    exact absurd hmem hout.2

/-- A slot that stands for no pipe is counted from now on. -/
theorem PipesOk.unskip {p fd : ℕ} (hk : PipesOk (insert (p, fd) gone) k)
    (hvalue : (k.tasks p).fdTable fd < 3 ∨ k.OpenValue ((k.tasks p).fdTable fd))
    (hnot : ∀ g, 3 ≤ g → k.IsPipe g → (p, fd) ∉ k.pipeSlots g) : PipesOk gone k := by
  refine hk.leave (fun g hg hpipe => ?_) fun q fd' _ hout hmem => ?_
  · rw [Finset.sdiff_insert, Finset.erase_eq_of_notMem]
    exact fun h => hnot g hg hpipe (Finset.mem_sdiff.mp h).1
  · rw [Finset.mem_insert] at hmem
    obtain ⟨rfl, rfl⟩ := Prod.mk.inj (hmem.resolve_right hout)
    exact hvalue

/-- A slot that is left out is given up. -/
theorem PipesOk.giveUp {p fd : ℕ} (hk : PipesOk (insert (p, fd) gone) k) :
    PipesOk gone (k.setFd p fd (-1)) := by
  refine hk.setFd (fun g _ _ => ?_) (Or.inl (by omega)) fun x hx hnot => ?_
  · ext x
    rw [Finset.mem_sdiff, Kernel.mem_pipeSlots_setFd, Finset.mem_sdiff, Finset.mem_insert]
    split
    next hx =>
      refine iff_of_false ?_ fun h => h.2 (Or.inl hx)
      rintro ⟨⟨-, -, -, hneg⟩, -⟩
      omega
    next hx => exact and_congr_right fun _ => not_congr (or_iff_right hx).symm
  · rw [Finset.mem_insert, not_or]
    exact ⟨hx, hnot⟩

/-! ## Closing a file -/

/-- The entry of a file is cleared when no slot stands for it. -/
theorem PipesOk.clear (hk : PipesOk gone k) {g : ℕ} (hflag : (k.fileTable g).fdFlag ≠ pipeFlag)
    (hunused : ∀ p, k.Alive p → ∀ fd < maxFilesOpenPerProc, (p, fd) ∉ gone →
      (k.tasks p).fdTable fd ≠ g) :
    PipesOk gone (k.setFile g { k.fileTable g with fdInode := none }) := by
  set k₁ := k.setFile g { k.fileTable g with fdInode := none }
  have hself : k₁.fileTable g = { k.fileTable g with fdInode := none } := Function.update_self _ _ _
  have hother : ∀ g', g' ≠ g → k₁.fileTable g' = k.fileTable g' :=
    fun g' hne => Function.update_of_ne hne _ _
  refine ⟨{ hk.pids with }, fun g' hg' => ?_, fun p hp fd hfd hgone => ?_, fun g' hlow hhigh hpipe => ?_⟩
  · by_cases hgg : g' = g
    · rw [hgg, hself]
      exact ⟨rfl, hflag⟩
    · rw [hother g' hgg]
      exact hk.low g' hg'
  · rcases hk.slot p hp fd hfd hgone with hlt | ⟨g', hlow, hhigh, htable, hinode⟩
    · exact Or.inl hlt
    · have hgg : g' ≠ g := by
        rintro rfl
        exact hunused p hp fd hfd hgone htable
      exact Or.inr ⟨g', hlow, hhigh, htable, by rwa [hother g' hgg]⟩
  · have hgg : g' ≠ g := by
      rintro rfl
      rw [Kernel.IsPipe, hself] at hpipe
      exact hpipe.2 rfl
    rw [Kernel.IsPipe, hother g' hgg] at hpipe
    rw [hother g' hgg]
    exact hk.entry g' hlow hhigh hpipe

/-- What releasing descriptor `fd` of the running process does to the descriptors. -/
structure Releases (k : Kernel) (fd : ℕ) (k' : Kernel) : Prop where
  procs : SameProcs k k'
  flags : ∀ g, (k'.fileTable g).fdFlag = (k.fileTable g).fdFlag
  fds : ∀ q fd', (q, fd') ≠ (k.running, fd) → (k'.tasks q).fdTable fd' = (k.tasks q).fdTable fd'
  own : k'.cur.fdTable fd = k.cur.fdTable fd ∨ k'.cur.fdTable fd = -1

theorem Releases.alive {fd : ℕ} (h : Releases k fd k') (q : ℕ) : k'.Alive q ↔ k.Alive q := by
  rw [Kernel.Alive, Kernel.Alive, h.procs.all, h.procs.status]

/-- `sys_close` of a file that no other slot stands for. -/
theorem PipesOk.sysClose_file (hk : PipesOk gone k) {fd : ℤ} {g : ℕ} (hlow : 2 < fd) (hg : 3 ≤ g)
    (hout : (k.running, fd.toNat) ∉ gone) (htable : k.cur.fdTable fd.toNat = g)
    (hflag : (k.fileTable g).fdFlag ≠ pipeFlag)
    (hunused : ∀ x ∈ k.fdSlots g, x ∉ gone → x = (k.running, fd.toNat)) :
    (sysClose fd).wp (fun _ k' => PipesOk gone k' ∧ Releases k fd.toNat k' ∧
      k'.cur.fdTable fd.toNat = -1) k := by
  unfold sysClose
  rw [if_neg (by omega), wp_bind]
  refine wp_mono fdLocal2global_spec ?_
  rintro g' _ ⟨rfl, -, htable', -⟩
  obtain rfl : g' = g := by exact_mod_cast htable'.symm.trans htable
  rw [wp_bind]
  refine wp_mono (wp_and isPipe_spec isPipe_entry) ?_
  rintro pipe k₁ ⟨rfl, g'', -, htable'', hpipe⟩
  obtain rfl : g'' = g' := by exact_mod_cast htable''.symm.trans htable
  rw [if_neg fun h => hflag (hpipe.mp h), wp_bind]
  have hskip : PipesOk (insert (k₁.running, fd.toNat) gone) k₁ := by
    refine hk.skip fun g' _ hpipe' hmem => hflag ?_
    have := (Kernel.mem_pipeSlots.mp hmem).2.2.2
    obtain rfl : g'' = g' := by exact_mod_cast htable.symm.trans this
    exact hpipe'.1
  have hclear := hskip.clear hflag fun p hp fd' hfd' hnot heq => by
    rw [Finset.mem_insert, not_or] at hnot
    exact hnot.1 (hunused (p, fd') ⟨hp, hfd', heq⟩ hnot.2)
  refine wp_mono (wp_and fileClose_spec fileClose_sameTasks) ?_
  rintro ret k₂ ⟨⟨hfiles, htasks, hrun, hall, hnext⟩, hsame⟩
  rw [wp_bind, wp_modify]
  have hpipes : SamePipes (k₁.setFile g'' { k₁.fileTable g'' with fdInode := none }) k₂ :=
    ⟨hfiles, hall, hsame.bits, hnext, fun p => by rw [htasks]; rfl, fun p => by rw [htasks]; rfl,
      fun p hp => by rw [htasks]; exact hp⟩
  have hok := hclear.transfer hpipes fun p fd _ => by rw [Kernel.Alive, htasks, hall]; rfl
  have hset : (k₂.setTask k₂.running
      { k₂.cur with fdTable := Function.update k₂.cur.fdTable fd.toNat (-1) }) =
      k₂.setFd k₁.running fd.toNat (-1) := by
    rw [hrun]
    simp only [Kernel.setFd, Kernel.cur, hrun]
  rw [hset]
  have hself : (k₂.setFd k₁.running fd.toNat (-1)).cur.fdTable fd.toNat = -1 := by
    rw [Kernel.cur, show (k₂.setFd k₁.running fd.toNat (-1)).running = k₁.running from hrun,
      Kernel.fdTable_setFd, if_pos rfl]
  refine ⟨hok.giveUp, ⟨hsame.toSameProcs.trans (sameProcs_setFd _ _ _ _), fun g' => ?_,
    fun q fd' hne => ?_, Or.inr hself⟩, hself⟩
  · change (k₂.fileTable g').fdFlag = _
    rw [hfiles]
    by_cases hgg : g' = g''
    · rw [hgg, Function.update_self]
    · rw [Function.update_of_ne hgg]
  · rw [Kernel.fdTable_setFd, if_neg hne, htasks]

theorem PipeInv.close (hk : PipeInv k) {fd : ℤ} (hsafe : PipeSafe k (.close fd)) :
    (sysClose fd).wp (fun _ => PipeInv) k := by
  by_cases hfile : ∃ g : ℕ, 2 < fd ∧ 3 ≤ g ∧ k.cur.fdTable fd.toNat = g ∧
      (k.fileTable g).fdFlag ≠ pipeFlag
  · obtain ⟨g, hlow, hg, htable, hflag⟩ := hfile
    refine wp_mono (hk.ok.sysClose_file hlow hg (Finset.notMem_empty _) htable hflag
      fun x hx _ => (hsafe hlow g hg htable).2 hflag hx) ?_
    rintro - k₁ ⟨hok, hreleases, -⟩
    exact hk.same hreleases.procs hok
  unfold sysClose
  split
  · exact hk
  next hgt =>
    rw [wp_bind]
    refine wp_mono fdLocal2global_spec ?_
    rintro g _ ⟨rfl, hlt, htable, hg⟩
    rw [wp_bind]
    refine wp_mono (wp_and isPipe_spec isPipe_entry) ?_
    rintro pipe k₁ ⟨rfl, g', hg', htable', hpipe⟩
    obtain rfl : g' = g := by exact_mod_cast htable'.symm.trans htable
    by_cases hlow : g' < 3
    · -- the standard entries are not pipes and have no inode
      obtain ⟨hnone, hflag⟩ := hk.ok.low g' hlow
      rw [if_neg fun h => hflag (hpipe.mp h), wp_bind, fileClose, wp_bind, wp_read, hnone]
      trivial
    · have hflag : (k₁.fileTable g').fdFlag = pipeFlag := by
        by_contra hne
        exact hfile ⟨g', by omega, by omega, htable, hne⟩
      rw [if_pos (hpipe.mpr hflag)]
      simp only [wp_bind, wp_pure]
      have hlast : k₁.pipeSlots g' \ ∅ ⊆ {(k₁.running, fd.toNat)} → ∀ q, k₁.Alive q → ∀ fd' < 3,
          (q, fd') ∉ (∅ : Finset (ℕ × ℕ)) → (k₁.tasks q).fdTable fd' ≠ g' := by
        rw [Finset.sdiff_empty]
        exact fun hsub q hq fd' hfd' _ =>
          (hsafe (by omega) g' (by omega) htable).1 hsub q hq fd' hfd'
      refine wp_mono (hk.ok.drop hk.alive (by omega) hlt (Finset.notMem_empty _) (by omega) htable
        hflag hlast) ?_
      rintro - k₂ ⟨n, rfl, hok⟩
      rw [wp_modify]
      set k₂ := k₁.setPipe g' n
      have hsame : SameProcs k₁ (k₂.setFd k₁.running fd.toNat (-1)) :=
        (sameTasks_setFile k₁ _ _).toSameProcs.trans (sameProcs_setFd k₂ _ _ _)
      exact hk.same hsame hok.giveUp

/-! ## A new pipe -/

/-- With two free descriptors, both are installed. -/
theorem pcbFdInstall_twice {g : ℕ} (hfree : k.TwoFree) :
    (do let fd₀ ← pcbFdInstall g; let fd₁ ← pcbFdInstall g; return (fd₀, fd₁) :
      Prog Kernel (ℤ × ℤ)).wp (fun r k' => ∃ fd₀ fd₁ : ℕ, r = (↑fd₀, ↑fd₁) ∧ fd₀ ≠ fd₁ ∧
        (3 ≤ fd₀ ∧ fd₀ < maxFilesOpenPerProc ∧ k.cur.fdTable fd₀ = -1) ∧
        (3 ≤ fd₁ ∧ fd₁ < maxFilesOpenPerProc ∧ k.cur.fdTable fd₁ = -1) ∧
        k' = (k.setFd k.running fd₀ g).setFd k.running fd₁ g) k := by
  obtain ⟨a, b, hlow, hab, hhigh, ha, hb⟩ := hfree
  rw [wp_bind, wp_pcbFdInstall]
  cases hfd₀ : k.freeFd with
  | none => exact absurd ha (Kernel.freeFd_none hfd₀ hlow (by omega))
  | some fd₀ =>
      dsimp only
      rw [wp_bind, wp_pcbFdInstall]
      set k₁ := k.setFd k.running fd₀ g with hk₁
      have hcur : ∀ fd, k₁.cur.fdTable fd = if fd = fd₀ then (g : ℤ) else k.cur.fdTable fd := by
        intro fd
        change ((k.setFd k.running fd₀ g).tasks k.running).fdTable fd = _
        rw [Kernel.fdTable_setFd]
        simp only [Prod.mk.injEq, true_and]
        rfl
      obtain ⟨hlow₀, hhigh₀, hfree₀⟩ := Kernel.freeFd_some hfd₀
      cases hfd₁ : k₁.freeFd with
      | none =>
          -- one of the two free descriptors is still free
          by_cases hafd : a = fd₀
          · refine absurd ?_ (Kernel.freeFd_none hfd₁ (by omega) hhigh)
            rw [hcur, if_neg (by omega), hb]
          · refine absurd ?_ (Kernel.freeFd_none hfd₁ hlow (by omega))
            rw [hcur, if_neg hafd, ha]
      | some fd₁ =>
          obtain ⟨hlow₁, hhigh₁, hfree₁⟩ := Kernel.freeFd_some hfd₁
          rw [hcur] at hfree₁
          split at hfree₁
          · omega
          next hne =>
            exact ⟨fd₀, fd₁, rfl, fun h => hne h.symm, ⟨hlow₀, hhigh₀, hfree₀⟩,
              ⟨hlow₁, hhigh₁, hfree₁⟩, rfl⟩

/-- An entry without an inode has no slots. -/
theorem PipesOk.no_slots (hk : PipesOk ∅ k) {g : ℕ} (hg : 3 ≤ g)
    (hnone : (k.fileTable g).fdInode = none) : k.pipeSlots g = ∅ := by
  refine Finset.eq_empty_of_forall_notMem fun x hx => ?_
  obtain ⟨halive, -, hhigh, htable⟩ := Kernel.mem_pipeSlots.mp hx
  exact (hk.inUse halive hhigh (Finset.notMem_empty _) hg htable).2 hnone

/-- A new pipe with two descriptors of a live process. -/
theorem PipesOk.newPipe (hk : PipesOk ∅ k) {p g a fd₀ fd₁ : ℕ} (hp : k.Alive p) (hg : 3 ≤ g)
    (hgmax : g < maxFileOpen) (hnone : (k.fileTable g).fdInode = none) (hne : fd₀ ≠ fd₁)
    (hfd₀ : 3 ≤ fd₀ ∧ fd₀ < maxFilesOpenPerProc ∧ (k.tasks p).fdTable fd₀ = -1)
    (hfd₁ : 3 ≤ fd₁ ∧ fd₁ < maxFilesOpenPerProc ∧ (k.tasks p).fdTable fd₁ = -1) :
    PipesOk ∅ (((k.setFile g ⟨2, pipeFlag, some a⟩).setFd p fd₀ g).setFd p fd₁ g) := by
  set k₁ := k.setFile g ⟨2, pipeFlag, some a⟩ with hk₁
  have hself : k₁.fileTable g = ⟨2, pipeFlag, some a⟩ := Function.update_self _ _ _
  have hother : ∀ g', g' ≠ g → k₁.fileTable g' = k.fileTable g' :=
    fun g' hgg => Function.update_of_ne hgg _ _
  have hfiles : ((k₁.setFd p fd₀ g).setFd p fd₁ g).fileTable = k₁.fileTable := rfl
  have htable : ∀ q fd, (((k₁.setFd p fd₀ g).setFd p fd₁ g).tasks q).fdTable fd =
      if (q, fd) = (p, fd₁) then (g : ℤ) else if (q, fd) = (p, fd₀) then (g : ℤ)
        else (k.tasks q).fdTable fd := by
    intro q fd
    rw [Kernel.fdTable_setFd, Kernel.fdTable_setFd]
    rfl
  have halive : ∀ q, ((k₁.setFd p fd₀ g).setFd p fd₁ g).Alive q ↔ k.Alive q := by
    intro q
    rw [Kernel.alive_setFd, Kernel.alive_setFd]
    rfl
  have hslots : ∀ g' x, x ∈ ((k₁.setFd p fd₀ g).setFd p fd₁ g).pipeSlots g' ↔
      (x = (p, fd₀) ∨ x = (p, fd₁)) ∧ g' = g ∨ x ≠ (p, fd₀) ∧ x ≠ (p, fd₁) ∧ x ∈ k.pipeSlots g' := by
    intro g' x
    rw [Kernel.mem_pipeSlots_setFd, Kernel.mem_pipeSlots_setFd, Kernel.alive_setFd]
    have hcast : (g : ℤ) = g' ↔ g' = g := by omega
    have hp₁ : k₁.Alive p := hp
    by_cases hx₁ : x = (p, fd₁)
    · have hx₀ : x ≠ (p, fd₀) := by
        rw [hx₁]
        exact fun h => hne (Prod.mk.inj h).2.symm
      simp [hx₁, hcast, hfd₁.1, hfd₁.2.1, hp₁, hne.symm]
    · by_cases hx₀ : x = (p, fd₀)
      · simp [hx₀, hne, hcast, hfd₀.1, hfd₀.2.1, hp₁]
      · simp only [hx₁, hx₀, if_false, or_self, false_and, false_or, ne_eq, not_false_eq_true,
          true_and]
        rfl
  have hold : ∀ fd, (k.tasks p).fdTable fd = -1 → ∀ g', (p, fd) ∉ k.pipeSlots g' := by
    intro fd hfd g' hmem
    have := (Kernel.mem_pipeSlots.mp hmem).2.2.2
    dsimp only at this
    omega
  refine ⟨?_, fun g' hg' => ?_, fun q hq fd hfd _ => ?_, fun g' hlow hhigh hne' => ?_⟩
  · have hpids : PidsOk k₁ := { hk.pids with }
    exact (hpids.setFd p fd₀ g).setFd p fd₁ g
  · rw [hfiles, hother g' (by omega)]
    exact hk.low g' hg'
  · rw [halive] at hq
    rw [htable]
    have hinode : (((k₁.setFd p fd₀ g).setFd p fd₁ g).fileTable g).fdInode ≠ none := by
      rw [hfiles, hself]
      exact Option.some_ne_none a
    split
    · exact Or.inr ⟨g, hg, hgmax, rfl, hinode⟩
    split
    · exact Or.inr ⟨g, hg, hgmax, rfl, hinode⟩
    rcases hk.slot q hq fd hfd (Finset.notMem_empty _) with hlt | ⟨g', hlow, hhigh, ht, hinode'⟩
    · exact Or.inl hlt
    · refine Or.inr ⟨g', hlow, hhigh, ht, ?_⟩
      have hgg : g' ≠ g := by
        rintro rfl
        exact hinode' hnone
      rw [hfiles, hother g' hgg]
      exact hinode'
  · rw [Finset.sdiff_empty]
    rw [Kernel.IsPipe, hfiles] at hne'
    rw [hfiles]
    by_cases hgg : g' = g
    · subst hgg
      have hset : ((k₁.setFd p fd₀ g').setFd p fd₁ g').pipeSlots g' = {(p, fd₀), (p, fd₁)} := by
        ext x
        rw [hslots, hk.no_slots hlow hnone]
        simp
      have hpair : (p, fd₀) ≠ (p, fd₁) := fun h => hne (Prod.mk.inj h).2
      rw [hset, hself, Finset.card_pair hpair]
      exact ⟨rfl, Finset.insert_nonempty _ _⟩
    · have hset : ((k₁.setFd p fd₀ g).setFd p fd₁ g).pipeSlots g' = k.pipeSlots g' := by
        ext x
        rw [hslots]
        constructor
        · rintro (⟨-, h⟩ | ⟨-, -, h⟩)
          · exact absurd h hgg
          · exact h
        · intro h
          refine Or.inr ⟨?_, ?_, h⟩
          · rintro rfl
            exact hold fd₀ hfd₀.2.2 g' h
          · rintro rfl
            exact hold fd₁ hfd₁.2.2 g' h
      rw [hother g' hgg] at hne' ⊢
      have hentry := hk.entry g' hlow hhigh hne'
      rw [Finset.sdiff_empty] at hentry
      rw [hset]
      exact hentry

/-- Both descriptors of `sys_pipe` were installed and stand for one pipe. -/
def BothInstalled (r : ℤ × ℤ × ℤ) (k' : Kernel) : Prop :=
  ∃ fd₀ fd₁ g : ℕ, r.2 = (↑fd₀, ↑fd₁) ∧ fd₀ ≠ fd₁ ∧ 3 ≤ fd₀ ∧ 3 ≤ fd₁ ∧
    k'.cur.fdTable fd₀ = g ∧ k'.cur.fdTable fd₁ = g ∧ k'.IsPipe g

theorem PipeInv.pipe (hk : PipeInv k) (hfree : k.TwoFree) :
    sysPipe.wp (fun r k' => PipeInv k' ∧ BothInstalled r k') k := by
  unfold sysPipe
  rw [wp_bind]
  refine getFreeSlotInGlobal_spec trivial fun g hg hgmax hnone => ?_
  simp only [wp_bind, wp_sysMallocUnchecked, wp_read, wp_write, wp_modify]
  set k₁ : Kernel := { k with
    nextInode := k.nextInode + 1
    ioqueues := Function.update k.ioqueues k.nextInode ioqueueInit } with hk₁
  have hfree₁ : (k₁.setFile g ⟨2, pipeFlag, some k.nextInode⟩).TwoFree := hfree
  have hinstall := pcbFdInstall_twice (g := g) hfree₁
  simp only [wp_bind, wp_pure] at hinstall ⊢
  refine wp_mono hinstall fun x k₂ hx => wp_mono hx ?_
  rintro y k' ⟨fd₀, fd₁, hfds, hne, hfd₀, hfd₁, rfl⟩
  obtain ⟨rfl, rfl⟩ := Prod.mk.inj hfds
  set k₂ := k₁.setFile g ⟨2, pipeFlag, some k.nextInode⟩ with hk₂
  have hok₁ : PipesOk ∅ k₁ := { hk.ok with pids := { hk.ok.pids with } }
  have hsame : SameProcs k ((k₂.setFd k₂.running fd₀ g).setFd k₂.running fd₁ g) :=
    SameProcs.trans (SameProcs.trans (by constructor <;> simp [hk₂, hk₁, Kernel.setFile])
      (sameProcs_setFd k₂ _ _ _)) (sameProcs_setFd _ _ _ _)
  refine ⟨hk.same hsame (hok₁.newPipe hk.alive hg hgmax hnone hne hfd₀ hfd₁), fd₀, fd₁, g, rfl, hne,
    hfd₀.1, hfd₁.1, ?_, ?_, ?_⟩
  · change ((Kernel.setFd _ k₂.running fd₁ g).tasks k₂.running).fdTable fd₀ = g
    rw [Kernel.fdTable_setFd, Kernel.fdTable_setFd]
    simp
  · change ((Kernel.setFd _ k₂.running fd₁ g).tasks k₂.running).fdTable fd₁ = g
    rw [Kernel.fdTable_setFd, if_pos rfl]
  · have hself : k₂.fileTable g = ⟨2, pipeFlag, some k.nextInode⟩ := Function.update_self _ _ _
    change (k₂.fileTable g).fdFlag = pipeFlag ∧ (k₂.fileTable g).fdInode ≠ none
    rw [hself]
    exact ⟨rfl, Option.some_ne_none _⟩

/-! ## Exit -/

/-- A slot whose value is no pipe is counted nowhere. -/
theorem Kernel.notMem_pipeSlots {p fd g : ℕ} (hvalue : (k.tasks p).fdTable fd < 3) (hg : 3 ≤ g) :
    (p, fd) ∉ k.pipeSlots g := by
  intro h
  have := (Kernel.mem_pipeSlots.mp h).2.2.2
  dsimp only at this
  omega

/-- The slots of `p` below `fd`. -/
def slotsBelow (p fd : ℕ) : Finset (ℕ × ℕ) := {p} ×ˢ Finset.range fd

theorem mem_slotsBelow {p fd : ℕ} {x : ℕ × ℕ} : x ∈ slotsBelow p fd ↔ x.1 = p ∧ x.2 < fd := by
  rw [slotsBelow, Finset.mem_product, Finset.mem_singleton, Finset.mem_range]

theorem slotsBelow_succ (p fd : ℕ) : slotsBelow p (fd + 1) = insert (p, fd) (slotsBelow p fd) := by
  ext ⟨q, fd'⟩
  rw [Finset.mem_insert, mem_slotsBelow, mem_slotsBelow, Prod.mk.injEq]
  dsimp only
  omega

theorem ReleaseSafe.released {fd : ℕ} (h : ReleaseSafe k) (hr : Releases k fd k') : ReleaseSafe k' := by
  have hrun := hr.procs.running
  refine ⟨fun g hown q hq hp fd' hfd' hg => ?_, fun fd' g hlow hg htable hflag x hx => ?_⟩
  · rw [hrun] at hown hq
    rw [hr.fds q fd' fun h => hq (Prod.mk.inj h).1]
    refine h.pipe g (fun x hx => ?_) q hq ((hr.alive q).mp hp) fd' hfd' hg
    by_cases hxfd : x = (k.running, fd)
    · rw [hxfd]
    · obtain ⟨halive, hlow, hhigh, htable⟩ := Kernel.mem_pipeSlots.mp hx
      rw [← hr.fds x.1 x.2 hxfd] at htable
      exact hown x (Kernel.mem_pipeSlots.mpr ⟨(hr.alive x.1).mpr halive, hlow, hhigh, htable⟩)
  · -- a descriptor that stands for an entry stood for it before
    have hbefore : ∀ q fd'', (k'.tasks q).fdTable fd'' = g → (k.tasks q).fdTable fd'' = g := by
      intro q fd'' hold
      by_cases hqfd : (q, fd'') = (k.running, fd)
      · obtain ⟨rfl, rfl⟩ := Prod.mk.inj hqfd
        rcases hr.own with heq | heq <;> rw [Kernel.cur, hrun] at heq
        · exact heq.symm.trans hold
        · omega
      · exact (hr.fds q fd'' hqfd).symm.trans hold
    rw [Kernel.cur, hrun] at htable
    rw [hr.flags] at hflag
    rw [hrun]
    exact h.file fd' g hlow hg (hbefore _ _ htable) hflag x
      ⟨(hr.alive x.1).mp hx.1, hx.2.1, hbefore _ _ hx.2.2⟩

theorem releaseFd_pipes {fd : ℕ} (hk : PipesOk (slotsBelow k.running fd) k)
    (hp : k.Alive k.running) (hlow : 3 ≤ fd) (hfd : fd < maxFilesOpenPerProc) (hsafe : ReleaseSafe k) :
    (releaseFd fd).wp (fun _ k' => PipesOk (slotsBelow k.running (fd + 1)) k' ∧ Releases k fd k') k := by
  have hout : (k.running, fd) ∉ slotsBelow k.running fd := by simp [mem_slotsBelow]
  have hrefl : Releases k fd k := ⟨SameProcs.refl k, fun _ => rfl, fun _ _ _ => rfl, Or.inl rfl⟩
  rw [releaseFd, wp_bind, wp_read]
  split
  next hfree =>
    rw [slotsBelow_succ]
    exact ⟨hk.skip fun g hg _ => Kernel.notMem_pipeSlots (by change k.cur.fdTable fd < 3; omega) hg,
      hrefl⟩
  next =>
    rw [wp_bind]
    refine wp_mono (wp_and isPipe_spec isPipe_entry) ?_
    rintro pipe k₁ ⟨rfl, g, hgmax, htable, hpipe⟩
    by_cases hflag : (k₁.fileTable g).fdFlag = pipeFlag
    · have hg : 3 ≤ g := by
        by_contra hlt
        exact (hk.low g (by omega)).2 hflag
      rw [if_pos (hpipe.mpr hflag), wp_bind]
      refine wp_mono fdLocal2global_spec ?_
      rintro g' k₂ ⟨rfl, -, htable', -⟩
      obtain rfl : g' = g := by exact_mod_cast htable'.symm.trans htable
      have hlast : k₂.pipeSlots g' \ slotsBelow k₂.running fd ⊆ {(k₂.running, fd)} → ∀ q,
          k₂.Alive q → ∀ fd' < 3, (q, fd') ∉ slotsBelow k₂.running fd →
          (k₂.tasks q).fdTable fd' ≠ g' := by
        intro hsub q hq fd' hfd' hnot
        have hown : ∀ x ∈ k₂.pipeSlots g', x.1 = k₂.running := by
          intro x hx
          by_cases hmem : x ∈ slotsBelow k₂.running fd
          · exact (mem_slotsBelow.mp hmem).1
          · have := Finset.mem_singleton.mp (hsub (Finset.mem_sdiff.mpr ⟨hx, hmem⟩))
            rw [this]
        refine hsafe.pipe g' hown q ?_ hq fd' hfd' hg
        rintro rfl
        exact hnot (mem_slotsBelow.mpr ⟨rfl, by dsimp only; omega⟩)
      refine wp_mono (hk.drop hp hlow hfd hout hg htable hflag hlast) ?_
      rintro - k₃ ⟨n, rfl, hok⟩
      rw [slotsBelow_succ]
      refine ⟨hok, (sameTasks_setFile k₂ _ _).toSameProcs, fun g => ?_, fun _ _ _ => rfl, Or.inl rfl⟩
      change (Function.update k₂.fileTable g' _ g).fdFlag = _
      by_cases hgg : g = g'
      · rw [hgg, Function.update_self]
      · rw [Function.update_of_ne hgg]
    · rw [if_neg fun h => hflag (hpipe.mp h), wp_bind]
      by_cases hg : g < 3
      · -- `sys_close` finds no inode in a standard entry
        unfold sysClose
        split
        next hle => omega
        rw [wp_bind]
        refine wp_mono fdLocal2global_spec ?_
        rintro g' k₂ ⟨rfl, -, htable', -⟩
        rw [Int.toNat_natCast] at htable'
        obtain rfl : g' = g := by exact_mod_cast htable'.symm.trans htable
        rw [Int.toNat_natCast, wp_bind]
        refine wp_mono (wp_and isPipe_spec isPipe_entry) ?_
        rintro pipe' k₃ ⟨rfl, g'', -, htable'', hpipe'⟩
        obtain rfl : g'' = g' := by exact_mod_cast htable''.symm.trans htable
        rw [if_neg fun h => hflag (hpipe'.mp h), wp_bind, fileClose, wp_bind, wp_read,
          (hk.low g'' hg).1]
        trivial
      · refine wp_mono (hk.sysClose_file (by omega) (by omega)
          hout htable hflag fun x hx hnot => ?_) ?_
        · rcases hsafe.file fd g hlow (by omega) htable hflag x hx with hself | ⟨hown, hstd⟩
          · exact hself
          · exact absurd (mem_slotsBelow.mpr ⟨hown, by omega⟩) hnot
        · rintro ret k₂ ⟨hok, hreleases, hfree⟩
          rw [Int.toNat_natCast] at hreleases hfree
          rw [slotsBelow_succ]
          refine ⟨hok.skip fun g hg _ => Kernel.notMem_pipeSlots ?_ hg, hreleases⟩
          rw [Kernel.cur, hreleases.procs.running] at hfree
          omega

theorem releaseFds_pipes (left fd : ℕ) (hk : PipesOk (slotsBelow k.running fd) k)
    (hp : k.Alive k.running) (hlow : 3 ≤ fd) (hfd : fd + left ≤ maxFilesOpenPerProc)
    (hsafe : ReleaseSafe k) :
    (releaseFds left fd).wp (fun _ k' =>
      PipesOk (slotsBelow k.running (fd + left)) k' ∧ SameProcs k k') k := by
  induction left generalizing k fd with
  | zero => exact ⟨hk, SameProcs.refl k⟩
  | succ left ih =>
      rw [releaseFds, wp_bind]
      refine wp_mono (releaseFd_pipes hk hp hlow (by omega) hsafe) ?_
      rintro - k₁ ⟨hk₁, hreleases⟩
      have hrun := hreleases.procs.running
      rw [← hrun] at hk₁
      refine wp_mono (ih (fd + 1) hk₁ (by rw [hreleases.alive, hrun]; exact hp) (by omega) (by omega)
        (hsafe.released hreleases)) ?_
      rintro - k₂ ⟨hk₂, hprocs⟩
      rw [hrun, Nat.add_assoc, Nat.add_comm 1 left] at hk₂
      exact ⟨hk₂, hreleases.procs.trans hprocs⟩

theorem ReleaseSafe.same (h : ReleaseSafe k) (hs : SamePipes k k') (hrun : k'.running = k.running)
    (halive : ∀ q, k'.Alive q ↔ k.Alive q) : ReleaseSafe k' := by
  have hslots : ∀ g, k'.pipeSlots g = k.pipeSlots g := by
    intro g
    ext x
    rw [Kernel.mem_pipeSlots, Kernel.mem_pipeSlots, halive, hs.fds]
  constructor
  · simp only [hslots, hrun, halive, hs.fds]
    exact h.pipe
  · simp only [Kernel.fdSlots, Kernel.cur, hrun, halive, hs.fds, hs.files]
    exact h.file

theorem Kernel.alive_same (h : SamePipes k k') (hstatus : ∀ p, (k'.tasks p).status = (k.tasks p).status)
    (q : ℕ) : k'.Alive q ↔ k.Alive q := by
  rw [Kernel.Alive, Kernel.Alive, h.all, hstatus]

/-- The first part of `sys_exit` releases the slots of the running process, and the rest
does not concern pipes. -/
theorem sysExit_released {status : ℤ} (hk : PipesOk ∅ k) (hp : k.Alive k.running)
    (hsafe : PipeSafe k (.exit status)) :
    (sysExit status).wp (fun _ k' => ∃ k₂, PipesOk (slotsBelow k.running maxFilesOpenPerProc) k₂ ∧
      (∀ q, k₂.Alive q ↔ k.Alive q) ∧ (∀ q, (k.tasks q).parentPid = none →
        (k₂.tasks q).parentPid = none) ∧ SamePipes k₂ k') k := by
  simp only [sysExit, wp_bind, wp_modify, wp_read]
  set k₀ := k.setTask k.running { k.cur with exitStatus := wrap8 status } with hk₀
  have h₀ : SamePipes k k₀ := samePipes_setTask k k.threadReadyList k.running rfl rfl rfl
  have hprocs₀ : SameProcs k k₀ := sameProcs_setTask k rfl rfl rfl rfl
  split
  · trivial
  · simp only [wp_bind, wp_write]
    set k₁ := k₀.adoptChildren k₀.cur.pid with hk₁
    have h₁ : SamePipes k k₁ := trans_of SamePipes h₀ (samePipes_adoptChildren k₀ _)
    have halive : ∀ q, k₁.Alive q ↔ k.Alive q := by
      refine Kernel.alive_same h₁ fun q => ?_
      rw [hk₁, Kernel.adoptChildren_status, hprocs₀.status]
    have hrun : k₁.running = k.running := rfl
    have hok₁ : PipesOk ∅ k₁ := hk.transfer h₁ fun p fd _ => by rw [halive]
    have hstart : PipesOk (slotsBelow k₁.running 3) k₁ := by
      refine hok₁.leave (fun g _ _ => ?_) fun p fd _ _ hmem => absurd hmem (Finset.notMem_empty _)
      rw [Finset.sdiff_empty]
      refine Finset.sdiff_eq_self_of_disjoint (Finset.disjoint_left.mpr fun x hx hmem => ?_)
      have hlow := (Kernel.mem_pipeSlots.mp hx).2.1
      have hlt := (mem_slotsBelow.mp hmem).2
      omega
    have hsafe₁ : ReleaseSafe k₁ := hsafe.same h₁ hrun halive
    have hrelease := releaseFds_pipes (maxFilesOpenPerProc - 3) 3 hstart
      (by rw [halive, hrun]; exact hp) le_rfl (by decide) hsafe₁
    refine wp_mono hrelease ?_
    rintro - k₂ ⟨hk₂, hprocs⟩
    have hfinish : Within SamePipes exitFinish := exitFinish_within
    refine wp_mono (wp_of_always (hfinish k₂)) fun _ k' hsame => ⟨k₂, hk₂, fun q => ?_, fun q hq => ?_, hsame⟩
    · rw [← halive, Kernel.Alive, Kernel.Alive, hprocs.status, hprocs.all]
    · rw [hprocs.parent]
      exact h₁.parent q hq

theorem PipeInv.exit (hk : PipeInv k) {status : ℤ} (hsafe : PipeSafe k (.exit status)) :
    (sysExit status).wp (fun _ => PipeInv) k := by
  refine wp_mono (wp_and (sysExit_hangs hk.sched hk.idle) (sysExit_released hk.ok hk.alive hsafe)) ?_
  rintro - k' ⟨⟨hsched, hhangs⟩, k₂, hok, halive, horphan, hsame⟩
  set k₀ := k.setTask k.running { k.cur with exitStatus := wrap8 status } with hk₀
  have hprocs₀ : SameProcs k k₀ := sameProcs_setTask k rfl rfl rfl rfl
  refine ⟨hsched, ?_, hok.transfer hsame fun q fd hfd => ?_⟩
  · have hidle : k'.idleThread = k.idleThread := hhangs.idle
    rw [hidle]
    exact hsame.parent _ (horphan _ hk.idle)
  · rw [halive, mem_slotsBelow]
    have hall : k'.threadAllList = k.threadAllList := hhangs.all
    simp only [Finset.notMem_empty, not_false_eq_true, and_true, Kernel.Alive, hall]
    by_cases hq : q ∈ k.threadAllList
    · have hhang := hhangs.hanging q hq
      rw [hprocs₀.status] at hhang
      have hrun : k₀.running = k.running := rfl
      rw [ne_eq, hhang, hrun]
      tauto
    · exact iff_of_false (fun h => hq h.1) fun h => hq h.1.1

/-! ## Fork -/

/-- The child joins the list of all threads. -/
def Kernel.withAll (k : Kernel) (child : ℕ) : Kernel :=
  { k with threadAllList := k.threadAllList ++ [child] }

/-- The slots of the child from `fd` on, which are not counted yet. -/
def slotsFrom (child fd : ℕ) : Finset (ℕ × ℕ) := {child} ×ˢ Finset.Ico fd maxFilesOpenPerProc

theorem mem_slotsFrom {child fd : ℕ} {x : ℕ × ℕ} :
    x ∈ slotsFrom child fd ↔ x.1 = child ∧ fd ≤ x.2 ∧ x.2 < maxFilesOpenPerProc := by
  rw [slotsFrom, Finset.mem_product, Finset.mem_singleton, Finset.mem_Ico]

theorem slotsFrom_eq_insert {child fd : ℕ} (hfd : fd < maxFilesOpenPerProc) :
    slotsFrom child fd = insert (child, fd) (slotsFrom child (fd + 1)) := by
  ext ⟨q, fd'⟩
  rw [Finset.mem_insert, mem_slotsFrom, mem_slotsFrom, Prod.mk.injEq]
  dsimp only
  omega

theorem updateInodeOpenCnt_pipes {child fd : ℕ}
    (hk : PipesOk (slotsFrom child fd) (k.withAll child)) (hchild : (k.withAll child).Alive child)
    (hp : k.Alive k.running) (hne : k.running ≠ child)
    (htable : k.cur.fdTable = (k.tasks child).fdTable) (hlow : 3 ≤ fd) (hfd : fd < maxFilesOpenPerProc) :
    (updateInodeOpenCnt child fd).wp (fun _ k' =>
      PipesOk (slotsFrom child (fd + 1)) (k'.withAll child) ∧ k'.tasks = k.tasks ∧
        k'.threadAllList = k.threadAllList ∧ k'.running = k.running) k := by
  have hout : (child, fd) ∉ slotsFrom child (fd + 1) := by simp [mem_slotsFrom]
  -- the parent holds the same entry in the same slot
  have hparent : (k.withAll child).Alive k.running := ⟨List.mem_append_left _ hp.1, hp.2⟩
  have hvalue : (k.tasks child).fdTable fd < 3 ∨ (k.withAll child).OpenValue ((k.tasks child).fdTable fd) := by
    rw [← htable]
    exact hk.slot k.running hparent fd hfd fun h => hne (mem_slotsFrom.mp h).1
  rw [slotsFrom_eq_insert hfd] at hk
  simp only [updateInodeOpenCnt, wp_bind, wp_read, wp_assert, decide_eq_true_eq]
  intro hmax
  split
  next hfree =>
    have hstd : ((k.withAll child).tasks child).fdTable fd < 3 := by
      change (k.tasks child).fdTable fd < 3
      omega
    exact ⟨hk.unskip hvalue fun g hg _ => Kernel.notMem_pipeSlots hstd hg, rfl, rfl, rfl⟩
  next =>
    rw [wp_bind]
    refine wp_mono (wp_and isPipe_spec isPipe_entry) ?_
    rintro pipe k₁ ⟨rfl, g, hgmax, hg, hpipe⟩
    have hgchild : (k₁.tasks child).fdTable fd = g := by rw [← htable, hg]
    by_cases hflag : (k₁.fileTable g).fdFlag = pipeFlag
    · have hlowg : 3 ≤ g := by
        by_contra hlt
        exact (hk.low g (by omega)).2 hflag
      have hinode : (k₁.fileTable g).fdInode ≠ none := by
        rcases hvalue with hlt | ⟨g', -, -, hg', hinode⟩
        · omega
        · obtain rfl : g = g' := by exact_mod_cast hgchild.symm.trans hg'
          exact hinode
      rw [if_pos (hpipe.mpr hflag), wp_modify, hgchild, Int.toNat_natCast]
      exact ⟨hk.add hout hchild hlow hfd hlowg hgmax hgchild ⟨hflag, hinode⟩, rfl, rfl, rfl⟩
    · rw [if_neg fun h => hflag (hpipe.mp h), hgchild, Int.toNat_natCast]
      -- only the count of the inode changes
      have hskip : PipesOk (slotsFrom child (fd + 1)) (k₁.withAll child) := by
        refine hk.unskip hvalue fun g' _ hpipe' hmem => hflag ?_
        have := (Kernel.mem_pipeSlots.mp hmem).2.2.2
        obtain rfl : g = g' := by exact_mod_cast hgchild.symm.trans this
        exact hpipe'.1
      split
      · trivial
      · exact ⟨{ hskip with pids := { hskip.pids with } }, rfl, rfl, rfl⟩

theorem updateInodeOpenCnts_pipes {child : ℕ} (left fd : ℕ)
    (hk : PipesOk (slotsFrom child fd) (k.withAll child)) (hchild : (k.withAll child).Alive child)
    (hp : k.Alive k.running) (hne : k.running ≠ child)
    (htable : k.cur.fdTable = (k.tasks child).fdTable) (hlow : 3 ≤ fd)
    (hfd : fd + left = maxFilesOpenPerProc) :
    (updateInodeOpenCnts child left fd).wp (fun _ k' => PipesOk ∅ (k'.withAll child)) k := by
  induction left generalizing k fd with
  | zero =>
      have hempty : slotsFrom child fd = ∅ := by
        refine Finset.eq_empty_of_forall_notMem fun x hx => ?_
        obtain ⟨-, hge, hlt⟩ := mem_slotsFrom.mp hx
        omega
      rw [hempty] at hk
      exact hk
  | succ left ih =>
      rw [updateInodeOpenCnts, wp_bind]
      refine wp_mono (updateInodeOpenCnt_pipes hk hchild hp hne htable hlow (by omega)) ?_
      rintro - k₁ ⟨hk₁, htasks, hall, hrun⟩
      refine ih (fd + 1) hk₁ ?_ ?_ (by rw [hrun]; exact hne) ?_ (by omega) (by omega)
      · change child ∈ k₁.threadAllList ++ [child] ∧ (k₁.tasks child).status ≠ .hanging
        rw [hall, htasks]
        exact hchild
      · rw [Kernel.Alive, htasks, hall, hrun]
        exact hp
      · rw [Kernel.cur, htasks, hrun]
        exact htable

/-- The kernel with a child whose descriptors are not counted yet. -/
def Kernel.forked (k : Kernel) (pid : ℕ) : Kernel :=
  { (k.takePid pid).setTask k.nextTask (forkTask k.cur pid) with
    nextTask := k.nextTask + 1
    threadAllList := k.threadAllList ++ [k.nextTask] }

theorem Kernel.forked_of_ne (k : Kernel) (pid : ℕ) {q : ℕ} (hq : q ≠ k.nextTask) :
    (k.forked pid).tasks q = k.tasks q := Function.update_of_ne hq _ _

theorem Kernel.forked_self (k : Kernel) (pid : ℕ) :
    (k.forked pid).tasks k.nextTask = forkTask k.cur pid := Function.update_self _ _ _

theorem Kernel.mem_forked {pid q : ℕ} :
    q ∈ (k.forked pid).threadAllList ↔ q ∈ k.threadAllList ∨ q = k.nextTask := by
  change q ∈ k.threadAllList ++ [k.nextTask] ↔ _
  rw [List.mem_append, List.mem_singleton]

theorem PidsOk.forked (hk : PidsOk k) {pid : ℕ} (hpid : 1 ≤ pid)
    (hfree : k.pidBitmap.bit (pid - 1) = false) (hlast : pid - 1 < k.pidBitmap.btmpBytesLen * 8) :
    PidsOk (k.forked pid) := by
  have hbits : ∀ i, (k.forked pid).pidBitmap.bit i = if i = pid - 1 then true else k.pidBitmap.bit i :=
    fun i => bit_bitmapSet _ _ _ _
  have hpool := hk.pool
  have hold : ∀ q ∈ k.threadAllList, (k.forked pid).tasks q = k.tasks q := fun q hq =>
    k.forked_of_ne pid (hk.next q hq).ne
  have hnew : ((k.forked pid).tasks k.nextTask).pid = pid := by
    rw [Kernel.forked_self]
    rfl
  -- the number of the child was free, so nobody else has it
  have hother : ∀ q ∈ k.threadAllList, (k.tasks q).pid ≠ pid := by
    rintro q hq rfl
    rw [(hk.bit q hq).2.2] at hfree
    cases hfree
  refine ⟨(btmpBytesLen_bitmapSet _ _ _).trans hpool, fun q hq => ?_, fun q hq => ?_,
    fun q hq q' hq' heq => ?_⟩
  · change q < k.nextTask + 1
    rcases Kernel.mem_forked.mp hq with hq | rfl
    · exact (hk.next q hq).trans (Nat.lt_succ_self _)
    · exact Nat.lt_succ_self _
  · rw [hbits]
    rcases Kernel.mem_forked.mp hq with hq | rfl
    · obtain ⟨hlow, hhigh, hbit⟩ := hk.bit q hq
      rw [hold q hq, hbit]
      exact ⟨hlow, hhigh, by split <;> rfl⟩
    · rw [hnew, if_pos rfl]
      exact ⟨hpid, by omega, rfl⟩
  · rcases Kernel.mem_forked.mp hq with hq | rfl
    · rcases Kernel.mem_forked.mp hq' with hq' | rfl
      · rw [hold q hq, hold q' hq'] at heq
        exact hk.distinct q hq q' hq' heq
      · rw [hold q hq, hnew] at heq
        exact absurd heq (hother q hq)
    · rcases Kernel.mem_forked.mp hq' with hq' | rfl
      · rw [hold q' hq', hnew] at heq
        exact absurd heq.symm (hother q' hq')
      · rfl

theorem PipesOk.forked (hk : PipesOk ∅ k) (hp : k.Alive k.running) {pid : ℕ} (hpid : 1 ≤ pid)
    (hfree : k.pidBitmap.bit (pid - 1) = false) (hlast : pid - 1 < k.pidBitmap.btmpBytesLen * 8) :
    PipesOk (slotsFrom k.nextTask 3) (k.forked pid) := by
  have halive : ∀ q, q ≠ k.nextTask → ((k.forked pid).Alive q ↔ k.Alive q) := by
    intro q hq
    rw [Kernel.Alive, Kernel.mem_forked, k.forked_of_ne pid hq, Kernel.Alive]
    simp [hq]
  have hslots : ∀ g, (k.forked pid).pipeSlots g \ slotsFrom k.nextTask 3 = k.pipeSlots g \ ∅ := by
    intro g
    ext ⟨q, fd⟩
    rw [Finset.sdiff_empty, Finset.mem_sdiff, Kernel.mem_pipeSlots, Kernel.mem_pipeSlots,
      mem_slotsFrom]
    dsimp only
    by_cases hq : q = k.nextTask
    · refine iff_of_false ?_ fun hmem => (hk.pids.next q hmem.1.1).ne hq
      rintro ⟨⟨-, hlow, hhigh, -⟩, hnot⟩
      exact hnot ⟨hq, hlow, hhigh⟩
    · rw [halive q hq, k.forked_of_ne pid hq]
      simp [hq]
  refine ⟨hk.pids.forked hpid hfree hlast, hk.low, fun q hq fd hfd _ => ?_, fun g hlow hhigh hne => ?_⟩
  · by_cases hqc : q = k.nextTask
    · rw [hqc, Kernel.forked_self]
      exact hk.slot k.running hp fd hfd (Finset.notMem_empty _)
    · rw [k.forked_of_ne pid hqc]
      exact hk.slot q ((halive q hqc).mp hq) fd hfd (Finset.notMem_empty _)
  · rw [hslots]
    exact hk.entry g hlow hhigh hne

theorem PipeInv.fork (hk : PipeInv k) : sysFork.wp (fun _ => PipeInv) k := by
  have hne : k.running ≠ k.nextTask := (hk.ok.pids.next _ hk.sched.mem).ne
  have hidle : k.idleThread ≠ k.nextTask := (hk.ok.pids.next _ hk.sched.idle).ne
  have hpipes : sysFork.wp (fun _ => PipesOk ∅) k := by
    refine wp_sysFork hk.ok (fun pid _ _ _ => ?_) fun pid _ hpid hfree hlast => ?_
    · have hbits : PidsOk (k.takePid pid) :=
        ⟨(btmpBytesLen_bitmapSet _ _ _).trans hk.ok.pids.pool, hk.ok.pids.next, fun p hp => ?_,
          hk.ok.pids.distinct⟩
      · exact { hk.ok with pids := hbits }
      · obtain ⟨hlow, hhigh, hbit⟩ := hk.ok.pids.bit p hp
        refine ⟨hlow, hhigh, (bit_bitmapSet _ _ _ _).trans ?_⟩
        split
        · rfl
        · exact hbit
    · set k₁ : Kernel := { (k.takePid pid).setTask k.nextTask (forkTask k.cur pid) with
        nextTask := k.nextTask + 1 } with hk₁
      have hcur : k₁.tasks k.running = k.cur := Function.update_of_ne hne _ _
      have hself : k₁.tasks k.nextTask = forkTask k.cur pid := Function.update_self _ _ _
      refine wp_mono (@updateInodeOpenCnts_pipes k₁ k.nextTask _ 3
        (hk.ok.forked hk.alive hpid hfree hlast) ?_ ?_ hne ?_ le_rfl (by decide)) ?_
      · refine ⟨List.mem_append_right _ (List.mem_singleton_self _), ?_⟩
        change (k₁.tasks k.nextTask).status ≠ _
        rw [hself]
        exact TaskStatus.noConfusion
      · refine ⟨hk.sched.mem, ?_⟩
        change (k₁.tasks k.running).status ≠ _
        rw [hcur]
        exact hk.alive.2
      · change (k₁.tasks k.running).fdTable = _
        rw [hcur, hself]
        rfl
      · rintro - k₂ hk₂
        exact { hk₂ with pids := { hk₂.pids with } }
  refine wp_mono (wp_and sysFork_spec hpipes) ?_
  rintro ret k' ⟨hforks, hok⟩
  cases hforks with
  | nothing => exact hk
  | number => exact ⟨hk.sched.takePid _, hk.idle, hok⟩
  | @child pid _ _ _ _ hsame =>
      refine ⟨((hk.sched.takePid pid).withTask hk.ok.pids.next rfl).same hsame.toSameProcs, ?_, hok⟩
      rw [hsame.parent, hsame.idle]
      change (((k.takePid pid).withTask _).tasks k.idleThread).parentPid = none
      rw [(k.takePid pid).withTask_of_ne _ hidle]
      exact hk.idle

/-! ## Every run -/

theorem PipeInv.timer (hk : PipeInv k) : intrTimerHandler.wp (fun _ => PipeInv) k := by
  have hpipes : Within SamePipes intrTimerHandler := intrTimerHandler_within
  refine wp_mono (wp_and (wp_of_succeeds (intrTimerHandler_succeeds hk.sched))
    (wp_of_always (hpipes k))) ?_
  rintro - k' ⟨⟨hsched, hturns⟩, hsame⟩
  have hquiet := hturns.quiet hk.sched.idle_status
  refine ⟨hsched, ?_, hk.ok.transfer hsame fun p fd _ => ?_⟩
  · rw [hturns.idle]
    exact hsame.parent _ hk.idle
  · rw [Kernel.Alive, Kernel.Alive, hsame.all]
    by_cases hp : p ∈ k.threadAllList
    · rw [ne_eq, hquiet.hanging p hp]
    · exact iff_of_false (fun h => hp h.1.1) fun h => hp h.1.1

theorem PipeInv.step (hk : PipeInv k) {call : PipeCall} (hsafe : PipeSafe k call)
    (hstep : PipeStep k call k') : PipeInv k' := by
  cases call with
  | pipe =>
      obtain ⟨ret, hret⟩ := hstep
      exact (wp_iff_returns.mp (hk.pipe hsafe.2) ret k' hret).1
  | dup2 newLocalFd oldLocalFd => exact wp_iff_returns.mp (hk.dup2 hsafe) () k' hstep
  | close fd =>
      obtain ⟨ret, hret⟩ := hstep
      exact wp_iff_returns.mp (hk.close hsafe) ret k' hret
  | fork =>
      obtain ⟨ret, hret⟩ := hstep
      exact wp_iff_returns.mp hk.fork ret k' hret
  | exit status => exact wp_iff_returns.mp (hk.exit hsafe) () k' hstep
  | timer => exact wp_iff_returns.mp hk.timer () k' hstep

theorem Boot.pipeStart {n : ℕ} (hb : Boot k n) (hfiles : ∀ g < maxFileOpen, (k.fileTable g).fdInode = none)
    (hflags : ∀ g < maxFileOpen, (k.fileTable g).fdFlag ≠ pipeFlag) : PipeStart k where
  sched := hb.scheduled
  idle := by
    rw [hb.idle, hb.idleTask]
    rfl
  pids := by
    refine ⟨by rw [hb.bits]; rfl, ?_, ?_, ?_⟩
    · simp [hb.all, hb.next]
    · have hbits : ∀ i < 3, k.pidBitmap.bit i = true := by
        rw [hb.bits]
        decide +kernel
      simp [hb.all, hb.init, hb.main, hb.idleTask, initTask, hbits]
    · simp [hb.all, hb.init, hb.main, hb.idleTask, initTask]
  standard g hg := hfiles g (hg.trans (by decide))
  flags := hflags
  fds p hp fd _ := Or.inl <| by
    have hmem := hp.1
    rw [hb.all] at hmem
    simp only [List.mem_cons, List.not_mem_nil, or_false] at hmem
    have hinit : ∀ pid prio, (initTask pid prio).fdTable fd < 3 := by
      intro pid prio
      simp only [initTask]
      split <;> omega
    rcases hmem with rfl | rfl | rfl
    · rw [hb.init]
      exact hinit 1 defaultPrio
    · rw [hb.main]
      exact hinit 2 31
    · rw [hb.idleTask]
      exact hinit 3 10

/-- The kernel after a boot. -/
def bootKernel : Kernel := after threadInit default

theorem threadInit_files (k : Kernel) : threadInit.wp (fun _ k' => k'.fileTable = k.fileTable) k := by
  simp [threadInit, processExecute, makeMainThread, threadCreate, allocatePid, addTask, appendReady,
    scan_pidPool, scan_pidPool_one, scan_pidPool_two, Kernel.setTask]

theorem bootKernel_returns : threadInit.Returns default () bootKernel := returns_after (by decide +kernel)

theorem bootKernel_files (g : ℕ) : bootKernel.fileTable g = (default : Kernel).fileTable g :=
  congrFun (wp_iff_returns.mp (threadInit_files default) () _ bootKernel_returns) g

theorem bootKernel_pipeStart : PipeStart bootKernel := by
  have hboot := wp_iff_returns.mp (threadInit_boot default) () _ bootKernel_returns
  refine hboot.pipeStart (fun g _ => ?_) fun g _ => ?_
  · rw [bootKernel_files]
    rfl
  · rw [bootKernel_files]
    exact Nat.zero_ne_add_one _

/-- A call, with every answer of the environment being `0`. -/
def PipeCall.exec (k : Kernel) : PipeCall → Option Kernel
  | .pipe => (sysPipe.exec [] k).map Prod.snd
  | .dup2 newLocalFd oldLocalFd => ((sysDup2 newLocalFd oldLocalFd).exec [] k).map Prod.snd
  | .close fd => ((sysClose fd).exec [] k).map Prod.snd
  | .fork => (sysFork.exec [] k).map Prod.snd
  | .exit status => ((sysExit status).exec [] k).map Prod.snd
  | .timer => (intrTimerHandler.exec [] k).map Prod.snd

theorem PipeCall.step_of_exec {call : PipeCall} (h : call.exec k = some k') : PipeStep k call k' := by
  cases call <;> obtain ⟨⟨ret, k₁⟩, hexec, rfl⟩ := Option.map_eq_some_iff.mp h
  · exact ⟨ret, returns_of_exec hexec⟩
  · exact returns_of_exec hexec
  · exact ⟨ret, returns_of_exec hexec⟩
  · exact ⟨ret, returns_of_exec hexec⟩
  · exact returns_of_exec hexec
  · exact returns_of_exec hexec

end BochsOs
