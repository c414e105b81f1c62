import BochsOs.Fs.Syscall

/-!
# Pipes

The calls of `shell/pipe.c` that make pipes and redirect descriptors.  A pipe is an entry
of `file_table` whose `fd_inode` is the page of a queue; `fd_pos` counts the descriptors
that stand for it.
-/

namespace BochsOs

open Suspend Suspend.Prog

/-- `ioqueue_init` on a cleared page. -/
def ioqueueInit : Ioqueue := ⟨fun _ => 0, 0, 0⟩

/-- `sys_pipe`: the result and the two descriptors.  Without a free entry the one before
`file_table` is written, and without a page `ioqueue_init` goes through a `NULL` pointer
before the check.  The result does not depend on whether the descriptors were installed. -/
def sysPipe : Prog Kernel (ℤ × ℤ × ℤ) := do
  match ← getFreeSlotInGlobal with
  | none => stop .undefined
  | some globalFd =>
      sysMallocUnchecked
      let k ← read
      let a := k.nextInode
      write { k with
        nextInode := a + 1
        ioqueues := Function.update k.ioqueues a ioqueueInit }
      modify (·.setFile globalFd ⟨2, pipeFlag, some a⟩)
      let fd₀ ← pcbFdInstall globalFd
      let fd₁ ← pcbFdInstall globalFd
      return (0, fd₀, fd₁)

/-- Descriptor `fd` of the process at `p` now stands for `value`. -/
def Kernel.setFd (k : Kernel) (p fd : ℕ) (value : ℤ) : Kernel :=
  k.setTask p { k.tasks p with fdTable := Function.update (k.tasks p).fdTable fd value }

/-- What `sys_dup2` stores: a standard descriptor is restored, any other one is copied. -/
def Kernel.dupValue (k : Kernel) (newLocalFd : ℕ) : ℤ :=
  if newLocalFd < 3 then newLocalFd else k.cur.fdTable newLocalFd

/-- `sys_dup2`: `oldLocalFd` now stands for what `newLocalFd` stands for. -/
def sysDup2 (newLocalFd oldLocalFd : ℕ) : Prog Kernel Unit := do
  let k ← read
  if maxFilesOpenPerProc ≤ oldLocalFd ∨ maxFilesOpenPerProc ≤ newLocalFd then stop .undefined
  else write (k.setFd k.running oldLocalFd (k.dupValue newLocalFd))

theorem wp_sysDup2 {newLocalFd oldLocalFd : ℕ} {Q : Unit → Kernel → Prop} {k : Kernel} :
    (sysDup2 newLocalFd oldLocalFd).wp Q k ↔
      (oldLocalFd < maxFilesOpenPerProc → newLocalFd < maxFilesOpenPerProc →
        Q () (k.setFd k.running oldLocalFd (k.dupValue newLocalFd))) := by
  simp only [sysDup2, wp_bind, wp_read]
  split
  next h =>
    refine iff_of_true trivial fun hold hnew => ?_
    omega
  next h => exact ⟨fun h _ _ => h, fun hQ => hQ (by omega) (by omega)⟩

/-- The first free descriptor of the running process from 3 on. -/
def Kernel.freeFd (k : Kernel) : Option ℕ :=
  (List.range' 3 (maxFilesOpenPerProc - 3)).find? fun fd => k.cur.fdTable fd = -1

theorem Kernel.freeFd_some {k : Kernel} {fd : ℕ} (h : k.freeFd = some fd) :
    3 ≤ fd ∧ fd < maxFilesOpenPerProc ∧ k.cur.fdTable fd = -1 := by
  have hmem := List.mem_range'_1.mp (List.mem_of_find?_eq_some h)
  have hfd := List.find?_some h
  exact ⟨hmem.1, by unfold maxFilesOpenPerProc at hmem ⊢; omega, by simpa using hfd⟩

theorem Kernel.freeFd_none {k : Kernel} (h : k.freeFd = none) {fd : ℕ} (hlow : 3 ≤ fd)
    (hhigh : fd < maxFilesOpenPerProc) : k.cur.fdTable fd ≠ -1 := by
  have hnone := List.find?_eq_none.mp h fd
    (List.mem_range'_1.mpr ⟨hlow, by unfold maxFilesOpenPerProc at hhigh ⊢; omega⟩)
  simpa using hnone

theorem wp_pcbFdInstall {g : ℕ} {Q : ℤ → Kernel → Prop} {k : Kernel} :
    (pcbFdInstall g).wp Q k ↔
      match k.freeFd with
      | some fd => Q fd (k.setFd k.running fd g)
      | none => Q (-1) k := by
  simp only [pcbFdInstall, wp_bind, wp_read]
  change (match k.freeFd with
    | some localFd => _
    | none => _ : Prog Kernel ℤ).wp Q k ↔ _
  cases k.freeFd with
  | none => exact Iff.rfl
  | some fd => exact Iff.rfl

end BochsOs
