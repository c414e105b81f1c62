import BochsOs.Userprog.Lifetime

/-!
# A fork that fails

`sys_fork` takes the page of the control block, the page of the buffer, a number, the bitmap and
the page directory, one after the other, and gives none of them back when a later one cannot be
had.  Even the first of them loses something when the kernel heap has a page and the kernel pool
has no frame for it.  So a call that returns `-1` leaves everything alone just when the kernel heap
has no free page (`sysFork_undone_iff`).
-/

namespace BochsOs

open Suspend Suspend.Prog

/-- What `sys_fork` takes from is as before. -/
structure ForkUndone (m m' : Memory) : Prop where
  kernelPool : m'.kernelPool = m.kernelPool
  userPool : m'.userPool = m.userPool
  kernelVaddr : m'.kernelVaddr = m.kernelVaddr
  pidBitmap : m'.kernel.pidBitmap = m.kernel.pidBitmap
  ready : m'.kernel.threadReadyList = m.kernel.threadReadyList
  all : m'.kernel.threadAllList = m.kernel.threadAllList
  fileTable : m'.kernel.fileTable = m.kernel.fileTable
  openCnts : ∀ a, (m'.kernel.inodes a).iOpenCnts = (m.kernel.inodes a).iOpenCnts

theorem ForkUndone.refl (m : Memory) : ForkUndone m m := by
  constructor <;> intros <;> rfl

namespace Paging

open Memory

/-- No page of the kernel heap is given back. -/
def HeapGrows (m m' : Memory) : Prop := ∀ j, m.kernelVaddr.bit j = true → m'.kernelVaddr.bit j = true

/-- The page that was found stays taken, also when there is no frame for it. -/
theorem getKernelPages_takes {m : Memory} {n start : ℕ} (hn : 0 < n)
    (hscan : bitmapScan m.kernelVaddr n = some start) :
    (getKernelPages n).wp (fun _ m' => m'.kernelVaddr.bit start = true) m := by
  simp only [getKernelPages, mallocPage, vaddrGet, wp_bind, wp_assert, wp_read, hscan, wp_write, wp_pure]
  rintro -
  refine wp_mono (mapPages_kernel (kernelBase_le_of_heap (Nat.le_add_right _ _))) ?_
  rintro ok m₂ ⟨hmaps, -⟩
  have hset : m₂.kernelVaddr.bit start = true := by
    rw [hmaps.rest]
    change (setBits m.kernelVaddr start true n).bit start = true
    rw [bit_setBits, if_pos ⟨le_rfl, Nat.lt_add_of_pos_right hn⟩]
  cases ok with
  | true => exact hset
  | false => exact hset

/-- When the heap has no free page, nothing is taken. -/
theorem getKernelPages_none {m : Memory} {n : ℕ} (hscan : bitmapScan m.kernelVaddr n = none) :
    (getKernelPages n).wp (fun r m' => r = none ∧ m' = m) m := by
  rw [getKernelPages, mallocPage, wp_bind, wp_assert]
  rintro -
  rw [wp_bind, vaddrGet, wp_bind, wp_read]
  dsimp only
  rw [hscan]
  exact ⟨rfl, rfl⟩

theorem copyHead_grows {m : Memory} {child : ℕ} : (copyHead child).wp (fun _ => HeapGrows m) m := by
  simp only [copyHead, wp_bind]
  refine wp_mono (getKernelPages_spec 1) ?_
  rintro (_ | buf) m₁ ⟨h₁, -⟩
  · exact h₁.vaddr
  simp only [wp_bind, copyPcbVaddrbitmapStack0]
  rw [Memory.wp_onKernel]
  refine wp_mono wp_true ?_
  intro pid k₂ _
  rw [wp_modify]
  refine wp_mono (getKernelPages_spec bitmapPgCnt) ?_
  rintro (_ | pages) m₃ ⟨h₃, -⟩
  · exact fun j hj => h₃.vaddr j (h₁.vaddr j hj)
  simp only [wp_bind, wp_modify, wp_pure, if_true, createPageDir]
  refine wp_mono (getKernelPages_spec 1) ?_
  rintro (_ | pgdir) m₄ ⟨h₄, -⟩
  · exact fun j hj => h₄.vaddr j (h₃.vaddr j (h₁.vaddr j hj))
  · simp only [wp_bind, wp_modify, wp_pure]
    exact fun j hj => h₄.vaddr j (h₃.vaddr j (h₁.vaddr j hj))

theorem sysFork_failed {m : Memory} :
    sysFork.wp (fun r m' => r = none → (bitmapScan m.kernelVaddr 1 = none → m' = m) ∧
      ∀ start, bitmapScan m.kernelVaddr 1 = some start → m'.kernelVaddr.bit start = true) m := by
  rw [sysFork, wp_bind]
  cases hscan : bitmapScan m.kernelVaddr 1 with
  | none =>
      refine wp_mono (getKernelPages_none hscan) ?_
      rintro r m₁ ⟨rfl, rfl⟩ -
      exact ⟨fun _ => rfl, fun start h => by cases h⟩
  | some start =>
      refine wp_mono (getKernelPages_takes Nat.one_pos hscan) ?_
      intro r m₁ hset
      have hlost : ∀ m', HeapGrows m₁ m' → ((some start = none → m' = m) ∧
          ∀ start', some start = some start' → m'.kernelVaddr.bit start' = true) := by
        rintro m' hgrows
        refine ⟨fun h => absurd h (Option.some_ne_none _), ?_⟩
        rintro _ ⟨⟩
        exact hgrows start hset
      cases r with
      | none => exact fun _ => hlost m₁ fun _ h => h
      | some pcb =>
          simp only [wp_bind, wp_read, wp_assert, wp_write, copyProcess]
          intro _
          refine wp_mono copyHead_grows ?_
          intro r m₂ hgrows
          cases r with
          | none => exact fun _ => hlost m₂ hgrows
          | some bufPage =>
              -- from here on the call succeeds
              simp only [wp_bind]
              refine wp_mono wp_true fun _ m₃ _ => ?_
              refine wp_mono wp_true fun _ m₄ _ => ?_
              refine wp_mono wp_true fun _ m₅ _ => ?_
              simp only [wp_pure, if_true, wp_bind]
              exact wp_mono wp_true fun _ m₆ _ h => by cases h

/-- A failing `sys_fork` leaves everything alone just when the kernel heap had no free page. -/
theorem sysFork_undone_iff {m m' : Memory} (h : sysFork.Returns m none m') :
    ForkUndone m m' ↔ bitmapScan m.kernelVaddr 1 = none := by
  obtain ⟨hnothing, hlost⟩ := wp_iff_returns.mp sysFork_failed none m' h rfl
  constructor
  · intro hundone
    by_contra hne
    obtain ⟨start, hscan⟩ := Option.ne_none_iff_exists'.mp hne
    have hclear := bit_of_bitmapScan hscan 0 Nat.one_pos
    rw [Nat.add_zero] at hclear
    have hset := hlost start hscan
    rw [hundone.kernelVaddr, hclear] at hset
    cases hset
  · intro hscan
    rw [hnothing hscan]
    exact .refl m

/-- `init` with a full kernel heap. -/
def fullHeap : Memory := { initMemory with kernelVaddr := ⟨480, fun _ => 0xff⟩ }

set_option maxRecDepth 4000 in
/-- With a full kernel heap nothing is lost. -/
theorem sysFork_undone_fullHeap : ∃ m', sysFork.Returns fullHeap none m' ∧ ForkUndone fullHeap m' := by
  have hnone : bitmapScan fullHeap.kernelVaddr 1 = none := by decide +kernel
  have hreturns : sysFork.Returns fullHeap none (after sysFork fullHeap) :=
    returns_after (by decide +kernel)
  exact ⟨_, hreturns, (sysFork_undone_iff hreturns).mpr hnone⟩

/-- `init` with one free frame in the kernel pool. -/
def lastFrame : Memory :=
  { initMemory with
    kernelPool := { initMemory.kernelPool with poolBitmap := ⟨4, fun i => if i = 3 then 0x7f else 0xff⟩ } }

/-- The control block gets the last frame and keeps it. -/
theorem sysFork_keeps_last_frame :
    ∃ m', sysFork.Returns lastFrame none m' ∧ ¬ ForkUndone lastFrame m' := by
  have hreturns : sysFork.Returns lastFrame none (after sysFork lastFrame) :=
    returns_after (by decide +kernel)
  refine ⟨_, hreturns, fun hundone => ?_⟩
  have hset : (after sysFork lastFrame).kernelVaddr.bit 26 = true := by decide +kernel
  have hclear : lastFrame.kernelVaddr.bit 26 = false := by decide +kernel
  rw [hundone.kernelVaddr, hclear] at hset
  cases hset

end Paging

end BochsOs
