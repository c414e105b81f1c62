import BochsOs.Kernel.Paging

/-!
# How many pages `sys_malloc` asks for

`sys_malloc` admits a size below that of the pool, adds the header of an arena and rounds up to
pages; `malloc_page` asserts that it is asked for less than 3840 pages.  A pool has up to 65535
pages, so that for a pool of 3839 pages or more there are sizes that pass the first test and
fail the second (`allocates_iff`).  The page count itself is never too small.
-/

namespace BochsOs

open Runs

/-- The largest size with a page count that `malloc_page` accepts. -/
def maxLarge : ℕ := 3839 * pgSize - arenaSize

/-- `sys_malloc` together with the `ASSERT` of `malloc_page`, which otherwise answers `page`. -/
def BlockHeap.sysMallocPages (h : BlockHeap) (o : Owner) (size : ℕ) (page : Option ℕ) :
    Option HeapResult :=
  if Paging.asksPages h o size then
    if 0 < pagesFor size ∧ pagesFor size < 3840 then h.sysMalloc o size page else none
  else h.sysMalloc o size none

/-- What `malloc_page` may answer to a call of `sys_malloc`. -/
def HeapSystem.MayGet (o : Owner) (s : HeapSystem) (size : ℕ) (page : Option ℕ) : Prop :=
  ∀ a ∈ page, IsRun o (a, pagesFor size) ∧ ∀ r ∈ s.runs, Apart (a, pagesFor size) r

/-- `sys_malloc(size)` returns `NULL` or a block with room for `size` bytes, whatever
`malloc_page` answers, and asks for pages enough for the block and the header. -/
structure HeapSystem.Allocates (o : Owner) (s : HeapSystem) (size : ℕ) : Prop where
  returns : ∀ page, s.MayGet o size page → ∃ res, s.heap.sysMallocPages o size page = some res ∧
    ∀ ptr ∈ res.ptr, IsBlock o res.heap (res.pages.toList ++ s.runs) (ptr, size)
  enough : Paging.asksPages s.heap o size = true → 1024 < size →
    size + arenaSize ≤ pagesFor size * pgSize

section Sizes

variable {o : Owner} {h : BlockHeap} {size : ℕ}

/-- An admitted size is small against 32 bits. -/
theorem poolSize_lt (o : Owner) : o.poolSize < 2 ^ 28 := by
  have hpages := o.freePages.toNat_lt
  simp only [Owner.poolSize, pgSize]
  omega

/-- For an admitted large size the page count is the exact one. -/
theorem pagesFor_eq (hbig : 1024 < size) (hlt : size < o.poolSize) :
    pagesFor size = (size + arenaSize + (pgSize - 1)) / pgSize := by
  have hpool := poolSize_lt o
  have hsum : (size + arenaSize) % 2 ^ 32 = size + arenaSize := by
    refine Nat.mod_eq_of_lt ?_
    simp only [arenaSize]
    omega
  have hround : (size + arenaSize + (pgSize - 1)) % 2 ^ 32 = size + arenaSize + (pgSize - 1) := by
    refine Nat.mod_eq_of_lt ?_
    simp only [arenaSize, pgSize]
    omega
  rw [pagesFor, if_pos hbig, divRoundUp, hsum, hround]

/-- The page count of a large size passes the `ASSERT` up to `maxLarge`. -/
theorem pagesFor_lt_iff (hbig : 1024 < size) (hlt : size < o.poolSize) :
    (0 < pagesFor size ∧ pagesFor size < 3840) ↔ size ≤ maxLarge := by
  rw [pagesFor_eq hbig hlt]
  simp only [maxLarge, arenaSize, pgSize]
  omega

theorem asksPages_iff : Paging.asksPages h o size = true ↔ 0 < size ∧ size < o.poolSize ∧
    (1024 < size ∨ ∀ i ∈ (List.range descCnt).find? fun i => size ≤ blockSize i,
      h.freeList (o.descs, i) = []) := by
  simp only [Paging.asksPages, decide_eq_true_iff]

/-- A size that `malloc_page` refuses is a large one. -/
theorem large_of_refused (hasks : Paging.asksPages h o size = true)
    (hrefused : ¬ (0 < pagesFor size ∧ pagesFor size < 3840)) :
    1024 < size ∧ size < o.poolSize ∧ maxLarge < size := by
  obtain ⟨-, hlt, -⟩ := asksPages_iff.mp hasks
  have hbig : 1024 < size := by
    by_contra hsmall
    rw [pagesFor, if_neg hsmall] at hrefused
    exact hrefused ⟨by decide, by decide⟩
  refine ⟨hbig, hlt, ?_⟩
  rw [pagesFor_lt_iff hbig hlt] at hrefused
  exact Nat.lt_of_not_le hrefused

end Sizes

/-- In every state of a heap, `sys_malloc` does its work or fails cleanly exactly for sizes that
are not admitted or not too large for `malloc_page`. -/
theorem allocates_iff (o : Owner) (s : HeapSystem) (size : ℕ)
    (hs : Reachable (HeapSystem.Start o) (HeapSystem.Step o) (fun _ _ => True) s) :
    s.Allocates o size ↔ o.poolSize ≤ size ∨ size ≤ maxLarge := by
  have hinv : s.Inv o :=
    hs.invariant (HeapSystem.Inv o) (fun _ hstart => hstart.inv) fun _ _ _ hi _ hstep => hi.step hstep
  have hnull : s.MayGet o size none := fun _ ha => by cases ha
  constructor
  · intro h
    by_contra hcond
    push Not at hcond
    obtain ⟨hlt, hlarge⟩ := hcond
    have hbig : 1024 < size := lt_trans (by decide) hlarge
    have hasks : Paging.asksPages s.heap o size = true :=
      asksPages_iff.mpr ⟨by omega, hlt, Or.inl hbig⟩
    obtain ⟨res, hres, -⟩ := h.returns none hnull
    rw [BlockHeap.sysMallocPages, if_pos hasks,
      if_neg fun hcount => Nat.not_le_of_lt hlarge ((pagesFor_lt_iff hbig hlt).mp hcount)] at hres
    cases hres
  · intro hcond
    refine ⟨fun page hpage => ?_, fun hasks hbig => ?_⟩
    · -- whatever reaches the allocator, it is sound with it
      have hcall : ∃ page', s.heap.sysMallocPages o size page = s.heap.sysMalloc o size page' ∧
          s.MayGet o size page' := by
        unfold BlockHeap.sysMallocPages
        by_cases hasks : Paging.asksPages s.heap o size = true
        · rw [if_pos hasks]
          by_cases hcount : 0 < pagesFor size ∧ pagesFor size < 3840
          · rw [if_pos hcount]
            exact ⟨page, rfl, hpage⟩
          · obtain ⟨-, hlt, hlarge⟩ := large_of_refused hasks hcount
            omega
        · rw [if_neg hasks]
          exact ⟨none, rfl, hnull⟩
      obtain ⟨page', heq, hget⟩ := hcall
      obtain ⟨res, hres, hinv', -⟩ := hinv.1.sysMalloc hinv.2 size page' hget
      refine ⟨res, heq.trans hres, fun ptr hptr => hinv'.block _ ?_⟩
      rw [Option.mem_def.mp hptr]
      exact List.mem_append_left _ (List.mem_singleton_self _)
    · obtain ⟨-, hlt, -⟩ := asksPages_iff.mp hasks
      rw [Nat.add_comm]
      exact pagesFor_mul_ge hbig hlt

/-- A process with the pool of a machine of 32 MiB, before its first call. -/
def userHeap : HeapSystem := ⟨⟨fun _ => default, fun _ => []⟩, [], []⟩

theorem userHeap_start : Reachable (HeapSystem.Start ⟨false, 1, 3840⟩)
    (HeapSystem.Step ⟨false, 1, 3840⟩) (fun _ _ => True) userHeap := .start ⟨rfl, rfl, fun _ => rfl⟩

/-- A request for 1 MiB. -/
theorem allocates_iff_mebibyte : Reachable (HeapSystem.Start ⟨false, 1, 3840⟩)
    (HeapSystem.Step ⟨false, 1, 3840⟩) (fun _ _ => True) userHeap ∧
      userHeap.Allocates ⟨false, 1, 3840⟩ 0x100000 :=
  ⟨userHeap_start, (allocates_iff ⟨false, 1, 3840⟩ userHeap 0x100000 userHeap_start).mpr
    (Or.inr (by decide))⟩

/-- A request for one byte less than the pool has fails the `ASSERT` of `malloc_page`. -/
theorem not_allocates_pool : Reachable (HeapSystem.Start ⟨false, 1, 3840⟩)
    (HeapSystem.Step ⟨false, 1, 3840⟩) (fun _ _ => True) userHeap ∧
      ¬ userHeap.Allocates ⟨false, 1, 3840⟩ 0xefffff := by
  refine ⟨userHeap_start, fun h => ?_⟩
  obtain ⟨res, hres, -⟩ := h.returns none fun _ ha => by cases ha
  rw [BlockHeap.sysMallocPages, if_pos (by decide), if_neg (by decide)] at hres
  cases hres

end BochsOs
