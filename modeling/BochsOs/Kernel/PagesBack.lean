import BochsOs.Kernel.PageRuns

/-!
# Pages given back

`mfree_page` right after `malloc_page`.  The frames of the pages are found through the page
tables, and which pool they go to is decided by their addresses; so the pools must lie where
`mem_pool_init` put them (`Memory.Booted`).

`mfreePage_undoes`: what `malloc_page` mapped, `mfree_page` gives back.
-/

namespace BochsOs

open Suspend Suspend.Prog

namespace Memory

/-! ## Where the pools lie -/

/-- The pool has the place and the size that `mem_pool_init` gave it. -/
structure Matches (p : Pool) (area : PoolArea) : Prop where
  start : p.phyAddrStart = area.phyAddrStart.toNat
  len : p.poolBitmap.btmpBytesLen = area.poolBitmap.btmpBytesLen.toNat

/-- The pools are those of `mem_pool_init`. -/
structure Booted (allMem : UInt32) (m : Memory) : Prop where
  enough : 0x200000 ≤ allMem
  kernel : Matches m.kernelPool (memPoolInit allMem).kernelPool
  user : Matches m.userPool (memPoolInit allMem).userPool

/-- What `mfree_page` relies on to tell the pools apart. -/
structure PoolsApart (m : Memory) : Prop where
  aligned : ∀ q, (m.pool q).phyAddrStart % pgSize = 0
  low : 0x102000 ≤ m.kernelPool.phyAddrStart
  apart : m.kernelPool.phyAddrStart + 8 * m.kernelPool.poolBitmap.btmpBytesLen * pgSize ≤
    m.userPool.phyAddrStart

theorem Booted.poolsApart {allMem : UInt32} {m : Memory} (h : m.Booted allMem) : m.PoolsApart := by
  have hsafe := memPoolInit_safe allMem h.enough
  have hlow : (memPoolInit allMem).kernelPool.phyAddrStart.toNat = 0x200000 := rfl
  refine ⟨fun q => ?_, ?_, ?_⟩
  · cases q with
    | kernel =>
        change m.kernelPool.phyAddrStart % pgSize = 0
        rw [h.kernel.start]
        exact Nat.mod_eq_zero_of_dvd hsafe.kernelPool.start
    | user =>
        change m.userPool.phyAddrStart % pgSize = 0
        rw [h.user.start]
        exact Nat.mod_eq_zero_of_dvd hsafe.userPool.start
  · rw [h.kernel.start, hlow]
    decide
  · have hbytes := (bitmapBytes_le allMem).1
    have hsize := hsafe.exact.kernelSize
    have hstart := hsafe.exact.userStart
    rw [h.kernel.start, h.kernel.len, h.user.start]
    simp only [pgSize] at hsize ⊢
    omega

/-! ## Unmapping pages -/

/-- The state after `pfree` of the frame with bit `i` of a pool. -/
def giveBack (m : Memory) (pf : PoolFlags) (i : ℕ) : Memory :=
  m.setPool pf (bitmapSet (m.pool pf).poolBitmap i false)

/-- From `m` to `m'` the `n` pages from `v` on were unmapped, and their frames given back. -/
structure Unmapped (pf : PoolFlags) (v n : ℕ) (m m' : Memory) : Prop where
  rest : m' = { m with
    kernelPool := m'.kernelPool, userPool := m'.userPool, kernelTable := m'.kernelTable
    pageTable := m'.pageTable }
  start : ∀ q, (m'.pool q).phyAddrStart = (m.pool q).phyAddrStart
  len : ∀ q, (m'.pool q).poolBitmap.btmpBytesLen = (m.pool q).poolBitmap.btmpBytesLen
  /-- Just these frames are free again. -/
  bits : ∀ q y, (m'.pool q).poolBitmap.bit y = true ↔ (m.pool q).poolBitmap.bit y = true ∧
    ¬ (q = pf ∧ ∃ c < n, m.mapping (v + c * pgSize) = some (m.frameAt pf y))
  absent : ∀ c < n, m'.mapping (v + c * pgSize) = none
  other : ∀ w, (∀ c < n, w / pgSize ≠ v / pgSize + c) → m'.mapping w = m.mapping w

section Unmapped

variable {m m₁ m₂ : Memory} {pf q : PoolFlags} {v n i y : ℕ}

theorem bit_giveBack : ((m.giveBack pf i).pool q).poolBitmap.bit y = true ↔
    (m.pool q).poolBitmap.bit y = true ∧ ¬ (q = pf ∧ y = i) := by
  have hbit := bit_bitmapSet (m.pool pf).poolBitmap i y false
  have hsame : (bitmapSet (m.pool pf).poolBitmap i false).bit y = true ↔
      (m.pool pf).poolBitmap.bit y = true ∧ ¬ y = i := by
    rw [hbit]
    split
    next h => simp [h]
    next h => simp [h]
  cases pf <;> cases q <;> simp only [reduceCtorEq, false_and, true_and, not_false_eq_true, and_true]
  · exact hsame
  · rfl
  · rfl
  · exact hsame

theorem start_giveBack : ((m.giveBack pf i).pool q).phyAddrStart = (m.pool q).phyAddrStart := by
  cases pf <;> cases q <;> rfl

theorem len_giveBack : ((m.giveBack pf i).pool q).poolBitmap.btmpBytesLen =
    (m.pool q).poolBitmap.btmpBytesLen := by
  cases pf <;> cases q <;> rfl

theorem pte_giveBack (w : ℕ) : (m.giveBack pf i).pte w = m.pte w := by
  cases pf <;> rfl

theorem TablesApart.giveBack (ht : m.TablesApart) : (m.giveBack pf i).TablesApart := by
  have hdir : (m.giveBack pf i).dir = m.dir := by
    cases pf <;> rfl
  rw [TablesApart, hdir]
  exact ht

theorem Unmapped.refl : Unmapped pf v 0 m m :=
  ⟨rfl, fun _ => rfl, fun _ => rfl, fun _ _ => by simp,
    fun c hc => absurd hc (Nat.not_lt_zero c), fun _ _ => rfl⟩

theorem Unmapped.dir_eq (h : Unmapped pf v n m m₁) : m₁.dir = m.dir := by
  rw [h.rest]
  rfl

theorem Unmapped.tablesApart (h : Unmapped pf v n m m₁) (ht : m.TablesApart) : m₁.TablesApart := by
  rw [TablesApart, h.dir_eq]
  exact ht

theorem Unmapped.frameAt_eq (h : Unmapped pf v n m m₁) (q : PoolFlags) (y : ℕ) :
    m₁.frameAt q y = m.frameAt q y := by
  rw [frameAt, frameAt, h.start]

theorem PoolsApart.congr (hp : m.PoolsApart)
    (hstart : ∀ q, (m₁.pool q).phyAddrStart = (m.pool q).phyAddrStart)
    (hlen : ∀ q, (m₁.pool q).poolBitmap.btmpBytesLen = (m.pool q).poolBitmap.btmpBytesLen) :
    m₁.PoolsApart where
  aligned q := (congrArg (· % pgSize) (hstart q)).trans (hp.aligned q)
  low := hp.low.trans (hstart .kernel).ge
  apart := by
    have hkernel := hstart .kernel
    have hbytes := hlen .kernel
    have huser := hstart .user
    simp only [pool] at hkernel hbytes huser
    rw [hkernel, hbytes, huser]
    exact hp.apart

/-- The pages after the first are mapped as before. -/
theorem Unmapped.later (h : Unmapped pf v 1 m m₁) (c : ℕ) :
    m₁.mapping (v + (c + 1) * pgSize) = m.mapping (v + (c + 1) * pgSize) := by
  refine h.other _ fun d hd => ?_
  rw [page_add]
  omega

/-- The frames of the pages, one page first. -/
theorem Unmapped.frames_succ (h : Unmapped pf v 1 m m₁) (y : ℕ) :
    (∃ c < n + 1, m.mapping (v + c * pgSize) = some (m.frameAt pf y)) ↔
      (∃ c < 1, m.mapping (v + c * pgSize) = some (m.frameAt pf y)) ∨
        ∃ c < n, m₁.mapping (v + pgSize + c * pgSize) = some (m₁.frameAt pf y) := by
  constructor
  · rintro ⟨c, hc, hmap⟩
    cases c with
    | zero => exact Or.inl ⟨0, Nat.one_pos, hmap⟩
    | succ c =>
        rw [← h.later, add_succ_mul, ← h.frameAt_eq] at hmap
        exact Or.inr ⟨c, Nat.lt_of_succ_lt_succ hc, hmap⟩
  · rintro (⟨c, hc, hmap⟩ | ⟨c, hc, hmap⟩)
    · exact ⟨c, by omega, hmap⟩
    · rw [← add_succ_mul, h.later, h.frameAt_eq] at hmap
      exact ⟨c + 1, Nat.succ_lt_succ hc, hmap⟩

/-- One page, then the others. -/
theorem Unmapped.cons (h : Unmapped pf v 1 m m₁) (h' : Unmapped pf (v + pgSize) n m₁ m₂) :
    Unmapped pf v (n + 1) m m₂ where
  rest := by rw [h'.rest, h.rest]
  start q := (h'.start q).trans (h.start q)
  len q := (h'.len q).trans (h.len q)
  bits q y := by
    rw [h'.bits, h.bits, h.frames_succ (n := n), and_assoc, ← not_or, ← and_or_left]
  absent c hc := by
    cases c with
    | zero =>
        rw [h'.other]
        · exact h.absent 0 Nat.one_pos
        · intro d _
          rw [page_add, page_succ]
          omega
    | succ c =>
        rw [add_succ_mul]
        exact h'.absent c (Nat.lt_of_succ_lt_succ hc)
  other w hw := by
    rw [h'.other w fun c hc => ?_, h.other w fun c hc => ?_]
    · obtain rfl : c = 0 := by omega
      exact hw 0 (Nat.succ_pos n)
    · have := hw (c + 1) (Nat.succ_lt_succ hc)
      rw [page_succ]
      omega

/-! ### One page -/

/-- A frame of a pool is recognised by its address. -/
theorem PoolsApart.user_iff (hp : m.PoolsApart) (hi : i < 8 * (m.pool pf).poolBitmap.btmpBytesLen) :
    m.userPool.phyAddrStart ≤ m.frameAt pf i ↔ pf = .user := by
  have hapart := hp.apart
  cases pf with
  | kernel =>
      simp only [pool] at hi
      simp only [frameAt, pool, pgSize, reduceCtorEq, iff_false] at hapart ⊢
      omega
  | user => exact iff_of_true (Nat.le_add_left _ _) rfl

theorem PoolsApart.frameAt_aligned (hp : m.PoolsApart) : m.frameAt pf i % pgSize = 0 := by
  have haligned := hp.aligned pf
  rw [frameAt, Nat.mul_add_mod_self_right]
  exact haligned

/-- The `ASSERT` in the loops of `mfree_page`. -/
theorem PoolsApart.frame_ok (hp : m.PoolsApart) (hi : i < 8 * (m.pool pf).poolBitmap.btmpBytesLen) :
    m.frameAt pf i % pgSize = 0 ∧ if decide (pf = .user) = true then
        m.userPool.phyAddrStart ≤ m.frameAt pf i
      else m.kernelPool.phyAddrStart ≤ m.frameAt pf i ∧
        m.frameAt pf i < m.userPool.phyAddrStart := by
  refine ⟨hp.frameAt_aligned, ?_⟩
  have huser := hp.user_iff hi
  cases pf with
  | kernel => exact ⟨Nat.le_add_left _ _, Nat.lt_of_not_le fun h => by cases huser.mp h⟩
  | user => exact huser.mpr rfl

/-- `pfree` clears the bit of the frame. -/
theorem pfree_succeeds_iff (hp : m.PoolsApart)
    (hi : i < 8 * (m.pool pf).poolBitmap.btmpBytesLen) {Q : Unit → Memory → Prop} :
    (Paging.pfree (m.frameAt pf i)).succeeds Q m ↔ Q () (m.giveBack pf i) := by
  have hbit : subU32 (m.frameAt pf i) (m.pool pf).phyAddrStart / pgSize = i := by
    rw [frameAt, subU32_of_le (Nat.le_add_left _ _), Nat.add_sub_cancel,
      Nat.mul_div_cancel _ (by decide : 0 < pgSize)]
  have huser := hp.user_iff hi
  rw [Paging.pfree, succeeds_modify]
  cases pf with
  | kernel =>
      rw [if_neg fun h => (by cases huser.mp h)]
      simp only [pool] at hbit
      rw [hbit]
      rfl
  | user =>
      rw [if_pos (huser.mpr rfl)]
      simp only [pool] at hbit
      rw [hbit]
      rfl

theorem pte_of_mapping {f : ℕ} (h : m.mapping v = some f) : m.pte v = some ⟨f, true⟩ := by
  rw [Memory.mapping, Option.bind_eq_some_iff] at h
  obtain ⟨e, hpte, hframe⟩ := h
  by_cases hpresent : e.present = true
  · rw [if_pos hpresent, Option.some_inj] at hframe
    rw [hpte, ← hframe, ← hpresent]
  · rw [if_neg hpresent] at hframe
    cases hframe

/-- The frame is given back, and the page is no longer present. -/
theorem unmapped_one (ht : m.TablesApart) (hmap : m.mapping v = some (m.frameAt pf i)) :
    Unmapped pf v 1 m ((m.giveBack pf i).setPte v ⟨m.frameAt pf i, false⟩) := by
  have hsome : (m.giveBack pf i).pte v ≠ none := by
    rw [pte_giveBack, pte_of_mapping hmap]
    exact Option.some_ne_none _
  have hmapping : ∀ w, ((m.giveBack pf i).setPte v ⟨m.frameAt pf i, false⟩).mapping w =
      if w / pgSize = v / pgSize then none else m.mapping w := by
    intro w
    rw [mapping_setPte ht.giveBack hsome, mapping_of_pte (pte_giveBack w)]
    rfl
  have hframe : ∀ y, (∃ c < 1, m.mapping (v + c * pgSize) = some (m.frameAt pf y)) ↔ y = i := by
    intro y
    constructor
    · rintro ⟨c, hc, hmapc⟩
      obtain rfl : c = 0 := by omega
      rw [Nat.zero_mul, Nat.add_zero, hmap, Option.some_inj, frameAt_inj] at hmapc
      exact hmapc.symm
    · rintro rfl
      exact ⟨0, Nat.one_pos, by rw [Nat.zero_mul, Nat.add_zero, hmap]⟩
  refine ⟨?_, fun q => ?_, fun q => ?_, fun q y => ?_, fun c hc => ?_, fun w hw => ?_⟩
  · unfold setPte giveBack
    cases pf <;> split <;> rfl
  · rw [pool_setPte, start_giveBack]
  · rw [pool_setPte, len_giveBack]
  · rw [pool_setPte, bit_giveBack, hframe]
  · obtain rfl : c = 0 := by omega
    rw [Nat.zero_mul, Nat.add_zero, hmapping, if_pos rfl]
  · rw [hmapping, if_neg]
    intro hpage
    exact hw 0 Nat.one_pos (by rw [hpage, Nat.add_zero])

/-- The loops of `mfree_page` unmap pages with frames of the pool. -/
theorem unmapPages_unmapped (ht : m.TablesApart) (hp : m.PoolsApart) (hmap : ∀ c < n,
    ∃ i < 8 * (m.pool pf).poolBitmap.btmpBytesLen,
      m.mapping (v + c * pgSize) = some (m.frameAt pf i)) :
    (Paging.unmapPages (pf = .user) v n).succeeds (fun _ m' => Unmapped pf v n m m') m := by
  induction n generalizing v m with
  | zero => exact .refl
  | succ n ih =>
      obtain ⟨i, hi, hfirst⟩ := hmap 0 (Nat.succ_pos n)
      rw [Nat.zero_mul, Nat.add_zero] at hfirst
      have hone := unmapped_one ht hfirst
      simp only [Paging.unmapPages, Paging.addrV2p, Paging.pageTablePteRemove, succeeds_bind,
        succeeds_read, succeeds_assert, pfree_succeeds_iff hp hi, pte_giveBack,
        pte_of_mapping hfirst, succeeds_pure, succeeds_write]
      refine ⟨decide_eq_true (hp.frame_ok hi), ?_⟩
      refine succeeds_mono (ih (hone.tablesApart ht) (hp.congr hone.start hone.len) fun c hc => ?_) fun _ _ h =>
        hone.cons h
      obtain ⟨j, hj, hnext⟩ := hmap (c + 1) (Nat.succ_lt_succ hc)
      refine ⟨j, ?_, ?_⟩
      · rw [hone.len]
        exact hj
      · rw [← add_succ_mul, hone.later, hone.frameAt_eq, hnext]

/-! ## `mfree_page` -/

/-- The state after `vaddr_remove` of the `n` pages with bits from `s` on. -/
def unmark (m : Memory) (pf : PoolFlags) (s n : ℕ) : Memory :=
  m.setVaddrBitmap pf (setBits (m.vaddrBitmap pf) s false n)

theorem vaddrRemove_succeeds_iff {s : ℕ} {Q : Unit → Memory → Prop} :
    (Paging.vaddrRemove pf (page pf s) n).succeeds Q m ↔ Q () (m.unmark pf s n) := by
  cases pf with
  | kernel =>
      rw [page, Paging.vaddrRemove, Paging.kernelBit_add, succeeds_modify]
      rfl
  | user =>
      rw [page, Paging.vaddrRemove, subU32_of_le (Nat.le_add_right _ _), Nat.add_sub_cancel_left,
        Nat.mul_div_cancel _ (by decide : 0 < pgSize), succeeds_modify]
      rfl

/-- `mfree_page` of mapped pages. -/
theorem mfreePage_succeeds {s : ℕ} (hn : 1 ≤ n) (ht : m.TablesApart) (hp : m.PoolsApart)
    (hmap : ∀ c < n, ∃ i < 8 * (m.pool pf).poolBitmap.btmpBytesLen,
      m.mapping (page pf s + c * pgSize) = some (m.frameAt pf i)) :
    (Paging.mfreePage pf (page pf s) n).succeeds (fun _ m' => ∃ m₁,
      Unmapped pf (page pf s) n m m₁ ∧
      m' = m₁.unmark pf s n) m := by
  obtain ⟨i, hi, hfirst⟩ := hmap 0 hn
  rw [Nat.zero_mul, Nat.add_zero] at hfirst
  have hlow : 0x102000 ≤ m.frameAt pf i := by
    have hapart := hp.apart
    refine hp.low.trans ?_
    cases pf with
    | kernel => exact Nat.le_add_left _ _
    | user => exact ((Nat.le_add_right _ _).trans hapart).trans (Nat.le_add_left _ _)
  simp only [Paging.mfreePage, Paging.addrV2p, succeeds_bind, succeeds_assert, succeeds_read,
    pte_of_mapping hfirst, succeeds_pure, vaddrRemove_succeeds_iff]
  refine ⟨decide_eq_true ⟨hn, page_aligned pf s⟩, decide_eq_true ⟨hp.frameAt_aligned, hlow⟩, ?_⟩
  rw [decide_eq_decide.mpr (hp.user_iff hi)]
  exact succeeds_mono (unmapPages_unmapped ht hp hmap) fun _ m₁ h => ⟨m₁, h, rfl⟩

/-- What `mfree_page` has done in `m''`, after `malloc_page` had mapped the `n` pages from `v` on
between `m` and `m'`. -/
structure Undone (pf : PoolFlags) (v n : ℕ) (m m' m'' : Memory) : Prop where
  rest : m'' = { m' with
    kernelPool := m''.kernelPool, userPool := m''.userPool, kernelTable := m''.kernelTable
    pageTable := m''.pageTable, kernelVaddr := m''.kernelVaddr, spaces := m''.spaces }
  start : ∀ q, (m''.pool q).phyAddrStart = (m'.pool q).phyAddrStart
  len : ∀ q, (m''.pool q).poolBitmap.btmpBytesLen = (m'.pool q).poolBitmap.btmpBytesLen
  vaddrLen : (m''.vaddrBitmap pf).btmpBytesLen = (m.vaddrBitmap pf).btmpBytesLen
  vaddrBits : ∀ i, (m''.vaddrBitmap pf).bit i = (m.vaddrBitmap pf).bit i
  /-- The other bitmap of virtual pages is left alone. -/
  vaddrOther : ∀ q, q ≠ pf → m''.vaddrBitmap q = m'.vaddrBitmap q
  poolBits : ∀ i, (m''.pool pf).poolBitmap.bit i = (m.pool pf).poolBitmap.bit i
  /-- Just the bits of the frames have changed. -/
  frames : ∀ q i, (m''.pool q).poolBitmap.bit i ≠ (m'.pool q).poolBitmap.bit i ↔
    q = pf ∧ ∃ c < n, m'.mapping (v + c * pgSize) = some (m'.frameAt pf i)
  absent : ∀ c < n, m''.mapping (v + c * pgSize) = none
  other : ∀ w, (∀ c < n, w / pgSize ≠ v / pgSize + c) → m''.mapping w = m'.mapping w

/-- Mapped pages have frames that were free. -/
theorem Mapped.was_free (h : Mapped pf v n m m₁) {c : ℕ} (hc : c < n)
    (hmap : m₁.mapping (v + c * pgSize) = some (m.frameAt pf i)) : i ∈ m.freeFrames pf := by
  obtain ⟨y, hy, hmapy⟩ := h.frame c hc
  rw [hmap, Option.some_inj, frameAt_inj] at hmapy
  rwa [hmapy]

/-- Page tables come from the kernel pool, and only user pages need new ones. -/
theorem Mapped.bits_pool (h : Mapped pf v n m m₁) : (m₁.pool pf).poolBitmap.bit i = true ↔
    (m.pool pf).poolBitmap.bit i = true ∨
      ∃ c < n, m₁.mapping (v + c * pgSize) = some (m.frameAt pf i) := by
  rw [h.bits]
  cases pf with
  | kernel => simp [missing]
  | user => simp

/-- Unmapping what was mapped undoes it. -/
theorem undone_of_unmapped {s : ℕ} (hrun : (m.vaddrBitmap pf).Run n s)
    (hmapped : Mapped pf (page pf s) n (m.mark pf s n) m₁)
    (hkept : ∀ q, m₁.vaddrBitmap q = (m.mark pf s n).vaddrBitmap q)
    (h : Unmapped pf (page pf s) n m₁ m₂) : Undone pf (page pf s) n m m₁ (m₂.unmark pf s n) := by
  have hvaddr : ∀ q, m₂.vaddrBitmap q = (m.mark pf s n).vaddrBitmap q := by
    intro q
    rw [← hkept, h.rest]
    cases q <;> rfl
  have hbits : ∀ i, (m₂.pool pf).poolBitmap.bit i = (m.pool pf).poolBitmap.bit i := by
    intro i
    rw [Bool.eq_iff_iff, h.bits, hmapped.bits_pool, pool_mark]
    simp only [hmapped.frameAt_eq, true_and]
    constructor
    · rintro ⟨hset | hpage, hnot⟩
      · exact hset
      · exact absurd hpage hnot
    · intro hset
      refine ⟨Or.inl hset, ?_⟩
      rintro ⟨c, hc, hmap⟩
      have hclear := (mem_freeFrames.mp (hmapped.was_free hc hmap)).2
      rw [pool_mark, hset] at hclear
      cases hclear
  refine ⟨?_, fun q => ?_, fun q => ?_, ?_, fun i => ?_, fun q hq => ?_, fun i => ?_, fun q i => ?_,
    fun c hc => ?_, fun w hw => ?_⟩
  · have hrest := h.rest
    generalize m₂.kernelPool = kernelPool, m₂.userPool = userPool, m₂.kernelTable = kernelTable,
      m₂.pageTable = pageTable at hrest
    rw [hrest]
    cases pf <;> rfl
  · rw [unmark, pool_setVaddrBitmap, h.start]
  · rw [unmark, pool_setVaddrBitmap, h.len]
  · rw [unmark, vaddrBitmap_setVaddrBitmap, if_pos rfl, hvaddr, vaddrBitmap_mark,
      btmpBytesLen_setBits, btmpBytesLen_setBits]
  · rw [unmark, vaddrBitmap_setVaddrBitmap, if_pos rfl, hvaddr, vaddrBitmap_mark, bit_setBits,
      bit_setBits]
    split
    next hin =>
      have hclear := hrun.2 (i - s) (by omega)
      rw [Nat.add_sub_cancel' hin.1] at hclear
      exact hclear.symm
    next hout => rfl
  · rw [unmark, vaddrBitmap_setVaddrBitmap, if_neg hq, hvaddr, hkept]
  · rw [unmark, pool_setVaddrBitmap, hbits]
  · rw [unmark, pool_setVaddrBitmap, Ne, Bool.eq_iff_iff, h.bits]
    have hset : (q = pf ∧ ∃ c < n, m₁.mapping (page pf s + c * pgSize) = some (m₁.frameAt pf i)) →
        (m₁.pool q).poolBitmap.bit i = true := by
      rintro ⟨rfl, c, hc, hmap⟩
      rw [hmapped.frameAt_eq] at hmap
      exact (hmapped.bits q i).mpr (Or.inr (Or.inl ⟨rfl, c, hc, hmap⟩))
    rw [and_iff_left_iff_imp, Classical.not_imp, Classical.not_not]
    exact and_iff_right_of_imp hset
  · rw [unmark, mapping_of_pte (pte_setVaddrBitmap _ _)]
    exact h.absent c hc
  · rw [unmark, mapping_of_pte (pte_setVaddrBitmap _ _)]
    exact h.other w hw

/-- No page table is among the frames given back. -/
theorem Undone.tablesSound {m' : Memory} {s : ℕ} (ht : m.TablesSound)
    (hmapped : Mapped pf (page pf s) n (m.mark pf s n) m') (h : Undone pf (page pf s) n m m' m₂) :
    m₂.TablesSound := by
  have hdir : m₂.dir = m'.dir := by
    rw [h.rest]
    rfl
  have hframe : ∀ y, m₂.frameAt .kernel y = m'.frameAt .kernel y := by
    intro y
    rw [frameAt, frameAt, h.start]
  refine ⟨?_, fun i hi hpresent y hy => ?_⟩
  · rw [TablesApart, hdir]
    exact hmapped.sound.inj
  · rw [hdir] at hpresent ⊢
    rw [hframe]
    obtain ⟨hlt, hclear⟩ := mem_freeFrames.mp hy
    rw [h.len] at hlt
    cases pf with
    | kernel =>
        -- the page tables are those from before
        have hmiss : i ∉ (m.mark .kernel s n).missing .kernel (page .kernel s) n :=
          Finset.notMem_empty i
        rw [hmapped.dirs i hmiss, dir_mark] at hpresent ⊢
        rw [hmapped.len, pool_mark] at hlt
        rw [h.poolBits] at hclear
        rw [hmapped.frameAt_eq, frameAt, pool_mark]
        exact ht.held i hi hpresent y (mem_freeFrames.mpr ⟨hlt, hclear⟩)
    | user =>
        have hsame : (m₂.pool .kernel).poolBitmap.bit y = (m'.pool .kernel).poolBitmap.bit y := by
          by_contra hne
          cases ((h.frames .kernel y).mp hne).1
        rw [hsame] at hclear
        exact hmapped.sound.held i hi hpresent y (mem_freeFrames.mpr ⟨hlt, hclear⟩)

/-- What was regular before is so again. -/
theorem Undone.regular {m' : Memory} {s : ℕ} (hreg : m.Regular pf)
    (hmapped : Mapped pf (page pf s) n (m.mark pf s n) m') (h : Undone pf (page pf s) n m m' m₂) :
    m₂.Regular pf := by
  refine ⟨h.tablesSound hreg.tables hmapped, fun i hi hclear => ?_, fun hpf => ?_⟩
  · rw [h.vaddrLen] at hi
    rw [h.vaddrBits] at hclear
    by_cases hin : ∃ c < n, i = s + c
    · obtain ⟨c, hc, rfl⟩ := hin
      rw [← page_add_mul]
      exact h.absent c hc
    · have hout : ∀ c < n, page pf i / pgSize ≠ page pf s / pgSize + c :=
        fun c hc heq => hin ⟨c, hc, page_div_eq.mp heq⟩
      rw [h.other _ hout, hmapped.other _ hout, mapping_mark]
      exact hreg.absent i hi hclear
  · rw [h.vaddrLen]
    exact hreg.half hpf

end Unmapped

/-- `mfree_page` of pages just mapped. -/
theorem mfreePage_undone {m m₁ : Memory} {pf : PoolFlags} {n s : ℕ} (hn : 1 ≤ n)
    (hp : m.PoolsApart) (hrun : (m.vaddrBitmap pf).Run n s)
    (hmapped : Mapped pf (page pf s) n (m.mark pf s n) m₁)
    (hkept : ∀ q, m₁.vaddrBitmap q = (m.mark pf s n).vaddrBitmap q) :
    (Paging.mfreePage pf (page pf s) n).succeeds
      (fun _ m₂ => Undone pf (page pf s) n m m₁ m₂) m₁ := by
  have hp₁ : m₁.PoolsApart := by
    refine hp.congr (fun q => ?_) fun q => ?_
    · rw [hmapped.start, pool_mark]
    · rw [hmapped.len, pool_mark]
  refine succeeds_mono (mfreePage_succeeds hn hmapped.sound.inj hp₁ fun c hc => ?_) ?_
  · obtain ⟨y, hy, hmap⟩ := hmapped.frame c hc
    refine ⟨y, ?_, by rw [hmap, hmapped.frameAt_eq]⟩
    rw [hmapped.len]
    exact (mem_freeFrames.mp hy).1
  · rintro _ _ ⟨m₂, hunmapped, rfl⟩
    exact undone_of_unmapped hrun hmapped hkept hunmapped

/-- What `malloc_page` mapped inside the bitmap, `mfree_page` gives back. -/
theorem mfreePage_undoes {m : Memory} {pf : PoolFlags} {n : ℕ} {allMem : UInt32}
    (hreg : m.Regular pf) (hbooted : m.Booted allMem) (hn : 1 ≤ n ∧ n < 3840)
    (htables : ∀ s, bitmapScan (m.vaddrBitmap pf) n = some s →
      (m.missing pf (page pf s) n).card ≤ (m.freeFrames .kernel).card) :
    (Paging.mallocPage pf n).wp (fun r m' => ∀ v ∈ r, ∀ s, v = page pf s →
      s + n ≤ 8 * (m.vaddrBitmap pf).btmpBytesLen →
      (Paging.mfreePage pf v n).succeeds (fun _ m'' => Undone pf v n m m' m'') m') m := by
  simp only [Paging.mallocPage, wp_bind, wp_assert]
  intro _
  refine vaddrGet_wp (fun _ => fun v hv => by cases hv) fun s hscan => ?_
  by_cases hfit : s + n ≤ 8 * (m.vaddrBitmap pf).btmpBytesLen
  · have hrun : (m.vaddrBitmap pf).Run n s := ⟨hfit, bit_of_bitmapScan hscan⟩
    have hmap := mapPages_mapped (m := m.mark pf s n) hreg.tables.mark (hreg.inHalf hrun)
      (fun c hc => by
        rw [mapping_mark, page_add_mul]
        exact hreg.absent _ (by omega) (hrun.2 c hc))
      (by
        rw [missing_mark, freeFrames_mark]
        exact htables s hscan)
    dsimp only
    rw [wp_bind]
    refine wp_mono (wp_and mapPages_vaddrBitmap (wp_of_succeeds hmap)) ?_
    rintro ok m₁ ⟨hkept, -, hmapped⟩
    cases ok with
    | false => exact fun v hv => by cases hv
    | true =>
        intro v hv s' _ _
        obtain rfl : page pf s = v := Option.some_inj.mp hv
        exact mfreePage_undone hn.1 hbooted.poolsApart hrun (hmapped rfl) hkept
  · -- the pages are not all inside the bitmap
    dsimp only
    rw [wp_bind]
    refine wp_mono wp_true fun ok m₁ _ => ?_
    cases ok with
    | false => exact fun v hv => by cases hv
    | true =>
        intro v hv s' hpage hfit'
        obtain rfl : page pf s = v := Option.some_inj.mp hv
        rw [page_inj.mp hpage] at hfit
        exact absurd hfit' hfit

theorem bootMemory_booted : bootMemory.Booted 0x2000000 :=
  ⟨by decide, ⟨by decide, by decide⟩, ⟨by decide, by decide⟩⟩

/-- A page of a process at boot, which needs a page table. -/
theorem mfreePage_undoes_boot : bootMemory.Regular .user ∧ bootMemory.Booted 0x2000000 ∧
    (1 ≤ 1 ∧ 1 < 3840) ∧
    (Paging.mallocPage .user 1).wp (fun r m' => ∀ v ∈ r, ∀ s, v = page .user s →
      s + 1 ≤ 8 * (bootMemory.vaddrBitmap .user).btmpBytesLen →
      (Paging.mfreePage .user v 1).succeeds
        (fun _ m'' => Undone .user v 1 bootMemory m' m'') m') bootMemory := by
  have hfree : 0 ∈ bootMemory.freeFrames .kernel := mem_freeFrames.mpr ⟨by decide, by decide⟩
  have hn : 1 ≤ 1 ∧ 1 < 3840 := by decide
  exact ⟨bootMemory_regular _, bootMemory_booted, hn,
    mfreePage_undoes (bootMemory_regular _) bootMemory_booted hn fun _ _ =>
      card_missing_le.trans (Finset.card_pos.mpr ⟨0, hfree⟩)⟩

end Memory

end BochsOs
