import BochsOs.Kernel.PageMaps
import Mathlib.Combinatorics.Enumerative.DoubleCounting

/-!
# Runs of pages

What `malloc_page` does to a whole run of pages.  `Memory.Mapped pf v n m m'` says that from `m`
to `m'` the `n` pages from `v` on got frames and page tables that were free, and that nothing else
happened.

`mallocPage_clean_iff`: `malloc_page` either does just that or leaves everything alone, exactly as
long as no frame is missing for a page or a page table.
-/

namespace BochsOs

open Suspend Suspend.Prog

namespace Memory

/-! ## Mapping pages -/

/-- The entries of the page directory that have no page table yet and need one for the `n` pages
from `v` on.  In the kernel half all page tables exist. -/
def missing (m : Memory) (pf : PoolFlags) (v n : ℕ) : Finset ℕ :=
  match pf with
  | .kernel => ∅
  | .user => ((Finset.range n).image fun c => pdeIdx (v + c * pgSize)).filter fun i =>
      (m.dir i).present = false

/-- The pages lie in the half of the address space that the pool is for. -/
def InHalf (pf : PoolFlags) (v n : ℕ) : Prop :=
  match pf with
  | .kernel => kernelBase ≤ v
  | .user => v + n * pgSize ≤ kernelBase

/-- From `m` to `m'` the `n` pages from `v` on were mapped, to frames of the pool that were free,
with page tables in frames of the kernel pool that were free. -/
structure Mapped (pf : PoolFlags) (v n : ℕ) (m m' : Memory) : Prop where
  rest : m' = { m with
    kernelPool := m'.kernelPool, userPool := m'.userPool, kernelTable := m'.kernelTable
    pageDir := m'.pageDir, pageTable := m'.pageTable }
  start : ∀ q, (m'.pool q).phyAddrStart = (m.pool q).phyAddrStart
  len : ∀ q, (m'.pool q).poolBitmap.btmpBytesLen = (m.pool q).poolBitmap.btmpBytesLen
  sound : m'.TablesSound
  frame : ∀ c < n, ∃ y ∈ m.freeFrames pf, m'.mapping (v + c * pgSize) = some (m.frameAt pf y)
  distinct : ∀ c < n, ∀ d < n, m'.mapping (v + c * pgSize) = m'.mapping (v + d * pgSize) → c = d
  table : ∀ i ∈ m.missing pf v n, ∃ y ∈ m.freeFrames .kernel, m'.dir i = ⟨m.frameAt .kernel y, true⟩
  dirs : ∀ i, i ∉ m.missing pf v n → m'.dir i = m.dir i
  /-- Just these frames are marked. -/
  bits : ∀ q y, (m'.pool q).poolBitmap.bit y = true ↔ (m.pool q).poolBitmap.bit y = true ∨
    (q = pf ∧ ∃ c < n, m'.mapping (v + c * pgSize) = some (m.frameAt pf y)) ∨
    (q = .kernel ∧ ∃ i ∈ m.missing pf v n, m'.dir i = ⟨m.frameAt .kernel y, true⟩)
  other : ∀ w, (∀ c < n, w / pgSize ≠ v / pgSize + c) → m'.mapping w = m.mapping w

section Mapped

variable {m m₁ m₂ : Memory} {pf : PoolFlags} {v n : ℕ}

theorem page_add (v c : ℕ) : (v + c * pgSize) / pgSize = v / pgSize + c :=
  Nat.add_mul_div_right _ _ (by decide)

theorem page_succ (v : ℕ) : (v + pgSize) / pgSize = v / pgSize + 1 :=
  Nat.add_div_right _ (by decide)

theorem mem_missing_user {i : ℕ} : i ∈ m.missing .user v n ↔
    (∃ c < n, pdeIdx (v + c * pgSize) = i) ∧ (m.dir i).present = false := by
  simp [missing]

/-- There is at most one page table for each page. -/
theorem card_missing_le : (m.missing pf v n).card ≤ n := by
  cases pf with
  | kernel => exact Nat.zero_le n
  | user =>
      refine (Finset.card_filter_le _ _).trans ?_
      exact Finset.card_image_le.trans (Finset.card_range n).le

theorem InHalf.succ (h : InHalf pf v (n + 1)) : InHalf pf v 1 ∧ InHalf pf (v + pgSize) n := by
  cases pf with
  | kernel => exact ⟨h, le_trans h (Nat.le_add_right _ _)⟩
  | user =>
      simp only [InHalf, pgSize] at h ⊢
      omega

theorem Mapped.refl (ht : m.TablesSound) : Mapped pf v 0 m m := by
  have hnone : m.missing pf v 0 = ∅ := by cases pf <;> rfl
  refine ⟨rfl, fun _ => rfl, fun _ => rfl, ht, ?_, ?_, ?_, fun _ _ => rfl, fun q y => ?_,
    fun _ _ => rfl⟩
  · exact fun c hc => absurd hc (Nat.not_lt_zero c)
  · exact fun c hc => absurd hc (Nat.not_lt_zero c)
  · rw [hnone]
    exact fun i hi => absurd hi (Finset.notMem_empty i)
  · rw [hnone]
    simp

theorem Mapped.freeFrames_subset (h : Mapped pf v n m m₁) {q : PoolFlags} {y : ℕ}
    (hy : y ∈ m₁.freeFrames q) : y ∈ m.freeFrames q := by
  obtain ⟨hlt, hclear⟩ := mem_freeFrames.mp hy
  rw [h.len] at hlt
  refine mem_freeFrames.mpr ⟨hlt, ?_⟩
  by_contra hset
  rw [(h.bits q y).mpr (Or.inl (by simpa using hset))] at hclear
  cases hclear

theorem Mapped.frameAt_eq (h : Mapped pf v n m m₁) (q : PoolFlags) (y : ℕ) :
    m₁.frameAt q y = m.frameAt q y := by
  rw [frameAt, frameAt, h.start]

/-- The page tables that are missing are those for the first page and those that are still
missing after it. -/
theorem Mapped.mem_missing_succ (h : Mapped pf v 1 m m₁) {i : ℕ} : i ∈ m.missing pf v (n + 1) ↔
    i ∈ m.missing pf v 1 ∨ i ∈ m₁.missing pf (v + pgSize) n := by
  cases pf with
  | kernel => simp [missing]
  | user =>
      have hadd : ∀ c, v + pgSize + c * pgSize = v + (c + 1) * pgSize := by
        intro c
        rw [Nat.succ_mul]
        omega
      by_cases hone : i ∈ m.missing .user v 1
      · refine iff_of_true ?_ (Or.inl hone)
        obtain ⟨⟨c, hc, hidx⟩, habsent⟩ := mem_missing_user.mp hone
        exact mem_missing_user.mpr ⟨⟨c, by omega, hidx⟩, habsent⟩
      · rw [or_iff_right hone, mem_missing_user, mem_missing_user, h.dirs i hone]
        refine and_congr_left fun habsent => ?_
        constructor
        · rintro ⟨c, hc, hidx⟩
          cases c with
          | zero => exact absurd (mem_missing_user.mpr ⟨⟨0, Nat.one_pos, hidx⟩, habsent⟩) hone
          | succ c => exact ⟨c, Nat.lt_of_succ_lt_succ hc, by rw [hadd]; exact hidx⟩
        · rintro ⟨c, hc, hidx⟩
          rw [hadd] at hidx
          exact ⟨c + 1, Nat.succ_lt_succ hc, hidx⟩

/-- The first page keeps its frame while the others are mapped. -/
theorem Mapped.first (h' : Mapped pf (v + pgSize) n m₁ m₂) :
    m₂.mapping (v + 0 * pgSize) = m₁.mapping (v + 0 * pgSize) := by
  refine h'.other _ fun c _ => ?_
  rw [page_add, page_succ]
  omega

/-- The page table made for the first page stays. -/
theorem Mapped.kept (h : Mapped pf v 1 m m₁) (h' : Mapped pf (v + pgSize) n m₁ m₂) {i : ℕ}
    (hi : i ∈ m.missing pf v 1) : m₂.dir i = m₁.dir i := by
  refine h'.dirs i fun hmiss => ?_
  obtain ⟨y, -, hdir⟩ := h.table i hi
  cases pf with
  | kernel => exact Finset.notMem_empty i hmiss
  | user =>
      have habsent := (mem_missing_user.mp hmiss).2
      rw [hdir] at habsent
      cases habsent

theorem add_succ_mul (v c : ℕ) : v + (c + 1) * pgSize = v + pgSize + c * pgSize := by
  rw [Nat.succ_mul]
  omega

/-- The frames of the pages, one page first. -/
theorem Mapped.frames_succ (h : Mapped pf v 1 m m₁) (h' : Mapped pf (v + pgSize) n m₁ m₂) (y : ℕ) :
    (∃ c < n + 1, m₂.mapping (v + c * pgSize) = some (m.frameAt pf y)) ↔
      (∃ c < 1, m₁.mapping (v + c * pgSize) = some (m.frameAt pf y)) ∨
        ∃ c < n, m₂.mapping (v + pgSize + c * pgSize) = some (m₁.frameAt pf y) := by
  constructor
  · rintro ⟨c, hc, hmap⟩
    cases c with
    | zero => exact Or.inl ⟨0, Nat.one_pos, h'.first ▸ hmap⟩
    | succ c =>
        rw [add_succ_mul, ← h.frameAt_eq] at hmap
        exact Or.inr ⟨c, Nat.lt_of_succ_lt_succ hc, hmap⟩
  · rintro (⟨c, hc, hmap⟩ | ⟨c, hc, hmap⟩)
    · obtain rfl : c = 0 := by omega
      exact ⟨0, Nat.succ_pos n, h'.first.trans hmap⟩
    · rw [← add_succ_mul, h.frameAt_eq] at hmap
      exact ⟨c + 1, Nat.succ_lt_succ hc, hmap⟩

/-- The frames of the page tables, those for one page first. -/
theorem Mapped.tables_succ (h : Mapped pf v 1 m m₁) (h' : Mapped pf (v + pgSize) n m₁ m₂) (y : ℕ) :
    (∃ i ∈ m.missing pf v (n + 1), m₂.dir i = ⟨m.frameAt .kernel y, true⟩) ↔
      (∃ i ∈ m.missing pf v 1, m₁.dir i = ⟨m.frameAt .kernel y, true⟩) ∨
        ∃ i ∈ m₁.missing pf (v + pgSize) n, m₂.dir i = ⟨m₁.frameAt .kernel y, true⟩ := by
  constructor
  · rintro ⟨i, hi, hdir⟩
    rcases h.mem_missing_succ.mp hi with hone | hmore
    · exact Or.inl ⟨i, hone, by rw [← h.kept h' hone, hdir]⟩
    · exact Or.inr ⟨i, hmore, by rw [hdir, h.frameAt_eq]⟩
  · rintro (⟨i, hi, hdir⟩ | ⟨i, hi, hdir⟩)
    · exact ⟨i, h.mem_missing_succ.mpr (Or.inl hi), by rw [h.kept h' hi, hdir]⟩
    · exact ⟨i, h.mem_missing_succ.mpr (Or.inr hi), by rw [hdir, h.frameAt_eq]⟩

theorem or_or_regroup {a b c p p' t t' : Prop} :
    (a ∨ (b ∧ p) ∨ (c ∧ t)) ∨ (b ∧ p') ∨ (c ∧ t') ↔ a ∨ (b ∧ (p ∨ p')) ∨ (c ∧ (t ∨ t')) := by
  tauto

/-- The frame of the first page is taken when the others are chosen. -/
theorem Mapped.later (h : Mapped pf v 1 m m₁) (h' : Mapped pf (v + pgSize) n m₁ m₂) {c : ℕ}
    (hc : c < n) : m₂.mapping (v + (c + 1) * pgSize) ≠ m₂.mapping (v + 0 * pgSize) := by
  intro heq
  obtain ⟨y₀, -, hmap₀⟩ := h.frame 0 Nat.one_pos
  obtain ⟨y, hy, hmap⟩ := h'.frame c hc
  rw [h'.first, hmap₀, add_succ_mul, hmap, h.frameAt_eq, Option.some_inj, frameAt_inj] at heq
  have hset := (h.bits pf y).mpr (Or.inr (Or.inl ⟨rfl, 0, Nat.one_pos, by rw [hmap₀, heq]⟩))
  rw [(mem_freeFrames.mp hy).2] at hset
  cases hset

/-- One page, then the others. -/
theorem Mapped.cons (h : Mapped pf v 1 m m₁) (h' : Mapped pf (v + pgSize) n m₁ m₂) :
    Mapped pf v (n + 1) m m₂ where
  rest := by rw [h'.rest, h.rest]
  start q := (h'.start q).trans (h.start q)
  len q := (h'.len q).trans (h.len q)
  sound := h'.sound
  frame c hc := by
    cases c with
    | zero =>
        obtain ⟨y, hy, hmap⟩ := h.frame 0 Nat.one_pos
        exact ⟨y, hy, h'.first.trans hmap⟩
    | succ c =>
        obtain ⟨y, hy, hmap⟩ := h'.frame c (Nat.lt_of_succ_lt_succ hc)
        exact ⟨y, h.freeFrames_subset hy, by rw [add_succ_mul, hmap, h.frameAt_eq]⟩
  distinct c hc d hd heq := by
    cases c with
    | zero =>
        cases d with
        | zero => rfl
        | succ d => exact absurd heq.symm (h.later h' (Nat.lt_of_succ_lt_succ hd))
    | succ c =>
        cases d with
        | zero => exact absurd heq (h.later h' (Nat.lt_of_succ_lt_succ hc))
        | succ d =>
            rw [add_succ_mul, add_succ_mul] at heq
            exact congrArg (· + 1)
              (h'.distinct c (Nat.lt_of_succ_lt_succ hc) d (Nat.lt_of_succ_lt_succ hd) heq)
  table i hi := by
    rcases h.mem_missing_succ.mp hi with hone | hmore
    · obtain ⟨y, hy, hdir⟩ := h.table i hone
      exact ⟨y, hy, by rw [h.kept h' hone, hdir]⟩
    · obtain ⟨y, hy, hdir⟩ := h'.table i hmore
      exact ⟨y, h.freeFrames_subset hy, by rw [hdir, h.frameAt_eq]⟩
  dirs i hi := by
    rw [h.mem_missing_succ, not_or] at hi
    rw [h'.dirs i hi.2, h.dirs i hi.1]
  bits q y := by
    rw [h'.bits, h.bits, h.frames_succ h', h.tables_succ h']
    exact or_or_regroup
  other w hw := by
    rw [h'.other w fun c hc => ?_, h.other w fun c hc => ?_]
    · obtain rfl : c = 0 := by omega
      exact hw 0 (Nat.succ_pos n)
    · have := hw (c + 1) (Nat.succ_lt_succ hc)
      rw [page_succ]
      omega

/-! ### One page -/

/-- Everything is ready for the entry of the page `v`: its frame and its page table are taken, and
no mapping has changed. -/
structure Ready (pf : PoolFlags) (v i : ℕ) (m m' : Memory) : Prop where
  rest : m' = { m with
    kernelPool := m'.kernelPool, userPool := m'.userPool
    pageDir := m'.pageDir, pageTable := m'.pageTable }
  start : ∀ q, (m'.pool q).phyAddrStart = (m.pool q).phyAddrStart
  len : ∀ q, (m'.pool q).poolBitmap.btmpBytesLen = (m.pool q).poolBitmap.btmpBytesLen
  sound : m'.TablesSound
  pte : ∃ e, m'.pte v = some e ∧ e.present = false
  mapping : ∀ w, m'.mapping w = m.mapping w
  table : ∀ k ∈ m.missing pf v 1, ∃ y ∈ m.freeFrames .kernel, m'.dir k = ⟨m.frameAt .kernel y, true⟩
  dirs : ∀ k, k ∉ m.missing pf v 1 → m'.dir k = m.dir k
  bits : ∀ q y, (m'.pool q).poolBitmap.bit y = true ↔ (m.pool q).poolBitmap.bit y = true ∨
    (q = pf ∧ y = i) ∨ (q = .kernel ∧ ∃ k ∈ m.missing pf v 1, m'.dir k = ⟨m.frameAt .kernel y, true⟩)

/-- Then the entry is made. -/
theorem Ready.mapped {i : ℕ} (h : Ready pf v i m m₁) (hi : i ∈ m.freeFrames pf) :
    Mapped pf v 1 m (m₁.setPte v ⟨m.frameAt pf i, true⟩) := by
  obtain ⟨e, hpte, -⟩ := h.pte
  have hsome : m₁.pte v ≠ none := by
    rw [hpte]
    exact Option.some_ne_none e
  have hmap : ∀ w, (m₁.setPte v ⟨m.frameAt pf i, true⟩).mapping w =
      if w / pgSize = v / pgSize then some (m.frameAt pf i) else m.mapping w := by
    intro w
    rw [mapping_setPte h.sound.inj hsome, h.mapping]
    rfl
  have hself : ∀ c < 1, (m₁.setPte v ⟨m.frameAt pf i, true⟩).mapping (v + c * pgSize) =
      some (m.frameAt pf i) := by
    intro c hc
    obtain rfl : c = 0 := by omega
    rw [hmap, Nat.zero_mul, Nat.add_zero, if_pos rfl]
  refine ⟨?_, fun q => ?_, fun q => ?_, h.sound.setPte v _, fun c hc => ⟨i, hi, hself c hc⟩,
    fun c hc d hd _ => by omega, fun k hk => ?_, fun k hk => ?_, fun q y => ?_, fun w hw => ?_⟩
  · unfold setPte
    split <;> rw [h.rest]
  · rw [pool_setPte, h.start]
  · rw [pool_setPte, h.len]
  · rw [dir_setPte]
    exact h.table k hk
  · rw [dir_setPte]
    exact h.dirs k hk
  · rw [pool_setPte, h.bits]
    have hframe : (∃ c < 1, (m₁.setPte v ⟨m.frameAt pf i, true⟩).mapping (v + c * pgSize) =
        some (m.frameAt pf y)) ↔ y = i := by
      constructor
      · rintro ⟨c, hc, hmapc⟩
        rw [hself c hc, Option.some_inj, frameAt_inj] at hmapc
        exact hmapc.symm
      · rintro rfl
        exact ⟨0, Nat.one_pos, hself 0 Nat.one_pos⟩
    rw [hframe]
    simp only [dir_setPte]
  · rw [hmap, if_neg]
    intro hpage
    exact hw 0 Nat.one_pos (by rw [hpage, Nat.add_zero])

theorem mapping_of_pte {m m' : Memory} {w : ℕ} (h : m'.pte w = m.pte w) : m'.mapping w = m.mapping w := by
  rw [Memory.mapping, Memory.mapping, h]

/-- A page that has a page table is ready with its frame. -/
theorem ready_take {i : ℕ} {e : Entry} (ht : m.TablesSound) (hpte : m.pte v = some e)
    (habsent : e.present = false) (hhalf : InHalf pf v 1) : Ready pf v i m (m.take pf i) := by
  have hnone : m.missing pf v 1 = ∅ := by
    cases pf with
    | kernel => rfl
    | user =>
        rw [Finset.eq_empty_iff_forall_notMem]
        intro k hk
        obtain ⟨⟨c, hc, rfl⟩, hdir⟩ := mem_missing_user.mp hk
        obtain rfl : c = 0 := by omega
        have hv : v < kernelBase := by
          simp only [InHalf, pgSize] at hhalf
          omega
        rw [Nat.zero_mul, Nat.add_zero] at hdir
        rw [pte_user hv, hdir] at hpte
        cases hpte
  refine ⟨?_, fun q => start_take, fun q => len_take, ht.take, ⟨e, by rw [pte_take, hpte], habsent⟩,
    fun w => mapping_of_pte (pte_take w), ?_, fun k _ => dir_take k, fun q y => ?_⟩
  · cases pf <;> rfl
  · rw [hnone]
    exact fun k hk => absurd hk (Finset.notMem_empty k)
  · rw [bit_take, hnone]
    split
    next h => simp [h]
    next h => simp [h]

/-- A page without a page table is ready with a frame for itself and one for the table. -/
theorem ready_setPde {i j : ℕ} (ht : m.TablesSound) (hpte : m.pte v = none) (hv : v < kernelBase)
    (hj : j ∈ m.freeFrames .kernel) :
    Ready .user v i m (((m.take .user i).take .kernel j).setPde v (m.frameAt .kernel j)) := by
  have hdirv : (m.dir (pdeIdx v)).present = false := by
    rw [pte_user hv] at hpte
    by_contra hpresent
    rw [if_pos (by simpa using hpresent)] at hpte
    cases hpte
  have hmissing : ∀ k, k ∈ m.missing .user v 1 ↔ k = pdeIdx v := by
    intro k
    rw [mem_missing_user]
    constructor
    · rintro ⟨⟨c, hc, rfl⟩, -⟩
      obtain rfl : c = 0 := by omega
      rw [Nat.zero_mul, Nat.add_zero]
    · rintro rfl
      exact ⟨⟨0, Nat.one_pos, by rw [Nat.zero_mul, Nat.add_zero]⟩, hdirv⟩
  have ht₁ : (m.take .user i).TablesSound := ht.take
  have hj₁ : j ∈ (m.take .user i).freeFrames .kernel :=
    mem_freeFrames_take.mpr ⟨hj, fun h => by cases h.1⟩
  have hframe : (m.take .user i).frameAt .kernel j = m.frameAt .kernel j := frameAt_take
  set m' := ((m.take .user i).take .kernel j).setPde v (m.frameAt .kernel j) with hm'
  have hdir : ∀ k, m'.dir k = if k = pdeIdx v then ⟨m.frameAt .kernel j, true⟩ else m.dir k := by
    intro k
    rw [hm', dir_setPde, dir_take, dir_take]
  have hfresh : ∀ k < userEntries, (((m.take .user i).take .kernel j).dir k).present = true →
      (((m.take .user i).take .kernel j).dir k).frame ≠ m.frameAt .kernel j := by
    intro k hk hpresent
    rw [dir_take, dir_take] at hpresent ⊢
    exact ht.held k hk hpresent j hj
  have hptes : ∀ w, m'.pte w = if w < kernelBase ∧ pdeIdx w = pdeIdx v then some ⟨0, false⟩
      else m.pte w := by
    intro w
    rw [hm', pte_setPde hfresh, pte_take, pte_take]
  refine ⟨?_, fun q => ?_, fun q => ?_, ?_, ⟨⟨0, false⟩, ?_, rfl⟩, fun w => ?_, fun k hk => ?_,
    fun k hk => ?_, fun q y => ?_⟩
  · rfl
  · rw [hm', pool_setPde, start_take, start_take]
  · rw [hm', pool_setPde, len_take, len_take]
  · rw [hm', ← hframe]
    exact ht₁.setPde hj₁
  · rw [hptes, if_pos ⟨hv, rfl⟩]
  · rw [Memory.mapping, Memory.mapping, hptes]
    split
    next h =>
      rw [pte_user h.1, h.2, hdirv]
      rfl
    next => rfl
  · exact ⟨j, hj, by rw [hdir, if_pos ((hmissing k).mp hk)]⟩
  · rw [hdir, if_neg fun h => hk ((hmissing k).mpr h)]
  · have htable : (∃ k ∈ m.missing .user v 1, m'.dir k = ⟨m.frameAt .kernel y, true⟩) ↔ y = j := by
      constructor
      · rintro ⟨k, hk, hdirk⟩
        rw [hdir, if_pos ((hmissing k).mp hk)] at hdirk
        exact (frameAt_inj.mp (congrArg Entry.frame hdirk)).symm
      · rintro rfl
        exact ⟨pdeIdx v, (hmissing _).mpr rfl, by rw [hdir, if_pos rfl]⟩
    rw [htable, hm', pool_setPde, bit_take, bit_take]
    by_cases hk : q = .kernel ∧ y = j
    · simp [hk]
    · by_cases hu : q = .user ∧ y = i
      · simp [hu]
      · simp [hk, hu]

/-- `page_table_add` maps a page that is not present, with a page table if one can be had. -/
theorem pageTableAdd_mapped {i : ℕ} (ht : m.TablesSound) (hhalf : InHalf pf v 1)
    (habsent : m.mapping v = none) (hi : i ∈ m.freeFrames pf)
    (hroom : (m.missing pf v 1).card ≤ (m.freeFrames .kernel).card) :
    (pageTableAdd v (m.frameAt pf i)).succeeds (fun _ m' => Mapped pf v 1 m m') (m.take pf i) := by
  simp only [pageTableAdd, succeeds_bind, succeeds_read, pte_take]
  cases hpte : m.pte v with
  | some e =>
      have hpresent : e.present = false := by
        rw [Memory.mapping, hpte, Option.bind_some] at habsent
        by_contra hp
        rw [if_pos (by simpa using hp)] at habsent
        cases habsent
      simp only [succeeds_bind, succeeds_assert, succeeds_write]
      exact ⟨by rw [hpresent]; rfl, (ready_take ht hpte hpresent hhalf).mapped hi⟩
  | none =>
      cases pf with
      | kernel =>
          rw [Paging.pte_kernel hhalf] at hpte
          cases hpte
      | user =>
          have hv : v < kernelBase := by
            simp only [InHalf, pgSize] at hhalf
            omega
          have hmiss : pdeIdx v ∈ m.missing .user v 1 := by
            refine mem_missing_user.mpr ⟨⟨0, Nat.one_pos, by rw [Nat.zero_mul, Nat.add_zero]⟩, ?_⟩
            by_contra hpresent
            rw [pte_user hv, if_pos (by simpa using hpresent)] at hpte
            cases hpte
          simp only [succeeds_bind, succeeds_modify]
          refine palloc_succeeds (fun hempty => ?_) fun j hj => ?_
          · -- a free frame is left for the page table
            obtain ⟨y, hy⟩ := Finset.card_pos.mp ((Finset.card_pos.mpr ⟨_, hmiss⟩).trans_le hroom)
            have hy' : y ∈ (m.take .user i).freeFrames .kernel :=
              mem_freeFrames_take.mpr ⟨hy, fun h => by cases h.1⟩
            rw [hempty] at hy'
            exact absurd hy' (Finset.notMem_empty y)
          · have hj' := (mem_freeFrames_take.mp hj).1
            rw [Option.getD_some, frameAt_take]
            exact (ready_setPde ht hpte hv hj').mapped hi

/-! ### Counting frames -/

theorem Mapped.mem_freeFrames_iff (h : Mapped pf v n m m₁) {q : PoolFlags} {y : ℕ} :
    y ∈ m₁.freeFrames q ↔ y ∈ m.freeFrames q ∧
      ¬ (q = pf ∧ ∃ c < n, m₁.mapping (v + c * pgSize) = some (m.frameAt pf y)) ∧
      ¬ (q = .kernel ∧ ∃ i ∈ m.missing pf v n, m₁.dir i = ⟨m.frameAt .kernel y, true⟩) := by
  have hbits := (h.bits q y).not
  rw [not_or, not_or, Bool.not_eq_true, Bool.not_eq_true] at hbits
  rw [mem_freeFrames, mem_freeFrames, h.len, hbits, and_assoc]

/-- One page takes one frame of its pool. -/
theorem Mapped.card_one (h : Mapped pf v 1 m m₁) :
    (m₁.freeFrames pf).card + 1 = (m.freeFrames pf).card := by
  obtain ⟨i, hi, hmap⟩ := h.frame 0 Nat.one_pos
  have herase : m₁.freeFrames pf = (m.freeFrames pf).erase i := by
    ext y
    have hpage : (∃ c < 1, m₁.mapping (v + c * pgSize) = some (m.frameAt pf y)) ↔ y = i := by
      constructor
      · rintro ⟨c, hc, hmapc⟩
        obtain rfl : c = 0 := by omega
        rw [hmap, Option.some_inj, frameAt_inj] at hmapc
        exact hmapc.symm
      · rintro rfl
        exact ⟨0, Nat.one_pos, hmap⟩
    have htable : ¬ (pf = .kernel ∧ ∃ k ∈ m.missing pf v 1, m₁.dir k = ⟨m.frameAt .kernel y, true⟩) := by
      rintro ⟨rfl, k, hk, -⟩
      exact Finset.notMem_empty k hk
    rw [h.mem_freeFrames_iff, hpage, Finset.mem_erase]
    constructor
    · rintro ⟨hy, hne, -⟩
      exact ⟨fun heq => hne ⟨rfl, heq⟩, hy⟩
    · rintro ⟨hne, hy⟩
      exact ⟨hy, fun heq => hne heq.2, htable⟩
  rw [herase]
  exact Finset.card_erase_add_one hi

/-- The page tables take no more frames of the kernel pool than are missing. -/
theorem Mapped.card_tables (h : Mapped .user v n m m₁) : (m.freeFrames .kernel).card ≤
    (m₁.freeFrames .kernel).card + (m.missing .user v n).card := by
  have hsdiff : (m.freeFrames .kernel \ m₁.freeFrames .kernel).card ≤ (m.missing .user v n).card := by
    refine Finset.card_le_card_of_forall_subsingleton
      (fun y i => m₁.dir i = ⟨m.frameAt .kernel y, true⟩) (fun y hy => ?_) fun i hi => ?_
    · obtain ⟨hfree, htaken⟩ := Finset.mem_sdiff.mp hy
      by_contra hnone
      refine htaken (h.mem_freeFrames_iff.mpr ⟨hfree, ?_, ?_⟩)
      · exact fun hpage => by cases hpage.1
      · rintro ⟨-, i, hi, hdir⟩
        exact hnone ⟨i, hi, hdir⟩
    · rintro y ⟨-, hy⟩ y' ⟨-, hy'⟩
      exact frameAt_inj.mp (congrArg Entry.frame (hy.symm.trans hy'))
  have hsplit := Finset.card_le_card_sdiff_add_card (s := m.freeFrames .kernel)
    (t := m₁.freeFrames .kernel)
  omega

/-- The page tables for one page and those for the others. -/
theorem Mapped.card_missing_succ (h : Mapped pf v 1 m m₁) :
    (m.missing pf v (n + 1)).card =
      (m.missing pf v 1).card + (m₁.missing pf (v + pgSize) n).card := by
  rw [← Finset.card_union_of_disjoint]
  · congr 1
    ext i
    rw [Finset.mem_union, h.mem_missing_succ]
  · rw [Finset.disjoint_left]
    intro i hi hi'
    obtain ⟨y, -, hdir⟩ := h.table i hi
    cases pf with
    | kernel => exact Finset.notMem_empty i hi
    | user =>
        have habsent := (mem_missing_user.mp hi').2
        rw [hdir] at habsent
        cases habsent

/-- The frames of mapped pages were free. -/
theorem Mapped.card_frames (h : Mapped pf v n m m₁) : n ≤ (m.freeFrames pf).card := by
  have hcard : (Finset.range n).card ≤ (m.freeFrames pf).card := by
    refine Finset.card_le_card_of_forall_subsingleton
      (fun c y => m₁.mapping (v + c * pgSize) = some (m.frameAt pf y)) (fun c hc => ?_) fun y hy => ?_
    · obtain ⟨y, hy, hmap⟩ := h.frame c (Finset.mem_range.mp hc)
      exact ⟨y, hy, hmap⟩
    · rintro c ⟨hc, hmap⟩ d ⟨hd, hmap'⟩
      exact h.distinct c (Finset.mem_range.mp hc) d (Finset.mem_range.mp hd) (hmap.trans hmap'.symm)
  rwa [Finset.card_range] at hcard

/-- The frames of new page tables were free. -/
theorem Mapped.card_missing (h : Mapped pf v n m m₁) (hhalf : InHalf pf v n) :
    (m.missing pf v n).card ≤ (m.freeFrames .kernel).card := by
  refine Finset.card_le_card_of_forall_subsingleton
    (fun i y => m₁.dir i = ⟨m.frameAt .kernel y, true⟩) (fun i hi => ?_) fun y hy => ?_
  · obtain ⟨y, hy, hdir⟩ := h.table i hi
    exact ⟨y, hy, hdir⟩
  · have hlt : ∀ i ∈ m.missing pf v n, i < userEntries := by
      intro i hi
      cases pf with
      | kernel => exact absurd hi (Finset.notMem_empty i)
      | user =>
          obtain ⟨⟨c, hc, rfl⟩, -⟩ := mem_missing_user.mp hi
          refine pdeIdx_lt ?_
          simp only [InHalf, pgSize] at hhalf ⊢
          omega
    rintro i ⟨hi, hdir⟩ i' ⟨hi', hdir'⟩
    refine h.sound.inj i (hlt i hi) i' (hlt i' hi') ?_ ?_ ?_
    · rw [hdir]
    · rw [hdir']
    · rw [hdir, hdir']

/-! ### The loop -/

/-- The loop of `malloc_page` maps as many pages as there are frames, if the page tables can be
had. -/
theorem mapPages_mapped (ht : m.TablesSound) (hhalf : InHalf pf v n)
    (habsent : ∀ c < n, m.mapping (v + c * pgSize) = none)
    (hroom : (m.missing pf v n).card ≤ (m.freeFrames .kernel).card) :
    (Paging.mapPages pf v n).succeeds (fun ok m' => (ok = true ↔ n ≤ (m.freeFrames pf).card) ∧
      (ok = true → Mapped pf v n m m')) m := by
  induction n generalizing v m with
  | zero => exact ⟨iff_of_true rfl (Nat.zero_le _), fun _ => .refl ht⟩
  | succ n ih =>
      obtain ⟨hone, hmore⟩ := hhalf.succ
      rw [Paging.mapPages, succeeds_bind]
      refine palloc_succeeds (fun hempty => ?_) fun i hi => ?_
      · rw [hempty]
        exact ⟨iff_of_false Bool.false_ne_true (by simp), fun h => by cases h⟩
      · have hfirst := habsent 0 (Nat.succ_pos n)
        rw [Nat.zero_mul, Nat.add_zero] at hfirst
        have hle : (m.missing pf v 1).card ≤ (m.missing pf v (n + 1)).card := by
          refine Finset.card_le_card fun k hk => ?_
          cases pf with
          | kernel => exact hk
          | user =>
              obtain ⟨⟨c, hc, hidx⟩, hdir⟩ := mem_missing_user.mp hk
              exact mem_missing_user.mpr ⟨⟨c, by omega, hidx⟩, hdir⟩
        dsimp only
        rw [succeeds_bind]
        refine succeeds_mono (pageTableAdd_mapped ht hone hfirst hi (hle.trans hroom)) ?_
        intro _ m₁ h
        have hcard := h.card_one
        refine succeeds_mono (ih h.sound hmore (fun c hc => ?_) ?_) ?_
        · rw [h.other, ← add_succ_mul]
          · exact habsent (c + 1) (Nat.succ_lt_succ hc)
          · intro d hd
            rw [page_add, page_succ]
            omega
        · have hsucc := h.card_missing_succ (n := n)
          cases pf with
          | kernel => exact Nat.zero_le _
          | user =>
              have htables := h.card_tables
              omega
        · rintro ok m₂ ⟨hok, hmapped⟩
          refine ⟨hok.trans (by omega), fun hdone => h.cons (hmapped hdone)⟩

end Mapped

/-! ## `malloc_page` -/

/-- The bitmap that `vaddr_get` searches. -/
def vaddrBitmap (m : Memory) : PoolFlags → Bitmap
  | .kernel => m.kernelVaddr
  | .user => (m.spaces m.kernel.running).vaddrBitmap

/-- The page with bit `i` of that bitmap. -/
def page : PoolFlags → ℕ → ℕ
  | .kernel, i => kHeapStart + i * pgSize
  | .user, i => userVaddrStart + i * pgSize

/-- The state with another bitmap of virtual pages. -/
def setVaddrBitmap (m : Memory) (pf : PoolFlags) (btmp : Bitmap) : Memory :=
  match pf with
  | .kernel => { m with kernelVaddr := btmp }
  | .user => m.setSpace m.kernel.running { m.spaces m.kernel.running with vaddrBitmap := btmp }

/-- The state after `vaddr_get` has taken `n` pages. -/
def mark (m : Memory) (pf : PoolFlags) (s n : ℕ) : Memory :=
  m.setVaddrBitmap pf (setBits (m.vaddrBitmap pf) s true n)

/-- Between two calls: the page tables are sound, no page that is marked free is present, and the
user pages with a bit are those up to the kernel half. -/
structure Regular (m : Memory) (pf : PoolFlags) : Prop where
  tables : m.TablesSound
  absent : ∀ i < 8 * (m.vaddrBitmap pf).btmpBytesLen, (m.vaddrBitmap pf).bit i = false →
    m.mapping (page pf i) = none
  half : pf = .user → page pf (8 * (m.vaddrBitmap pf).btmpBytesLen) ≤ kernelBase

/-- From `m` to `m'` the `n` pages from `v` on, which were free, were marked and mapped. -/
structure Granted (pf : PoolFlags) (n v : ℕ) (m m' : Memory) : Prop where
  aligned : v % pgSize = 0
  pages : ∃ s, v = page pf s ∧ (m.vaddrBitmap pf).Run n s ∧ Mapped pf v n (m.mark pf s n) m'

/-- There is no run of free pages, or one with frames enough for the pages and the page tables. -/
def Served (m : Memory) (pf : PoolFlags) (n : ℕ) : Prop :=
  ∀ s, bitmapScan (m.vaddrBitmap pf) n = some s → s + n ≤ 8 * (m.vaddrBitmap pf).btmpBytesLen ∧
    (pf = .user → page pf s < 0xc0000000 - pgSize) ∧ n ≤ (m.freeFrames pf).card ∧
    (m.missing pf (page pf s) n).card ≤ (m.freeFrames .kernel).card

section MallocPage

variable {m m' : Memory} {pf : PoolFlags} {n s v : ℕ}

theorem page_inj {i j : ℕ} : page pf i = page pf j ↔ i = j := by
  cases pf <;> simp only [page, pgSize] <;> omega

theorem page_aligned (pf : PoolFlags) (i : ℕ) : page pf i % pgSize = 0 := by
  cases pf <;> simp only [page, kHeapStart, userVaddrStart, pgSize] <;> omega

theorem page_add_mul (pf : PoolFlags) (i c : ℕ) : page pf i + c * pgSize = page pf (i + c) := by
  cases pf <;> simp only [page, pgSize] <;> omega

theorem vaddrBitmap_setVaddrBitmap (btmp : Bitmap) (q : PoolFlags) :
    (m.setVaddrBitmap pf btmp).vaddrBitmap q = if q = pf then btmp else m.vaddrBitmap q := by
  cases pf with
  | kernel => cases q <;> rfl
  | user =>
      cases q with
      | kernel => rfl
      | user =>
          change (Function.update m.spaces m.kernel.running _ m.kernel.running).vaddrBitmap = _
          rw [Function.update_self, if_pos rfl]

@[simp]
theorem pool_setVaddrBitmap (btmp : Bitmap) (q : PoolFlags) :
    (m.setVaddrBitmap pf btmp).pool q = m.pool q := by
  cases pf <;> cases q <;> rfl

@[simp]
theorem pte_setVaddrBitmap (btmp : Bitmap) (w : ℕ) :
    (m.setVaddrBitmap pf btmp).pte w = m.pte w := by
  cases pf <;> rfl

theorem page_div_eq {i j c : ℕ} : page pf i / pgSize = page pf j / pgSize + c ↔ i = j + c := by
  cases pf <;> simp only [page, kHeapStart, userVaddrStart, pgSize] <;> omega

@[simp]
theorem vaddrBitmap_mark : (m.mark pf s n).vaddrBitmap pf = setBits (m.vaddrBitmap pf) s true n := by
  rw [mark, vaddrBitmap_setVaddrBitmap, if_pos rfl]

@[simp]
theorem pool_mark (q : PoolFlags) : (m.mark pf s n).pool q = m.pool q :=
  pool_setVaddrBitmap _ q

@[simp]
theorem dir_mark (i : ℕ) : (m.mark pf s n).dir i = m.dir i := by
  cases pf <;> rfl

@[simp]
theorem pte_mark (w : ℕ) : (m.mark pf s n).pte w = m.pte w :=
  pte_setVaddrBitmap _ w

@[simp]
theorem freeFrames_mark (q : PoolFlags) : (m.mark pf s n).freeFrames q = m.freeFrames q := by
  rw [freeFrames, freeFrames, pool_mark]

@[simp]
theorem missing_mark (q : PoolFlags) (w k : ℕ) :
    (m.mark pf s n).missing q w k = m.missing q w k := by
  cases q with
  | kernel => rfl
  | user => simp only [missing, dir_mark]

theorem mapping_mark (w : ℕ) : (m.mark pf s n).mapping w = m.mapping w :=
  mapping_of_pte (pte_mark w)

theorem TablesSound.mark (ht : m.TablesSound) : (m.mark pf s n).TablesSound where
  inj := by
    simp only [TablesApart, dir_mark]
    exact ht.inj
  held := by
    simp only [dir_mark, freeFrames_mark, frameAt, pool_mark]
    exact ht.held

/-- `vaddr_get` for both kinds of pages. -/
theorem vaddrGet_succeeds_iff {Q : Option ℕ → Memory → Prop} :
    (Paging.vaddrGet pf n).succeeds Q m ↔
      (bitmapScan (m.vaddrBitmap pf) n = none → Q none m) ∧
      ∀ s, bitmapScan (m.vaddrBitmap pf) n = some s →
        (pf = .user → page pf s < 0xc0000000 - pgSize) ∧ Q (some (page pf s)) (m.mark pf s n) := by
  cases pf with
  | kernel =>
      simp only [Paging.vaddrGet, succeeds_bind, succeeds_read, vaddrBitmap]
      cases bitmapScan m.kernelVaddr n with
      | none => simp
      | some s =>
          simp only [succeeds_bind, succeeds_write, succeeds_pure, reduceCtorEq, false_imp_iff,
            true_and, Option.some.injEq, forall_eq']
          exact Iff.rfl
  | user =>
      simp only [Paging.vaddrGet, succeeds_bind, succeeds_read, vaddrBitmap]
      cases bitmapScan (m.spaces m.kernel.running).vaddrBitmap n with
      | none => simp
      | some s =>
          simp only [succeeds_bind, succeeds_write, succeeds_assert, succeeds_pure, reduceCtorEq,
            false_imp_iff, true_and, Option.some.injEq, forall_eq', decide_eq_true_iff, forall_const]
          exact Iff.rfl

theorem vaddrGet_wp {Q : Option ℕ → Memory → Prop}
    (hnone : bitmapScan (m.vaddrBitmap pf) n = none → Q none m)
    (hsome : ∀ s, bitmapScan (m.vaddrBitmap pf) n = some s →
      Q (some (page pf s)) (m.mark pf s n)) : (Paging.vaddrGet pf n).wp Q m := by
  cases pf with
  | kernel =>
      simp only [Paging.vaddrGet, wp_bind, wp_read]
      cases hscan : bitmapScan m.kernelVaddr n with
      | none => exact hnone hscan
      | some s => exact hsome s hscan
  | user =>
      simp only [Paging.vaddrGet, wp_bind, wp_read]
      cases hscan : bitmapScan (m.spaces m.kernel.running).vaddrBitmap n with
      | none => exact hnone hscan
      | some s =>
          simp only [wp_bind, wp_write, wp_assert, wp_pure]
          exact fun _ => hsome s hscan

/-- `malloc_page` with a page count that it accepts. -/
theorem mallocPage_succeeds_iff (hn : 1 ≤ n ∧ n < 3840) {Q : Option ℕ → Memory → Prop} :
    (Paging.mallocPage pf n).succeeds Q m ↔
      (bitmapScan (m.vaddrBitmap pf) n = none → Q none m) ∧
      ∀ s, bitmapScan (m.vaddrBitmap pf) n = some s →
        (pf = .user → page pf s < 0xc0000000 - pgSize) ∧
        (Paging.mapPages pf (page pf s) n).succeeds
          (fun ok m' => Q (if ok then some (page pf s) else none) m') (m.mark pf s n) := by
  have hassert : decide (0 < n ∧ n < 3840) = true := decide_eq_true ⟨by omega, hn.2⟩
  have hend : ∀ a (ok : Bool) (t : Memory), (if ok = true then (pure (some a) : Prog Memory (Option ℕ))
      else pure none).succeeds Q t ↔ Q (if ok then some a else none) t := by
    intro a ok t
    cases ok <;> exact Iff.rfl
  simp only [Paging.mallocPage, succeeds_bind, succeeds_assert, hassert, true_and,
    vaddrGet_succeeds_iff, succeeds_pure, hend]

/-- Mapping pages leaves the bitmaps of virtual pages alone. -/
theorem mapPages_vaddrBitmap : (Paging.mapPages pf v n).wp (fun _ m' =>
    ∀ q, m'.vaddrBitmap q = m.vaddrBitmap q) m := by
  have hpool : ∀ (t : Memory) (pf q : PoolFlags) (btmp : Bitmap),
      (t.setPool pf btmp).vaddrBitmap q = t.vaddrBitmap q := by
    intro t pf q btmp
    cases pf <;> cases q <;> rfl
  have hpte : ∀ (t : Memory) (w : ℕ) (e : Entry) (q : PoolFlags),
      (t.setPte w e).vaddrBitmap q = t.vaddrBitmap q := by
    intro t w e q
    unfold setPte
    cases q <;> split <;> rfl
  have hpde : ∀ (t : Memory) (w a : ℕ) (q : PoolFlags),
      (t.setPde w a).vaddrBitmap q = t.vaddrBitmap q := by
    intro t w a q
    cases q <;> rfl
  have halloc : ∀ (t : Memory) (pf : PoolFlags), (palloc pf).wp (fun _ t' =>
      ∀ q, t'.vaddrBitmap q = t.vaddrBitmap q) t := by
    intro t pf
    refine wp_mono Paging.palloc_spec ?_
    rintro r t' (⟨-, rfl⟩ | ⟨i, -, -, -, rfl⟩) q
    · rfl
    · exact hpool t pf q _
  induction n generalizing v m with
  | zero => exact fun _ => rfl
  | succ n ih =>
      rw [Paging.mapPages, wp_bind]
      refine wp_mono (halloc m pf) ?_
      intro r m₁ h₁
      cases r with
      | none => exact h₁
      | some frame =>
          have hadd : (pageTableAdd v frame).wp (fun _ t' => ∀ q, t'.vaddrBitmap q = m₁.vaddrBitmap q)
              m₁ := by
            simp only [pageTableAdd, wp_bind, wp_read]
            cases m₁.pte v with
            | some e =>
                simp only [wp_bind, wp_assert, wp_write]
                exact fun _ q => hpte m₁ v _ q
            | none =>
                simp only [wp_bind, wp_modify]
                refine wp_mono (halloc m₁ .kernel) ?_
                intro table t h q
                rw [hpte, hpde, h]
          dsimp only
          rw [wp_bind]
          refine wp_mono hadd ?_
          intro _ m₂ h₂
          refine wp_mono ih ?_
          intro _ m₃ h₃ q
          rw [h₃, h₂, h₁]

/-- The pages of a run inside the bitmap lie in their half. -/
theorem Regular.inHalf (h : m.Regular pf) (hrun : (m.vaddrBitmap pf).Run n s) :
    InHalf pf (page pf s) n := by
  cases pf with
  | kernel => exact Paging.kernelBase_le_of_heap (Nat.le_add_right _ _)
  | user =>
      have hhalf := h.half rfl
      have hfit := hrun.1
      simp only [InHalf, page, pgSize] at hhalf ⊢
      omega

/-- The bitmap after the pages were marked and mapped. -/
theorem Mapped.vaddrBitmap_eq (h : Mapped pf v n m m') (q : PoolFlags) :
    m'.vaddrBitmap q = m.vaddrBitmap q := by
  rw [h.rest]
  cases q <;> rfl

/-- What is regular stays so. -/
theorem Granted.regular (hreg : m.Regular pf) (h : Granted pf n v m m') : m'.Regular pf := by
  obtain ⟨-, s, rfl, hrun, hmapped⟩ := h
  have hvaddr : m'.vaddrBitmap pf = setBits (m.vaddrBitmap pf) s true n := by
    rw [hmapped.vaddrBitmap_eq, vaddrBitmap_mark]
  refine ⟨hmapped.sound, fun i hi hclear => ?_, fun hpf => ?_⟩
  · rw [hvaddr, btmpBytesLen_setBits] at hi
    rw [hvaddr, bit_setBits] at hclear
    split at hclear
    next => cases hclear
    next hout =>
      rw [hmapped.other, mapping_mark, hreg.absent i hi hclear]
      intro c hc heq
      have := page_div_eq.mp heq
      omega
  · rw [hvaddr, btmpBytesLen_setBits]
    exact hreg.half hpf

/-- `malloc_page` keeps to its contract. -/
theorem granted_of_served (h : m.Regular pf) (hn : 1 ≤ n ∧ n < 3840) (hserved : m.Served pf n) :
    (Paging.mallocPage pf n).succeeds
      (fun r m' => r = none ∧ m' = m ∨ ∃ v ∈ r, Granted pf n v m m') m := by
  rw [mallocPage_succeeds_iff hn]
  refine ⟨fun _ => Or.inl ⟨rfl, rfl⟩, fun s hscan => ?_⟩
  obtain ⟨hfit, haddr, hframes, htables⟩ := hserved s hscan
  have hrun : (m.vaddrBitmap pf).Run n s := ⟨hfit, bit_of_bitmapScan hscan⟩
  refine ⟨haddr, succeeds_mono (mapPages_mapped h.tables.mark (h.inHalf hrun) (fun c hc => ?_) ?_) ?_⟩
  · rw [mapping_mark, page_add_mul]
    exact h.absent _ (by omega) (hrun.2 c hc)
  · rw [missing_mark, freeFrames_mark]
    exact htables
  · rintro ok m' ⟨hok, hmapped⟩
    rw [freeFrames_mark] at hok
    have hdone := hok.mpr hframes
    rw [hdone, if_pos rfl]
    exact Or.inr ⟨_, rfl, page_aligned pf s, s, rfl, hrun, hmapped hdone⟩

/-- When it keeps to its contract, it had what it needed. -/
theorem served_of_granted (h : m.Regular pf) (hn : 1 ≤ n ∧ n < 3840)
    (hgrant : (Paging.mallocPage pf n).succeeds
      (fun r m' => r = none ∧ m' = m ∨ ∃ v ∈ r, Granted pf n v m m') m) : m.Served pf n := by
  intro s hscan
  obtain ⟨haddr, hmap⟩ := ((mallocPage_succeeds_iff hn).mp hgrant).2 s hscan
  obtain ⟨ok, m', hret, hres⟩ := returns_of_succeeds hmap
  rcases hres with ⟨-, rfl⟩ | ⟨v, hv, -, s', hpage, hrun, hmapped⟩
  · -- nothing has changed, but the pages were marked
    have hkept := wp_iff_returns.mp (mapPages_vaddrBitmap (m := m'.mark pf s n)) ok m' hret pf
    have hclear := bit_of_bitmapScan hscan 0 (by omega)
    rw [hkept, vaddrBitmap_mark, bit_setBits, if_pos (by omega)] at hclear
    cases hclear
  · cases ok with
    | false => cases hv
    | true =>
        obtain rfl : page pf s = v := Option.some_inj.mp hv
        obtain rfl := page_inj.mp hpage
        have hframes := hmapped.card_frames
        have htables := hmapped.card_missing (h.inHalf hrun)
        rw [freeFrames_mark] at hframes
        rw [missing_mark, freeFrames_mark] at htables
        exact ⟨hrun.1, haddr, hframes, htables⟩

/-- `malloc_page` keeps to its contract as long as nothing runs out after `vaddr_get`. -/
theorem mallocPage_clean_iff (hreg : m.Regular pf) (hn : 1 ≤ n ∧ n < 3840) :
    (Paging.mallocPage pf n).succeeds
      (fun r m' => r = none ∧ m' = m ∨ ∃ v ∈ r, Granted pf n v m m') m ↔ m.Served pf n :=
  ⟨served_of_granted hreg hn, granted_of_served hreg hn⟩

end MallocPage

/-! ### The memory at boot -/

/-- The memory after the boot with 32 MiB, when no page has been taken. -/
def bootMemory : Memory where
  kernel := default
  kernelPool := ⟨⟨480, fun _ => 0⟩, 0x200000, 3840⟩
  userPool := ⟨⟨480, fun _ => 0⟩, 0x1100000, 3840⟩
  kernelVaddr := ⟨480, fun _ => 0⟩
  kernelTable _ := ⟨0, false⟩
  pageDir _ _ := ⟨0, false⟩
  pageTable _ _ := ⟨0, false⟩
  cr3 := 0
  spaces _ := ⟨0, 0, 0, ⟨94199, fun _ => 0⟩⟩
  arenas _ _ := default
  freeLists _ := []
  kernelHeap := ⟨fun _ => default, fun _ => []⟩
  inodeBlock _ := 0
  mainThread := 0

/-- The same, with all frames of the kernel pool taken. -/
def exhaustedMemory : Memory :=
  { bootMemory with kernelPool := ⟨⟨480, fun _ => 0xff⟩, 0x200000, 3840⟩ }

theorem bootMemory_regular (pf : PoolFlags) : bootMemory.Regular pf where
  tables := ⟨fun _ _ _ _ h => (by cases h), fun _ _ h => by cases h⟩
  absent i _ _ := by
    rw [mapping, pte]
    split
    · rfl
    · rfl
  half h := by
    rw [h]
    decide

theorem exhaustedMemory_regular : exhaustedMemory.Regular .kernel where
  tables := ⟨fun _ _ _ _ h => (by cases h), fun _ _ h => by cases h⟩
  absent := (bootMemory_regular .kernel).absent
  half h := by cases h

/-- The first page is free, but no frame. -/
theorem exhaustedMemory_not_served : ¬ exhaustedMemory.Served .kernel 1 := by
  intro hserved
  have hscan : bitmapScan (exhaustedMemory.vaddrBitmap .kernel) 1 = some 0 := by decide +kernel
  have hfull : bitmapScan (exhaustedMemory.pool .kernel).poolBitmap 1 = none := by decide +kernel
  have hframes := (hserved 0 hscan).2.2.1
  rw [freeFrames, freeBits_of_scan_none hfull] at hframes
  exact absurd hframes (by decide)

/-- One page of the kernel at boot. -/
theorem mallocPage_clean_iff_boot : bootMemory.Regular .kernel ∧ (1 ≤ 1 ∧ 1 < 3840) ∧
    (Paging.mallocPage .kernel 1).succeeds
      (fun r m' => r = none ∧ m' = bootMemory ∨ ∃ v ∈ r, Granted .kernel 1 v bootMemory m')
      bootMemory := by
  have hscan : bitmapScan (bootMemory.vaddrBitmap .kernel) 1 = some 0 := by decide +kernel
  have hfree : 0 ∈ bootMemory.freeFrames .kernel := mem_freeFrames.mpr ⟨by decide, by decide⟩
  have hfit : 0 + 1 ≤ 8 * (bootMemory.vaddrBitmap .kernel).btmpBytesLen := by decide
  refine ⟨bootMemory_regular _, by decide,
    (mallocPage_clean_iff (bootMemory_regular _) (by decide)).mpr fun s hs => ?_⟩
  obtain rfl : 0 = s := Option.some_inj.mp (hscan.symm.trans hs)
  exact ⟨hfit, fun h => (by cases h), Finset.card_pos.mpr ⟨0, hfree⟩, Nat.zero_le _⟩

/-- Without a free frame the page stays marked. -/
theorem not_mallocPage_clean_exhausted :
    ¬ (Paging.mallocPage .kernel 1).succeeds
      (fun r m' => r = none ∧ m' = exhaustedMemory ∨
        ∃ v ∈ r, Granted .kernel 1 v exhaustedMemory m') exhaustedMemory :=
  mt (served_of_granted exhaustedMemory_regular (by decide)) exhaustedMemory_not_served

end Memory

end BochsOs
