import BochsOs.Kernel.BitmapScan
import BochsOs.Kernel.MemInit

/-!
# What is mapped where

The page tables as a partial function from pages to frames, `Memory.mapping`, and what
`page_table_add` and `page_table_pte_remove` do to it.  Both need that no two entries of the page
directory share a page table and that no page table is marked free, `Memory.TablesSound`;
`palloc` could otherwise hand out a page table in use.
-/

namespace BochsOs

open Suspend Suspend.Prog

/-! ## Free bits -/

/-- The clear bits of a bitmap. -/
def Bitmap.freeBits (btmp : Bitmap) : Finset ℕ :=
  (Finset.range (8 * btmp.btmpBytesLen)).filter fun i => btmp.bit i = false

section FreeBits

variable {btmp : Bitmap} {i : ℕ}

@[simp]
theorem Bitmap.mem_freeBits : i ∈ btmp.freeBits ↔ i < 8 * btmp.btmpBytesLen ∧ btmp.bit i = false := by
  simp [freeBits]

theorem mem_freeBits_of_scan (h : bitmapScan btmp 1 = some i) : i ∈ btmp.freeBits := by
  obtain ⟨hlt, hclear⟩ := bit_of_bitmapScan_one h
  exact Bitmap.mem_freeBits.mpr ⟨by omega, hclear⟩

theorem freeBits_of_scan_none (h : bitmapScan btmp 1 = none) : btmp.freeBits = ∅ := by
  rw [Finset.eq_empty_iff_forall_notMem]
  intro j hj
  obtain ⟨hlt, hclear⟩ := Bitmap.mem_freeBits.mp hj
  rw [bit_of_bitmapScan_none h (by omega)] at hclear
  cases hclear

end FreeBits

namespace Memory

variable (m : Memory)

/-! ## Mappings -/

/-- The frame that a page is mapped to. -/
def mapping (vaddr : ℕ) : Option ℕ :=
  (m.pte vaddr).bind fun e => if e.present then some e.frame else none

/-- The user half of the page directory in use. -/
def dir (i : ℕ) : Entry := m.pageDir m.cr3 i

/-- The frame with bit `y` of a pool. -/
def frameAt (pf : PoolFlags) (y : ℕ) : ℕ := y * pgSize + (m.pool pf).phyAddrStart

/-- The frames of a pool that are free. -/
def freeFrames (pf : PoolFlags) : Finset ℕ := (m.pool pf).poolBitmap.freeBits

/-- The entries of the page directory for user addresses. -/
def userEntries : ℕ := 768

/-- No page table is shared. -/
def TablesApart : Prop :=
  ∀ i < userEntries, ∀ j < userEntries, (m.dir i).present = true → (m.dir j).present = true →
    (m.dir i).frame = (m.dir j).frame → i = j

/-- No page table is shared, and none is marked free. -/
structure TablesSound : Prop where
  inj : m.TablesApart
  held : ∀ i < userEntries, (m.dir i).present = true →
    ∀ y ∈ m.freeFrames .kernel, (m.dir i).frame ≠ m.frameAt .kernel y

variable {m}

theorem pdeIdx_lt {vaddr : ℕ} (hv : vaddr < kernelBase) : pdeIdx vaddr < userEntries := by
  simp only [kernelBase] at hv
  simp only [pdeIdx, userEntries]
  omega

/-- The indices of an address tell its page. -/
theorem page_eq_iff {v w : ℕ} :
    w / pgSize = v / pgSize ↔ pdeIdx w = pdeIdx v ∧ pteIdx w = pteIdx v := by
  simp only [pdeIdx, pteIdx, pgSize]
  omega

/-- Pages of the two halves differ. -/
theorem page_ne {v w : ℕ} (hv : v < kernelBase) (hw : kernelBase ≤ w) : w / pgSize ≠ v / pgSize := by
  simp only [kernelBase] at hv hw
  simp only [pgSize]
  omega

theorem pte_user {vaddr : ℕ} (hv : vaddr < kernelBase) : m.pte vaddr =
    if (m.dir (pdeIdx vaddr)).present then
      some (m.pageTable (m.dir (pdeIdx vaddr)).frame (pteIdx vaddr)) else none := by
  rw [pte, if_neg (Nat.not_le.mpr hv)]
  rfl

theorem setPte_user {vaddr : ℕ} (hv : vaddr < kernelBase) (e : Entry) : m.setPte vaddr e =
    { m with
      pageTable := Function.update m.pageTable (m.dir (pdeIdx vaddr)).frame
        (Function.update (m.pageTable (m.dir (pdeIdx vaddr)).frame) (pteIdx vaddr) e) } :=
  if_neg (Nat.not_le.mpr hv)

@[simp]
theorem dir_setPte (vaddr i : ℕ) (e : Entry) : (m.setPte vaddr e).dir i = m.dir i := by
  unfold setPte
  split <;> rfl

@[simp]
theorem pool_setPte (vaddr : ℕ) (e : Entry) (pf : PoolFlags) :
    (m.setPte vaddr e).pool pf = m.pool pf := by
  unfold setPte
  split <;> rfl

/-- A new entry is that of its own page only. -/
theorem pte_setPte (ht : m.TablesApart) {v : ℕ} (hv : m.pte v ≠ none) (e : Entry) (w : ℕ) :
    (m.setPte v e).pte w = if w / pgSize = v / pgSize then some e else m.pte w := by
  rcases Nat.lt_or_ge v kernelBase with hvu | hvk
  · have hpresent : (m.dir (pdeIdx v)).present = true := by
      rw [pte_user hvu] at hv
      by_contra habsent
      exact hv (if_neg habsent)
    rcases Nat.lt_or_ge w kernelBase with hwu | hwk
    · rw [pte_user hwu, pte_user hwu, dir_setPte, setPte_user hvu]
      dsimp only
      by_cases htable : (m.dir (pdeIdx w)).present = true
      · rw [if_pos htable, if_pos htable]
        by_cases hsame : (m.dir (pdeIdx w)).frame = (m.dir (pdeIdx v)).frame
        · -- the page is in the same page table
          have hidx := ht _ (pdeIdx_lt hwu) _ (pdeIdx_lt hvu) htable hpresent hsame
          rw [hsame, Function.update_self]
          by_cases hpte : pteIdx w = pteIdx v
          · rw [if_pos (page_eq_iff.mpr ⟨hidx, hpte⟩), hpte, Function.update_self]
          · rw [if_neg fun h => hpte (page_eq_iff.mp h).2, Function.update_of_ne hpte]
        · rw [Function.update_of_ne hsame, if_neg]
          intro hpage
          exact hsame (by rw [(page_eq_iff.mp hpage).1])
      · rw [if_neg htable, if_neg htable, if_neg]
        intro hpage
        rw [(page_eq_iff.mp hpage).1] at htable
        exact htable hpresent
    · rw [if_neg (page_ne hvu hwk), Paging.pte_kernel hwk, Paging.pte_kernel hwk, setPte_user hvu]
  · rw [Paging.setPte_kernel hvk]
    rcases Nat.lt_or_ge w kernelBase with hwu | hwk
    · rw [if_neg fun h => page_ne hwu hvk h.symm, pte_user hwu, pte_user hwu]
      rfl
    · rw [Paging.pte_kernel hwk, Paging.pte_kernel hwk]
      by_cases hpage : w / pgSize = v / pgSize
      · rw [if_pos hpage, hpage]
        exact congrArg some (Function.update_self _ _ _)
      · rw [if_neg hpage]
        exact congrArg some (Function.update_of_ne hpage _ _)

theorem mapping_setPte (ht : m.TablesApart) {v : ℕ} (hv : m.pte v ≠ none) (e : Entry) (w : ℕ) :
    (m.setPte v e).mapping w = if w / pgSize = v / pgSize then
      (if e.present then some e.frame else none) else m.mapping w := by
  rw [mapping, pte_setPte ht hv, apply_ite (fun o : Option Entry => o.bind fun e =>
    if e.present then some e.frame else none)]
  rfl

theorem TablesApart.setPte (ht : m.TablesApart) (v : ℕ) (e : Entry) :
    (m.setPte v e).TablesApart := by
  simp only [TablesApart, dir_setPte]
  exact ht

theorem TablesSound.setPte (ht : m.TablesSound) (v : ℕ) (e : Entry) : (m.setPte v e).TablesSound where
  inj := ht.inj.setPte v e
  held := by
    simp only [dir_setPte, freeFrames, frameAt, pool_setPte]
    exact ht.held

/-! ## A new page table -/

theorem dir_setPde (v table i : ℕ) :
    (m.setPde v table).dir i = if i = pdeIdx v then ⟨table, true⟩ else m.dir i := by
  change Function.update m.pageDir m.cr3 (Function.update (m.pageDir m.cr3) (pdeIdx v) ⟨table, true⟩)
    m.cr3 i = _
  rw [Function.update_self, Function.update_apply]
  rfl

@[simp]
theorem pool_setPde (v table : ℕ) (pf : PoolFlags) : (m.setPde v table).pool pf = m.pool pf := by
  cases pf <;> rfl

/-- A page table in a frame that is no page table maps nothing. -/
theorem pte_setPde {v table : ℕ}
    (hfresh : ∀ i < userEntries, (m.dir i).present = true → (m.dir i).frame ≠ table) (w : ℕ) :
    (m.setPde v table).pte w =
      if w < kernelBase ∧ pdeIdx w = pdeIdx v then some ⟨0, false⟩ else m.pte w := by
  rcases Nat.lt_or_ge w kernelBase with hwu | hwk
  · rw [pte_user hwu, dir_setPde]
    by_cases hidx : pdeIdx w = pdeIdx v
    · rw [if_pos hidx, if_pos rfl, if_pos ⟨hwu, hidx⟩]
      change some (Function.update m.pageTable table (fun _ => ⟨0, false⟩) table (pteIdx w)) = _
      rw [Function.update_self]
    · have hother : ¬ (w < kernelBase ∧ pdeIdx w = pdeIdx v) := fun h => hidx h.2
      rw [if_neg hidx, if_neg hother, pte_user hwu]
      by_cases hpresent : (m.dir (pdeIdx w)).present = true
      · rw [if_pos hpresent, if_pos hpresent]
        change some (Function.update m.pageTable table _ (m.dir (pdeIdx w)).frame (pteIdx w)) = _
        rw [Function.update_of_ne (hfresh _ (pdeIdx_lt hwu) hpresent)]
      · rw [if_neg hpresent, if_neg hpresent]
  · rw [if_neg fun h => absurd h.1 (Nat.not_lt.mpr hwk), Paging.pte_kernel hwk, Paging.pte_kernel hwk]
    rfl

/-! ## Frames of the pools -/

theorem mem_freeFrames {pf : PoolFlags} {y : ℕ} : y ∈ m.freeFrames pf ↔
    y < 8 * (m.pool pf).poolBitmap.btmpBytesLen ∧ (m.pool pf).poolBitmap.bit y = false :=
  Bitmap.mem_freeBits

theorem frameAt_inj {pf : PoolFlags} {y y' : ℕ} : m.frameAt pf y = m.frameAt pf y' ↔ y = y' := by
  simp only [frameAt, pgSize]
  omega

/-- The state after `palloc` has taken the frame with bit `i`. -/
def take (m : Memory) (pf : PoolFlags) (i : ℕ) : Memory :=
  m.setPool pf (bitmapSet (m.pool pf).poolBitmap i true)

theorem palloc_succeeds {pf : PoolFlags} {Q : Option ℕ → Memory → Prop}
    (hnone : m.freeFrames pf = ∅ → Q none m)
    (hsome : ∀ i ∈ m.freeFrames pf, Q (some (m.frameAt pf i)) (m.take pf i)) :
    (palloc pf).succeeds Q m := by
  simp only [palloc, succeeds_bind, succeeds_read]
  cases hscan : bitmapScan (m.pool pf).poolBitmap 1 with
  | none => exact hnone (freeBits_of_scan_none hscan)
  | some i => exact hsome i (mem_freeBits_of_scan hscan)

section Take

variable {pf q : PoolFlags} {i y : ℕ}

theorem bit_take : ((m.take pf i).pool q).poolBitmap.bit y =
    if q = pf ∧ y = i then true else (m.pool q).poolBitmap.bit y := by
  have hbit := bit_bitmapSet (m.pool pf).poolBitmap i y true
  cases pf <;> cases q <;> simp only [reduceCtorEq, false_and, true_and, if_false]
  · exact hbit
  · rfl
  · rfl
  · exact hbit

theorem len_take : ((m.take pf i).pool q).poolBitmap.btmpBytesLen =
    (m.pool q).poolBitmap.btmpBytesLen := by
  cases pf <;> cases q <;> rfl

theorem start_take : ((m.take pf i).pool q).phyAddrStart = (m.pool q).phyAddrStart := by
  cases pf <;> cases q <;> rfl

theorem frameAt_take : (m.take pf i).frameAt q y = m.frameAt q y := by
  rw [frameAt, frameAt, start_take]

theorem mem_freeFrames_take : y ∈ (m.take pf i).freeFrames q ↔
    y ∈ m.freeFrames q ∧ ¬ (q = pf ∧ y = i) := by
  rw [mem_freeFrames, mem_freeFrames, len_take, bit_take]
  split
  next h => simp [h]
  next h => simp [h]

@[simp]
theorem dir_take (j : ℕ) : (m.take pf i).dir j = m.dir j := by
  cases pf <;> rfl

@[simp]
theorem pte_take (w : ℕ) : (m.take pf i).pte w = m.pte w := by
  cases pf <;> rfl

theorem TablesSound.take (ht : m.TablesSound) : (m.take pf i).TablesSound where
  inj := by
    simp only [TablesApart, dir_take]
    exact ht.inj
  held j hj hpresent y hy := by
    rw [dir_take] at hpresent ⊢
    rw [frameAt_take]
    exact ht.held j hj hpresent y (mem_freeFrames_take.mp hy).1

end Take

/-- With a new page table in a frame that was free the page tables stay sound. -/
theorem TablesSound.setPde (ht : m.TablesSound) {v j : ℕ} (hj : j ∈ m.freeFrames .kernel) :
    ((m.take .kernel j).setPde v (m.frameAt .kernel j)).TablesSound := by
  have hdir : ∀ i, ((m.take .kernel j).setPde v (m.frameAt .kernel j)).dir i =
      if i = pdeIdx v then ⟨m.frameAt .kernel j, true⟩ else m.dir i := by
    intro i
    rw [dir_setPde, dir_take]
  refine ⟨fun i hi i' hi' hpresent hpresent' hframe => ?_, fun i hi hpresent y hy => ?_⟩
  · rw [hdir] at hpresent hframe
    rw [hdir] at hpresent' hframe
    by_cases hiv : i = pdeIdx v
    · by_cases hiv' : i' = pdeIdx v
      · rw [hiv, hiv']
      · rw [if_neg hiv'] at hpresent' hframe
        rw [if_pos hiv] at hframe
        exact absurd hframe.symm (ht.held i' hi' hpresent' j hj)
    · rw [if_neg hiv] at hpresent hframe
      by_cases hiv' : i' = pdeIdx v
      · rw [if_pos hiv'] at hframe
        exact absurd hframe (ht.held i hi hpresent j hj)
      · rw [if_neg hiv'] at hpresent' hframe
        exact ht.inj i hi i' hi' hpresent hpresent' hframe
  · have hy' : y ∈ (m.take .kernel j).freeFrames .kernel := by
      rw [freeFrames, pool_setPde] at hy
      exact hy
    obtain ⟨hfree, hne⟩ := mem_freeFrames_take.mp hy'
    have hframe : ((m.take .kernel j).setPde v (m.frameAt .kernel j)).frameAt .kernel y =
        m.frameAt .kernel y := by
      rw [frameAt, pool_setPde]
      exact frameAt_take
    rw [hframe]
    rw [hdir] at hpresent ⊢
    by_cases hiv : i = pdeIdx v
    · rw [if_pos hiv]
      intro heq
      exact hne ⟨rfl, (frameAt_inj.mp heq).symm⟩
    · rw [if_neg hiv] at hpresent ⊢
      exact ht.held i hi hpresent y hfree

end Memory

end BochsOs
