import BochsOs.Userprog.Exec

/-!
# The pages of a segment

What the page loop of `segment_load` does to the memory of a process, `Memory.UserSound`: no two of
its pages share a frame, no page table is shared, and the kernel pool has a frame for each page
table that may still be needed.  `Took T m m'` says that from `m` to `m'` the pages of `T` were
mapped.

The loop ends in one of three ways (`UserSound.takePages`): it takes all pages that are missing, it
runs out of frames, or it comes to a page outside of the user range.  The bytes of the segment then
reach the pages that are there (`storeBytes_stored`).
-/

namespace BochsOs

open ByteMemory Suspend Suspend.Prog

namespace Memory

/-! ## Pages -/

/-- The pages of the user range. -/
def userPages : Finset ℕ := Finset.Ico (userVaddrStart / pgSize) (kernelBase / pgSize)

/-- The pages of the address space. -/
def pageCnt : ℕ := 2 ^ 20

theorem mem_userPages {p : ℕ} : p ∈ userPages ↔ 0x8048 ≤ p ∧ p < 0xc0000 := Finset.mem_Ico

variable {m m' m'' : Memory}

theorem mapping_page (v : ℕ) : m.mapping (v / pgSize * pgSize) = m.mapping v := by
  have hdiv : v / pgSize * pgSize / pgSize = v / pgSize := Nat.mul_div_cancel _ (by decide)
  obtain ⟨hpde, hpte⟩ := page_eq_iff.mp hdiv
  have hhalf : kernelBase ≤ v / pgSize * pgSize ↔ kernelBase ≤ v := by
    simp only [kernelBase, pgSize]
    omega
  have hpteq : m.pte (v / pgSize * pgSize) = m.pte v := by
    by_cases hv : kernelBase ≤ v
    · rw [Paging.pte_kernel hv, Paging.pte_kernel (hhalf.mpr hv), hdiv]
    · rw [pte_user (Nat.lt_of_not_le hv), pte_user (Nat.lt_of_not_le (mt hhalf.mp hv)), hpde, hpte]
  rw [mapping, mapping, hpteq]

/-- The entries of the page directory that have no page table. -/
def noTable (m : Memory) : Finset ℕ :=
  (Finset.range userEntries).filter fun i => (m.dir i).present = false

/-- What holds of the memory of a process between two calls. -/
structure UserSound (m : Memory) : Prop where
  process : m.kernel.cur.isProcess = true
  len : (m.vaddrBitmap .user).btmpBytesLen = userBitmapLen
  tables : m.TablesSound
  /-- No two pages share a frame. -/
  apart : ∀ v < kernelBase, ∀ w < kernelBase, ∀ f, m.mapping v = some f → m.mapping w = some f →
    v / pgSize = w / pgSize
  fresh : ∀ v < kernelBase, ∀ y ∈ m.freeFrames .user, m.mapping v ≠ some (m.frameAt .user y)
  /-- Page tables can be had. -/
  room : m.noTable.card ≤ (m.freeFrames .kernel).card

/-- From `m` to `m'` the pages of `T` were mapped, to frames of the user pool. -/
structure Took (T : Finset ℕ) (m m' : Memory) : Prop where
  kernel : m'.kernel = m.kernel
  user : T ⊆ userPages
  absent : ∀ p ∈ T, m.mapping (p * pgSize) = none
  present : ∀ p ∈ T, m'.mapping (p * pgSize) ≠ none
  other : ∀ v, v / pgSize ∉ T → m'.mapping v = m.mapping v
  card : (m'.freeFrames .user).card + T.card = (m.freeFrames .user).card

theorem Took.refl (m : Memory) : Took ∅ m m :=
  ⟨rfl, Finset.empty_subset _, by simp, by simp, fun _ _ => rfl, by simp⟩

theorem Took.mapping_page_ne {T : Finset ℕ} (h : Took T m m') {p : ℕ} (hp : p ∉ T) :
    m'.mapping (p * pgSize) = m.mapping (p * pgSize) :=
  h.other _ (by rwa [Nat.mul_div_cancel _ (by decide)])

theorem Took.trans {T T' : Finset ℕ} (h : Took T m m') (h' : Took T' m' m'') :
    Took (T ∪ T') m m'' := by
  have hdisj : Disjoint T T' := by
    rw [Finset.disjoint_left]
    exact fun p hp hp' => h.present p hp (h'.absent p hp')
  refine ⟨h'.kernel.trans h.kernel, Finset.union_subset h.user h'.user, fun p hp => ?_, fun p hp => ?_,
    fun v hv => ?_, ?_⟩
  · rcases Finset.mem_union.mp hp with hp | hp
    · exact h.absent p hp
    · rw [← h.mapping_page_ne fun hT => h.present p hT (h'.absent p hp)]
      exact h'.absent p hp
  · by_cases hp' : p ∈ T'
    · exact h'.present p hp'
    · rw [h'.mapping_page_ne hp']
      exact h.present p ((Finset.mem_union.mp hp).resolve_right hp')
  · rw [Finset.mem_union, not_or] at hv
    rw [h'.other v hv.2, h.other v hv.1]
  · rw [Finset.card_union_of_disjoint hdisj, ← h.card, ← h'.card]
    omega

/-! ## One page -/

/-- The bitmap does not matter for what is mapped. -/
theorem UserSound.mark (hm : m.UserSound) (s : ℕ) : (m.mark .user s 1).UserSound where
  process := hm.process
  len := by
    rw [vaddrBitmap_mark, btmpBytesLen_setBits]
    exact hm.len
  tables := hm.tables.mark
  apart v hv w hw f := by
    rw [mapping_mark, mapping_mark]
    exact hm.apart v hv w hw f
  fresh v hv y hy := by
    rw [freeFrames_mark] at hy
    rw [mapping_mark, frameAt, pool_mark]
    exact hm.fresh v hv y hy
  room := by
    rw [freeFrames_mark, noTable]
    simp only [dir_mark]
    exact hm.room

section Mapped

variable {v : ℕ} (h : Mapped .user v 1 m m')

include h

theorem Mapped.card_noTable (hv : v + pgSize ≤ kernelBase) :
    m'.noTable.card + (m.missing .user v 1).card = m.noTable.card := by
  have hsub : m.missing .user v 1 ⊆ m.noTable := by
    intro i hi
    obtain ⟨⟨c, hc, rfl⟩, habsent⟩ := mem_missing_user.mp hi
    obtain rfl : c = 0 := by omega
    refine Finset.mem_filter.mpr ⟨Finset.mem_range.mpr (pdeIdx_lt ?_), habsent⟩
    unfold pgSize at *
    omega
  have heq : m'.noTable = m.noTable \ m.missing .user v 1 := by
    ext i
    simp only [noTable, Finset.mem_sdiff, Finset.mem_filter]
    by_cases hi : i ∈ m.missing .user v 1
    · obtain ⟨y, -, hdir⟩ := h.table i hi
      rw [hdir]
      simp [hi]
    · rw [h.dirs i hi]
      simp [hi]
  rw [heq, Finset.card_sdiff_add_card_eq_card hsub]

theorem Mapped.took (habsent : m.mapping v = none) (hp : v / pgSize ∈ userPages) :
    Took {v / pgSize} m m' := by
  refine ⟨?_, Finset.singleton_subset_iff.mpr hp, fun p hp => ?_, fun p hp => ?_, fun w hw => ?_, ?_⟩
  · rw [h.rest]
  · rw [Finset.mem_singleton.mp hp, mapping_page]
    exact habsent
  · obtain ⟨i, -, hmap⟩ := h.frame 0 Nat.one_pos
    rw [Nat.zero_mul, Nat.add_zero] at hmap
    rw [Finset.mem_singleton.mp hp, mapping_page, hmap]
    exact Option.some_ne_none _
  · refine h.other w fun c hc => ?_
    obtain rfl : c = 0 := by omega
    exact fun heq => hw (Finset.mem_singleton.mpr heq)
  · exact h.card_one

/-- A new page keeps the memory sound. -/
theorem UserSound.mapped (hm : m.UserSound) (hv : v + pgSize ≤ kernelBase) : m'.UserSound := by
  have hpage : v / pgSize * pgSize < kernelBase := by
    unfold pgSize at *
    omega
  obtain ⟨i, hi, hmap⟩ := h.frame 0 Nat.one_pos
  rw [Nat.zero_mul, Nat.add_zero] at hmap
  have hself {w : ℕ} (hw : w / pgSize = v / pgSize) : m'.mapping w = some (m.frameAt .user i) := by
    rw [← mapping_page w, hw, mapping_page, hmap]
  have hother {w : ℕ} (hw : w / pgSize ≠ v / pgSize) : m'.mapping w = m.mapping w :=
    h.other w fun c hc => by
      obtain rfl : c = 0 := by omega
      exact hw
  refine ⟨?_, ?_, h.sound, fun u hu w hw f hfu hfw => ?_, fun u hu y hy hf => ?_, ?_⟩
  · rw [h.rest]
    exact hm.process
  · rw [h.vaddrBitmap_eq]
    exact hm.len
  · by_cases hup : u / pgSize = v / pgSize
    · by_cases hwp : w / pgSize = v / pgSize
      · rw [hup, hwp]
      · rw [hself hup] at hfu
        rw [hother hwp, ← hfu] at hfw
        exact absurd hfw (hm.fresh w hw i hi)
    · rw [hother hup] at hfu
      by_cases hwp : w / pgSize = v / pgSize
      · rw [hself hwp] at hfw
        rw [← hfw] at hfu
        exact absurd hfu (hm.fresh u hu i hi)
      · rw [hother hwp] at hfw
        exact hm.apart u hu w hw f hfu hfw
  · rw [h.frameAt_eq] at hf
    obtain ⟨hfree, hnew, -⟩ := h.mem_freeFrames_iff.mp hy
    by_cases hup : u / pgSize = v / pgSize
    · refine hnew ⟨rfl, 0, Nat.one_pos, ?_⟩
      rw [Nat.zero_mul, Nat.add_zero, ← hf, hmap, hself hup]
    · rw [hother hup] at hf
      exact hm.fresh u hu y hfree hf
  · have htables := h.card_tables
    have hno := h.card_noTable hv
    have hroom := hm.room
    omega

end Mapped

section GetAPage

variable {p : ℕ} (hm : m.UserSound)

theorem mul_pgSize_div (p : ℕ) : p * pgSize / pgSize = p := Nat.mul_div_cancel _ (by decide)

include hm

theorem UserSound.outcome_markPage (v : ℕ) : (PoolLocks.markPage .user v).outcome m =
    .ok ((), m.mark .user (subU32 v userVaddrStart / pgSize) 1) := by
  rw [PoolLocks.markPage, outcome_read_bind, hm.process]
  rfl

/-- The bit of a page is in the bitmap just if the page is in the user range. -/
theorem UserSound.bitIdx_lt (hp : p < pageCnt) :
    8 * (m.vaddrBitmap .user).btmpBytesLen ≤ Ram.bitIdx .user (p * pgSize) ↔ p ∉ userPages := by
  have hlen : 8 * userBitmapLen = 753592 := rfl
  rw [hm.len, hlen, mem_userPages, Ram.bitIdx, subU32, userVaddrStart]
  unfold pgSize pageCnt at *
  split <;> omega

/-- `get_a_page` for a page outside of the user range. -/
theorem UserSound.outcome_getAPage_outside (hp : p < pageCnt) (hout : p ∉ userPages) :
    (Ram.getAPage .user (p * pgSize)).outcome m = .error .overrun := by
  rw [Ram.getAPage, outcome_bind_ok (hm.outcome_markPage _), outcome_read_bind,
    if_pos (((hm.mark _).bitIdx_lt hp).mpr hout)]
  rfl

/-- `get_a_page` without a free frame. -/
theorem UserSound.outcome_getAPage_none (hp : p ∈ userPages) (hfree : m.freeFrames .user = ∅) :
    ∃ m', (Ram.getAPage .user (p * pgSize)).outcome m = .ok (none, m') ∧ m'.kernel = m.kernel := by
  have hlt : p < pageCnt := by
    have := mem_userPages.mp hp
    unfold pageCnt
    omega
  rw [Ram.getAPage, outcome_bind_ok (hm.outcome_markPage _), outcome_read_bind,
    if_neg (mt ((hm.mark _).bitIdx_lt hlt).mp (not_not.mpr hp))]
  have hnone : (palloc .user).succeeds (fun r m' => r = none ∧ m'.kernel = m.kernel)
      (m.mark .user (subU32 (p * pgSize) userVaddrStart / pgSize) 1) := by
    refine palloc_succeeds (fun _ => ⟨rfl, rfl⟩) fun i hi => ?_
    rw [freeFrames_mark, hfree] at hi
    exact absurd hi (Finset.notMem_empty i)
  obtain ⟨r, m', hout, rfl, hkernel⟩ := outcome_of_succeeds hnone
  rw [outcome_bind_ok hout]
  exact ⟨m', rfl, hkernel⟩

/-- `get_a_page` maps a page. -/
theorem UserSound.outcome_getAPage (hp : p ∈ userPages) (habsent : m.mapping (p * pgSize) = none)
    (hfree : m.freeFrames .user ≠ ∅) :
    ∃ m', (Ram.getAPage .user (p * pgSize)).outcome m = .ok (some (p * pgSize), m') ∧
      m'.UserSound ∧ Took {p} m m' := by
  have hlow := mem_userPages.mp hp
  have hlt : p < pageCnt := by
    unfold pageCnt
    omega
  have hend : p * pgSize + pgSize ≤ kernelBase := by
    unfold pgSize kernelBase
    omega
  rw [Ram.getAPage, outcome_bind_ok (hm.outcome_markPage _), outcome_read_bind,
    if_neg (mt ((hm.mark _).bitIdx_lt hlt).mp (not_not.mpr hp))]
  have hmark := hm.mark (subU32 (p * pgSize) userVaddrStart / pgSize)
  have hroom : ((m.mark .user (subU32 (p * pgSize) userVaddrStart / pgSize) 1).missing .user
      (p * pgSize) 1).card ≤
      ((m.mark .user (subU32 (p * pgSize) userVaddrStart / pgSize) 1).freeFrames .kernel).card := by
    refine (Finset.card_le_card fun i hi => ?_).trans hmark.room
    obtain ⟨⟨c, hc, rfl⟩, hdir⟩ := mem_missing_user.mp hi
    obtain rfl : c = 0 := by omega
    refine Finset.mem_filter.mpr ⟨Finset.mem_range.mpr (pdeIdx_lt ?_), hdir⟩
    unfold pgSize at *
    omega
  refine outcome_of_succeeds_ret (P := Mapped .user (p * pgSize) 1
    (m.mark .user (subU32 (p * pgSize) userVaddrStart / pgSize) 1)) ?_ fun m' hmapped => ?_
  · rw [succeeds_bind]
    refine palloc_succeeds (fun hempty => ?_) fun i hi => ?_
    · rw [freeFrames_mark] at hempty
      exact absurd hempty hfree
    · dsimp only
      rw [succeeds_bind]
      refine succeeds_mono (pageTableAdd_mapped hmark.tables ?_ ?_ hi hroom) fun _ _ h => ⟨rfl, h⟩
      · rw [InHalf, Nat.one_mul]
        exact hend
      · rw [mapping_mark]
        exact habsent
  · have htook := hmapped.took (by rw [mapping_mark]; exact habsent) (by rwa [mul_pgSize_div])
    rw [mul_pgSize_div] at htook
    refine ⟨hmark.mapped hmapped hend, htook.kernel, htook.user, fun q hq => ?_, htook.present,
      fun v hv => ?_, ?_⟩
    · rw [← mapping_mark]
      exact htook.absent q hq
    · rw [htook.other v hv, mapping_mark]
    · rw [htook.card, freeFrames_mark]

end GetAPage

/-! ## All pages -/

/-- The `n` pages from `first` on; the last page of all is followed by page `0`. -/
def pagesFrom (first n : ℕ) : Finset ℕ := (Finset.range n).image fun i => (first + i) % pageCnt

/-- Those of them that are not mapped. -/
def need (m : Memory) (first n : ℕ) : Finset ℕ :=
  (pagesFrom first n).filter fun p => m.mapping (p * pgSize) = none

/-- The pages that are missing can be mapped. -/
def FitsIn (m : Memory) (first n : ℕ) : Prop :=
  m.need first n ⊆ userPages ∧ (m.need first n).card ≤ (m.freeFrames .user).card

/-- The frames do not suffice for the missing pages up to some page, which are all in the user
range. -/
def RunsOut (m : Memory) (first n : ℕ) : Prop :=
  ∃ j ≤ n, m.need first j ⊆ userPages ∧ (m.freeFrames .user).card < (m.need first j).card

section TakePages

variable {first n : ℕ}

theorem mem_need {p : ℕ} : p ∈ m.need first n ↔
    (∃ i < n, (first + i) % pageCnt = p) ∧ m.mapping (p * pgSize) = none := by
  simp [need, pagesFrom]

/-- The pages after the first. -/
theorem mem_need_succ (hfirst : first < pageCnt) {p : ℕ} : p ∈ m.need first (n + 1) ↔
    p = first ∧ m.mapping (first * pgSize) = none ∨ p ∈ m.need ((first + 1) % pageCnt) n := by
  have hshift (i : ℕ) : ((first + 1) % pageCnt + i) % pageCnt = (first + (i + 1)) % pageCnt := by
    rw [Nat.mod_add_mod, Nat.add_assoc, Nat.add_comm 1 i]
  rw [mem_need, mem_need]
  constructor
  · rintro ⟨⟨i, hi, rfl⟩, habsent⟩
    cases i with
    | zero =>
        rw [Nat.add_zero, Nat.mod_eq_of_lt hfirst] at habsent ⊢
        exact Or.inl ⟨rfl, habsent⟩
    | succ i => exact Or.inr ⟨⟨i, Nat.lt_of_succ_lt_succ hi, hshift i⟩, habsent⟩
  · rintro (⟨rfl, habsent⟩ | ⟨⟨i, hi, rfl⟩, habsent⟩)
    · exact ⟨⟨0, Nat.succ_pos n, Nat.mod_eq_of_lt hfirst⟩, habsent⟩
    · exact ⟨⟨i + 1, Nat.succ_lt_succ hi, (hshift i).symm⟩, habsent⟩

/-- A first page that is mapped does not matter. -/
theorem need_succ_of_mapped (hfirst : first < pageCnt) (hmap : m.mapping (first * pgSize) ≠ none)
    (n : ℕ) : m.need first (n + 1) = m.need ((first + 1) % pageCnt) n := by
  ext p
  rw [mem_need_succ hfirst]
  exact or_iff_right fun h => hmap h.2

/-- A first page that is missing, and those that are missing once it is mapped. -/
theorem need_succ_of_took (hfirst : first < pageCnt) (h : Took {first} m m') (n : ℕ) :
    m.need first (n + 1) = insert first (m'.need ((first + 1) % pageCnt) n) ∧
      first ∉ m'.need ((first + 1) % pageCnt) n := by
  have hself := Finset.mem_singleton_self first
  refine ⟨?_, fun hmem => h.present first hself (mem_need.mp hmem).2⟩
  ext p
  rw [mem_need_succ hfirst, Finset.mem_insert]
  by_cases hp : p = first
  · exact iff_of_true (Or.inl ⟨hp, h.absent first hself⟩) (Or.inl hp)
  · rw [or_iff_right fun h => hp h.1, or_iff_right hp, mem_need, mem_need,
      h.mapping_page_ne (mt Finset.mem_singleton.mp hp)]

section First

variable (hfirst : first < pageCnt)

include hfirst

theorem fitsIn_succ_of_mapped (hmap : m.mapping (first * pgSize) ≠ none) :
    m.FitsIn first (n + 1) ↔ m.FitsIn ((first + 1) % pageCnt) n := by
  rw [FitsIn, FitsIn, need_succ_of_mapped hfirst hmap]

theorem runsOut_succ_of_mapped (hmap : m.mapping (first * pgSize) ≠ none) :
    m.RunsOut first (n + 1) ↔ m.RunsOut ((first + 1) % pageCnt) n := by
  constructor
  · rintro ⟨j, hj, hout⟩
    cases j with
    | zero => exact absurd hout.2 (Nat.not_lt_zero _)
    | succ j =>
        rw [need_succ_of_mapped hfirst hmap] at hout
        exact ⟨j, Nat.le_of_succ_le_succ hj, hout⟩
  · rintro ⟨j, hj, hout⟩
    rw [← need_succ_of_mapped hfirst hmap] at hout
    exact ⟨j + 1, Nat.succ_le_succ hj, hout⟩

/-- A first page that cannot be mapped. -/
theorem not_fits_of_outside (habsent : m.mapping (first * pgSize) = none) (hout : first ∉ userPages) :
    ¬ m.FitsIn first (n + 1) ∧ ¬ m.RunsOut first (n + 1) := by
  have hmem (j : ℕ) : first ∈ m.need first (j + 1) := (mem_need_succ hfirst).mpr (Or.inl ⟨rfl, habsent⟩)
  refine ⟨fun h => hout (h.1 (hmem n)), ?_⟩
  rintro ⟨j, -, hsub, hcard⟩
  cases j with
  | zero => exact Nat.not_lt_zero _ hcard
  | succ j => exact hout (hsub (hmem j))

/-- No frame for the first page. -/
theorem runsOut_of_none (habsent : m.mapping (first * pgSize) = none) (hp : first ∈ userPages)
    (hfree : m.freeFrames .user = ∅) : m.RunsOut first (n + 1) ∧ ¬ m.FitsIn first (n + 1) := by
  have hmem (j : ℕ) : first ∈ m.need first (j + 1) := (mem_need_succ hfirst).mpr (Or.inl ⟨rfl, habsent⟩)
  have hcard (j : ℕ) : (m.freeFrames .user).card < (m.need first (j + 1)).card := by
    rw [hfree]
    exact Finset.card_pos.mpr ⟨first, hmem j⟩
  refine ⟨⟨1, Nat.succ_pos n, fun p hpn => ?_, hcard 0⟩, fun h => absurd h.2 (Nat.not_le.mpr (hcard n))⟩
  rcases (mem_need_succ hfirst).mp hpn with ⟨rfl, -⟩ | hnone
  · exact hp
  · exact absurd hnone (Finset.notMem_empty p)

section Took

variable (h : Took {first} m m')

include h

/-- One page less, and one frame less. -/
theorem fits_succ_iff (j : ℕ) : (m.need first (j + 1) ⊆ userPages ↔
      m'.need ((first + 1) % pageCnt) j ⊆ userPages) ∧
    (m.need first (j + 1)).card = (m'.need ((first + 1) % pageCnt) j).card + 1 := by
  obtain ⟨heq, hnot⟩ := need_succ_of_took hfirst h j
  rw [heq, Finset.insert_subset_iff, Finset.card_insert_of_notMem hnot]
  exact ⟨and_iff_right (h.user (Finset.mem_singleton_self first)), rfl⟩

theorem fitsIn_succ_of_took : m.FitsIn first (n + 1) ↔ m'.FitsIn ((first + 1) % pageCnt) n := by
  obtain ⟨hsub, hcard⟩ := fits_succ_iff hfirst h n
  have hfree := h.card
  rw [Finset.card_singleton] at hfree
  rw [FitsIn, FitsIn, hsub, hcard, ← hfree, Nat.succ_le_succ_iff]

theorem runsOut_succ_of_took : m.RunsOut first (n + 1) ↔ m'.RunsOut ((first + 1) % pageCnt) n := by
  have hfree := h.card
  rw [Finset.card_singleton] at hfree
  constructor
  · rintro ⟨j, hj, hsub, hlt⟩
    cases j with
    | zero => exact absurd hlt (Nat.not_lt_zero _)
    | succ j =>
        obtain ⟨hsub', hcard⟩ := fits_succ_iff hfirst h j
        exact ⟨j, Nat.le_of_succ_le_succ hj, hsub'.mp hsub, by omega⟩
  · rintro ⟨j, hj, hsub, hlt⟩
    obtain ⟨hsub', hcard⟩ := fits_succ_iff hfirst h j
    exact ⟨j + 1, Nat.succ_le_succ hj, hsub'.mpr hsub, by omega⟩

end Took

end First

/-- The loop takes all pages that are missing, or it runs out of frames, or it comes to a page
outside of the user range. -/
theorem UserSound.takePages (hm : m.UserSound) (hfirst : first < pageCnt) :
    (m.FitsIn first n → ∃ m', (Ram.takePages n (first * pgSize)).outcome m = .ok (true, m') ∧
      m'.UserSound ∧ Took (m.need first n) m m') ∧
    (m.RunsOut first n → ∃ m', (Ram.takePages n (first * pgSize)).outcome m = .ok (false, m') ∧
      m'.kernel = m.kernel) ∧
    (¬ m.FitsIn first n → ¬ m.RunsOut first n →
      (Ram.takePages n (first * pgSize)).outcome m = .error .overrun) := by
  induction n generalizing first m with
  | zero =>
      refine ⟨fun _ => ⟨m, rfl, hm, .refl m⟩, ?_, fun h => absurd ⟨Finset.empty_subset _, Nat.zero_le _⟩ h⟩
      rintro ⟨j, hj, -, hlt⟩
      obtain rfl : j = 0 := by omega
      exact absurd hlt (Nat.not_lt_zero _)
  | succ n ih =>
      have hnext : addU32 (first * pgSize) pgSize = (first + 1) % pageCnt * pgSize := by
        unfold addU32 pageCnt pgSize
        omega
      have hnextlt : (first + 1) % pageCnt < pageCnt := Nat.mod_lt _ (by decide)
      rw [Ram.takePages, outcome_read_bind]
      by_cases habsent : m.mapping (first * pgSize) = none
      · rw [habsent, if_neg (by decide)]
        by_cases hp : first ∈ userPages
        · by_cases hfree : m.freeFrames .user = ∅
          · obtain ⟨m', hout, hkernel⟩ := hm.outcome_getAPage_none hp hfree
            obtain ⟨hruns, hfits⟩ := runsOut_of_none (n := n) hfirst habsent hp hfree
            rw [outcome_bind_ok hout]
            exact ⟨fun h => absurd h hfits, fun _ => ⟨m', rfl, hkernel⟩, fun _ h => absurd hruns h⟩
          · obtain ⟨m₁, hout, hsound, htook⟩ := hm.outcome_getAPage hp habsent hfree
            rw [outcome_bind_ok hout, hnext, fitsIn_succ_of_took hfirst htook,
              runsOut_succ_of_took hfirst htook]
            obtain ⟨hfits, hruns, hout'⟩ := ih hsound hnextlt
            refine ⟨fun h => ?_, fun h => ?_, hout'⟩
            · obtain ⟨m', hret, hsound', htook'⟩ := hfits h
              refine ⟨m', hret, hsound', ?_⟩
              rw [(need_succ_of_took hfirst htook n).1, Finset.insert_eq]
              exact htook.trans htook'
            · obtain ⟨m', hret, hkernel⟩ := hruns h
              exact ⟨m', hret, hkernel.trans htook.kernel⟩
        · obtain ⟨hfits, hruns⟩ := not_fits_of_outside (n := n) hfirst habsent hp
          rw [outcome_bind_error (hm.outcome_getAPage_outside hfirst hp)]
          exact ⟨fun h => absurd h hfits, fun h => absurd h hruns, fun _ _ => rfl⟩
      · rw [if_pos (Option.isSome_iff_ne_none.mpr habsent), hnext, fitsIn_succ_of_mapped hfirst habsent,
          runsOut_succ_of_mapped hfirst habsent, need_succ_of_mapped hfirst habsent]
        exact ih hm hnextlt

end TakePages

end Memory

/-! ## Storing bytes -/

namespace Ram

variable {w w' : Ram} {vaddr n done : ℕ} {src : Bytes}

/-- A byte can be stored at this address. -/
def Storable (w : Ram) (v : ℕ) : Prop := InUser v ∧ w.memory.mapping v ≠ none

/-- From `w` to `w'` the bytes `first`, …, `last - 1` of `src` were stored from `vaddr + first`
on. -/
structure Stored (vaddr first last : ℕ) (src : Bytes) (w w' : Ram) : Prop where
  memory : w'.memory = w.memory
  inside : ∀ i, first ≤ i → i < last → w'.byteAt (vaddr + i) = some (src i)
  outside : ∀ v < Memory.kernelBase, v < vaddr + first ∨ vaddr + last ≤ v →
    w'.byteAt v = w.byteAt v

/-- A byte in a frame is seen at one address only. -/
theorem byteAt_setByte (hm : w.memory.UserSound) {u v frame : ℕ} (hu : u < Memory.kernelBase)
    (hmap : w.memory.mapping u = some frame) (hv : v < Memory.kernelBase) (value : UInt8) :
    (w.setByte frame (u % pgSize) value).byteAt v = if v = u then some value else w.byteAt v := by
  unfold byteAt setByte
  by_cases hvu : v = u
  · rw [if_pos hvu, hvu]
    dsimp only
    rw [hmap, Option.map_some, Function.update_self, Function.update_self]
  · rw [if_neg hvu]
    dsimp only
    cases hmapv : w.memory.mapping v with
    | none => rfl
    | some f =>
        rw [Option.map_some, Option.map_some]
        by_cases hf : f = frame
        · have hpage := hm.apart v hv u hu f hmapv (hf ▸ hmap)
          have hoff : v % pgSize ≠ u % pgSize := by
            intro hoff
            exact hvu (by rw [← Nat.div_add_mod v pgSize, ← Nat.div_add_mod u pgSize, hpage, hoff])
          rw [hf, Function.update_self, Function.update_of_ne hoff]
        · rw [Function.update_of_ne hf]

theorem storeByte_ok (hu : w.Storable vaddr) (value : UInt8) : ∃ frame,
    w.memory.mapping vaddr = some frame ∧
      (storeByte vaddr value).outcome w = .ok ((), w.setByte frame (vaddr % pgSize) value) := by
  obtain ⟨frame, hmap⟩ := Option.ne_none_iff_exists'.mp hu.2
  refine ⟨frame, hmap, ?_⟩
  rw [storeByte, outcome_read_bind, if_neg (not_not.mpr hu.1), hmap]
  rfl

/-- Bytes that can all be stored. -/
theorem storeBytes_stored (hm : w.memory.UserSound)
    (hall : ∀ i, done ≤ i → i < done + n → w.Storable (vaddr + i)) :
    ∃ w', (storeBytes vaddr src n done).outcome w = .ok ((), w') ∧
      Stored vaddr done (done + n) src w w' := by
  induction n generalizing done w with
  | zero =>
      refine ⟨w, rfl, rfl, fun i hi hlt => by omega, fun _ _ _ => rfl⟩
  | succ n ih =>
      have hfirst := hall done le_rfl (by omega)
      have hlow : vaddr + done < Memory.kernelBase := hfirst.1.2
      obtain ⟨frame, hmap, hout⟩ := storeByte_ok hfirst (src done)
      obtain ⟨w', hrest, hstored⟩ := @ih (w.setByte frame ((vaddr + done) % pgSize) (src done))
        (done + 1) hm
        fun i hi hlt => hall i (by omega) (by omega)
      refine ⟨w', ?_, hstored.memory, fun i hi hlt => ?_, fun v hv hout => ?_⟩
      · rw [storeBytes, outcome_bind_ok hout, hrest]
      · rcases Nat.lt_or_ge done i with hlater | hsame
        · exact hstored.inside i hlater (by omega)
        · obtain rfl : i = done := by omega
          rw [hstored.outside _ hlow (Or.inl (by omega)), byteAt_setByte hm hlow hmap hlow, if_pos rfl]
      · rw [hstored.outside v hv (by omega), byteAt_setByte hm hlow hmap hv, if_neg (by omega)]

end Ram

end BochsOs
