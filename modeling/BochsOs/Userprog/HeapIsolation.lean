import BochsOs.Kernel.Heap

/-!
# Heap isolation across fork

After a fork the child has a copy of the pages of its parent, so the headers of the
arenas it inherits still point to the descriptors in the control block of the parent.
A small block that was allocated before the fork and is freed by the child therefore
goes to a free list of the parent (`free_inherited_block`).  As long as the child frees
no such block, the heap of the parent stays as it was, and the free lists of the child
hold blocks of its own arenas only (`heap_isolated`).

`HeapInv` is the invariant of the heap of one process: what its pages, its free lists
and the pointers it holds have to do with each other.
-/

namespace BochsOs

open Suspend Suspend.Prog Runs

/-! ## Addresses -/

/-- The address of page `k`. -/
def pageAddr (k : ℕ) : ℕ := userVaddrStart + k * pgSize

/-- The page a pointer lies in. -/
def pageOf (ptr : ℕ) : ℕ := pageBit (block2arena ptr)

@[simp] theorem pageBit_pageAddr (k : ℕ) : pageBit (pageAddr k) = k := by
  simp only [pageBit, pageAddr, pgSize]
  omega

theorem pageAddr_injective {k k' : ℕ} (h : pageAddr k = pageAddr k') : k = k' := by
  simp only [pageAddr, pgSize] at h
  omega

theorem pageAddr_aligned (k : ℕ) : pageAddr k % pgSize = 0 := by
  simp only [pageAddr, pgSize, userVaddrStart]
  omega

theorem block2arena_large (k : ℕ) : block2arena (pageAddr k + arenaSize) = pageAddr k :=
  block2arena_of_lt (pageAddr_aligned k) (by decide)

theorem block2arena_pageAddr {k i j : ℕ} (hj : j < blocksPerArena i) :
    block2arena (arena2block (pageAddr k) i j) = pageAddr k :=
  block2arena_arena2block (pageAddr_aligned k) hj

/-! ## The invariant of one heap -/

section Blocks

variable (h : Heaps) (p : ℕ)

/-- The page bits of a process. -/
def Heaps.used (k : ℕ) : Prop := (h.vaddrBitmap p).bit k = true

/-- The header of the page of a pointer. -/
def Heaps.header (x : ℕ) : Arena := h.arena p (pageAddr (pageOf x))

/-- A block of an arena that belongs to descriptor `i` of the process. -/
structure IsSmall (i x : ℕ) : Prop where
  block : ∃ j < blocksPerArena i, x = arena2block (pageAddr (pageOf x)) i j
  used : h.used p (pageOf x)
  desc : (h.header p x).desc = some (p, i)

/-- A large block of `n` pages. -/
structure IsLarge (n x : ℕ) : Prop where
  block : x = pageAddr (pageOf x) + arenaSize
  used : ∀ c < n, h.used p (pageOf x + c)
  pos : 0 < n
  header : h.header p x = ⟨none, n, true⟩

/-- A block of an arena that belongs to one of the processes `procs`. -/
structure IsForeign (procs : List ℕ) (x : ℕ) : Prop where
  block : block2arena x = pageAddr (pageOf x)
  used : h.used p (pageOf x)
  desc : ∃ q ∈ procs, ∃ i, (h.header p x).desc = some (q, i)

end Blocks

/-- What a process got from its ancestors: the processes it descends from, and the small
blocks it held when it was forked. -/
structure Legacy where
  procs : List ℕ
  blocks : List ℕ

/-- The heap of process `p`, which holds the pointers `live`; those of them that lie in
arenas of its ancestors are inherited. -/
structure HeapInv (h : Heaps) (p : ℕ) (live : List ℕ) (legacy : Legacy) : Prop where
  running : h.running = p
  procs : p ∉ legacy.procs
  live_nodup : live.Nodup
  live_block : ∀ x ∈ live, (∃ n, IsLarge h p n x) ∨ (∃ i, IsSmall h p i x ∧ x ∉ h.freeList p i) ∨
    (IsForeign h p legacy.procs x ∧ x ∈ legacy.blocks)
  free_nodup : ∀ i, (h.freeList p i).Nodup
  free_block : ∀ i, ∀ x ∈ h.freeList p i, IsSmall h p i x
  /-- The pages of a large block hold no other block. -/
  apart : ∀ x ∈ live, ∀ n, IsLarge h p n x →
    (∀ y ∈ live, y ≠ x → pageOf y < pageOf x ∨ pageOf x + n ≤ pageOf y) ∧
      ∀ i, ∀ y ∈ h.freeList p i, pageOf y < pageOf x ∨ pageOf x + n ≤ pageOf y

theorem IsSmall.page {h : Heaps} {p i x : ℕ} (hx : IsSmall h p i x) :
    block2arena x = pageAddr (pageOf x) := by
  obtain ⟨j, hj, heq⟩ := hx.block
  rw [heq]
  have := block2arena_pageAddr (k := pageOf x) hj
  rw [← heq] at this ⊢
  exact this

theorem IsLarge.page {h : Heaps} {p n x : ℕ} (hx : IsLarge h p n x) :
    block2arena x = pageAddr (pageOf x) := by
  have := block2arena_large (pageOf x)
  rwa [← hx.block] at this

/-! ## Heaps that grow -/

/-- From `h` to `h'` the running process takes pages; used pages keep their header, the
free lists and the other processes stay as they are. -/
structure Grows (h h' : Heaps) : Prop where
  running : h'.running = h.running
  free : h'.freeList = h.freeList
  used : ∀ k, h.used h.running k → h'.used h.running k
  header : ∀ k, h.used h.running k →
    h'.arena h.running (pageAddr k) = h.arena h.running (pageAddr k)
  others : ∀ q, q ≠ h.running → h'.arena q = h.arena q ∧ h'.vaddrBitmap q = h.vaddrBitmap q

theorem Grows.refl (h : Heaps) : Grows h h := by
  constructor <;> simp

theorem Grows.trans {h₁ h₂ h₃ : Heaps} (hg : Grows h₁ h₂) (hg' : Grows h₂ h₃) : Grows h₁ h₃ where
  running := hg'.running.trans hg.running
  free := hg'.free.trans hg.free
  used k hk := by
    have := hg'.used k
    rw [hg.running] at this
    exact this (hg.used k hk)
  header k hk := by
    have := hg'.header k
    rw [hg.running] at this
    exact (this (hg.used k hk)).trans (hg.header k hk)
  others q hq := by
    have := hg'.others q
    rw [hg.running] at this
    exact ⟨(this hq).1.trans (hg.others q hq).1, (this hq).2.trans (hg.others q hq).2⟩

section Grow

variable {h h' : Heaps} {p : ℕ}

theorem Grows.header_eq (hg : Grows h h') (hp : h.running = p) {x : ℕ} (hx : h.used p (pageOf x)) :
    h'.header p x = h.header p x := by
  rw [Heaps.header, Heaps.header, ← hp]
  rw [← hp] at hx
  exact hg.header (pageOf x) hx

theorem IsSmall.grows {i x : ℕ} (hx : IsSmall h p i x) (hp : h.running = p) (hg : Grows h h') :
    IsSmall h' p i x where
  block := hx.block
  used := hp ▸ hg.used _ (hp ▸ hx.used)
  desc := by rw [hg.header_eq hp hx.used, hx.desc]

theorem IsLarge.first_used {n x : ℕ} (hx : IsLarge h p n x) : h.used p (pageOf x) := by
  have := hx.used 0 hx.pos
  rwa [Nat.add_zero] at this

theorem IsLarge.grows {n x : ℕ} (hx : IsLarge h p n x) (hp : h.running = p) (hg : Grows h h') :
    IsLarge h' p n x where
  block := hx.block
  used c hc := hp ▸ hg.used _ (hp ▸ hx.used c hc)
  pos := hx.pos
  header := by rw [hg.header_eq hp hx.first_used, hx.header]

theorem IsForeign.grows {procs : List ℕ} {x : ℕ} (hx : IsForeign h p procs x) (hp : h.running = p)
    (hg : Grows h h') : IsForeign h' p procs x where
  block := hx.block
  used := hp ▸ hg.used _ (hp ▸ hx.used)
  desc := by
    obtain ⟨q, hq, i, hdesc⟩ := hx.desc
    exact ⟨q, hq, i, by rw [hg.header_eq hp hx.used, hdesc]⟩

variable {live : List ℕ} {legacy : Legacy}

/-- The page of a pointer that is held is in use. -/
theorem HeapInv.live_used (hi : HeapInv h p live legacy) {x : ℕ} (hx : x ∈ live) :
    h.used p (pageOf x) := by
  rcases hi.live_block x hx with ⟨n, hlarge⟩ | ⟨i, hsmall, -⟩ | ⟨hforeign, -⟩
  · exact hlarge.first_used
  · exact hsmall.used
  · exact hforeign.used

/-- A pointer that is held and points to a large block in the new heap did so before. -/
theorem HeapInv.large_of_grows (hi : HeapInv h p live legacy) (hg : Grows h h') {x n : ℕ}
    (hx : x ∈ live) (hlarge : IsLarge h' p n x) : IsLarge h p n x := by
  have hheader := hlarge.header
  rw [hg.header_eq hi.running (hi.live_used hx)] at hheader
  rcases hi.live_block x hx with ⟨m, hold⟩ | ⟨i, hsmall, -⟩ | ⟨hforeign, -⟩
  · have hm : m = n := congrArg Arena.cnt (hold.header.symm.trans hheader)
    exact hm ▸ hold
  · have hdesc := hsmall.desc
    rw [hheader] at hdesc
    cases hdesc
  · obtain ⟨q, -, i, hdesc⟩ := hforeign.desc
    rw [hheader] at hdesc
    cases hdesc

theorem HeapInv.grows (hi : HeapInv h p live legacy) (hg : Grows h h') :
    HeapInv h' p live legacy where
  running := hg.running.trans hi.running
  procs := hi.procs
  live_nodup := hi.live_nodup
  live_block x hx := by
    rw [hg.free]
    rcases hi.live_block x hx with ⟨n, hlarge⟩ | ⟨i, hsmall, hfree⟩ | ⟨hforeign, hmem⟩
    · exact Or.inl ⟨n, hlarge.grows hi.running hg⟩
    · exact Or.inr (Or.inl ⟨i, hsmall.grows hi.running hg, hfree⟩)
    · exact Or.inr (Or.inr ⟨hforeign.grows hi.running hg, hmem⟩)
  free_nodup := by
    rw [hg.free]
    exact hi.free_nodup
  free_block i x hx := by
    rw [hg.free] at hx
    exact (hi.free_block i x hx).grows hi.running hg
  apart x hx n hlarge := by
    rw [hg.free]
    exact hi.apart x hx n (hi.large_of_grows hg hx hlarge)

end Grow

/-! ## Pages -/

theorem Heaps.used_setBitmap {h : Heaps} {btmp : Bitmap} {k : ℕ} :
    (h.setBitmap btmp).used h.running k ↔ btmp.bit k = true := by
  simp [Heaps.used, Heaps.setBitmap]

theorem Grows.takePages (h : Heaps) (start cnt : ℕ) :
    Grows h (h.setBitmap (setBits (h.vaddrBitmap h.running) start true cnt)) where
  running := rfl
  free := rfl
  used k hk := by
    rw [Heaps.used_setBitmap, bit_setBits]
    split
    · rfl
    · exact hk
  header _ _ := rfl
  others q hq := ⟨rfl, by simp [Heaps.setBitmap, hq]⟩

/-- `malloc_page` returns pages that were not in use. -/
theorem mallocPage_spec {h : Heaps} {n : ℕ} :
    (mallocPage n).wp
      (fun r h' => Grows h h' ∧ ∀ a, r = some a → 0 < n ∧ ∃ s, a = pageAddr s ∧
        ∀ c < n, ¬ h.used h.running (s + c) ∧ h'.used h.running (s + c)) h := by
  simp only [mallocPage, vaddrGet, wp_bind, wp_assert, wp_read, decide_eq_true_eq]
  rintro ⟨hpos, -⟩
  cases hscan : bitmapScan (h.vaddrBitmap h.running) n with
  | none => exact ⟨Grows.refl h, fun a ha => by cases ha⟩
  | some start =>
      simp only [wp_bind, wp_write, wp_assert, wp_pure, wp_arbitrary]
      intro _ frames
      refine ⟨Grows.takePages h start n, fun a ha => ⟨hpos, start, ?_, ?_⟩⟩
      · split at ha
        · exact (Option.some_injective _ ha).symm
        · cases ha
      · intro c hc
        refine ⟨?_, ?_⟩
        · rw [Heaps.used, bit_of_bitmapScan hscan c hc]
          decide
        · rw [Heaps.used_setBitmap, bit_setBits, if_pos (by omega)]

/-- Only headers of the pages `s`, …, `s + n - 1` of the running process change. -/
structure Retyped (h h' : Heaps) (s n : ℕ) : Prop where
  running : h'.running = h.running
  free : h'.freeList = h.freeList
  bitmap : h'.vaddrBitmap = h.vaddrBitmap
  header : ∀ k, k < s ∨ s + n ≤ k →
    h'.arena h.running (pageAddr k) = h.arena h.running (pageAddr k)
  others : ∀ q, q ≠ h.running → h'.arena q = h.arena q

theorem Retyped.setArena {h h' : Heaps} {s n c : ℕ} (hr : Retyped h h' s n) (hc : c < n)
    (arena : Arena) : Retyped h (h'.setArena (pageAddr (s + c)) arena) s n where
  running := hr.running
  free := hr.free
  bitmap := hr.bitmap
  header k hk := by
    have hne : pageAddr k ≠ pageAddr (s + c) := fun heq => by
      have := pageAddr_injective heq
      omega
    rw [← hr.header k hk, ← hr.running]
    simp only [Heaps.setArena, Function.update_self, Function.update_of_ne hne]
  others q hq := by
    rw [← hr.others q hq]
    have hq' : q ≠ h'.running := hr.running ▸ hq
    simp only [Heaps.setArena, Function.update_of_ne hq']

theorem clearPages_spec {h : Heaps} {s n : ℕ} (m : ℕ) (hm : m ≤ n) :
    (clearPages (pageAddr s) m).wp (fun _ h' => Retyped h h' s n) h := by
  induction m with
  | zero => exact ⟨rfl, rfl, rfl, fun _ _ => rfl, fun _ _ => rfl⟩
  | succ m ih =>
      simp only [clearPages, wp_bind, wp_modify]
      refine wp_mono (ih (by omega)) ?_
      rintro - h' hr
      have haddr : pageAddr s + m * pgSize = pageAddr (s + m) := by
        simp only [pageAddr, Nat.add_mul]
        omega
      rw [haddr]
      exact hr.setArena (by omega) _

/-- Pages that were not in use may get new headers. -/
theorem Grows.retyped {h h₁ h₂ : Heaps} {s n : ℕ} (hg : Grows h h₁) (hr : Retyped h₁ h₂ s n)
    (hfree : ∀ c < n, ¬ h.used h.running (s + c)) : Grows h h₂ where
  running := hr.running.trans hg.running
  free := hr.free.trans hg.free
  used k hk := by
    rw [Heaps.used, hr.bitmap]
    exact hg.used k hk
  header k hk := by
    have hout : k < s ∨ s + n ≤ k := by
      by_contra hin
      refine hfree (k - s) (by omega) ?_
      rwa [show s + (k - s) = k by omega]
    rw [← hg.header k hk, ← hg.running]
    exact hr.header k hout
  others q hq := by
    rw [hr.bitmap, hr.others q (hg.running ▸ hq)]
    exact hg.others q hq

/-! ## What the other processes see -/

/-- Only the running process's part of the heaps changes. -/
structure Private (h h' : Heaps) : Prop where
  running : h'.running = h.running
  others : ∀ q, q ≠ h.running →
    h'.arena q = h.arena q ∧ h'.vaddrBitmap q = h.vaddrBitmap q ∧ h'.freeList q = h.freeList q

theorem Private.refl (h : Heaps) : Private h h := ⟨rfl, fun _ _ => ⟨rfl, rfl, rfl⟩⟩

theorem Private.trans {h₁ h₂ h₃ : Heaps} (hp : Private h₁ h₂) (hp' : Private h₂ h₃) :
    Private h₁ h₃ where
  running := hp'.running.trans hp.running
  others q hq := by
    obtain ⟨harena, hbitmap, hfree⟩ := hp.others q hq
    obtain ⟨harena', hbitmap', hfree'⟩ := hp'.others q (hp.running ▸ hq)
    exact ⟨harena'.trans harena, hbitmap'.trans hbitmap, hfree'.trans hfree⟩

theorem Grows.toPrivate {h h' : Heaps} (hg : Grows h h') : Private h h' where
  running := hg.running
  others q hq := ⟨(hg.others q hq).1, (hg.others q hq).2, by rw [hg.free]⟩

theorem private_setFreeList (h : Heaps) (i : ℕ) (blocks : List ℕ) :
    Private h (h.setFreeList h.running i blocks) where
  running := rfl
  others q hq := ⟨rfl, rfl, by simp [Heaps.setFreeList, hq]⟩

theorem private_setArena (h : Heaps) (a : ℕ) (arena : Arena) : Private h (h.setArena a arena) where
  running := rfl
  others q hq := ⟨by simp [Heaps.setArena, hq], rfl, rfl⟩

theorem private_setBitmap (h : Heaps) (btmp : Bitmap) : Private h (h.setBitmap btmp) where
  running := rfl
  others q hq := ⟨rfl, by simp [Heaps.setBitmap, hq], rfl⟩

/-! ## Free lists -/

section FreeList

variable {h : Heaps} {p : ℕ} {live : List ℕ} {legacy : Legacy}

theorem Heaps.freeList_setFreeList_self (h : Heaps) (p i : ℕ) (blocks : List ℕ) :
    (h.setFreeList p i blocks).freeList p i = blocks := by
  simp [Heaps.setFreeList]

theorem Heaps.freeList_setFreeList_of_ne (h : Heaps) (p : ℕ) {i i' : ℕ} (blocks : List ℕ)
    (hne : i' ≠ i) : (h.setFreeList p i blocks).freeList p i' = h.freeList p i' := by
  simp [Heaps.setFreeList, hne]

theorem isSmall_setFreeList {i i' x : ℕ} {blocks : List ℕ} :
    IsSmall (h.setFreeList p i' blocks) p i x ↔ IsSmall h p i x :=
  ⟨fun hx => ⟨hx.block, hx.used, hx.desc⟩, fun hx => ⟨hx.block, hx.used, hx.desc⟩⟩

theorem isLarge_setFreeList {n i' x : ℕ} {blocks : List ℕ} :
    IsLarge (h.setFreeList p i' blocks) p n x ↔ IsLarge h p n x :=
  ⟨fun hx => ⟨hx.block, hx.used, hx.pos, hx.header⟩, fun hx => ⟨hx.block, hx.used, hx.pos, hx.header⟩⟩

theorem isForeign_setFreeList {procs : List ℕ} {i' x : ℕ} {blocks : List ℕ} :
    IsForeign (h.setFreeList p i' blocks) p procs x ↔ IsForeign h p procs x :=
  ⟨fun hx => ⟨hx.block, hx.used, hx.desc⟩, fun hx => ⟨hx.block, hx.used, hx.desc⟩⟩

/-- A free list may be replaced by another one of blocks of its own that nobody holds. -/
theorem HeapInv.setFreeList (hi : HeapInv h p live legacy) {i : ℕ} {blocks : List ℕ}
    (hnodup : blocks.Nodup) (hblock : ∀ x ∈ blocks, IsSmall h p i x)
    (hlive : ∀ x ∈ blocks, x ∉ live)
    (hapart : ∀ x ∈ live, ∀ n, IsLarge h p n x → ∀ y ∈ blocks,
      pageOf y < pageOf x ∨ pageOf x + n ≤ pageOf y) :
    HeapInv (h.setFreeList p i blocks) p live legacy where
  running := hi.running
  procs := hi.procs
  live_nodup := hi.live_nodup
  live_block x hx := by
    rcases hi.live_block x hx with ⟨n, hlarge⟩ | ⟨i', hsmall, hfree⟩ | ⟨hforeign, hmem⟩
    · exact Or.inl ⟨n, isLarge_setFreeList.mpr hlarge⟩
    · refine Or.inr (Or.inl ⟨i', isSmall_setFreeList.mpr hsmall, ?_⟩)
      by_cases hii : i' = i
      · subst hii
        rw [Heaps.freeList_setFreeList_self]
        exact fun hmem => hlive x hmem hx
      · rwa [h.freeList_setFreeList_of_ne p _ hii]
    · exact Or.inr (Or.inr ⟨isForeign_setFreeList.mpr hforeign, hmem⟩)
  free_nodup i' := by
    by_cases hii : i' = i
    · subst hii
      rwa [Heaps.freeList_setFreeList_self]
    · rw [h.freeList_setFreeList_of_ne p _ hii]
      exact hi.free_nodup i'
  free_block i' x hx := by
    rw [isSmall_setFreeList]
    by_cases hii : i' = i
    · subst hii
      rw [Heaps.freeList_setFreeList_self] at hx
      exact hblock x hx
    · rw [h.freeList_setFreeList_of_ne p _ hii] at hx
      exact hi.free_block i' x hx
  apart x hx n hlarge := by
    rw [isLarge_setFreeList] at hlarge
    refine ⟨(hi.apart x hx n hlarge).1, fun i' y hy => ?_⟩
    by_cases hii : i' = i
    · subst hii
      rw [Heaps.freeList_setFreeList_self] at hy
      exact hapart x hx n hlarge y hy
    · rw [h.freeList_setFreeList_of_ne p _ hii] at hy
      exact (hi.apart x hx n hlarge).2 i' y hy

/-- The pointers that are held are never in the free list of their own size. -/
theorem HeapInv.not_live_of_free (hi : HeapInv h p live legacy) {i x : ℕ}
    (hx : x ∈ h.freeList p i) : x ∉ live := by
  intro hmem
  have hdesc := (hi.free_block i x hx).desc
  rcases hi.live_block x hmem with ⟨n, hlarge⟩ | ⟨i', hsmall, hfree⟩ | ⟨hforeign, -⟩
  · rw [hlarge.header] at hdesc
    cases hdesc
  · rw [hsmall.desc] at hdesc
    cases hdesc
    exact hfree hx
  · obtain ⟨q, hq, j, hforeign⟩ := hforeign.desc
    rw [hforeign] at hdesc
    cases hdesc
    exact hi.procs hq

/-- Put a block that nobody holds into its free list. -/
theorem HeapInv.addFree (hi : HeapInv h p live legacy) {i b : ℕ} (hb : IsSmall h p i b)
    (hlive : b ∉ live) (hfree : b ∉ h.freeList p i)
    (hapart : ∀ x ∈ live, ∀ n, IsLarge h p n x → pageOf b < pageOf x ∨ pageOf x + n ≤ pageOf b) :
    HeapInv (h.setFreeList p i (h.freeList p i ++ [b])) p live legacy := by
  have hmem : ∀ x, x ∈ h.freeList p i ++ [b] → x ∈ h.freeList p i ∨ x = b := by
    intro x hx
    simpa using hx
  refine hi.setFreeList ?_ ?_ ?_ ?_
  · rw [← List.concat_eq_append]
    exact (hi.free_nodup i).concat hfree
  · intro x hx
    rcases hmem x hx with hx | rfl
    · exact hi.free_block i x hx
    · exact hb
  · intro x hx
    rcases hmem x hx with hx | rfl
    · exact hi.not_live_of_free hx
    · exact hlive
  · intro x hx n hlarge y hy
    rcases hmem y hy with hy | rfl
    · exact (hi.apart x hx n hlarge).2 i y hy
    · exact hapart x hx n hlarge

/-- A shorter free list. -/
theorem HeapInv.shrinkFree (hi : HeapInv h p live legacy) {i : ℕ} {blocks : List ℕ}
    (hsub : blocks.Sublist (h.freeList p i)) :
    HeapInv (h.setFreeList p i blocks) p live legacy := by
  refine hi.setFreeList ((hi.free_nodup i).sublist hsub) ?_ ?_ ?_
  · exact fun x hx => hi.free_block i x (hsub.subset hx)
  · exact fun x hx => hi.not_live_of_free (hsub.subset hx)
  · exact fun x hx n hlarge y hy => (hi.apart x hx n hlarge).2 i y (hsub.subset hy)

/-- A pointer that is no longer held. -/
theorem HeapInv.drop (hi : HeapInv h p live legacy) (x : ℕ) :
    HeapInv h p (live.erase x) legacy where
  running := hi.running
  procs := hi.procs
  live_nodup := hi.live_nodup.erase x
  live_block y hy := hi.live_block y (List.mem_of_mem_erase hy)
  free_nodup := hi.free_nodup
  free_block := hi.free_block
  apart y hy n hlarge := by
    obtain ⟨hlive, hfree⟩ := hi.apart y (List.mem_of_mem_erase hy) n hlarge
    exact ⟨fun z hz => hlive z (List.mem_of_mem_erase hz), hfree⟩

end FreeList

/-! ## Allocating -/

section Malloc

variable {h : Heaps} {p : ℕ} {live : List ℕ} {legacy : Legacy}

theorem Heaps.header_setArena (h : Heaps) (k y : ℕ) (arena : Arena) :
    (h.setArena (pageAddr k) arena).header h.running y =
      if pageOf y = k then arena else h.header h.running y := by
  rw [Heaps.header]
  split
  next heq => simp [Heaps.setArena, heq]
  next hne =>
    have haddr : pageAddr (pageOf y) ≠ pageAddr k := fun heq => hne (pageAddr_injective heq)
    simp [Heaps.setArena, haddr, Heaps.header]

/-- The count of an arena may change. -/
theorem HeapInv.setCnt (hi : HeapInv h p live legacy) {i b : ℕ} (hb : IsSmall h p i b) (cnt : ℕ) :
    HeapInv (h.setArena (pageAddr (pageOf b)) { h.header p b with cnt := cnt }) p live legacy := by
  obtain rfl := hi.running
  set h' := h.setArena (pageAddr (pageOf b)) { h.header h.running b with cnt := cnt } with hh'
  have hdesc : ∀ y, (h'.header h.running y).desc = (h.header h.running y).desc := by
    intro y
    rw [hh', Heaps.header_setArena]
    split
    next heq => rw [Heaps.header, Heaps.header, heq]
    next => rfl
  have hlarge : ∀ n y, IsLarge h' h.running n y ↔ IsLarge h h.running n y := by
    intro n y
    have hheader : pageOf y ≠ pageOf b → h'.header h.running y = h.header h.running y := by
      intro hne
      rw [hh', Heaps.header_setArena, if_neg hne]
    constructor
    · intro hy
      have hne : pageOf y ≠ pageOf b := by
        intro heq
        have hsome := hb.desc
        rw [Heaps.header, ← heq, ← Heaps.header, ← hdesc, hy.header] at hsome
        cases hsome
      exact ⟨hy.block, hy.used, hy.pos, by rw [← hheader hne, hy.header]⟩
    · intro hy
      have hne : pageOf y ≠ pageOf b := by
        intro heq
        have hsome := hb.desc
        rw [Heaps.header, ← heq, ← Heaps.header, hy.header] at hsome
        cases hsome
      exact ⟨hy.block, hy.used, hy.pos, by rw [hheader hne, hy.header]⟩
  have hsmall : ∀ i y, IsSmall h h.running i y → IsSmall h' h.running i y :=
    fun i y hy => ⟨hy.block, hy.used, by rw [hdesc, hy.desc]⟩
  refine ⟨rfl, hi.procs, hi.live_nodup, ?_, hi.free_nodup, ?_, ?_⟩
  · intro y hy
    rcases hi.live_block y hy with ⟨n, hyl⟩ | ⟨i', hys, hfree⟩ | ⟨hyf, hmem⟩
    · exact Or.inl ⟨n, (hlarge n y).mpr hyl⟩
    · exact Or.inr (Or.inl ⟨i', hsmall i' y hys, hfree⟩)
    · obtain ⟨q, hq, j, hyd⟩ := hyf.desc
      exact Or.inr (Or.inr ⟨⟨hyf.block, hyf.used, q, hq, j, by rw [hdesc, hyd]⟩, hmem⟩)
  · exact fun i' y hy => hsmall i' y (hi.free_block i' y hy)
  · exact fun x hx n hxl => hi.apart x hx n ((hlarge n x).mp hxl)

/-- New blocks whose page holds nothing that is held go to their free list. -/
theorem appendBlocks_spec (hi : HeapInv h p live legacy) {i k : ℕ} {blocks : List ℕ}
    (hblock : ∀ b ∈ blocks, IsSmall h p i b ∧ pageOf b = k)
    (hlive : ∀ x ∈ live, pageOf x ≠ k)
    (hapart : ∀ x ∈ live, ∀ n, IsLarge h p n x → k < pageOf x ∨ pageOf x + n ≤ k) :
    (appendBlocks i blocks).wp (fun _ h' => Private h h' ∧ HeapInv h' p live legacy) h := by
  induction blocks generalizing h with
  | nil => exact ⟨Private.refl h, hi⟩
  | cons b blocks ih =>
      simp only [appendBlocks, wp_bind, wp_read, wp_assert, wp_write, decide_eq_true_eq]
      intro hfree
      obtain rfl := hi.running
      obtain ⟨hb, hpage⟩ := hblock b List.mem_cons_self
      have hadd := hi.addFree hb (fun hmem => hlive b hmem hpage) hfree (hpage ▸ hapart)
      refine wp_mono (ih hadd ?_ ?_) ?_
      · intro x hx
        obtain ⟨hsmall, hk⟩ := hblock x (List.mem_cons_of_mem _ hx)
        exact ⟨isSmall_setFreeList.mpr hsmall, hk⟩
      · intro x hx n hlarge
        exact hapart x hx n (isLarge_setFreeList.mp hlarge)
      · rintro - h' ⟨hpriv, hinv⟩
        exact ⟨(private_setFreeList h i _).trans hpriv, hinv⟩

/-- The pages of a large block are in use, so a page that is not in use lies outside. -/
theorem IsLarge.apart_of_unused {x n k : ℕ} (hlarge : IsLarge h p n x) (hk : ¬ h.used p k) :
    k < pageOf x ∨ pageOf x + n ≤ k := by
  by_contra hin
  refine hk ?_
  have := hlarge.used (k - pageOf x) (by omega)
  rwa [show pageOf x + (k - pageOf x) = k by omega] at this

theorem newArena_spec (hi : HeapInv h p live legacy) (i : ℕ) :
    (newArena i).wp (fun _ h' => Private h h' ∧ HeapInv h' p live legacy) h := by
  obtain rfl := hi.running
  simp only [newArena, wp_bind]
  refine wp_mono mallocPage_spec ?_
  rintro (_ | a) h₁ ⟨hg₁, hpages⟩
  · exact ⟨hg₁.toPrivate, hi.grows hg₁⟩
  obtain ⟨-, s, rfl, hpage⟩ := hpages a rfl
  obtain ⟨hfree, hused⟩ := hpage 0 one_pos
  rw [Nat.add_zero] at hfree hused
  simp only [wp_bind, wp_modify, wp_pure]
  refine wp_mono (clearPages_spec (s := s) (n := 1) 1 le_rfl) ?_
  rintro - h₂ hr₂
  -- the header of the new arena
  set header : Arena := ⟨some (h₂.running, i), blocksPerArena i, false⟩ with hheader
  have hr₃ : Retyped h₁ (h₂.setArena (pageAddr s) header) s 1 := by
    have := hr₂.setArena one_pos header
    rwa [Nat.add_zero] at this
  have hg₃ : Grows h (h₂.setArena (pageAddr s) header) := by
    refine hg₁.retyped hr₃ ?_
    intro c hc
    rw [Nat.lt_one_iff.mp hc, Nat.add_zero]
    exact hfree
  set h₃ := h₂.setArena (pageAddr s) header with hh₃
  have hi₃ := hi.grows hg₃
  have hrun₂ : h₂.running = h.running := hr₂.running.trans hg₁.running
  have hrun₃ : h₃.running = h.running := hg₃.running
  have happly : (appendBlocks i (arenaBlocks (pageAddr s) i)).wp
      (fun _ h' => Private h₃ h' ∧ HeapInv h' h.running live legacy) h₃ := by
    refine appendBlocks_spec hi₃ (k := s) ?_ ?_ ?_
    · intro b hb
      obtain ⟨j, hj, rfl⟩ := mem_arenaBlocks.mp hb
      have hpageb : pageOf (arena2block (pageAddr s) i j) = s := by
        rw [pageOf, block2arena_pageAddr hj, pageBit_pageAddr]
      refine ⟨⟨⟨j, hj, by rw [hpageb]⟩, ?_, ?_⟩, hpageb⟩
      · rw [hpageb, Heaps.used, show h₃.vaddrBitmap = h₁.vaddrBitmap from hr₃.bitmap]
        exact hused
      · rw [← hrun₂, hh₃, Heaps.header_setArena, if_pos hpageb, hheader]
    · intro x hx heq
      exact hfree (heq ▸ hi.live_used hx)
    · intro x hx n hlarge
      exact (hi.large_of_grows hg₃ hx hlarge).apart_of_unused hfree
  exact wp_mono happly fun _ h₄ hres => ⟨hg₃.toPrivate.trans hres.1, hres.2⟩

/-- A pointer that `sys_malloc` returned is held from now on. -/
def gained : Option ℕ → List ℕ → List ℕ
  | none, live => live
  | some x, live => x :: live

/-- A block that has left its free list may be held. -/
theorem HeapInv.hold (hi : HeapInv h p live legacy) {i b : ℕ} (hb : IsSmall h p i b)
    (hlive : b ∉ live) (hfree : b ∉ h.freeList p i)
    (hapart : ∀ x ∈ live, ∀ n, IsLarge h p n x → pageOf b < pageOf x ∨ pageOf x + n ≤ pageOf b) :
    HeapInv h p (b :: live) legacy where
  running := hi.running
  procs := hi.procs
  live_nodup := List.nodup_cons.mpr ⟨hlive, hi.live_nodup⟩
  live_block y hy := by
    rcases List.mem_cons.mp hy with rfl | hy
    · exact Or.inr (Or.inl ⟨i, hb, hfree⟩)
    · exact hi.live_block y hy
  free_nodup := hi.free_nodup
  free_block := hi.free_block
  apart x hx n hlarge := by
    have hxb : x ≠ b := by
      rintro rfl
      have hdesc := hb.desc
      rw [hlarge.header] at hdesc
      cases hdesc
    have hx' : x ∈ live := (List.mem_cons.mp hx).resolve_left hxb
    obtain ⟨hothers, hfrees⟩ := hi.apart x hx' n hlarge
    refine ⟨fun y hy hne => ?_, hfrees⟩
    rcases List.mem_cons.mp hy with rfl | hy
    · exact hapart x hx' n hlarge
    · exact hothers y hy hne

theorem takeBlock_spec (hi : HeapInv h p live legacy) (i : ℕ) :
    (takeBlock i).wp (fun r h' => Private h h' ∧ HeapInv h' p (gained r live) legacy) h := by
  obtain rfl := hi.running
  simp only [takeBlock, wp_bind, wp_read]
  cases hlist : h.freeList h.running i with
  | nil => trivial
  | cons b rest =>
      simp only [wp_bind, wp_write, wp_pure]
      have hmem : b ∈ h.freeList h.running i := hlist ▸ List.mem_cons_self
      have hb := hi.free_block i b hmem
      have hnodup : (b :: rest).Nodup := hlist ▸ hi.free_nodup i
      have hshrink : HeapInv (h.setFreeList h.running i rest) h.running live legacy :=
        hi.shrinkFree (hlist ▸ List.sublist_cons_self b rest)
      have hb' : IsSmall (h.setFreeList h.running i rest) h.running i b := isSmall_setFreeList.mpr hb
      have hhold : HeapInv (h.setFreeList h.running i rest) h.running (b :: live) legacy := by
        refine hshrink.hold hb' (hi.not_live_of_free hmem) ?_ ?_
        · rw [Heaps.freeList_setFreeList_self]
          exact (List.nodup_cons.mp hnodup).1
        · intro x hx n hlarge
          exact (hi.apart x hx n (isLarge_setFreeList.mp hlarge)).2 i b hmem
      have hpage : block2arena b = pageAddr (pageOf b) := hb.page
      rw [hpage]
      exact ⟨(private_setFreeList h i rest).trans (private_setArena _ _ _), hhold.setCnt hb' _⟩

/-- A large block on pages that were not in use may be held. -/
theorem HeapInv.holdLarge (hi : HeapInv h p live legacy) {h' : Heaps} (hg : Grows h h') {n s : ℕ}
    (hpos : 0 < n) (hfree : ∀ c < n, ¬ h.used p (s + c)) (hused : ∀ c < n, h'.used p (s + c))
    (hheader : h'.arena p (pageAddr s) = ⟨none, n, true⟩) :
    HeapInv h' p ((pageAddr s + arenaSize) :: live) legacy := by
  have hi' := hi.grows hg
  have hpage : pageOf (pageAddr s + arenaSize) = s := by
    rw [pageOf, block2arena_large, pageBit_pageAddr]
  have hnew : IsLarge h' p n (pageAddr s + arenaSize) := by
    refine ⟨by rw [hpage], ?_, hpos, ?_⟩
    · rw [hpage]
      exact hused
    · rw [Heaps.header, hpage, hheader]
  -- the pages that were in use are none of the new ones
  have hout : ∀ k, h.used p k → k < s ∨ s + n ≤ k := by
    intro k hk
    by_contra hin
    refine hfree (k - s) (by omega) ?_
    rwa [show s + (k - s) = k by omega]
  have hnot : pageAddr s + arenaSize ∉ live := by
    intro hmem
    have := hout _ (hi.live_used hmem)
    rw [hpage] at this
    omega
  refine ⟨hi'.running, hi.procs, List.nodup_cons.mpr ⟨hnot, hi.live_nodup⟩, ?_, hi'.free_nodup,
    hi'.free_block, ?_⟩
  · intro y hy
    rcases List.mem_cons.mp hy with rfl | hy
    · exact Or.inl ⟨n, hnew⟩
    · exact hi'.live_block y hy
  · intro x hx m hlarge
    rcases List.mem_cons.mp hx with rfl | hx
    · have hm : m = n := congrArg Arena.cnt (hlarge.header.symm.trans hnew.header)
      rw [hm, hpage]
      refine ⟨fun y hy hne => ?_, fun i y hy => ?_⟩
      · exact hout _ (hi.live_used ((List.mem_cons.mp hy).resolve_left hne))
      · rw [hg.free] at hy
        exact hout _ (hi.free_block i y hy).used
    · obtain ⟨hothers, hfrees⟩ := hi'.apart x hx m hlarge
      refine ⟨fun y hy hne => ?_, hfrees⟩
      rcases List.mem_cons.mp hy with rfl | hy
      · rw [hpage]
        refine (hi.large_of_grows hg hx hlarge).apart_of_unused ?_
        have := hfree 0 hpos
        rwa [Nat.add_zero] at this
      · exact hothers y hy hne

theorem mallocLarge_spec (hi : HeapInv h p live legacy) (size : ℕ) :
    (mallocLarge size).wp (fun r h' => Private h h' ∧ HeapInv h' p (gained r live) legacy) h := by
  obtain rfl := hi.running
  simp only [mallocLarge, wp_bind]
  set n := divRoundUp ((size + arenaSize) % 2 ^ 32) pgSize
  refine wp_mono mallocPage_spec ?_
  rintro (_ | a) h₁ ⟨hg₁, hpages⟩
  · exact ⟨hg₁.toPrivate, hi.grows hg₁⟩
  obtain ⟨hpos, s, rfl, hpage⟩ := hpages a rfl
  simp only [wp_bind, wp_modify, wp_pure]
  refine wp_mono (clearPages_spec (s := s) (n := n) n le_rfl) ?_
  rintro - h₂ hr₂
  have hr₃ : Retyped h₁ (h₂.setArena (pageAddr s) ⟨none, n, true⟩) s n := by
    have := hr₂.setArena hpos ⟨none, n, true⟩
    rwa [Nat.add_zero] at this
  have hg₃ : Grows h (h₂.setArena (pageAddr s) ⟨none, n, true⟩) :=
    hg₁.retyped hr₃ fun c hc => (hpage c hc).1
  refine ⟨hg₃.toPrivate, hi.holdLarge hg₃ hpos (fun c hc => (hpage c hc).1) ?_ ?_⟩
  · intro c hc
    rw [Heaps.used, hr₃.bitmap]
    exact (hpage c hc).2
  · have hrun₂ : h₂.running = h.running := hr₂.running.trans hg₁.running
    rw [← hrun₂]
    simp [Heaps.setArena]

/-- `sys_malloc` keeps the heap in order and leaves the other heaps alone. -/
theorem sysMalloc_spec (hi : HeapInv h p live legacy) (size : ℕ) :
    (UserHeap.sysMalloc size).wp
      (fun r h' => Private h h' ∧ HeapInv h' p (gained r live) legacy) h := by
  simp only [UserHeap.sysMalloc, wp_bind, wp_read]
  split
  · exact ⟨Private.refl h, hi⟩
  split
  · exact mallocLarge_spec hi size
  cases (List.range descCnt).find? fun i => decide (size ≤ blockSize i) with
  | none => trivial
  | some i =>
      dsimp only
      split
      · rw [wp_bind]
        refine wp_mono (newArena_spec hi i) ?_
        rintro (_ | _) h₁ ⟨hpriv₁, hi₁⟩
        · exact ⟨hpriv₁, hi₁⟩
        · exact wp_mono (takeBlock_spec hi₁ i) fun r h₂ hres => ⟨hpriv₁.trans hres.1, hres.2⟩
      · exact takeBlock_spec hi i

end Malloc

/-! ## Freeing -/

section Free

variable {h : Heaps} {p : ℕ} {live : List ℕ} {legacy : Legacy}

/-- Pages that hold nothing may be given back. -/
theorem HeapInv.releasePages (hi : HeapInv h p live legacy) {k n : ℕ}
    (hlive : ∀ x ∈ live, pageOf x < k ∨ k + n ≤ pageOf x)
    (hlarge : ∀ x ∈ live, ∀ m, IsLarge h p m x → pageOf x + m ≤ k ∨ k + n ≤ pageOf x)
    (hfree : ∀ i, ∀ y ∈ h.freeList p i, pageOf y < k ∨ k + n ≤ pageOf y) :
    HeapInv (h.setBitmap (setBits (h.vaddrBitmap h.running) k false n)) p live legacy := by
  obtain rfl := hi.running
  set h' := h.setBitmap (setBits (h.vaddrBitmap h.running) k false n) with hh'
  have hused : ∀ j, h'.used h.running j ↔ h.used h.running j ∧ (j < k ∨ k + n ≤ j) := by
    intro j
    rw [hh', Heaps.used_setBitmap, bit_setBits]
    split
    next hin =>
      constructor
      · intro hfalse
        cases hfalse
      · rintro ⟨-, hout⟩
        omega
    next hout =>
      constructor
      · exact fun hset => ⟨hset, by omega⟩
      · exact fun hset => hset.1
  have holdLarge : ∀ m x, IsLarge h' h.running m x → IsLarge h h.running m x := fun m x hx =>
    ⟨hx.block, fun c hc => ((hused _).mp (hx.used c hc)).1, hx.pos, hx.header⟩
  refine ⟨rfl, hi.procs, hi.live_nodup, ?_, hi.free_nodup, ?_, ?_⟩
  · intro x hx
    rcases hi.live_block x hx with ⟨m, hxl⟩ | ⟨i, hxs, hnot⟩ | ⟨hxf, hmem⟩
    · refine Or.inl ⟨m, hxl.block, fun c hc => (hused _).mpr ⟨hxl.used c hc, ?_⟩, hxl.pos, hxl.header⟩
      have := hlarge x hx m hxl
      omega
    · exact Or.inr (Or.inl ⟨i, ⟨hxs.block, (hused _).mpr ⟨hxs.used, hlive x hx⟩, hxs.desc⟩, hnot⟩)
    · exact Or.inr (Or.inr ⟨⟨hxf.block, (hused _).mpr ⟨hxf.used, hlive x hx⟩, hxf.desc⟩, hmem⟩)
  · intro i x hx
    have hxs := hi.free_block i x hx
    exact ⟨hxs.block, (hused _).mpr ⟨hxs.used, hfree i x hx⟩, hxs.desc⟩
  · exact fun x hx m hxl => hi.apart x hx m (holdLarge m x hxl)

theorem Heaps.setFreeList_setFreeList (h : Heaps) (p i : ℕ) (blocks blocks' : List ℕ) :
    (h.setFreeList p i blocks).setFreeList p i blocks' = h.setFreeList p i blocks' := by
  simp [Heaps.setFreeList]

/-- The loop that empties an arena only ends if all its blocks were free; then none of
them is left in the free list. -/
theorem removeBlocks_spec {i : ℕ} (blocks : List ℕ) {free : List ℕ} (hnodup : free.Nodup)
    (hblocks : blocks.Nodup) :
    (removeBlocks p i blocks).wp
      (fun _ h' => (∀ b ∈ blocks, b ∈ free) ∧ ∃ rest, h' = h.setFreeList p i rest ∧
        rest.Sublist free ∧ ∀ b ∈ blocks, b ∉ rest) (h.setFreeList p i free) := by
  induction blocks generalizing free with
  | nil => exact ⟨by simp, free, rfl, List.Sublist.refl _, by simp⟩
  | cons b blocks ih =>
      simp only [removeBlocks, wp_bind, wp_read, wp_assert, wp_write, decide_eq_true_eq,
        Heaps.freeList_setFreeList_self, Heaps.setFreeList_setFreeList]
      intro hb
      obtain ⟨hnot, hrest⟩ := List.nodup_cons.mp hblocks
      refine wp_mono (ih (hnodup.erase b) hrest) ?_
      rintro - h' ⟨hmem, rest, heq, hsub, hgone⟩
      refine ⟨?_, rest, heq, hsub.trans List.erase_sublist, ?_⟩
      · intro x hx
        rcases List.mem_cons.mp hx with rfl | hx
        · exact hb
        · exact List.mem_of_mem_erase (hmem x hx)
      · intro x hx
        rcases List.mem_cons.mp hx with rfl | hx
        · intro hin
          exact (hnodup.mem_erase_iff.mp (hsub.subset hin)).1 rfl
        · exact hgone x hx

/-- A block of the process whose page is that of an arena of size `i` is one of its
blocks. -/
theorem IsSmall.mem_arenaBlocks {i i' b x : ℕ} (hb : IsSmall h p i b) (hx : IsSmall h p i' x)
    (hpage : pageOf x = pageOf b) : i' = i ∧ x ∈ arenaBlocks (pageAddr (pageOf b)) i := by
  have hdesc := hx.desc
  rw [Heaps.header, hpage, ← Heaps.header, hb.desc] at hdesc
  cases hdesc
  obtain ⟨j, hj, heq⟩ := hx.block
  rw [hpage] at heq
  exact ⟨rfl, BochsOs.mem_arenaBlocks.mpr ⟨j, hj, heq.symm⟩⟩

theorem Heaps.setFreeList_self (h : Heaps) (p i : ℕ) : h.setFreeList p i (h.freeList p i) = h := by
  simp [Heaps.setFreeList]

/-- An arena whose blocks are all free is given back. -/
theorem releaseArena_spec (hi : HeapInv h p live legacy) {i b : ℕ} (hb : b ∈ h.freeList p i) :
    (do removeBlocks p i (arenaBlocks (pageAddr (pageOf b)) i)
        mfreePage (pageAddr (pageOf b)) 1 : Prog Heaps Unit).wp
      (fun _ h' => Private h h' ∧ HeapInv h' p live legacy) h := by
  obtain rfl := hi.running
  have hbs := hi.free_block i b hb
  set blocks := arenaBlocks (pageAddr (pageOf b)) i with hblocks
  have hremove := removeBlocks_spec (h := h) (p := h.running) (i := i) blocks (hi.free_nodup i)
    (nodup_arenaBlocks _ _)
  rw [Heaps.setFreeList_self] at hremove
  rw [wp_bind]
  refine wp_mono hremove ?_
  rintro - h₁ ⟨hall, rest, rfl, hsub, hgone⟩
  have hshrink := hi.shrinkFree hsub
  simp only [mfreePage, wp_modify, pageBit_pageAddr]
  refine ⟨(private_setFreeList h i rest).trans (private_setBitmap _ _), hshrink.releasePages ?_ ?_ ?_⟩
  · -- a pointer that is held into the page would be a block of the arena, so free
    intro x hx
    have hne : pageOf x ≠ pageOf b := by
      intro hpage
      rcases hi.live_block x hx with ⟨n, hxl⟩ | ⟨i', hxs, hnot⟩ | ⟨hxf, -⟩
      · have hapart := (hi.apart x hx n hxl).2 i b hb
        have hpos := hxl.pos
        omega
      · obtain ⟨rfl, hin⟩ := hbs.mem_arenaBlocks hxs hpage
        exact hnot (hall x hin)
      · obtain ⟨q, hq, j, hdesc⟩ := hxf.desc
        rw [Heaps.header, hpage, ← Heaps.header, hbs.desc] at hdesc
        cases hdesc
        exact hi.procs hq
    omega
  · intro x hx m hxl
    have hapart := (hi.apart x hx m (isLarge_setFreeList.mp hxl)).2 i b hb
    omega
  · intro i' y hy
    have hne : pageOf y ≠ pageOf b := by
      intro hpage
      have hys := isSmall_setFreeList.mp (hshrink.free_block i' y hy)
      obtain ⟨rfl, hin⟩ := hbs.mem_arenaBlocks hys hpage
      rw [Heaps.freeList_setFreeList_self] at hy
      exact hgone y hin hy
    omega

theorem freeSmall_spec (hi : HeapInv h p live legacy) {i b : ℕ} (hmem : b ∈ live)
    (hb : IsSmall h p i b) (hfree : b ∉ h.freeList p i) :
    (freeSmall b p i).wp (fun _ h' => Private h h' ∧ HeapInv h' p (live.erase b) legacy) h := by
  obtain rfl := hi.running
  have hpage : block2arena b = pageAddr (pageOf b) := hb.page
  simp only [freeSmall, wp_bind, wp_read, wp_write]
  rw [hpage]
  -- the block goes to its free list, and the arena has one more free block
  have hnot : b ∉ live.erase b := fun hin => (hi.live_nodup.mem_erase_iff.mp hin).1 rfl
  have hadd := (hi.drop b).addFree hb hnot hfree fun x hx n hlarge =>
    (hi.apart x (List.mem_of_mem_erase hx) n hlarge).1 b hmem fun heq => hnot (heq ▸ hx)
  have hb' : IsSmall (h.setFreeList h.running i (h.freeList h.running i ++ [b])) h.running i b :=
    isSmall_setFreeList.mpr hb
  have hcnt := hadd.setCnt hb' ((h.header h.running b).cnt + 1)
  have hpriv := (private_setFreeList h i (h.freeList h.running i ++ [b])).trans
    (private_setArena _ (pageAddr (pageOf b))
      { h.header h.running b with cnt := (h.header h.running b).cnt + 1 })
  split
  · refine wp_mono (releaseArena_spec hcnt (i := i) (b := b) ?_) ?_
    · change b ∈ (h.setFreeList h.running i (h.freeList h.running i ++ [b])).freeList h.running i
      rw [Heaps.freeList_setFreeList_self]
      exact List.mem_append_right _ List.mem_cons_self
    · rintro - h' ⟨hpriv', hinv⟩
      exact ⟨hpriv.trans hpriv', hinv⟩
  · exact ⟨hpriv, hcnt⟩

/-- `sys_free` of a pointer that is held, and not into an arena of another process, keeps
the heap in order and leaves the other heaps alone. -/
theorem sysFree_spec (hi : HeapInv h p live legacy) {x : ℕ} (hx : x ∈ live) (hown : x ∉ legacy.blocks) :
    (UserHeap.sysFree x).wp (fun _ h' => Private h h' ∧ HeapInv h' p (live.erase x) legacy) h := by
  obtain rfl := hi.running
  simp only [UserHeap.sysFree, wp_bind, wp_assert, wp_read]
  intro _
  rcases hi.live_block x hx with ⟨n, hlarge⟩ | ⟨i, hsmall, hfree⟩ | ⟨-, hforeign⟩
  · have hheader : h.arena h.running (block2arena x) = ⟨none, n, true⟩ := by
      rw [hlarge.page]
      exact hlarge.header
    simp only [hheader, if_true, mfreePage, wp_modify]
    refine ⟨private_setBitmap h _, ?_⟩
    have happly := (hi.drop x).releasePages (k := pageOf x) (n := n) ?_ ?_ ?_
    · exact happly
    · intro y hy
      obtain ⟨hne, hy⟩ := hi.live_nodup.mem_erase_iff.mp hy
      exact (hi.apart x hx n hlarge).1 y hy hne
    · intro y hy m hym
      obtain ⟨hne, hy⟩ := hi.live_nodup.mem_erase_iff.mp hy
      have h₁ := (hi.apart x hx n hlarge).1 y hy hne
      have h₂ := (hi.apart y hy m hym).1 x hx hne.symm
      have := hlarge.pos
      have := hym.pos
      omega
    · exact fun i y hy => (hi.apart x hx n hlarge).2 i y hy
  · have hdesc : (h.arena h.running (block2arena x)).desc = some (h.running, i) := by
      rw [hsmall.page]
      exact hsmall.desc
    simp only [hdesc]
    exact freeSmall_spec hi hx hsmall hfree
  · exact absurd hforeign hown

end Free

/-! ## Parent and child -/

/-- The heaps, the pointers that the running process holds (what `sys_malloc` returned and
`sys_free` did not take back), and what it got from its ancestors. -/
structure HeapState where
  heaps : Heaps
  live : List ℕ
  legacy : Legacy

/-- A call of the running process. -/
inductive HeapCall where
  | malloc (size : ℕ)
  | free (ptr : ℕ)

/-- One call; only pointers that are held are freed. -/
inductive HeapState.Step : HeapState → HeapCall → HeapState → Prop where
  | malloc {s : HeapState} {size : ℕ} {r : Option ℕ} {h : Heaps}
      (hret : (UserHeap.sysMalloc size).Returns s.heaps r h) :
      Step s (.malloc size) { s with heaps := h, live := gained r s.live }
  | free {s : HeapState} {ptr : ℕ} {h : Heaps} (hlive : ptr ∈ s.live)
      (hret : (UserHeap.sysFree ptr).Returns s.heaps () h) :
      Step s (.free ptr) { s with heaps := h, live := s.live.erase ptr }

/-- The small blocks that a process holds: those with a descriptor in their header. -/
def HeapState.smallBlocks (s : HeapState) : List ℕ :=
  s.live.filter fun x => (s.heaps.arena s.heaps.running (block2arena x)).desc.isSome

/-- The child after a fork holds what its parent held. -/
def HeapState.fork (s : HeapState) (child : ℕ) (junk : ℕ → Arena) : HeapState where
  heaps := s.heaps.fork s.heaps.running child junk
  live := s.live
  legacy := ⟨s.heaps.running :: s.legacy.procs, s.smallBlocks⟩

/-- A call does not free a small block that was allocated before the process was forked. -/
def FreesOwn (s : HeapState) : HeapCall → Prop
  | .malloc _ => True
  | .free ptr => ptr ∉ s.legacy.blocks

/-- A process that was not forked and has not called `sys_malloc` yet; its pages hold
anything. -/
structure HeapState.Fresh (s : HeapState) : Prop where
  live : s.live = []
  legacy : s.legacy = ⟨[], []⟩
  free : ∀ i, s.heaps.freeList s.heaps.running i = []

/-- The heap of a process: that of a fresh process, or of the child of a process, after
any calls of its own. -/
inductive ProcessHeap : HeapState → Prop where
  | fresh {s : HeapState} (hfresh : s.Fresh) : ProcessHeap s
  | fork {s : HeapState} (hs : ProcessHeap s) {child : ℕ}
      (hnew : child ∉ s.heaps.running :: s.legacy.procs) (junk : ℕ → Arena) :
      ProcessHeap (s.fork child junk)
  | call {s s' : HeapState} {c : HeapCall} (hs : ProcessHeap s) (hown : FreesOwn s c)
      (hstep : s.Step c s') : ProcessHeap s'

/-- The heap of process `q` is the same: free lists, arena headers and page bitmap. -/
def SameHeap (q : ℕ) (s s' : HeapState) : Prop :=
  s'.heaps.freeList q = s.heaps.freeList q ∧ s'.heaps.arena q = s.heaps.arena q ∧
    s'.heaps.vaddrBitmap q = s.heaps.vaddrBitmap q

/-- The free lists of process `q` hold blocks of its own arenas only. -/
def OwnFreeLists (q : ℕ) (s : HeapState) : Prop :=
  ∀ i, ∀ x ∈ s.heaps.freeList q i, IsSmall s.heaps q i x

/-- The invariant of the running process. -/
def HeapState.Inv (s : HeapState) : Prop := HeapInv s.heaps s.heaps.running s.live s.legacy

theorem HeapState.Inv.step {s s' : HeapState} {c : HeapCall} (hi : s.Inv) (hown : FreesOwn s c)
    (hstep : s.Step c s') : Private s.heaps s'.heaps ∧ s'.Inv := by
  cases hstep with
  | malloc hret =>
      obtain ⟨hpriv, hinv⟩ := wp_iff_returns.mp (sysMalloc_spec hi _) _ _ hret
      exact ⟨hpriv, by rwa [← hpriv.running] at hinv⟩
  | free hlive hret =>
      obtain ⟨hpriv, hinv⟩ := wp_iff_returns.mp (sysFree_spec hi hlive hown) _ _ hret
      exact ⟨hpriv, by rwa [← hpriv.running] at hinv⟩

/-- The child's heap is in order: its free lists are empty, and what it holds are large
blocks and blocks of arenas of its ancestors. -/
theorem HeapState.Inv.fork {s : HeapState} (hi : s.Inv) {child : ℕ}
    (hnew : child ∉ s.heaps.running :: s.legacy.procs) (junk : ℕ → Arena) :
    (s.fork child junk).Inv := by
  set p := s.heaps.running with hp
  set h' := s.heaps.fork p child junk with hh'
  have hused : ∀ k, h'.used child k ↔ s.heaps.used p k := by
    intro k
    simp [hh', Heaps.used, Heaps.fork]
  have hheader : ∀ x, s.heaps.used p (pageOf x) → h'.header child x = s.heaps.header p x := by
    intro x hx
    rw [Heaps.used] at hx
    simp [hh', Heaps.header, Heaps.fork, hx]
  have hfree : ∀ i, h'.freeList child i = [] := by
    intro i
    simp [hh', Heaps.fork]
  have hsmall : ∀ x ∈ s.live, block2arena x = pageAddr (pageOf x) →
      (s.heaps.header p x).desc.isSome → x ∈ s.smallBlocks := by
    intro x hx hpage hsome
    rw [HeapState.smallBlocks, List.mem_filter, hpage]
    exact ⟨hx, hsome⟩
  refine ⟨rfl, hnew, hi.live_nodup, ?_, ?_, ?_, ?_⟩
  · intro x hx
    rcases hi.live_block x hx with ⟨n, hxl⟩ | ⟨i, hxs, -⟩ | ⟨hxf, -⟩
    · refine Or.inl ⟨n, hxl.block, fun c hc => (hused _).mpr (hxl.used c hc), hxl.pos, ?_⟩
      exact (hheader x hxl.first_used).trans hxl.header
    · refine Or.inr (Or.inr ⟨⟨hxs.page, (hused _).mpr hxs.used, p, List.mem_cons_self, i, ?_⟩, ?_⟩)
      · exact (congrArg Arena.desc (hheader x hxs.used)).trans hxs.desc
      · exact hsmall x hx hxs.page (by rw [hxs.desc]; rfl)
    · obtain ⟨q, hq, i, hdesc⟩ := hxf.desc
      refine Or.inr (Or.inr ⟨⟨hxf.block, (hused _).mpr hxf.used, q, List.mem_cons_of_mem _ hq, i, ?_⟩, ?_⟩)
      · exact (congrArg Arena.desc (hheader x hxf.used)).trans hdesc
      · exact hsmall x hx hxf.block (by rw [hdesc]; rfl)
  · intro i
    change (h'.freeList child i).Nodup
    rw [hfree]
    exact List.nodup_nil
  · intro i x hx
    change x ∈ h'.freeList child i at hx
    rw [hfree] at hx
    cases hx
  · intro x hx n hxl
    have hxp := (hused _).mp hxl.first_used
    have hlarge : IsLarge s.heaps p n x :=
      ⟨hxl.block, fun c hc => (hused _).mp (hxl.used c hc), hxl.pos, (hheader x hxp).symm.trans hxl.header⟩
    refine ⟨(hi.apart x hx n hlarge).1, fun i y hy => ?_⟩
    change y ∈ h'.freeList child i at hy
    rw [hfree] at hy
    cases hy

theorem ProcessHeap.inv {s : HeapState} (hs : ProcessHeap s) : s.Inv := by
  induction hs with
  | fresh hfresh =>
      refine ⟨rfl, ?_, ?_, ?_, ?_, ?_, ?_⟩ <;> simp [hfresh.live, hfresh.legacy, hfresh.free]
  | fork _ hnew junk ih => exact ih.fork hnew junk
  | call _ hown hstep ih => exact (ih.step hown hstep).2

/-- Whatever the child calls after a fork, as long as it frees no small block that was
allocated before the fork, the heap of its parent stays as it was and its own free
lists hold blocks of its own arenas only. -/
theorem heap_isolated {s : HeapState} (hs : ProcessHeap s) {child : ℕ}
    (hnew : child ∉ s.heaps.running :: s.legacy.procs) (junk : ℕ → Arena) {s' : HeapState}
    (hs' : Reachable (fun t => t = s.fork child junk) HeapState.Step FreesOwn s') :
    SameHeap s.heaps.running s s' ∧ OwnFreeLists child s' := by
  have hne : s.heaps.running ≠ child := fun h => hnew (h ▸ List.mem_cons_self)
  have hrest : s'.heaps.running = child ∧ s'.Inv ∧ SameHeap s.heaps.running s s' := by
    refine hs'.invariant
      (fun t => t.heaps.running = child ∧ t.Inv ∧ SameHeap s.heaps.running s t) ?_ ?_
    · rintro t rfl
      refine ⟨rfl, hs.inv.fork hnew junk, ?_⟩
      simp [SameHeap, HeapState.fork, Heaps.fork, hne]
    · rintro t c t' ⟨hrun, hinv, hsame⟩ hown hstep
      obtain ⟨hpriv, hinv'⟩ := hinv.step hown hstep
      obtain ⟨harena, hbitmap, hfree⟩ := hpriv.others s.heaps.running (hrun ▸ hne)
      exact ⟨hpriv.running.trans hrun, hinv',
        hfree.trans hsame.1, harena.trans hsame.2.1, hbitmap.trans hsame.2.2⟩
  obtain ⟨hrun, hinv, hsame⟩ := hrest
  refine ⟨hsame, ?_⟩
  have hblocks := hinv.free_block
  rwa [hrun] at hblocks

/-! ## Two runs -/

/-- A process with an empty heap. -/
def freshHeap : HeapState where
  heaps :=
    { arena := fun _ _ => ⟨none, 0, false⟩
      vaddrBitmap := fun _ => ⟨94199, fun _ => 0⟩
      freeList := fun _ _ => []
      poolSize := 0x1000000
      running := 1 }
  live := []
  legacy := ⟨[], []⟩

theorem freshHeap_fresh : freshHeap.Fresh := ⟨rfl, rfl, fun _ => rfl⟩

/-- One call, with every allocation of frames successful. -/
def HeapState.exec (s : HeapState) : HeapCall → Option HeapState
  | .malloc size => ((UserHeap.sysMalloc size).exec [] s.heaps).map fun (r, h) =>
      { s with heaps := h, live := gained r s.live }
  | .free ptr =>
      if ptr ∈ s.live then
        ((UserHeap.sysFree ptr).exec [] s.heaps).map fun (_, h) =>
          { s with heaps := h, live := s.live.erase ptr }
      else none

theorem HeapState.step_of_exec {s s' : HeapState} {c : HeapCall} (h : s.exec c = some s') :
    s.Step c s' := by
  cases c with
  | malloc size =>
      obtain ⟨⟨r, h'⟩, hexec, rfl⟩ := Option.map_eq_some_iff.mp h
      exact .malloc (returns_of_exec hexec)
  | free ptr =>
      simp only [HeapState.exec] at h
      split at h
      next hlive =>
        obtain ⟨⟨⟨⟩, h'⟩, hexec, rfl⟩ := Option.map_eq_some_iff.mp h
        exact .free hlive (returns_of_exec hexec)
      next => cases h

/-- Calls of a process that inherited nothing lead from heap to heap. -/
theorem ProcessHeap.of_follow {s t : HeapState} {cs : List HeapCall} (hs : ProcessHeap s)
    (hlegacy : s.legacy = ⟨[], []⟩) (h : follow HeapState.exec cs s = some t) :
    ProcessHeap t ∧ t.legacy = ⟨[], []⟩ := by
  induction cs generalizing s with
  | nil =>
      simp only [follow, Option.some.injEq] at h
      exact h ▸ ⟨hs, hlegacy⟩
  | cons c cs ih =>
      simp only [follow, Option.bind_eq_some_iff] at h
      obtain ⟨u, hu, h⟩ := h
      have hstep := HeapState.step_of_exec hu
      have hown : FreesOwn s c := by
        cases c with
        | malloc size => trivial
        | free ptr =>
            rw [FreesOwn, hlegacy]
            exact List.not_mem_nil
      have hkeep : u.legacy = s.legacy := by
        cases hstep <;> rfl
      exact ih (hs.call hown hstep) (hkeep.trans hlegacy) h

/-- The parent holds the three blocks of an arena for 1024 bytes. -/
def parentRun : Option HeapState :=
  follow HeapState.exec [.malloc 1000, .malloc 1000, .malloc 1000] freshHeap

theorem processHeap_of_parentRun {s : HeapState} (h : parentRun = some s) :
    ProcessHeap s ∧ s.legacy = ⟨[], []⟩ :=
  (ProcessHeap.fresh freshHeap_fresh).of_follow rfl h

/-- One call that frees no inherited small block. -/
def HeapState.execOwn (s : HeapState) (c : HeapCall) : Option HeapState :=
  match c with
  | .malloc _ => s.exec c
  | .free ptr => if ptr ∈ s.legacy.blocks then none else s.exec c

theorem HeapState.step_of_execOwn {s s' : HeapState} {c : HeapCall} (h : s.execOwn c = some s') :
    FreesOwn s c ∧ s.Step c s' := by
  cases c with
  | malloc size => exact ⟨trivial, step_of_exec h⟩
  | free ptr =>
      simp only [HeapState.execOwn] at h
      split at h
      next => cases h
      next hown => exact ⟨hown, step_of_exec h⟩

/-- The child takes two blocks of its own and frees one of them; two blocks of its new
arena are then free. -/
theorem heap_isolated_after_malloc :
    ∃ s s', ProcessHeap s ∧
      Reachable (fun t => t = s.fork 2 default) HeapState.Step FreesOwn s' ∧
      (s'.heaps.freeList 2 6).length = 2 ∧ SameHeap s.heaps.running s s' ∧ OwnFreeLists 2 s' := by
  have hrun : (parentRun.bind fun s => (follow HeapState.execOwn [.malloc 1000, .malloc 1000,
      .free (pageAddr 1 + 12)] (s.fork 2 default)).map fun s' =>
        (s.heaps.running, (s'.heaps.freeList 2 6).length)) = some (1, 2) := by
    decide +kernel
  obtain ⟨s, hparent, hchild⟩ := Option.bind_eq_some_iff.mp hrun
  obtain ⟨s', hfollow, heq⟩ := Option.map_eq_some_iff.mp hchild
  obtain ⟨hs, hlegacy⟩ := processHeap_of_parentRun hparent
  have hrunning : s.heaps.running = 1 := congrArg Prod.fst heq
  have hs' : Reachable (fun t => t = s.fork 2 default) HeapState.Step FreesOwn s' :=
    .of_follow (fun _ _ _ => HeapState.step_of_execOwn) (.start rfl) hfollow
  have hnew : 2 ∉ s.heaps.running :: s.legacy.procs := by
    simp [hrunning, hlegacy]
  exact ⟨s, s', hs, hs', congrArg Prod.snd heq, heap_isolated hs hnew default hs'⟩

/-- The child frees a block that was allocated before the fork: the free list of the parent,
which was empty, now starts with that block, although the parent still holds it. -/
theorem free_inherited_block :
    ∃ s s', ProcessHeap s ∧
      Reachable (fun t => t = s.fork 2 default) HeapState.Step (fun _ _ => True) s' ∧
      ¬ SameHeap s.heaps.running s s' := by
  have hrun : (parentRun.bind fun s => (follow HeapState.exec [.free (pageAddr 0 + 12)]
      (s.fork 2 default)).map fun s' => (s.heaps.running, s.heaps.freeList 1 6,
        s'.heaps.freeList 1 6)) = some (1, [], [pageAddr 0 + 12]) := by
    decide +kernel
  obtain ⟨s, hparent, hchild⟩ := Option.bind_eq_some_iff.mp hrun
  obtain ⟨s', hfollow, heq⟩ := Option.map_eq_some_iff.mp hchild
  simp only [Prod.mk.injEq] at heq
  obtain ⟨hrunning, hbefore, hafter⟩ := heq
  have hs' : Reachable (fun t => t = s.fork 2 default) HeapState.Step (fun _ _ => True) s' := by
    refine Reachable.of_follow ?_ (.start rfl) hfollow
    exact fun _ _ _ h => ⟨trivial, HeapState.step_of_exec h⟩
  refine ⟨s, s', (processHeap_of_parentRun hparent).1, hs', fun hsame => ?_⟩
  have hfree := congrFun hsame.1 6
  rw [hrunning, hbefore, hafter] at hfree
  cases hfree

end BochsOs
