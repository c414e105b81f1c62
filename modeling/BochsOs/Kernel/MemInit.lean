import BochsOs.Kernel.Paging
import Mathlib.Order.CompletePartialOrder
import Mathlib.Order.Interval.Set.Disjoint

/-!
# The memory pools at boot

`mem_pool_init` of `kernel/memory.c`, which splits the memory above 2 MiB between the two
pools of frames and places their bitmaps, and that of the kernel pages, below the control
block of the main thread.  The numbers of pages are `uint16_t`; everything else is
`uint32_t`, and the definitions keep these types.

* `memPoolInit_safe`: whatever the size of the memory, the layout fits and nothing overlaps.
* `lossless_iff`: frames are lost exactly when there are 65536 or more of them.
-/

namespace BochsOs

/-! ## The code -/

/-- `MEM_BITMAP_BASE`. -/
def memBitmapBase : UInt32 := 0xc009a000

/-- The control block of the main thread. -/
def mainPcb : UInt32 := 0xc009e000

/-- The memory in use after the loader: the first megabyte and 256 page tables. -/
def usedMem : UInt32 := 0x100000 + 4096 * 256

/-- A `struct bitmap`, with the address of its bits instead of their value. -/
structure BitmapArea where
  btmpBytesLen : UInt32
  bits : UInt32

/-- `struct pool`, less its lock. -/
structure PoolArea where
  poolBitmap : BitmapArea
  phyAddrStart : UInt32
  poolSize : UInt32

/-- What `mem_pool_init` computes. -/
structure MemLayout where
  freeMem : UInt32
  allFreePages : UInt16
  kernelFreePages : UInt16
  userFreePages : UInt16
  kernelPool : PoolArea
  userPool : PoolArea
  /-- `kernel_vaddr.vaddr_bitmap`. -/
  kernelVaddr : BitmapArea
  vaddrStart : UInt32

/-- `mem_pool_init`. -/
def memPoolInit (allMem : UInt32) : MemLayout :=
  let freeMem := allMem - usedMem
  -- the assignment keeps the low 16 bits
  let allFreePages := (freeMem / 4096).toUInt16
  let kernelFreePages := allFreePages / 2
  let userFreePages := allFreePages - kernelFreePages
  let kbmLength := (kernelFreePages / 8).toUInt32
  let ubmLength := (userFreePages / 8).toUInt32
  let kpStart := usedMem
  let upStart := kpStart + kernelFreePages.toUInt32 * 4096
  { freeMem, allFreePages, kernelFreePages, userFreePages
    kernelPool :=
      { poolBitmap := ⟨kbmLength, memBitmapBase⟩
        phyAddrStart := kpStart
        poolSize := kernelFreePages.toUInt32 * 4096 }
    userPool :=
      { poolBitmap := ⟨ubmLength, memBitmapBase + kbmLength⟩
        phyAddrStart := upStart
        poolSize := userFreePages.toUInt32 * 4096 }
    kernelVaddr := ⟨kbmLength, memBitmapBase + kbmLength + ubmLength⟩
    vaddrStart := UInt32.ofNat kHeapStart }

/-- The end of a bitmap, as it is printed. -/
def BitmapArea.last (b : BitmapArea) : UInt32 := b.bits + b.btmpBytesLen

/-- The end of a pool, as it is printed. -/
def PoolArea.last (p : PoolArea) : UInt32 := p.phyAddrStart + p.poolSize

/-! ## What a layout should be -/

/-- The addresses of a bitmap. -/
def BitmapArea.range (b : BitmapArea) : Set ℕ :=
  Set.Ico b.bits.toNat (b.bits.toNat + b.btmpBytesLen.toNat)

/-- The addresses of the frames of a pool. -/
def PoolArea.range (p : PoolArea) : Set ℕ :=
  Set.Ico p.phyAddrStart.toNat (p.phyAddrStart.toNat + p.poolSize.toNat)

/-- The addresses of the frame with bit `i`. -/
def PoolArea.frame (p : PoolArea) (i : ℕ) : Set ℕ :=
  Set.Ico (p.phyAddrStart.toNat + i * pgSize) (p.phyAddrStart.toNat + (i + 1) * pgSize)

/-- A pool of whole pages whose bitmap has bits for pages of the pool only. -/
structure PoolArea.Sound (p : PoolArea) : Prop where
  start : pgSize ∣ p.phyAddrStart.toNat
  size : pgSize ∣ p.poolSize.toNat
  bits : ∀ i < 8 * p.poolBitmap.btmpBytesLen.toNat, p.frame i ⊆ p.range

/-- No 32-bit computation of `mem_pool_init` wraps around. -/
structure MemLayout.Exact (l : MemLayout) (allMem : UInt32) : Prop where
  freeMem : l.freeMem.toNat + usedMem.toNat = allMem.toNat
  kernelSize : l.kernelPool.poolSize.toNat = l.kernelFreePages.toNat * pgSize
  userSize : l.userPool.poolSize.toNat = l.userFreePages.toNat * pgSize
  userStart : l.userPool.phyAddrStart.toNat =
    l.kernelPool.phyAddrStart.toNat + l.kernelPool.poolSize.toNat
  userBits : l.userPool.poolBitmap.bits.toNat =
    memBitmapBase.toNat + l.kernelPool.poolBitmap.btmpBytesLen.toNat
  vaddrBits : l.kernelVaddr.bits.toNat = memBitmapBase.toNat +
    l.kernelPool.poolBitmap.btmpBytesLen.toNat + l.userPool.poolBitmap.btmpBytesLen.toNat
  areas : ∀ b ∈ [l.kernelPool.poolBitmap, l.userPool.poolBitmap, l.kernelVaddr],
    b.last.toNat = b.bits.toNat + b.btmpBytesLen.toNat
  pools : ∀ p ∈ [l.kernelPool, l.userPool], p.last.toNat = p.phyAddrStart.toNat + p.poolSize.toNat

/-- The pools and the bitmaps lie where they may, and apart from each other. -/
structure MemLayout.Safe (l : MemLayout) (allMem : UInt32) : Prop where
  kernelPool : l.kernelPool.Sound
  userPool : l.userPool.Sound
  poolsApart : Disjoint l.kernelPool.range l.userPool.range
  poolsInside : l.kernelPool.range ∪ l.userPool.range ⊆ Set.Ico 0x200000 allMem.toNat
  bitmapsApart : [l.kernelPool.poolBitmap, l.userPool.poolBitmap, l.kernelVaddr].Pairwise
    fun b b' => Disjoint b.range b'.range
  bitmapsInside : ∀ b ∈ [l.kernelPool.poolBitmap, l.userPool.poolBitmap, l.kernelVaddr],
    b.range ⊆ Set.Ico memBitmapBase.toNat mainPcb.toNat
  exact : l.Exact allMem

/-- No whole page is lost, and no pool is empty if there are two pages. -/
structure MemLayout.Lossless (l : MemLayout) (allMem : UInt32) : Prop where
  total : l.kernelPool.poolSize.toNat + l.userPool.poolSize.toNat =
    (allMem.toNat - 0x200000) / pgSize * pgSize
  nonempty : 2 ≤ (allMem.toNat - 0x200000) / pgSize →
    0 < l.kernelPool.poolSize.toNat ∧ 0 < l.userPool.poolSize.toNat

/-! ## The numbers -/

section Numbers

variable {allMem : UInt32}

/-- The frames above 2 MiB. -/
def freeFrames (allMem : UInt32) : ℕ := (allMem.toNat - 0x200000) / pgSize

theorem freeMem_toNat (hmem : 0x200000 ≤ allMem) :
    (memPoolInit allMem).freeMem.toNat = allMem.toNat - 0x200000 :=
  UInt32.toNat_sub_of_le allMem usedMem hmem

theorem allFreePages_toNat (hmem : 0x200000 ≤ allMem) :
    (memPoolInit allMem).allFreePages.toNat = freeFrames allMem % 65536 := by
  change (((memPoolInit allMem).freeMem / 4096).toUInt16).toNat = _
  rw [UInt32.toNat_toUInt16, UInt32.toNat_div, freeMem_toNat hmem]
  rfl

theorem kernelFreePages_toNat (allMem : UInt32) : (memPoolInit allMem).kernelFreePages.toNat =
    (memPoolInit allMem).allFreePages.toNat / 2 :=
  UInt16.toNat_div _ _

theorem userFreePages_toNat (allMem : UInt32) : (memPoolInit allMem).userFreePages.toNat =
    (memPoolInit allMem).allFreePages.toNat - (memPoolInit allMem).allFreePages.toNat / 2 := by
  have hle : (memPoolInit allMem).kernelFreePages ≤ (memPoolInit allMem).allFreePages := by
    rw [UInt16.le_iff_toNat_le, kernelFreePages_toNat]
    exact Nat.div_le_self _ _
  rw [← kernelFreePages_toNat]
  exact UInt16.toNat_sub_of_le _ _ hle

/-- A 16-bit number of pages, in bytes. -/
theorem pages_toNat (n : UInt16) : (n.toUInt32 * 4096).toNat = n.toNat * pgSize := by
  have hn := n.toNat_lt
  rw [UInt32.toNat_mul, UInt16.toNat_toUInt32]
  exact Nat.mod_eq_of_lt (by simp only [UInt32.toNat_ofNat]; omega)

theorem bitmapBytes_toNat (n : UInt16) : ((n / 8).toUInt32).toNat = n.toNat / 8 := by
  rw [UInt16.toNat_toUInt32, UInt16.toNat_div]
  rfl

/-- A sum that fits in 32 bits. -/
theorem toNat_add_of_fits {a b : UInt32} (h : a.toNat + b.toNat < 2 ^ 32) :
    (a + b).toNat = a.toNat + b.toNat := by
  rw [UInt32.toNat_add]
  exact Nat.mod_eq_of_lt h

/-- The frames that are handed out fit into the memory. -/
theorem pages_le (hmem : 0x200000 ≤ allMem) :
    (memPoolInit allMem).kernelFreePages.toNat + (memPoolInit allMem).userFreePages.toNat =
      freeFrames allMem % 65536 ∧
    0x200000 + freeFrames allMem * pgSize ≤ allMem.toNat := by
  have hall := allFreePages_toNat hmem
  have hmem' : 0x200000 ≤ allMem.toNat := UInt32.le_iff_toNat_le.mp hmem
  refine ⟨?_, ?_⟩
  · rw [kernelFreePages_toNat, userFreePages_toNat]
    omega
  · have hdiv := Nat.div_mul_le_self (allMem.toNat - 0x200000) pgSize
    unfold freeFrames
    omega

/-- The lengths of the bitmaps, and how much they take together. -/
theorem bitmapBytes_le (allMem : UInt32) :
    (memPoolInit allMem).kernelPool.poolBitmap.btmpBytesLen.toNat =
      (memPoolInit allMem).kernelFreePages.toNat / 8 ∧
    (memPoolInit allMem).userPool.poolBitmap.btmpBytesLen.toNat =
      (memPoolInit allMem).userFreePages.toNat / 8 ∧
    (memPoolInit allMem).kernelFreePages.toNat ≤ 32767 ∧
    (memPoolInit allMem).userFreePages.toNat ≤ 32768 := by
  have hall : (memPoolInit allMem).allFreePages.toNat < 65536 := UInt16.toNat_lt _
  refine ⟨bitmapBytes_toNat _, bitmapBytes_toNat _, ?_, ?_⟩
  · rw [kernelFreePages_toNat]
    omega
  · rw [userFreePages_toNat]
    omega

end Numbers

/-! ## The layout -/

section Layout

variable {allMem : UInt32}

theorem memPoolInit_exact (hmem : 0x200000 ≤ allMem) : (memPoolInit allMem).Exact allMem := by
  have hmem' : 0x200000 ≤ allMem.toNat := UInt32.le_iff_toNat_le.mp hmem
  have hlt := allMem.toNat_lt
  obtain ⟨hsum, hfit⟩ := pages_le hmem
  obtain ⟨hkbm, hubm, hk, hu⟩ := bitmapBytes_le allMem
  have hks : (memPoolInit allMem).kernelPool.poolSize.toNat =
      (memPoolInit allMem).kernelFreePages.toNat * pgSize := pages_toNat _
  have hus : (memPoolInit allMem).userPool.poolSize.toNat =
      (memPoolInit allMem).userFreePages.toNat * pgSize := pages_toNat _
  have hbase : memBitmapBase.toNat = 0xc009a000 := rfl
  have hused : usedMem.toNat = 0x200000 := rfl
  have hcount : freeFrames allMem % 65536 ≤ freeFrames allMem := Nat.mod_le _ _
  simp only [pgSize] at hfit hks hus
  have hup : (memPoolInit allMem).userPool.phyAddrStart.toNat =
      usedMem.toNat + (memPoolInit allMem).kernelPool.poolSize.toNat :=
    toNat_add_of_fits (by
      change usedMem.toNat + (memPoolInit allMem).kernelPool.poolSize.toNat < 2 ^ 32
      omega)
  have hub : (memPoolInit allMem).userPool.poolBitmap.bits.toNat = memBitmapBase.toNat +
      (memPoolInit allMem).kernelPool.poolBitmap.btmpBytesLen.toNat :=
    toNat_add_of_fits (by
      change memBitmapBase.toNat + (memPoolInit allMem).kernelPool.poolBitmap.btmpBytesLen.toNat < _
      omega)
  have hvb : (memPoolInit allMem).kernelVaddr.bits.toNat =
      (memPoolInit allMem).userPool.poolBitmap.bits.toNat +
        (memPoolInit allMem).userPool.poolBitmap.btmpBytesLen.toNat :=
    toNat_add_of_fits (by
      change (memPoolInit allMem).userPool.poolBitmap.bits.toNat +
        (memPoolInit allMem).userPool.poolBitmap.btmpBytesLen.toNat < _
      omega)
  have hvl : (memPoolInit allMem).kernelVaddr.btmpBytesLen =
      (memPoolInit allMem).kernelPool.poolBitmap.btmpBytesLen := rfl
  have hkb : (memPoolInit allMem).kernelPool.poolBitmap.bits.toNat = memBitmapBase.toNat := rfl
  have hkp : (memPoolInit allMem).kernelPool.phyAddrStart.toNat = usedMem.toNat := rfl
  refine ⟨?_, hks, hus, hup, hub, by omega, ?_, ?_⟩
  · rw [freeMem_toNat hmem, hused]
    omega
  · intro b hb
    simp only [List.mem_cons, List.not_mem_nil, or_false] at hb
    apply toNat_add_of_fits
    rcases hb with rfl | rfl | rfl
    · omega
    · omega
    · rw [hvl]
      omega
  · intro p hp
    simp only [List.mem_cons, List.not_mem_nil, or_false] at hp
    apply toNat_add_of_fits
    rcases hp with rfl | rfl <;> omega

/-- A pool of `n` pages with a bitmap of `n / 8` bytes. -/
theorem PoolArea.sound_of_pages {p : PoolArea} {n : ℕ} (hstart : pgSize ∣ p.phyAddrStart.toNat)
    (hsize : p.poolSize.toNat = n * pgSize) (hbits : p.poolBitmap.btmpBytesLen.toNat = n / 8) :
    p.Sound where
  start := hstart
  size := ⟨n, by rw [hsize, Nat.mul_comm]⟩
  bits i hi := by
    have hin : i + 1 ≤ n := by omega
    have hle : (i + 1) * pgSize ≤ n * pgSize := Nat.mul_le_mul_right _ hin
    apply Set.Ico_subset_Ico
    · exact Nat.le_add_right _ _
    · rw [hsize]
      omega

theorem memPoolInit_safe (allMem : UInt32) (hmem : 0x200000 ≤ allMem) :
    (memPoolInit allMem).Safe allMem := by
  have hmem' : 0x200000 ≤ allMem.toNat := UInt32.le_iff_toNat_le.mp hmem
  have hexact := memPoolInit_exact hmem
  obtain ⟨hsum, hfit⟩ := pages_le hmem
  obtain ⟨hkbm, hubm, hk, hu⟩ := bitmapBytes_le allMem
  have hks := hexact.kernelSize
  have hus := hexact.userSize
  have hup := hexact.userStart
  have hub := hexact.userBits
  have hvb := hexact.vaddrBits
  have hbase : memBitmapBase.toNat = 0xc009a000 := rfl
  have hpcb : mainPcb.toNat = 0xc009e000 := rfl
  have hvl : (memPoolInit allMem).kernelVaddr.btmpBytesLen =
      (memPoolInit allMem).kernelPool.poolBitmap.btmpBytesLen := rfl
  have hkb : (memPoolInit allMem).kernelPool.poolBitmap.bits.toNat = memBitmapBase.toNat := rfl
  have hkp : (memPoolInit allMem).kernelPool.phyAddrStart.toNat = 0x200000 := rfl
  have hcount : freeFrames allMem % 65536 ≤ freeFrames allMem := Nat.mod_le _ _
  have haligned : pgSize ∣ 0x200000 := by decide
  refine ⟨?_, ?_, ?_, ?_, ?_, ?_, hexact⟩
  · exact PoolArea.sound_of_pages (by rw [hkp]; exact haligned) hks hkbm
  · refine PoolArea.sound_of_pages ?_ hus hubm
    rw [hup, hkp, hks]
    exact haligned.add (Dvd.intro_left _ rfl)
  · apply Set.Ico_disjoint_Ico.mpr
    omega
  · simp only [pgSize] at hfit hks hus
    apply Set.union_subset
    · exact Set.Ico_subset_Ico (by omega) (by omega)
    · exact Set.Ico_subset_Ico (by omega) (by omega)
  · -- the kernel pool's bitmap, the user pool's, and that of the kernel pages, in this order
    simp only [List.pairwise_cons, List.mem_cons, List.not_mem_nil, or_false, forall_eq_or_imp,
      forall_eq, false_imp_iff, implies_true, List.Pairwise.nil, and_true, BitmapArea.range,
      Set.Ico_disjoint_Ico]
    omega
  · intro b hb
    simp only [List.mem_cons, List.not_mem_nil, or_false] at hb
    rcases hb with rfl | rfl | rfl
    · exact Set.Ico_subset_Ico (by omega) (by omega)
    · exact Set.Ico_subset_Ico (by omega) (by omega)
    · rw [BitmapArea.range, hvl]
      exact Set.Ico_subset_Ico (by omega) (by omega)

/-- With 32 MiB. -/
theorem memPoolInit_safe_32M : (0x200000 : UInt32) ≤ 0x2000000 ∧
    (memPoolInit 0x2000000).Safe 0x2000000 :=
  ⟨by decide, memPoolInit_safe 0x2000000 (by decide)⟩

/-! ## Lost frames -/

/-- The number of frames is kept in 16 bits. -/
theorem lossless_iff (allMem : UInt32) (hmem : 0x200000 ≤ allMem) :
    (memPoolInit allMem).Lossless allMem ↔ (allMem.toNat - 0x200000) / pgSize < 65536 := by
  have hexact := memPoolInit_exact hmem
  obtain ⟨hsum, -⟩ := pages_le hmem
  have hall := allFreePages_toNat hmem
  have hks := hexact.kernelSize
  have hus := hexact.userSize
  have hk := kernelFreePages_toNat allMem
  have hu := userFreePages_toNat allMem
  rw [← freeFrames]
  simp only [pgSize] at hks hus
  constructor
  · rintro ⟨htotal, -⟩
    rw [← freeFrames, hks, hus, ← Nat.add_mul, hsum] at htotal
    have heq : freeFrames allMem % 65536 = freeFrames allMem :=
      Nat.eq_of_mul_eq_mul_right (by decide) htotal
    rw [← heq]
    exact Nat.mod_lt _ (by decide)
  · intro hlt
    have hmod : freeFrames allMem % 65536 = freeFrames allMem := Nat.mod_eq_of_lt hlt
    refine ⟨?_, ?_⟩
    · rw [← freeFrames, hks, hus, ← Nat.add_mul, hsum, hmod]
      rfl
    · rw [← freeFrames]
      intro htwo
      omega

/-- With 256 MiB no frame is lost. -/
theorem lossless_iff_256M : (0x200000 : UInt32) ≤ 0x10000000 ∧
    (memPoolInit 0x10000000).Lossless 0x10000000 :=
  ⟨by decide, (lossless_iff 0x10000000 (by decide)).mpr (by decide)⟩

/-- With 512 MiB, which is what the bitmaps are meant for, half of the memory is lost. -/
theorem not_lossless_512M :
    ¬ (memPoolInit 0x20000000).Lossless 0x20000000 := by
  intro h
  exact absurd h.total (by decide)

end Layout

end BochsOs
