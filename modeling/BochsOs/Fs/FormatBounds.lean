import BochsOs.Fs.DirSync

/-!
# The size of a new block bitmap

`partition_format` finds the size of the block bitmap in two rounds, fills the end of its
last sector and then clears the bits of the last byte again, up to and including bit
`block_bitmap_bit_len`.  That bit is one too many: its block lies in the partition only when
the second round gave the bitmap one sector less than the first (`formatSound_iff`).
-/

namespace BochsOs

open ByteMemory Suspend Suspend.Prog

/-- `block_bitmap_sects` after the first round. -/
def firstBitmapSects (secCnt : ℕ) : ℕ := divRoundUp (freeSects secCnt) bitsPerSector

/-- `block_bitmap_sects` after the second round. -/
def blockBitmapSects (secCnt : ℕ) : ℕ := divRoundUp (blockBitmapBitLen secCnt) bitsPerSector

/-- The block bitmap that `partition_format` writes. -/
def formatBitmap (secCnt : ℕ) : Bitmap :=
  ⟨blockBitmapSects secCnt * sectorSize, blockBitmapImage (blockBitmapBitLen secCnt)⟩

/-- The areas of a new file system as first sector and number of sectors: boot sector, super
block, the bitmaps of blocks and of inodes, the inode table and the blocks. -/
def formatAreas (startLba secCnt : ℕ) : List (ℕ × ℕ) :=
  let sb := formatSuperBlock startLba secCnt
  [(startLba, 1), (addU32 startLba 1, 1), (sb.blockBitmapLba, sb.blockBitmapSects),
    (sb.inodeBitmapLba, sb.inodeBitmapSects), (sb.inodeTableLba, sb.inodeTableSects),
    (sb.dataStartLba, blockBitmapBitLen secCnt)]

/-- The sector lies in the partition. -/
def InPartition (startLba secCnt lba : ℕ) : Prop := startLba ≤ lba ∧ lba < startLba + secCnt

/-- No block is free in the mounted partition that the formatting did not leave free. -/
structure Partition.OnFormat (part : Partition) (startLba secCnt : ℕ) : Prop where
  sb : part.sb = formatSuperBlock startLba secCnt
  length : part.blockBitmap.btmpBytesLen = (formatBitmap secCnt).btmpBytesLen
  clear : ∀ i < part.blockBitmap.btmpBytesLen * 8, part.blockBitmap.bit i = false →
    (formatBitmap secCnt).bit i = false

/-- The layout of a new file system is sound. -/
structure FormatSound (startLba secCnt : ℕ) : Prop where
  disjoint : (formatAreas startLba secCnt).Pairwise fun a b => a.1 + a.2 ≤ b.1 ∨ b.1 + b.2 ≤ a.1
  inside : ∀ a ∈ formatAreas startLba secCnt, startLba ≤ a.1 ∧ a.1 + a.2 ≤ startLba + secCnt
  root : 0 < (formatBitmap secCnt).btmpBytesLen * 8 ∧ (formatBitmap secCnt).bit 0 = true
  /-- A clear bit stands for a sector of the partition. -/
  clear : ∀ i < (formatBitmap secCnt).btmpBytesLen * 8, (formatBitmap secCnt).bit i = false →
    InPartition startLba secCnt (addU32 (formatSuperBlock startLba secCnt).dataStartLba i)
  /-- The blocks but the first are free. -/
  free : ∀ i, 0 < i → i < blockBitmapBitLen secCnt →
    i < (formatBitmap secCnt).btmpBytesLen * 8 ∧ (formatBitmap secCnt).bit i = false
  /-- `block_bitmap_alloc` returns sectors of the partition. -/
  alloc : ∀ k : Kernel, k.part.OnFormat startLba secCnt →
    blockBitmapAlloc.wp (fun r _ => ∀ lba ∈ r, InPartition startLba secCnt (lba % 2 ^ 32)) k

/-- The last block that is handed out. -/
def lastBlock (secCnt : ℕ) : ℕ :=
  if blockBitmapBitLen secCnt % bitsPerSector = 0 then blockBitmapBitLen secCnt - 1
  else blockBitmapBitLen secCnt

/-! ## The bits -/

/-- The byte that the loop leaves has its bits behind `r` set. -/
theorem bit_clearBits {r j : ℕ} (hr : r < 8) (hj : j < 8) :
    (clearBits (r + 1) 0 0xff).toBitVec.getLsbD j = decide (r < j) := by
  interval_cases r <;> interval_cases j <;> rfl

/-- In the sectors of the bitmap the first bit is set and those behind `bitLen`. -/
theorem bit_blockBitmapImage {bitLen n i : ℕ} (hlen : 8 ≤ bitLen)
    (hi : i < (bitLen + 4095) / 4096 * 4096) :
    Bitmap.bit ⟨n, blockBitmapImage bitLen⟩ i = decide (i = 0 ∨ bitLen < i) := by
  have hj : i % 8 < 8 := Nat.mod_lt _ (by omega)
  have hr : bitLen % 8 < 8 := Nat.mod_lt _ (by omega)
  unfold Bitmap.bit blockBitmapImage
  dsimp only
  rcases Nat.lt_trichotomy (i / 8) (bitLen / 8) with hlt | heq | hgt
  · rw [Function.update_of_ne (by omega), fill_outside (by omega)]
    by_cases hfirst : i / 8 = 0
    · rw [hfirst, Function.update_self]
      have hi8 : i < 8 := by omega
      rw [Nat.mod_eq_of_lt hi8]
      interval_cases i <;> simp <;> omega
    · rw [Function.update_of_ne hfirst]
      refine BitVec.getLsbD_zero.trans (decide_eq_false ?_).symm
      omega
  · rw [heq, Function.update_self, fill_inside le_rfl (by unfold sectorSize; omega),
      bit_clearBits hr hj, decide_eq_decide]
    omega
  · rw [Function.update_of_ne (by omega), fill_inside (by omega) (by unfold sectorSize; omega)]
    rw [decide_eq_true (by omega)]
    generalize i % 8 = j at hj
    interval_cases j <;> rfl

/-! ## The rounds -/

theorem divRoundUp_sector (n : ℕ) : divRoundUp n bitsPerSector = (n + 4095) % 2 ^ 32 / 4096 := by
  unfold divRoundUp bitsPerSector
  rfl

section Rounds

variable {startLba secCnt : ℕ} (hcnt : secCnt < 2 ^ 32) (hroom : 620 ≤ secCnt)

include hcnt hroom

/-- What the two rounds compute. -/
theorem rounds : firstBitmapSects secCnt = (secCnt - 611 + 4095) % 2 ^ 32 / 4096 ∧
    blockBitmapBitLen secCnt + firstBitmapSects secCnt = secCnt - 611 ∧
    blockBitmapSects secCnt = (blockBitmapBitLen secCnt + 4095) % 2 ^ 32 / 4096 := by
  have hfree : freeSects secCnt = secCnt - 611 := subU32_of_le (by change 611 ≤ secCnt; omega)
  have hfirst : firstBitmapSects secCnt = (secCnt - 611 + 4095) % 2 ^ 32 / 4096 := by
    rw [firstBitmapSects, hfree, divRoundUp_sector]
  have hlen : blockBitmapBitLen secCnt = subU32 (secCnt - 611) (firstBitmapSects secCnt) := by
    rw [firstBitmapSects, blockBitmapBitLen, hfree]
  refine ⟨hfirst, ?_, by rw [blockBitmapSects, divRoundUp_sector]⟩
  rw [hlen, subU32_of_le (by omega)]
  omega

/-- At the largest sizes the first round wraps, and no sector is left for the bitmap. -/
theorem rounds_cases :
    (firstBitmapSects secCnt = 0 ∧ blockBitmapSects secCnt = 0) ∨
      (0 < blockBitmapSects secCnt ∧
        firstBitmapSects secCnt = (secCnt - 611 + 4095) / 4096 ∧
        blockBitmapSects secCnt = (blockBitmapBitLen secCnt + 4095) / 4096) := by
  obtain ⟨hfirst, hlen, hsects⟩ := rounds hcnt hroom
  rcases Nat.lt_or_ge (secCnt - 611 + 4095) (2 ^ 32) with hlow | hhigh
  · rw [Nat.mod_eq_of_lt hlow] at hfirst
    rw [Nat.mod_eq_of_lt (by omega)] at hsects
    exact Or.inr ⟨by omega, hfirst, hsects⟩
  · have hwrap : (secCnt - 611 + 4095) % 2 ^ 32 < 4096 := by
      rw [Nat.mod_eq_sub_mod hhigh, Nat.mod_eq_of_lt (by omega)]
      omega
    have hzero : firstBitmapSects secCnt = 0 := hfirst.trans (Nat.div_eq_of_lt hwrap)
    rw [hzero, Nat.add_zero] at hlen
    rw [hlen, ← hfirst] at hsects
    exact Or.inl ⟨hzero, hsects.trans hzero⟩

/-- The sizes for which the second round saves sectors. -/
theorem rounds_ne_iff : firstBitmapSects secCnt ≠ blockBitmapSects secCnt ↔
    secCnt + 3484 < 2 ^ 32 ∧ (secCnt - 612) % 4096 ≤ (secCnt - 612) / 4096 := by
  obtain ⟨hfirst, hlen, -⟩ := rounds hcnt hroom
  rcases rounds_cases hcnt hroom with ⟨hzero, hsects⟩ | ⟨hpos, hfirst', hsects⟩
  · refine iff_of_false (fun hne => hne (hzero.trans hsects.symm)) fun h => ?_
    rw [Nat.mod_eq_of_lt (by omega)] at hfirst
    omega
  · have hlow : secCnt + 3484 < 2 ^ 32 := by
      by_contra hge
      have hwrap : (secCnt - 611 + 4095) % 2 ^ 32 = secCnt - 611 + 4095 - 2 ^ 32 := by
        rw [Nat.mod_eq_sub_mod (by omega), Nat.mod_eq_of_lt (by omega)]
      rw [hwrap] at hfirst
      omega
    rw [and_iff_right hlow]
    omega

end Rounds

/-- Where the areas of a file system begin whose first block has a 32-bit number. -/
theorem formatSuperBlock_eq {startLba secCnt : ℕ}
    (h : startLba + 611 + blockBitmapSects secCnt < 2 ^ 32) :
    (formatSuperBlock startLba secCnt).blockBitmapLba = startLba + 2 ∧
      (formatSuperBlock startLba secCnt).inodeBitmapLba = startLba + 2 + blockBitmapSects secCnt ∧
      (formatSuperBlock startLba secCnt).inodeTableLba = startLba + 3 + blockBitmapSects secCnt ∧
      (formatSuperBlock startLba secCnt).dataStartLba = startLba + 611 + blockBitmapSects secCnt := by
  set sb := formatSuperBlock startLba secCnt with hsb
  have hblba : sb.blockBitmapLba = addU32 startLba 2 := rfl
  have hilba : sb.inodeBitmapLba = addU32 sb.blockBitmapLba (blockBitmapSects secCnt) := rfl
  have htlba : sb.inodeTableLba = addU32 sb.inodeBitmapLba 1 := rfl
  have hdata : sb.dataStartLba = addU32 sb.inodeTableLba 608 := rfl
  rw [addU32_of_lt (by omega)] at hblba
  rw [hblba, addU32_of_lt (by omega)] at hilba
  rw [hilba, addU32_of_lt (by omega)] at htlba
  rw [htlba, addU32_of_lt (by omega)] at hdata
  omega

/-- The first block in any case. -/
theorem formatSuperBlock_dataStartLba (startLba secCnt : ℕ) :
    (formatSuperBlock startLba secCnt).dataStartLba =
      (startLba + 611 + blockBitmapSects secCnt) % 2 ^ 32 := by
  have hdata : (formatSuperBlock startLba secCnt).dataStartLba =
      addU32 (addU32 (addU32 (addU32 startLba 2) (blockBitmapSects secCnt)) 1) 608 := rfl
  rw [hdata]
  unfold addU32
  omega

/-- A clear bit of the new bitmap. -/
theorem bit_formatBitmap {secCnt i : ℕ} (hlen : 8 ≤ blockBitmapBitLen secCnt)
    (hsects : blockBitmapSects secCnt = (blockBitmapBitLen secCnt + 4095) / 4096)
    (hi : i < (formatBitmap secCnt).btmpBytesLen * 8) :
    (formatBitmap secCnt).bit i = false ↔ 0 < i ∧ i ≤ blockBitmapBitLen secCnt := by
  have hin : i < (blockBitmapBitLen secCnt + 4095) / 4096 * 4096 := by
    rw [← hsects]
    change i < blockBitmapSects secCnt * 512 * 8 at hi
    omega
  rw [formatBitmap, bit_blockBitmapImage hlen hin, decide_eq_false_iff_not]
  omega

section Sound

variable {startLba secCnt : ℕ} (hcnt : secCnt < 2 ^ 32) (hroom : 620 ≤ secCnt)

include hcnt hroom

/-- The condition is enough. -/
theorem formatSound_of_rounds (hne : firstBitmapSects secCnt ≠ blockBitmapSects secCnt)
    (hlast : startLba + 611 + blockBitmapSects secCnt + lastBlock secCnt < 2 ^ 32) :
    FormatSound startLba secCnt := by
  obtain ⟨-, hlen, -⟩ := rounds hcnt hroom
  obtain ⟨hpos, hfirst, hsects⟩ := (rounds_cases hcnt hroom).resolve_left fun h => hne (h.1.trans h.2.symm)
  have hnumbers : startLba + 611 + blockBitmapSects secCnt < 2 ^ 32 := by omega
  obtain ⟨hblba, hilba, htlba, hdata⟩ := formatSuperBlock_eq hnumbers
  have hblocks : 8 ≤ blockBitmapBitLen secCnt := by omega
  have hsuper : addU32 startLba 1 = startLba + 1 := addU32_of_lt (by omega)
  have hbits : (formatBitmap secCnt).btmpBytesLen * 8 = blockBitmapSects secCnt * 4096 := by
    change blockBitmapSects secCnt * 512 * 8 = _
    omega
  have hareas : formatAreas startLba secCnt =
      [(startLba, 1), (startLba + 1, 1), (startLba + 2, blockBitmapSects secCnt),
        (startLba + 2 + blockBitmapSects secCnt, 1), (startLba + 3 + blockBitmapSects secCnt, 608),
        (startLba + 611 + blockBitmapSects secCnt, blockBitmapBitLen secCnt)] := by
    rw [formatAreas, hsuper]
    rw [hblba, hilba, htlba, hdata]
    rfl
  have hclear : ∀ i < (formatBitmap secCnt).btmpBytesLen * 8, (formatBitmap secCnt).bit i = false →
      InPartition startLba secCnt (addU32 (formatSuperBlock startLba secCnt).dataStartLba i) := by
    intro i hi hbit
    obtain ⟨hipos, hile⟩ := (bit_formatBitmap hblocks hsects hi).mp hbit
    have hlastBlock : i ≤ lastBlock secCnt := by
      unfold lastBlock bitsPerSector
      split <;> omega
    rw [hdata, addU32_of_lt (by omega)]
    exact ⟨by omega, by omega⟩
  refine ⟨?_, fun a ha => ?_, ?_, hclear, fun i hipos hi => ?_, fun k hk => ?_⟩
  · rw [hareas]
    clear hareas hclear
    simp only [List.pairwise_cons, List.mem_cons, List.not_mem_nil, or_false, forall_eq_or_imp, forall_eq,
      false_imp_iff, implies_true, and_true, List.Pairwise.nil]
    omega
  · rw [hareas] at ha
    simp only [List.mem_cons, List.not_mem_nil, or_false] at ha
    rcases ha with rfl | rfl | rfl | rfl | rfl | rfl <;> omega
  · have hzero : 0 < (formatBitmap secCnt).btmpBytesLen * 8 := by omega
    refine ⟨hzero, ?_⟩
    rw [← Bool.not_eq_false, bit_formatBitmap hblocks hsects hzero]
    omega
  · have hin : i < (formatBitmap secCnt).btmpBytesLen * 8 := by omega
    exact ⟨hin, (bit_formatBitmap hblocks hsects hin).mpr ⟨hipos, hi.le⟩⟩
  · refine wp_of_ensures (ensures_blockBitmapAlloc (fun _ lba hnone => by cases hnone) fun lba hfree _ => ?_)
    intro l hl
    obtain rfl : lba = l := Option.some.inj hl
    have hlow := hfree.low
    have hindex := hfree.index
    rw [hk.length] at hindex
    have hin := hclear _ hindex (hk.clear _ hfree.index hfree.bit)
    rw [hk.sb] at hlow hin
    rwa [addU32, Nat.add_sub_cancel' hlow] at hin

/-- A layout that is sound has another number of sectors after the second round. -/
theorem FormatSound.rounds_ne (h : FormatSound startLba secCnt) (hstart : startLba < 2 ^ 32) :
    firstBitmapSects secCnt ≠ blockBitmapSects secCnt ∧
      startLba + 611 + blockBitmapSects secCnt + lastBlock secCnt < 2 ^ 32 := by
  obtain ⟨-, hlen, -⟩ := rounds hcnt hroom
  have hbits : (formatBitmap secCnt).btmpBytesLen * 8 = blockBitmapSects secCnt * 4096 := by
    change blockBitmapSects secCnt * 512 * 8 = _
    omega
  have hpos := h.root.1
  obtain ⟨hpos, hfirst, hsects⟩ := (rounds_cases hcnt hroom).resolve_left fun hzero => by
    rw [hbits, hzero.2] at hpos
    exact absurd hpos (Nat.lt_irrefl 0)
  have hblocks : 8 ≤ blockBitmapBitLen secCnt := by omega
  have hdata := formatSuperBlock_dataStartLba startLba secCnt
  -- the blocks begin behind the start of the partition, so their first number does not wrap
  have hbegin : startLba ≤ (formatSuperBlock startLba secCnt).dataStartLba :=
    (h.inside ((formatSuperBlock startLba secCnt).dataStartLba, blockBitmapBitLen secCnt)
      (by unfold formatAreas; simp)).1
  have hwrap : startLba + 611 + blockBitmapSects secCnt < 2 ^ 32 := by
    by_contra hge
    rw [hdata, Nat.mod_eq_sub_mod (Nat.not_lt.mp hge), Nat.mod_eq_of_lt (by omega)] at hbegin
    omega
  rw [Nat.mod_eq_of_lt hwrap] at hdata
  -- the last clear bit stands for a sector of the partition
  have hclear : ∀ i, 0 < i → i ≤ blockBitmapBitLen secCnt → i < blockBitmapSects secCnt * 4096 →
      InPartition startLba secCnt ((startLba + 611 + blockBitmapSects secCnt + i) % 2 ^ 32) := by
    intro i hipos hile hi
    rw [← hbits] at hi
    have hin := h.clear i hi ((bit_formatBitmap hblocks hsects hi).mpr ⟨hipos, hile⟩)
    rwa [hdata, addU32] at hin
  have hlast : ∀ i, 0 < i → i ≤ blockBitmapBitLen secCnt → i < blockBitmapSects secCnt * 4096 →
      startLba + 611 + blockBitmapSects secCnt + i < 2 ^ 32 ∧ 611 + blockBitmapSects secCnt + i < secCnt := by
    intro i hipos hile hi
    obtain ⟨hlow, hhigh⟩ := hclear i hipos hile hi
    rcases Nat.lt_or_ge (startLba + 611 + blockBitmapSects secCnt + i) (2 ^ 32) with hlt | hge
    · rw [Nat.mod_eq_of_lt hlt] at hhigh
      exact ⟨hlt, by omega⟩
    · rw [Nat.mod_eq_sub_mod hge, Nat.mod_eq_of_lt (by omega)] at hlow
      omega
  constructor
  · intro heq
    have := (hlast (blockBitmapBitLen secCnt) (by omega) le_rfl (by omega)).2
    omega
  · refine (hlast (lastBlock secCnt) ?_ ?_ ?_).1 <;> unfold lastBlock bitsPerSector <;> split <;> omega

end Sound

end BochsOs
