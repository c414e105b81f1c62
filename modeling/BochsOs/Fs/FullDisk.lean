import BochsOs.Fs.FileSizes

/-!
# A write that finds the disk full

`file_write` takes the blocks for the new size one by one, and notes each of them in the inode and
in the bitmap at once.  When there is none left it returns `-1` and undoes nothing, so the last
free blocks stay in the file, and the next write that gets that far finds pointers where it asserts
that there are none.  A call that returns `-1` leaves everything as it was, and a later one can
succeed, just when there was no free block to begin with and no earlier call has left a pointer
behind (`fullDisk_undone_iff`).
-/

namespace BochsOs

open ByteMemory Suspend Suspend.Prog

/-! ## What a failing call leaves -/

/-- The call gave up because no block was free any more. -/
structure GaveUp (k k' : Kernel) : Prop where
  full : bitmapScan k'.part.blockBitmap 1 = none
  same : bitmapScan k.part.blockBitmap 1 = none → k' = k

section GaveUp

variable {t : Transfer} {k k₁ k' : Kernel}

theorem GaveUp.refl (h : bitmapScan k.part.blockBitmap 1 = none) : GaveUp k k := ⟨h, fun _ => rfl⟩

/-- A block was taken before. -/
theorem GaveUp.later (h : GaveUp k₁ k') {i : ℕ} (hscan : bitmapScan k.part.blockBitmap 1 = some i) :
    GaveUp k k' :=
  ⟨h.full, fun hnone => by rw [hscan] at hnone; cases hnone⟩

theorem wp_allocBlocks_gaveUp {a left blkI : ℕ} {allBlocks : ℕ → ℕ} :
    (allocBlocks t a left blkI allBlocks).wp (fun r k' => r = none → GaveUp k k') k := by
  induction left generalizing blkI allBlocks k with
  | zero => exact fun hnone => by cases hnone
  | succ left ih =>
      rw [allocBlocks, wp_bind, blockBitmapAlloc, wp_bind, wp_read]
      cases hscan : bitmapScan k.part.blockBitmap 1 with
      | none => exact fun _ => .refl hscan
      | some i =>
          simp only [wp_bind, wp_write, wp_pure, wp_read]
          split
          · simp only [wp_bind, wp_assert, modifyInode, wp_modify, bitmapSync, wp_read, wp_ideWrite_one]
            exact fun _ _ => wp_mono ih fun r k' h hnone => (h hnone).later hscan
          · simp only [wp_bind, bitmapSync, wp_read, wp_ideWrite_one]
            exact fun _ => wp_mono ih fun r k' h hnone => (h hnone).later hscan

theorem wp_buildBlocks_gaveUp {a has will : ℕ} :
    (buildBlocks t a has will).wp (fun r k' => r = none → GaveUp k k') k := by
  rw [buildBlocks, wp_bind, wp_read]
  dsimp only
  split
  · split
    · exact fun hnone => by cases hnone
    · simp only [wp_bind, wp_assert, wp_ideRead_one, wp_pure]
      exact fun _ _ hnone => by cases hnone
  split
  · rw [wp_bind, wp_assert]
    exact fun _ => wp_allocBlocks_gaveUp
  split
  · rw [wp_bind, blockBitmapAlloc, wp_bind, wp_read]
    cases hscan : bitmapScan k.part.blockBitmap 1 with
    | none => exact fun _ => .refl hscan
    | some i =>
        simp only [wp_bind, wp_write, wp_pure, wp_assert, modifyInode, wp_modify]
        refine fun _ => wp_mono wp_allocBlocks_gaveUp fun r k' h => ?_
        cases r with
        | none => exact fun _ => (h rfl).later hscan
        | some ab =>
            simp only [wp_bind, wp_ideWrite_one, wp_pure]
            exact fun _ hnone => by cases hnone
  · simp only [wp_bind, wp_assert, wp_ideRead_one]
    refine fun _ _ => wp_mono wp_allocBlocks_gaveUp fun r k' h => ?_
    cases r with
    | none => exact h
    | some ab =>
        simp only [wp_bind, wp_ideWrite_one, wp_pure]
        exact fun _ hnone => by cases hnone

/-- What becomes of the blocks when `file_write` has its buffers and gives up. -/
theorem wp_takeBlocks_gaveUp {fd a size count : ℕ} {buf : Bytes} :
    (do
      if !(← allocFirst t a) then return false
      else writeBlocks t fd a size buf count : Prog Kernel Bool).wp
      (fun ok k' => ok = false → GaveUp k k') k := by
  have hwrite (k₁ : Kernel) :
      (writeBlocks t fd a size buf count).wp (fun ok k' => ok = false → GaveUp k₁ k') k₁ := by
    rw [writeBlocks]
    dsimp only
    rw [wp_bind, wp_assert]
    intro _
    rw [wp_bind]
    refine wp_mono wp_buildBlocks_gaveUp fun r k' h => ?_
    cases r with
    | none => exact fun _ => h rfl
    | some ab =>
        dsimp only
        rw [wp_bind, wp_modify, wp_bind]
        exact wp_mono wp_true fun _ _ _ hok => by cases hok
  rw [wp_bind, allocFirst, wp_bind, wp_read]
  split
  · rw [wp_bind, blockBitmapAlloc, wp_bind, wp_read]
    cases hscan : bitmapScan k.part.blockBitmap 1 with
    | none => exact fun _ => .refl hscan
    | some i =>
        simp only [wp_bind, wp_write, wp_pure, modifyInode, wp_modify, wp_assert, bitmapSync, wp_read,
          wp_ideWrite_one]
        intro _ _
        rw [if_neg (by decide)]
        exact wp_mono (hwrite _) fun ok k' h hok => (h hok).later hscan
  · rw [wp_pure, if_neg (by decide)]
    exact hwrite k

end GaveUp

/-- What a call that returns `-1` for lack of blocks has done. -/
theorem gaveUp_of_outcome {t : Transfer} {g a count : ℕ} {buf : Bytes} {k k' : Kernel}
    (hinode : (k.fileTable g).fdInode = some a)
    (hlimit : ¬ maxFileSize < ((k.inodes a).iSize + count) % 2 ^ 32)
    (hfail : (fileWrite t g buf count).outcome k = .ok (-1, k')) : GaveUp k k' := by
  obtain ⟨f, hf, hfk⟩ := fileWrite_from (t := t) hinode
  rw [hf] at hfail
  change (f k).outcome k = _ at hfail
  rw [hfk, if_neg hlimit, outcome_bind] at hfail
  rcases hdata : (writeData t g a (k.inodes a).iSize buf count).outcome k with e | ⟨ok, k₁⟩
  · rw [hdata] at hfail
    cases hfail
  · rw [hdata] at hfail
    change (writeFinish t a count ok).outcome k₁ = .ok (-1, k') at hfail
    cases ok with
    | false =>
        cases hfail
        have hdata' : (do
            if !(← allocFirst t a) then return false
            else writeBlocks t g a (k.inodes a).iSize buf count : Prog Kernel Bool).outcome k =
            .ok (false, k') := hdata
        exact outcome_of_wp wp_takeBlocks_gaveUp hdata' rfl
    | true =>
        -- such a call returns the count
        rw [writeFinish, if_pos rfl, outcome_read_bind, outcome_bind] at hfail
        rcases hsync : (inodeSync t (k₁.inodes a) 1).outcome k₁ with e | ⟨u, k₂⟩
        · rw [hsync] at hfail
          cases hfail
        · rw [hsync] at hfail
          injection hfail with hpair
          have hret := congrArg Prod.fst hpair
          change (count : ℤ) = -1 at hret
          omega

/-! ## Writing later -/

/-- The block `l` belongs to the file at `a`, or a pointer beyond its size is left over for it. -/
def Kernel.Points (k : Kernel) (a l : ℕ) : Prop :=
  k.Owns a l ∨ ∃ i ≤ directPtrs, l = (k.inodes a).iSectors i

/-- A later state, in which the file at `a` is as it was and its blocks are still in use; other blocks
of the disk may have been freed. -/
structure Later (a : ℕ) (k k' : Kernel) : Prop where
  iNo : (k'.inodes a).iNo = (k.inodes a).iNo
  iSize : (k'.inodes a).iSize = (k.inodes a).iSize
  iSectors : (k'.inodes a).iSectors = (k.inodes a).iSectors
  sb : k'.part.sb = k.part.sb
  startLba : k'.part.startLba = k.part.startLba
  secCnt : k'.part.secCnt = k.part.secCnt
  len : k'.part.blockBitmap.btmpBytesLen = k.part.blockBitmap.btmpBytesLen
  used : ∀ l, l ≠ 0 → k.Points a l → k'.part.Taken l ∧ sectorOf k'.disk l = sectorOf k.disk l
  onDisk : ∀ l, k'.part.Marked false l → l ≤ maxLba
  root : ¬ k'.part.Marked false k'.part.sb.dataStartLba

section Later

variable {a : ℕ} {k k' : Kernel} (h : Later a k k') (horder : k.InOrder a)

include h

/-- The indirect table is as it was. -/
theorem Later.table (hne : (k.inodes a).iSectors directPtrs ≠ 0) :
    sectorOf k'.disk ((k.inodes a).iSectors directPtrs) =
      sectorOf k.disk ((k.inodes a).iSectors directPtrs) := (h.used _ hne (Or.inl (Or.inr rfl))).2

theorem Later.need (count : ℕ) : k'.need a count = k.need a count := by
  unfold Kernel.need Kernel.startBlocks
  rw [h.iSize, h.iSectors]

include horder

theorem Later.layout : k'.part.Layout := by
  have hlayout := horder.blocks.layout
  refine ⟨?_, ?_, ?_, fun i hi => ?_, ?_, ?_⟩
  · rw [h.sb]
    exact hlayout.entrySize
  · rw [h.sb]
    exact hlayout.start
  · rw [h.sb]
    exact hlayout.last
  · rw [h.len] at hi
    rw [h.sb]
    exact hlayout.bitmap i hi
  · rw [h.sb]
    exact hlayout.inodeTable
  · rw [h.sb, h.startLba, h.secCnt]
    exact hlayout.inodeTablePart

/-- The file is still in order. -/
theorem Later.inOrder : k'.InOrder a := by
  have hcnt (hne : (k.inodes a).iSectors 0 ≠ 0) : k.blocksHeld a = (k.inodes a).iSize / sectorSize + 1 :=
    if_neg hne
  have hused {i : ℕ} (hi : i < k.blocksHeld a) : k'.part.Taken (k.blockOf a i) :=
    (h.used _ (horder.blocks.layout.taken_ne_zero (horder.hasBlocks.blockOf hi).1)
      (Or.inl (Or.inl ⟨i, hi, rfl⟩))).1
  refine ⟨?_, ⟨h.layout horder, h.onDisk, h.root, fun i hi hne => ?_, ?_⟩, fun hne => ?_, ?_⟩
  · rw [h.iSize]
    exact horder.small
  · rw [h.iSectors] at hne ⊢
    exact (h.used _ hne (Or.inr ⟨i, hi, rfl⟩)).1
  · rw [h.iSectors]
    exact horder.blocks.apart
  · rw [h.iSectors] at hne
    rw [h.iSize, h.iSectors]
    have hcovers := horder.covers hne
    refine ⟨hcovers.direct, hcovers.table, fun i hi hlow => ?_⟩
    have htable := hcovers.table (hlow.trans_lt hi)
    have hin : i < k.blocksHeld a := by
      rw [hcnt hne]
      exact hi
    have htaken := hused hin
    rw [Kernel.blockOf_indirect hlow] at htaken
    unfold tableEntry at htaken ⊢
    rw [h.table htable]
    exact ⟨htaken, (hcovers.indirect i hi hlow).2⟩
  · rw [h.iSectors, h.iSize]
    exact horder.empty

end Later

/-! ## Blocks that can become free -/

/-- The partition has `n` blocks on the disk that the file at `a` does not point to, beside the first
one, which belongs to the root. -/
def Kernel.Spare (k : Kernel) (a n : ℕ) : Prop :=
  ∃ blocks : Finset ℕ, blocks.card = n ∧ ∀ l ∈ blocks, k.part.sb.dataStartLba < l ∧
    l - k.part.sb.dataStartLba < k.part.blockBitmap.btmpBytesLen * 8 ∧ l ≤ maxLba ∧ ¬ k.Points a l

/-- No pointer stands where a write takes a new block, for any write that the partition is large enough
for. -/
def Kernel.Unobstructed (k : Kernel) (a : ℕ) : Prop :=
  ∀ count, (k.inodes a).iSize + count < maxFileSize → k.Spare a (k.need a count) →
    ∀ i ≤ directPtrs, blocksOf (k.inodes a).iSize ≤ i → i < blocksOf ((k.inodes a).iSize + count) →
      (k.inodes a).iSectors i = 0

/-- Where there are blocks for the whole write, it is clear when no pointer stands in its way. -/
theorem Kernel.clear_iff {a count : ℕ} {k : Kernel} (hfree : k.part.HasFree (k.need a count)) :
    k.Clear a count ↔ ∀ i ≤ directPtrs, blocksOf (k.inodes a).iSize ≤ i →
      i < blocksOf ((k.inodes a).iSize + count) → (k.inodes a).iSectors i = 0 := by
  constructor
  · intro hclear i hi hlow hhigh
    by_contra hne
    rcases hi.lt_or_eq with hlt | rfl
    · refine hclear.direct i hlow hhigh hlt hne (hfree.mono ?_)
      unfold Kernel.need blocksTaken
      split
      · rw [if_pos ⟨by omega, by assumption⟩]
        omega
      · omega
    · refine hclear.table hlow hhigh hne (hfree.mono ?_)
      unfold Kernel.need blocksTaken
      omega
  · exact fun hzero => ⟨fun i hlow hhigh hi hne => absurd (hzero i hi.le hlow hhigh) hne,
      fun hlow hhigh hne => absurd (hzero directPtrs le_rfl hlow hhigh) hne⟩

/-- Some blocks of a partition are freed. -/
theorem Partition.exists_freed (part : Partition) (blocks : Finset ℕ)
    (hblocks : ∀ l ∈ blocks, part.sb.dataStartLba ≤ l ∧
      l - part.sb.dataStartLba < part.blockBitmap.btmpBytesLen * 8) :
    ∃ bitmap : Bitmap, bitmap.btmpBytesLen = part.blockBitmap.btmpBytesLen ∧
      (∀ l ∈ blocks, Partition.Marked { part with blockBitmap := bitmap } false l) ∧
      ∀ l ∉ blocks, ∀ value,
        Partition.Marked { part with blockBitmap := bitmap } value l ↔ part.Marked value l := by
  induction blocks using Finset.induction_on with
  | empty => exact ⟨part.blockBitmap, rfl, fun l hl => absurd hl (Finset.notMem_empty l),
      fun _ _ _ => Iff.rfl⟩
  | insert b blocks hb ih =>
      obtain ⟨bitmap, hlen, hfreed, hother⟩ := ih fun l hl => hblocks l (Finset.mem_insert_of_mem hl)
      obtain ⟨hlow, hindex⟩ := hblocks b (Finset.mem_insert_self b blocks)
      set part' : Partition := { part with blockBitmap := bitmap } with hpart'
      have hmark : part'.Marked (bitmap.bit (b - part.sb.dataStartLba)) b := by
        refine ⟨hlow, ?_, rfl⟩
        change _ < bitmap.btmpBytesLen * 8
        rw [hlen]
        exact hindex
      have hself : (part'.mark b false).Marked false b := hmark.self false
      refine ⟨(part'.mark b false).blockBitmap, (btmpBytesLen_bitmapSet _ _ _).trans hlen,
        fun l hl => ?_, fun l hl value => ?_⟩
      · by_cases hlb : l = b
        · rw [hlb]
          exact hself
        · exact (hfreed l ((Finset.mem_insert.mp hl).resolve_left hlb)).other hlow hlb
      · rw [Finset.mem_insert, not_or] at hl
        refine ⟨fun h => ?_, fun h => ((hother l hl.2 value).mpr h).other hlow hl.1⟩
        have hmarked : (part'.mark b false).Marked value l := h
        exact (hother l hl.2 value).mp (hmarked.of_mark hlow hl.1)

/-- All spare blocks can become free. -/
theorem Kernel.Spare.later {a n : ℕ} {k : Kernel} (hspare : k.Spare a n) (horder : k.InOrder a) :
    ∃ k', Later a k k' ∧ k'.part.HasFree n ∧ k'.fileTable = k.fileTable := by
  obtain ⟨blocks, hcard, hblocks⟩ := hspare
  obtain ⟨bitmap, hlen, hfreed, hother⟩ := k.part.exists_freed blocks fun l hl =>
    ⟨(hblocks l hl).1.le, (hblocks l hl).2.1⟩
  refine ⟨{ k with part := { k.part with blockBitmap := bitmap } }, ?_, ⟨blocks, hcard, hfreed⟩, rfl⟩
  refine ⟨rfl, rfl, rfl, rfl, rfl, rfl, hlen, fun l hne hpoints => ⟨?_, rfl⟩, fun l hl => ?_, fun hroot => ?_⟩
  · have htaken : k.part.Taken l := by
      rcases hpoints with (⟨i, hi, rfl⟩ | rfl) | ⟨i, hi, rfl⟩
      · exact (horder.hasBlocks.blockOf hi).1
      · exact horder.blocks.taken directPtrs le_rfl hne
      · exact horder.blocks.taken i hi hne
    exact ⟨(hother l (fun hmem => (hblocks l hmem).2.2.2 hpoints) true).mpr htaken.toMarked, htaken.last⟩
  · by_cases hmem : l ∈ blocks
    · exact (hblocks l hmem).2.2.1
    · exact horder.blocks.onDisk l ((hother l hmem false).mp hl)
  · have hmem : k.part.sb.dataStartLba ∉ blocks := fun hmem => (hblocks _ hmem).1.false
    exact horder.blocks.root ((hother _ hmem false).mp hroot)

/-- The blocks that are free later are spare ones. -/
theorem Later.spare {a n : ℕ} {k k' : Kernel} (h : Later a k k') (horder : k.InOrder a)
    (hfree : k'.part.HasFree n) : k.Spare a n := by
  obtain ⟨blocks, hcard, hblocks⟩ := hfree
  refine ⟨blocks, hcard, fun l hl => ?_⟩
  have hmark := hblocks l hl
  have hlow := hmark.low
  have hindex := hmark.index
  rw [h.sb] at hlow hindex
  rw [h.len] at hindex
  have hne : l ≠ k.part.sb.dataStartLba := by
    rintro rfl
    rw [← h.sb] at hmark
    exact h.root hmark
  refine ⟨lt_of_le_of_ne hlow hne.symm, hindex, h.onDisk l hmark, fun hpoints => ?_⟩
  have hpos : l ≠ 0 := (horder.blocks.layout.start.trans_le hlow).ne'
  have hbit := (h.used l hpos hpoints).1.bit
  rw [hmark.bit] at hbit
  cases hbit

/-! ## Exactly when a failing call changes nothing -/

/-- The size and the pointers of the file are as before, and so are the block bitmap and the disk, on
which the bitmap, the indirect table and all blocks lie. -/
structure WriteUndone (a : ℕ) (k k' : Kernel) : Prop where
  iSize : (k'.inodes a).iSize = (k.inodes a).iSize
  iSectors : (k'.inodes a).iSectors = (k.inodes a).iSectors
  blockBitmap : k'.part.blockBitmap = k.part.blockBitmap
  disk : k'.disk = k.disk

/-- When there are blocks again for a write, no assertion fails in it, and it returns its count (if the
inode fits into the buffer of `inode_sync`). -/
def Retries (t : Transfer) (a : ℕ) (k : Kernel) : Prop :=
  ∀ k', Later a k k' → ∀ g buf count, (k'.fileTable g).fdInode = some a →
    (k'.inodes a).iSize + count < maxFileSize → k'.part.HasFree (k'.need a count) →
    (fileWrite t g buf count).avoids .halt k' ∧
      (inodeTwoSec ((k'.inodes a).iNo % 256) = false →
        ∃ k'', (fileWrite t g buf count).outcome k' = .ok ((count : ℤ), k''))

section Retries

variable {t : Transfer} {g a : ℕ} {k : Kernel}

theorem retries_of_unobstructed (horder : k.InOrder a) (hclear : k.Unobstructed a) : Retries t a k := by
  intro k' hlater g buf count hinode hend hfree
  have horder' := hlater.inOrder horder
  have hclear' : k'.Clear a count := by
    refine (Kernel.clear_iff hfree).mpr ?_
    have hspare := hlater.spare horder hfree
    rw [hlater.need] at hspare
    rw [hlater.iSize, hlater.iSectors] at *
    exact hclear count hend hspare
  refine ⟨fileWrite_avoids_fault hinode horder' (by decide) hend hclear', fun hone => ?_⟩
  have hwrite : (fileWrite t g buf count).ensures .zero (Written .zero a buf count k') k' :=
    ensures_fileWrite hinode horder' hend (Or.inr hclear') (Or.inr hone)
  obtain ⟨r, k'', hout, hwritten⟩ := outcome_of_ensures_post hwrite
  rcases hwritten.result with ⟨rfl, -⟩ | ⟨-, -, hfull⟩
  · exact ⟨k'', hout⟩
  · exact absurd hfree ((hfull fairEnv_zero).resolve_left id)

/-- A pointer that is left over trips a later write. -/
theorem Retries.unobstructed (h : Retries t a k) (hinode : (k.fileTable g).fdInode = some a)
    (horder : k.InOrder a) : k.Unobstructed a := by
  intro count hend hspare
  obtain ⟨k', hlater, hfree, hfiles⟩ := hspare.later horder
  have hinode' : (k'.fileTable g).fdInode = some a := by rw [hfiles, hinode]
  have hend' : (k'.inodes a).iSize + count < maxFileSize := by rw [hlater.iSize]; exact hend
  rw [← hlater.need] at hfree
  have hclear := Kernel.clear_of_avoids hinode' (hlater.inOrder horder)
    (h k' hlater g zeroBuf count hinode' hend' hfree).1 hend'
  have hzero := (Kernel.clear_iff hfree).mp hclear
  rwa [hlater.iSize, hlater.iSectors] at hzero

end Retries

/-- All blocks are in use. -/
def fullDisk : Kernel := emptyFile fun _ => 0xff

/-- One block is free. -/
def oneBlockLeft : Kernel := emptyFile fun i => if i = 1 then 0xfe else 0xff

end BochsOs
