import BochsOs.Fs.DirDelete

/-!
# The blocks of a file

`file_write` takes the blocks for the new size before it writes a byte: one more than the
bytes need where the size is a multiple of the block size.  `FileBlocks` says that the block
pointers of an inode are blocks in use, and `Covers` that the first `n` blocks are there.

`ensures_allocBlocks` and `ensures_buildBlocks` describe the loops that take blocks.  When the
disk is full they give up, and the blocks already taken stay in the inode; a later call that
gets as far as such a pointer trips over an assertion (`NoLeftover`).
-/

namespace BochsOs

open ByteMemory Suspend Suspend.Prog

/-! ## Free blocks -/

section HasFree

variable {part : Partition}

theorem Partition.HasFree.mono {m n : ℕ} (h : part.HasFree n) (hle : m ≤ n) : part.HasFree m := by
  obtain ⟨blocks, hcard, hfree⟩ := h
  obtain ⟨some, hsub, hsome⟩ := Finset.exists_subset_card_eq (hcard ▸ hle)
  exact ⟨some, hsome, fun lba hlba => hfree lba (hsub hlba)⟩

theorem Partition.HasFree.exists {n : ℕ} (h : part.HasFree n) (hn : 0 < n) :
    ∃ lba, part.Marked false lba := by
  obtain ⟨blocks, hcard, hfree⟩ := h
  obtain ⟨lba, hlba⟩ := Finset.card_pos.mp (hcard.symm ▸ hn)
  exact ⟨lba, hfree lba hlba⟩

theorem Partition.hasFree_zero : part.HasFree 0 :=
  ⟨∅, rfl, fun lba hlba => absurd hlba (Finset.notMem_empty lba)⟩

/-- A block that is taken was one of the free ones. -/
theorem Partition.hasFree_mark {lba n : ℕ} (hlba : part.Marked false lba) :
    (part.mark lba true).HasFree n ↔ part.HasFree (n + 1) := by
  have htaken : (part.mark lba true).Marked true lba := hlba.self true
  constructor
  · rintro ⟨blocks, hcard, hfree⟩
    have hne : ∀ l ∈ blocks, l ≠ lba := fun l hl heq => by
      have hbit := (hfree l hl).bit
      rw [heq, htaken.bit] at hbit
      cases hbit
    refine ⟨insert lba blocks, ?_, fun l hl => ?_⟩
    · rw [Finset.card_insert_of_notMem fun hmem => hne lba hmem rfl, hcard]
    · rcases Finset.mem_insert.mp hl with rfl | hl
      · exact hlba
      · exact (hfree l hl).of_mark hlba.low (hne l hl)
  · rintro ⟨blocks, hcard, hfree⟩
    have hless : blocks.card - 1 ≤ (blocks.erase lba).card := Finset.pred_card_le_card_erase
    obtain ⟨some, hsub, hsome⟩ := Finset.exists_subset_card_eq (show n ≤ (blocks.erase lba).card by omega)
    refine ⟨some, hsome, fun l hl => ?_⟩
    obtain ⟨hne, hl⟩ := Finset.mem_erase.mp (hsub hl)
    exact (hfree l hl).other hlba.low hne

end HasFree

/-! ## The blocks of an inode -/

/-- The block pointers of an inode are blocks in use, and the free blocks are blocks of the disk
other than the first one, which belongs to the root. -/
structure FileBlocks (part : Partition) (iSectors : ℕ → ℕ) : Prop where
  layout : part.Layout
  onDisk : ∀ lba, part.Marked false lba → lba ≤ maxLba
  root : ¬ part.Marked false part.sb.dataStartLba
  taken : ∀ i ≤ directPtrs, iSectors i ≠ 0 → part.Taken (iSectors i)
  apart : ∀ i < directPtrs, iSectors i ≠ 0 → iSectors i ≠ iSectors directPtrs

/-- Entry `i` of `all_blocks` in the indirect table at `table`. -/
def tableEntry (disk : Bytes) (table i : ℕ) : ℕ := readU32 (sectorOf disk table) (4 * (i - directPtrs))

/-- The first `n` blocks of the file are there. -/
structure Covers (disk : Bytes) (part : Partition) (iSectors : ℕ → ℕ) (n : ℕ) : Prop where
  direct : ∀ i < n, i < directPtrs → iSectors i ≠ 0
  table : directPtrs < n → iSectors directPtrs ≠ 0
  indirect : ∀ i < n, directPtrs ≤ i → part.Taken (tableEntry disk (iSectors directPtrs) i) ∧
    tableEntry disk (iSectors directPtrs) i ≠ iSectors directPtrs

theorem Partition.Layout.taken_ne_zero {part : Partition} (h : part.Layout) {lba : ℕ}
    (hlba : part.Taken lba) : lba ≠ 0 := by
  have hstart := h.start
  have hlow := hlba.low
  omega

section Covers

variable {disk disk' : Bytes} {part : Partition} {iSectors : ℕ → ℕ} {n : ℕ}

theorem Covers.mono {m : ℕ} (h : Covers disk part iSectors n) (hle : m ≤ n) :
    Covers disk part iSectors m where
  direct i hi := h.direct i (by omega)
  table hm := h.table (by omega)
  indirect i hi := h.indirect i (by omega)

/-- Only the sector of the indirect table matters. -/
theorem Covers.congr (h : Covers disk part iSectors n)
    (hdisk : directPtrs < n →
      sectorOf disk' (iSectors directPtrs) = sectorOf disk (iSectors directPtrs)) :
    Covers disk' part iSectors n where
  direct := h.direct
  table := h.table
  indirect i hi hlow := by
    unfold tableEntry
    rw [hdisk (by omega)]
    exact h.indirect i hi hlow

/-- An entry of an indirect table that is written from `all_blocks`. -/
theorem tableEntry_copy {table i : ℕ} {allBlocks : ℕ → ℕ} (hlow : directPtrs ≤ i) (hi : i < flattenPtrs)
    (hlast : allBlocks i ≤ maxLba) :
    tableEntry (copy disk (sectorSize * table) (indirectImage allBlocks) 0 sectorSize) table i =
      allBlocks i := by
  have hmax : maxLba + 1 = 163840 := rfl
  unfold tableEntry
  rw [sectorOf_copy_same, readU32_copy_inside (Nat.zero_le _)
    (by unfold sectorSize; unfold flattenPtrs directPtrs at *; omega), Nat.zero_add, Nat.sub_zero,
    indirectImage, readU32_wordImage, Nat.add_sub_cancel' hlow, Nat.mod_eq_of_lt (by omega)]

/-- An indirect table that is written from `all_blocks`. -/
theorem Covers.of_table {table : ℕ} (htable : iSectors directPtrs = table) (hne : table ≠ 0)
    (hn : n ≤ flattenPtrs) (hdirect : ∀ i < n, i < directPtrs → iSectors i ≠ 0) {allBlocks : ℕ → ℕ}
    (hblocks : ∀ i < n, directPtrs ≤ i → part.Taken (allBlocks i) ∧ allBlocks i ≠ table) :
    Covers (copy disk (sectorSize * table) (indirectImage allBlocks) 0 sectorSize) part iSectors n where
  direct := hdirect
  table _ := htable ▸ hne
  indirect i hi hlow := by
    obtain ⟨htaken, hapart⟩ := hblocks i hi hlow
    rw [htable, tableEntry_copy hlow (hi.trans_le hn) htaken.last]
    exact ⟨htaken, hapart⟩

end Covers

/-! ## Taking blocks -/

theorem Kernel.setInode_self (k : Kernel) (a : ℕ) (inode : Inode) :
    (k.setInode a inode).inodes a = inode := Function.update_self _ _ _

/-- From `k` to `k'` the inode at `a` keeps its size and the block pointers it has, and the
blocks in use stay as they are. -/
structure Gains (a : ℕ) (k k' : Kernel) : Prop where
  sb : k'.part.sb = k.part.sb
  taken : ∀ lba, k.part.Taken lba → k'.part.Taken lba
  size : (k'.inodes a).iSize = (k.inodes a).iSize
  kept : ∀ i, (k.inodes a).iSectors i ≠ 0 → (k'.inodes a).iSectors i = (k.inodes a).iSectors i
  disk : ∀ l, k.part.sb.dataStartLba ≤ l → sectorOf k'.disk l = sectorOf k.disk l

theorem Gains.refl (a : ℕ) (k : Kernel) : Gains a k k :=
  ⟨rfl, fun _ h => h, rfl, fun _ _ => rfl, fun _ _ => rfl⟩

theorem Gains.trans {a : ℕ} {k k' k'' : Kernel} (h : Gains a k k') (h' : Gains a k' k'') :
    Gains a k k'' where
  sb := h'.sb.trans h.sb
  taken lba hlba := h'.taken lba (h.taken lba hlba)
  size := h'.size.trans h.size
  kept i hi := by
    have hkept := h.kept i hi
    rw [h'.kept i (by rwa [hkept]), hkept]
  disk l hl := by
    rw [h'.disk l (by rwa [h.sb]), h.disk l hl]

/-- The blocks of the inode at `a` are in order, and the first `n` are there. -/
structure Kernel.HasBlocks (k : Kernel) (a n : ℕ) : Prop where
  blocks : FileBlocks k.part (k.inodes a).iSectors
  covers : Covers k.disk k.part (k.inodes a).iSectors n

/-- Blocks that are there stay there. -/
theorem Gains.hasBlocks {a n : ℕ} {k k' : Kernel} (hg : Gains a k k') (h : k.HasBlocks a n)
    (h' : FileBlocks k'.part (k'.inodes a).iSectors) : k'.HasBlocks a n where
  blocks := h'
  covers := by
    have htable (hn : directPtrs < n) := hg.kept directPtrs (h.covers.table hn)
    refine ⟨fun i hi hlow => ?_, fun hn => ?_, fun i hi hlow => ?_⟩
    · have hdirect := h.covers.direct i hi hlow
      rwa [hg.kept i hdirect]
    · rw [htable hn]
      exact h.covers.table hn
    · obtain ⟨htaken, hne⟩ := h.covers.indirect i hi hlow
      have hhold := h.blocks.taken directPtrs le_rfl (h.covers.table (by omega))
      unfold tableEntry at *
      rw [htable (by omega), hg.disk _ hhold.low]
      exact ⟨hg.taken _ htaken, hne⟩

section Take

variable {k : Kernel} {a lba : ℕ} (h : FileBlocks k.part (k.inodes a).iSectors)

include h

/-- A block that is marked in the bitmap. -/
theorem FileBlocks.mark (hfree : k.part.Marked false lba) :
    FileBlocks (k.part.mark lba true) (k.inodes a).iSectors ∧
      Gains a k { k with part := k.part.mark lba true } := by
  have htaken : ∀ l, k.part.Taken l → (k.part.mark lba true).Taken l := fun l hl =>
    hl.other hfree.low (hl.ne hfree)
  have hold {l : ℕ} (hl : (k.part.mark lba true).Marked false l) : k.part.Marked false l := by
    refine hl.of_mark hfree.low fun heq => ?_
    have hbit := hl.bit
    rw [heq, (hfree.self true).bit] at hbit
    cases hbit
  exact ⟨⟨h.layout.mark lba true, fun l hl => h.onDisk l (hold hl), fun hroot => h.root (hold hroot),
    fun i hi hne => htaken _ (h.taken i hi hne), h.apart⟩,
    ⟨rfl, htaken, rfl, fun _ _ => rfl, fun _ _ => rfl⟩⟩

/-- A block that is put in an empty pointer. -/
theorem FileBlocks.setSector {i : ℕ} (hnone : (k.inodes a).iSectors i = 0)
    (hlba : k.part.Taken lba)
    (hfresh : ∀ j ≤ directPtrs, (k.inodes a).iSectors j ≠ 0 → (k.inodes a).iSectors j ≠ lba) :
    FileBlocks k.part ((k.inodes a).setSector i lba).iSectors ∧
      Gains a k (k.setInode a ((k.inodes a).setSector i lba)) := by
  have hother {j : ℕ} (hj : j ≠ i) :
      ((k.inodes a).setSector i lba).iSectors j = (k.inodes a).iSectors j := Function.update_of_ne hj _ _
  have hself : ((k.inodes a).setSector i lba).iSectors i = lba := by
    change Function.update (k.inodes a).iSectors i lba i = lba
    rw [Function.update_self]
  refine ⟨⟨h.layout, h.onDisk, h.root, fun j hj hj0 => ?_, fun j hj hj0 => ?_⟩,
    ⟨rfl, fun _ hl => hl, ?_, fun j hj => ?_, fun _ _ => rfl⟩⟩
  · by_cases hji : j = i
    · rw [hji, hself]
      exact hlba
    · rw [hother hji] at hj0 ⊢
      exact h.taken j hj hj0
  · by_cases hji : j = i
    · have htable : (k.inodes a).iSectors directPtrs ≠ lba := by
        by_cases hzero : (k.inodes a).iSectors directPtrs = 0
        · rw [hzero]
          exact (h.layout.taken_ne_zero hlba).symm
        · exact hfresh directPtrs le_rfl hzero
      rw [hji, hself, hother (by omega)]
      exact htable.symm
    · rw [hother hji] at hj0 ⊢
      by_cases htable : directPtrs = i
      · rw [htable, hself]
        exact hfresh j hj.le hj0
      · rw [hother htable]
        exact h.apart j hj hj0
  · rw [Kernel.setInode_self]
    rfl
  · have hji : j ≠ i := fun heq => hj (heq ▸ hnone)
    rw [Kernel.setInode_self, hother hji]

/-- A free block is none of those of the inode. -/
theorem FileBlocks.fresh (hfree : k.part.Marked false lba) {i : ℕ} (hi : i ≤ directPtrs)
    (hne : (k.inodes a).iSectors i ≠ 0) : (k.inodes a).iSectors i ≠ lba := (h.taken i hi hne).ne hfree

end Take

/-- What the loop has put in the places from `first` to `last` of `all_blocks`. -/
structure NewBlocks (k : Kernel) (a first last : ℕ) (old new : ℕ → ℕ) : Prop where
  taken : ∀ i, first ≤ i → i < last → k.part.Taken (new i)
  apart : ∀ i, first ≤ i → i < last → new i ≠ (k.inodes a).iSectors directPtrs
  direct : ∀ i, first ≤ i → i < last → i < directPtrs → (k.inodes a).iSectors i = new i
  same : ∀ i, i < first ∨ last ≤ i → new i = old i

/-- What a loop that takes the blocks from `first` to `last` leaves. -/
structure Allocated (a : ℕ) (k : Kernel) (first last : ℕ) (old : ℕ → ℕ) (r : Option (ℕ → ℕ))
    (k' : Kernel) : Prop where
  blocks : FileBlocks k'.part (k'.inodes a).iSectors
  gains : Gains a k k'
  table : (k'.inodes a).iSectors directPtrs = (k.inodes a).iSectors directPtrs
  new : ∀ allBlocks ∈ r, NewBlocks k' a first last old allBlocks
  full : r = none → ¬ k.part.HasFree (last - first)

/-- The state after the block `lba` is taken for pointer `i` of the inode at `a`. -/
def Kernel.takeBlock (k : Kernel) (a i lba : ℕ) (disk : Bytes) : Kernel :=
  { (if i < directPtrs then k.setInode a ((k.inodes a).setSector i lba) else k) with
    part := k.part.mark lba true
    disk := disk }

section TakeBlock

variable {k : Kernel} {a i lba : ℕ} {disk : Bytes} (h : FileBlocks k.part (k.inodes a).iSectors)
  (hfree : k.part.Marked false lba) (hnone : i < directPtrs → (k.inodes a).iSectors i = 0)
  (hdisk : ∀ l, k.part.sb.dataStartLba ≤ l → sectorOf disk l = sectorOf k.disk l)

include h hfree hnone hdisk

/-- A block that is taken, and noted in the inode if its pointer is there. -/
theorem FileBlocks.take : FileBlocks (k.takeBlock a i lba disk).part ((k.takeBlock a i lba disk).inodes a).iSectors ∧
    Gains a k (k.takeBlock a i lba disk) := by
  obtain ⟨hmark, hgrow⟩ := h.mark hfree
  have hend {k' : Kernel} (hg : Gains a k k') (hsb : k'.disk = k.disk) :
      Gains a k { k' with disk := disk } :=
    ⟨hg.sb, hg.taken, hg.size, hg.kept, hdisk⟩
  unfold Kernel.takeBlock
  by_cases hi : i < directPtrs
  · obtain ⟨hset, hgrow'⟩ := FileBlocks.setSector (k := { k with part := k.part.mark lba true }) hmark
      (hnone hi) (hfree.take (h.onDisk lba hfree)) fun j hj hne => h.fresh hfree hj hne
    rw [if_pos hi]
    refine ⟨?_, hend (hgrow.trans hgrow') rfl⟩
    rw [Kernel.setInode_self]
    exact hset
  · rw [if_neg hi]
    exact ⟨hmark, hend hgrow rfl⟩

end TakeBlock

theorem Kernel.takeBlock_iSectors {k : Kernel} {a i lba : ℕ} {disk : Bytes} (hi : i < directPtrs) :
    ((k.takeBlock a i lba disk).inodes a).iSectors i = lba := by
  unfold Kernel.takeBlock
  rw [if_pos hi, Kernel.setInode_self]
  change Function.update (k.inodes a).iSectors i lba i = lba
  rw [Function.update_self]

theorem Kernel.takeBlock_iSectors_of_ne {k : Kernel} {a i j lba : ℕ} {disk : Bytes}
    (hj : j = i → ¬ i < directPtrs) :
    ((k.takeBlock a i lba disk).inodes a).iSectors j = (k.inodes a).iSectors j := by
  unfold Kernel.takeBlock
  by_cases hi : i < directPtrs
  · rw [if_pos hi, Kernel.setInode_self]
    exact Function.update_of_ne (fun heq => hj heq hi) _ _
  · rw [if_neg hi]

section Allocated

variable {k : Kernel} {a i lba : ℕ} {disk : Bytes} (h : FileBlocks k.part (k.inodes a).iSectors)
  (hfree : k.part.Marked false lba) (hnone : i < directPtrs → (k.inodes a).iSectors i = 0)
  (hdisk : ∀ l, k.part.sb.dataStartLba ≤ l → sectorOf disk l = sectorOf k.disk l)

include h hfree hnone hdisk

/-- What is left after the first block and the others. -/
theorem Allocated.of_take {last : ℕ} {old : ℕ → ℕ} {r : Option (ℕ → ℕ)} {k' : Kernel} (hi : i < last)
    (hrest : Allocated a (k.takeBlock a i lba disk) (i + 1) last (Function.update old i lba) r k') :
    Allocated a k i last old r k' := by
  obtain ⟨-, hgrow⟩ := h.take (i := i) hfree hnone hdisk
  have hpart : (k.takeBlock a i lba disk).part.Taken lba := hfree.take (h.onDisk lba hfree)
  have hpos : lba ≠ 0 := (h.layout.mark lba true).taken_ne_zero (hfree.take (h.onDisk lba hfree))
  have htable : (k'.inodes a).iSectors directPtrs = (k.inodes a).iSectors directPtrs :=
    hrest.table.trans (Kernel.takeBlock_iSectors_of_ne fun heq => by omega)
  refine ⟨hrest.blocks, hgrow.trans hrest.gains, htable, fun ab hab => ?_, fun hr hmore => ?_⟩
  swap
  · refine hrest.full hr ((Partition.hasFree_mark hfree).mpr ?_)
    rwa [show last - (i + 1) + 1 = last - i by omega]
  have hnew := hrest.new ab hab
  have hself : ab i = lba := by
    rw [hnew.same i (Or.inl (Nat.lt_succ_self i)), Function.update_self]
  have hold {j : ℕ} (hlow : i ≤ j) (hne : j ≠ i) : i + 1 ≤ j := by omega
  refine ⟨fun j hlow hhigh => ?_, fun j hlow hhigh => ?_, fun j hlow hhigh hj => ?_, fun j hj => ?_⟩
  · by_cases hji : j = i
    · rw [hji, hself]
      exact hrest.gains.taken lba hpart
    · exact hnew.taken j (hold hlow hji) hhigh
  · by_cases hji : j = i
    · rw [hji, hself, htable]
      by_cases hzero : (k.inodes a).iSectors directPtrs = 0
      · rwa [hzero]
      · exact (h.fresh hfree le_rfl hzero).symm
    · exact hnew.apart j (hold hlow hji) hhigh
  · by_cases hji : j = i
    · rw [hji] at hj ⊢
      have hlba : ((k.takeBlock a i lba disk).inodes a).iSectors i = lba := Kernel.takeBlock_iSectors hj
      rw [hself, hrest.gains.kept i (by rwa [hlba]), hlba]
    · exact hnew.direct j (hold hlow hji) hhigh hj
  · rw [hnew.same j (by omega), Function.update_of_ne (by omega)]

end Allocated

/-- The loop takes a block for each pointer, as long as there are any. -/
theorem ensures_allocBlocks {t : Transfer} {e : Env} {a left blkI : ℕ} {allBlocks : ℕ → ℕ} {k : Kernel}
    (h : FileBlocks k.part (k.inodes a).iSectors)
    (hok : e.stops ∨ ∀ i, blkI ≤ i → i < blkI + left → i < directPtrs → (k.inodes a).iSectors i ≠ 0 →
      ¬ k.part.HasFree (i - blkI + 1)) :
    (allocBlocks t a left blkI allBlocks).ensures e
      (Allocated a k blkI (blkI + left) allBlocks) k := by
  induction left generalizing blkI allBlocks k with
  | zero =>
      refine ⟨h, .refl a k, rfl, fun ab hab => ?_, fun hnone => by cases hnone⟩
      obtain rfl := Option.mem_some_iff.mp hab
      exact ⟨fun i hlow hhigh => absurd hhigh (by omega), fun i hlow hhigh => absurd hhigh (by omega),
        fun i hlow hhigh => absurd hhigh (by omega), fun _ _ => rfl⟩
  | succ left ih =>
      rw [allocBlocks, ensures_bind]
      refine ensures_blockBitmapAlloc (fun hnone => ?_) fun lba hfree _ => ?_
      · refine ⟨h, .refl a k, rfl, (fun ab hab => by cases hab), fun _ hmore => ?_⟩
        obtain ⟨lba, hlba⟩ := hmore.exists (by omega)
        exact hnone lba hlba
      · have hmark : (k.part.mark lba true).Marked true lba := hfree.self true
        -- what is left once the block is noted in the inode
        have hrest (hnone : blkI < directPtrs → (k.inodes a).iSectors blkI = 0) (disk : Bytes)
            (hdisk : ∀ l, k.part.sb.dataStartLba ≤ l → sectorOf disk l = sectorOf k.disk l) :
            (allocBlocks t a left (blkI + 1) (Function.update allBlocks blkI lba)).ensures e
              (Allocated a k blkI (blkI + (left + 1)) allBlocks) (k.takeBlock a blkI lba disk) := by
          obtain ⟨htake, -⟩ := h.take (i := blkI) hfree hnone hdisk
          have hok' : e.stops ∨ ∀ i, blkI + 1 ≤ i → i < blkI + 1 + left → i < directPtrs →
              ((k.takeBlock a blkI lba disk).inodes a).iSectors i ≠ 0 →
              ¬ (k.takeBlock a blkI lba disk).part.HasFree (i - (blkI + 1) + 1) := by
            refine hok.imp_right fun hok i hlow hhigh hi hne hmore => ?_
            have hsame : ((k.takeBlock a blkI lba disk).inodes a).iSectors i =
                (k.inodes a).iSectors i :=
              Kernel.takeBlock_iSectors_of_ne fun heq => absurd heq (by omega)
            have hmore' := (Partition.hasFree_mark hfree).mp hmore
            rw [show i - (blkI + 1) + 1 + 1 = i - blkI + 1 by omega] at hmore'
            exact hok i (by omega) (by omega) hi (by rwa [hsame] at hne) hmore'
          refine ensures_mono (ih htake hok') fun r k' hall => ?_
          rw [show blkI + 1 + left = blkI + (left + 1) by omega] at hall
          exact hall.of_take h hfree hnone hdisk (by omega)
        have hsync (k₁ : Kernel) (hpart : k₁.part = k.part.mark lba true) (hdisk₁ : k₁.disk = k.disk)
            (hnone : blkI < directPtrs → (k.inodes a).iSectors blkI = 0)
            (htake : ∀ disk, { k₁ with disk := disk } = k.takeBlock a blkI lba disk) :
            (bitmapSync t (subU32 lba k.part.sb.dataStartLba) .blockBitmap).ensures e
              (fun _ k₂ => (allocBlocks t a left (blkI + 1) (Function.update allBlocks blkI lba)).ensures e
                (Allocated a k blkI (blkI + (left + 1)) allBlocks) k₂) k₁ := by
          have hsb : k.part.sb = k₁.part.sb := by rw [hpart]; rfl
          rw [hsb]
          refine ensures_bitmapSync (hpart ▸ h.layout.mark lba true) (hpart ▸ hmark) fun disk hdisk => ?_
          rw [htake]
          exact hrest hnone disk (hdisk₁ ▸ hsb ▸ hdisk)
        dsimp only
        rw [ensures_bind, ensures_read]
        by_cases hi : blkI < directPtrs
        · rw [if_pos hi, ensures_bind]
          by_cases hzero : (k.inodes a).iSectors blkI = 0
          · refine (ensures_assert (decide_eq_true hzero)).mpr ?_
            rw [ensures_bind, modifyInode, ensures_modify, ensures_bind]
            refine hsync _ rfl rfl (fun _ => hzero) fun disk => ?_
            unfold Kernel.takeBlock
            rw [if_pos hi]
            rfl
          · rcases hok with hstops | hok
            · change Prog.ensures e (assert (decide ((k.inodes a).iSectors blkI = 0))) _ _
              rw [decide_eq_false hzero]
              exact hstops
            · have hlack := hok blkI le_rfl (by omega) hi hzero
              rw [Nat.sub_self] at hlack
              exact absurd (Partition.hasFree_of_one hfree) hlack
        · rw [if_neg hi, ensures_bind]
          refine hsync _ rfl rfl (fun hlow => absurd hlow hi) fun disk => ?_
          unfold Kernel.takeBlock
          rw [if_neg hi]

/-! ## The block map of a write -/

/-- No pointer that an earlier call left behind is reached before the free blocks run out, when
the file gains from `has` to `will` blocks. -/
structure NoLeftover (part : Partition) (iSectors : ℕ → ℕ) (has will : ℕ) : Prop where
  direct : ∀ i, has ≤ i → i < will → i < directPtrs → iSectors i ≠ 0 →
    ¬ part.HasFree (i - has + 1 + if directPtrs < will then 1 else 0)
  table : has ≤ directPtrs → directPtrs < will → iSectors directPtrs ≠ 0 → ¬ part.HasFree 1

/-- The number of blocks that a file of `has` blocks takes to have `will` of them. -/
def blocksTaken (has will : ℕ) : ℕ :=
  will - has + if has ≤ directPtrs ∧ directPtrs < will then 1 else 0

/-- What comes of building the block map. -/
structure Built (a : ℕ) (k : Kernel) (has will : ℕ) (r : Option (ℕ → ℕ)) (k' : Kernel) : Prop where
  blocks : k'.HasBlocks a has
  size : (k'.inodes a).iSize = (k.inodes a).iSize
  all : ∀ allBlocks ∈ r, k'.HasBlocks a will
  map : ∀ allBlocks ∈ r, ∀ i, has - 1 ≤ i → i < will →
    k'.part.Taken (allBlocks i) ∧ allBlocks i ≠ (k'.inodes a).iSectors directPtrs
  full : r = none → ¬ k.part.HasFree (blocksTaken has will)

/-- The places of `all_blocks` that are read from the indirect table. -/
theorem withIndirect_tableEntry {disk : Bytes} {table i : ℕ} {allBlocks : ℕ → ℕ} (hlow : directPtrs ≤ i)
    (hhigh : i < flattenPtrs) :
    withIndirect allBlocks (sectorOf disk table) i = tableEntry disk table i := if_pos ⟨hlow, hhigh⟩

/-- A block map whose indirect part is written to the indirect table. -/
theorem Built.of_table {a has will : ℕ} {k k₁ : Kernel} (allBlocks : ℕ → ℕ) (hle : has ≤ will)
    (hwill : will ≤ flattenPtrs) (hb : FileBlocks k₁.part (k₁.inodes a).iSectors)
    (hsize : (k₁.inodes a).iSize = (k.inodes a).iSize) (htable : (k₁.inodes a).iSectors directPtrs ≠ 0)
    (hdirect : ∀ i < will, i < directPtrs → (k₁.inodes a).iSectors i ≠ 0)
    (hmap : ∀ i < will, has - 1 ≤ i ∨ directPtrs ≤ i → k₁.part.Taken (allBlocks i) ∧
      allBlocks i ≠ (k₁.inodes a).iSectors directPtrs) :
    Built a k has will (some allBlocks)
      { k₁ with
        disk := copy k₁.disk (sectorSize * (k₁.inodes a).iSectors directPtrs) (indirectImage allBlocks) 0
          sectorSize } := by
  have hcovers : Covers (copy k₁.disk (sectorSize * (k₁.inodes a).iSectors directPtrs)
      (indirectImage allBlocks) 0 sectorSize) k₁.part (k₁.inodes a).iSectors will :=
    .of_table rfl htable hwill hdirect fun i hi hlow => hmap i hi (Or.inr hlow)
  refine ⟨⟨hb, hcovers.mono hle⟩, hsize, fun _ _ => ⟨hb, hcovers⟩, fun ab hab i hlow hhigh => ?_,
    fun hnone => by cases hnone⟩
  obtain rfl := Option.mem_some_iff.mp hab
  exact hmap i hhigh (Or.inl hlow)

section Built

variable {a has will : ℕ} {k k₁ k' : Kernel} (h : k.HasBlocks a has) (hpos : 0 < has) (hlt : has < will)

include h hpos hlt

/-- New direct blocks only. -/
theorem Built.of_direct {r : Option (ℕ → ℕ)} (hsmall : will ≤ directPtrs)
    (hall : Allocated a k has will (directPart (k.inodes a).iSectors (has - 1) (has - 1)) r k') :
    Built a k has will r k' := by
  have hkeep := hall.gains.hasBlocks h hall.blocks
  refine ⟨hkeep, hall.gains.size, fun ab hab => ⟨hall.blocks, fun i hi hlow => ?_,
    fun hbig => absurd hbig (by omega), fun i hi hlow => absurd hlow (by omega)⟩,
    fun ab hab i hlow hhigh => ?_, fun hr => ?_⟩
  · by_cases hold : i < has
    · exact hkeep.covers.direct i hold hlow
    · have hnew := hall.new ab hab
      rw [hnew.direct i (by omega) hi hlow]
      exact hall.blocks.layout.taken_ne_zero (hnew.taken i (by omega) hi)
  · have hnew := hall.new ab hab
    by_cases hold : has ≤ i
    · exact ⟨hnew.taken i hold hhigh, hnew.apart i hold hhigh⟩
    · obtain rfl : i = has - 1 := by omega
      have hne := h.covers.direct (has - 1) (by omega) (by omega)
      have hmap : ab (has - 1) = (k.inodes a).iSectors (has - 1) :=
        (hnew.same (has - 1) (Or.inl (by omega))).trans (if_pos ⟨le_rfl, le_rfl⟩)
      rw [hmap, hall.table]
      exact ⟨hall.gains.taken _ (h.blocks.taken _ (by omega) hne), h.blocks.apart _ (by omega) hne⟩
  · rw [blocksTaken, if_neg (by omega), Nat.add_zero]
    exact hall.full hr

/-- The blocks behind a new indirect table. -/
theorem Built.of_newTable {allBlocks : ℕ → ℕ} (hold : has ≤ directPtrs) (hwill : will ≤ flattenPtrs)
    (hgrow : Gains a k k₁) (htable : (k₁.inodes a).iSectors directPtrs ≠ 0)
    (hall : Allocated a k₁ has will (directPart (k.inodes a).iSectors (has - 1) (has - 1))
      (some allBlocks) k') :
    Built a k has will (some allBlocks)
      { k' with
        disk := copy k'.disk (sectorSize * (k'.inodes a).iSectors directPtrs) (indirectImage allBlocks) 0
          sectorSize } := by
  have hgrows := hgrow.trans hall.gains
  have hkeep := hgrows.hasBlocks h hall.blocks
  have hnew := hall.new allBlocks rfl
  refine .of_table allBlocks hlt.le hwill hall.blocks hgrows.size (by rwa [hall.table])
    (fun i hi hlow => ?_) fun i hi hlow => ?_
  · by_cases hi' : i < has
    · exact hkeep.covers.direct i hi' hlow
    · rw [hnew.direct i (by omega) hi hlow]
      exact hall.blocks.layout.taken_ne_zero (hnew.taken i (by omega) hi)
  · by_cases hi' : has ≤ i
    · exact ⟨hnew.taken i hi' hi, hnew.apart i hi' hi⟩
    · obtain rfl : i = has - 1 := by omega
      have hne := hkeep.covers.direct (has - 1) (by omega) (by omega)
      have hmap : allBlocks (has - 1) = (k'.inodes a).iSectors (has - 1) := by
        rw [hgrows.kept (has - 1) (h.covers.direct (has - 1) (by omega) (by omega))]
        exact (hnew.same (has - 1) (Or.inl (by omega))).trans (if_pos ⟨le_rfl, le_rfl⟩)
      rw [hmap]
      exact ⟨hall.blocks.taken _ (by omega) hne, hall.blocks.apart _ (by omega) hne⟩

/-- The blocks behind an indirect table that is there. -/
theorem Built.of_indirect {allBlocks : ℕ → ℕ} (hold : directPtrs < has) (hwill : will ≤ flattenPtrs)
    (hall : Allocated a k has will
      (withIndirect (fun _ => 0) (sectorOf k.disk ((k.inodes a).iSectors directPtrs))) (some allBlocks) k') :
    Built a k has will (some allBlocks)
      { k' with
        disk := copy k'.disk (sectorSize * (k'.inodes a).iSectors directPtrs) (indirectImage allBlocks) 0
          sectorSize } := by
  have hkeep := hall.gains.hasBlocks h hall.blocks
  have hnew := hall.new allBlocks rfl
  refine .of_table allBlocks hlt.le hwill hall.blocks hall.gains.size
    (by rw [hall.table]; exact h.covers.table hold)
    (fun i hi hlow => hkeep.covers.direct i (by omega) hlow) fun i hi hlow => ?_
  by_cases hi' : has ≤ i
  · exact ⟨hnew.taken i hi' hi, hnew.apart i hi' hi⟩
  · have hmap : allBlocks i = tableEntry k.disk ((k.inodes a).iSectors directPtrs) i :=
      (hnew.same i (Or.inl (by omega))).trans (withIndirect_tableEntry (by omega) (by omega))
    obtain ⟨htaken, hapart⟩ := h.covers.indirect i (by omega) (by omega)
    rw [hmap, hall.table]
    exact ⟨hall.gains.taken _ htaken, hapart⟩

end Built

section NewTable

variable {k : Kernel} {a table : ℕ} (h : FileBlocks k.part (k.inodes a).iSectors)
  (hfree : k.part.Marked false table) (hzero : (k.inodes a).iSectors directPtrs = 0)

include h hfree hzero

/-- The state with a free block as the indirect table of the inode at `a`. -/
theorem FileBlocks.newTable {k₁ : Kernel} (hk₁ : k₁ = ({ k with part := k.part.mark table true } :
      Kernel).setInode a ((k.inodes a).setSector directPtrs table)) :
    FileBlocks k₁.part (k₁.inodes a).iSectors ∧ Gains a k k₁ ∧ (k₁.inodes a).iSectors directPtrs = table ∧
      ∀ i < directPtrs, (k₁.inodes a).iSectors i = (k.inodes a).iSectors i := by
  obtain ⟨hmark, hgrow⟩ := h.mark hfree
  obtain ⟨hset, hgrow'⟩ := FileBlocks.setSector (k := { k with part := k.part.mark table true })
    hmark hzero (hfree.take (h.onDisk table hfree)) fun j hj hne => h.fresh hfree hj hne
  have hinode : k₁.inodes a = (k.inodes a).setSector directPtrs table := by
    rw [hk₁, Kernel.setInode_self]
  refine ⟨?_, hk₁ ▸ hgrow.trans hgrow', ?_, fun i hi => ?_⟩
  · rw [hinode, hk₁]
    exact hset
  · rw [hinode]
    change Function.update (k.inodes a).iSectors directPtrs table directPtrs = table
    rw [Function.update_self]
  · rw [hinode]
    exact Function.update_of_ne (by omega) _ _

end NewTable

theorem ensures_buildBlocks {t : Transfer} {e : Env} {a has will : ℕ} {k : Kernel}
    (h : k.HasBlocks a has) (hpos : 0 < has) (hle : has ≤ will) (hwill : will ≤ flattenPtrs)
    (hok : e.stops ∨ NoLeftover k.part (k.inodes a).iSectors has will) :
    (buildBlocks t a has will).ensures e (Built a k has will) k := by
  rw [buildBlocks, ensures_bind, ensures_read]
  dsimp only
  by_cases hadd : subU32 will has = 0
  · have hsame : will = has := by
      rw [subU32_of_le hle] at hadd
      omega
    subst hsame
    rw [if_pos hadd]
    by_cases hsmall : will ≤ directPtrs
    · rw [if_pos hsmall, ensures_pure]
      refine ⟨h, rfl, fun _ _ => h, fun ab hab i hlow hhigh => ?_, fun hnone => by cases hnone⟩
      obtain rfl := Option.mem_some_iff.mp hab
      have hne := h.covers.direct i hhigh (by omega)
      have hmap : directPart (k.inodes a).iSectors (will - 1) (will - 1) i = (k.inodes a).iSectors i :=
        if_pos ⟨hlow, by omega⟩
      rw [hmap]
      exact ⟨h.blocks.taken i (by omega) hne, h.blocks.apart i (by omega) hne⟩
    · have htable := h.covers.table (by omega)
      have hhold := h.blocks.taken directPtrs le_rfl htable
      rw [if_neg hsmall, ensures_bind]
      refine (ensures_assert (decide_eq_true htable)).mpr ?_
      rw [ensures_bind, ensures_ideRead_one hhold.last, ensures_pure]
      refine ⟨h, rfl, fun _ _ => h, fun ab hab i hlow hhigh => ?_, fun hnone => by cases hnone⟩
      obtain rfl := Option.mem_some_iff.mp hab
      rw [withIndirect_tableEntry (by omega) (by omega)]
      exact h.covers.indirect i hhigh (by omega)
  · have hlt : has < will := by
      rw [subU32_of_le hle] at hadd
      omega
    have hlast : has + (will - has) = will := by omega
    rw [if_neg hadd]
    by_cases hsmall : will ≤ directPtrs
    · have hfirst := h.covers.direct (has - 1) (by omega) (by omega)
      have hok' : e.stops ∨ ∀ i, has ≤ i → i < has + (will - has) → i < directPtrs →
          (k.inodes a).iSectors i ≠ 0 → ¬ k.part.HasFree (i - has + 1) := by
        refine hok.imp_right fun hok i hlow hhigh hi hne => ?_
        have hlack := hok.direct i hlow (by omega) hi hne
        rwa [if_neg (by omega), Nat.add_zero] at hlack
      rw [if_pos hsmall, ensures_bind]
      refine (ensures_assert (decide_eq_true hfirst)).mpr ?_
      refine ensures_mono (ensures_allocBlocks h.blocks hok') fun r k' hall => ?_
      rw [hlast] at hall
      exact .of_direct h hpos hlt hsmall hall
    · have hbig : directPtrs < will := by omega
      rw [if_neg hsmall]
      by_cases hold : has ≤ directPtrs
      · have hneed : blocksTaken has will = will - has + 1 := by rw [blocksTaken, if_pos ⟨hold, hbig⟩]
        rw [if_pos hold, ensures_bind]
        refine ensures_blockBitmapAlloc (fun hnone => ?_) fun table hfree _ => ?_
        · refine ⟨h, rfl, (fun ab hab => by cases hab), (fun ab hab => by cases hab), fun _ hmore => ?_⟩
          rw [hneed] at hmore
          obtain ⟨lba, hlba⟩ := hmore.exists (Nat.succ_pos _)
          exact hnone lba hlba
        · dsimp only
          by_cases hzero : (k.inodes a).iSectors directPtrs = 0
          · have htaken : (k.part.mark table true).Taken table := hfree.take (h.blocks.onDisk table hfree)
            rw [ensures_bind]
            refine (ensures_assert (decide_eq_true hzero)).mpr ?_
            rw [ensures_bind, modifyInode, ensures_modify, ensures_bind]
            set k₁ : Kernel := ({ k with part := k.part.mark table true } : Kernel).setInode a
              ((k.inodes a).setSector directPtrs table) with hk₁
            obtain ⟨hblocks, hgrow, hptr, hsame⟩ := h.blocks.newTable hfree hzero hk₁
            have hok' : e.stops ∨ ∀ i, has ≤ i → i < has + (will - has) → i < directPtrs →
                (k₁.inodes a).iSectors i ≠ 0 → ¬ k₁.part.HasFree (i - has + 1) := by
              refine hok.imp_right fun hok i hlow hhigh hi hne hmore => ?_
              have hlack := hok.direct i hlow (by omega) hi (by rwa [hsame i hi] at hne)
              rw [if_pos hbig] at hlack
              exact hlack ((Partition.hasFree_mark hfree).mp hmore)
            refine ensures_mono (ensures_allocBlocks hblocks hok') fun r k' hall => ?_
            rw [hlast] at hall
            cases r with
            | none =>
                have hgrows := hgrow.trans hall.gains
                refine ⟨hgrows.hasBlocks h hall.blocks, hgrows.size, (fun ab hab => by cases hab),
                  (fun ab hab => by cases hab), fun _ hmore => ?_⟩
                rw [hneed] at hmore
                exact hall.full rfl ((Partition.hasFree_mark hfree).mpr hmore)
            | some ab =>
                have hne : (k₁.inodes a).iSectors directPtrs ≠ 0 := by
                  rw [hptr]
                  exact (h.blocks.layout.mark table true).taken_ne_zero htaken
                have hwrite := Built.of_newTable h hpos hlt hold hwill hgrow hne hall
                rw [hall.table, hptr] at hwrite
                dsimp only
                rw [ensures_bind, ensures_ideWrite_one htaken.last, ensures_pure]
                exact hwrite
          · -- a table that an earlier call left behind
            rcases hok with hstops | hok
            · rw [decide_eq_false hzero]
              exact hstops
            · exact absurd (Partition.hasFree_of_one hfree) (hok.table hold hbig hzero)
      · have htable := h.covers.table (by omega)
        have hhold := h.blocks.taken directPtrs le_rfl htable
        have hok' : e.stops ∨ ∀ i, has ≤ i → i < has + (will - has) → i < directPtrs →
            (k.inodes a).iSectors i ≠ 0 → ¬ k.part.HasFree (i - has + 1) :=
          hok.imp_right fun _ i hlow _ hi => absurd hi (by omega)
        rw [if_neg hold, ensures_bind]
        refine (ensures_assert (decide_eq_true htable)).mpr ?_
        rw [ensures_bind, ensures_ideRead_one hhold.last, ensures_bind]
        refine ensures_mono (ensures_allocBlocks h.blocks hok') fun r k' hall => ?_
        rw [hlast] at hall
        cases r with
        | none =>
            refine ⟨hall.gains.hasBlocks h hall.blocks, hall.gains.size, (fun ab hab => by cases hab),
              (fun ab hab => by cases hab), fun _ => ?_⟩
            rw [blocksTaken, if_neg (by omega), Nat.add_zero]
            exact hall.full rfl
        | some ab =>
            have hwrite := Built.of_indirect h hpos hlt (by omega) hwill hall
            rw [hall.table] at hwrite
            dsimp only
            rw [ensures_bind, ensures_ideWrite_one hhold.last, ensures_pure]
            exact hwrite

end BochsOs
