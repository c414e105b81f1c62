import BochsOs.Fs.FileRead
import BochsOs.Fs.IoBuf

/-!
# What writing a file does

A file that `file_write` works on is empty and has no block, or has the blocks for its size
(`InOrder`).  A call appends to such a file: the bytes are there behind the old ones, the blocks of
the file are different blocks, and the blocks in use of other files stay as they are (`Appends`).
A call that fails appends nothing, also where it gave up in the middle.

`writeData` is `file_write` without its first and its last step, so that what is said about it
holds whether or not the inode lies in one sector, as `file_write` expects.
-/

namespace BochsOs

open ByteMemory Suspend Suspend.Prog

/-- The part of `file_write` that makes the block map and writes the bytes. -/
def writeBlocks (t : Transfer) (fd a size : ℕ) (buf : Bytes) (count : ℕ) : Prog Kernel Bool := do
  let has := size / sectorSize + 1
  let will := (size + count) % 2 ^ 32 / sectorSize + 1
  assert (will ≤ flattenPtrs)
  match ← buildBlocks t a has will with
  | none => return false
  | some allBlocks =>
      modify fun k => k.setFile fd { k.fileTable fd with fdPos := subU32 size 1 }
      writeLoop t fd a allBlocks buf count count 0 true
      return true

/-- `file_write` from the allocation of its buffers on, up to the last `inode_sync`; `false` is
one of the early `return -1`. -/
def writeData (t : Transfer) (fd a size : ℕ) (buf : Bytes) (count : ℕ) : Prog Kernel Bool := do
  let ok ← sysMalloc
  if !ok then return false
  else
  let ok ← sysMalloc
  if !ok then return false
  else
  if !(← allocFirst t a) then return false
  else writeBlocks t fd a size buf count

/-- The end of `file_write`. -/
def writeFinish (t : Transfer) (a count : ℕ) (ok : Bool) : Prog Kernel ℤ :=
  if ok then do
    let k ← read
    inodeSync t (k.inodes a) 1
    return count
  else return -1

theorem ite_not_bind {α β : Type} (ok : Bool) (r : α) (x : Prog Kernel α) (f : α → Prog Kernel β) :
    ((if !ok then return r else x) >>= f) = if !ok then f r else x >>= f := by
  cases ok <;> rfl

/-- What `file_write` does in a state in which the entry has an inode. -/
theorem fileWrite_from {t : Transfer} {fd a : ℕ} {buf : Bytes} {count : ℕ} {k : Kernel}
    (hinode : (k.fileTable fd).fdInode = some a) :
    ∃ g : Kernel → Prog Kernel ℤ, fileWrite t fd buf count = .get g ∧
      g k = if maxFileSize < ((k.inodes a).iSize + count) % 2 ^ 32 then return -1
        else writeData t fd a (k.inodes a).iSize buf count >>= writeFinish t a count := by
  refine ⟨_, rfl, ?_⟩
  simp only [Prog.bind]
  rw [hinode]
  change (if _ then _ else _ : Prog Kernel ℤ) = _
  refine if_congr Iff.rfl rfl ?_
  rw [writeData, bind_assoc]
  refine congrArg (Prog.bind sysMalloc) (funext fun ok => ?_)
  rw [ite_not_bind]
  refine if_congr Iff.rfl rfl ?_
  rw [bind_assoc]
  refine congrArg (Prog.bind sysMalloc) (funext fun ok => ?_)
  rw [ite_not_bind]
  refine if_congr Iff.rfl rfl ?_
  rw [bind_assoc]
  refine congrArg (Prog.bind (allocFirst t a)) (funext fun ok => ?_)
  rw [ite_not_bind]
  refine if_congr Iff.rfl rfl ?_
  rw [writeBlocks, bind_assoc]
  refine congrArg (Prog.bind (Prog.assert _)) (funext fun _ => ?_)
  rw [bind_assoc]
  refine congrArg (Prog.bind (buildBlocks t a _ _)) (funext fun all => ?_)
  rcases all with _ | allBlocks
  · rfl
  · dsimp only
    rw [bind_assoc]
    refine congrArg (Prog.bind (Prog.modify _)) (funext fun _ => ?_)
    rw [bind_assoc]
    rfl

/-! ## A file in order -/

/-- The file of the inode at `a` as `file_write` keeps it: it has the blocks for its size, or it is
empty and has none. -/
structure Kernel.InOrder (k : Kernel) (a : ℕ) : Prop where
  small : (k.inodes a).iSize < maxFileSize
  blocks : FileBlocks k.part (k.inodes a).iSectors
  covers : (k.inodes a).iSectors 0 ≠ 0 →
    Covers k.disk k.part (k.inodes a).iSectors ((k.inodes a).iSize / sectorSize + 1)
  empty : (k.inodes a).iSectors 0 = 0 → (k.inodes a).iSize = 0

/-- The number of blocks that a file lacks before it can be written. -/
def Kernel.startBlocks (k : Kernel) (a : ℕ) : ℕ := if (k.inodes a).iSectors 0 = 0 then 1 else 0

/-- What the first allocation leaves. -/
structure Started (a : ℕ) (k : Kernel) (ok : Bool) (k' : Kernel) : Prop where
  gains : Gains a k k'
  others : ∀ i, i ≠ 0 → (k'.inodes a).iSectors i = (k.inodes a).iSectors i
  blocks : ok = true → k'.HasBlocks a ((k.inodes a).iSize / sectorSize + 1)
  fresh : ok = true → (k.inodes a).iSectors 0 = 0 → ¬ k.part.Taken ((k'.inodes a).iSectors 0)
  free : ok = true → ∀ n, k'.part.HasFree n ↔ k.part.HasFree (n + k.startBlocks a)
  none : ok = false → k' = k ∧ ¬ k.part.HasFree (k.startBlocks a)

/-- The first block of the file is there, or it is taken, or there is none to be had. -/
theorem ensures_allocFirst {t : Transfer} {e : Env} {a : ℕ} {k : Kernel} (h : k.InOrder a) :
    (allocFirst t a).ensures e (Started a k) k := by
  rw [allocFirst, ensures_bind, ensures_read]
  dsimp only
  by_cases hzero : (k.inodes a).iSectors 0 = 0
  · have hstart : k.startBlocks a = 1 := if_pos hzero
    rw [if_pos hzero, ensures_bind]
    refine ensures_blockBitmapAlloc (fun hnone => ?_) fun lba hfree _ => ?_
    · refine ⟨.refl a k, fun _ _ => rfl, (fun hok => by cases hok), (fun hok => by cases hok),
        (fun hok => by cases hok), fun _ => ⟨rfl, fun hmore => ?_⟩⟩
      obtain ⟨lba, hlba⟩ := hmore.exists (by omega)
      exact hnone lba hlba
    · have hne : lba ≠ k.part.sb.dataStartLba := fun heq => h.blocks.root (heq ▸ hfree)
      have hidx : subU32 lba k.part.sb.dataStartLba ≠ 0 := by
        have hlow := hfree.low
        rw [subU32_of_le hlow]
        omega
      have hlast : 0 < directPtrs := by decide
      dsimp only
      rw [ensures_bind, modifyInode, ensures_modify, ensures_bind]
      refine (ensures_assert (decide_eq_true hidx)).mpr ?_
      rw [ensures_bind]
      refine ensures_bitmapSync (h.blocks.layout.mark lba true) (hfree.self true) fun disk hdisk => ?_
      rw [ensures_pure]
      obtain ⟨hblocks, hgains⟩ := h.blocks.take (i := 0) hfree (fun _ => hzero) hdisk
      have hk : k.takeBlock a 0 lba disk = { ({ k with part := k.part.mark lba true } :
          Kernel).setInode a ((k.inodes a).setSector 0 lba) with disk := disk } := by
        unfold Kernel.takeBlock
        rw [if_pos hlast]
        rfl
      have hptr : ((k.takeBlock a 0 lba disk).inodes a).iSectors 0 = lba :=
        Kernel.takeBlock_iSectors hlast
      have hpos : lba ≠ 0 := (h.blocks.layout.mark lba true).taken_ne_zero
        (hfree.take (h.blocks.onDisk lba hfree))
      change Started a k true _
      change Started a k true { ({ k with part := k.part.mark lba true } :
        Kernel).setInode a ((k.inodes a).setSector 0 lba) with disk := disk }
      rw [← hk]
      refine ⟨hgains, fun i hi => Kernel.takeBlock_iSectors_of_ne fun heq => absurd heq hi, fun _ =>
        ⟨hblocks, ?_⟩, fun _ _ hold => ?_, fun _ n => ?_, fun hok => by cases hok⟩
      · rw [h.empty hzero]
        refine ⟨fun i hi _ => ?_, fun hn => absurd hn (by decide), fun i hi hlow => ?_⟩
        · rw [show i = 0 by simpa using hi, hptr]
          exact hpos
        · exact absurd (hlow.trans_lt hi) (by decide)
      · rw [hptr] at hold
        exact hold.ne hfree rfl
      · rw [hstart]
        exact Partition.hasFree_mark hfree
  · have hstart : k.startBlocks a = 0 := if_neg hzero
    rw [if_neg hzero, ensures_pure]
    refine ⟨.refl a k, fun _ _ => rfl, fun _ => ⟨h.blocks, h.covers hzero⟩,
      fun _ hfirst => absurd hfirst hzero, fun _ n => ?_, fun hok => by cases hok⟩
    rw [hstart, Nat.add_zero]

/-! ## Different blocks -/

/-- The blocks in the places from `first` to `last` were free, and they are different blocks. -/
structure Fresh (part : Partition) (first last : ℕ) (new : ℕ → ℕ) : Prop where
  free : ∀ i, first ≤ i → i < last → part.Marked false (new i)
  apart : ∀ i j, first ≤ i → i < j → j < last → new i ≠ new j

theorem Fresh.congr {part : Partition} {first last : ℕ} {new new' : ℕ → ℕ} (h : Fresh part first last new)
    (heq : ∀ i, first ≤ i → i < last → new' i = new i) : Fresh part first last new' where
  free i hfirst hlast := by
    rw [heq i hfirst hlast]
    exact h.free i hfirst hlast
  apart i j hfirst hij hlast := by
    rw [heq i hfirst (hij.trans hlast), heq j (by omega) hlast]
    exact h.apart i j hfirst hij hlast

/-- What was free before a block was taken. -/
theorem Fresh.of_mark {part : Partition} {lba first last : ℕ} {new : ℕ → ℕ} (hlba : part.Marked false lba)
    (h : Fresh (part.mark lba true) first last new) :
    Fresh part first last new ∧ ∀ i, first ≤ i → i < last → new i ≠ lba := by
  have hne : ∀ i, first ≤ i → i < last → new i ≠ lba := fun i hfirst hlast heq => by
    have hbit := (h.free i hfirst hlast).bit
    rw [heq, (hlba.self true).bit] at hbit
    cases hbit
  exact ⟨⟨fun i hfirst hlast => (h.free i hfirst hlast).of_mark hlba.low (hne i hfirst hlast), h.apart⟩,
    hne⟩

/-- `block_bitmap_alloc` takes a free block if there is one. -/
theorem wp_blockBitmapAlloc {k : Kernel} {Q : Option ℕ → Kernel → Prop}
    (hnone : (∀ lba, ¬ k.part.Marked false lba) → Q none k)
    (hsome : ∀ lba, k.part.Marked false lba → Q (some lba) { k with part := k.part.mark lba true }) :
    blockBitmapAlloc.wp Q k :=
  wp_of_ensures (ensures_blockBitmapAlloc hnone fun lba hfree _ => hsome lba hfree)

/-- The loop takes free blocks, each of them once. -/
theorem wp_allocBlocks_fresh {t : Transfer} {a left blkI : ℕ} {allBlocks : ℕ → ℕ} {k : Kernel} :
    (allocBlocks t a left blkI allBlocks).wp (fun r _ => ∀ new ∈ r,
      Fresh k.part blkI (blkI + left) new ∧ ∀ i < blkI, new i = allBlocks i) k := by
  induction left generalizing blkI allBlocks k with
  | zero =>
      intro new hnew
      obtain rfl := Option.mem_some_iff.mp hnew
      exact ⟨⟨fun i hlow hhigh => absurd hhigh (by omega), fun i j hlow hij hhigh => absurd hhigh (by omega)⟩,
        fun _ _ => rfl⟩
  | succ left ih =>
      rw [allocBlocks, wp_bind]
      refine wp_blockBitmapAlloc (fun _ => ?_) fun lba hfree => ?_
      · exact fun new hnew => by cases hnew
      · -- what is left once the block is marked
        have hrest : ∀ k₁ : Kernel, k₁.part = k.part.mark lba true →
            (allocBlocks t a left (blkI + 1) (Function.update allBlocks blkI lba)).wp (fun r _ =>
              ∀ new ∈ r, Fresh k.part blkI (blkI + (left + 1)) new ∧ ∀ i < blkI, new i = allBlocks i) k₁ := by
          intro k₁ hk₁
          refine wp_mono ih fun r _ hr new hnew => ?_
          obtain ⟨hfresh, hsame⟩ := hr new hnew
          rw [hk₁] at hfresh
          obtain ⟨hfresh, hne⟩ := hfresh.of_mark hfree
          have hself : new blkI = lba := by rw [hsame blkI (Nat.lt_succ_self _), Function.update_self]
          refine ⟨⟨fun i hlow hhigh => ?_, fun i j hlow hij hhigh => ?_⟩, fun i hi => ?_⟩
          · by_cases hi : i = blkI
            · rwa [hi, hself]
            · exact hfresh.free i (by omega) (by omega)
          · by_cases hi : i = blkI
            · rw [hi, hself]
              exact (hne j (by omega) (by omega)).symm
            · exact hfresh.apart i j (by omega) hij (by omega)
          · rw [hsame i (by omega), Function.update_of_ne hi.ne]
        dsimp only
        rw [wp_bind, wp_read]
        split
        · simp only [wp_bind, wp_assert, modifyInode, wp_modify, bitmapSync, wp_read, wp_ideWrite_one]
          exact fun _ _ => hrest _ rfl
        · simp only [wp_bind, bitmapSync, wp_read, wp_ideWrite_one]
          exact fun _ => hrest _ rfl

/-! ## The block map and the blocks of the file -/

/-- Block `i` of the file at `a`. -/
def Kernel.blockOf (k : Kernel) (a i : ℕ) : ℕ := blockAt k.disk (k.inodes a).iSectors i

theorem Kernel.blockOf_direct {k : Kernel} {a i : ℕ} (hi : i < directPtrs) :
    k.blockOf a i = (k.inodes a).iSectors i := if_pos hi

theorem Kernel.blockOf_indirect {k : Kernel} {a i : ℕ} (hi : directPtrs ≤ i) :
    k.blockOf a i = tableEntry k.disk ((k.inodes a).iSectors directPtrs) i :=
  if_neg (Nat.not_lt.mpr hi)

/-- A block of a file in order is in use, and it is not the indirect table. -/
theorem Kernel.HasBlocks.blockOf {k : Kernel} {a n i : ℕ} (h : k.HasBlocks a n) (hi : i < n) :
    k.part.Taken (k.blockOf a i) ∧ k.blockOf a i ≠ (k.inodes a).iSectors directPtrs := by
  by_cases hlow : i < directPtrs
  · rw [Kernel.blockOf_direct hlow]
    have hne := h.covers.direct i hi hlow
    exact ⟨h.blocks.taken i hlow.le hne, h.blocks.apart i hlow hne⟩
  · rw [Kernel.blockOf_indirect (Nat.not_lt.mp hlow)]
    exact h.covers.indirect i hi (Nat.not_lt.mp hlow)

/-- Blocks that are there stay where they are. -/
theorem Gains.blockOf {a n i : ℕ} {k k' : Kernel} (hg : Gains a k k') (h : k.HasBlocks a n) (hi : i < n) :
    k'.blockOf a i = k.blockOf a i := by
  by_cases hlow : i < directPtrs
  · rw [Kernel.blockOf_direct hlow, Kernel.blockOf_direct hlow, hg.kept i (h.covers.direct i hi hlow)]
  · have hge : directPtrs ≤ i := Nat.not_lt.mp hlow
    have htable := h.covers.table (hge.trans_lt hi)
    rw [Kernel.blockOf_indirect hge, Kernel.blockOf_indirect hge, hg.kept directPtrs htable]
    unfold tableEntry
    rw [hg.disk _ (h.blocks.taken directPtrs le_rfl htable).low]

/-- What comes of building the block map, beside what `Built` says: the map holds the blocks of the
file, and the new ones among them were free. -/
structure Mapped (a : ℕ) (k : Kernel) (has will : ℕ) (r : Option (ℕ → ℕ)) (k' : Kernel) : Prop where
  sb : k'.part.sb = k.part.sb
  taken : ∀ l, k.part.Taken l → k'.part.Taken l
  old : ∀ i < has, k'.blockOf a i = k.blockOf a i
  table : (k'.inodes a).iSectors directPtrs = (k.inodes a).iSectors directPtrs ∨
    k.part.Marked false ((k'.inodes a).iSectors directPtrs)
  disk : ∀ l, k.part.sb.dataStartLba ≤ l → l ≠ (k'.inodes a).iSectors directPtrs →
    sectorOf k'.disk l = sectorOf k.disk l
  map : ∀ allBlocks ∈ r, ∀ i, has - 1 ≤ i → i < will → allBlocks i = k'.blockOf a i
  fresh : ∀ allBlocks ∈ r, Fresh k.part has will (k'.blockOf a)

section Mapped

variable {t : Transfer} {a has will : ℕ} {k k₁ k' : Kernel} (h : k.HasBlocks a has) (hpos : 0 < has)

include h

/-- The pointers of the inode, with new ones among the direct ones. -/
theorem Mapped.of_gains {r : Option (ℕ → ℕ)} (hg : Gains a k k')
    (htable : (k'.inodes a).iSectors directPtrs = (k.inodes a).iSectors directPtrs ∨
      k.part.Marked false ((k'.inodes a).iSectors directPtrs))
    (hmap : ∀ allBlocks ∈ r, ∀ i, has - 1 ≤ i → i < will → allBlocks i = k'.blockOf a i)
    (hfresh : ∀ allBlocks ∈ r, Fresh k.part has will allBlocks) : Mapped a k has will r k' where
  sb := hg.sb
  taken := hg.taken
  old i hi := hg.blockOf h hi
  table := htable
  disk l hl _ := hg.disk l hl
  map := hmap
  fresh ab hab := (hfresh ab hab).congr fun i hlow hhigh => (hmap ab hab i (by omega) hhigh).symm

/-- The map that is read when no block is to be taken. -/
theorem Mapped.same {allBlocks : ℕ → ℕ} (hmap : allBlocks (has - 1) = k.blockOf a (has - 1)) :
    Mapped a k has has (some allBlocks) k := by
  refine .of_gains h (.refl a k) (Or.inl rfl) (fun ab hab i hlow hhigh => ?_) fun ab hab =>
    ⟨fun i hlow hhigh => absurd hhigh (by omega), fun i j hlow hij hhigh => absurd hhigh (by omega)⟩
  obtain rfl := Option.mem_some_iff.mp hab
  rwa [show i = has - 1 by omega]

include hpos

/-- New direct blocks only. -/
theorem Mapped.of_direct {r : Option (ℕ → ℕ)} (hsmall : will ≤ directPtrs)
    (hall : Allocated a k has will (directPart (k.inodes a).iSectors (has - 1) (has - 1)) r k')
    (hfresh : ∀ new ∈ r, Fresh k.part has will new) : Mapped a k has will r k' := by
  refine .of_gains h hall.gains (Or.inl hall.table) (fun ab hab i hlow hhigh => ?_) hfresh
  have hnew := hall.new ab hab
  have hi : i < directPtrs := by omega
  rw [Kernel.blockOf_direct hi]
  by_cases hge : has ≤ i
  · exact (hnew.direct i hge hhigh hi).symm
  · obtain rfl : i = has - 1 := by omega
    rw [hall.gains.kept (has - 1) (h.covers.direct (has - 1) (by omega) hi),
      hnew.same (has - 1) (Or.inl (by omega))]
    exact if_pos ⟨le_rfl, le_rfl⟩

omit hpos

/-- A map whose indirect part is written to the indirect table. -/
theorem Mapped.of_table {allBlocks : ℕ → ℕ} {k₂ : Kernel} (hwill : will ≤ flattenPtrs)
    (hg : Gains a k k')
    (htable : (k'.inodes a).iSectors directPtrs = (k.inodes a).iSectors directPtrs ∨
      k.part.Marked false ((k'.inodes a).iSectors directPtrs))
    (hdirect : ∀ i, has - 1 ≤ i → i < will → i < directPtrs → allBlocks i = (k'.inodes a).iSectors i)
    (hindirect : ∀ i < has, directPtrs ≤ i → allBlocks i = k.blockOf a i)
    (hlast : ∀ i, directPtrs ≤ i → i < will → allBlocks i ≤ maxLba) (hle : has ≤ will)
    (hfresh : Fresh k.part has will allBlocks)
    (hk₂ : k₂ = { k' with
      disk := copy k'.disk (sectorSize * (k'.inodes a).iSectors directPtrs) (indirectImage allBlocks) 0
        sectorSize }) :
    Mapped a k has will (some allBlocks) k₂ := by
  have hentry (i : ℕ) (hlow : directPtrs ≤ i) (hhigh : i < will) : k₂.blockOf a i = allBlocks i := by
    rw [hk₂, Kernel.blockOf_indirect hlow]
    exact tableEntry_copy hlow (by omega) (hlast i hlow hhigh)
  have hptr (i : ℕ) (hlow : i < directPtrs) : k₂.blockOf a i = (k'.inodes a).iSectors i := by
    rw [hk₂, Kernel.blockOf_direct hlow]
  have hmap (i : ℕ) (hlow : has - 1 ≤ i) (hhigh : i < will) : allBlocks i = k₂.blockOf a i := by
    by_cases hi : i < directPtrs
    · rw [hptr i hi, hdirect i hlow hhigh hi]
    · exact (hentry i (Nat.not_lt.mp hi) hhigh).symm
  refine ⟨?_, ?_, fun i hi => ?_, ?_, fun l hl hne => ?_, fun ab hab i hlow hhigh => ?_, fun ab hab => ?_⟩
  · rw [hk₂]
    exact hg.sb
  · rw [hk₂]
    exact hg.taken
  · by_cases hlow : i < directPtrs
    · rw [hptr i hlow, Kernel.blockOf_direct hlow, hg.kept i (h.covers.direct i hi hlow)]
    · rw [hentry i (Nat.not_lt.mp hlow) (by omega), hindirect i hi (Nat.not_lt.mp hlow)]
  · rw [hk₂]
    exact htable
  · rw [hk₂] at hne ⊢
    have hother : l ≠ (k'.inodes a).iSectors directPtrs := hne
    change sectorOf (copy k'.disk (sectorSize * (k'.inodes a).iSectors directPtrs)
      (indirectImage allBlocks) 0 sectorSize) l = _
    rw [sectorOf_copy_other hother, hg.disk l hl]
  · obtain rfl := Option.mem_some_iff.mp hab
    exact hmap i hlow hhigh
  · exact hfresh.congr fun i hlow hhigh => (hmap i (by omega) hhigh).symm

end Mapped

/-- The blocks that a loop takes, and that they were free. -/
theorem wp_allocBlocks {t : Transfer} {a left blkI : ℕ} {allBlocks : ℕ → ℕ} {k : Kernel}
    (h : FileBlocks k.part (k.inodes a).iSectors) :
    (allocBlocks t a left blkI allBlocks).wp (fun r k' =>
      Allocated a k blkI (blkI + left) allBlocks r k' ∧
        ∀ new ∈ r, Fresh k.part blkI (blkI + left) new) k := by
  have hall : (allocBlocks t a left blkI allBlocks).wp
      (Allocated a k blkI (blkI + left) allBlocks) k :=
    wp_of_ensures (ensures_allocBlocks h (Or.inl trivial))
  refine wp_mono (wp_and hall wp_allocBlocks_fresh) fun r k' hr => ⟨hr.1, fun new hnew => ?_⟩
  exact (hr.2 new hnew).1

/-- The block map holds the blocks of the file, and the new ones were free. -/
theorem wp_buildBlocks {t : Transfer} {a has will : ℕ} {k : Kernel} (h : k.HasBlocks a has)
    (hpos : 0 < has) (hle : has ≤ will) (hwill : will ≤ flattenPtrs) :
    (buildBlocks t a has will).wp (Mapped a k has will) k := by
  rw [buildBlocks, wp_bind, wp_read]
  dsimp only
  by_cases hadd : subU32 will has = 0
  · have hsame : will = has := by
      rw [subU32_of_le hle] at hadd
      omega
    subst hsame
    rw [if_pos hadd]
    split
    · refine .same h ?_
      rw [Kernel.blockOf_direct (by omega)]
      exact if_pos ⟨le_rfl, le_rfl⟩
    · simp only [wp_bind, wp_assert, wp_ideRead_one, wp_pure]
      refine fun _ _ => .same h ?_
      exact withIndirect_table (by omega) (by omega)
  · have hlast : has + (will - has) = will := by omega
    rw [if_neg hadd]
    by_cases hsmall : will ≤ directPtrs
    · rw [if_pos hsmall, wp_bind, wp_assert]
      refine fun _ => wp_mono (wp_allocBlocks h.blocks) ?_
      rintro r k' ⟨hall, hfresh⟩
      rw [hlast] at hall hfresh
      exact .of_direct h hpos hsmall hall hfresh
    · rw [if_neg hsmall]
      by_cases hold : has ≤ directPtrs
      · rw [if_pos hold, wp_bind]
        refine wp_blockBitmapAlloc (fun _ => ?_) fun table hfree => ?_
        · exact .of_gains h (.refl a k) (Or.inl rfl) (fun ab hab => by cases hab) fun ab hab => by
            cases hab
        · dsimp only
          rw [wp_bind, wp_assert]
          intro hzero
          rw [wp_bind, modifyInode, wp_modify, wp_bind]
          set k₁ : Kernel := ({ k with part := k.part.mark table true } : Kernel).setInode a
            ((k.inodes a).setSector directPtrs table) with hk₁
          obtain ⟨hblocks, hgrow, hptr, -⟩ := h.blocks.newTable hfree (of_decide_eq_true hzero) hk₁
          refine wp_mono (wp_allocBlocks hblocks) ?_
          rintro r k' ⟨hall, hfresh⟩
          rw [hlast] at hall hfresh
          have htable : (k'.inodes a).iSectors directPtrs = table := hall.table.trans hptr
          have hnew : ∀ new ∈ r, Fresh k.part has will new := fun new hr =>
            (Fresh.of_mark hfree (hfresh new hr)).1
          cases r with
          | none =>
              exact .of_gains h (hgrow.trans hall.gains) (Or.inr (htable ▸ hfree))
                (fun ab hab => by cases hab) fun ab hab => by cases hab
          | some ab =>
              have hin := hall.new ab rfl
              simp only [wp_bind, wp_ideWrite_one, wp_pure]
              intro _
              refine .of_table h hwill (hgrow.trans hall.gains) (Or.inr (htable ▸ hfree))
                (fun i hlow hhigh hi => ?_) (fun i hi hlow => absurd hi (by omega))
                (fun i hlow hhigh => ?_) hle (hnew ab rfl) (by rw [htable])
              · by_cases hge : has ≤ i
                · exact (hin.direct i hge hhigh hi).symm
                · obtain rfl : i = has - 1 := by omega
                  rw [(hgrow.trans hall.gains).kept (has - 1) (h.covers.direct (has - 1) (by omega) hi),
                    hin.same (has - 1) (Or.inl (by omega))]
                  exact if_pos ⟨le_rfl, le_rfl⟩
              · exact (hin.taken i (by omega) hhigh).last
      · rw [if_neg hold, wp_bind, wp_assert]
        intro _
        rw [wp_bind, wp_ideRead_one]
        intro _
        rw [wp_bind]
        refine wp_mono (wp_allocBlocks h.blocks) ?_
        rintro r k' ⟨hall, hfresh⟩
        rw [hlast] at hall hfresh
        cases r with
        | none =>
            exact .of_gains h hall.gains (Or.inl hall.table) (fun ab hab => by cases hab) fun ab hab => by
              cases hab
        | some ab =>
            have hin := hall.new ab rfl
            have hread (i : ℕ) (hi : i < has) (hlow : directPtrs ≤ i) : ab i = k.blockOf a i := by
              rw [hin.same i (Or.inl hi)]
              exact withIndirect_table hlow (by omega)
            simp only [wp_bind, wp_ideWrite_one, wp_pure]
            intro _
            refine .of_table h hwill hall.gains (Or.inl hall.table)
              (fun i hlow _ hi => absurd hi (by omega)) hread (fun i hlow hhigh => ?_) hle (hfresh ab rfl)
              (by rw [hall.table])
            by_cases hge : has ≤ i
            · exact (hin.taken i hge hhigh).last
            · rw [hread i (by omega) hlow]
              exact (h.blockOf (by omega)).1.last

/-! ## The rest of the system -/

/-- No inode but the one at `a` changes, which keeps its number, and the files that are open stay
open. -/
structure OnlyFile (a : ℕ) (k k' : Kernel) : Prop where
  others : ∀ b, b ≠ a → k'.inodes b = k.inodes b
  iNo : (k'.inodes a).iNo = (k.inodes a).iNo
  fdInode : ∀ g, (k'.fileTable g).fdInode = (k.fileTable g).fdInode

theorem OnlyFile.setInode (k : Kernel) (a : ℕ) {inode : Inode} (h : inode.iNo = (k.inodes a).iNo) :
    OnlyFile a k (k.setInode a inode) where
  others _ hb := Function.update_of_ne hb _ _
  iNo := by
    rw [Kernel.setInode_self]
    exact h
  fdInode _ := rfl

instance (a : ℕ) : WriteFrame a (OnlyFile a) where
  refl _ := ⟨fun _ _ => rfl, rfl, fun _ => rfl⟩
  trans _ _ _ h h' := ⟨fun b hb => (h'.others b hb).trans (h.others b hb), h'.iNo.trans h.iNo,
    fun g => (h'.fdInode g).trans (h.fdInode g)⟩
  disk _ _ := ⟨fun _ _ => rfl, rfl, fun _ => rfl⟩
  blockBitmap _ _ := ⟨fun _ _ => rfl, rfl, fun _ => rfl⟩
  sector k _ _ := .setInode k a rfl
  grow k _ := .setInode k a rfl
  pos k g pos := by
    refine ⟨fun _ _ => rfl, rfl, fun g' => ?_⟩
    change (Function.update k.fileTable g _ g').fdInode = _
    by_cases hg : g' = g
    · rw [hg, Function.update_self]
    · rw [Function.update_of_ne hg]

/-! ## The bytes -/

/-- The bytes from `written` to `written + n` of `src` are put behind the file at `a`, which has `size`
bytes, in the blocks of the map. -/
structure Put (a : ℕ) (allBlocks : ℕ → ℕ) (src : Bytes) (size written n : ℕ) (k k' : Kernel) : Prop where
  part : k'.part = k.part
  iSectors : (k'.inodes a).iSectors = (k.inodes a).iSectors
  iSize : (k'.inodes a).iSize = size + n
  disk : ∀ l, (∀ i, size / sectorSize ≤ i → sectorSize * i < size + n → l ≠ allBlocks i) →
    sectorOf k'.disk l = sectorOf k.disk l
  data : (∀ i j, size / sectorSize ≤ i → i < j → sectorSize * j < size + n → allBlocks i ≠ allBlocks j) →
    ∀ p, sectorSize * (size / sectorSize) ≤ p → p < size + n →
      k'.disk (sectorSize * allBlocks (p / sectorSize) + p % sectorSize) =
        if p < size then k.disk (sectorSize * allBlocks (p / sectorSize) + p % sectorSize)
        else src (written + (p - size))

theorem Put.refl {a size : ℕ} {allBlocks : ℕ → ℕ} {src : Bytes} {written : ℕ} {k : Kernel}
    (hsize : (k.inodes a).iSize = size) : Put a allBlocks src size written 0 k k where
  part := rfl
  iSectors := rfl
  iSize := hsize
  disk _ _ := rfl
  data _ _ _ hp := (if_pos hp).symm

/-- One sector, and what follows. -/
theorem Put.cons {a size written n chunk : ℕ} {allBlocks : ℕ → ℕ} {src ioBuf : Bytes} {k k₁ k' : Kernel}
    (hn : 0 < n) (hchunk : chunk = min n (sectorSize - size % sectorSize))
    (hbuf : ∀ o < size % sectorSize, ioBuf o = k.disk (sectorSize * allBlocks (size / sectorSize) + o))
    (hpart : k₁.part = k.part) (hptr : (k₁.inodes a).iSectors = (k.inodes a).iSectors)
    (hdisk : k₁.disk = copy k.disk (sectorSize * allBlocks (size / sectorSize))
      (copy ioBuf (size % sectorSize) src written chunk) 0 sectorSize)
    (hput : Put a allBlocks src (size + chunk) (written + chunk) (n - chunk) k₁ k') :
    Put a allBlocks src size written n k k' := by
  obtain ⟨hpart', hptr', hsize', hdisk', hdata'⟩ := hput
  -- the bytes of the first sector after its write
  have hfirst (o : ℕ) (ho : o < sectorSize) : k₁.disk (sectorSize * allBlocks (size / sectorSize) + o) =
      copy ioBuf (size % sectorSize) src written chunk o := by
    rw [hdisk, copy_add ho, Nat.zero_add]
  have hrest (l : ℕ) (hl : l ≠ allBlocks (size / sectorSize)) :
      sectorOf k₁.disk l = sectorOf k.disk l := by
    rw [hdisk]
    exact sectorOf_copy_other hl
  have hsame (o l : ℕ) (ho : o < sectorSize) (hl : sectorOf k'.disk l = sectorOf k₁.disk l) :
      k'.disk (sectorSize * l + o) = k₁.disk (sectorSize * l + o) := by
    have hbytes := congrFun hl o
    rwa [sectorOf_apply ho, sectorOf_apply ho] at hbytes
  clear hdisk
  refine ⟨hpart'.trans hpart, hptr'.trans hptr, by omega, fun l hl => ?_, fun hinj p hlow hhigh => ?_⟩
  all_goals unfold sectorSize at *
  · rw [hdisk' l fun i hi hlt => hl i (by omega) (by omega), hrest l (hl _ le_rfl (by omega))]
  · by_cases hp : p / 512 = size / 512
    · have ho : p % 512 < 512 := Nat.mod_lt _ (by decide)
      have hbyte : k'.disk (512 * allBlocks (p / 512) + p % 512) =
          copy ioBuf (size % 512) src written chunk (p % 512) := by
        rw [← hfirst _ ho, hp]
        by_cases hstay : (size + chunk) / 512 = size / 512
        · -- the last sector
          have hlast := hdata' (fun i j hi hij hlt => absurd hlt (by omega)) p (by omega) (by omega)
          rwa [hp, if_pos (by omega)] at hlast
        · exact hsame _ _ ho (hdisk' _ fun i hi hlt => hinj _ i le_rfl (by omega) (by omega))
      rw [hbyte]
      by_cases hold : p < size
      · rw [if_pos hold, copy_outside (by omega), hbuf _ (by omega), hp]
      · rw [if_neg hold, copy_inside (by omega) (by omega)]
        congr 1
        omega
    · have hnext := hdata' (fun i j hi hij hlt => hinj i j (by omega) hij (by omega)) p (by omega)
        (by omega)
      rw [if_neg (by omega)] at hnext
      rw [hnext, if_neg (by omega)]
      congr 1
      omega

section Loop

variable {t : Transfer} {fd a size count fuel written : ℕ} {allBlocks : ℕ → ℕ} {src : Bytes}
  {first : Bool} {k : Kernel}

/-- The state after one round of the loop. -/
def Kernel.putSector (k : Kernel) (fd a lba : ℕ) (buf : Bytes) (chunk : ℕ) : Kernel :=
  let k₁ := { k with disk := copy k.disk (sectorSize * lba) buf 0 sectorSize }
  let k₂ := k₁.setInode a ((k₁.inodes a).grow chunk)
  k₂.setFile fd { k₂.fileTable fd with fdPos := ((k₂.fileTable fd).fdPos + chunk) % 2 ^ 32 }

theorem Kernel.putSector_inode {lba chunk : ℕ} {buf : Bytes} :
    (k.putSector fd a lba buf chunk).inodes a = (k.inodes a).grow chunk := Function.update_self _ _ _

/-- The loop puts what is left of the bytes behind the file. -/
theorem ensures_writeLoop {e : Env} (hsize : (k.inodes a).iSize = size)
    (hend : size + (count - written) < maxFileSize) (hfuel : count ≤ written + fuel)
    (hfirst : written < count → first = true ∨ size % sectorSize = 0)
    (hlba : ∀ i, size / sectorSize ≤ i → sectorSize * i < size + (count - written) →
      allBlocks i ≤ maxLba) :
    (writeLoop t fd a allBlocks src count fuel written first).ensures e
      (fun _ k' => Put a allBlocks src size written (count - written) k k') k := by
  induction fuel generalizing written size first k with
  | zero =>
      rw [show count - written = 0 by omega]
      exact .refl hsize
  | succ fuel ih =>
      rw [writeLoop]
      by_cases hdone : count ≤ written
      · rw [if_pos hdone, show count - written = 0 by omega]
        exact .refl hsize
      · have hsec : ¬ flattenPtrs ≤ size / sectorSize := by
          unfold maxFileSize sectorSize flattenPtrs at *
          omega
        have hlow : allBlocks (size / sectorSize) ≤ maxLba :=
          hlba _ le_rfl (by unfold sectorSize; omega)
        rw [if_neg hdone, ensures_bind, ensures_read]
        dsimp only
        rw [hsize, if_neg hsec]
        -- what follows once the buffer holds the bytes before the end of the file
        have hrest (ioBuf : Bytes) (hbuf : ∀ o < size % sectorSize,
            ioBuf o = k.disk (sectorSize * allBlocks (size / sectorSize) + o)) :
            (do
              ideWrite t (allBlocks (size / sectorSize)) (copy ioBuf (size % sectorSize) src written
                (min (count - written) (sectorSize - size % sectorSize))) 1
              modifyInode a (·.grow (min (count - written) (sectorSize - size % sectorSize)))
              modify fun k => k.setFile fd { k.fileTable fd with
                fdPos := ((k.fileTable fd).fdPos +
                  min (count - written) (sectorSize - size % sectorSize)) % 2 ^ 32 }
              writeLoop t fd a allBlocks src count fuel
                (written + min (count - written) (sectorSize - size % sectorSize)) false :
              Prog Kernel Unit).ensures e
              (fun _ k' => Put a allBlocks src size written (count - written) k k') k := by
          generalize hchunk : min (count - written) (sectorSize - size % sectorSize) = chunk
          rw [ensures_bind, ensures_ideWrite_one hlow, ensures_bind, modifyInode, ensures_modify,
            ensures_bind, ensures_modify]
          change Prog.ensures e _ _ (k.putSector fd a (allBlocks (size / sectorSize))
            (copy ioBuf (size % sectorSize) src written chunk) chunk)
          have hinode : (k.putSector fd a (allBlocks (size / sectorSize))
              (copy ioBuf (size % sectorSize) src written chunk) chunk).inodes a =
              (k.inodes a).grow chunk := Kernel.putSector_inode
          have hnext : size / sectorSize ≤ (size + chunk) / sectorSize :=
            Nat.div_le_div_right (Nat.le_add_right _ _)
          refine ensures_mono (@ih (size + chunk) (written + chunk) false _ ?_ ?_ ?_ ?_ ?_) fun _ k' hput => ?_
          · rw [hinode, ← hsize]
            rfl
          · omega
          · unfold sectorSize at hchunk
            omega
          · refine fun hmore => Or.inr ?_
            unfold sectorSize at *
            omega
          · exact fun i hi hlt => hlba i (hnext.trans hi) (by omega)
          · rw [← Nat.sub_sub] at hput
            refine .cons (by omega) hchunk.symm hbuf ?_ ?_ ?_ hput
            · rfl
            · rw [hinode]
              rfl
            · rfl
        split
        · rw [ensures_bind, ensures_ideRead_one hlow]
          refine hrest _ fun o ho => sectorOf_apply (ho.trans (Nat.mod_lt _ (by decide)))
        next hno =>
          rw [ensures_bind, ensures_pure]
          refine hrest _ fun o ho => absurd ho ?_
          rw [(hfirst (by omega)).resolve_left hno]
          exact Nat.not_lt_zero o

/-- A loop that is to go on past the last pointer does not return. -/
theorem outcome_writeLoop_stuck (hsize : (k.inodes a).iSize = size) (hsmall : size ≤ maxFileSize)
    (hend : maxFileSize < size + (count - written)) (hfuel : count ≤ written + fuel) :
    ∃ e, (e = .halt ∨ e = .undefined) ∧
      (writeLoop t fd a allBlocks src count fuel written first).outcome k = .error e := by
  induction fuel generalizing written size first k with
  | zero => omega
  | succ fuel ih =>
      rw [writeLoop, if_neg (by omega), outcome_read_bind]
      dsimp only
      rw [hsize]
      by_cases hsec : flattenPtrs ≤ size / sectorSize
      · rw [if_pos hsec]
        exact ⟨.undefined, Or.inr rfl, rfl⟩
      · rw [if_neg hsec]
        by_cases hlba : allBlocks (size / sectorSize) ≤ maxLba
        · generalize hchunk : min (count - written) (sectorSize - size % sectorSize) = chunk
          have hrest (ioBuf : Bytes) : ∃ e, (e = .halt ∨ e = .undefined) ∧ (do
              ideWrite t (allBlocks (size / sectorSize)) (copy ioBuf (size % sectorSize) src written chunk) 1
              modifyInode a (·.grow chunk)
              modify fun k => k.setFile fd { k.fileTable fd with
                fdPos := ((k.fileTable fd).fdPos + chunk) % 2 ^ 32 }
              writeLoop t fd a allBlocks src count fuel (written + chunk) false :
              Prog Kernel Unit).outcome k = .error e := by
            rw [outcome_bind_ok (outcome_ideWrite_one hlba), modifyInode, outcome_bind_ok outcome_modify,
              outcome_bind_ok outcome_modify]
            refine @ih (size + chunk) (written + chunk) false (k.putSector fd a
              (allBlocks (size / sectorSize)) (copy ioBuf (size % sectorSize) src written chunk) chunk)
              ?_ ?_ ?_ ?_
            · rw [Kernel.putSector_inode, ← hsize]
              rfl
            · unfold maxFileSize sectorSize flattenPtrs at *
              omega
            · omega
            · unfold sectorSize at hchunk
              omega
          split
          · rw [outcome_bind_ok (outcome_ideRead_one hlba)]
            exact hrest _
          · exact hrest _
        · refine ⟨.halt, Or.inl rfl, ?_⟩
          split
          · exact outcome_bind_error (outcome_ideRead_none hlba)
          · rw [outcome_bind_ok outcome_pure]
            exact outcome_bind_error (outcome_ideWrite_none hlba)

end Loop

/-! ## Appending -/

/-- The number of blocks of the file at `a`. -/
def Kernel.blocksHeld (k : Kernel) (a : ℕ) : ℕ :=
  if (k.inodes a).iSectors 0 = 0 then 0 else (k.inodes a).iSize / sectorSize + 1

/-- The blocks of the file at `a` are different blocks. -/
def Kernel.Distinct (k : Kernel) (a : ℕ) : Prop :=
  ∀ i j, i < j → j < k.blocksHeld a → k.blockOf a i ≠ k.blockOf a j

/-- The block `l` belongs to the file at `a`. -/
def Kernel.Owns (k : Kernel) (a l : ℕ) : Prop :=
  (∃ i < k.blocksHeld a, l = k.blockOf a i) ∨ l = (k.inodes a).iSectors directPtrs

/-- From `k` to `k'` the first `n` bytes of `src` are appended to the file at `a`, and the blocks in
use of other files stay as they are. -/
structure Appends (a : ℕ) (src : Bytes) (n : ℕ) (k k' : Kernel) : Prop where
  order : k'.InOrder a
  size : (k'.fileOf a).size = (k.fileOf a).size + n
  distinct : k.Distinct a → k'.Distinct a
  data : k.Distinct a → ∀ p < (k.fileOf a).size + n, (k'.fileOf a).byte p =
    if p < (k.fileOf a).size then (k.fileOf a).byte p else src (p - (k.fileOf a).size)
  others : ∀ l, k.part.Taken l → ¬ k.Owns a l →
    sectorOf k'.disk l = sectorOf k.disk l ∧ k'.part.Taken l ∧ ¬ k'.Owns a l

theorem Appends.refl {a : ℕ} {k : Kernel} (h : k.InOrder a) (src : Bytes) : Appends a src 0 k k where
  order := h
  size := rfl
  distinct hd := hd
  data _ _ hp := (if_pos hp).symm
  others _ hl hno := ⟨rfl, hl, hno⟩

/-- Up to here a call has made sure that the file at `a` has `m` blocks. -/
structure Reserved (a : ℕ) (k : Kernel) (m : ℕ) (k' : Kernel) : Prop where
  blocks : k'.HasBlocks a m
  taken : ∀ l, k.part.Taken l → k'.part.Taken l
  old : ∀ i < k.blocksHeld a, k'.blockOf a i = k.blockOf a i
  fresh : ∀ i, k.blocksHeld a ≤ i → i < m → ¬ k.part.Taken (k'.blockOf a i)
  apart : ∀ i j, k.blocksHeld a ≤ i → i < j → j < m → k'.blockOf a i ≠ k'.blockOf a j
  table : (k'.inodes a).iSectors directPtrs = (k.inodes a).iSectors directPtrs ∨
    ¬ k.part.Taken ((k'.inodes a).iSectors directPtrs)
  disk : ∀ l, k.part.Taken l → l ≠ (k.inodes a).iSectors directPtrs →
    sectorOf k'.disk l = sectorOf k.disk l

theorem Kernel.InOrder.hasBlocks {k : Kernel} {a : ℕ} (h : k.InOrder a) : k.HasBlocks a (k.blocksHeld a) := by
  refine ⟨h.blocks, ?_⟩
  by_cases hzero : (k.inodes a).iSectors 0 = 0
  · rw [Kernel.blocksHeld, if_pos hzero]
    exact ⟨fun i hi => absurd hi (Nat.not_lt_zero i), fun hn => absurd hn (by decide),
      fun i hi => absurd hi (Nat.not_lt_zero i)⟩
  · rw [Kernel.blocksHeld, if_neg hzero]
    exact h.covers hzero

/-- The first block and the others. -/
theorem Reserved.of_mapped {a m will : ℕ} {k k₁ k₂ : Kernel} {r : Option (ℕ → ℕ)} (h : k.InOrder a)
    (hstart : Started a k true k₁)
    (hmap : Mapped a k₁ ((k.inodes a).iSize / sectorSize + 1) will r k₂)
    (hnone : r = none → m = (k.inodes a).iSize / sectorSize + 1) (hsome : ∀ allBlocks ∈ r, m = will)
    (hblocks : k₂.HasBlocks a m) :
    Reserved a k m k₂ := by
  have hhas := hstart.blocks rfl
  have hlow : ∀ l, k.part.Taken l → k₁.part.sb.dataStartLba ≤ l := fun l hl => by
    rw [hstart.gains.sb]
    exact hl.low
  have hle : k.blocksHeld a ≤ (k.inodes a).iSize / sectorSize + 1 := by
    unfold Kernel.blocksHeld
    split
    · exact Nat.zero_le _
    · exact le_rfl
  have hfree {l : ℕ} (hl : k₁.part.Marked false l) : ¬ k.part.Taken l := fun hold =>
    (hstart.gains.taken l hold).ne hl rfl
  -- the only block that comes before those of the map is the first one
  have hfirst : ∀ i, k.blocksHeld a ≤ i → i < (k.inodes a).iSize / sectorSize + 1 →
      i = 0 ∧ ¬ k.part.Taken (k₂.blockOf a i) := by
    intro i hlow' hhigh
    by_cases hzero : (k.inodes a).iSectors 0 = 0
    · obtain rfl : i = 0 := by
        rw [h.empty hzero] at hhigh
        simpa using hhigh
      rw [hmap.old 0 hhigh, Kernel.blockOf_direct (by decide)]
      exact ⟨rfl, hstart.fresh rfl hzero⟩
    · rw [Kernel.blocksHeld, if_neg hzero] at hlow'
      exact absurd hhigh (by omega)
  refine ⟨hblocks, fun l hl => hmap.taken l (hstart.gains.taken l hl), fun i hi => ?_, fun i hlow' hhigh => ?_,
    fun i j hlow' hij hhigh => ?_, ?_, fun l hl hne => ?_⟩
  · rw [hmap.old i (hi.trans_le hle), hstart.gains.blockOf h.hasBlocks hi]
  · by_cases hi : i < (k.inodes a).iSize / sectorSize + 1
    · exact (hfirst i hlow' hi).2
    · cases hr : r with
      | none => exact absurd (hnone hr ▸ hhigh) hi
      | some ab => exact hfree ((hmap.fresh ab hr).free i (by omega) (hsome ab hr ▸ hhigh))
  · by_cases hj : j < (k.inodes a).iSize / sectorSize + 1
    · have hzero := (hfirst j (by omega) hj).1
      omega
    · cases hr : r with
      | none => exact absurd (hnone hr ▸ hhigh) hj
      | some ab =>
          have hfresh := hmap.fresh ab hr
          have hlast := hsome ab hr ▸ hhigh
          by_cases hi : i < (k.inodes a).iSize / sectorSize + 1
          · intro heq
            have hold := (hhas.blockOf hi).1
            rw [← hmap.old i hi, heq] at hold
            exact hold.ne (hfresh.free j (by omega) hlast) rfl
          · exact hfresh.apart i j (by omega) hij hlast
  · have hsame := hstart.others directPtrs (by decide)
    rcases hmap.table with htable | htable
    · exact Or.inl (htable.trans hsame)
    · exact Or.inr (hfree htable)
  · have hne' : l ≠ (k₂.inodes a).iSectors directPtrs := by
      rcases hmap.table with htable | htable
      · rwa [htable, hstart.others directPtrs (by decide)]
      · exact fun heq => hfree htable (heq ▸ hl)
    rw [hmap.disk l (hlow l hl) hne', hstart.gains.disk l hl.low]

section Reserved

variable {a m n size : ℕ} {allBlocks : ℕ → ℕ} {src : Bytes} {k k₂ k₃ : Kernel} (h : Reserved a k m k₂)

include h

/-- A block of the file is an old one or was free. -/
theorem Reserved.owned {l i : ℕ} (hl : k.part.Taken l) (hno : ¬ k.Owns a l) (hi : i < m) :
    l ≠ k₂.blockOf a i := by
  by_cases hold : i < k.blocksHeld a
  · rw [h.old i hold]
    exact fun heq => hno (Or.inl ⟨i, hold, heq⟩)
  · exact fun heq => h.fresh i (Nat.not_lt.mp hold) hi (heq ▸ hl)

/-- The new blocks are different from the old ones and from one another. -/
theorem Reserved.distinct (horder : k.InOrder a) (hd : k.Distinct a) {i j : ℕ} (hij : i < j) (hj : j < m) :
    k₂.blockOf a i ≠ k₂.blockOf a j := by
  by_cases hi : i < k.blocksHeld a
  · by_cases hj' : j < k.blocksHeld a
    · rw [h.old i hi, h.old j hj']
      exact hd i j hij hj'
    · rw [h.old i hi]
      exact fun heq => h.fresh j (Nat.not_lt.mp hj') hj (heq ▸ (horder.hasBlocks.blockOf hi).1)
  · exact h.apart i j (Nat.not_lt.mp hi) hij hj

/-- The bytes that are there are not touched. -/
theorem Reserved.byte (horder : k.InOrder a) {p : ℕ} (hp : p < (k.inodes a).iSize) :
    k₂.disk (sectorSize * k₂.blockOf a (p / sectorSize) + p % sectorSize) =
      (k.fileOf a).byte p := by
  have hne : (k.inodes a).iSectors 0 ≠ 0 := fun hzero => by
    rw [horder.empty hzero] at hp
    exact Nat.not_lt_zero p hp
  have hin : p / sectorSize < k.blocksHeld a := by
    rw [Kernel.blocksHeld, if_neg hne]
    exact Nat.lt_succ_of_le (Nat.div_le_div_right hp.le)
  obtain ⟨htaken, hapart⟩ := horder.hasBlocks.blockOf hin
  have hbytes := congrFun (h.disk _ htaken hapart) (p % sectorSize)
  have ho : p % sectorSize < sectorSize := Nat.mod_lt _ (by decide)
  rw [sectorOf_apply ho, sectorOf_apply ho] at hbytes
  rw [h.old _ hin, hbytes]
  rfl

/-- The bytes are put behind a file that has the blocks for them. -/
theorem Reserved.appends (horder : k.InOrder a) (hend : (k.inodes a).iSize + n < maxFileSize)
    (hm : m = ((k.inodes a).iSize + n) / sectorSize + 1)
    (hmap : ∀ i, (k.inodes a).iSize / sectorSize ≤ i → sectorSize * i < (k.inodes a).iSize + n →
      allBlocks i = k₂.blockOf a i)
    (hput : Put a allBlocks src (k.inodes a).iSize 0 n k₂ k₃) : Appends a src n k k₃ := by
  generalize hsize : (k.inodes a).iSize = size at *
  have hin {i : ℕ} (hi : sectorSize * i < size + n) : i < m := by
    rw [hm]
    unfold sectorSize at *
    omega
  have hlast {p : ℕ} (hp : p < size + n) : sectorSize * (p / sectorSize) < size + n :=
    (Nat.mul_div_le p sectorSize).trans_lt hp
  -- the loop writes to no block of the table
  have htable : directPtrs < m → sectorOf k₃.disk ((k₂.inodes a).iSectors directPtrs) =
      sectorOf k₂.disk ((k₂.inodes a).iSectors directPtrs) := fun _ =>
    hput.disk _ fun i hi hlt => by
      rw [hmap i hi hlt]
      exact (h.blocks.blockOf (hin hlt)).2.symm
  have hcovers : Covers k₃.disk k₃.part (k₃.inodes a).iSectors m := by
    rw [hput.part, hput.iSectors]
    exact h.blocks.covers.congr htable
  have hblocks : FileBlocks k₃.part (k₃.inodes a).iSectors := by
    rw [hput.part, hput.iSectors]
    exact h.blocks.blocks
  have hfirst : (k₃.inodes a).iSectors 0 ≠ 0 := hcovers.direct 0 (hm ▸ Nat.succ_pos _) (by decide)
  have hof {i : ℕ} (hi : i < m) : k₃.blockOf a i = k₂.blockOf a i := by
    by_cases hlow : i < directPtrs
    · rw [Kernel.blockOf_direct hlow, Kernel.blockOf_direct hlow, hput.iSectors]
    · have hge : directPtrs ≤ i := Nat.not_lt.mp hlow
      rw [Kernel.blockOf_indirect hge, Kernel.blockOf_indirect hge, hput.iSectors]
      unfold tableEntry
      rw [htable (by omega)]
  have hcnt : k₃.blocksHeld a = m := by
    rw [Kernel.blocksHeld, if_neg hfirst, hput.iSize, hm]
  have hwritten (l : ℕ) (hl : ∀ i < m, l ≠ k₂.blockOf a i) : sectorOf k₃.disk l = sectorOf k₂.disk l :=
    hput.disk l fun i hi hlt => by
      rw [hmap i hi hlt]
      exact hl i (hin hlt)
  refine ⟨⟨?_, hblocks, fun _ => ?_, fun hzero => absurd hzero hfirst⟩, ?_, fun hd i j hij hj => ?_,
    fun hd p hp => ?_, fun l hl hno => ⟨?_, ?_, ?_⟩⟩
  · rw [hput.iSize]
    exact hend
  · rw [hput.iSize, ← hm]
    exact hcovers
  · change (k₃.inodes a).iSize = (k.inodes a).iSize + n
    rw [hput.iSize, hsize]
  · rw [hcnt] at hj
    rw [hof (hij.trans hj), hof hj]
    exact h.distinct horder hd hij hj
  · change p < (k.inodes a).iSize + n at hp
    change k₃.disk (sectorSize * k₃.blockOf a (p / sectorSize) + p % sectorSize) =
      if p < (k.inodes a).iSize then _ else src (p - (k.inodes a).iSize)
    rw [hsize] at hp ⊢
    have hpm : p / sectorSize < m := hin (hlast hp)
    rw [hof hpm]
    by_cases hlow : size / sectorSize ≤ p / sectorSize
    · have hdata := hput.data (fun i j hi hij hlt => by
        rw [hmap i hi ((Nat.mul_le_mul_left _ hij.le).trans_lt hlt), hmap j (hi.trans hij.le) hlt]
        exact h.distinct horder hd hij (hin hlt)) p
        ((Nat.mul_le_mul_left _ hlow).trans (Nat.mul_div_le p _)) hp
      rw [hmap _ hlow (hlast hp), Nat.zero_add] at hdata
      rw [hdata]
      by_cases hold : p < size
      · rw [if_pos hold, if_pos hold, h.byte horder (hsize ▸ hold)]
      · rw [if_neg hold, if_neg hold]
    · have hold : p < size := by
        by_contra hge
        exact hlow (Nat.div_le_div_right (Nat.not_lt.mp hge))
      have hsame := hput.disk (k₂.blockOf a (p / sectorSize)) fun i hi hlt => by
        rw [hmap i hi hlt]
        exact h.distinct horder hd (by omega) (hin hlt)
      have hbytes := congrFun hsame (p % sectorSize)
      have ho : p % sectorSize < sectorSize := Nat.mod_lt _ (by decide)
      rw [sectorOf_apply ho, sectorOf_apply ho] at hbytes
      rw [if_pos hold, hbytes, h.byte horder (hsize ▸ hold)]
  · rw [hwritten l fun i hi => h.owned hl hno hi, h.disk l hl fun heq => hno (Or.inr heq)]
  · rw [hput.part]
    exact h.taken l hl
  · rintro (⟨i, hi, heq⟩ | heq)
    · rw [hcnt] at hi
      rw [hof hi] at heq
      exact h.owned hl hno hi heq
    · rw [hput.iSectors] at heq
      rcases h.table with hold | hnew
      · exact hno (Or.inr (heq.trans hold))
      · exact hnew (heq ▸ hl)

end Reserved

/-! ## `writeData` -/

/-- The number of blocks that `n` bytes take, with the one that is taken ahead. -/
def blocksOf (n : ℕ) : ℕ := n / sectorSize + 1

/-- The number of blocks that a write of `count` bytes to the file at `a` takes. -/
def Kernel.need (k : Kernel) (a count : ℕ) : ℕ :=
  blocksTaken (blocksOf (k.inodes a).iSize) (blocksOf ((k.inodes a).iSize + count)) + k.startBlocks a

/-- A write of `count` bytes reaches no pointer of the inode that an earlier call left behind, before
the free blocks run out. -/
structure Kernel.Clear (k : Kernel) (a count : ℕ) : Prop where
  direct : ∀ i, blocksOf (k.inodes a).iSize ≤ i → i < blocksOf ((k.inodes a).iSize + count) →
    i < directPtrs → (k.inodes a).iSectors i ≠ 0 →
    ¬ k.part.HasFree (i - blocksOf (k.inodes a).iSize + 1 +
      (if directPtrs < blocksOf ((k.inodes a).iSize + count) then 1 else 0) + k.startBlocks a)
  table : blocksOf (k.inodes a).iSize ≤ directPtrs →
    directPtrs < blocksOf ((k.inodes a).iSize + count) → (k.inodes a).iSectors directPtrs ≠ 0 →
    ¬ k.part.HasFree (1 + k.startBlocks a)

theorem Kernel.Clear.noLeftover {a count : ℕ} {k k₁ : Kernel} (h : k.Clear a count)
    (hstart : Started a k true k₁) : NoLeftover k₁.part (k₁.inodes a).iSectors
      (blocksOf (k.inodes a).iSize) (blocksOf ((k.inodes a).iSize + count)) where
  direct i hlow hhigh hi hne hmore := by
    have hpos : i ≠ 0 := fun hzero => absurd (hzero ▸ hlow) (Nat.not_succ_le_zero _)
    rw [hstart.others i hpos] at hne
    exact h.direct i hlow hhigh hi hne ((hstart.free rfl _).mp hmore)
  table hlow hhigh hne hmore := by
    rw [hstart.others directPtrs (by decide)] at hne
    exact h.table hlow hhigh hne ((hstart.free rfl _).mp hmore)

/-- The state with another position of an open file. -/
theorem Reserved.setFile {a m g : ℕ} {k k' : Kernel} (h : Reserved a k m k') (file : File) :
    Reserved a k m (k'.setFile g file) where
  blocks := ⟨h.blocks.blocks, h.blocks.covers⟩
  taken := h.taken
  old := h.old
  fresh := h.fresh
  apart := h.apart
  table := h.table
  disk := h.disk

/-- What comes of a write: all is appended, or nothing because the disk is full. -/
structure WriteResult (e : Env) (a : ℕ) (src : Bytes) (count : ℕ) (k : Kernel) (ok : Bool)
    (k' : Kernel) : Prop where
  wrote : ok = true → Appends a src count k k'
  failed : ok = false → Appends a src 0 k k' ∧
    (FairEnv e → e.stops ∨ ¬ k.part.HasFree (k.need a count))

/-- `file_write` appends to the file, or it fails. -/
theorem ensures_writeData {t : Transfer} {e : Env} {fd a count : ℕ} {buf : Bytes} {k : Kernel}
    (h : k.InOrder a) (hend : (k.inodes a).iSize + count < maxFileSize)
    (hok : e.stops ∨ k.Clear a count) :
    (writeData t fd a (k.inodes a).iSize buf count).ensures e (WriteResult e a buf count k) k := by
  have hlost : (FairEnv e → e.stops) → WriteResult e a buf count k false k := fun hstops =>
    ⟨(fun hok => by cases hok), fun _ => ⟨.refl h buf, fun he => Or.inl (hstops he)⟩⟩
  have hmod : ((k.inodes a).iSize + count) % 2 ^ 32 = (k.inodes a).iSize + count :=
    Nat.mod_eq_of_lt (hend.trans (by decide))
  have hwill : blocksOf ((k.inodes a).iSize + count) ≤ flattenPtrs := by
    unfold blocksOf maxFileSize sectorSize flattenPtrs at *
    omega
  have hle : blocksOf (k.inodes a).iSize ≤ blocksOf ((k.inodes a).iSize + count) :=
    Nat.succ_le_succ (Nat.div_le_div_right (Nat.le_add_right _ _))
  rw [writeData, ensures_bind]
  refine ensures_sysMalloc_cases ?_ hlost
  rw [if_neg (by decide), ensures_bind]
  refine ensures_sysMalloc_cases ?_ hlost
  rw [if_neg (by decide), ensures_bind]
  refine ensures_mono (ensures_allocFirst h) fun ok k₁ hstart => ?_
  cases ok with
  | false =>
      obtain ⟨rfl, hfull⟩ := hstart.none rfl
      refine ⟨(fun hok => by cases hok), fun _ => ⟨.refl h buf, fun _ =>
        Or.inr fun hmore => hfull (hmore.mono ?_)⟩⟩
      exact Nat.le_add_left _ _
  | true =>
      have hhas := hstart.blocks rfl
      have hbuild := ensures_and_wp
        (ensures_buildBlocks (t := t) hhas (Nat.succ_pos _) hle hwill
          (hok.imp_right fun hclear => hclear.noLeftover hstart))
        (wp_buildBlocks (t := t) hhas (Nat.succ_pos _) hle hwill)
      rw [if_neg (by decide), writeBlocks]
      dsimp only
      rw [hmod, ensures_bind]
      refine (ensures_assert (decide_eq_true hwill)).mpr ?_
      rw [ensures_bind]
      refine ensures_mono hbuild ?_
      rintro r k₂ ⟨hbuilt, hmap⟩
      cases r with
      | none =>
          have hres : Reserved a k (blocksOf (k.inodes a).iSize) k₂ :=
            .of_mapped h hstart hmap (fun _ => rfl) (fun ab hab => by cases hab) hbuilt.blocks
          have hput : Put a (k₂.blockOf a) buf (k.inodes a).iSize 0 0 k₂ k₂ :=
            .refl (hbuilt.size.trans hstart.gains.size)
          refine ⟨(fun hok => by cases hok), fun _ => ⟨?_, fun _ => Or.inr fun hmore => ?_⟩⟩
          · exact hres.appends h h.small rfl (fun _ _ _ => rfl) hput
          · exact hbuilt.full rfl ((hstart.free rfl _).mpr hmore)
      | some ab =>
          have hres : Reserved a k (blocksOf ((k.inodes a).iSize + count)) k₂ :=
            .of_mapped h hstart hmap (fun hnone => by cases hnone) (fun _ _ => rfl) (hbuilt.all ab rfl)
          have hin (i : ℕ) (hi : sectorSize * i < (k.inodes a).iSize + count) :
              i < blocksOf ((k.inodes a).iSize + count) := by
            unfold blocksOf sectorSize at *
            omega
          dsimp only
          rw [ensures_bind, ensures_modify, ensures_bind]
          have hsize : (k₂.inodes a).iSize = (k.inodes a).iSize := hbuilt.size.trans hstart.gains.size
          refine ensures_mono (ensures_writeLoop (k := k₂.setFile fd _) hsize hend (Nat.le_add_left _ _)
            (fun _ => Or.inl rfl) fun i hlow hlt => (hbuilt.map ab rfl i hlow (hin i hlt)).1.last) ?_
          intro _ k₃ hput
          rw [ensures_pure]
          refine ⟨fun _ => ?_, fun hok => by cases hok⟩
          exact (hres.setFile _).appends h hend rfl
            (fun i hlow hlt => hmap.map ab rfl i hlow (hin i hlt)) hput

/-! ## Calls that go wrong -/

theorem ideRead_decided (t : Transfer) (lba : ℕ) (buf : Bytes) (secCnt : ℕ) :
    Decided (ideRead t lba buf secCnt) := by
  have hloop : ∀ left i buf, Decided (ideReadLoop t lba left i buf) := by
    intro left
    induction left with
    | zero => exact fun _ _ => .pure _
    | succ left ih =>
        intro i buf
        refine Decided.bind ?_ fun buf' => ih _ buf'
        exact (Decided.assert _).bind fun _ => Decided.block.bind fun _ => Decided.read.bind fun _ =>
          Decided.block.bind fun _ => .pure _
  exact hloop _ _ _

theorem ideWrite_decided (t : Transfer) (lba : ℕ) (buf : Bytes) (secCnt : ℕ) :
    Decided (ideWrite t lba buf secCnt) := by
  have hloop : ∀ left i, Decided (ideWriteLoop t lba buf left i) := by
    intro left
    induction left with
    | zero => exact fun _ => .pure _
    | succ left ih =>
        intro i
        refine Decided.bind ?_ fun _ => ih _
        exact (Decided.assert _).bind fun _ => Decided.block.bind fun _ =>
          (Decided.modify _).bind fun _ => .block
  exact hloop _ _

theorem blockBitmapAlloc_decided : Decided blockBitmapAlloc := by
  refine Decided.read.bind fun k => ?_
  split
  · exact .pure _
  · exact (Decided.write _).bind fun _ => .pure _

theorem allocBlocks_decided (t : Transfer) (a left blkI : ℕ) (allBlocks : ℕ → ℕ) :
    Decided (allocBlocks t a left blkI allBlocks) := by
  have hsync : ∀ i, Decided (bitmapSync t i .blockBitmap) := fun i =>
    Decided.read.bind fun _ => ideWrite_decided _ _ _ _
  induction left generalizing blkI allBlocks with
  | zero => exact .pure _
  | succ left ih =>
      unfold allocBlocks
      refine blockBitmapAlloc_decided.bind fun blk => ?_
      rcases blk with _ | lba
      · exact .pure _
      · refine Decided.read.bind fun k => ?_
        split
        · exact (Decided.assert _).bind fun _ => (Decided.modify _).bind fun _ =>
            (hsync _).bind fun _ => ih _ _
        · exact (hsync _).bind fun _ => ih _ _

theorem buildBlocks_decided (t : Transfer) (a has will : ℕ) : Decided (buildBlocks t a has will) := by
  refine Decided.read.bind fun k => ?_
  dsimp only
  split
  · split
    · exact .pure _
    · exact (Decided.assert _).bind fun _ => (ideRead_decided _ _ _ _).bind fun _ => .pure _
  split
  · exact (Decided.assert _).bind fun _ => allocBlocks_decided _ _ _ _ _
  split
  · refine blockBitmapAlloc_decided.bind fun blk => ?_
    rcases blk with _ | lba
    · exact .pure _
    · refine (Decided.assert _).bind fun _ => (Decided.modify _).bind fun _ =>
        (allocBlocks_decided _ _ _ _ _).bind fun blocks => ?_
      rcases blocks with _ | allBlocks
      · exact .pure _
      · exact (ideWrite_decided _ _ _ _).bind fun _ => .pure _
  · refine (Decided.assert _).bind fun _ => (ideRead_decided _ _ _ _).bind fun _ =>
      (allocBlocks_decided _ _ _ _ _).bind fun blocks => ?_
    rcases blocks with _ | allBlocks
    · exact .pure _
    · exact (ideWrite_decided _ _ _ _).bind fun _ => .pure _

theorem writeLoop_decided (t : Transfer) (fd a : ℕ) (allBlocks : ℕ → ℕ) (src : Bytes)
    (count fuel written : ℕ) (first : Bool) :
    Decided (writeLoop t fd a allBlocks src count fuel written first) := by
  induction fuel generalizing written first with
  | zero => exact .pure _
  | succ fuel ih =>
      unfold writeLoop
      split
      · exact .pure _
      refine Decided.read.bind fun k => ?_
      dsimp only
      split
      · exact .stop _
      split
      · exact (ideRead_decided _ _ _ _).bind fun _ => (ideWrite_decided _ _ _ _).bind fun _ =>
          (Decided.modify _).bind fun _ => (Decided.modify _).bind fun _ => ih _ _
      · exact (Decided.pure _).bind fun _ => (ideWrite_decided _ _ _ _).bind fun _ =>
          (Decided.modify _).bind fun _ => (Decided.modify _).bind fun _ => ih _ _

theorem writeBlocks_decided (t : Transfer) (fd a size : ℕ) (buf : Bytes) (count : ℕ) :
    Decided (writeBlocks t fd a size buf count) := by
  refine (Decided.assert _).bind fun _ => (buildBlocks_decided _ _ _ _).bind fun all => ?_
  rcases all with _ | allBlocks
  · exact .pure _
  · exact (Decided.modify _).bind fun _ => (writeLoop_decided _ _ _ _ _ _ _ _ _).bind fun _ => .pure _

/-- The block map of a write that seems to make the file shorter. -/
theorem outcome_buildBlocks_short {t : Transfer} {a has will : ℕ} {k : Kernel} (hle : will ≤ has) :
    (∃ allBlocks k', (buildBlocks t a has will).outcome k = .ok (some allBlocks, k') ∧
      k'.inodes = k.inodes) ∨ (buildBlocks t a has will).outcome k = .error .halt := by
  have hassert : ∀ (c : Bool) (x : Prog Kernel (Option (ℕ → ℕ))),
      ((∃ allBlocks k', x.outcome k = .ok (some allBlocks, k') ∧ k'.inodes = k.inodes) ∨
        x.outcome k = .error .halt) →
      (∃ allBlocks k', (assert c >>= fun _ => x).outcome k = .ok (some allBlocks, k') ∧
        k'.inodes = k.inodes) ∨ (assert c >>= fun _ => x).outcome k = .error .halt := by
    intro c x hx
    cases c with
    | false => exact Or.inr rfl
    | true => exact hx
  have hread : ∀ (lba : ℕ) (f : Bytes → Prog Kernel (Option (ℕ → ℕ))),
      (∀ b, (∃ allBlocks k', (f b).outcome k = .ok (some allBlocks, k') ∧ k'.inodes = k.inodes) ∨
        (f b).outcome k = .error .halt) →
      (∃ allBlocks k', (ideRead t lba zeroBuf 1 >>= f).outcome k = .ok (some allBlocks, k') ∧
        k'.inodes = k.inodes) ∨ (ideRead t lba zeroBuf 1 >>= f).outcome k = .error .halt := by
    intro lba f hf
    by_cases hlba : lba ≤ maxLba
    · rw [outcome_bind_ok (outcome_ideRead_one hlba)]
      exact hf _
    · exact Or.inr (outcome_bind_error (outcome_ideRead_none hlba))
  have hnone : will - has = 0 := Nat.sub_eq_zero_of_le hle
  rw [buildBlocks, outcome_read_bind]
  dsimp only
  rw [hnone]
  split
  · split
    · exact Or.inl ⟨_, k, rfl, rfl⟩
    · exact hassert _ _ (hread _ _ fun b => Or.inl ⟨_, k, rfl, rfl⟩)
  split
  · exact hassert _ _ (Or.inl ⟨_, k, rfl, rfl⟩)
  split
  · omega
  · refine hassert _ _ (hread _ _ fun b => ?_)
    have halloc : (allocBlocks t a 0 has (withIndirect (fun _ => 0) b)).outcome k =
        .ok (some (withIndirect (fun _ => 0) b), k) := rfl
    rw [outcome_bind_ok halloc]
    dsimp only
    by_cases hlba : (k.inodes a).iSectors directPtrs ≤ maxLba
    · rw [outcome_bind_ok (outcome_ideWrite_one hlba)]
      exact Or.inl ⟨_, _, rfl, rfl⟩
    · exact Or.inr (outcome_bind_error (outcome_ideWrite_none hlba))

section WriteBlocks

variable {t : Transfer} {fd a size count : ℕ} {buf : Bytes} {k : Kernel}

/-- A count so large that `i_size + count` leaves 32 bits. -/
theorem outcome_writeBlocks_wrap (hsize : (k.inodes a).iSize = size) (hsmall : size < maxFileSize)
    (hcount : count < 2 ^ 32) (hwrap : 2 ^ 32 ≤ size + count) :
    ∃ e, (e = .halt ∨ e = .undefined) ∧
      (writeBlocks t fd a size buf count).outcome k = .error e := by
  have hmod : (size + count) % 2 ^ 32 ≤ size := by
    unfold maxFileSize sectorSize flattenPtrs at hsmall
    omega
  have hle : (size + count) % 2 ^ 32 / sectorSize + 1 ≤ size / sectorSize + 1 :=
    Nat.succ_le_succ (Nat.div_le_div_right hmod)
  have hwill : (size + count) % 2 ^ 32 / sectorSize + 1 ≤ flattenPtrs := by
    unfold maxFileSize sectorSize flattenPtrs at *
    omega
  rw [writeBlocks]
  dsimp only
  rw [outcome_bind_ok (outcome_assert (decide_eq_true hwill))]
  rcases outcome_buildBlocks_short (t := t) (a := a) (k := k) hle with ⟨ab, k', hbuild, hinodes⟩ | hbuild
  · rw [outcome_bind_ok hbuild]
    dsimp only
    rw [outcome_bind_ok outcome_modify]
    have hstate : ((k'.setFile fd { k'.fileTable fd with fdPos := subU32 size 1 }).inodes a).iSize = size := by
      change (k'.inodes a).iSize = size
      rw [hinodes, hsize]
    have hlimit : maxFileSize < 2 ^ 32 := by decide
    obtain ⟨e, he, hstuck⟩ : ∃ e, (e = .halt ∨ e = .undefined) ∧
        (writeLoop t fd a ab buf count count 0 true).outcome
          (k'.setFile fd { k'.fileTable fd with fdPos := subU32 size 1 }) = .error e :=
      outcome_writeLoop_stuck hstate hsmall.le (by omega) (Nat.le_add_left _ _)
    exact ⟨e, he, outcome_bind_error hstuck⟩
  · exact ⟨.halt, Or.inl rfl, outcome_bind_error hbuild⟩

/-- The size that the assertion excludes. -/
theorem outcome_writeBlocks_full (hfull : size + count = maxFileSize) :
    (writeBlocks t fd a size buf count).outcome k = .error .halt := by
  rw [writeBlocks]
  dsimp only
  rw [hfull]
  exact outcome_bind_error (outcome_assert_false rfl)

end WriteBlocks

/-! ## `file_write` -/

/-- Storing an inode in a buffer that is too small is the only fault of `inode_sync`. -/
theorem inodeSync_avoids {t : Transfer} {f : Fault} (hf : f ≠ .overrun) {k : Kernel} {inode : Inode}
    {bufSecs : ℕ} (h : k.part.Layout) : (inodeSync t inode bufSecs).avoids f k := by
  by_cases hbuf : (inodePosition k.part.sb (inode.iNo % 256)).secs ≤ bufSecs
  · have hsucc : (inodeSync t inode bufSecs).succeeds (fun _ _ => True) k :=
      succeeds_of_ensures (ensures_inodeSync_table h (Or.inr hbuf) fun _ _ => trivial)
    exact avoids_of_succeeds hsucc
  · have hn : inode.iNo % 256 < maxFilesPerPart := by
      unfold maxFilesPerPart
      omega
    obtain ⟨hpart, -⟩ := h.tableFits.position hn
    rw [inodeSync, avoids_bind, inodeLocate]
    rw [decide_eq_true hn]
    refine ⟨trivial, ?_⟩
    simp only [wp_bind, wp_assert, wp_read, wp_pure]
    intro _
    rw [avoids_bind]
    refine ⟨trivial, ?_⟩
    rw [wp_read, decide_eq_true hpart, if_pos (Nat.not_le.mp hbuf)]
    exact hf.symm

theorem writeData_only (t : Transfer) (fd a size : ℕ) (buf : Bytes) (count : ℕ) :
    Within (OnlyFile a) (writeData t fd a size buf count) := by
  refine (sysMalloc_same.of_eq).bind fun ok => ?_
  split
  · exact .pure _
  refine (sysMalloc_same.of_eq).bind fun ok => ?_
  split
  · exact .pure _
  refine (allocFirst_within t).bind fun ok => ?_
  split
  · exact .pure _
  refine (Within.assert _).bind fun _ => (buildBlocks_within t _ _).bind fun all => ?_
  rcases all with _ | allBlocks
  · exact .pure _
  · exact (Within.modify fun k => WriteFrame.pos a k fd _).bind fun _ =>
      (writeLoop_within t fd allBlocks buf count count 0 true).bind fun _ => .pure _

/-- Storing the inode leaves the blocks alone. -/
theorem Appends.sync {a n : ℕ} {src : Bytes} {k k' : Kernel} (h : Appends a src n k k') {disk : Bytes}
    (hdisk : ∀ l, k'.part.sb.dataStartLba ≤ l → sectorOf disk l = sectorOf k'.disk l) :
    Appends a src n k { k' with disk := disk } := by
  have hblocks := h.order.blocks
  have htable : (k'.inodes a).iSectors directPtrs ≠ 0 →
      sectorOf disk ((k'.inodes a).iSectors directPtrs) =
        sectorOf k'.disk ((k'.inodes a).iSectors directPtrs) := fun hne =>
    hdisk _ (hblocks.taken directPtrs le_rfl hne).low
  have hcnt : ({ k' with disk := disk } : Kernel).blocksHeld a = k'.blocksHeld a := rfl
  have hof {i : ℕ} (hi : i < k'.blocksHeld a) :
      ({ k' with disk := disk } : Kernel).blockOf a i = k'.blockOf a i := by
    by_cases hlow : i < directPtrs
    · rw [Kernel.blockOf_direct hlow, Kernel.blockOf_direct hlow]
    · have hge : directPtrs ≤ i := Nat.not_lt.mp hlow
      rw [Kernel.blockOf_indirect hge, Kernel.blockOf_indirect hge]
      unfold tableEntry
      rw [htable (h.order.hasBlocks.covers.table (hge.trans_lt hi))]
  refine ⟨⟨h.order.small, hblocks, fun hne => (h.order.covers hne).congr fun hn => ?_, h.order.empty⟩,
    h.size, fun hd i j hij hj => ?_, fun hd p hp => ?_, fun l hl hno => ?_⟩
  · exact htable ((h.order.covers hne).table hn)
  · rw [hof (hij.trans hj), hof hj]
    exact h.distinct hd i j hij hj
  · rw [← h.data hd p hp]
    have hp' : p < (k'.inodes a).iSize := by
      rw [← h.size] at hp
      exact hp
    have hne : (k'.inodes a).iSectors 0 ≠ 0 := fun hzero => by
      rw [h.order.empty hzero] at hp'
      exact Nat.not_lt_zero p hp'
    have hin : p / sectorSize < k'.blocksHeld a := by
      rw [Kernel.blocksHeld, if_neg hne]
      exact Nat.lt_succ_of_le (Nat.div_le_div_right hp'.le)
    have ho : p % sectorSize < sectorSize := Nat.mod_lt _ (by decide)
    have hbytes := congrFun (hdisk _ (h.order.hasBlocks.blockOf hin).1.low) (p % sectorSize)
    rw [sectorOf_apply ho, sectorOf_apply ho] at hbytes
    change disk (sectorSize * ({ k' with disk := disk } : Kernel).blockOf a (p / sectorSize) +
      p % sectorSize) = _
    rw [hof hin, hbytes]
    rfl
  · obtain ⟨hsame, htaken, hother⟩ := h.others l hl hno
    refine ⟨(hdisk l htaken.low).trans hsame, htaken, ?_⟩
    rintro (⟨i, hi, heq⟩ | heq)
    · rw [hof hi] at heq
      exact hother (Or.inl ⟨i, hi, heq⟩)
    · exact hother (Or.inr heq)

/-- What comes of a call: all is appended, or nothing. -/
structure Written (e : Env) (a : ℕ) (src : Bytes) (count : ℕ) (k : Kernel) (ret : ℤ) (k' : Kernel) :
    Prop where
  only : OnlyFile a k k'
  result : ret = count ∧ Appends a src count k k' ∨
    ret = -1 ∧ Appends a src 0 k k' ∧ (FairEnv e → e.stops ∨ ¬ k.part.HasFree (k.need a count))

section FileWrite

variable {t : Transfer} {e : Env} {fd a count : ℕ} {buf : Bytes} {k : Kernel}

/-- The end of a call whose inode has room in the buffer. -/
theorem ensures_writeFinish {ok : Bool} {k' : Kernel} (hres : WriteResult e a buf count k ok k')
    (honly : OnlyFile a k k')
    (hsync : e.stops ∨ inodeTwoSec ((k.inodes a).iNo % 256) = false) :
    (writeFinish t a count ok).ensures e (Written e a buf count k) k' := by
  unfold writeFinish
  cases ok with
  | false =>
      obtain ⟨happ, hfull⟩ := hres.failed rfl
      exact ⟨honly, Or.inr ⟨rfl, happ, hfull⟩⟩
  | true =>
      have happ := hres.wrote rfl
      rw [if_pos rfl, ensures_bind, ensures_read, ensures_bind]
      refine ensures_inodeSync_table happ.order.blocks.layout (hsync.imp_right fun hone => ?_)
        fun disk hdisk => ?_
      · rw [inodePosition_secs, honly.iNo, hone]
        exact le_rfl
      · rw [ensures_pure]
        exact ⟨⟨honly.others, honly.iNo, honly.fdInode⟩, Or.inl ⟨rfl, happ.sync hdisk⟩⟩

variable (hinode : (k.fileTable fd).fdInode = some a) (h : k.InOrder a)

include hinode h

/-- A call that does not make the file too large. -/
theorem ensures_fileWrite (hend : (k.inodes a).iSize + count < maxFileSize)
    (hok : e.stops ∨ k.Clear a count)
    (hsync : e.stops ∨ inodeTwoSec ((k.inodes a).iNo % 256) = false) :
    (fileWrite t fd buf count).ensures e (Written e a buf count k) k := by
  obtain ⟨g, hg, hgk⟩ := fileWrite_from (t := t) hinode
  have hmod : ((k.inodes a).iSize + count) % 2 ^ 32 = (k.inodes a).iSize + count :=
    Nat.mod_eq_of_lt (hend.trans (by decide))
  have honly := (writeData_only t fd a (k.inodes a).iSize buf count).wp_of (refl k)
  rw [hg]
  change Prog.ensures e (g k) _ k
  rw [hgk, if_neg (by omega), ensures_bind]
  refine ensures_mono (ensures_and_wp (ensures_writeData h hend hok) honly) fun ok k' hres => ?_
  exact ensures_writeFinish hres.1 hres.2 hsync

/-- No assertion fails in such a call, wherever the inode lies and whether there is memory or not. -/
theorem fileWrite_avoids_fault {f : Fault} (hf : f ≠ .overrun)
    (hend : (k.inodes a).iSize + count < maxFileSize) (hok : k.Clear a count) :
    (fileWrite t fd buf count).avoids f k := by
  obtain ⟨g, hg, hgk⟩ := fileWrite_from (t := t) hinode
  have hmod : ((k.inodes a).iSize + count) % 2 ^ 32 = (k.inodes a).iSize + count :=
    Nat.mod_eq_of_lt (hend.trans (by decide))
  have hdata : (writeData t fd a (k.inodes a).iSize buf count).succeeds
      (WriteResult ⟨fun _ => True, False⟩ a buf count k) k :=
    succeeds_of_ensures (ensures_writeData h hend (Or.inr hok))
  rw [hg]
  change Prog.avoids f (g k) k
  rw [hgk, if_neg (by omega), avoids_bind]
  refine ⟨avoids_of_succeeds hdata, wp_mono (wp_of_succeeds hdata) fun ok k' hres => ?_⟩
  unfold writeFinish
  cases ok with
  | false => trivial
  | true =>
      rw [if_pos rfl, avoids_bind]
      refine ⟨trivial, ?_⟩
      rw [wp_read, avoids_bind]
      exact ⟨inodeSync_avoids hf (hres.wrote rfl).order.blocks.layout, wp_mono wp_true fun _ _ _ => trivial⟩

omit hinode in
/-- A call that leaves too little room between the file and the limit returns only where it gave up
before it made the block map. -/
theorem wp_writeData_stuck {size : ℕ}
    (hstuck : ∀ k₁ : Kernel, (k₁.inodes a).iSize = size →
      ∃ e, (writeBlocks t fd a size buf count).outcome k₁ = .error e)
    (hsize : (k.inodes a).iSize = size) :
    (writeData t fd a size buf count).wp (fun ok k' => ok = false ∧ k' = k) k := by
  rw [writeData, wp_bind, wp_sysMalloc]
  intro ok
  split
  · exact ⟨rfl, rfl⟩
  rw [wp_bind, wp_sysMalloc]
  intro ok
  split
  · exact ⟨rfl, rfl⟩
  rw [wp_bind]
  refine wp_mono (wp_of_ensures (ensures_allocFirst h)) fun ok k₁ hstart => ?_
  cases ok with
  | false => exact ⟨rfl, (hstart.none rfl).1⟩
  | true =>
      obtain ⟨e, he⟩ := hstuck k₁ (hstart.gains.size.trans hsize)
      exact (writeBlocks_decided _ _ _ _ _ _).wp_of_error he

/-- A call that leaves too little room between the file and the limit returns only to say so. -/
theorem wp_fileWrite_large (hcount : count < 2 ^ 32) (hlarge : maxFileSize ≤ (k.inodes a).iSize + count) :
    (fileWrite t fd buf count).wp (fun ret k' => ret = -1 ∧ k' = k) k := by
  obtain ⟨g, hg, hgk⟩ := fileWrite_from (t := t) hinode
  rw [hg]
  change Prog.wp (g k) _ k
  rw [hgk]
  split
  · exact ⟨rfl, rfl⟩
  next hlimit =>
    rw [wp_bind]
    refine wp_mono (wp_writeData_stuck h (fun k₁ hsize => ?_) rfl) ?_
    · by_cases hwrap : 2 ^ 32 ≤ (k.inodes a).iSize + count
      · obtain ⟨e, -, he⟩ : ∃ e, (e = .halt ∨ e = .undefined) ∧
            (writeBlocks t fd a (k.inodes a).iSize buf count).outcome k₁ = .error e :=
          outcome_writeBlocks_wrap hsize h.small hcount hwrap
        exact ⟨e, he⟩
      · rw [Nat.mod_eq_of_lt (Nat.not_le.mp hwrap)] at hlimit
        exact ⟨.halt, outcome_writeBlocks_full (Nat.le_antisymm (Nat.not_lt.mp hlimit) hlarge)⟩
    · rintro ok k' ⟨rfl, rfl⟩
      exact ⟨rfl, rfl⟩

/-- Whatever the count is, a call that returns appends its bytes or nothing. -/
theorem wp_fileWrite (hcount : count < 2 ^ 32) :
    (fileWrite t fd buf count).wp (Written .any a buf count k) k := by
  by_cases hend : (k.inodes a).iSize + count < maxFileSize
  · exact wp_of_ensures (ensures_fileWrite hinode h hend (Or.inl trivial) (Or.inl trivial))
  · refine wp_mono (wp_fileWrite_large hinode h hcount (Nat.not_lt.mp hend)) ?_
    rintro ret k' ⟨rfl, rfl⟩
    exact ⟨refl k', Or.inr ⟨rfl, .refl h buf, fun _ => Or.inl trivial⟩⟩

end FileWrite

end BochsOs
