import BochsOs.Fs.Search
import BochsOs.Fs.Format

/-!
# Storing inodes

`inode_sync` reads the one or two sectors an inode lies in, embeds the inode and
writes them back; `inode_open` reads the same sectors.  The inodes are packed, so a
store has to keep the bytes around the inode.  Transfers of two sectors are taken as
their callers expect them (`Transfer.consecutive`).

* `ensures_inodeSync`: a store changes the 76 bytes of one place in the inode table.
* `storesInode_iff`: the place is that of the inode only for the numbers below 256,
  since `inode_sync` keeps the number in a `uint8_t`.
-/

namespace BochsOs

open ByteMemory Suspend Suspend.Prog

/-! ## Places in the table -/

/-- The inode table lies on the partition and on the disk. -/
structure Kernel.TableFits (k : Kernel) : Prop where
  disk : k.part.sb.inodeTableLba + inodeTableSects ≤ maxLba + 1
  part : k.part.sb.inodeTableLba + inodeTableSects ≤ k.part.startLba + k.part.secCnt

/-- The place of an inode in the inode table. -/
def SuperBlock.inodePlace (sb : SuperBlock) (n : ℕ) : ℕ :=
  sectorSize * sb.inodeTableLba + inodeSize * n

/-- The inode as `inode_sync` writes it: counts and flags are not stored. -/
def Inode.stored (inode : Inode) : Inode := { inode with iOpenCnts := 0, writeDeny := false }

theorem Inode.Storable.stored {inode : Inode} (h : inode.Storable) : inode.stored.Storable :=
  ⟨h.iNo, h.iSize, Nat.two_pow_pos 32, h.iSectors, h.rest⟩

theorem inodePosition_place (sb : SuperBlock) (n : ℕ) :
    sectorSize * (inodePosition sb n).secLba + (inodePosition sb n).offSize = sb.inodePlace n := by
  change 512 * (sb.inodeTableLba + n * 76 / 512) + n * 76 % 512 = 512 * sb.inodeTableLba + 76 * n
  omega

/-- An inode lies inside of the sectors that are transferred for it. -/
theorem inodePosition_inside (sb : SuperBlock) (n : ℕ) :
    (inodePosition sb n).offSize + inodeSize ≤ sectorSize * (inodePosition sb n).secs := by
  have hoff : (inodePosition sb n).offSize < sectorSize := Nat.mod_lt _ (by decide)
  unfold InodePosition.secs
  split
  · unfold sectorSize at hoff ⊢
    unfold inodeSize
    omega
  next hone =>
    have hle : ¬ sectorSize < (inodePosition sb n).offSize + inodeSize := fun hlt =>
      hone (decide_eq_true hlt)
    omega

/-- The place of an inode in the table lies in the sectors of the table. -/
theorem inodePlace_inside (sb : SuperBlock) {n : ℕ} (hn : n < maxFilesPerPart) :
    sb.inodePlace n + inodeSize ≤ sectorSize * (sb.inodeTableLba + inodeTableSects) := by
  have hsects : inodeTableSects = 608 := rfl
  unfold maxFilesPerPart at hn
  unfold SuperBlock.inodePlace sectorSize inodeSize
  omega

/-- The places of two inodes do not overlap. -/
theorem inodePlace_disjoint (sb : SuperBlock) {m n : ℕ} (h : m ≠ n) :
    sb.inodePlace m + inodeSize ≤ sb.inodePlace n ∨
      sb.inodePlace n + inodeSize ≤ sb.inodePlace m := by
  unfold SuperBlock.inodePlace inodeSize
  omega

/-! ## Consecutive sectors -/

/-- A read of consecutive sectors brings the bytes of the disk in order. -/
theorem sectors_consecutive {disk : Bytes} {lba n i : ℕ} (hi : i < sectorSize * n) :
    Transfer.sectors .consecutive disk lba zeroBuf 0 n i = disk (sectorSize * lba + i) := by
  unfold Transfer.sectors sectorSize at *
  rw [if_pos (by omega)]
  change disk (512 * (lba + i / 512) + i % 512) = _
  congr 1
  omega

theorem ensures_ideWriteLoop {e : Env} {lba left i : ℕ} {buf : Bytes} {Q : Unit → Kernel → Prop}
    {k : Kernel} (hlba : lba + i + left ≤ maxLba + 1) :
    (ideWriteLoop .consecutive lba buf left i).ensures e Q k ↔
      Q () { k with
        disk := copy k.disk (sectorSize * (lba + i)) buf (sectorSize * i) (sectorSize * left) } := by
  induction left generalizing i k with
  | zero =>
      rw [Nat.mul_zero, copy_zero_len]
      exact Iff.rfl
  | succ left ih =>
      have hfirst : lba + i ≤ maxLba := by omega
      rw [ideWriteLoop, ensures_bind, ideWriteSector, ensures_bind]
      rw [ensures_assert (decide_eq_true (show Transfer.sector .consecutive lba i ≤ maxLba from hfirst))]
      simp only [ensures_bind, ensures_block, ensures_modify]
      rw [ih (by omega)]
      have hdisk : copy (copy k.disk (sectorSize * (lba + i)) buf (sectorSize * i) sectorSize)
          (sectorSize * (lba + (i + 1))) buf (sectorSize * (i + 1)) (sectorSize * left) =
          copy k.disk (sectorSize * (lba + i)) buf (sectorSize * i) (sectorSize * (left + 1)) := by
        rw [show sectorSize * (lba + (i + 1)) = sectorSize * (lba + i) + sectorSize by ring,
          show sectorSize * (i + 1) = sectorSize * i + sectorSize by ring, copy_copy_append]
        congr 1
        ring
      rw [← hdisk]
      exact Iff.rfl

/-- An `ide_write` of consecutive sectors that lie on the disk. -/
theorem ensures_ideWrite {e : Env} {lba n : ℕ} {buf : Bytes} {Q : Unit → Kernel → Prop}
    {k : Kernel} (hlba : lba + n ≤ maxLba + 1) :
    (ideWrite .consecutive lba buf n).ensures e Q k ↔
      Q () { k with disk := copy k.disk (sectorSize * lba) buf 0 (sectorSize * n) } :=
  ensures_ideWriteLoop hlba

/-- Sectors that are read, changed in one place and written back are changed in that
place only. -/
theorem copy_embed {disk src buf : Bytes} {base off len total : ℕ} (hinside : off + len ≤ total)
    (hbuf : ∀ i < total, buf i = disk (base + i)) :
    copy disk base (copy buf off src 0 len) 0 total = copy disk (base + off) src 0 len := by
  funext a
  by_cases htotal : base ≤ a ∧ a < base + total
  · rw [copy_inside htotal.1 htotal.2, Nat.zero_add]
    by_cases hlen : off ≤ a - base ∧ a - base < off + len
    · rw [copy_inside hlen.1 hlen.2, copy_inside (by omega) (by omega)]
      congr 1
      omega
    · rw [copy_outside (by omega), copy_outside (by omega), hbuf _ (by omega)]
      congr 1
      omega
  · rw [copy_outside (by omega), copy_outside (by omega)]

/-- Embedding an inode in its sectors changes the bytes of its place. -/
theorem inode_embed (disk src : Bytes) (sb : SuperBlock) (n : ℕ) :
    copy disk (sectorSize * (inodePosition sb n).secLba)
        (copy (Transfer.sectors .consecutive disk (inodePosition sb n).secLba zeroBuf 0
          (inodePosition sb n).secs) (inodePosition sb n).offSize src 0 inodeSize) 0
        (sectorSize * (inodePosition sb n).secs) =
      copy disk (sb.inodePlace n) src 0 inodeSize := by
  rw [← inodePosition_place]
  exact copy_embed (inodePosition_inside sb n) fun i hi => sectors_consecutive hi

/-! ## What is stored -/

/-- The inode in the table is the one at its place. -/
theorem Kernel.diskInode_consecutive (k : Kernel) (n : ℕ) :
    k.diskInode .consecutive n = inodeAt k.disk (k.part.sb.inodePlace n) := by
  refine inodeAt_congr fun i hi => ?_
  have hinside := inodePosition_inside k.part.sb n
  rw [sectors_consecutive (by omega), ← inodePosition_place k.part.sb n, Nat.add_assoc]

/-- An inode that has been put at a place is read there. -/
theorem inodeAt_copy {disk : Bytes} {a : ℕ} {inode : Inode} (h : inode.Storable) :
    inodeAt (copy disk a inode.image 0 inodeSize) a = inode := by
  rw [← inodeAt_image h]
  refine inodeAt_congr fun i hi => ?_
  rw [inodeAt_image h, copy_add hi]

/-- An inode is not changed by what is put next to it. -/
theorem inodeAt_copy_of_disjoint {disk src : Bytes} {a b : ℕ}
    (h : b + inodeSize ≤ a ∨ a + inodeSize ≤ b) :
    inodeAt (copy disk a src 0 inodeSize) b = inodeAt disk b :=
  inodeAt_congr fun _ hi => copy_outside (by omega)

/-- The state after `inode_sync`. -/
def Kernel.sync (k : Kernel) (inode : Inode) : Kernel :=
  { k with disk := copy k.disk (k.part.sb.inodePlace (inode.iNo % 256)) inode.stored.image 0 inodeSize }

/-- The place that `inode_sync` writes to. -/
theorem Kernel.sync_place {k : Kernel} {inode : Inode} (hinode : inode.Storable) :
    (k.sync inode).diskInode .consecutive (inode.iNo % 256) = inode.stored := by
  rw [Kernel.diskInode_consecutive]
  exact inodeAt_copy hinode.stored

theorem Kernel.sync_other {k : Kernel} {inode : Inode} {m : ℕ} (hm : m ≠ inode.iNo % 256) :
    (k.sync inode).diskInode .consecutive m = k.diskInode .consecutive m := by
  rw [Kernel.diskInode_consecutive, Kernel.diskInode_consecutive]
  exact inodeAt_copy_of_disjoint (inodePlace_disjoint k.part.sb hm)

theorem InodePosition.secs_bounds (pos : InodePosition) : 0 < pos.secs ∧ pos.secs ≤ 2 := by
  unfold InodePosition.secs
  split <;> decide

/-- The sectors of an inode lie on the partition and on the disk. -/
theorem Kernel.TableFits.position {k : Kernel} (hk : k.TableFits) {n : ℕ} (hn : n < maxFilesPerPart) :
    (inodePosition k.part.sb n).secLba < k.part.startLba + k.part.secCnt ∧
      (inodePosition k.part.sb n).secLba + (inodePosition k.part.sb n).secs ≤ maxLba + 1 := by
  constructor
  · have hinside := inodePlace_inside k.part.sb hn
    rw [← inodePosition_place] at hinside
    refine lt_of_lt_of_le ?_ hk.part
    unfold sectorSize inodeSize at hinside
    omega
  · have hpos := (inodePosition k.part.sb n).secs_bounds.1
    have hlast : (inodePosition k.part.sb n).secLba + ((inodePosition k.part.sb n).secs - 1) ≤ maxLba :=
      inodePosition_le (t := .consecutive) hk.disk hn _ (by omega)
    omega

/-- `inode_sync` puts the inode at the place of its number modulo 256. -/
theorem ensures_inodeSync {e : Env} {k : Kernel} (hk : k.TableFits) {inode : Inode}
    {Q : Unit → Kernel → Prop} :
    (inodeSync .consecutive inode 2).ensures e Q k ↔ Q () (k.sync inode) := by
  have hn : inode.iNo % 256 < maxFilesPerPart := by
    unfold maxFilesPerPart
    omega
  obtain ⟨hpart, hdisk⟩ := hk.position hn
  have hsecs := (inodePosition k.part.sb (inode.iNo % 256)).secs_bounds.2
  rw [inodeSync, inodeLocate]
  simp only [ensures_bind]
  rw [ensures_assert (decide_eq_true hn)]
  simp only [ensures_read, ensures_pure]
  rw [ensures_assert (decide_eq_true hpart), if_neg (Nat.not_lt.mpr hsecs), ensures_bind,
    ensures_ideRead (inodePosition_le hk.disk hn), ensures_ideWrite hdisk]
  have hembed := inode_embed k.disk inode.stored.image k.part.sb (inode.iNo % 256)
  unfold Kernel.sync
  rw [← hembed]
  exact Iff.rfl

/-! ## What the callers rely on -/

/-- The same in all that is stored of an inode. -/
structure Inode.SameStored (inode inode' : Inode) : Prop where
  iNo : inode'.iNo = inode.iNo
  iSize : inode'.iSize = inode.iSize
  iSectors : inode'.iSectors = inode.iSectors

/-- Storing an inode does what it is for: it returns, `inode_open` reads the same inode
back, the inodes of the other numbers are kept, and so is the disk outside of the table. -/
structure StoresInode (k : Kernel) (inode : Inode) : Prop where
  returns : ∃ k', (inodeSync .consecutive inode 2).exec [] k = some ((), k')
  opens : ∀ k', Returns (inodeSync .consecutive inode 2) k () k' →
    ∃ a k'', (inodeOpen .consecutive inode.iNo).exec [] k' = some (a, k'')
  reads : ∀ k', Returns (inodeSync .consecutive inode 2) k () k' → ∀ a k'',
    Returns (inodeOpen .consecutive inode.iNo) k' a k'' → inode.SameStored (k''.inodes a)
  others : ∀ k', Returns (inodeSync .consecutive inode 2) k () k' →
    ∀ m < maxFilesPerPart, m ≠ inode.iNo → k'.diskInode .consecutive m = k.diskInode .consecutive m
  table : ∀ k', Returns (inodeSync .consecutive inode 2) k () k' → ∀ a,
    a < sectorSize * k.part.sb.inodeTableLba ∨
      sectorSize * (k.part.sb.inodeTableLba + inodeTableSects) ≤ a → k'.disk a = k.disk a

/-- The table holds the inode already, at its place and at the place `inode_sync` takes. -/
structure Kernel.HoldsTwice (k : Kernel) (inode : Inode) : Prop where
  own : inode.SameStored (k.diskInode .consecutive inode.iNo)
  low : k.diskInode .consecutive (inode.iNo % 256) = inode.stored

section StoresInode

variable {k : Kernel} {inode : Inode}

/-- `inode_open` of a number that is not open reads the inode table. -/
theorem ensures_inodeOpen_load {t : Transfer} {e : Env} (he : FairEnv e)
    (htable : k.part.sb.inodeTableLba + inodeTableSects ≤ maxLba + 1) {n : ℕ}
    (hn : n < maxFilesPerPart) (hnone : k.findOpen n = none) {Q : ℕ → Kernel → Prop}
    (hQ : Q k.nextInode (k.load (k.diskInode t n))) : (inodeOpen t n).ensures e Q k := by
  simp only [inodeOpen, ensures_bind, ensures_read, hnone]
  simp only [inodeLocate, ensures_bind]
  rw [ensures_assert (decide_eq_true hn)]
  simp only [ensures_read, ensures_pure]
  refine ensures_sysMallocUnchecked he ?_
  simp only [ensures_write]
  refine ensures_sysMallocUnchecked he ?_
  rw [ensures_ideRead (inodePosition_le htable hn)]
  simp only [ensures_modify]
  exact hQ

theorem Kernel.TableFits.sync (hk : k.TableFits) : (k.sync inode).TableFits := ⟨hk.disk, hk.part⟩

theorem returns_inodeSync (hk : k.TableFits) {k' : Kernel}
    (hret : Returns (inodeSync .consecutive inode 2) k () k') : k' = k.sync inode := by
  have hsync : (inodeSync .consecutive inode 2).ensures .any (fun _ k' => k' = k.sync inode) k :=
    (ensures_inodeSync hk).mpr rfl
  exact wp_iff_returns.mp (wp_of_ensures hsync) () k' hret

theorem exec_inodeSync (hk : k.TableFits) :
    (inodeSync .consecutive inode 2).exec [] k = some ((), k.sync inode) := by
  have hsync : (inodeSync .consecutive inode 2).ensures .zero (fun _ k' => k' = k.sync inode) k :=
    (ensures_inodeSync hk).mpr rfl
  obtain ⟨_, k', hexec, hk'⟩ := exec_of_ensures hsync
  rwa [hk'] at hexec

/-- The inode that is read after a store is the one in the table. -/
theorem StoresInode.sameStored (hk : k.TableFits) (hn : inode.iNo < maxFilesPerPart)
    (hnone : k.findOpen inode.iNo = none) (h : StoresInode k inode) :
    inode.SameStored ((k.sync inode).diskInode .consecutive inode.iNo) := by
  have hload : (inodeOpen .consecutive inode.iNo).ensures .zero
      (fun a k'' => k''.inodes a =
        { (k.sync inode).diskInode .consecutive inode.iNo with iOpenCnts := 1 }) (k.sync inode) :=
    ensures_inodeOpen_load fairEnv_zero hk.sync.disk hn hnone ((k.sync inode).load_self _)
  obtain ⟨a, k'', hexec, hinode⟩ := exec_of_ensures hload
  have hsame := h.reads _ (returns_of_exec (exec_inodeSync hk)) a k'' (returns_of_exec hexec)
  rw [hinode] at hsame
  exact ⟨hsame.iNo, hsame.iSize, hsame.iSectors⟩

/-- A number from 256 on has its place elsewhere, so the store can only seem to work. -/
theorem StoresInode.holdsTwice (hk : k.TableFits) (hinode : inode.Storable)
    (hn : inode.iNo < maxFilesPerPart) (hnone : k.findOpen inode.iNo = none)
    (hlarge : 256 ≤ inode.iNo) (h : StoresInode k inode) : k.HoldsTwice inode := by
  have hne : inode.iNo ≠ inode.iNo % 256 := by omega
  have hown := h.sameStored hk hn hnone
  rw [Kernel.sync_other hne] at hown
  have hlow := h.others _ (returns_of_exec (exec_inodeSync hk)) (inode.iNo % 256)
    (by unfold maxFilesPerPart; omega) hne.symm
  rw [Kernel.sync_place hinode] at hlow
  exact ⟨hown, hlow.symm⟩

/-- Storing an inode works for the numbers below 256, and otherwise only when nothing
had to be stored. -/
theorem storesInode_iff (hk : k.TableFits) (hinode : inode.Storable)
    (hn : inode.iNo < maxFilesPerPart) (hnone : k.findOpen inode.iNo = none) :
    StoresInode k inode ↔ inode.iNo < 256 ∨ k.HoldsTwice inode := by
  constructor
  · intro h
    rcases Nat.lt_or_ge inode.iNo 256 with hsmall | hlarge
    · exact Or.inl hsmall
    · exact Or.inr (h.holdsTwice hk hinode hn hnone hlarge)
  · intro h
    have hstored : inode.SameStored ((k.sync inode).diskInode .consecutive inode.iNo) := by
      rcases h with hsmall | htwice
      · have hplace := Kernel.sync_place (k := k) hinode
        rw [Nat.mod_eq_of_lt hsmall] at hplace
        rw [hplace]
        exact ⟨rfl, rfl, rfl⟩
      · by_cases heq : inode.iNo = inode.iNo % 256
        · have hplace := Kernel.sync_place (k := k) hinode
          rw [← heq] at hplace
          rw [hplace]
          exact ⟨rfl, rfl, rfl⟩
        · rw [Kernel.sync_other heq]
          exact htwice.own
    have hopen {e : Env} (he : FairEnv e) : (inodeOpen .consecutive inode.iNo).ensures e
        (fun a k'' => inode.SameStored (k''.inodes a)) (k.sync inode) := by
      refine ensures_inodeOpen_load he hk.sync.disk hn hnone ?_
      rw [Kernel.load_self]
      exact ⟨hstored.iNo, hstored.iSize, hstored.iSectors⟩
    refine ⟨⟨_, exec_inodeSync hk⟩, fun k' hret => ?_, fun k' hret => ?_,
      fun k' hret m _ hne => ?_, fun k' hret a ha => ?_⟩
    · rw [returns_inodeSync hk hret]
      obtain ⟨a, k'', hexec, -⟩ := exec_of_ensures (hopen fairEnv_zero)
      exact ⟨a, k'', hexec⟩
    · rw [returns_inodeSync hk hret]
      exact wp_iff_returns.mp (wp_of_ensures (hopen fairEnv_any))
    · rw [returns_inodeSync hk hret]
      by_cases hm : m = inode.iNo % 256
      · rcases h with hsmall | htwice
        · rw [Nat.mod_eq_of_lt hsmall] at hm
          exact absurd hm hne
        · rw [hm, Kernel.sync_place hinode, htwice.low]
      · exact Kernel.sync_other hm
    · rw [returns_inodeSync hk hret]
      have hinside := inodePlace_inside k.part.sb (n := inode.iNo % 256)
        (by unfold maxFilesPerPart; omega)
      refine copy_outside ?_
      unfold SuperBlock.inodePlace at hinside ⊢
      omega

end StoresInode

/-! ## A new file system -/

/-- A new file system has room for its inode table. -/
theorem Kernel.Roomy.tableFits {k : Kernel} (hk : k.Roomy) : k.newFs.TableFits := by
  have hlast := hk.last
  obtain ⟨-, -, htlba, hdata, hend⟩ := hk.layout
  have hsects := hk.sects.2
  have htable : inodeTableSects = 608 := rfl
  constructor
  · change k.newSb.inodeTableLba + inodeTableSects ≤ maxLba + 1
    omega
  · change k.newSb.inodeTableLba + inodeTableSects ≤ k.part.startLba + k.part.secCnt
    omega

/-- The numbers of a new file system other than that of the root have no inode yet. -/
theorem Kernel.Roomy.diskInode_iNo {k : Kernel} (hk : k.Roomy) {n : ℕ} (hpos : 0 < n)
    (hn : n < maxFilesPerPart) : (k.newFs.diskInode .consecutive n).iNo = 0 := by
  have hinside := inodePlace_inside k.newSb hn
  rw [Kernel.diskInode_consecutive]
  change readU32 k.newDisk (k.newSb.inodePlace n) = readU32 zeroBuf 0
  unfold SuperBlock.inodePlace inodeSize at hinside ⊢
  refine readU32_congr fun i hi => ?_
  have hzero : copy zeroBuf 0 (rootInode k.newSb).image 0 inodeSize (76 * n + i) = 0 :=
    copy_outside (by unfold inodeSize; omega)
  rw [Nat.add_assoc, hk.newDisk_inodeTable, hzero]
  · rfl
  · rw [Nat.mul_add] at hinside
    omega

theorem inodeInit_storable {n : ℕ} (hn : n < 2 ^ 32) : (inodeInit n).Storable :=
  ⟨hn, Nat.two_pow_pos 32, Nat.two_pow_pos 32, fun _ => Nat.two_pow_pos 32, fun _ _ => rfl⟩

/-- In a new file system the inode 7 is stored. -/
theorem storesInode_seven : StoresInode smallMachine.newFs (inodeInit 7) :=
  (storesInode_iff smallMachine_roomy.tableFits (inodeInit_storable (by decide)) (by decide)
    rfl).mpr (Or.inl (by decide))

/-- The inode 256 is not: it takes the place of the inode 0. -/
theorem not_storesInode_256 : ¬ StoresInode smallMachine.newFs (inodeInit 256) := by
  intro h
  have htwice := h.holdsTwice smallMachine_roomy.tableFits (inodeInit_storable (by decide))
    (by decide) rfl (by decide)
  have hiNo := htwice.own.iNo
  have hzero : (smallMachine.newFs.diskInode .consecutive 256).iNo = 0 :=
    smallMachine_roomy.diskInode_iNo (by decide) (by decide)
  have hn : (inodeInit 256).iNo = 256 := rfl
  rw [hn, hzero] at hiNo
  cases hiNo

end BochsOs
