import BochsOs.Device.Partition
import BochsOs.Fs.FormatBounds
import BochsOs.Library.Follows

/-!
# The file systems at boot

The three loops of `fs_init` that look for a super block in every partition and format those
without one.  The counter `dev_no` of the second loop is not initialised.  With a first value
above 1 the loop over the disks of a channel is left at once, and its partitions stay as they
are (`installsFs_iff`).

The rest of `fs_init`, which mounts a partition, only reads the disks.
-/

namespace BochsOs

open ByteMemory Suspend Suspend.Prog

/-! ## The loops -/

section Loops

variable (t : Transfer)

/-- `partition_format` of a partition that need not be `cur_part`. -/
def formatPartition (r : PartitionRecord) : Prog Kernel Unit := do
  let k ← read
  write { k with part := { k.part with startLba := r.startLba, secCnt := r.secCnt } }
  partitionFormat t
  modify fun k' => { k' with part := k.part }

/-- The body of the innermost loop. -/
def installPart (r : PartitionRecord) : Prog Kernel Unit :=
  if r.secCnt ≠ 0 then do
    let sbBuf ← ideRead t (addU32 r.startLba 1) zeroBuf 1
    if readU32 sbBuf 0 ≠ fsMagic then formatPartition t r
  else return ()

/-- The loop over the partitions of a disk.  `part` is a pointer into `logic_parts` or into
`prim_parts`. -/
def installParts (primParts logicParts : ℕ → PartitionRecord) : (left partI : ℕ) →
    (part : Bool × ℕ) → Prog Kernel Unit
  | 0, _, _ => return ()
  | left + 1, partI, part => do
      let part := if partI = 4 then (true, 0) else part
      installPart t (if part.1 then logicParts part.2 else primParts part.2)
      installParts primParts logicParts left (partI + 1) (part.1, part.2 + 1)

/-- A program of the kernel with the slave disk of a channel as its disk. -/
def onDisk (chan : ℕ) (x : Prog Kernel α) : Prog (Kernel × (ℕ → Bytes)) α :=
  x.focus (fun s => { s.1 with disk := s.2 chan }) fun k s =>
    ({ k with disk := s.1.disk }, Function.update s.2 chan k.disk)

/-- The loop over the disks of a channel from `devNo` on. -/
def installDevs (ide : IdeState) (chan : ℕ) : (left devNo : ℕ) →
    Prog (Kernel × (ℕ → Bytes)) Unit
  | 0, _ => return ()
  | left + 1, devNo =>
      if devNo < 2 then do
        if devNo ≠ 0 then
          onDisk chan (installParts t (ide.primParts chan) (ide.logicParts chan) 12 0 (false, 0))
        installDevs ide chan left (devNo + 1)
      else return ()

/-- The loop over the channels; `devNo chan` is what `dev_no` holds at first. -/
def installChans (ide : IdeState) (devNo : ℕ → ℕ) : (left chan : ℕ) →
    Prog (Kernel × (ℕ → Bytes)) Unit
  | 0, _ => return ()
  | left + 1, chan => do
      installDevs t ide chan 2 (devNo chan)
      installChans ide devNo left (chan + 1)

/-- `fs_init` up to the end of the three loops. -/
def fsInitInstall (ide : IdeState) (devNo : ℕ → ℕ) (chanCnt : ℕ) :
    Prog (Kernel × (ℕ → Bytes)) Unit := do
  onDisk 0 sysMallocPanic
  installChans t ide devNo chanCnt 0

end Loops

/-! ## What it is for -/

/-- The partition has a super block with the magic number. -/
def HasFs (disk : Bytes) (r : PartitionRecord) : Prop :=
  readU32 (sectorOf disk (addU32 r.startLba 1)) 0 = fsMagic

/-- The sectors of a partition. -/
def PartitionRecord.Has (r : PartitionRecord) (lba : ℕ) : Prop :=
  r.startLba ≤ lba ∧ lba < r.startLba + r.secCnt

/-- The partitions of the slave disk of a channel. -/
def IdeState.partitions (ide : IdeState) (chan : ℕ) : List PartitionRecord :=
  ((List.range 4).map (ide.primParts chan) ++ (List.range 8).map (ide.logicParts chan)).filter
    fun r => r.secCnt ≠ 0

/-- `fs_init` leaves a file system in every partition, does not touch those that had one, and
at the next boot changes nothing. -/
def InstallsFs (t : Transfer) (ide : IdeState) (devNo : ℕ → ℕ) (chanCnt : ℕ)
    (s : Kernel × (ℕ → Bytes)) : Prop :=
  (fsInitInstall t ide devNo chanCnt).ensures .zero (fun _ s' =>
    (∀ chan < chanCnt, ∀ r ∈ ide.partitions chan, HasFs (s'.2 chan) r) ∧
    (∀ chan < chanCnt, ∀ r ∈ ide.partitions chan, HasFs (s.2 chan) r →
      ∀ lba, r.Has lba → sectorOf (s'.2 chan) lba = sectorOf (s.2 chan) lba) ∧
    ∀ k devNo', (fsInitInstall t ide devNo' chanCnt).ensures .zero (fun _ s'' => s''.2 = s'.2)
      (k, s'.2)) s

/-- The transfers of `partition_format`, as first sector and number of sectors. -/
def PartitionRecord.formatWrites (r : PartitionRecord) : List (ℕ × ℕ) :=
  let sb := formatSuperBlock r.startLba r.secCnt
  [(addU32 r.startLba 1, 1), (sb.blockBitmapLba, sb.blockBitmapSects),
    (sb.inodeBitmapLba, sb.inodeBitmapSects), (sb.inodeTableLba, sb.inodeTableSects),
    (sb.dataStartLba, 1)]

/-- Formatting the partition writes to the sector. -/
def PartitionRecord.Formats (t : Transfer) (r : PartitionRecord) (lba : ℕ) : Prop :=
  ∃ area ∈ r.formatWrites, ∃ j < area.2, lba = t.sector area.1 j

/-- Formatting `p` writes to no sector of `q` and not to its super block. -/
def PartitionRecord.Misses (t : Transfer) (p q : PartitionRecord) : Prop :=
  ∀ lba, p.Formats t lba → ¬ q.Has lba ∧ lba ≠ addU32 q.startLba 1

/-- Formatting one of the partitions leaves the other alone. -/
def FormatsApart (t : Transfer) (disk : Bytes) (p q : PartitionRecord) : Prop :=
  (¬ HasFs disk p → p.Misses t q) ∧ (¬ HasFs disk q → q.Misses t p)

instance (t : Transfer) (disk : Bytes) : Std.Symm (FormatsApart t disk) := ⟨fun _ _ h => ⟨h.2, h.1⟩⟩

/-- The partitions of a disk lie so that they can be formatted: what is written lies on the disk and in
no other partition. -/
structure Formattable (t : Transfer) (disk : Bytes) (rs : List PartitionRecord) : Prop where
  super : ∀ r ∈ rs, addU32 r.startLba 1 ≤ maxLba
  room : ∀ r ∈ rs, ¬ HasFs disk r → ∀ lba, r.Formats t lba → lba ≤ maxLba
  apart : rs.Pairwise (FormatsApart t disk)

/-! ## One partition -/

/-- The two disks differ in sectors of `S` at most. -/
def ChangesIn (S : ℕ → Prop) (disk disk' : Bytes) : Prop :=
  ∀ m, ¬ S m → sectorOf disk' m = sectorOf disk m

theorem ChangesIn.mono {S S' : ℕ → Prop} {disk disk' : Bytes} (h : ChangesIn S' disk disk')
    (hin : ∀ m, S' m → S m) : ChangesIn S disk disk' := fun m hm => h m fun hm' => hm (hin m hm')

theorem ChangesIn.trans {S : ℕ → Prop} {disk disk₁ disk₂ : Bytes} (h : ChangesIn S disk disk₁)
    (h' : ChangesIn S disk₁ disk₂) : ChangesIn S disk disk₂ :=
  fun m hm => (h' m hm).trans (h m hm)

theorem Transfer.sector_mem (t : Transfer) (lba i : ℕ) :
    lba ≤ t.sector lba i ∧ t.sector lba i ≤ lba + i := by
  cases t
  · exact ⟨le_rfl, Nat.le_add_right lba i⟩
  · exact ⟨Nat.le_add_right lba i, le_rfl⟩

/-- A transfer to sectors of `S`. -/
theorem ensures_ideWrite_changesIn {t : Transfer} {e : Env} {lba n : ℕ} {buf : Bytes} {S : ℕ → Prop}
    {Q : Unit → Kernel → Prop} {k : Kernel} (hS : ∀ j < n, S (t.sector lba j) ∧ t.sector lba j ≤ maxLba)
    (hQ : ∀ disk, ChangesIn S k.disk disk → Q () { k with disk := disk }) :
    (ideWrite t lba buf n).ensures e Q k :=
  ensures_ideWriteLoop_area (S := S) (fun j _ hj => hS j (by omega)) hQ

/-- Where the parts of a new file system lie when its super block is on the disk. -/
theorem formatSuperBlock_behind {startLba : ℕ} (secCnt : ℕ) (hsuper : addU32 startLba 1 ≤ maxLba) :
    let sb := formatSuperBlock startLba secCnt
    addU32 startLba 1 < sb.blockBitmapLba ∧ addU32 startLba 1 < sb.inodeBitmapLba ∧
      addU32 startLba 1 < sb.inodeTableLba ∧ addU32 startLba 1 < sb.dataStartLba := by
  have hmax : maxLba + 1 = 163840 := rfl
  have hsects : blockBitmapSects secCnt < 2 ^ 20 := by
    rw [blockBitmapSects, divRoundUp_sector]
    omega
  set sb := formatSuperBlock startLba secCnt with hsb
  have hblba : sb.blockBitmapLba = addU32 startLba 2 := rfl
  have hilba : sb.inodeBitmapLba = addU32 sb.blockBitmapLba (blockBitmapSects secCnt) := rfl
  have htlba : sb.inodeTableLba = addU32 sb.inodeBitmapLba 1 := rfl
  have hdata : sb.dataStartLba = addU32 sb.inodeTableLba 608 := rfl
  have hfirst : addU32 startLba 2 = addU32 startLba 1 + 1 := by
    unfold addU32 at *
    omega
  rw [hfirst] at hblba
  rw [hblba, addU32_of_lt (by omega)] at hilba
  rw [hilba, addU32_of_lt (by omega)] at htlba
  rw [htlba, addU32_of_lt (by omega)] at hdata
  omega

/-- Where the parts of the new file system lie in a partition that has room for them. -/
theorem formatSuperBlock_fits {startLba secCnt : ℕ} (hroom : 612 ≤ secCnt)
    (hlast : startLba + secCnt ≤ maxLba + 1) :
    let sb := formatSuperBlock startLba secCnt
    sb.blockBitmapLba = startLba + 2 ∧ sb.inodeBitmapLba = startLba + 2 + sb.blockBitmapSects ∧
      sb.inodeTableLba = startLba + 3 + sb.blockBitmapSects ∧
      sb.dataStartLba = startLba + 611 + sb.blockBitmapSects ∧ sb.blockBitmapSects + 612 ≤ secCnt := by
  have hmax : maxLba + 1 = 163840 := rfl
  have hfree : freeSects secCnt = secCnt - 611 := subU32_of_le (by change 611 ≤ secCnt; omega)
  have hfirst : divRoundUp (secCnt - 611) bitsPerSector = (secCnt - 611 + 4095) / 4096 := by
    rw [divRoundUp_sector, Nat.mod_eq_of_lt (by omega)]
  have hlen : blockBitmapBitLen secCnt = secCnt - 611 - (secCnt - 611 + 4095) / 4096 := by
    rw [blockBitmapBitLen, hfree, hfirst, subU32_of_le (by omega)]
  have hsects : blockBitmapSects secCnt = (blockBitmapBitLen secCnt + 4095) / 4096 := by
    rw [blockBitmapSects, divRoundUp_sector, Nat.mod_eq_of_lt (by omega)]
  have hin : blockBitmapSects secCnt + 612 ≤ secCnt := by omega
  have hnumbers : startLba + 611 + blockBitmapSects secCnt < 2 ^ 32 := by omega
  obtain ⟨hblba, hilba, htlba, hdata⟩ := formatSuperBlock_eq hnumbers
  exact ⟨hblba, hilba, htlba, hdata, hin⟩

/-- Formatting such a partition writes to its own sectors. -/
theorem PartitionRecord.Formats.has {t : Transfer} {r : PartitionRecord} {lba : ℕ}
    (h : r.Formats t lba) (hroom : 612 ≤ r.secCnt) (hlast : r.startLba + r.secCnt ≤ maxLba + 1) :
    r.Has lba := by
  obtain ⟨hblba, hilba, htlba, hdata, hin⟩ := formatSuperBlock_fits hroom hlast
  have hbits : (formatSuperBlock r.startLba r.secCnt).inodeBitmapSects = 1 := rfl
  have htable : (formatSuperBlock r.startLba r.secCnt).inodeTableSects = 608 := rfl
  have hmax : maxLba + 1 = 163840 := rfl
  have hsuper : addU32 r.startLba 1 = r.startLba + 1 := addU32_of_lt (by omega)
  obtain ⟨area, harea, j, hj, rfl⟩ := h
  have hsector := t.sector_mem area.1 j
  unfold PartitionRecord.Has
  simp only [PartitionRecord.formatWrites, List.mem_cons, List.not_mem_nil, or_false] at harea
  rcases harea with rfl | rfl | rfl | rfl | rfl <;> dsimp only at hj hsector ⊢ <;> omega

/-- The super block of the new file system carries the magic number. -/
theorem hasFs_copy (disk : Bytes) (sb : SuperBlock) (hmagic : sb.magic = fsMagic) (r : PartitionRecord) :
    HasFs (copy disk (sectorSize * addU32 r.startLba 1) (wordImage sb.word) 0 sectorSize) r := by
  have hsame : ∀ i < 4, sectorOf (copy disk (sectorSize * addU32 r.startLba 1) (wordImage sb.word) 0
      sectorSize) (addU32 r.startLba 1) (0 + i) = wordImage sb.word (4 * 0 + i) := by
    intro i hi
    have hin : 0 + i < sectorSize := by unfold sectorSize; omega
    rw [sectorOf_apply hin, copy_add hin, Nat.zero_add, Nat.mul_zero, Nat.zero_add]
  rw [HasFs, readU32_congr hsame, readU32_wordImage]
  change sb.magic % 2 ^ 32 = fsMagic
  rw [hmagic]
  decide

/-- Formatting changes no other sectors and leaves a super block. -/
theorem ensures_partitionFormat {t : Transfer} {e : Env} (he : FairEnv e) {k : Kernel}
    {r : PartitionRecord} (hstart : k.part.startLba = r.startLba) (hcnt : k.part.secCnt = r.secCnt)
    (hroom : ∀ lba, r.Formats t lba → lba ≤ maxLba) {Q : Unit → Kernel → Prop}
    (hQ : ∀ disk, ChangesIn (r.Formats t) k.disk disk → HasFs disk r →
      Q () { k with disk := disk }) : (partitionFormat t).ensures e Q k := by
  have hwrites {lba n : ℕ} (hmem : (lba, n) ∈ r.formatWrites) {j : ℕ} (hj : j < n) :
      r.Formats t (t.sector lba j) := ⟨(lba, n), hmem, j, hj, rfl⟩
  have hfirst : r.Formats t (addU32 r.startLba 1) := by
    have hzero := hwrites List.mem_cons_self Nat.one_pos
    rwa [Transfer.sector_zero] at hzero
  have hsuper := hroom _ hfirst
  obtain ⟨hblba, hilba, htlba, hdata⟩ := formatSuperBlock_behind r.secCnt hsuper
  -- the transfers after the first one spare the super block
  set S : ℕ → Prop := fun m => r.Formats t m ∧ m ≠ addU32 r.startLba 1 with hS
  have harea {lba n : ℕ} (hmem : (lba, n) ∈ r.formatWrites) (hlow : addU32 r.startLba 1 < lba) :
      ∀ j < n, S (t.sector lba j) ∧ t.sector lba j ≤ maxLba := fun j hj => by
    have hin := hwrites hmem hj
    exact ⟨⟨hin, (hlow.trans_le (t.sector_mem lba j).1).ne'⟩, hroom _ hin⟩
  rw [partitionFormat, ensures_bind, ensures_read, hstart, hcnt]
  simp only [ensures_bind]
  rw [ensures_ideWrite_one hsuper]
  have hfs := hasFs_copy k.disk (formatSuperBlock r.startLba r.secCnt) rfl r
  have hchanges : ChangesIn (r.Formats t) k.disk (copy k.disk (sectorSize * addU32 r.startLba 1)
      (wordImage (formatSuperBlock r.startLba r.secCnt).word) 0 sectorSize) := fun m hm =>
    sectorOf_copy_other fun heq => hm (heq ▸ hfirst)
  refine ensures_sysMallocUnchecked he ?_
  refine ensures_ideWrite_changesIn (harea (by simp [PartitionRecord.formatWrites]) hblba)
    fun disk₂ h₂ => ?_
  refine ensures_ideWrite_changesIn (harea (by simp [PartitionRecord.formatWrites]) hilba)
    fun disk₃ h₃ => ?_
  refine ensures_ideWrite_changesIn (harea (by simp [PartitionRecord.formatWrites]) htlba)
    fun disk₄ h₄ => ?_
  refine ensures_ideWrite_changesIn (harea (by simp [PartitionRecord.formatWrites]) hdata)
    fun disk₅ h₅ => ?_
  have hrest : ChangesIn S _ disk₅ := ((h₂.trans h₃).trans h₄).trans h₅
  refine hQ disk₅ (hchanges.trans (hrest.mono fun m hm => hm.1)) ?_
  rw [HasFs, hrest (addU32 r.startLba 1) fun h => h.2 rfl]
  exact hfs

section Format

variable {t : Transfer} {e : Env} {k : Kernel} {r : PartitionRecord} {Q : Unit → Kernel → Prop}

theorem ensures_formatPartition (he : FairEnv e) (hroom : ∀ lba, r.Formats t lba → lba ≤ maxLba)
    (hQ : ∀ disk, ChangesIn (r.Formats t) k.disk disk → HasFs disk r → Q () { k with disk := disk }) :
    (formatPartition t r).ensures e Q k := by
  rw [formatPartition, ensures_bind, ensures_read, ensures_bind, ensures_write, ensures_bind]
  exact ensures_partitionFormat he rfl rfl hroom fun disk hdisk hfs => hQ disk hdisk hfs

/-- A partition with a file system is left alone. -/
theorem ensures_installPart_hasFs (hsuper : addU32 r.startLba 1 ≤ maxLba) (hfs : HasFs k.disk r) :
    (installPart t r).ensures e Q k ↔ Q () k := by
  have hmagic : readU32 (sectorOf k.disk (addU32 r.startLba 1)) 0 = fsMagic := hfs
  rw [installPart]
  by_cases hcnt : r.secCnt ≠ 0
  · rw [if_pos hcnt, ensures_bind, ensures_ideRead_one hsuper, if_neg (not_not.mpr hmagic)]
    exact Iff.rfl
  · rw [if_neg hcnt]
    exact Iff.rfl

/-- A partition without one is formatted. -/
theorem ensures_installPart_format (hcnt : r.secCnt ≠ 0)
    (hsuper : addU32 r.startLba 1 ≤ maxLba) (hfs : ¬ HasFs k.disk r) :
    (installPart t r).ensures e Q k ↔ (formatPartition t r).ensures e Q k := by
  have hmagic : readU32 (sectorOf k.disk (addU32 r.startLba 1)) 0 ≠ fsMagic := hfs
  rw [installPart, if_pos hcnt, ensures_bind, ensures_ideRead_one hsuper, if_pos hmagic]

end Format

/-! ## The partitions of a disk -/

/-- The loop over the partitions as a list. -/
def installList (t : Transfer) : List PartitionRecord → Prog Kernel Unit
  | [] => return ()
  | r :: rs => do
      installPart t r
      installList t rs

/-- The index switching visits first the primary and then the logical partitions. -/
theorem installParts_eq (t : Transfer) (prim logic : ℕ → PartitionRecord) :
    installParts t prim logic 12 0 (false, 0) =
      installList t ((List.range 4).map prim ++ (List.range 8).map logic) := rfl

section Disk

variable {t : Transfer} {e : Env} {k : Kernel} {rs : List PartitionRecord} {Q : Unit → Kernel → Prop}

/-- Empty records are passed over. -/
theorem ensures_installList_filter : (installList t rs).ensures e Q k ↔
    (installList t (rs.filter fun r => r.secCnt ≠ 0)).ensures e Q k := by
  induction rs generalizing k with
  | nil => exact Iff.rfl
  | cons r rs ih =>
      rw [installList, ensures_bind]
      by_cases hcnt : r.secCnt ≠ 0
      · have hkeep : (r :: rs).filter (fun r => r.secCnt ≠ 0) = r :: rs.filter fun r => r.secCnt ≠ 0 :=
          List.filter_cons_of_pos (by simpa using hcnt)
        rw [hkeep, installList, ensures_bind]
        simp only [ih]
      · have hdrop : (r :: rs).filter (fun r => r.secCnt ≠ 0) = rs.filter fun r => r.secCnt ≠ 0 :=
          List.filter_cons_of_neg (by simpa using hcnt)
        rw [hdrop, installPart, if_neg hcnt]
        exact ih

/-- What is left of the partitions after the first is formattable again. -/
theorem Formattable.tail {disk disk' : Bytes} {r : PartitionRecord} (h : Formattable t disk (r :: rs))
    (hsame : ∀ q ∈ rs, HasFs disk' q ↔ HasFs disk q) : Formattable t disk' rs where
  super q hq := h.super q (List.mem_cons_of_mem r hq)
  room q hq hfs := h.room q (List.mem_cons_of_mem r hq) fun hq' => hfs ((hsame q hq).mpr hq')
  apart := by
    refine (List.pairwise_cons.mp h.apart).2.imp_of_mem fun hp hq hpq => ?_
    rw [FormatsApart, hsame _ hp, hsame _ hq]
    exact hpq

/-- After the loop all partitions have a file system, and only sectors that formatting those that had
none writes to have changed. -/
structure LeavesFs (t : Transfer) (disk disk' : Bytes) (rs : List PartitionRecord) : Prop where
  hasFs : ∀ r ∈ rs, HasFs disk' r
  same : ∀ lba, (∀ r ∈ rs, ¬ HasFs disk r → ¬ r.Formats t lba) → sectorOf disk' lba = sectorOf disk lba

theorem HasFs.congr {disk disk' : Bytes} {r : PartitionRecord}
    (h : sectorOf disk' (addU32 r.startLba 1) = sectorOf disk (addU32 r.startLba 1)) :
    HasFs disk' r ↔ HasFs disk r := by
  rw [HasFs, HasFs, h]

theorem ensures_installList (he : FairEnv e) (hrs : ∀ r ∈ rs, r.secCnt ≠ 0) (h : Formattable t k.disk rs)
    (hQ : ∀ disk, LeavesFs t k.disk disk rs → Q () { k with disk := disk }) :
    (installList t rs).ensures e Q k := by
  induction rs generalizing k with
  | nil => exact hQ k.disk ⟨fun r hr => absurd hr List.not_mem_nil, fun _ _ => rfl⟩
  | cons r rs ih =>
      have hrs' : ∀ q ∈ rs, q.secCnt ≠ 0 := fun q hq => hrs q (List.mem_cons_of_mem r hq)
      have hapart := (List.pairwise_cons.mp h.apart).1
      have hsuper := h.super r List.mem_cons_self
      rw [installList, ensures_bind]
      by_cases hfs : HasFs k.disk r
      · rw [ensures_installPart_hasFs hsuper hfs]
        refine ih hrs' (h.tail fun _ _ => Iff.rfl) fun disk hdisk => hQ disk ⟨fun q hq => ?_, fun lba hlba => ?_⟩
        · rcases List.mem_cons.mp hq with rfl | hq
          · refine (HasFs.congr (hdisk.same _ fun p hp hpfs => ?_)).mpr hfs
            exact fun hin => ((hapart p hp).2 hpfs _ hin).2 rfl
          · exact hdisk.hasFs q hq
        · exact hdisk.same lba fun q hq => hlba q (List.mem_cons_of_mem r hq)
      · have hroom := h.room r List.mem_cons_self hfs
        rw [ensures_installPart_format (hrs r List.mem_cons_self) hsuper hfs]
        refine ensures_formatPartition he hroom fun disk₁ h₁ hfs₁ => ?_
        have hsame : ∀ q ∈ rs, HasFs disk₁ q ↔ HasFs k.disk q := by
          intro q hq
          refine HasFs.congr (h₁ _ fun hin => ?_)
          exact ((hapart q hq).1 hfs _ hin).2 rfl
        refine ih hrs' (h.tail hsame) fun disk hdisk => hQ disk ⟨fun q hq => ?_, fun lba hlba => ?_⟩
        · rcases List.mem_cons.mp hq with rfl | hq
          · refine (HasFs.congr (hdisk.same _ fun p hp hpfs => ?_)).mpr hfs₁
            exact fun hin => ((hapart p hp).2 (fun hp' => hpfs ((hsame p hp).mpr hp')) _ hin).2 rfl
          · exact hdisk.hasFs q hq
        · refine (hdisk.same lba fun q hq hqfs => ?_).trans (h₁ lba ?_)
          · exact hlba q (List.mem_cons_of_mem r hq) fun hq' => hqfs ((hsame q hq).mpr hq')
          · exact hlba r List.mem_cons_self hfs

theorem Formattable.of_hasFs {disk : Bytes} (hsuper : ∀ r ∈ rs, addU32 r.startLba 1 ≤ maxLba)
    (hfs : ∀ r ∈ rs, HasFs disk r) : Formattable t disk rs where
  super := hsuper
  room r hr hnot := absurd (hfs r hr) hnot
  apart := List.pairwise_of_forall_mem_list fun p hp q hq =>
    ⟨fun hnot => absurd (hfs p hp) hnot, fun hnot => absurd (hfs q hq) hnot⟩

/-- Formatting a partition leaves one with a file system alone. -/
theorem Formattable.misses {disk : Bytes} (h : Formattable t disk rs) {p q : PartitionRecord} (hp : p ∈ rs)
    (hq : q ∈ rs) (hpfs : ¬ HasFs disk p) (hqfs : HasFs disk q) : p.Misses t q := by
  have hne : p ≠ q := fun heq => hpfs (heq ▸ hqfs)
  exact (h.apart.forall hp hq hne).1 hpfs

theorem eq_of_sectorOf {disk disk' : Bytes} (h : ∀ lba, sectorOf disk' lba = sectorOf disk lba) :
    disk' = disk := by
  funext a
  have hin : a % sectorSize < sectorSize := Nat.mod_lt _ (by decide)
  have hbyte := congrFun (h (a / sectorSize)) (a % sectorSize)
  rwa [sectorOf_apply hin, sectorOf_apply hin, Nat.div_add_mod] at hbyte

/-- Where all partitions have a file system nothing changes. -/
theorem LeavesFs.eq {disk disk' : Bytes} (h : LeavesFs t disk disk' rs) (hfs : ∀ r ∈ rs, HasFs disk r) :
    disk' = disk :=
  eq_of_sectorOf fun lba => h.same lba fun r hr hnot => absurd (hfs r hr) hnot

end Disk

/-! ## All disks -/

section Channels

variable {t : Transfer} {e : Env} {ide : IdeState} {devNo : ℕ → ℕ} {s : Kernel × (ℕ → Bytes)}
  {Q : Unit → Kernel × (ℕ → Bytes) → Prop}

theorem ensures_onDisk {chan : ℕ} {x : Prog Kernel α} {Q : α → Kernel × (ℕ → Bytes) → Prop} :
    (onDisk chan x).ensures e Q s ↔ x.ensures e (fun a k =>
      Q a ({ k with disk := s.1.disk }, Function.update s.2 chan k.disk)) { s.1 with disk := s.2 chan } := by
  refine ensures_focus (fun k s => ?_) (fun k k' s => ?_) fun s => ?_
  · dsimp only
    rw [Function.update_self]
  · dsimp only
    rw [Function.update_idem]
  · dsimp only
    rw [Function.update_eq_self]

/-- The slave disk of a channel is visited when `dev_no` holds `0` or `1` at first. -/
theorem installDevs_visited {chan n : ℕ} (hn : n ≤ 1) : (installDevs t ide chan 2 n).ensures e Q s ↔
    (onDisk chan (installParts t (ide.primParts chan) (ide.logicParts chan) 12 0 (false, 0))).ensures e
      Q s := by
  obtain rfl | rfl : n = 0 ∨ n = 1 := by omega
  · change ((pure PUnit.unit : Prog _ _) >>= fun _ => installDevs t ide chan 1 1).ensures e Q s ↔ _
    rw [ret_bind]
    change (onDisk chan _ >>= fun _ => installDevs t ide chan 0 2).ensures e Q s ↔ _
    rw [ensures_bind]
    exact Iff.rfl
  · change (onDisk chan _ >>= fun _ => installDevs t ide chan 1 2).ensures e Q s ↔ _
    rw [ensures_bind]
    exact Iff.rfl

theorem installDevs_skipped {chan n : ℕ} (hn : 2 ≤ n) :
    (installDevs t ide chan 2 n).ensures e Q s ↔ Q () s := by
  rw [installDevs, if_neg (by omega)]
  exact Iff.rfl

/-- What the loops leave on the disks of the channels from `lo` to `hi`. -/
structure LeavesDisks (t : Transfer) (ide : IdeState) (devNo : ℕ → ℕ) (lo hi : ℕ) (disks disks' : ℕ → Bytes) : Prop where
  visited : ∀ c, lo ≤ c → c < hi → devNo c ≤ 1 → LeavesFs t (disks c) (disks' c) (ide.partitions c)
  others : ∀ c, c < lo ∨ hi ≤ c ∨ 2 ≤ devNo c → disks' c = disks c

theorem ensures_installChans (he : FairEnv e) {left chan : ℕ}
    (hform : ∀ c, chan ≤ c → c < chan + left → devNo c ≤ 1 → Formattable t (s.2 c) (ide.partitions c))
    (hQ : ∀ disks, LeavesDisks t ide devNo chan (chan + left) s.2 disks → Q () (s.1, disks)) :
    (installChans t ide devNo left chan).ensures e Q s := by
  induction left generalizing chan s with
  | zero => exact hQ s.2 ⟨fun c hlo hhi => absurd hhi (Nat.not_lt.mpr hlo), fun _ _ => rfl⟩
  | succ left ih =>
      rw [installChans, ensures_bind]
      by_cases hdev : devNo chan ≤ 1
      · rw [installDevs_visited hdev, ensures_onDisk, installParts_eq, ensures_installList_filter]
        refine ensures_installList he (fun r hr => by simpa using (List.mem_filter.mp hr).2)
          (hform chan le_rfl (by omega) hdev) fun disk hdisk => ?_
        refine ih (fun c hlo hhi hc => ?_) fun disks hdisks => ?_
        · have hne : c ≠ chan := by omega
          dsimp only
          rw [Function.update_of_ne hne]
          exact hform c (by omega) (by omega) hc
        · refine hQ disks ⟨fun c hlo hhi hc => ?_, fun c hc => ?_⟩
          · rcases Nat.eq_or_lt_of_le hlo with rfl | hlt
            · rw [hdisks.others chan (Or.inl (Nat.lt_succ_self chan))]
              dsimp only
              rw [Function.update_self]
              exact hdisk
            · have h := hdisks.visited c hlt (by omega) hc
              dsimp only at h
              rwa [Function.update_of_ne (by omega)] at h
          · have hne : c ≠ chan := by
              rintro rfl
              omega
            rw [hdisks.others c (by omega)]
            exact Function.update_of_ne hne _ _
      · rw [installDevs_skipped (by omega)]
        refine ih (fun c hlo hhi hc => hform c (by omega) (by omega) hc) fun disks hdisks => ?_
        refine hQ disks ⟨fun c hlo hhi hc => ?_, fun c hc => ?_⟩
        · exact hdisks.visited c (Nat.lt_of_le_of_ne hlo fun heq => hdev (heq ▸ hc)) (by omega) hc
        · by_cases heq : c = chan
          · exact hdisks.others c (Or.inl (by omega))
          · exact hdisks.others c (by omega)

theorem ensures_fsInitInstall (he : FairEnv e) {chanCnt : ℕ}
    (hform : ∀ c < chanCnt, devNo c ≤ 1 → Formattable t (s.2 c) (ide.partitions c))
    (hQ : ∀ disks, LeavesDisks t ide devNo 0 chanCnt s.2 disks → Q () (s.1, disks)) :
    (fsInitInstall t ide devNo chanCnt).ensures e Q s := by
  rw [fsInitInstall, ensures_bind, ensures_onDisk, sysMallocPanic, ensures_bind]
  refine ensures_sysMalloc he ?_ fun hstops => hstops
  rw [if_pos rfl, ensures_pure, Function.update_eq_self]
  refine ensures_installChans he (fun c _ hc hdev => hform c (by omega) hdev) fun disks hdisks => hQ disks ?_
  rwa [Nat.zero_add] at hdisks

end Channels

section Boot

variable {t : Transfer} {ide : IdeState} {devNo : ℕ → ℕ} {chanCnt : ℕ} {s : Kernel × (ℕ → Bytes)}

/-- On disks whose partitions all have a file system nothing is changed. -/
theorem fsInitInstall_again {disks : ℕ → Bytes} (k : Kernel)
    (hsuper : ∀ c < chanCnt, ∀ r ∈ ide.partitions c, addU32 r.startLba 1 ≤ maxLba)
    (hfs : ∀ c < chanCnt, ∀ r ∈ ide.partitions c, HasFs (disks c) r) :
    (fsInitInstall t ide devNo chanCnt).ensures .zero (fun _ s' => s'.2 = disks) (k, disks) := by
  refine ensures_fsInitInstall fairEnv_zero (fun c hc _ => .of_hasFs (hsuper c hc) (hfs c hc)) ?_
  intro disks' hdisks
  funext c
  by_cases hvisited : c < chanCnt ∧ devNo c ≤ 1
  · exact (hdisks.visited c (Nat.zero_le c) hvisited.1 hvisited.2).eq (hfs c hvisited.1)
  · exact hdisks.others c (by omega)

/-- A partition without a file system on a channel whose disks are skipped stays so. -/
theorem InstallsFs.visits (h : InstallsFs t ide devNo chanCnt s)
    (hform : ∀ c < chanCnt, devNo c ≤ 1 → Formattable t (s.2 c) (ide.partitions c)) {c : ℕ}
    (hc : c < chanCnt) : devNo c ≤ 1 ∨ ∀ r ∈ ide.partitions c, HasFs (s.2 c) r := by
  rcases Nat.lt_or_ge 1 (devNo c) with hskip | hvisit
  · refine Or.inr fun r hr => ?_
    obtain ⟨a, s', hout⟩ := exists_outcome h
    have hkept : s'.2 c = s.2 c :=
      (hout fun _ s' => s'.2 c = s.2 c).mp (ensures_fsInitInstall fairEnv_zero hform
        fun disks hdisks => hdisks.others c (by omega))
    rw [← hkept]
    exact ((hout _).mp h).1 c hc r hr
  · exact Or.inl hvisit

end Boot

/-! ## A new disk -/

/-- A primary partition of 2000 sectors from sector 63 on. -/
def onePartition : IdeState :=
  { IdeState.boot with primParts := fun _ i => if i = 0 then ⟨63, 2000, 1⟩ else ⟨0, 0, 0⟩ }

theorem onePartition_partitions (c : ℕ) : onePartition.partitions c = [⟨63, 2000, 1⟩] := rfl

theorem not_hasFs_blank (r : PartitionRecord) : ¬ HasFs zeroBuf r := by
  have hzero : sectorOf zeroBuf (addU32 r.startLba 1) = zeroBuf := by
    funext a
    unfold sectorOf copy
    split <;> rfl
  rw [HasFs, hzero]
  decide

theorem onePartition_super (c : ℕ) : ∀ r ∈ onePartition.partitions c, addU32 r.startLba 1 ≤ maxLba := by
  intro r hr
  rw [onePartition_partitions] at hr
  rw [List.mem_singleton.mp hr, addU32_of_lt (by decide)]
  decide

theorem onePartition_formattable (t : Transfer) (c : ℕ) :
    Formattable t zeroBuf (onePartition.partitions c) := by
  refine ⟨onePartition_super c, fun r hr _ lba hlba => ?_, ?_⟩
  · rw [onePartition_partitions] at hr
    obtain rfl := List.mem_singleton.mp hr
    have hin := hlba.has (by decide) (by decide)
    exact Nat.lt_succ_iff.mp (hin.2.trans_le (by decide))
  · rw [onePartition_partitions]
    exact List.pairwise_singleton _ _

end BochsOs
