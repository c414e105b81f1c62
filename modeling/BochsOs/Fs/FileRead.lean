import BochsOs.Fs.FileBlocks
import BochsOs.Fs.Syscall
import BochsOs.Library.Outcome

/-!
# What reading a file gives

`contents` is a file as its blocks on the disk make it up, and `Readable` says that these blocks
can be read.  A `sys_read` then copies the bytes from `fd_pos` on, as many as the file still has
(`outcome_sysRead`), and a `sys_lseek` moves `fd_pos` or, past the end, leaves it alone
(`outcome_sysLseek`).

Two kinds of reads do not return.  `file_read` does not accept a position in the last sector that a
file can have, and a count so large that `pos + count` leaves 32 bits is taken for one that fits
(`outcome_fileRead_wrap`).

All this is about the run in which the buffers of `file_read` are granted.
-/

namespace BochsOs

open ByteMemory Suspend Suspend.Prog

/-! ## Files -/

/-- The bytes of a file. -/
structure Contents where
  size : ℕ
  byte : Bytes

/-- Block `i` of a file. -/
def blockAt (disk : Bytes) (iSectors : ℕ → ℕ) (i : ℕ) : ℕ :=
  if i < directPtrs then iSectors i else tableEntry disk (iSectors directPtrs) i

/-- The file of an inode. -/
def contents (disk : Bytes) (inode : Inode) : Contents where
  size := inode.iSize
  byte p := disk (sectorSize * blockAt disk inode.iSectors (p / sectorSize) + p % sectorSize)

/-- The file is not too large, and its blocks are sectors of the disk. -/
structure Readable (disk : Bytes) (inode : Inode) : Prop where
  size : inode.iSize ≤ maxFileSize
  blocks : ∀ i, sectorSize * i < inode.iSize → blockAt disk inode.iSectors i ≤ maxLba
  table : sectorSize * directPtrs ≤ inode.iSize →
    inode.iSectors directPtrs ≠ 0 ∧ inode.iSectors directPtrs ≤ maxLba

namespace Contents

variable (c : Contents)

/-- How many bytes there are for a read. -/
def readLen (pos count : ℕ) : ℕ := min count (c.size - pos)

/-- What the read returns. -/
def readRet (pos count : ℕ) : ℤ := if pos = c.size ∧ 0 < count then -1 else c.readLen pos count

/-- `file_read` gets past its `ASSERT`. -/
def Served (pos count : ℕ) : Prop :=
  pos = c.size ∧ 0 < count ∨ pos + c.readLen pos count < 139 * sectorSize

instance (pos count : ℕ) : Decidable (c.Served pos count) := inferInstanceAs (Decidable (_ ∨ _))

/-- Where a seek to `off` leads from `pos`. -/
def seekPos (pos off : ℕ) : ℕ := if off < c.size then off else pos

variable {c}

theorem seekPos_le {pos off : ℕ} (hpos : pos ≤ c.size) : c.seekPos pos off ≤ c.size := by
  unfold seekPos
  split
  next h => exact h.le
  next => exact hpos

theorem readLen_le {pos count : ℕ} (hpos : pos ≤ c.size) : pos + c.readLen pos count ≤ c.size := by
  unfold readLen
  omega

end Contents

/-! ## The position of an open file -/

namespace Kernel

variable (k : Kernel)

/-- Overwrite `fd_pos` of the entry `g`. -/
def setPos (g pos : ℕ) : Kernel := k.setFile g { k.fileTable g with fdPos := pos }

variable {k} {g : ℕ}

@[simp] theorem fileTable_setPos (pos : ℕ) :
    (k.setPos g pos).fileTable g = { k.fileTable g with fdPos := pos } := Function.update_self _ _ _

@[simp] theorem inodes_setPos (pos : ℕ) : (k.setPos g pos).inodes = k.inodes := rfl

@[simp] theorem disk_setPos (pos : ℕ) : (k.setPos g pos).disk = k.disk := rfl

@[simp] theorem cur_setPos (pos : ℕ) : (k.setPos g pos).cur = k.cur := rfl

@[simp] theorem running_setPos (pos : ℕ) : (k.setPos g pos).running = k.running := rfl

@[simp] theorem setPos_setPos (pos pos' : ℕ) : (k.setPos g pos).setPos g pos' = k.setPos g pos' := by
  unfold setPos setFile
  simp only [Function.update_self, Function.update_idem]

theorem setPos_self : k.setPos g (k.fileTable g).fdPos = k := by
  unfold setPos setFile
  rw [Function.update_eq_self]

end Kernel

/-! ## Blocks -/

section Blocks

variable {t : Transfer} {k : Kernel} {iSectors : ℕ → ℕ} {first last : ℕ}

theorem outcome_ideRead_one {lba : ℕ} (hlba : lba ≤ maxLba) :
    (ideRead t lba zeroBuf 1).outcome k = .ok (sectorOf k.disk lba, k) :=
  outcome_of_ensures ((ensures_ideRead_one hlba).mpr ⟨rfl, rfl⟩)

theorem outcome_ideRead_none {lba : ℕ} (hlba : ¬ lba ≤ maxLba) :
    (ideRead t lba zeroBuf 1).outcome k = .error .halt := by
  rw [ideRead, ideReadLoop, outcome_bind_error]
  rw [ideReadSector, outcome_bind_error]
  exact outcome_assert_false (decide_eq_false (by rwa [Transfer.sector_zero]))

theorem outcome_ideWrite_one {lba : ℕ} {buf : Bytes} (hlba : lba ≤ maxLba) :
    (ideWrite t lba buf 1).outcome k =
      .ok ((), { k with disk := copy k.disk (sectorSize * lba) buf 0 sectorSize }) :=
  outcome_of_ensures ((ensures_ideWrite_one hlba).mpr ⟨rfl, rfl⟩)

theorem outcome_ideWrite_none {lba : ℕ} {buf : Bytes} (hlba : ¬ lba ≤ maxLba) :
    (ideWrite t lba buf 1).outcome k = .error .halt := by
  rw [ideWrite, ideWriteLoop, outcome_bind_error]
  rw [ideWriteSector, outcome_bind_error]
  exact outcome_assert_false (decide_eq_false (by rwa [Transfer.sector_zero]))

theorem withIndirect_table {allBlocks : ℕ → ℕ} {i : ℕ} (hlow : directPtrs ≤ i) (hi : i < flattenPtrs) :
    withIndirect allBlocks (sectorOf k.disk (iSectors directPtrs)) i = blockAt k.disk iSectors i := by
  rw [withIndirect, if_pos ⟨hlow, hi⟩, blockAt, if_neg (Nat.not_lt.mpr hlow)]
  rfl

theorem withIndirect_direct {allBlocks : ℕ → ℕ} {table : Bytes} {i : ℕ} (hi : i < directPtrs) :
    withIndirect allBlocks table i = allBlocks i := if_neg (by omega)

theorem directPart_eq {i : ℕ} (hfirst : first ≤ i) (hlast : i ≤ last) (hi : i < directPtrs) :
    directPart iSectors first last i = blockAt k.disk iSectors i := by
  rw [directPart, if_pos ⟨hfirst, hlast⟩, blockAt, if_pos hi]

/-- A read of one sector returns unless the sector is none of the disk. -/
theorem ideRead_returns_or_halts (lba : ℕ) (f : Bytes → Prog Kernel (ℕ → ℕ))
    (hf : ∀ b, ∃ allBlocks, (f b).outcome k = .ok (allBlocks, k)) :
    (∃ allBlocks, (ideRead t lba zeroBuf 1 >>= f).outcome k = .ok (allBlocks, k)) ∨
      (ideRead t lba zeroBuf 1 >>= f).outcome k = .error .halt := by
  by_cases hlba : lba ≤ maxLba
  · rw [outcome_bind_ok (outcome_ideRead_one hlba)]
    exact Or.inl (hf _)
  · exact Or.inr (outcome_bind_error (outcome_ideRead_none hlba))

/-- The block map has the blocks of the file where the read needs them. -/
theorem outcome_readBlocks (hle : first ≤ last) (hlast : last < flattenPtrs)
    (htable : directPtrs ≤ last → iSectors directPtrs ≠ 0 ∧ iSectors directPtrs ≤ maxLba) :
    ∃ allBlocks, (readBlocks t iSectors first last).outcome k = .ok (allBlocks, k) ∧
      ∀ i, first ≤ i → i ≤ last → allBlocks i = blockAt k.disk iSectors i := by
  unfold readBlocks
  by_cases hone : subU32 first last = 0
  · have heq : last = first := by
      by_contra hne
      rw [subU32, if_neg (by omega)] at hone
      unfold flattenPtrs at hlast
      omega
    rw [if_pos hone, outcome_bind_ok (outcome_assert (decide_eq_true heq))]
    by_cases hlow : last < directPtrs
    · rw [if_pos hlow]
      refine ⟨_, rfl, fun i hfirst hi => directPart_eq (heq ▸ hfirst) hi (by omega)⟩
    · rw [if_neg hlow, outcome_bind_ok (outcome_ideRead_one (htable (by omega)).2)]
      exact ⟨_, rfl, fun i hfirst hi => withIndirect_table (by omega) (by omega)⟩
  · rw [if_neg hone]
    by_cases hlow : last < directPtrs
    · rw [if_pos hlow]
      exact ⟨_, rfl, fun i hfirst hi => directPart_eq hfirst hi (by omega)⟩
    · obtain ⟨hne, hmax⟩ := htable (by omega)
      rw [if_neg hlow]
      by_cases hmixed : first < directPtrs
      · rw [if_pos hmixed, outcome_bind_ok (outcome_assert (decide_eq_true hne)),
          outcome_bind_ok (outcome_ideRead_one hmax)]
        refine ⟨_, rfl, fun i hfirst hi => ?_⟩
        by_cases hdirect : i < directPtrs
        · rw [withIndirect_direct hdirect]
          exact directPart_eq hfirst (by omega) hdirect
        · exact withIndirect_table (by omega) (by omega)
      · rw [if_neg hmixed, outcome_bind_ok (outcome_assert (decide_eq_true hne)),
          outcome_bind_ok (outcome_ideRead_one hmax)]
        exact ⟨_, rfl, fun i hfirst hi => withIndirect_table (by omega) (by omega)⟩

/-- Whatever is asked for, the block map is made or an assertion fails. -/
theorem readBlocks_returns_or_halts (iSectors : ℕ → ℕ) (first last : ℕ) :
    (∃ allBlocks, (readBlocks t iSectors first last).outcome k = .ok (allBlocks, k)) ∨
      (readBlocks t iSectors first last).outcome k = .error .halt := by
  have hassert : ∀ (c : Bool) (x : Prog Kernel (ℕ → ℕ)),
      ((∃ allBlocks, x.outcome k = .ok (allBlocks, k)) ∨ x.outcome k = .error .halt) →
      (∃ allBlocks, (do assert c; x : Prog Kernel (ℕ → ℕ)).outcome k = .ok (allBlocks, k)) ∨
        (do assert c; x : Prog Kernel (ℕ → ℕ)).outcome k = .error .halt := by
    intro c x hx
    cases c with
    | false => exact Or.inr rfl
    | true => exact hx
  unfold readBlocks
  split
  · refine hassert _ _ ?_
    split
    · exact Or.inl ⟨_, rfl⟩
    · exact ideRead_returns_or_halts _ _ fun b => ⟨_, rfl⟩
  · split
    · exact Or.inl ⟨_, rfl⟩
    · split
      · exact hassert _ _ (ideRead_returns_or_halts _ _ fun b => ⟨_, rfl⟩)
      · exact hassert _ _ (ideRead_returns_or_halts _ _ fun b => ⟨_, rfl⟩)

end Blocks

/-! ## The loop -/

section Loop

variable {t : Transfer} {allBlocks : ℕ → ℕ} {g size : ℕ} {inode : Inode}

/-- One sector of a file. -/
theorem copy_sectorOf {disk : Bytes} {dst : Bytes} {target pos n : ℕ}
    (hn : n ≤ sectorSize - pos % sectorSize) :
    copy dst target (sectorOf disk (blockAt disk inode.iSectors (pos / sectorSize)))
      (pos % sectorSize) n = copy dst target (contents disk inode).byte pos n := by
  refine copy_congr fun i hi => ?_
  have hdiv : (pos + i) / sectorSize = pos / sectorSize := by
    unfold sectorSize at *
    omega
  have hmod : (pos + i) % sectorSize = pos % sectorSize + i := by
    unfold sectorSize at *
    omega
  rw [sectorOf_apply (by unfold sectorSize at *; omega)]
  change _ = disk _
  rw [hdiv, hmod]

/-- The loop copies the bytes that are left, and moves the position behind them. -/
theorem outcome_readFileLoop {fuel done pos : ℕ} {dst : Bytes} {k : Kernel}
    (hpos : (k.fileTable g).fdPos = pos) (hfuel : size ≤ done + fuel)
    (hend : pos + (size - done) ≤ maxFileSize)
    (hblocks : ∀ i, pos / sectorSize ≤ i → sectorSize * i < pos + (size - done) →
      allBlocks i = blockAt k.disk inode.iSectors i ∧ allBlocks i ≤ maxLba) :
    (readFileLoop t g allBlocks size fuel done dst).outcome k =
      .ok (copy dst done (contents k.disk inode).byte pos (size - done),
        k.setPos g (pos + (size - done))) := by
  induction fuel generalizing done pos dst k with
  | zero =>
      rw [show size - done = 0 by omega, copy_zero_len, Nat.add_zero, ← hpos, Kernel.setPos_self]
      rfl
  | succ fuel ih =>
      rw [readFileLoop]
      by_cases hdone : size ≤ done
      · rw [if_pos hdone, show size - done = 0 by omega, copy_zero_len, Nat.add_zero, ← hpos,
          Kernel.setPos_self]
        rfl
      · have hsec : pos / sectorSize < flattenPtrs := by
          unfold maxFileSize sectorSize flattenPtrs at *
          omega
        obtain ⟨hblock, hlba⟩ := hblocks (pos / sectorSize) le_rfl (by unfold sectorSize; omega)
        rw [if_neg hdone, outcome_read_bind]
        dsimp only
        rw [hpos, if_neg (Nat.not_le.mpr hsec), outcome_bind_ok (outcome_ideRead_one hlba),
          outcome_bind_ok outcome_modify, hblock]
        -- the chunk ends with the sector or with the read
        generalize hchunk : min (size - done) (sectorSize - pos % sectorSize) = chunk
        have hpos' : (pos + chunk) % 2 ^ 32 = pos + chunk := by
          refine Nat.mod_eq_of_lt ?_
          unfold maxFileSize sectorSize flattenPtrs at hend
          omega
        have hnext := @ih (done + chunk) (pos + chunk)
          (copy dst done (contents k.disk inode).byte pos chunk) (k.setPos g (pos + chunk))
          (by rw [Kernel.fileTable_setPos]) (by unfold sectorSize at hchunk; omega) (by omega)
          (fun i hi hlt => hblocks i ((Nat.div_le_div_right (Nat.le_add_right _ _)).trans hi) (by omega))
        rw [copy_sectorOf (by omega), hpos, hpos']
        refine hnext.trans ?_
        rw [Kernel.disk_setPos, Kernel.setPos_setPos, copy_copy_append,
          show chunk + (size - (done + chunk)) = size - done by omega,
          show pos + chunk + (size - (done + chunk)) = pos + (size - done) by omega]

/-- A loop that is to go on past the last pointer does not return. -/
theorem outcome_readFileLoop_stuck {fuel done pos : ℕ} {dst : Bytes} {k : Kernel}
    (hpos : (k.fileTable g).fdPos = pos) (hfuel : size ≤ done + fuel)
    (hsmall : pos ≤ maxFileSize) (hend : maxFileSize < pos + (size - done)) :
    ∃ e, (e = .halt ∨ e = .undefined) ∧ (readFileLoop t g allBlocks size fuel done dst).outcome k = .error e := by
  induction fuel generalizing done pos dst k with
  | zero => omega
  | succ fuel ih =>
      rw [readFileLoop, if_neg (by omega), outcome_read_bind]
      dsimp only
      rw [hpos]
      by_cases hsec : flattenPtrs ≤ pos / sectorSize
      · rw [if_pos hsec]
        exact ⟨.undefined, Or.inr rfl, rfl⟩
      · rw [if_neg hsec]
        by_cases hlba : allBlocks (pos / sectorSize) ≤ maxLba
        · rw [outcome_bind_ok (outcome_ideRead_one hlba), outcome_bind_ok outcome_modify]
          generalize hchunk : min (size - done) (sectorSize - pos % sectorSize) = chunk
          have hpos' : (pos + chunk) % 2 ^ 32 = pos + chunk := by
            refine Nat.mod_eq_of_lt ?_
            unfold maxFileSize sectorSize flattenPtrs at *
            omega
          rw [hpos, hpos']
          refine @ih (done + chunk) (pos + chunk) _ _ ?_ ?_ ?_ ?_
          · rw [← Kernel.setPos, Kernel.fileTable_setPos]
          · unfold sectorSize at hchunk
            omega
          · unfold maxFileSize sectorSize flattenPtrs at *
            omega
          · omega
        · exact ⟨.halt, Or.inl rfl, outcome_bind_error (outcome_ideRead_none hlba)⟩

end Loop

/-! ## `file_read` -/

/-- The file of the inode at `a`. -/
def Kernel.fileOf (k : Kernel) (a : ℕ) : Contents := contents k.disk (k.inodes a)

section FileRead

variable {t : Transfer} {g a pos count : ℕ} {buf : Bytes} {k : Kernel}
  (hinode : (k.fileTable g).fdInode = some a) (hread : Readable k.disk (k.inodes a))
  (hpos : (k.fileTable g).fdPos = pos) (hle : pos ≤ (k.fileOf a).size)

/-- The number of bytes that `file_read` sets out to read. -/
theorem readLen_eq (hle : pos ≤ (k.fileOf a).size) (hcount : pos + count < 2 ^ 32) :
    (if (k.inodes a).iSize < (pos + count) % 2 ^ 32 then subU32 (k.inodes a).iSize pos else count) =
      (k.fileOf a).readLen pos count := by
  change pos ≤ (k.inodes a).iSize at hle
  change _ = min count ((k.inodes a).iSize - pos)
  rw [Nat.mod_eq_of_lt hcount, subU32_of_le hle]
  split <;> omega

include hinode hread hpos hle

/-- A read returns what there is, and moves the position. -/
theorem outcome_fileRead (hcount : pos + count < 2 ^ 32) (hserved : (k.fileOf a).Served pos count) :
    (fileRead t g buf count).outcome k =
      .ok (((k.fileOf a).readRet pos count,
        copy buf 0 (k.fileOf a).byte pos ((k.fileOf a).readLen pos count)),
        k.setPos g (pos + (k.fileOf a).readLen pos count)) := by
  have hsize : (k.fileOf a).size ≤ maxFileSize := hread.size
  have hlen : pos + (k.fileOf a).readLen pos count ≤ (k.fileOf a).size := Contents.readLen_le hle
  rw [fileRead, outcome_read_bind]
  dsimp only
  rw [hinode]
  dsimp only
  rw [hpos, readLen_eq hle hcount, Nat.mod_eq_of_lt hcount]
  by_cases hnone : (k.inodes a).iSize < pos + count ∧ (k.fileOf a).readLen pos count = 0
  · have hend : pos = (k.fileOf a).size ∧ 0 < count := by
      obtain ⟨hlt, hzero⟩ := hnone
      unfold Contents.readLen at hzero
      change (k.fileOf a).size < pos + count at hlt
      omega
    rw [if_pos hnone, Contents.readRet, if_pos hend, hnone.2, copy_zero_len, Nat.add_zero, ← hpos,
      Kernel.setPos_self]
    rfl
  · have hsome : ¬ (pos = (k.fileOf a).size ∧ 0 < count) := by
      rintro ⟨hend, hcnt⟩
      refine hnone ⟨?_, ?_⟩
      · change (k.fileOf a).size < pos + count
        omega
      · unfold Contents.readLen
        omega
    have hlast := hserved.resolve_left hsome
    generalize hn : (k.fileOf a).readLen pos count = n at *
    have hmax : maxFileSize < 2 ^ 31 := by decide
    have hsum : (pos + n) % 2 ^ 32 = pos + n := Nat.mod_eq_of_lt (by omega)
    have hdiv : (pos + n) / sectorSize < 139 := Nat.div_lt_of_lt_mul (by omega)
    have hfirst : pos / sectorSize ≤ (pos + n) / sectorSize :=
      Nat.div_le_div_right (Nat.le_add_right _ _)
    obtain ⟨allBlocks, hblocks, hall⟩ := outcome_readBlocks (t := t) (k := k) hfirst
      (by unfold flattenPtrs; omega) fun htable => hread.table (by
        change _ ≤ (k.fileOf a).size
        have := Nat.div_mul_le_self (pos + n) sectorSize
        have := Nat.mul_le_mul_left sectorSize htable
        rw [Nat.mul_comm] at this
        unfold directPtrs sectorSize at *
        omega)
    have hloop : (readFileLoop t g allBlocks n n 0 buf).outcome k =
        .ok (copy buf 0 (contents k.disk (k.inodes a)).byte pos (n - 0), k.setPos g (pos + (n - 0))) :=
      outcome_readFileLoop hpos (by omega) (by rw [Nat.sub_zero]; omega) fun i hi hlt => by
        rw [Nat.sub_zero] at hlt
        rw [hall i hi (by unfold sectorSize at *; omega)]
        exact ⟨rfl, hread.blocks i (by change _ < (k.fileOf a).size; omega)⟩
    rw [Nat.sub_zero] at hloop
    have hret : asInt32 n = n := if_pos (by omega)
    rw [if_neg hnone, outcome_bind_ok (a := ()) rfl, outcome_bind_ok (a := true) rfl, hsum, if_neg (by decide), outcome_bind_ok (outcome_assert (decide_eq_true ⟨by omega, hdiv⟩)),
      outcome_bind_ok hblocks, outcome_bind_ok hloop, Contents.readRet, if_neg hsome, hret, hn]
    rfl

/-- A read that reaches the last sector a file can have. -/
theorem outcome_fileRead_last (hcount : pos + count < 2 ^ 32)
    (hserved : ¬ (k.fileOf a).Served pos count) :
    (fileRead t g buf count).outcome k = .error .halt := by
  have hsize : (k.fileOf a).size ≤ maxFileSize := hread.size
  have hlen : pos + (k.fileOf a).readLen pos count ≤ (k.fileOf a).size := Contents.readLen_le hle
  rw [Contents.Served, not_or] at hserved
  obtain ⟨hsome, hlast⟩ := hserved
  rw [fileRead, outcome_read_bind]
  dsimp only
  rw [hinode]
  dsimp only
  rw [hpos, readLen_eq hle hcount, Nat.mod_eq_of_lt hcount]
  have hnone : ¬ ((k.inodes a).iSize < pos + count ∧ (k.fileOf a).readLen pos count = 0) := by
    rintro ⟨hlt, hzero⟩
    unfold Contents.readLen at hzero
    change (k.fileOf a).size < pos + count at hlt
    omega
  generalize hn : (k.fileOf a).readLen pos count = n at *
  have hmax : maxFileSize < 2 ^ 31 := by decide
  have hsum : (pos + n) % 2 ^ 32 = pos + n := Nat.mod_eq_of_lt (by omega)
  have hdiv : ¬ (pos + n) / sectorSize < 139 := by
    rw [Nat.div_lt_iff_lt_mul (by decide)]
    exact hlast
  rw [if_neg hnone, outcome_bind_ok (a := ()) rfl, outcome_bind_ok (a := true) rfl, hsum, if_neg (by decide), outcome_bind_error]
  exact outcome_assert_false (decide_eq_false fun h => hdiv h.2)

/-- A count so large that `pos + count` is taken for a position before `pos`. -/
theorem outcome_fileRead_wrap (hlarge : count < 2 ^ 32) (hcount : 2 ^ 32 ≤ pos + count) :
    ∃ e, (e = .halt ∨ e = .undefined) ∧ (fileRead t g buf count).outcome k = .error e := by
  have hsize : (k.fileOf a).size ≤ maxFileSize := hread.size
  have hmax : maxFileSize < 2 ^ 31 := by decide
  have hfit : ¬ (k.inodes a).iSize < (pos + count) % 2 ^ 32 := by
    change ¬ (k.fileOf a).size < _
    omega
  rw [fileRead, outcome_read_bind]
  dsimp only
  rw [hinode]
  dsimp only
  rw [hpos, if_neg hfit, if_neg fun h => hfit h.1, outcome_bind_ok (a := ()) rfl,
    outcome_bind_ok (a := true) rfl, if_neg (by decide)]
  cases hassert : decide (pos / sectorSize < 139 ∧ (pos + count) % 2 ^ 32 / sectorSize < 139) with
  | false => exact ⟨.halt, Or.inl rfl, outcome_bind_error (outcome_assert_false rfl)⟩
  | true =>
      rw [outcome_bind_ok (outcome_assert rfl)]
      rcases readBlocks_returns_or_halts (t := t) (k := k) (k.inodes a).iSectors (pos / sectorSize)
        ((pos + count) % 2 ^ 32 / sectorSize) with ⟨allBlocks, hblocks⟩ | hblocks
      · rw [outcome_bind_ok hblocks]
        obtain ⟨e, he, hstuck⟩ : ∃ e, (e = .halt ∨ e = .undefined) ∧
            (readFileLoop t g allBlocks count count 0 buf).outcome k = .error e :=
          outcome_readFileLoop_stuck hpos (by omega) (by omega) (by omega)
        exact ⟨e, he, outcome_bind_error hstuck⟩
      · exact ⟨.halt, Or.inl rfl, outcome_bind_error hblocks⟩

end FileRead

/-! ## Descriptors -/

/-- Descriptor `fd` of the running process stands for the entry `g`, a file with its inode at
`a`. -/
structure Kernel.OpenAt (k : Kernel) (fd g a : ℕ) : Prop where
  low : 3 ≤ fd
  high : fd < maxFilesOpenPerProc
  entry : k.cur.fdTable fd = g
  lt : g < maxFileOpen
  flag : (k.fileTable g).fdFlag ≠ pipeFlag
  inode : (k.fileTable g).fdInode = some a

namespace Kernel.OpenAt

variable {t : Transfer} {k : Kernel} {fd g a pos : ℕ}

theorem setPos (h : k.OpenAt fd g a) (pos : ℕ) : (k.setPos g pos).OpenAt fd g a where
  low := h.low
  high := h.high
  entry := h.entry
  lt := h.lt
  flag := by
    rw [fileTable_setPos]
    exact h.flag
  inode := by
    rw [fileTable_setPos]
    exact h.inode

variable (h : k.OpenAt fd g a)

include h

theorem outcome_fdLocal2global : (fdLocal2global fd).outcome k = .ok (g, k) := by
  have hentry := h.entry
  have hlt := h.lt
  rw [fdLocal2global, if_neg (Nat.not_le.mpr h.high), outcome_read_bind]
  dsimp only
  rw [hentry, outcome_bind_ok (outcome_assert (decide_eq_true ⟨by omega, by exact_mod_cast hlt⟩))]
  rfl

theorem outcome_isPipe : (isPipe fd).outcome k = .ok (false, k) := by
  rw [isPipe, outcome_bind_ok h.outcome_fdLocal2global, outcome_read_bind, outcome_pure,
    decide_eq_false h.flag]

/-- `sys_read` of a file is `file_read`. -/
theorem outcome_sysRead (buf : Bytes) (count : ℕ) :
    (sysRead t (fd : ℤ) buf count).outcome k = (fileRead t g buf count).outcome k := by
  have hlow := h.low
  rw [sysRead, if_neg (by omega), Int.toNat_natCast, outcome_bind_ok h.outcome_isPipe,
    if_neg (by decide), if_neg (by omega), outcome_bind_ok h.outcome_fdLocal2global]

/-- `sys_lseek` to an offset from the start. -/
theorem outcome_sysLseek (hsize : (k.fileOf a).size < 2 ^ 31) (hpos : (k.fileTable g).fdPos = pos)
    {off : ℕ} (hoff : off < 2 ^ 32) : ∃ ret, (sysLseek (fd : ℤ) (asInt32 off) .set).outcome k =
      .ok (ret, k.setPos g ((k.fileOf a).seekPos pos off)) := by
  have hint : asInt32 (k.inodes a).iSize = (k.fileOf a).size := if_pos hsize
  rw [sysLseek, if_neg (by omega), Int.toNat_natCast, outcome_bind_ok h.outcome_fdLocal2global,
    outcome_read_bind]
  dsimp only
  rw [if_neg h.flag, h.inode]
  dsimp only
  rw [hint, Contents.seekPos]
  by_cases hin : off < (k.fileOf a).size
  · have hval : asInt32 off = off := if_pos (by omega)
    rw [if_pos hin, hval, if_neg (by omega), Int.toNat_natCast]
    refine ⟨off, ?_⟩
    rw [← h.inode]
    rfl
  · rw [if_neg hin, if_pos, ← hpos, setPos_self]
    · exact ⟨-1, rfl⟩
    · unfold asInt32
      split <;> omega

/-- `sys_close` of a file returns `0`. -/
theorem outcome_sysClose : ∃ k', (sysClose (fd : ℤ)).outcome k = .ok (0, k') := by
  have hlow := h.low
  have hclose : ∃ k', (inodeClose a).outcome (k.setInode a { k.inodes a with writeDeny := false }) =
      .ok ((), k') := by
    rw [inodeClose, outcome_read_bind]
    dsimp only
    split
    · exact ⟨_, rfl⟩
    · exact ⟨_, rfl⟩
  obtain ⟨k', hk'⟩ := hclose
  rw [sysClose, if_neg (by omega), Int.toNat_natCast, outcome_bind_ok h.outcome_fdLocal2global,
    outcome_bind_ok h.outcome_isPipe, if_neg (by decide)]
  have hfile : (fileClose g).outcome k =
      .ok (0, k'.setFile g { k'.fileTable g with fdInode := none }) := by
    rw [fileClose, outcome_read_bind, h.inode]
    dsimp only
    rw [outcome_bind_ok outcome_write, outcome_bind_ok hk']
    rfl
  rw [outcome_bind_ok hfile]
  exact ⟨_, rfl⟩

end Kernel.OpenAt

end BochsOs
