import BochsOs.Fs.DirRuns
import BochsOs.Fs.FileWrite
import BochsOs.Fs.InodeTable

/-!
# A file that is only appended to

A file is created empty, and then `file_write` is called on it, through any of its entries, while
the rest of the system leaves its blocks alone (`WriteRun`).  The bytes that these calls wrote are
then its contents (`WriteRun.holds`), and a `file_read` gives a slice of them (`Kernel.Holds.read`),
wherever the calls split the data, and on both sides of the twelfth block.

Other files are not concerned (`Appends.apartFrom`), except by the last step of `file_write`:
`inode_sync` keeps the number of the inode in a `uint8_t`, so that file 257 is stored over file 1
(`writeRun_appendOnly`, `not_appendOnly_257`).
-/

namespace BochsOs

open ByteMemory Suspend Suspend.Prog

/-! ## Runs -/

/-- The first `n` bytes of a buffer. -/
def firstBytes (buf : Bytes) (n : ℕ) : List UInt8 := (List.range n).map buf

@[simp] theorem length_firstBytes (buf : Bytes) (n : ℕ) : (firstBytes buf n).length = n := by
  rw [firstBytes, List.length_map, List.length_range]

@[simp] theorem getElem?_firstBytes {buf : Bytes} {n i : ℕ} (hi : i < n) :
    (firstBytes buf n)[i]? = some (buf i) := by
  rw [firstBytes, List.getElem?_map, List.getElem?_range hi]
  rfl

/-- The inode table lies between the block bitmap and the blocks. -/
structure Partition.TableApart (part : Partition) : Prop where
  bitmap : ∀ i < part.blockBitmap.btmpBytesLen * 8,
    part.sb.blockBitmapLba + i / bitsPerSector < part.sb.inodeTableLba
  data : part.sb.inodeTableLba + inodeTableSects ≤ part.sb.dataStartLba

/-- The file of the inode at `a` as `file_create` leaves it: empty, and without blocks. -/
structure Kernel.NewFile (k : Kernel) (a : ℕ) : Prop where
  size : (k.inodes a).iSize = 0
  blocks : FileBlocks k.part (k.inodes a).iSectors
  pointers : ∀ i ≤ directPtrs, (k.inodes a).iSectors i = 0
  table : k.part.TableApart

/-- What the rest of the system does while the inode at `a` stays in memory: the blocks of the file stay
in use, and nobody writes to them.  The file may be opened and closed through other entries. -/
structure LeavesFile (a : ℕ) (k k' : Kernel) : Prop where
  sb : k'.part.sb = k.part.sb
  len : k'.part.blockBitmap.btmpBytesLen = k.part.blockBitmap.btmpBytesLen
  iNo : (k'.inodes a).iNo = (k.inodes a).iNo
  iSize : (k'.inodes a).iSize = (k.inodes a).iSize
  iSectors : (k'.inodes a).iSectors = (k.inodes a).iSectors
  blocks : FileBlocks k'.part (k'.inodes a).iSectors
  owned : ∀ l, k.part.Taken l → k.Owns a l →
    k'.part.Taken l ∧ sectorOf k'.disk l = sectorOf k.disk l

/-- Calls of `file_write` on a new file, the one at `a`, have led to this state, and they have written
`data`. -/
inductive WriteRun (t : Transfer) (a : ℕ) : List UInt8 → Kernel → Prop
  | new {k : Kernel} (h : k.NewFile a) : WriteRun t a [] k
  | write {data : List UInt8} {k k' : Kernel} {g count : ℕ} {buf : Bytes} {ret : ℤ}
      (h : WriteRun t a data k) (hinode : (k.fileTable g).fdInode = some a) (hcount : count < 2 ^ 32)
      (hret : Returns (fileWrite t g buf count) k ret k') :
      WriteRun t a (data ++ firstBytes buf ret.toNat) k'
  | other {data : List UInt8} {k k' : Kernel} (h : WriteRun t a data k) (hother : LeavesFile a k k') :
      WriteRun t a data k'

/-! ## What a file holds -/

theorem Kernel.NewFile.inOrder {a : ℕ} {k : Kernel} (h : k.NewFile a) : k.InOrder a := by
  have hzero : (k.inodes a).iSectors 0 = 0 := h.pointers 0 (Nat.zero_le _)
  refine ⟨?_, h.blocks, fun hne => absurd hzero hne, fun _ => h.size⟩
  rw [h.size]
  decide

/-- The file at `a` is in order and has these bytes. -/
structure Kernel.Holds (k : Kernel) (a : ℕ) (data : List UInt8) : Prop where
  order : k.InOrder a
  distinct : k.Distinct a
  size : (k.fileOf a).size = data.length
  byte : ∀ p < data.length, data[p]? = some ((k.fileOf a).byte p)

theorem Kernel.NewFile.holds {a : ℕ} {k : Kernel} (h : k.NewFile a) : k.Holds a [] := by
  have hcnt : k.blocksHeld a = 0 := if_pos (h.pointers 0 (Nat.zero_le _))
  refine ⟨h.inOrder, fun i j _ hj => absurd hj ?_, h.size, fun p hp => absurd hp (Nat.not_lt_zero p)⟩
  rw [hcnt]
  exact Nat.not_lt_zero j

/-- A byte of the file lies in one of its blocks. -/
theorem Kernel.InOrder.block_lt {a p : ℕ} {k : Kernel} (h : k.InOrder a) (hp : p < (k.inodes a).iSize) :
    p / sectorSize < k.blocksHeld a := by
  have hne : (k.inodes a).iSectors 0 ≠ 0 := fun hzero => by
    rw [h.empty hzero] at hp
    exact Nat.not_lt_zero p hp
  rw [Kernel.blocksHeld, if_neg hne]
  exact Nat.lt_succ_of_le (Nat.div_le_div_right hp.le)

/-- Appending writes the new bytes behind the old ones. -/
theorem Appends.holds {a n : ℕ} {src : Bytes} {data : List UInt8} {k k' : Kernel}
    (h : Appends a src n k k') (hk : k.Holds a data) : k'.Holds a (data ++ firstBytes src n) := by
  have hlen : (data ++ firstBytes src n).length = (k.fileOf a).size + n := by
    rw [List.length_append, length_firstBytes, hk.size]
  refine ⟨h.order, h.distinct hk.distinct, by rw [h.size, hlen], fun p hp => ?_⟩
  rw [hlen] at hp
  rw [h.data hk.distinct p hp, hk.size]
  by_cases hold : p < data.length
  · rw [if_pos hold, List.getElem?_append_left hold]
    exact hk.byte p hold
  · have hnew : p - data.length < n := by
      rw [hk.size] at hp
      omega
    rw [if_neg hold, List.getElem?_append_right (Nat.not_lt.mp hold), getElem?_firstBytes hnew]

section LeavesFile

variable {a : ℕ} {k k' : Kernel} (h : LeavesFile a k k') (hk : k.InOrder a)

include h hk

/-- The indirect table is as it was. -/
theorem LeavesFile.table (hne : (k.inodes a).iSectors directPtrs ≠ 0) :
    sectorOf k'.disk ((k.inodes a).iSectors directPtrs) =
      sectorOf k.disk ((k.inodes a).iSectors directPtrs) :=
  (h.owned _ (hk.blocks.taken directPtrs le_rfl hne) (Or.inr rfl)).2

/-- The blocks of the file are the same. -/
theorem LeavesFile.blockOf {i : ℕ} (hi : i < k.blocksHeld a) : k'.blockOf a i = k.blockOf a i := by
  by_cases hlow : i < directPtrs
  · rw [Kernel.blockOf_direct hlow, Kernel.blockOf_direct hlow, h.iSectors]
  · have hge : directPtrs ≤ i := Nat.not_lt.mp hlow
    rw [Kernel.blockOf_indirect hge, Kernel.blockOf_indirect hge, h.iSectors]
    unfold tableEntry
    rw [h.table hk (hk.hasBlocks.covers.table (hge.trans_lt hi))]

theorem LeavesFile.inOrder : k'.InOrder a := by
  refine ⟨?_, h.blocks, fun hne => ?_, ?_⟩
  · rw [h.iSize]
    exact hk.small
  · rw [h.iSectors] at hne
    rw [h.iSectors, h.iSize]
    have hcovers := hk.covers hne
    refine ⟨hcovers.direct, hcovers.table, fun i hi hlow => ?_⟩
    have hin : i < k.blocksHeld a := by
      rw [Kernel.blocksHeld, if_neg hne]
      exact hi
    have htaken := (h.owned _ (hk.hasBlocks.blockOf hin).1 (Or.inl ⟨i, hin, rfl⟩)).1
    rw [Kernel.blockOf_indirect hlow] at htaken
    unfold tableEntry at htaken ⊢
    rw [h.table hk (hcovers.table (hlow.trans_lt hi))]
    exact ⟨htaken, (hcovers.indirect i hi hlow).2⟩
  · rw [h.iSectors, h.iSize]
    exact hk.empty

omit hk in
theorem LeavesFile.holds {data : List UInt8} (hk : k.Holds a data) : k'.Holds a data := by
  have hcnt : k'.blocksHeld a = k.blocksHeld a := by
    unfold Kernel.blocksHeld
    rw [h.iSectors, h.iSize]
  have hsize : (k'.fileOf a).size = (k.fileOf a).size := h.iSize
  refine ⟨h.inOrder hk.order, fun i j hij hj => ?_, hsize.trans hk.size, fun p hp => ?_⟩
  · rw [hcnt] at hj
    rw [h.blockOf hk.order (hij.trans hj), h.blockOf hk.order hj]
    exact hk.distinct i j hij hj
  · rw [hk.byte p hp]
    rw [← hk.size] at hp
    have hin := hk.order.block_lt hp
    have hbytes := congrFun (h.owned _ (hk.order.hasBlocks.blockOf hin).1 (Or.inl ⟨_, hin, rfl⟩)).2
      (p % sectorSize)
    have ho : p % sectorSize < sectorSize := Nat.mod_lt _ (by decide)
    rw [sectorOf_apply ho, sectorOf_apply ho] at hbytes
    change some (k.disk _) = some (k'.disk (sectorSize * k'.blockOf a (p / sectorSize) + p % sectorSize))
    rw [h.blockOf hk.order hin, hbytes]
    rfl

end LeavesFile

/-- What a call adds to the data is what it says it wrote. -/
theorem Written.holds {e : Env} {a count : ℕ} {buf : Bytes} {data : List UInt8} {k k' : Kernel} {ret : ℤ}
    (h : Written e a buf count k ret k') (hk : k.Holds a data) :
    k'.Holds a (data ++ firstBytes buf ret.toNat) := by
  rcases h.result with ⟨rfl, happ⟩ | ⟨rfl, happ, -⟩
  · rw [Int.toNat_natCast]
    exact happ.holds hk
  · exact happ.holds hk

/-- The file holds what was written to it. -/
theorem WriteRun.holds {t : Transfer} {a : ℕ} {data : List UInt8} {k : Kernel} (h : WriteRun t a data k) :
    k.Holds a data := by
  induction h with
  | new hnew => exact hnew.holds
  | write h hinode hcount hret ih =>
      exact Written.holds (wp_iff_returns.mp (wp_fileWrite hinode ih.order hcount) _ _ hret) ih
  | other h hother ih => exact hother.holds ih

/-! ## Reading it -/

/-- A file in order can be read. -/
theorem Kernel.InOrder.readable {a : ℕ} {k : Kernel} (h : k.InOrder a) : Readable k.disk (k.inodes a) := by
  have hblocks := h.hasBlocks
  refine ⟨h.small.le, fun i hi => ?_, fun hlong => ?_⟩
  · have hin := h.block_lt hi
    rw [Nat.mul_div_cancel_left i (by decide)] at hin
    exact (hblocks.blockOf hin).1.last
  · have hne : (k.inodes a).iSectors 0 ≠ 0 := fun hzero => by
      rw [h.empty hzero] at hlong
      exact absurd hlong (by decide)
    have htable := (h.covers hne).table (Nat.lt_succ_of_le ((Nat.le_div_iff_mul_le (by decide)).mpr
      (by rwa [Nat.mul_comm] at hlong)))
    exact ⟨htable, (h.blocks.taken directPtrs le_rfl htable).last⟩

theorem readBlocks_decided (t : Transfer) (iSectors : ℕ → ℕ) (first last : ℕ) :
    Decided (readBlocks t iSectors first last) := by
  have hread (lba : ℕ) (f : Bytes → ℕ → ℕ) :
      Decided (ideRead t lba zeroBuf 1 >>= fun b => (return f b : Prog Kernel (ℕ → ℕ))) :=
    (ideRead_decided _ _ _ _).bind fun _ => .pure _
  unfold readBlocks
  split
  · refine (Decided.assert _).bind fun _ => ?_
    split
    · exact .pure _
    · exact hread _ _
  split
  · exact .pure _
  split
  · exact (Decided.assert _).bind fun _ => hread _ _
  · exact (Decided.assert _).bind fun _ => hread _ _

theorem readFileLoop_decided (t : Transfer) (g : ℕ) (allBlocks : ℕ → ℕ) (size fuel done : ℕ) (dst : Bytes) :
    Decided (readFileLoop t g allBlocks size fuel done dst) := by
  induction fuel generalizing done dst with
  | zero => exact .pure _
  | succ fuel ih =>
      unfold readFileLoop
      split
      · exact .pure _
      refine Decided.read.bind fun k => ?_
      dsimp only
      split
      · exact .stop _
      · exact (ideRead_decided _ _ _ _).bind fun _ => (Decided.modify _).bind fun _ => ih _ _

section FileRead

variable {t : Transfer} {g a pos count : ℕ} {buf : Bytes} {k : Kernel}

/-- What `file_read` returns is `-1`, or what it returns when it has its buffers. -/
theorem wp_fileRead : (fileRead t g buf count).wp
    (fun r k' => r.1 = -1 ∨ (fileRead t g buf count).outcome k = .ok (r, k')) k := by
  rw [fileRead, wp_bind, wp_read, outcome_read_bind]
  cases (k.fileTable g).fdInode with
  | none => trivial
  | some a =>
      dsimp only
      generalize (if (k.inodes a).iSize < ((k.fileTable g).fdPos + count) % 2 ^ 32 then
        subU32 (k.inodes a).iSize (k.fileTable g).fdPos else count) = size
      split
      · exact Or.inl rfl
      rw [wp_bind, wp_sysMallocUnchecked, wp_bind, wp_sysMalloc]
      intro ok
      cases ok with
      | false => exact Or.inl rfl
      | true =>
          rw [if_neg (by decide), outcome_bind_ok (a := ()) rfl, outcome_bind_ok (a := true) rfl,
            if_neg (by decide)]
          refine wp_iff_returns.mpr fun r k' hret => Or.inr (Decided.outcome_of_returns ?_ hret)
          exact (Decided.assert _).bind fun _ => (readBlocks_decided _ _ _ _).bind fun _ =>
            (readFileLoop_decided _ _ _ _ _ _ _).bind fun _ => .pure _

variable (hinode : (k.fileTable g).fdInode = some a) (hpos : (k.fileTable g).fdPos = pos)

include hinode hpos

/-- A read from a position past the end of the file. -/
theorem outcome_fileRead_past (hsmall : (k.inodes a).iSize ≤ maxFileSize)
    (hpast : (k.inodes a).iSize < pos) (hcount : pos + count < 2 ^ 32) :
    ∃ e, (fileRead t g buf count).outcome k = .error e := by
  have hmax : maxFileSize < 2 ^ 31 := by decide
  have hlen : (if (k.inodes a).iSize < pos + count then subU32 (k.inodes a).iSize pos else count) =
      2 ^ 32 - (pos - (k.inodes a).iSize) := by
    rw [if_pos (by omega), subU32, if_neg (by omega)]
  have hsome : ¬ ((k.inodes a).iSize < pos + count ∧ 2 ^ 32 - (pos - (k.inodes a).iSize) = 0) := by
    rintro ⟨-, hzero⟩
    omega
  rw [fileRead, outcome_read_bind]
  dsimp only
  rw [hinode]
  dsimp only
  rw [hpos, Nat.mod_eq_of_lt hcount, hlen, if_neg hsome, outcome_bind_ok (a := ()) rfl, outcome_bind_ok (a := true) rfl, if_neg (by decide)]
  generalize hn : 2 ^ 32 - (pos - (k.inodes a).iSize) = n
  cases hassert : decide (pos / sectorSize < 139 ∧ (pos + n) % 2 ^ 32 / sectorSize < 139) with
  | false => exact ⟨.halt, outcome_bind_error (outcome_assert_false rfl)⟩
  | true =>
      obtain ⟨hfirst, -⟩ := of_decide_eq_true hassert
      rw [Nat.div_lt_iff_lt_mul (by decide)] at hfirst
      have hlow : pos ≤ maxFileSize := hfirst.le.trans (by decide)
      rw [outcome_bind_ok (outcome_assert rfl)]
      rcases readBlocks_returns_or_halts (t := t) (k := k) (k.inodes a).iSectors (pos / sectorSize)
        ((pos + n) % 2 ^ 32 / sectorSize) with ⟨allBlocks, hblocks⟩ | hblocks
      · rw [outcome_bind_ok hblocks]
        obtain ⟨e, -, hstuck⟩ : ∃ e, (e = .halt ∨ e = .undefined) ∧
            (readFileLoop t g allBlocks n n 0 buf).outcome k = .error e :=
          outcome_readFileLoop_stuck hpos (by omega) hlow (by omega)
        exact ⟨e, outcome_bind_error hstuck⟩
      · exact ⟨.halt, outcome_bind_error hblocks⟩

/-- A read that returns a count gives the bytes from the position on. -/
theorem Kernel.Holds.read {dst : Bytes} {data : List UInt8} {n : ℤ} {k' : Kernel} (hk : k.Holds a data)
    (hcount : pos + count < 2 ^ 32) (hret : Returns (fileRead t g buf count) k (n, dst) k') (hn : 0 ≤ n) :
    firstBytes dst n.toNat = (data.drop pos).take count ∧ ((k'.fileTable g).fdPos : ℤ) = pos + n := by
  have hout := (wp_iff_returns.mp wp_fileRead _ _ hret).resolve_left fun hneg => by
    change n = -1 at hneg
    omega
  have hread := hk.order.readable
  by_cases hpast : (k.inodes a).iSize < pos
  · obtain ⟨e, he⟩ : ∃ e, (fileRead t g buf count).outcome k = .error e :=
      outcome_fileRead_past hinode hpos hread.size hpast hcount
    rw [hout] at he
    cases he
  · have hle : pos ≤ (k.fileOf a).size := Nat.not_lt.mp hpast
    by_cases hserved : (k.fileOf a).Served pos count
    · rw [outcome_fileRead hinode hread hpos hle hcount hserved] at hout
      injection hout with hpair
      obtain ⟨hvalue, hstate⟩ := Prod.mk.inj hpair
      obtain ⟨hret, hdst⟩ := Prod.mk.inj hvalue
      rw [Contents.readRet] at hret
      split at hret
      · omega
      rw [← hret, ← hdst, ← hstate, Int.toNat_natCast, Kernel.fileTable_setPos]
      refine ⟨List.ext_getElem? fun i => ?_, by push_cast; rfl⟩
      generalize hlen : (k.fileOf a).readLen pos count = len
      have hlen' : len = min count (data.length - pos) := by
        rw [← hlen, Contents.readLen, hk.size]
      by_cases hi : i < len
      · rw [getElem?_firstBytes hi, List.getElem?_take_of_lt (by omega), List.getElem?_drop,
          hk.byte _ (by omega), ← Nat.zero_add i, copy_add hi, Nat.zero_add]
      · rw [List.getElem?_eq_none (by rw [length_firstBytes]; omega), List.getElem?_eq_none]
        rw [List.length_take, List.length_drop]
        omega
    · rw [outcome_fileRead_last hinode hread hpos hle hcount hserved] at hout
      cases hout

end FileRead

/-! ## The inode table -/

/-- The sectors of the inode table are as they were. -/
structure KeepsTable (k k' : Kernel) : Prop where
  sb : k'.part.sb = k.part.sb
  len : k'.part.blockBitmap.btmpBytesLen = k.part.blockBitmap.btmpBytesLen
  disk : ∀ l, k.part.sb.inodeTableLba ≤ l → l < k.part.sb.inodeTableLba + inodeTableSects →
    sectorOf k'.disk l = sectorOf k.disk l

namespace KeepsTable

variable {k k₁ k' : Kernel}

theorem refl (k : Kernel) : KeepsTable k k := ⟨rfl, rfl, fun _ _ _ => rfl⟩

theorem trans (h : KeepsTable k k₁) (h' : KeepsTable k₁ k') : KeepsTable k k' where
  sb := h'.sb.trans h.sb
  len := h'.len.trans h.len
  disk l hlow hhigh := by
    rw [h'.disk l (by rwa [h.sb]) (by rwa [h.sb]), h.disk l hlow hhigh]

theorem tableApart (h : KeepsTable k k') (hk : k.part.TableApart) : k'.part.TableApart where
  bitmap i hi := by
    rw [h.len] at hi
    rw [h.sb]
    exact hk.bitmap i hi
  data := by
    rw [h.sb]
    exact hk.data

/-- Taking a block changes the bitmap in memory. -/
theorem mark (k : Kernel) (lba : ℕ) : KeepsTable k { k with part := k.part.mark lba true } :=
  ⟨rfl, btmpBytesLen_bitmapSet _ _ _, fun _ _ _ => rfl⟩

/-- A write outside of the table. -/
theorem write (k : Kernel) {lba : ℕ} (buf : Bytes)
    (h : lba < k.part.sb.inodeTableLba ∨ k.part.sb.inodeTableLba + inodeTableSects ≤ lba) :
    KeepsTable k { k with disk := copy k.disk (sectorSize * lba) buf 0 sectorSize } :=
  ⟨rfl, rfl, fun l hlow hhigh => sectorOf_copy_other (by omega)⟩

/-- The inodes in the table are as they were. -/
theorem diskInode (h : KeepsTable k k') {m : ℕ} (hm : m < maxFilesPerPart) :
    k'.diskInode .consecutive m = k.diskInode .consecutive m := by
  have hinside := inodePlace_inside k.part.sb hm
  rw [Kernel.diskInode_consecutive, Kernel.diskInode_consecutive, h.sb]
  refine inodeAt_congr fun i hi => ?_
  generalize hplace : k.part.sb.inodePlace m + i = p at *
  have hlow : sectorSize * k.part.sb.inodeTableLba ≤ p := by
    rw [← hplace, SuperBlock.inodePlace]
    omega
  have hfirst : k.part.sb.inodeTableLba ≤ p / sectorSize :=
    (Nat.le_div_iff_mul_le (by decide)).mpr (by rwa [Nat.mul_comm])
  have hlast : p / sectorSize < k.part.sb.inodeTableLba + inodeTableSects :=
    Nat.div_lt_of_lt_mul (by omega)
  have hbytes := congrFun (h.disk _ hfirst hlast) (p % sectorSize)
  have ho : p % sectorSize < sectorSize := Nat.mod_lt _ (by decide)
  rwa [sectorOf_apply ho, sectorOf_apply ho, Nat.div_add_mod] at hbytes

end KeepsTable

section KeepsTable

variable {t : Transfer} {fd a count : ℕ} {buf : Bytes} {k : Kernel}

/-- `bitmap_sync` of a block writes to the bitmap. -/
theorem wp_bitmapSync_table {value : Bool} {lba : ℕ} (h : k.part.TableApart)
    (hlba : k.part.Marked value lba) :
    (bitmapSync t (subU32 lba k.part.sb.dataStartLba) .blockBitmap).wp (fun _ k' => KeepsTable k k') k := by
  rw [subU32_of_le hlba.low]
  simp only [bitmapSync, wp_bind, wp_read, wp_ideWrite_one]
  exact fun _ => .write k _ (Or.inl (h.bitmap _ hlba.index))

theorem wp_allocBlocks_table {left blkI : ℕ} {allBlocks : ℕ → ℕ} (h : k.part.TableApart) :
    (allocBlocks t a left blkI allBlocks).wp (fun _ k' => KeepsTable k k') k := by
  induction left generalizing blkI allBlocks k with
  | zero => exact .refl k
  | succ left ih =>
      rw [allocBlocks, wp_bind]
      refine wp_blockBitmapAlloc (fun _ => .refl k) fun lba hfree => ?_
      -- what is left once the block is marked
      have hrest (k₁ : Kernel) (hkept : KeepsTable k k₁) (hpart : k₁.part = k.part.mark lba true) :
          (do
            bitmapSync t (subU32 lba k.part.sb.dataStartLba) .blockBitmap
            allocBlocks t a left (blkI + 1) (Function.update allBlocks blkI lba) :
            Prog Kernel (Option (ℕ → ℕ))).wp (fun _ k' => KeepsTable k k') k₁ := by
        have hmark : k₁.part.Marked true lba := hpart ▸ hfree.self true
        rw [← hkept.sb, wp_bind]
        refine wp_mono (wp_bitmapSync_table (hkept.tableApart h) hmark) fun _ k₂ hsync => ?_
        have hkept₂ := hkept.trans hsync
        exact wp_mono (ih (hkept₂.tableApart h)) fun _ k' hkept' => hkept₂.trans hkept'
      dsimp only
      rw [wp_bind, wp_read]
      split
      · rw [wp_bind, wp_assert]
        intro _
        rw [wp_bind, modifyInode, wp_modify]
        exact hrest _ ((KeepsTable.mark k lba).trans ⟨rfl, rfl, fun _ _ _ => rfl⟩) rfl
      · exact hrest _ (.mark k lba) rfl

theorem wp_allocFirst_table (h : k.part.TableApart) :
    (allocFirst t a).wp (fun _ k' => KeepsTable k k') k := by
  rw [allocFirst, wp_bind, wp_read]
  split
  · rw [wp_bind]
    refine wp_blockBitmapAlloc (fun _ => .refl k) fun lba hfree => ?_
    have hmark : (k.part.mark lba true).Marked true lba := hfree.self true
    have hkept := (KeepsTable.mark k lba)
    dsimp only
    rw [wp_bind, modifyInode, wp_modify, wp_bind, wp_assert]
    intro _
    rw [wp_bind]
    refine wp_mono (wp_bitmapSync_table (k := Kernel.setInode _ a _) (hkept.tableApart h) hmark)
      fun _ k₂ hsync => ?_
    exact hkept.trans ⟨hsync.sb, hsync.len, hsync.disk⟩
  · exact .refl k

theorem wp_buildBlocks_table {has will : ℕ} (h : k.part.TableApart)
    (hblocks : FileBlocks k.part (k.inodes a).iSectors) :
    (buildBlocks t a has will).wp (fun _ k' => KeepsTable k k') k := by
  have hwrite {lba : ℕ} {ab : ℕ → ℕ} {k₁ : Kernel} (hkept : KeepsTable k k₁)
      (hlba : k.part.sb.dataStartLba ≤ lba) :
      (do
        ideWrite t lba (indirectImage ab) 1
        return some ab : Prog Kernel (Option (ℕ → ℕ))).wp (fun _ k' => KeepsTable k k') k₁ := by
    have hdata := h.data
    rw [wp_bind, wp_ideWrite_one]
    exact fun _ => hkept.trans (.write k₁ _ (Or.inr (by rw [hkept.sb]; omega)))
  rw [buildBlocks, wp_bind, wp_read]
  dsimp only
  split
  · split
    · exact .refl k
    · simp only [wp_bind, wp_assert, wp_ideRead_one, wp_pure]
      exact fun _ _ => .refl k
  split
  · rw [wp_bind, wp_assert]
    exact fun _ => wp_allocBlocks_table h
  split
  · rw [wp_bind]
    refine wp_blockBitmapAlloc (fun _ => .refl k) fun table hfree => ?_
    have hkept := KeepsTable.mark k table
    dsimp only
    rw [wp_bind, wp_assert]
    intro _
    rw [wp_bind, modifyInode, wp_modify, wp_bind]
    refine wp_mono (wp_allocBlocks_table (k := Kernel.setInode _ a _) (hkept.tableApart h)) fun r k₂ hall => ?_
    have hkept₂ : KeepsTable k k₂ := hkept.trans ⟨hall.sb, hall.len, hall.disk⟩
    cases r with
    | none => exact hkept₂
    | some ab => exact hwrite hkept₂ hfree.low
  · rw [wp_bind, wp_assert]
    intro hne
    rw [wp_bind, wp_ideRead_one]
    intro _
    rw [wp_bind]
    refine wp_mono (wp_allocBlocks_table h) fun r k₂ hkept => ?_
    cases r with
    | none => exact hkept
    | some ab => exact hwrite hkept (hblocks.taken directPtrs le_rfl (of_decide_eq_true hne)).low

/-- Nothing that `file_write` does before its last step reaches the inode table. -/
theorem wp_writeData_table (horder : k.InOrder a) (h : k.part.TableApart)
    (hend : (k.inodes a).iSize + count < maxFileSize) :
    (writeData t fd a (k.inodes a).iSize buf count).wp (fun _ k' => KeepsTable k k') k := by
  have hmod : ((k.inodes a).iSize + count) % 2 ^ 32 = (k.inodes a).iSize + count :=
    Nat.mod_eq_of_lt (hend.trans (by decide))
  have hle : blocksOf (k.inodes a).iSize ≤ blocksOf ((k.inodes a).iSize + count) :=
    Nat.succ_le_succ (Nat.div_le_div_right (Nat.le_add_right _ _))
  have hwill : blocksOf ((k.inodes a).iSize + count) ≤ flattenPtrs := by
    unfold blocksOf maxFileSize sectorSize flattenPtrs at *
    omega
  rw [writeData, wp_bind, wp_sysMalloc]
  intro ok
  split
  · exact .refl k
  rw [wp_bind, wp_sysMalloc]
  intro ok
  split
  · exact .refl k
  rw [wp_bind]
  refine wp_mono (wp_and (wp_of_ensures (ensures_allocFirst (e := .any) horder)) (wp_allocFirst_table h)) ?_
  rintro ok k₁ ⟨hstart, hkept₁⟩
  cases ok with
  | false => exact hkept₁
  | true =>
      have hhas := hstart.blocks rfl
      have hbuild : (buildBlocks t a (blocksOf (k.inodes a).iSize)
          (blocksOf ((k.inodes a).iSize + count))).ensures .any (Built a k₁ _ _) k₁ :=
        ensures_buildBlocks hhas (Nat.succ_pos _) hle hwill (Or.inl trivial)
      rw [if_neg (by decide), writeBlocks]
      dsimp only
      rw [hmod, wp_bind, wp_assert]
      intro _
      rw [wp_bind]
      refine wp_mono (wp_and (wp_of_ensures hbuild)
        (wp_buildBlocks_table (hkept₁.tableApart h) hhas.blocks)) ?_
      rintro r k₂ ⟨hbuilt, hkept⟩
      have hkept₂ := hkept₁.trans hkept
      cases r with
      | none => exact hkept₂
      | some ab =>
          have hin (i : ℕ) (hi : sectorSize * i < (k.inodes a).iSize + count) :
              i < blocksOf ((k.inodes a).iSize + count) := by
            unfold blocksOf sectorSize at *
            omega
          have hsize : (k₂.inodes a).iSize = (k.inodes a).iSize := hbuilt.size.trans hstart.gains.size
          dsimp only
          rw [wp_bind, wp_modify, wp_bind]
          refine wp_mono (wp_of_ensures (ensures_writeLoop (e := .any) (k := k₂.setFile fd _) hsize hend
            (Nat.le_add_left _ _) (fun _ => Or.inl rfl) fun i hlow hlt =>
              (hbuilt.map ab rfl i hlow (hin i hlt)).1.last)) fun _ k₃ hput => ?_
          refine hkept₂.trans ⟨congrArg Partition.sb hput.part,
            congrArg (fun part => part.blockBitmap.btmpBytesLen) hput.part, fun l hlow hhigh =>
              hput.disk l fun i hi hlt heq => ?_⟩
          -- the loop writes to blocks, which lie behind the table
          have hblock := (hbuilt.map ab rfl i hi (hin i hlt)).1.low
          have hdata := (hkept₂.tableApart h).data
          omega

/-- `inode_sync` with a buffer of one sector. -/
theorem wp_inodeSync_one {inode : Inode} :
    (inodeSync t inode 1).wp (fun _ k' => k' = k.sync inode) k := by
  rw [inodeSync, inodeLocate]
  simp only [wp_bind, wp_assert, wp_read, wp_pure]
  intro _ _
  split
  · trivial
  next hsecs =>
    have hone : (inodePosition k.part.sb (inode.iNo % 256)).secs = 1 :=
      Nat.le_antisymm (Nat.not_lt.mp hsecs) (inodePosition k.part.sb _).secs_bounds.1
    have hinside := inodePosition_inside k.part.sb (inode.iNo % 256)
    rw [hone, Nat.mul_one] at hinside
    rw [hone, wp_bind, wp_ideRead_one]
    intro _
    rw [wp_ideWrite_one]
    intro _
    generalize hpos : inodePosition k.part.sb (inode.iNo % 256) = pos at *
    have hembed : copy k.disk (sectorSize * pos.secLba)
        (copy (sectorOf k.disk pos.secLba) pos.offSize inode.stored.image 0 inodeSize) 0 sectorSize =
        copy k.disk (sectorSize * pos.secLba + pos.offSize) inode.stored.image 0 inodeSize :=
      copy_embed hinside fun i hi => sectorOf_apply hi
    rw [Kernel.sync, ← inodePosition_place, hpos, ← hembed]
    rfl

/-- The inodes of other numbers are kept in the table, as far as the numbers differ modulo 256. -/
theorem wp_fileWrite_table (hinode : (k.fileTable fd).fdInode = some a) (horder : k.InOrder a)
    (h : k.part.TableApart) (hcount : count < 2 ^ 32) :
    (fileWrite t fd buf count).wp (fun _ k' => k'.part.TableApart ∧ ∀ m < maxFilesPerPart,
      m ≠ (k.inodes a).iNo % 256 → k'.diskInode .consecutive m = k.diskInode .consecutive m) k := by
  by_cases hend : (k.inodes a).iSize + count < maxFileSize
  · have hmod : ((k.inodes a).iSize + count) % 2 ^ 32 = (k.inodes a).iSize + count :=
      Nat.mod_eq_of_lt (hend.trans (by decide))
    obtain ⟨g, hg, hgk⟩ := fileWrite_from (t := t) hinode
    have honly := (writeData_only t fd a (k.inodes a).iSize buf count).wp_of (refl k)
    rw [hg]
    change Prog.wp (g k) _ k
    rw [hgk, if_neg (by omega), wp_bind]
    refine wp_mono (wp_and honly (wp_writeData_table horder h hend)) ?_
    rintro ok k₁ ⟨honly, hkept⟩
    unfold writeFinish
    cases ok with
    | false => exact ⟨hkept.tableApart h, fun m hm _ => hkept.diskInode hm⟩
    | true =>
        rw [if_pos rfl, wp_bind, wp_read, wp_bind]
        refine wp_mono wp_inodeSync_one ?_
        rintro _ k' rfl
        refine ⟨hkept.tableApart h, fun m hm hne => ?_⟩
        rw [← honly.iNo] at hne
        rw [Kernel.sync_other hne, hkept.diskInode hm]
  · refine wp_mono (wp_fileWrite_large hinode horder hcount (Nat.not_lt.mp hend)) ?_
    rintro ret k' ⟨-, rfl⟩
    exact ⟨h, fun _ _ _ => rfl⟩

end KeepsTable

theorem WriteRun.tableApart {t : Transfer} {a : ℕ} {data : List UInt8} {k : Kernel} (h : WriteRun t a data k) :
    k.part.TableApart := by
  induction h with
  | new hnew => exact hnew.table
  | write h hinode hcount hret ih =>
      exact (wp_iff_returns.mp (wp_fileWrite_table hinode h.holds.order ih hcount) _ _ hret).1
  | other h hother ih => exact ⟨fun i hi => by
      rw [hother.len] at hi
      rw [hother.sb]
      exact ih.bitmap i hi, by rw [hother.sb]; exact ih.data⟩

/-! ## Other files -/

/-- The blocks of the file of this inode are in use, and none of them is one of the file at `a`. -/
structure Kernel.ApartFrom (k : Kernel) (a : ℕ) (inode : Inode) : Prop where
  blocks : ∀ i, sectorSize * i < inode.iSize →
    k.part.Taken (blockAt k.disk inode.iSectors i) ∧ ¬ k.Owns a (blockAt k.disk inode.iSectors i)
  table : sectorSize * directPtrs < inode.iSize →
    k.part.Taken (inode.iSectors directPtrs) ∧ ¬ k.Owns a (inode.iSectors directPtrs)

/-- Appending to the file at `a` leaves such a file alone. -/
theorem Appends.apartFrom {a n : ℕ} {src : Bytes} {k k' : Kernel} {inode : Inode}
    (h : Appends a src n k k') (hapart : k.ApartFrom a inode) :
    k'.ApartFrom a inode ∧
      ∀ p < inode.iSize, (contents k'.disk inode).byte p = (contents k.disk inode).byte p := by
  have hblock {i : ℕ} (hi : sectorSize * i < inode.iSize) :
      blockAt k'.disk inode.iSectors i = blockAt k.disk inode.iSectors i := by
    unfold blockAt
    split
    · rfl
    next hlow =>
      have hlong : sectorSize * directPtrs < inode.iSize :=
        (Nat.mul_le_mul_left _ (Nat.not_lt.mp hlow)).trans_lt hi
      obtain ⟨htaken, hno⟩ := hapart.table hlong
      unfold tableEntry
      rw [(h.others _ htaken hno).1]
  refine ⟨⟨fun i hi => ?_, fun hlong => ?_⟩, fun p hp => ?_⟩
  · obtain ⟨htaken, hno⟩ := hapart.blocks i hi
    rw [hblock hi]
    exact (h.others _ htaken hno).2
  · obtain ⟨htaken, hno⟩ := hapart.table hlong
    exact (h.others _ htaken hno).2
  · have hi : sectorSize * (p / sectorSize) < inode.iSize := (Nat.mul_div_le p sectorSize).trans_lt hp
    obtain ⟨htaken, hno⟩ := hapart.blocks _ hi
    have hbytes := congrFun (h.others _ htaken hno).1 (p % sectorSize)
    have ho : p % sectorSize < sectorSize := Nat.mod_lt _ (by decide)
    rw [sectorOf_apply ho, sectorOf_apply ho] at hbytes
    change k'.disk (sectorSize * blockAt k'.disk inode.iSectors (p / sectorSize) + p % sectorSize) = _
    rw [hblock hi, hbytes]
    rfl

/-- The other files are as they were: their inodes in memory and on the disk, and their bytes. -/
structure OthersKept (a : ℕ) (k k' : Kernel) : Prop where
  cached : ∀ b, b ≠ a → k'.inodes b = k.inodes b
  stored : ∀ m < maxFilesPerPart, m ≠ (k.inodes a).iNo →
    k'.diskInode .consecutive m = k.diskInode .consecutive m
  files : ∀ inode, k.ApartFrom a inode → k'.ApartFrom a inode ∧
    ∀ p < inode.iSize, (contents k'.disk inode).byte p = (contents k.disk inode).byte p

/-- The file at `a` is what was appended to it, and appending to it concerns no other file. -/
structure AppendOnly (t : Transfer) (a : ℕ) (data : List UInt8) (k : Kernel) : Prop where
  size : (k.inodes a).iSize = data.length
  reads : ∀ g buf count n dst k', (k.fileTable g).fdInode = some a →
    (k.fileTable g).fdPos + count < 2 ^ 32 → Returns (fileRead t g buf count) k (n, dst) k' → 0 ≤ n →
      firstBytes dst n.toNat = (data.drop (k.fileTable g).fdPos).take count ∧
        ((k'.fileTable g).fdPos : ℤ) = (k.fileTable g).fdPos + n
  others : ∀ g buf count ret k', (k.fileTable g).fdInode = some a → count < 2 ^ 32 →
    Returns (fileWrite t g buf count) k ret k' → (ret = count ∨ ret = -1) ∧ OthersKept a k k'

/-- The number of the inode fits in a byte, and its place in the inode table in one sector. -/
structure Inode.StoresWell (inode : Inode) : Prop where
  byte : inode.iNo < 256
  oneSec : inodeTwoSec inode.iNo = false

/-- A file whose inode is stored well is append-only. -/
theorem writeRun_appendOnly {t : Transfer} {a : ℕ} {data : List UInt8} {k : Kernel} (h : WriteRun t a data k)
    (hstore : (k.inodes a).StoresWell) : AppendOnly t a data k := by
  have hno := hstore.byte
  have hholds := h.holds
  refine ⟨hholds.size, fun g buf count n dst k' hinode hcount hret hn => ?_,
    fun g buf count ret k' hinode hcount hret => ?_⟩
  · exact hholds.read hinode rfl hcount hret hn
  · have hwritten := wp_iff_returns.mp (wp_fileWrite hinode hholds.order hcount) _ _ hret
    have htable := (wp_iff_returns.mp (wp_fileWrite_table hinode hholds.order h.tableApart hcount) _ _ hret).2
    rw [Nat.mod_eq_of_lt hno] at htable
    rcases hwritten.result with ⟨hret, happ⟩ | ⟨hret, happ, -⟩
    · exact ⟨Or.inl hret, hwritten.only.others, htable, fun inode => happ.apartFrom⟩
    · exact ⟨Or.inr hret, hwritten.only.others, htable, fun inode => happ.apartFrom⟩

/-! ## Two files -/

/-- A new file system with an empty file without blocks, and with this block bitmap. -/
def emptyFile (bits : Bytes) : Kernel :=
  { smallMachine.newFs with
    part := { smallMachine.newFs.part with blockBitmap := ⟨512, bits⟩ }
    inodes := fun _ => inodeInit 1
    fileTable := fun _ => ⟨0, oRdwr, some 1⟩ }

/-- The file is in order when the root block is in use. -/
theorem emptyFile_inOrder {bits : Bytes} (hroot : bits 0 = 0xff) : (emptyFile bits).InOrder 1 := by
  have hlayout := smallMachine_roomy.newPart_layout
  have hsmall : 0 < maxFileSize := by decide
  refine ⟨hsmall, ⟨⟨hlayout.entrySize, hlayout.start, hlayout.last, hlayout.bitmap, hlayout.inodeTable,
    hlayout.inodeTablePart⟩, fun lba hlba => ?_, fun hfree => ?_, fun i _ hne => absurd rfl hne,
    fun i _ hne => absurd rfl hne⟩, fun hne => absurd rfl hne, fun _ => rfl⟩
  · have hindex := hlba.index
    change lba - smallMachine.newSb.dataStartLba < 512 * 8 at hindex
    have hend : smallMachine.newSb.dataStartLba + 4096 ≤ maxLba := by decide +kernel
    omega
  · have hbit := hfree.bit
    change Bitmap.bit ⟨512, bits⟩ (_ - _) = false at hbit
    rw [Nat.sub_self, Bitmap.bit, Nat.zero_div] at hbit
    change (bits 0).toBitVec.getLsbD (0 % 8) = false at hbit
    rw [hroot] at hbit
    cases hbit

theorem emptyFile_newFile {bits : Bytes} (hroot : bits 0 = 0xff) : (emptyFile bits).NewFile 1 := by
  have hdata : smallMachine.newSb.inodeTableLba + inodeTableSects ≤ smallMachine.newSb.dataStartLba := by
    decide +kernel
  have hlow : smallMachine.newSb.blockBitmapLba < smallMachine.newSb.inodeTableLba := by decide +kernel
  refine ⟨rfl, (emptyFile_inOrder hroot).blocks, fun _ _ => rfl, fun i hi => ?_, hdata⟩
  change i < 512 * 8 at hi
  change smallMachine.newSb.blockBitmapLba + i / 4096 < _
  rw [Nat.div_eq_of_lt hi]
  exact hlow

/-- An empty file with this number on a new file system, on which file 1 is empty, too. -/
def fileNumbered (n : ℕ) : Kernel :=
  { emptyFile (fun i => if i = 0 then 0xff else 0) with
    disk := copy smallMachine.newFs.disk (smallMachine.newSb.inodePlace 1) (inodeInit 1).image 0 inodeSize
    inodes := fun _ => inodeInit n }

theorem fileNumbered_newFile (n : ℕ) : (fileNumbered n).NewFile 1 :=
  ⟨rfl, (emptyFile_inOrder rfl).blocks, fun _ _ => rfl, (emptyFile_newFile rfl).table⟩

/-- One byte is written to file 2. -/
theorem writeRun_appendOnly_two : ∃ k', WriteRun .consecutive 1 [0] k' ∧ AppendOnly .consecutive 1 [0] k' := by
  obtain ⟨k', hwrite⟩ := exists_outcome_of_map (a := 1)
    (show ((fileWrite .consecutive 3 zeroBuf 1).outcome (fileNumbered 2)).toOption.map Prod.fst = some 1 by
      decide +kernel)
  have hret := returns_of_outcome hwrite
  have hcount : 1 < 2 ^ 32 := by decide
  have hnew : WriteRun .consecutive 1 [] (fileNumbered 2) := .new (fileNumbered_newFile 2)
  have hno : (k'.inodes 1).iNo = 2 :=
    (wp_iff_returns.mp (wp_fileWrite rfl hnew.holds.order hcount) _ _ hret).only.iNo
  exact ⟨k', hnew.write rfl hcount hret, writeRun_appendOnly (hnew.write rfl hcount hret)
    ⟨by rw [hno]; decide, by rw [hno]; decide⟩⟩

/-- The same with file 257, which is stored over file 1. -/
theorem not_appendOnly_257 :
    WriteRun .consecutive 1 [] (fileNumbered 257) ∧ ¬ AppendOnly .consecutive 1 [] (fileNumbered 257) := by
  refine ⟨.new (fileNumbered_newFile 257), fun h => ?_⟩
  have hrun : ((fileWrite .consecutive 3 zeroBuf 1).outcome (fileNumbered 257)).toOption.map
      (fun r => (r.2.diskInode .consecutive 1).iNo) = some 257 := by decide +kernel
  rcases hout : (fileWrite .consecutive 3 zeroBuf 1).outcome (fileNumbered 257) with e | ⟨ret, k'⟩
  · rw [hout] at hrun
    cases hrun
  · rw [hout] at hrun
    have hkept := (h.others 3 zeroBuf 1 ret k' rfl (by decide) (returns_of_outcome hout)).2.stored 1
      (by decide) (by decide)
    have hfirst : ((fileNumbered 257).diskInode .consecutive 1).iNo = 1 := by decide +kernel
    have hlast : (k'.diskInode .consecutive 1).iNo = 257 := Option.some.inj hrun
    rw [hkept, hfirst] at hlast
    exact absurd hlast (by decide)

end BochsOs
