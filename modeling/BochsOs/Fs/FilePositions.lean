import BochsOs.Fs.OneWriter

/-!
# File positions

`file_read` subtracts `fd_pos` from `i_size`, so `fd_pos` must not be larger.  Opening sets it to `0`,
`sys_lseek` only to offsets in the file, `file_read` moves it up to the end, and `file_write` leaves it at
the last byte of the file, or what it takes for that: if the file is empty and stays so, this is
`2 ^ 32 - 1` (`empty_write_leaves_file`).  As long as nobody writes no bytes to an empty file, every
position is inside of its file (`positions_inside`).
-/

namespace BochsOs

open ByteMemory Suspend Suspend.Prog Runs

/-! ## The calls -/

/-- A call that opens a file or moves in it. -/
inductive PosCall where
  | open (pathname : CString) (flags : ℕ)
  | write (fd : ℤ) (buf : Bytes) (count : UInt32)
  | read (fd : ℤ) (buf : Bytes) (count : UInt32)
  | lseek (fd offset : ℤ) (whence : Whence)

/-- The code of a call. -/
def PosCall.body (t : Transfer) : PosCall → Prog Kernel ℤ
  | .open pathname flags => sysOpen t pathname flags
  | write fd buf count => sysWrite t fd buf count.toNat
  | read fd buf count => do
      let r ← sysRead t fd buf count.toNat
      return r.1
  | lseek fd offset whence => sysLseek fd offset whence

/-- The process `p` makes a call. -/
def PosStep (t : Transfer) (k : Kernel) (call : ℕ × PosCall) (k' : Kernel) : Prop :=
  ∃ ret, (call.2.body t).Returns { k with running := call.1 } ret k'

/-- The first block of a file is there, or the bitmap has one for it. -/
def Kernel.HasFirstBlock (k : Kernel) (a : ℕ) : Prop :=
  (k.inodes a).iSectors 0 = 0 → ∃ i ≠ 0, bitmapScan k.part.blockBitmap 1 = some i

/-- No byte is written, to a file that is empty and open for writing. -/
def WritesNothing (k : Kernel) : PosCall → Prop
  | .write fd _ count => count = 0 ∧ 0 ≤ fd ∧ fd ≠ 1 ∧ ∃ g a, k.cur.fdTable fd.toNat = (g : ℕ) ∧
      k.Writes g a ∧ (k.inodes a).iSize = 0 ∧ k.HasFirstBlock a
  | _ => False

/-- The side condition on calls. -/
def NoEmptyWrite (k : Kernel) (call : ℕ × PosCall) : Prop :=
  ¬ WritesNothing { k with running := call.1 } call.2

/-- Every position is inside of its file or at the end. -/
def PositionsInside (k : Kernel) : Prop :=
  ∀ g < maxFileOpen, ∀ a, (k.fileTable g).fdInode = some a →
    (k.fileTable g).fdPos ≤ (k.inodes a).iSize

/-! ## What the calls keep -/

/-- The file table stays, and no file changes its size. -/
structure SameSizes (k k' : Kernel) : Prop extends KeepsOpen k k' where
  size : ∀ a, (k'.inodes a).iSize = (k.inodes a).iSize

/-- The file table stays, and no file shrinks. -/
structure Grown (k k' : Kernel) : Prop extends KeepsOpen k k' where
  size : ∀ a < k.nextInode, (k.inodes a).iSize ≤ (k'.inodes a).iSize

theorem SameSizes.grown {k k' : Kernel} (h : SameSizes k k') : Grown k k' :=
  ⟨h.toKeepsOpen, fun a _ => (h.size a).ge⟩

instance : IsPreorder Kernel SameSizes where
  refl k := ⟨refl k, fun _ => rfl⟩
  trans _ _ _ h h' := ⟨h.toKeepsOpen.trans h'.toKeepsOpen, fun a => (h'.size a).trans (h.size a)⟩

instance : IsPreorder Kernel Grown where
  refl k := ⟨refl k, fun _ _ => le_rfl⟩
  trans _ _ _ h h' := ⟨h.toKeepsOpen.trans h'.toKeepsOpen,
    fun a ha => (h.size a ha).trans (h'.size a (ha.trans_le h.next))⟩

theorem size_setInode (k : Kernel) (a : ℕ) (inode : Inode) (b : ℕ) :
    ((k.setInode a inode).inodes b).iSize = if b = a then inode.iSize else (k.inodes b).iSize := by
  simp only [Kernel.setInode, Function.update_apply]
  split <;> rfl

/-- An inode is set to one that is not smaller. -/
theorem size_setInode_le (k : Kernel) (a : ℕ) {inode : Inode} (h : (k.inodes a).iSize ≤ inode.iSize)
    (b : ℕ) : (k.inodes b).iSize ≤ ((k.setInode a inode).inodes b).iSize := by
  rw [size_setInode]
  split
  next hb => rwa [hb]
  next => exact le_rfl

instance : SectorFrame SameSizes where
  disk k disk := ⟨DiskFrame.disk k disk, fun _ => rfl⟩
  blockBitmap k b := ⟨BlockFrame.blockBitmap k b, fun _ => rfl⟩
  sector k a i lba := by
    refine ⟨SectorFrame.sector k a i lba, fun b => ?_⟩
    rw [size_setInode]
    split
    next hb => rw [hb]; rfl
    next => rfl

instance : GrowFrame Grown where
  disk k disk := ⟨DiskFrame.disk k disk, fun _ _ => le_rfl⟩
  blockBitmap k b := ⟨BlockFrame.blockBitmap k b, fun _ _ => le_rfl⟩
  sector k a i lba := ⟨SectorFrame.sector k a i lba, fun b _ => size_setInode_le k a (by exact le_rfl) b⟩
  grow k a size := ⟨GrowFrame.grow k a size, fun b _ => size_setInode_le k a (Nat.le_add_right _ _) b⟩

instance : WalkFrame Grown where
  count k a n := ⟨WalkFrame.count k a n, fun b _ => size_setInode_le k a (by exact le_rfl) b⟩
  erase k a := ⟨WalkFrame.erase k a, fun _ _ => le_rfl⟩
  alloc k := ⟨WalkFrame.alloc k, fun _ _ => le_rfl⟩
  newInode k inode := by
    refine ⟨WalkFrame.newInode k inode, fun a ha => ?_⟩
    simp only [Kernel.setInode]
    rw [Function.update_of_ne ha.ne]
  newDir k a := ⟨WalkFrame.newDir k a, fun _ _ => le_rfl⟩
  freeDir k d := ⟨WalkFrame.freeDir k d, fun _ _ => le_rfl⟩

/-- The inodes are allocated, no entry is a pipe, and the positions are inside. -/
structure PosOk (k : Kernel) : Prop extends k.Allocated where
  flag : ∀ g < maxFileOpen, ∀ a, (k.fileTable g).fdInode = some a → (k.fileTable g).fdFlag ≠ pipeFlag
  inside : PositionsInside k

theorem Grown.posOk {k k' : Kernel} (h : Grown k k') (hk : PosOk k) : PosOk k' where
  toAllocated := h.toKeepsOpen.allocated hk.toAllocated
  flag g hg a ha := by
    rw [h.files] at ha ⊢
    exact hk.flag g hg a ha
  inside g hg a ha := by
    rw [h.files] at ha ⊢
    exact (hk.inside g hg a ha).trans (h.size a (hk.files g hg a ha))

theorem PosOk.setTask {k : Kernel} (hk : PosOk k) (p : ℕ) (task : Task) : PosOk (k.setTask p task) where
  opened := hk.opened
  files := hk.files
  flag := hk.flag
  inside := hk.inside

/-- A new value of an entry. -/
theorem PosOk.setFile {k : Kernel} (hk : PosOk k) {g : ℕ} {file : File}
    (hnew : ∀ a, file.fdInode = some a →
      a < k.nextInode ∧ file.fdFlag ≠ pipeFlag ∧ file.fdPos ≤ (k.inodes a).iSize) :
    PosOk (k.setFile g file) := by
  have hentry (g' a : ℕ) (hg' : g' < maxFileOpen)
      (ha : ((k.setFile g file).fileTable g').fdInode = some a) : a < k.nextInode ∧
        ((k.setFile g file).fileTable g').fdFlag ≠ pipeFlag ∧
          ((k.setFile g file).fileTable g').fdPos ≤ (k.inodes a).iSize := by
    simp only [Kernel.setFile] at ha ⊢
    by_cases hne : g' = g
    · rw [hne, Function.update_self] at ha ⊢
      exact hnew a ha
    · rw [Function.update_of_ne hne] at ha ⊢
      exact ⟨hk.files g' hg' a ha, hk.flag g' hg' a ha, hk.inside g' hg' a ha⟩
  exact ⟨⟨hk.opened, fun g' hg' a ha => (hentry g' a hg' ha).1⟩,
    fun g' hg' a ha => (hentry g' a hg' ha).2.1, fun g' hg' a ha => (hentry g' a hg' ha).2.2⟩

/-! ## Opening -/

section Open

variable {t : Transfer} {k : Kernel}

/-- First something that keeps files from shrinking, then the rest. -/
theorem PosOk.bind {α β : Type} {x : Prog Kernel α} {f : α → Prog Kernel β} {Q : β → Kernel → Prop}
    (hk : PosOk k) (hx : Within Grown x) (hf : ∀ a k', Grown k k' → PosOk k' → (f a).wp Q k') :
    (x >>= f).wp Q k :=
  hx.wp_then (refl k : Grown k k) fun a k' h => hf a k' h (h.posOk hk)

/-- Something that keeps files from shrinking. -/
theorem PosOk.within {α : Type} {x : Prog Kernel α} (hk : PosOk k) (hx : Within Grown x) :
    x.wp (fun _ => PosOk) k :=
  wp_mono (hx.wp_of (refl k)) fun _ _ h => h.posOk hk

theorem pcbFdInstall_posOk (hk : PosOk k) (globalFd : ℕ) : (pcbFdInstall globalFd).wp (fun _ => PosOk) k := by
  unfold pcbFdInstall
  rw [wp_bind, wp_read]
  split
  · exact hk.setTask _ _
  · exact hk

/-- A new entry at the start of a file. -/
theorem PosOk.newEntry (hk : PosOk k) (g : ℕ) {flag a : ℕ} (hflag : flag ≤ 7) (ha : a < k.nextInode) :
    PosOk (k.setFile g ⟨0, flag, some a⟩) := by
  refine hk.setFile ?_
  rintro b ⟨⟩
  refine ⟨ha, ?_, Nat.zero_le _⟩
  dsimp only
  unfold pipeFlag
  omega

theorem fileOpen_posOk (hk : PosOk k) {inodeNo flag : ℕ} (hflag : flag ≤ 7) :
    (fileOpen t inodeNo flag).wp (fun _ => PosOk) k := by
  unfold fileOpen
  rw [wp_bind]
  refine getFreeSlotInGlobal_spec hk fun fdI _ _ _ => ?_
  dsimp only
  rw [wp_bind]
  have hwithin : Within Grown _ := inodeOpen_within t inodeNo
  refine wp_mono (wp_and (hwithin.wp_of (refl k)) inodeOpen_spec) ?_
  rintro a k₁ ⟨hgrown, ha⟩
  have hlt : a < k₁.nextInode := by
    rcases ha with ⟨hmem, -⟩ | ⟨-, hlt⟩
    · exact (hk.opened _ hmem).trans_le hgrown.next
    · exact hlt
  have hentry := (hgrown.posOk hk).newEntry fdI hflag hlt
  rw [wp_bind, wp_modify]
  split
  · rw [wp_bind, wp_read]
    split
    · exact hentry
    · rw [wp_bind, wp_write]
      refine pcbFdInstall_posOk (Grown.posOk ?_ hentry) fdI
      exact ⟨keepsOpen_setInode _ _ rfl, fun b _ => size_setInode_le _ a (by exact le_rfl) b⟩
  · exact pcbFdInstall_posOk hentry fdI

theorem setInodeBit_grown (inodeNo : ℕ) (value : Bool) : Within Grown (setInodeBit inodeNo value) :=
  .modify fun k => ⟨ContentFrame.inodeBitmap k _, fun _ _ => le_rfl⟩

theorem inodeBitmapAlloc_grown : Within Grown inodeBitmapAlloc := by
  refine .read_bind fun k => ?_
  split
  · exact refl k
  · exact ⟨refl k, ContentFrame.inodeBitmap k _, fun _ _ => le_rfl⟩

theorem fileCreate_posOk (hk : PosOk k) {parentDir flag : ℕ} {filename : List UInt8} (hflag : flag ≤ 7) :
    (fileCreate t parentDir filename flag).wp (fun _ => PosOk) k := by
  unfold fileCreate
  refine hk.bind sysMalloc_same.of_eq fun ok k₁ _ hk₁ => ?_
  split
  · exact hk₁
  refine hk₁.bind inodeBitmapAlloc_grown fun found k₂ _ hk₂ => ?_
  split
  · exact hk₂
  next inodeNo =>
    have hfree : ∀ k, PosOk k → (do setInodeBit inodeNo false; return -1 : Prog Kernel ℤ).wp (fun _ => PosOk) k :=
      fun k hk => hk.within ((setInodeBit_grown _ _).bind fun _ => .pure _)
    refine hk₂.bind sysMalloc_same.of_eq fun ok k₃ _ hk₃ => ?_
    split
    · exact hfree k₃ hk₃
    rw [wp_bind, wp_read]
    dsimp only
    rw [wp_bind, wp_write, wp_bind]
    -- the new inode is none of those in use
    have hnew : Grown k₃
        { k₃.setInode k₃.nextInode (inodeInit inodeNo) with nextInode := k₃.nextInode + 1 } := by
      refine ⟨keepsOpen_createInode k₃ (inodeInit inodeNo), fun b hb => ?_⟩
      change _ ≤ ((k₃.setInode k₃.nextInode (inodeInit inodeNo)).inodes b).iSize
      rw [size_setInode, if_neg hb.ne]
    have hk₄ := hnew.posOk hk₃
    refine getFreeSlotInGlobal_spec (hfree _ hk₄) fun fdI _ _ _ => ?_
    dsimp only
    have hk₅ := hk₄.newEntry fdI hflag (Nat.lt_succ_self k₃.nextInode)
    rw [wp_bind, wp_modify]
    have hcreate : Within Grown (createDirEntry filename inodeNo .regular) := (createDirEntry_same _ _ _).of_eq
    refine hcreate.wp_then (refl _) fun e k₆ hgrown => ?_
    refine (syncDirEntry_within _ _ _).wp_then hgrown fun synced k₆ hgrown => ?_
    split
    · refine Within.read.wp_then hgrown fun _ k₆ hgrown => ?_
      refine (inodeSync_within _ _ _).wp_then hgrown fun _ k₆ hgrown => ?_
      refine Within.read.wp_then hgrown fun _ k₆ hgrown => ?_
      refine (inodeSync_within _ _ _).wp_then hgrown fun _ k₆ hgrown => ?_
      refine (bitmapSync_within _ _ _).wp_then hgrown fun _ k₆ hgrown => ?_
      have hlast : k₃.nextInode < k₆.nextInode := (Nat.lt_succ_self _).trans_le hgrown.next
      have hpush : Grown k₆ { k₆.setInode k₃.nextInode { k₆.inodes k₃.nextInode with iOpenCnts := 1 } with
          openInodes := k₃.nextInode :: k₆.openInodes } :=
        ⟨keepsOpen_push k₆ hlast rfl, fun b _ => size_setInode_le k₆ _ (by exact le_rfl) b⟩
      rw [wp_bind, wp_modify]
      exact pcbFdInstall_posOk (hpush.posOk (hgrown.posOk hk₅)) fdI
    · rw [wp_bind, wp_modify]
      exact hfree _ ((hgrown.posOk hk₅).setFile fun b hb => by cases hb)

theorem sysOpen_posOk (hk : PosOk k) (pathname : CString) (flags : ℕ) :
    (sysOpen t pathname flags).wp (fun _ => PosOk) k := by
  have hclose : ∀ (record : PathSearchRecord) (ret : ℤ) (k : Kernel), PosOk k →
      (do dirClose record.parentDir; return ret : Prog Kernel ℤ).wp (fun _ => PosOk) k :=
    fun record ret k hk => hk.within ((dirClose_within _).bind fun _ => .pure _)
  unfold sysOpen
  rw [wp_bind, wp_arbitrary]
  intro before
  split
  · exact hk
  rw [wp_bind, wp_assert]
  intro hflags
  have hflags : flags ≤ 7 := of_decide_eq_true hflags
  refine hk.bind (pathDepthCnt_same _).of_eq fun depth k₁ _ hk₁ => ?_
  refine hk₁.bind (searchFile_within _ _) fun found k₂ _ hk₂ => ?_
  obtain ⟨inodeNo, record⟩ := found
  dsimp only
  split
  · exact hclose _ _ k₂ hk₂
  refine hk₂.bind (pathDepthCnt_same _).of_eq fun searched k₃ _ hk₃ => ?_
  split
  · exact hclose _ _ k₃ hk₃
  cases inodeNo with
  | none =>
      dsimp only
      split
      · exact hclose _ _ k₃ hk₃
      · rw [wp_bind]
        exact wp_mono (fileCreate_posOk hk₃ hflags) fun fd k₄ hk₄ => hclose _ fd k₄ hk₄
  | some inodeNo =>
      dsimp only
      split
      · exact hclose _ _ k₃ hk₃
      · exact fileOpen_posOk hk₃ hflags

end Open

/-! ## Writing -/

/-- `PosOk`, but for the position of the entry `g`. -/
structure PosOkBut (g : ℕ) (k : Kernel) : Prop extends k.Allocated where
  flag : ∀ g' < maxFileOpen, ∀ a, (k.fileTable g').fdInode = some a → (k.fileTable g').fdFlag ≠ pipeFlag
  inside : ∀ g' < maxFileOpen, g' ≠ g → ∀ a, (k.fileTable g').fdInode = some a →
    (k.fileTable g').fdPos ≤ (k.inodes a).iSize

theorem PosOk.but {k : Kernel} (hk : PosOk k) (g : ℕ) : PosOkBut g k where
  toAllocated := hk.toAllocated
  flag := hk.flag
  inside g' hg' _ := hk.inside g' hg'

theorem PosOkBut.posOk {k : Kernel} {g a : ℕ} (hk : PosOkBut g k)
    (hinode : (k.fileTable g).fdInode = some a) (hpos : (k.fileTable g).fdPos ≤ (k.inodes a).iSize) :
    PosOk k where
  toAllocated := hk.toAllocated
  flag := hk.flag
  inside g' hg' b hb := by
    by_cases hne : g' = g
    · rw [hne, hinode] at hb
      obtain rfl := Option.some.inj hb
      rw [hne]
      exact hpos
    · exact hk.inside g' hg' hne b hb

theorem Grown.posOkBut {k k' : Kernel} {g : ℕ} (h : Grown k k') (hk : PosOkBut g k) : PosOkBut g k' where
  toAllocated := h.toKeepsOpen.allocated hk.toAllocated
  flag g' hg' a ha := by
    rw [h.files] at ha ⊢
    exact hk.flag g' hg' a ha
  inside g' hg' hne a ha := by
    rw [h.files] at ha ⊢
    exact (hk.inside g' hg' hne a ha).trans (h.size a (hk.files g' hg' a ha))

/-- The position of the entry is set. -/
theorem PosOkBut.setPos {k : Kernel} {g : ℕ} (hk : PosOkBut g k) (pos : ℕ) :
    PosOkBut g (k.setFile g { k.fileTable g with fdPos := pos }) := by
  have hentry (g' : ℕ) : ((k.setFile g { k.fileTable g with fdPos := pos }).fileTable g').fdInode =
      (k.fileTable g').fdInode ∧
      ((k.setFile g { k.fileTable g with fdPos := pos }).fileTable g').fdFlag = (k.fileTable g').fdFlag := by
    simp only [Kernel.setFile]
    by_cases hne : g' = g
    · rw [hne, Function.update_self]
      exact ⟨rfl, rfl⟩
    · rw [Function.update_of_ne hne]
      exact ⟨rfl, rfl⟩
  refine ⟨⟨hk.opened, fun g' hg' a ha => ?_⟩, fun g' hg' a ha => ?_, fun g' hg' hne a ha => ?_⟩
  · exact hk.files g' hg' a ((hentry g').1 ▸ ha)
  · rw [(hentry g').2]
    exact hk.flag g' hg' a ((hentry g').1 ▸ ha)
  · simp only [Kernel.setFile] at ha ⊢
    rw [Function.update_of_ne hne] at ha ⊢
    exact hk.inside g' hg' hne a ha

section Write

variable {t : Transfer} {k : Kernel} {g a : ℕ}

/-- The last loop of `file_write`: `fd_pos` stays one behind the size. -/
theorem writeLoop_posOk {allBlocks : ℕ → ℕ} {src : Bytes} {count fuel : ℕ} :
    ∀ {k : Kernel} {written : ℕ} {first : Bool}, PosOkBut g k → g < maxFileOpen →
      (k.fileTable g).fdInode = some a → (k.fileTable g).fdPos = subU32 (k.inodes a).iSize 1 →
      (count ≤ written → 0 < (k.inodes a).iSize) → count ≤ written + fuel →
      (writeLoop t g a allBlocks src count fuel written first).wp (fun _ => PosOk) k := by
  have hend : ∀ {k : Kernel}, PosOkBut g k → (k.fileTable g).fdInode = some a →
      (k.fileTable g).fdPos = subU32 (k.inodes a).iSize 1 → 0 < (k.inodes a).iSize → PosOk k := by
    intro k hk hinode hpos hsize
    refine hk.posOk hinode ?_
    rw [hpos, subU32_of_le hsize]
    exact Nat.sub_le _ _
  induction fuel with
  | zero =>
      intro k written first hk hg hinode hpos hsize hcount
      exact hend hk hinode hpos (hsize (by omega))
  | succ fuel ih =>
      intro k written first hk hg hinode hpos hsize hcount
      unfold writeLoop
      split
      next hdone => exact hend hk hinode hpos (hsize hdone)
      next hleft =>
        rw [wp_bind, wp_read]
        dsimp only
        split
        · exact trivial
        next hsec =>
          -- the last block of a file ends at `maxFileSize`
          unfold flattenPtrs sectorSize at hsec
          have hmod := Nat.mod_lt (k.inodes a).iSize (show 0 < 512 by omega)
          have hrest : ∀ (ioBuf : Bytes) (k₁ : Kernel), SameSizes k k₁ → (do
              let chunkSize := min (count - written) (sectorSize - (k.inodes a).iSize % sectorSize)
              ideWrite t (allBlocks ((k.inodes a).iSize / sectorSize))
                (copy ioBuf ((k.inodes a).iSize % sectorSize) src written chunkSize) 1
              modifyInode a (·.grow chunkSize)
              modify fun k => k.setFile g
                { k.fileTable g with fdPos := ((k.fileTable g).fdPos + chunkSize) % 2 ^ 32 }
              writeLoop t g a allBlocks src count fuel (written + chunkSize) false).wp
                (fun _ => PosOk) k₁ := by
            intro ioBuf k₁ hsame
            dsimp only
            set chunk := min (count - written) (sectorSize - (k.inodes a).iSize % sectorSize) with hchunk
            unfold sectorSize at hchunk
            refine (ideWrite_within _ _ _ _).wp_then hsame fun _ k₁ hsame => ?_
            rw [wp_bind, modifyInode, wp_modify, wp_bind, wp_modify]
            have hgrow : Grown k₁ (k₁.setInode a ((k₁.inodes a).grow chunk)) := GrowFrame.grow k₁ a chunk
            have hnew : ((k₁.inodes a).grow chunk).iSize = (k.inodes a).iSize + chunk := by
              rw [Inode.grow, hsame.size]
            refine ih ((hgrow.posOkBut (hsame.grown.posOkBut hk)).setPos _) hg ?_ ?_ ?_ (by omega)
            · simp only [Kernel.setFile, Function.update_self]
              rw [hgrow.files, hsame.files, hinode]
            · simp only [Kernel.setFile, Function.update_self]
              rw [size_setInode, if_pos rfl, hnew, hgrow.files, hsame.files, hpos]
              unfold subU32
              split <;> split <;> omega
            · intro _
              change 0 < ((k₁.setInode a ((k₁.inodes a).grow chunk)).inodes a).iSize
              rw [size_setInode, if_pos rfl, hnew]
              omega
          split
          · exact (ideRead_same _ _ _ _).of_eq.wp_then (refl k) hrest
          · exact hrest _ k (refl k)

/-- Without a block for it there is no first block. -/
theorem allocFirst_fails (h : ¬ k.HasFirstBlock a) : (allocFirst t a).wp (fun ok _ => ok = false) k := by
  obtain ⟨hzero, hscan⟩ := Classical.not_imp.mp h
  unfold allocFirst
  rw [wp_bind, wp_read, if_pos hzero]
  unfold blockBitmapAlloc
  rw [wp_bind, wp_bind, wp_read]
  cases hfound : bitmapScan k.part.blockBitmap 1 with
  | none => exact rfl
  | some i =>
      have hi : i = 0 := not_not.mp fun hne => hscan ⟨i, hne, hfound⟩
      dsimp only
      rw [wp_bind, wp_write, wp_pure]
      dsimp only
      rw [wp_bind, modifyInode, wp_modify, wp_bind, wp_assert]
      intro hne
      refine absurd (of_decide_eq_true hne) (not_not.mpr ?_)
      rw [hi, Nat.add_zero, subU32_of_le le_rfl, Nat.sub_self]

theorem fileWrite_posOk {buf : Bytes} {count : ℕ} (hk : PosOk k) (hg : g < maxFileOpen)
    (hcond : ∀ a, (k.fileTable g).fdInode = some a → (k.inodes a).iSize = 0 → count = 0 →
      ¬ k.HasFirstBlock a) :
    (fileWrite t g buf count).wp (fun _ => PosOk) k := by
  unfold fileWrite
  rw [wp_bind, wp_read]
  split
  · exact trivial
  next a hinode =>
    dsimp only
    split
    · exact hk
    refine sysMalloc_same.wp_then (refl k) fun ok k₁ hsame => ?_
    subst hsame
    split
    · exact hk
    refine sysMalloc_same.wp_then (refl _) fun ok k₁ hsame => ?_
    subst hsame
    split
    · exact hk
    have hwithin : Within SameSizes (allocFirst t a) := allocFirst_within t
    rw [wp_bind]
    by_cases hempty : (k.inodes a).iSize = 0 ∧ count = 0
    · -- the call fails
      refine wp_mono (wp_and (hwithin.wp_of (refl k)) (allocFirst_fails (t := t)
        (hcond a hinode hempty.1 hempty.2))) ?_
      rintro ok k₁ ⟨hsame, rfl⟩
      exact hsame.grown.posOk hk
    · refine wp_mono (hwithin.wp_of (refl k)) fun ok k₁ hsame => ?_
      split
      · exact hsame.grown.posOk hk
      refine (Within.assert _).wp_then hsame fun _ k₁ hsame => ?_
      refine (buildBlocks_within _ _ _).wp_then hsame fun blocks k₁ hsame => ?_
      split
      · exact hsame.grown.posOk hk
      next allBlocks =>
        rw [wp_bind, wp_modify, wp_bind]
        refine wp_mono (writeLoop_posOk (a := a) ((hsame.grown.posOkBut (hk.but g)).setPos _) hg ?_ ?_ ?_
          (by omega)) fun _ k₂ hk₂ => ?_
        · simp only [Kernel.setFile, Function.update_self]
          rw [hsame.files, hinode]
        · simp only [Kernel.setFile, Function.update_self]
          rw [hsame.size]
        · intro hzero
          change 0 < (k₁.inodes a).iSize
          rw [hsame.size]
          omega
        · rw [wp_bind, wp_read]
          exact hk₂.within ((inodeSync_within _ _ _).bind fun _ => .pure _)

end Write

/-! ## Reading -/

section Read

variable {t : Transfer} {k : Kernel} {g a : ℕ}

/-- The last loop of `file_read`: `fd_pos` is at `pos + done`. -/
theorem readFileLoop_posOk {allBlocks : ℕ → ℕ} {size pos fuel : ℕ} :
    ∀ {k : Kernel} {done : ℕ} {dst : Bytes}, PosOkBut g k → g < maxFileOpen →
      (k.fileTable g).fdInode = some a → (k.fileTable g).fdPos = pos + done →
      (pos + size ≤ maxFileSize → pos + size ≤ (k.inodes a).iSize) →
      (pos + done ≤ (k.inodes a).iSize ∨ pos + done ≤ maxFileSize) → done ≤ size → size ≤ done + fuel →
      (readFileLoop t g allBlocks size fuel done dst).wp (fun _ => PosOk) k := by
  have hend : ∀ {k : Kernel} {done : ℕ}, PosOkBut g k → (k.fileTable g).fdInode = some a →
      (k.fileTable g).fdPos = pos + done →
      (pos + size ≤ maxFileSize → pos + size ≤ (k.inodes a).iSize) →
      (pos + done ≤ (k.inodes a).iSize ∨ pos + done ≤ maxFileSize) → done = size → PosOk k := by
    rintro k done hk hinode hpos hfits hdone rfl
    refine hk.posOk hinode ?_
    rw [hpos]
    exact hdone.elim id hfits
  induction fuel with
  | zero =>
      intro k done dst hk hg hinode hpos hfits hdone hle hsize
      exact hend hk hinode hpos hfits hdone (by omega)
  | succ fuel ih =>
      intro k done dst hk hg hinode hpos hfits hdone hle hsize
      unfold readFileLoop
      split
      next hall => exact hend hk hinode hpos hfits hdone (by omega)
      next hleft =>
        rw [wp_bind, wp_read]
        dsimp only
        split
        · exact trivial
        next hsec =>
          -- no block begins at `maxFileSize`
          unfold flattenPtrs sectorSize at hsec
          rw [hpos] at hsec ⊢
          have hmod := Nat.mod_lt (pos + done) (show 0 < 512 by omega)
          set chunk := min (size - done) (sectorSize - (pos + done) % sectorSize) with hchunk
          unfold sectorSize at hchunk
          refine (ideRead_same _ _ _ _).wp_then rfl fun ioBuf k₁ hsame => ?_
          subst hsame
          rw [wp_bind, wp_modify]
          refine ih (hk.setPos _) hg ?_ ?_ hfits ?_ (by omega) (by omega)
          · simp only [Kernel.setFile, Function.update_self]
            exact hinode
          · simp only [Kernel.setFile, Function.update_self]
            rw [hpos]
            omega
          · refine Or.inr ?_
            unfold maxFileSize sectorSize flattenPtrs
            omega

theorem readBlocks_same (iSectors : ℕ → ℕ) (first last : ℕ) :
    Within Eq (readBlocks t iSectors first last) := by
  have htable : ∀ f : Bytes → ℕ → ℕ, Within Eq (do
      let table ← ideRead t (iSectors directPtrs) zeroBuf 1
      return f table : Prog Kernel (ℕ → ℕ)) :=
    fun f => (ideRead_same _ _ _ _).within.bind fun _ => .pure _
  unfold readBlocks
  split
  · refine (Within.assert _).bind fun _ => ?_
    split
    · exact .pure _
    · exact htable _
  split
  · exact .pure _
  split
  · exact (Within.assert _).bind fun _ => htable _
  · exact (Within.assert _).bind fun _ => htable _

theorem fileRead_posOk {buf : Bytes} {count : ℕ} (hk : PosOk k) (hg : g < maxFileOpen) :
    (fileRead t g buf count).wp (fun _ => PosOk) k := by
  unfold fileRead
  rw [wp_bind, wp_read]
  split
  · exact trivial
  next a hinode =>
    have hpos := hk.inside g hg a hinode
    dsimp only
    set pos := (k.fileTable g).fdPos
    set size := if (k.inodes a).iSize < (pos + count) % 2 ^ 32 then subU32 (k.inodes a).iSize pos
      else count with hsizeEq
    split
    · exact hk
    refine sysMallocUnchecked_same.wp_then rfl fun _ k₁ hsame => ?_
    subst hsame
    refine sysMalloc_same.wp_then rfl fun ok k₁ hsame => ?_
    subst hsame
    split
    · exact hk
    refine (Within.assert _).wp_then rfl fun _ k₁ hsame => ?_
    subst hsame
    refine (readBlocks_same _ _ _).wp_then rfl fun allBlocks k₁ hsame => ?_
    subst hsame
    rw [wp_bind]
    have hstart : (k.fileTable g).fdPos = pos + 0 := rfl
    refine wp_mono (readFileLoop_posOk (hk.but g) hg hinode hstart ?_ (Or.inl hpos)
      (Nat.zero_le _) (by omega)) fun _ _ hk' => hk'
    -- a size past the end is cut, unless the sum wraps
    intro hfits
    unfold maxFileSize sectorSize flattenPtrs at hfits
    rw [hsizeEq] at hfits ⊢
    split
    · rw [subU32_of_le hpos]
      omega
    next hin =>
      rw [if_neg hin] at hfits
      omega

end Read

/-! ## The system calls -/

section Calls

variable {t : Transfer} {k : Kernel}

theorem sysWrite_posOk {fd : ℤ} {buf : Bytes} {count : UInt32} (hk : PosOk k)
    (hcond : ¬ WritesNothing k (.write fd buf count)) :
    (sysWrite t fd buf count.toNat).wp (fun _ => PosOk) k := by
  unfold sysWrite
  split
  · exact hk
  next hfd =>
    rw [wp_bind]
    refine wp_mono (wp_and isPipe_spec isPipe_entry) ?_
    rintro pipe k₁ ⟨rfl, g, hg, hentry, hpipe⟩
    split
    next hflag =>
      -- a pipe without a buffer is left alone, and there are no others
      unfold pipeWrite
      rw [wp_bind]
      refine wp_mono fdLocal2global_spec ?_
      rintro g' k₂ ⟨rfl, -, hentry', -⟩
      obtain rfl : g = g' := by exact_mod_cast hentry.symm.trans hentry'
      rw [wp_bind, wp_read]
      split
      · exact trivial
      next a ha => exact absurd (hpipe.mp hflag) (hk.flag g hg a ha)
    split
    · split
      · exact trivial
      · exact hk
    next hstdout =>
      rw [wp_bind]
      refine wp_mono fdLocal2global_spec ?_
      rintro g' k₂ ⟨rfl, -, hentry', -⟩
      obtain rfl : g = g' := by exact_mod_cast hentry.symm.trans hentry'
      rw [wp_bind, wp_read]
      split
      next hwants =>
        refine fileWrite_posOk hk hg fun a ha hsize hcount hfirst => hcond ?_
        exact ⟨UInt32.toNat_inj.mp hcount, by omega, hstdout, g, a, hentry, ⟨hg, hwants, ha⟩, hsize, hfirst⟩
      next => exact hk

theorem readStdin_same (left done : ℕ) (dst : Bytes) : Within Eq (readStdin left done dst) := by
  induction left generalizing done dst with
  | zero => exact .pure _
  | succ left ih => exact Within.block.bind fun _ => Within.arbitrary.bind fun _ => ih _ _

theorem sysRead_posOk {fd : ℤ} {buf : Bytes} {count : ℕ} (hk : PosOk k) :
    (sysRead t fd buf count).wp (fun _ => PosOk) k := by
  unfold sysRead
  split
  · exact hk
  rw [wp_bind]
  refine wp_mono (wp_and isPipe_spec isPipe_entry) ?_
  rintro pipe k₁ ⟨rfl, g, hg, hentry, hpipe⟩
  split
  next hflag =>
    unfold pipeRead
    rw [wp_bind]
    refine wp_mono fdLocal2global_spec ?_
    rintro g' k₂ ⟨rfl, -, hentry', -⟩
    obtain rfl : g = g' := by exact_mod_cast hentry.symm.trans hentry'
    rw [wp_bind, wp_read]
    split
    · exact trivial
    next a ha => exact absurd (hpipe.mp hflag) (hk.flag g hg a ha)
  split
  · exact hk.within ((readStdin_same _ _ _).of_eq.bind fun _ => .pure _)
  · rw [wp_bind]
    refine wp_mono fdLocal2global_spec ?_
    rintro g' k₂ ⟨rfl, -, -, hg'⟩
    exact fileRead_posOk hk hg'

/-- A position that `sys_lseek` accepts is in the file, and a call that fails does nothing. -/
theorem sysLseek_posOk {fd offset : ℤ} {whence : Whence} (hk : PosOk k) :
    (sysLseek fd offset whence).wp (fun ret k' => PosOk k' ∧ (ret = -1 → k' = k)) k := by
  unfold sysLseek
  split
  · exact ⟨hk, fun _ => rfl⟩
  rw [wp_bind]
  refine wp_mono fdLocal2global_spec ?_
  rintro g k₁ ⟨rfl, -, -, hg⟩
  rw [wp_bind, wp_read]
  dsimp only
  split
  · exact trivial
  next hflag =>
    split
    · exact trivial
    next a ha =>
      have hle : asInt32 (k₁.inodes a).iSize ≤ (k₁.inodes a).iSize := by
        unfold asInt32
        split <;> omega
      have hmove : ∀ newPos : ℤ, (if newPos < 0 ∨ asInt32 (k₁.inodes a).iSize - 1 < newPos then return -1
          else do
            write (k₁.setFile g { k₁.fileTable g with fdPos := newPos.toNat })
            return newPos : Prog Kernel ℤ).wp (fun ret k' => PosOk k' ∧ (ret = -1 → k' = k₁)) k₁ := by
        intro newPos
        split
        · exact ⟨hk, fun _ => rfl⟩
        next hin =>
          refine ⟨?_, fun hfail => absurd hfail (by omega)⟩
          refine hk.setFile fun b hb => ?_
          obtain rfl := Option.some.inj (ha.symm.trans hb)
          refine ⟨hk.files g hg a ha, hflag, ?_⟩
          dsimp only
          omega
      cases whence with
      | set => exact hmove _
      | cur => exact hmove _
      | «end» => exact hmove _

end Calls

/-! ## Every run -/

theorem NoFileOpen.posOk {k : Kernel} (hk : NoFileOpen k) : PosOk k := by
  have hnone : ∀ g < maxFileOpen, ∀ a, (k.fileTable g).fdInode ≠ some a := by
    intro g hg a ha
    rw [hk.files g hg] at ha
    cases ha
  exact ⟨⟨hk.opened, fun g hg a ha => absurd ha (hnone g hg a)⟩, fun g hg a ha => absurd ha (hnone g hg a),
    fun g hg a ha => absurd ha (hnone g hg a)⟩

theorem PosOk.run {k : Kernel} (hk : PosOk k) (p : ℕ) : PosOk { k with running := p } :=
  ⟨⟨hk.opened, hk.files⟩, hk.flag, hk.inside⟩

theorem PosCall.posOk {t : Transfer} {k : Kernel} {p : ℕ} {call : PosCall} (hk : PosOk k)
    (hcond : NoEmptyWrite k (p, call)) : (call.body t).wp (fun _ => PosOk) { k with running := p } := by
  cases call with
  | «open» pathname flags => exact sysOpen_posOk (hk.run p) pathname flags
  | write fd buf count => exact sysWrite_posOk (hk.run p) hcond
  | read fd buf count =>
      refine wp_bind.mpr ?_
      exact wp_mono (sysRead_posOk (hk.run p)) fun _ _ hk' => hk'
  | lseek fd offset whence => exact wp_mono (sysLseek_posOk (hk.run p)) fun _ _ h => h.1

/-- In every run in which no empty file is written without a byte, all positions stay inside of
their files, the subtraction of `file_read` does not wrap, and a `sys_lseek` that fails changes
nothing. -/
theorem positions_inside {t : Transfer} {k : Kernel}
    (h : Reachable NoFileOpen (PosStep t) NoEmptyWrite k) :
    PositionsInside k ∧
      (∀ g < maxFileOpen, ∀ a, (k.fileTable g).fdInode = some a →
        subU32 (k.inodes a).iSize (k.fileTable g).fdPos + (k.fileTable g).fdPos = (k.inodes a).iSize) ∧
      ∀ p fd offset whence k', (sysLseek fd offset whence).Returns { k with running := p } (-1) k' →
        k' = { k with running := p } := by
  have hk : PosOk k := by
    refine Reachable.invariant PosOk (fun k hk => hk.posOk) ?_ h
    rintro k ⟨p, call⟩ k' hk hcond ⟨ret, hret⟩
    exact wp_iff_returns.mp (PosCall.posOk hk hcond) ret k' hret
  refine ⟨hk.inside, fun g hg a ha => ?_, fun p fd offset whence k' hret => ?_⟩
  · have hle := hk.inside g hg a ha
    rw [subU32_of_le hle]
    exact Nat.sub_add_cancel hle
  · exact (wp_iff_returns.mp (sysLseek_posOk (hk.run p)) _ _ hret).2 rfl

/-! ## Two runs -/

/-- One call, with every allocation successful. -/
def PosCall.exec (k : Kernel) (call : ℕ × PosCall) : Option Kernel :=
  ((call.2.body .repeated).exec [] { k with running := call.1 }).map Prod.snd

theorem PosCall.step_of_exec {k k' : Kernel} {call : ℕ × PosCall}
    (h : PosCall.exec k call = some k') : PosStep .repeated k call k' := by
  obtain ⟨⟨ret, _⟩, hexec, rfl⟩ := Option.map_eq_some_iff.mp h
  exact ⟨ret, returns_of_exec hexec⟩

/-- One call, which writes at least one byte if it writes. -/
def PosCall.execSafe (k : Kernel) : ℕ × PosCall → Option Kernel
  | (p, .write fd buf count) => if count = 0 then none else PosCall.exec k (p, .write fd buf count)
  | call => PosCall.exec k call

theorem PosCall.safe_of_exec {k k' : Kernel} {call : ℕ × PosCall}
    (h : PosCall.execSafe k call = some k') :
    NoEmptyWrite k call ∧ PosStep .repeated k call k' := by
  obtain ⟨p, call⟩ := call
  cases call with
  | write fd buf count =>
      simp only [PosCall.execSafe] at h
      split at h
      · simp at h
      next hcount => exact ⟨fun hnothing => hcount hnothing.1, PosCall.step_of_exec h⟩
  | «open» pathname flags => exact ⟨fun hfalse => hfalse, PosCall.step_of_exec h⟩
  | read fd buf count => exact ⟨fun hfalse => hfalse, PosCall.step_of_exec h⟩
  | lseek fd offset whence => exact ⟨fun hfalse => hfalse, PosCall.step_of_exec h⟩

/-- A file is created, six bytes are written to it, the position is set to the second and four
bytes are read. -/
theorem positions_inside_after_read :
    ∃ k, Reachable NoFileOpen (PosStep .repeated) NoEmptyWrite k ∧
      (k.fileTable 3).fdInode = some 1 ∧ (k.fileTable 3).fdPos = 5 ∧ PositionsInside k := by
  have hrun : (follow PosCall.execSafe [(0, .open pathA 6), (0, .write 3 (fun _ => 65) 6),
      (0, .lseek 3 1 .set), (0, .read 3 zeroBuf 4)] smallMachine.newFs).map
      (fun k => decide ((k.fileTable 3).fdInode = some 1 ∧ (k.fileTable 3).fdPos = 5)) = some true := by
    decide +kernel
  obtain ⟨k, hk, hpos⟩ := Option.map_eq_some_iff.mp hrun
  have hpos := of_decide_eq_true hpos
  have hreach : Reachable NoFileOpen (PosStep .repeated) NoEmptyWrite k :=
    Reachable.of_follow (fun _ _ _ h => PosCall.safe_of_exec h) (.start newFs_noFileOpen) hk
  exact ⟨k, hreach, hpos.1, hpos.2, (positions_inside hreach).1⟩

/-- A file is created, and no byte is written to it. -/
theorem empty_write_leaves_file :
    ∃ k, Reachable NoFileOpen (PosStep .repeated) (fun _ _ => True) k ∧ ¬ PositionsInside k := by
  have hrun : (follow PosCall.exec [(0, .open pathA 6), (0, .write 3 zeroBuf 0)]
      smallMachine.newFs).map (fun k => decide ((k.fileTable 3).fdInode = some 1 ∧
        (k.fileTable 3).fdPos = 2 ^ 32 - 1 ∧ (k.inodes 1).iSize = 0)) = some true := by
    decide +kernel
  obtain ⟨k, hk, hpos⟩ := Option.map_eq_some_iff.mp hrun
  obtain ⟨hinode, hpos, hsize⟩ := of_decide_eq_true hpos
  have hreach : Reachable NoFileOpen (PosStep .repeated) (fun _ _ => True) k := by
    refine Reachable.of_follow ?_ (.start newFs_noFileOpen) hk
    exact fun k call k' h => ⟨trivial, PosCall.step_of_exec h⟩
  refine ⟨k, hreach, fun hin => ?_⟩
  have hle := hin 3 (by decide) 1 hinode
  omega

end BochsOs
