import BochsOs.Library.Runs
import BochsOs.Fs.Frame
import BochsOs.Fs.DirDelete

/-!
# Runs of additions and removals in a directory

From a new directory, which holds `.` and `..`, `DirReached` follows any sequence of calls of
`sync_dir_entry` and `delete_dir_entry` that return.  All these states hold a sound shelf
(`DirReached.inv`).

What the claims about the three functions of `dir.c` say is then read off the shelf: that
an addition loses no entry, that a removal takes just one, and that a directory is empty when
its size says so.
-/

namespace BochsOs

open ByteMemory Suspend Suspend.Prog Shelves

/-! ## New directories -/

/-- The open directory `d` is as `sys_mkdir` leaves it: one block with the entries `.` and `..`.
A root that was formatted by consecutive transfers is one too; repeated transfers leave a root whose
inode is zero, without any entry. -/
structure Kernel.NewDir (k : Kernel) (d own parent : ℕ) : Prop where
  layout : k.part.Layout
  ownNo : own < 2 ^ 32
  parentNo : parent < 2 ^ 32
  taken : k.part.Taken ((k.dirInode d).iSectors 0)
  block : sectorOf k.disk ((k.dirInode d).iSectors 0) = dotEntries own parent
  rest : ∀ i ≠ 0, (k.dirInode d).iSectors i = 0
  size : (k.dirInode d).iSize = direntSize * 2

/-- The box of a new directory. -/
def dotBox (self parent : ℕ) : Box DirEntry :=
  some (dotEntry self) :: some (dotDotEntry parent) :: List.replicate 19 none

theorem reduceOption_dotBox (self parent : ℕ) :
    (dotBox self parent).reduceOption = [dotEntry self, dotDotEntry parent] := by
  rw [dotBox, List.reduceOption_cons_of_some, List.reduceOption_cons_of_some,
    List.reduceOption_replicate_none]

/-- The shelf of a new directory. -/
def newShelf (self parent : ℕ) : BoxRow DirEntry :=
  Function.update (fun _ => none) 0 (some (dotBox self parent))

theorem items_newShelf (self parent : ℕ) :
    items (newShelf self parent) flattenPtrs 0 = [dotEntry self, dotDotEntry parent] := by
  have hnone : ∀ left first, items (fun _ => none : BoxRow DirEntry) left first = [] := by
    intro left
    induction left with
    | zero => exact fun _ => rfl
    | succ left ih =>
        intro first
        rw [items, ih, boxItems_none, List.nil_append]
  obtain ⟨before, after, hs, hupd⟩ := exists_items (fun _ => none : BoxRow DirEntry)
    (show 0 < flattenPtrs by decide)
  rw [hnone, boxItems_none, List.append_nil] at hs
  obtain ⟨rfl, rfl⟩ := List.append_eq_nil_iff.mp hs.symm
  rw [newShelf, hupd, boxItems_some, reduceOption_dotBox]
  rfl

section NewDir

variable {k : Kernel} {d own parent : ℕ} (h : k.NewDir d own parent)

include h

theorem Kernel.NewDir.storesBox :
    StoresBox k.disk ((k.dirInode d).iSectors 0) (dotBox own parent) := by
  refine ⟨rfl, fun i hi => ⟨fun j hj => ?_, fun e he => ?_⟩⟩
  · rw [h.block]
    dsimp only
    unfold dotEntries
    match i, hi with
    | 0, _ =>
        rw [Nat.mul_zero, Nat.zero_add, copy_outside (Or.inl hj), copy_inside (Nat.zero_le _) (by omega),
          Nat.zero_add, Nat.sub_zero]
        rfl
    | 1, _ =>
        rw [copy_inside (by omega) (by omega)]
        have hj' : 0 + (direntSize * 1 + j - direntSize) = j := by omega
        rw [hj']
        rfl
    | i + 2, hi =>
        have hnone : (dotBox own parent)[i + 2] = none :=
          List.getElem_replicate (Nat.lt_of_succ_lt_succ (Nat.lt_of_succ_lt_succ hi))
        unfold direntSize at *
        rw [hnone, copy_outside (by omega), copy_outside (by omega)]
        rfl
  · have hmem : e ∈ (dotBox own parent).reduceOption :=
      List.reduceOption_mem_iff.mpr (Option.mem_def.mp he ▸ List.getElem_mem hi)
    rw [reduceOption_dotBox, List.mem_cons, List.mem_singleton] at hmem
    rcases hmem with rfl | rfl
    · exact ⟨h.ownNo, Or.inr rfl⟩
    · exact ⟨h.parentNo, Or.inr rfl⟩

/-- A new directory holds the shelf with `.` and `..`. -/
theorem Kernel.NewDir.inv :
    k.DirInv d (fun i => if i = 0 then (k.dirInode d).iSectors 0 else 0) (newShelf own parent) 0 := by
  have hpos : (k.dirInode d).iSectors 0 ≠ 0 := by
    have hstart := h.layout.start
    have hlow : k.part.sb.dataStartLba ≤ (k.dirInode d).iSectors 0 := h.taken.low
    omega
  have htable : (k.dirInode d).iSectors directPtrs = 0 := h.rest _ (by decide)
  have hshelf {i : ℕ} (hi : i ≠ 0) : newShelf own parent i = none := Function.update_of_ne hi _ _
  have hdir : 0 < directPtrs := by decide
  refine ⟨h.layout, ?_, ?_, fun h0 => absurd htable h0, ?_⟩
  · refine ⟨fun i _ => ?_, fun _ i hi => if_neg (by omega), fun h0 => absurd htable h0,
      fun h0 => absurd htable h0, fun h0 => absurd htable h0, fun i _ => ?_, fun i _ b hb => ?_,
      fun i _ hne => ?_, fun i _ j _ hne heq => ?_⟩
    · by_cases hi : i = 0
      · rw [if_pos hi, hi]
      · rw [if_neg hi, h.rest i hi]
    · by_cases hi : i = 0
      · rw [if_pos hi, hi, newShelf, Function.update_self]
        exact iff_of_false hpos (by simp)
      · rw [if_neg hi, hshelf hi]
        exact iff_of_true rfl rfl
    · by_cases hi : i = 0
      · rw [hi, newShelf, Function.update_self] at hb
        rw [if_pos hi, ← Option.some.inj hb]
        exact h.storesBox
      · rw [hshelf hi] at hb
        cases hb
    · by_cases hi : i = 0
      · rw [if_pos hi]
        exact h.taken
      · rw [if_neg hi] at hne
        exact absurd rfl hne
    · by_cases hi : i = 0
      · by_cases hj : j = 0
        · rw [hi, hj]
        · rw [if_pos hi, if_neg hj] at heq
          exact absurd heq hpos
      · rw [if_neg hi] at hne
        exact absurd rfl hne
  · refine ⟨⟨own, parent, List.replicate 19 none, Function.update_self _ _ _⟩, fun i hi => ?_,
      fun b hb => ?_, fun i hi => hshelf (by omega)⟩
    · by_cases hzero : i = 0
      · rw [hzero, newShelf, Function.update_self, boxItems_some, reduceOption_dotBox] at hi
        cases hi
      · exact hshelf hzero
    · rw [hshelf (by decide)] at hb
      cases hb
  · rw [h.size, items_newShelf]
    rfl

end NewDir

/-! ## Runs -/

/-- A call on the open directory. -/
inductive DirCall where
  | sync (e : DirEntry)
  | delete (inodeNo : ℕ)

/-- The program of a call. -/
def DirCall.prog (t : Transfer) (d : ℕ) : DirCall → Prog Kernel Bool
  | sync e => syncDirEntry t d e
  | delete inodeNo => deleteDirEntry t d inodeNo

/-- An entry that is added has an inode number and a known type. -/
def DirCall.Fits : DirCall → Prop
  | sync e => e.Fits
  | delete _ => True

/-- The states reached from a new directory by calls that return. -/
def DirReached (t : Transfer) (d : ℕ) : Kernel → Prop :=
  Runs.Reachable (fun k => ∃ own parent, k.NewDir d own parent)
    (fun k (call : DirCall) k' => ∃ r, (call.prog t d).Returns k r k') fun _ call => call.Fits

/-- A call that returns leaves a sound shelf. -/
theorem DirCall.inv {t : Transfer} {d : ℕ} {call : DirCall} (hfits : call.Fits) {k k' : Kernel}
    {r : Bool} (hret : (call.prog t d).Returns k r k') {ptr : ℕ → ℕ} {s : BoxRow DirEntry} {lost : ℕ}
    (h : k.DirInv d ptr s lost) : ∃ ptr s lost, k'.DirInv d ptr s lost := by
  cases call with
  | sync e =>
      have hsync : (syncDirEntry t d e).ensures .any (SyncResult k d s lost e) k :=
        ensures_syncDirEntry h hfits (Or.inl trivial)
      cases wp_iff_returns.mp (wp_of_ensures hsync) r k' hret with
      | added _ hinv => exact ⟨_, _, _, hinv⟩
      | tableAdded _ _ hinv => exact ⟨_, _, _, hinv⟩
      | replaced _ _ _ hinv => exact ⟨_, _, _, hinv⟩
      | noBlock => exact ⟨_, _, _, h⟩
      | oneBlock _ _ hinv => exact ⟨_, _, _, hinv⟩
  | delete n =>
      have hdelete : (deleteDirEntry t d n).ensures .any (DeleteResult k d ptr s lost n) k :=
        ensures_deleteDirEntry h (Or.inl trivial)
      cases wp_iff_returns.mp (wp_of_ensures hdelete) r k' hret with
      | absent => exact ⟨_, _, _, h⟩
      | cleared _ _ _ _ _ _ hinv => exact ⟨_, _, _, hinv⟩
      | released _ _ _ _ _ _ hinv => exact ⟨_, _, _, hinv⟩

/-- Every state of a run holds a sound shelf. -/
theorem DirReached.inv {t : Transfer} {d : ℕ} {k : Kernel} (h : DirReached t d k) :
    ∃ ptr s lost, k.DirInv d ptr s lost := by
  refine Runs.Reachable.invariant (fun k => ∃ ptr s lost, k.DirInv d ptr s lost) ?_ ?_ h
  · rintro k ⟨self, parent, hnew⟩
    exact ⟨_, _, _, hnew.inv⟩
  · rintro k call k' ⟨ptr, s, lost, hinv⟩ hfits ⟨r, hret⟩
    exact DirCall.inv hfits hret hinv

/-- The states have the same handles of directories. -/
def SameDirs (k k' : Kernel) : Prop := k'.dirs = k.dirs

instance : BlockFrame SameDirs where
  refl _ := rfl
  trans _ _ _ h h' := h'.trans h
  disk _ _ := rfl
  blockBitmap _ _ := rfl
  inode _ _ _ _ := rfl

/-- A call leaves the handles as they are. -/
theorem DirCall.sameDirs {t : Transfer} {d : ℕ} (call : DirCall) {k k' : Kernel} {r : Bool}
    (hret : (call.prog t d).Returns k r k') : k'.dirs = k.dirs := by
  cases call with
  | sync e =>
      exact wp_iff_returns.mp ((syncDirEntry_within t d e).wp_of (R := SameDirs) rfl) r k' hret
  | delete n =>
      exact wp_iff_returns.mp ((deleteDirEntry_within t d n).wp_of (R := SameDirs) rfl) r k' hret

/-! ## A new file system -/

/-- A block to which the first two entries have been written. -/
theorem sectorOf_dotEntries (disk : Bytes) (lba self parent : ℕ) :
    sectorOf (copy disk (sectorSize * lba) (dotEntries self parent) 0 sectorSize) lba =
      dotEntries self parent := by
  rw [sectorOf_copy_same]
  funext a
  by_cases ha : a < 0 + sectorSize
  · rw [copy_inside (Nat.zero_le _) ha, Nat.zero_add, Nat.sub_zero]
  · unfold sectorSize at ha
    rw [copy_outside (by unfold sectorSize; omega), dotEntries, copy_outside (by unfold direntSize; omega),
      copy_outside (by unfold direntSize; omega)]

section NewFs

variable {k : Kernel} (hk : k.Roomy)

include hk

/-- The parts of a new file system. -/
theorem Kernel.Roomy.newPart_layout : k.newFs.part.Layout := by
  obtain ⟨hblba, hilba, htlba, hdata, hend⟩ := hk.layout
  obtain ⟨hsects, hroom⟩ := hk.sects
  have htable : inodeTableSects = 608 := rfl
  have hlast := hk.last
  refine ⟨rfl, ?_, ?_, fun i hi => ?_, ?_, ?_⟩
  · change 0 < k.newSb.dataStartLba
    omega
  · change k.newSb.dataStartLba ≤ maxLba + 1
    omega
  · change i < k.newSb.blockBitmapSects * 512 * 8 at hi
    change k.newSb.blockBitmapLba + i / 4096 < k.newSb.dataStartLba
    omega
  · change k.newSb.inodeTableLba + inodeTableSects ≤ k.newSb.dataStartLba
    omega
  · change k.newSb.inodeTableLba + inodeTableSects ≤ k.part.startLba + k.part.secCnt
    omega

/-- The bits of the blocks in a new block bitmap: only the first block is taken. -/
theorem Kernel.Roomy.blockBit (i : ℕ) (hi : i / 8 < blockBitmapBitLen k.part.secCnt / 8) :
    k.newFs.part.blockBitmap.bit i = decide (i = 0) := by
  have hlast := hk.last
  have hlen := blockBitmapBitLen_eq hk.room (by omega)
  have hmax : maxLba + 1 = 163840 := rfl
  have hround : k.newSb.blockBitmapSects = (blockBitmapBitLen k.part.secCnt + 4095) / 4096 := by
    change divRoundUp (blockBitmapBitLen k.part.secCnt) bitsPerSector = _
    unfold divRoundUp bitsPerSector
    rw [Nat.mod_eq_of_lt (by omega)]
  have hin : i / 8 < 0 + sectorSize * k.newSb.blockBitmapSects := by
    unfold sectorSize
    omega
  have hbyte : k.newFs.part.blockBitmap.bits (i / 8) = Function.update zeroBuf 0 1 (i / 8) := by
    change copy zeroBuf 0 (blockBitmapImage (blockBitmapBitLen k.part.secCnt)) 0
      (sectorSize * k.newSb.blockBitmapSects) (i / 8) = _
    rw [copy_inside (Nat.zero_le _) hin, Nat.zero_add, Nat.sub_zero, blockBitmapImage,
      Function.update_of_ne (by omega), fill_outside (by omega)]
  rw [Bitmap.bit, hbyte]
  rcases Nat.lt_or_ge i 8 with hlt | hge
  · rw [Nat.div_eq_of_lt hlt, Function.update_self]
    interval_cases i <;> rfl
  · have hzero : i / 8 ≠ 0 := by omega
    rw [Function.update_of_ne hzero, decide_eq_false (by omega)]
    exact BitVec.getLsbD_zero

/-- The root of a new file system is a new directory. -/
theorem Kernel.Roomy.newDir : k.newFs.NewDir rootDir 0 0 := by
  obtain ⟨hblba, hilba, htlba, hdata, hend⟩ := hk.layout
  obtain ⟨hsects, -⟩ := hk.sects
  have hlast := hk.last
  have hbits := (blockBitmapSects_bounds hk.room (by omega)).2.2
  have hinode : k.newFs.dirInode rootDir = { rootInode k.newSb with iOpenCnts := 1 } := by
    change Function.update k.inodes k.nextInode _ (Function.update k.dirs rootDir _ rootDir).inode = _
    rw [Function.update_self]
    exact Function.update_self _ _ _
  have hfirst : (k.newFs.dirInode rootDir).iSectors 0 = k.newSb.dataStartLba := by
    rw [hinode]
    exact Function.update_self 0 k.newSb.dataStartLba (inodeInit 0).iSectors
  have hindex : k.newSb.dataStartLba - k.newFs.part.sb.dataStartLba = 0 := Nat.sub_self _
  refine ⟨hk.newPart_layout, Nat.two_pow_pos 32, Nat.two_pow_pos 32, ?_, ?_, fun i hi => ?_, ?_⟩
  · rw [hfirst]
    refine ⟨⟨le_rfl, ?_, ?_⟩, ?_⟩
    · rw [hindex]
      change 0 < k.newSb.blockBitmapSects * 512 * 8
      omega
    · rw [hindex, hk.blockBit 0 (by omega)]
      rfl
    · omega
  · rw [hfirst]
    exact sectorOf_dotEntries _ _ _ _
  · rw [hinode]
    exact Function.update_of_ne hi k.newSb.dataStartLba (inodeInit 0).iSectors
  · rw [hinode]
    rfl

end NewFs

/-! ## A directory that `sys_mkdir` has made -/

/-- The handle of the directory. -/
def madeDir : ℕ := 1

/-- The block of the directory: the first free one of the new file system (`madeLba_eq`). -/
def madeLba : ℕ := 676

/-- The small machine with an open directory of inode number 1, as `sys_mkdir` leaves it.  Every
other inode is zero, that of the root too: so it stands on a partition that was formatted by
repeated transfers of one sector. -/
def mkdirMachine : Kernel :=
  { smallMachine.newFs with
    disk := copy smallMachine.newFs.disk (sectorSize * madeLba) (dotEntries 1 0) 0 sectorSize
    part := smallMachine.newFs.part.mark madeLba true
    inodes := Function.update (fun _ => default) 1
      { iNo := 1, iSize := direntSize * 2, iOpenCnts := 1, writeDeny := false,
        iSectors := Function.update (fun _ => 0) 0 madeLba }
    dirs := Function.update (fun _ => ⟨0, 0⟩) madeDir ⟨1, 0⟩ }

/-- The blocks behind the first one are free in the new file system. -/
theorem marked_newFs {i : ℕ} (hlow : 0 < i) (hhigh : i < 600) :
    smallMachine.newFs.part.Marked false (smallMachine.newFs.part.sb.dataStartLba + i) ∧
      smallMachine.newFs.part.sb.dataStartLba + i ≤ maxLba := by
  have hlen : blockBitmapBitLen smallMachine.part.secCnt = 1388 := by decide
  have hindex : smallMachine.newFs.part.sb.dataStartLba + i -
      smallMachine.newFs.part.sb.dataStartLba = i := Nat.add_sub_cancel_left _ _
  have hbytes : smallMachine.newFs.part.blockBitmap.btmpBytesLen = 512 := by decide
  have hstart : smallMachine.newFs.part.sb.dataStartLba = 675 := by decide +kernel
  refine ⟨⟨Nat.le_add_right _ _, ?_, ?_⟩, ?_⟩
  · rw [hindex, hbytes]
    omega
  · rw [hindex, smallMachine_roomy.blockBit i (by omega)]
    exact decide_eq_false (by omega)
  · rw [hstart]
    have hmax : maxLba + 1 = 163840 := rfl
    omega

theorem madeLba_eq : madeLba = smallMachine.newFs.part.sb.dataStartLba + 1 := by decide +kernel

theorem mkdirMachine_dirInode : mkdirMachine.dirInode madeDir =
    { iNo := 1, iSize := direntSize * 2, iOpenCnts := 1, writeDeny := false,
      iSectors := Function.update (fun _ => 0) 0 madeLba } := rfl

theorem mkdirMachine_disk : mkdirMachine.disk = copy smallMachine.newFs.disk (sectorSize * madeLba)
    (dotEntries 1 0) 0 sectorSize := rfl

theorem mkdirMachine_newDir : mkdirMachine.NewDir madeDir 1 0 := by
  obtain ⟨hfree, hlast⟩ := marked_newFs (i := 1) (by decide) (by decide)
  rw [← madeLba_eq] at hfree hlast
  refine ⟨smallMachine_roomy.newPart_layout.mark _ _, by decide, Nat.two_pow_pos 32, ?_, ?_,
    fun i hi => ?_, rfl⟩
  · rw [mkdirMachine_dirInode]
    dsimp only
    rw [Function.update_self]
    exact hfree.take hlast
  · rw [mkdirMachine_dirInode]
    dsimp only
    rw [Function.update_self]
    rw [mkdirMachine_disk, sectorOf_dotEntries]
  · rw [mkdirMachine_dirInode]
    exact Function.update_of_ne hi madeLba fun _ => 0

end BochsOs
