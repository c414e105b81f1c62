import BochsOs.Fs.DirBlocks

/-!
# Adding entries to a directory

`sync_dir_entry` on a directory that holds a shelf.  It looks through the direct blocks for
a free slot or an empty pointer.  When there is neither, it makes a new indirect table that
holds one new block, whether or not there is a table already: `all_blocks` holds no indirect
pointers at that point, and the branch that would load them is never reached.

`ensures_syncDirEntry` lists what can come of a call.  An entry is added and nothing lost,
unless a table is replaced (`SyncResult.replaced`).
-/

namespace BochsOs

open ByteMemory Suspend Suspend.Prog Shelves

/-! ## Sectors -/

/-- An `ide_write` of one sector, for either kind of transfer. -/
theorem ensures_ideWrite_one {t : Transfer} {e : Env} {lba : ℕ} {buf : Bytes}
    {Q : Unit → Kernel → Prop} {k : Kernel} (hlba : lba ≤ maxLba) :
    (ideWrite t lba buf 1).ensures e Q k ↔
      Q () { k with disk := copy k.disk (sectorSize * lba) buf 0 sectorSize } := by
  rw [ideWrite, ideWriteLoop, ideWriteSector, t.sector_zero]
  simp only [ensures_bind]
  rw [ensures_assert (decide_eq_true hlba)]
  exact Iff.rfl

/-- `block_bitmap_alloc` marks the first free block. -/
theorem ensures_blockBitmapAlloc {e : Env} {k : Kernel} {Q : Option ℕ → Kernel → Prop}
    (hnone : (∀ lba, ¬ k.part.Marked false lba) → Q none k)
    (hsome : ∀ lba, k.part.Marked false lba → (∀ l, k.part.Marked false l → lba ≤ l) →
      Q (some lba) { k with part := k.part.mark lba true }) : blockBitmapAlloc.ensures e Q k := by
  rw [blockBitmapAlloc, ensures_bind, ensures_read]
  rcases hscan : bitmapScan k.part.blockBitmap 1 with _ | i
  · refine hnone fun lba hlba => ?_
    have hbit := bit_of_bitmapScan_none hscan hlba.index
    rw [hlba.bit] at hbit
    cases hbit
  · obtain ⟨hi, hbit⟩ := bit_of_bitmapScan_one hscan
    have hindex : k.part.sb.dataStartLba + i - k.part.sb.dataStartLba = i := Nat.add_sub_cancel_left _ _
    have hfree : k.part.Marked false (k.part.sb.dataStartLba + i) :=
      ⟨Nat.le_add_right _ _, by rwa [hindex], by rwa [hindex]⟩
    have h := hsome _ hfree fun l hl => by
      by_contra hlt
      have hlow := hl.low
      have hset := bit_before_bitmapScan_one hscan (j := l - k.part.sb.dataStartLba) (by omega)
      rw [hl.bit] at hset
      cases hset
    unfold Partition.mark at h
    rw [hindex] at h
    exact h

/-- `bitmap_sync` writes a sector of the bitmap, which is none of the blocks. -/
theorem ensures_bitmapSync {t : Transfer} {e : Env} {k : Kernel} (hpart : k.part.Layout) {value : Bool}
    {lba : ℕ} (hlba : k.part.Marked value lba) {Q : Unit → Kernel → Prop}
    (hQ : ∀ disk, (∀ l, k.part.sb.dataStartLba ≤ l → sectorOf disk l = sectorOf k.disk l) →
      Q () { k with disk := disk }) :
    (bitmapSync t (subU32 lba k.part.sb.dataStartLba) .blockBitmap).ensures e Q k := by
  have hsector := hpart.bitmap _ hlba.index
  have hlast := hpart.last
  rw [bitmapSync, ensures_bind, ensures_read, subU32_of_le hlba.low]
  dsimp only
  rw [ensures_ideWrite_one (by omega)]
  refine hQ _ fun l hl => sectorOf_copy_other ?_
  omega

/-- The state with another disk, partition and inode of the open directory `d`. -/
def Kernel.withDir (k : Kernel) (d : ℕ) (disk : Bytes) (part : Partition) (inode : Inode) : Kernel :=
  { k.setInode (k.dirs d).inode inode with disk := disk, part := part }

section WithDir

variable {k : Kernel} {d : ℕ} {disk : Bytes} {part : Partition} {inode : Inode}

@[simp] theorem Kernel.withDir_dirInode : (k.withDir d disk part inode).dirInode d = inode :=
  Function.update_self _ _ _

@[simp] theorem Kernel.withDir_disk : (k.withDir d disk part inode).disk = disk := rfl

@[simp] theorem Kernel.withDir_part : (k.withDir d disk part inode).part = part := rfl

@[simp] theorem Kernel.withDir_dirs : (k.withDir d disk part inode).dirs = k.dirs := rfl

theorem Kernel.withDir_self (k : Kernel) (d : ℕ) :
    k.withDir d k.disk k.part (k.dirInode d) = k := by
  have h : Function.update k.inodes (k.dirs d).inode (k.inodes (k.dirs d).inode) = k.inodes :=
    Function.update_eq_self _ _
  unfold Kernel.withDir Kernel.setInode Kernel.dirInode
  rw [h]

theorem Kernel.withDir_setInode (inode' : Inode) :
    (k.withDir d disk part inode).setInode (k.dirs d).inode inode' =
      k.withDir d disk part inode' := by
  unfold Kernel.withDir Kernel.setInode
  dsimp only
  rw [Function.update_idem]

variable {t : Transfer} {e : Env}

theorem ensures_modifyDirInode {f : Inode → Inode} {Q : Unit → Kernel → Prop} :
    (modifyDirInode d f).ensures e Q (k.withDir d disk part inode) ↔
      Q () (k.withDir d disk part (f inode)) := by
  rw [modifyDirInode, ensures_modify, Kernel.withDir_dirInode, Kernel.withDir_dirs,
    Kernel.withDir_setInode]

theorem ensures_blockBitmapAlloc_dir {Q : Option ℕ → Kernel → Prop}
    (hnone : (∀ lba, ¬ part.Marked false lba) → Q none (k.withDir d disk part inode))
    (hsome : ∀ lba, part.Marked false lba → (∀ l, part.Marked false l → lba ≤ l) →
      Q (some lba) (k.withDir d disk (part.mark lba true) inode)) :
    blockBitmapAlloc.ensures e Q (k.withDir d disk part inode) := ensures_blockBitmapAlloc hnone hsome

theorem ensures_bitmapSync_dir (hpart : part.Layout) {value : Bool} {lba : ℕ}
    (hlba : part.Marked value lba) {Q : Unit → Kernel → Prop}
    (hQ : ∀ disk', (∀ l, part.sb.dataStartLba ≤ l → sectorOf disk' l = sectorOf disk l) →
      Q () (k.withDir d disk' part inode)) :
    (bitmapSync t (subU32 lba part.sb.dataStartLba) .blockBitmap).ensures e Q
      (k.withDir d disk part inode) := ensures_bitmapSync (k := k.withDir d disk part inode) hpart hlba hQ

theorem ensures_ideWrite_dir {lba : ℕ} {buf : Bytes} {Q : Unit → Kernel → Prop}
    (hlba : lba ≤ maxLba) :
    (ideWrite t lba buf 1).ensures e Q (k.withDir d disk part inode) ↔
      Q () (k.withDir d (copy disk (sectorSize * lba) buf 0 sectorSize) part inode) := by
  rw [ensures_ideWrite_one hlba]
  exact Iff.rfl

end WithDir

/-! ## Boxes that are written -/

/-- A buffer with the slots of a box, written to a block. -/
theorem storesBox_copy {disk buf : Bytes} {lba : ℕ} {b : Box DirEntry} (hlen : b.length = 21)
    (hslots : ∀ i (hi : i < b.length), ∀ j < direntSize, buf (direntSize * i + j) = slotImage b[i] j)
    (hfits : ∀ e ∈ b.reduceOption, e.Fits) :
    StoresBox (copy disk (sectorSize * lba) buf 0 sectorSize) lba b := by
  refine ⟨hlen, fun i hi => ⟨fun j hj => ?_, fun e he => ?_⟩⟩
  · rw [sectorOf_copy_same]
    dsimp only
    rw [← hslots i hi j hj]
    have hin : direntSize * i + j < 0 + sectorSize := by
      unfold direntSize at hj ⊢
      unfold sectorSize
      omega
    rw [copy_inside (Nat.zero_le _) hin]
    congr 1
    omega
  · refine hfits e (List.reduceOption_mem_iff.mpr ?_)
    rw [← Option.mem_def.mp he]
    exact List.getElem_mem hi

/-- The box of a new block. -/
def newBox (e : DirEntry) : Box DirEntry := some e :: List.replicate 20 none

/-- The entry of a new block is the first in it. -/
theorem placedFirst_newBox (b : Box DirEntry) (e : DirEntry) : PlacedFirst e b (newBox e) :=
  ⟨[], b, _, List.not_mem_nil, rfl, rfl⟩

theorem reduceOption_newBox (e : DirEntry) : (newBox e).reduceOption = [e] := by
  rw [newBox, List.reduceOption_cons_of_some, List.reduceOption_replicate_none]

/-- A new block puts its entry on the shelf. -/
theorem inserted_newBox {s : BoxRow DirEntry} {i : ℕ} (hnone : s i = none) (e : DirEntry)
    (hi : i < flattenPtrs := by decide) :
    Inserted e (items s flattenPtrs 0)
      (items (Function.update s i (some (newBox e))) flattenPtrs 0) := by
  refine inserted_of_place hi ⟨[], [], by rw [hnone]; rfl, ?_⟩
  rw [boxItems_some, reduceOption_newBox]
  rfl

/-- A cleared buffer with one entry at its start. -/
theorem storesBox_new {disk : Bytes} {lba : ℕ} {e : DirEntry} (he : e.Fits) :
    StoresBox (copy disk (sectorSize * lba) (copy zeroBuf 0 e.image 0 direntSize) 0 sectorSize) lba
      (newBox e) := by
  refine storesBox_copy rfl (fun i hi j hj => ?_) fun x hx => ?_
  · cases i with
    | zero =>
        rw [copy_inside (Nat.zero_le _) (by omega)]
        change e.image _ = e.image j
        congr 1
        omega
    | succ i =>
        have hi' : i < (List.replicate 20 (none : Option DirEntry)).length :=
          Nat.lt_of_succ_lt_succ hi
        have hnone : (newBox e)[i + 1] = none := List.getElem_replicate hi'
        rw [hnone, copy_outside (by unfold direntSize at *; omega)]
        rfl
  · rw [reduceOption_newBox, List.mem_singleton] at hx
    rw [hx]
    exact he

/-- The buffer of a block with one of its slots overwritten. -/
theorem StoresBox.set {disk : Bytes} {lba : ℕ} {b : Box DirEntry} (h : StoresBox disk lba b) {i : ℕ}
    {o : Option DirEntry} (ho : ∀ e ∈ o, e.Fits) {buf : Bytes}
    (hslot : ∀ j < direntSize, buf (direntSize * i + j) = slotImage o j)
    (hrest : ∀ a, a < direntSize * i ∨ direntSize * i + direntSize ≤ a → buf a = sectorOf disk lba a) :
    StoresBox (copy disk (sectorSize * lba) buf 0 sectorSize) lba (b.set i o) := by
  refine storesBox_copy (by rw [List.length_set, h.length]) (fun l hl j hj => ?_) fun x hx => ?_
  · rw [List.getElem_set]
    by_cases hil : i = l
    · rw [if_pos hil, ← hil]
      exact hslot j hj
    · rw [List.length_set] at hl
      rw [if_neg hil, hrest _ (by unfold direntSize at *; omega)]
      exact (h.slot l hl).bytes j hj
  · rw [List.reduceOption_mem_iff] at hx
    rcases List.mem_or_eq_of_mem_set hx with hmem | heq
    · obtain ⟨l, hl, hget⟩ := List.getElem_of_mem hmem
      exact (h.slot l hl).fits x (by rw [hget]; rfl)
    · exact ho x heq.symm

/-! ## The invariant -/

/-- The entry `.` of a directory. -/
def dotEntry (n : ℕ) : DirEntry := ⟨dotName, n, .directory⟩

/-- The entry `..` of a directory. -/
def dotDotEntry (n : ℕ) : DirEntry := ⟨dotDotName, n, .directory⟩

/-- The shelves that `sync_dir_entry` and `delete_dir_entry` leave: the first block starts
with `.` and `..`, no block is empty, and at most one block is reached through the indirect
table, with a single entry. -/
structure SoundShelf (s : BoxRow DirEntry) : Prop where
  first : ∃ self parent b, s 0 = some (some (dotEntry self) :: some (dotDotEntry parent) :: b)
  used : ∀ i, boxItems (s i) = [] → s i = none
  single : ∀ b ∈ s directPtrs, ∃ e, b = newBox e
  rest : ∀ i, directPtrs < i → s i = none

/-- The disk, the block bitmap and the inode of a directory hold a sound shelf, and the size
counts its items and `lost` entries that are on no block of the directory any more. -/
structure DirInv (disk : Bytes) (part : Partition) (inode : Inode) (ptr : ℕ → ℕ)
    (s : BoxRow DirEntry) (lost : ℕ) : Prop where
  layout : part.Layout
  dir : DirOn disk part inode.iSectors ptr s
  sound : SoundShelf s
  tableUsed : inode.iSectors directPtrs ≠ 0 → s directPtrs ≠ none
  size : inode.iSize = direntSize * ((items s flattenPtrs 0).length + lost)

/-- The open directory `d` holds a sound shelf. -/
def Kernel.DirInv (k : Kernel) (d : ℕ) (ptr : ℕ → ℕ) (s : BoxRow DirEntry) (lost : ℕ) : Prop :=
  BochsOs.DirInv k.disk k.part (k.dirInode d) ptr s lost

theorem Kernel.DirInv.holds {k : Kernel} {d lost : ℕ} {ptr : ℕ → ℕ} {s : BoxRow DirEntry}
    (h : k.DirInv d ptr s lost) : k.HoldsDir d ptr s := ⟨h.layout, h.dir⟩

theorem DirInv.withDir {k : Kernel} {d lost : ℕ} {disk : Bytes} {part : Partition} {inode : Inode}
    {ptr : ℕ → ℕ} {s : BoxRow DirEntry} (h : DirInv disk part inode ptr s lost) :
    (k.withDir d disk part inode).DirInv d ptr s lost := by
  unfold Kernel.DirInv
  rwa [Kernel.withDir_dirInode]

/-- The shelf without what is reached through the indirect table. -/
def dropIndirect (s : BoxRow DirEntry) : BoxRow DirEntry := fun i => if i < directPtrs then s i else none

theorem dropIndirect_of_lt {s : BoxRow DirEntry} {i : ℕ} (hi : i < directPtrs) :
    dropIndirect s i = s i := if_pos hi

theorem dropIndirect_of_le {s : BoxRow DirEntry} {i : ℕ} (hi : directPtrs ≤ i) :
    dropIndirect s i = none := if_neg (by omega)

section SoundShelf

variable {s : BoxRow DirEntry} (h : SoundShelf s)

include h

/-- A box put in a direct place. -/
theorem SoundShelf.update {i : ℕ} (hi : i < directPtrs) {o : Option (Box DirEntry)}
    (ho : boxItems o = [] → o = none)
    (hfirst : i = 0 → ∃ self parent b, o = some (some (dotEntry self) :: some (dotDotEntry parent) :: b)) :
    SoundShelf (Function.update s i o) where
  first := by
    by_cases hzero : i = 0
    · rw [hzero, Function.update_self]
      exact hfirst hzero
    · rw [Function.update_of_ne (Ne.symm hzero)]
      exact h.first
  used j := by
    by_cases hji : j = i
    · rw [hji, Function.update_self]
      exact ho
    · rw [Function.update_of_ne hji]
      exact h.used j
  single b hb := by
    rw [Function.update_of_ne (by omega)] at hb
    exact h.single b hb
  rest j hj := by
    rw [Function.update_of_ne (by omega)]
    exact h.rest j hj

theorem SoundShelf.dropIndirect : SoundShelf (dropIndirect s) where
  first := by
    rw [dropIndirect_of_lt (by decide)]
    exact h.first
  used i := by
    rcases Nat.lt_or_ge i directPtrs with hlt | hge
    · rw [dropIndirect_of_lt hlt]
      exact h.used i
    · rw [dropIndirect_of_le hge]
      exact fun _ => rfl
  single b hb := by
    rw [dropIndirect_of_le le_rfl] at hb
    cases hb
  rest i hi := dropIndirect_of_le hi.le

theorem SoundShelf.dropIndirect_eq (hnone : s directPtrs = none) : BochsOs.dropIndirect s = s := by
  funext i
  rcases Nat.lt_trichotomy i directPtrs with hlt | rfl | hgt
  · exact dropIndirect_of_lt hlt
  · rw [dropIndirect_of_le le_rfl, hnone]
  · rw [dropIndirect_of_le hgt.le, h.rest i hgt]

/-- A new block behind the indirect table. -/
theorem SoundShelf.newIndirect (e : DirEntry) :
    SoundShelf (Function.update (BochsOs.dropIndirect s) directPtrs (some (newBox e))) where
  first := by
    rw [Function.update_of_ne (by decide)]
    exact h.dropIndirect.first
  used i := by
    by_cases hi : i = directPtrs
    · rw [hi, Function.update_self, boxItems_some, reduceOption_newBox]
      intro hnil
      cases hnil
    · rw [Function.update_of_ne hi]
      exact h.dropIndirect.used i
  single b hb := by
    rw [Function.update_self] at hb
    exact ⟨e, (Option.some.inj hb).symm⟩
  rest i hi := by
    rw [Function.update_of_ne (by omega)]
    exact dropIndirect_of_le hi.le

/-- The items are those of the direct blocks and the entry behind the indirect table. -/
theorem SoundShelf.items_eq : items s flattenPtrs 0 =
    items (BochsOs.dropIndirect s) flattenPtrs 0 ++ boxItems (s directPtrs) := by
  have hrest : ∀ {s : BoxRow DirEntry} {left first : ℕ}, (∀ i, first ≤ i → s i = none) →
      items s left first = [] := by
    intro s left
    induction left with
    | zero => exact fun _ => rfl
    | succ left ih =>
        intro first hnone
        rw [items, hnone first le_rfl, boxItems_none, List.nil_append, ih fun i hi => hnone i (by omega)]
  have hlow : items (BochsOs.dropIndirect s) directPtrs 0 = items s directPtrs 0 :=
    items_congr fun i _ hi => dropIndirect_of_lt (by omega)
  have hhigh : items (BochsOs.dropIndirect s) (127 + 1) (0 + directPtrs) = [] :=
    hrest fun i hi => dropIndirect_of_le (by omega)
  have hlast : items s 127 (0 + directPtrs + 1) = [] := hrest fun i hi => h.rest i (by omega)
  rw [show flattenPtrs = directPtrs + (127 + 1) from rfl, items_add s,
    items_add (BochsOs.dropIndirect s), hlow, hhigh, items, hlast, List.append_nil, List.append_nil,
    Nat.zero_add]

end SoundShelf

/-! ## What a call can do -/

/-- A place that has a block without a free slot. -/
def FullPlace (o : Option (Box DirEntry)) : Prop := ∃ b, o = some b ∧ none ∉ b

theorem FullPlace.notMem {o : Option (Box DirEntry)} (h : FullPlace o) : none ∉ o.getD [] := by
  obtain ⟨b, rfl, hb⟩ := h
  exact hb

/-- The number of blocks that one more entry takes, seen from place `i` on: none where a slot
is free, one where a place is empty, and two when all direct places are full. -/
def shelfNeeds (s : BoxRow DirEntry) : (left i : ℕ) → ℕ
  | 0, _ => 2
  | left + 1, i =>
      match s i with
      | none => 1
      | some b => if hasFreeSlot b then 0 else shelfNeeds s left (i + 1)

theorem shelfNeeds_le (s : BoxRow DirEntry) (left i : ℕ) : shelfNeeds s left i ≤ 2 := by
  induction left generalizing i with
  | zero => exact le_rfl
  | succ left ih =>
      rw [shelfNeeds]
      split
      · omega
      · split
        · omega
        · exact ih (i + 1)

theorem shelfNeeds_eq_two {s : BoxRow DirEntry} {left i : ℕ} :
    shelfNeeds s left i = 2 ↔ ∀ j, i ≤ j → j < i + left → FullPlace (s j) := by
  induction left generalizing i with
  | zero => exact iff_of_true rfl fun j hlow hhigh => absurd hhigh (Nat.not_lt.mpr hlow)
  | succ left ih =>
      have hnext {j : ℕ} (hne : j ≠ i) (hlow : i ≤ j) : i + 1 ≤ j := by omega
      rw [shelfNeeds]
      rcases hs : s i with _ | b
      · dsimp only
        refine iff_of_false (by decide) fun hall => ?_
        obtain ⟨b, hb, -⟩ := hall i le_rfl (by omega)
        rw [hs] at hb
        cases hb
      · by_cases hfree : none ∈ b
        · simp only [hasFreeSlot_iff.mpr hfree, if_true]
          refine iff_of_false (by decide) fun hall => ?_
          obtain ⟨b', hb', hused⟩ := hall i le_rfl (by omega)
          rw [hs] at hb'
          exact hused (Option.some.inj hb' ▸ hfree)
        · simp only [mt hasFreeSlot_iff.mp hfree, if_false, Bool.false_eq_true]
          rw [ih]
          constructor
          · intro hall j hlow hhigh
            by_cases hji : j = i
            · exact ⟨b, hji ▸ hs, hfree⟩
            · exact hall j (hnext hji hlow) (by omega)
          · exact fun hall j hlow hhigh => hall j (by omega) (by omega)

/-- The blocks that are free in `part'` but for two are free in `part`. -/
def Partition.Uses (part part' : Partition) : Prop :=
  ∃ a b, ∀ lba, part.Marked false lba → lba ≠ a → lba ≠ b → part'.Marked false lba

/-- What `sync_dir_entry` can do to a directory that holds the shelf `s`.  Where it adds the
entry, the blocks that it took lie on the disk. -/
inductive SyncResult (k : Kernel) (d : ℕ) (s : BoxRow DirEntry) (lost : ℕ) (e : DirEntry) :
    Bool → Kernel → Prop where
  /-- The entry is put in a free slot of a direct block, or in a new direct block. -/
  | added {k' : Kernel} {ptr' : ℕ → ℕ} {s' : BoxRow DirEntry} (hneed : shelfNeeds s directPtrs 0 < 2)
      (hinv : k'.DirInv d ptr' s' lost)
      (hins : Inserted e (items s flattenPtrs 0) (items s' flattenPtrs 0))
      (hsame : s' directPtrs = s directPtrs)
      (hplaces : shelfNeeds s directPtrs 0 = 0 → ∀ i, s' i = none ↔ s i = none)
      (huses : k.part.Uses k'.part)
      (hfirst : PlacedFirst e (row s flattenPtrs 0) (row s' flattenPtrs 0))
      (hdisk : k.part.HasFreeOnDisk (shelfNeeds s directPtrs 0)) :
      SyncResult k d s lost e true k'
  /-- The entry is put in the first block behind a new indirect table. -/
  | tableAdded {k' : Kernel} {ptr' : ℕ → ℕ} (hneed : shelfNeeds s directPtrs 0 = 2)
      (hnone : s directPtrs = none)
      (hinv : k'.DirInv d ptr' (Function.update s directPtrs (some (newBox e))) lost)
      (huses : k.part.Uses k'.part) (hdisk : k.part.HasFreeOnDisk 2) : SyncResult k d s lost e true k'
  /-- The entry takes the place of the one behind the indirect table. -/
  | replaced {k' : Kernel} {ptr' : ℕ → ℕ} (hneed : shelfNeeds s directPtrs 0 = 2)
      (hold : s directPtrs ≠ none) (hfree : k.part.HasFree 2)
      (hinv : k'.DirInv d ptr'
        (Function.update (dropIndirect s) directPtrs (some (newBox e))) (lost + 1))
      (hdisk : k.part.HasFreeOnDisk 2) : SyncResult k d s lost e true k'
  /-- No block is free. -/
  | noBlock (hlack : ¬ k.part.HasFree (shelfNeeds s directPtrs 0)) : SyncResult k d s lost e false k
  /-- A single block is free, where two are needed. -/
  | oneBlock {k' : Kernel} {ptr' : ℕ → ℕ} (hneed : shelfNeeds s directPtrs 0 = 2)
      (hlack : ¬ k.part.HasFree 2)
      (hinv : k'.DirInv d ptr' (dropIndirect s) (lost + (boxItems (s directPtrs)).length)) :
      SyncResult k d s lost e false k'

section DirInv

variable {disk disk' : Bytes} {part : Partition} {inode : Inode} {ptr : ℕ → ℕ}
  {s : BoxRow DirEntry} {lost : ℕ} {e : DirEntry} (h : DirInv disk part inode ptr s lost)

include h

/-- A new block behind a direct pointer. -/
theorem DirInv.attach (he : e.Fits) {i lba : ℕ} (hi : i < directPtrs) (hnone : s i = none)
    (hfree : part.Marked false lba) (hlast : lba ≤ maxLba)
    (hdisk : ∀ l, part.sb.dataStartLba ≤ l → sectorOf disk' l = sectorOf disk l) :
    DirInv (copy disk' (sectorSize * lba) (copy zeroBuf 0 e.image 0 direntSize) 0 sectorSize)
        (part.mark lba true) ((inode.setSector i lba).grow direntSize) (Function.update ptr i lba)
        (Function.update s i (some (newBox e))) lost ∧
      Inserted e (items s flattenPtrs 0)
        (items (Function.update s i (some (newBox e))) flattenPtrs 0) := by
  have hi' : i < flattenPtrs := hi.trans (by decide)
  have hpos : lba ≠ 0 := by
    have := h.layout.start
    have := hfree.low
    omega
  have hins := inserted_newBox hnone e hi'
  refine ⟨⟨h.layout.mark lba true, ?_, ?_, ?_, ?_⟩, hins⟩
  · refine h.dir.attach hi hpos hfree hlast (fun l hl => ?_) (storesBox_new he)
    rw [sectorOf_copy_other (hl.ne hfree), hdisk l hl.low]
  · refine h.sound.update hi (fun hnil => ?_) fun hzero => ?_
    · rw [boxItems_some, reduceOption_newBox] at hnil
      cases hnil
    · obtain ⟨_, _, _, hfirst⟩ := h.sound.first
      rw [hzero, hfirst] at hnone
      cases hnone
  · intro htable
    have hold : Function.update inode.iSectors i lba directPtrs = inode.iSectors directPtrs :=
      Function.update_of_ne (by omega) _ _
    rw [Function.update_of_ne (by omega)]
    exact h.tableUsed (hold ▸ htable)
  · change inode.iSize + direntSize = _
    rw [h.size, hins.length]
    ring

/-- An entry in a free slot of a block. -/
theorem DirInv.put (he : e.Fits) {i j : ℕ} {b : Box DirEntry} (hi : i < directPtrs)
    (hb : s i = some b) (hj : j < b.length) (hfree : b[j] = none) :
    DirInv (copy disk (sectorSize * ptr i)
        (copy (sectorOf disk (ptr i)) (direntSize * j) e.image 0 direntSize) 0 sectorSize) part
        (inode.grow direntSize) ptr (Function.update s i (some (b.set j (some e)))) lost ∧
      Inserted e (items s flattenPtrs 0)
        (items (Function.update s i (some (b.set j (some e)))) flattenPtrs 0) := by
  have hi' : i < flattenPtrs := hi.trans (by decide)
  have hne : ptr i ≠ 0 := h.dir.ptr_ne hi' hb
  have hins : Inserted e (items s flattenPtrs 0)
      (items (Function.update s i (some (b.set j (some e)))) flattenPtrs 0) := by
    refine inserted_of_place hi' ?_
    rw [hb]
    exact inserted_set hj hfree e
  have hset : StoresBox (copy disk (sectorSize * ptr i)
      (copy (sectorOf disk (ptr i)) (direntSize * j) e.image 0 direntSize) 0 sectorSize) (ptr i)
      (b.set j (some e)) :=
    (h.dir.box i hi' b hb).set (fun x hx => (Option.some.inj hx) ▸ he)
      (fun l hl => by rw [copy_add hl, Nat.zero_add]; rfl) fun a ha => copy_outside ha
  refine ⟨⟨h.layout, ?_, ?_, fun htable => ?_, ?_⟩, hins⟩
  · exact h.dir.put hi' hne (fun l hl hneq => sectorOf_copy_other hneq) hset
  · refine h.sound.update hi (fun hnil => ?_) fun hzero => ?_
    · have hlen := (inserted_set hj hfree e).length
      rw [boxItems_some] at hnil
      rw [hnil] at hlen
      cases hlen
    · obtain ⟨self, parent, l, hfirst⟩ := h.sound.first
      rw [← hzero, hb] at hfirst
      have hl := Option.some.inj hfirst
      subst hl
      match j, hj, hfree with
      | j + 2, _, _ => exact ⟨self, parent, l.set j (some e), rfl⟩
  · rw [Function.update_of_ne (by omega)]
    exact h.tableUsed htable
  · change inode.iSize + direntSize = _
    rw [h.size, hins.length]
    ring

/-- The directory after its indirect table has been given up. -/
theorem DirInv.drop {part' : Partition} (hpart : part'.Layout)
    (htaken : ∀ lba, part.Taken lba → part'.Taken lba)
    (hdisk : ∀ lba, part.Taken lba → sectorOf disk' lba = sectorOf disk lba) :
    DirInv disk' part' (inode.setSector directPtrs 0) (fun i => if i < directPtrs then ptr i else 0)
      (dropIndirect s) (lost + (boxItems (s directPtrs)).length) where
  layout := hpart
  dir := h.dir.dropTable htaken hdisk
  sound := h.sound.dropIndirect
  tableUsed hne := by
    have hzero : (inode.setSector directPtrs 0).iSectors directPtrs = 0 :=
      Function.update_self directPtrs 0 inode.iSectors
    exact absurd hzero hne
  size := by
    change inode.iSize = _
    rw [h.size, h.sound.items_eq, List.length_append]
    ring

/-- A new indirect table with one new block. -/
theorem DirInv.newTable (he : e.Fits) (hnone : inode.iSectors directPtrs = 0) {table lba : ℕ}
    (hfree : part.Marked false table) (hlast : table ≤ maxLba)
    (hfree' : (part.mark table true).Marked false lba) (hlast' : lba ≤ maxLba)
    (hdisk : ∀ lba, part.Taken lba → sectorOf disk' lba = sectorOf disk lba)
    (hptrs : ∀ i < flattenPtrs - directPtrs,
      readU32 (sectorOf disk' table) (4 * i) = if i = 0 then lba else 0) :
    DirInv (copy disk' (sectorSize * lba) (copy zeroBuf 0 e.image 0 direntSize) 0 sectorSize)
      ((part.mark table true).mark lba true) ((inode.setSector directPtrs table).grow direntSize)
      (Function.update ptr directPtrs lba) (Function.update s directPtrs (some (newBox e))) lost := by
  have hdir : directPtrs < flattenPtrs := by decide
  have hempty : s directPtrs = none := (h.dir.empty _ hdir).mp (h.dir.noTable hnone _ le_rfl)
  have hstart := h.layout.start
  have hlow : part.sb.dataStartLba ≤ lba := hfree'.low
  have hlow' := hfree.low
  have htable := hfree.take hlast
  have hapart : table ≠ lba := htable.ne hfree'
  have htaken {l : ℕ} (hl : part.Taken l) : l ≠ lba := by
    have hl' : (part.mark table true).Taken l := hl.other hfree.low (hl.ne hfree)
    exact hl'.ne hfree'
  refine ⟨(h.layout.mark table true).mark lba true, ?_, ?_, ?_, ?_⟩
  · refine h.dir.attachTable hnone (by omega) (by omega) hfree hlast hfree' hlast' (fun l hl => ?_)
      (fun i hi => ?_) (storesBox_new he)
    · rw [sectorOf_copy_other (htaken hl), hdisk l hl]
    · rw [sectorOf_copy_other hapart]
      exact hptrs i hi
  · have hnew := h.sound.newIndirect e
    rwa [h.sound.dropIndirect_eq hempty] at hnew
  · intro _
    rw [Function.update_self]
    simp
  · change inode.iSize + direntSize = _
    rw [h.size, (inserted_newBox hempty e).length]
    ring

end DirInv

/-! ## The search for a free slot -/

/-- A slot that the scan takes as free is an empty place of the box. -/
theorem StoresBox.type_unknown {disk : Bytes} {lba : ℕ} {b : Box DirEntry} (h : StoresBox disk lba b)
    (i : ℕ) (hi : i < b.length) :
    entryType (sectorOf disk lba) (direntSize * i) = .unknown ↔ b[i] = none :=
  (h.slot i hi).fType_eq_unknown

/-- The scan for a free slot of a block finds the first. -/
theorem StoresBox.free_first {disk : Bytes} {lba : ℕ} {b : Box DirEntry} (h : StoresBox disk lba b) {j : ℕ}
    (hfind : (List.range 21).find? (fun i => entryType (sectorOf disk lba) (direntSize * i) = .unknown) =
      some j) : ∃ hj : j < b.length, b[j] = none ∧ ∀ i (hi : i < j), b[i] ≠ none := by
  have hj : j < b.length := by
    rw [h.length]
    exact List.mem_range.mp (List.mem_of_find?_eq_some hfind)
  have hfree := List.find?_some hfind
  refine ⟨hj, (h.type_unknown j hj).mp (of_decide_eq_true hfree), fun i hi hnone => ?_⟩
  have hused := (List.find?_range_eq_some.mp hfind).2.2 i hi
  rw [decide_eq_true ((h.type_unknown i (by omega)).mpr hnone)] at hused
  cases hused

/-- When the scan finds nothing, the box is full. -/
theorem StoresBox.free_none {disk : Bytes} {lba : ℕ} {b : Box DirEntry} (h : StoresBox disk lba b)
    (hfind : (List.range 21).find? (fun i => entryType (sectorOf disk lba) (direntSize * i) = .unknown) =
      none) : none ∉ b := by
  intro hmem
  obtain ⟨i, hi, hget⟩ := List.getElem_of_mem hmem
  have hused := List.find?_eq_none.mp hfind i (List.mem_range.mpr (h.length ▸ hi))
  exact hused (decide_eq_true ((h.type_unknown i hi).mpr hget))

/-! ## The call -/

section Sync

variable {k : Kernel} {d : ℕ} {disk : Bytes} {part : Partition} {inode : Inode} {ptr : ℕ → ℕ}
  {s : BoxRow DirEntry} {lost : ℕ} {e : DirEntry} {env : Env} {t : Transfer}

theorem ensures_writeNewBlock {lba : ℕ} (hpart : part.Layout) (hlba : lba ≤ maxLba)
    {Q : Bool → Kernel → Prop} :
    (writeNewBlock t d e lba).ensures env Q (k.withDir d disk part inode) ↔
      Q true (k.withDir d
        (copy disk (sectorSize * lba) (copy zeroBuf 0 e.image 0 direntSize) 0 sectorSize) part
        (inode.grow direntSize)) := by
  rw [writeNewBlock, ensures_bind, ensures_read, ensures_bind, ensures_ideWrite_dir hlba, ensures_bind,
    ensures_modifyDirInode, ensures_pure, Kernel.withDir_part, hpart.entrySize]

/-- A block that is not on the disk stops the machine. -/
theorem ensures_writeNewBlock_beyond {lba : ℕ} (hstops : env.stops) (hlba : ¬ lba ≤ maxLba)
    {Q : Bool → Kernel → Prop} {k : Kernel} : (writeNewBlock t d e lba).ensures env Q k := by
  refine ensures_of_wp hstops ?_
  rw [writeNewBlock, wp_bind, wp_read, wp_bind, wp_ideWrite_one]
  exact fun hle => absurd hle hlba

/-- The table that is written holds the pointer of the new block and no other. -/
theorem readU32_indirectImage {allBlocks : ℕ → ℕ} (hzero : ∀ i, directPtrs ≤ i → allBlocks i = 0)
    {table lba : ℕ} (hlba : lba ≤ maxLba) {i : ℕ} (hi : i < flattenPtrs - directPtrs) :
    readU32 (sectorOf (copy disk (sectorSize * table)
      (indirectImage (Function.update allBlocks directPtrs lba)) 0 sectorSize) table) (4 * i) =
      if i = 0 then lba else 0 := by
  have hin : 4 * i + 3 < sectorSize := by
    unfold flattenPtrs directPtrs at hi
    unfold sectorSize
    omega
  rw [sectorOf_copy_same]
  have hread : readU32 (copy zeroBuf 0 (indirectImage (Function.update allBlocks directPtrs lba)) 0
      sectorSize) (4 * i) = readU32 (indirectImage (Function.update allBlocks directPtrs lba)) (4 * i) :=
    readU32_congr fun j hj => by
      rw [copy_inside (Nat.zero_le _) (by omega)]
      congr 1
      omega
  rw [hread, indirectImage, readU32_wordImage]
  by_cases hzero' : i = 0
  · rw [if_pos hzero', hzero', Nat.add_zero, Function.update_self]
    unfold maxLba at hlba
    exact Nat.mod_eq_of_lt (by omega)
  · rw [if_neg hzero', Function.update_of_ne (by omega), hzero _ (by omega), Nat.zero_mod]

/-- The blocks that the entry takes are free on the disk, or the machine may stop. -/
def MayPlace (env : Env) (part : Partition) (s : BoxRow DirEntry) : Prop :=
  env.stops ∨ (part.HasFree (shelfNeeds s directPtrs 0) → part.HasFreeOnDisk (shelfNeeds s directPtrs 0))

variable (h : DirInv disk part inode ptr s lost) (he : e.Fits) (hok : MayPlace env part s)

include h he hok

/-- An empty direct pointer gets a new block. -/
theorem ensures_syncNewBlock_direct {i : ℕ} {allBlocks : ℕ → ℕ} {hasFlatten : Bool}
    (hi : i < directPtrs) (hnone : s i = none) (hfull : ∀ j < i, FullPlace (s j))
    (hneed : shelfNeeds s directPtrs 0 = 1) :
    (syncNewBlock t d e i allBlocks hasFlatten).ensures env
      (SyncResult (k.withDir d disk part inode) d s lost e) (k.withDir d disk part inode) := by
  rw [syncNewBlock, ensures_bind]
  refine ensures_blockBitmapAlloc_dir (fun hfull => .noBlock ?_) fun lba hfree hmin => ?_
  · rw [hneed]
    rintro ⟨blocks, hcard, hblocks⟩
    obtain ⟨l, hl⟩ := Finset.card_pos.mp (hcard ▸ Nat.one_pos)
    exact hfull l (hblocks l hl)
  · have hpart := h.layout.mark lba true
    have hmark : (part.mark lba true).Marked true lba := hfree.self true
    simp only [ensures_bind, ensures_read, Kernel.withDir_part]
    refine (ensures_assert (decide_eq_true (hpart.subU32_ne hmark))).mpr ?_
    refine ensures_bitmapSync_dir hpart hmark fun disk' hdisk => ?_
    rw [if_pos hi, ensures_bind, ensures_modifyDirInode]
    by_cases hlast : lba ≤ maxLba
    · rw [ensures_writeNewBlock hpart hlast]
      obtain ⟨hinv, hins⟩ := h.attach he hi hnone hfree hlast hdisk
      refine .added (by omega) hinv.withDir hins (Function.update_of_ne (by omega) _ _)
        (fun hzero => by omega) ⟨lba, lba, ?_⟩ ?_ (by rw [hneed]; exact Partition.hasFreeOnDisk_of_one hfree hlast)
      · exact fun l hl hne _ => hl.other hfree.low hne
      · refine placedFirst_of_place (hi.trans (by decide)) (fun j hj => Function.update_of_ne (by omega) _ _)
          (fun j hj => (hfull j hj).notMem) ?_
        rw [hnone, Function.update_self]
        exact placedFirst_newBox _ e
    · refine ensures_writeNewBlock_beyond (hok.resolve_right fun hdisk => hlast ?_) hlast
      rw [hneed] at hdisk
      obtain ⟨blocks, hcard, hblocks⟩ := hdisk (Partition.hasFree_of_one hfree)
      obtain ⟨l, hl⟩ := Finset.card_pos.mp (hcard ▸ Nat.one_pos)
      exact (hmin l (hblocks l hl).1).trans (hblocks l hl).2

/-- A directory whose direct blocks are full gets a new indirect table. -/
theorem ensures_syncNewBlock_table {allBlocks : ℕ → ℕ}
    (hzero : ∀ i, directPtrs ≤ i → allBlocks i = 0) (hneed : shelfNeeds s directPtrs 0 = 2) :
    (syncNewBlock t d e directPtrs allBlocks false).ensures env
      (SyncResult (k.withDir d disk part inode) d s lost e) (k.withDir d disk part inode) := by
  rw [syncNewBlock, ensures_bind]
  refine ensures_blockBitmapAlloc_dir (fun hfull => .noBlock ?_) fun table hfree hmin => ?_
  · rw [hneed]
    rintro ⟨blocks, hcard, hblocks⟩
    obtain ⟨l, hl⟩ := Finset.card_pos.mp (hcard ▸ Nat.two_pos)
    exact hfull l (hblocks l hl)
  have htable : (part.mark table true).Marked true table := hfree.self true
  have hpart := h.layout.mark table true
  simp only [ensures_bind, ensures_read, Kernel.withDir_part]
  refine (ensures_assert (decide_eq_true (hpart.subU32_ne htable))).mpr ?_
  refine ensures_bitmapSync_dir hpart htable fun disk₁ hdisk₁ => ?_
  rw [if_neg (lt_irrefl _), if_pos ⟨trivial, trivial⟩, ensures_bind, ensures_modifyDirInode,
    ensures_bind]
  refine ensures_blockBitmapAlloc_dir (fun hnone => ?_) fun lba hfree' hmin' => ?_
  · -- the table is given back, and the old one is lost
    dsimp only
    rw [ensures_bind, setBlockBit, ensures_modify, ensures_bind]
    have hindex : subU32 table (part.mark table true).sb.dataStartLba = table - part.sb.dataStartLba :=
      subU32_of_le htable.low
    have hsame : ((inode.setSector directPtrs table).setSector directPtrs 0) =
        inode.setSector directPtrs 0 := by
      unfold Inode.setSector
      dsimp only
      rw [Function.update_idem]
    rw [hindex]
    change Prog.ensures env (modifyDirInode d fun x => x.setSector directPtrs 0) _
      (k.withDir d disk₁ ((part.mark table true).mark table false) (inode.setSector directPtrs table))
    rw [ensures_modifyDirInode, hsame, ensures_pure]
    refine .oneBlock hneed (fun htwo => ?_) (DirInv.withDir (h.drop (hpart.mark table false) ?_ ?_))
    · obtain ⟨blocks, hcard, hblocks⟩ := htwo
      have hmore : 1 < blocks.card := by omega
      obtain ⟨l, hl, hne⟩ := Finset.exists_mem_ne hmore table
      exact hnone l ((hblocks l hl).other hfree.low hne)
    · intro l hl
      have hl' : (part.mark table true).Taken l := hl.other hfree.low (hl.ne hfree)
      exact hl'.other htable.low (hl.ne hfree)
    · exact fun l hl => hdisk₁ l hl.low
  · have hlba : ((part.mark table true).mark lba true).Marked true lba := hfree'.self true
    have hpart' := hpart.mark lba true
    have hne : table ≠ lba := fun heq => by
      have hbit := hfree'.bit
      rw [← heq] at hbit
      cases htable.bit.symm.trans hbit
    have hlow : part.sb.dataStartLba ≤ lba := hfree'.low
    have htwo : part.HasFree 2 :=
      Partition.hasFree_of_two hfree (hfree'.of_mark hfree.low hne.symm) hne
    dsimp only
    simp only [ensures_bind]
    refine (ensures_assert (decide_eq_true (hpart'.subU32_ne hlba))).mpr ?_
    refine ensures_bitmapSync_dir hpart' hlba fun disk₂ hdisk₂ => ?_
    by_cases hlast : table ≤ maxLba ∧ lba ≤ maxLba
    · have honDisk : part.HasFreeOnDisk 2 := Partition.hasFreeOnDisk_of_two hfree hlast.1
        (hfree'.of_mark hfree.low hne.symm) hlast.2 hne
      rw [ensures_ideWrite_dir hlast.1, ensures_writeNewBlock hpart' hlast.2]
      have hdrop : DirInv disk part (inode.setSector directPtrs 0)
          (fun i => if i < directPtrs then ptr i else 0) (dropIndirect s)
          (lost + (boxItems (s directPtrs)).length) :=
        h.drop h.layout (fun _ hl => hl) fun _ _ => rfl
      have hempty : (inode.setSector directPtrs 0).iSectors directPtrs = 0 :=
        Function.update_self directPtrs 0 inode.iSectors
      have hsame : ((inode.setSector directPtrs 0).setSector directPtrs table) =
          inode.setSector directPtrs table := by
        unfold Inode.setSector
        dsimp only
        rw [Function.update_idem]
      have hdisk : ∀ l, part.Taken l → sectorOf (copy disk₂ (sectorSize * table)
          (indirectImage (Function.update allBlocks directPtrs lba)) 0 sectorSize) l =
          sectorOf disk l := fun l hl => by
        rw [sectorOf_copy_other (hl.ne hfree)]
        exact (hdisk₂ l hl.low).trans (hdisk₁ l hl.low)
      have hinv := hdrop.newTable he hempty hfree hlast.1 hfree' hlast.2 hdisk fun i hi =>
        readU32_indirectImage hzero hlast.2 hi
      rw [hsame] at hinv
      by_cases htab : inode.iSectors directPtrs = 0
      · have hnone : s directPtrs = none :=
          (h.dir.empty _ (by decide)).mp (h.dir.noTable htab _ le_rfl)
        rw [h.sound.dropIndirect_eq hnone, hnone, boxItems_none, List.length_nil, Nat.add_zero] at hinv
        refine .tableAdded hneed hnone hinv.withDir ⟨table, lba, fun l hl hl₁ hl₂ => ?_⟩ honDisk
        have hl' : (part.mark table true).Marked false l := hl.other hfree.low hl₁
        exact hl'.other hlow hl₂
      · have hold := h.tableUsed htab
        obtain ⟨b, hb⟩ := Option.ne_none_iff_exists'.mp hold
        obtain ⟨x, rfl⟩ := h.sound.single b hb
        rw [hb, boxItems_some, reduceOption_newBox, List.length_singleton] at hinv
        exact .replaced hneed hold htwo hinv.withDir honDisk
    · have hstops : env.stops := hok.resolve_right fun hdisk => by
        rw [hneed] at hdisk
        obtain ⟨l, hl, hle, -⟩ := (hdisk htwo).exists_ne lba
        obtain ⟨l', hl', hle', hne'⟩ := (hdisk htwo).exists_ne table
        exact hlast ⟨(hmin l hl).trans hle, (hmin' l' (hl'.other hfree.low hne')).trans hle'⟩
      by_cases htab : table ≤ maxLba
      · rw [ensures_ideWrite_dir htab]
        exact ensures_writeNewBlock_beyond hstops fun hle => hlast ⟨htab, hle⟩
      · refine ensures_of_wp hstops ?_
        rw [wp_ideWrite_one]
        exact fun hle => absurd hle htab

/-- The loop on a directory whose blocks before `blkI` are full. -/
theorem ensures_syncLoop {left fuel blkI : ℕ} {allBlocks : ℕ → ℕ} (hleft : blkI + left = directPtrs)
    (hfuel : left < fuel) (hblocks : ∀ i < directPtrs, allBlocks i = ptr i)
    (hzero : ∀ i, directPtrs ≤ i → allBlocks i = 0)
    (hfull : ∀ i < blkI, FullPlace (s i))
    (hneed : shelfNeeds s directPtrs 0 = shelfNeeds s left blkI) :
    (syncLoop t d e fuel blkI allBlocks false).ensures env
      (SyncResult (k.withDir d disk part inode) d s lost e) (k.withDir d disk part inode) := by
  obtain ⟨fuel, rfl⟩ := Nat.exists_eq_succ_of_ne_zero (Nat.ne_zero_of_lt hfuel)
  have hdir : directPtrs < flattenPtrs := by decide
  induction left generalizing fuel blkI with
  | zero =>
      rw [Nat.add_zero] at hleft
      rw [syncLoop, if_neg (by omega), if_pos (hzero _ hleft.ge), hleft]
      exact ensures_syncNewBlock_table h he hok hzero hneed
  | succ left ih =>
      have hlt : blkI < directPtrs := by omega
      have hin : blkI < flattenPtrs := hlt.trans hdir
      rw [shelfNeeds] at hneed
      rw [syncLoop, if_neg (by omega), hblocks blkI hlt]
      by_cases hptr : ptr blkI = 0
      · have hnone := (h.dir.empty blkI hin).mp hptr
        rw [hnone] at hneed
        rw [if_pos hptr]
        exact ensures_syncNewBlock_direct h he hok hlt hnone hfull hneed
      · obtain ⟨b, hb⟩ := Option.ne_none_iff_exists'.mp fun hnone =>
          hptr ((h.dir.empty blkI hin).mpr hnone)
        have hbox := h.dir.box blkI hin b hb
        have hper : (k.withDir d disk part inode).entriesPerSec = 21 := by
          rw [Kernel.entriesPerSec, Kernel.withDir_part, h.layout.entrySize]
          rfl
        rw [hb] at hneed
        rw [if_neg hptr, if_neg (by omega), ensures_bind, ensures_ideRead_one (h.dir.ptr_le hin),
          ensures_bind, ensures_read, hper, Kernel.withDir_disk]
        rcases hfind : (List.range 21).find? fun i =>
          entryType (sectorOf disk (ptr blkI)) (direntSize * i) = .unknown with _ | j
        · have hscan := hbox.free_none hfind
          simp only [mt hasFreeSlot_iff.mp hscan, if_false, Bool.false_eq_true] at hneed
          obtain ⟨fuel, rfl⟩ := Nat.exists_eq_succ_of_ne_zero (Nat.ne_zero_of_lt (Nat.lt_of_succ_lt_succ hfuel))
          refine ih (by omega) (fun i hi => ?_) hneed fuel (by omega)
          rcases Nat.lt_succ_iff_lt_or_eq.mp hi with hi | rfl
          · exact hfull i hi
          · exact ⟨b, hb, hscan⟩
        · obtain ⟨hj, hfree, hbefore⟩ := hbox.free_first hfind
          have hmem : none ∈ b := hfree ▸ List.getElem_mem hj
          simp only [hasFreeSlot_iff.mpr hmem, if_true] at hneed
          obtain ⟨hinv, hins⟩ := h.put he hlt hb hj hfree
          dsimp only
          rw [Kernel.withDir_part, h.layout.entrySize, ensures_bind,
            ensures_ideWrite_dir (h.dir.ptr_le hin), ensures_bind, ensures_modifyDirInode,
            ensures_pure]
          refine .added (by omega) hinv.withDir hins (Function.update_of_ne (by omega) _ _)
            (fun _ i => ?_) ⟨0, 0, ?_⟩ ?_ (by rw [hneed]; exact Partition.hasFreeOnDisk_zero _)
          · by_cases hi : i = blkI
            · rw [hi, Function.update_self, hb]
              exact iff_of_false (by simp) (by simp)
            · rw [Function.update_of_ne hi]
          · exact fun l hl _ _ => hl
          · refine placedFirst_of_place hin (fun i hi => Function.update_of_ne (by omega) _ _)
              (fun i hi => (hfull i hi).notMem) ?_
            rw [hb, Function.update_self]
            exact placedFirst_set hj hbefore e

end Sync

/-- What can come of `sync_dir_entry` on a directory that holds a sound shelf. -/
theorem ensures_syncDirEntry {k : Kernel} {d : ℕ} {ptr : ℕ → ℕ} {s : BoxRow DirEntry} {lost : ℕ}
    {e : DirEntry} {env : Env} {t : Transfer} (h : k.DirInv d ptr s lost) (he : e.Fits)
    (hok : MayPlace env k.part s) : (syncDirEntry t d e).ensures env (SyncResult k d s lost e) k := by
  have hsize : (k.dirInode d).iSize % k.part.sb.dirEntrySize = 0 := by
    rw [h.layout.entrySize, h.size, Nat.mul_mod_right]
  rw [syncDirEntry, ensures_bind, ensures_read]
  dsimp only
  rw [ensures_bind, ensures_assert (decide_eq_true hsize)]
  have hloop : ((syncLoop t d e (flattenPtrs + 2) 0
      (fun i => if i < directPtrs then (k.dirInode d).iSectors i else 0) false).ensures env
      (SyncResult (k.withDir d k.disk k.part (k.dirInode d)) d s lost e)
      (k.withDir d k.disk k.part (k.dirInode d))) :=
    ensures_syncLoop h he hok (Nat.zero_add _) (by decide)
      (fun i hi => by rw [if_pos hi, h.dir.direct i hi]) (fun i hi => if_neg (by omega))
      (fun i hi => absurd hi (Nat.not_lt_zero i)) rfl
  rwa [k.withDir_self] at hloop

end BochsOs
