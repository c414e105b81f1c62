import BochsOs.Library.NameTree
import BochsOs.Library.Words
import BochsOs.Fs.Format

/-!
# The directory tree on the disk

What the functions of `dir.c` and `fs.c` look at when they follow a path, as functions of
the state: the inode of a number (the open one, or else the one in the inode table), the
entries of a directory, and the first entry of a name.

`ConsistentTree` says when these make up a tree: every directory that is reached from the
root starts with `.` and `..`, and its other entries are free or name a file or directory,
each once.  Then the directories are a `NameTree`, and what a step to `.`, to `..` or to a
name finds on the disk is the step of that tree (`lookup_dot`, `lookup_dotDot`,
`lookup_name`).
-/

namespace BochsOs

open ByteMemory Suspend Suspend.Prog NameTrees Words

/-! ## Strings in memory -/

/-- A terminated string is equal to itself. -/
theorem strEq_stringAt {m : Bytes} {fuel a : ℕ} (hlen : (stringAt m fuel a).length < fuel) :
    strEq m a (stringAt m fuel a) = true := by
  induction fuel generalizing a with
  | zero => simp at hlen
  | succ fuel ih =>
      rw [stringAt] at hlen ⊢
      split
      next hzero => simpa [strEq] using hzero
      next hne =>
        rw [if_neg hne, List.length_cons] at hlen
        simp [strEq, ih (Nat.lt_of_succ_lt_succ hlen)]

theorem stringAt_of_strEq {m : Bytes} {fuel a : ℕ} {s : List UInt8} (hs : (0 : UInt8) ∉ s)
    (heq : strEq m a s = true) : stringAt m fuel a = s.take fuel := by
  induction fuel generalizing a s with
  | zero => rfl
  | succ fuel ih =>
      cases s with
      | nil =>
          have hzero : m a = 0 := by simpa [strEq] using heq
          rw [stringAt, if_pos hzero]
          rfl
      | cons c s =>
          simp only [strEq, Bool.and_eq_true, decide_eq_true_eq] at heq
          have hne : m a ≠ 0 := fun h => hs (by rw [← h, heq.1]; exact List.mem_cons_self)
          rw [stringAt, if_neg hne, ih (fun h => hs (List.mem_cons_of_mem c h)) heq.2, heq.1]
          rfl

/-! ## The entries of a directory -/

/-- An entry of a directory: a place in the buffer of its block. -/
structure Slot where
  buf : Bytes
  pos : ℕ

namespace Slot

variable (s : Slot)

/-- The `i_no` of the entry. -/
def iNo : ℕ := entryINo s.buf s.pos

/-- The `f_type` of the entry. -/
def fType : FileType := entryType s.buf s.pos

/-- The `filename` of the entry. -/
def name : List UInt8 := stringAt s.buf sectorSize s.pos

/-- The entry is called `name`. -/
def hasName (name : List UInt8) : Bool := strEq s.buf s.pos name

end Slot

/-- The slots of the block `lba`. -/
def blockSlots (disk : Bytes) (perSec lba : ℕ) : List Slot :=
  (List.range perSec).map fun i => ⟨sectorOf disk lba, direntSize * i⟩

/-- The slots of the blocks `blkI`, … of a directory. -/
def dirSlots (disk : Bytes) (perSec : ℕ) (allBlocks : ℕ → ℕ) : (left blkI : ℕ) → List Slot
  | 0, _ => []
  | left + 1, blkI =>
      (if allBlocks blkI = 0 then [] else blockSlots disk perSec (allBlocks blkI)) ++
        dirSlots disk perSec allBlocks left (blkI + 1)

/-- The slots of empty pointers are none. -/
theorem dirSlots_zero {disk : Bytes} {perSec : ℕ} {allBlocks : ℕ → ℕ} {left blkI : ℕ}
    (hzero : ∀ i, blkI ≤ i → allBlocks i = 0) : dirSlots disk perSec allBlocks left blkI = [] := by
  induction left generalizing blkI with
  | zero => rfl
  | succ left ih =>
      rw [dirSlots, if_pos (hzero blkI le_rfl), List.nil_append]
      exact ih fun i hi => hzero i (by omega)

theorem dirSlots_add {disk : Bytes} {perSec : ℕ} {allBlocks : ℕ → ℕ} {left left' blkI : ℕ} :
    dirSlots disk perSec allBlocks (left + left') blkI =
      dirSlots disk perSec allBlocks left blkI ++
        dirSlots disk perSec allBlocks left' (blkI + left) := by
  induction left generalizing blkI with
  | zero => simp [dirSlots]
  | succ left ih =>
      rw [Nat.succ_add, dirSlots, dirSlots, ih, List.append_assoc,
        show blkI + 1 + left = blkI + (left + 1) by omega]

/-- A name of ordinary length belongs to just the slots that hold it. -/
theorem Slot.hasName_iff {s : Slot} {w : List UInt8} (hs : s.name.length < sectorSize)
    (hw : (0 : UInt8) ∉ w) : s.hasName w = true ↔ s.name = w := by
  constructor
  · intro heq
    have htake : s.name = w.take sectorSize := stringAt_of_strEq hw heq
    rw [htake, List.length_take] at hs
    rw [htake, List.take_of_length_le (by omega)]
  · rintro rfl
    exact strEq_stringAt hs

/-! ## What a number and a name stand for -/

namespace Kernel

variable (t : Transfer) (k : Kernel)

/-- The inode of a number in the inode table, as `inode_open` reads it. -/
def diskInode (n : ℕ) : Inode :=
  inodeAt (t.sectors k.disk (inodePosition k.part.sb n).secLba zeroBuf 0
    (inodePosition k.part.sb n).secs) (inodePosition k.part.sb n).offSize

/-- The inode of a number: the open one, or else the one in the inode table. -/
def inodeOf (n : ℕ) : Inode :=
  match k.findOpen n with
  | some a => k.inodes a
  | none => k.diskInode t n

/-- The block pointers of an inode. -/
def blocks (iSectors : ℕ → ℕ) : ℕ → ℕ :=
  flattenBlocks iSectors
    (if iSectors directPtrs = 0 then zeroBuf else sectorOf k.disk (iSectors directPtrs))

/-- The slots behind block pointers. -/
def slotsOf (iSectors : ℕ → ℕ) : List Slot :=
  dirSlots k.disk k.entriesPerSec (k.blocks iSectors) flattenPtrs 0

/-- The slots of a directory. -/
def slots (n : ℕ) : List Slot := k.slotsOf (k.inodeOf t n).iSectors

/-- The slots of a directory after `.` and `..`. -/
def entries (n : ℕ) : List Slot := (k.slots t n).drop 2

/-- The first block of a directory. -/
def firstBlock (n : ℕ) : Bytes := sectorOf k.disk ((k.inodeOf t n).iSectors 0)

/-- The slot `i` of the first block of a directory. -/
def firstSlot (n i : ℕ) : Slot := ⟨k.firstBlock t n, direntSize * i⟩

/-- The number in the entry `..`. -/
def parentOf (n : ℕ) : ℕ := (k.firstSlot t n 1).iNo

/-- What a name stands for in a directory. -/
def lookup (n : ℕ) (name : List UInt8) : Option (ℕ × FileType) :=
  ((k.slots t n).find? (·.hasName name)).map fun s => (s.iNo, s.fType)

/-- The directory of a name. -/
def subdir (n : ℕ) (name : List UInt8) : Option ℕ :=
  match k.lookup t n name with
  | some (m, .directory) => some m
  | _ => none

/-- A directory that is reached from the root. -/
def IsDir (n : ℕ) : Prop := ∃ ws, walk (k.subdir t) 0 ws = some n

end Kernel

/-! ## Consistent trees -/

/-- A name that a file or directory can have. -/
structure IsName (w : List UInt8) : Prop where
  isWord : IsWord slash w
  zero : (0 : UInt8) ∉ w
  dot : w ≠ dotName
  dotDot : w ≠ dotDotName

/-- A slot without an entry. -/
structure Slot.Free (s : Slot) : Prop where
  name : s.name = []
  iNo : s.iNo = 0
  fType : s.fType = .unknown

/-- A slot with the entry of a file or directory. -/
structure Slot.Used (s : Slot) : Prop where
  name : IsName s.name
  length : s.name.length < maxFileNameLen
  pos : 0 < s.iNo
  small : s.iNo < maxFilesPerPart
  fType : s.fType = .regular ∨ s.fType = .directory

/-- A slot with one of the entries `.` and `..`. -/
structure Slot.Dots (s : Slot) (name : List UInt8) (n : ℕ) : Prop where
  name : s.name = name
  iNo : s.iNo = n
  fType : s.fType = .directory

/-- The directory `n` is well formed. -/
structure Kernel.DirOk (t : Transfer) (k : Kernel) (n : ℕ) : Prop where
  small : n < maxFilesPerPart
  iNo : (k.inodeOf t n).iNo = n
  first : (k.inodeOf t n).iSectors 0 ≠ 0
  firstLba : k.part.sb.dataStartLba ≤ (k.inodeOf t n).iSectors 0
  table : (k.inodeOf t n).iSectors directPtrs ≤ maxLba
  blocks : ∀ i < flattenPtrs, k.blocks (k.inodeOf t n).iSectors i ≤ maxLba
  dot : (k.firstSlot t n 0).Dots dotName n
  dotDot : (k.firstSlot t n 1).Dots dotDotName (k.parentOf t n)
  entry : ∀ s ∈ k.entries t n, s.Free ∨ s.Used
  /-- No file or directory has two names. -/
  name_unique : ∀ s ∈ k.entries t n, ∀ s' ∈ k.entries t n, s.iNo ≠ 0 → s.iNo = s'.iNo →
    s.name = s'.name

/-- The list of open inodes, the table of open files and the handle of the root are sound. -/
structure Kernel.CacheOk (k : Kernel) : Prop where
  counts : ∀ a ∈ k.openInodes, 0 < (k.inodes a).iOpenCnts
  fresh : ∀ a ∈ k.openInodes, a < k.nextInode
  files : ∀ fd < maxFileOpen, ∀ a ∈ (k.fileTable fd).fdInode, a < k.nextInode
  freshDir : rootDir < k.nextDir
  root : k.findOpen 0 = some (k.dirs rootDir).inode
  entrySize : k.part.sb.dirEntrySize = direntSize
  inodeTable : k.part.sb.inodeTableLba + inodeTableSects ≤ maxLba + 1

/-- The directories reached from the root are a tree. -/
structure ConsistentTree (t : Transfer) (k : Kernel) : Prop where
  cache : k.CacheOk
  dir : ∀ n, k.IsDir t n → k.DirOk t n
  up_root : k.parentOf t 0 = 0
  up : ∀ n, k.IsDir t n → ∀ s ∈ k.entries t n, s.fType = .directory → k.parentOf t s.iNo = n
  iNo : ∀ n, k.IsDir t n → ∀ s ∈ k.entries t n, s.iNo ≠ 0 → (k.inodeOf t s.iNo).iNo = s.iNo

/-! ## Checking a tree -/

instance (w : List UInt8) : Decidable (IsName w) :=
  decidable_of_iff (IsWord slash w ∧ (0 : UInt8) ∉ w ∧ w ≠ dotName ∧ w ≠ dotDotName)
    ⟨fun ⟨h₁, h₂, h₃, h₄⟩ => ⟨h₁, h₂, h₃, h₄⟩, fun h => ⟨h.isWord, h.zero, h.dot, h.dotDot⟩⟩

instance (s : Slot) : Decidable s.Free :=
  decidable_of_iff (s.name = [] ∧ s.iNo = 0 ∧ s.fType = .unknown)
    ⟨fun ⟨h₁, h₂, h₃⟩ => ⟨h₁, h₂, h₃⟩, fun h => ⟨h.name, h.iNo, h.fType⟩⟩

instance (s : Slot) : Decidable s.Used :=
  decidable_of_iff (IsName s.name ∧ s.name.length < maxFileNameLen ∧ 0 < s.iNo ∧
      s.iNo < maxFilesPerPart ∧ (s.fType = .regular ∨ s.fType = .directory))
    ⟨fun ⟨h₁, h₂, h₃, h₄, h₅⟩ => ⟨h₁, h₂, h₃, h₄, h₅⟩,
      fun h => ⟨h.name, h.length, h.pos, h.small, h.fType⟩⟩

instance (s : Slot) (name : List UInt8) (n : ℕ) : Decidable (s.Dots name n) :=
  decidable_of_iff (s.name = name ∧ s.iNo = n ∧ s.fType = .directory)
    ⟨fun ⟨h₁, h₂, h₃⟩ => ⟨h₁, h₂, h₃⟩, fun h => ⟨h.name, h.iNo, h.fType⟩⟩

instance (t : Transfer) (k : Kernel) (n : ℕ) : Decidable (k.DirOk t n) :=
  decidable_of_iff
    (n < maxFilesPerPart ∧ (k.inodeOf t n).iNo = n ∧ (k.inodeOf t n).iSectors 0 ≠ 0 ∧
      k.part.sb.dataStartLba ≤ (k.inodeOf t n).iSectors 0 ∧
      (k.inodeOf t n).iSectors directPtrs ≤ maxLba ∧
      (∀ i < flattenPtrs, k.blocks (k.inodeOf t n).iSectors i ≤ maxLba) ∧
      (k.firstSlot t n 0).Dots dotName n ∧ (k.firstSlot t n 1).Dots dotDotName (k.parentOf t n) ∧
      (∀ s ∈ k.entries t n, s.Free ∨ s.Used) ∧
      ∀ s ∈ k.entries t n, ∀ s' ∈ k.entries t n, s.iNo ≠ 0 → s.iNo = s'.iNo → s.name = s'.name)
    ⟨fun ⟨h₁, h₂, h₃, h₄, h₅, h₆, h₇, h₈, h₉, h₁₀⟩ => ⟨h₁, h₂, h₃, h₄, h₅, h₆, h₇, h₈, h₉, h₁₀⟩,
      fun h => ⟨h.small, h.iNo, h.first, h.firstLba, h.table, h.blocks, h.dot, h.dotDot, h.entry,
        h.name_unique⟩⟩

instance (k : Kernel) : Decidable k.CacheOk :=
  decidable_of_iff
    ((∀ a ∈ k.openInodes, 0 < (k.inodes a).iOpenCnts) ∧ (∀ a ∈ k.openInodes, a < k.nextInode) ∧
      (∀ fd < maxFileOpen, ∀ a ∈ (k.fileTable fd).fdInode, a < k.nextInode) ∧
      rootDir < k.nextDir ∧ k.findOpen 0 = some (k.dirs rootDir).inode ∧
      k.part.sb.dirEntrySize = direntSize ∧
      k.part.sb.inodeTableLba + inodeTableSects ≤ maxLba + 1)
    ⟨fun ⟨h₁, h₂, h₃, h₄, h₅, h₆, h₇⟩ => ⟨h₁, h₂, h₃, h₄, h₅, h₆, h₇⟩,
      fun h => ⟨h.counts, h.fresh, h.files, h.freshDir, h.root, h.entrySize, h.inodeTable⟩⟩

/-- A tree is consistent if a list of directories is, which has the root and all
directories found in them. -/
theorem ConsistentTree.of_list {t : Transfer} {k : Kernel} (hcache : k.CacheOk) (dirs : List ℕ)
    (hroot : 0 ∈ dirs) (hdir : ∀ n ∈ dirs, k.DirOk t n) (hup_root : k.parentOf t 0 = 0)
    (hup : ∀ n ∈ dirs, ∀ s ∈ k.entries t n, s.fType = .directory → k.parentOf t s.iNo = n)
    (hiNo : ∀ n ∈ dirs, ∀ s ∈ k.entries t n, s.iNo ≠ 0 → (k.inodeOf t s.iNo).iNo = s.iNo)
    (hclosed : ∀ n ∈ dirs, ∀ s ∈ k.slots t n, s.fType = .directory → s.iNo ∈ dirs) :
    ConsistentTree t k := by
  have hmem : ∀ n, k.IsDir t n → n ∈ dirs := by
    rintro n ⟨ws, hws⟩
    induction ws using List.reverseRecOn generalizing n with
    | nil =>
        cases hws
        exact hroot
    | append_singleton ws w ih =>
        obtain ⟨p, hp, hsub⟩ := walk_snoc.mp hws
        unfold Kernel.subdir Kernel.lookup at hsub
        rcases hfind : (k.slots t p).find? (·.hasName w) with _ | s
        · rw [hfind] at hsub
          cases hsub
        · rw [hfind, Option.map_some] at hsub
          split at hsub
          next m heq =>
            rw [Option.some.injEq, Prod.mk.injEq] at heq
            rw [Option.some.injEq] at hsub
            rw [← hsub, ← heq.1]
            exact hclosed p (ih p hp) s (List.mem_of_find?_eq_some hfind) heq.2
          next => cases hsub
  exact ⟨hcache, fun n hn => hdir n (hmem n hn), hup_root, fun n hn => hup n (hmem n hn),
    fun n hn => hiNo n (hmem n hn)⟩

/-! ## States with the same directories -/

/-- The inodes differ in their open counts only. -/
structure Inode.SameContent (inode inode' : Inode) : Prop where
  iNo : inode'.iNo = inode.iNo
  iSize : inode'.iSize = inode.iSize
  writeDeny : inode'.writeDeny = inode.writeDeny
  iSectors : inode'.iSectors = inode.iSectors

theorem Inode.SameContent.refl (inode : Inode) : inode.SameContent inode := ⟨rfl, rfl, rfl, rfl⟩

theorem Inode.sameContent_count (inode : Inode) (n : ℕ) :
    inode.SameContent { inode with iOpenCnts := n } := ⟨rfl, rfl, rfl, rfl⟩

theorem Inode.SameContent.symm {inode inode' : Inode} (h : inode.SameContent inode') :
    inode'.SameContent inode :=
  ⟨h.iNo.symm, h.iSize.symm, h.writeDeny.symm, h.iSectors.symm⟩

theorem Inode.SameContent.trans {inode inode' inode'' : Inode} (h : inode.SameContent inode')
    (h' : inode'.SameContent inode'') : inode.SameContent inode'' :=
  ⟨h'.iNo.trans h.iNo, h'.iSize.trans h.iSize, h'.writeDeny.trans h.writeDeny,
    h'.iSectors.trans h.iSectors⟩

/-- Two states with the same directories. -/
structure SameTree (t : Transfer) (k k' : Kernel) : Prop where
  disk : k'.disk = k.disk
  part : k'.part = k.part
  inodeOf : ∀ n, (k.inodeOf t n).SameContent (k'.inodeOf t n)

namespace SameTree

variable {t : Transfer} {k k' : Kernel} (h : SameTree t k k')

include h

theorem iSectors (n : ℕ) : (k'.inodeOf t n).iSectors = (k.inodeOf t n).iSectors :=
  (h.inodeOf n).iSectors

theorem firstSlot (n i : ℕ) : k'.firstSlot t n i = k.firstSlot t n i := by
  rw [Kernel.firstSlot, Kernel.firstSlot, Kernel.firstBlock, Kernel.firstBlock, h.disk, h.iSectors]

theorem parentOf (n : ℕ) : k'.parentOf t n = k.parentOf t n := by
  rw [Kernel.parentOf, Kernel.parentOf, h.firstSlot]

theorem blocks (iSectors : ℕ → ℕ) : k'.blocks iSectors = k.blocks iSectors := by
  rw [Kernel.blocks, Kernel.blocks, h.disk]

theorem slots (n : ℕ) : k'.slots t n = k.slots t n := by
  rw [Kernel.slots, Kernel.slots, Kernel.slotsOf, Kernel.slotsOf, h.blocks, h.iSectors, h.disk,
    Kernel.entriesPerSec, Kernel.entriesPerSec, h.part]

theorem entries (n : ℕ) : k'.entries t n = k.entries t n := by
  rw [Kernel.entries, Kernel.entries, h.slots]

theorem lookup (n : ℕ) (name : List UInt8) : k'.lookup t n name = k.lookup t n name := by
  rw [Kernel.lookup, Kernel.lookup, h.slots]

theorem subdir : k'.subdir t = k.subdir t := by
  funext n name
  rw [Kernel.subdir, Kernel.subdir, h.lookup]

theorem isDir_iff (n : ℕ) : k'.IsDir t n ↔ k.IsDir t n := by
  rw [Kernel.IsDir, Kernel.IsDir, h.subdir]

theorem dirOk {n : ℕ} (hn : k.DirOk t n) : k'.DirOk t n where
  small := hn.small
  iNo := (h.inodeOf n).iNo.trans hn.iNo
  first := by
    rw [h.iSectors]
    exact hn.first
  firstLba := by
    rw [h.iSectors, h.part]
    exact hn.firstLba
  table := by
    rw [h.iSectors]
    exact hn.table
  blocks := by
    rw [h.iSectors, h.blocks]
    exact hn.blocks
  dot := by
    rw [h.firstSlot]
    exact hn.dot
  dotDot := by
    rw [h.firstSlot, h.parentOf]
    exact hn.dotDot
  entry := by
    rw [h.entries]
    exact hn.entry
  name_unique := by
    rw [h.entries]
    exact hn.name_unique

end SameTree

theorem ConsistentTree.of_sameTree {t : Transfer} {k k' : Kernel} (hk : ConsistentTree t k)
    (h : SameTree t k k') (hcache : k'.CacheOk) : ConsistentTree t k' where
  cache := hcache
  dir n hn := h.dirOk (hk.dir n ((h.isDir_iff n).mp hn))
  up_root := by
    rw [h.parentOf]
    exact hk.up_root
  up n hn s hs hdir := by
    rw [h.entries] at hs
    rw [h.parentOf]
    exact hk.up n ((h.isDir_iff n).mp hn) s hs hdir
  iNo n hn s hs hpos := by
    rw [h.entries] at hs
    exact (h.inodeOf _).iNo.trans (hk.iNo n ((h.isDir_iff n).mp hn) s hs hpos)

/-! ## What the names stand for -/

theorem Slot.Free.length {s : Slot} (hs : s.Free) : s.name.length < sectorSize := by
  rw [hs.name]
  decide

theorem Slot.Used.length_lt {s : Slot} (hs : s.Used) : s.name.length < sectorSize := by
  have := hs.length
  unfold maxFileNameLen at this
  unfold sectorSize
  omega

theorem Slot.Dots.hasName_iff {s : Slot} {name w : List UInt8} {n : ℕ} (hs : s.Dots name n)
    (hname : name.length < sectorSize) (hw : (0 : UInt8) ∉ w) : s.hasName w = true ↔ name = w := by
  rw [s.hasName_iff (by rwa [hs.name]) hw, hs.name]

section Dir

variable {t : Transfer} {k : Kernel} {n : ℕ}

theorem Kernel.CacheOk.entriesPerSec (hk : k.CacheOk) : k.entriesPerSec = 21 := by
  rw [Kernel.entriesPerSec, hk.entrySize]
  rfl

/-- The slots of a directory: `.`, `..` and the entries. -/
theorem Kernel.DirOk.slots_eq (hn : k.DirOk t n) (hk : k.CacheOk) :
    k.slots t n = k.firstSlot t n 0 :: k.firstSlot t n 1 :: k.entries t n := by
  have hfirst : k.blocks (k.inodeOf t n).iSectors 0 = (k.inodeOf t n).iSectors 0 :=
    by rw [Kernel.blocks, flattenBlocks, if_pos (show 0 < directPtrs by decide)]
  have hhead : ∃ l, k.slots t n = k.firstSlot t n 0 :: k.firstSlot t n 1 :: l := by
    rw [Kernel.slots, Kernel.slotsOf, show flattenPtrs = 139 + 1 from rfl, dirSlots, hfirst,
      if_neg hn.first, hk.entriesPerSec]
    exact ⟨_, rfl⟩
  obtain ⟨l, hl⟩ := hhead
  have hentries : k.entries t n = l := by
    rw [Kernel.entries, hl]
    rfl
  rw [hl, hentries]

theorem Kernel.DirOk.lookup_dot (hn : k.DirOk t n) (hk : k.CacheOk) :
    k.lookup t n dotName = some (n, .directory) := by
  have hdot : (k.firstSlot t n 0).hasName dotName = true :=
    (hn.dot.hasName_iff (by decide) (by decide)).mpr rfl
  rw [Kernel.lookup, hn.slots_eq hk,
    List.find?_cons_of_pos (p := fun s : Slot => s.hasName dotName) hdot, Option.map_some, hn.dot.iNo,
    hn.dot.fType]

theorem Kernel.DirOk.lookup_dotDot (hn : k.DirOk t n) (hk : k.CacheOk) :
    k.lookup t n dotDotName = some (k.parentOf t n, .directory) := by
  have hdot : ¬ (k.firstSlot t n 0).hasName dotDotName = true := by
    rw [hn.dot.hasName_iff (by decide) (by decide)]
    decide
  have hdotDot : (k.firstSlot t n 1).hasName dotDotName = true :=
    (hn.dotDot.hasName_iff (by decide) (by decide)).mpr rfl
  rw [Kernel.lookup, hn.slots_eq hk,
    List.find?_cons_of_neg (p := fun s : Slot => s.hasName dotDotName) hdot,
    List.find?_cons_of_pos (p := fun s : Slot => s.hasName dotDotName) hdotDot, Option.map_some, hn.dotDot.iNo, hn.dotDot.fType]

/-- What a name that is neither `.` nor `..` stands for is one of the entries. -/
theorem Kernel.DirOk.lookup_name (hn : k.DirOk t n) (hk : k.CacheOk) {w : List UInt8}
    (hw : IsName w) {m : ℕ} {ty : FileType} (hlookup : k.lookup t n w = some (m, ty)) :
    ∃ s ∈ k.entries t n, s.Used ∧ s.name = w ∧ s.iNo = m ∧ s.fType = ty := by
  have hdot : ¬ (k.firstSlot t n 0).hasName w = true := by
    rw [hn.dot.hasName_iff (by decide) hw.zero]
    exact hw.dot.symm
  have hdotDot : ¬ (k.firstSlot t n 1).hasName w = true := by
    rw [hn.dotDot.hasName_iff (by decide) hw.zero]
    exact hw.dotDot.symm
  rw [Kernel.lookup, hn.slots_eq hk, List.find?_cons_of_neg (p := fun s : Slot => s.hasName w) hdot,
    List.find?_cons_of_neg (p := fun s : Slot => s.hasName w) hdotDot, Option.map_eq_some_iff] at hlookup
  obtain ⟨s, hfind, heq⟩ := hlookup
  rw [Prod.mk.injEq] at heq
  have hmem := List.mem_of_find?_eq_some hfind
  have hname := List.find?_some hfind
  rcases hn.entry s hmem with hfree | hused
  · rw [s.hasName_iff hfree.length hw.zero, hfree.name] at hname
    exact absurd hname.symm hw.isWord.1
  · rw [s.hasName_iff hused.length_lt hw.zero] at hname
    exact ⟨s, hmem, hused, hname, heq.1, heq.2⟩

/-- Every name that is found in a directory is that of a file or directory. -/
theorem Kernel.DirOk.lookup_type (hn : k.DirOk t n) (hk : k.CacheOk) {w : List UInt8}
    (hw : IsWord slash w) (hzero : (0 : UInt8) ∉ w) {m : ℕ} {ty : FileType}
    (hlookup : k.lookup t n w = some (m, ty)) : ty = .regular ∨ ty = .directory := by
  by_cases hdot : w = dotName
  · rw [hdot, hn.lookup_dot hk] at hlookup
    cases hlookup
    exact Or.inr rfl
  by_cases hdotDot : w = dotDotName
  · rw [hdotDot, hn.lookup_dotDot hk] at hlookup
    cases hlookup
    exact Or.inr rfl
  obtain ⟨s, -, hused, -, -, hty⟩ := hn.lookup_name hk ⟨hw, hzero, hdot, hdotDot⟩ hlookup
  rw [← hty]
  exact hused.fType

theorem Kernel.subdir_eq_some {w : List UInt8} {m : ℕ} :
    k.subdir t n w = some m ↔ k.lookup t n w = some (m, .directory) := by
  unfold Kernel.subdir
  split
  next m' h => simp [h]
  next h =>
    constructor
    · intro hm
      cases hm
    · intro hm
      exact absurd hm (h m)

end Dir

/-! ## The tree of names -/

open Classical in
/-- The directory of a name other than `.` and `..`. -/
noncomputable def Kernel.namedChild (t : Transfer) (k : Kernel) (n : ℕ) (w : List UInt8) : Option ℕ :=
  if IsName w then k.subdir t n w else none

theorem Kernel.namedChild_eq_some {t : Transfer} {k : Kernel} {n m : ℕ} {w : List UInt8} :
    k.namedChild t n w = some m ↔ IsName w ∧ k.lookup t n w = some (m, .directory) := by
  unfold Kernel.namedChild
  split
  next hw => rw [Kernel.subdir_eq_some, and_iff_right hw]
  next hw =>
    constructor
    · intro h
      cases h
    · rintro ⟨h, -⟩
      exact absurd h hw

theorem isName_of_walk {t : Transfer} {k : Kernel} {n m : ℕ} {ws : List (List UInt8)}
    (hwalk : walk (k.namedChild t) n ws = some m) : ∀ w ∈ ws, IsName w := by
  induction ws generalizing n with
  | nil => simp
  | cons w ws ih =>
      rw [walk_cons, Option.bind_eq_some_iff] at hwalk
      obtain ⟨p, hp, hwalk⟩ := hwalk
      intro v hv
      rcases List.mem_cons.mp hv with rfl | hv
      · exact (Kernel.namedChild_eq_some.mp hp).1
      · exact ih hwalk v hv

/-- A walk by names that directories can have is a walk on the disk. -/
theorem walk_subdir_of_namedChild {t : Transfer} {k : Kernel} {n m : ℕ} {ws : List (List UInt8)}
    (hwalk : walk (k.namedChild t) n ws = some m) : walk (k.subdir t) n ws = some m := by
  induction ws generalizing n with
  | nil => exact hwalk
  | cons w ws ih =>
      rw [walk_cons, Option.bind_eq_some_iff] at hwalk ⊢
      obtain ⟨p, hp, hwalk⟩ := hwalk
      exact ⟨p, Kernel.subdir_eq_some.mpr (Kernel.namedChild_eq_some.mp hp).2, ih hwalk⟩

theorem walk_namedChild_of_subdir {t : Transfer} {k : Kernel} {n m : ℕ} {ws : List (List UInt8)}
    (hws : ∀ w ∈ ws, IsName w) (hwalk : walk (k.subdir t) n ws = some m) :
    walk (k.namedChild t) n ws = some m := by
  induction ws generalizing n with
  | nil => exact hwalk
  | cons w ws ih =>
      rw [walk_cons, Option.bind_eq_some_iff] at hwalk ⊢
      obtain ⟨p, hp, hwalk⟩ := hwalk
      have hname := hws w List.mem_cons_self
      exact ⟨p, Kernel.namedChild_eq_some.mpr ⟨hname, Kernel.subdir_eq_some.mp hp⟩,
        ih (fun v hv => hws v (List.mem_cons_of_mem w hv)) hwalk⟩

namespace ConsistentTree

variable {t : Transfer} {k : Kernel} (hk : ConsistentTree t k)

include hk

theorem dirOk_of_walk {ws : List (List UInt8)} {n : ℕ}
    (hwalk : walk (k.namedChild t) 0 ws = some n) : k.DirOk t n :=
  hk.dir n ⟨ws, walk_subdir_of_namedChild hwalk⟩

omit hk

/-- The directories of a consistent tree as a tree of names. -/
noncomputable def nameTree (hk : ConsistentTree t k) : NameTree ℕ (List UInt8) where
  root := 0
  child := k.namedChild t
  parent := k.parentOf t
  parent_root := hk.up_root
  parent_child := by
    intro ws n w m hwalk hchild
    obtain ⟨hw, hlookup⟩ := Kernel.namedChild_eq_some.mp hchild
    obtain ⟨s, hs, -, -, hm, hty⟩ := (hk.dirOk_of_walk hwalk).lookup_name hk.cache hw hlookup
    rw [← hm]
    exact hk.up n ⟨ws, walk_subdir_of_namedChild hwalk⟩ s hs hty
  child_ne_root := by
    intro ws n w m hwalk hchild
    obtain ⟨hw, hlookup⟩ := Kernel.namedChild_eq_some.mp hchild
    obtain ⟨s, -, hused, -, hm, -⟩ := (hk.dirOk_of_walk hwalk).lookup_name hk.cache hw hlookup
    rw [← hm]
    exact Nat.pos_iff_ne_zero.mp hused.pos
  child_inj := by
    intro ws n w w' m hwalk hchild hchild'
    have hn := hk.dirOk_of_walk hwalk
    obtain ⟨hw, hlookup⟩ := Kernel.namedChild_eq_some.mp hchild
    obtain ⟨hw', hlookup'⟩ := Kernel.namedChild_eq_some.mp hchild'
    obtain ⟨s, hs, hused, hname, hm, -⟩ := hn.lookup_name hk.cache hw hlookup
    obtain ⟨s', hs', -, hname', hm', -⟩ := hn.lookup_name hk.cache hw' hlookup'
    rw [← hname, ← hname']
    exact hn.name_unique s hs s' hs' (Nat.pos_iff_ne_zero.mp hused.pos) (hm.trans hm'.symm)

end ConsistentTree

end BochsOs
