import BochsOs.Library.Unwinding
import BochsOs.Fs.DirBlocks
import BochsOs.Fs.Format
import BochsOs.Fs.OpenFiles

/-!
# Directory handles

Processes open directories, read their entries one by one and rewind them.  A handle from
`dir_open` is a fresh `struct dir` with its own position.  For the path `/`, however,
`sys_opendir` returns the address of the static `root_dir`, with the position that the
last reader left there.

`handles_independent` says for every session when two handles are independent and when a
handle starts at the first entry; `root_handles_interfere` is a session with two handles
of a root directory that holds one file.
-/

namespace BochsOs

open ByteMemory Suspend Suspend.Prog Runs Unwinding

/-! ## Reading a directory as a function -/

/-- The entry loop of `dir_read`, `none` where its `ASSERT` fails. -/
def scanBlock (buf : Bytes) (entrySize dirPos : ℕ) : (left i pos : ℕ) → Option (ℕ ⊕ ℕ)
  | 0, _, pos => some (.inl pos)
  | left + 1, i, pos =>
      if entryType buf (direntSize * i) = .unknown then scanBlock buf entrySize dirPos left (i + 1) pos
      else if pos < dirPos then scanBlock buf entrySize dirPos left (i + 1) (pos + entrySize)
      else if pos = dirPos then some (.inr i) else none

theorem wp_readEntries {buf : Bytes} {entrySize dirPos left i pos : ℕ}
    {Q : ℕ ⊕ ℕ → Kernel → Prop} {k : Kernel} :
    (readEntries buf entrySize dirPos left i pos).wp Q k ↔
      ∀ r, scanBlock buf entrySize dirPos left i pos = some r → Q r k := by
  induction left generalizing i pos with
  | zero => simp [readEntries, scanBlock]
  | succ left ih =>
      unfold readEntries scanBlock
      split
      · exact ih
      split
      · exact ih
      simp only [wp_bind, wp_assert, wp_pure, decide_eq_true_eq]
      split
      next hpos => simp [hpos]
      next hpos => simp [hpos]

/-- The blocks loop of `dir_read` as a function of the disk, the inode and the position:
the entry and the position after it. -/
def scanBlocks (disk : Bytes) (sb : SuperBlock) (iSize dirPos : ℕ) (allBlocks : ℕ → ℕ)
    (blockCnt : ℕ) : (fuel blkI pos : ℕ) → Option (Option (Bytes × ℕ) × ℕ)
  | 0, _, _ => some (none, dirPos)
  | fuel + 1, blkI, pos =>
      if blockCnt ≤ blkI then some (none, dirPos)
      else if iSize ≤ dirPos then some (none, dirPos)
      else if allBlocks blkI = 0 then
        scanBlocks disk sb iSize dirPos allBlocks blockCnt fuel (blkI + 2) pos
      else if maxLba < allBlocks blkI then none
      else
        let buf := sectorOf disk (allBlocks blkI)
        match scanBlock buf sb.dirEntrySize dirPos (sectorSize / sb.dirEntrySize) 0 pos with
        | none => none
        | some (.inl pos) => scanBlocks disk sb iSize dirPos allBlocks blockCnt fuel (blkI + 1) pos
        | some (.inr i) => some (some (buf, direntSize * i), dirPos + sb.dirEntrySize)

/-- The state with another position of a handle. -/
def Kernel.setDirPos (k : Kernel) (dir pos : ℕ) : Kernel :=
  { k with dirs := Function.update k.dirs dir ⟨(k.dirs dir).inode, pos⟩ }

theorem Kernel.setDirPos_self (k : Kernel) (dir : ℕ) : k.setDirPos dir (k.dirs dir).dirPos = k := by
  unfold Kernel.setDirPos
  rw [Function.update_eq_self_iff.mpr rfl]

theorem wp_readLoop {t : Transfer} {dir : ℕ} {allBlocks : ℕ → ℕ} {blockCnt fuel blkI pos : ℕ}
    {Q : Option (Bytes × ℕ) → Kernel → Prop} {k : Kernel} :
    (readLoop t dir allBlocks blockCnt fuel blkI pos).wp Q k ↔
      ∀ r p, scanBlocks k.disk k.part.sb (k.dirInode dir).iSize (k.dirs dir).dirPos allBlocks
        blockCnt fuel blkI pos = some (r, p) → Q r (k.setDirPos dir p) := by
  have hnone : ∀ Q : Option (Bytes × ℕ) → Kernel → Prop, Q none k ↔
      ∀ r p, some ((none : Option (Bytes × ℕ)), (k.dirs dir).dirPos) = some (r, p) →
        Q r (k.setDirPos dir p) := by
    intro Q
    constructor
    · rintro h r p ⟨rfl, rfl⟩
      rwa [k.setDirPos_self]
    · intro h
      have := h none _ rfl
      rwa [k.setDirPos_self] at this
  induction fuel generalizing blkI pos with
  | zero => exact hnone Q
  | succ fuel ih =>
      unfold readLoop scanBlocks
      simp only [wp_bind, wp_read]
      split
      · exact hnone Q
      split
      · exact hnone Q
      split
      · exact ih
      simp only [wp_bind, wp_read, wp_ideRead_one, wp_readEntries]
      by_cases hlba : maxLba < allBlocks blkI
      · rw [if_pos hlba]
        simp [Nat.not_le.mpr hlba]
      · rw [if_neg hlba, imp_iff_right (Nat.not_lt.mp hlba)]
        change (∀ r, scanBlock (sectorOf k.disk (allBlocks blkI)) k.part.sb.dirEntrySize
          (k.dirs dir).dirPos (sectorSize / k.part.sb.dirEntrySize) 0 pos = some r → _) ↔ _
        rcases scanBlock (sectorOf k.disk (allBlocks blkI)) k.part.sb.dirEntrySize
          (k.dirs dir).dirPos (sectorSize / k.part.sb.dirEntrySize) 0 pos with _ | ⟨pos' | i⟩
        · simp
        · simp only [Option.some.injEq, forall_eq']
          exact ih
        · simp only [Option.some.injEq, forall_eq', Prod.mk.injEq, and_imp]
          constructor
          · rintro h r p rfl rfl
            exact h
          · intro h
            exact h _ _ rfl rfl

/-- `dir_read` as a function of the disk, the inode and the position. -/
def scanDir (disk : Bytes) (sb : SuperBlock) (inode : Inode) (dirPos : ℕ) :
    Option (Option (Bytes × ℕ) × ℕ) :=
  if inode.iSectors directPtrs = 0 then
    scanBlocks disk sb inode.iSize dirPos (flattenBlocks inode.iSectors zeroBuf) directPtrs
      flattenPtrs 0 0
  else if maxLba < inode.iSectors directPtrs then none
  else
    scanBlocks disk sb inode.iSize dirPos
      (flattenBlocks inode.iSectors (sectorOf disk (inode.iSectors directPtrs))) flattenPtrs
      flattenPtrs 0 0

theorem wp_dirRead {t : Transfer} {dir : ℕ} {Q : Option (Bytes × ℕ) → Kernel → Prop} {k : Kernel} :
    (dirRead t dir).wp Q k ↔
      ∀ r p, scanDir k.disk k.part.sb (k.dirInode dir) (k.dirs dir).dirPos = some (r, p) →
        Q r (k.setDirPos dir p) := by
  simp only [dirRead, wp_bind, wp_read, readIndirect]
  unfold scanDir
  by_cases hzero : (k.dirInode dir).iSectors directPtrs = 0
  · simp only [hzero, ne_eq, not_true_eq_false, if_false, if_true, wp_pure]
    exact wp_readLoop
  · simp only [hzero, ne_eq, not_false_eq_true, if_false, if_true, wp_ideRead_one]
    by_cases hlba : maxLba < (k.dirInode dir).iSectors directPtrs
    · rw [if_pos hlba]
      simp [Nat.not_le.mpr hlba]
    · rw [if_neg hlba, imp_iff_right (Nat.not_lt.mp hlba)]
      exact wp_readLoop

/-! ## Calls on two handles -/

/-- What a process does with a handle. -/
inductive HandleOp where
  | readdir
  | rewinddir
  deriving DecidableEq, Repr

/-- A call that the process `task` makes on one of two handles. -/
structure HandleCall where
  handle : Bool
  task : ℕ
  op : HandleOp
  deriving DecidableEq, Repr

/-- The bytes of the entry that `sys_readdir` returns. -/
def entryBytes (r : Bytes × ℕ) : List UInt8 := (List.range direntSize).map fun i => r.1 (r.2 + i)

/-- The call, with the entry that it delivers. -/
def HandleCall.run (t : Transfer) (h : Bool → ℕ) (c : HandleCall) :
    Prog Kernel (Option (List UInt8)) := do
  modify fun k => { k with running := c.task }
  match c.op with
  | .readdir => do
      let r ← sysReaddir t (h c.handle)
      return r.map entryBytes
  | .rewinddir => do
      sysRewinddir (h c.handle)
      return none

/-- The call on the two handles as a step with an output. -/
def callStep (t : Transfer) (h : Bool → ℕ) (k : Kernel) (c : HandleCall) (o : Option (List UInt8))
    (k' : Kernel) : Prop := (c.run t h).Returns k o k'

/-- What the handle `own` delivers depends on the calls made on it alone: in any two
interleavings with the same calls on it, these calls deliver the same. -/
def Undisturbed (t : Transfer) (h : Bool → ℕ) (k : Kernel) (own : Bool) : Prop :=
  ∀ l l' k₁ k₂, Trace (callStep t h) k l k₁ → Trace (callStep t h) k l' k₂ →
    (l.map Prod.fst).filter (·.handle = own) = (l'.map Prod.fst).filter (·.handle = own) →
    l.filter (·.1.handle = own) = l'.filter (·.1.handle = own)

/-- Two handles are independent of each other. -/
def Independent (t : Transfer) (k : Kernel) (d d' : ℕ) : Prop :=
  ∀ own, Undisturbed t (fun b => if b then d else d') k own

/-- The next entry that the handle delivers is the first one, as after `sys_rewinddir`. -/
def AtFirstEntry (k : Kernel) (d : ℕ) : Prop := k.setDirPos d 0 = k

/-! ## Different handles -/

/-- The handle is `root_dir` or was not closed yet. -/
def Kernel.DirLive (k : Kernel) (d : ℕ) : Prop := d = rootDir ∨ d ∈ k.liveDirs

instance (k : Kernel) (d : ℕ) : Decidable (k.DirLive d) := by
  unfold Kernel.DirLive
  infer_instance

theorem Kernel.dirLive_root (k : Kernel) : k.DirLive rootDir := Or.inl rfl

theorem wp_checkDir {d : ℕ} {Q : Unit → Kernel → Prop} {k : Kernel} :
    (checkDir d).wp Q k ↔ (k.DirLive d → Q () k) := by
  simp only [checkDir, wp_bind, wp_read]
  split
  next h => simp [Kernel.DirLive, h]
  next h => simp [Kernel.DirLive, h]

/-- What a call delivers and the position it leaves, as a function. -/
def HandleCall.outcome (c : HandleCall) (d : ℕ) (k : Kernel) : Option (Option (List UInt8) × ℕ) :=
  if k.DirLive d then
    match c.op with
    | .readdir =>
        (scanDir k.disk k.part.sb (k.dirInode d) (k.dirs d).dirPos).map fun r =>
          (r.1.map entryBytes, r.2)
    | .rewinddir => some (none, 0)
  else none

/-- The state after a call that leaves the handle at position `pos`. -/
def HandleCall.next (c : HandleCall) (d pos : ℕ) (k : Kernel) : Kernel :=
  Kernel.setDirPos { k with running := c.task } d pos

theorem callStep_iff {t : Transfer} {h : Bool → ℕ} {k k' : Kernel} {c : HandleCall}
    {o : Option (List UInt8)} :
    callStep t h k c o k' ↔
      ∃ p, c.outcome (h c.handle) k = some (o, p) ∧ k' = c.next (h c.handle) p k := by
  have hwp : ∀ Q : Option (List UInt8) → Kernel → Prop, (c.run t h).wp Q k ↔
      ∀ o p, c.outcome (h c.handle) k = some (o, p) → Q o (c.next (h c.handle) p k) := by
    intro Q
    obtain ⟨b, task, op⟩ := c
    cases op with
    | readdir =>
        simp only [HandleCall.run, HandleCall.outcome, wp_bind, wp_modify, sysReaddir, wp_checkDir,
          wp_dirRead, wp_pure]
        by_cases hlive : k.DirLive (h b)
        · rw [if_pos hlive, imp_iff_right (by exact hlive)]
          change (∀ r p, scanDir k.disk k.part.sb (k.dirInode (h b)) (k.dirs (h b)).dirPos =
            some (r, p) → _) ↔ _
          rcases scanDir k.disk k.part.sb (k.dirInode (h b)) (k.dirs (h b)).dirPos with
            _ | ⟨r, p⟩
          · simp
          · simp [HandleCall.next]
        · rw [if_neg hlive]
          simp only [reduceCtorEq, false_implies, implies_true, iff_true]
          exact fun h => absurd h hlive
    | rewinddir =>
        simp only [HandleCall.run, HandleCall.outcome, wp_bind, wp_modify, sysRewinddir,
          wp_checkDir, modifyDirPos, wp_pure]
        by_cases hlive : k.DirLive (h b)
        · rw [if_pos hlive, imp_iff_right (by exact hlive)]
          simp only [Option.some.injEq, Prod.mk.injEq, and_imp]
          constructor
          · rintro hQ o p rfl rfl
            exact hQ
          · intro hQ
            exact hQ _ _ rfl rfl
        · rw [if_neg hlive]
          simp only [reduceCtorEq, false_implies, implies_true, iff_true]
          exact fun h => absurd h hlive
  constructor
  · intro hret
    have := (hwp fun o k' => ∃ p, c.outcome (h c.handle) k = some (o, p) ∧
      k' = c.next (h c.handle) p k).mpr fun o p ho => ⟨p, ho, rfl⟩
    exact wp_iff_returns.mp this o k' hret
  · rintro ⟨p, ho, rfl⟩
    exact (hwp fun o k' => callStep t h k c o k').mp
      (wp_iff_returns.mpr fun _ _ hret => hret) o p ho

theorem callStep_deterministic (t : Transfer) (h : Bool → ℕ) : Deterministic (callStep t h) := by
  intro k c o o' k₁ k₂ h₁ h₂
  obtain ⟨p, hp, rfl⟩ := callStep_iff.mp h₁
  obtain ⟨p', hp', rfl⟩ := callStep_iff.mp h₂
  rw [hp, Option.some.injEq, Prod.mk.injEq] at hp'
  exact ⟨hp'.1, by rw [hp'.2]⟩

/-- What a handle sees of the state. -/
structure SameView (d : ℕ) (k k' : Kernel) : Prop where
  disk : k'.disk = k.disk
  part : k'.part = k.part
  inodes : k'.inodes = k.inodes
  liveDirs : k'.liveDirs = k.liveDirs
  dir : k'.dirs d = k.dirs d

theorem SameView.outcome {d : ℕ} {k k' : Kernel} (hview : SameView d k k') (c : HandleCall) :
    c.outcome d k' = c.outcome d k := by
  simp only [HandleCall.outcome, Kernel.DirLive, Kernel.dirInode, hview.disk, hview.part,
    hview.inodes, hview.liveDirs, hview.dir]

/-- The call on the handle itself. -/
theorem SameView.own {d : ℕ} {k k' : Kernel} (hview : SameView d k k') (c : HandleCall) (p : ℕ) :
    SameView d (c.next d p k) (c.next d p k') where
  disk := hview.disk
  part := hview.part
  inodes := hview.inodes
  liveDirs := hview.liveDirs
  dir := by simp [HandleCall.next, Kernel.setDirPos, hview.dir]

/-- The call on another handle. -/
theorem SameView.other {d d' : ℕ} (hne : d ≠ d') {k k' : Kernel} (hview : SameView d k k')
    (c : HandleCall) (p : ℕ) : SameView d (c.next d' p k) k' where
  disk := hview.disk
  part := hview.part
  inodes := hview.inodes
  liveDirs := hview.liveDirs
  dir := by
    rw [hview.dir]
    exact (Function.update_of_ne hne _ _).symm

theorem independent_of_ne (t : Transfer) (k : Kernel) {d d' : ℕ} (hne : d ≠ d') :
    Independent t k d d' := by
  intro own l l' k₁ k₂ hl hl' hcalls
  set h : Bool → ℕ := fun b => if b then d else d'
  have hdiff : ∀ b, b ≠ own → h own ≠ h b := by
    intro b hb
    cases own with
    | false =>
        cases b with
        | false => exact absurd rfl hb
        | true => exact hne.symm
    | true =>
        cases b with
        | false => exact hne
        | true => exact absurd rfl hb
  refine @outputs_eq _ _ _ (callStep t h) (fun c => c.handle = own) (SameView (h own))
    (callStep_deterministic t h) ?_ ?_ ?_ _ _ _ _ _ hl hl' hcalls
  · intro k k' c o k₁ hc hview hstep
    rw [decide_eq_true_eq] at hc
    obtain ⟨p, ho, rfl⟩ := callStep_iff.mp hstep
    rw [hc, ← hview.outcome c] at ho
    exact ⟨_, callStep_iff.mpr ⟨p, by rw [hc, ho], rfl⟩, by rw [hc]; exact hview.own c p⟩
  · intro k k' c o k₁ hc hview hstep
    rw [decide_eq_false_iff_not] at hc
    obtain ⟨p, -, rfl⟩ := callStep_iff.mp hstep
    exact hview.other (hdiff _ hc) c p
  · exact fun k => ⟨rfl, rfl, rfl, rfl, rfl⟩

theorem atFirstEntry_iff {k : Kernel} {d : ℕ} : AtFirstEntry k d ↔ (k.dirs d).dirPos = 0 := by
  constructor
  · intro h
    have hpos : ((k.setDirPos d 0).dirs d).dirPos = 0 := by
      simp [Kernel.setDirPos]
    rwa [h] at hpos
  · intro h
    have hself := k.setDirPos_self d
    rwa [h] at hself

/-! ## Two handles of the root -/

section Scan

variable {buf disk : Bytes} {sb : SuperBlock} {iSize blockCnt : ℕ} {allBlocks : ℕ → ℕ}

/-- The entry loop never fails its assertion when positions count entries. -/
theorem scanBlock_cases (buf : Bytes) (left i : ℕ) {m n : ℕ} (hm : m ≤ n) :
    (∃ m' ≤ n, scanBlock buf direntSize (direntSize * n) left i (direntSize * m) =
      some (.inl (direntSize * m'))) ∨
    ∃ j, scanBlock buf direntSize (direntSize * n) left i (direntSize * m) = some (.inr j) := by
  induction left generalizing i m with
  | zero => exact Or.inl ⟨m, hm, rfl⟩
  | succ left ih =>
      unfold scanBlock
      split
      · exact ih _ hm
      rcases hm.lt_or_eq with hlt | rfl
      · rw [if_pos ((Nat.mul_lt_mul_left (by decide)).mpr hlt)]
        exact ih _ hlt
      · rw [if_neg (lt_irrefl _), if_pos rfl]
        exact Or.inr ⟨i, rfl⟩

theorem scanBlocks_cases (hentry : sb.dirEntrySize = direntSize)
    (hblocks : ∀ i < blockCnt, allBlocks i ≤ maxLba) {fuel blkI m n : ℕ} (hm : m ≤ n) :
    scanBlocks disk sb iSize (direntSize * n) allBlocks blockCnt fuel blkI (direntSize * m) =
      some (none, direntSize * n) ∨
    ∃ r, scanBlocks disk sb iSize (direntSize * n) allBlocks blockCnt fuel blkI (direntSize * m) =
      some (some r, direntSize * (n + 1)) := by
  induction fuel generalizing blkI m with
  | zero => exact Or.inl rfl
  | succ fuel ih =>
      unfold scanBlocks
      split
      · exact Or.inl rfl
      next hcnt =>
      split
      · exact Or.inl rfl
      split
      · exact ih hm
      rw [if_neg (Nat.not_lt.mpr (hblocks blkI (Nat.lt_of_not_le hcnt))), hentry]
      rcases scanBlock_cases (sectorOf disk (allBlocks blkI)) (sectorSize / direntSize) 0 hm with
        ⟨m', hm', hscan⟩ | ⟨j, hscan⟩
      · simp only [hscan]
        exact ih hm'
      · simp only [hscan]
        exact Or.inr ⟨_, rfl⟩

/-- A block without a first entry has none at all. -/
theorem scanBlock_silent {entrySize left i q : ℕ}
    (h : scanBlock buf entrySize 0 left i 0 = some (.inl q)) :
    q = 0 ∧ ∀ p, scanBlock buf entrySize p left i 0 = some (.inl 0) := by
  induction left generalizing i with
  | zero =>
      cases h
      exact ⟨rfl, fun _ => rfl⟩
  | succ left ih =>
      unfold scanBlock at h ⊢
      split at h
      next hunknown =>
        obtain ⟨hq, hall⟩ := ih h
        exact ⟨hq, fun p => by rw [if_pos hunknown, hall]⟩
      next => simp at h

theorem scanBlocks_silent {fuel blkI q : ℕ}
    (h : scanBlocks disk sb iSize 0 allBlocks blockCnt fuel blkI 0 = some (none, q)) (p : ℕ) :
    scanBlocks disk sb iSize p allBlocks blockCnt fuel blkI 0 = some (none, p) := by
  induction fuel generalizing blkI with
  | zero => rfl
  | succ fuel ih =>
      unfold scanBlocks at h ⊢
      by_cases hcnt : blockCnt ≤ blkI
      · rw [if_pos hcnt]
      rw [if_neg hcnt] at h ⊢
      by_cases hsize : iSize ≤ p
      · rw [if_pos hsize]
      rw [if_neg (by omega)] at h
      rw [if_neg hsize]
      by_cases hhole : allBlocks blkI = 0
      · rw [if_pos hhole] at h ⊢
        exact ih h
      rw [if_neg hhole] at h ⊢
      by_cases hlba : maxLba < allBlocks blkI
      · rw [if_pos hlba] at h
        cases h
      rw [if_neg hlba] at h ⊢
      dsimp only at h ⊢
      rcases hscan : scanBlock (sectorOf disk (allBlocks blkI)) sb.dirEntrySize 0
        (sectorSize / sb.dirEntrySize) 0 0 with _ | ⟨q' | j⟩
      · rw [hscan] at h
        cases h
      · obtain ⟨rfl, hall⟩ := scanBlock_silent hscan
        rw [hscan] at h
        rw [hall p]
        exact ih h
      · rw [hscan] at h
        cases h

end Scan

/-- What `dir_read` delivers of the root directory at a position, and the position after it. -/
def Kernel.rootRead (k : Kernel) (pos : ℕ) : Option (Option (Bytes × ℕ) × ℕ) :=
  scanDir k.disk k.part.sb (k.dirInode rootDir) pos

/-- The root directory is not empty: from its start on an entry is delivered. -/
def Kernel.RootDelivers (k : Kernel) : Prop := ∃ r p, k.rootRead 0 = some (some r, p)

/-- The blocks of the root directory. -/
def Kernel.rootBlocks (k : Kernel) : ℕ → ℕ :=
  let iSectors := (k.dirInode rootDir).iSectors
  flattenBlocks iSectors
    (if iSectors directPtrs = 0 then zeroBuf else sectorOf k.disk (iSectors directPtrs))

/-- The root directory of a mounted partition is open.  Its blocks lie on the disk, whatever they
hold; there may be none. -/
structure RootMounted (k : Kernel) : Prop where
  dir : rootDir < k.nextDir
  inode : (k.dirs rootDir).inode < k.nextInode
  entrySize : k.part.sb.dirEntrySize = direntSize
  table : (k.dirInode rootDir).iSectors directPtrs ≤ maxLba
  blocks : ∀ i < flattenPtrs, k.rootBlocks i ≤ maxLba
  pos : direntSize ∣ (k.dirs rootDir).dirPos

/-- `dir_read` of the root goes through its blocks. -/
theorem RootMounted.rootRead_eq {k : Kernel} (hk : RootMounted k) : ∃ cnt, 0 < cnt ∧
    cnt ≤ flattenPtrs ∧ ∀ pos, k.rootRead pos = scanBlocks k.disk k.part.sb
      (k.dirInode rootDir).iSize pos k.rootBlocks cnt flattenPtrs 0 0 := by
  unfold Kernel.rootRead Kernel.rootBlocks scanDir
  by_cases hzero : (k.dirInode rootDir).iSectors directPtrs = 0
  · simp only [if_pos hzero]
    exact ⟨directPtrs, by decide, by decide, fun _ => rfl⟩
  · simp only [if_neg hzero, if_neg (Nat.not_lt.mpr hk.table)]
    exact ⟨flattenPtrs, by decide, le_rfl, fun _ => rfl⟩

/-- A read of the root delivers an entry and moves on, or stays where it is. -/
theorem RootMounted.rootRead_cases {k : Kernel} (hk : RootMounted k) (n : ℕ) :
    k.rootRead (direntSize * n) = some (none, direntSize * n) ∨
      ∃ r, k.rootRead (direntSize * n) = some (some r, direntSize * (n + 1)) := by
  obtain ⟨cnt, -, hcnt, hread⟩ := hk.rootRead_eq
  rw [hread]
  exact scanBlocks_cases hk.entrySize (fun i hi => hk.blocks i (hi.trans_le hcnt))
    (m := 0) (Nat.zero_le n)

/-- Behind its size nothing is delivered. -/
theorem RootMounted.rootRead_end {k : Kernel} (hk : RootMounted k) {pos : ℕ}
    (hend : (k.dirInode rootDir).iSize ≤ pos) : k.rootRead pos = some (none, pos) := by
  obtain ⟨cnt, hpos, -, hread⟩ := hk.rootRead_eq
  rw [hread]
  change scanBlocks _ _ _ _ _ _ (139 + 1) 0 0 = _
  unfold scanBlocks
  rw [if_neg (Nat.not_le.mpr hpos), if_pos hend]

/-- An empty root delivers nothing at any position. -/
theorem RootMounted.rootRead_silent {k : Kernel} (hk : RootMounted k) (hempty : ¬ k.RootDelivers)
    (pos : ℕ) : k.rootRead pos = some (none, pos) := by
  obtain ⟨cnt, -, -, hread⟩ := hk.rootRead_eq
  rcases hk.rootRead_cases 0 with hnone | ⟨r, hsome⟩
  · rw [hread] at hnone ⊢
    exact scanBlocks_silent hnone pos
  · exact absurd ⟨r, _, hsome⟩ hempty

/-- A call on a handle changes the position of the handle alone. -/
theorem HandleCall.dirInode_next (c : HandleCall) (d p : ℕ) (k : Kernel) :
    (c.next d p k).dirInode rootDir = k.dirInode rootDir := by
  have hinode : ((c.next d p k).dirs rootDir).inode = (k.dirs rootDir).inode := by
    simp only [HandleCall.next, Kernel.setDirPos]
    by_cases hd : rootDir = d
    · rw [hd, Function.update_self]
    · rw [Function.update_of_ne hd]
  rw [Kernel.dirInode, hinode]
  rfl

theorem HandleCall.rootRead_next (c : HandleCall) (d p : ℕ) (k : Kernel) :
    (c.next d p k).rootRead = k.rootRead := by
  unfold Kernel.rootRead
  rw [c.dirInode_next]
  rfl

theorem RootMounted.call {k : Kernel} (hk : RootMounted k) {c : HandleCall} {d p : ℕ}
    {o : Option (List UInt8)} (hcall : c.outcome d k = some (o, p)) :
    RootMounted (c.next d p k) := by
  have hdirInode := c.dirInode_next d p k
  have hpos : d = rootDir → direntSize ∣ p := by
    rintro rfl
    rw [HandleCall.outcome, if_pos k.dirLive_root] at hcall
    obtain ⟨n, hn⟩ := hk.pos
    cases hop : c.op with
    | readdir =>
        rw [hop] at hcall
        change (k.rootRead (k.dirs rootDir).dirPos).map _ = _ at hcall
        rw [hn] at hcall
        rcases hk.rootRead_cases n with hread | ⟨r, hread⟩
        · rw [hread] at hcall
          cases hcall
          exact Nat.dvd_mul_right _ _
        · rw [hread] at hcall
          cases hcall
          exact Nat.dvd_mul_right _ _
    | rewinddir =>
        rw [hop] at hcall
        cases hcall
        exact Nat.dvd_zero _
  refine ⟨hk.dir, ?_, hk.entrySize, ?_, ?_, ?_⟩
  · simp only [HandleCall.next, Kernel.setDirPos]
    by_cases hd : rootDir = d
    · subst hd
      rw [Function.update_self]
      exact hk.inode
    · rw [Function.update_of_ne hd]
      exact hk.inode
  · rw [hdirInode]
    exact hk.table
  · unfold Kernel.rootBlocks
    rw [hdirInode]
    exact hk.blocks
  · simp only [HandleCall.next, Kernel.setDirPos]
    by_cases hd : rootDir = d
    · subst hd
      rw [Function.update_self]
      exact hpos rfl
    · rw [Function.update_of_ne hd]
      exact hk.pos

/-- What the read of the `n`-th entry of the root delivers. -/
def Kernel.rootEntry (k : Kernel) (n : ℕ) : Option (List UInt8) :=
  ((k.rootRead (direntSize * n)).bind Prod.fst).map entryBytes

section Root

variable {t : Transfer} {h : Bool → ℕ} (hroot : ∀ b, h b = rootDir) {k : Kernel}

include hroot

/-- From an empty root every call delivers nothing. -/
theorem RootMounted.outputs_none (hk : RootMounted k) (hempty : ¬ k.RootDelivers) {k' : Kernel}
    {l : List (HandleCall × Option (List UInt8))} (hl : Trace (callStep t h) k l k') :
    ∀ c ∈ l, c.2 = none := by
  induction l generalizing k with
  | nil => simp
  | cons c l ih =>
      obtain ⟨c, o⟩ := c
      obtain ⟨k₁, hstep, hl⟩ := hl
      obtain ⟨p, ho, rfl⟩ := callStep_iff.mp hstep
      rw [hroot] at ho hl
      have hnone : o = none := by
        rw [HandleCall.outcome, if_pos k.dirLive_root] at ho
        cases hop : c.op with
        | readdir =>
            rw [hop] at ho
            change (k.rootRead _).map _ = _ at ho
            rw [hk.rootRead_silent hempty] at ho
            cases ho
            rfl
        | rewinddir =>
            rw [hop] at ho
            cases ho
            rfl
      have hrest := ih (hk.call ho) (by
        unfold Kernel.RootDelivers
        rw [c.rootRead_next]
        exact hempty) hl
      exact List.forall_mem_cons.mpr ⟨hnone, hrest⟩

/-- The position of the root counts the reads while they deliver entries. -/
theorem trace_rootReads {n : ℕ} (hstart : (k.dirs rootDir).dirPos = 0)
    (hdeliver : ∀ j < n, ∃ r, k.rootRead (direntSize * j) = some (some r, direntSize * (j + 1))) :
    ∃ l k', Trace (callStep t h) k l k' ∧ (∀ c ∈ l, c.1.handle = false) ∧
      (k'.dirs rootDir).dirPos = direntSize * n ∧ k'.rootRead = k.rootRead := by
  induction n with
  | zero => exact ⟨[], k, rfl, by simp, hstart, rfl⟩
  | succ n ih =>
      obtain ⟨l, k', hl, hother, hpos, hread⟩ := ih fun j hj => hdeliver j (hj.trans n.lt_succ_self)
      obtain ⟨r, hr⟩ := hdeliver n n.lt_succ_self
      have hstep : callStep t h k' ⟨false, 0, .readdir⟩ (some (entryBytes r))
          (HandleCall.next ⟨false, 0, .readdir⟩ rootDir (direntSize * (n + 1)) k') := by
        refine callStep_iff.mpr ⟨_, ?_, by rw [hroot]⟩
        rw [hroot, HandleCall.outcome, if_pos k'.dirLive_root]
        change (k'.rootRead (k'.dirs rootDir).dirPos).map _ = _
        rw [hpos, hread, hr]
        rfl
      refine ⟨l ++ [(_, _)], _, hl.snoc hstep, ?_, ?_, ?_⟩
      · intro c hc
        rcases List.mem_append.mp hc with hc | hc
        · exact hother c hc
        · rw [List.mem_singleton.mp hc]
      · simp [HandleCall.next, Kernel.setDirPos]
      · rw [HandleCall.rootRead_next, hread]

/-- A handle is rewound, the other one reads `n` times, and the first one reads. -/
theorem RootMounted.readBehind (hk : RootMounted k) {n : ℕ} (hdeliver : ∀ j < n, (k.rootEntry j).isSome) :
    ∃ l k', Trace (callStep t h) k ((⟨true, 0, .rewinddir⟩, none) ::
      (l ++ [(⟨true, 0, .readdir⟩, k.rootEntry n)])) k' ∧ ∀ c ∈ l, c.1.handle = false := by
  set rewind : HandleCall := ⟨true, 0, .rewinddir⟩ with hrewind
  have hcall : rewind.outcome rootDir k = some (none, 0) := by
    rw [HandleCall.outcome, if_pos k.dirLive_root]
  have hread := rewind.rootRead_next rootDir 0 k
  have hdeliver' : ∀ j < n, ∃ r, (rewind.next rootDir 0 k).rootRead (direntSize * j) =
      some (some r, direntSize * (j + 1)) := by
    intro j hj
    rw [hread]
    refine (hk.rootRead_cases j).resolve_left fun hnone => ?_
    have := hdeliver j hj
    rw [Kernel.rootEntry, hnone] at this
    cases this
  obtain ⟨l, k', hl, hother, hpos, hread'⟩ := trace_rootReads (t := t) hroot
    (k := rewind.next rootDir 0 k) (by simp [HandleCall.next, Kernel.setDirPos]) hdeliver'
  obtain ⟨r, p, hlast⟩ : ∃ r p, k.rootRead (direntSize * n) = some (r, p) := by
    rcases hk.rootRead_cases n with hlast | ⟨r, hlast⟩
    · exact ⟨_, _, hlast⟩
    · exact ⟨_, _, hlast⟩
  have hstep : callStep t h k' ⟨true, 0, .readdir⟩ (k.rootEntry n)
      (HandleCall.next ⟨true, 0, .readdir⟩ rootDir p k') := by
    refine callStep_iff.mpr ⟨p, ?_, by rw [hroot]⟩
    rw [hroot, HandleCall.outcome, if_pos k'.dirLive_root]
    change (k'.rootRead (k'.dirs rootDir).dirPos).map _ = _
    rw [hpos, hread', hread, Kernel.rootEntry, hlast]
    rfl
  have hfirst : callStep t h k rewind none (rewind.next rootDir 0 k) :=
    callStep_iff.mpr ⟨0, by rw [hroot, hcall], by rw [hroot]⟩
  exact ⟨l, _, ⟨_, hfirst, hl.snoc hstep⟩, hother⟩

end Root

/-- Reading through one handle of the root moves the other. -/
theorem RootMounted.not_independent {t : Transfer} {k : Kernel} (hk : RootMounted k)
    (hdelivers : k.RootDelivers) : ¬ Independent t k rootDir rootDir := by
  intro hind
  have hroot : ∀ b, (fun b => if b then rootDir else rootDir : Bool → ℕ) b = rootDir := by
    intro b
    cases b <;> rfl
  have hfirst : (k.rootEntry 0).isSome := by
    obtain ⟨r, p, hread⟩ := hdelivers
    rw [Kernel.rootEntry, Nat.mul_zero, hread]
    rfl
  -- the first read that delivers something else; the last one delivers nothing
  have hend : ∃ n, k.rootEntry n ≠ k.rootEntry 0 := by
    refine ⟨(k.dirInode rootDir).iSize, fun heq => ?_⟩
    rw [← heq, Kernel.rootEntry, hk.rootRead_end (Nat.le_mul_of_pos_left _ (by decide))] at hfirst
    cases hfirst
  obtain ⟨l, k₁, hl, hother⟩ := hk.readBehind (t := t) hroot (n := 0) (by simp)
  obtain ⟨l', k₂, hl', hother'⟩ := hk.readBehind (t := t) hroot (n := Nat.find hend)
    fun j hj => by rw [not_not.mp (Nat.find_min hend hj)]; exact hfirst
  have hsame := hind true _ _ k₁ k₂ hl hl'
  have hskip : ∀ l : List (HandleCall × Option (List UInt8)), (∀ c ∈ l, c.1.handle = false) →
      l.filter (·.1.handle = true) = [] ∧ (l.map Prod.fst).filter (·.handle = true) = [] := by
    intro l hl
    constructor <;> simp only [List.filter_eq_nil_iff, decide_eq_true_eq, List.mem_map]
    · intro c hc
      rw [hl c hc]
      exact Bool.false_ne_true
    · rintro c ⟨d, hd, rfl⟩
      rw [hl d hd]
      exact Bool.false_ne_true
  obtain ⟨hskip₁, hskip₂⟩ := hskip l hother
  obtain ⟨hskip₁', hskip₂'⟩ := hskip l' hother'
  simp only [List.map_cons, List.map_append, List.map_nil, List.filter_cons_of_pos,
    List.filter_append, hskip₁, hskip₂, hskip₁', hskip₂', List.nil_append, decide_true,
    List.filter_nil, List.cons.injEq, Prod.mk.injEq, true_and, and_true, forall_const] at hsame
  exact Nat.find_spec hend hsame.symm

/-- Two handles of an empty root deliver nothing, and nothing changes that. -/
theorem RootMounted.independent_of_empty {t : Transfer} {k : Kernel} (hk : RootMounted k)
    (hempty : ¬ k.RootDelivers) : Independent t k rootDir rootDir := by
  have hroot : ∀ b, (fun b => if b then rootDir else rootDir : Bool → ℕ) b = rootDir := by
    intro b
    cases b <;> rfl
  have hcalls : ∀ (own : Bool) (l : List (HandleCall × Option (List UInt8))),
      (∀ c ∈ l, c.2 = none) → l.filter (·.1.handle = own) =
        ((l.map Prod.fst).filter (·.handle = own)).map (·, none) := by
    intro own l hl
    induction l with
    | nil => rfl
    | cons c l ih =>
        obtain ⟨c, o⟩ := c
        obtain ⟨hc, hrest⟩ := List.forall_mem_cons.mp hl
        obtain rfl : o = none := hc
        by_cases hown : c.handle = own
        · simp [hown, ih hrest]
        · simp [hown, ih hrest]
  intro own l l' k₁ k₂ hl hl' hsame
  rw [hcalls own l (hk.outputs_none hroot hempty hl), hsame,
    hcalls own l' (hk.outputs_none hroot hempty hl')]

/-! ## Opening and closing other handles -/

/-- From `k` to `k'` directories were opened and closed, but the handles of `k` and the
directories behind them are as before. -/
structure HandlesKept (k k' : Kernel) : Prop where
  disk : k'.disk = k.disk
  part : k'.part = k.part
  nextDir : k.nextDir ≤ k'.nextDir
  dirs : ∀ d < k.nextDir, k'.dirs d = k.dirs d
  nextInode : k.nextInode ≤ k'.nextInode
  size : ∀ a < k.nextInode, (k'.inodes a).iSize = (k.inodes a).iSize
  sectors : ∀ a < k.nextInode, (k'.inodes a).iSectors = (k.inodes a).iSectors

instance : IsPreorder Kernel HandlesKept where
  refl k := by constructor <;> simp
  trans k₁ k₂ k₃ h h' :=
    { disk := h'.disk.trans h.disk
      part := h'.part.trans h.part
      nextDir := h.nextDir.trans h'.nextDir
      dirs := fun d hd => (h'.dirs d (hd.trans_le h.nextDir)).trans (h.dirs d hd)
      nextInode := h.nextInode.trans h'.nextInode
      size := fun a ha => (h'.size a (ha.trans_le h.nextInode)).trans (h.size a ha)
      sectors := fun a ha => (h'.sectors a (ha.trans_le h.nextInode)).trans (h.sectors a ha) }

instance : WalkFrame HandlesKept where
  count k a n := by
    constructor <;> simp only [Kernel.setInode, le_refl, implies_true]
    · intro b _
      by_cases hb : b = a
      · rw [hb, Function.update_self]
      · rw [Function.update_of_ne hb]
    · intro b _
      by_cases hb : b = a
      · rw [hb, Function.update_self]
      · rw [Function.update_of_ne hb]
  erase k a := by constructor <;> simp
  alloc k := by constructor <;> simp
  newInode k inode := by
    constructor <;> simp only [Kernel.setInode, le_refl, implies_true, Nat.le_add_right]
    · intro b hb
      rw [Function.update_of_ne hb.ne]
    · intro b hb
      rw [Function.update_of_ne hb.ne]
  newDir k a := by
    constructor <;> simp only [le_refl, implies_true, Nat.le_add_right]
    intro d hd
    rw [Function.update_of_ne hd.ne]
  freeDir k d := by constructor <;> simp

theorem HandlesKept.rootRead {k k' : Kernel} (h : HandlesKept k k') (hk : RootMounted k) :
    k'.rootRead = k.rootRead ∧ RootMounted k' := by
  have hdir : k'.dirs rootDir = k.dirs rootDir := h.dirs _ hk.dir
  have hsize : (k'.dirInode rootDir).iSize = (k.dirInode rootDir).iSize := by
    rw [Kernel.dirInode, hdir]
    exact h.size _ hk.inode
  have hsectors : (k'.dirInode rootDir).iSectors = (k.dirInode rootDir).iSectors := by
    rw [Kernel.dirInode, hdir]
    exact h.sectors _ hk.inode
  constructor
  · unfold Kernel.rootRead scanDir
    rw [h.disk, h.part, hsize, hsectors]
  · refine ⟨hk.dir.trans_le h.nextDir, ?_, ?_, ?_, ?_, ?_⟩
    · rw [hdir]
      exact hk.inode.trans_le h.nextInode
    · rw [h.part]
      exact hk.entrySize
    · rw [hsectors]
      exact hk.table
    · unfold Kernel.rootBlocks
      rw [hsectors, h.disk]
      exact hk.blocks
    · rw [hdir]
      exact hk.pos

/-- The handle was not given out in `k` and stands at its first entry in `k'`. -/
structure NewHandle (k : Kernel) (d : ℕ) (k' : Kernel) : Prop where
  fresh : k.nextDir ≤ d
  given : d < k'.nextDir
  pos : (k'.dirs d).dirPos = 0

theorem dirOpen_newHandle {t : Transfer} {inodeNo : ℕ} {k₀ k : Kernel} (hk : HandlesKept k₀ k) :
    (dirOpen t inodeNo).wp (fun d k' => HandlesKept k₀ k' ∧ NewHandle k₀ d k') k := by
  unfold dirOpen
  rw [wp_bind, wp_sysMallocUnchecked]
  refine (inodeOpen_within t inodeNo).wp_then hk fun a k₁ hk₁ => ?_
  refine ⟨trans_of HandlesKept hk₁ (WalkFrame.newDir k₁ a), hk₁.nextDir, Nat.lt_succ_self _, ?_⟩
  dsimp only
  rw [Function.update_self]

/-- `sys_opendir` returns `root_dir` as it is for `/`, and a new handle for every other
path. -/
theorem sysOpendir_spec {t : Transfer} {name : CString} {k : Kernel} :
    (sysOpendir t name).wp (fun r k' => HandlesKept k k' ∧ ∀ d, r = some d →
      if name.val = [slash] then d = rootDir ∧ k' = k else NewHandle k d k') k := by
  simp only [sysOpendir, wp_bind, wp_assert]
  intro _
  by_cases hroot : name.val = [slash]
  · simp only [if_pos hroot]
    exact ⟨refl k, fun d hd => ⟨(Option.some.inj hd).symm, rfl⟩⟩
  · simp only [if_neg hroot]
    refine (searchFile_within t name).wp_then (refl k : HandlesKept k k) fun found k₁ hk₁ => ?_
    obtain ⟨inodeNo, record⟩ := found
    have hclose : ∀ (r : Option ℕ) (k₂ : Kernel), HandlesKept k k₂ →
        (∀ d, r = some d → NewHandle k d k₂) →
        (do dirClose record.parentDir; return r : Prog Kernel (Option ℕ)).wp
          (fun r k' => HandlesKept k k' ∧ ∀ d, r = some d → NewHandle k d k') k₂ := by
      intro r k₂ hk₂ hr
      refine (dirClose_within _).wp_then (refl k₂ : HandlesKept k₂ k₂) fun _ k₃ hk₃ => ?_
      refine ⟨trans_of HandlesKept hk₂ hk₃, fun d hd => ?_⟩
      obtain ⟨hfresh, hgiven, hpos⟩ := hr d hd
      exact ⟨hfresh, hgiven.trans_le hk₃.nextDir, by rw [hk₃.dirs d hgiven]; exact hpos⟩
    have hnone : ∀ d, none = some d → NewHandle k d k₁ := fun d hd => by cases hd
    cases inodeNo with
    | none => exact hclose none k₁ hk₁ hnone
    | some inodeNo =>
        dsimp only
        split
        · rw [wp_bind]
          refine wp_mono (dirOpen_newHandle hk₁) ?_
          rintro d k₂ ⟨hk₂, hnew⟩
          exact hclose (some d) k₂ hk₂ fun d' hd' => Option.some.inj hd' ▸ hnew
        · exact hclose none k₁ hk₁ hnone

/-! ## Sessions -/

/-- The kernel and the handles that are open, each with the path it was opened by. -/
structure HandleSession where
  kernel : Kernel
  handles : List (CString × ℕ)

/-- The calls of the processes; handles are given by their place in the list. -/
inductive HandleEvent where
  | opendir (task : ℕ) (name : CString)
  | closedir (task i : ℕ)
  | call (task i : ℕ) (op : HandleOp)

/-- Let a process run. -/
def Kernel.runTask (k : Kernel) (task : ℕ) : Kernel := { k with running := task }

/-- One call of one process. -/
inductive HandleStep (t : Transfer) : HandleSession → HandleEvent → HandleSession → Prop where
  | opendir {s : HandleSession} {task : ℕ} {name : CString} {r : Option ℕ} {k' : Kernel}
      (hret : (sysOpendir t name).Returns (s.kernel.runTask task) r k') :
      HandleStep t s (.opendir task name) ⟨k', s.handles ++ r.toList.map (name, ·)⟩
  | closedir {s : HandleSession} {task i : ℕ} {name : CString} {d : ℕ} {ret : ℤ} {k' : Kernel}
      (hd : s.handles[i]? = some (name, d))
      (hret : (sysClosedir (some d)).Returns (s.kernel.runTask task) ret k') :
      HandleStep t s (.closedir task i) ⟨k', s.handles.eraseIdx i⟩
  | call {s : HandleSession} {task i : ℕ} {op : HandleOp} {name : CString} {d : ℕ}
      {o : Option (List UInt8)} {k' : Kernel} (hd : s.handles[i]? = some (name, d))
      (hret : callStep t (fun _ => d) s.kernel ⟨true, task, op⟩ o k') :
      HandleStep t s (.call task i op) ⟨k', s.handles⟩

/-- A session starts with a mounted file system and no handles. -/
def HandleInit (s : HandleSession) : Prop := RootMounted s.kernel ∧ s.handles = []

/-- The sessions that calls lead to. -/
def HandleReachable (t : Transfer) : HandleSession → Prop :=
  Reachable HandleInit (HandleStep t) fun _ _ => True

/-- The path `/`. -/
def IsSlash (name : CString) : Prop := name.val = [slash]

/-- Two handles have the same address if both are `root_dir` only. -/
def HandlesDiffer (h h' : CString × ℕ) : Prop := h.2 = h'.2 → h.2 = rootDir

/-- What holds in every session. -/
structure HandleInv (s : HandleSession) : Prop where
  ready : RootMounted s.kernel
  given : ∀ h ∈ s.handles, h.2 < s.kernel.nextDir
  root : ∀ h ∈ s.handles, h.2 = rootDir ↔ IsSlash h.1
  differ : s.handles.Pairwise HandlesDiffer

theorem HandleInv.opendir {t : Transfer} {s : HandleSession} (hs : HandleInv s) {task : ℕ}
    {name : CString} {r : Option ℕ} {k' : Kernel}
    (hret : (sysOpendir t name).Returns (s.kernel.runTask task) r k') :
    HandleInv ⟨k', s.handles ++ r.toList.map (name, ·)⟩ := by
  obtain ⟨hkept, hnew⟩ := wp_iff_returns.mp sysOpendir_spec _ _ hret
  have hready : RootMounted (s.kernel.runTask task) := { hs.ready with }
  have hold : ∀ h ∈ s.handles, h.2 < k'.nextDir := fun h hh =>
    (hs.given h hh).trans_le hkept.nextDir
  cases r with
  | none =>
      rw [Option.toList_none, List.map_nil, List.append_nil]
      exact ⟨(hkept.rootRead hready).2, hold, hs.root, hs.differ⟩
  | some d =>
      have hnew := hnew d rfl
      have hd : d < k'.nextDir ∧ (d = rootDir ↔ IsSlash name) ∧
          ∀ h ∈ s.handles, HandlesDiffer h (name, d) := by
        by_cases hroot : name.val = [slash]
        · rw [if_pos hroot] at hnew
          refine ⟨hnew.1 ▸ (hkept.rootRead hready).2.dir, ⟨fun _ => hroot, fun _ => hnew.1⟩, ?_⟩
          intro h _ heq
          exact heq.trans hnew.1
        · rw [if_neg hroot] at hnew
          have hpos : rootDir < d := hs.ready.dir.trans_le hnew.fresh
          refine ⟨hnew.given, ⟨fun h => absurd h hpos.ne', fun h => absurd h hroot⟩, ?_⟩
          intro h hh heq
          exact absurd heq ((hs.given h hh).trans_le hnew.fresh).ne
      have hmem : ∀ h, h ∈ s.handles ++ [(name, d)] ↔ h ∈ s.handles ∨ h = (name, d) := by simp
      rw [Option.toList_some, List.map_singleton]
      refine ⟨(hkept.rootRead hready).2, fun h hh => ?_, fun h hh => ?_, ?_⟩
      · rcases (hmem h).mp hh with hh | rfl
        · exact hold h hh
        · exact hd.1
      · rcases (hmem h).mp hh with hh | rfl
        · exact hs.root h hh
        · exact hd.2.1
      · refine List.pairwise_append.mpr ⟨hs.differ, List.pairwise_singleton _ _, ?_⟩
        intro h hh h' hh'
        rw [List.mem_singleton] at hh'
        exact hh' ▸ hd.2.2 h hh

theorem HandleInv.step {t : Transfer} {s s' : HandleSession} {e : HandleEvent} (hs : HandleInv s)
    (hstep : HandleStep t s e s') : HandleInv s' := by
  cases hstep with
  | opendir hret => exact hs.opendir hret
  | @closedir task i name d ret k' hd hret =>
      have hready : RootMounted (s.kernel.runTask task) := { hs.ready with }
      have hwithin : Within HandlesKept (sysClosedir (some d)) :=
        (dirClose_within d).bind fun _ => .pure _
      have hkept := wp_iff_returns.mp (wp_of_always (hwithin _)) _ _ hret
      exact ⟨(hkept.rootRead hready).2,
        fun h hh => (hs.given h (List.mem_of_mem_eraseIdx hh)).trans_le hkept.nextDir,
        fun h hh => hs.root h (List.mem_of_mem_eraseIdx hh),
        hs.differ.sublist (List.eraseIdx_sublist _ _)⟩
  | call hd hret =>
      obtain ⟨p, ho, rfl⟩ := callStep_iff.mp hret
      exact ⟨hs.ready.call ho, hs.given, hs.root, hs.differ⟩

theorem handleInv_of_reachable {t : Transfer} {s : HandleSession} (hs : HandleReachable t s) :
    HandleInv s := by
  refine Reachable.invariant HandleInv ?_ (fun _ _ _ h _ hstep => h.step hstep) hs
  rintro s ⟨hready, hnil⟩
  refine ⟨hready, ?_, ?_, ?_⟩ <;> rw [hnil] <;> simp

/-- In every session two handles are independent unless both were opened by the path `/` and
the root directory has an entry, and a handle that `sys_opendir` returns starts at the first
entry unless the path is `/` and `root_dir` was left elsewhere. -/
theorem handles_independent {t : Transfer} {s : HandleSession} (hs : HandleReachable t s) :
    (∀ (i j : ℕ) (name name' : CString) (d d' : ℕ), i < j → s.handles[i]? = some (name, d) →
      s.handles[j]? = some (name', d') →
      (Independent t s.kernel d d' ↔ ¬ (IsSlash name ∧ IsSlash name' ∧ s.kernel.RootDelivers))) ∧
    ∀ task name d k', (sysOpendir t name).Returns (s.kernel.runTask task) (some d) k' →
      (AtFirstEntry k' d ↔ (IsSlash name → (s.kernel.dirs rootDir).dirPos = 0)) := by
  have hinv := handleInv_of_reachable hs
  constructor
  · intro i j name name' d d' hij hi hj
    have hroot := hinv.root _ (List.mem_of_getElem? hi)
    have hroot' := hinv.root _ (List.mem_of_getElem? hj)
    dsimp only at hroot hroot'
    constructor
    · rintro hind ⟨hname, hname', hdelivers⟩
      obtain rfl := hroot.mpr hname
      obtain rfl := hroot'.mpr hname'
      exact hinv.ready.not_independent hdelivers hind
    · intro hnot
      by_cases hne : d ≠ d'
      · exact independent_of_ne t s.kernel hne
      obtain rfl := not_not.mp hne
      obtain ⟨hi', hi⟩ := List.getElem?_eq_some_iff.mp hi
      obtain ⟨hj', hj⟩ := List.getElem?_eq_some_iff.mp hj
      have hdiffer := List.pairwise_iff_getElem.mp hinv.differ i j hi' hj' hij
      rw [hi, hj] at hdiffer
      obtain rfl : d = rootDir := hdiffer rfl
      exact hinv.ready.independent_of_empty fun hdelivers =>
        hnot ⟨hroot.mp rfl, hroot'.mp rfl, hdelivers⟩
  · intro task name d k' hret
    obtain ⟨-, hnew⟩ := wp_iff_returns.mp sysOpendir_spec _ _ hret
    have hnew := hnew d rfl
    rw [atFirstEntry_iff]
    by_cases hroot : name.val = [slash]
    · rw [if_pos hroot] at hnew
      obtain ⟨rfl, rfl⟩ := hnew
      exact ⟨fun h _ => h, fun h => h hroot⟩
    · rw [if_neg hroot] at hnew
      exact ⟨fun _ h => absurd h hroot, fun _ => hnew.pos⟩

/-! ## A root with a file -/

/-- The small machine with the partition that repeated transfers format: every sector of the inode
table goes to the first one, so the root inode is zero. -/
def zeroRootMachine : Kernel :=
  { smallMachine.newFs with
    disk := copy smallMachine.newFs.disk (sectorSize * smallMachine.newSb.inodeTableLba) zeroBuf 0
      sectorSize
    inodes := Function.update smallMachine.newFs.inodes smallMachine.nextInode
      { iNo := 0, iSize := 0, iOpenCnts := 1, writeDeny := false, iSectors := fun _ => 0 } }

/-- The entry of a file `a`. -/
def entryA : DirEntry := ⟨[97], 1, .regular⟩

/-- The machine after the file `a` was created in the root. -/
def oneFileMachine : Kernel :=
  { zeroRootMachine with
    disk := copy zeroRootMachine.disk (sectorSize * 676) (copy zeroBuf 0 entryA.image 0 direntSize) 0
      sectorSize
    part := zeroRootMachine.part.mark 676 true
    inodes := Function.update zeroRootMachine.inodes smallMachine.nextInode
      { iNo := 0, iSize := direntSize, iOpenCnts := 1, writeDeny := false,
        iSectors := Function.update (fun _ => 0) 0 676 } }

/-- A root without an indirect table is mounted if its direct blocks lie on the disk. -/
theorem RootMounted.of_direct {k : Kernel} (hdir : rootDir < k.nextDir)
    (hinode : (k.dirs rootDir).inode < k.nextInode) (hentry : k.part.sb.dirEntrySize = direntSize)
    (htable : (k.dirInode rootDir).iSectors directPtrs = 0)
    (hblocks : ∀ i, (k.dirInode rootDir).iSectors i ≤ maxLba)
    (hpos : (k.dirs rootDir).dirPos = 0) : RootMounted k := by
  refine ⟨hdir, hinode, hentry, by rw [htable]; exact Nat.zero_le _, fun i _ => ?_, ?_⟩
  · unfold Kernel.rootBlocks flattenBlocks
    split
    · exact hblocks i
    · rw [if_neg (by simp [htable])]
      exact Nat.zero_le _
  · rw [hpos]
    exact Nat.dvd_zero _

theorem zeroRootMachine_mounted : RootMounted zeroRootMachine :=
  .of_direct (by decide) (by decide) rfl rfl (fun _ => Nat.zero_le _) rfl

theorem zeroRootMachine_empty : ¬ zeroRootMachine.RootDelivers := by
  rintro ⟨r, p, hread⟩
  have hend : zeroRootMachine.rootRead 0 = some (none, 0) :=
    zeroRootMachine_mounted.rootRead_end le_rfl
  rw [hend] at hread
  cases hread

theorem oneFileMachine_mounted : RootMounted oneFileMachine := by
  have hsectors : (oneFileMachine.dirInode rootDir).iSectors =
      Function.update (fun _ => 0) 0 676 := rfl
  refine .of_direct (by decide) (by decide) rfl rfl (fun i => ?_) rfl
  rw [hsectors]
  by_cases hi : i = 0
  · rw [hi, Function.update_self]
    decide
  · rw [Function.update_of_ne hi]
    exact Nat.zero_le _

theorem oneFileMachine_delivers : oneFileMachine.RootDelivers := by
  have hsector : sectorOf oneFileMachine.disk 676 =
      copy zeroBuf 0 (copy zeroBuf 0 entryA.image 0 direntSize) 0 sectorSize :=
    sectorOf_copy_same _ _ _
  have htype : entryType (sectorOf oneFileMachine.disk 676) 0 = .regular := by
    rw [hsector]
    decide
  refine ⟨(sectorOf oneFileMachine.disk 676, 0), direntSize, ?_⟩
  have htable : (oneFileMachine.dirInode rootDir).iSectors directPtrs = 0 := rfl
  unfold Kernel.rootRead scanDir
  rw [if_pos htable]
  change scanBlocks _ _ _ _ _ _ (139 + 1) 0 0 = _
  unfold scanBlocks
  have hblock : flattenBlocks (oneFileMachine.dirInode rootDir).iSectors zeroBuf 0 = 676 := rfl
  have hentry : oneFileMachine.part.sb.dirEntrySize = direntSize := rfl
  have hscan : scanBlock (sectorOf oneFileMachine.disk 676) direntSize 0 (sectorSize / direntSize) 0 0 =
      some (.inr 0) := by
    change scanBlock _ _ 0 (20 + 1) 0 0 = _
    unfold scanBlock
    rw [Nat.mul_zero, if_neg (by rw [htype]; decide), if_neg (by decide), if_pos rfl]
  rw [if_neg (by decide), if_neg (by decide), hblock, if_neg (by decide), if_neg (by decide), hentry]
  simp only [hscan]
  rfl

/-- Two calls of `sys_opendir` for `/`. -/
theorem reachable_two_roots (t : Transfer) {k : Kernel} (hk : RootMounted k) (task : ℕ)
    (hrun : k.runTask task = k) :
    HandleReachable t ⟨k, [(pathRoot, rootDir), (pathRoot, rootDir)]⟩ := by
  have hopen : (sysOpendir t pathRoot).Returns (k.runTask task) (some rootDir) k := by
    rw [hrun]
    exact @returns_of_exec _ _ _ [] _ _ _ rfl
  have hstart : HandleReachable t ⟨k, []⟩ := .start ⟨hk, rfl⟩
  have hone : HandleReachable t ⟨k, [(pathRoot, rootDir)]⟩ :=
    .next hstart trivial (@HandleStep.opendir t _ task pathRoot (some rootDir) _ hopen)
  exact .next hone trivial (@HandleStep.opendir t _ task pathRoot (some rootDir) _ hopen)

/-- Two handles of a session that are not independent. -/
theorem root_handles_interfere :
    ∃ s : HandleSession, HandleReachable .repeated s ∧
      ∃ (i j : ℕ) (name name' : CString) (d d' : ℕ), i < j ∧ s.handles[i]? = some (name, d) ∧
        s.handles[j]? = some (name', d') ∧ ¬ Independent .repeated s.kernel d d' :=
  ⟨_, reachable_two_roots _ oneFileMachine_mounted 0 rfl, 0, 1, pathRoot, pathRoot, rootDir,
    rootDir, by omega, rfl, rfl, oneFileMachine_mounted.not_independent oneFileMachine_delivers⟩

/-- The theorem at two sessions with two handles of the root, which is empty in one of them. -/
theorem handles_independent_two_roots :
    HandleReachable .repeated ⟨oneFileMachine, [(pathRoot, rootDir), (pathRoot, rootDir)]⟩ ∧
      ¬ Independent .repeated oneFileMachine rootDir rootDir ∧
      HandleReachable .repeated ⟨zeroRootMachine, [(pathRoot, rootDir), (pathRoot, rootDir)]⟩ ∧
      Independent .repeated zeroRootMachine rootDir rootDir := by
  have hfile : HandleReachable .repeated ⟨oneFileMachine, [(pathRoot, rootDir), (pathRoot, rootDir)]⟩ :=
    reachable_two_roots _ oneFileMachine_mounted 0 rfl
  have hempty :
      HandleReachable .repeated ⟨zeroRootMachine, [(pathRoot, rootDir), (pathRoot, rootDir)]⟩ :=
    reachable_two_roots _ zeroRootMachine_mounted 0 rfl
  refine ⟨hfile, fun hind => ?_, hempty, ?_⟩
  · exact ((handles_independent hfile).1 0 1 pathRoot pathRoot rootDir rootDir
      (by omega) rfl rfl).mp hind ⟨rfl, rfl, oneFileMachine_delivers⟩
  · exact ((handles_independent hempty).1 0 1 pathRoot pathRoot rootDir rootDir
      (by omega) rfl rfl).mpr fun h => zeroRootMachine_empty h.2.2

end BochsOs
