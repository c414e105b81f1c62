import Mathlib.Data.List.Find
import BochsOs.Fs.Lookup

/-!
# What path lookup does

`search_file` opens and closes the directories on its way, so it is not a function of the
state.  But whatever it opens it closes: `Restored k₀ k` says that nothing is left of the
calls between `k₀` and `k` but objects at addresses that were free before, and `Holding`
that all that is left is one directory handle.  Every function of the lookup is specified
with these two, for any environment `e`: it finds what `Kernel.find` finds on the disk, or,
where memory may run out, nothing.
-/

namespace BochsOs

open ByteMemory Suspend Suspend.Prog NameTrees Words

/-! ## States that differ in nothing that counts -/

/-- The same state but for objects at addresses that were free. -/
structure Restored (k₀ k : Kernel) : Prop where
  rest : k = { k₀ with
    inodes := k.inodes, dirs := k.dirs, nextInode := k.nextInode, nextDir := k.nextDir }
  inodes : ∀ a < k₀.nextInode, k.inodes a = k₀.inodes a
  dirs : ∀ d < k₀.nextDir, k.dirs d = k₀.dirs d
  nextInode : k₀.nextInode ≤ k.nextInode
  nextDir : k₀.nextDir ≤ k.nextDir

namespace Restored

variable {t : Transfer} {k₀ k k' : Kernel}

theorem refl (k : Kernel) : Restored k k :=
  ⟨rfl, fun _ _ => rfl, fun _ _ => rfl, le_rfl, le_rfl⟩

theorem trans (h : Restored k₀ k) (h' : Restored k k') : Restored k₀ k' where
  rest := by
    rw [h'.rest, h.rest]
  inodes a ha := (h'.inodes a (ha.trans_le h.nextInode)).trans (h.inodes a ha)
  dirs d hd := (h'.dirs d (hd.trans_le h.nextDir)).trans (h.dirs d hd)
  nextInode := h.nextInode.trans h'.nextInode
  nextDir := h.nextDir.trans h'.nextDir

theorem disk (h : Restored k₀ k) : k.disk = k₀.disk := by rw [h.rest]

theorem part (h : Restored k₀ k) : k.part = k₀.part := by rw [h.rest]

theorem openInodes (h : Restored k₀ k) : k.openInodes = k₀.openInodes := by
  rw [h.rest]

theorem fileTable (h : Restored k₀ k) : k.fileTable = k₀.fileTable := by rw [h.rest]

theorem liveDirs (h : Restored k₀ k) : k.liveDirs = k₀.liveDirs := by rw [h.rest]

theorem cur (h : Restored k₀ k) : k.cur = k₀.cur := by
  rw [h.rest]
  rfl

variable (hk : k₀.CacheOk)

include hk

theorem findOpen (h : Restored k₀ k) (n : ℕ) : k.findOpen n = k₀.findOpen n := by
  rw [Kernel.findOpen, Kernel.findOpen, h.openInodes]
  refine List.find?_congr fun a ha => ?_
  rw [h.inodes a (hk.fresh a ha)]

theorem cacheOk (h : Restored k₀ k) : k.CacheOk where
  counts a ha := by
    rw [h.openInodes] at ha
    rw [h.inodes a (hk.fresh a ha)]
    exact hk.counts a ha
  fresh a ha := by
    rw [h.openInodes] at ha
    exact (hk.fresh a ha).trans_le h.nextInode
  files fd hfd a ha := by
    rw [h.fileTable] at ha
    exact (hk.files fd hfd a ha).trans_le h.nextInode
  freshDir := hk.freshDir.trans_le h.nextDir
  root := by
    rw [h.findOpen hk, h.dirs rootDir hk.freshDir]
    exact hk.root
  entrySize := by
    rw [h.part]
    exact hk.entrySize
  inodeTable := by
    rw [h.part]
    exact hk.inodeTable

theorem inodeOf (h : Restored k₀ k) (n : ℕ) : k.inodeOf t n = k₀.inodeOf t n := by
  unfold Kernel.inodeOf
  rw [h.findOpen hk]
  split
  next a hfind =>
    have hmem := List.mem_of_find?_eq_some hfind
    exact h.inodes a (hk.fresh a hmem)
  next =>
    unfold Kernel.diskInode
    rw [h.disk, h.part]

theorem sameTree (h : Restored k₀ k) : SameTree t k₀ k where
  disk := h.disk
  part := h.part
  inodeOf n := by
    rw [h.inodeOf hk]
    exact .refl _

end Restored

/-! ## Opening and closing inodes -/

/-- The state after `inode_close`. -/
def Kernel.closeInode (k : Kernel) (a : ℕ) : Kernel :=
  if (k.inodes a).dropOpenCnt.iOpenCnts = 0 then
    { k.setInode a (k.inodes a).dropOpenCnt with openInodes := k.openInodes.erase a }
  else k.setInode a (k.inodes a).dropOpenCnt

/-- Closing an inode concerns the inodes only. -/
theorem Kernel.closeInode_rest (k : Kernel) (a : ℕ) : k.closeInode a =
    { k with inodes := (k.closeInode a).inodes, openInodes := (k.closeInode a).openInodes } := by
  unfold Kernel.closeInode
  split <;> rfl

@[simp] theorem ensures_inodeClose {e : Env} {a : ℕ} {Q : Unit → Kernel → Prop} {k : Kernel} :
    (inodeClose a).ensures e Q k ↔ Q () (k.closeInode a) := by
  simp only [inodeClose, ensures_bind, ensures_read, Kernel.closeInode]
  split <;> exact Iff.rfl

/-- The same directories, and the same inodes but for their open counts. -/
structure Looks (t : Transfer) (k₀ k : Kernel) : Prop where
  tree : SameTree t k₀ k
  cache : k.CacheOk
  files : k.fileTable = k₀.fileTable
  inodes : ∀ a < k₀.nextInode, (k₀.inodes a).SameContent (k.inodes a)
  nodes : ∀ n, ∀ a ∈ k₀.findOpen n, k.findOpen n = some a

theorem Restored.looks {t : Transfer} {k₀ k : Kernel} (hk : k₀.CacheOk) (h : Restored k₀ k) :
    Looks t k₀ k where
  tree := h.sameTree hk
  cache := h.cacheOk hk
  files := h.fileTable
  inodes a ha := by
    rw [h.inodes a ha]
    exact .refl _
  nodes n a ha := (h.findOpen hk n).trans ha

theorem Looks.trans {t : Transfer} {k₀ k k' : Kernel} (h : Looks t k₀ k) (h' : Looks t k k')
    (hnext : k₀.nextInode ≤ k.nextInode) : Looks t k₀ k' where
  tree :=
    { disk := h'.tree.disk.trans h.tree.disk
      part := h'.tree.part.trans h.tree.part
      inodeOf := fun n => (h.tree.inodeOf n).trans (h'.tree.inodeOf n) }
  cache := h'.cache
  files := h'.files.trans h.files
  inodes a ha := (h.inodes a ha).trans (h'.inodes a (ha.trans_le hnext))
  nodes n a ha := h'.nodes n a (h.nodes n a ha)

/-- The tree is consistent still. -/
theorem ConsistentTree.looks {t : Transfer} {k₀ k : Kernel} (hk : ConsistentTree t k₀)
    (h : Looks t k₀ k) : ConsistentTree t k :=
  hk.of_sameTree h.tree h.cache

/-- The inode `n` has been opened at `a`, and nothing else happened since `k₀`. -/
structure Opened (t : Transfer) (k₀ : Kernel) (n a : ℕ) (k : Kernel) : Prop where
  closes : Restored k₀ (k.closeInode a)
  node : ∀ a' ∈ k₀.findOpen n, a = a'
  inode : (k₀.inodeOf t n).SameContent (k.inodes a)
  mem : a ∈ k.openInodes
  looks : Looks t k₀ k

/-- The sectors of an inode lie in the inode table. -/
theorem inodePosition_lt {t : Transfer} {sb : SuperBlock} {n : ℕ} (hn : n < maxFilesPerPart) :
    ∀ i < (inodePosition sb n).secs,
      t.sector (inodePosition sb n).secLba i < sb.inodeTableLba + inodeTableSects := by
  have hsects : inodeTableSects = 608 := rfl
  unfold maxFilesPerPart at hn
  have hfirst : (inodePosition sb n).secLba = sb.inodeTableLba + n * 76 / 512 := rfl
  have hone : sb.inodeTableLba + n * 76 / 512 < sb.inodeTableLba + inodeTableSects := by omega
  intro i hi
  rw [hfirst]
  cases t with
  | repeated => exact hone
  | consecutive =>
      change sb.inodeTableLba + n * 76 / 512 + i < sb.inodeTableLba + inodeTableSects
      rcases Nat.eq_zero_or_pos i with rfl | hpos
      · exact hone
      · -- the inode reaches into a second sector
        have htwo : 512 < n * 76 % 512 + 76 ∧ i < 2 := by
          unfold InodePosition.secs at hi
          split at hi
          next h =>
            have h' : decide (512 < n * 76 % 512 + 76) = true := h
            exact ⟨of_decide_eq_true h', hi⟩
          next => omega
        omega

theorem inodePosition_le {t : Transfer} {sb : SuperBlock}
    (htable : sb.inodeTableLba + inodeTableSects ≤ maxLba + 1) {n : ℕ} (hn : n < maxFilesPerPart) :
    ∀ i < (inodePosition sb n).secs, t.sector (inodePosition sb n).secLba i ≤ maxLba :=
  fun i hi => by
    have hlt : t.sector (inodePosition sb n).secLba i < sb.inodeTableLba + inodeTableSects :=
      inodePosition_lt hn i hi
    omega

/-- The state after `inode_open` of an inode that is open. -/
def Kernel.reopen (k : Kernel) (a : ℕ) : Kernel :=
  k.setInode a { k.inodes a with iOpenCnts := (k.inodes a).iOpenCnts + 1 }

/-- The state after `inode_open` of an inode that is read from the table. -/
def Kernel.load (k : Kernel) (inode : Inode) : Kernel :=
  { k.setInode k.nextInode { inode with iOpenCnts := 1 } with
    nextInode := k.nextInode + 1
    openInodes := k.nextInode :: k.openInodes }

theorem Kernel.reopen_self (k : Kernel) (a : ℕ) :
    (k.reopen a).inodes a = { k.inodes a with iOpenCnts := (k.inodes a).iOpenCnts + 1 } :=
  Function.update_self _ _ _

theorem Kernel.load_self (k : Kernel) (inode : Inode) :
    (k.load inode).inodes k.nextInode = { inode with iOpenCnts := 1 } :=
  Function.update_self _ _ _

/-- Closing undoes opening. -/
theorem Kernel.reopen_close {k : Kernel} {a : ℕ} (hcount : 0 < (k.inodes a).iOpenCnts) :
    (k.reopen a).closeInode a = k := by
  have hdrop : ((k.reopen a).inodes a).dropOpenCnt = k.inodes a := by
    rw [k.reopen_self, Inode.dropOpenCnt, subU32_of_le (Nat.le_add_left 1 _)]
    rfl
  have hsame : Function.update (k.reopen a).inodes a (k.inodes a) = k.inodes := by
    change Function.update (Function.update k.inodes a _) a (k.inodes a) = k.inodes
    rw [Function.update_idem, Function.update_eq_self]
  rw [Kernel.closeInode, hdrop, if_neg (by omega), Kernel.setInode, hsame]
  rfl

theorem Kernel.load_close (k : Kernel) (inode : Inode) :
    Restored k ((k.load inode).closeInode k.nextInode) := by
  have hdrop : (((k.load inode).inodes k.nextInode).dropOpenCnt).iOpenCnts = 0 := by
    rw [k.load_self]
    exact subU32_of_le (le_refl 1)
  rw [Kernel.closeInode, if_pos hdrop]
  refine ⟨?_, fun a ha => ?_, fun _ _ => rfl, Nat.le_succ _, le_rfl⟩
  · have hopen : (k.nextInode :: k.openInodes).erase k.nextInode = k.openInodes :=
      List.erase_cons_head _ _
    change _ = { k with inodes := _, dirs := k.dirs, nextInode := _, nextDir := k.nextDir }
    rw [← hopen]
    rfl
  · have hne : a ≠ k.nextInode := by omega
    change Function.update (Function.update k.inodes _ _) _ _ a = k.inodes a
    rw [Function.update_of_ne hne, Function.update_of_ne hne]

theorem Kernel.reopen_content (k : Kernel) (a b : ℕ) :
    (k.inodes b).SameContent ((k.reopen a).inodes b) := by
  by_cases hab : b = a
  · rw [hab, k.reopen_self]
    exact Inode.sameContent_count _ _
  · have hb : (k.reopen a).inodes b = k.inodes b := Function.update_of_ne hab _ _
    rw [hb]
    exact .refl _

theorem Kernel.load_other (k : Kernel) (inode : Inode) {a : ℕ} (ha : a < k.nextInode) :
    (k.load inode).inodes a = k.inodes a :=
  Function.update_of_ne (Nat.ne_of_lt ha) _ _

theorem Kernel.reopen_findOpen (k : Kernel) (a n : ℕ) : (k.reopen a).findOpen n = k.findOpen n := by
  unfold Kernel.findOpen
  refine List.find?_congr fun b _ => ?_
  rw [(k.reopen_content a b).iNo]

theorem Kernel.load_findOpen {k : Kernel} (hk : k.CacheOk) (inode : Inode) (n : ℕ) :
    (k.load inode).findOpen n = if inode.iNo = n then some k.nextInode else k.findOpen n := by
  have hopen : (k.load inode).openInodes = k.nextInode :: k.openInodes := rfl
  have hrest : k.openInodes.find? (fun a => decide (((k.load inode).inodes a).iNo = n)) =
      k.findOpen n :=
    List.find?_congr fun a ha => by rw [k.load_other inode (hk.fresh a ha)]
  rw [Kernel.findOpen, hopen, List.find?_cons, k.load_self, hrest]
  split
  next h => rw [if_pos (of_decide_eq_true h)]
  next h => rw [if_neg (of_decide_eq_false h)]

section Looks

variable {t : Transfer} {k : Kernel} (hk : k.CacheOk)

include hk

/-- Opening an inode that is open changes its count only. -/
theorem Kernel.reopen_looks (a : ℕ) : Looks t k (k.reopen a) where
  tree :=
    { disk := rfl
      part := rfl
      inodeOf := fun n => by
        unfold Kernel.inodeOf
        rw [k.reopen_findOpen]
        cases k.findOpen n with
        | some b => exact k.reopen_content a b
        | none => exact .refl _ }
  cache :=
    { counts := fun b hb => by
        by_cases hab : b = a
        · rw [hab, k.reopen_self]
          exact Nat.succ_pos _
        · have hsame : (k.reopen a).inodes b = k.inodes b := Function.update_of_ne hab _ _
          rw [hsame]
          exact hk.counts b hb
      fresh := hk.fresh
      files := hk.files
      freshDir := hk.freshDir
      root := (k.reopen_findOpen a 0).trans hk.root
      entrySize := hk.entrySize
      inodeTable := hk.inodeTable }
  files := rfl
  inodes b _ := k.reopen_content a b
  nodes n b hb := (k.reopen_findOpen a n).trans hb

/-- Opening an inode from the table adds it to the open ones. -/
theorem Kernel.load_looks {n : ℕ} (hnone : k.findOpen n = none) (hiNo : (k.diskInode t n).iNo = n) :
    Looks t k (k.load (k.diskInode t n)) where
  tree :=
    { disk := rfl
      part := rfl
      inodeOf := fun m => by
        unfold Kernel.inodeOf
        rw [Kernel.load_findOpen hk, hiNo]
        by_cases hnm : n = m
        · rw [if_pos hnm, ← hnm, hnone]
          dsimp only
          rw [k.load_self]
          exact Inode.sameContent_count _ _
        · rw [if_neg hnm]
          cases hfind : k.findOpen m with
          | some b =>
              have hb := hk.fresh b (List.mem_of_find?_eq_some hfind)
              dsimp only
              rw [k.load_other _ hb]
              exact .refl _
          | none => exact .refl _ }
  cache :=
    { counts := fun b hb => by
        rcases List.mem_cons.mp hb with rfl | hb
        · rw [k.load_self]
          exact Nat.one_pos
        · rw [k.load_other _ (hk.fresh b hb)]
          exact hk.counts b hb
      fresh := fun b hb => by
        rcases List.mem_cons.mp hb with rfl | hb
        · exact Nat.lt_succ_self _
        · exact (hk.fresh b hb).trans (Nat.lt_succ_self _)
      files := fun fd hfd b hb => (hk.files fd hfd b hb).trans (Nat.lt_succ_self _)
      freshDir := hk.freshDir
      root := by
        have hne : n ≠ 0 := by
          rintro rfl
          rw [hk.root] at hnone
          cases hnone
        rw [Kernel.load_findOpen hk, hiNo, if_neg hne]
        exact hk.root
      entrySize := hk.entrySize
      inodeTable := hk.inodeTable }
  files := rfl
  inodes b hb := by
    rw [k.load_other _ hb]
    exact .refl _
  nodes m b hb := by
    have hne : n ≠ m := by
      rintro rfl
      rw [hnone] at hb
      cases hb
    rw [Kernel.load_findOpen hk, hiNo, if_neg hne]
    exact hb

end Looks

section InodeOpen

variable {t : Transfer} {e : Env} (he : FairEnv e) {k₀ k : Kernel}

include he

/-- `inode_open` finds the inode among the open ones or reads it from the table. -/
theorem ensures_inodeOpen_cases (hk : k.CacheOk) {n : ℕ} (hn : n < maxFilesPerPart)
    {Q : ℕ → Kernel → Prop} (hopen : ∀ a ∈ k.findOpen n, Q a (k.reopen a))
    (hload : k.findOpen n = none → Q k.nextInode (k.load (k.diskInode t n))) :
    (inodeOpen t n).ensures e Q k := by
  simp only [inodeOpen, ensures_bind, ensures_read]
  rcases hfind : k.findOpen n with _ | a
  · simp only [inodeLocate, ensures_bind]
    rw [ensures_assert (decide_eq_true hn)]
    simp only [ensures_read, ensures_pure]
    refine ensures_sysMallocUnchecked he ?_
    simp only [ensures_write]
    refine ensures_sysMallocUnchecked he ?_
    rw [ensures_ideRead (inodePosition_le hk.inodeTable hn)]
    simp only [ensures_modify]
    exact hload hfind
  · simp only [ensures_bind, ensures_write, ensures_pure]
    exact hopen a hfind

theorem ensures_inodeOpen (hk : k₀.CacheOk) {n : ℕ} (hn : n < maxFilesPerPart)
    (hiNo : (k₀.inodeOf t n).iNo = n) (hback : Restored k₀ k) {Q : ℕ → Kernel → Prop}
    (hQ : ∀ a k', Opened t k₀ n a k' → Q a k') : (inodeOpen t n).ensures e Q k := by
  have hcache := hback.cacheOk hk
  have hlooks := hback.looks (t := t) hk
  have hview := hback.inodeOf (t := t) hk n
  rw [← hview] at hiNo
  unfold Kernel.inodeOf at hview hiNo
  refine ensures_inodeOpen_cases he hcache hn (fun a hfind => ?_) fun hfind => ?_
  · rw [hfind] at hview
    have hmem := List.mem_of_find?_eq_some hfind
    refine hQ _ _ ⟨?_, fun a' ha' => ?_, ?_, hmem,
      hlooks.trans (Kernel.reopen_looks hcache a) hback.nextInode⟩
    · rw [Kernel.reopen_close (hcache.counts a hmem)]
      exact hback
    · rw [← hback.findOpen hk, hfind] at ha'
      exact Option.some.inj ha'
    · rw [k.reopen_self, Kernel.inodeOf, ← hview]
      exact ⟨rfl, rfl, rfl, rfl⟩
  · rw [hfind] at hview hiNo
    refine hQ _ _ ⟨hback.trans (k.load_close _), fun a' ha' => ?_, ?_, List.mem_cons_self,
      hlooks.trans (Kernel.load_looks hcache hfind hiNo) hback.nextInode⟩
    · rw [← hback.findOpen hk, hfind] at ha'
      cases ha'
    · rw [k.load_self, Kernel.inodeOf, ← hview]
      exact Inode.sameContent_count _ _

end InodeOpen

/-! ## Opening and closing directories -/

/-- The state after `dir_close`. -/
def Kernel.closeDir (k : Kernel) (d : ℕ) : Kernel :=
  if d = rootDir then k
  else { k.closeInode (k.dirs d).inode with liveDirs := k.liveDirs.erase d }

/-- The state in which a new handle stands for the inode at `a`. -/
def Kernel.addDir (k : Kernel) (a : ℕ) : Kernel :=
  { k with
    dirs := Function.update k.dirs k.nextDir ⟨a, 0⟩
    nextDir := k.nextDir + 1
    liveDirs := k.nextDir :: k.liveDirs }

/-- The handle `d` stands for the directory `n`, and nothing else is left of what
happened since `k₀`. -/
structure Holding (t : Transfer) (k₀ : Kernel) (n d : ℕ) (k : Kernel) : Prop where
  closes : Restored k₀ (k.closeDir d)
  live : d = rootDir ∨ d ∈ k.liveDirs
  bound : d < k.nextDir
  node : ∀ a ∈ k₀.findOpen n, (k.dirs d).inode = a
  inode : (k₀.inodeOf t n).SameContent (k.dirInode d)
  mem : (k.dirs d).inode ∈ k.openInodes
  looks : Looks t k₀ k

theorem Kernel.closeDir_rest (k : Kernel) (d : ℕ) : k.closeDir d =
    { k with
      inodes := (k.closeDir d).inodes
      openInodes := (k.closeDir d).openInodes
      liveDirs := (k.closeDir d).liveDirs } := by
  unfold Kernel.closeDir
  split
  next => rfl
  next => rw [k.closeInode_rest]

theorem Kernel.closeInode_addDir (k : Kernel) (a : ℕ) : (k.addDir a).closeInode a =
    { k.closeInode a with
      dirs := Function.update k.dirs k.nextDir ⟨a, 0⟩
      nextDir := k.nextDir + 1
      liveDirs := k.nextDir :: k.liveDirs } := by
  by_cases hzero : (k.inodes a).dropOpenCnt.iOpenCnts = 0
  · have hzero' : ((k.addDir a).inodes a).dropOpenCnt.iOpenCnts = 0 := hzero
    rw [Kernel.closeInode, if_pos hzero', Kernel.closeInode, if_pos hzero]
    rfl
  · have hzero' : ¬ ((k.addDir a).inodes a).dropOpenCnt.iOpenCnts = 0 := hzero
    rw [Kernel.closeInode, if_neg hzero', Kernel.closeInode, if_neg hzero]
    rfl

theorem Opened.nextDir {t : Transfer} {k₀ k : Kernel} {n a : ℕ} (h : Opened t k₀ n a k) :
    k₀.nextDir ≤ k.nextDir := by
  have := h.closes.nextDir
  rwa [k.closeInode_rest a] at this

namespace Holding

variable {t : Transfer} {k₀ k : Kernel} {n d : ℕ}

/-- The handle of the root is always there. -/
theorem root (hk : k₀.CacheOk) (h : Restored k₀ k) : Holding t k₀ 0 rootDir k := by
  have hcache := h.cacheOk hk
  refine ⟨?_, Or.inl rfl, hcache.freshDir, fun a ha => ?_, ?_,
    List.mem_of_find?_eq_some hcache.root, h.looks hk⟩
  · rw [Kernel.closeDir, if_pos rfl]
    exact h
  · rw [← h.findOpen hk, hcache.root] at ha
    exact Option.some.inj ha
  · rw [← h.inodeOf hk, Kernel.inodeOf, hcache.root]
    exact .refl _

/-- A new handle of an inode that was just opened. -/
theorem of_opened (hk : k₀.CacheOk) {a : ℕ} (h : Opened t k₀ n a k) :
    Holding t k₀ n k.nextDir (k.addDir a) := by
  have hnext := h.nextDir
  have hroot : k.nextDir ≠ rootDir := (hk.freshDir.trans_le hnext).ne'
  have hself : (k.addDir a).dirs k.nextDir = ⟨a, 0⟩ := Function.update_self _ _ _
  have hinode : (k.addDir a).dirInode k.nextDir = k.inodes a := by
    rw [Kernel.dirInode, hself]
    rfl
  have hclose : (k.addDir a).closeDir k.nextDir =
      { k.closeInode a with
        dirs := Function.update k.dirs k.nextDir ⟨a, 0⟩
        nextDir := k.nextDir + 1 } := by
    have hlive : (k.addDir a).liveDirs.erase k.nextDir = k.liveDirs := List.erase_cons_head _ _
    rw [Kernel.closeDir, if_neg hroot, hself, k.closeInode_addDir, hlive, k.closeInode_rest a]
  refine ⟨?_, Or.inr List.mem_cons_self, Nat.lt_succ_self _, fun a' ha' => ?_, ?_, ?_, ?_⟩
  · rw [hclose]
    refine h.closes.trans ⟨rfl, fun _ _ => rfl, fun d hd => ?_, le_rfl, ?_⟩
    · rw [k.closeInode_rest a] at hd ⊢
      exact Function.update_of_ne (Nat.ne_of_lt hd) _ _
    · rw [k.closeInode_rest a]
      exact Nat.le_succ _
  · rw [hself]
    exact h.node a' ha'
  · rw [hinode]
    exact h.inode
  · rw [hself]
    exact h.mem
  · have hcache := h.looks.cache
    refine ⟨⟨h.looks.tree.disk, h.looks.tree.part, h.looks.tree.inodeOf⟩,
      ⟨hcache.counts, hcache.fresh, hcache.files, hcache.freshDir.trans (Nat.lt_succ_self _), ?_,
        hcache.entrySize, hcache.inodeTable⟩, h.looks.files, h.looks.inodes, h.looks.nodes⟩
    have hdir : (k.addDir a).dirs rootDir = k.dirs rootDir := Function.update_of_ne hroot.symm _ _
    rw [hdir]
    exact hcache.root

end Holding

/-! ### With another handle open -/

theorem Restored.closeInode {k k' : Kernel} (h : Restored k k') {a : ℕ} (ha : a < k.nextInode) :
    Restored (k.closeInode a) (k'.closeInode a) := by
  have hset : Restored (k.setInode a (k.inodes a).dropOpenCnt)
      (k'.setInode a (k.inodes a).dropOpenCnt) := by
    refine ⟨?_, fun b hb => ?_, h.dirs, h.nextInode, h.nextDir⟩
    · rw [h.rest]
      rfl
    · simp only [Kernel.setInode, Function.update_apply]
      rw [h.inodes b hb]
  unfold Kernel.closeInode
  rw [h.inodes a ha]
  by_cases hzero : (k.inodes a).dropOpenCnt.iOpenCnts = 0
  · rw [if_pos hzero, if_pos hzero, h.openInodes]
    refine ⟨?_, hset.inodes, hset.dirs, hset.nextInode, hset.nextDir⟩
    rw [h.rest]
    rfl
  · rw [if_neg hzero, if_neg hzero]
    exact hset

theorem Restored.closeDir {k k' : Kernel} (h : Restored k k') {d : ℕ} (hd : d < k.nextDir)
    (ha : (k.dirs d).inode < k.nextInode) : Restored (k.closeDir d) (k'.closeDir d) := by
  unfold Kernel.closeDir
  by_cases hroot : d = rootDir
  · rw [if_pos hroot, if_pos hroot]
    exact h
  · rw [if_neg hroot, if_neg hroot, h.dirs d hd, h.liveDirs]
    have hclose := h.closeInode ha
    refine ⟨?_, hclose.inodes, hclose.dirs, hclose.nextInode, hclose.nextDir⟩
    rw [hclose.rest]

theorem Holding.nextInode {t : Transfer} {k₀ k : Kernel} {n d : ℕ} (h : Holding t k₀ n d k) :
    k₀.nextInode ≤ k.nextInode := by
  have := h.closes.nextInode
  rwa [k.closeDir_rest d] at this

/-- The handle is still the only thing left after calls that leave nothing. -/
theorem Holding.restored {t : Transfer} {k₀ k k' : Kernel} {n d : ℕ} (h : Holding t k₀ n d k)
    (hback : Restored k k') : Holding t k₀ n d k' := by
  have hfresh := h.looks.cache.fresh _ h.mem
  have hdir : k'.dirs d = k.dirs d := hback.dirs d h.bound
  refine ⟨h.closes.trans (hback.closeDir h.bound hfresh), ?_, h.bound.trans_le hback.nextDir, ?_, ?_,
    ?_, h.looks.trans (hback.looks h.looks.cache) h.nextInode⟩
  · rw [hback.liveDirs]
    exact h.live
  · rw [hdir]
    exact h.node
  · rw [Kernel.dirInode, hdir, hback.inodes _ hfresh]
    exact h.inode
  · rw [hdir, hback.openInodes]
    exact h.mem

section DirOpen

variable {t : Transfer} {e : Env} {k₀ k : Kernel}

theorem ensures_dirOpen (he : FairEnv e) (hk : k₀.CacheOk) {n : ℕ} (hn : k₀.DirOk t n)
    (hback : Restored k₀ k) {Q : ℕ → Kernel → Prop}
    (hQ : ∀ d k', k₀.nextDir ≤ d → Holding t k₀ n d k' → Q d k') : (dirOpen t n).ensures e Q k := by
  simp only [dirOpen, ensures_bind]
  refine ensures_sysMallocUnchecked he ?_
  refine ensures_inodeOpen he hk hn.small hn.iNo hback fun a k₁ h => ?_
  exact hQ _ _ h.nextDir (Holding.of_opened hk h)

/-- A directory handle that is live can be closed. -/
theorem ensures_closeDir {d : ℕ} (hlive : d = rootDir ∨ d ∈ k.liveDirs)
    {Q : Unit → Kernel → Prop} : (dirClose d).ensures e Q k ↔ Q () (k.closeDir d) := by
  unfold dirClose Kernel.closeDir
  by_cases hroot : d = rootDir
  · rw [if_pos hroot, if_pos hroot]
    exact Iff.rfl
  · rw [if_neg hroot, if_neg hroot]
    simp only [ensures_bind, ensures_read, if_pos (hlive.resolve_left hroot), ensures_inodeClose,
      ensures_modify]
    have hrest : (k.closeInode (k.dirs d).inode).liveDirs = k.liveDirs := by
      rw [k.closeInode_rest]
    rw [hrest]

theorem ensures_dirClose {n d : ℕ} (h : Holding t k₀ n d k) {Q : Unit → Kernel → Prop}
    (hQ : ∀ k', Restored k₀ k' → Q () k') : (dirClose d).ensures e Q k :=
  (ensures_closeDir h.live).mpr (hQ _ h.closes)

end DirOpen

/-! ## Looking up a name -/

section SearchDirEntry

variable {t : Transfer} {e : Env} {k₀ k : Kernel}

theorem ensures_readIndirect {iSectors : ℕ → ℕ} (htable : iSectors directPtrs ≤ maxLba)
    {Q : Bytes → Kernel → Prop} :
    (readIndirect t iSectors).ensures e Q k ↔
      Q (if iSectors directPtrs = 0 then zeroBuf else sectorOf k.disk (iSectors directPtrs)) k := by
  unfold readIndirect
  by_cases hzero : iSectors directPtrs = 0
  · rw [if_neg (by simpa using hzero), if_pos hzero, ensures_pure]
  · rw [if_pos hzero, if_neg hzero, ensures_ideRead_one htable]

/-- A search through the blocks of a directory is a search through its slots. -/
theorem ensures_searchBlocks {allBlocks : ℕ → ℕ} {name : List UInt8} {left blkI : ℕ}
    (hlba : ∀ i < blkI + left, allBlocks i ≤ maxLba) {Q : Option (ℕ × FileType) → Kernel → Prop} :
    (searchBlocks t allBlocks name left blkI).ensures e Q k ↔
      Q (((dirSlots k.disk k.entriesPerSec allBlocks left blkI).find? (·.hasName name)).map
        fun s => (s.iNo, s.fType)) k := by
  induction left generalizing blkI with
  | zero => exact Iff.rfl
  | succ left ih =>
      have ih := @ih (blkI + 1) fun i hi => hlba i (by omega)
      rw [searchBlocks, dirSlots]
      split
      next hzero => rw [List.nil_append, ih]
      next hzero =>
        simp only [ensures_bind, ensures_ideRead_one (hlba blkI (by omega)), ensures_read]
        rw [List.find?_append, blockSlots, List.find?_map]
        have hcomp : (fun s : Slot => s.hasName name) ∘
            (fun i => (⟨sectorOf k.disk (allBlocks blkI), direntSize * i⟩ : Slot)) =
            fun i => strEq (sectorOf k.disk (allBlocks blkI)) (direntSize * i) name := rfl
        rw [hcomp]
        split
        next i hfind =>
          rw [hfind]
          exact Iff.rfl
        next hfind =>
          rw [hfind]
          exact ih

/-- `search_dir_entry` finds what stands on the disk, or nothing when memory runs out. -/
theorem ensures_searchDirEntry (he : FairEnv e) {n d : ℕ} (hn : k₀.DirOk t n)
    (h : Holding t k₀ n d k) {name : List UInt8} {Q : Option (ℕ × FileType) → Kernel → Prop}
    (hfound : Q (k₀.lookup t n name) k) (hfail : e.stops → Q none k) :
    (searchDirEntry t d name).ensures e Q k := by
  rw [searchDirEntry, ensures_bind]
  refine ensures_sysMalloc he ?_ fun hstops => hfail hstops
  have htable := hn.table
  have hblocks := hn.blocks
  simp only [if_true, ensures_bind, ensures_read]
  rw [h.inode.iSectors, ensures_readIndirect htable]
  refine ensures_sysMallocUnchecked he ?_
  have hper : k.entriesPerSec = k₀.entriesPerSec := by
    rw [Kernel.entriesPerSec, h.looks.tree.part]
    rfl
  rw [h.looks.tree.disk]
  change ensures e (searchBlocks t (k₀.blocks (k₀.inodeOf t n).iSectors) name flattenPtrs 0) Q k
  rw [ensures_searchBlocks fun i hi => hblocks i (by omega), h.looks.tree.disk, hper]
  exact hfound

end SearchDirEntry

/-! ## Following a path -/

/-- What `search_file` finds: the number, the directory whose handle it leaves in the
record, the type and the names walked, and whether that handle is a new one. -/
structure Found where
  iNo : Option ℕ
  parent : ℕ
  fileType : FileType
  searched : List (List UInt8)
  ownHandle : Bool

/-- The names that are looked up from directory `n` on, with `parent` the directory before
it, `iNo` the last number found, and `own` if the handle of `n` is a new one. -/
def Kernel.find (t : Transfer) (k : Kernel) :
    (n parent iNo : ℕ) → (own : Bool) → (searched names : List (List UInt8)) → Found
  | _, parent, iNo, _, searched, [] => ⟨asInt iNo, parent, .directory, searched, true⟩
  | n, parent, _, own, searched, w :: ws =>
      match k.lookup t n w with
      | none => ⟨none, n, .unknown, searched ++ [w], own⟩
      | some (m, .regular) => ⟨asInt m, n, .regular, searched ++ [w], own⟩
      | some (m, .directory) => k.find t m n m true (searched ++ [w]) ws
      | some (m, _) => k.find t n parent m own (searched ++ [w]) ws

/-- The names of a path whose first name is already taken off. -/
def namesOf (name : List UInt8) (subPath : Option (List UInt8)) : List (List UInt8) :=
  if name = [] then [] else name :: words slash (subPath.getD [])

theorem eq_of_head?_namesOf {name v : List UInt8} {subPath : Option (List UInt8)}
    (hv : v ∈ (namesOf name subPath).head?) : v = name := by
  unfold namesOf at hv
  split at hv
  · cases hv
  · exact (Option.some.inj hv).symm

/-- `path_parse` takes off the first name. -/
theorem namesOf_pathParse (path : List UInt8) :
    namesOf (pathParse path).1 (pathParse path).2 = words slash path := by
  rw [words_eq]
  unfold namesOf pathParse
  dsimp only
  split
  next => rfl
  next =>
    congr 2
    split
    next hrest => rw [hrest]; rfl
    next => rfl

theorem namesOf_nextName (subPath : Option (List UInt8)) :
    namesOf (nextName subPath).1 (nextName subPath).2 = words slash (subPath.getD []) := by
  cases subPath with
  | none => exact words_nil.symm
  | some path => exact namesOf_pathParse path

/-- The result of `search_file` is what stands on the disk. -/
structure Matches (t : Transfer) (k₀ : Kernel) (f : Found) (r : Option ℕ × PathSearchRecord)
    (k : Kernel) : Prop where
  iNo : r.1 = f.iNo
  fileType : r.2.fileType = f.fileType
  searchedPath : r.2.searchedPath = join slash f.searched
  parentDir : Holding t k₀ f.parent r.2.parentDir k
  ownHandle : r.2.parentDir = rootDir ↔ f.ownHandle = false

/-- The lookup was given up for want of memory. -/
structure GivenUp (t : Transfer) (k₀ : Kernel) (r : Option ℕ × PathSearchRecord) (k : Kernel) :
    Prop where
  iNo : r.1 = none
  fileType : r.2.fileType = .unknown
  parentDir : ∃ m, k₀.IsDir t m ∧ Holding t k₀ m r.2.parentDir k

/-- The directories of a tree are found from each other. -/
theorem Kernel.IsDir.step {t : Transfer} {k : Kernel} {n m : ℕ} {w : List UInt8} (hn : k.IsDir t n)
    (hlookup : k.lookup t n w = some (m, .directory)) : k.IsDir t m := by
  obtain ⟨ws, hws⟩ := hn
  exact ⟨ws ++ [w], walk_snoc.mpr ⟨n, hws, Kernel.subdir_eq_some.mpr hlookup⟩⟩

theorem Kernel.isDir_root (t : Transfer) (k : Kernel) : k.IsDir t 0 := ⟨[], rfl⟩

/-- Where a walk stands: the names behind it, and room for those that are left. -/
structure Walk.Stands (w : Walk) (fuel : ℕ) (searched : List (List UInt8)) : Prop where
  fuel : (namesOf w.name w.subPath).length < fuel
  searchedPath : w.searchedPath = join slash searched
  length : (join slash (searched ++ namesOf w.name w.subPath)).length < maxPathLen

namespace Walk.Stands

variable {w w' : Walk} {fuel : ℕ} {searched : List (List UInt8)}

theorem path (h : w.Stands fuel searched) : w.searchedPath.length < maxPathLen := by
  have := h.length
  rw [join_append, List.length_append] at this
  rw [h.searchedPath]
  omega

theorem snoc (h : w.Stands fuel searched) :
    w.searchedPath ++ slash :: w.name = join slash (searched ++ [w.name]) := by
  rw [h.searchedPath, join_append, join_cons, join_nil, List.append_nil]

/-- One name further. -/
theorem next (h : w.Stands (fuel + 1) searched) (hname : w.name ≠ [])
    (hpath : w'.searchedPath = w.searchedPath ++ slash :: w.name)
    (hnext : (w'.name, w'.subPath) = nextName w.subPath) : w'.Stands fuel (searched ++ [w.name]) := by
  have hcons : namesOf w.name w.subPath = w.name :: words slash (w.subPath.getD []) := if_neg hname
  have hrest : namesOf w'.name w'.subPath = words slash (w.subPath.getD []) := by
    rw [← namesOf_nextName w.subPath, ← hnext]
  refine ⟨?_, hpath.trans h.snoc, ?_⟩
  · have := h.fuel
    rw [hcons, List.length_cons] at this
    rw [hrest]
    exact Nat.lt_of_succ_lt_succ this
  · have := h.length
    rw [hcons] at this
    rw [hrest, List.append_assoc]
    exact this

end Walk.Stands

/-- The names that are looked up from the directory `n` on fit into the buffer for a name with
their terminator, and the one behind a file, which is read but not looked up, without it. -/
def Kernel.Fits (t : Transfer) (k : Kernel) : (n : ℕ) → List (List UInt8) → Prop
  | _, [] => True
  | n, w :: ws => w.length < maxFileNameLen ∧
      ∀ m ty, k.lookup t n w = some (m, ty) →
        (ty = .regular → ∀ v ∈ ws.head?, v.length ≤ maxFileNameLen) ∧
        (ty ≠ .regular → k.Fits t (if ty = .directory then m else n) ws)

theorem Kernel.Fits.head {t : Transfer} {k : Kernel} {n : ℕ} {ws : List (List UInt8)}
    (h : k.Fits t n ws) {w : List UInt8} (hw : ws.head? = some w) : w.length < maxFileNameLen := by
  cases ws with
  | nil => cases hw
  | cons v vs =>
      obtain rfl := Option.some.inj hw
      exact h.1

/-- The name behind one that is found fits into the buffer. -/
theorem Kernel.Fits.next {t : Transfer} {k : Kernel} {n m : ℕ} {ty : FileType} {w : List UInt8}
    {ws : List (List UInt8)} (h : k.Fits t n (w :: ws)) (hlookup : k.lookup t n w = some (m, ty)) :
    ∀ v ∈ ws.head?, v.length ≤ maxFileNameLen := by
  obtain ⟨hfile, hother⟩ := h.2 m ty hlookup
  by_cases hty : ty = .regular
  · exact hfile hty
  · exact fun v hv => ((hother hty).head hv).le

/-- A name that does not fit is the first one of the rest. -/
theorem head?_of_nextName {subPath : Option (List UInt8)}
    (hlong : maxFileNameLen < (nextName subPath).1.length) :
    (words slash (subPath.getD [])).head? = some (nextName subPath).1 := by
  have hne : (nextName subPath).1 ≠ [] := List.ne_nil_of_length_pos (Nat.zero_lt_of_lt hlong)
  rw [← namesOf_nextName, namesOf, if_neg hne]
  rfl

theorem Kernel.fits_of_short {t : Transfer} {k : Kernel} {n : ℕ} {ws : List (List UInt8)}
    (hws : ∀ w ∈ ws, w.length < maxFileNameLen) : k.Fits t n ws := by
  induction ws generalizing n with
  | nil => trivial
  | cons w ws ih =>
      refine ⟨hws w List.mem_cons_self, fun m ty _ => ⟨fun _ v hv => ?_, fun _ =>
        ih fun v hv => hws v (List.mem_cons_of_mem w hv)⟩⟩
      exact (hws v (List.mem_cons_of_mem w (List.mem_of_mem_head? hv))).le

section SearchLoop

variable {t : Transfer} {e : Env} (he : FairEnv e) {k₀ : Kernel} (hk : ConsistentTree t k₀)

include he hk

theorem ensures_searchLoop {fuel : ℕ} {w : Walk} {n : ℕ} {own : Bool}
    {searched : List (List UInt8)} {k : Kernel} (hw : w.Stands fuel searched) (hn : k₀.IsDir t n)
    (hp : k₀.IsDir t w.parentInodeNo) (h : Holding t k₀ n w.parentDir k)
    (hown : w.parentDir = rootDir ↔ own = false)
    (hnames : e.stops ∨ k₀.Fits t n (namesOf w.name w.subPath))
    {Q : Option ℕ × PathSearchRecord → Kernel → Prop}
    (hQ : ∀ r k', Matches t k₀
      (k₀.find t n w.parentInodeNo w.iNo own searched (namesOf w.name w.subPath)) r k' → Q r k')
    (hfail : e.stops → ∀ r k', GivenUp t k₀ r k' → Q r k') :
    (searchLoop t fuel w).ensures e Q k := by
  induction fuel generalizing w n own searched k with
  | zero => exact absurd hw.fuel (Nat.not_lt_zero _)
  | succ fuel ih =>
      have hdir := hk.dir n hn
      unfold searchLoopBy
      by_cases hname : w.name = []
      · -- the path ends with a directory
        have hnil : namesOf w.name w.subPath = [] := if_pos hname
        rw [if_pos hname]
        simp only [ensures_bind]
        refine ensures_dirClose h fun k₁ hback => ?_
        refine ensures_dirOpen he hk.cache (hk.dir _ hp) hback fun d k₂ hnew hd => ?_
        have hne := (hk.cache.freshDir.trans_le hnew).ne'
        rw [hnil] at hQ
        exact hQ _ _ ⟨rfl, rfl, hw.searchedPath, hd, iff_of_false hne (by simp [Kernel.find])⟩
      · have hcons : namesOf w.name w.subPath = w.name :: words slash (w.subPath.getD []) :=
          if_neg hname
        have hrest := namesOf_nextName w.subPath
        rw [hcons] at hnames hQ
        have hnames' {m : ℕ} {ty : FileType} (hlookup : k₀.lookup t n w.name = some (m, ty))
            (hty : ty ≠ .regular) : e.stops ∨ k₀.Fits t (if ty = .directory then m else n)
              (namesOf (nextName w.subPath).1 (nextName w.subPath).2) := by
          rw [hrest]
          exact hnames.imp_right fun hfits => (hfits.2 m ty hlookup).2 hty
        rw [if_neg hname]
        by_cases hshort : maxFileNameLen ≤ w.name.length
        · -- the name does not fit into its buffer
          rw [if_pos hshort]
          exact hnames.resolve_right fun hfits => hshort.not_gt hfits.1
        rw [if_neg hshort, ensures_bind, ensures_assert (decide_eq_true hw.path)]
        simp only [ensures_bind]
        refine ensures_searchDirEntry he hdir h ?_ fun hstops =>
          hfail hstops _ _ ⟨rfl, rfl, n, hn, h⟩
        unfold Kernel.find at hQ
        rcases hlookup : k₀.lookup t n w.name with _ | ⟨m, ty⟩
        · rw [hlookup] at hQ
          exact hQ _ _ ⟨rfl, rfl, hw.snoc, h, hown⟩
        · rw [hlookup] at hQ
          dsimp only
          rw [ensures_bind, nextNameBy_parseFits]
          by_cases hlong : maxFileNameLen < (nextName w.subPath).1.length
          · -- the next name is read, although it may not be needed
            rw [if_pos hlong]
            exact hnames.resolve_right fun hfits => hlong.not_ge
              (hfits.next hlookup _ (head?_of_nextName hlong))
          rw [if_neg hlong, ensures_pure]
          cases ty with
          | regular => exact hQ _ _ ⟨rfl, rfl, hw.snoc, h, hown⟩
          | directory =>
              have hm := hn.step hlookup
              simp only [ensures_bind, ensures_read]
              refine ensures_dirClose h fun k₁ hback => ?_
              refine ensures_dirOpen he hk.cache (hk.dir m hm) hback fun d k₂ hnew hd => ?_
              have hne := (hk.cache.freshDir.trans_le hnew).ne'
              have hparent : (k.dirInode w.parentDir).iNo = n := by
                rw [h.inode.iNo, hdir.iNo]
              refine ih (hw.next hname rfl rfl) hm ?_ hd (iff_of_false hne Bool.true_eq_false.mp)
                (hnames' hlookup (by decide)) ?_
              · rw [hparent]
                exact hn
              · rw [hrest, hparent]
                exact hQ
          | unknown =>
              refine ih (hw.next hname rfl rfl) hn hp h hown (hnames' hlookup (by simp)) ?_
              rw [hrest]
              exact hQ
          | other code =>
              refine ih (hw.next hname rfl rfl) hn hp h hown (hnames' hlookup (by simp)) ?_
              rw [hrest]
              exact hQ

end SearchLoop

/-! ## Paths -/

/-- What the path stands for on the disk. -/
def Kernel.findPath (t : Transfer) (k : Kernel) (path : List UInt8) : Found :=
  if isRootPath path then ⟨some 0, 0, .directory, [], false⟩
  else k.find t 0 0 0 false [] (words slash path)

/-- The names of the path fit into the buffer for a name. -/
def ShortNames (path : List UInt8) : Prop := ∀ w ∈ words slash path, w.length < maxFileNameLen

theorem ShortNames.fits {path : List UInt8} (h : ShortNames path) {t : Transfer} {k : Kernel} :
    k.Fits t 0 (words slash path) := Kernel.fits_of_short h

instance (path : List UInt8) : Decidable (ShortNames path) :=
  inferInstanceAs (Decidable (∀ w ∈ words slash path, w.length < maxFileNameLen))

/-- What the names stand for from directory `n` on: all names but the last lead through
directories. -/
def Kernel.resolve (t : Transfer) (k : Kernel) : (n : ℕ) → List (List UInt8) → Option (ℕ × FileType)
  | n, [] => some (n, .directory)
  | n, [w] => k.lookup t n w
  | n, w :: w' :: ws => (k.subdir t n w).bind fun m => k.resolve t m (w' :: ws)

/-- The last name of a path is looked up in the directory that the others lead to. -/
theorem Kernel.resolve_snoc {t : Transfer} {k : Kernel} {n : ℕ} {ws : List (List UInt8)}
    {w : List UInt8} : k.resolve t n (ws ++ [w]) =
      (walk (k.subdir t) n ws).bind fun m => k.lookup t m w := by
  induction ws generalizing n with
  | nil => rfl
  | cons v ws ih =>
      have hne : ∃ w' ws', ws ++ [w] = w' :: ws' := by
        cases ws with
        | nil => exact ⟨w, [], rfl⟩
        | cons w' ws => exact ⟨w', ws ++ [w], rfl⟩
      obtain ⟨w', ws', hws'⟩ := hne
      rw [List.cons_append, hws', Kernel.resolve, walk_cons, Option.bind_assoc, ← hws']
      congr 1
      funext m
      exact ih

/-- A walk through directories ends at a directory. -/
theorem Kernel.resolve_of_walk {t : Transfer} {k : Kernel} {n m : ℕ} {ws : List (List UInt8)}
    (hwalk : walk (k.subdir t) n ws = some m) : k.resolve t n ws = some (m, .directory) := by
  rcases List.eq_nil_or_concat ws with rfl | ⟨ws, w, rfl⟩
  · cases hwalk
    rfl
  · rw [List.concat_eq_append] at hwalk ⊢
    obtain ⟨p, hp, hsub⟩ := walk_snoc.mp hwalk
    rw [Kernel.resolve_snoc, hp, Option.bind_some, Kernel.subdir_eq_some.mp hsub]

/-- A path that `search_file` looks up: it is absolute, not too long, and either is `/` or
has a name. -/
structure LookupPath (path : List UInt8) : Prop where
  absolute : path.head? = some slash
  length : path.length < maxPathLen
  notSlashes : words slash path ≠ [] ∨ path = [slash]

/-- The number that is left in `dir_e` does not matter if there is a name. -/
theorem Kernel.find_iNo {t : Transfer} {k : Kernel} {n p i i' : ℕ} {own : Bool}
    {searched ws : List (List UInt8)} (hws : ws ≠ []) :
    k.find t n p i own searched ws = k.find t n p i' own searched ws := by
  cases ws with
  | nil => exact absurd rfl hws
  | cons w ws => rfl

theorem asInt_of_lt {n : ℕ} (hn : n < maxFilesPerPart) : asInt n = some n := by
  unfold maxFilesPerPart at hn
  exact if_neg (by omega)

/-- The directory that the lookup ends with is the one that the names lead to. -/
theorem ConsistentTree.walk_of_find {t : Transfer} {k : Kernel} (hk : ConsistentTree t k)
    {ws : List (List UInt8)} (hws : ∀ w ∈ ws, IsWord slash w ∧ (0 : UInt8) ∉ w) {n p i : ℕ}
    (hn : k.IsDir t n) {own : Bool} {searched : List (List UInt8)}
    (hdir : (k.find t n p i own searched ws).fileType = .directory) :
    ∃ m, walk (k.subdir t) n ws = some m ∧
      (k.find t n p i own searched ws).iNo = asInt (if ws = [] then i else m) := by
  induction ws generalizing n p i own searched with
  | nil => exact ⟨n, rfl, rfl⟩
  | cons w ws ih =>
      obtain ⟨hword, hzero⟩ := hws w List.mem_cons_self
      unfold Kernel.find at hdir ⊢
      rcases hlookup : k.lookup t n w with _ | ⟨m, ty⟩
      · rw [hlookup] at hdir
        cases hdir
      · rw [hlookup] at hdir
        rcases (hk.dir n hn).lookup_type hk.cache hword hzero hlookup with rfl | rfl
        · cases hdir
        · obtain ⟨m', hwalk, hfind⟩ :=
            ih (fun v hv => hws v (List.mem_cons_of_mem w hv)) (hn.step hlookup) hdir
          refine ⟨m', ?_, ?_⟩
          · rw [walk_cons, Kernel.subdir_eq_some.mpr hlookup]
            exact hwalk
          · rw [if_neg (List.cons_ne_nil w ws)]
            dsimp only
            rw [hfind]
            by_cases hnil : ws = []
            · subst hnil
              cases hwalk
              rw [if_pos rfl]
            · rw [if_neg hnil]

/-- The walk of `search_file` has room for the names of the path. -/
theorem stands_start {path : List UInt8} (habs : path.head? = some slash)
    (hlen : path.length < maxPathLen) {w : Walk} (hpath : w.searchedPath = [])
    (hname : (w.name, w.subPath) = pathParse path) : w.Stands (path.length + 1) [] := by
  have hjoin := length_join_words_le_of_head habs
  have hcount : (words slash path).length ≤ (join slash (words slash path)).length :=
    length_le_length_join _
  have hparse : namesOf w.name w.subPath = words slash path := by
    rw [← namesOf_pathParse path, ← hname]
  refine ⟨?_, hpath, ?_⟩
  · rw [hparse]
    omega
  · rw [hparse, List.nil_append]
    exact hjoin.trans_lt hlen

/-- `search_file` finds what the path stands for, or nothing when memory runs out. -/
theorem ensures_searchFile {t : Transfer} {e : Env} (he : FairEnv e) {k₀ k : Kernel}
    (hk : ConsistentTree t k₀) (hback : Restored k₀ k) {path : CString} (hpath : LookupPath path.val)
    (hnames : e.stops ∨ k₀.Fits t 0 (words slash path.val))
    {Q : Option ℕ × PathSearchRecord → Kernel → Prop}
    (hQ : ∀ r k', Matches t k₀ (k₀.findPath t path.val) r k' → Q r k')
    (hfail : e.stops → ∀ r k', GivenUp t k₀ r k' → Q r k') :
    (searchFile t path).ensures e Q k := by
  have hhold := Holding.root (t := t) hk.cache hback
  unfold Kernel.findPath at hQ
  rw [searchFile, searchFileBy]
  by_cases hroot : isRootPath path.val = true
  · rw [if_pos hroot] at hQ ⊢
    exact hQ _ _ ⟨rfl, rfl, rfl, hhold, iff_of_true rfl rfl⟩
  · rw [if_neg hroot] at hQ ⊢
    have hwords : words slash path.val ≠ [] := by
      refine hpath.notSlashes.resolve_right fun hslash => hroot ?_
      rw [hslash]
      decide
    have hlong : 1 < path.val.length := by
      by_contra hle
      have hle' : path.val.length = 1 := by
        have := List.length_pos_of_ne_nil (l := path.val) (fun h => by
          have := hpath.absolute
          rw [h] at this
          cases this)
        omega
      obtain ⟨c, hc⟩ := List.length_eq_one_iff.mp hle'
      have habs := hpath.absolute
      rw [hc, List.head?_cons, Option.some.injEq] at habs
      refine hroot ?_
      rw [hc, habs]
      decide
    rw [ensures_bind, ensures_assert (decide_eq_true ⟨hpath.absolute, hlong, hpath.length⟩)]
    simp only [ensures_bind, ensures_arbitrary]
    intro i _
    have hparse : namesOf (nextName (some path.val)).1 (nextName (some path.val)).2 =
        words slash path.val := namesOf_pathParse path.val
    change (nextNameBy parseFits (some path.val)).ensures e _ k
    rw [nextNameBy_parseFits]
    by_cases hfirst : maxFileNameLen < (nextName (some path.val)).1.length
    · -- the first name does not fit into its buffer
      rw [if_pos hfirst]
      refine hnames.resolve_right fun hfits => hfirst.not_ge ?_
      have hhead : (words slash path.val).head? = some (nextName (some path.val)).1 :=
        head?_of_nextName hfirst
      exact (hfits.head hhead).le
    · rw [if_neg hfirst, ensures_pure]
      refine ensures_searchLoop he hk (stands_start hpath.absolute hpath.length rfl rfl)
        (k₀.isDir_root t) (k₀.isDir_root t) hhold (iff_of_true rfl rfl) ?_ ?_ hfail
      · rw [hparse]
        exact hnames
      · rw [hparse, Kernel.find_iNo hwords]
        exact hQ

end BochsOs
