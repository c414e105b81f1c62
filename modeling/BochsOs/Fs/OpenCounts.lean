import BochsOs.Fs.OneWriter

/-!
# Open counts

`i_open_cnts` counts the references to an inode: the entries of `file_table`, the open
directory handles and `root_dir`.  Every function that opens an inode hands the reference
on or closes it again.  `Counted held k` says that the counts are right when the code
also holds a pointer to each inode of `held` in a local variable.

Three calls of `sys_open` forget a reference (`Leaks`): a file below a directory is
opened, and the handle of the directory stays open; a second writer is refused, or the
process has no descriptor left, and the entry of `file_table` stays taken.
-/

namespace BochsOs

open ByteMemory Suspend Suspend.Prog Runs

/-! ## References -/

/-- The number of entries of `file_table` that refer to the inode at `a`. -/
def Kernel.entryCnt (k : Kernel) (a : ℕ) : ℕ :=
  ((Finset.range maxFileOpen).filter fun g => (k.fileTable g).fdInode = some a).card

/-- The number of directory handles among `dirs` that refer to the inode at `a`. -/
def Kernel.handleCnt (k : Kernel) (dirs : List ℕ) (a : ℕ) : ℕ :=
  dirs.countP fun d => (k.dirs d).inode = a

/-- The reference of `root_dir`. -/
def Kernel.rootCnt (k : Kernel) (a : ℕ) : ℕ := if (k.dirs rootDir).inode = a then 1 else 0

/-- The references to the inode at `a`, with those that local variables hold. -/
def Kernel.refs (k : Kernel) (held : List ℕ) (a : ℕ) : ℕ :=
  k.entryCnt a + k.handleCnt k.liveDirs a + k.rootCnt a + held.count a

theorem Kernel.refs_cons (k : Kernel) (held : List ℕ) (a b : ℕ) :
    k.refs (a :: held) b = k.refs held b + if b = a then 1 else 0 := by
  simp only [Kernel.refs, List.count_cons]
  by_cases hba : b = a
  · simp [hba, Nat.add_assoc]
  · simp [hba, Ne.symm hba]

/-- The counts are right, and the open inodes are those with a reference. -/
structure Counted (held : List ℕ) (k : Kernel) : Prop where
  nodup : k.openInodes.Nodup
  old : ∀ a ∈ k.openInodes, a < k.nextInode
  live : k.liveDirs.Nodup
  liveOld : ∀ d ∈ k.liveDirs, rootDir < d ∧ d < k.nextDir
  rootOld : rootDir < k.nextDir
  cnt : ∀ a, k.refs held a = if a ∈ k.openInodes then (k.inodes a).iOpenCnts else 0
  used : ∀ a ∈ k.openInodes, 0 < (k.inodes a).iOpenCnts

section Counted

variable {held : List ℕ} {k k' : Kernel}

/-- The references and the counts are the same. -/
structure SameCounts (k k' : Kernel) : Prop where
  opened : k'.openInodes = k.openInodes
  next : k.nextInode ≤ k'.nextInode
  live : k'.liveDirs = k.liveDirs
  nextDir : k'.nextDir = k.nextDir
  dirs : k'.dirs = k.dirs
  files : ∀ g, (k'.fileTable g).fdInode = (k.fileTable g).fdInode
  cnts : ∀ a ∈ k.openInodes, (k'.inodes a).iOpenCnts = (k.inodes a).iOpenCnts

theorem SameCounts.refs (h : SameCounts k k') (a : ℕ) : k'.refs held a = k.refs held a := by
  simp only [Kernel.refs, Kernel.entryCnt, Kernel.handleCnt, Kernel.rootCnt, h.live, h.dirs, h.files]

theorem Counted.same (hk : Counted held k) (h : SameCounts k k') : Counted held k' where
  nodup := h.opened ▸ hk.nodup
  old a ha := (hk.old a (h.opened ▸ ha)).trans_le h.next
  live := h.live ▸ hk.live
  liveOld d hd := by
    rw [h.nextDir]
    exact hk.liveOld d (h.live ▸ hd)
  rootOld := h.nextDir ▸ hk.rootOld
  cnt a := by
    rw [h.refs, hk.cnt, h.opened]
    split
    next ha => exact (h.cnts a ha).symm
    next => rfl
  used a ha := by
    rw [h.opened] at ha
    rw [h.cnts a ha]
    exact hk.used a ha

theorem Counted.mem_of_refs (hk : Counted held k) {a : ℕ} (ha : 0 < k.refs held a) :
    a ∈ k.openInodes := by
  by_contra hmem
  rw [hk.cnt, if_neg hmem] at ha
  exact absurd ha (lt_irrefl 0)

/-! ### Inodes -/

/-- `inode_open` of an inode that is open already. -/
theorem Counted.bump (hk : Counted held k) {a : ℕ} (ha : a ∈ k.openInodes) :
    Counted (a :: held)
      (k.setInode a { k.inodes a with iOpenCnts := (k.inodes a).iOpenCnts + 1 }) := by
  refine ⟨hk.nodup, hk.old, hk.live, hk.liveOld, hk.rootOld, fun b => ?_, fun b hb => ?_⟩
  · change k.refs (a :: held) b =
      if b ∈ k.openInodes then (Function.update k.inodes a _ b).iOpenCnts else 0
    rw [k.refs_cons, hk.cnt]
    by_cases hba : b = a
    · rw [hba, if_pos ha, if_pos ha, if_pos rfl, Function.update_self]
    · rw [Function.update_of_ne hba, if_neg hba, Nat.add_zero]
  · change 0 < (Function.update k.inodes a _ b).iOpenCnts
    by_cases hba : b = a
    · rw [hba, Function.update_self]
      exact Nat.succ_pos _
    · rw [Function.update_of_ne hba]
      exact hk.used b hb

/-- A new inode is added to the open ones. -/
theorem Counted.push (hk : Counted held k) {a : ℕ} (ha : a ∉ k.openInodes) (hold : a < k.nextInode)
    {inode : Inode} (hone : inode.iOpenCnts = 1) :
    Counted (a :: held) { k.setInode a inode with openInodes := a :: k.openInodes } := by
  refine ⟨List.nodup_cons.mpr ⟨ha, hk.nodup⟩, fun b hb => ?_, hk.live, hk.liveOld, hk.rootOld,
    fun b => ?_, fun b hb => ?_⟩
  · rcases List.mem_cons.mp hb with rfl | hb
    · exact hold
    · exact hk.old b hb
  · change k.refs (a :: held) b =
      if b ∈ a :: k.openInodes then (Function.update k.inodes a inode b).iOpenCnts else 0
    rw [k.refs_cons, hk.cnt]
    by_cases hba : b = a
    · rw [hba, if_neg ha, if_pos rfl, if_pos List.mem_cons_self, Function.update_self, hone]
    · rw [Function.update_of_ne hba, if_neg hba, Nat.add_zero]
      simp [hba]
  · change 0 < (Function.update k.inodes a inode b).iOpenCnts
    by_cases hba : b = a
    · rw [hba, Function.update_self, hone]
      exact Nat.one_pos
    · rw [Function.update_of_ne hba]
      exact hk.used b ((List.mem_cons.mp hb).resolve_left hba)

/-- The state after `inode_close`. -/
def Kernel.closed (k : Kernel) (a : ℕ) : Kernel :=
  if (k.inodes a).dropOpenCnt.iOpenCnts = 0 then
    { k.setInode a (k.inodes a).dropOpenCnt with openInodes := k.openInodes.erase a }
  else k.setInode a (k.inodes a).dropOpenCnt

theorem wp_inodeClose {a : ℕ} {Q : Unit → Kernel → Prop} :
    (inodeClose a).wp Q k ↔ Q () (k.closed a) := by
  simp only [inodeClose, wp_bind, wp_read, Kernel.closed]
  split <;> exact Iff.rfl

@[simp] theorem closed_fileTable (k : Kernel) (a : ℕ) : (k.closed a).fileTable = k.fileTable := by
  unfold Kernel.closed
  split <;> rfl

@[simp] theorem closed_cur (k : Kernel) (a : ℕ) : (k.closed a).cur = k.cur := by
  unfold Kernel.closed
  split <;> rfl

@[simp] theorem closed_liveDirs (k : Kernel) (a : ℕ) : (k.closed a).liveDirs = k.liveDirs := by
  unfold Kernel.closed
  split <;> rfl

/-- `inode_close` does not look at `file_table`. -/
theorem closed_setFile (k : Kernel) (g a : ℕ) (file : File) :
    (k.setFile g file).closed a = (k.closed a).setFile g file := by
  unfold Kernel.closed
  change (if (k.inodes a).dropOpenCnt.iOpenCnts = 0 then _ else _) = _
  split <;> rfl

theorem Counted.closed {a : ℕ} (hk : Counted (a :: held) k) : Counted held (k.closed a) := by
  have hcnt := hk.cnt
  simp only [k.refs_cons] at hcnt
  have ha : a ∈ k.openInodes := by
    refine hk.mem_of_refs ?_
    rw [k.refs_cons, if_pos rfl]
    exact Nat.succ_pos _
  have hcnta : k.refs held a + 1 = (k.inodes a).iOpenCnts := by
    have := hcnt a
    rwa [if_pos rfl, if_pos ha] at this
  have hdrop : (k.inodes a).dropOpenCnt.iOpenCnts = k.refs held a := by
    change subU32 (k.inodes a).iOpenCnts 1 = _
    rw [subU32_of_le (by omega)]
    omega
  have hother : ∀ b, b ≠ a → k.refs held b =
      if b ∈ k.openInodes then (k.inodes b).iOpenCnts else 0 := fun b hba => by
    have := hcnt b
    rwa [if_neg hba, Nat.add_zero] at this
  rw [Kernel.closed, hdrop]
  split
  next hzero =>
    refine ⟨hk.nodup.erase a, fun b hb => hk.old b (List.mem_of_mem_erase hb), hk.live, hk.liveOld,
      hk.rootOld, fun b => ?_, fun b hb => ?_⟩
    · change k.refs held b =
        if b ∈ k.openInodes.erase a then (Function.update k.inodes a _ b).iOpenCnts else 0
      simp only [hk.nodup.mem_erase_iff]
      by_cases hba : b = a
      · simp [hba, hzero]
      · rw [Function.update_of_ne hba, hother b hba]
        simp [hba]
    · change 0 < (Function.update k.inodes a _ b).iOpenCnts
      rw [hk.nodup.mem_erase_iff] at hb
      rw [Function.update_of_ne hb.1]
      exact hk.used b hb.2
  next hpos =>
    refine ⟨hk.nodup, hk.old, hk.live, hk.liveOld, hk.rootOld, fun b => ?_, fun b hb => ?_⟩
    · change k.refs held b = if b ∈ k.openInodes then (Function.update k.inodes a _ b).iOpenCnts else 0
      by_cases hba : b = a
      · rw [hba, if_pos ha, Function.update_self, hdrop]
      · rw [Function.update_of_ne hba, hother b hba]
    · change 0 < (Function.update k.inodes a _ b).iOpenCnts
      by_cases hba : b = a
      · rw [hba, Function.update_self, hdrop]
        exact Nat.pos_of_ne_zero hpos
      · rw [Function.update_of_ne hba]
        exact hk.used b hb

/-! ### Entries and handles -/

theorem entryCnt_setFile {g : ℕ} (hg : g < maxFileOpen) (hfree : (k.fileTable g).fdInode = none)
    (file : File) (a : ℕ) :
    (k.setFile g file).entryCnt a = k.entryCnt a + if file.fdInode = some a then 1 else 0 := by
  have hold : ∀ g', g' ≠ g → (k.setFile g file).fileTable g' = k.fileTable g' := fun g' hne =>
    Function.update_of_ne hne _ _
  have hnew : (k.setFile g file).fileTable g = file := Function.update_self _ _ _
  unfold Kernel.entryCnt
  split
  next hfile =>
    rw [← Finset.card_insert_of_notMem (a := g) (by simp [hfree])]
    congr 1
    ext g'
    by_cases hne : g' = g
    · simp [hne, hnew, hfile, hg]
    · simp [hold g' hne, hne]
  next hfile =>
    rw [Nat.add_zero]
    congr 1
    ext g'
    by_cases hne : g' = g
    · simp [hne, hnew, hfile, hfree]
    · simp [hold g' hne]

theorem setFile_self (k : Kernel) (g : ℕ) (file : File) :
    (k.setFile g file).setFile g (k.fileTable g) = k := by
  simp [Kernel.setFile]

/-- References move between local variables and tables. -/
theorem Counted.move {held' : List ℕ} (hk : Counted held k) (hopen : k'.openInodes = k.openInodes)
    (hnext : k'.nextInode = k.nextInode) (hinodes : k'.inodes = k.inodes)
    (hlive : k'.liveDirs.Nodup) (hliveOld : ∀ d ∈ k'.liveDirs, rootDir < d ∧ d < k'.nextDir)
    (hroot : rootDir < k'.nextDir) (hrefs : ∀ a, k'.refs held' a = k.refs held a) :
    Counted held' k' where
  nodup := hopen ▸ hk.nodup
  old a ha := by
    rw [hnext]
    exact hk.old a (hopen ▸ ha)
  live := hlive
  liveOld := hliveOld
  rootOld := hroot
  cnt a := by rw [hrefs, hk.cnt, hopen, hinodes]
  used a ha := by
    rw [hinodes]
    exact hk.used a (hopen ▸ ha)

/-- A free entry of `file_table` gets the reference. -/
theorem Counted.giveFile {a g : ℕ} (hk : Counted (a :: held) k) (hg : g < maxFileOpen)
    (hfree : (k.fileTable g).fdInode = none) {file : File} (hfile : file.fdInode = some a) :
    Counted held (k.setFile g file) := by
  refine hk.move rfl rfl rfl hk.live hk.liveOld hk.rootOld fun b => ?_
  have hcnt := entryCnt_setFile hg hfree file b
  rw [hfile] at hcnt
  simp only [Option.some.injEq] at hcnt
  rw [k.refs_cons]
  change (k.setFile g file).entryCnt b + k.handleCnt k.liveDirs b + k.rootCnt b + held.count b =
    k.entryCnt b + k.handleCnt k.liveDirs b + k.rootCnt b + held.count b + _
  rw [hcnt]
  simp only [@eq_comm _ a b]
  omega

/-- The reference of an entry of `file_table` is taken from it. -/
theorem Counted.takeFile {a g : ℕ} (hk : Counted held k) (hg : g < maxFileOpen)
    (hentry : (k.fileTable g).fdInode = some a) {file : File} (hfile : file.fdInode = none) :
    Counted (a :: held) (k.setFile g file) := by
  refine hk.move rfl rfl rfl hk.live hk.liveOld hk.rootOld fun b => ?_
  have hfree : ((k.setFile g file).fileTable g).fdInode = none := by
    rw [show (k.setFile g file).fileTable g = file from Function.update_self _ _ _, hfile]
  have hcnt := entryCnt_setFile hg hfree (k.fileTable g) b
  rw [setFile_self, hentry] at hcnt
  simp only [Option.some.injEq] at hcnt
  rw [Kernel.refs_cons]
  change (k.setFile g file).entryCnt b + k.handleCnt k.liveDirs b + k.rootCnt b + held.count b + _ =
    k.entryCnt b + k.handleCnt k.liveDirs b + k.rootCnt b + held.count b
  rw [hcnt]
  simp only [@eq_comm _ a b]
  omega

/-- A new directory handle gets the reference. -/
theorem Counted.giveDir {a : ℕ} (hk : Counted (a :: held) k) (dirPos : ℕ) :
    Counted held { k with
      dirs := Function.update k.dirs k.nextDir ⟨a, dirPos⟩
      nextDir := k.nextDir + 1
      liveDirs := k.nextDir :: k.liveDirs } := by
  have hnew : k.nextDir ∉ k.liveDirs := fun h => absurd (hk.liveOld _ h).2 (lt_irrefl _)
  refine hk.move rfl rfl rfl (List.nodup_cons.mpr ⟨hnew, hk.live⟩) (fun d hd => ?_)
    (Nat.succ_pos _) fun b => ?_
  · rcases List.mem_cons.mp hd with rfl | hd
    · exact ⟨hk.rootOld, Nat.lt_succ_self _⟩
    · exact ⟨(hk.liveOld d hd).1, (hk.liveOld d hd).2.trans (Nat.lt_succ_self _)⟩
  · have hhandles : k.liveDirs.countP
        (fun d => (Function.update k.dirs k.nextDir ⟨a, dirPos⟩ d).inode = b) =
        k.handleCnt k.liveDirs b := by
      refine List.countP_congr fun d hd => ?_
      rw [Function.update_of_ne (hk.liveOld d hd).2.ne]
    have hroot : (Function.update k.dirs k.nextDir ⟨a, dirPos⟩ rootDir).inode =
        (k.dirs rootDir).inode := by
      rw [Function.update_of_ne hk.rootOld.ne]
    rw [k.refs_cons]
    simp only [Kernel.refs, Kernel.handleCnt, Kernel.rootCnt, List.countP_cons, hhandles, hroot,
      Function.update_self, decide_eq_true_eq]
    change k.entryCnt b + _ + _ + _ = _
    simp only [@eq_comm _ a b]
    omega

/-- The reference of a directory handle is taken from it. -/
theorem Counted.takeDir {d : ℕ} (hk : Counted held k) (hd : d ∈ k.liveDirs) :
    Counted ((k.dirs d).inode :: held) { k with liveDirs := k.liveDirs.erase d } := by
  refine hk.move rfl rfl rfl (hk.live.erase d) (fun d' hd' => hk.liveOld d' (List.mem_of_mem_erase hd'))
    hk.rootOld fun b => ?_
  have hcnt : k.handleCnt k.liveDirs b =
      k.handleCnt (k.liveDirs.erase d) b + if (k.dirs d).inode = b then 1 else 0 := by
    rw [Kernel.handleCnt, (List.perm_cons_erase hd).countP_eq, List.countP_cons]
    simp only [decide_eq_true_eq]
    rfl
  rw [Kernel.refs_cons]
  change k.entryCnt b + k.handleCnt (k.liveDirs.erase d) b + k.rootCnt b + held.count b + _ =
    k.entryCnt b + k.handleCnt k.liveDirs b + k.rootCnt b + held.count b
  rw [hcnt]
  simp only [@eq_comm _ (k.dirs d).inode b]
  omega

end Counted

/-! ## What the functions do to the counts -/

section Since

variable {held l : List ℕ} {k₀ k k' : Kernel} {t : Transfer}

/-- Nothing changed but the disk, the bitmaps and the size and blocks of inodes. -/
structure SameOpen (k k' : Kernel) : Prop where
  opened : k'.openInodes = k.openInodes
  next : k'.nextInode = k.nextInode
  live : k'.liveDirs = k.liveDirs
  nextDir : k'.nextDir = k.nextDir
  dirs : k'.dirs = k.dirs
  files : k'.fileTable = k.fileTable
  tasks : k'.tasks = k.tasks
  running : k'.running = k.running
  inodes : ∀ a, (k.inodes a).SameRefs (k'.inodes a)

theorem SameOpen.trans {k₁ k₂ k₃ : Kernel} (h : SameOpen k₁ k₂) (h' : SameOpen k₂ k₃) :
    SameOpen k₁ k₃ where
  opened := h'.opened.trans h.opened
  next := h'.next.trans h.next
  live := h'.live.trans h.live
  nextDir := h'.nextDir.trans h.nextDir
  dirs := h'.dirs.trans h.dirs
  files := h'.files.trans h.files
  tasks := h'.tasks.trans h.tasks
  running := h'.running.trans h.running
  inodes a := ⟨(h'.inodes a).iNo.trans (h.inodes a).iNo,
    (h'.inodes a).iOpenCnts.trans (h.inodes a).iOpenCnts,
    (h'.inodes a).writeDeny.trans (h.inodes a).writeDeny⟩

theorem sameOpen_inodes {k : Kernel} {inodes : ℕ → Inode}
    (h : ∀ a, (k.inodes a).SameRefs (inodes a)) : SameOpen k { k with inodes := inodes } :=
  ⟨rfl, rfl, rfl, rfl, rfl, rfl, rfl, rfl, h⟩

instance : ContentFrame SameOpen where
  refl k := sameOpen_inodes fun _ => ⟨rfl, rfl, rfl⟩
  trans _ _ _ h h' := h.trans h'
  disk k disk := ⟨rfl, rfl, rfl, rfl, rfl, rfl, rfl, rfl, fun _ => ⟨rfl, rfl, rfl⟩⟩
  blockBitmap k b := ⟨rfl, rfl, rfl, rfl, rfl, rfl, rfl, rfl, fun _ => ⟨rfl, rfl, rfl⟩⟩
  inodeBitmap k b := ⟨rfl, rfl, rfl, rfl, rfl, rfl, rfl, rfl, fun _ => ⟨rfl, rfl, rfl⟩⟩
  inode k a inode h := by
    refine sameOpen_inodes fun b => ?_
    by_cases hba : b = a
    · rw [hba, Function.update_self]
      exact h
    · rw [Function.update_of_ne hba]
      exact ⟨rfl, rfl, rfl⟩

theorem SameOpen.counts (h : SameOpen k k') : SameCounts k k' where
  opened := h.opened
  next := h.next.ge
  live := h.live
  nextDir := h.nextDir
  dirs := h.dirs
  files g := by rw [h.files]
  cnts a _ := (h.inodes a).iOpenCnts

/-- Since `k₀` the open handles have become `l`, the counts are right, and the tables of
files are as they were. -/
structure Since (held l : List ℕ) (k₀ k : Kernel) : Prop extends Counted held k where
  handles : k.liveDirs = l
  files : k.fileTable = k₀.fileTable
  fdTable : ∀ p, (k.tasks p).fdTable = (k₀.tasks p).fdTable
  running : k.running = k₀.running

theorem Counted.since (hk : Counted held k) : Since held k.liveDirs k k :=
  { hk with
    handles := rfl
    files := rfl
    fdTable := fun _ => rfl
    running := rfl }

theorem Since.same (hk : Since held l k₀ k) (h : SameOpen k k') : Since held l k₀ k' where
  toCounted := hk.toCounted.same h.counts
  handles := h.live.trans hk.handles
  files := h.files.trans hk.files
  fdTable p := by
    rw [h.tasks]
    exact hk.fdTable p
  running := h.running.trans hk.running

/-- Functions that write contents only. -/
theorem Since.content {α : Type} {x : Prog Kernel α} (hk : Since held l k₀ k)
    (hx : Within SameOpen x) : x.wp (fun _ => Since held l k₀) k :=
  wp_mono (wp_of_always (hx k)) fun _ _ h => hk.same h

theorem Since.openInode (hk : Since held l k₀ k) (inodeNo : ℕ) :
    (inodeOpen t inodeNo).wp (fun a => Since (a :: held) l k₀) k := by
  rw [inodeOpen, wp_bind, wp_read]
  cases hfind : k.findOpen inodeNo with
  | some a =>
      exact { hk with toCounted := hk.toCounted.bump (List.mem_of_find?_eq_some hfind) }
  | none =>
      simp only [wp_bind, wp_inodeLocate, wp_sysMallocUnchecked, wp_read, wp_write]
      intro _
      refine wp_mono (ideRead_same _ _ _ _).wp_eq ?_
      rintro buf _ rfl
      have hnew : k.nextInode ∉ k.openInodes := fun h => absurd (hk.old _ h) (lt_irrefl _)
      have hcounted : Counted held { k with nextInode := k.nextInode + 1 } :=
        hk.toCounted.same ⟨rfl, Nat.le_succ _, rfl, rfl, rfl, fun _ => rfl, fun _ _ => rfl⟩
      exact { hk with toCounted := hcounted.push hnew (Nat.lt_succ_self _) rfl }

theorem Since.closeInode {a : ℕ} (hk : Since (a :: held) l k₀ k) :
    (inodeClose a).wp (fun _ => Since held l k₀) k := by
  rw [wp_inodeClose]
  have hclosed := hk.toCounted.closed
  unfold Kernel.closed at hclosed ⊢
  split
  next hzero =>
    rw [if_pos hzero] at hclosed
    exact { hk with toCounted := hclosed }
  next hzero =>
    rw [if_neg hzero] at hclosed
    exact { hk with toCounted := hclosed }

theorem Since.openDir (hk : Since held l k₀ k) (inodeNo : ℕ) :
    (dirOpen t inodeNo).wp (fun d => Since held (d :: l) k₀) k := by
  simp only [dirOpen, wp_bind, wp_sysMallocUnchecked]
  refine wp_mono (hk.openInode inodeNo) ?_
  intro a k₁ hk₁
  simp only [wp_read, wp_write, wp_pure]
  refine ⟨hk₁.toCounted.giveDir 0, ?_, hk₁.files, hk₁.fdTable, hk₁.running⟩
  change k₁.nextDir :: k₁.liveDirs = _
  rw [hk₁.handles]

/-- The open handles when `parentDir` is one more. -/
def withParent (parentDir : ℕ) (l : List ℕ) : List ℕ :=
  if parentDir = rootDir then l else parentDir :: l

theorem Since.closeDir {d : ℕ} (hk : Since held l k₀ k) (hd : d ≠ rootDir → d ∈ l) :
    (dirClose d).wp (fun _ => Since held (if d = rootDir then l else l.erase d) k₀) k := by
  unfold dirClose
  split
  · exact hk
  next hroot =>
    simp only [wp_bind, wp_read]
    rw [if_pos (hk.handles ▸ hd hroot), wp_bind, wp_inodeClose, wp_modify]
    have htake := (hk.toCounted.takeDir (hk.handles ▸ hd hroot)).closed
    have hlive : k.liveDirs.erase d = l.erase d := by rw [hk.handles]
    unfold Kernel.closed at htake ⊢
    split
    next hzero =>
      rw [if_pos hzero] at htake
      exact { hk with toCounted := htake, handles := hlive }
    next hzero =>
      rw [if_neg hzero] at htake
      exact { hk with toCounted := htake, handles := hlive }

theorem Since.closeParent {d : ℕ} (hk : Since held (withParent d l) k₀ k) :
    (dirClose d).wp (fun _ => Since held l k₀) k := by
  have hmem : d ≠ rootDir → d ∈ withParent d l := fun hd => by
    rw [withParent, if_neg hd]
    exact List.mem_cons_self
  refine wp_mono (hk.closeDir hmem) fun _ k' hk' => ?_
  unfold withParent at hk'
  split at hk'
  · exact hk'
  · rw [List.erase_cons_head] at hk'
    exact hk'

/-- The last lines of the calls. -/
theorem Since.close_return {α : Type} {d : ℕ} (hk : Since held (withParent d l) k₀ k) (ret : α) :
    (dirClose d >>= fun _ => pure ret : Prog Kernel α).wp (fun _ => Since held l k₀) k :=
  wp_bind.mpr (wp_mono hk.closeParent fun _ _ hk' => hk')

theorem Since.asParent {d : ℕ} (hk : Since held (d :: l) k₀ k) : Since held (withParent d l) k₀ k := by
  have hd : d ∈ k.liveDirs := by
    rw [hk.handles]
    exact List.mem_cons_self
  rw [withParent, if_neg (hk.liveOld d hd).1.ne']
  exact hk

theorem Since.setTask (hk : Since held l k₀ k) {p : ℕ} {task : Task}
    (h : task.fdTable = (k.tasks p).fdTable) : Since held l k₀ (k.setTask p task) where
  toCounted := hk.toCounted.same ⟨rfl, le_rfl, rfl, rfl, rfl, fun _ => rfl, fun _ _ => rfl⟩
  handles := hk.handles
  files := hk.files
  fdTable q := by
    change (Function.update k.tasks p task q).fdTable = _
    by_cases hq : q = p
    · rw [hq, Function.update_self, h]
      exact hk.fdTable p
    · rw [Function.update_of_ne hq]
      exact hk.fdTable q
  running := hk.running

/-! ### Path lookup -/

theorem wp_nextNameBy (subPath : Option (List UInt8))
    {Q : List UInt8 × Option (List UInt8) → Kernel → Prop} (h : Q (nextName subPath) k) :
    (nextNameBy parseFits subPath).wp Q k := by
  rw [nextNameBy_parseFits]
  split
  · trivial
  · exact h

theorem searchLoop_since {fuel : ℕ} {w : Walk} (hk : Since held (withParent w.parentDir l) k₀ k) :
    (searchLoop t fuel w).wp (fun r => Since held (withParent r.2.parentDir l) k₀) k := by
  induction fuel generalizing w k with
  | zero => trivial
  | succ fuel ih =>
      unfold searchLoopBy
      split
      · simp only [wp_bind]
        refine wp_mono hk.closeParent fun _ k₁ hk₁ => ?_
        exact wp_mono (hk₁.openDir _) fun d k₂ hk₂ => hk₂.asParent
      split
      · trivial
      simp only [wp_bind, wp_assert]
      intro _
      refine wp_mono (searchDirEntry_same _ _ _).wp_eq ?_
      rintro found _ rfl
      split
      · exact hk
      rw [wp_bind]
      refine wp_nextNameBy _ ?_
      split
      · exact hk
      · simp only [wp_bind, wp_read]
        refine wp_mono hk.closeParent fun _ k₁ hk₁ => ?_
        exact wp_mono (hk₁.openDir _) fun d k₂ hk₂ => ih hk₂.asParent
      · exact ih hk

/-- `search_file` returns with one more handle open, that of the parent. -/
theorem searchFile_since (hk : Since held l k₀ k) (pathname : CString) :
    (searchFile t pathname).wp (fun r => Since held (withParent r.2.parentDir l) k₀) k := by
  unfold searchFile searchFileBy
  dsimp only
  split
  · exact hk
  · simp only [wp_bind, wp_assert, wp_arbitrary]
    intro _ iNo
    exact wp_nextNameBy (some pathname.val) (searchLoop_since hk)

theorem inodeRelease_since (hk : Since held l k₀ k) (inodeNo : ℕ) :
    (inodeRelease t inodeNo).wp (fun _ => Since held l k₀) k := by
  simp only [inodeRelease, wp_bind]
  refine wp_mono (hk.openInode inodeNo) fun a k₁ hk₁ => ?_
  simp only [wp_read, wp_assert]
  intro _
  refine wp_mono (hk₁.content (readIndirect_same _ _).of_eq) fun table k₂ hk₂ => ?_
  -- the rest writes contents until `inode_close`
  have hend : ∀ {k : Kernel} (blockCnt : ℕ), Since (a :: held) l k₀ k →
      (do
        freeBlocks t (flattenBlocks (k₁.inodes a).iSectors table) blockCnt 0
        setInodeBit inodeNo false
        bitmapSync t inodeNo .inodeBitmap
        sysMallocUnchecked
        inodeDelete t inodeNo 2
        inodeClose a : Prog Kernel Unit).wp (fun _ => Since held l k₀) k := by
    intro k blockCnt hk
    simp only [wp_bind]
    refine wp_mono (hk.content (freeBlocks_within _ _ _ _)) fun _ k₃ hk₃ => ?_
    refine wp_mono (hk₃.content (setInodeBit_within _ _)) fun _ k₄ hk₄ => ?_
    refine wp_mono (hk₄.content (bitmapSync_within _ _ _)) fun _ k₅ hk₅ => ?_
    rw [wp_sysMallocUnchecked]
    refine wp_mono (hk₅.content (inodeDelete_within _ _ _)) fun _ k₆ hk₆ => ?_
    exact hk₆.closeInode
  split
  · rw [wp_bind]
    exact wp_mono (hk₂.content (freeBlock_within _ _)) fun _ k₃ hk₃ => hend _ hk₃
  · exact hend _ hk₂

theorem dirRemove_since (hk : Since held l k₀ k) (parentDir childDir : ℕ) :
    (dirRemove t parentDir childDir).wp (fun _ => Since held l k₀) k := by
  simp only [dirRemove, wp_bind, wp_read, wp_assert, wp_sysMalloc]
  rintro - (_ | _)
  · exact hk
  · simp only [if_true, wp_bind]
    refine wp_mono (hk.content (deleteDirEntry_within _ _ _)) fun _ k₁ hk₁ => ?_
    exact wp_mono (inodeRelease_since hk₁ _) fun _ k₂ hk₂ => hk₂

/-! ### The calls on directories -/

theorem sysStat_since (hk : Since held l k₀ k) (path : CString) :
    (sysStat t path).wp (fun _ => Since held l k₀) k := by
  unfold sysStat
  split
  · exact hk
  · simp only [wp_bind]
    refine wp_mono (searchFile_since hk path) ?_
    rintro ⟨inodeNo, record⟩ k₁ hk₁
    cases inodeNo with
    | none => exact hk₁.close_return _
    | some n =>
        simp only [wp_bind]
        refine wp_mono (hk₁.openInode n) fun a k₂ hk₂ => ?_
        simp only [wp_read, wp_pure]
        refine wp_mono hk₂.closeInode fun _ k₃ hk₃ => ?_
        exact hk₃.closeParent

theorem sysChdir_since (hk : Since held l k₀ k) (path : CString) :
    (sysChdir t path).wp (fun _ => Since held l k₀) k := by
  simp only [sysChdir, wp_bind]
  refine wp_mono (searchFile_since hk path) ?_
  rintro ⟨inodeNo, record⟩ k₁ hk₁
  cases inodeNo with
  | none => exact hk₁.close_return _
  | some n =>
      dsimp only
      split
      · have hk₂ : Since held (withParent record.parentDir l) k₀
            (k₁.setTask k₁.running { k₁.cur with cwdInodeNr := n }) := hk₁.setTask rfl
        exact hk₂.close_return 0
      · exact hk₁.close_return (-1)

theorem mkdirIn_since {parentDir : ℕ} (hk : Since held (withParent parentDir l) k₀ k)
    (dirname : List UInt8) (inodeNo : ℕ) :
    (mkdirIn t parentDir dirname inodeNo).wp (fun _ => Since held l k₀) k := by
  have hfail : ∀ {k : Kernel}, Since held (withParent parentDir l) k₀ k →
      (do
        setInodeBit inodeNo false
        dirClose parentDir
        return -1 : Prog Kernel ℤ).wp (fun _ => Since held l k₀) k := by
    intro k hk
    rw [wp_bind]
    refine wp_mono (hk.content (setInodeBit_within _ _)) fun _ k₁ hk₁ => ?_
    exact hk₁.close_return _
  simp only [mkdirIn]
  rw [wp_bind]
  refine wp_mono (hk.content blockBitmapAlloc_within) fun block k₁ hk₁ => ?_
  cases block with
  | none => exact hfail hk₁
  | some blockLba =>
      simp only [wp_bind, wp_read, wp_assert]
      intro _
      refine wp_mono (hk₁.content (bitmapSync_within _ _ _)) fun _ k₂ hk₂ => ?_
      refine wp_mono (hk₂.content (ideWrite_within _ _ _ _)) fun _ k₃ hk₃ => ?_
      refine wp_mono (hk₃.content (createDirEntry_same _ _ _).of_eq) fun e k₄ hk₄ => ?_
      refine wp_mono (hk₄.content (syncDirEntry_within _ _ _)) fun synced k₅ hk₅ => ?_
      cases synced with
      | false => exact hfail hk₅
      | true =>
          simp only [if_true, wp_bind, wp_read]
          refine wp_mono (hk₅.content (inodeSync_within _ _ _)) fun _ k₆ hk₆ => ?_
          refine wp_mono (hk₆.content (inodeSync_within _ _ _)) fun _ k₇ hk₇ => ?_
          refine wp_mono (hk₇.content (bitmapSync_within _ _ _)) fun _ k₈ hk₈ => ?_
          exact hk₈.closeParent

theorem sysMkdir_since (hk : Since held l k₀ k) (pathname : CString) :
    (sysMkdir t pathname).wp (fun _ => Since held l k₀) k := by
  simp only [sysMkdir, wp_bind, wp_sysMalloc]
  rintro (_ | _)
  · exact hk
  simp only [Bool.not_true, Bool.false_eq_true, if_false, wp_bind]
  refine wp_mono (searchFile_since hk pathname) ?_
  rintro ⟨inodeNo, record⟩ k₁ hk₁
  cases inodeNo with
  | some n => exact hk₁.close_return _
  | none =>
      simp only [wp_bind]
      refine wp_mono (hk₁.content (pathDepthCnt_same _).of_eq) fun depth k₂ hk₂ => ?_
      refine wp_mono (hk₂.content (pathDepthCnt_same _).of_eq) fun searched k₃ hk₃ => ?_
      split
      · exact hk₃.close_return _
      split
      · trivial
      rw [wp_bind]
      refine wp_mono (hk₃.content inodeBitmapAlloc_within) fun inodeNo k₄ hk₄ => ?_
      cases inodeNo with
      | none => exact hk₄.close_return _
      | some n => exact mkdirIn_since hk₄ _ n

theorem sysRmdir_since (hk : Since held l k₀ k) (pathname : CString) :
    (sysRmdir t pathname).wp (fun _ => Since held l k₀) k := by
  simp only [sysRmdir, wp_bind]
  refine wp_mono (searchFile_since hk pathname) ?_
  rintro ⟨inodeNo, record⟩ k₁ hk₁
  rw [wp_assert]
  intro _
  cases inodeNo with
  | none => exact hk₁.close_return _
  | some n =>
      dsimp only
      split
      · exact hk₁.close_return _
      rw [wp_bind]
      refine wp_mono (hk₁.openDir n) fun dir k₂ hk₂ => ?_
      have hdir : dir ≠ rootDir := by
        have hmem : dir ∈ k₂.liveDirs := by
          rw [hk₂.handles]
          exact List.mem_cons_self
        exact (hk₂.liveOld dir hmem).1.ne'
      -- both handles are closed
      have hend : ∀ {k : Kernel} (retval : ℤ), Since held (dir :: withParent record.parentDir l) k₀ k →
          (do
            dirClose dir
            dirClose record.parentDir
            return retval : Prog Kernel ℤ).wp (fun _ => Since held l k₀) k := by
        intro k retval hk
        rw [wp_bind]
        refine wp_mono (hk.closeDir fun _ => List.mem_cons_self) fun _ k₃ hk₃ => ?_
        rw [if_neg hdir, List.erase_cons_head] at hk₃
        exact hk₃.close_return _
      rw [wp_bind]
      refine wp_mono (hk₂.content (dirIsEmpty_same _).of_eq) fun empty k₃ hk₃ => ?_
      cases empty with
      | true =>
          rw [if_pos rfl, wp_bind]
          exact wp_mono (dirRemove_since hk₃ _ _) fun ret k₄ hk₄ => hend _ hk₄
      | false => exact hend (-1) hk₃

theorem sysUnlink_since (hk : Since held l k₀ k) (pathname : CString) :
    (sysUnlink t pathname).wp (fun _ => Since held l k₀) k := by
  simp only [sysUnlink, wp_bind, wp_assert]
  intro _
  refine wp_mono (searchFile_since hk pathname) ?_
  rintro ⟨inodeNo, record⟩ k₁ hk₁
  intro _
  cases inodeNo with
  | none => exact hk₁.close_return _
  | some n =>
      dsimp only
      split
      · exact hk₁.close_return _
      simp only [wp_bind, wp_read]
      split
      · exact hk₁.close_return _
      simp only [wp_bind, wp_sysMalloc]
      rintro (_ | _)
      · exact hk₁.close_return _
      · simp only [Bool.not_true, Bool.false_eq_true, if_false, wp_bind]
        refine wp_mono (hk₁.content (deleteDirEntry_within _ _ _)) fun _ k₂ hk₂ => ?_
        refine wp_mono (inodeRelease_since hk₂ n) fun _ k₃ hk₃ => ?_
        exact hk₃.closeParent

/-- The open handles after `sys_opendir`. -/
def opened (l : List ℕ) : Option ℕ → List ℕ
  | none => l
  | some d => withParent d l

theorem sysOpendir_since (hk : Since held l k₀ k) (name : CString) :
    (sysOpendir t name).wp (fun r => Since held (opened l r) k₀) k := by
  simp only [sysOpendir, wp_bind, wp_assert]
  intro _
  split
  · exact hk
  rw [wp_bind]
  refine wp_mono (searchFile_since hk name) ?_
  rintro ⟨inodeNo, record⟩ k₁ hk₁
  have hnone : (dirClose record.parentDir >>= fun _ => pure none : Prog Kernel (Option ℕ)).wp
      (fun r => Since held (opened l r) k₀) k₁ :=
    wp_bind.mpr (wp_mono hk₁.closeParent fun _ _ hk₂ => hk₂)
  cases inodeNo with
  | none => exact hnone
  | some n =>
      dsimp only
      split
      · simp only [wp_bind, wp_pure]
        refine wp_mono (hk₁.openDir n) fun d k₂ hk₂ => ?_
        have hmem : record.parentDir ≠ rootDir →
            record.parentDir ∈ d :: withParent record.parentDir l := fun hp => by
          rw [withParent, if_neg hp]
          exact List.mem_cons_of_mem _ List.mem_cons_self
        refine wp_mono (hk₂.closeDir hmem) fun _ k₃ hk₃ => ?_
        refine Since.asParent ?_
        unfold withParent at hk₃ hk₂
        split at hk₃
        · exact hk₃
        next hp =>
          have hne : d ≠ record.parentDir := by
            have hnodup := hk₂.live
            rw [hk₂.handles, if_neg hp] at hnodup
            exact fun h => (List.nodup_cons.mp hnodup).1 (h ▸ List.mem_cons_self)
          rw [List.erase_cons_tail (by simpa using hne), List.erase_cons_head] at hk₃
          exact hk₃
      · exact hnone

end Since

/-! ## Descriptors -/

/-- Every descriptor of the running process stands for an entry of its own, and every
entry in use has a descriptor. -/
structure Installed (k : Kernel) : Prop where
  fd : ∀ fd, 3 ≤ fd → fd < maxFilesOpenPerProc → k.cur.fdTable fd ≠ -1 →
    ∃ g < maxFileOpen, k.cur.fdTable fd = (g : ℤ) ∧ (k.fileTable g).fdInode ≠ none ∧
      (k.fileTable g).fdFlag ≠ pipeFlag
  inj : ∀ fd fd', 3 ≤ fd → fd < maxFilesOpenPerProc → 3 ≤ fd' → fd' < maxFilesOpenPerProc →
    k.cur.fdTable fd ≠ -1 → k.cur.fdTable fd = k.cur.fdTable fd' → fd = fd'
  onto : ∀ g < maxFileOpen, (k.fileTable g).fdInode ≠ none →
    ∃ fd, 3 ≤ fd ∧ fd < maxFilesOpenPerProc ∧ k.cur.fdTable fd = (g : ℤ)

/-- `file_table` has an entry left. -/
def Kernel.FreeEntry (k : Kernel) : Prop :=
  ∃ g, 3 ≤ g ∧ g < maxFileOpen ∧ (k.fileTable g).fdInode = none

/-- The running process has a descriptor left. -/
def Kernel.FreeFd (k : Kernel) : Prop :=
  ∃ fd, 3 ≤ fd ∧ fd < maxFilesOpenPerProc ∧ k.cur.fdTable fd = -1

section Installed

variable {k k' : Kernel}

theorem Installed.congr (hk : Installed k)
    (hinode : ∀ g, (k'.fileTable g).fdInode = (k.fileTable g).fdInode)
    (hflag : ∀ g, (k.fileTable g).fdInode ≠ none → (k'.fileTable g).fdFlag = (k.fileTable g).fdFlag)
    (hcur : k'.cur.fdTable = k.cur.fdTable) : Installed k' where
  fd fd hlow hhigh hset := by
    rw [hcur] at hset ⊢
    obtain ⟨g, hg, heq, hused, hpipe⟩ := hk.fd fd hlow hhigh hset
    refine ⟨g, hg, heq, ?_, ?_⟩
    · rw [hinode]
      exact hused
    · rw [hflag g hused]
      exact hpipe
  inj := by
    rw [hcur]
    exact hk.inj
  onto g hg hused := by
    rw [hcur]
    exact hk.onto g hg (hinode g ▸ hused)

/-- A free entry and a free descriptor are put together. -/
theorem Installed.install (hk : Installed k) {g fd : ℕ} {file : File} (hg : g < maxFileOpen)
    (hfree : (k.fileTable g).fdInode = none) (hfile : file.fdInode ≠ none)
    (hflag : file.fdFlag ≠ pipeFlag) (hlow : 3 ≤ fd) (hhigh : fd < maxFilesOpenPerProc)
    (hfd : k.cur.fdTable fd = -1) (hfiles : k'.fileTable = Function.update k.fileTable g file)
    (hcur : k'.cur.fdTable = Function.update k.cur.fdTable fd (g : ℤ)) : Installed k' := by
  have hself : k'.cur.fdTable fd = (g : ℤ) := by rw [hcur, Function.update_self]
  have hother : ∀ fd', fd' ≠ fd → k'.cur.fdTable fd' = k.cur.fdTable fd' := fun fd' hne => by
    rw [hcur, Function.update_of_ne hne]
  have hentry : ∀ g', g' ≠ g → k'.fileTable g' = k.fileTable g' := fun g' hne => by
    rw [hfiles, Function.update_of_ne hne]
  -- no other descriptor stands for `g`, which was free
  have hnew : ∀ fd', 3 ≤ fd' → fd' < maxFilesOpenPerProc → k.cur.fdTable fd' ≠ (g : ℤ) := by
    intro fd' hlow' hhigh' heq
    obtain ⟨g', -, heq', hused, -⟩ := hk.fd fd' hlow' hhigh' (by rw [heq]; omega)
    have hgg : g' = g := by
      rw [heq] at heq'
      exact_mod_cast heq'.symm
    exact hused (hgg ▸ hfree)
  refine ⟨fun fd' hlow' hhigh' hset => ?_, fun fd₁ fd₂ hlow₁ hhigh₁ hlow₂ hhigh₂ hset heq => ?_,
    fun g' hg' hused => ?_⟩
  · by_cases hne : fd' = fd
    · rw [hne, hself]
      refine ⟨g, hg, rfl, ?_⟩
      rw [hfiles, Function.update_self]
      exact ⟨hfile, hflag⟩
    · rw [hother fd' hne] at hset ⊢
      obtain ⟨g', hg', heq, hused, hflag'⟩ := hk.fd fd' hlow' hhigh' hset
      have hgg : g' ≠ g := fun h => hused (h ▸ hfree)
      refine ⟨g', hg', heq, ?_⟩
      rw [hentry g' hgg]
      exact ⟨hused, hflag'⟩
  · by_cases h₁ : fd₁ = fd
    · by_cases h₂ : fd₂ = fd
      · rw [h₁, h₂]
      · rw [h₁, hself, hother fd₂ h₂] at heq
        exact absurd heq.symm (hnew fd₂ hlow₂ hhigh₂)
    · rw [hother fd₁ h₁] at hset heq
      by_cases h₂ : fd₂ = fd
      · rw [h₂, hself] at heq
        exact absurd heq (hnew fd₁ hlow₁ hhigh₁)
      · rw [hother fd₂ h₂] at heq
        exact hk.inj fd₁ fd₂ hlow₁ hhigh₁ hlow₂ hhigh₂ hset heq
  · by_cases hne : g' = g
    · exact ⟨fd, hlow, hhigh, hne ▸ hself⟩
    · rw [hentry g' hne] at hused
      obtain ⟨fd', hlow', hhigh', heq⟩ := hk.onto g' hg' hused
      have hfd' : fd' ≠ fd := fun h => by
        rw [h, hfd] at heq
        omega
      exact ⟨fd', hlow', hhigh', (hother fd' hfd').trans heq⟩

/-- An entry and its descriptor are freed. -/
theorem Installed.remove (hk : Installed k) {g fd : ℕ} {file : File} (hlow : 3 ≤ fd)
    (hhigh : fd < maxFilesOpenPerProc) (hfd : k.cur.fdTable fd = (g : ℤ)) (hfile : file.fdInode = none)
    (hfiles : k'.fileTable = Function.update k.fileTable g file)
    (hcur : k'.cur.fdTable = Function.update k.cur.fdTable fd (-1)) : Installed k' := by
  have hself : k'.cur.fdTable fd = -1 := by rw [hcur, Function.update_self]
  have hother : ∀ fd', fd' ≠ fd → k'.cur.fdTable fd' = k.cur.fdTable fd' := fun fd' hne => by
    rw [hcur, Function.update_of_ne hne]
  have hentry : ∀ g', g' ≠ g → k'.fileTable g' = k.fileTable g' := fun g' hne => by
    rw [hfiles, Function.update_of_ne hne]
  have hset : k.cur.fdTable fd ≠ -1 := by
    rw [hfd]
    omega
  refine ⟨fun fd' hlow' hhigh' hset' => ?_, fun fd₁ fd₂ hlow₁ hhigh₁ hlow₂ hhigh₂ hset₁ heq => ?_,
    fun g' hg' hused => ?_⟩
  · have hne : fd' ≠ fd := fun h => hset' (h ▸ hself)
    rw [hother fd' hne] at hset' ⊢
    obtain ⟨g', hg', heq, hused, hflag'⟩ := hk.fd fd' hlow' hhigh' hset'
    have hgg : g' ≠ g := fun h => hne (hk.inj fd' fd hlow' hhigh' hlow hhigh hset' (by rw [heq, hfd, h]))
    refine ⟨g', hg', heq, ?_⟩
    rw [hentry g' hgg]
    exact ⟨hused, hflag'⟩
  · have h₁ : fd₁ ≠ fd := fun h => hset₁ (h ▸ hself)
    have h₂ : fd₂ ≠ fd := fun h => hset₁ (heq.trans (h ▸ hself))
    rw [hother fd₁ h₁] at hset₁ heq
    rw [hother fd₂ h₂] at heq
    exact hk.inj fd₁ fd₂ hlow₁ hhigh₁ hlow₂ hhigh₂ hset₁ heq
  · have hne : g' ≠ g := by
      rintro rfl
      rw [hfiles, Function.update_self] at hused
      exact hused hfile
    rw [hentry g' hne] at hused
    obtain ⟨fd', hlow', hhigh', heq⟩ := hk.onto g' hg' hused
    have hfd' : fd' ≠ fd := fun h => by
      rw [h, hfd] at heq
      exact hne (by exact_mod_cast heq.symm)
    exact ⟨fd', hlow', hhigh', (hother fd' hfd').trans heq⟩

/-- `pcb_fd_install` succeeds when the process has a descriptor left. -/
theorem pcbFdInstall_spec (hfree : k.FreeFd) (g : ℕ) :
    (pcbFdInstall g).wp (fun _ k' => ∃ fd, 3 ≤ fd ∧ fd < maxFilesOpenPerProc ∧
      k.cur.fdTable fd = -1 ∧ k' = k.setTask k.running
        { k.cur with fdTable := Function.update k.cur.fdTable fd (g : ℤ) }) k := by
  simp only [pcbFdInstall, wp_bind, wp_read]
  obtain ⟨fd₀, hlow₀, hhigh₀, hfd₀⟩ := hfree
  split
  next fd hfind =>
    have hmem := List.mem_range'_1.mp (List.mem_of_find?_eq_some hfind)
    have hfd := List.find?_some hfind
    exact ⟨fd, hmem.1, by unfold maxFilesOpenPerProc at hmem ⊢; omega, by simpa using hfd, rfl⟩
  next hfind =>
    have hnone := List.find?_eq_none.mp hfind fd₀
      (List.mem_range'_1.mpr ⟨hlow₀, by unfold maxFilesOpenPerProc at hhigh₀ ⊢; omega⟩)
    simp [hfd₀] at hnone

end Installed

/-! ## The calls -/

/-- A call on files or directories. -/
inductive FsCall where
  | open (pathname : CString) (flags : ℕ)
  | close (fd : ℤ)
  | opendir (name : CString)
  | closedir (dir : Option ℕ)
  | stat (path : CString)
  | chdir (path : CString)
  | mkdir (pathname : CString)
  | rmdir (pathname : CString)
  | unlink (pathname : CString)

/-- A process, with the handles that `sys_opendir` gave it and that it has not closed,
less `&root_dir`. -/
structure Session where
  kernel : Kernel
  handles : List ℕ

/-- The process makes a call; it closes only handles that it holds. -/
inductive FsStep (t : Transfer) (s : Session) : FsCall → Session → Prop where
  | open {pathname : CString} {flags : ℕ} {ret : ℤ} {k' : Kernel}
      (h : (sysOpen t pathname flags).Returns s.kernel ret k') :
      FsStep t s (.open pathname flags) ⟨k', s.handles⟩
  | close {fd ret : ℤ} {k' : Kernel} (h : (sysClose fd).Returns s.kernel ret k') :
      FsStep t s (.close fd) ⟨k', s.handles⟩
  | opendir {name : CString} {ret : Option ℕ} {k' : Kernel}
      (h : (sysOpendir t name).Returns s.kernel ret k') :
      FsStep t s (.opendir name) ⟨k', opened s.handles ret⟩
  | closedir {dir : Option ℕ} {ret : ℤ} {k' : Kernel}
      (hheld : ∀ d ∈ dir, d ≠ rootDir → d ∈ s.handles)
      (h : (sysClosedir dir).Returns s.kernel ret k') :
      FsStep t s (.closedir dir) ⟨k', dir.elim s.handles s.handles.erase⟩
  | stat {path : CString} {ret : Option Stat} {k' : Kernel}
      (h : (sysStat t path).Returns s.kernel ret k') : FsStep t s (.stat path) ⟨k', s.handles⟩
  | chdir {path : CString} {ret : ℤ} {k' : Kernel}
      (h : (sysChdir t path).Returns s.kernel ret k') : FsStep t s (.chdir path) ⟨k', s.handles⟩
  | mkdir {pathname : CString} {ret : ℤ} {k' : Kernel}
      (h : (sysMkdir t pathname).Returns s.kernel ret k') :
      FsStep t s (.mkdir pathname) ⟨k', s.handles⟩
  | rmdir {pathname : CString} {ret : ℤ} {k' : Kernel}
      (h : (sysRmdir t pathname).Returns s.kernel ret k') :
      FsStep t s (.rmdir pathname) ⟨k', s.handles⟩
  | unlink {pathname : CString} {ret : ℤ} {k' : Kernel}
      (h : (sysUnlink t pathname).Returns s.kernel ret k') :
      FsStep t s (.unlink pathname) ⟨k', s.handles⟩

/-- Only `root_dir` is open. -/
structure OnlyRootOpen (s : Session) : Prop where
  opened : s.kernel.openInodes = [(s.kernel.dirs rootDir).inode]
  cnt : (s.kernel.inodes (s.kernel.dirs rootDir).inode).iOpenCnts = 1
  old : (s.kernel.dirs rootDir).inode < s.kernel.nextInode
  live : s.kernel.liveDirs = []
  nextDir : rootDir < s.kernel.nextDir
  files : ∀ g < maxFileOpen, (s.kernel.fileTable g).fdInode = none
  fds : ∀ fd, 3 ≤ fd → fd < maxFilesOpenPerProc → s.kernel.cur.fdTable fd = -1
  handles : s.handles = []

/-- The entries that the running process reaches through its descriptors and that refer to
the inode at `a`. -/
def Kernel.reachCnt (k : Kernel) (a : ℕ) : ℕ :=
  ((Finset.range maxFileOpen).filter fun g : ℕ =>
    (∃ fd < maxFilesOpenPerProc, k.cur.fdTable fd = (g : ℤ)) ∧ (k.fileTable g).fdInode = some a).card

/-- The references to the inode at `a` that the process can still give up, and that of
`root_dir`. -/
def Session.refs (s : Session) (a : ℕ) : ℕ :=
  s.kernel.reachCnt a + s.kernel.handleCnt s.handles a + s.kernel.rootCnt a

/-- The count of every open inode is the number of references to it, and there is one. -/
def OpenCountsRight (s : Session) : Prop :=
  ∀ a ∈ s.kernel.openInodes, (s.kernel.inodes a).iOpenCnts = s.refs a ∧ 0 < s.refs a

/-- `search_file` comes to the last name of the path, and it is missing. -/
def NamesNothing (t : Transfer) (k : Kernel) (pathname : CString) : Prop :=
  ∃ record k', (searchFile t pathname).Returns k (none, record) k' ∧
    record.fileType ≠ .directory ∧
    ∃ depth, (pathDepthCnt pathname.val).Returns k depth k ∧
      (pathDepthCnt record.searchedPath).Returns k' depth k'

/-- The inode that `inode_open` returns for the number has a writer. -/
def Denied (t : Transfer) (k : Kernel) (inodeNo : ℕ) : Prop :=
  ∃ a k', (inodeOpen t inodeNo).Returns k a k' ∧ (k'.inodes a).writeDeny = true

/-- The call forgets a reference.  It opens an existing file whose path has more than one
name; or it takes an entry of `file_table` and then finds that the file has a writer or
that the process has no descriptor left. -/
def Leaks (t : Transfer) (k : Kernel) : FsCall → Prop
  | .open pathname flags =>
      pathname.val.getLast? ≠ some slash ∧
        (flags &&& oCreat = 0 ∧ (∃ inodeNo, NamesFile t k pathname inodeNo ∧
            ((pathParse pathname.val).2 ≠ none ∨
              k.FreeEntry ∧ (wantsWrite flags = true ∧ Denied t k inodeNo ∨ ¬ k.FreeFd))) ∨
          flags &&& oCreat ≠ 0 ∧ NamesNothing t k pathname ∧ k.FreeEntry ∧ ¬ k.FreeFd)
  | _ => False

/-- The side condition on calls. -/
def NoLeak (t : Transfer) (s : Session) (call : FsCall) : Prop := ¬ Leaks t s.kernel call

/-! ### What the calls keep -/

/-- The counts are right, `l` are the open handles, and the descriptors fit the entries. -/
structure Accounted (l : List ℕ) (k : Kernel) : Prop extends Counted [] k, Installed k where
  handles : k.liveDirs = l

section Accounted

variable {l l' : List ℕ} {k k' : Kernel} {t : Transfer}

theorem Accounted.since (hk : Accounted l k) : Since [] l k k := by
  have h := hk.toCounted.since
  rwa [hk.handles] at h

theorem Since.installed (h : Since [] l k k') (hk : Installed k) : Installed k' := by
  refine hk.congr (fun g => by rw [h.files]) (fun g _ => by rw [h.files]) ?_
  rw [Kernel.cur, h.fdTable, h.running]
  rfl

theorem Since.accounted (h : Since [] l' k k') (hk : Installed k) : Accounted l' k' :=
  { h.toCounted, h.installed hk with handles := h.handles }

theorem Since.freeEntry (h : Since [] l k k') : k'.FreeEntry ↔ k.FreeEntry := by
  simp only [Kernel.FreeEntry, h.files]

theorem Since.freeFd (h : Since [] l k k') : k'.FreeFd ↔ k.FreeFd := by
  simp only [Kernel.FreeFd, Kernel.cur, h.fdTable, h.running]

/-- An inode is opened for an entry of `file_table`, and the entry gets a descriptor. -/
theorem pcbFdInstall_accounted {g : ℕ} {file : File} (hk : Installed k)
    (hcounted : Counted [] k') (hlive : k'.liveDirs = l) (hg : g < maxFileOpen)
    (hfree : (k.fileTable g).fdInode = none) (hfile : file.fdInode ≠ none)
    (hflag : file.fdFlag ≠ pipeFlag) (hfiles : k'.fileTable = Function.update k.fileTable g file)
    (hcur : k'.cur.fdTable = k.cur.fdTable) (hfd : k.FreeFd) :
    (pcbFdInstall g).wp (fun _ => Accounted l) k' := by
  have hfd' : k'.FreeFd := by
    rw [Kernel.FreeFd, hcur]
    exact hfd
  refine wp_mono (pcbFdInstall_spec hfd' g) ?_
  rintro ret _ ⟨fd, hlow, hhigh, hfdfree, rfl⟩
  rw [hcur] at hfdfree
  set k'' := k'.setTask k'.running
    { k'.cur with fdTable := Function.update k'.cur.fdTable fd (g : ℤ) } with hk''
  have hcur'' : k''.cur.fdTable = Function.update k.cur.fdTable fd (g : ℤ) := by
    change (Function.update k'.tasks k'.running _ k'.running).fdTable = _
    rw [Function.update_self, hcur]
  have hcounted'' : Counted [] k'' :=
    hcounted.same ⟨rfl, le_rfl, rfl, rfl, rfl, fun _ => rfl, fun _ _ => rfl⟩
  have hinstalled'' : Installed k'' :=
    hk.install hg hfree hfile hflag hlow hhigh hfdfree hfiles hcur''
  exact { hcounted'', hinstalled'' with handles := hlive }

theorem fileOpen_accounted {inodeNo flags : ℕ} (hk : Accounted l k) (hflags : flags ≤ 7)
    (hfd : k.FreeEntry → k.FreeFd)
    (hdeny : k.FreeEntry → wantsWrite flags = true → ¬ Denied t k inodeNo) :
    (fileOpen t inodeNo flags).wp (fun _ => Accounted l) k := by
  have hflag : flags ≠ pipeFlag := by
    unfold pipeFlag
    omega
  unfold fileOpen
  rw [wp_bind]
  refine getFreeSlotInGlobal_spec hk fun g hlow hg hfree => ?_
  have hentry : k.FreeEntry := ⟨g, hlow, hg, hfree⟩
  rw [wp_bind, wp_iff_returns]
  intro a k₁ hret
  have hk₁ := wp_iff_returns.mp (hk.since.openInode inodeNo) a k₁ hret
  have hfree₁ : (k₁.fileTable g).fdInode = none := by
    rw [hk₁.files]
    exact hfree
  have hk₂ : Counted [] (k₁.setFile g ⟨0, flags, some a⟩) := hk₁.toCounted.giveFile hg hfree₁ rfl
  have hcur : k₁.cur.fdTable = k.cur.fdTable := by
    rw [Kernel.cur, hk₁.fdTable, hk₁.running]
    rfl
  have hfiles : (k₁.setFile g ⟨0, flags, some a⟩).fileTable =
      Function.update k.fileTable g ⟨0, flags, some a⟩ := by
    rw [← hk₁.files]
    rfl
  rw [wp_bind, wp_modify]
  split
  next hwrite =>
    rw [wp_bind, wp_read]
    split
    next hdenied => exact absurd ⟨a, k₁, hret, hdenied⟩ (hdeny hentry hwrite)
    next =>
      rw [wp_bind, wp_write]
      have hk₃ : Counted [] ((k₁.setFile g ⟨0, flags, some a⟩).setInode a
          { k₁.inodes a with writeDeny := true }) := by
        refine hk₂.same ⟨rfl, le_rfl, rfl, rfl, rfl, fun _ => rfl, fun b _ => ?_⟩
        change (Function.update k₁.inodes a _ b).iOpenCnts = (k₁.inodes b).iOpenCnts
        by_cases hba : b = a
        · rw [hba, Function.update_self]
        · rw [Function.update_of_ne hba]
      exact pcbFdInstall_accounted hk.toInstalled hk₃ hk₁.handles hg hfree (Option.some_ne_none a)
        hflag hfiles hcur (hfd hentry)
  next =>
    exact pcbFdInstall_accounted hk.toInstalled hk₂ hk₁.handles hg hfree (Option.some_ne_none a)
      hflag hfiles hcur (hfd hentry)

/-- The end of `file_create`: an entry has been given to a new inode, contents were written,
and the inode is added to the open ones. -/
theorem Counted.create {k k' : Kernel} {a g flags : ℕ} (hk : Counted [] k)
    (hsame : SameOpen (k.setFile g ⟨0, flags, some a⟩) k') (hnew : a ∉ k.openInodes)
    (hold : a < k.nextInode) (hg : g < maxFileOpen) (hfree : (k.fileTable g).fdInode = none) :
    Counted [] { k'.setInode a { k'.inodes a with iOpenCnts := 1 } with
      openInodes := a :: k'.openInodes } := by
  have hfiles : k'.fileTable = Function.update k.fileTable g ⟨0, flags, some a⟩ := hsame.files
  -- without the entry the counts are right
  have hbefore : Counted [] (k'.setFile g (k.fileTable g)) := by
    refine hk.same ⟨hsame.opened, hsame.next.ge, hsame.live, hsame.nextDir, hsame.dirs,
      fun g' => ?_, fun b _ => (hsame.inodes b).iOpenCnts⟩
    change (Function.update k'.fileTable g _ g').fdInode = _
    rw [hfiles, Function.update_idem, Function.update_eq_self]
  have hnew' : a ∉ k'.openInodes := by
    rw [hsame.opened]
    exact hnew
  have hold' : a < k'.nextInode := by
    rw [hsame.next]
    exact hold
  have hpush := hbefore.push hnew' hold'
    (show ({ k'.inodes a with iOpenCnts := 1 } : Inode).iOpenCnts = 1 from rfl)
  have hfree' : (Function.update k'.fileTable g (k.fileTable g) g).fdInode = none := by
    rw [Function.update_self]
    exact hfree
  refine (hpush.giveFile hg hfree' (show (⟨0, flags, some a⟩ : File).fdInode = some a from rfl)).same
    ⟨rfl, le_rfl, rfl, rfl, rfl, fun g' => ?_, fun _ _ => rfl⟩
  change (k'.fileTable g').fdInode =
    (Function.update (Function.update k'.fileTable g _) g _ g').fdInode
  rw [hfiles, Function.update_idem, Function.update_idem]

/-- `file_create` leaves its inode with one reference, or gives the entry back. -/
theorem fileCreate_accounted {parentDir flags : ℕ} {filename : List UInt8} (hk : Accounted l k)
    (hflags : flags ≤ 7) (hfd : k.FreeEntry → k.FreeFd) :
    (fileCreate t parentDir filename flags).wp (fun _ => Accounted l) k := by
  have hflag : flags ≠ pipeFlag := by
    unfold pipeFlag
    omega
  have hfail : ∀ {k₁ : Kernel} (inodeNo : ℕ), Accounted l k₁ →
      (do
        setInodeBit inodeNo false
        return -1 : Prog Kernel ℤ).wp (fun _ => Accounted l) k₁ := by
    intro k₁ inodeNo hk₁
    rw [wp_bind]
    exact wp_mono (hk₁.since.content (setInodeBit_within _ _)) fun _ k₂ hk₂ =>
      hk₂.accounted hk₁.toInstalled
  simp only [fileCreate, wp_bind, wp_sysMalloc]
  rintro (_ | _)
  · exact hk
  simp only [Bool.not_true, Bool.false_eq_true, if_false, wp_bind]
  refine wp_mono (hk.since.content inodeBitmapAlloc_within) fun inodeNo k₁ hk₁ => ?_
  cases inodeNo with
  | none => exact hk₁.accounted hk.toInstalled
  | some inodeNo =>
      simp only [wp_bind, wp_sysMalloc]
      rintro (_ | _)
      · exact hfail inodeNo (hk₁.accounted hk.toInstalled)
      simp only [Bool.not_true, Bool.false_eq_true, if_false, wp_bind, wp_read, wp_write]
      have hnew : k₁.nextInode ∉ k₁.openInodes := fun h => absurd (hk₁.old _ h) (lt_irrefl _)
      set a := k₁.nextInode with ha
      set k₂ : Kernel := { k₁.setInode a (inodeInit inodeNo) with nextInode := a + 1 } with hk₂
      have hcounted₂ : Counted [] k₂ := by
        refine hk₁.toCounted.same ⟨rfl, Nat.le_succ _, rfl, rfl, rfl, fun _ => rfl, fun b hb => ?_⟩
        change (Function.update k₁.inodes a _ b).iOpenCnts = _
        rw [Function.update_of_ne (hk₁.old b hb).ne]
      have hsince₂ : Since [] l k k₂ :=
        ⟨hcounted₂, hk₁.handles, hk₁.files, hk₁.fdTable, hk₁.running⟩
      refine getFreeSlotInGlobal_spec (hfail inodeNo (hsince₂.accounted hk.toInstalled)) ?_
      intro g hlow hg hfree
      have hfree₀ : (k.fileTable g).fdInode = none := by
        rw [← hsince₂.files]
        exact hfree
      rw [wp_bind, wp_modify, wp_bind]
      set k₃ := k₂.setFile g ⟨0, flags, some a⟩ with hk₃
      have hfiles₃ : k₃.fileTable = Function.update k.fileTable g ⟨0, flags, some a⟩ := by
        rw [← hsince₂.files]
        rfl
      have hcur : ∀ {k₄ : Kernel}, SameOpen k₃ k₄ → k₄.cur.fdTable = k.cur.fdTable := by
        intro k₄ hsame
        rw [Kernel.cur, hsame.tasks, hsame.running]
        change (k₂.tasks k₂.running).fdTable = _
        rw [hsince₂.fdTable, hsince₂.running]
        rfl
      refine wp_mono (createDirEntry_same _ _ _).wp_eq ?_
      rintro e _ rfl
      rw [wp_bind]
      refine wp_mono (wp_of_always (syncDirEntry_within (R := SameOpen) _ _ _ _)) ?_
      intro synced k₄ hsame
      cases synced with
      | false =>
          rw [if_neg Bool.false_ne_true, wp_bind, wp_modify]
          have hcur₄ := hcur hsame
          have hfiles : (k₄.setFile g ⟨0, 0, none⟩).fileTable =
              Function.update k.fileTable g ⟨0, 0, none⟩ := by
            change Function.update k₄.fileTable g _ = _
            rw [hsame.files, hfiles₃, Function.update_idem]
          have hinode : ∀ g', ((k₄.setFile g ⟨0, 0, none⟩).fileTable g').fdInode =
              (k.fileTable g').fdInode := fun g' => by
            rw [hfiles]
            by_cases hne : g' = g
            · rw [hne, Function.update_self, hfree₀]
            · rw [Function.update_of_ne hne]
          refine hfail inodeNo ⟨hcounted₂.same ⟨hsame.opened, hsame.next.ge, hsame.live, hsame.nextDir,
            hsame.dirs, fun g' => ?_, fun b _ => (hsame.inodes b).iOpenCnts⟩, ?_, ?_⟩
          · rw [hinode g', hsince₂.files]
          · refine hk.toInstalled.congr hinode (fun g' hused => ?_) hcur₄
            have hne : g' ≠ g := fun h => hused (h ▸ hfree₀)
            rw [hfiles, Function.update_of_ne hne]
          · exact hsame.live.trans hsince₂.handles
      | true =>
          simp only [if_true, wp_bind, wp_read]
          refine wp_mono (wp_of_always (inodeSync_within (R := SameOpen) _ _ _ _)) ?_
          intro _ k₅ hsame₅
          refine wp_mono (wp_of_always (inodeSync_within (R := SameOpen) _ _ _ _)) ?_
          intro _ k₆ hsame₆
          refine wp_mono (wp_of_always (bitmapSync_within (R := SameOpen) _ _ _ _)) ?_
          intro _ k₇ hsame₇
          have hsame := ((hsame.trans hsame₅).trans hsame₆).trans hsame₇
          have hcur₇ := hcur hsame
          rw [wp_modify]
          have hfiles₇ : k₇.fileTable = Function.update k.fileTable g ⟨0, flags, some a⟩ :=
            hsame.files.trans hfiles₃
          have hcounted : Counted [] { k₇.setInode a { k₇.inodes a with iOpenCnts := 1 } with
              openInodes := a :: k₇.openInodes } :=
            hcounted₂.create hsame hnew (Nat.lt_succ_self _) hg hfree
          exact pcbFdInstall_accounted hk.toInstalled hcounted (hsame.live.trans hsince₂.handles) hg
            hfree₀ (Option.some_ne_none a) hflag hfiles₇ hcur₇ (hfd ⟨g, hlow, hg, hfree₀⟩)

/-- A path of one name is looked up in the root, and nothing is opened. -/
theorem searchFile_single {pathname : CString} (hsingle : (pathParse pathname.val).2 = none) :
    (searchFile t pathname).wp (fun r k' => r.2.fileType ≠ .directory →
      k' = k ∧ r.2.parentDir = rootDir) k := by
  -- without a further name the walk ends in a directory
  have hend : ∀ {fuel : ℕ} {w : Walk} {k₁ : Kernel}, w.name = [] →
      (searchLoop t fuel w).wp (fun r k' => r.2.fileType ≠ .directory →
        k' = k ∧ r.2.parentDir = rootDir) k₁ := by
    intro fuel w k₁ hname
    cases fuel with
    | zero => trivial
    | succ fuel =>
        unfold searchLoopBy
        rw [if_pos hname]
        simp only [wp_bind, wp_pure]
        exact wp_mono wp_true fun _ _ _ => wp_mono wp_true fun _ _ _ h => absurd rfl h
  unfold searchFile searchFileBy
  dsimp only
  split
  · exact fun h => absurd rfl h
  simp only [wp_bind, wp_assert, wp_arbitrary]
  intro _ iNo
  refine wp_nextNameBy (some pathname.val) ?_
  by_cases hname : (pathParse pathname.val).1 = []
  · exact hend hname
  dsimp only [nextName]
  rw [hsingle, searchLoopBy, if_neg hname]
  split
  · trivial
  simp only [wp_bind, wp_assert]
  intro _
  refine wp_mono (searchDirEntry_same _ _ _).wp_eq ?_
  rintro found _ rfl
  split
  · exact fun _ => ⟨rfl, rfl⟩
  rw [wp_bind]
  refine wp_nextNameBy _ ?_
  split
  · exact fun _ => ⟨rfl, rfl⟩
  · simp only [wp_bind, wp_read]
    exact wp_mono wp_true fun _ _ _ => wp_mono wp_true fun _ _ _ => hend rfl
  · exact hend rfl

theorem sysOpen_accounted {pathname : CString} {flags : ℕ} (hk : Accounted l k)
    (hcond : ¬ Leaks t k (.open pathname flags)) :
    (sysOpen t pathname flags).wp (fun _ => Accounted l) k := by
  simp only [sysOpen, wp_bind, wp_arbitrary]
  intro before
  split
  · exact hk
  next hslash =>
    have hlast : pathname.val.getLast? ≠ some slash := by
      intro hlast
      rw [List.getLastD_eq_getLast?, hlast] at hslash
      exact hslash rfl
    rw [wp_bind, wp_assert]
    intro hflags
    have hflags : flags ≤ 7 := by simpa using hflags
    rw [wp_bind, wp_iff_returns]
    intro depth k₀ hdepth
    obtain rfl : k₀ = k := wp_iff_returns.mp (pathDepthCnt_same _).wp_eq _ _ hdepth
    rw [wp_bind, wp_iff_returns]
    rintro ⟨found, record⟩ k₁ hsearch
    have hk₁ := wp_iff_returns.mp (searchFile_since hk.since pathname) _ _ hsearch
    have hclose : ∀ (ret : ℤ) {k : Kernel}, Accounted (withParent record.parentDir l) k →
        (dirClose record.parentDir >>= fun _ => pure ret : Prog Kernel ℤ).wp
          (fun _ => Accounted l) k := fun ret k hk =>
      wp_mono (hk.since.close_return ret) fun _ _ h => h.accounted hk.toInstalled
    have hacc₁ := hk₁.accounted hk.toInstalled
    dsimp only
    split
    · exact hclose _ hacc₁
    next hfile =>
      rw [wp_bind, wp_iff_returns]
      intro searched k₂ hsearched
      obtain rfl : k₂ = k₁ := wp_iff_returns.mp (pathDepthCnt_same _).wp_eq _ _ hsearched
      split
      · exact hclose _ hacc₁
      next hdeep =>
        obtain rfl : depth = searched := not_not.mp hdeep
        cases found with
        | none =>
            dsimp only
            split
            · exact hclose _ hacc₁
            next hcreat =>
              rw [wp_bind]
              have hfd : k₂.FreeEntry → k₂.FreeFd := fun hentry => by
                rw [hk₁.freeEntry] at hentry
                rw [hk₁.freeFd]
                by_contra hfull
                exact hcond ⟨hlast, Or.inr ⟨hcreat, ⟨record, k₂, hsearch, hfile, depth, hdepth,
                  hsearched⟩, hentry, hfull⟩⟩
              exact wp_mono (fileCreate_accounted hacc₁ hflags hfd) fun fd k₃ hk₃ => hclose fd hk₃
        | some inodeNo =>
            dsimp only
            split
            · exact hclose _ hacc₁
            next hcreat =>
              -- the condition rules out all but a path of one name, which changes nothing
              have hcreat : flags &&& oCreat = 0 := not_not.mp hcreat
              have hnames : NamesFile t k₀ pathname inodeNo :=
                ⟨record, k₂, hsearch, hfile, depth, hdepth, hsearched⟩
              have hclean : ∀ h : (pathParse pathname.val).2 ≠ none ∨ k₀.FreeEntry ∧
                  (wantsWrite flags = true ∧ Denied t k₀ inodeNo ∨ ¬ k₀.FreeFd), False := fun h =>
                hcond ⟨hlast, Or.inl ⟨hcreat, inodeNo, hnames, h⟩⟩
              have hsingle : (pathParse pathname.val).2 = none := by
                by_contra h
                exact hclean (Or.inl h)
              obtain ⟨rfl, -⟩ := wp_iff_returns.mp (searchFile_single hsingle) _ _ hsearch hfile
              refine fileOpen_accounted hk hflags (fun hentry => ?_) fun hentry hwrite hdenied =>
                hclean (Or.inr ⟨hentry, Or.inl ⟨hwrite, hdenied⟩⟩)
              by_contra hfull
              exact hclean (Or.inr ⟨hentry, Or.inr hfull⟩)

theorem sysClose_accounted {fd : ℤ} (hk : Accounted l k) :
    (sysClose fd).wp (fun _ => Accounted l) k := by
  unfold sysClose
  split
  · exact hk
  next hlow =>
    rw [wp_bind]
    refine wp_mono fdLocal2global_spec ?_
    rintro g _ ⟨rfl, hhigh, hfd, hg⟩
    have hlow : 3 ≤ fd.toNat := by omega
    obtain ⟨g', -, hfd', hused, hpipe⟩ := hk.fd fd.toNat hlow hhigh (by rw [hfd]; omega)
    obtain rfl : g' = g := by
      rw [hfd] at hfd'
      exact_mod_cast hfd'.symm
    rw [wp_bind]
    refine wp_mono (wp_and isPipe_spec isPipe_entry) ?_
    rintro pipe k ⟨rfl, g, -, hfd', hflag⟩
    obtain rfl : g = g' := by
      rw [hfd] at hfd'
      exact_mod_cast hfd'.symm
    rw [if_neg (fun h => hpipe (hflag.mp h)), wp_bind, fileClose, wp_bind, wp_read]
    obtain ⟨a, ha⟩ := Option.ne_none_iff_exists'.mp hused
    rw [ha]
    simp only [wp_bind, wp_write, wp_inodeClose, wp_modify, wp_pure]
    set k₁ := k.setInode a { k.inodes a with writeDeny := false } with hk₁
    set file : File := { (k₁.closed a).fileTable g with fdInode := none } with hfile
    have hcounted₁ : Counted [] k₁ := by
      refine hk.toCounted.same ⟨rfl, le_rfl, rfl, rfl, rfl, fun _ => rfl, fun b _ => ?_⟩
      change (Function.update k.inodes a _ b).iOpenCnts = (k.inodes b).iOpenCnts
      by_cases hba : b = a
      · rw [hba, Function.update_self]
      · rw [Function.update_of_ne hba]
    have hcounted₂ : Counted [] ((k₁.closed a).setFile g file) := by
      rw [← closed_setFile]
      exact (hcounted₁.takeFile hg ha rfl).closed
    refine ⟨hcounted₂.same ⟨rfl, le_rfl, rfl, rfl, rfl, fun _ => rfl, fun _ _ => rfl⟩, ?_, ?_⟩
    · refine hk.toInstalled.remove hlow hhigh hfd (show file.fdInode = none from rfl) ?_ ?_
      · change Function.update (k₁.closed a).fileTable g file = _
        rw [closed_fileTable]
        rfl
      · change (Function.update (k₁.closed a).tasks (k₁.closed a).running _
          (k₁.closed a).running).fdTable = _
        rw [Function.update_self]
        change Function.update (k₁.closed a).cur.fdTable fd.toNat (-1) = _
        rw [closed_cur]
        rfl
    · change (k₁.closed a).liveDirs = l
      rw [closed_liveDirs]
      exact hk.handles

theorem sysClosedir_accounted {dir : Option ℕ} (hk : Accounted l k)
    (hheld : ∀ d ∈ dir, d ≠ rootDir → d ∈ l) :
    (sysClosedir dir).wp (fun _ => Accounted (dir.elim l l.erase)) k := by
  cases dir with
  | none => exact hk
  | some d =>
      simp only [sysClosedir, wp_bind, wp_pure]
      refine wp_mono (hk.since.closeDir (hheld d rfl)) fun _ k₁ hk₁ => ?_
      have hroot : d = rootDir → l.erase d = l := by
        rintro rfl
        refine List.erase_of_not_mem fun hmem => ?_
        exact absurd (hk.liveOld rootDir (hk.handles ▸ hmem)).1 (lt_irrefl _)
      have herase : (if d = rootDir then l else l.erase d) = l.erase d := by
        split
        next hd => exact (hroot hd).symm
        next => rfl
      rw [herase] at hk₁
      exact hk₁.accounted hk.toInstalled

end Accounted

theorem FsStep.accounted {t : Transfer} {s s' : Session} {call : FsCall}
    (hs : Accounted s.handles s.kernel) (hcond : NoLeak t s call) (h : FsStep t s call s') :
    Accounted s'.handles s'.kernel := by
  cases h with
  | «open» h => exact wp_iff_returns.mp (sysOpen_accounted hs hcond) _ _ h
  | close h => exact wp_iff_returns.mp (sysClose_accounted hs) _ _ h
  | opendir h =>
      exact (wp_iff_returns.mp (sysOpendir_since hs.since _) _ _ h).accounted hs.toInstalled
  | closedir hheld h => exact wp_iff_returns.mp (sysClosedir_accounted hs hheld) _ _ h
  | stat h => exact (wp_iff_returns.mp (sysStat_since hs.since _) _ _ h).accounted hs.toInstalled
  | chdir h => exact (wp_iff_returns.mp (sysChdir_since hs.since _) _ _ h).accounted hs.toInstalled
  | mkdir h => exact (wp_iff_returns.mp (sysMkdir_since hs.since _) _ _ h).accounted hs.toInstalled
  | rmdir h => exact (wp_iff_returns.mp (sysRmdir_since hs.since _) _ _ h).accounted hs.toInstalled
  | unlink h =>
      exact (wp_iff_returns.mp (sysUnlink_since hs.since _) _ _ h).accounted hs.toInstalled

theorem OnlyRootOpen.accounted {s : Session} (hs : OnlyRootOpen s) :
    Accounted s.handles s.kernel := by
  have hentry : ∀ a, s.kernel.entryCnt a = 0 := by
    intro a
    rw [Kernel.entryCnt, Finset.card_eq_zero, Finset.filter_eq_empty_iff]
    intro g hg
    rw [hs.files g (Finset.mem_range.mp hg)]
    exact fun h => by cases h
  refine { nodup := ?_, old := ?_, live := ?_, liveOld := ?_, rootOld := hs.nextDir, cnt := ?_,
           used := ?_, fd := ?_, inj := ?_, onto := ?_, handles := ?_ }
  · rw [hs.opened]
    exact List.nodup_singleton _
  · rw [hs.opened]
    intro a ha
    rw [List.mem_singleton.mp ha]
    exact hs.old
  · rw [hs.live]
    exact List.nodup_nil
  · rw [hs.live]
    exact fun _ h => by cases h
  · intro a
    rw [hs.opened]
    simp only [Kernel.refs, hentry, hs.live, Kernel.handleCnt, Kernel.rootCnt, List.countP_nil,
      List.count_nil, Nat.zero_add, Nat.add_zero, List.mem_singleton]
    by_cases ha : a = (s.kernel.dirs rootDir).inode
    · rw [if_pos ha.symm, if_pos ha, ha, hs.cnt]
    · rw [if_neg (Ne.symm ha), if_neg ha]
  · rw [hs.opened]
    intro a ha
    rw [List.mem_singleton.mp ha, hs.cnt]
    exact Nat.one_pos
  · intro fd hlow hhigh hset
    exact absurd (hs.fds fd hlow hhigh) hset
  · intro fd fd' hlow hhigh _ _ hset
    exact absurd (hs.fds fd hlow hhigh) hset
  · intro g hg hused
    exact absurd (hs.files g hg) hused
  · rw [hs.live, hs.handles]

/-- Every entry in use is reached, so the references are those of `Counted`. -/
theorem Accounted.right {s : Session} (hs : Accounted s.handles s.kernel) : OpenCountsRight s := by
  have hreach : ∀ a, s.kernel.reachCnt a = s.kernel.entryCnt a := by
    intro a
    unfold Kernel.reachCnt Kernel.entryCnt
    congr 1
    refine Finset.filter_congr fun g hg => and_iff_right_of_imp fun hinode => ?_
    obtain ⟨fd, -, hhigh, heq⟩ := hs.onto g (Finset.mem_range.mp hg) (by rw [hinode]; simp)
    exact ⟨fd, hhigh, heq⟩
  intro a ha
  have hcnt := hs.cnt a
  rw [if_pos ha, Kernel.refs, List.count_nil, hs.handles, ← hreach, Nat.add_zero] at hcnt
  have hrefs : (s.kernel.inodes a).iOpenCnts = s.refs a := hcnt.symm
  exact ⟨hrefs, hrefs ▸ hs.used a ha⟩

/-- In every run in which no call forgets a reference, the counts of the open inodes are
right. -/
theorem open_counts_right {t : Transfer} {s : Session}
    (h : Reachable OnlyRootOpen (FsStep t) (NoLeak t) s) : OpenCountsRight s := by
  have hs : Accounted s.handles s.kernel := by
    refine Reachable.invariant (fun s => Accounted s.handles s.kernel) (fun s hs => hs.accounted) ?_ h
    intro s call s' hs hcond hstep
    exact hstep.accounted hs hcond
  exact hs.right

/-! ## Two runs -/

/-- One call, with every allocation successful. -/
def FsCall.exec (s : Session) : FsCall → Option Session
  | .open pathname flags =>
      ((sysOpen .repeated pathname flags).exec [] s.kernel).map fun r => ⟨r.2, s.handles⟩
  | close fd => ((sysClose fd).exec [] s.kernel).map fun r => ⟨r.2, s.handles⟩
  | opendir name => ((sysOpendir .repeated name).exec [] s.kernel).map fun r =>
      ⟨r.2, opened s.handles r.1⟩
  | mkdir pathname => ((sysMkdir .repeated pathname).exec [] s.kernel).map fun r => ⟨r.2, s.handles⟩
  | _ => none

theorem FsCall.step_of_exec {s s' : Session} {call : FsCall} (h : call.exec s = some s') :
    FsStep .repeated s call s' := by
  cases call with
  | «open» pathname flags =>
      obtain ⟨_, hexec, rfl⟩ := Option.map_eq_some_iff.mp h
      exact .open (returns_of_exec hexec)
  | close fd =>
      obtain ⟨_, hexec, rfl⟩ := Option.map_eq_some_iff.mp h
      exact .close (returns_of_exec hexec)
  | opendir name =>
      obtain ⟨_, hexec, rfl⟩ := Option.map_eq_some_iff.mp h
      exact .opendir (returns_of_exec hexec)
  | mkdir pathname =>
      obtain ⟨_, hexec, rfl⟩ := Option.map_eq_some_iff.mp h
      exact .mkdir (returns_of_exec hexec)
  | closedir dir => cases h
  | stat path => cases h
  | chdir path => cases h
  | rmdir pathname => cases h
  | unlink pathname => cases h

theorem newFs_onlyRootOpen : OnlyRootOpen ⟨smallMachine.newFs, []⟩ where
  opened := rfl
  cnt := rfl
  old := by decide
  live := rfl
  nextDir := by decide
  files g hg := by simp only [Kernel.newFs, if_pos hg]
  fds fd hlow hhigh := if_neg (by omega)
  handles := rfl

/-- `"/d/f"`. -/
def pathDF : CString := ⟨[slash, 100, slash, 102], by decide⟩

/-- One call, which opens only new files and only when descriptor 3 is free. -/
def FsCall.execSafe (s : Session) : FsCall → Option Session
  | .open pathname flags =>
      if flags &&& oCreat ≠ 0 ∧ s.kernel.cur.fdTable 3 = -1 then FsCall.exec s (.open pathname flags)
      else none
  | call => call.exec s

theorem FsCall.safe_of_exec {s s' : Session} {call : FsCall} (h : call.execSafe s = some s') :
    NoLeak .repeated s call ∧ FsStep .repeated s call s' := by
  cases call with
  | «open» pathname flags =>
      simp only [FsCall.execSafe] at h
      split at h
      next hsafe =>
        refine ⟨?_, FsCall.step_of_exec h⟩
        rintro ⟨-, ⟨hcreat, -⟩ | ⟨-, -, -, hfull⟩⟩
        · exact hsafe.1 hcreat
        · exact hfull ⟨3, le_rfl, by decide, hsafe.2⟩
      next => cases h
  | close fd => exact ⟨id, FsCall.step_of_exec h⟩
  | opendir name => exact ⟨id, FsCall.step_of_exec h⟩
  | mkdir pathname => exact ⟨id, FsCall.step_of_exec h⟩
  | closedir dir => cases h
  | stat path => cases h
  | chdir path => cases h
  | rmdir pathname => cases h
  | unlink pathname => cases h

/-- A directory is made and opened, and a file is created in it: three inodes are open. -/
theorem open_counts_right_after_create :
    ∃ s, Reachable OnlyRootOpen (FsStep .repeated) (NoLeak .repeated) s ∧
      s.kernel.openInodes.length = 3 ∧ OpenCountsRight s := by
  have hrun : (follow (fun s call => FsCall.execSafe s call)
      [.mkdir pathD, .opendir pathD, .open pathDF 6] ⟨smallMachine.newFs, []⟩).map
        (fun s => s.kernel.openInodes.length) = some 3 := by
    decide +kernel
  obtain ⟨s, hs, hlength⟩ := Option.map_eq_some_iff.mp hrun
  have hreach : Reachable OnlyRootOpen (FsStep .repeated) (NoLeak .repeated) s :=
    Reachable.of_follow (fun _ _ _ h => FsCall.safe_of_exec h) (.start newFs_onlyRootOpen) hs
  exact ⟨s, hreach, hlength, open_counts_right hreach⟩

/-- A file below a directory is created and closed, and then opened: the inode of the
directory stays open without a reference. -/
theorem open_forgets_parent :
    ∃ s, Reachable OnlyRootOpen (FsStep .repeated) (fun _ _ => True) s ∧ ¬ OpenCountsRight s := by
  have hrun : (follow (fun s call => FsCall.exec s call)
      [.mkdir pathD, .open pathDF 6, .close 3, .open pathDF 0] ⟨smallMachine.newFs, []⟩).map
        (fun s => decide (3 ∈ s.kernel.openInodes ∧ s.refs 3 = 0)) = some true := by
    decide +kernel
  obtain ⟨s, hs, hleft⟩ := Option.map_eq_some_iff.mp hrun
  have hleft := of_decide_eq_true hleft
  have hreach : Reachable OnlyRootOpen (FsStep .repeated) (fun _ _ => True) s := by
    refine Reachable.of_follow ?_ (.start newFs_onlyRootOpen) hs
    exact fun s call s' h => ⟨trivial, FsCall.step_of_exec h⟩
  refine ⟨s, hreach, fun hright => ?_⟩
  have hpos := (hright 3 hleft.1).2
  rw [hleft.2] at hpos
  exact absurd hpos (lt_irrefl 0)

end BochsOs
