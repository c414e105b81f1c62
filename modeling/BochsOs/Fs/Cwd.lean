import BochsOs.Fs.Search

/-!
# The working directory

`sys_chdir` stores the number of a directory, and `sys_getcwd` finds its path again: it
climbs the entries `..` to the root, looks in every parent for the entry with the number
of the child, and turns the names that it has collected round.

In a consistent tree every directory has one path (`NameTree.path_unique`), so the entry
found in the parent is the one that the path went through.  `getcwd_of_chdir` says that
`sys_getcwd` returns the path given to `sys_chdir`, unless there is no memory for its
buffer.
-/

namespace BochsOs

open ByteMemory Suspend Suspend.Prog NameTrees Words

/-! ## Turning the path round -/

theorem afterLastSlash_append {w : List UInt8} (hw : slash ∉ w) (s : List UInt8) :
    afterLastSlash (s ++ slash :: w) = w := by
  have hall : ∀ c ∈ w.reverse, decide (c ≠ slash) = true := by
    intro c hc
    refine decide_eq_true fun h => hw ?_
    rw [← h]
    exact List.mem_reverse.mp hc
  rw [afterLastSlash, List.reverse_append, List.reverse_cons, List.append_assoc,
    List.takeWhile_append_of_pos hall, List.singleton_append, List.takeWhile_cons_of_neg (by simp),
    List.append_nil, List.reverse_reverse]

/-- The last loop of `sys_getcwd` appends the names in reverse order. -/
theorem reverseLoop_join {ws : List (List UInt8)} (hws : ∀ w ∈ ws, slash ∉ w) {fuel : ℕ}
    (hfuel : ws.length ≤ fuel) (buf : List UInt8) :
    reverseLoop fuel (join slash ws) buf = buf ++ join slash ws.reverse := by
  induction ws using List.reverseRecOn generalizing fuel buf with
  | nil =>
      rw [List.reverse_nil, join_nil, List.append_nil]
      cases fuel with
      | zero => rfl
      | succ fuel => exact if_pos List.not_mem_nil
  | append_singleton ws w ih =>
      rw [List.length_append, List.length_singleton] at hfuel
      obtain ⟨fuel, rfl⟩ : ∃ m, fuel = m + 1 := ⟨fuel - 1, by omega⟩
      have hw : slash ∉ w := hws w (by simp)
      have hjoin : join slash (ws ++ [w]) = join slash ws ++ slash :: w := by
        rw [join_append, join_cons, join_nil, List.append_nil]
      have htake : (join slash ws ++ slash :: w).take
          ((join slash ws ++ slash :: w).length - (slash :: w).length) = join slash ws := by
        rw [List.length_append, Nat.add_sub_cancel, List.take_left']
        rfl
      rw [hjoin, reverseLoop, if_neg (by simp)]
      dsimp only
      rw [afterLastSlash_append hw, htake, ih (fun v hv => hws v (by simp [hv])) (by omega),
        List.reverse_append, List.reverse_singleton, List.singleton_append, join_cons,
        List.append_assoc]

/-! ## One step up -/

section Climb

variable {t : Transfer} {e : Env} {k₀ k : Kernel}

/-- The entries loop of `get_child_dir_name` is a search through the slots. -/
theorem ensures_childNameLoop {allBlocks : ℕ → ℕ} {child left blkI : ℕ}
    (hlba : ∀ i < blkI + left, allBlocks i ≤ maxLba) {Q : Option (List UInt8) → Kernel → Prop} :
    (childNameLoop t allBlocks child left blkI).ensures e Q k ↔
      Q (((dirSlots k.disk k.entriesPerSec allBlocks left blkI).find? (·.iNo = child)).map
        Slot.name) k := by
  induction left generalizing blkI with
  | zero => exact Iff.rfl
  | succ left ih =>
      have ih := @ih (blkI + 1) fun i hi => hlba i (by omega)
      rw [childNameLoop, dirSlots]
      split
      next hzero => rw [List.nil_append, ih]
      next hzero =>
        simp only [ensures_bind, ensures_ideRead_one (hlba blkI (by omega)), ensures_read]
        rw [List.find?_append, blockSlots, List.find?_map]
        have hcomp : (fun s : Slot => decide (s.iNo = child)) ∘
            (fun i => (⟨sectorOf k.disk (allBlocks blkI), direntSize * i⟩ : Slot)) =
            fun i => decide
              (entryINo (sectorOf k.disk (allBlocks blkI)) (direntSize * i) = child) := rfl
        rw [hcomp]
        rcases (List.range k.entriesPerSec).find? fun i => decide
          (entryINo (sectorOf k.disk (allBlocks blkI)) (direntSize * i) = child) with _ | i
        · exact ih
        · exact Iff.rfl

/-- Without an indirect table the pointers behind the direct ones are empty. -/
theorem Kernel.dirSlots_direct {iSectors : ℕ → ℕ} (hzero : iSectors directPtrs = 0) :
    dirSlots k.disk k.entriesPerSec (k.blocks iSectors) directPtrs 0 = k.slotsOf iSectors := by
  have hrest : ∀ i, directPtrs ≤ i → k.blocks iSectors i = 0 := by
    intro i hi
    rw [Kernel.blocks, flattenBlocks, if_neg (by omega), if_neg (by simp [hzero])]
  rw [Kernel.slotsOf, show flattenPtrs = directPtrs + 128 from rfl, dirSlots_add,
    dirSlots_zero fun i (hi : 0 + directPtrs ≤ i) => hrest i (by omega), List.append_nil]

/-- `get_child_dir_name` names the first slot with the number of the child. -/
theorem ensures_getChildDirName (he : FairEnv e) (hk : k₀.CacheOk) {n child : ℕ} (hn : k₀.DirOk t n)
    (hback : Restored k₀ k) {Q : Option (List UInt8) → Kernel → Prop}
    (hQ : ∀ k', Restored k₀ k' →
      Q (((k₀.slots t n).find? (·.iNo = child)).map Slot.name) k') :
    (getChildDirName t n child).ensures e Q k := by
  rw [getChildDirName, ensures_bind]
  refine ensures_inodeOpen he hk hn.small hn.iNo hback fun a k₁ h => ?_
  have hper : (k₁.closeInode a).entriesPerSec = k₀.entriesPerSec := by
    rw [Kernel.entriesPerSec, h.closes.part]
    rfl
  have hblocks : ∀ left, left ≤ flattenPtrs → ∀ i < 0 + left,
      k₀.blocks (k₀.inodeOf t n).iSectors i ≤ maxLba :=
    fun left hleft i hi => hn.blocks i (by omega)
  have hdone := hQ _ h.closes
  simp only [ensures_bind, ensures_read]
  rw [h.inode.iSectors, ensures_readIndirect hn.table, h.looks.tree.disk, ensures_inodeClose]
  change ensures e (childNameLoop t (k₀.blocks (k₀.inodeOf t n).iSectors) child _ 0) Q _
  by_cases hzero : (k₀.inodeOf t n).iSectors directPtrs = 0
  · rw [if_neg (by simpa using hzero), ensures_childNameLoop (hblocks directPtrs (by decide)),
      h.closes.disk, hper, Kernel.dirSlots_direct hzero]
    exact hdone
  · rw [if_pos hzero, ensures_childNameLoop (hblocks flattenPtrs le_rfl), h.closes.disk, hper]
    exact hdone

/-- `get_parent_dir_inode_nr` returns the number in the entry `..`. -/
theorem ensures_getParentDirInodeNr (he : FairEnv e) (hk : k₀.CacheOk) {n : ℕ} (hn : k₀.DirOk t n)
    (hparent : k₀.parentOf t n < maxFilesPerPart) (hback : Restored k₀ k)
    {Q : ℕ → Kernel → Prop} (hQ : ∀ k', Restored k₀ k' → Q (k₀.parentOf t n) k') :
    (getParentDirInodeNr t n).ensures e Q k := by
  rw [getParentDirInodeNr, ensures_bind]
  refine ensures_inodeOpen he hk hn.small hn.iNo hback fun a k₁ h => ?_
  have hfirst : k₀.blocks (k₀.inodeOf t n).iSectors 0 = (k₀.inodeOf t n).iSectors 0 := by
    rw [Kernel.blocks, flattenBlocks, if_pos (show 0 < directPtrs by decide)]
  have hlba : (k₀.inodeOf t n).iSectors 0 ≤ maxLba := by
    have := hn.blocks 0 (by decide)
    rwa [hfirst] at this
  have hdata : k₁.part.sb.dataStartLba ≤ (k₁.inodes a).iSectors 0 := by
    rw [h.looks.tree.part, h.inode.iSectors]
    exact hn.firstLba
  simp only [ensures_bind, ensures_read]
  rw [ensures_assert (decide_eq_true hdata), ensures_inodeClose, h.inode.iSectors,
    ensures_ideRead_one hlba, h.closes.disk]
  have hentry : entryINo (sectorOf k₀.disk ((k₀.inodeOf t n).iSectors 0)) direntSize < maxFilesPerPart ∧
      entryType (sectorOf k₀.disk ((k₀.inodeOf t n).iSectors 0)) direntSize = .directory :=
    ⟨hparent, hn.dotDot.fType⟩
  rw [ensures_assert (decide_eq_true hentry)]
  exact hQ _ h.closes

end Climb

/-! ## The way up to the root -/

theorem length_join_reverse (ws : List (List UInt8)) :
    (join slash ws.reverse).length = (join slash ws).length := by
  rw [join, join, List.length_flatMap, List.length_flatMap, List.map_reverse, List.sum_reverse]

section Up

variable {t : Transfer} {e : Env} {k₀ k : Kernel} (hk : ConsistentTree t k₀)
  {ws : List (List UInt8)} {n : ℕ}

include hk

/-- In the parent of a directory the first slot with its number holds the last name of its
path.  The slots `.` and `..` of the parent hold other numbers, since the parent and its
parent have shorter paths. -/
theorem ConsistentTree.find_child {w : List UInt8} (hat : hk.nameTree.at? (ws ++ [w]) = some n) :
    ((k₀.slots t (k₀.parentOf t n)).find? (·.iNo = n)).map Slot.name = some w := by
  obtain ⟨hparent, hchild⟩ := NameTree.at_snoc hat
  change hk.nameTree.at? ws = some (k₀.parentOf t n) at hparent
  set p := k₀.parentOf t n
  have hp := hk.dirOk_of_walk hparent
  obtain ⟨hw, hlookup⟩ := Kernel.namedChild_eq_some.mp hchild
  obtain ⟨s, hs, hused, hname, hn, -⟩ := hp.lookup_name hk.cache hw hlookup
  have hdot : (k₀.firstSlot t p 0).iNo ≠ n := by
    rw [hp.dot.iNo]
    intro heq
    rw [heq] at hparent
    have := congrArg List.length (NameTree.path_unique hparent hat)
    simp at this
  have hdotDot : (k₀.firstSlot t p 1).iNo ≠ n := by
    rw [hp.dotDot.iNo]
    intro heq
    have hup := NameTree.at_parent hparent
    change hk.nameTree.at? ws.dropLast = some (k₀.parentOf t p) at hup
    rw [heq] at hup
    have := congrArg List.length (NameTree.path_unique hup hat)
    rw [List.length_append, List.length_singleton, List.length_dropLast] at this
    omega
  rw [hp.slots_eq hk.cache, List.find?_cons_of_neg (by simpa using hdot),
    List.find?_cons_of_neg (by simpa using hdotDot)]
  rcases hfind : (k₀.entries t p).find? (·.iNo = n) with _ | s'
  · have := List.find?_eq_none.mp hfind s hs
    simp [hn] at this
  · have hs' := List.mem_of_find?_eq_some hfind
    have hn' : s'.iNo = n := by simpa using List.find?_some hfind
    rw [hfind, Option.map_some, ← hname]
    congr 1
    exact hp.name_unique s' hs' s hs (by rw [hn', ← hn]; exact hused.pos.ne') (hn'.trans hn.symm)

/-- The first loop of `sys_getcwd` collects the names of the path, last name first. -/
theorem ensures_cwdLoop (he : FairEnv e) (hat : hk.nameTree.at? ws = some n) {fuel : ℕ}
    (hfuel : ws.length < fuel) {path : List UInt8}
    (hlen : path.length + (join slash ws).length < maxPathLen) (hback : Restored k₀ k)
    {Q : Option (List UInt8) → Kernel → Prop}
    (hQ : ∀ k', Restored k₀ k' → Q (some (path ++ join slash ws.reverse)) k') :
    (cwdLoop t fuel n path).ensures e Q k := by
  induction ws using List.reverseRecOn generalizing fuel n path k with
  | nil =>
      obtain ⟨fuel, rfl⟩ : ∃ m, fuel = m + 1 := ⟨fuel - 1, by omega⟩
      cases hat
      have hdone := hQ k hback
      rw [List.reverse_nil, join_nil, List.append_nil] at hdone
      exact hdone
  | append_singleton ws w ih =>
      obtain ⟨fuel, rfl⟩ : ∃ m, fuel = m + 1 := ⟨fuel - 1, by omega⟩
      have hn := hk.dirOk_of_walk hat
      have hne : n ≠ 0 := by
        intro hzero
        have hroot : hk.nameTree.at? (ws ++ [w]) = some hk.nameTree.root := by rw [hat, hzero]; rfl
        exact absurd (NameTree.at_root_iff.mp hroot) (by simp)
      have hparent := (NameTree.at_snoc hat).1
      have hp := hk.dirOk_of_walk hparent
      rw [join_append, join_cons, join_nil, List.append_nil, List.length_append,
        List.length_cons] at hlen
      rw [List.length_append, List.length_singleton] at hfuel
      rw [cwdLoop, if_neg hne, ensures_bind]
      refine ensures_getParentDirInodeNr he hk.cache hn hp.small hback fun k₁ h₁ => ?_
      rw [ensures_bind]
      refine ensures_getChildDirName he hk.cache hp h₁ fun k₂ h₂ => ?_
      have hchild := hk.find_child hat
      change ((k₀.slots t (hk.nameTree.parent n)).find? (·.iNo = n)).map Slot.name = some w at hchild
      rw [hchild]
      dsimp only
      have hfits : ¬ maxPathLen ≤ (path ++ slash :: w).length := by
        rw [List.length_append, List.length_cons]
        omega
      rw [if_neg hfits]
      refine ih hparent (by omega) ?_ h₂ fun k₃ h₃ => ?_
      · rw [List.length_append, List.length_cons]
        omega
      · have hdone := hQ k₃ h₃
        rw [List.reverse_append, List.reverse_singleton, List.singleton_append, join_cons] at hdone
        rw [List.append_assoc]
        exact hdone

end Up

/-! ## `sys_getcwd` -/

/-- The path of a list of names. -/
def pathOf (ws : List (List UInt8)) : List UInt8 := if ws = [] then [slash] else join slash ws

/-- `sys_getcwd` once it has its buffer. -/
def cwdPath (t : Transfer) (size : ℕ) : Prog Kernel (Option (List UInt8)) := do
  let k ← read
  assert (k.cur.cwdInodeNr < maxFilesPerPart)
  if k.cur.cwdInodeNr = 0 then return some [slash]
  else
    match ← cwdLoop t maxPathLen k.cur.cwdInodeNr [] with
    | none => return none
    | some fullPathReverse =>
        assert (fullPathReverse.length ≤ size)
        return some (reverseLoop maxPathLen fullPathReverse [])

/-- The first answer decides whether there is memory. -/
theorem exec_sysMalloc_bind {β : Type} {f : Bool → Prog Kernel β} {answers : List ℕ} {k : Kernel} :
    (sysMalloc >>= f).exec answers k = (f (answers.headD 0 = 0)).exec answers.tail k := rfl

theorem sysGetcwd_eq (t : Transfer) (size : ℕ) : sysGetcwd t size = (do
    let ok ← sysMalloc
    if !ok then return none else cwdPath t size) := rfl

/-- With a buffer `sys_getcwd` returns the path of the working directory. -/
theorem ensures_cwdPath {t : Transfer} {e : Env} (he : FairEnv e) {k₀ k : Kernel}
    (hk : ConsistentTree t k₀) {ws : List (List UInt8)} {size : ℕ}
    (hat : hk.nameTree.at? ws = some k₀.cur.cwdInodeNr) (hlen : (join slash ws).length < maxPathLen)
    (hsize : (join slash ws).length ≤ size) (hback : Restored k₀ k)
    {Q : Option (List UInt8) → Kernel → Prop}
    (hQ : ∀ k', Restored k₀ k' → Q (some (pathOf ws)) k') : (cwdPath t size).ensures e Q k := by
  have hn := hk.dirOk_of_walk hat
  simp only [cwdPath, ensures_bind, ensures_read]
  rw [hback.cur, ensures_assert (decide_eq_true hn.small)]
  unfold pathOf at hQ
  by_cases hzero : k₀.cur.cwdInodeNr = 0
  · have hroot : hk.nameTree.at? ws = some hk.nameTree.root := by rw [hat, hzero]; rfl
    rw [if_pos hzero]
    rw [if_pos (NameTree.at_root_iff.mp hroot)] at hQ
    exact hQ k hback
  · have hws : ws ≠ [] := by
      rintro rfl
      exact hzero (Option.some.inj hat).symm
    have hwords : ∀ w ∈ ws.reverse, slash ∉ w := fun w hw =>
      (isName_of_walk hat w (List.mem_reverse.mp hw)).isWord.2
    have hfull : ws.length < maxPathLen := (length_le_length_join ws).trans_lt hlen
    rw [if_neg hws] at hQ
    rw [if_neg hzero, ensures_bind]
    refine ensures_cwdLoop hk he hat hfull (by rwa [List.length_nil, Nat.zero_add]) hback
      fun k₁ h₁ => ?_
    have hdone := hQ k₁ h₁
    rw [List.nil_append, ensures_bind, ensures_assert (decide_eq_true (by
      rw [length_join_reverse]; exact hsize)), ensures_pure, reverseLoop_join hwords (by
      rw [List.length_reverse]; omega), List.nil_append, List.reverse_reverse]
    exact hdone

/-! ## `sys_chdir` -/

/-- The running process with another working directory. -/
def Kernel.setCwd (k : Kernel) (n : ℕ) : Kernel :=
  k.setTask k.running { k.cur with cwdInodeNr := n }

theorem Restored.setCwd {k₀ k : Kernel} (h : Restored k₀ k) (n : ℕ) :
    Restored (k₀.setCwd n) (k.setCwd n) where
  rest := by
    rw [h.rest]
    rfl
  inodes := h.inodes
  dirs := h.dirs
  nextInode := h.nextInode
  nextDir := h.nextDir

theorem Kernel.setCwd_cwd (k : Kernel) (n : ℕ) : (k.setCwd n).cur.cwdInodeNr = n := by
  rw [Kernel.cur, Kernel.setCwd, Kernel.setTask]
  simp

theorem Restored.setCwd_cwd {k k' : Kernel} {n : ℕ} (h : Restored (k.setCwd n) k') :
    k'.cur.cwdInodeNr = n := by
  rw [h.cur, k.setCwd_cwd]

theorem Kernel.setCwd_closeDir (k : Kernel) (n d : ℕ) :
    (k.setCwd n).closeDir d = (k.closeDir d).setCwd n := by
  unfold Kernel.closeDir
  by_cases hroot : d = rootDir
  · rw [if_pos hroot, if_pos hroot]
  · rw [if_neg hroot, if_neg hroot]
    unfold Kernel.closeInode
    by_cases hzero : (k.inodes (k.dirs d).inode).dropOpenCnt.iOpenCnts = 0
    · have hzero' : ((k.setCwd n).inodes ((k.setCwd n).dirs d).inode).dropOpenCnt.iOpenCnts = 0 :=
        hzero
      rw [if_pos hzero, if_pos hzero']
      rfl
    · have hzero' : ¬ ((k.setCwd n).inodes ((k.setCwd n).dirs d).inode).dropOpenCnt.iOpenCnts = 0 :=
        hzero
      rw [if_neg hzero, if_neg hzero']
      rfl

theorem Kernel.CacheOk.setCwd {k : Kernel} (hk : k.CacheOk) (n : ℕ) : (k.setCwd n).CacheOk :=
  ⟨hk.counts, hk.fresh, hk.files, hk.freshDir, hk.root, hk.entrySize, hk.inodeTable⟩

theorem Holding.setCwd {t : Transfer} {k₀ k : Kernel} {m d : ℕ} (h : Holding t k₀ m d k) (n : ℕ) :
    Holding t (k₀.setCwd n) m d (k.setCwd n) where
  closes := by
    rw [k.setCwd_closeDir]
    exact h.closes.setCwd n
  live := h.live
  bound := h.bound
  node := h.node
  inode := h.inode
  mem := h.mem
  looks :=
    { tree := ⟨h.looks.tree.disk, h.looks.tree.part, h.looks.tree.inodeOf⟩
      cache := h.looks.cache.setCwd n
      files := h.looks.files
      inodes := h.looks.inodes
      nodes := h.looks.nodes }

/-- The working directory is not part of the tree. -/
theorem ConsistentTree.setCwd {t : Transfer} {k : Kernel} (hk : ConsistentTree t k) (n : ℕ) :
    ConsistentTree t (k.setCwd n) :=
  hk.of_sameTree ⟨rfl, rfl, fun _ => .refl _⟩ (hk.cache.setCwd n)

/-- `sys_chdir` changes to the directory that the path stands for, or fails and changes
nothing. -/
theorem ensures_sysChdir {t : Transfer} {e : Env} (he : FairEnv e) {k₀ k : Kernel}
    (hk : ConsistentTree t k₀) (hback : Restored k₀ k) {path : CString} (hpath : LookupPath path.val)
    (hnames : e.stops ∨ ShortNames path.val) {Q : ℤ → Kernel → Prop}
    (hdir : ∀ n k', (k₀.findPath t path.val).iNo = some n →
      (k₀.findPath t path.val).fileType = .directory → Restored (k₀.setCwd n) k' → Q 0 k')
    (hnone : ∀ k', (k₀.findPath t path.val).iNo = none ∨
      (k₀.findPath t path.val).fileType ≠ .directory ∨ e.stops → Restored k₀ k' → Q (-1) k') :
    (sysChdir t path).ensures e Q k := by
  rw [sysChdir, ensures_bind]
  refine ensures_searchFile he hk hback hpath (hnames.imp_right fun h => h.fits) ?_ ?_
  · rintro ⟨iNo, record⟩ k₁ ⟨hiNo, htype, -, hhold, -⟩
    dsimp only at hiNo htype hhold ⊢
    cases iNo with
    | none =>
        simp only [ensures_bind, ensures_pure]
        exact ensures_dirClose hhold fun k₂ h₂ => hnone k₂ (Or.inl hiNo.symm) h₂
    | some n =>
        by_cases htdir : record.fileType = .directory
        · simp only [if_pos htdir, ensures_bind, ensures_modify, ensures_pure]
          exact ensures_dirClose (hhold.setCwd n) fun k₂ h₂ =>
            hdir n k₂ hiNo.symm (htype.symm.trans htdir) h₂
        · simp only [if_neg htdir, ensures_bind, ensures_pure]
          refine ensures_dirClose hhold fun k₂ h₂ => hnone k₂ (Or.inr (Or.inl ?_)) h₂
          rwa [← htype]
  · rintro hstops ⟨iNo, record⟩ k₁ ⟨hiNo, -, m, -, hhold⟩
    dsimp only at hiNo hhold ⊢
    subst hiNo
    simp only [ensures_bind, ensures_pure]
    exact ensures_dirClose hhold fun k₂ h₂ => hnone k₂ (Or.inr (Or.inr hstops)) h₂

/-! ## There and back -/

/-- A canonical absolute path: a list of names, none of them empty, `.` or `..`. -/
def CanonicalPath (path : List UInt8) : Prop :=
  ∃ ws, (∀ w ∈ ws, IsWord slash w ∧ w ≠ dotName ∧ w ≠ dotDotName) ∧ path = pathOf ws

theorem head_join {ws : List (List UInt8)} (hws : ws ≠ []) :
    (join slash ws).head? = some slash := by
  cases ws with
  | nil => exact absurd rfl hws
  | cons w ws => rfl

/-- Only the names `.` and `..` make a path special. -/
theorem not_isRootPath {ws : List (List UInt8)} (hws : ws ≠ [])
    (hnames : ∀ w ∈ ws, IsWord slash w ∧ w ≠ dotName ∧ w ≠ dotDotName) :
    isRootPath (join slash ws) = false := by
  have hwords : words slash (join slash ws) = ws := words_join fun w hw => (hnames w hw).1
  have hother : ∀ w, w = [] ∨ w = dotName ∨ w = dotDotName → join slash ws ≠ slash :: w := by
    rintro w hw heq
    rw [heq, words_sep_cons] at hwords
    rcases hw with rfl | rfl | rfl
    · exact hws (hwords.symm.trans words_nil)
    · have hone : words slash dotName = [dotName] := words_of_isWord (by decide)
      rw [hone] at hwords
      exact (hnames dotName (by rw [← hwords]; exact List.mem_cons_self)).2.1 rfl
    · have hone : words slash dotDotName = [dotDotName] := words_of_isWord (by decide)
      rw [hone] at hwords
      exact (hnames dotDotName (by rw [← hwords]; exact List.mem_cons_self)).2.2 rfl
  simp [isRootPath, hother [] (Or.inl rfl), hother dotName (Or.inr (Or.inl rfl)),
    hother dotDotName (Or.inr (Or.inr rfl))]

theorem CanonicalPath.lookupPath {ws : List (List UInt8)} (hlen : (pathOf ws).length < maxPathLen)
    (hnames : ∀ w ∈ ws, IsWord slash w ∧ w ≠ dotName ∧ w ≠ dotDotName) : LookupPath (pathOf ws) := by
  unfold pathOf at hlen ⊢
  by_cases hws : ws = []
  · rw [if_pos hws]
    exact ⟨rfl, by decide, Or.inr rfl⟩
  · rw [if_neg hws] at hlen ⊢
    refine ⟨head_join hws, hlen, Or.inl ?_⟩
    rwa [words_join fun w hw => (hnames w hw).1]

/-- A canonical path that stands for a directory is its path in the tree. -/
theorem at_of_findPath {t : Transfer} {k : Kernel} (hk : ConsistentTree t k)
    {ws : List (List UInt8)} (hnames : ∀ w ∈ ws, IsName w) {n : ℕ}
    (hfind : (k.findPath t (pathOf ws)).iNo = some n)
    (hdir : (k.findPath t (pathOf ws)).fileType = .directory) : hk.nameTree.at? ws = some n := by
  unfold Kernel.findPath pathOf at hfind hdir
  by_cases hws : ws = []
  · subst hws
    exact hfind
  · have hroot := not_isRootPath hws fun w hw =>
      ⟨(hnames w hw).isWord, (hnames w hw).dot, (hnames w hw).dotDot⟩
    rw [if_neg hws, hroot, if_neg (by decide), words_join fun w hw => (hnames w hw).isWord]
      at hfind hdir
    obtain ⟨m, hwalk, hiNo⟩ := hk.walk_of_find
      (fun w hw => ⟨(hnames w hw).isWord, (hnames w hw).zero⟩) (k.isDir_root t) hdir
    have hm := (hk.dir m ⟨ws, hwalk⟩).small
    rw [hfind, if_neg hws, asInt_of_lt hm] at hiNo
    cases hiNo
    exact walk_namedChild_of_subdir hnames hwalk

/-- After `sys_chdir` has succeeded the working directory is the one at the path. -/
theorem chdir_canonical {t : Transfer} {k k' : Kernel} (hk : ConsistentTree t k) {path : CString}
    {ws : List (List UInt8)} (hnames : ∀ w ∈ ws, IsName w) (hpath : path.val = pathOf ws)
    (hlen : path.val.length < maxPathLen) (hret : (sysChdir t path).Returns k 0 k') :
    ∃ n, hk.nameTree.at? ws = some n ∧ Restored (k.setCwd n) k' := by
  have hlookup : LookupPath path.val := by
    rw [hpath] at hlen ⊢
    exact CanonicalPath.lookupPath hlen fun w hw =>
      ⟨(hnames w hw).isWord, (hnames w hw).dot, (hnames w hw).dotDot⟩
  have hchdir := ensures_sysChdir (Q := fun r k' => r = 0 →
    ∃ n, hk.nameTree.at? ws = some n ∧ Restored (k.setCwd n) k') fairEnv_any hk (.refl k) hlookup
    (Or.inl trivial) (fun n k' hfind hdir hback _ => by
      rw [hpath] at hfind hdir
      exact ⟨n, at_of_findPath hk hnames hfind hdir, hback⟩)
    (fun k' _ _ h => absurd h (by decide))
  exact wp_iff_returns.mp (wp_of_ensures hchdir) 0 k' hret rfl

/-- `sys_getcwd` returns the path that `sys_chdir` was given: whenever it returns and its
first allocation, that of the buffer, succeeded, and in any case if no allocation fails. -/
theorem getcwd_of_chdir (t : Transfer) {k k' : Kernel} (hk : ConsistentTree t k) {path : CString}
    (hpath : CanonicalPath path.val) (hlen : path.val.length < maxPathLen) {size : ℕ}
    (hsize : path.val.length < size) (hret : (sysChdir t path).Returns k 0 k') :
    (∃ k'', (sysGetcwd t size).exec [] k' = some (some path.val, k'')) ∧
      ∀ answers r k'', (sysGetcwd t size).exec answers k' = some (r, k'') →
        r = if answers.headD 0 = 0 then some path.val else none := by
  obtain ⟨ws, hwords, heq⟩ := hpath
  have hjoin : (join slash ws).length ≤ path.val.length := by
    rw [heq, pathOf]
    split
    next hnil => simp [hnil]
    next => exact le_rfl
  have hnames : ∀ w ∈ ws, IsName w := by
    intro w hw
    obtain ⟨hword, hdot, hdotDot⟩ := hwords w hw
    refine ⟨hword, fun hzero => path.property ?_, hdot, hdotDot⟩
    rw [heq, pathOf, if_neg (List.ne_nil_of_mem hw)]
    exact List.mem_flatMap.mpr ⟨w, hw, List.mem_cons_of_mem slash hzero⟩
  obtain ⟨n, hat, hback⟩ := chdir_canonical hk hnames heq hlen hret
  have hcwd : ∀ e, FairEnv e → (cwdPath t size).ensures e (fun r _ => r = some path.val) k' := by
    intro e he
    have hat' : (hk.setCwd n).nameTree.at? ws = some (k.setCwd n).cur.cwdInodeNr := by
      rw [k.setCwd_cwd]
      exact hat
    exact ensures_cwdPath he (hk.setCwd n) hat' (hjoin.trans_lt hlen) (hjoin.trans hsize.le) hback
      fun k'' _ => by rw [heq]
  rw [sysGetcwd_eq]
  constructor
  · obtain ⟨r, k'', hexec, rfl⟩ := exec_of_ensures (hcwd .zero fairEnv_zero)
    exact ⟨k'', hexec⟩
  · intro answers r k'' hexec
    rw [exec_sysMalloc_bind] at hexec
    by_cases hzero : answers.headD 0 = 0
    · rw [decide_eq_true hzero] at hexec
      rw [if_pos hzero]
      have hwp := wp_of_ensures (hcwd .any fairEnv_any)
      exact wp_iff_returns.mp hwp r k'' (returns_of_exec hexec)
    · rw [decide_eq_false hzero] at hexec
      rw [if_neg hzero]
      cases hexec
      rfl

/-! ## A tree with one directory -/

/-- The small machine after `mkdir("/d")`. -/
def oneDir : Kernel := after (sysMkdir .repeated pathD) smallMachine.newFs

theorem oneDir_consistent : ConsistentTree .repeated oneDir :=
  .of_list (by decide +kernel) [0, 1] (by decide) (by decide +kernel) (by decide +kernel)
    (by decide +kernel) (by decide +kernel) (by decide +kernel)

theorem pathD_canonical : CanonicalPath pathD.val := ⟨[[100]], by decide, rfl⟩

theorem oneDir_chdir : (sysChdir .repeated pathD).Returns oneDir 0
    (after (sysChdir .repeated pathD) oneDir) :=
  returns_after (by decide +kernel)

theorem getcwd_of_chdir_oneDir :
    ConsistentTree .repeated oneDir ∧ CanonicalPath pathD.val ∧ pathD.val.length < maxPathLen ∧
      pathD.val.length < 512 ∧
      ∃ k', (sysChdir .repeated pathD).Returns oneDir 0 k' ∧
        (∃ k'', (sysGetcwd .repeated 512).exec [] k' = some (some pathD.val, k'')) ∧
        ∀ answers r k'', (sysGetcwd .repeated 512).exec answers k' = some (r, k'') →
          r = if answers.headD 0 = 0 then some pathD.val else none :=
  ⟨oneDir_consistent, pathD_canonical, by decide, by decide, _, oneDir_chdir,
    getcwd_of_chdir .repeated oneDir_consistent pathD_canonical (by decide) (by decide) oneDir_chdir⟩

/-- Without memory for the buffer `sys_getcwd` returns `NULL` after a `sys_chdir("/d")`. -/
theorem getcwd_without_memory :
    ∃ k', (sysChdir .repeated pathD).Returns oneDir 0 k' ∧ ConsistentTree .repeated oneDir ∧
      CanonicalPath pathD.val ∧ pathD.val.length < maxPathLen ∧ pathD.val.length < 512 ∧
      ¬ ∀ r k'', (sysGetcwd .repeated 512).Returns k' r k'' → r = some pathD.val := by
  refine ⟨_, oneDir_chdir, oneDir_consistent, pathD_canonical, by decide, by decide, ?_⟩
  intro hall
  have hnone : (sysGetcwd .repeated 512).exec [1] (after (sysChdir .repeated pathD) oneDir) =
      some (none, after (sysChdir .repeated pathD) oneDir) := rfl
  cases hall _ _ (returns_of_exec hnone)

end BochsOs
