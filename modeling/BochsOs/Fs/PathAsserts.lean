import BochsOs.Fs.PathCalls
import BochsOs.Library.Exacting

/-!
# Assertions on paths

`search_file` asserts what its callers do not check: that the path begins with a slash and is
neither empty nor too long.  `sys_unlink` and `sys_rmdir` assert in addition that it does not
lead to the root, and a run of slashes gives an arbitrary inode number to look up.
`completesPath_iff` says for each of the seven calls with a path which paths come through.

The calls are looked at up to the point where they are done with the path: `openWith`,
`mkdirWith`, `unlinkWith` and `rmdirWith` are the calls over what comes behind it.
-/

namespace BochsOs

open ByteMemory Suspend Suspend.Prog NameTrees Words

/-! ## The calls over what follows the path -/

/-- `sys_open` with `create` in the place of `file_create`. -/
def openWith (create : ℕ → List UInt8 → Prog Kernel ℤ) (t : Transfer) (pathname : CString)
    (flags : ℕ) : Prog Kernel ℤ := do
  let path := pathname.val
  let before ← arbitrary
  if path.getLastD (UInt8.ofNat before) = slash then return -1
  else
  assert (flags ≤ 7)
  let pathnameDepth ← pathDepthCnt path
  let (inodeNo, record) ← searchFile t pathname
  if record.fileType = .directory then
    dirClose record.parentDir
    return -1
  else
  let pathSearchedDepth ← pathDepthCnt record.searchedPath
  if pathnameDepth ≠ pathSearchedDepth then
    dirClose record.parentDir
    return -1
  else
  match inodeNo with
  | none =>
      if flags &&& oCreat = 0 then
        dirClose record.parentDir
        return -1
      else
        let fd ← create record.parentDir (afterLastSlash path)
        dirClose record.parentDir
        return fd
  | some inodeNo =>
      if flags &&& oCreat ≠ 0 then
        dirClose record.parentDir
        return -1
      else fileOpen t inodeNo flags

theorem sysOpen_eq (t : Transfer) (pathname : CString) (flags : ℕ) :
    sysOpen t pathname flags =
      openWith (fun parentDir filename => fileCreate t parentDir filename flags) t pathname flags := rfl

/-- `sys_mkdir` with `create` in the place of what follows the search. -/
def mkdirWith (create : ℕ → List UInt8 → Prog Kernel ℤ) (t : Transfer) (pathname : CString) :
    Prog Kernel ℤ := do
  let ok ← sysMalloc
  if !ok then return -1
  else
  let (inodeNo, record) ← searchFile t pathname
  match inodeNo with
  | some _ =>
      dirClose record.parentDir
      return -1
  | none =>
      let pathnameDepth ← pathDepthCnt pathname.val
      let pathSearchedDepth ← pathDepthCnt record.searchedPath
      if pathnameDepth ≠ pathSearchedDepth then
        dirClose record.parentDir
        return -1
      else if slash ∉ record.searchedPath then stop .undefined
      else create record.parentDir (afterLastSlash record.searchedPath)

theorem sysMkdir_eq (t : Transfer) (pathname : CString) :
    sysMkdir t pathname = mkdirWith (fun parentDir dirname => do
      match ← inodeBitmapAlloc with
      | none =>
          dirClose parentDir
          return -1
      | some inodeNo => mkdirIn t parentDir dirname inodeNo) t pathname := rfl

/-- `sys_unlink` with `remove` in the place of the removal of the file. -/
def unlinkWith (remove : ℕ → ℕ → Prog Kernel ℤ) (t : Transfer) (pathname : CString) :
    Prog Kernel ℤ := do
  assert (pathname.val.length < maxPathLen)
  let (inodeNo, record) ← searchFile t pathname
  assert (inodeNo ≠ some 0)
  match inodeNo with
  | none =>
      dirClose record.parentDir
      return -1
  | some inodeNo =>
      if record.fileType = .directory then
        dirClose record.parentDir
        return -1
      else
      let k ← read
      if k.isOpen inodeNo then
        dirClose record.parentDir
        return -1
      else
      let ok ← sysMalloc
      if !ok then
        dirClose record.parentDir
        return -1
      else remove record.parentDir inodeNo

theorem sysUnlink_eq (t : Transfer) (pathname : CString) :
    sysUnlink t pathname = unlinkWith (fun parentDir inodeNo => do
      let _ ← deleteDirEntry t parentDir inodeNo
      inodeRelease t inodeNo
      dirClose parentDir
      return 0) t pathname := rfl

/-- `sys_rmdir` with `remove` in the place of the removal of the directory. -/
def rmdirWith (remove : ℕ → ℕ → Prog Kernel ℤ) (t : Transfer) (pathname : CString) :
    Prog Kernel ℤ := do
  let (inodeNo, record) ← searchFile t pathname
  assert (inodeNo ≠ some 0)
  match inodeNo with
  | none =>
      dirClose record.parentDir
      return -1
  | some inodeNo =>
      if record.fileType = .regular then
        dirClose record.parentDir
        return -1
      else
        let dir ← dirOpen t inodeNo
        remove record.parentDir dir

theorem sysRmdir_eq (t : Transfer) (pathname : CString) :
    sysRmdir t pathname = rmdirWith (fun parentDir dir => do
      let retval ← if ← dirIsEmpty dir then do
          let ret ← dirRemove t parentDir dir
          pure (if ret = 0 then 0 else -1)
        else pure (-1)
      dirClose dir
      dirClose parentDir
      return retval) t pathname := rfl

/-! ## Which paths pass -/

/-- The calls with a path. -/
inductive PathEntry where
  | open (flags : ℕ) (known : flags ≤ 7)
  | stat
  | chdir
  | opendir
  | mkdir
  | unlink
  | rmdir

/-- The program returns when there is memory, and no assertion fails whether there is or not. -/
structure Completes (x : Prog Kernel α) (k : Kernel) : Prop where
  returns : x.ensures .zero (fun _ _ => True) k
  asserts : ∀ f, .undefined ≠ f → x.avoids f k

/-- `create_dir_entry`, which asserts that the name is not too long, in the place of the code
that creates a file or directory. -/
def checkName (_ : ℕ) (name : List UInt8) : Prog Kernel ℤ := do
  let _ ← createDirEntry name 0 .unknown
  return -1

/-- The call returns, and no assertion on the path fails, nor one on the inode number that it
leads to. -/
def PathEntry.CompletesPath (t : Transfer) (k : Kernel) (path : CString) : PathEntry → Prop
  | .open flags _ => Completes (openWith checkName t path flags) k
  | stat => Completes (sysStat t path) k
  | chdir => Completes (sysChdir t path) k
  | opendir => Completes (sysOpendir t path) k
  | mkdir => Completes (mkdirWith checkName t path) k
  | unlink => Completes (unlinkWith (fun _ _ => return -1) t path) k
  | rmdir => Completes (rmdirWith (fun _ _ => return -1) t path) k

/-- What `search_file` takes: `/`, `/.` and `/..`, and the other paths that begin with a slash,
have at least two and less than 512 characters, and lead through names that fit into their
buffer.  Behind a file one more name is read. -/
structure Searchable (t : Transfer) (k : Kernel) (path : List UInt8) : Prop where
  shape : isRootPath path = true ∨
    path.head? = some slash ∧ 1 < path.length ∧ path.length < maxPathLen
  fits : k.Fits t 0 (words slash path)

/-- The names of the path that `path_depth_cnt` can count. -/
def CountableNames (path : List UInt8) : Prop := ∀ w ∈ words slash path, w.length ≤ maxFileNameLen

/-- The paths that a call takes. -/
def PathEntry.Takes (t : Transfer) (k : Kernel) (path : List UInt8) : PathEntry → Prop
  | .open _ _ => path.getLast? = some slash ∨ Searchable t k path ∧ CountableNames path
  | stat => Searchable t k path ∧ ¬ SlashRun path
  | chdir => Searchable t k path
  | opendir => Searchable t k path ∧ ¬ SlashRun path
  | mkdir => Searchable t k path ∧
      (k.denotes t path = none → k.passes t path = none → CountableNames path)
  | unlink => Searchable t k path ∧ ∀ ty, k.denotes t path ≠ some (0, ty)
  | rmdir => Searchable t k path ∧ ∀ ty, k.denotes t path ≠ some (0, ty)

/-! ## Programs that insist on memory -/

theorem sysMallocUnchecked_exacting : Exacting .undefined sysMallocUnchecked := by
  refine ⟨fun n hn => ?_, ?_⟩
  · change Prog.bind (Prog.ret (decide (n = 0))) _ = _
    rw [decide_eq_false hn]
    rfl
  · exact Exacting.pure _

theorem ideReadSector_exacting (lba : ℕ) (buf : Bytes) (off : ℕ) :
    Exacting .undefined (ideReadSector lba buf off) :=
  (Exacting.assert _).bind fun _ => Exacting.block.bind fun _ => Exacting.read.bind fun _ =>
    Exacting.block.bind fun _ => .pure _

theorem ideRead_exacting (t : Transfer) (lba : ℕ) (buf : Bytes) (secCnt : ℕ) :
    Exacting .undefined (ideRead t lba buf secCnt) := by
  have hloop : ∀ left i buf, Exacting .undefined (ideReadLoop t lba left i buf) := by
    intro left
    induction left with
    | zero => exact fun _ _ => .pure _
    | succ left ih => exact fun _ _ => (ideReadSector_exacting _ _ _).bind fun _ => ih _ _
  exact hloop _ _ _

theorem inodeLocate_exacting (inodeNo : ℕ) : Exacting .undefined (inodeLocate inodeNo) :=
  (Exacting.assert _).bind fun _ => Exacting.read.bind fun _ => .pure _

theorem inodeOpen_exacting (t : Transfer) (inodeNo : ℕ) : Exacting .undefined (inodeOpen t inodeNo) := by
  refine Exacting.read.bind fun k => ?_
  split
  · exact (Exacting.write _).bind fun _ => .pure _
  · exact (inodeLocate_exacting _).bind fun _ => sysMallocUnchecked_exacting.bind fun _ =>
      Exacting.read.bind fun _ => (Exacting.write _).bind fun _ => sysMallocUnchecked_exacting.bind
        fun _ => (ideRead_exacting _ _ _ _).bind fun _ => (Exacting.modify _).bind fun _ => .pure _

theorem dirOpen_exacting (t : Transfer) (inodeNo : ℕ) : Exacting .undefined (dirOpen t inodeNo) :=
  sysMallocUnchecked_exacting.bind fun _ => (inodeOpen_exacting _ _).bind fun _ =>
    Exacting.read.bind fun _ => (Exacting.write _).bind fun _ => .pure _

theorem inodeClose_exacting (a : ℕ) : Exacting .undefined (inodeClose a) := by
  refine Exacting.read.bind fun k => ?_
  dsimp only
  split
  · exact .write _
  · exact .write _

theorem dirClose_exacting (dir : ℕ) : Exacting .undefined (dirClose dir) := by
  unfold dirClose
  split
  · exact .pure _
  · refine Exacting.read.bind fun k => ?_
    split
    · exact (inodeClose_exacting _).bind fun _ => .modify _
    · exact .stop _

theorem readIndirect_exacting (t : Transfer) (iSectors : ℕ → ℕ) :
    Exacting .undefined (readIndirect t iSectors) := by
  unfold readIndirect
  split
  · exact ideRead_exacting _ _ _ _
  · exact .pure _

theorem searchBlocks_exacting (t : Transfer) (allBlocks : ℕ → ℕ) (name : List UInt8) (left blkI : ℕ) :
    Exacting .undefined (searchBlocks t allBlocks name left blkI) := by
  induction left generalizing blkI with
  | zero => exact .pure _
  | succ left ih =>
      unfold searchBlocks
      split
      · exact ih _
      · refine (ideRead_exacting _ _ _ _).bind fun _ => Exacting.read.bind fun _ => ?_
        split
        · exact .pure _
        · exact ih _

/-! ## Looking up a path -/

section Lookup

variable {t : Transfer} {k₀ : Kernel} {f : Fault} (hf : .undefined ≠ f)

theorem avoids_assert {c : Bool} (hc : c = true) {k : Kernel} : (assert c : Prog Kernel Unit).avoids f k := by
  rw [hc]
  trivial

include hf

theorem avoids_searchDirEntry {n d : ℕ} {k : Kernel} (hn : k₀.DirOk t n) (h : Holding t k₀ n d k)
    (name : List UInt8) : (searchDirEntry t d name).avoids f k := by
  have hens : (searchDirEntry t d name).ensures .zero (fun _ _ => True) k :=
    ensures_searchDirEntry fairEnv_zero hn h trivial fun _ => trivial
  rw [searchDirEntry, ensures_bind] at hens
  rw [searchDirEntry, avoids_bind]
  refine ⟨fun _ => trivial, wp_sysMalloc.mpr fun ok => ?_⟩
  cases ok with
  | false => trivial
  | true =>
      refine Exacting.avoids (Q := fun _ _ => True) ?_ ?_ hf
      · exact Exacting.read.bind fun _ => (readIndirect_exacting _ _).bind fun _ =>
          sysMallocUnchecked_exacting.bind fun _ => searchBlocks_exacting _ _ _ _ _
      · exact hens 0 rfl

omit hf in
/-- What is found is in the directory. -/
theorem wp_searchDirEntry {n d : ℕ} {k : Kernel} (hn : k₀.DirOk t n) (h : Holding t k₀ n d k)
    (name : List UInt8) : (searchDirEntry t d name).wp
      (fun r k' => k' = k ∧ ∀ o ∈ r, k₀.lookup t n name = some o) k := by
  refine wp_of_ensures (ensures_searchDirEntry fairEnv_any hn h ⟨rfl, fun o ho => ?_⟩ fun _ => ⟨rfl, ?_⟩)
  · exact ho
  · exact fun o ho => by cases ho

/-- Close a handle and go on. -/
theorem avoids_dirClose_bind {n d : ℕ} {k : Kernel} (h : Holding t k₀ n d k)
    {g : Unit → Prog Kernel α} (hg : ∀ k', Restored k₀ k' → (g ()).avoids f k') :
    (dirClose d >>= g).avoids f k :=
  (dirClose_exacting d).avoids_bind (ensures_dirClose h (Q := fun _ k' => Restored k₀ k')
    fun _ hback => hback) hf fun _ k' hback => hg k' hback

/-- Open a directory and go on. -/
theorem avoids_dirOpen_bind {n : ℕ} {k : Kernel} (hk : k₀.CacheOk) (hn : k₀.DirOk t n)
    (hback : Restored k₀ k) {g : ℕ → Prog Kernel α}
    (hg : ∀ d k', Holding t k₀ n d k' → (g d).avoids f k') : (dirOpen t n >>= g).avoids f k :=
  (dirOpen_exacting t n).avoids_bind (ensures_dirOpen fairEnv_zero hk hn hback
    (Q := fun d k' => Holding t k₀ n d k') fun _ _ _ hd => hd) hf hg

/-- The next name is too long, or it is read. -/
theorem avoids_nextNameBy_bind (subPath : Option (List UInt8))
    {g : List UInt8 × Option (List UInt8) → Prog Kernel α} {k : Kernel}
    (hg : (g (nextName subPath)).avoids f k) : (nextNameBy parseFits subPath >>= g).avoids f k := by
  rw [nextNameBy_parseFits]
  by_cases hlong : maxFileNameLen < (nextName subPath).1.length
  · rw [if_pos hlong]
    exact hf
  · rw [if_neg hlong]
    exact hg

theorem avoids_searchLoop (hk : ConsistentTree t k₀) {fuel : ℕ} {w : Walk} {n : ℕ}
    {searched : List (List UInt8)} {k : Kernel} (hw : w.Stands fuel searched) (hn : k₀.IsDir t n)
    (hp : k₀.IsDir t w.parentInodeNo) (h : Holding t k₀ n w.parentDir k) :
    (searchLoop t fuel w).avoids f k := by
  induction fuel generalizing w n searched k with
  | zero => exact absurd hw.fuel (Nat.not_lt_zero _)
  | succ fuel ih =>
      have hdir := hk.dir n hn
      unfold searchLoopBy
      by_cases hname : w.name = []
      · rw [if_pos hname]
        refine avoids_dirClose_bind hf h fun k₁ hback => ?_
        exact avoids_dirOpen_bind hf hk.cache (hk.dir _ hp) hback fun _ _ _ => trivial
      rw [if_neg hname]
      by_cases hshort : maxFileNameLen ≤ w.name.length
      · rw [if_pos hshort]
        exact hf
      rw [if_neg hshort, avoids_bind]
      refine ⟨avoids_assert (decide_eq_true hw.path), wp_assert.mpr fun _ => ?_⟩
      dsimp only
      rw [avoids_bind]
      refine ⟨avoids_searchDirEntry hf hdir h _, wp_mono (wp_searchDirEntry hdir h _) ?_⟩
      rintro r k' ⟨rfl, hr⟩
      rcases r with _ | ⟨m, ty⟩
      · trivial
      · have hlookup := hr (m, ty) rfl
        dsimp only
        refine avoids_nextNameBy_bind hf _ ?_
        cases ty with
        | regular => trivial
        | directory =>
            have hm := hn.step hlookup
            change (dirClose w.parentDir >>= _).avoids f k'
            refine avoids_dirClose_bind hf h fun k₁ hback => ?_
            refine avoids_dirOpen_bind hf hk.cache (hk.dir m hm) hback fun d k₂ hd => ?_
            have hparent : k₀.IsDir t (k'.dirInode w.parentDir).iNo := by
              rw [h.inode.iNo, hdir.iNo]
              exact hn
            exact ih (hw.next hname rfl rfl) hm hparent hd
        | unknown => exact ih (hw.next hname rfl rfl) hn hp h
        | other code => exact ih (hw.next hname rfl rfl) hn hp h

/-- `search_file` asserts nothing of the paths that it takes. -/
theorem avoids_searchFile (hk : ConsistentTree t k₀) {path : CString}
    (hpath : Searchable t k₀ path.val) : (searchFile t path).avoids f k₀ := by
  have hroot := Holding.root (t := t) hk.cache (.refl k₀)
  rw [searchFile, searchFileBy]
  dsimp only
  by_cases hspecial : isRootPath path.val = true
  · rw [if_pos hspecial]
    trivial
  obtain ⟨habs, hlong, hlen⟩ := hpath.shape.resolve_left hspecial
  rw [if_neg hspecial, avoids_bind]
  refine ⟨avoids_assert (decide_eq_true ⟨habs, hlong, hlen⟩), wp_assert.mpr fun _ => ?_⟩
  rw [avoids_bind]
  refine ⟨fun _ => trivial, wp_arbitrary.mpr fun i => ?_⟩
  refine avoids_nextNameBy_bind hf (some path.val) ?_
  exact avoids_searchLoop hf hk (stands_start habs hlen rfl rfl) (k₀.isDir_root t)
    (k₀.isDir_root t) hroot

end Lookup

theorem Searchable.absolute {t : Transfer} {k : Kernel} {path : List UInt8}
    (h : Searchable t k path) : path.head? = some slash ∧ path.length < maxPathLen := by
  rcases h.shape with hroot | ⟨habs, -, hlen⟩
  · simp only [isRootPath, Bool.or_eq_true, decide_eq_true_eq] at hroot
    rcases hroot with (rfl | rfl) | rfl
    · decide
    · decide
    · decide
  · exact ⟨habs, hlen⟩

theorem Searchable.of_root {t : Transfer} {k : Kernel} {path : List UInt8}
    (hroot : isRootPath path = true) : Searchable t k path := by
  have hshort : ShortNames path := by
    simp only [isRootPath, Bool.or_eq_true, decide_eq_true_eq] at hroot
    rcases hroot with (rfl | rfl) | rfl
    · decide
    · decide
    · decide
  exact ⟨Or.inl hroot, hshort.fits⟩

/-- What `search_file` returns, runs of slashes included. -/
inductive Led (t : Transfer) (e : Env) (k₀ : Kernel) (path : List UInt8) :
    Option ℕ × PathSearchRecord → Kernel → Prop
  | searched {r : Option ℕ × PathSearchRecord} {k : Kernel} (hrun : ¬ SlashRun path)
      (h : Searched t e k₀ path r k) : Led t e k₀ path r k
  | slashRun {n d : ℕ} {k : Kernel} (hrun : SlashRun path) (hn : e.answer n)
      (hhold : Holding t k₀ 0 d k) : Led t e k₀ path (asInt (n % 2 ^ 32), ⟨[], d, .directory⟩) k

section Led

variable {t : Transfer} {k : Kernel} (hk : ConsistentTree t k) {path : CString}

include hk

theorem ensures_led {e : Env} (he : FairEnv e) (habs : path.val.head? = some slash)
    (hlen : path.val.length < maxPathLen)
    (hfits : e.stops ∨ k.Fits t 0 (words slash path.val)) :
    (searchFile t path).ensures e (Led t e k path.val) k := by
  by_cases hrun : SlashRun path.val
  · have hroot := hrun.not_isRootPath
    have hlong := hrun.length habs
    have hname : (pathParse path.val).1 = [] := by
      have hparse := namesOf_pathParse path.val
      rw [hrun.1] at hparse
      unfold namesOf at hparse
      by_contra hname
      rw [if_neg hname] at hparse
      cases hparse
    rw [searchFile, searchFileBy]
    dsimp only
    rw [if_neg hroot, ensures_bind, ensures_assert (decide_eq_true ⟨habs, hlong, hlen⟩), ensures_bind,
      parseFits_of_le (by simp [hname])]
    refine fun i hi => ?_
    change (searchLoop t (path.val.length + 1) _).ensures e _ k
    rw [searchLoop, searchLoopBy, if_pos hname]
    simp only [ensures_bind]
    refine ensures_dirClose (Holding.root (t := t) hk.cache (.refl k)) fun k₁ hback => ?_
    refine ensures_dirOpen he hk.cache (hk.dir 0 (k.isDir_root t)) hback fun d k₂ _ hd => ?_
    exact .slashRun hrun hi hd
  · exact ensures_mono (ensures_searched he hk (lookupPath_of_not_slashRun habs hlen hrun) hfits)
      fun r k' h => .searched hrun h

end Led

theorem Searched.any {t : Transfer} {k : Kernel} {path : List UInt8}
    {r : Option ℕ × PathSearchRecord} {k' : Kernel} (h : Searched t .zero k path r k') :
    Searched t .any k path r k' := by
  cases h with
  | directory hdenotes hpasses hm hp htype hhold => exact .directory hdenotes hpasses hm hp htype hhold
  | file hdenotes hpasses hm hpos htype hpath hroot hhold =>
      exact .file hdenotes hpasses hm hpos htype hpath hroot hhold
  | through hdenotes hpasses hm hpos htype hpath hne hshort hbegin hhold =>
      exact .through hdenotes hpasses hm hpos htype hpath hne hshort hbegin hhold
  | nothing _ _ htype hhold => exact .nothing (Or.inr trivial) (Or.inl trivial) htype hhold

theorem Searched.holding {t : Transfer} {e : Env} {k : Kernel} {path : List UInt8}
    {r : Option ℕ × PathSearchRecord} {k' : Kernel} (h : Searched t e k path r k') :
    ∃ p, Holding t k p r.2.parentDir k' := by
  cases h with
  | directory _ _ _ _ _ hhold => exact ⟨_, hhold⟩
  | file _ _ _ _ _ _ _ hhold => exact ⟨_, hhold⟩
  | through _ _ _ _ _ _ _ _ _ hhold => exact ⟨_, hhold⟩
  | nothing _ _ _ hhold => exact ⟨_, hhold⟩

theorem Led.any {t : Transfer} {k : Kernel} {path : List UInt8}
    {r : Option ℕ × PathSearchRecord} {k' : Kernel} (h : Led t .zero k path r k') :
    Led t .any k path r k' := by
  cases h with
  | searched hrun h => exact .searched hrun h.any
  | slashRun hrun _ hhold => exact .slashRun hrun trivial hhold

theorem Led.holding {t : Transfer} {e : Env} {k : Kernel} {path : List UInt8}
    {r : Option ℕ × PathSearchRecord} {k' : Kernel} (h : Led t e k path r k') :
    ∃ p, Holding t k p r.2.parentDir k' := by
  cases h with
  | searched _ h => exact h.holding
  | slashRun _ _ hhold => exact ⟨0, hhold⟩

/-- Unless the path is a run of slashes, a number that `search_file` returns names a file or
directory, and that of the root only if the path denotes the root. -/
theorem Searched.names {t : Transfer} {e : Env} {k : Kernel} (hk : ConsistentTree t k)
    {path : List UInt8} {n : ℕ} {record : PathSearchRecord} {k' : Kernel}
    (h : Searched t e k path (some n, record) k') : k.Names t n ∧
      (n = 0 → ∃ ty, k.denotes t path = some (0, ty)) ∧
      (record.fileType ≠ .regular → k.IsDir t n) := by
  cases h with
  | directory hdenotes _ hm _ _ _ =>
      refine ⟨(hk.dir n hm).names, fun hzero => ⟨.directory, ?_⟩, fun _ => hm⟩
      rw [hdenotes, hzero]
  | file _ _ hm hpos htype => exact ⟨hm, fun hzero => absurd hzero hpos, fun hne => absurd htype hne⟩
  | through _ _ hm hpos htype =>
      exact ⟨hm, fun hzero => absurd hzero hpos, fun hne => absurd htype hne⟩

/-! ## Counting names -/

section Depth

variable {k : Kernel}

theorem depthLoop_avoids {f : Fault} (hf : .undefined ≠ f) (fuel : ℕ) (subPath : Option (List UInt8))
    (depth : ℕ) : Never f (depthLoop fuel subPath depth : Prog Kernel ℕ) := by
  induction fuel generalizing subPath depth with
  | zero => exact .pure _
  | succ fuel ih =>
      unfold depthLoop
      dsimp only
      split
      · exact .stop hf
      · split
        · exact .pure _
        · exact ih _ _

theorem pathDepthCnt_avoids {f : Fault} (hf : .undefined ≠ f) (path : List UInt8) :
    Never f (pathDepthCnt path) := by
  unfold pathDepthCnt
  dsimp only
  split
  · exact .stop hf
  · split
    · refine .bind .arbitrary fun byte => ?_
      split
      · exact .pure _
      · exact depthLoop_avoids hf _ _ _
    · exact depthLoop_avoids hf _ _ _

/-- The loop returns only if it could count every name. -/
theorem wp_depthLoop {fuel depth : ℕ} {subPath : Option (List UInt8)}
    (hfuel : (words slash (subPath.getD [])).length ≤ fuel) :
    (depthLoop fuel subPath depth).wp (fun _ k' => k' = k ∧
      ∀ w ∈ words slash (subPath.getD []), w.length ≤ maxFileNameLen) k := by
  induction fuel generalizing subPath depth with
  | zero =>
      refine ⟨rfl, fun w hw => ?_⟩
      rw [List.eq_nil_of_length_eq_zero (Nat.le_zero.mp hfuel)] at hw
      cases hw
  | succ fuel ih =>
      have hrest := namesOf_nextName subPath
      unfold namesOf at hrest
      rw [← hrest] at hfuel ⊢
      rw [depthLoop]
      dsimp only
      split
      · trivial
      next hshort =>
        by_cases hname : (nextName subPath).1 = []
        · rw [if_pos hname, if_pos hname]
          exact ⟨rfl, fun w hw => by cases hw⟩
        · rw [if_neg hname] at hfuel ⊢
          rw [if_neg hname]
          refine wp_mono (ih (Nat.le_of_succ_le_succ hfuel)) ?_
          rintro _ k' ⟨rfl, hall⟩
          refine ⟨rfl, fun w hw => ?_⟩
          rcases List.mem_cons.mp hw with rfl | hw
          · omega
          · exact hall w hw

/-- The names after the first are fewer than the characters. -/
theorem length_words_le (path : List UInt8) : (words slash path).length ≤ path.length + 1 := by
  have hjoin : (words slash path).length ≤ (join slash (words slash path)).length :=
    length_le_length_join _
  have hpath : (join slash (words slash path)).length ≤ path.length + 1 :=
    length_join_words_le path
  omega

/-- `path_depth_cnt` returns only if it could count every name. -/
theorem wp_pathDepthCnt (path : List UInt8) :
    (pathDepthCnt path).wp (fun _ k' => k' = k ∧ CountableNames path) k := by
  have hfuel := length_words_le path
  have hparse := namesOf_pathParse path
  unfold namesOf at hparse
  unfold CountableNames
  rw [← hparse] at hfuel ⊢
  rw [pathDepthCnt]
  dsimp only
  split
  · trivial
  next hshort =>
    by_cases hname : (pathParse path).1 = []
    · have hnone : ∀ w ∈ ([] : List (List UInt8)), w.length ≤ maxFileNameLen := fun w hw => by cases hw
      rw [if_pos hname] at hparse
      rw [if_pos hname, if_pos hname, wp_bind, wp_arbitrary]
      intro byte
      split
      · exact ⟨rfl, hnone⟩
      · exact wp_mono ((depthLoop_same _ _ _).wp_eq) fun _ k' hk' => ⟨hk', hnone⟩
    · rw [if_neg hname] at hfuel ⊢
      rw [if_neg hname]
      refine wp_mono (wp_depthLoop (Nat.le_of_succ_le_succ hfuel)) ?_
      rintro _ k' ⟨rfl, hall⟩
      refine ⟨rfl, fun w hw => ?_⟩
      rcases List.mem_cons.mp hw with rfl | hw
      · omega
      · exact hall w hw

/-- With a byte 0 in the buffer `path_depth_cnt` counts the names of every path. -/
theorem ensures_pathDepthCnt_zero {path : List UInt8} (hpath : CountableNames path)
    {Q : ℕ → Kernel → Prop} (hQ : Q (words slash path).length k) :
    (pathDepthCnt path).ensures .zero Q k := by
  by_cases hnil : words slash path = []
  · have hparse := namesOf_pathParse path
    rw [hnil] at hparse hQ
    unfold namesOf at hparse
    have hname : (pathParse path).1 = [] := by
      by_contra hname
      rw [if_neg hname] at hparse
      cases hparse
    rw [pathDepthCnt]
    dsimp only
    rw [if_neg (by rw [hname]; exact Nat.not_lt_zero _), if_pos hname, ensures_bind]
    intro byte hbyte
    cases hbyte
    exact hQ
  · exact (ensures_pathDepthCnt hnil (length_words_le path) hpath).mpr hQ

end Depth

/-- What follows the last slash is a name of the path, or nothing. -/
theorem afterLastSlash_cases (path : List UInt8) :
    afterLastSlash path = [] ∨ afterLastSlash path ∈ words slash path := by
  have hword {w : List UInt8} (hw : slash ∉ w) : w = [] ∨ w ∈ words slash w := by
    refine or_iff_not_imp_left.mpr fun hne => ?_
    rw [words_of_isWord ⟨hne, hw⟩]
    exact List.mem_singleton_self w
  by_cases hmem : slash ∈ path
  · obtain ⟨a, w, hsplit, hw⟩ : ∃ a w, path = a ++ slash :: w ∧ slash ∉ w := by
      obtain ⟨a, w, hrev, ha⟩ := List.eq_append_cons_of_mem (List.mem_reverse.mpr hmem)
      refine ⟨w.reverse, a.reverse, ?_, fun h => ha (List.mem_reverse.mp h)⟩
      rw [← List.reverse_reverse path, hrev]
      simp
    rw [hsplit, afterLastSlash_append hw, words_append_sep]
    exact (hword hw).imp_right (List.mem_append_right _)
  · have hall : ∀ c ∈ path.reverse, decide (c ≠ slash) = true := by
      intro c hc
      refine decide_eq_true fun h => hmem ?_
      rw [← h]
      exact List.mem_reverse.mp hc
    have hself : afterLastSlash path = path := by
      rw [afterLastSlash, List.takeWhile_eq_self_iff.mpr hall, List.reverse_reverse]
    rw [hself]
    exact hword hmem

theorem CountableNames.afterLastSlash {path : List UInt8} (h : CountableNames path) :
    (afterLastSlash path).length ≤ maxFileNameLen := by
  rcases afterLastSlash_cases path with hnil | hmem
  · rw [hnil]
    exact Nat.zero_le _
  · exact h _ hmem

/-- The names walked are names of the path. -/
theorem CountableNames.of_prefix {path : CString} (h : CountableNames path.val)
    {ws : List (List UInt8)} (hbegin : ws <+: words slash path.val) :
    CountableNames (join slash ws) := by
  intro w hw
  rw [words_join fun w hw => (areNames_words path w (hbegin.subset hw)).1] at hw
  exact h w (hbegin.subset hw)

/-! ## The calls pass -/

theorem completes_of_exacting {x : Prog Kernel α} {k : Kernel} (hx : Exacting .undefined x)
    (h : x.ensures .zero (fun _ _ => True) k) : Completes x k := ⟨h, fun _ hf => hx.avoids h hf⟩

section Passing

variable {t : Transfer} {k : Kernel} {path : CString}

theorem completes_close {p d : ℕ} {k' : Kernel} (h : Holding t k p d k') (a : α) :
    Completes (do dirClose d; return a) k' := by
  refine completes_of_exacting ((dirClose_exacting d).bind fun _ => .pure a) ?_
  rw [ensures_bind]
  exact ensures_dirClose h fun _ _ => trivial

variable (hk : ConsistentTree t k)

include hk

/-- Look up the path and go on. -/
theorem completes_searchFile_bind (hpath : Searchable t k path.val)
    {g : Option ℕ × PathSearchRecord → Prog Kernel α}
    (hzero : ∀ r k', Led t .zero k path.val r k' → (g r).ensures .zero (fun _ _ => True) k')
    (hany : ∀ r k', Led t .any k path.val r k' → ∀ f, .undefined ≠ f → (g r).avoids f k') :
    Completes (searchFile t path >>= g) k := by
  obtain ⟨habs, hlen⟩ := hpath.absolute
  constructor
  · rw [ensures_bind]
    exact ensures_mono (ensures_led hk fairEnv_zero habs hlen (Or.inr hpath.fits)) hzero
  · intro f hf
    refine avoids_bind.mpr ⟨avoids_searchFile hf hk hpath, wp_mono
      (wp_of_ensures (ensures_led hk fairEnv_any habs hlen (Or.inl trivial))) ?_⟩
    exact fun r k' hled => hany r k' hled f hf

/-- Where the path is no run of slashes. -/
theorem completes_searched_bind (hpath : Searchable t k path.val) (hrun : ¬ SlashRun path.val)
    {g : Option ℕ × PathSearchRecord → Prog Kernel α}
    (hg : ∀ r k', Searched t .any k path.val r k' → Completes (g r) k') :
    Completes (searchFile t path >>= g) k := by
  refine completes_searchFile_bind hk hpath (fun r k' hled => ?_) fun r k' hled => ?_
  · cases hled with
    | searched _ h => exact (hg r k' h.any).returns
    | slashRun hslash => exact absurd hslash hrun
  · cases hled with
    | searched _ h => exact (hg r k' h).asserts
    | slashRun hslash => exact absurd hslash hrun

theorem completes_sysStat (hpath : Searchable t k path.val) (hrun : ¬ SlashRun path.val) :
    Completes (sysStat t path) k := by
  unfold sysStat
  by_cases hroot : isRootPath path.val = true
  · rw [if_pos hroot]
    exact ⟨trivial, fun _ _ => trivial⟩
  rw [if_neg hroot]
  refine completes_searched_bind hk hpath hrun ?_
  rintro ⟨_ | n, record⟩ k₁ h
  · obtain ⟨p, hhold⟩ := h.holding
    exact completes_close hhold none
  · obtain ⟨p, hhold⟩ := h.holding
    have hnames := (h.names hk).1.looks hhold.looks
    dsimp only at hhold ⊢
    refine completes_of_exacting ?_ ?_
    · exact (inodeOpen_exacting t n).bind fun a => Exacting.read.bind fun _ =>
        (inodeClose_exacting a).bind fun _ => (dirClose_exacting _).bind fun _ => .pure _
    · simp only [ensures_bind]
      refine ensures_inodeOpen fairEnv_zero hhold.looks.cache hnames.small hnames.iNo (.refl k₁)
        fun a k₂ hopened => ?_
      simp only [ensures_read, ensures_inodeClose, ensures_pure]
      exact ensures_dirClose (hhold.restored hopened.closes) fun _ _ => trivial

theorem completes_sysChdir (hpath : Searchable t k path.val) : Completes (sysChdir t path) k := by
  have htail : ∀ r k', Led t .any k path.val r k' → Completes (do
      let ret ← match r.1 with
        | none => pure (-1)
        | some inodeNo =>
            if r.2.fileType = .directory then do
              modify fun k => k.setTask k.running { k.cur with cwdInodeNr := inodeNo }
              pure 0
            else pure (-1)
      dirClose r.2.parentDir
      return ret : Prog Kernel ℤ) k' := by
    rintro ⟨_ | n, record⟩ k₁ hled
    · obtain ⟨p, hhold⟩ := hled.holding
      exact completes_close hhold (-1)
    · obtain ⟨p, hhold⟩ := hled.holding
      dsimp only at hhold ⊢
      by_cases hdir : record.fileType = .directory
      · rw [if_pos hdir]
        have hclose := completes_close (hhold.setCwd n) (0 : ℤ)
        exact ⟨hclose.returns, hclose.asserts⟩
      · rw [if_neg hdir]
        exact completes_close hhold (-1)
  exact completes_searchFile_bind hk hpath (fun r k' hled => (htail r k' hled.any).returns)
    fun r k' hled => (htail r k' hled).asserts

theorem completes_sysOpendir (hpath : Searchable t k path.val) (hrun : ¬ SlashRun path.val) :
    Completes (sysOpendir t path) k := by
  have hlen := hpath.absolute.2
  have htail : Completes (if path.val = [slash] then return some rootDir else do
      let (inodeNo, record) ← searchFile t path
      let ret ← match inodeNo with
        | none => pure none
        | some inodeNo =>
            if record.fileType = .directory then do
              let dir ← dirOpen t inodeNo
              pure (some dir)
            else pure none
      dirClose record.parentDir
      return ret : Prog Kernel (Option ℕ)) k := by
    by_cases hslash : path.val = [slash]
    · rw [if_pos hslash]
      exact ⟨trivial, fun _ _ => trivial⟩
    rw [if_neg hslash]
    refine completes_searched_bind hk hpath hrun ?_
    rintro ⟨_ | n, record⟩ k₁ h
    · obtain ⟨p, hhold⟩ := h.holding
      exact completes_close hhold none
    · obtain ⟨p, hhold⟩ := h.holding
      have hnames := h.names hk
      dsimp only at hhold ⊢
      by_cases hdir : record.fileType = .directory
      · have hn := hk.dir n (hnames.2.2 (by rw [hdir]; decide))
        rw [if_pos hdir]
        refine completes_of_exacting ?_ ?_
        · exact (dirOpen_exacting t n).bind fun d => (dirClose_exacting _).bind fun _ => .pure (some d)
        · simp only [ensures_bind, ensures_pure]
          refine ensures_dirOpen fairEnv_zero hhold.looks.cache (hhold.looks.tree.dirOk hn) (.refl k₁)
            fun d k₂ _ hd => ?_
          exact (ensures_closeDir (hd.live_of_live hhold.live)).mpr trivial
      · rw [if_neg hdir]
        exact completes_close hhold none
  refine ⟨?_, fun f hf => avoids_bind.mpr ⟨avoids_assert (decide_eq_true hlen),
    wp_assert.mpr fun _ => htail.asserts f hf⟩⟩
  rw [sysOpendir, ensures_bind, ensures_assert (decide_eq_true hlen)]
  exact htail.returns

/-- A number that is not that of the root passes the assertion of `sys_unlink` and `sys_rmdir`. -/
theorem Searched.not_root {e : Env} (hroot : ∀ ty, k.denotes t path.val ≠ some (0, ty))
    {r : Option ℕ × PathSearchRecord} {k' : Kernel} (h : Searched t e k path.val r k') :
    decide (r.1 ≠ some 0) = true := by
  refine decide_eq_true fun hzero => ?_
  obtain ⟨n, record⟩ := r
  subst hzero
  obtain ⟨ty, hty⟩ := (h.names hk).2.1 rfl
  exact hroot ty hty

omit hk in
theorem completes_assert_bind {c : Bool} (hc : c = true) {x : Unit → Prog Kernel α} {k' : Kernel}
    (h : Completes (x ()) k') : Completes (assert c >>= x) k' := by
  rw [hc]
  exact ⟨h.returns, h.asserts⟩

theorem completes_unlinkWith (hpath : Searchable t k path.val)
    (hroot : ∀ ty, k.denotes t path.val ≠ some (0, ty)) :
    Completes (unlinkWith (fun _ _ => return -1) t path) k := by
  have hrun : ¬ SlashRun path.val := fun hrun => hroot _ hrun.denotes
  refine completes_assert_bind (decide_eq_true hpath.absolute.2) ?_
  refine completes_searched_bind hk hpath hrun fun r k₁ h => ?_
  have hnot := h.not_root hk hroot
  obtain ⟨p, hhold⟩ := h.holding
  obtain ⟨_ | n, record⟩ := r
  · exact completes_assert_bind hnot (completes_close hhold (-1))
  · have hclose := completes_close hhold (-1 : ℤ)
    refine completes_assert_bind hnot ?_
    dsimp only at hclose ⊢
    by_cases hdir : record.fileType = .directory
    · rw [if_pos hdir]
      exact hclose
    rw [if_neg hdir]
    have hopen : Completes (if k₁.isOpen n then do
          dirClose record.parentDir
          return -1
        else do
          let ok ← sysMalloc
          if !ok then
            dirClose record.parentDir
            return -1
          else return -1 : Prog Kernel ℤ) k₁ := by
      split
      · exact hclose
      · refine ⟨?_, fun f hf => avoids_bind.mpr ⟨fun _ => trivial, wp_sysMalloc.mpr ?_⟩⟩
        · rw [ensures_bind]
          exact ensures_sysMalloc fairEnv_zero trivial fun h => absurd h id
        · rintro (_ | _)
          · exact hclose.asserts f hf
          · trivial
    exact ⟨hopen.returns, hopen.asserts⟩

theorem completes_rmdirWith (hpath : Searchable t k path.val)
    (hroot : ∀ ty, k.denotes t path.val ≠ some (0, ty)) :
    Completes (rmdirWith (fun _ _ => return -1) t path) k := by
  have hrun : ¬ SlashRun path.val := fun hrun => hroot _ hrun.denotes
  refine completes_searched_bind hk hpath hrun fun r k₁ h => ?_
  have hnot := h.not_root hk hroot
  obtain ⟨p, hhold⟩ := h.holding
  obtain ⟨_ | n, record⟩ := r
  · exact completes_assert_bind hnot (completes_close hhold (-1))
  · refine completes_assert_bind hnot ?_
    have hnames := h.names hk
    dsimp only at hhold ⊢
    by_cases hfile : record.fileType = .regular
    · rw [if_pos hfile]
      exact completes_close hhold (-1)
    · have hn := hk.dir n (hnames.2.2 hfile)
      rw [if_neg hfile]
      refine completes_of_exacting ((dirOpen_exacting t n).bind fun _ => .pure _) ?_
      rw [ensures_bind]
      exact ensures_dirOpen fairEnv_zero hhold.looks.cache (hhold.looks.tree.dirOk hn) (.refl k₁)
        fun _ _ _ _ => trivial

omit hk in
theorem checkName_eq {s : List UInt8} (h : CountableNames s) (d : ℕ) :
    checkName d (afterLastSlash s) = pure (-1) := by
  rw [checkName, createDirEntry, decide_eq_true h.afterLastSlash]
  rfl

/-- Behind a lookup that has found nothing, `sys_mkdir` counts the names. -/
theorem completes_mkdirWith (hpath : Searchable t k path.val)
    (hcount : k.denotes t path.val = none → k.passes t path.val = none → CountableNames path.val) :
    Completes (mkdirWith checkName t path) k := by
  have hsome {p d : ℕ} {k₁ : Kernel} (hhold : Holding t k p d k₁) := completes_close hhold (-1 : ℤ)
  have hsearch : Completes (do
      let (inodeNo, record) ← searchFile t path
      match inodeNo with
      | some _ =>
          dirClose record.parentDir
          return -1
      | none =>
          let pathnameDepth ← pathDepthCnt path.val
          let pathSearchedDepth ← pathDepthCnt record.searchedPath
          if pathnameDepth ≠ pathSearchedDepth then
            dirClose record.parentDir
            return -1
          else if slash ∉ record.searchedPath then stop .undefined
          else checkName record.parentDir (afterLastSlash record.searchedPath) : Prog Kernel ℤ) k := by
    refine completes_searchFile_bind hk hpath ?_ ?_
    · intro r k₁ hled
      cases hled with
      | slashRun hrun hn hhold =>
          cases hn
          exact (hsome hhold).returns
      | searched hrun h =>
          cases h with
          | directory _ _ _ _ _ hhold => exact (hsome hhold).returns
          | file _ _ _ _ _ _ _ hhold => exact (hsome hhold).returns
          | through _ _ _ _ _ _ _ _ _ hhold => exact (hsome hhold).returns
          | @nothing _ record _ hnone hsearched htype hhold =>
              obtain ⟨hdenotes, hpasses⟩ := hnone.resolve_right id
              obtain ⟨ws, hne, hbegin, heq⟩ := hsearched.resolve_left id
              have hall := hcount hdenotes hpasses
              have hall' := hall.of_prefix hbegin
              rw [← heq] at hall'
              have hmem : slash ∈ record.searchedPath := by
                rw [heq]
                exact List.mem_of_mem_head? (head_join hne)
              dsimp only
              rw [ensures_bind]
              refine ensures_pathDepthCnt_zero hall ?_
              rw [ensures_bind]
              refine ensures_pathDepthCnt_zero hall' ?_
              rw [if_neg (not_not.mpr hmem)]
              split
              · exact (hsome hhold).returns
              · rw [checkName_eq hall']
                trivial
    · rintro ⟨_ | n, record⟩ k₁ hled f hf
      · obtain ⟨p, hhold⟩ := hled.holding
        refine avoids_bind.mpr ⟨pathDepthCnt_avoids hf _ _, wp_mono (wp_pathDepthCnt _) ?_⟩
        rintro depth _ ⟨rfl, -⟩
        refine avoids_bind.mpr ⟨pathDepthCnt_avoids hf _ _, wp_mono (wp_pathDepthCnt _) ?_⟩
        rintro depth' _ ⟨rfl, hall⟩
        split
        · exact (hsome hhold).asserts f hf
        · split
          · exact hf
          · rw [checkName_eq hall]
            trivial
      · obtain ⟨p, hhold⟩ := hled.holding
        exact (hsome hhold).asserts f hf
  constructor
  · rw [mkdirWith, ensures_bind]
    exact ensures_sysMalloc fairEnv_zero hsearch.returns fun h => absurd h id
  · intro f hf
    refine avoids_bind.mpr ⟨fun _ => trivial, wp_sysMalloc.mpr ?_⟩
    rintro (_ | _)
    · trivial
    · exact hsearch.asserts f hf

omit hk in
theorem pcbFdInstall_exacting (globalFd : ℕ) : Exacting .undefined (pcbFdInstall globalFd) := by
  refine Exacting.read.bind fun k => ?_
  split
  · exact (Exacting.write _).bind fun _ => .pure _
  · exact .pure _

omit hk in
theorem ensures_pcbFdInstall_any {e : Env} (globalFd : ℕ) {k' : Kernel} :
    (pcbFdInstall globalFd).ensures e (fun _ _ => True) k' := by
  rw [pcbFdInstall, ensures_bind, ensures_read]
  split
  · trivial
  · trivial

omit hk in
theorem completes_fileOpen {n : ℕ} {k₁ : Kernel} (hcache : k₁.CacheOk) (hn : k₁.Names t n)
    (flag : ℕ) : Completes (fileOpen t n flag) k₁ := by
  refine completes_of_exacting ?_ ?_
  · refine (Exacting.read.bind fun _ => .pure _).bind fun slot => ?_
    split
    · exact .pure _
    · refine (inodeOpen_exacting t n).bind fun a => (Exacting.modify _).bind fun _ => ?_
      split
      · refine Exacting.read.bind fun _ => ?_
        split
        · exact .pure _
        · exact (Exacting.write _).bind fun _ => pcbFdInstall_exacting _
      · exact pcbFdInstall_exacting _
  · rw [fileOpen, ensures_bind, getFreeSlotInGlobal, ensures_bind, ensures_read, ensures_pure]
    split
    · trivial
    · rw [ensures_bind]
      refine ensures_inodeOpen fairEnv_zero hcache hn.small hn.iNo (.refl k₁) fun a k₂ _ => ?_
      rw [ensures_bind, ensures_modify]
      split
      · rw [ensures_bind, ensures_read]
        split
        · trivial
        · exact ensures_pcbFdInstall_any _
      · exact ensures_pcbFdInstall_any _

/-- `openWith` behind the lookup. -/
def openFound (t : Transfer) (path : CString) (flags pathnameDepth : ℕ)
    (r : Option ℕ × PathSearchRecord) : Prog Kernel ℤ := do
  if r.2.fileType = .directory then
    dirClose r.2.parentDir
    return -1
  else
  let pathSearchedDepth ← pathDepthCnt r.2.searchedPath
  if pathnameDepth ≠ pathSearchedDepth then
    dirClose r.2.parentDir
    return -1
  else
  match r.1 with
  | none =>
      if flags &&& oCreat = 0 then
        dirClose r.2.parentDir
        return -1
      else
        let fd ← checkName r.2.parentDir (afterLastSlash path.val)
        dirClose r.2.parentDir
        return fd
  | some inodeNo =>
      if flags &&& oCreat ≠ 0 then
        dirClose r.2.parentDir
        return -1
      else fileOpen t inodeNo flags

omit hk in
theorem openWith_eq (flags : ℕ) : openWith checkName t path flags = (do
    let before ← arbitrary
    if path.val.getLastD (UInt8.ofNat before) = slash then return -1
    else do
      assert (flags ≤ 7)
      let pathnameDepth ← pathDepthCnt path.val
      let r ← searchFile t path
      openFound t path flags pathnameDepth r) := rfl

/-- What follows the count of the names walked. -/
theorem completes_openCounted (hcount : CountableNames path.val) {e : Env} {flags depth depth' : ℕ}
    {r : Option ℕ × PathSearchRecord} {k₁ : Kernel} (h : Searched t e k path.val r k₁) :
    Completes (if depth ≠ depth' then do
        dirClose r.2.parentDir
        return -1
      else
        match r.1 with
        | none =>
            if flags &&& oCreat = 0 then do
              dirClose r.2.parentDir
              return -1
            else do
              let fd ← checkName r.2.parentDir (afterLastSlash path.val)
              dirClose r.2.parentDir
              return fd
        | some inodeNo =>
            if flags &&& oCreat ≠ 0 then do
              dirClose r.2.parentDir
              return -1
            else fileOpen t inodeNo flags : Prog Kernel ℤ) k₁ := by
  obtain ⟨p, hhold⟩ := h.holding
  have hclose := completes_close hhold (-1 : ℤ)
  split
  · exact hclose
  obtain ⟨_ | n, record⟩ := r
  · dsimp only at hhold hclose ⊢
    split
    · exact hclose
    · rw [checkName_eq hcount]
      exact hclose
  · have hnames := (h.names hk).1.looks hhold.looks
    dsimp only at hhold hclose ⊢
    split
    · exact hclose
    · exact completes_fileOpen hhold.looks.cache hnames flags

theorem completes_openFound (hcount : CountableNames path.val) {flags depth : ℕ}
    {r : Option ℕ × PathSearchRecord} {k₁ : Kernel} :
    (Searched t .zero k path.val r k₁ →
      (openFound t path flags depth r).ensures .zero (fun _ _ => True) k₁) ∧
    (Searched t .any k path.val r k₁ →
      ∀ f, .undefined ≠ f → (openFound t path flags depth r).avoids f k₁) := by
  refine ⟨fun h => ?_, fun h f hf => ?_⟩
  · obtain ⟨p, hhold⟩ := h.holding
    unfold openFound
    split
    · exact (completes_close hhold _).returns
    next hdir =>
      have hwalked : CountableNames r.2.searchedPath := by
        cases h with
        | directory _ _ _ _ htype => exact absurd htype hdir
        | file _ _ _ _ _ hpath =>
            rw [hpath]
            exact hcount.of_prefix (List.prefix_refl _)
        | through _ _ _ _ _ hpath _ _ hbegin =>
            rw [hpath]
            exact hcount.of_prefix hbegin
        | nothing _ hpath =>
            obtain ⟨ws, -, hbegin, heq⟩ := hpath.resolve_left id
            rw [heq]
            exact hcount.of_prefix hbegin
      rw [ensures_bind]
      exact ensures_pathDepthCnt_zero hwalked (completes_openCounted hk hcount h).returns
  · obtain ⟨p, hhold⟩ := h.holding
    unfold openFound
    split
    · exact (completes_close hhold _).asserts f hf
    · refine avoids_bind.mpr ⟨pathDepthCnt_avoids hf _ _, wp_mono (wp_pathDepthCnt _) ?_⟩
      rintro depth' k₂ ⟨rfl, -⟩
      exact (completes_openCounted hk hcount h).asserts f hf

theorem completes_openWith {flags : ℕ} (hflags : flags ≤ 7)
    (hpath : path.val.getLast? = some slash ∨
      Searchable t k path.val ∧ CountableNames path.val) :
    Completes (openWith checkName t path flags) k := by
  rw [openWith_eq]
  by_cases hlast : path.val.getLast? = some slash
  · have hslash (before : ℕ) : path.val.getLastD (UInt8.ofNat before) = slash := by
      rw [List.getLastD_eq_getLast?, hlast]
      rfl
    refine ⟨fun before _ => ?_, fun f hf => avoids_bind.mpr ⟨fun _ => trivial,
      wp_arbitrary.mpr fun before => ?_⟩⟩
    · change ensures .zero (if path.val.getLastD (UInt8.ofNat before) = slash then _ else _) _ k
      rw [if_pos (hslash before)]
      trivial
    · rw [if_pos (hslash before)]
      trivial
  obtain ⟨hsearch, hcount⟩ := hpath.resolve_left hlast
  have hrun : ¬ SlashRun path.val := by
    intro hrun
    have hlong := hrun.length hsearch.absolute.1
    have hne : path.val ≠ [] := List.ne_nil_of_length_pos (by omega)
    refine hlast ?_
    rw [List.getLast?_eq_some_getLast hne]
    exact congrArg some (eq_sep_of_words_eq_nil hrun.1 _ (List.getLast_mem hne))
  have htail : Completes (do
      let pathnameDepth ← pathDepthCnt path.val
      let r ← searchFile t path
      openFound t path flags pathnameDepth r) k := by
    have hfound (depth : ℕ) : Completes (searchFile t path >>= openFound t path flags depth) k := by
      refine completes_searchFile_bind hk hsearch (fun r k' hled => ?_) fun r k' hled => ?_
      · cases hled with
        | searched _ h => exact (completes_openFound hk hcount).1 h
        | slashRun hslash => exact absurd hslash hrun
      · cases hled with
        | searched _ h => exact (completes_openFound hk hcount).2 h
        | slashRun hslash => exact absurd hslash hrun
    constructor
    · rw [ensures_bind]
      exact ensures_pathDepthCnt_zero hcount (hfound _).returns
    · intro f hf
      refine avoids_bind.mpr ⟨pathDepthCnt_avoids hf _ _, wp_mono (wp_pathDepthCnt _) ?_⟩
      rintro depth _ ⟨rfl, -⟩
      exact (hfound depth).asserts f hf
  have hbranch (before : ℕ) : Completes (if path.val.getLastD (UInt8.ofNat before) = slash then
      return -1
    else do
      assert (flags ≤ 7)
      let pathnameDepth ← pathDepthCnt path.val
      let r ← searchFile t path
      openFound t path flags pathnameDepth r) k := by
    split
    · exact ⟨trivial, fun _ _ => trivial⟩
    · exact completes_assert_bind (decide_eq_true hflags) htail
  refine ⟨fun before _ => (hbranch before).returns, fun f hf => avoids_bind.mpr
    ⟨fun _ => trivial, wp_arbitrary.mpr fun before => (hbranch before).asserts f hf⟩⟩

end Passing

/-! ## The other paths do not pass -/

/-- What runs with all answers `0` runs part by part. -/
theorem ensures_zero_bind {x : Prog Kernel α} {g : α → Prog Kernel β} {Q : β → Kernel → Prop}
    {R : α → Kernel → Prop} {k : Kernel} (h : (x >>= g).ensures .zero Q k)
    (hx : x.ensures .zero R k) : ∃ a k', x.Returns k a k' ∧ R a k' ∧ (g a).ensures .zero Q k' := by
  obtain ⟨a, k', hexec, hR⟩ := exec_of_ensures hx
  obtain ⟨a', k'', hexec', hg⟩ := exec_of_ensures (ensures_bind.mp h)
  rw [hexec] at hexec'
  cases hexec'
  exact ⟨a, k', returns_of_exec hexec, hR, hg⟩

/-- What a program returns with all answers `0` is among what it can return. -/
theorem ensures_zero_of_wp {x : Prog Kernel α} {k : Kernel} {R : α → Kernel → Prop}
    (h : x.ensures .zero (fun _ _ => True) k) (hwp : x.wp R k) : x.ensures .zero R k := by
  induction x generalizing k with
  | ret a => exact hwp
  | stop f => exact h
  | get g ih => exact ih k h hwp
  | set k' x ih => exact ih h hwp
  | choose g ih => exact fun n hn => ih n (h n hn) (hwp n)
  | pause x ih => exact ih h hwp

/-- A name that is read with all answers `0` fits into its buffer. -/
theorem nextName_of_ensures_zero (subPath : Option (List UInt8)) {k : Kernel}
    {g : List UInt8 × Option (List UInt8) → Prog Kernel α} {Q : α → Kernel → Prop}
    (h : (nextNameBy parseFits subPath >>= g).ensures .zero Q k) :
    (nextName subPath).1.length ≤ maxFileNameLen ∧ (g (nextName subPath)).ensures .zero Q k := by
  rw [nextNameBy_parseFits] at h
  by_cases hlong : maxFileNameLen < (nextName subPath).1.length
  · rw [if_pos hlong] at h
    exact h.elim
  · rw [if_neg hlong] at h
    exact ⟨Nat.le_of_not_lt hlong, h⟩

section Failing

variable {t : Transfer} {k : Kernel} {path : CString}

/-- The assertion of `search_file`. -/
theorem shape_of_avoids (h : (searchFile t path).avoids .halt k) : isRootPath path.val = true ∨
    path.val.head? = some slash ∧ 1 < path.val.length ∧ path.val.length < maxPathLen := by
  refine or_iff_not_imp_left.mpr fun hroot => ?_
  by_contra hshape
  rw [searchFile, searchFileBy] at h
  dsimp only at h
  rw [if_neg hroot, decide_eq_false hshape] at h
  exact h rfl

variable (hk : ConsistentTree t k)

include hk

/-- A walk that returns leads through names that fit. -/
theorem fits_of_searchLoop {fuel : ℕ} {w : Walk} {n : ℕ} {searched : List (List UInt8)}
    {k₁ : Kernel} (hw : w.Stands fuel searched) (hn : k.IsDir t n)
    (hp : k.IsDir t w.parentInodeNo) (hhold : Holding t k n w.parentDir k₁)
    (h : (searchLoop t fuel w).ensures .zero (fun _ _ => True) k₁) :
    k.Fits t n (namesOf w.name w.subPath) := by
  induction fuel generalizing w n searched k₁ with
  | zero => exact absurd hw.fuel (Nat.not_lt_zero _)
  | succ fuel ih =>
      have hdir := hk.dir n hn
      by_cases hname : w.name = []
      · rw [namesOf, if_pos hname]
        trivial
      have hrest := namesOf_nextName w.subPath
      rw [namesOf, if_neg hname]
      rw [searchLoop, searchLoopBy, if_neg hname] at h
      by_cases hshort : maxFileNameLen ≤ w.name.length
      · rw [if_pos hshort] at h
        exact h.elim
      rw [if_neg hshort, ensures_bind, ensures_assert (decide_eq_true hw.path)] at h
      dsimp only at h
      refine ⟨Nat.lt_of_not_le hshort, fun m ty hlookup => ?_⟩
      obtain ⟨r, k₂, -, ⟨hr, hsame⟩, hstep⟩ := ensures_zero_bind h
        (ensures_searchDirEntry fairEnv_zero hdir hhold
          (Q := fun r k₂ => r = k.lookup t n w.name ∧ k₂ = k₁) ⟨rfl, rfl⟩ fun hstop => hstop.elim)
      rw [hr, hsame, hlookup] at hstep
      dsimp only at hstep
      obtain ⟨hnext, hstep⟩ := nextName_of_ensures_zero _ hstep
      rw [← hrest]
      refine ⟨fun _ v hv => (eq_of_head?_namesOf hv).symm ▸ hnext, fun hty => ?_⟩
      cases ty with
      | regular => exact absurd rfl hty
      | directory =>
          have hm := hn.step hlookup
          have hparent : k.IsDir t (k₁.dirInode w.parentDir).iNo := by
            rw [hhold.inode.iNo, hdir.iNo]
            exact hn
          change ensures .zero (dirClose w.parentDir >>= _) _ k₁ at hstep
          obtain ⟨_, k₂, -, hback, hopen⟩ := ensures_zero_bind hstep
            (ensures_dirClose hhold (Q := fun _ k₂ => Restored k k₂) fun _ hback => hback)
          obtain ⟨d, k₃, -, hd, hloop⟩ := ensures_zero_bind hopen (ensures_dirOpen fairEnv_zero hk.cache
            (hk.dir m hm) hback (Q := fun d k₃ => Holding t k m d k₃) fun _ _ _ hd => hd)
          rw [if_pos rfl]
          exact ih (hw.next hname rfl rfl) hm hparent hd hloop
      | unknown =>
          dsimp only at hstep
          rw [if_neg (by decide)]
          exact ih (w := ⟨w.parentDir, w.parentInodeNo, m, _, _, _⟩) (hw.next hname rfl rfl) hn hp hhold
            hstep
      | other code =>
          dsimp only at hstep
          rw [if_neg (by simp)]
          exact ih (w := ⟨w.parentDir, w.parentInodeNo, m, _, _, _⟩) (hw.next hname rfl rfl) hn hp hhold
            hstep

/-- A lookup that passes and returns is one of a path that `search_file` takes. -/
theorem searchable_of_completes {g : Option ℕ × PathSearchRecord → Prog Kernel α}
    (h : Completes (searchFile t path >>= g) k) : Searchable t k path.val := by
  have hshape := shape_of_avoids (avoids_bind.mp (h.asserts .halt (by decide))).1
  by_cases hroot : isRootPath path.val = true
  · exact .of_root hroot
  · refine ⟨hshape, ?_⟩
    obtain ⟨habs, hlong, hlen⟩ := hshape.resolve_left hroot
    have hsearch : (searchFile t path).ensures .zero (fun _ _ => True) k :=
      ensures_mono (ensures_bind.mp h.returns) fun _ _ _ => trivial
    rw [searchFile, searchFileBy] at hsearch
    dsimp only at hsearch
    rw [if_neg hroot, ensures_bind, ensures_assert (decide_eq_true ⟨habs, hlong, hlen⟩),
      ensures_bind] at hsearch
    have hloop := nextName_of_ensures_zero (some path.val) (hsearch 0 rfl)
    rw [← namesOf_pathParse path.val]
    exact fits_of_searchLoop hk (stands_start habs hlen rfl rfl) (k.isDir_root t) (k.isDir_root t)
      (Holding.root hk.cache (.refl k)) hloop.2

/-- What the lookup returns with all answers `0`, and what follows it. -/
theorem led_of_completes {g : Option ℕ × PathSearchRecord → Prog Kernel α}
    (h : Completes (searchFile t path >>= g) k) :
    ∃ r k', Led t .zero k path.val r k' ∧ (g r).ensures .zero (fun _ _ => True) k' := by
  have hpath := searchable_of_completes hk h
  obtain ⟨habs, hlen⟩ := hpath.absolute
  obtain ⟨r, k', -, hled, hg⟩ := ensures_zero_bind h.returns
    (ensures_led hk fairEnv_zero habs hlen (Or.inr hpath.fits))
  exact ⟨r, k', hled, hg⟩

/-- Where the root is refused by an assertion, the path does not denote it. -/
theorem not_root_of_completes {g : Option ℕ × PathSearchRecord → Prog Kernel α}
    (h : Completes (searchFile t path >>= fun r => do
      assert (r.1 ≠ some 0)
      g r) k) : ∀ ty, k.denotes t path.val ≠ some (0, ty) := by
  intro ty hroot
  obtain ⟨r, k', hled, htail⟩ := led_of_completes hk h
  cases hled with
  | slashRun _ hn _ =>
      cases hn
      exact htail
  | searched _ hs =>
      cases hs with
      | directory hdenotes =>
          rw [hdenotes] at hroot
          cases hroot
          exact htail
      | file hdenotes _ _ hpos =>
          rw [hdenotes] at hroot
          cases hroot
          exact hpos rfl
      | through hdenotes =>
          rw [hdenotes] at hroot
          cases hroot
      | nothing hnone =>
          rw [(hnone.resolve_right id).1] at hroot
          cases hroot

/-- For a run of slashes every number that fits in an `int` can come back. -/
theorem returns_slashRun (hrun : SlashRun path.val) (habs : path.val.head? = some slash)
    (hlen : path.val.length < maxPathLen) (n : ℕ) : ∃ d k', Holding t k 0 d k' ∧
      (searchFile t path).Returns k (asInt (n % 2 ^ 32), ⟨[], d, .directory⟩) k' := by
  obtain ⟨d, k', hhold, hexec⟩ := exec_slashRun hk hrun habs hlen [n] rfl
  refine ⟨d, k', hhold, ?_⟩
  obtain ⟨r, k₁, hret, hsame⟩ := returns_bind.mp (returns_of_exec (hexec Prog.ret))
  obtain ⟨hr, hk₁⟩ := hsame
  rw [← hr, ← hk₁] at hret
  exact hret

/-- While one handle of the root is held, the numbers of the open inodes are those of before. -/
theorem Holding.findOpen_none {d n : ℕ} {k' : Kernel} (h : Holding t k 0 d k')
    (hopen : ∀ a ∈ k.openInodes, (k.inodes a).iNo < n) (hn : n ≠ 0) : k'.findOpen n = none := by
  refine List.find?_eq_none.mpr fun a ha => ?_
  have hroot : (k'.dirInode d).iNo = 0 :=
    h.inode.iNo.trans (hk.dir 0 (k.isDir_root t)).iNo
  have hcases : a ∈ k.openInodes ∨ a = (k'.dirs d).inode := by
    have hback := h.closes.openInodes
    unfold Kernel.closeDir at hback
    split at hback
    · rw [hback] at ha
      exact Or.inl ha
    · dsimp only at hback
      rw [k'.closeInode_eq] at hback
      dsimp only at hback
      split at hback
      · by_cases hself : a = (k'.dirs d).inode
        · exact Or.inr hself
        · refine Or.inl ?_
          rw [← hback]
          exact (List.mem_erase_of_ne hself).mpr ha
      · rw [hback] at ha
        exact Or.inl ha
  rcases hcases with hold | rfl
  · have hfresh := hk.cache.fresh a hold
    have hsame := (h.looks.inodes a hfresh).iNo
    have := hopen a hold
    simp only [decide_eq_true_eq]
    omega
  · simp only [decide_eq_true_eq]
    change ¬ (k'.dirInode d).iNo = n
    omega

/-- Where what follows the lookup looks the number up in the inode table, a run of slashes does
not pass. -/
theorem not_slashRun_of_completes {g : Option ℕ × PathSearchRecord → Prog Kernel α}
    (hopen : ∀ a ∈ k.openInodes, (k.inodes a).iNo < maxFilesPerPart)
    (hg : ∀ d k', k'.findOpen maxFilesPerPart = none →
      ¬ (g (some maxFilesPerPart, ⟨[], d, .directory⟩)).avoids .halt k')
    (h : Completes (searchFile t path >>= g) k) : ¬ SlashRun path.val := by
  intro hrun
  obtain ⟨habs, hlen⟩ := (searchable_of_completes hk h).absolute
  obtain ⟨d, k', hhold, hret⟩ := returns_slashRun hk hrun habs hlen maxFilesPerPart
  have htail := wp_iff_returns.mp (avoids_bind.mp (h.asserts .halt (by decide))).2 _ k' hret
  exact hg d k' (hhold.findOpen_none hk hopen (by decide)) htail

omit hk in
/-- `inode_open` asserts that the number is below 4096. -/
theorem not_avoids_inodeOpen {k' : Kernel} (hnone : k'.findOpen maxFilesPerPart = none) :
    ¬ (inodeOpen t maxFilesPerPart).avoids .halt k' := by
  intro h
  rw [inodeOpen, avoids_bind] at h
  have hopen : (match k'.findOpen maxFilesPerPart with
      | some a => _
      | none => _ : Prog Kernel ℕ).avoids .halt k' := h.2
  rw [hnone] at hopen
  exact (avoids_bind.mp (avoids_bind.mp hopen).1).1 rfl

theorem takes_of_sysStat (hopen : ∀ a ∈ k.openInodes, (k.inodes a).iNo < maxFilesPerPart)
    (h : Completes (sysStat t path) k) : Searchable t k path.val ∧ ¬ SlashRun path.val := by
  unfold sysStat at h
  by_cases hroot : isRootPath path.val = true
  · exact ⟨.of_root hroot, fun hrun => hrun.not_isRootPath hroot⟩
  · rw [if_neg hroot] at h
    refine ⟨searchable_of_completes hk h, not_slashRun_of_completes hk hopen (fun d k' hnone => ?_) h⟩
    exact fun hstat => not_avoids_inodeOpen hnone (avoids_bind.mp hstat).1

theorem takes_of_sysOpendir (hopen : ∀ a ∈ k.openInodes, (k.inodes a).iNo < maxFilesPerPart)
    (h : Completes (sysOpendir t path) k) : Searchable t k path.val ∧ ¬ SlashRun path.val := by
  have hlen : path.val.length < maxPathLen := by
    by_contra hlong
    have hassert := h.asserts .halt (by decide)
    rw [sysOpendir, decide_eq_false hlong] at hassert
    exact hassert rfl
  by_cases hslash : path.val = [slash]
  · have hroot : isRootPath path.val = true := by
      rw [hslash]
      decide
    exact ⟨.of_root hroot, fun hrun => hrun.2 hslash⟩
  · rw [sysOpendir, decide_eq_true hlen, if_neg hslash] at h
    have hsearch : Completes (searchFile t path >>= fun (inodeNo, record) => do
        let ret ← match inodeNo with
          | none => pure none
          | some inodeNo =>
              if record.fileType = .directory then do
                let dir ← dirOpen t inodeNo
                pure (some dir)
              else pure none
        dirClose record.parentDir
        return ret : Prog Kernel (Option ℕ)) k := ⟨h.returns, h.asserts⟩
    refine ⟨searchable_of_completes hk hsearch,
      not_slashRun_of_completes hk hopen (fun d k' hnone => ?_) hsearch⟩
    intro hopendir
    have hdir : (dirOpen t maxFilesPerPart).avoids .halt k' := (avoids_bind.mp hopendir).1
    have htail := (avoids_bind.mp hdir).2
    rw [wp_sysMallocUnchecked] at htail
    exact not_avoids_inodeOpen hnone (avoids_bind.mp htail).1

theorem takes_of_unlinkWith (h : Completes (unlinkWith (fun _ _ => return -1) t path) k) :
    Searchable t k path.val ∧ ∀ ty, k.denotes t path.val ≠ some (0, ty) := by
  have hlen : path.val.length < maxPathLen := by
    by_contra hlong
    have hassert := h.asserts .halt (by decide)
    rw [unlinkWith, decide_eq_false hlong] at hassert
    exact hassert rfl
  rw [unlinkWith, decide_eq_true hlen] at h
  have hsearch : Completes (searchFile t path >>= fun r => do
      assert (r.1 ≠ some 0)
      match r.1 with
      | none =>
          dirClose r.2.parentDir
          return -1
      | some inodeNo =>
          if r.2.fileType = .directory then
            dirClose r.2.parentDir
            return -1
          else
          let k ← read
          if k.isOpen inodeNo then
            dirClose r.2.parentDir
            return -1
          else
          let ok ← sysMalloc
          if !ok then
            dirClose r.2.parentDir
            return -1
          else return -1 : Prog Kernel ℤ) k := ⟨h.returns, h.asserts⟩
  exact ⟨searchable_of_completes hk hsearch, not_root_of_completes hk hsearch⟩

theorem takes_of_mkdirWith (h : Completes (mkdirWith checkName t path) k) :
    Searchable t k path.val ∧
      (k.denotes t path.val = none → k.passes t path.val = none → CountableNames path.val) := by
  have hsearch : Completes (searchFile t path >>= fun r => do
      match r.1 with
      | some _ =>
          dirClose r.2.parentDir
          return -1
      | none =>
          let pathnameDepth ← pathDepthCnt path.val
          let pathSearchedDepth ← pathDepthCnt r.2.searchedPath
          if pathnameDepth ≠ pathSearchedDepth then
            dirClose r.2.parentDir
            return -1
          else if slash ∉ r.2.searchedPath then stop .undefined
          else checkName r.2.parentDir (afterLastSlash r.2.searchedPath) : Prog Kernel ℤ) k :=
    ⟨h.returns 0 rfl, fun f hf => wp_sysMalloc.mp (avoids_bind.mp (h.asserts f hf)).2 true⟩
  refine ⟨searchable_of_completes hk hsearch, fun hdenotes hpasses => ?_⟩
  obtain ⟨r, k₁, hled, htail⟩ := led_of_completes hk hsearch
  cases hled with
  | slashRun hrun =>
      rw [hrun.denotes] at hdenotes
      cases hdenotes
  | searched _ hs =>
      cases hs with
      | directory hsome =>
          rw [hsome] at hdenotes
          cases hdenotes
      | file hsome =>
          rw [hsome] at hdenotes
          cases hdenotes
      | through _ hsome =>
          rw [hsome] at hpasses
          cases hpasses
      | nothing =>
          have hcounts : (pathDepthCnt path.val).ensures .zero (fun _ _ => True) k₁ :=
            ensures_mono (ensures_bind.mp htail) fun _ _ _ => trivial
          obtain ⟨_, _, -, -, hcount⟩ := exec_of_ensures (ensures_zero_of_wp hcounts (wp_pathDepthCnt _))
          exact hcount

theorem takes_of_openWith {flags : ℕ} (hflags : flags ≤ 7)
    (h : Completes (openWith checkName t path flags) k) :
    path.val.getLast? = some slash ∨ Searchable t k path.val ∧ CountableNames path.val := by
  refine or_iff_not_imp_left.mpr fun hlast => ?_
  have hslash : ¬ path.val.getLastD (UInt8.ofNat 0) = slash := by
    rw [List.getLastD_eq_getLast?]
    rcases hpath : path.val.getLast? with _ | c
    · decide
    · rintro rfl
      exact hlast hpath
  rw [openWith_eq] at h
  have hbranch : Completes (if path.val.getLastD (UInt8.ofNat 0) = slash then return -1
      else do
        assert (flags ≤ 7)
        let pathnameDepth ← pathDepthCnt path.val
        let r ← searchFile t path
        openFound t path flags pathnameDepth r) k :=
    ⟨h.returns 0 rfl, fun f hf => wp_arbitrary.mp (avoids_bind.mp (h.asserts f hf)).2 0⟩
  rw [if_neg hslash, decide_eq_true hflags] at hbranch
  have hcounted : Completes (do
      let pathnameDepth ← pathDepthCnt path.val
      let r ← searchFile t path
      openFound t path flags pathnameDepth r) k := ⟨hbranch.returns, hbranch.asserts⟩
  have hcounts : (pathDepthCnt path.val).ensures .zero (fun _ _ => True) k :=
    ensures_mono (ensures_bind.mp hcounted.returns) fun _ _ _ => trivial
  obtain ⟨depth, k₁, hret, ⟨hsame, hcount⟩, htail⟩ := ensures_zero_bind hcounted.returns
    (ensures_zero_of_wp hcounts (wp_pathDepthCnt path.val))
  rw [hsame] at hret htail
  refine ⟨searchable_of_completes hk (g := openFound t path flags depth) ⟨htail, fun f hf => ?_⟩, hcount⟩
  exact wp_iff_returns.mp (avoids_bind.mp (hcounted.asserts f hf)).2 depth k hret

end Failing

/-- `a`, a path without a slash. -/
def pathRelative : CString := ⟨[97], by decide⟩

end BochsOs
