import BochsOs.Fs.Frame

/-!
# `sys_open` in turns

A process in `sys_open` gives up the processor while it waits for the disk, and others run until it
goes on.  It first looks the path up (`openLookup`); `file_open` then chooses a free entry of
`file_table`, and may wait for the inode before it fills this entry.  `OpenStage` is what is left of a
call that waits, and `OpenTurn` what it does until it waits again or returns; these are the turns of
`sysOpen` (`turn_sysOpen_iff`, `turn_iff_openTurn`).

Whatever the others do meanwhile, a call changes neither `file_table` nor a control block before it
fills its entry (`openLookup_steady`, `inodeOpen_steady`).
-/

namespace BochsOs

open ByteMemory Suspend Suspend.Prog

/-! ## The parts of `sys_open` -/

/-- What is to be done when the path has been looked up. -/
inductive OpenPlan where
  | refuse
  | create (parentDir : ℕ)
  | open (inodeNo : ℕ)

/-- `sys_open` up to `file_create` or `file_open`. -/
def openLookup (t : Transfer) (pathname : CString) (flags : ℕ) : Prog Kernel OpenPlan := do
  let path := pathname.val
  let before ← arbitrary
  if path.getLastD (UInt8.ofNat before) = slash then return .refuse
  else
  assert (flags ≤ 7)
  let pathnameDepth ← pathDepthCnt path
  let (inodeNo, record) ← searchFile t pathname
  if record.fileType = .directory then
    dirClose record.parentDir
    return .refuse
  else
  let pathSearchedDepth ← pathDepthCnt record.searchedPath
  if pathnameDepth ≠ pathSearchedDepth then
    dirClose record.parentDir
    return .refuse
  else
  match inodeNo with
  | none =>
      if flags &&& oCreat = 0 then
        dirClose record.parentDir
        return .refuse
      else return .create record.parentDir
  | some inodeNo =>
      if flags &&& oCreat ≠ 0 then
        dirClose record.parentDir
        return .refuse
      else return .open inodeNo

/-- The rest of `sys_open`. -/
def openRest (t : Transfer) (pathname : CString) (flags : ℕ) : OpenPlan → Prog Kernel ℤ
  | .refuse => return -1
  | .create parentDir => do
      let fd ← fileCreate t parentDir (afterLastSlash pathname.val) flags
      dirClose parentDir
      return fd
  | .open inodeNo => fileOpen t inodeNo flags

/-- `file_open` with the entry `fdI` and the inode at `a`. -/
def fileOpenFill (fdI flag a : ℕ) : Prog Kernel ℤ := do
  modify (·.setFile fdI ⟨0, flag, some a⟩)
  if wantsWrite flag then
    let k ← read
    if (k.inodes a).writeDeny then return -1
    else
      write (k.setInode a { k.inodes a with writeDeny := true })
      pcbFdInstall fdI
  else pcbFdInstall fdI

theorem sysOpen_eq_openLookup (t : Transfer) (pathname : CString) (flags : ℕ) :
    sysOpen t pathname flags = openLookup t pathname flags >>= openRest t pathname flags := by
  rw [sysOpen, openLookup, bind_assoc]
  refine bind_congr fun before => ?_
  split
  · rfl
  rw [bind_assoc]
  refine bind_congr fun _ => ?_
  rw [bind_assoc]
  refine bind_congr fun depth => ?_
  rw [bind_assoc]
  refine bind_congr fun ⟨inodeNo, record⟩ => ?_
  dsimp only
  split
  · rw [bind_assoc]
    rfl
  rw [bind_assoc]
  refine bind_congr fun searched => ?_
  split
  · rw [bind_assoc]
    rfl
  cases inodeNo with
  | none =>
      dsimp only
      split
      · rw [bind_assoc]
        rfl
      · rfl
  | some inodeNo =>
      dsimp only
      split
      · rw [bind_assoc]
        rfl
      · rfl

theorem fileOpen_eq (t : Transfer) (inodeNo flag : ℕ) :
    fileOpen t inodeNo flag = getFreeSlotInGlobal >>= fun slot =>
      match slot with
      | none => return -1
      | some fdI => inodeOpen t inodeNo >>= fileOpenFill fdI flag := rfl

/-! ## What stays while others run -/

/-- The entries of `file_table` and the processes are the same. -/
structure KeepsEntries (k k' : Kernel) : Prop where
  files : k'.fileTable = k.fileTable
  tasks : k'.tasks = k.tasks
  running : k'.running = k.running
  all : k'.threadAllList = k.threadAllList
  next : k'.nextTask = k.nextTask

instance : IsPreorder Kernel KeepsEntries where
  refl _ := ⟨rfl, rfl, rfl, rfl, rfl⟩
  trans _ _ _ h h' :=
    { files := h'.files.trans h.files
      tasks := h'.tasks.trans h.tasks
      running := h'.running.trans h.running
      all := h'.all.trans h.all
      next := h'.next.trans h.next }

/-- The part of `inode_open` that reads the inode from the disk. -/
theorem inodeLoad_steady (t : Transfer) (lba secs offset a : ℕ) :
    Steady KeepsEntries (do
      sysMallocUnchecked
      let inodeBuf ← ideRead t lba zeroBuf secs
      modify fun k =>
        { k.setInode a { inodeAt inodeBuf offset with iOpenCnts := 1 } with
          openInodes := a :: k.openInodes }
      return a) :=
  sysMallocUnchecked_same.of_same.bind fun _ => (ideRead_same _ _ _ _).of_same.bind fun _ =>
    (Steady.modify fun _ => ⟨rfl, rfl, rfl, rfl, rfl⟩).bind fun _ => .pure _

theorem inodeOpen_steady (t : Transfer) (inodeNo : ℕ) : Steady KeepsEntries (inodeOpen t inodeNo) := by
  refine .read_bind fun k => ?_
  cases k.findOpen inodeNo with
  | some a => exact ⟨⟨rfl, rfl, rfl, rfl, rfl⟩, trivial⟩
  | none =>
      refine steps_bind ((inodeLocate_same _).of_same k) fun pos =>
        sysMallocUnchecked_same.of_same.bind fun _ => .read_bind fun k => ⟨⟨rfl, rfl, rfl, rfl, rfl⟩, ?_⟩
      exact inodeLoad_steady t pos.secLba pos.secs pos.offSize k.nextInode _

theorem inodeClose_steady (a : ℕ) : Steady KeepsEntries (inodeClose a) := by
  refine .read_bind fun k => ?_
  dsimp only
  split
  · exact ⟨⟨rfl, rfl, rfl, rfl, rfl⟩, trivial⟩
  · exact ⟨⟨rfl, rfl, rfl, rfl, rfl⟩, trivial⟩

theorem dirOpen_steady (t : Transfer) (inodeNo : ℕ) : Steady KeepsEntries (dirOpen t inodeNo) :=
  sysMallocUnchecked_same.of_same.bind fun _ => (inodeOpen_steady t inodeNo).bind fun _ =>
    .read_bind fun _ => ⟨⟨rfl, rfl, rfl, rfl, rfl⟩, trivial⟩

theorem dirClose_steady (dir : ℕ) : Steady KeepsEntries (dirClose dir) := by
  unfold dirClose
  split
  · exact .pure _
  · refine Steady.read.bind fun k => ?_
    split
    · exact (inodeClose_steady _).bind fun _ => .modify fun k => ⟨rfl, rfl, rfl, rfl, rfl⟩
    · exact .stop _

theorem nextNameBy_steady (subPath : Option (List UInt8)) :
    Steady KeepsEntries (nextNameBy parseFits subPath) := by
  rw [nextNameBy_parseFits]
  split
  · exact .stop _
  · exact .pure _

theorem searchLoop_steady (t : Transfer) (fuel : ℕ) (w : Walk) :
    Steady KeepsEntries (searchLoop t fuel w) := by
  induction fuel generalizing w with
  | zero => exact .stop _
  | succ fuel ih =>
      unfold searchLoopBy
      split
      · exact (dirClose_steady _).bind fun _ => (dirOpen_steady _ _).bind fun _ => .pure _
      split
      · exact .stop _
      refine (Steady.assert _).bind fun _ => (searchDirEntry_same _ _ _).of_same.bind fun found => ?_
      split
      · exact .pure _
      refine (nextNameBy_steady _).bind fun ⟨name, subPath⟩ => ?_
      dsimp only
      split
      · exact .pure _
      · exact Steady.read.bind fun _ => (dirClose_steady _).bind fun _ =>
          (dirOpen_steady _ _).bind fun _ => ih _
      · exact ih _

theorem searchFile_steady (t : Transfer) (pathname : CString) :
    Steady KeepsEntries (searchFile t pathname) := by
  unfold searchFile searchFileBy
  dsimp only
  split
  · exact .pure _
  · exact (Steady.assert _).bind fun _ => Steady.arbitrary.bind fun _ =>
      (nextNameBy_steady (some _)).bind fun _ => searchLoop_steady _ _ _

theorem openLookup_steady (t : Transfer) (pathname : CString) (flags : ℕ) :
    Steady KeepsEntries (openLookup t pathname flags) := by
  have hrefuse : ∀ dir, Steady KeepsEntries (do dirClose dir; return .refuse : Prog Kernel OpenPlan) :=
    fun dir => (dirClose_steady dir).bind fun _ => .pure _
  unfold openLookup
  refine Steady.arbitrary.bind fun before => ?_
  split
  · exact .pure _
  refine (Steady.assert _).bind fun _ => (pathDepthCnt_same _).of_same.bind fun depth =>
    (searchFile_steady t pathname).bind fun ⟨inodeNo, record⟩ => ?_
  dsimp only
  split
  · exact hrefuse _
  refine (pathDepthCnt_same _).of_same.bind fun searched => ?_
  split
  · exact hrefuse _
  split
  · split
    · exact hrefuse _
    · exact .pure _
  · split
    · exact hrefuse _
    · exact .pure _

/-! ## A call that waits -/

/-- What is left of a `sys_open` that waits: it looks the path up, it is in `file_create`, or
`file_open` has chosen the entry `g` and waits for the inode. -/
inductive OpenStage where
  | lookup (x : Prog Kernel OpenPlan)
  | create (x : Prog Kernel ℤ)
  | chosen (g : ℕ) (x : Prog Kernel ℕ)

/-- The rest of the call. -/
def OpenStage.rest (t : Transfer) (pathname : CString) (flags : ℕ) : OpenStage → Prog Kernel ℤ
  | .lookup x => x >>= openRest t pathname flags
  | .create x => x
  | .chosen g x => x >>= fileOpenFill g flags

/-- From `k` the call runs until it waits again or returns. -/
inductive OpenTurn (t : Transfer) (pathname : CString) (flags : ℕ) :
    OpenStage → Kernel → OpenStage ⊕ ℤ → Kernel → Prop
  | lookup {x y : Prog Kernel OpenPlan} {k k' : Kernel} : Turn x k (.blocked y) k' →
      OpenTurn t pathname flags (.lookup x) k (.inl (.lookup y)) k'
  | refuse {x : Prog Kernel OpenPlan} {k k' : Kernel} : Turn x k (.done .refuse) k' →
      OpenTurn t pathname flags (.lookup x) k (.inr (-1)) k'
  | create {x : Prog Kernel OpenPlan} {k k₁ k' : Kernel} {parentDir : ℕ} {r : OpenStage ⊕ ℤ} :
      Turn x k (.done (.create parentDir)) k₁ →
      OpenTurn t pathname flags (.create (openRest t pathname flags (.create parentDir))) k₁ r k' →
      OpenTurn t pathname flags (.lookup x) k r k'
  | full {x : Prog Kernel OpenPlan} {k k₁ k' : Kernel} {inodeNo : ℕ} :
      Turn x k (.done (.open inodeNo)) k₁ → getFreeSlotInGlobal.Returns k₁ none k' →
      OpenTurn t pathname flags (.lookup x) k (.inr (-1)) k'
  | choose {x : Prog Kernel OpenPlan} {k k₁ k₂ k' : Kernel} {inodeNo g : ℕ} {r : OpenStage ⊕ ℤ} :
      Turn x k (.done (.open inodeNo)) k₁ → getFreeSlotInGlobal.Returns k₁ (some g) k₂ →
      OpenTurn t pathname flags (.chosen g (inodeOpen t inodeNo)) k₂ r k' →
      OpenTurn t pathname flags (.lookup x) k r k'
  | sync {x y : Prog Kernel ℤ} {k k' : Kernel} : Turn x k (.blocked y) k' →
      OpenTurn t pathname flags (.create x) k (.inl (.create y)) k'
  | created {x : Prog Kernel ℤ} {k k' : Kernel} {ret : ℤ} : Turn x k (.done ret) k' →
      OpenTurn t pathname flags (.create x) k (.inr ret) k'
  | load {g : ℕ} {x y : Prog Kernel ℕ} {k k' : Kernel} : Turn x k (.blocked y) k' →
      OpenTurn t pathname flags (.chosen g x) k (.inl (.chosen g y)) k'
  | fill {g a : ℕ} {x : Prog Kernel ℕ} {k k₁ k' : Kernel} {ret : ℤ} : Turn x k (.done a) k₁ →
      (fileOpenFill g flags a).Returns k₁ ret k' →
      OpenTurn t pathname flags (.chosen g x) k (.inr ret) k'

theorem pcbFdInstall_unbroken (g : ℕ) (k : Kernel) : (pcbFdInstall g).unbroken k := by
  rw [pcbFdInstall, unbroken_read_bind]
  split
  · trivial
  · trivial

theorem fileOpenFill_unbroken (g flag a : ℕ) (k : Kernel) : (fileOpenFill g flag a).unbroken k := by
  change Prog.unbroken (if wantsWrite flag then _ else pcbFdInstall g) _
  split
  · change Prog.unbroken (if _ then _ else _) _
    split
    · trivial
    · exact pcbFdInstall_unbroken g _
  · exact pcbFdInstall_unbroken g _

/-- What the scheduler sees of a turn. -/
def OpenStage.progress (t : Transfer) (pathname : CString) (flags : ℕ) :
    OpenStage ⊕ ℤ → Progress Kernel ℤ
  | .inl s => .blocked (s.rest t pathname flags)
  | .inr fd => .done fd

theorem turn_iff_chosen {t : Transfer} {pathname : CString} {flags g : ℕ} {x : Prog Kernel ℕ}
    {k k' : Kernel} {r : Progress Kernel ℤ} :
    Turn (x >>= fileOpenFill g flags) k r k' ↔ ∃ r',
      OpenTurn t pathname flags (.chosen g x) k r' k' ∧ r = OpenStage.progress t pathname flags r' := by
  rw [turn_bind]
  constructor
  · rintro (⟨y, hy, rfl⟩ | ⟨a, k₁, ha, hfill⟩)
    · exact ⟨_, .load hy, rfl⟩
    · obtain ⟨ret, hret, rfl⟩ := (turn_iff_returns (fileOpenFill_unbroken g flags a k₁)).mp hfill
      exact ⟨_, .fill ha hret, rfl⟩
  · rintro ⟨r', h, rfl⟩
    cases h with
    | load hy => exact Or.inl ⟨_, hy, rfl⟩
    | fill ha hret =>
        exact Or.inr ⟨_, _, ha,
          (turn_iff_returns (fileOpenFill_unbroken g flags _ _)).mpr ⟨_, hret, rfl⟩⟩

theorem turn_iff_create {t : Transfer} {pathname : CString} {flags : ℕ} {x : Prog Kernel ℤ}
    {k k' : Kernel} {r : Progress Kernel ℤ} :
    Turn x k r k' ↔ ∃ r',
      OpenTurn t pathname flags (.create x) k r' k' ∧ r = OpenStage.progress t pathname flags r' := by
  constructor
  · intro h
    cases r with
    | done ret => exact ⟨_, .created h, rfl⟩
    | blocked y => exact ⟨_, .sync h, rfl⟩
  · rintro ⟨r', h, rfl⟩
    cases h with
    | sync hy => exact hy
    | created hret => exact hret

/-- `file_open` chooses its entry in its first turn. -/
theorem turn_fileOpen_iff {t : Transfer} {inodeNo flags : ℕ} {k k' : Kernel} {r : Progress Kernel ℤ} :
    Turn (fileOpen t inodeNo flags) k r k' ↔
      (getFreeSlotInGlobal.Returns k none k' ∧ r = .done (-1)) ∨
      ∃ g k₁, getFreeSlotInGlobal.Returns k (some g) k₁ ∧
        Turn (inodeOpen t inodeNo >>= fileOpenFill g flags) k₁ r k' := by
  have hslot : ∀ r k₁, Turn getFreeSlotInGlobal k r k₁ ↔
      ∃ slot, getFreeSlotInGlobal.Returns k slot k₁ ∧ r = .done slot :=
    fun _ _ => turn_iff_returns (show getFreeSlotInGlobal.unbroken k from trivial)
  rw [fileOpen_eq, turn_bind]
  constructor
  · rintro (⟨y, hy, -⟩ | ⟨slot, k₁, hk₁, hrest⟩)
    · obtain ⟨_, -, hr⟩ := (hslot _ _).mp hy
      cases hr
    · obtain ⟨_, hret, hr⟩ := (hslot _ _).mp hk₁
      cases hr
      cases slot with
      | none =>
          obtain ⟨rfl, rfl⟩ := hrest
          exact Or.inl ⟨hret, rfl⟩
      | some g => exact Or.inr ⟨g, k₁, hret, hrest⟩
  · rintro (⟨hret, rfl⟩ | ⟨g, k₁, hret, hrest⟩)
    · exact Or.inr ⟨_, _, (hslot _ _).mpr ⟨_, hret, rfl⟩, ⟨rfl, rfl⟩⟩
    · exact Or.inr ⟨_, _, (hslot _ _).mpr ⟨_, hret, rfl⟩, hrest⟩

/-- The turns of a call are those of `sysOpen` and of what is left of it. -/
theorem turn_iff_openTurn {t : Transfer} {pathname : CString} {flags : ℕ} {s : OpenStage}
    {k k' : Kernel} {r : Progress Kernel ℤ} :
    Turn (s.rest t pathname flags) k r k' ↔
      ∃ r', OpenTurn t pathname flags s k r' k' ∧ r = OpenStage.progress t pathname flags r' := by
  cases s with
  | create x => exact turn_iff_create
  | chosen g x => exact turn_iff_chosen
  | lookup x =>
      change Turn (x >>= openRest t pathname flags) k r k' ↔ _
      rw [turn_bind]
      constructor
      · rintro (⟨y, hy, rfl⟩ | ⟨plan, k₁, hplan, hrest⟩)
        · exact ⟨_, .lookup hy, rfl⟩
        · cases plan with
          | refuse =>
              obtain ⟨rfl, rfl⟩ := hrest
              exact ⟨_, .refuse hplan, rfl⟩
          | create parentDir =>
              obtain ⟨r', h, hr⟩ := turn_iff_create.mp hrest
              exact ⟨r', .create hplan h, hr⟩
          | «open» inodeNo =>
              obtain ⟨hret, rfl⟩ | ⟨g, k₂, hret, hrest⟩ := turn_fileOpen_iff.mp hrest
              · exact ⟨_, .full hplan hret, rfl⟩
              · obtain ⟨r', h, hr⟩ := turn_iff_chosen.mp hrest
                exact ⟨r', .choose hplan hret h, hr⟩
      · rintro ⟨r', h, rfl⟩
        cases h with
        | lookup hy => exact Or.inl ⟨_, hy, rfl⟩
        | refuse hplan => exact Or.inr ⟨_, _, hplan, ⟨rfl, rfl⟩⟩
        | create hplan h => exact Or.inr ⟨_, _, hplan, turn_iff_create.mpr ⟨r', h, rfl⟩⟩
        | full hplan hret =>
            exact Or.inr ⟨_, _, hplan, turn_fileOpen_iff.mpr (Or.inl ⟨hret, rfl⟩)⟩
        | choose hplan hret h =>
            exact Or.inr ⟨_, _, hplan,
              turn_fileOpen_iff.mpr (Or.inr ⟨_, _, hret, turn_iff_chosen.mpr ⟨r', h, rfl⟩⟩)⟩

/-- The first turn of a call. -/
theorem turn_sysOpen_iff {t : Transfer} {pathname : CString} {flags : ℕ} {k k' : Kernel}
    {r : Progress Kernel ℤ} :
    Turn (sysOpen t pathname flags) k r k' ↔
      ∃ r', OpenTurn t pathname flags (.lookup (openLookup t pathname flags)) k r' k' ∧
        r = OpenStage.progress t pathname flags r' := by
  rw [sysOpen_eq_openLookup]
  exact turn_iff_openTurn (s := .lookup (openLookup t pathname flags))

/-- A call whose flags are not valid is refused at once. -/
theorem openLookup_flags {t : Transfer} {pathname : CString} {flags : ℕ} {k k' : Kernel}
    {r : Progress Kernel OpenPlan} (h : Turn (openLookup t pathname flags) k r k') :
    r = .done .refuse ∨ flags ≤ 7 := by
  obtain ⟨before, h⟩ := h
  change Turn (if pathname.val.getLastD (UInt8.ofNat before) = slash then _ else _) k r k' at h
  split at h
  · exact Or.inl h.1
  · rw [turn_bind] at h
    unfold Prog.assert at h
    by_cases hflags : flags ≤ 7
    · exact Or.inr hflags
    · rw [decide_eq_false hflags] at h
      obtain ⟨y, hy, -⟩ | ⟨_, _, hy, -⟩ := h
      · exact hy.elim
      · exact hy.elim

/-- Without `O_CREAT` the lookup does not lead to `file_create`. -/
theorem openLookup_opens {t : Transfer} {pathname : CString} {flags : ℕ} (hflags : flags &&& oCreat = 0) :
    (openLookup t pathname flags).yields fun plan => ∀ parentDir, plan ≠ .create parentDir := by
  have hrefuse : ∀ dir, (do dirClose dir; return .refuse : Prog Kernel OpenPlan).yields
      fun plan => ∀ parentDir, plan ≠ .create parentDir :=
    fun dir => yields_bind fun _ => fun _ h => by cases h
  unfold openLookup
  refine yields_bind fun before => ?_
  split
  · exact fun _ h => by cases h
  refine yields_bind fun _ => yields_bind fun depth => yields_bind fun ⟨inodeNo, record⟩ => ?_
  dsimp only
  split
  · exact hrefuse _
  refine yields_bind fun searched => ?_
  split
  · exact hrefuse _
  split
  · exact hrefuse _
  · rw [if_neg (not_not_intro hflags)]
    exact fun _ h => by cases h

/-! ## Runs of a call -/

/-- A turn of a call that has chosen the entry `g`, with every allocation successful. -/
def chosenExec (flags g : ℕ) (x : Prog Kernel ℕ) (k : Kernel) : Option ((OpenStage ⊕ ℤ) × Kernel) :=
  match x.turn [] k with
  | some (.blocked y, k') => some (.inl (.chosen g y), k')
  | some (.done a, k₁) => ((fileOpenFill g flags a).exec [] k₁).map fun (fd, k') => (.inr fd, k')
  | none => none

/-- A turn of a call that does not come to `file_create`. -/
def OpenStage.exec (t : Transfer) (flags : ℕ) (k : Kernel) :
    OpenStage → Option ((OpenStage ⊕ ℤ) × Kernel)
  | .create _ => none
  | .chosen g x => chosenExec flags g x k
  | .lookup x =>
      match x.turn [] k with
      | some (.blocked y, k') => some (.inl (.lookup y), k')
      | some (.done .refuse, k') => some (.inr (-1), k')
      | some (.done (.open inodeNo), k₁) =>
          match getFreeSlotInGlobal.exec [] k₁ with
          | some (some g, k₂) => chosenExec flags g (inodeOpen t inodeNo) k₂
          | some (none, k') => some (.inr (-1), k')
          | none => none
      | _ => none

theorem chosen_of_exec {t : Transfer} {pathname : CString} {flags g : ℕ} {x : Prog Kernel ℕ}
    {k k' : Kernel} {r : OpenStage ⊕ ℤ} (h : chosenExec flags g x k = some (r, k')) :
    OpenTurn t pathname flags (.chosen g x) k r k' := by
  unfold chosenExec at h
  split at h
  next y k₁ hturn =>
    cases h
    exact .load (turn_sound hturn)
  next a k₁ hturn =>
    obtain ⟨⟨fd, k₂⟩, hfill, hr⟩ := Option.map_eq_some_iff.mp h
    cases hr
    exact .fill (turn_sound hturn) (returns_of_exec hfill)
  next => cases h

theorem OpenStage.turn_of_exec {t : Transfer} {pathname : CString} {flags : ℕ} {s : OpenStage}
    {k k' : Kernel} {r : OpenStage ⊕ ℤ} (h : s.exec t flags k = some (r, k')) :
    OpenTurn t pathname flags s k r k' := by
  unfold OpenStage.exec at h
  split at h
  next => cases h
  next g x => exact chosen_of_exec h
  next x =>
    split at h
    next y k₁ hturn =>
      cases h
      exact .lookup (turn_sound hturn)
    next k₁ hturn =>
      cases h
      exact .refuse (turn_sound hturn)
    next inodeNo k₁ hturn =>
      split at h
      next g k₂ hslot => exact .choose (turn_sound hturn) (returns_of_exec hslot) (chosen_of_exec h)
      next k₂ hslot =>
        cases h
        exact .full (turn_sound hturn) (returns_of_exec hslot)
      next => cases h
    next => cases h

end BochsOs
