import BochsOs.Fs.Handles
import BochsOs.Fs.OpenFiles
import BochsOs.Fs.OpenTurns
import BochsOs.Userprog.SameProcs

/-!
# Descriptors of several processes

Processes that open, close, fork and exit in any order; while one of them waits for the disk in
`sys_open` the others run.  A descriptor is an index of `file_table`, and `fork` copies the indices:
parent and child share the entries.  A `file_close` by one of them clears the entry for both
(`close_breaks_parent`), so a descriptor keeps its inode only as long as nobody closes an entry that
another process still uses.  `file_open` waits for the inode between choosing an entry and filling it,
and does not look again whether the entry is free; `file_create` leaves the new inode in the heap of
the process that calls it.  Where nobody closes a shared entry, no entry is filled while a call waits
that has chosen it, and no call creates a file, every descriptor keeps its inode
(`descriptors_keep_inode`).
-/

namespace BochsOs

open ByteMemory Suspend Suspend.Prog Runs

/-! ## The system -/

/-- A call of `sys_open` that waits. -/
structure OpenCall where
  pathname : CString
  flags : ℕ
  stage : OpenStage

/-- `sys_open` before its first turn. -/
def OpenCall.start (t : Transfer) (pathname : CString) (flags : ℕ) : OpenCall :=
  ⟨pathname, flags, .lookup (openLookup t pathname flags)⟩

/-- The kernel, the calls that wait, and, for each process and descriptor, the inode on which the
descriptor was opened; `none` if the process does not hold it. -/
structure FdMachine where
  kernel : Kernel
  opened : ℕ → ℕ → Option ℕ
  calls : ℕ → Option OpenCall

/-- A process makes a call, or goes on with a `sys_open` that waits. -/
inductive FdCall where
  | open (pathname : CString) (flags : ℕ)
  | resume
  | close (fd : ℤ)
  | fork
  | exit (status : ℤ)

/-- The inode of descriptor `fd` of process `p`. -/
def Kernel.fdInodeOf (k : Kernel) (p fd : ℕ) : Option ℕ :=
  (k.fileTable ((k.tasks p).fdTable fd).toNat).fdInode

/-- Process `p` now holds `fd`, opened on `inode`; `none` if it gave `fd` up. -/
def setHeld (opened : ℕ → ℕ → Option ℕ) (p fd : ℕ) (inode : Option ℕ) : ℕ → ℕ → Option ℕ :=
  Function.update opened p (Function.update (opened p) fd inode)

/-- The machine in which `p` runs. -/
def FdMachine.at (m : FdMachine) (p : ℕ) : Kernel := { m.kernel with running := p }

/-- The machine after a turn of the `sys_open` of `p`. -/
def FdMachine.afterOpen (m : FdMachine) (p : ℕ) (call : OpenCall) (k : Kernel) :
    OpenStage ⊕ ℤ → FdMachine
  | .inl stage => ⟨k, m.opened, Function.update m.calls p (some { call with stage })⟩
  | .inr fd =>
      ⟨k, if 0 ≤ fd then setHeld m.opened p fd.toNat (k.fdInodeOf p fd.toNat) else m.opened,
        Function.update m.calls p none⟩

/-- The `sys_open` of `p` runs until it waits or returns. -/
def OpenStep (t : Transfer) (m : FdMachine) (p : ℕ) (call : OpenCall) (m' : FdMachine) : Prop :=
  ∃ r k, OpenTurn t call.pathname call.flags call.stage (m.at p) r k ∧ m' = m.afterOpen p call k r

/-- The user process `p` runs: a turn of a `sys_open`, or another call up to its end. -/
def FdStep (t : Transfer) (m : FdMachine) (call : ℕ × FdCall) (m' : FdMachine) : Prop :=
  let p := call.1
  p ∈ m.kernel.threadAllList ∧ (m.kernel.tasks p).isProcess = true ∧
    match call.2, m.calls p with
    | .open pathname flags, none => OpenStep t m p (.start t pathname flags) m'
    | .resume, some waiting => OpenStep t m p waiting m'
    | .close fd, none => ∃ ret k, (sysClose fd).Returns (m.at p) ret k ∧
        m' = { m with kernel := k, opened := setHeld m.opened p fd.toNat none }
    | .fork, none => ∃ ret k, sysFork.Returns (m.at p) ret k ∧
        m' = { m with
          kernel := k
          opened := if 0 ≤ ret then Function.update m.opened m.kernel.nextTask (m.opened p)
            else m.opened }
    | .exit status, none => ∃ k, (sysExit status).Returns (m.at p) () k ∧
        m' = { m with kernel := k, opened := Function.update m.opened p fun _ => none }
    | _, _ => False

/-- No file is open yet, and no call waits. -/
structure FdStart (m : FdMachine) : Prop where
  held : ∀ p fd, m.opened p fd = none
  calls : ∀ p, m.calls p = none
  all : ∀ p ∈ m.kernel.threadAllList, p < m.kernel.nextTask
  fds : ∀ p ∈ m.kernel.threadAllList, ∀ fd, 3 ≤ fd → fd < maxFilesOpenPerProc →
    (m.kernel.tasks p).fdTable fd = -1

/-- Every descriptor that a process holds still stands for an entry with the inode on
which it was opened. -/
def DescriptorsValid (m : FdMachine) : Prop :=
  ∀ p fd a, 3 ≤ fd → m.opened p fd = some a →
    ∃ g < maxFileOpen, (m.kernel.tasks p).fdTable fd = g ∧ (m.kernel.fileTable g).fdInode = some a

/-- The entry of descriptor `fd` of `p` is also that of a descriptor of another process. -/
def SharedFd (k : Kernel) (opened : ℕ → ℕ → Option ℕ) (p fd : ℕ) : Prop :=
  (opened p fd).isSome ∧ ∃ q fd', q ≠ p ∧ (opened q fd').isSome ∧
    (k.tasks q).fdTable fd' = (k.tasks p).fdTable fd

/-- The next turn of the call does not come to `file_create`, and the entry that it has chosen is
still free. -/
def OpenStage.Undisturbed (k : Kernel) : OpenStage → Prop
  | .lookup x => ∀ parentDir k', ¬ Turn x k (.done (.create parentDir)) k'
  | .create _ => False
  | .chosen g _ => (k.fileTable g).fdInode = none

/-- The side condition: nobody closes a shared entry, by `close` or by `exit`, and every `sys_open` is
undisturbed. -/
def Careful (t : Transfer) (m : FdMachine) (call : ℕ × FdCall) : Prop :=
  match call.2 with
  | .open pathname flags => (OpenCall.start t pathname flags).stage.Undisturbed (m.at call.1)
  | .resume => ∀ waiting, m.calls call.1 = some waiting → waiting.stage.Undisturbed (m.at call.1)
  | .close fd => ¬ SharedFd m.kernel m.opened call.1 fd.toNat
  | .exit _ => ∀ fd, ¬ SharedFd m.kernel m.opened call.1 fd
  | .fork => True

/-! ## The invariant -/

/-- What holds between the calls: a descriptor that is held has an entry of its own
within the process, and one that is not held is free. -/
structure FdOk (k : Kernel) (opened : ℕ → ℕ → Option ℕ) : Prop where
  held : ∀ p fd a, opened p fd = some a → p ∈ k.threadAllList ∧ 3 ≤ fd ∧ fd < maxFilesOpenPerProc ∧
    ∃ g < maxFileOpen, (k.tasks p).fdTable fd = g ∧ (k.fileTable g).fdInode = some a ∧
      (k.fileTable g).fdFlag ≠ pipeFlag
  free : ∀ p ∈ k.threadAllList, ∀ fd, 3 ≤ fd → fd < maxFilesOpenPerProc → opened p fd = none →
    (k.tasks p).fdTable fd = -1
  distinct : ∀ p fd fd', (opened p fd).isSome → (opened p fd').isSome →
    (k.tasks p).fdTable fd = (k.tasks p).fdTable fd' → fd = fd'
  all : ∀ p ∈ k.threadAllList, p < k.nextTask

theorem FdOk.valid {m : FdMachine} (h : FdOk m.kernel m.opened) : DescriptorsValid m := by
  intro p fd a _ ha
  obtain ⟨-, -, -, g, hg, htable, hinode, -⟩ := h.held p fd a ha
  exact ⟨g, hg, htable, hinode⟩

theorem FdStart.ok {m : FdMachine} (h : FdStart m) : FdOk m.kernel m.opened where
  held p fd a ha := by
    rw [h.held p fd] at ha
    cases ha
  free p hp fd hlow hhigh _ := h.fds p hp fd hlow hhigh
  distinct p fd fd' hfd := by
    rw [h.held p fd] at hfd
    cases hfd
  all := h.all

/-- From `k` to `k'` no descriptor changes. -/
structure KeepsFds (k k' : Kernel) : Prop where
  inode : ∀ g, (k'.fileTable g).fdInode = (k.fileTable g).fdInode
  flag : ∀ g, (k'.fileTable g).fdFlag = (k.fileTable g).fdFlag
  table : ∀ p, (k'.tasks p).fdTable = (k.tasks p).fdTable
  all : k'.threadAllList = k.threadAllList
  next : k'.nextTask = k.nextTask

instance : IsPreorder Kernel KeepsFds where
  refl k := by constructor <;> simp
  trans k₁ k₂ k₃ h h' :=
    { inode := fun g => (h'.inode g).trans (h.inode g)
      flag := fun g => (h'.flag g).trans (h.flag g)
      table := fun p => (h'.table p).trans (h.table p)
      all := h'.all.trans h.all
      next := h'.next.trans h.next }

theorem FdOk.keeps {k k' : Kernel} {opened : ℕ → ℕ → Option ℕ} (hk : FdOk k opened)
    (h : KeepsFds k k') : FdOk k' opened where
  held p fd a ha := by
    obtain ⟨hp, hlow, hhigh, g, hg, htable, hinode, hflag⟩ := hk.held p fd a ha
    exact ⟨h.all ▸ hp, hlow, hhigh, g, hg, by rw [h.table, htable], by rw [h.inode, hinode],
      by rwa [h.flag]⟩
  free p hp fd hlow hhigh hnone := by
    rw [h.table]
    exact hk.free p (h.all ▸ hp) fd hlow hhigh hnone
  distinct p fd fd' hfd hfd' heq := by
    rw [h.table] at heq
    exact hk.distinct p fd fd' hfd hfd' heq
  all p hp := by
    rw [h.next]
    exact hk.all p (h.all ▸ hp)

/-! ## Opening -/

/-- What `sys_open` does to the descriptors: it fills at most one free entry, and what it
returns is a free descriptor that now stands for that entry. -/
structure Installs (k : Kernel) (flags : ℕ) (ret : ℤ) (k' : Kernel) : Prop where
  all : k'.threadAllList = k.threadAllList
  next : k'.nextTask = k.nextTask
  kept : ∀ g, (k.fileTable g).fdInode ≠ none → k'.fileTable g = k.fileTable g
  result : ret = -1 ∧ k'.tasks = k.tasks ∨
    ∃ fd g a, 3 ≤ fd ∧ fd < maxFilesOpenPerProc ∧ g < maxFileOpen ∧ ret = (fd : ℕ) ∧
      k.cur.fdTable fd = -1 ∧ (k.fileTable g).fdInode = none ∧ k'.fileTable g = ⟨0, flags, some a⟩ ∧
      k'.tasks = Function.update k.tasks k.running
        { k.cur with fdTable := Function.update k.cur.fdTable fd g }

theorem KeepsOpen.entries {k k' : Kernel} (h : KeepsOpen k k') : KeepsEntries k k' :=
  ⟨h.files, h.tasks, h.running, h.all, h.nextTask⟩

theorem KeepsEntries.installs_fail {k k' : Kernel} {flags : ℕ} (h : KeepsEntries k k') :
    Installs k flags (-1) k' where
  all := h.all
  next := h.next
  kept g _ := congrFun h.files g
  result := Or.inl ⟨rfl, h.tasks⟩

theorem Installs.keeps {k k₁ k' : Kernel} {flags : ℕ} {ret : ℤ} (h : Installs k flags ret k₁)
    (h' : KeepsEntries k₁ k') : Installs k flags ret k' where
  all := h'.all.trans h.all
  next := h'.next.trans h.next
  kept g hg := (congrFun h'.files g).trans (h.kept g hg)
  result := by rw [h'.tasks, h'.files]; exact h.result

theorem KeepsEntries.installs {k k₁ k' : Kernel} {flags : ℕ} {ret : ℤ} (h : KeepsEntries k k₁)
    (h' : Installs k₁ flags ret k') : Installs k flags ret k' where
  all := h'.all.trans h.all
  next := h'.next.trans h.next
  kept g hg := by
    have := h'.kept g
    rw [h.files] at this
    exact this hg
  result := by
    have := h'.result
    simp only [Kernel.cur, h.tasks, h.files, h.running] at this
    exact this

/-- The end of `file_open` and `file_create`: the entry `g` is filled, and the descriptor
is installed. -/
theorem pcbFdInstall_installs {k k₁ : Kernel} {flags g a : ℕ} (hg : g < maxFileOpen)
    (hfree : (k.fileTable g).fdInode = none)
    (h : KeepsEntries (k.setFile g ⟨0, flags, some a⟩) k₁) :
    (pcbFdInstall g).wp (Installs k flags) k₁ := by
  have hkept : ∀ g', (k.fileTable g').fdInode ≠ none → k₁.fileTable g' = k.fileTable g' := by
    intro g' hg'
    have hne : g' ≠ g := by
      rintro rfl
      exact hg' hfree
    rw [h.files]
    exact Function.update_of_ne hne _ _
  rw [pcbFdInstall, wp_bind, wp_read]
  split
  next localFd hfind =>
    have hmem := List.mem_range'_1.mp (List.mem_of_find?_eq_some hfind)
    have hfd := List.find?_some hfind
    unfold maxFilesOpenPerProc at hmem
    have hcur : k₁.cur = k.cur := by
      unfold Kernel.cur
      rw [h.tasks, h.running]
      rfl
    refine ⟨h.all, h.next, hkept, Or.inr ⟨localFd, g, a, hmem.1, ?_, hg, rfl, ?_, hfree, ?_, ?_⟩⟩
    · unfold maxFilesOpenPerProc
      omega
    · rw [← hcur]
      simpa using hfd
    · change k₁.fileTable g = _
      rw [h.files]
      exact Function.update_self _ _ _
    · change Function.update k₁.tasks k₁.running _ = _
      rw [hcur, h.tasks, h.running]
      rfl
  next => exact ⟨h.all, h.next, hkept, Or.inl ⟨rfl, h.tasks⟩⟩

theorem fileOpenFill_installs {k : Kernel} {flags g a : ℕ} (hg : g < maxFileOpen)
    (hfree : (k.fileTable g).fdInode = none) :
    (fileOpenFill g flags a).wp (Installs k flags) k := by
  rw [fileOpenFill, wp_bind, wp_modify]
  split
  · rw [wp_bind, wp_read]
    split
    · refine ⟨rfl, rfl, fun g' hg' => Function.update_of_ne ?_ _ _, Or.inl ⟨rfl, rfl⟩⟩
      rintro rfl
      exact hg' hfree
    · rw [wp_bind, wp_write]
      exact pcbFdInstall_installs hg hfree (a := a) ⟨rfl, rfl, rfl, rfl, rfl⟩
  · exact pcbFdInstall_installs hg hfree (refl _)

theorem fileOpen_installs {t : Transfer} {k : Kernel} {inodeNo flags : ℕ} :
    (fileOpen t inodeNo flags).wp (Installs k flags) k := by
  rw [fileOpen_eq, wp_bind]
  refine getFreeSlotInGlobal_spec ?_ fun g _ hg hfree => ?_
  · exact (refl k : KeepsEntries k k).installs_fail
  refine (inodeOpen_steady t inodeNo).wp_then (refl k : KeepsEntries k k) fun a k₁ hkeep => ?_
  refine wp_mono (fileOpenFill_installs hg (by rw [hkeep.files, hfree])) fun _ _ h => hkeep.installs h

theorem fileCreate_installs {t : Transfer} {k : Kernel} {parentDir flags : ℕ}
    {filename : List UInt8} : (fileCreate t parentDir filename flags).wp (Installs k flags) k := by
  unfold fileCreate
  refine sysMalloc_same.of_eq.wp_then (refl k : KeepsOpen k k) fun ok k₁ hkeep₁ => ?_
  split
  · exact hkeep₁.entries.installs_fail
  refine inodeBitmapAlloc_within.wp_then hkeep₁ fun found k₁ hkeep₁ => ?_
  split
  · exact hkeep₁.entries.installs_fail
  next inodeNo =>
    have hfree : ∀ k₁ k₂, Installs k₁ flags (-1) k₂ →
        (do setInodeBit inodeNo false; return -1 : Prog Kernel ℤ).wp (Installs k₁ flags) k₂ := by
      intro k₁ k₂ h
      exact (setInodeBit_within _ _).wp_then (refl k₂ : KeepsOpen k₂ k₂) fun _ _ hkeep =>
        h.keeps hkeep.entries
    refine sysMalloc_same.of_eq.wp_then hkeep₁ fun ok k₁ hkeep₁ => ?_
    split
    · exact hfree k k₁ hkeep₁.entries.installs_fail
    rw [wp_bind, wp_read, wp_bind, wp_write, wp_bind]
    have hkeep₂ := hkeep₁.trans (keepsOpen_createInode k₁ (inodeInit inodeNo))
    set k₂ := { k₁.setInode k₁.nextInode (inodeInit inodeNo) with nextInode := k₁.nextInode + 1 }
    refine getFreeSlotInGlobal_spec (hfree k k₂ hkeep₂.entries.installs_fail) fun g _ hg hnone => ?_
    refine wp_mono ?_ fun ret k' (h : Installs k₂ flags ret k') => hkeep₂.entries.installs h
    have hlast : k₁.nextInode < (k₂.setFile g ⟨0, flags, some k₁.nextInode⟩).nextInode :=
      Nat.lt_succ_self _
    rw [wp_bind, wp_modify]
    set k₃ := k₂.setFile g ⟨0, flags, some k₁.nextInode⟩
    refine (createDirEntry_same _ _ _).of_eq.wp_then (refl k₃ : KeepsOpen k₃ k₃) fun e k₄ hkeep₄ => ?_
    refine (syncDirEntry_within _ _ _).wp_then hkeep₄ fun synced k₄ hkeep₄ => ?_
    split
    · refine Within.read.wp_then hkeep₄ fun _ k₄ hkeep₄ => ?_
      refine (inodeSync_within _ _ _).wp_then hkeep₄ fun _ k₄ hkeep₄ => ?_
      refine Within.read.wp_then hkeep₄ fun _ k₄ hkeep₄ => ?_
      refine (inodeSync_within _ _ _).wp_then hkeep₄ fun _ k₄ hkeep₄ => ?_
      refine (bitmapSync_within _ _ _).wp_then hkeep₄ fun _ k₄ hkeep₄ => ?_
      rw [wp_bind, wp_modify]
      refine pcbFdInstall_installs hg hnone (a := k₁.nextInode) ?_
      set inode := { k₄.inodes k₁.nextInode with iOpenCnts := 1 }
      have hpush : KeepsOpen k₄ { k₄.setInode k₁.nextInode inode with
          openInodes := k₁.nextInode :: k₄.openInodes } :=
        keepsOpen_push k₄ (hlast.trans_le hkeep₄.next) rfl
      exact (hkeep₄.trans hpush).entries
    · rw [wp_bind, wp_modify]
      refine hfree k₂ _ ⟨hkeep₄.all, hkeep₄.nextTask, fun g' hg' => ?_, Or.inl ⟨rfl, hkeep₄.tasks⟩⟩
      have hne : g' ≠ g := by
        rintro rfl
        exact hg' hnone
      change Function.update k₄.fileTable g _ g' = _
      rw [Function.update_of_ne hne, hkeep₄.files]
      exact Function.update_of_ne hne _ _

theorem sysOpen_installs {t : Transfer} {k : Kernel} {pathname : CString} {flags : ℕ} :
    (sysOpen t pathname flags).wp
      (fun ret k' => Installs k flags ret k' ∧ (ret = -1 ∨ flags ≤ 7)) k := by
  unfold sysOpen
  rw [wp_bind, wp_arbitrary]
  intro before
  have hclose : ∀ (record : PathSearchRecord) (ret : ℤ) (k' : Kernel), Installs k flags ret k' →
      flags ≤ 7 → (do dirClose record.parentDir; return ret : Prog Kernel ℤ).wp
        (fun ret k' => Installs k flags ret k' ∧ (ret = -1 ∨ flags ≤ 7)) k' := by
    intro record ret k' h hflags
    exact (dirClose_within _).wp_then (refl k' : KeepsOpen k' k') fun _ _ hkeep =>
      ⟨h.keeps hkeep.entries, Or.inr hflags⟩
  split
  · exact ⟨(refl k : KeepsEntries k k).installs_fail, Or.inl rfl⟩
  rw [wp_bind, wp_assert]
  intro hflags
  have hflags : flags ≤ 7 := by simpa using hflags
  refine (pathDepthCnt_same _).of_eq.wp_then (refl k : KeepsOpen k k) fun depth k₁ hkeep => ?_
  refine (searchFile_within _ _).wp_then hkeep fun found k₁ hkeep => ?_
  dsimp only
  split
  · exact hclose _ _ k₁ hkeep.entries.installs_fail hflags
  refine (pathDepthCnt_same _).of_eq.wp_then hkeep fun searched k₁ hkeep => ?_
  split
  · exact hclose _ _ k₁ hkeep.entries.installs_fail hflags
  split
  · split
    · exact hclose _ _ k₁ hkeep.entries.installs_fail hflags
    · rw [wp_bind]
      exact wp_mono fileCreate_installs fun fd k₂ h => hclose _ fd k₂ (hkeep.entries.installs h) hflags
  · split
    · exact hclose _ _ k₁ hkeep.entries.installs_fail hflags
    · exact wp_mono fileOpen_installs fun fd k₂ h => ⟨hkeep.entries.installs h, Or.inr hflags⟩

theorem setHeld_self (opened : ℕ → ℕ → Option ℕ) (p fd : ℕ) (inode : Option ℕ) :
    setHeld opened p fd inode p fd = inode := by
  simp [setHeld]

theorem setHeld_of_ne (opened : ℕ → ℕ → Option ℕ) {p fd q fd' : ℕ} (inode : Option ℕ)
    (h : q ≠ p ∨ fd' ≠ fd) : setHeld opened p fd inode q fd' = opened q fd' := by
  unfold setHeld
  by_cases hq : q = p
  · subst hq
    rw [Function.update_self, Function.update_of_ne (h.resolve_left fun hne => hne rfl)]
  · rw [Function.update_of_ne hq]

/-- One descriptor of one process changes. -/
structure ChangesFd (k k' : Kernel) (opened : ℕ → ℕ → Option ℕ) (p fd : ℕ) : Prop where
  all : k'.threadAllList = k.threadAllList
  next : k'.nextTask = k.nextTask
  table : ∀ q fd', (q ≠ p ∨ fd' ≠ fd) → (k'.tasks q).fdTable fd' = (k.tasks q).fdTable fd'
  /-- The entries of the other descriptors stay as they are. -/
  entry : ∀ q fd' g, (q ≠ p ∨ fd' ≠ fd) → (opened q fd').isSome →
    (k.tasks q).fdTable fd' = (g : ℕ) → k'.fileTable g = k.fileTable g

section ChangesFd

variable {k k' : Kernel} {opened : ℕ → ℕ → Option ℕ} {p fd : ℕ}

theorem ChangesFd.held (h : ChangesFd k k' opened p fd) (hk : FdOk k opened) {q fd' a : ℕ}
    (hne : q ≠ p ∨ fd' ≠ fd) (ha : opened q fd' = some a) :
    q ∈ k'.threadAllList ∧ 3 ≤ fd' ∧ fd' < maxFilesOpenPerProc ∧ ∃ g < maxFileOpen,
      (k'.tasks q).fdTable fd' = g ∧ (k'.fileTable g).fdInode = some a ∧
        (k'.fileTable g).fdFlag ≠ pipeFlag := by
  obtain ⟨hq, hlow, hhigh, g, hg, htable, hinode, hflag⟩ := hk.held q fd' a ha
  have hsome : (opened q fd').isSome := by rw [ha]; rfl
  rw [h.all, h.table q fd' hne]
  refine ⟨hq, hlow, hhigh, g, hg, htable, ?_⟩
  rw [h.entry q fd' g hne hsome htable]
  exact ⟨hinode, hflag⟩

/-- The descriptor is given up. -/
theorem ChangesFd.drop (h : ChangesFd k k' opened p fd) (hk : FdOk k opened)
    (hself : (k'.tasks p).fdTable fd = -1) : FdOk k' (setHeld opened p fd none) := by
  have hne : ∀ q fd', (setHeld opened p fd none q fd').isSome → q ≠ p ∨ fd' ≠ fd := by
    intro q fd' hsome
    by_contra hcon
    push Not at hcon
    rw [hcon.1, hcon.2, setHeld_self] at hsome
    cases hsome
  refine ⟨fun q fd' b hb => ?_, fun q hq fd' hlow hhigh hnone => ?_, fun q fd₁ fd₂ h₁ h₂ heq => ?_, ?_⟩
  · have hne' := hne q fd' (by rw [hb]; rfl)
    rw [setHeld_of_ne _ _ hne'] at hb
    exact h.held hk hne' hb
  · by_cases hnew : q = p ∧ fd' = fd
    · rw [hnew.1, hnew.2, hself]
    · have hne' : q ≠ p ∨ fd' ≠ fd := by tauto
      rw [setHeld_of_ne _ _ hne'] at hnone
      rw [h.table q fd' hne']
      exact hk.free q (h.all ▸ hq) fd' hlow hhigh hnone
  · have hne₁ := hne q fd₁ h₁
    have hne₂ := hne q fd₂ h₂
    rw [setHeld_of_ne _ _ hne₁] at h₁
    rw [setHeld_of_ne _ _ hne₂] at h₂
    rw [h.table q fd₁ hne₁, h.table q fd₂ hne₂] at heq
    exact hk.distinct q fd₁ fd₂ h₁ h₂ heq
  · rw [h.all, h.next]
    exact hk.all

/-- The descriptor now stands for an entry that no descriptor stood for. -/
theorem ChangesFd.take (h : ChangesFd k k' opened p fd) (hk : FdOk k opened) {g a : ℕ}
    (hp : p ∈ k.threadAllList) (hlow : 3 ≤ fd) (hhigh : fd < maxFilesOpenPerProc)
    (hg : g < maxFileOpen) (hself : (k'.tasks p).fdTable fd = g)
    (hinode : (k'.fileTable g).fdInode = some a) (hflag : (k'.fileTable g).fdFlag ≠ pipeFlag)
    (hunused : ∀ fd', (opened p fd').isSome → (k.tasks p).fdTable fd' ≠ g) :
    FdOk k' (setHeld opened p fd (some a)) := by
  have hsame : ∀ fd', fd' ≠ fd → (setHeld opened p fd (some a) p fd').isSome →
      (k'.tasks p).fdTable fd' ≠ g := by
    intro fd' hne hsome
    rw [setHeld_of_ne _ _ (Or.inr hne)] at hsome
    rw [h.table p fd' (Or.inr hne)]
    exact hunused fd' hsome
  refine ⟨fun q fd' b hb => ?_, fun q hq fd' hlow hhigh hnone => ?_, fun q fd₁ fd₂ h₁ h₂ heq => ?_, ?_⟩
  · by_cases hnew : q = p ∧ fd' = fd
    · obtain ⟨rfl, rfl⟩ := hnew
      rw [setHeld_self, Option.some.injEq] at hb
      subst hb
      exact ⟨h.all ▸ hp, hlow, hhigh, g, hg, hself, hinode, hflag⟩
    · have hne : q ≠ p ∨ fd' ≠ fd := by tauto
      rw [setHeld_of_ne _ _ hne] at hb
      exact h.held hk hne hb
  · have hne : q ≠ p ∨ fd' ≠ fd := by
      by_contra hcon
      push Not at hcon
      rw [hcon.1, hcon.2, setHeld_self] at hnone
      cases hnone
    rw [setHeld_of_ne _ _ hne] at hnone
    rw [h.table q fd' hne]
    exact hk.free q (h.all ▸ hq) fd' hlow hhigh hnone
  · by_cases hq : q = p
    · subst hq
      by_cases hfd₁ : fd₁ = fd
      · by_contra hne
        have hfd₂ : fd₂ ≠ fd := fun h => hne (hfd₁.trans h.symm)
        rw [hfd₁, hself] at heq
        exact hsame fd₂ hfd₂ h₂ heq.symm
      · by_cases hfd₂ : fd₂ = fd
        · rw [hfd₂, hself] at heq
          exact absurd heq (hsame fd₁ hfd₁ h₁)
        · rw [setHeld_of_ne _ _ (Or.inr hfd₁)] at h₁
          rw [setHeld_of_ne _ _ (Or.inr hfd₂)] at h₂
          rw [h.table q fd₁ (Or.inr hfd₁), h.table q fd₂ (Or.inr hfd₂)] at heq
          exact hk.distinct q fd₁ fd₂ h₁ h₂ heq
    · rw [setHeld_of_ne _ _ (Or.inl hq)] at h₁ h₂
      rw [h.table q fd₁ (Or.inl hq), h.table q fd₂ (Or.inl hq)] at heq
      exact hk.distinct q fd₁ fd₂ h₁ h₂ heq
  · rw [h.all, h.next]
    exact hk.all

end ChangesFd

/-- The entry of a descriptor that is held is not free. -/
theorem FdOk.entry_ne_none {k : Kernel} {opened : ℕ → ℕ → Option ℕ} (hk : FdOk k opened)
    {p fd g : ℕ} (hsome : (opened p fd).isSome) (htable : (k.tasks p).fdTable fd = g) :
    (k.fileTable g).fdInode ≠ none := by
  obtain ⟨a, ha⟩ := Option.isSome_iff_exists.mp hsome
  obtain ⟨-, -, -, g', -, htable', hinode, -⟩ := hk.held p fd a ha
  have hgg : g' = g := by
    rw [htable'] at htable
    exact_mod_cast htable
  rw [← hgg, hinode]
  simp

/-- Other descriptors do not change when one descriptor of the running process does. -/
theorem fdTable_update {k k' : Kernel} {fd : ℕ} {value : ℤ}
    (htasks : k'.tasks = Function.update k.tasks k.running
      { k.cur with fdTable := Function.update k.cur.fdTable fd value }) :
    (k'.tasks k.running).fdTable fd = value ∧
      ∀ q fd', (q ≠ k.running ∨ fd' ≠ fd) → (k'.tasks q).fdTable fd' = (k.tasks q).fdTable fd' := by
  rw [htasks]
  refine ⟨?_, fun q fd' hne => ?_⟩
  · rw [Function.update_self]
    exact Function.update_self _ _ _
  · by_cases hq : q = k.running
    · subst hq
      rw [Function.update_self]
      exact Function.update_of_ne (hne.resolve_left fun h => h rfl) _ _
    · rw [Function.update_of_ne hq]

theorem FdOk.open {k k' : Kernel} {opened : ℕ → ℕ → Option ℕ} {flags : ℕ} {ret : ℤ}
    (hk : FdOk k opened) (hp : k.running ∈ k.threadAllList) (h : Installs k flags ret k')
    (hflags : ret = -1 ∨ flags ≤ 7) :
    FdOk k' (if 0 ≤ ret then setHeld opened k.running ret.toNat (k'.fdInodeOf k.running ret.toNat)
      else opened) := by
  have hentry : ∀ q fd' (g : ℕ), (opened q fd').isSome → (k.tasks q).fdTable fd' = g →
      k'.fileTable g = k.fileTable g :=
    fun q fd' g hsome htable => h.kept g (hk.entry_ne_none hsome htable)
  rcases h.result with ⟨rfl, htasks⟩ | ⟨fd, g, a, hlow, hhigh, hg, rfl, hfd, hfree, hnew, htasks⟩
  · rw [if_neg (by omega)]
    -- nothing is installed: descriptor 0 is a descriptor that does not change either
    have hchange : ChangesFd k k' opened k.running 0 :=
      ⟨h.all, h.next, fun q fd' _ => by rw [htasks], fun q fd' g _ => hentry q fd' g⟩
    refine ⟨fun q fd b hb => ?_, fun q hq fd hlow hhigh hnone => ?_, fun q fd fd' hfd hfd' heq => ?_, ?_⟩
    · exact hchange.held hk (Or.inr (by have := (hk.held q fd b hb).2.1; omega)) hb
    · rw [htasks]
      exact hk.free q (h.all ▸ hq) fd hlow hhigh hnone
    · rw [htasks] at heq
      exact hk.distinct q fd fd' hfd hfd' heq
    · rw [h.all, h.next]
      exact hk.all
  · obtain ⟨hself, hold⟩ := fdTable_update htasks
    have hinodeOf : k'.fdInodeOf k.running fd = some a := by
      rw [Kernel.fdInodeOf, hself, Int.toNat_natCast, hnew]
    rw [if_pos (Int.natCast_nonneg fd), Int.toNat_natCast, hinodeOf]
    have hchange : ChangesFd k k' opened k.running fd :=
      ⟨h.all, h.next, hold, fun q fd' g _ => hentry q fd' g⟩
    refine hchange.take hk hp hlow hhigh hg hself (by rw [hnew]) ?_ fun fd' hsome heq => ?_
    · rw [hnew]
      have : flags ≤ 7 := hflags.resolve_left (by omega)
      unfold pipeFlag
      dsimp only
      omega
    · exact hk.entry_ne_none hsome heq hfree

/-! ## Closing -/

/-- Descriptor `fd` of the running process and its entry `g` are given up. -/
structure Closes (k : Kernel) (fd g : ℕ) (k' : Kernel) : Prop where
  files : k'.fileTable = Function.update k.fileTable g { k.fileTable g with fdInode := none }
  tasks : k'.tasks = Function.update k.tasks k.running
    { k.cur with fdTable := Function.update k.cur.fdTable fd (-1) }
  running : k'.running = k.running
  all : k'.threadAllList = k.threadAllList
  next : k'.nextTask = k.nextTask

theorem fileClose_spec {k : Kernel} {fd : ℕ} :
    (fileClose fd).wp (fun _ k' =>
      k'.fileTable = Function.update k.fileTable fd { k.fileTable fd with fdInode := none } ∧
      k'.tasks = k.tasks ∧ k'.running = k.running ∧ k'.threadAllList = k.threadAllList ∧
      k'.nextTask = k.nextTask) k := by
  rw [fileClose, wp_bind, wp_read]
  split
  · trivial
  next a ha =>
    rw [wp_bind, wp_write]
    refine (inodeClose_within a).wp_then (keepsOpen_setInode k a rfl) fun _ k₁ hkeep => ?_
    refine ⟨?_, hkeep.tasks, hkeep.running, hkeep.all, hkeep.nextTask⟩
    change Function.update k₁.fileTable fd _ = _
    rw [hkeep.files]

/-- `sys_close` on a descriptor that is not a pipe. -/
theorem sysClose_spec {k : Kernel} {fd : ℤ} (hfile : ∀ g : ℕ, g < maxFileOpen →
    k.cur.fdTable fd.toNat = g → (k.fileTable g).fdFlag ≠ pipeFlag) :
    (sysClose fd).wp (fun _ k' => fd ≤ 2 ∧ k' = k ∨ 2 < fd ∧ fd.toNat < maxFilesOpenPerProc ∧
      ∃ g < maxFileOpen, k.cur.fdTable fd.toNat = g ∧ Closes k fd.toNat g k') k := by
  unfold sysClose
  split
  next hle => exact Or.inl ⟨hle, rfl⟩
  next hgt =>
    rw [wp_bind]
    refine wp_mono fdLocal2global_spec ?_
    rintro g _ ⟨rfl, hlt, htable, hg⟩
    rw [wp_bind]
    refine wp_mono (wp_and isPipe_spec isPipe_entry) ?_
    rintro pipe k₁ ⟨rfl, g', hg', htable', hpipe⟩
    have hno : pipe ≠ true := fun h => hfile g' hg' htable' (hpipe.mp h)
    rw [if_neg hno, wp_bind]
    refine wp_mono fileClose_spec ?_
    rintro ret k₂ ⟨hfiles, htasks, hrunning, hall, hnext⟩
    rw [wp_bind, wp_modify]
    refine Or.inr ⟨by omega, hlt, g, hg, htable, hfiles, ?_, hrunning, hall, hnext⟩
    change Function.update k₂.tasks k₂.running { k₂.tasks k₂.running with fdTable := _ } = _
    rw [htasks, hrunning]
    simp only [Kernel.cur, htasks, hrunning]

/-- Closing an entry that no other process uses. -/
theorem FdOk.close {k k' : Kernel} {opened : ℕ → ℕ → Option ℕ} {fd g : ℕ} (hk : FdOk k opened)
    (hsome : (opened k.running fd).isSome) (htable : k.cur.fdTable fd = g) (h : Closes k fd g k')
    (hshared : ¬ SharedFd k opened k.running fd) :
    FdOk k' (setHeld opened k.running fd none) := by
  obtain ⟨hself, hold⟩ := fdTable_update h.tasks
  refine ChangesFd.drop ⟨h.all, h.next, hold, ?_⟩ hk hself
  intro q fd' g' hne hsome' htable'
  rw [h.files]
  refine Function.update_of_ne ?_ _ _
  rintro rfl
  -- a second descriptor for the entry is another process's, or the same
  by_cases hq : q = k.running
  · subst hq
    have := hk.distinct _ _ _ hsome' hsome (htable'.trans htable.symm)
    exact hne.elim (fun h => h rfl) fun h => h this
  · exact hshared ⟨hsome, q, fd', hq, hsome', htable'.trans htable.symm⟩

theorem setHeld_none_of_none {opened : ℕ → ℕ → Option ℕ} {p fd : ℕ} (h : opened p fd = none) :
    setHeld opened p fd none = opened := by
  unfold setHeld
  rw [← h, Function.update_eq_self, Function.update_eq_self]

/-- What closing a descriptor of the running process leaves behind. -/
structure Closed (k : Kernel) (opened : ℕ → ℕ → Option ℕ) (fd : ℕ) (k' : Kernel) : Prop where
  ok : FdOk k' (setHeld opened k.running fd none)
  running : k'.running = k.running
  all : k'.threadAllList = k.threadAllList
  shared : ∀ fd', SharedFd k' (setHeld opened k.running fd none) k.running fd' →
    SharedFd k opened k.running fd'

/-- A descriptor that is not held is free already. -/
theorem FdOk.closed_of_none {k : Kernel} {opened : ℕ → ℕ → Option ℕ} {fd : ℕ} (hk : FdOk k opened)
    (hnone : opened k.running fd = none) : Closed k opened fd k := by
  refine ⟨?_, rfl, rfl, fun fd' => ?_⟩ <;> rw [setHeld_none_of_none hnone]
  · exact hk
  · exact fun h => h

theorem sysClose_closed {k : Kernel} {opened : ℕ → ℕ → Option ℕ} {fd : ℤ} (hk : FdOk k opened)
    (hp : k.running ∈ k.threadAllList) (hshared : ¬ SharedFd k opened k.running fd.toNat) :
    (sysClose fd).wp (fun _ => Closed k opened fd.toNat) k := by
  -- a descriptor from 3 on that has an entry is held
  have hheld : ∀ g : ℕ, 2 < fd → fd.toNat < maxFilesOpenPerProc → k.cur.fdTable fd.toNat = g →
      (opened k.running fd.toNat).isSome := by
    intro g hlow hhigh htable
    by_contra hcon
    have hfree := hk.free k.running hp fd.toNat (by omega) hhigh (by simpa using hcon)
    change k.cur.fdTable fd.toNat = -1 at hfree
    omega
  have hfile : 2 < fd → ∀ g : ℕ, g < maxFileOpen → fd.toNat < maxFilesOpenPerProc →
      k.cur.fdTable fd.toNat = g → (k.fileTable g).fdFlag ≠ pipeFlag := by
    intro hlow g _ hhigh htable
    obtain ⟨a, ha⟩ := Option.isSome_iff_exists.mp (hheld g hlow hhigh htable)
    obtain ⟨-, -, -, g', -, htable', -, hflag⟩ := hk.held _ _ a ha
    have hgg : g' = g := by
      change k.cur.fdTable fd.toNat = g' at htable'
      rw [htable'] at htable
      exact_mod_cast htable
    rwa [← hgg]
  by_cases hle : fd ≤ 2
  · unfold sysClose
    rw [if_pos hle]
    refine hk.closed_of_none ?_
    cases ha : opened k.running fd.toNat with
    | none => rfl
    | some a =>
        have := (hk.held _ _ a ha).2.1
        omega
  · by_cases hhigh : fd.toNat < maxFilesOpenPerProc
    · refine wp_mono (sysClose_spec fun g hg htable => hfile (by omega) g hg hhigh htable) ?_
      rintro - k' (⟨hle', -⟩ | ⟨hlow, hhigh, g, hg, htable, hcloses⟩)
      · omega
      · refine ⟨hk.close (hheld g hlow hhigh htable) htable hcloses hshared, hcloses.running,
          hcloses.all, ?_⟩
        rintro fd' ⟨hsome, q, fd'', hq, hsome', heq⟩
        obtain ⟨-, hold⟩ := fdTable_update hcloses.tasks
        have hne : fd' ≠ fd.toNat := by
          rintro rfl
          rw [setHeld_self] at hsome
          cases hsome
        rw [setHeld_of_ne _ _ (Or.inr hne)] at hsome
        rw [setHeld_of_ne _ _ (Or.inl hq)] at hsome'
        rw [hold q fd'' (Or.inl hq), hold k.running fd' (Or.inr hne)] at heq
        exact ⟨hsome, q, fd'', hq, hsome', heq⟩
    · -- past the end of `fd_table`
      unfold sysClose
      rw [if_neg hle, wp_bind]
      unfold fdLocal2global
      rw [if_pos (by omega)]
      trivial

/-! ## Exit -/

theorem releaseFd_closed {k : Kernel} {opened : ℕ → ℕ → Option ℕ} {fd : ℕ} (hk : FdOk k opened)
    (hp : k.running ∈ k.threadAllList) (hlow : 3 ≤ fd) (hhigh : fd < maxFilesOpenPerProc)
    (hshared : ¬ SharedFd k opened k.running fd) :
    (releaseFd fd).wp (fun _ => Closed k opened fd) k := by
  rw [releaseFd, wp_bind, wp_read]
  cases ha : opened k.running fd with
  | none =>
      have hfree := hk.free k.running hp fd hlow hhigh ha
      rw [if_pos (show k.cur.fdTable fd = -1 from hfree)]
      exact hk.closed_of_none ha
  | some a =>
      obtain ⟨-, -, -, g, hg, htable, -, hflag⟩ := hk.held _ _ a ha
      change k.cur.fdTable fd = g at htable
      rw [if_neg (by omega), wp_bind]
      refine wp_mono (wp_and isPipe_spec isPipe_entry) ?_
      rintro pipe k₁ ⟨rfl, g', -, htable', hpipe⟩
      have hgg : g' = g := by
        rw [htable] at htable'
        exact_mod_cast htable'.symm
      rw [hgg] at hpipe
      rw [if_neg fun h => hflag (hpipe.mp h), wp_bind]
      have hclose : (sysClose (fd : ℤ)).wp (fun _ => Closed k₁ opened (fd : ℤ).toNat) k₁ :=
        sysClose_closed hk hp (by rwa [Int.toNat_natCast])
      rw [Int.toNat_natCast] at hclose
      exact wp_mono hclose fun _ k' h => h

/-- The loop of `release_prog_resource` closes the descriptors from `fd` on. -/
theorem releaseFds_closed {k : Kernel} {opened : ℕ → ℕ → Option ℕ} (left fd : ℕ)
    (hk : FdOk k opened) (hp : k.running ∈ k.threadAllList) (hlow : 3 ≤ fd)
    (hhigh : fd + left ≤ maxFilesOpenPerProc)
    (hshared : ∀ fd', ¬ SharedFd k opened k.running fd') :
    (releaseFds left fd).wp (fun _ k' => ∃ opened', FdOk k' opened' ∧
      (∀ q, q ≠ k.running → opened' q = opened q) ∧
      (∀ fd', fd ≤ fd' → fd' < fd + left → opened' k.running fd' = none) ∧
      ∀ fd', opened k.running fd' = none → opened' k.running fd' = none) k := by
  induction left generalizing k opened fd with
  | zero => exact ⟨opened, hk, fun _ _ => rfl, fun fd' h h' => absurd h' (by omega), fun _ h => h⟩
  | succ left ih =>
      rw [releaseFds, wp_bind]
      refine wp_mono (releaseFd_closed hk hp hlow (by omega) (hshared fd)) ?_
      intro _ k₁ h₁
      have hp₁ : k₁.running ∈ k₁.threadAllList := by rw [h₁.running, h₁.all]; exact hp
      have hshared₁ : ∀ fd', ¬ SharedFd k₁ (setHeld opened k.running fd none) k₁.running fd' := by
        rw [h₁.running]
        exact fun fd' h => hshared fd' (h₁.shared fd' h)
      refine wp_mono (ih (fd + 1) h₁.ok hp₁ (by omega) (by omega) hshared₁) ?_
      rw [h₁.running]
      rintro - k₂ ⟨opened', hok, hother, hclosed, hkept⟩
      refine ⟨opened', hok, fun q hq => ?_, fun fd' hle hlt => ?_, fun fd' hnone => ?_⟩
      · rw [hother q hq]
        exact Function.update_of_ne hq _ _
      · by_cases hfd : fd' = fd
        · rw [hfd]
          exact hkept fd (setHeld_self _ _ _ _)
        · exact hclosed fd' (by omega) (by omega)
      · refine hkept fd' ?_
        by_cases hfd : fd' = fd
        · rw [hfd, setHeld_self]
        · rw [setHeld_of_ne _ _ (Or.inr hfd), hnone]

theorem KeepsFds.trans {k₁ k₂ k₃ : Kernel} (h : KeepsFds k₁ k₂) (h' : KeepsFds k₂ k₃) :
    KeepsFds k₁ k₃ :=
  IsTrans.trans _ _ _ h h'

/-- A control block changes but for its descriptors, and the threads are scheduled. -/
theorem keepsFds_setTask (k : Kernel) {p : ℕ} {task : Task} (readyList : List ℕ) (running : ℕ)
    (hfds : task.fdTable = (k.tasks p).fdTable) :
    KeepsFds k { k.setTask p task with threadReadyList := readyList, running := running } := by
  refine ⟨fun _ => rfl, fun _ => rfl, fun q => ?_, rfl, rfl⟩
  change (Function.update k.tasks p task q).fdTable = _
  by_cases hq : q = p
  · subst hq
    rw [Function.update_self, hfds]
  · rw [Function.update_of_ne hq]

instance : TurnFrame KeepsFds where
  task k _ _ _ _ readyList running := keepsFds_setTask k readyList running rfl

theorem adoptChildren_keepsFds (k : Kernel) (pid : ℕ) : KeepsFds k (k.adoptChildren pid) := by
  refine ⟨fun _ => rfl, fun _ => rfl, fun q => ?_, rfl, rfl⟩
  simp only [Kernel.adoptChildren]
  split <;> rfl

theorem SharedFd.of_keeps {k k' : Kernel} {opened : ℕ → ℕ → Option ℕ} (h : KeepsFds k k')
    {p fd : ℕ} (hs : SharedFd k' opened p fd) : SharedFd k opened p fd := by
  obtain ⟨hsome, q, fd', hq, hsome', heq⟩ := hs
  rw [h.table, h.table] at heq
  exact ⟨hsome, q, fd', hq, hsome', heq⟩

theorem sysExit_ok {k : Kernel} {opened : ℕ → ℕ → Option ℕ} {status : ℤ} (hk : FdOk k opened)
    (hp : k.running ∈ k.threadAllList) (hshared : ∀ fd, ¬ SharedFd k opened k.running fd) :
    (sysExit status).wp (fun _ k' => FdOk k' (Function.update opened k.running fun _ => none)) k := by
  rw [sysExit, wp_bind, wp_modify, wp_bind, wp_read]
  have hkeep₁ : KeepsFds k (k.setTask k.running { k.cur with exitStatus := wrap8 status }) :=
    keepsFds_setTask k k.threadReadyList k.running rfl
  set k₁ := k.setTask k.running { k.cur with exitStatus := wrap8 status }
  split
  · trivial
  · rw [wp_bind, wp_write, wp_bind]
    have hkeep₂ : KeepsFds k (k₁.adoptChildren k₁.cur.pid) :=
      KeepsFds.trans hkeep₁ (adoptChildren_keepsFds k₁ _)
    set k₂ := k₁.adoptChildren k₁.cur.pid
    have hrunning : k₂.running = k.running := rfl
    have hrelease := releaseFds_closed (maxFilesOpenPerProc - 3) 3 (hk.keeps hkeep₂)
      (by rw [hrunning, hkeep₂.all]; exact hp) le_rfl (by decide)
      (fun fd h => hshared fd (SharedFd.of_keeps hkeep₂ h))
    rw [hrunning] at hrelease
    refine wp_mono hrelease ?_
    rintro - k₃ ⟨opened', hok, hother, hclosed, hkept⟩
    have hopened : opened' = Function.update opened k.running fun _ => none := by
      funext q
      by_cases hq : q = k.running
      · subst hq
        funext fd
        rw [Function.update_self]
        by_cases hfd : 3 ≤ fd ∧ fd < maxFilesOpenPerProc
        · exact hclosed fd hfd.1 (by unfold maxFilesOpenPerProc at hfd ⊢; omega)
        · refine hkept fd ?_
          cases ha : opened k.running fd with
          | none => rfl
          | some a =>
              obtain ⟨-, hlow, hhigh, -⟩ := hk.held _ _ a ha
              exact absurd ⟨hlow, hhigh⟩ hfd
      · rw [Function.update_of_ne hq, hother q hq]
    rw [← hopened]
    have hfinish : Within KeepsFds exitFinish := exitFinish_within
    exact wp_mono (wp_of_always (hfinish k₃)) fun _ k₄ hkeep => hok.keeps hkeep

/-! ## Fork -/

theorem keepsFds_setInode (k : Kernel) (a : ℕ) (inode : Inode) : KeepsFds k (k.setInode a inode) := by
  constructor <;> simp [Kernel.setInode]

theorem keepsFds_setFile (k : Kernel) {g : ℕ} {file : File}
    (hinode : file.fdInode = (k.fileTable g).fdInode) (hflag : file.fdFlag = (k.fileTable g).fdFlag) :
    KeepsFds k (k.setFile g file) := by
  constructor
  · intro g'
    change (Function.update k.fileTable g file g').fdInode = _
    by_cases hg : g' = g
    · rw [hg, Function.update_self, hinode]
    · rw [Function.update_of_ne hg]
  · intro g'
    change (Function.update k.fileTable g file g').fdFlag = _
    by_cases hg : g' = g
    · rw [hg, Function.update_self, hflag]
    · rw [Function.update_of_ne hg]
  · exact fun _ => rfl
  · rfl
  · rfl

theorem updateInodeOpenCnts_keepsFds (child left localFd : ℕ) :
    Within KeepsFds (updateInodeOpenCnts child left localFd) := by
  induction left generalizing localFd with
  | zero => exact .pure _
  | succ left ih =>
      refine Within.bind ?_ fun _ => ih _
      refine Within.read.bind fun k => (Within.assert _).bind fun _ => ?_
      split
      · exact .pure _
      refine (isPipe_same _).of_eq.bind fun pipe => ?_
      split
      · exact .modify fun k => keepsFds_setFile k rfl rfl
      · split
        · exact .stop _
        · exact .modify fun k => keepsFds_setInode k _ _

/-- The child of a fork gets the descriptors of its parent. -/
theorem FdOk.fork {k k' : Kernel} {opened : ℕ → ℕ → Option ℕ} (hk : FdOk k opened)
    (hp : k.running ∈ k.threadAllList) {pid : ℕ}
    (h : KeepsFds { k.setTask k.nextTask (forkTask k.cur pid) with nextTask := k.nextTask + 1 } k') :
    FdOk { k' with threadAllList := k'.threadAllList ++ [k.nextTask] }
      (Function.update opened k.nextTask (opened k.running)) := by
  -- in the new state `q` has the descriptors that `src q` had before
  set src : ℕ → ℕ := fun q => if q = k.nextTask then k.running else q with hsrc
  have htable : ∀ q, (k'.tasks q).fdTable = (k.tasks (src q)).fdTable := by
    intro q
    rw [h.table]
    change (Function.update k.tasks k.nextTask (forkTask k.cur pid) q).fdTable = _
    by_cases hq : q = k.nextTask
    · rw [hq, Function.update_self, hsrc]
      simp only [if_true]
      rfl
    · rw [Function.update_of_ne hq, hsrc]
      simp only [if_neg hq]
  have hopened : ∀ q, Function.update opened k.nextTask (opened k.running) q = opened (src q) := by
    intro q
    by_cases hq : q = k.nextTask
    · rw [hq, Function.update_self, hsrc]
      simp only [if_true]
    · rw [Function.update_of_ne hq, hsrc]
      simp only [if_neg hq]
  have hall : k'.threadAllList = k.threadAllList := h.all
  have hmem : ∀ q, q ∈ k'.threadAllList ++ [k.nextTask] ↔ src q ∈ k.threadAllList := by
    intro q
    rw [hall, List.mem_append, List.mem_singleton, hsrc]
    by_cases hq : q = k.nextTask
    · simp only [hq, or_true, if_true, hp]
    · simp only [hq, or_false, if_false]
  refine ⟨fun q fd a ha => ?_, fun q hq fd hlow hhigh hnone => ?_, fun q fd₁ fd₂ h₁ h₂ heq => ?_,
    fun q hq => ?_⟩
  · rw [hopened] at ha
    obtain ⟨hq, hlow, hhigh, g, hg, hfd, hinode, hflag⟩ := hk.held _ fd a ha
    refine ⟨(hmem q).mpr hq, hlow, hhigh, g, hg, ?_, ?_, ?_⟩
    · change (k'.tasks q).fdTable fd = g
      rw [htable, hfd]
    · change (k'.fileTable g).fdInode = some a
      rw [h.inode]
      exact hinode
    · change (k'.fileTable g).fdFlag ≠ pipeFlag
      rw [h.flag]
      exact hflag
  · rw [hopened] at hnone
    change (k'.tasks q).fdTable fd = -1
    rw [htable]
    exact hk.free _ ((hmem q).mp hq) fd hlow hhigh hnone
  · rw [hopened] at h₁ h₂
    change (k'.tasks q).fdTable fd₁ = (k'.tasks q).fdTable fd₂ at heq
    rw [htable] at heq
    exact hk.distinct _ fd₁ fd₂ h₁ h₂ heq
  · change q < k'.nextTask
    have hnext : k'.nextTask = k.nextTask + 1 := h.next
    rw [hnext]
    rcases List.mem_append.mp hq with hq | hq
    · exact (hk.all q (hall ▸ hq)).trans (Nat.lt_succ_self _)
    · rw [List.mem_singleton.mp hq]
      exact Nat.lt_succ_self _

theorem sysFork_ok {k : Kernel} {opened : ℕ → ℕ → Option ℕ} (hk : FdOk k opened)
    (hp : k.running ∈ k.threadAllList) :
    sysFork.wp (fun ret k' => FdOk k'
      (if 0 ≤ ret then Function.update opened k.nextTask (opened k.running) else opened)) k := by
  have hfail : FdOk k (if (0 : ℤ) ≤ -1 then Function.update opened k.nextTask (opened k.running)
      else opened) := by
    rw [if_neg (by omega)]
    exact hk
  refine wp_sysFork hfail (fun pid _ _ _ => ?_) fun pid _ _ _ _ => ?_
  · rw [if_neg (by omega)]
    exact { hk with }
  · refine wp_mono (wp_of_always (updateInodeOpenCnts_keepsFds _ _ _ _)) fun _ k₂ hkeep₂ => ?_
    have hpid : FdOk (k.takePid pid) opened := { hk with }
    have hok := hpid.fork hp hkeep₂
    rw [if_pos (Int.natCast_nonneg pid)]
    exact ⟨hok.held, hok.free, hok.distinct, hok.all⟩

/-! ## Opening in turns -/

/-- What the rest of a call changes before it fills its entry leaves the entries alone. -/
def OpenStage.Keeps : OpenStage → Prop
  | .lookup x => Steady KeepsEntries x
  | .create _ => False
  | .chosen g x => g < maxFileOpen ∧ Steady KeepsEntries x

theorem getFreeSlotInGlobal_some {k k' : Kernel} {g : ℕ}
    (h : getFreeSlotInGlobal.Returns k (some g) k') :
    k' = k ∧ g < maxFileOpen ∧ (k.fileTable g).fdInode = none := by
  have hspec : getFreeSlotInGlobal.wp (fun slot k' => ∀ g, slot = some g →
      k' = k ∧ g < maxFileOpen ∧ (k.fileTable g).fdInode = none) k := by
    refine getFreeSlotInGlobal_spec (fun g hg => by cases hg) fun fd _ hfd hfree g hg => ?_
    cases hg
    exact ⟨rfl, hfd, hfree⟩
  exact wp_iff_returns.mp hspec _ _ h g rfl

/-- A turn of an undisturbed call changes no entry, or it is the last one and installs a descriptor. -/
theorem OpenTurn.effect {t : Transfer} {pathname : CString} {flags : ℕ} {s : OpenStage}
    {k k' : Kernel} {r : OpenStage ⊕ ℤ} (h : OpenTurn t pathname flags s k r k') (hs : s.Keeps)
    (hfree : s.Undisturbed k) :
    match r with
    | .inl s' => KeepsEntries k k' ∧ s'.Keeps
    | .inr fd => Installs k flags fd k' := by
  have hchosen : ∀ {g x k r k'}, g < maxFileOpen → Steady KeepsEntries x →
      (k.fileTable g).fdInode = none → OpenTurn t pathname flags (.chosen g x) k r k' →
      match r with
      | .inl s' => KeepsEntries k k' ∧ s'.Keeps
      | .inr fd => Installs k flags fd k' := by
    intro g x k r k' hg hx hfree h
    cases h with
    | load hy =>
        obtain ⟨hkeep, hy⟩ := turn_of_steps (hx k) hy
        exact ⟨hkeep, hg, hy _ rfl⟩
    | fill ha hret =>
        have hkeep := (turn_of_steps (hx k) ha).1
        refine hkeep.installs (wp_iff_returns.mp (fileOpenFill_installs hg ?_) _ _ hret)
        rw [hkeep.files, hfree]
  cases h with
  | lookup hy =>
      obtain ⟨hkeep, hy⟩ := turn_of_steps (hs k) hy
      exact ⟨hkeep, hy _ rfl⟩
  | refuse hplan => exact (turn_of_steps (hs k) hplan).1.installs_fail
  | create hplan _ => exact absurd hplan (hfree _ _)
  | full hplan hret =>
      obtain ⟨-, rfl⟩ := hret
      exact (turn_of_steps (hs k) hplan).1.installs_fail
  | choose hplan hret h =>
      obtain ⟨rfl, hg, hslot⟩ := getFreeSlotInGlobal_some hret
      have hkeep := (turn_of_steps (hs k) hplan).1
      have hrest := hchosen hg (inodeOpen_steady t _) hslot h
      cases r with
      | inl s' => exact ⟨Trans.trans hkeep hrest.1, hrest.2⟩
      | inr fd => exact hkeep.installs hrest
  | sync => exact hs.elim
  | created => exact hs.elim
  | load hy => exact hchosen hs.1 hs.2 hfree (.load hy)
  | fill ha hret => exact hchosen hs.1 hs.2 hfree (.fill ha hret)

/-- A call with an invalid flag installs nothing. -/
theorem OpenTurn.flags_le {t : Transfer} {pathname : CString} {flags : ℕ} {k k' : Kernel}
    {r : OpenStage ⊕ ℤ}
    (h : OpenTurn t pathname flags (.lookup (openLookup t pathname flags)) k r k') :
    r = .inr (-1) ∨ flags ≤ 7 := by
  cases h with
  | lookup hy => exact Or.inr ((openLookup_flags hy).resolve_left fun h => by cases h)
  | refuse => exact Or.inl rfl
  | create hplan => exact Or.inr ((openLookup_flags hplan).resolve_left fun h => by cases h)
  | full => exact Or.inl rfl
  | choose hplan => exact Or.inr ((openLookup_flags hplan).resolve_left fun h => by cases h)

/-! ## Every run -/

/-- What holds between the turns. -/
structure FdInv (m : FdMachine) : Prop where
  ok : FdOk m.kernel m.opened
  calls : ∀ p waiting, m.calls p = some waiting → waiting.stage.Keeps ∧ waiting.flags ≤ 7

theorem KeepsEntries.fds {k k' : Kernel} (h : KeepsEntries k k') : KeepsFds k k' where
  inode g := by rw [h.files]
  flag g := by rw [h.files]
  table p := by rw [h.tasks]
  all := h.all
  next := h.next

theorem FdStart.inv {m : FdMachine} (h : FdStart m) : FdInv m := by
  refine ⟨h.ok, fun p waiting hp => ?_⟩
  rw [h.calls p] at hp
  cases hp

theorem FdInv.at {m : FdMachine} (h : FdInv m) (p : ℕ) : FdOk (m.at p) m.opened :=
  ⟨h.ok.held, h.ok.free, h.ok.distinct, h.ok.all⟩

theorem OpenStep.inv {t : Transfer} {m m' : FdMachine} {p : ℕ} {call : OpenCall}
    (h : OpenStep t m p call m') (hm : FdInv m) (hp : p ∈ m.kernel.threadAllList)
    (hkeeps : call.stage.Keeps) (hfree : call.stage.Undisturbed (m.at p))
    (hflags : ∀ r k, OpenTurn t call.pathname call.flags call.stage (m.at p) r k →
      r = .inr (-1) ∨ call.flags ≤ 7) : FdInv m' := by
  obtain ⟨r, k, hturn, rfl⟩ := h
  have heffect := hturn.effect hkeeps hfree
  cases r with
  | inl stage =>
      refine ⟨(hm.at p).keeps heffect.1.fds, fun q waiting hq => ?_⟩
      change Function.update m.calls p _ q = _ at hq
      by_cases hqp : q = p
      · subst hqp
        rw [Function.update_self, Option.some.injEq] at hq
        subst hq
        exact ⟨heffect.2, (hflags _ _ hturn).resolve_left fun h => by cases h⟩
      · rw [Function.update_of_ne hqp] at hq
        exact hm.calls q waiting hq
  | inr fd =>
      have hret : fd = -1 ∨ call.flags ≤ 7 :=
        (hflags _ _ hturn).imp_left fun h => by cases h; rfl
      refine ⟨(hm.at p).open hp heffect hret, fun q waiting hq => ?_⟩
      change Function.update m.calls p none q = _ at hq
      by_cases hqp : q = p
      · rw [hqp, Function.update_self] at hq
        cases hq
      · rw [Function.update_of_ne hqp] at hq
        exact hm.calls q waiting hq

theorem FdStep.inv {t : Transfer} {m m' : FdMachine} {call : ℕ × FdCall} (h : FdStep t m call m')
    (hcond : Careful t m call) (hm : FdInv m) : FdInv m' := by
  obtain ⟨p, call⟩ := call
  obtain ⟨hp, -, h⟩ := h
  dsimp only at hp h
  have hk := hm.at p
  cases hcalls : m.calls p with
  | none =>
      rw [hcalls] at h
      cases call with
      | «open» pathname flags =>
          exact OpenStep.inv h hm hp (openLookup_steady t pathname flags) hcond
            fun r k hturn => hturn.flags_le
      | resume => exact h.elim
      | close fd =>
          obtain ⟨ret, k, hret, rfl⟩ := h
          exact ⟨(wp_iff_returns.mp (sysClose_closed hk hp hcond) ret k hret).ok, hm.calls⟩
      | fork =>
          obtain ⟨ret, k, hret, rfl⟩ := h
          exact ⟨wp_iff_returns.mp (sysFork_ok hk hp) ret k hret, hm.calls⟩
      | exit status =>
          obtain ⟨k, hret, rfl⟩ := h
          exact ⟨wp_iff_returns.mp (sysExit_ok hk hp hcond) () k hret, hm.calls⟩
  | some waiting =>
      rw [hcalls] at h
      cases call with
      | resume =>
          obtain ⟨hkeeps, hflags⟩ := hm.calls p waiting hcalls
          exact OpenStep.inv h hm hp hkeeps (hcond waiting hcalls) fun _ _ _ => Or.inr hflags
      | «open» => exact h.elim
      | close => exact h.elim
      | fork => exact h.elim
      | exit => exact h.elim

/-- In every run in which nobody closes an entry that another process uses and every `sys_open` is
undisturbed, every descriptor keeps the inode on which it was opened. -/
theorem descriptors_keep_inode {t : Transfer} {m : FdMachine}
    (h : Reachable FdStart (FdStep t) (Careful t) m) : DescriptorsValid m := by
  have hinv : FdInv m := by
    refine Reachable.invariant FdInv (fun m hm => hm.inv) ?_ h
    exact fun m call m' hm hcond hstep => hstep.inv hcond hm
  exact hinv.ok.valid

/-! ## Two runs -/

/-- A turn of a `sys_open`, with every allocation successful. -/
def FdMachine.openExec (m : FdMachine) (p : ℕ) (call : OpenCall) : Option FdMachine :=
  (call.stage.exec .repeated call.flags (m.at p)).map fun (r, k) => m.afterOpen p call k r

/-- One step, with every allocation successful. -/
def FdCall.exec (m : FdMachine) (call : ℕ × FdCall) : Option FdMachine :=
  let p := call.1
  if p ∈ m.kernel.threadAllList ∧ (m.kernel.tasks p).isProcess = true then
    match call.2, m.calls p with
    | .open pathname flags, none => m.openExec p (.start .repeated pathname flags)
    | .resume, some waiting => m.openExec p waiting
    | .close fd, none => ((sysClose fd).exec [] (m.at p)).map fun (_, k) =>
        { m with kernel := k, opened := setHeld m.opened p fd.toNat none }
    | .fork, none => (sysFork.exec [] (m.at p)).map fun (pid, k) =>
        { m with
          kernel := k
          opened := if 0 ≤ pid then Function.update m.opened m.kernel.nextTask (m.opened p)
            else m.opened }
    | .exit status, none => ((sysExit status).exec [] (m.at p)).map fun (_, k) =>
        { m with kernel := k, opened := Function.update m.opened p fun _ => none }
    | _, _ => none
  else none

theorem OpenStep.of_exec {m m' : FdMachine} {p : ℕ} {call : OpenCall}
    (h : m.openExec p call = some m') : OpenStep .repeated m p call m' := by
  obtain ⟨⟨r, k⟩, hexec, rfl⟩ := Option.map_eq_some_iff.mp h
  exact ⟨r, k, OpenStage.turn_of_exec hexec, rfl⟩

theorem FdCall.step_of_exec {m m' : FdMachine} {call : ℕ × FdCall}
    (h : FdCall.exec m call = some m') : FdStep .repeated m call m' := by
  obtain ⟨p, call⟩ := call
  unfold FdCall.exec at h
  dsimp only at h
  split at h
  next hp =>
    refine ⟨hp.1, hp.2, ?_⟩
    split at h
    next hcalls => rw [hcalls]; exact .of_exec h
    next hcalls => rw [hcalls]; exact .of_exec h
    next hcalls =>
      rw [hcalls]
      obtain ⟨⟨ret, k⟩, hexec, rfl⟩ := Option.map_eq_some_iff.mp h
      exact ⟨ret, k, returns_of_exec hexec, rfl⟩
    next hcalls =>
      rw [hcalls]
      obtain ⟨⟨ret, k⟩, hexec, rfl⟩ := Option.map_eq_some_iff.mp h
      exact ⟨ret, k, returns_of_exec hexec, rfl⟩
    next hcalls =>
      rw [hcalls]
      obtain ⟨⟨_, k⟩, hexec, rfl⟩ := Option.map_eq_some_iff.mp h
      exact ⟨k, returns_of_exec hexec, rfl⟩
    next => cases h
  next => cases h

/-- A machine with one process; a kernel thread has made the file `/a` on the partition that repeated
transfers format, and has closed it. -/
def fdMachine : FdMachine where
  kernel :=
    { (sysClose 3).after ((sysOpen .repeated pathA 6).after zeroRootMachine) with
      tasks := fun _ => { initTask 1 defaultPrio with isProcess := true }
      nextTask := 1
      threadAllList := [0]
      pidBitmap := bitmapSet pidPoolInit 0 true }
  opened _ _ := none
  calls _ := none

theorem fdMachine_start : FdStart fdMachine where
  held _ _ := rfl
  calls _ := rfl
  all p hp := by
    rw [List.mem_singleton.mp hp]
    decide
  fds p _ fd hlow _ := if_neg (by omega)

/-- The call cannot come to `file_create`. -/
def OpenStage.Opens : OpenStage → Prop
  | .lookup x => x.yields fun plan => ∀ parentDir, plan ≠ .create parentDir
  | .create _ => False
  | .chosen _ _ => True

theorem OpenTurn.opens {t : Transfer} {pathname : CString} {flags : ℕ} {s s' : OpenStage}
    {k k' : Kernel} (h : OpenTurn t pathname flags s k (.inl s') k') (hs : s.Opens) : s'.Opens := by
  cases h with
  | lookup hy => exact (turn_of_yields hs hy).2 _ rfl
  | create hplan => exact absurd rfl ((turn_of_yields hs hplan).1 _ rfl _)
  | choose _ _ h =>
      cases h
      trivial
  | sync => exact hs.elim
  | load => trivial

/-- No call that waits can come to `file_create`. -/
def FdMachine.Opens (m : FdMachine) : Prop :=
  ∀ p waiting, m.calls p = some waiting → waiting.stage.Opens

theorem OpenStep.opens {t : Transfer} {m m' : FdMachine} {p : ℕ} {call : OpenCall}
    (h : OpenStep t m p call m') (hm : m.Opens) (hcall : call.stage.Opens) : m'.Opens := by
  obtain ⟨r, k, hturn, rfl⟩ := h
  intro q waiting hq
  by_cases hqp : q = p
  · subst hqp
    cases r with
    | inl stage =>
        change Function.update m.calls q _ q = _ at hq
        rw [Function.update_self, Option.some.injEq] at hq
        subst hq
        exact hturn.opens hcall
    | inr fd =>
        change Function.update m.calls q none q = _ at hq
        rw [Function.update_self] at hq
        cases hq
  · refine hm q waiting ?_
    cases r with
    | inl stage => exact (Function.update_of_ne hqp _ _).symm.trans hq
    | inr fd => exact (Function.update_of_ne hqp _ _).symm.trans hq

/-- A step that meets the condition because the call does not ask for a new file. -/
def FdCall.checked (m : FdMachine) (call : ℕ × FdCall) : Bool :=
  match call.2 with
  | .open _ flags => flags &&& oCreat = 0
  | .resume =>
      match m.calls call.1 with
      | some ⟨_, _, .chosen g _⟩ => (m.kernel.fileTable g).fdInode.isNone
      | _ => true
  | .close fd =>
      m.kernel.threadAllList.all fun q => (List.range maxFilesOpenPerProc).all fun fd' =>
        q = call.1 ∨ (m.opened q fd').isNone ∨
          (m.kernel.tasks q).fdTable fd' ≠ (m.kernel.tasks call.1).fdTable fd.toNat
  | .fork => true
  | .exit _ => false

theorem FdCall.careful_of_checked {t : Transfer} {m : FdMachine} {call : ℕ × FdCall}
    (h : FdCall.checked m call = true) (hm : FdInv m) (hopens : m.Opens) : Careful t m call := by
  obtain ⟨p, call⟩ := call
  cases call with
  | «open» pathname flags =>
      intro parentDir k' hturn
      have hflags : flags &&& oCreat = 0 := by simpa [FdCall.checked] using h
      exact (turn_of_yields (openLookup_opens hflags) hturn).1 _ rfl _ rfl
  | resume =>
      rintro ⟨pathname, flags, stage⟩ hcalls
      have hstage := hopens p _ hcalls
      cases stage with
      | lookup x => exact fun parentDir k' hturn => (turn_of_yields hstage hturn).1 _ rfl _ rfl
      | create x => exact hstage
      | chosen g x =>
          simp only [FdCall.checked, hcalls, Option.isNone_iff_eq_none] at h
          exact h
  | close fd =>
      rintro ⟨-, q, fd', hq, hsome, htable⟩
      obtain ⟨a, ha⟩ := Option.isSome_iff_exists.mp hsome
      obtain ⟨hmem, -, hhigh, -⟩ := hm.ok.held q fd' a ha
      have hq' := List.all_eq_true.mp (List.all_eq_true.mp h q hmem) fd' (List.mem_range.mpr hhigh)
      simp only [decide_eq_true_eq, ha, Option.isNone_some, Bool.false_eq_true, false_or] at hq'
      exact hq'.elim hq fun hne => hne htable
  | fork => trivial
  | exit status => cases h

/-- One step that is checked. -/
def FdCall.execChecked (m : FdMachine) (call : ℕ × FdCall) : Option FdMachine :=
  if FdCall.checked m call then FdCall.exec m call else none

theorem FdStep.opens {t : Transfer} {m m' : FdMachine} {call : ℕ × FdCall} (h : FdStep t m call m')
    (hcheck : FdCall.checked m call = true) (hm : m.Opens) : m'.Opens := by
  obtain ⟨p, call⟩ := call
  obtain ⟨-, -, h⟩ := h
  dsimp only at h
  split at h
  next pathname flags _ =>
    have hflags : flags &&& oCreat = 0 := by simpa [FdCall.checked] using hcheck
    exact OpenStep.opens h hm (openLookup_opens hflags)
  next waiting hcalls => exact OpenStep.opens h hm (hm p waiting hcalls)
  next =>
    obtain ⟨_, _, _, rfl⟩ := h
    exact hm
  next =>
    obtain ⟨_, _, _, rfl⟩ := h
    exact hm
  next =>
    obtain ⟨_, _, rfl⟩ := h
    exact hm
  next => exact h.elim

theorem reachable_of_execChecked {calls : List (ℕ × FdCall)} {m m' : FdMachine} (hm : FdStart m)
    (h : follow FdCall.execChecked calls m = some m') :
    Reachable FdStart (FdStep .repeated) (Careful .repeated) m' := by
  refine Reachable.of_follow_inv (fun m => FdInv m ∧ m.Opens) ?_ (.start hm) ⟨hm.inv, ?_⟩ h
  · intro m call m' ⟨hinv, hopens⟩ hexec
    unfold FdCall.execChecked at hexec
    split at hexec
    next hcheck =>
      have hcareful : Careful .repeated m call := FdCall.careful_of_checked hcheck hinv hopens
      have hstep := FdCall.step_of_exec hexec
      exact ⟨hcareful, hstep, hstep.inv hcareful hinv, hstep.opens hcheck hopens⟩
    next => cases hexec
  · intro p waiting hp
    rw [hm.calls p] at hp
    cases hp

/-- Process `p` opens `/a`, which it reads from the disk. -/
def openA (p : ℕ) : List (ℕ × FdCall) := (p, .open pathA 0) :: List.replicate 4 (p, .resume)

/-- A process opens `/a` and forks.  Parent and child hold the same descriptor; they open the file once
more, the one while the other waits, and the child closes what it has opened. -/
theorem descriptors_keep_inode_after_fork :
    ∃ m, Reachable FdStart (FdStep .repeated) (Careful .repeated) m ∧ m.opened 0 3 = some 2 ∧
      m.opened 1 3 = some 2 ∧ m.opened 0 4 = some 2 ∧ m.opened 1 4 = none ∧ DescriptorsValid m := by
  have hrun : (follow FdCall.execChecked (openA 0 ++ [(0, .fork), (1, .open pathA 0),
      (0, .open pathA 0), (1, .resume), (0, .resume), (1, .resume), (0, .resume), (1, .close 4)])
      fdMachine).map (fun m => (m.opened 0 3, m.opened 1 3, m.opened 0 4, m.opened 1 4)) =
        some (some 2, some 2, some 2, none) := by
    decide +kernel
  obtain ⟨m, hm, hopened⟩ := Option.map_eq_some_iff.mp hrun
  simp only [Prod.mk.injEq] at hopened
  obtain ⟨h03, h13, h04, h14⟩ := hopened
  have hreach := reachable_of_execChecked fdMachine_start hm
  exact ⟨m, hreach, h03, h13, h04, h14, descriptors_keep_inode hreach⟩

theorem reachable_of_exec {calls : List (ℕ × FdCall)} {m m' : FdMachine} (hm : FdStart m)
    (h : follow FdCall.exec calls m = some m') :
    Reachable FdStart (FdStep .repeated) (fun _ _ => True) m' := by
  refine Reachable.of_follow ?_ (.start hm) h
  exact fun m call m' h => ⟨trivial, FdCall.step_of_exec h⟩

/-- A descriptor whose entry has another inode, or none. -/
theorem not_valid {m : FdMachine} {p fd g a : ℕ} (hlow : 3 ≤ fd) (hopened : m.opened p fd = some a)
    (htable : (m.kernel.tasks p).fdTable fd = g) (hinode : (m.kernel.fileTable g).fdInode ≠ some a) :
    ¬ DescriptorsValid m := by
  intro hvalid
  obtain ⟨g', -, hg', hsome⟩ := hvalid p fd a hlow hopened
  have hgg : g' = g := by
    rw [htable] at hg'
    exact_mod_cast hg'.symm
  rw [hgg] at hsome
  exact hinode hsome

/-- A process opens `/a` and forks, and the child closes its copy: the parent's descriptor has lost its
inode. -/
theorem close_breaks_parent :
    ∃ m, Reachable FdStart (FdStep .repeated) (fun _ _ => True) m ∧ ¬ DescriptorsValid m := by
  have hrun : (follow FdCall.exec (openA 0 ++ [(0, .fork), (1, .close 3)]) fdMachine).map
      (fun m => (m.opened 0 3, (m.kernel.tasks 0).fdTable 3, (m.kernel.fileTable 3).fdInode)) =
        some (some 2, 3, none) := by
    decide +kernel
  obtain ⟨m, hm, hstate⟩ := Option.map_eq_some_iff.mp hrun
  simp only [Prod.mk.injEq] at hstate
  obtain ⟨hopened, htable, hinode⟩ := hstate
  refine ⟨m, reachable_of_exec fdMachine_start hm, not_valid le_rfl hopened htable ?_⟩
  rw [hinode]
  simp

end BochsOs
