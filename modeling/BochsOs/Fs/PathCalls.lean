import BochsOs.Fs.Cwd
import BochsOs.Fs.Frame
import BochsOs.Fs.Resolve

/-!
# What the calls with a path act on

`sys_stat`, `sys_unlink`, `sys_rmdir`, `sys_chdir`, `sys_opendir`, and `sys_open` without
`O_CREAT`, in a consistent tree.  `PathCall.Exactly` says that the call acts on what the path
denotes, if that is of a kind the call accepts, or fails and changes nothing.  It does not
always: `PathCall.Safe` is the exact condition.  A path that goes on behind the name of a
file is taken for that file, a run of slashes for whatever number stands on the stack, the
root stops `sys_unlink` and `sys_rmdir`, and `sys_open` leaves things behind when it fails
late.
-/

namespace BochsOs

open ByteMemory Suspend Suspend.Prog NameTrees Words

/-! ## The calls -/

/-- The calls with a path that create nothing. -/
inductive PathCall where
  | stat
  | unlink
  | rmdir
  | chdir
  | opendir
  | open (flags : ℕ) (plain : flags ≤ 7 ∧ flags &&& oCreat = 0)

/-- An entry of `file_table` is free. -/
def Kernel.HasSlot (k : Kernel) : Prop :=
  ∃ fd ∈ List.range' 3 (maxFileOpen - 3), (k.fileTable fd).fdInode = none

/-- A descriptor of the running process is free. -/
def Kernel.HasFd (k : Kernel) : Prop :=
  ∃ fd ∈ List.range' 3 (maxFilesOpenPerProc - 3), k.cur.fdTable fd = -1

/-- The handle `d` stands for the inode `n`, and is all that is left of what happened
since `k`. -/
structure HandleOf (t : Transfer) (k : Kernel) (n d : ℕ) (k' : Kernel) : Prop where
  closes : Restored k (k'.closeDir d)
  live : d = rootDir ∨ d ∈ k'.liveDirs
  node : ∀ a ∈ k.findOpen n, (k'.dirs d).inode = a
  inode : (k.inodeOf t n).SameContent (k'.dirInode d)

/-- The inode at `a` is that of number `n` in the state `k`. -/
structure FileOf (t : Transfer) (k : Kernel) (n a : ℕ) (k' : Kernel) : Prop where
  node : ∀ a' ∈ k.findOpen n, a = a'
  iNo : (k'.inodes a).iNo = (k.inodeOf t n).iNo
  iSize : (k'.inodes a).iSize = (k.inodeOf t n).iSize
  iSectors : (k'.inodes a).iSectors = (k.inodeOf t n).iSectors

namespace PathCall

/-- The type of what a call returns. -/
abbrev Result : PathCall → Type
  | stat => Option Stat
  | unlink => ℤ
  | rmdir => ℤ
  | chdir => ℤ
  | opendir => Option ℕ
  | .open _ _ => ℤ

/-- The call. -/
def run (t : Transfer) (path : CString) : (c : PathCall) → Prog Kernel c.Result
  | stat => sysStat t path
  | unlink => sysUnlink t path
  | rmdir => sysRmdir t path
  | chdir => sysChdir t path
  | opendir => sysOpendir t path
  | .open flags _ => sysOpen t path flags

/-- The result reports a failure. -/
def Failed : (c : PathCall) → c.Result → Prop
  | stat, r => r = none
  | unlink, r => r = -1
  | rmdir, r => r = -1
  | chdir, r => r = -1
  | opendir, r => r = none
  | .open _ _, r => r = -1

/-- The kinds of objects that a call accepts. -/
def accepts : PathCall → ℕ × FileType → Bool
  | stat, _ => true
  | unlink, o => o.2 = .regular
  | rmdir, o => o.2 = .directory && o.1 ≠ 0
  | chdir, o => o.2 = .directory
  | opendir, o => o.2 = .directory
  | .open _ _, o => o.2 = .regular

/-- The call has succeeded and acted on the object `o`. -/
def Acts (t : Transfer) (k : Kernel) (o : ℕ × FileType) :
    (c : PathCall) → c.Result → Kernel → Prop
  | stat, r, k' => r = some ⟨o.1, (k.inodeOf t o.1).iSize, o.2⟩ ∧ Restored k k'
  | unlink, r, k' => r = 0 ∧ k'.part.inodeBitmap = bitmapSet k.part.inodeBitmap o.1 false
  | rmdir, r, k' => r = 0 ∧ k'.part.inodeBitmap = bitmapSet k.part.inodeBitmap o.1 false
  | chdir, r, k' => r = 0 ∧ Restored (k.setCwd o.1) k'
  | opendir, r, k' => ∃ d, r = some d ∧ HandleOf t k o.1 d k'
  | .open _ _, r, k' => ∃ fd g a : ℕ, r = fd ∧ k'.cur.fdTable fd = g ∧
      (k'.fileTable g).fdInode = some a ∧ FileOf t k o.1 a k'

/-- What the path denotes, if the call accepts it. -/
def target (t : Transfer) (k : Kernel) (path : CString) (c : PathCall) : Option (ℕ × FileType) :=
  (k.denotes t path.val).filter c.accepts

/-- The call acts on the object that the path denotes, or fails and changes nothing; where
there is no such object it fails and changes nothing. -/
def Exactly (t : Transfer) (k : Kernel) (path : CString) (c : PathCall) : Prop :=
  match c.target t k path with
  | some o => ∀ r k', (c.run t path).Returns k r k' →
      c.Failed r ∧ Restored k k' ∨ c.Acts t k o r k'
  | none => (∃ r k', (c.run t path).exec [] k = some (r, k') ∧ c.Failed r ∧ Restored k k') ∧
      ∀ r k', (c.run t path).Returns k r k' → c.Failed r ∧ Restored k k'

/-- The condition under which a call does what it should. -/
def Safe (t : Transfer) (k : Kernel) (path : CString) : PathCall → Prop
  | stat => ¬ SlashRun path.val ∧ k.passes t path.val = none
  | unlink => (∀ ty, k.denotes t path.val ≠ some (0, ty)) ∧
      ∀ f ∈ k.passes t path.val, k.isOpen f = true
  | rmdir => ∀ ty, k.denotes t path.val ≠ some (0, ty)
  | chdir => ¬ SlashRun path.val
  | opendir => ¬ SlashRun path.val
  | .open flags _ => path.val.getLast? = some slash ∨
      ∀ n, k.denotes t path.val = some (n, .regular) →
        k.HasSlot ∧ k.HasFd ∧ ¬ (wantsWrite flags = true ∧ (k.inodeOf t n).writeDeny = true) ∨
          ¬ k.HasSlot ∧ (words slash path.val).length = 1

section Exactly

variable {t : Transfer} {k : Kernel} {path : CString} {c : PathCall}

/-- A call with a target that acts on it or fails. -/
theorem exactly_of_wp {o : ℕ × FileType} (htarget : c.target t k path = some o)
    (h : (c.run t path).wp (fun r k' => c.Failed r ∧ Restored k k' ∨ c.Acts t k o r k') k) :
    c.Exactly t k path := by
  unfold Exactly
  rw [htarget]
  exact wp_iff_returns.mp h

/-- A call without a target that fails, whether memory runs out or not. -/
theorem exactly_of_ensures (htarget : c.target t k path = none)
    (h : ∀ e, FairEnv e → (c.run t path).ensures e (fun r k' => c.Failed r ∧ Restored k k') k) :
    c.Exactly t k path := by
  unfold Exactly
  rw [htarget]
  exact ⟨exec_of_ensures (h .zero fairEnv_zero),
    wp_iff_returns.mp (wp_of_ensures (h .any fairEnv_any))⟩

theorem Exactly.some {o : ℕ × FileType} (h : c.Exactly t k path)
    (htarget : c.target t k path = some o) {r : c.Result} {k' : Kernel}
    (hret : (c.run t path).Returns k r k') : c.Failed r ∧ Restored k k' ∨ c.Acts t k o r k' := by
  unfold Exactly at h
  rw [htarget] at h
  exact h r k' hret

theorem Exactly.none (h : c.Exactly t k path) (htarget : c.target t k path = none) :
    ∃ r k', (c.run t path).exec [] k = Option.some (r, k') ∧ c.Failed r ∧ Restored k k' := by
  unfold Exactly at h
  rw [htarget] at h
  exact h.1

theorem target_of_denotes {o : ℕ × FileType} (hdenotes : k.denotes t path.val = Option.some o)
    (haccepts : c.accepts o = true) : c.target t k path = Option.some o := by
  rw [target, hdenotes, Option.filter_some, if_pos haccepts]

theorem target_of_not_accepts {o : ℕ × FileType} (hdenotes : k.denotes t path.val = Option.some o)
    (haccepts : ¬ c.accepts o = true) : c.target t k path = Option.none := by
  rw [target, hdenotes, Option.filter_some, if_neg haccepts]

theorem target_of_denotes_none (hdenotes : k.denotes t path.val = Option.none) :
    c.target t k path = Option.none := by
  rw [target, hdenotes, Option.filter_none]

end Exactly

end PathCall

/-- A run of slashes denotes the root. -/
theorem SlashRun.denotes {t : Transfer} {k : Kernel} {path : List UInt8} (hrun : SlashRun path) :
    k.denotes t path = some (0, .directory) := by
  rw [Kernel.denotes, hrun.1]
  rfl

/-! ## Several handles -/

theorem Kernel.iNo_of_findOpen {k : Kernel} {n a : ℕ} (h : k.findOpen n = some a) :
    (k.inodes a).iNo = n := by
  unfold Kernel.findOpen at h
  exact of_decide_eq_true (List.find?_some (p := fun a => decide ((k.inodes a).iNo = n)) h)

theorem Kernel.closeInode_eq (k : Kernel) (a : ℕ) : k.closeInode a =
    { k.setInode a (k.inodes a).dropOpenCnt with
      openInodes := if (k.inodes a).dropOpenCnt.iOpenCnts = 0 then k.openInodes.erase a
        else k.openInodes } := by
  unfold Kernel.closeInode
  split <;> rfl

theorem Kernel.closeInode_inodes (k : Kernel) (a : ℕ) :
    (k.closeInode a).inodes = Function.update k.inodes a (k.inodes a).dropOpenCnt := by
  rw [k.closeInode_eq]
  rfl

/-- The order in which two inodes are closed does not matter. -/
theorem Kernel.closeInode_comm (k : Kernel) (a b : ℕ) :
    (k.closeInode a).closeInode b = (k.closeInode b).closeInode a := by
  by_cases hab : a = b
  · rw [hab]
  have hb : (k.closeInode a).inodes b = k.inodes b := by
    rw [k.closeInode_inodes, Function.update_of_ne (Ne.symm hab)]
  have ha : (k.closeInode b).inodes a = k.inodes a := by
    rw [k.closeInode_inodes, Function.update_of_ne hab]
  rw [(k.closeInode a).closeInode_eq, (k.closeInode b).closeInode_eq, ha, hb]
  have hinodes : Function.update (k.closeInode a).inodes b (k.inodes b).dropOpenCnt =
      Function.update (k.closeInode b).inodes a (k.inodes a).dropOpenCnt := by
    rw [k.closeInode_inodes, k.closeInode_inodes, Function.update_comm hab]
  have hopen (a : ℕ) : (k.closeInode a).openInodes =
      if (k.inodes a).dropOpenCnt.iOpenCnts = 0 then k.openInodes.erase a else k.openInodes := by
    rw [k.closeInode_eq]
  have hboth : (if (k.inodes b).dropOpenCnt.iOpenCnts = 0 then (k.closeInode a).openInodes.erase b
      else (k.closeInode a).openInodes) =
      if (k.inodes a).dropOpenCnt.iOpenCnts = 0 then (k.closeInode b).openInodes.erase a
      else (k.closeInode b).openInodes := by
    rw [hopen, hopen]
    split <;> split
    · exact List.erase_comm a b
    · rfl
    · rfl
    · rfl
  unfold Kernel.setInode
  rw [hinodes, hboth, k.closeInode_rest a, k.closeInode_rest b]

theorem Kernel.closeInode_liveDirs (k : Kernel) (l : List ℕ) (a : ℕ) :
    ({ k with liveDirs := l } : Kernel).closeInode a = { k.closeInode a with liveDirs := l } := by
  rw [Kernel.closeInode_eq, Kernel.closeInode_eq]
  rfl

theorem Kernel.closeDir_comm (k : Kernel) (d p : ℕ) :
    (k.closeDir d).closeDir p = (k.closeDir p).closeDir d := by
  by_cases hd : d = rootDir
  · unfold Kernel.closeDir
    rw [if_pos hd, if_pos hd]
  by_cases hp : p = rootDir
  · unfold Kernel.closeDir
    rw [if_pos hp, if_pos hp]
  have hdirs (d : ℕ) : (k.closeDir d).dirs = k.dirs := by rw [k.closeDir_rest]
  have hclose (d p : ℕ) (hd : d ≠ rootDir) (hp : p ≠ rootDir) : (k.closeDir d).closeDir p =
      { (k.closeInode (k.dirs d).inode).closeInode (k.dirs p).inode with
        liveDirs := (k.liveDirs.erase d).erase p } := by
    have hlive : (k.closeDir d).liveDirs = k.liveDirs.erase d := by
      rw [Kernel.closeDir, if_neg hd]
    rw [Kernel.closeDir, if_neg hp, hdirs, hlive, Kernel.closeDir, if_neg hd,
      Kernel.closeInode_liveDirs]
  rw [hclose d p hd hp, hclose p d hp hd, k.closeInode_comm, List.erase_comm]

theorem Kernel.closeDir_content (k : Kernel) (p a : ℕ) :
    (k.inodes a).SameContent ((k.closeDir p).inodes a) := by
  by_cases hp : p = rootDir
  · rw [Kernel.closeDir, if_pos hp]
    exact .refl _
  rw [Kernel.closeDir, if_neg hp]
  dsimp only
  rw [k.closeInode_inodes]
  by_cases ha : a = (k.dirs p).inode
  · rw [ha, Function.update_self]
    exact Inode.sameContent_count _ _
  · rw [Function.update_of_ne ha]
    exact .refl _

section Handles

variable {t : Transfer} {k k₁ k₂ : Kernel} {n m d p : ℕ}

theorem Holding.handleOf (h : Holding t k n d k₁) : HandleOf t k n d k₁ :=
  ⟨h.closes, h.live, h.node, h.inode⟩

/-- A handle stays live while another one is opened. -/
theorem Holding.live_of_live (hd : Holding t k₁ m d k₂) (hp : p = rootDir ∨ p ∈ k₁.liveDirs) :
    p = rootDir ∨ p ∈ k₂.liveDirs := by
  refine hp.imp_right fun hmem => ?_
  rw [← hd.closes.liveDirs, Kernel.closeDir] at hmem
  split at hmem
  · exact hmem
  · exact List.mem_of_mem_erase hmem

/-- While the handle `p` is held, `d` is opened; then `p` is closed. -/
theorem Holding.closeOther (h : Holding t k n p k₁) (hd : Holding t k₁ m d k₂)
    (hne : d ≠ p) : HandleOf t k m d (k₂.closeDir p) := by
  have hfresh := h.looks.cache.fresh _ h.mem
  have hdirs : (k₂.closeDir p).dirs = k₂.dirs := by rw [k₂.closeDir_rest]
  refine ⟨?_, ?_, fun a ha => ?_, ?_⟩
  · rw [k₂.closeDir_comm]
    exact h.closes.trans (hd.closes.closeDir h.bound hfresh)
  · refine hd.live.imp_right fun hmem => ?_
    unfold Kernel.closeDir
    split
    · exact hmem
    · exact (List.mem_erase_of_ne hne).mpr hmem
  · rw [hdirs]
    exact hd.node a (h.looks.nodes m a ha)
  · have hinode := (h.looks.tree.inodeOf m).trans hd.inode
    rw [Kernel.dirInode, hdirs]
    exact hinode.trans (k₂.closeDir_content p _)

end Handles

/-- A number names the same file or directory still. -/
theorem Kernel.Names.looks {t : Transfer} {k k₁ : Kernel} {m : ℕ} (hm : k.Names t m)
    (h : Looks t k k₁) : k₁.Names t m :=
  ⟨hm.small, (h.tree.inodeOf m).iNo.trans hm.iNo⟩

/-- The paths that `search_file` treats on their own denote the root. -/
theorem ConsistentTree.denotes_root {t : Transfer} {k : Kernel} (hk : ConsistentTree t k)
    {path : CString} (hpath : LookupPath path.val) (hroot : isRootPath path.val = true) :
    k.denotes t path.val = some (0, .directory) ∧ k.passes t path.val = none := by
  have hcase := hk.findPath_case hpath
  rw [Kernel.findPath, if_pos hroot] at hcase
  cases hcase with
  | directory hr ht hm hp => exact ⟨hr, ht⟩

/-! ## `sys_stat` -/

section Stat

variable {t : Transfer} {e : Env} (he : FairEnv e) {k : Kernel} (hk : ConsistentTree t k)
  {path : CString}

/-- What `sys_stat` can return. -/
inductive StatResult (t : Transfer) (e : Env) (k : Kernel) (path : List UInt8) : Option Stat → Prop
  | object {o : ℕ × FileType} (hdenotes : k.denotes t path = some o)
      (hpasses : k.passes t path = none) :
      StatResult t e k path (some ⟨o.1, (k.inodeOf t o.1).iSize, o.2⟩)
  | through {m : ℕ} {stat : Stat} (hdenotes : k.denotes t path = none)
      (hpasses : k.passes t path = some m) : StatResult t e k path (some stat)
  | nothing (hnone : k.denotes t path = none ∧ k.passes t path = none ∨ e.stops) :
      StatResult t e k path none

include he hk

theorem ensures_sysStat (hpath : LookupPath path.val) (hnames : ShortNames path.val) :
    (sysStat t path).ensures e (fun r k' => StatResult t e k path.val r ∧ Restored k k') k := by
  unfold sysStat
  by_cases hroot : isRootPath path.val = true
  · obtain ⟨hdenotes, hpasses⟩ := hk.denotes_root hpath hroot
    have hsize : (k.dirInode rootDir).iSize = (k.inodeOf t 0).iSize := by
      rw [Kernel.inodeOf, hk.cache.root]
      rfl
    rw [if_pos hroot]
    simp only [ensures_bind, ensures_read, ensures_pure]
    rw [hsize]
    exact ⟨.object hdenotes hpasses, .refl k⟩
  · rw [if_neg hroot, ensures_bind]
    refine ensures_mono (ensures_searched he hk hpath (Or.inr hnames.fits)) ?_
    have hobject {m p : ℕ} {record : PathSearchRecord} {k₁ : Kernel} (hm : k.Names t m)
        (hhold : Holding t k p record.parentDir k₁) (hresult : StatResult t e k path.val
          (some ⟨m, (k.inodeOf t m).iSize, record.fileType⟩)) :
        ensures e (do
          let a ← inodeOpen t m
          let k ← read
          inodeClose a
          let ret ← pure (some (Stat.mk m (k.inodes a).iSize record.fileType))
          dirClose record.parentDir
          return ret : Prog Kernel (Option Stat))
        (fun r k' => StatResult t e k path.val r ∧ Restored k k') k₁ := by
      have hnames := hm.looks hhold.looks
      rw [ensures_bind]
      refine ensures_inodeOpen he hhold.looks.cache hnames.small hnames.iNo (.refl k₁)
        fun a k₂ h => ?_
      simp only [ensures_bind, ensures_read, ensures_inodeClose, ensures_pure]
      refine ensures_dirClose (hhold.restored h.closes) fun k₃ hback => ⟨?_, hback⟩
      rw [h.inode.iSize, (hhold.looks.tree.inodeOf m).iSize]
      exact hresult
    rintro _ k₁ (⟨hdenotes, hpasses, hm, hp, htype, hhold⟩ |
      ⟨hdenotes, hpasses, hm, hpos, htype, -, -, hhold⟩ |
      ⟨hdenotes, hpasses, hm, hpos, htype, -, -, -, -, hhold⟩ | ⟨hnone, -, htype, hhold⟩)
    · refine hobject (hk.dir _ hm).names hhold ?_
      rw [htype]
      exact .object hdenotes hpasses
    · refine hobject hm hhold ?_
      rw [htype]
      exact .object hdenotes hpasses
    · exact hobject hm hhold (.through hdenotes hpasses)
    · simp only [ensures_bind, ensures_pure]
      exact ensures_dirClose hhold fun k₂ hback => ⟨.nothing hnone, hback⟩

omit he

/-- For a run of slashes `sys_stat` can report on the inode 1. -/
theorem stat_slashRun (hrun : SlashRun path.val) (habs : path.val.head? = some slash)
    (hlen : path.val.length < maxPathLen) :
    ∃ r k', (sysStat t path).exec [1] k = some (r, k') ∧ ∃ size, r = some ⟨1, size, .directory⟩ := by
  obtain ⟨d, k₁, hhold, hexec⟩ := exec_slashRun hk hrun habs hlen [1] rfl
  have hclose {size : ℕ} {k₂ : Kernel} (hlive : k₂.liveDirs = k₁.liveDirs) :
      ensures .zero (do dirClose d; return some ⟨1, size, .directory⟩ : Prog Kernel (Option Stat))
        (fun r _ => ∃ size, r = some ⟨1, size, .directory⟩) k₂ := by
    rw [ensures_bind, ensures_closeDir (by rw [hlive]; exact hhold.live)]
    exact ⟨size, rfl⟩
  rw [sysStat, if_neg hrun.not_isRootPath, hexec]
  refine exec_of_ensures ?_
  change ensures .zero (do
    let a ← inodeOpen t 1
    let k ← read
    inodeClose a
    let ret ← pure (some (Stat.mk 1 (k.inodes a).iSize .directory))
    dirClose d
    return ret : Prog Kernel (Option Stat)) _ _
  rw [ensures_bind]
  refine ensures_inodeOpen_cases fairEnv_zero hhold.looks.cache (by decide) (fun a _ => ?_) fun _ => ?_
  · rw [ensures_bind, ensures_read, ensures_bind, ensures_inodeClose]
    exact hclose (by rw [Kernel.closeInode_rest]; rfl)
  · rw [ensures_bind, ensures_read, ensures_bind, ensures_inodeClose]
    exact hclose (by rw [Kernel.closeInode_rest]; rfl)

theorem stat_exact_iff (hnames : ShortNames path.val) (habs : path.val.head? = some slash)
    (hlen : path.val.length < maxPathLen) :
    PathCall.stat.Exactly t k path ↔ PathCall.stat.Safe t k path := by
  constructor
  · intro h
    have hrun : ¬ SlashRun path.val := by
      intro hrun
      obtain ⟨r, k', hexec, size, rfl⟩ := stat_slashRun hk hrun habs hlen
      have htarget := PathCall.target_of_denotes (c := .stat) (hrun.denotes (t := t) (k := k)) rfl
      rcases h.some htarget (returns_of_exec hexec) with ⟨hfailed, -⟩ | ⟨hacts, -⟩
      · cases hfailed
      · cases hacts
    refine ⟨hrun, Option.eq_none_iff_forall_ne_some.mpr fun m hpasses => ?_⟩
    have hpath := lookupPath_of_not_slashRun habs hlen hrun
    obtain ⟨r, k', hexec, hresult, -⟩ :=
      exec_of_ensures (ensures_sysStat fairEnv_zero hk hpath hnames)
    cases hresult with
    | object _ hnone =>
        rw [hnone] at hpasses
        cases hpasses
    | through hdenotes _ =>
        obtain ⟨r', k'', hexec', hfailed, -⟩ := h.none (PathCall.target_of_denotes_none hdenotes)
        change (sysStat t path).exec [] k = _ at hexec'
        rw [hexec] at hexec'
        cases hexec'
        cases hfailed
    | nothing hnone =>
        rw [(hnone.resolve_right id).2] at hpasses
        cases hpasses
  · rintro ⟨hrun, hpasses⟩
    have hpath := lookupPath_of_not_slashRun habs hlen hrun
    have hspec (e : Env) (he : FairEnv e) := ensures_sysStat he hk hpath hnames
    rcases hdenotes : k.denotes t path.val with _ | o
    · refine PathCall.exactly_of_ensures (PathCall.target_of_denotes_none hdenotes) fun e he =>
        ensures_mono (hspec e he) fun r k' ⟨hresult, hback⟩ => ⟨?_, hback⟩
      cases hresult with
      | object hsome _ =>
          rw [hdenotes] at hsome
          cases hsome
      | through _ hsome =>
          rw [hpasses] at hsome
          cases hsome
      | nothing _ => rfl
    · refine PathCall.exactly_of_wp (PathCall.target_of_denotes hdenotes rfl)
        (wp_mono (wp_of_ensures (hspec .any fairEnv_any)) fun r k' ⟨hresult, hback⟩ => ?_)
      cases hresult with
      | object hsome _ =>
          rw [hdenotes] at hsome
          cases hsome
          exact Or.inr ⟨rfl, hback⟩
      | through _ hsome =>
          rw [hpasses] at hsome
          cases hsome
      | nothing _ => exact Or.inl ⟨rfl, hback⟩

end Stat

/-! ## `sys_chdir` -/

section Chdir

variable {t : Transfer} {k : Kernel} (hk : ConsistentTree t k) {path : CString}

include hk

/-- `sys_chdir` changes to the directory that the path denotes. -/
theorem ensures_sysChdir_denotes {e : Env} (he : FairEnv e) (hpath : LookupPath path.val)
    (hnames : ShortNames path.val) : (sysChdir t path).ensures e (fun r k' =>
      (∃ n, k.denotes t path.val = some (n, .directory) ∧ r = 0 ∧ Restored (k.setCwd n) k') ∨
        ((∀ n, k.denotes t path.val ≠ some (n, .directory)) ∨ e.stops) ∧ r = -1 ∧ Restored k k') k := by
  have hcase := hk.findPath_case hpath
  refine ensures_sysChdir he hk (.refl k) hpath (Or.inr hnames) (fun n k' hiNo htype hback => ?_)
    fun k' hnone hback => Or.inr ⟨?_, rfl, hback⟩
  · generalize k.findPath t path.val = f at hcase hiNo htype
    cases hcase with
    | directory hr ht hm hp =>
        cases hiNo
        exact Or.inl ⟨n, hr, rfl, hback⟩
    | file => cases htype
    | through => cases htype
    | nothing => cases htype
  · rw [← or_assoc] at hnone
    refine hnone.imp_left fun hnone n hn => ?_
    generalize k.findPath t path.val = f at hcase hnone
    change k.resolve t 0 (words slash path.val) = _ at hn
    cases hcase with
    | directory => simp at hnone
    | file hr =>
        rw [hr] at hn
        cases hn
    | through hr =>
        rw [hr] at hn
        cases hn
    | nothing hr =>
        rw [hr] at hn
        cases hn

/-- For a run of slashes `sys_chdir` can change to the inode 1. -/
theorem chdir_slashRun (hrun : SlashRun path.val) (habs : path.val.head? = some slash)
    (hlen : path.val.length < maxPathLen) :
    ∃ k', (sysChdir t path).exec [1] k = some (0, k') ∧ k'.cur.cwdInodeNr = 1 := by
  obtain ⟨d, k₁, hhold, hexec⟩ := exec_slashRun hk hrun habs hlen [1] rfl
  have hens : ensures .zero (do
      modify fun k => k.setTask k.running { k.cur with cwdInodeNr := 1 }
      let ret ← pure 0
      dirClose d
      return ret : Prog Kernel ℤ) (fun r k' => r = 0 ∧ k'.cur.cwdInodeNr = 1) k₁ := by
    rw [ensures_bind, ensures_modify]
    simp only [ensures_bind, ensures_pure]
    refine (ensures_closeDir (hhold.setCwd 1).live).mpr ⟨trivial, ?_⟩
    rw [Kernel.closeDir_rest]
    change (Function.update k₁.tasks k₁.running _ k₁.running).cwdInodeNr = 1
    rw [Function.update_self]
  obtain ⟨r, k', hrest, rfl, hcwd⟩ := exec_of_ensures hens
  refine ⟨k', ?_, hcwd⟩
  rw [sysChdir, hexec]
  exact hrest

theorem chdir_exact_iff (hnames : ShortNames path.val) (habs : path.val.head? = some slash)
    (hlen : path.val.length < maxPathLen) :
    PathCall.chdir.Exactly t k path ↔ PathCall.chdir.Safe t k path := by
  constructor
  · intro h hrun
    obtain ⟨k', hexec, hcwd⟩ := chdir_slashRun hk hrun habs hlen
    have htarget := PathCall.target_of_denotes (c := .chdir) (hrun.denotes (t := t) (k := k)) rfl
    rcases h.some htarget (returns_of_exec hexec) with ⟨hfailed, -⟩ | ⟨-, hback⟩
    · cases hfailed
    · have hzero := hback.setCwd_cwd
      rw [hcwd] at hzero
      cases hzero
  · intro hrun
    have hpath := lookupPath_of_not_slashRun habs hlen hrun
    have hspec (e : Env) (he : FairEnv e) := ensures_sysChdir_denotes hk he hpath hnames
    by_cases hdir : ∃ n, k.denotes t path.val = some (n, .directory)
    · obtain ⟨n, hn⟩ := hdir
      refine PathCall.exactly_of_wp (PathCall.target_of_denotes hn rfl)
        (wp_mono (wp_of_ensures (hspec .any fairEnv_any)) ?_)
      rintro r k' (⟨m, hm, hr, hback⟩ | ⟨-, hr, hback⟩)
      · rw [hn] at hm
        cases hm
        exact Or.inr ⟨hr, hback⟩
      · exact Or.inl ⟨hr, hback⟩
    · have htarget : PathCall.chdir.target t k path = none := by
        rcases hdenotes : k.denotes t path.val with _ | ⟨n, ty⟩
        · exact PathCall.target_of_denotes_none hdenotes
        · refine PathCall.target_of_not_accepts hdenotes fun haccepts => hdir ⟨n, ?_⟩
          have hty : ty = .directory := of_decide_eq_true haccepts
          rw [hdenotes, hty]
      refine PathCall.exactly_of_ensures htarget fun e he => ensures_mono (hspec e he) ?_
      rintro r k' (⟨n, hn, -, -⟩ | ⟨-, hr, hback⟩)
      · exact absurd ⟨n, hn⟩ hdir
      · exact ⟨hr, hback⟩

end Chdir

/-! ## `sys_opendir` -/

section Opendir

variable {t : Transfer} {k : Kernel} (hk : ConsistentTree t k) {path : CString}

include hk

/-- `sys_opendir` opens the directory that the path denotes. -/
theorem ensures_sysOpendir {e : Env} (he : FairEnv e) (hpath : LookupPath path.val)
    (hnames : ShortNames path.val) : (sysOpendir t path).ensures e (fun r k' =>
      (∃ n d, k.denotes t path.val = some (n, .directory) ∧ r = some d ∧ HandleOf t k n d k') ∨
        ((∀ n, k.denotes t path.val ≠ some (n, .directory)) ∨ e.stops) ∧ r = none ∧
          Restored k k') k := by
  rw [sysOpendir, ensures_bind, ensures_assert (decide_eq_true hpath.length)]
  by_cases hslash : path.val = [slash]
  · have hroot : isRootPath path.val = true := by
      rw [hslash]
      decide
    rw [if_pos hslash]
    exact Or.inl ⟨0, rootDir, (hk.denotes_root hpath hroot).1, rfl,
      (Holding.root hk.cache (.refl k)).handleOf⟩
  · have hnone {p : ℕ} {record : PathSearchRecord} {k₁ : Kernel}
        (hhold : Holding t k p record.parentDir k₁)
        (hnot : (∀ n, k.denotes t path.val ≠ some (n, .directory)) ∨ e.stops) :
        ensures e (do
          let ret ← pure none
          dirClose record.parentDir
          return ret : Prog Kernel (Option ℕ)) (fun r k' =>
            (∃ n d, k.denotes t path.val = some (n, .directory) ∧ r = some d ∧
              HandleOf t k n d k') ∨
            ((∀ n, k.denotes t path.val ≠ some (n, .directory)) ∨ e.stops) ∧ r = none ∧
              Restored k k') k₁ := by
      simp only [ensures_bind, ensures_pure]
      exact ensures_dirClose hhold fun k₂ hback => Or.inr ⟨hnot, trivial, hback⟩
    rw [if_neg hslash, ensures_bind]
    refine ensures_mono (ensures_searched he hk hpath (Or.inr hnames.fits)) ?_
    rintro _ k₁ (⟨hdenotes, -, hm, hp, htype, hhold⟩ | ⟨hdenotes, -, hm, hpos, htype, -, -, hhold⟩ |
      ⟨hdenotes, -, hm, hpos, htype, -, -, -, -, hhold⟩ | ⟨hnothing, -, htype, hhold⟩)
    · -- the new handle is opened while that of the parent is held
      dsimp only
      rw [if_pos htype]
      simp only [ensures_bind, ensures_pure]
      refine ensures_dirOpen he hhold.looks.cache (hhold.looks.tree.dirOk (hk.dir _ hm)) (.refl k₁)
        fun d k₂ hnew hd => ?_
      rw [ensures_closeDir (hd.live_of_live hhold.live)]
      exact Or.inl ⟨_, d, hdenotes, rfl, hhold.closeOther hd (hhold.bound.trans_le hnew).ne'⟩
    · dsimp only
      rw [if_neg (by rw [htype]; decide)]
      exact hnone hhold (Or.inl fun n hn => by rw [hdenotes] at hn; cases hn)
    · dsimp only
      rw [if_neg (by rw [htype]; decide)]
      exact hnone hhold (Or.inl fun n hn => by rw [hdenotes] at hn; cases hn)
    · refine hnone hhold (hnothing.imp_left fun hboth n hn => ?_)
      rw [hboth.1] at hn
      cases hn

/-- For a run of slashes `sys_opendir` can open the inode 1. -/
theorem opendir_slashRun (hrun : SlashRun path.val) (habs : path.val.head? = some slash)
    (hlen : path.val.length < maxPathLen) :
    ∃ r k', (sysOpendir t path).exec [1] k = some (r, k') ∧
      ∃ d, r = some d ∧ (k'.dirs d).inode ≠ (k.dirs rootDir).inode := by
  obtain ⟨p, k₁, hhold, hexec⟩ := exec_slashRun hk hrun habs hlen [1] rfl
  have hroot : k₁.findOpen 0 = some (k.dirs rootDir).inode := hhold.looks.nodes 0 _ hk.cache.root
  have hcache := hhold.looks.cache
  have hend {a : ℕ} {k₂ : Kernel} (ha : a ≠ (k.dirs rootDir).inode)
      (hlive : k₂.liveDirs = k₁.liveDirs) :
      ensures .zero (do
        let ret ← pure (some k₂.nextDir)
        dirClose p
        return ret : Prog Kernel (Option ℕ))
        (fun r k' => ∃ d, r = some d ∧ (k'.dirs d).inode ≠ (k.dirs rootDir).inode)
        (k₂.addDir a) := by
    have hplive : p = rootDir ∨ p ∈ (k₂.addDir a).liveDirs := by
      refine hhold.live.imp_right fun hmem => List.mem_cons_of_mem _ ?_
      rwa [hlive]
    simp only [ensures_bind, ensures_pure]
    refine (ensures_closeDir hplive).mpr ⟨k₂.nextDir, rfl, ?_⟩
    have hself : (k₂.addDir a).dirs k₂.nextDir = ⟨a, 0⟩ := Function.update_self _ _ _
    rw [Kernel.closeDir_rest]
    change ((k₂.addDir a).dirs k₂.nextDir).inode ≠ _
    rw [hself]
    exact ha
  have hens : ensures .zero (do
      let dir ← dirOpen t 1
      let ret ← pure (some dir)
      dirClose p
      return ret : Prog Kernel (Option ℕ))
      (fun r k' => ∃ d, r = some d ∧ (k'.dirs d).inode ≠ (k.dirs rootDir).inode) k₁ := by
    rw [ensures_bind, dirOpen, ensures_bind]
    refine ensures_sysMallocUnchecked fairEnv_zero ?_
    rw [ensures_bind]
    refine ensures_inodeOpen_cases fairEnv_zero hcache (by decide) (fun a ha => ?_) fun _ => ?_
    · refine @hend a (k₁.reopen a) (fun heq => ?_) rfl
      -- the node of the inode 1 is not that of the root
      have hone := Kernel.iNo_of_findOpen ha
      have hzero := Kernel.iNo_of_findOpen hroot
      rw [heq, hzero] at hone
      cases hone
    · refine @hend _ (k₁.load (k₁.diskInode t 1)) (fun heq => ?_) rfl
      have hold := hcache.fresh _ (List.mem_of_find?_eq_some hroot)
      omega
  obtain ⟨r, k', hrest, hopened⟩ := exec_of_ensures hens
  refine ⟨r, k', ?_, hopened⟩
  rw [sysOpendir, exec_assert_bind (decide_eq_true hlen), if_neg hrun.2, hexec]
  exact hrest

theorem opendir_exact_iff (hnames : ShortNames path.val) (habs : path.val.head? = some slash)
    (hlen : path.val.length < maxPathLen) :
    PathCall.opendir.Exactly t k path ↔ PathCall.opendir.Safe t k path := by
  constructor
  · intro h hrun
    obtain ⟨r, k', hexec, d, rfl, hnode⟩ := opendir_slashRun hk hrun habs hlen
    have htarget := PathCall.target_of_denotes (c := .opendir) (hrun.denotes (t := t) (k := k)) rfl
    rcases h.some htarget (returns_of_exec hexec) with ⟨hfailed, -⟩ | ⟨d', hd, hhandle⟩
    · cases hfailed
    · cases hd
      exact hnode (hhandle.node _ hk.cache.root)
  · intro hrun
    have hpath := lookupPath_of_not_slashRun habs hlen hrun
    have hspec (e : Env) (he : FairEnv e) := ensures_sysOpendir hk he hpath hnames
    by_cases hdir : ∃ n, k.denotes t path.val = some (n, .directory)
    · obtain ⟨n, hn⟩ := hdir
      refine PathCall.exactly_of_wp (PathCall.target_of_denotes hn rfl)
        (wp_mono (wp_of_ensures (hspec .any fairEnv_any)) ?_)
      rintro r k' (⟨m, d, hm, hr, hhandle⟩ | ⟨-, hr, hback⟩)
      · rw [hn] at hm
        cases hm
        exact Or.inr ⟨d, hr, hhandle⟩
      · exact Or.inl ⟨hr, hback⟩
    · have htarget : PathCall.opendir.target t k path = none := by
        rcases hdenotes : k.denotes t path.val with _ | ⟨n, ty⟩
        · exact PathCall.target_of_denotes_none hdenotes
        · refine PathCall.target_of_not_accepts hdenotes fun haccepts => hdir ⟨n, ?_⟩
          have hty : ty = .directory := of_decide_eq_true haccepts
          rw [hdenotes, hty]
      refine PathCall.exactly_of_ensures htarget fun e he => ensures_mono (hspec e he) ?_
      rintro r k' (⟨n, d, hn, -, -⟩ | ⟨-, hr, hback⟩)
      · exact absurd ⟨n, hn⟩ hdir
      · exact ⟨hr, hback⟩

end Opendir

/-! ## Removing what a path denotes -/

/-- The states have the same bitmap of inodes. -/
def SameInodeBits (k k' : Kernel) : Prop := k'.part.inodeBitmap = k.part.inodeBitmap

instance : BlockFrame SameInodeBits where
  refl _ := rfl
  trans _ _ _ h h' := h'.trans h
  disk _ _ := rfl
  blockBitmap _ _ := rfl
  inode _ _ _ _ := rfl

instance : WalkFrame SameInodeBits where
  count _ _ _ := rfl
  erase _ _ := rfl
  alloc _ := rfl
  newInode _ _ := rfl
  newDir _ _ := rfl
  freeDir _ _ := rfl

section Remove

variable {t : Transfer} {k : Kernel}

/-- `inode_release` clears the bit of the inode and no other. -/
theorem inodeRelease_bits (n : ℕ) : (inodeRelease t n).wp
    (fun _ k' => k'.part.inodeBitmap = bitmapSet k.part.inodeBitmap n false) k := by
  -- what comes after the block of the indirect table
  have hend {a left : ℕ} {allBlocks : ℕ → ℕ} {k₁ : Kernel} (h₁ : SameInodeBits k k₁) :
      (do
        freeBlocks t allBlocks left 0
        setInodeBit n false
        bitmapSync t n .inodeBitmap
        sysMallocUnchecked
        inodeDelete t n 2
        inodeClose a : Prog Kernel Unit).wp
        (fun _ k' => k'.part.inodeBitmap = bitmapSet k.part.inodeBitmap n false) k₁ := by
    refine (freeBlocks_within t allBlocks left 0).wp_then h₁ fun _ k₂ h₂ => ?_
    rw [setInodeBit, wp_bind, wp_modify]
    have hrest : Within SameInodeBits (do
        bitmapSync t n .inodeBitmap
        sysMallocUnchecked
        inodeDelete t n 2
        inodeClose a : Prog Kernel Unit) :=
      (bitmapSync_within _ _ _).bind fun _ => sysMallocUnchecked_same.of_eq.bind fun _ =>
        (inodeDelete_within _ _ _).bind fun _ => inodeClose_within _
    refine wp_mono (hrest.wp_of rfl) fun _ k₃ h₃ => ?_
    unfold SameInodeBits at h₂ h₃
    rw [h₃, h₂]
  unfold inodeRelease
  refine (inodeOpen_within t n).wp_then (R := SameInodeBits) rfl fun a k₁ h₁ => ?_
  simp only [wp_bind, wp_read, wp_assert]
  intro _
  refine wp_mono ((readIndirect_same _ _).of_eq.wp_of h₁) fun table k₂ h₂ => ?_
  split
  · rw [wp_bind]
    exact wp_mono ((freeBlock_within _ _).wp_of h₂) fun _ k₃ h₃ => hend h₃
  · exact hend h₂

/-- A removal by `sys_unlink`. -/
theorem unlink_removes (n d : ℕ) : (do
    let _ ← deleteDirEntry t d n
    inodeRelease t n
    dirClose d
    return 0 : Prog Kernel ℤ).wp
    (fun r k' => r = 0 ∧ k'.part.inodeBitmap = bitmapSet k.part.inodeBitmap n false) k := by
  refine (deleteDirEntry_within t d n).wp_then (R := SameInodeBits) rfl fun _ k₁ h₁ => ?_
  rw [wp_bind]
  refine wp_mono (inodeRelease_bits n) fun _ k₂ h₂ => ?_
  refine (dirClose_within d).wp_then (R := SameInodeBits) (refl k₂) fun _ k₃ h₃ => ?_
  unfold SameInodeBits at h₁ h₃
  rw [h₁] at h₂
  exact ⟨rfl, h₃.trans h₂⟩

theorem some_ne_some_zero {n : ℕ} (hn : n ≠ 0) : some n ≠ some 0 := fun h => hn (Option.some.inj h)

/-- What the path denotes is not the root. -/
theorem denotes_ne_zero {path : List UInt8} (hroot : ∀ ty, k.denotes t path ≠ some (0, ty)) {n : ℕ}
    {ty : FileType} (hdenotes : k.denotes t path = some (n, ty)) : n ≠ 0 := by
  rintro rfl
  exact hroot ty hdenotes

/-- Whether a file is open does not change while a path is looked up. -/
theorem Looks.isOpen {k₁ : Kernel} (hk : k.CacheOk) (h : Looks t k k₁) (n : ℕ) :
    k₁.isOpen n = k.isOpen n := by
  unfold Kernel.isOpen
  rw [h.files, Bool.eq_iff_iff, List.any_eq_true, List.any_eq_true]
  refine exists_congr fun fd => and_congr_right fun hfd => ?_
  rcases hfile : (k.fileTable fd).fdInode with _ | a
  · exact Iff.rfl
  · have ha := hk.files fd (List.mem_range.mp hfd) a hfile
    dsimp only
    rw [(h.inodes a ha).iNo]

end Remove

/-! ### `sys_unlink` -/

section Unlink

variable {t : Transfer} {k : Kernel} (hk : ConsistentTree t k) {path : CString}

include hk

/-- `sys_unlink` and `sys_rmdir` stop on the root: the lookup returns the number 0. -/
theorem exec_root_none (habs : path.val.head? = some slash) (hlen : path.val.length < maxPathLen)
    (hnames : ShortNames path.val) {ty : FileType} (hroot : k.denotes t path.val = some (0, ty))
    {g : Option ℕ × PathSearchRecord → Prog Kernel ℤ}
    (hstop : ∀ record k', (g (some 0, record)).exec [] k' = none) :
    (searchFile t path >>= g).exec [] k = none := by
  by_cases hrun : SlashRun path.val
  · obtain ⟨d, k₁, -, hexec⟩ := exec_slashRun hk hrun habs hlen [] rfl
    rw [hexec]
    exact hstop _ _
  · have hpath := lookupPath_of_not_slashRun habs hlen hrun
    obtain ⟨r, k₁, hexec, hsearched⟩ :=
      exec_of_ensures (ensures_searched fairEnv_zero hk hpath (Or.inr hnames.fits))
    rw [exec_bind_nil, hexec]
    cases hsearched with
    | directory hdenotes =>
        rw [hdenotes] at hroot
        cases hroot
        exact hstop _ _
    | file hdenotes _ _ hpos =>
        rw [hdenotes] at hroot
        cases hroot
        exact absurd rfl hpos
    | through hdenotes =>
        rw [hdenotes] at hroot
        cases hroot
    | nothing hnone =>
        rw [(hnone.resolve_right id).1] at hroot
        cases hroot

/-- Where the path does not denote a file, and does not go through one that can be removed,
`sys_unlink` fails. -/
theorem ensures_sysUnlink_fails {e : Env} (he : FairEnv e) (hpath : LookupPath path.val)
    (hnames : ShortNames path.val) (hroot : ∀ ty, k.denotes t path.val ≠ some (0, ty))
    (hfile : ∀ n, k.denotes t path.val ≠ some (n, .regular))
    (hopen : ∀ f ∈ k.passes t path.val, k.isOpen f = true) :
    (sysUnlink t path).ensures e (fun r k' => r = -1 ∧ Restored k k') k := by
  have hclose {p d : ℕ} {k₁ : Kernel} (hhold : Holding t k p d k₁) :
      ensures e (do dirClose d; return -1 : Prog Kernel ℤ) (fun r k' => r = -1 ∧ Restored k k') k₁ := by
    rw [ensures_bind]
    exact ensures_dirClose hhold fun k₂ hback => ⟨rfl, hback⟩
  rw [sysUnlink, ensures_bind, ensures_assert (decide_eq_true hpath.length), ensures_bind]
  refine ensures_mono (ensures_searched he hk hpath (Or.inr hnames.fits)) ?_
  rintro _ k₁ (⟨hdenotes, -, hm, hp, htype, hhold⟩ | ⟨hdenotes, -, hm, hpos, htype, -, -, hhold⟩ |
    ⟨-, hpasses, hm, hpos, htype, -, -, -, -, hhold⟩ | ⟨-, -, htype, hhold⟩)
  · have hpos := some_ne_some_zero (denotes_ne_zero hroot hdenotes)
    dsimp only
    rw [ensures_bind, ensures_assert (decide_eq_true hpos), if_pos htype]
    exact hclose hhold
  · exact absurd hdenotes (hfile _)
  · have hpos' := some_ne_some_zero hpos
    have hbusy := hopen _ hpasses
    rw [← hhold.looks.isOpen hk.cache] at hbusy
    dsimp only
    rw [ensures_bind, ensures_assert (decide_eq_true hpos'), if_neg (by rw [htype]; decide),
      ensures_bind, ensures_read, if_pos hbusy]
    exact hclose hhold
  · dsimp only
    rw [ensures_bind, ensures_assert (by decide)]
    exact hclose hhold

/-- `sys_unlink` removes the file that the path denotes, or fails. -/
theorem wp_sysUnlink_file (hpath : LookupPath path.val) (hnames : ShortNames path.val) {n : ℕ}
    (hfile : k.denotes t path.val = some (n, .regular)) : (sysUnlink t path).wp (fun r k' =>
      r = -1 ∧ Restored k k' ∨
        r = 0 ∧ k'.part.inodeBitmap = bitmapSet k.part.inodeBitmap n false) k := by
  have hclose {p d : ℕ} {k₁ : Kernel} (hhold : Holding t k p d k₁) :
      (do dirClose d; return -1 : Prog Kernel ℤ).wp (fun r k' => r = -1 ∧ Restored k k' ∨
        r = 0 ∧ k'.part.inodeBitmap = bitmapSet k.part.inodeBitmap n false) k₁ := by
    refine wp_of_ensures ?_
    rw [ensures_bind]
    exact ensures_dirClose hhold fun k₂ hback => Or.inl ⟨rfl, hback⟩
  rw [sysUnlink, wp_bind, wp_assert]
  intro _
  rw [wp_bind]
  refine wp_mono (wp_of_ensures (ensures_searched fairEnv_any hk hpath (Or.inr hnames.fits))) ?_
  rintro _ k₁ (⟨hdenotes, -, hm, hp, htype, hhold⟩ | ⟨hdenotes, -, hm, hpos, htype, -, -, hhold⟩ |
    ⟨hdenotes, -, hm, hpos, htype, -, -, -, -, hhold⟩ | ⟨-, -, htype, hhold⟩)
  · rw [hdenotes] at hfile
    cases hfile
  · rw [hdenotes] at hfile
    cases hfile
    have hpart := hhold.looks.tree.part
    dsimp only
    rw [wp_bind, wp_assert]
    intro _
    rw [if_neg (by rw [htype]; decide), wp_bind, wp_read]
    split
    · exact hclose hhold
    · rw [wp_bind, wp_sysMalloc]
      rintro (_ | _)
      · exact hclose hhold
      · refine wp_mono (unlink_removes n _) fun r k₂ hremoved => Or.inr ?_
        rwa [hpart] at hremoved
  · rw [hdenotes] at hfile
    cases hfile
  · dsimp only
    rw [wp_bind, wp_assert]
    intro _
    exact hclose hhold

/-- Through the name of a file `sys_unlink` removes that file, if it is not open. -/
theorem unlink_through (hpath : LookupPath path.val) (hnames : ShortNames path.val) {f : ℕ}
    (hpasses : k.passes t path.val = some f) (hopen : ¬ k.isOpen f = true) :
    k.denotes t path.val = none ∧
      ∀ r k', (sysUnlink t path).exec [] k = some (r, k') → r ≠ -1 := by
  obtain ⟨_, k₁, hexec, hsearched⟩ :=
    exec_of_ensures (ensures_searched fairEnv_zero hk hpath (Or.inr hnames.fits))
  rw [sysUnlink]
  rcases hsearched with ⟨-, hnone, -⟩ | ⟨-, hnone, -⟩ |
    ⟨hdenotes, hpasses', hm, hpos, htype, -, -, -, -, hhold⟩ | ⟨hnone, -⟩
  · rw [hnone] at hpasses
    cases hpasses
  · rw [hnone] at hpasses
    cases hpasses
  · rw [hpasses'] at hpasses
    cases hpasses
    refine ⟨hdenotes, fun r k' hrun => ?_⟩
    rw [exec_assert_bind (decide_eq_true hpath.length), exec_bind_nil, hexec, Option.bind_some] at hrun
    dsimp only at hrun
    have hfree : ¬ k₁.isOpen f = true := by rwa [hhold.looks.isOpen hk.cache]
    rw [exec_assert_bind (decide_eq_true (some_ne_some_zero hpos)),
      if_neg (by rw [htype]; decide)] at hrun
    change (if k₁.isOpen f = true then _ else _ : Prog Kernel ℤ).exec [] k₁ = _ at hrun
    rw [if_neg hfree, exec_sysMalloc_bind] at hrun
    have hremoves := wp_iff_returns.mp (unlink_removes (t := t) (k := k₁) f _) r k' (returns_of_exec hrun)
    rw [hremoves.1]
    decide
  · rw [(hnone.resolve_right id).2] at hpasses
    cases hpasses

theorem unlink_exact_iff (hnames : ShortNames path.val) (habs : path.val.head? = some slash)
    (hlen : path.val.length < maxPathLen) :
    PathCall.unlink.Exactly t k path ↔ PathCall.unlink.Safe t k path := by
  have hno {o : ℕ × FileType} (hdenotes : k.denotes t path.val = some o) (ho : o.2 ≠ .regular) :
      PathCall.unlink.target t k path = none :=
    PathCall.target_of_not_accepts hdenotes fun haccepts => ho (of_decide_eq_true haccepts)
  constructor
  · intro h
    have hroot : ∀ ty, k.denotes t path.val ≠ some (0, ty) := by
      intro ty hroot
      have htarget : PathCall.unlink.target t k path = none := by
        by_cases hrun : SlashRun path.val
        · exact hno (hrun.denotes (t := t) (k := k)) (by decide)
        · have hpath := lookupPath_of_not_slashRun habs hlen hrun
          obtain ⟨_, k₁, -, hsearched⟩ :=
            exec_of_ensures (ensures_searched fairEnv_zero hk hpath (Or.inr hnames.fits))
          cases hsearched with
          | directory hdenotes => exact hno hdenotes fun hty => by cases hty
          | file hdenotes _ _ hpos =>
              rw [hdenotes] at hroot
              cases hroot
              exact absurd rfl hpos
          | through hdenotes => exact PathCall.target_of_denotes_none hdenotes
          | nothing hnone => exact PathCall.target_of_denotes_none (hnone.resolve_right id).1
      obtain ⟨r, k', hexec, -⟩ := h.none htarget
      change (sysUnlink t path).exec [] k = _ at hexec
      rw [sysUnlink, exec_assert_bind (decide_eq_true hlen),
        exec_root_none hk habs hlen hnames hroot fun _ _ => rfl] at hexec
      cases hexec
    refine ⟨hroot, fun f hpasses => ?_⟩
    by_contra hopen
    have hrun : ¬ SlashRun path.val := fun hrun => hroot _ hrun.denotes
    have hpath := lookupPath_of_not_slashRun habs hlen hrun
    obtain ⟨hdenotes, hremoves⟩ := unlink_through hk hpath hnames hpasses hopen
    obtain ⟨r, k', hexec, hfailed, -⟩ := h.none (PathCall.target_of_denotes_none hdenotes)
    exact hremoves r k' hexec hfailed
  · rintro ⟨hroot, hopen⟩
    have hrun : ¬ SlashRun path.val := fun hrun => hroot _ hrun.denotes
    have hpath := lookupPath_of_not_slashRun habs hlen hrun
    by_cases hfile : ∃ n, k.denotes t path.val = some (n, .regular)
    · obtain ⟨n, hn⟩ := hfile
      exact PathCall.exactly_of_wp (PathCall.target_of_denotes hn rfl)
        (wp_sysUnlink_file hk hpath hnames hn)
    · have htarget : PathCall.unlink.target t k path = none := by
        rcases hdenotes : k.denotes t path.val with _ | ⟨n, ty⟩
        · exact PathCall.target_of_denotes_none hdenotes
        · exact hno hdenotes fun hty => hfile ⟨n, by rw [hdenotes]; exact congrArg _ (congrArg _ hty)⟩
      exact PathCall.exactly_of_ensures htarget fun e he =>
        ensures_sysUnlink_fails hk he hpath hnames hroot (not_exists.mp hfile) hopen

end Unlink

/-! ### `sys_rmdir` -/

section Rmdir

variable {t : Transfer} {k : Kernel} (hk : ConsistentTree t k) {path : CString}

include hk

/-- Where the path does not denote a directory, `sys_rmdir` fails. -/
theorem ensures_sysRmdir_fails {e : Env} (he : FairEnv e) (hpath : LookupPath path.val)
    (hnames : ShortNames path.val) (hdir : ∀ n, k.denotes t path.val ≠ some (n, .directory)) :
    (sysRmdir t path).ensures e (fun r k' => r = -1 ∧ Restored k k') k := by
  have hclose {p d : ℕ} {k₁ : Kernel} (hhold : Holding t k p d k₁) :
      ensures e (do dirClose d; return -1 : Prog Kernel ℤ) (fun r k' => r = -1 ∧ Restored k k') k₁ := by
    rw [ensures_bind]
    exact ensures_dirClose hhold fun k₂ hback => ⟨rfl, hback⟩
  rw [sysRmdir, ensures_bind]
  refine ensures_mono (ensures_searched he hk hpath (Or.inr hnames.fits)) ?_
  rintro _ k₁ (⟨hdenotes, -, hm, hp, htype, hhold⟩ | ⟨-, -, hm, hpos, htype, -, -, hhold⟩ |
    ⟨-, -, hm, hpos, htype, -, -, -, -, hhold⟩ | ⟨-, -, htype, hhold⟩)
  · exact absurd hdenotes (hdir _)
  · dsimp only
    rw [ensures_bind, ensures_assert (decide_eq_true (some_ne_some_zero hpos)), if_pos htype]
    exact hclose hhold
  · dsimp only
    rw [ensures_bind, ensures_assert (decide_eq_true (some_ne_some_zero hpos)), if_pos htype]
    exact hclose hhold
  · dsimp only
    rw [ensures_bind, ensures_assert (by decide)]
    exact hclose hhold

/-- `sys_rmdir` releases the directory that the path denotes, or fails. -/
theorem wp_sysRmdir_directory (hpath : LookupPath path.val) (hnames : ShortNames path.val) {n : ℕ}
    (hdir : k.denotes t path.val = some (n, .directory)) : (sysRmdir t path).wp (fun r k' =>
      r = -1 ∧ Restored k k' ∨
        r = 0 ∧ k'.part.inodeBitmap = bitmapSet k.part.inodeBitmap n false) k := by
  rw [sysRmdir, wp_bind]
  refine wp_mono (wp_of_ensures (ensures_searched fairEnv_any hk hpath (Or.inr hnames.fits))) ?_
  rintro _ k₁ (@⟨m, p, record, _, hdenotes, -, hm, hp, htype, hhold⟩ | ⟨hdenotes, -, hm, hpos, htype, -, -, hhold⟩ |
    ⟨hdenotes, -, hm, hpos, htype, -, -, -, -, hhold⟩ | ⟨-, -, htype, hhold⟩)
  · rw [hdenotes] at hdir
    cases hdir
    have hpart := hhold.looks.tree.part
    have hok := hhold.looks.tree.dirOk (hk.dir _ hm)
    dsimp only
    rw [wp_bind, wp_assert]
    intro _
    rw [if_neg (by rw [htype]; decide), wp_bind]
    refine wp_of_ensures (ensures_dirOpen fairEnv_any hhold.looks.cache hok (.refl k₁)
      fun d k₂ hnew hd => ?_)
    -- both handles are closed again
    have hback : (dirClose d).wp
        (fun _ k₃ => (dirClose record.parentDir).wp (fun _ => Restored k) k₃) k₂ :=
      wp_of_ensures (ensures_dirClose hd fun k₃ h₃ =>
        wp_of_ensures (ensures_dirClose (hhold.restored h₃) fun k₄ h₄ => h₄))
    rw [wp_bind, dirIsEmpty, wp_bind, wp_read, wp_pure]
    split
    · simp only [wp_bind, dirRemove, wp_read, wp_assert, wp_sysMalloc]
      rintro - (_ | _)
      · rw [if_neg (by decide), wp_pure, wp_pure]
        exact wp_mono hback fun _ k₃ h₃ => wp_mono h₃ fun _ k₄ h₄ => Or.inl ⟨rfl, h₄⟩
      · have hchild : (k₂.dirInode d).iNo = n := by rw [hd.inode.iNo, hok.iNo]
        rw [hchild, if_pos rfl, wp_bind]
        refine wp_mono ((deleteDirEntry_within _ _ _).wp_of (R := SameInodeBits) rfl)
          fun _ k₃ h₃ => ?_
        rw [wp_bind]
        refine wp_mono (inodeRelease_bits n) fun _ k₄ h₄ => ?_
        rw [wp_pure, wp_pure]
        refine wp_mono ((dirClose_within d).wp_of (R := SameInodeBits) (refl k₄))
          fun _ k₅ h₅ => ?_
        refine wp_mono ((dirClose_within _).wp_of h₅) fun _ k₆ h₆ => Or.inr ⟨rfl, ?_⟩
        unfold SameInodeBits at h₃ h₆
        rw [h₆, h₄, h₃, hd.looks.tree.part, hpart]
    · simp only [wp_bind, wp_pure]
      exact wp_mono hback fun _ k₃ h₃ => wp_mono h₃ fun _ k₄ h₄ => Or.inl ⟨trivial, h₄⟩
  · rw [hdenotes] at hdir
    cases hdir
  · rw [hdenotes] at hdir
    cases hdir
  · dsimp only
    rw [wp_bind, wp_assert]
    intro _
    rw [wp_bind]
    refine wp_of_ensures (ensures_dirClose hhold fun k₂ hback => Or.inl ⟨rfl, hback⟩)

theorem rmdir_exact_iff (hnames : ShortNames path.val) (habs : path.val.head? = some slash)
    (hlen : path.val.length < maxPathLen) :
    PathCall.rmdir.Exactly t k path ↔ PathCall.rmdir.Safe t k path := by
  constructor
  · intro h ty hroot
    -- the root is not accepted
    have htarget : PathCall.rmdir.target t k path = none :=
      PathCall.target_of_not_accepts hroot (by simp [PathCall.accepts])
    obtain ⟨r, k', hexec, -⟩ := h.none htarget
    change (sysRmdir t path).exec [] k = _ at hexec
    rw [sysRmdir, exec_root_none hk habs hlen hnames hroot fun _ _ => rfl] at hexec
    cases hexec
  · intro hroot
    have hrun : ¬ SlashRun path.val := fun hrun => hroot _ hrun.denotes
    have hpath := lookupPath_of_not_slashRun habs hlen hrun
    by_cases hdir : ∃ n, k.denotes t path.val = some (n, .directory)
    · obtain ⟨n, hn⟩ := hdir
      have haccepts : PathCall.rmdir.accepts (n, .directory) = true := by
        simp [PathCall.accepts, denotes_ne_zero hroot hn]
      exact PathCall.exactly_of_wp (PathCall.target_of_denotes hn haccepts)
        (wp_sysRmdir_directory hk hpath hnames hn)
    · have htarget : PathCall.rmdir.target t k path = none := by
        rcases hdenotes : k.denotes t path.val with _ | ⟨n, ty⟩
        · exact PathCall.target_of_denotes_none hdenotes
        · refine PathCall.target_of_not_accepts hdenotes fun haccepts => hdir ⟨n, ?_⟩
          have hty : ty = .directory := of_decide_eq_true (Bool.and_eq_true_iff.mp haccepts).1
          rw [hdenotes, hty]
      exact PathCall.exactly_of_ensures htarget fun e he =>
        ensures_sysRmdir_fails hk he hpath hnames (not_exists.mp hdir)

end Rmdir

/-! ## `sys_open` without `O_CREAT` -/

section FileOpen

variable {t : Transfer} {k : Kernel}

theorem Holding.cur {k₁ : Kernel} {p d : ℕ} (h : Holding t k p d k₁) : k₁.cur = k.cur := by
  have hcur := h.closes.cur
  rw [k₁.closeDir_rest] at hcur
  exact hcur

/-- How the last part of `sys_open` ends, with `d` the handle of the parent directory: what
the process and the tables lack, or what is open. -/
inductive OpenResult (t : Transfer) (k : Kernel) (p d n flag : ℕ) : ℤ → Kernel → Prop
  | full {k' : Kernel} (hslot : ¬ k.HasSlot) (hhold : Holding t k p d k') :
      OpenResult t k p d n flag (-1) k'
  | busy {g a : ℕ} {k' : Kernel} (hslot : k.HasSlot) (hfree : (k.fileTable g).fdInode = none)
      (hbusy : wantsWrite flag = true ∧ (k.inodeOf t n).writeDeny = true)
      (hfile : (k'.fileTable g).fdInode = some a) : OpenResult t k p d n flag (-1) k'
  | noFd {g a : ℕ} {k' : Kernel} (hslot : k.HasSlot) (hfree : (k.fileTable g).fdInode = none)
      (hfd : ¬ k.HasFd) (hfile : (k'.fileTable g).fdInode = some a) :
      OpenResult t k p d n flag (-1) k'
  | opened {fd g a : ℕ} {k' : Kernel} (hslot : k.HasSlot) (hfd : k.HasFd)
      (hidle : ¬ (wantsWrite flag = true ∧ (k.inodeOf t n).writeDeny = true))
      (hentry : k'.cur.fdTable fd = g) (hfile : (k'.fileTable g).fdInode = some a)
      (hinode : FileOf t k n a k') : OpenResult t k p d n flag fd k'

/-- `pcb_fd_install` at the end of `file_open`. -/
theorem ensures_install {e : Env} {k₁ : Kernel} {p d n flag g a : ℕ} (hslot : k.HasSlot)
    (hfree : (k.fileTable g).fdInode = none)
    (hidle : ¬ (wantsWrite flag = true ∧ (k.inodeOf t n).writeDeny = true))
    (hcur : k₁.cur = k.cur) (hfile : (k₁.fileTable g).fdInode = some a)
    (hinode : FileOf t k n a k₁) :
    (pcbFdInstall g).ensures e (OpenResult t k p d n flag) k₁ := by
  simp only [pcbFdInstall, ensures_bind, ensures_read]
  rw [hcur]
  split
  next fd hfind =>
    have hfd : k.HasFd := ⟨fd, List.mem_of_find?_eq_some hfind, by simpa using List.find?_some hfind⟩
    simp only [ensures_bind, ensures_write, ensures_pure]
    refine .opened hslot hfd hidle ?_ hfile
      ⟨hinode.node, hinode.iNo, hinode.iSize, hinode.iSectors⟩
    have hself : (k₁.setTask k₁.running { k.cur with
        fdTable := Function.update k.cur.fdTable fd (g : ℤ) }).cur = { k.cur with
        fdTable := Function.update k.cur.fdTable fd (g : ℤ) } := Function.update_self _ _ _
    rw [hself]
    exact Function.update_self _ _ _
  next hfind =>
    refine .noFd hslot hfree (fun hfd => ?_) hfile
    obtain ⟨fd, hmem, hfd⟩ := hfd
    have hnone := List.find?_eq_none.mp hfind fd hmem
    simp [hfd] at hnone

theorem ensures_fileOpen {e : Env} (he : FairEnv e) {k₁ : Kernel} {p d n flag : ℕ}
    (hn : k.Names t n) (hhold : Holding t k p d k₁) :
    (fileOpen t n flag).ensures e (OpenResult t k p d n flag) k₁ := by
  have hnames := hn.looks hhold.looks
  have hfiles := hhold.looks.files
  simp only [fileOpen, getFreeSlotInGlobal, ensures_bind, ensures_read, ensures_pure]
  rw [hfiles]
  split
  next hfind =>
    refine .full (fun hslot => ?_) hhold
    obtain ⟨fd, hmem, hfree⟩ := hslot
    have hnone := List.find?_eq_none.mp hfind fd hmem
    simp [hfree] at hnone
  next g hfind =>
    have hfree : (k.fileTable g).fdInode = none := by simpa using List.find?_some hfind
    have hslot : k.HasSlot := ⟨g, List.mem_of_find?_eq_some hfind, hfree⟩
    rw [ensures_bind]
    refine ensures_inodeOpen he hhold.looks.cache hnames.small hnames.iNo (.refl k₁)
      fun a k₂ h => ?_
    have hcontent := (hhold.looks.tree.inodeOf n).trans h.inode
    have hnode : ∀ a' ∈ k.findOpen n, a = a' := fun a' ha' =>
      h.node a' (hhold.looks.nodes n a' ha')
    have hcur : k₂.cur = k.cur := by
      have hcur := h.closes.cur
      rw [k₂.closeInode_rest] at hcur
      exact Eq.trans hcur hhold.cur
    have hfile : ((k₂.setFile g ⟨0, flag, some a⟩).fileTable g).fdInode = some a := by
      rw [Kernel.setFile]
      simp
    have hfileOf : FileOf t k n a (k₂.setFile g ⟨0, flag, some a⟩) :=
      ⟨hnode, hcontent.iNo, hcontent.iSize, hcontent.iSectors⟩
    rw [ensures_bind, ensures_modify]
    by_cases hwrite : wantsWrite flag = true
    · rw [if_pos hwrite, ensures_bind, ensures_read]
      have hdeny : ((k₂.setFile g ⟨0, flag, some a⟩).inodes a).writeDeny =
          (k.inodeOf t n).writeDeny := hcontent.writeDeny
      rw [hdeny]
      by_cases hbusy : (k.inodeOf t n).writeDeny = true
      · rw [if_pos hbusy]
        exact .busy hslot hfree ⟨hwrite, hbusy⟩ hfile
      · rw [if_neg hbusy, ensures_bind, ensures_write]
        refine ensures_install hslot hfree (fun h => hbusy h.2) hcur hfile ?_
        have hself (inode : Inode) :
            ((k₂.setFile g ⟨0, flag, some a⟩).setInode a inode).inodes a = inode :=
          Function.update_self _ _ _
        refine ⟨hnode, ?_, ?_, ?_⟩
        · rw [hself]
          exact hcontent.iNo
        · rw [hself]
          exact hcontent.iSize
        · rw [hself]
          exact hcontent.iSectors
    · rw [if_neg hwrite]
      exact ensures_install hslot hfree (fun h => hwrite h.1) hcur hfile hfileOf

/-- A handle other than that of the root is left: the state is not the old one. -/
theorem Holding.not_restored {p d : ℕ} {k' : Kernel} (h : Holding t k p d k') (hd : d ≠ rootDir) :
    ¬ Restored k k' := by
  intro hback
  have hlive := h.closes.liveDirs
  rw [Kernel.closeDir, if_neg hd] at hlive
  dsimp only at hlive
  have hlength := List.length_erase_of_mem (h.live.resolve_left hd)
  rw [hlive, hback.liveDirs] at hlength
  have hmem : d ∈ k.liveDirs := by
    rw [← hback.liveDirs]
    exact h.live.resolve_left hd
  have := List.length_pos_of_mem hmem
  omega

/-- A taken entry of `file_table` is left. -/
theorem not_restored_of_file {g a : ℕ} {k' : Kernel} (hfree : (k.fileTable g).fdInode = none)
    (hfile : (k'.fileTable g).fdInode = some a) : ¬ Restored k k' := by
  intro hback
  rw [hback.fileTable, hfree] at hfile
  cases hfile

end FileOpen

/-- How `sys_open` ends. -/
inductive OpenOutcome (t : Transfer) (e : Env) (k : Kernel) (path : List UInt8) (flags : ℕ) :
    ℤ → Kernel → Prop
  | failed {k' : Kernel} (hnot : path.getLast? = some slash ∨
      (∀ n, k.denotes t path ≠ some (n, .regular)) ∨ e.stops) (hback : Restored k k') :
      OpenOutcome t e k path flags (-1) k'
  | tried {n d p : ℕ} {r : ℤ} {k' : Kernel} (hlast : path.getLast? ≠ some slash)
      (hdenotes : k.denotes t path = some (n, .regular))
      (hroot : d = rootDir ↔ (words slash path).length ≤ 1)
      (hresult : OpenResult t k p d n flags r k') : OpenOutcome t e k path flags r k'

section Open

variable {t : Transfer} {k : Kernel} (hk : ConsistentTree t k) {path : CString} {flags : ℕ}

include hk

theorem ensures_sysOpen {e : Env} (he : FairEnv e) (hnames : ShortNames path.val)
    (habs : path.val.head? = some slash) (hlen : path.val.length < maxPathLen)
    (hplain : flags ≤ 7 ∧ flags &&& oCreat = 0) : 
    (sysOpen t path flags).ensures e (OpenOutcome t e k path.val flags) k := by
  have hpathne : path.val ≠ [] := by
    rintro hnil
    rw [hnil] at habs
    cases habs
  rw [sysOpen, ensures_bind, ensures_arbitrary]
  intro before _
  rw [List.getLastD_eq_getLast?]
  by_cases hlast : path.val.getLast? = some slash
  · rw [if_pos (by rw [hlast]; rfl)]
    exact .failed (Or.inl hlast) (.refl k)
  -- the path does not end with a slash, so it has a name
  have hlast' : path.val.getLast?.getD (UInt8.ofNat before) ≠ slash := by
    rw [List.getLast?_eq_some_getLast hpathne] at hlast ⊢
    exact fun h => hlast (congrArg some h)
  have hwords : words slash path.val ≠ [] := by
    intro hnil
    refine hlast ?_
    rw [List.getLast?_eq_some_getLast hpathne,
      eq_sep_of_words_eq_nil hnil _ (List.getLast_mem hpathne)]
  have hpath : LookupPath path.val := ⟨habs, hlen, Or.inl hwords⟩
  have hdepth {ws : List (List UInt8)} (hne : ws ≠ []) (hbegin : ws <+: words slash path.val)
      {Q : ℕ → Kernel → Prop} {k₁ : Kernel} :
      (pathDepthCnt (join slash ws)).ensures e Q k₁ ↔ Q ws.length k₁ := by
    have hall := areNames_words path
    have hws : words slash (join slash ws) = ws :=
      words_join fun w hw => (hall w (hbegin.subset hw)).1
    rw [ensures_pathDepthCnt (by rwa [hws])
      (by rw [hws]; exact (length_le_length_join ws).trans (Nat.le_succ _))
      (by rw [hws]; exact fun w hw => (hnames w (hbegin.subset hw)).le), hws]
  have hfail {p d : ℕ} {k₁ : Kernel} (hhold : Holding t k p d k₁)
      (hnot : (∀ n, k.denotes t path.val ≠ some (n, .regular)) ∨ e.stops) :
      ensures e (do dirClose d; return -1 : Prog Kernel ℤ) (OpenOutcome t e k path.val flags) k₁ := by
    rw [ensures_bind]
    exact ensures_dirClose hhold fun k₂ hback => .failed (Or.inr hnot) hback
  rw [if_neg hlast', ensures_bind, ensures_assert (decide_eq_true hplain.1), ensures_bind,
    ensures_pathDepthCnt hwords
      ((length_le_length_join _).trans (length_join_words_le path.val))
      (fun w hw => (hnames w hw).le), ensures_bind]
  refine ensures_mono (ensures_searched he hk hpath (Or.inr hnames.fits)) ?_
  rintro _ k₁ (⟨hdenotes, -, hm, hp, htype, hhold⟩ |
    ⟨hdenotes, -, hm, hpos, htype, hsearched, hroot, hhold⟩ |
    ⟨hdenotes, -, hm, hpos, htype, hsearched, hne, hshort, hbegin, hhold⟩ |
    ⟨hnone, hsearched, htype, hhold⟩)
  · dsimp only
    rw [if_pos htype]
    exact hfail hhold (Or.inl fun n hn => by rw [hdenotes] at hn; cases hn)
  · dsimp only
    rw [if_neg (by rw [htype]; decide), ensures_bind, hsearched, hdepth hwords (List.prefix_refl _),
      if_neg (not_not.mpr rfl), if_neg (not_not.mpr hplain.2)]
    refine ensures_mono (ensures_fileOpen he hm hhold) fun r k' hresult => ?_
    exact .tried hlast hdenotes hroot hresult
  · dsimp only
    rw [if_neg (by rw [htype]; decide), ensures_bind, hsearched, hdepth hne hbegin,
      if_pos (Nat.ne_of_gt hshort)]
    exact hfail hhold (Or.inl fun n hn => by rw [hdenotes] at hn; cases hn)
  · have hnot : (∀ n, k.denotes t path.val ≠ some (n, .regular)) ∨ e.stops :=
      hnone.imp_left fun hboth n hn => by
        rw [hboth.1] at hn
        cases hn
    dsimp only
    rw [if_neg (by rw [htype]; decide), ensures_bind]
    rcases hsearched with hstops | ⟨ws, hne, hbegin, heq⟩
    · refine ensures_of_wp hstops (wp_mono (pathDepthCnt_same _).wp_eq ?_)
      rintro depth _ rfl
      split
      · exact hfail hhold hnot
      · rw [if_pos hplain.2]
        exact hfail hhold hnot
    · rw [heq, hdepth hne hbegin]
      split
      · exact hfail hhold hnot
      · rw [if_pos hplain.2]
        exact hfail hhold hnot

theorem open_exact_iff (hnames : ShortNames path.val) (habs : path.val.head? = some slash)
    (hlen : path.val.length < maxPathLen) (hplain : flags ≤ 7 ∧ flags &&& oCreat = 0) :
    (PathCall.open flags hplain).Exactly t k path ↔ (PathCall.open flags hplain).Safe t k path := by
  have hspec (e : Env) (he : FairEnv e) := ensures_sysOpen hk he hnames habs hlen hplain
  constructor
  · intro h
    by_contra hunsafe
    simp only [PathCall.Safe, not_or, not_forall] at hunsafe
    obtain ⟨hlast, n, hn, hfull, hone⟩ := hunsafe
    have htarget : (PathCall.open flags hplain).target t k path = some (n, .regular) :=
      PathCall.target_of_denotes hn rfl
    obtain ⟨r, k', hexec, houtcome⟩ := exec_of_ensures (hspec .zero fairEnv_zero)
    have hfails : r = -1 ∧ ¬ Restored k k' := by
      cases houtcome with
      | failed hnot =>
          rcases hnot with hslash | hnot | hstops
          · exact absurd hslash hlast
          · exact absurd hn (hnot n)
          · exact hstops.elim
      | tried _ hdenotes hroot hresult =>
          rw [hn] at hdenotes
          cases hdenotes
          cases hresult with
          | full hslot hhold =>
              refine ⟨rfl, hhold.not_restored fun hd => hone ⟨hslot, ?_⟩⟩
              have hle := hroot.mp hd
              have hpos : (words slash path.val).length ≠ 0 := by
                intro hzero
                rw [Kernel.denotes, List.length_eq_zero_iff.mp hzero] at hn
                cases hn
              omega
          | busy hslot hfree hbusy hfile => exact ⟨rfl, not_restored_of_file hfree hfile⟩
          | noFd hslot hfree hfd hfile => exact ⟨rfl, not_restored_of_file hfree hfile⟩
          | opened hslot hfd hidle => exact absurd ⟨hslot, hfd, hidle⟩ hfull
    rcases h.some htarget (returns_of_exec hexec) with ⟨-, hback⟩ | ⟨fd, g, a, hr, -⟩
    · exact hfails.2 hback
    · have hneg := hfails.1
      change r = (fd : ℤ) at hr
      omega
  · intro hsafe
    by_cases hfile : ∃ n, k.denotes t path.val = some (n, .regular)
    · obtain ⟨n, hn⟩ := hfile
      refine PathCall.exactly_of_wp (PathCall.target_of_denotes hn rfl)
        (wp_mono (wp_of_ensures (hspec .any fairEnv_any)) fun r k' houtcome => ?_)
      cases houtcome with
      | failed _ hback => exact Or.inl ⟨rfl, hback⟩
      | tried hlast hdenotes hroot hresult =>
          rw [hn] at hdenotes
          cases hdenotes
          rcases hsafe.resolve_left hlast n hn with ⟨hslot, hfd, hidle⟩ | ⟨hslot, hone⟩
          · cases hresult with
            | full hnone => exact absurd hslot hnone
            | busy _ _ hbusy => exact absurd hbusy hidle
            | noFd _ _ hnone => exact absurd hfd hnone
            | opened _ _ _ hentry hfile hinode =>
                exact Or.inr ⟨_, _, _, rfl, hentry, hfile, hinode⟩
          · cases hresult with
            | full _ hhold =>
                have hback := hhold.closes
                rw [Kernel.closeDir, if_pos (hroot.mpr hone.le)] at hback
                exact Or.inl ⟨rfl, hback⟩
            | busy hsome => exact absurd hsome hslot
            | noFd hsome => exact absurd hsome hslot
            | opened hsome => exact absurd hsome hslot
    · have htarget : (PathCall.open flags hplain).target t k path = none := by
        rcases hdenotes : k.denotes t path.val with _ | ⟨n, ty⟩
        · exact PathCall.target_of_denotes_none hdenotes
        · refine PathCall.target_of_not_accepts hdenotes fun haccepts => hfile ⟨n, ?_⟩
          have hty : ty = .regular := of_decide_eq_true haccepts
          rw [hdenotes, hty]
      refine PathCall.exactly_of_ensures htarget fun e he =>
        ensures_mono (hspec e he) fun r k' houtcome => ?_
      cases houtcome with
      | failed _ hback => exact ⟨rfl, hback⟩
      | tried _ hdenotes => exact absurd ⟨_, hdenotes⟩ hfile

end Open

/-! ## All calls -/

/-- The small machine after `open("/a", O_CREAT)`. -/
def oneFile : Kernel := after (sysOpen .repeated pathA oCreat) smallMachine.newFs

/-- `"/a/b"`. -/
def pathAB : CString := ⟨[slash, 97, slash, 98], by decide⟩

end BochsOs
