import BochsOs.Fs.Format
import BochsOs.Fs.OpenFiles

/-!
# One writer only

`write_deny` in `struct inode` is meant to keep a file from having two writers.  It
does not: `file_create` leaves it clear, every `file_close` clears it, and a `file_open`
that finds it set returns `-1` but leaves its entry in `file_table`.  So any second
open for writing makes a second entry with a write flag (`second_writer_opens`), and
there is one writer only as long as nobody makes such an open (`one_writer_only`).
-/

namespace BochsOs

open ByteMemory Suspend Suspend.Prog Runs

/-- Entry `fd` of `file_table` has a write flag and refers to the inode at `a`. -/
def Kernel.Writes (k : Kernel) (fd a : ℕ) : Prop :=
  fd < maxFileOpen ∧ wantsWrite (k.fileTable fd).fdFlag = true ∧ (k.fileTable fd).fdInode = some a

instance (k : Kernel) (fd a : ℕ) : Decidable (k.Writes fd a) := by
  unfold Kernel.Writes
  infer_instance

/-- No two entries with a write flag refer to the same inode. -/
def OneWriter (k : Kernel) : Prop := ∀ a fd fd', k.Writes fd a → k.Writes fd' a → fd = fd'

/-! ## The calls -/

/-- A call that opens or closes a file. -/
inductive FileCall where
  | open (pathname : CString) (flags : ℕ)
  | close (fd : ℤ)

/-- The code of a call. -/
def FileCall.body (t : Transfer) : FileCall → Prog Kernel ℤ
  | .open pathname flags => sysOpen t pathname flags
  | close fd => sysClose fd

/-- The process `p` makes a call. -/
def FileStep (t : Transfer) (k : Kernel) (call : ℕ × FileCall) (k' : Kernel) : Prop :=
  ∃ ret, (call.2.body t).Returns { k with running := call.1 } ret k'

/-- No file is open yet. -/
structure NoFileOpen (k : Kernel) : Prop where
  opened : ∀ a ∈ k.openInodes, a < k.nextInode
  files : ∀ fd < maxFileOpen, (k.fileTable fd).fdInode = none

/-- The path is that of the regular file `inodeNo`: `search_file` finds it with the last
name of the path. -/
def NamesFile (t : Transfer) (k : Kernel) (pathname : CString) (inodeNo : ℕ) : Prop :=
  ∃ record k', (searchFile t pathname).Returns k (some inodeNo, record) k' ∧
    record.fileType ≠ .directory ∧
    ∃ depth, (pathDepthCnt pathname.val).Returns k depth k ∧
      (pathDepthCnt record.searchedPath).Returns k' depth k'

/-- The call opens a file for writing that some entry with a write flag refers to. -/
def OpensSecondWriter (t : Transfer) (k : Kernel) : FileCall → Prop
  | .open pathname flags =>
      flags &&& oCreat = 0 ∧ wantsWrite flags = true ∧ pathname.val.getLast? ≠ some slash ∧
        (∃ fd, 3 ≤ fd ∧ fd < maxFileOpen ∧ (k.fileTable fd).fdInode = none) ∧
        ∃ fd a, k.Writes fd a ∧ NamesFile t k pathname (k.inodes a).iNo
  | .close _ => False

/-- The side condition on calls. -/
def NoSecondWriter (t : Transfer) (k : Kernel) (call : ℕ × FileCall) : Prop :=
  ¬ OpensSecondWriter t { k with running := call.1 } call.2

/-! ## What the calls keep -/

/-- The inodes are allocated, and no inode has two writers. -/
structure FilesOk (k : Kernel) : Prop extends k.Allocated where
  one : OneWriter k

theorem KeepsOpen.writes {k k' : Kernel} (h : KeepsOpen k k') {fd a : ℕ} :
    k'.Writes fd a ↔ k.Writes fd a := by
  unfold Kernel.Writes
  rw [h.files]

theorem KeepsOpen.filesOk {k k' : Kernel} (h : KeepsOpen k k') (hk : FilesOk k) : FilesOk k' where
  toAllocated := h.allocated hk.toAllocated
  one a fd fd' hfd hfd' := hk.one a fd fd' (h.writes.mp hfd) (h.writes.mp hfd')

theorem FilesOk.setTask {k : Kernel} (hk : FilesOk k) (p : ℕ) (task : Task) :
    FilesOk (k.setTask p task) where
  opened := hk.opened
  files := hk.files
  one := hk.one

/-- A new entry must not refer to an inode that has a writer, unless it cannot write. -/
theorem FilesOk.setFile {k : Kernel} (hk : FilesOk k) {fd : ℕ} {file : File}
    (halloc : ∀ a, file.fdInode = some a → a < k.nextInode)
    (hnew : ∀ a fd', wantsWrite file.fdFlag = true → file.fdInode = some a → k.Writes fd' a →
      fd' = fd) : FilesOk (k.setFile fd file) where
  opened := hk.opened
  files fd' hfd' a ha := by
    simp only [Kernel.setFile] at ha ⊢
    by_cases hne : fd' = fd
    · rw [hne, Function.update_self] at ha
      exact halloc a ha
    · rw [Function.update_of_ne hne] at ha
      exact hk.files fd' hfd' a ha
  one a := by
    -- an entry of the new table that writes to `a` is the new one, or one of the old table
    have hold : ∀ fd', (k.setFile fd file).Writes fd' a → fd' ≠ fd → k.Writes fd' a := by
      intro fd' hfd' hne
      simpa only [Kernel.Writes, Kernel.setFile, Function.update_of_ne hne] using hfd'
    have hself : ∀ fd', (k.setFile fd file).Writes fd' a → fd' = fd →
        ∀ fd'', k.Writes fd'' a → fd'' = fd := by
      rintro fd' hfd' rfl fd'' hfd''
      simp only [Kernel.Writes, Kernel.setFile, Function.update_self] at hfd'
      exact hnew a fd'' hfd'.2.1 hfd'.2.2 hfd''
    intro fd₁ fd₂ h₁ h₂
    by_cases hne₁ : fd₁ = fd
    · by_cases hne₂ : fd₂ = fd
      · rw [hne₁, hne₂]
      · exact absurd (hself fd₁ h₁ hne₁ fd₂ (hold fd₂ h₂ hne₂)) hne₂
    · by_cases hne₂ : fd₂ = fd
      · exact absurd (hself fd₂ h₂ hne₂ fd₁ (hold fd₁ h₁ hne₁)) hne₁
      · exact hk.one a fd₁ fd₂ (hold fd₁ h₁ hne₁) (hold fd₂ h₂ hne₂)

/-- What stays within `KeepsOpen` keeps the entries in order. -/
theorem FilesOk.always {α : Type} {x : Prog Kernel α} (hx : Within KeepsOpen x) {k : Kernel}
    (hk : FilesOk k) : x.always FilesOk k :=
  always_mono (hx k) fun _ h => h.filesOk hk

/-- First something that stays within `KeepsOpen`, then the rest. -/
theorem FilesOk.bind {α β : Type} {x : Prog Kernel α} {f : α → Prog Kernel β} {k₀ k : Kernel}
    (hk₀ : FilesOk k₀) (hx : Within KeepsOpen x) (hkeep : KeepsOpen k₀ k)
    (hf : ∀ a k', KeepsOpen k₀ k' → (f a).always FilesOk k') : (x >>= f).always FilesOk k := by
  refine always_bind.mpr ⟨(hkeep.filesOk hk₀).always hx, ?_⟩
  exact wp_mono (hx.wp_of hkeep) hf

theorem pcbFdInstall_filesOk {k : Kernel} (hk : FilesOk k) (globalFd : ℕ) :
    (pcbFdInstall globalFd).always FilesOk k := by
  unfold pcbFdInstall
  refine always_bind.mpr ⟨hk, ?_⟩
  rw [wp_read]
  split
  · exact ⟨hk, hk.setTask _ _⟩
  · exact hk

/-- `file_open` keeps the entries in order unless it opens a file for writing that has
a writer already. -/
theorem fileOpen_filesOk {t : Transfer} {k : Kernel} {inodeNo flag : ℕ} (hk : FilesOk k)
    (hcond : wantsWrite flag = true →
      (∃ fd, 3 ≤ fd ∧ fd < maxFileOpen ∧ (k.fileTable fd).fdInode = none) →
      ∀ fd a, k.Writes fd a → (k.inodes a).iNo ≠ inodeNo) :
    (fileOpen t inodeNo flag).always FilesOk k := by
  unfold fileOpen
  refine always_bind.mpr ⟨hk, ?_⟩
  refine getFreeSlotInGlobal_spec hk fun fdI hlow hhigh hfree => ?_
  dsimp only
  have hwithin : Within KeepsOpen _ := inodeOpen_within t inodeNo
  refine always_bind.mpr ⟨hk.always hwithin, ?_⟩
  refine wp_mono (wp_and (wp_of_always (hwithin k)) inodeOpen_spec) ?_
  rintro a k₁ ⟨hkeep, ha⟩
  have hk₁ := hkeep.filesOk hk
  -- the new entry is the only writer of the inode
  have hentry : FilesOk (k₁.setFile fdI ⟨0, flag, some a⟩) := by
    refine hk₁.setFile ?_ ?_
    · rintro b ⟨⟩
      rcases ha with ⟨hmem, -⟩ | ⟨-, hlt⟩
      · exact (hk.opened _ hmem).trans_le hkeep.next
      · exact hlt
    · rintro b fd' hflag ⟨⟩ hfd'
      have hold := hkeep.writes.mp hfd'
      rcases ha with ⟨-, hno⟩ | ⟨hnew, -⟩
      · exact absurd hno (hcond hflag ⟨fdI, hlow, hhigh, hfree⟩ fd' _ hold)
      · have := hk.files fd' hold.1 _ hold.2.2
        omega
  refine always_bind.mpr ⟨⟨hk₁, hentry⟩, ?_⟩
  rw [wp_modify]
  split
  · refine always_bind.mpr ⟨hentry, ?_⟩
    rw [wp_read]
    split
    · exact hentry
    · have hdeny := (@keepsOpen_setInode (k₁.setFile fdI ⟨0, flag, some a⟩) a
        { k₁.inodes a with writeDeny := true } rfl).filesOk hentry
      exact always_bind.mpr ⟨⟨hentry, hdeny⟩, pcbFdInstall_filesOk hdeny fdI⟩
  · exact pcbFdInstall_filesOk hentry fdI

theorem fileCreate_filesOk {t : Transfer} {k : Kernel} {parentDir : ℕ} {filename : List UInt8}
    {flag : ℕ} (hk : FilesOk k) : (fileCreate t parentDir filename flag).always FilesOk k := by
  unfold fileCreate
  refine hk.bind sysMalloc_same.of_eq (refl k) fun ok k₁ hkeep₁ => ?_
  split
  · exact hkeep₁.filesOk hk
  refine hk.bind inodeBitmapAlloc_within hkeep₁ fun found k₁ hkeep₁ => ?_
  split
  · exact hkeep₁.filesOk hk
  next inodeNo =>
    have hfree : ∀ k, FilesOk k →
        (do setInodeBit inodeNo false; return -1 : Prog Kernel ℤ).always FilesOk k :=
      fun k hk => hk.always ((setInodeBit_within _ _).bind fun _ => .pure _)
    refine hk.bind sysMalloc_same.of_eq hkeep₁ fun ok k₁ hkeep₁ => ?_
    have hk₁ := hkeep₁.filesOk hk
    split
    · exact hfree k₁ hk₁
    refine always_bind.mpr ⟨hk₁, ?_⟩
    rw [wp_read]
    dsimp only
    have hkeep₂ := keepsOpen_createInode k₁ (inodeInit inodeNo)
    set k₂ := { k₁.setInode k₁.nextInode (inodeInit inodeNo) with nextInode := k₁.nextInode + 1 }
    have hk₂ := hkeep₂.filesOk hk₁
    refine always_bind.mpr ⟨⟨hk₁, hk₂⟩, ?_⟩
    rw [wp_write]
    refine always_bind.mpr ⟨hk₂, ?_⟩
    refine getFreeSlotInGlobal_spec (hfree k₂ hk₂) fun fdI hlow hhigh hnone => ?_
    dsimp only
    -- no entry refers to the new inode
    have hk₃ : FilesOk (k₂.setFile fdI ⟨0, flag, some k₁.nextInode⟩) := by
      refine hk₂.setFile ?_ ?_
      · rintro b ⟨⟩
        exact Nat.lt_succ_self _
      · rintro b fd' - ⟨⟩ hfd'
        have hold := hkeep₂.writes.mp hfd'
        exact absurd (hk₁.files fd' hold.1 _ hold.2.2) (lt_irrefl _)
    have hlast : k₁.nextInode < (k₂.setFile fdI ⟨0, flag, some k₁.nextInode⟩).nextInode :=
      Nat.lt_succ_self _
    set k₃ := k₂.setFile fdI ⟨0, flag, some k₁.nextInode⟩
    refine always_bind.mpr ⟨⟨hk₂, hk₃⟩, ?_⟩
    rw [wp_modify]
    refine hk₃.bind (createDirEntry_same _ _ _).of_eq (refl k₃) fun e k₄ hkeep₄ => ?_
    refine hk₃.bind (syncDirEntry_within _ _ _) hkeep₄ fun synced k₄ hkeep₄ => ?_
    split
    · refine hk₃.bind .read hkeep₄ fun _ k₄ hkeep₄ => ?_
      refine hk₃.bind (inodeSync_within _ _ _) hkeep₄ fun _ k₄ hkeep₄ => ?_
      refine hk₃.bind .read hkeep₄ fun _ k₄ hkeep₄ => ?_
      refine hk₃.bind (inodeSync_within _ _ _) hkeep₄ fun _ k₄ hkeep₄ => ?_
      refine hk₃.bind (bitmapSync_within _ _ _) hkeep₄ fun _ k₄ hkeep₄ => ?_
      have hk₄ := hkeep₄.filesOk hk₃
      have hpush := @keepsOpen_push k₄ k₁.nextInode { k₄.inodes k₁.nextInode with iOpenCnts := 1 }
        (hlast.trans_le hkeep₄.next) rfl
      refine always_bind.mpr ⟨⟨hk₄, hpush.filesOk hk₄⟩, ?_⟩
      exact pcbFdInstall_filesOk (hpush.filesOk hk₄) fdI
    · have hk₄ := hkeep₄.filesOk hk₃
      have hclear : FilesOk (k₄.setFile fdI ⟨0, 0, none⟩) :=
        hk₄.setFile (fun b hb => by cases hb) (fun b fd' _ hb => by cases hb)
      refine always_bind.mpr ⟨⟨hk₄, hclear⟩, ?_⟩
      rw [wp_modify]
      exact hfree _ hclear

theorem sysOpen_filesOk {t : Transfer} {k : Kernel} {pathname : CString} {flags : ℕ}
    (hk : FilesOk k) (hcond : ¬ OpensSecondWriter t k (.open pathname flags)) :
    (sysOpen t pathname flags).always FilesOk k := by
  unfold sysOpen
  refine always_bind.mpr ⟨always_arbitrary.mpr hk, ?_⟩
  rw [wp_arbitrary]
  intro before
  split
  · exact hk
  next hslash =>
    refine always_bind.mpr ⟨always_assert.mpr hk, ?_⟩
    rw [wp_assert]
    intro _
    refine always_bind.mpr ⟨hk.always (pathDepthCnt_same _).of_eq, ?_⟩
    rw [wp_iff_returns]
    intro depth k₀ hdepth
    obtain rfl : k₀ = k := wp_iff_returns.mp (pathDepthCnt_same _).wp_eq _ _ hdepth
    refine always_bind.mpr ⟨hk.always (searchFile_within _ _), ?_⟩
    rw [wp_iff_returns]
    rintro ⟨found, record⟩ k₁ hsearch
    have hwithin : Within KeepsOpen _ := searchFile_within t pathname
    have hkeep₁ := wp_iff_returns.mp (wp_of_always (hwithin k₀)) _ _ hsearch
    have hk₁ := hkeep₁.filesOk hk
    have hclose : ∀ ret : ℤ, ∀ k, FilesOk k →
        (do dirClose record.parentDir; return ret : Prog Kernel ℤ).always FilesOk k :=
      fun ret k hk => hk.always ((dirClose_within _).bind fun _ => .pure _)
    dsimp only
    split
    · exact hclose _ k₁ hk₁
    next hfile =>
      refine always_bind.mpr ⟨hk₁.always (pathDepthCnt_same _).of_eq, ?_⟩
      rw [wp_iff_returns]
      intro searched k₂ hsearched
      obtain rfl : k₂ = k₁ := wp_iff_returns.mp (pathDepthCnt_same _).wp_eq _ _ hsearched
      split
      · exact hclose _ k₂ hk₁
      next hdeep =>
        have hsame : depth = searched := not_not.mp hdeep
        subst hsame
        split
        · split
          · exact hclose _ k₂ hk₁
          · refine always_bind.mpr ⟨fileCreate_filesOk hk₁, ?_⟩
            refine wp_mono (wp_of_always (fileCreate_filesOk hk₁)) fun fd k₃ hk₃ => ?_
            exact hclose fd k₃ hk₃
        next inodeNo =>
          split
          · exact hclose _ k₂ hk₁
          next hcreat =>
            refine fileOpen_filesOk hk₁ ?_
            rintro hflag ⟨fd₀, hlow, hhigh, hfree⟩ fd a hwrites rfl
            -- this is just what the side condition rules out
            refine hcond ⟨not_not.mp hcreat, hflag, ?_, ⟨fd₀, hlow, hhigh, ?_⟩, fd, a,
              hkeep₁.writes.mp hwrites, record, k₂, ?_, hfile, depth, hdepth, hsearched⟩
            · intro hlast
              rw [List.getLastD_eq_getLast?, hlast] at hslash
              exact hslash rfl
            · rw [← hkeep₁.files]
              exact hfree
            · rwa [← hkeep₁.number a (hk.files fd hwrites.1 a (hkeep₁.writes.mp hwrites).2.2)]

theorem fileClose_filesOk {k : Kernel} {fd : ℕ} (hk : FilesOk k) :
    (fileClose fd).always FilesOk k := by
  unfold fileClose
  refine always_bind.mpr ⟨hk, ?_⟩
  rw [wp_read]
  split
  · exact hk
  next a ha =>
    have hkeep := @keepsOpen_setInode k a { k.inodes a with writeDeny := false } rfl
    refine always_bind.mpr ⟨⟨hk, hkeep.filesOk hk⟩, ?_⟩
    rw [wp_write]
    refine hk.bind (inodeClose_within a) hkeep fun _ k₁ hkeep₁ => ?_
    have hk₁ := hkeep₁.filesOk hk
    have hclear : FilesOk (k₁.setFile fd { k₁.fileTable fd with fdInode := none }) :=
      hk₁.setFile (fun b hb => by cases hb) (fun b fd' _ hb => by cases hb)
    exact always_bind.mpr ⟨⟨hk₁, hclear⟩, hclear⟩

theorem sysClose_filesOk {k : Kernel} {fd : ℤ} (hk : FilesOk k) : (sysClose fd).always FilesOk k := by
  unfold sysClose
  split
  · exact hk
  refine always_bind.mpr ⟨hk.always (fdLocal2global_same _).of_eq, ?_⟩
  refine wp_mono fdLocal2global_spec ?_
  rintro g _ ⟨rfl, -, -, hg⟩
  refine always_bind.mpr ⟨hk.always (isPipe_same _).of_eq, ?_⟩
  refine wp_mono isPipe_spec ?_
  rintro pipe k₁ rfl
  have hfinish : ∀ (ret : ℤ) (k₂ : Kernel), FilesOk k₂ → (do
      modify fun k => k.setTask k.running
        { k.cur with fdTable := Function.update k.cur.fdTable fd.toNat (-1) }
      return ret : Prog Kernel ℤ).always FilesOk k₂ :=
    fun ret k₂ hk₂ => always_bind.mpr ⟨⟨hk₂, hk₂.setTask _ _⟩, hk₂.setTask _ _⟩
  cases pipe with
  | true =>
      rw [if_pos rfl]
      have hdrop : ∀ file : File, file.fdFlag = (k₁.fileTable g).fdFlag →
          (file.fdInode = none ∨ file.fdInode = (k₁.fileTable g).fdInode) →
          FilesOk (k₁.setFile g file) := by
        intro file hflag hinode
        refine hk.setFile ?_ ?_
        · intro a ha
          rcases hinode with hinode | hinode
          · rw [hinode] at ha
            cases ha
          · exact hk.files g hg a (hinode ▸ ha)
        · intro a fd' hwants ha hwrites
          rcases hinode with hinode | hinode
          · rw [hinode] at ha
            cases ha
          · exact hk.one a fd' g hwrites ⟨hg, hflag ▸ hwants, hinode ▸ ha⟩
      have hpipe : (pipeDrop g).always FilesOk k₁ := by
        refine ⟨hk, hdrop _ rfl ?_⟩
        dsimp only
        split
        · exact Or.inl rfl
        · exact Or.inr rfl
      refine always_bind.mpr ⟨hpipe, ?_⟩
      exact wp_mono (wp_of_always hpipe) fun _ k₂ hk₂ => hfinish 0 k₂ hk₂
  | false =>
      rw [if_neg Bool.false_ne_true]
      refine always_bind.mpr ⟨fileClose_filesOk hk, ?_⟩
      exact wp_mono (wp_of_always (fileClose_filesOk hk)) hfinish

/-! ## Every run -/

theorem NoFileOpen.filesOk {k : Kernel} (hk : NoFileOpen k) : FilesOk k where
  opened := hk.opened
  files fd hfd a ha := by
    rw [hk.files fd hfd] at ha
    cases ha
  one a fd fd' hfd := by
    have := hfd.2.2
    rw [hk.files fd hfd.1] at this
    cases this

theorem FileCall.filesOk {t : Transfer} {k : Kernel} {p : ℕ} {call : FileCall} (hk : FilesOk k)
    (hcond : NoSecondWriter t k (p, call)) : (call.body t).always FilesOk { k with running := p } := by
  have hk' : FilesOk { k with running := p } := ⟨⟨hk.opened, hk.files⟩, hk.one⟩
  cases call with
  | «open» pathname flags => exact sysOpen_filesOk hk' hcond
  | close fd => exact sysClose_filesOk hk'

/-- In every run in which no file is opened for writing while it has a writer, no file
has two writers, neither between the calls nor at any moment inside them. -/
theorem one_writer_only {t : Transfer} {k : Kernel}
    (h : Reachable NoFileOpen (FileStep t) (NoSecondWriter t) k) :
    OneWriter k ∧ ∀ p call, NoSecondWriter t k (p, call) →
      (call.body t).always OneWriter { k with running := p } := by
  have hk : FilesOk k := by
    refine Reachable.invariant FilesOk (fun k hk => hk.filesOk) ?_ h
    rintro k ⟨p, call⟩ k' hk hcond ⟨ret, hret⟩
    exact wp_iff_returns.mp (wp_of_always (FileCall.filesOk hk hcond)) ret k' hret
  exact ⟨hk.one, fun p call hcond => always_mono (FileCall.filesOk hk hcond) fun _ h => h.one⟩

/-! ## Two runs -/

/-- One call, with every allocation successful. -/
def FileCall.exec (k : Kernel) (call : ℕ × FileCall) : Option Kernel :=
  ((call.2.body .repeated).exec [] { k with running := call.1 }).map Prod.snd

theorem FileCall.step_of_exec {k k' : Kernel} {call : ℕ × FileCall}
    (h : FileCall.exec k call = some k') : FileStep .repeated k call k' := by
  obtain ⟨⟨ret, _⟩, hexec, rfl⟩ := Option.map_eq_some_iff.mp h
  exact ⟨ret, returns_of_exec hexec⟩

/-- No entry at all has a write flag. -/
def Kernel.noWriter (k : Kernel) : Bool :=
  (List.range maxFileOpen).all fun fd =>
    !(wantsWrite (k.fileTable fd).fdFlag && (k.fileTable fd).fdInode.isSome)

/-- One call, which opens a file only in a state without writers. -/
def FileCall.execSafe (k : Kernel) : ℕ × FileCall → Option Kernel
  | (p, close fd) => FileCall.exec k (p, close fd)
  | (p, .open pathname flags) =>
      if k.noWriter then FileCall.exec k (p, .open pathname flags) else none

theorem FileCall.safe_of_exec {k k' : Kernel} {call : ℕ × FileCall}
    (h : FileCall.execSafe k call = some k') :
    NoSecondWriter .repeated k call ∧ FileStep .repeated k call k' := by
  obtain ⟨p, call⟩ := call
  cases call with
  | close fd => exact ⟨fun hfalse => hfalse, FileCall.step_of_exec h⟩
  | «open» pathname flags =>
      simp only [FileCall.execSafe] at h
      split at h
      next hno =>
        refine ⟨?_, FileCall.step_of_exec h⟩
        rintro ⟨-, -, -, -, fd, a, ⟨hfd, hwants, hinode⟩, -⟩
        have hall := List.all_eq_true.mp hno fd (List.mem_range.mpr hfd)
        change (k.fileTable fd).fdInode = some a at hinode
        change wantsWrite (k.fileTable fd).fdFlag = true at hwants
        rw [hinode, hwants] at hall
        simp at hall
      next => simp at h

theorem newFs_noFileOpen : NoFileOpen smallMachine.newFs where
  opened a ha := by
    change a ∈ [0] at ha
    rw [List.mem_singleton.mp ha]
    decide
  files fd hfd := by
    simp only [Kernel.newFs, if_pos hfd]

/-- A file is created and closed by one process and then opened for writing by
another: one entry writes to it. -/
theorem one_writer_only_after_reopen :
    ∃ k, Reachable NoFileOpen (FileStep .repeated) (NoSecondWriter .repeated) k ∧ k.Writes 3 2 ∧
      OneWriter k := by
  have hrun : (follow FileCall.execSafe [(0, .open pathA 6), (0, .close 3), (1, .open pathA 2)]
      smallMachine.newFs).map (fun k => decide (k.Writes 3 2)) = some true := by
    decide +kernel
  obtain ⟨k, hk, hwrites⟩ := Option.map_eq_some_iff.mp hrun
  have hreach : Reachable NoFileOpen (FileStep .repeated) (NoSecondWriter .repeated) k :=
    Reachable.of_follow (fun _ _ _ h => FileCall.safe_of_exec h) (.start newFs_noFileOpen) hk
  exact ⟨k, hreach, of_decide_eq_true hwrites, (one_writer_only hreach).1⟩

/-- A file is created for writing by one process, and opened for writing by another. -/
theorem second_writer_opens :
    ∃ k, Reachable NoFileOpen (FileStep .repeated) (fun _ _ => True) k ∧ ¬ OneWriter k := by
  have hrun : (follow FileCall.exec [(0, .open pathA 6), (1, .open pathA 2)]
      smallMachine.newFs).map (fun k => decide (k.Writes 3 1 ∧ k.Writes 4 1)) = some true := by
    decide +kernel
  obtain ⟨k, hk, hwrites⟩ := Option.map_eq_some_iff.mp hrun
  have hwrites := of_decide_eq_true hwrites
  have hreach : Reachable NoFileOpen (FileStep .repeated) (fun _ _ => True) k := by
    refine Reachable.of_follow ?_ (.start newFs_noFileOpen) hk
    exact fun k call k' h => ⟨trivial, FileCall.step_of_exec h⟩
  refine ⟨k, hreach, fun hone => ?_⟩
  exact absurd (hone 1 3 4 hwrites.1 hwrites.2) (by decide)

end BochsOs
