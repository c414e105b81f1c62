import BochsOs.Fs.Format
import BochsOs.Shell.Pipe

/-!
# Calls with a descriptor

`sys_read`, `sys_write`, `sys_lseek`, `sys_close` and `sys_dup2` check only for negative and
some standard descriptors.  What is left goes through `fd_local2global`, which indexes
`fd_table` unchecked and asserts that the slot is taken, and to entries that may have no inode.
`handled_iff` says from which states a call with a given descriptor works on an open entry or
returns an error.
-/

namespace BochsOs

open ByteMemory Suspend Suspend.Prog

/-! ## The calls -/

/-- A call with a descriptor. -/
inductive DescriptorCall where
  | read (fd : ℤ) (buf : Bytes) (count : ℕ)
  | write (fd : ℤ) (buf : Bytes) (count : ℕ)
  | lseek (fd offset : ℤ) (whence : Whence)
  | close (fd : ℤ)
  | dup2 (newLocalFd oldLocalFd : ℕ)

namespace DescriptorCall

/-- What the call returns. -/
def Result : DescriptorCall → Type
  | read _ _ _ => ℤ × Bytes
  | write _ _ _ => ℤ
  | lseek _ _ _ => ℤ
  | close _ => ℤ
  | dup2 _ _ => Unit

/-- The call. -/
def run (t : Transfer) : (c : DescriptorCall) → Prog Kernel c.Result
  | read fd buf count => sysRead t fd buf count
  | write fd buf count => sysWrite t fd buf count
  | lseek fd offset whence => sysLseek fd offset whence
  | close fd => sysClose fd
  | dup2 newLocalFd oldLocalFd => sysDup2 newLocalFd oldLocalFd

/-- The descriptors that are passed. -/
def descriptors : DescriptorCall → List ℤ
  | read fd _ _ => [fd]
  | write fd _ _ => [fd]
  | lseek fd _ _ => [fd]
  | close fd => [fd]
  | dup2 newLocalFd oldLocalFd => [(newLocalFd : ℤ), (oldLocalFd : ℤ)]

/-- The result that reports an error; `sys_dup2` has none. -/
def error : (c : DescriptorCall) → Option c.Result
  | read _ buf _ => some ((-1, buf) : ℤ × Bytes)
  | write _ _ _ => some (-1 : ℤ)
  | lseek _ _ _ => some (-1 : ℤ)
  | close _ => some (-1 : ℤ)
  | dup2 _ _ => none

end DescriptorCall

/-! ## Entries -/

/-- The descriptor `fd` of the running process stands for the entry `g` of `file_table`. -/
structure Kernel.Entry (k : Kernel) (fd : ℤ) (g : ℕ) : Prop where
  pos : 0 ≤ fd
  slot : fd.toNat < maxFilesOpenPerProc
  value : k.cur.fdTable fd.toNat = g
  bound : g < maxFileOpen

/-- The entry is that of an open file or pipe. -/
def Kernel.InUse (k : Kernel) (g a : ℕ) : Prop := (k.fileTable g).fdInode = some a

/-- The entry is that of a pipe. -/
def Kernel.PipeEntry (k : Kernel) (g : ℕ) : Prop := (k.fileTable g).fdFlag = pipeFlag

instance (k : Kernel) (g : ℕ) : Decidable (k.PipeEntry g) :=
  inferInstanceAs (Decidable (_ = _))

theorem Kernel.Entry.unique {k : Kernel} {fd : ℤ} {g g' : ℕ} (h : k.Entry fd g)
    (h' : k.Entry fd g') : g = g' := by
  have := h.value.symm.trans h'.value
  exact_mod_cast this

/-- `fd_local2global` of a descriptor with an entry. -/
theorem fdLocal2global_entry {k : Kernel} {fd : ℤ} {g : ℕ} (h : k.Entry fd g) :
    SameFrom (fdLocal2global fd.toNat) (pure g) k := by
  have hslot := h.slot
  have hbound := h.bound
  unfold fdLocal2global
  rw [if_neg (by omega)]
  refine (SameFrom.read_bind _ k).trans ?_
  dsimp only
  rw [h.value, decide_eq_true ⟨by omega, by exact_mod_cast hbound⟩]
  exact .refl _ k

/-- Without an entry `fd_local2global` indexes out of range or fails its assertion. -/
theorem fdLocal2global_no_entry {k : Kernel} {fd : ℤ} (hpos : 0 ≤ fd) (hno : ∀ g, ¬ k.Entry fd g) :
    ∃ f, SameFrom (fdLocal2global fd.toNat) (stop f) k := by
  unfold fdLocal2global
  by_cases hslot : maxFilesOpenPerProc ≤ fd.toNat
  · rw [if_pos hslot]
    exact ⟨.undefined, .refl _ k⟩
  · rw [if_neg hslot]
    refine ⟨.halt, (SameFrom.read_bind _ k).trans ?_⟩
    dsimp only
    rw [decide_eq_false fun hvalue => hno (k.cur.fdTable fd.toNat).toNat
      ⟨hpos, by omega, by omega, by omega⟩]
    exact .refl _ k

theorem isPipe_entry_same {k : Kernel} {fd : ℤ} {g : ℕ} (h : k.Entry fd g) :
    SameFrom (isPipe fd.toNat) (pure (decide (k.PipeEntry g))) k :=
  ((fdLocal2global_entry h).bind _).trans (.read_bind _ k)

theorem isPipe_no_entry {k : Kernel} {fd : ℤ} (hpos : 0 ≤ fd) (hno : ∀ g, ¬ k.Entry fd g) :
    ∃ f, SameFrom (isPipe fd.toNat) (stop f) k := by
  obtain ⟨f, hstop⟩ := fdLocal2global_no_entry hpos hno
  exact ⟨f, hstop.bind _⟩

/-! ## Work on open entries -/

/-- The process holds the descriptor: it is a standard one, or its slot is taken. -/
def Kernel.Held (k : Kernel) (fd : ℕ) : Prop := fd < 3 ∨ ∃ g, k.Entry fd g

/-- `sys_lseek` on the file with the inode `a`. -/
def seekFile (g a : ℕ) (offset : ℤ) (whence : Whence) : Prog Kernel ℤ := do
  let k ← read
  let file := k.fileTable g
  let fileSize := asInt32 (k.inodes a).iSize
  let newPos := match whence with
    | .set => offset
    | .cur => wrap32 (asInt32 file.fdPos + offset)
    | .end => wrap32 (fileSize + offset)
  if newPos < 0 ∨ fileSize - 1 < newPos then return -1
  else
    write (k.setFile g { file with fdPos := newPos.toNat })
    return newPos

/-- The end of `sys_close`: the slot is free again. -/
def closeSlot (fd : ℤ) (ret : ℤ) : Prog Kernel ℤ := do
  modify fun k => k.setTask k.running
    { k.cur with fdTable := Function.update k.cur.fdTable fd.toNat (-1) }
  return ret

/-- What a call does on descriptors that the process holds open: with the keyboard or the
screen, or on an entry that is in use. -/
inductive Work (t : Transfer) (k : Kernel) : (c : DescriptorCall) → Prog Kernel c.Result → Prop
  | readPipe {fd : ℤ} {buf : Bytes} {count g a : ℕ} (h : k.Entry fd g) (hpipe : k.PipeEntry g)
      (hopen : k.InUse g a) : Work t k (.read fd buf count) (do
        let dst ← pipeReadLoop a (min (ioqLength (k.ioqueues a)) count) 0 buf
        return ((min (ioqLength (k.ioqueues a)) count : ℕ), dst) : Prog Kernel (ℤ × Bytes))
  | readStdin {buf : Bytes} {count g : ℕ} (h : k.Entry 0 g) (hfile : ¬ k.PipeEntry g) :
      Work t k (.read 0 buf count) (do
        let dst ← BochsOs.readStdin count 0 buf
        return (if count = 0 then -1 else asInt32 count, dst) : Prog Kernel (ℤ × Bytes))
  | readFile {fd : ℤ} {buf : Bytes} {count g a : ℕ} (h : k.Entry fd g) (hopen : k.InUse g a) :
      Work t k (.read fd buf count) (fileRead t g buf count)
  | writePipe {fd : ℤ} {buf : Bytes} {count g a : ℕ} (h : k.Entry fd g) (hpipe : k.PipeEntry g)
      (hopen : k.InUse g a) : Work t k (.write fd buf count) (do
        pipeWriteLoop a buf (min count (bufsize - ioqLength (k.ioqueues a))) 0
        return (min count (bufsize - ioqLength (k.ioqueues a)) : ℕ) : Prog Kernel ℤ)
  | writeStdout {buf : Bytes} {count g : ℕ} (h : k.Entry 1 g) (hfile : ¬ k.PipeEntry g) :
      Work t k (.write 1 buf count)
        (if 1024 < count then stop .undefined else return count : Prog Kernel ℤ)
  | writeFile {fd : ℤ} {buf : Bytes} {count g a : ℕ} (h : k.Entry fd g) (hopen : k.InUse g a) :
      Work t k (.write fd buf count) (fileWrite t g buf count)
  | lseekFile {fd offset : ℤ} {whence : Whence} {g a : ℕ} (h : k.Entry fd g)
      (hfile : ¬ k.PipeEntry g) (hopen : k.InUse g a) :
      Work t k (.lseek fd offset whence) (seekFile g a offset whence)
  | closePipe {fd : ℤ} {g a : ℕ} (h : k.Entry fd g) (hopen : k.InUse g a) :
      Work t k (.close fd) (do pipeDrop g; closeSlot fd 0 : Prog Kernel ℤ)
  | closeFile {fd : ℤ} {g a : ℕ} (h : k.Entry fd g) (hopen : k.InUse g a) :
      Work t k (.close fd) (fileClose g >>= closeSlot fd : Prog Kernel ℤ)
  | dup2 {newLocalFd oldLocalFd : ℕ} (hnew : k.Held newLocalFd) (hold : k.Held oldLocalFd) :
      Work t k (.dup2 newLocalFd oldLocalFd)
        (Prog.write (k.setFd k.running oldLocalFd (k.dupValue newLocalFd)))

/-- The call returns an error and changes nothing, or works on open descriptors. -/
inductive DescriptorCall.Handled (t : Transfer) (k : Kernel) (c : DescriptorCall) : Prop
  | fails {r : c.Result} (herror : c.error = some r) (h : SameFrom (c.run t) (pure r) k)
  | works {x : Prog Kernel c.Result} (hwork : Work t k c x) (h : SameFrom (c.run t) x k)

/-- The states from which a call can be made. -/
def DescriptorCall.Usable (k : Kernel) : DescriptorCall → Prop
  | read fd _ _ => fd < 0 ∨ fd = 1 ∨ fd = 2 ∨
      ∃ g, k.Entry fd g ∧ ((∃ a, k.InUse g a) ∨ fd = 0 ∧ ¬ k.PipeEntry g)
  | write fd _ _ => fd < 0 ∨ ∃ g, k.Entry fd g ∧ ((∃ a, k.InUse g a) ∨
      ¬ k.PipeEntry g ∧ (fd = 1 ∨ ¬ wantsWrite (k.fileTable g).fdFlag = true))
  | lseek fd _ _ => fd < 0 ∨ ∃ g, k.Entry fd g ∧ (∃ a, k.InUse g a) ∧ ¬ k.PipeEntry g
  | close fd => fd ≤ 2 ∨ ∃ g, k.Entry fd g ∧ ∃ a, k.InUse g a
  | dup2 newLocalFd oldLocalFd => k.Held newLocalFd ∧ k.Held oldLocalFd

/-! ## Calls on an entry -/

section Entry

variable {t : Transfer} {k : Kernel} {fd : ℤ} {g : ℕ} (h : k.Entry fd g)

include h

/-- Look up the entry and go on. -/
theorem entry_bind {α : Type} (x : ℕ → Prog Kernel α) :
    SameFrom (fdLocal2global fd.toNat >>= x) (x g) k := (fdLocal2global_entry h).bind x

/-- Ask whether the entry is a pipe and go on. -/
theorem isPipe_bind {α : Type} (x : Bool → Prog Kernel α) :
    SameFrom (isPipe fd.toNat >>= x) (x (decide (k.PipeEntry g))) k := (isPipe_entry_same h).bind x

theorem pipeRead_entry {a : ℕ} (hopen : k.InUse g a) (buf : Bytes) (count : ℕ) :
    SameFrom (pipeRead fd.toNat buf count) (do
      let dst ← pipeReadLoop a (min (ioqLength (k.ioqueues a)) count) 0 buf
      return ((min (ioqLength (k.ioqueues a)) count : ℕ), dst)) k := by
  refine (entry_bind h _).trans ((SameFrom.read_bind _ k).trans ?_)
  dsimp only
  rw [hopen]
  exact .refl _ k

theorem pipeWrite_entry {a : ℕ} (hopen : k.InUse g a) (buf : Bytes) (count : ℕ) :
    SameFrom (pipeWrite fd.toNat buf count) (do
      pipeWriteLoop a buf (min count (bufsize - ioqLength (k.ioqueues a))) 0
      return (min count (bufsize - ioqLength (k.ioqueues a)) : ℕ)) k := by
  refine (entry_bind h _).trans ((SameFrom.read_bind _ k).trans ?_)
  dsimp only
  rw [hopen]
  exact .refl _ k

theorem sysRead_entry (hfd : ¬ (fd < 0 ∨ fd = 1 ∨ fd = 2)) (buf : Bytes) (count : ℕ) :
    SameFrom (sysRead t fd buf count) (if k.PipeEntry g then pipeRead fd.toNat buf count
      else if fd = 0 then do
        let dst ← readStdin count 0 buf
        return (if count = 0 then -1 else asInt32 count, dst)
      else fileRead t g buf count) k := by
  rw [sysRead, if_neg hfd]
  refine (isPipe_bind h _).trans ?_
  by_cases hpipe : k.PipeEntry g
  · rw [if_pos hpipe, decide_eq_true hpipe]
    exact .refl _ k
  · rw [if_neg hpipe, decide_eq_false hpipe]
    by_cases hzero : fd = 0
    · rw [if_pos hzero, if_pos hzero]
      exact .refl _ k
    · rw [if_neg hzero, if_neg hzero]
      exact entry_bind h _

theorem sysWrite_entry (buf : Bytes) (count : ℕ) :
    SameFrom (sysWrite t fd buf count) (if k.PipeEntry g then pipeWrite fd.toNat buf count
      else if fd = 1 then (if 1024 < count then stop .undefined else return count)
      else if wantsWrite (k.fileTable g).fdFlag then fileWrite t g buf count
      else return -1) k := by
  have hpos := h.pos
  rw [sysWrite, if_neg (by omega)]
  refine (isPipe_bind h _).trans ?_
  by_cases hpipe : k.PipeEntry g
  · rw [if_pos hpipe, decide_eq_true hpipe]
    exact .refl _ k
  · rw [if_neg hpipe, decide_eq_false hpipe]
    by_cases hone : fd = 1
    · rw [if_pos hone, if_pos hone]
      exact .refl _ k
    · rw [if_neg hone, if_neg hone]
      exact (entry_bind h _).trans (.read_bind _ k)

theorem sysLseek_file {a : ℕ} (hfile : ¬ k.PipeEntry g) (hopen : k.InUse g a) (offset : ℤ)
    (whence : Whence) : SameFrom (sysLseek fd offset whence) (seekFile g a offset whence) k := by
  have hpos := h.pos
  have hflag : ¬ (k.fileTable g).fdFlag = pipeFlag := hfile
  rw [sysLseek, if_neg (by omega)]
  refine (entry_bind h _).trans ((SameFrom.read_bind _ k).trans (.trans ?_ (SameFrom.read_bind _ k).symm))
  dsimp only
  rw [if_neg hflag, hopen]
  exact .refl _ k

theorem sysClose_entry (hfd : ¬ fd ≤ 2) : SameFrom (sysClose fd)
    (if k.PipeEntry g then do pipeDrop g; closeSlot fd 0 else fileClose g >>= closeSlot fd) k := by
  rw [sysClose, if_neg hfd]
  refine (entry_bind h _).trans ((isPipe_bind h _).trans ?_)
  by_cases hpipe : k.PipeEntry g
  · rw [if_pos hpipe, decide_eq_true hpipe]
    exact .refl _ k
  · rw [if_neg hpipe, decide_eq_false hpipe]
    exact .refl _ k

end Entry

/-! ## Calls that cannot be made -/

section Stops

variable {t : Transfer} {k : Kernel} {fd : ℤ}

/-- The program stops from the state. -/
def Stops {α : Type} (x : Prog Kernel α) (k : Kernel) : Prop := ∃ f, SameFrom x (stop f) k

theorem Stops.not_pure {α : Type} {x : Prog Kernel α} (h : Stops x k) (r : α) :
    ¬ SameFrom x (pure r) k := by
  intro hpure
  obtain ⟨f, hstop⟩ := h
  exact (hstop.symm.trans hpure).avoids f |>.mpr trivial rfl

theorem Stops.of_same {α : Type} {x y : Prog Kernel α} (h : SameFrom x y k) (hy : Stops y k) :
    Stops x k := hy.imp fun _ hstop => h.trans hstop

variable {g : ℕ} (hclosed : ∀ a, ¬ k.InUse g a)

include hclosed

theorem unused_eq_none : (k.fileTable g).fdInode = none :=
  Option.eq_none_iff_forall_ne_some.mpr hclosed

/-- What works on the inode of an entry stops if there is none. -/
theorem stops_unused {α : Type} {x : Kernel → ℕ → Prog Kernel α} : Stops (do
    let k ← Prog.read
    match (k.fileTable g).fdInode with
    | none => stop .undefined
    | some a => x k a) k := by
  refine ⟨.undefined, (SameFrom.read_bind _ k).trans ?_⟩
  rw [unused_eq_none hclosed]
  exact .refl _ k

theorem stops_pipeRead (h : k.Entry fd g) (buf : Bytes) (count : ℕ) :
    Stops (pipeRead fd.toNat buf count) k := .of_same (entry_bind h _) (stops_unused hclosed)

theorem stops_pipeWrite (h : k.Entry fd g) (buf : Bytes) (count : ℕ) :
    Stops (pipeWrite fd.toNat buf count) k := .of_same (entry_bind h _) (stops_unused hclosed)

omit hclosed

theorem stops_isPipe_bind {α : Type} (hpos : 0 ≤ fd) (hno : ∀ g, ¬ k.Entry fd g)
    (x : Bool → Prog Kernel α) : Stops (isPipe fd.toNat >>= x) k := by
  obtain ⟨f, hstop⟩ := isPipe_no_entry hpos hno
  exact ⟨f, hstop.bind x⟩

theorem stops_fdLocal2global_bind {α : Type} (hpos : 0 ≤ fd) (hno : ∀ g, ¬ k.Entry fd g)
    (x : ℕ → Prog Kernel α) : Stops (fdLocal2global fd.toNat >>= x) k := by
  obtain ⟨f, hstop⟩ := fdLocal2global_no_entry hpos hno
  exact ⟨f, hstop.bind x⟩

/-- A read that cannot be made stops. -/
theorem stops_sysRead {buf : Bytes} {count : ℕ}
    (h : ¬ (DescriptorCall.read fd buf count).Usable k) : Stops (sysRead t fd buf count) k := by
  simp only [DescriptorCall.Usable, not_or] at h
  obtain ⟨hneg, hone, htwo, hentry⟩ := h
  have hfd : ¬ (fd < 0 ∨ fd = 1 ∨ fd = 2) := by omega
  by_cases hno : ∀ g, ¬ k.Entry fd g
  · rw [sysRead, if_neg hfd]
    exact stops_isPipe_bind (by omega) hno _
  · obtain ⟨g, hg⟩ := not_forall_not.mp hno
    have hboth := not_exists.mp hentry g
    have hclosed : ∀ a, ¬ k.InUse g a := fun a ha => hboth ⟨hg, Or.inl ⟨a, ha⟩⟩
    refine .of_same (sysRead_entry hg hfd buf count) ?_
    by_cases hpipe : k.PipeEntry g
    · rw [if_pos hpipe]
      exact stops_pipeRead hclosed hg buf count
    · rw [if_neg hpipe, if_neg fun hzero => hboth ⟨hg, Or.inr ⟨hzero, hpipe⟩⟩]
      exact stops_unused hclosed

theorem stops_sysWrite {buf : Bytes} {count : ℕ}
    (h : ¬ (DescriptorCall.write fd buf count).Usable k) : Stops (sysWrite t fd buf count) k := by
  simp only [DescriptorCall.Usable, not_or] at h
  obtain ⟨hneg, hentry⟩ := h
  by_cases hno : ∀ g, ¬ k.Entry fd g
  · rw [sysWrite, if_neg hneg]
    exact stops_isPipe_bind (by omega) hno _
  · obtain ⟨g, hg⟩ := not_forall_not.mp hno
    have hboth := not_exists.mp hentry g
    have hclosed : ∀ a, ¬ k.InUse g a := fun a ha => hboth ⟨hg, Or.inl ⟨a, ha⟩⟩
    refine .of_same (sysWrite_entry hg buf count) ?_
    by_cases hpipe : k.PipeEntry g
    · rw [if_pos hpipe]
      exact stops_pipeWrite hclosed hg buf count
    · have hflag : ¬ (fd = 1 ∨ ¬ wantsWrite (k.fileTable g).fdFlag = true) := fun hor =>
        hboth ⟨hg, Or.inr ⟨hpipe, hor⟩⟩
      rw [not_or, not_not] at hflag
      rw [if_neg hpipe, if_neg hflag.1, if_pos hflag.2]
      exact stops_unused hclosed

theorem stops_sysLseek {offset : ℤ} {whence : Whence}
    (h : ¬ (DescriptorCall.lseek fd offset whence).Usable k) :
    Stops (sysLseek fd offset whence) k := by
  simp only [DescriptorCall.Usable, not_or] at h
  obtain ⟨hneg, hentry⟩ := h
  rw [sysLseek, if_neg hneg]
  by_cases hno : ∀ g, ¬ k.Entry fd g
  · exact stops_fdLocal2global_bind (by omega) hno _
  · obtain ⟨g, hg⟩ := not_forall_not.mp hno
    have hboth := not_exists.mp hentry g
    refine .of_same ((entry_bind hg _).trans (.read_bind _ k)) ?_
    dsimp only
    by_cases hpipe : (k.fileTable g).fdFlag = pipeFlag
    · rw [if_pos hpipe]
      exact ⟨.undefined, .refl _ k⟩
    · have hclosed : ∀ a, ¬ k.InUse g a := fun a ha => hboth ⟨hg, ⟨a, ha⟩, hpipe⟩
      rw [if_neg hpipe, unused_eq_none hclosed]
      exact ⟨.undefined, .refl _ k⟩

/-- A `sys_close` that cannot be made stops, or drops a pipe that was freed before. -/
theorem sysClose_fails (h : ¬ (DescriptorCall.close fd).Usable k) :
    ¬ SameFrom (sysClose fd) (pure (-1)) k := by
  simp only [DescriptorCall.Usable, not_or] at h
  obtain ⟨hstd, hentry⟩ := h
  by_cases hno : ∀ g, ¬ k.Entry fd g
  · rw [sysClose, if_neg hstd]
    exact (stops_fdLocal2global_bind (by omega) hno _).not_pure _
  · obtain ⟨g, hg⟩ := not_forall_not.mp hno
    have hclosed : ∀ a, ¬ k.InUse g a := fun a ha => not_exists.mp hentry g ⟨hg, a, ha⟩
    intro hsame
    have hrest := (sysClose_entry hg hstd).symm.trans hsame
    by_cases hpipe : k.PipeEntry g
    · rw [if_pos hpipe] at hrest
      -- it returns 0
      have hret : (0 : ℤ) = -1 := (hrest.ensures .zero fun r _ => r = -1).mpr rfl
      cases hret
    · rw [if_neg hpipe] at hrest
      have hstop : Stops (fileClose g >>= closeSlot fd) k := by
        obtain ⟨f, hf⟩ := stops_unused (x := fun k a => do
          Prog.write (k.setInode a { k.inodes a with writeDeny := false })
          inodeClose a
          modify fun k => k.setFile g { k.fileTable g with fdInode := none }
          return (0 : ℤ)) hclosed
        exact ⟨f, hf.bind _⟩
      exact hstop.not_pure _ hrest

end Stops

/-! ## Calls that can be made -/

section Usable

variable {t : Transfer} {k : Kernel}

theorem handled_read {fd : ℤ} {buf : Bytes} {count : ℕ}
    (h : (DescriptorCall.read fd buf count).Usable k) :
    (DescriptorCall.read fd buf count).Handled t k := by
  by_cases hfd : fd < 0 ∨ fd = 1 ∨ fd = 2
  · refine .fails rfl ?_
    rw [DescriptorCall.run, sysRead, if_pos hfd]
    exact .refl _ k
  simp only [not_or] at hfd
  obtain ⟨hneg, hone, htwo⟩ := hfd
  obtain ⟨g, hg, huse⟩ := ((h.resolve_left hneg).resolve_left hone).resolve_left htwo
  have hrun := sysRead_entry (t := t) hg (by omega) buf count
  by_cases hpipe : k.PipeEntry g
  · obtain ⟨a, ha⟩ := huse.resolve_right fun hstdin => hstdin.2 hpipe
    rw [if_pos hpipe] at hrun
    exact .works (.readPipe hg hpipe ha) (hrun.trans (pipeRead_entry hg ha buf count))
  · rw [if_neg hpipe] at hrun
    by_cases hzero : fd = 0
    · subst hzero
      exact .works (.readStdin hg hpipe) hrun
    · obtain ⟨a, ha⟩ := huse.resolve_right fun hstdin => hzero hstdin.1
      rw [if_neg hzero] at hrun
      exact .works (.readFile hg ha) hrun

theorem handled_write {fd : ℤ} {buf : Bytes} {count : ℕ}
    (h : (DescriptorCall.write fd buf count).Usable k) :
    (DescriptorCall.write fd buf count).Handled t k := by
  by_cases hneg : fd < 0
  · refine .fails rfl ?_
    rw [DescriptorCall.run, sysWrite, if_pos hneg]
    exact .refl _ k
  obtain ⟨g, hg, huse⟩ := h.resolve_left hneg
  have hrun := sysWrite_entry (t := t) hg buf count
  by_cases hpipe : k.PipeEntry g
  · obtain ⟨a, ha⟩ := huse.resolve_right fun hstdout => hstdout.1 hpipe
    rw [if_pos hpipe] at hrun
    exact .works (.writePipe hg hpipe ha) (hrun.trans (pipeWrite_entry hg ha buf count))
  · rw [if_neg hpipe] at hrun
    by_cases hone : fd = 1
    · subst hone
      exact .works (.writeStdout hg hpipe) hrun
    · rw [if_neg hone] at hrun
      by_cases hflag : wantsWrite (k.fileTable g).fdFlag = true
      · obtain ⟨a, ha⟩ := huse.resolve_right fun hother =>
          hother.2.elim hone fun hnot => hnot hflag
        rw [if_pos hflag] at hrun
        exact .works (.writeFile hg ha) hrun
      · rw [if_neg hflag] at hrun
        exact .fails rfl hrun

theorem handled_lseek {fd offset : ℤ} {whence : Whence}
    (h : (DescriptorCall.lseek fd offset whence).Usable k) :
    (DescriptorCall.lseek fd offset whence).Handled t k := by
  by_cases hneg : fd < 0
  · refine .fails rfl ?_
    rw [DescriptorCall.run, sysLseek, if_pos hneg]
    exact .refl _ k
  · obtain ⟨g, hg, ⟨a, ha⟩, hfile⟩ := h.resolve_left hneg
    exact .works (.lseekFile hg hfile ha) (sysLseek_file hg hfile ha offset whence)

theorem handled_close {fd : ℤ} (h : (DescriptorCall.close fd).Usable k) :
    (DescriptorCall.close fd).Handled t k := by
  by_cases hstd : fd ≤ 2
  · refine .fails rfl ?_
    rw [DescriptorCall.run, sysClose, if_pos hstd]
    exact .refl _ k
  · obtain ⟨g, hg, a, ha⟩ := h.resolve_left hstd
    have hrun := sysClose_entry hg hstd
    by_cases hpipe : k.PipeEntry g
    · rw [if_pos hpipe] at hrun
      exact .works (.closePipe hg ha) hrun
    · rw [if_neg hpipe] at hrun
      exact .works (.closeFile hg ha) hrun

theorem Kernel.Held.lt {fd : ℕ} (h : k.Held fd) : fd < maxFilesOpenPerProc := by
  rcases h with hstd | ⟨g, hg⟩
  · unfold maxFilesOpenPerProc
    omega
  · exact hg.slot

theorem handled_dup2 {newLocalFd oldLocalFd : ℕ}
    (h : (DescriptorCall.dup2 newLocalFd oldLocalFd).Usable k) :
    (DescriptorCall.dup2 newLocalFd oldLocalFd).Handled t k := by
  have hnew := h.1.lt
  have hold := h.2.lt
  refine .works (.dup2 h.1 h.2) ((SameFrom.read_bind _ k).trans ?_)
  rw [if_neg (by omega)]
  exact .refl _ k

end Usable

/-- A call works on open descriptors or returns an error just from the states from which it
can be made. -/
theorem handled_iff (t : Transfer) (k : Kernel) (c : DescriptorCall) :
    c.Handled t k ↔ c.Usable k := by
  constructor
  · intro h
    cases h with
    | works hwork h =>
        cases hwork with
        | readPipe hg hpipe hopen => exact Or.inr (Or.inr (Or.inr ⟨_, hg, Or.inl ⟨_, hopen⟩⟩))
        | readStdin hg hfile => exact Or.inr (Or.inr (Or.inr ⟨_, hg, Or.inr ⟨rfl, hfile⟩⟩))
        | readFile hg hopen => exact Or.inr (Or.inr (Or.inr ⟨_, hg, Or.inl ⟨_, hopen⟩⟩))
        | writePipe hg hpipe hopen => exact Or.inr ⟨_, hg, Or.inl ⟨_, hopen⟩⟩
        | writeStdout hg hfile => exact Or.inr ⟨_, hg, Or.inr ⟨hfile, Or.inl rfl⟩⟩
        | writeFile hg hopen => exact Or.inr ⟨_, hg, Or.inl ⟨_, hopen⟩⟩
        | lseekFile hg hfile hopen => exact Or.inr ⟨_, hg, ⟨_, hopen⟩, hfile⟩
        | closePipe hg hopen => exact Or.inr ⟨_, hg, _, hopen⟩
        | closeFile hg hopen => exact Or.inr ⟨_, hg, _, hopen⟩
        | dup2 hnew hold => exact ⟨hnew, hold⟩
    | fails herror h =>
        by_contra hnot
        cases c with
        | read fd buf count => exact (stops_sysRead hnot).not_pure _ h
        | write fd buf count => exact (stops_sysWrite hnot).not_pure _ h
        | lseek fd offset whence => exact (stops_sysLseek hnot).not_pure _ h
        | close fd =>
            cases herror
            exact sysClose_fails hnot h
        | dup2 newLocalFd oldLocalFd => cases herror
  · intro h
    cases c with
    | read fd buf count => exact handled_read h
    | write fd buf count => exact handled_write h
    | lseek fd offset whence => exact handled_lseek h
    | close fd => exact handled_close h
    | dup2 newLocalFd oldLocalFd => exact handled_dup2 h

/-- `sys_close(9)` indexes `fd_table` out of range. -/
theorem not_handled_close_nine : ¬ (DescriptorCall.close 9).Handled .repeated smallMachine := by
  have hno : ∀ g, ¬ smallMachine.Entry 9 g := fun g hg => absurd hg.slot (by decide)
  intro h
  cases h with
  | works hwork h =>
      cases hwork with
      | closePipe hg _ => exact hno _ hg
      | closeFile hg _ => exact hno _ hg
  | fails herror h =>
      cases herror
      refine sysClose_fails (fun husable => ?_) h
      rcases husable with hstd | ⟨g, hg, -⟩
      · exact absurd hstd (by decide)
      · exact hno g hg

end BochsOs
