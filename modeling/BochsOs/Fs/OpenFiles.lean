import BochsOs.Library.Runs
import BochsOs.Fs.Frame

/-!
# Open files

Looking a path up and writing directories leave the file table and the processes as
they are: they open and close inodes, and change the contents of inodes, but never the
number of an inode that is already in memory (`KeepsOpen`).
-/

namespace BochsOs

open ByteMemory Suspend Suspend.Prog Runs

/-- The inodes of `open_inodes` and of `file_table` were all allocated. -/
structure Kernel.Allocated (k : Kernel) : Prop where
  opened : ∀ a ∈ k.openInodes, a < k.nextInode
  files : ∀ fd < maxFileOpen, ∀ a, (k.fileTable fd).fdInode = some a → a < k.nextInode

/-- From `k` to `k'` the file table and the processes do not change, and the inodes of
`k` keep their numbers. -/
structure KeepsOpen (k k' : Kernel) : Prop where
  files : k'.fileTable = k.fileTable
  tasks : k'.tasks = k.tasks
  running : k'.running = k.running
  nextTask : k'.nextTask = k.nextTask
  all : k'.threadAllList = k.threadAllList
  next : k.nextInode ≤ k'.nextInode
  number : ∀ a < k.nextInode, (k'.inodes a).iNo = (k.inodes a).iNo
  opened : (∀ a ∈ k.openInodes, a < k.nextInode) → ∀ a ∈ k'.openInodes, a < k'.nextInode

theorem KeepsOpen.trans {k₁ k₂ k₃ : Kernel} (h : KeepsOpen k₁ k₂) (h' : KeepsOpen k₂ k₃) :
    KeepsOpen k₁ k₃ where
  files := h'.files.trans h.files
  tasks := h'.tasks.trans h.tasks
  running := h'.running.trans h.running
  nextTask := h'.nextTask.trans h.nextTask
  all := h'.all.trans h.all
  next := h.next.trans h'.next
  number a ha := (h'.number a (ha.trans_le h.next)).trans (h.number a ha)
  opened hk := h'.opened (h.opened hk)

instance : IsPreorder Kernel KeepsOpen where
  refl k := by constructor <;> simp
  trans _ _ _ h h' := h.trans h'

theorem KeepsOpen.allocated {k k' : Kernel} (h : KeepsOpen k k') (hk : k.Allocated) :
    k'.Allocated where
  opened := h.opened hk.opened
  files fd hfd a ha := (hk.files fd hfd a (h.files ▸ ha)).trans_le h.next

/-! ## Inodes -/

/-- Change an inode but for its number. -/
theorem keepsOpen_setInode (k : Kernel) (a : ℕ) {inode : Inode}
    (hno : inode.iNo = (k.inodes a).iNo) : KeepsOpen k (k.setInode a inode) := by
  constructor <;> simp only [Kernel.setInode, le_refl]
  · intro b _
    by_cases hb : b = a
    · subst hb
      rw [Function.update_self, hno]
    · rw [Function.update_of_ne hb]
  · exact fun h => h

instance : ContentFrame KeepsOpen where
  disk k disk := by constructor <;> simp
  blockBitmap k b := by constructor <;> simp
  inodeBitmap k b := by constructor <;> simp
  inode k a _ h := keepsOpen_setInode k a h.iNo

/-- The part of `inode_open` that runs when the inode is not open yet. -/
theorem keepsOpen_newInode (k : Kernel) (inode : Inode) :
    KeepsOpen k { { k with nextInode := k.nextInode + 1 }.setInode k.nextInode inode with
      openInodes := k.nextInode :: k.openInodes } where
  files := rfl
  tasks := rfl
  running := rfl
  nextTask := rfl
  all := rfl
  next := Nat.le_succ _
  number a ha := by
    simp only [Kernel.setInode]
    rw [Function.update_of_ne ha.ne]
  opened hk a ha := by
    rcases List.mem_cons.mp ha with rfl | ha
    · exact Nat.lt_succ_self _
    · exact (hk a ha).trans (Nat.lt_succ_self _)

theorem keepsOpen_nextInode (k : Kernel) : KeepsOpen k { k with nextInode := k.nextInode + 1 } := by
  constructor <;> simp
  intro h a ha
  exact (h a ha).le

/-- The new inode of `file_create`. -/
theorem keepsOpen_createInode (k : Kernel) (inode : Inode) :
    KeepsOpen k { k.setInode k.nextInode inode with nextInode := k.nextInode + 1 } :=
  { keepsOpen_newInode k inode with
    opened := fun hk a ha => (hk a ha).trans (Nat.lt_succ_self _) }

/-- The end of `file_create`: the inode is added to the open ones. -/
theorem keepsOpen_push (k : Kernel) {a : ℕ} {inode : Inode} (ha : a < k.nextInode)
    (hno : inode.iNo = (k.inodes a).iNo) :
    KeepsOpen k { k.setInode a inode with openInodes := a :: k.openInodes } :=
  { keepsOpen_setInode k a hno with
    opened := by
      intro hk b hb
      rcases List.mem_cons.mp hb with rfl | hb
      · exact ha
      · exact hk b hb }

instance : WalkFrame KeepsOpen where
  count k a n := keepsOpen_setInode k a rfl
  erase k a := by
    constructor <;> simp
    intro h b hb
    exact h b (List.mem_of_mem_erase hb)
  alloc k := keepsOpen_nextInode k
  newInode k inode := keepsOpen_newInode k inode
  newDir k a := by constructor <;> simp
  freeDir k d := by constructor <;> simp

/-- The inode that `inode_open` returns: one of this number that was open already, or
a new one. -/
theorem inodeOpen_spec {t : Transfer} {inodeNo : ℕ} {k : Kernel} :
    (inodeOpen t inodeNo).wp (fun a k' => a ∈ k.openInodes ∧ (k.inodes a).iNo = inodeNo ∨
      a = k.nextInode ∧ a < k'.nextInode) k := by
  rw [inodeOpen, wp_bind, wp_read]
  cases hfind : k.findOpen inodeNo with
  | some a =>
      have hmem := List.mem_of_find?_eq_some hfind
      have hno := List.find?_some hfind
      exact Or.inl ⟨hmem, by simpa using hno⟩
  | none =>
      simp only [wp_bind, wp_inodeLocate, wp_sysMallocUnchecked, wp_read, wp_write]
      intro _
      refine wp_mono (ideRead_same _ _ _ _).wp_eq ?_
      rintro buf _ rfl
      exact Or.inr ⟨rfl, Nat.lt_succ_self _⟩

/-! ## Descriptors -/

theorem getFreeSlotInGlobal_spec {k : Kernel} {Q : Option ℕ → Kernel → Prop}
    (hnone : Q none k)
    (hsome : ∀ fd, 3 ≤ fd → fd < maxFileOpen → (k.fileTable fd).fdInode = none → Q (some fd) k) :
    getFreeSlotInGlobal.wp Q k := by
  simp only [getFreeSlotInGlobal, wp_bind, wp_read, wp_pure]
  cases hfind : (List.range' 3 (maxFileOpen - 3)).find? fun fd => (k.fileTable fd).fdInode.isNone with
  | none => exact hnone
  | some fd =>
      have hmem := List.mem_of_find?_eq_some hfind
      have hfree := List.find?_some hfind
      rw [List.mem_range'_1] at hmem
      refine hsome fd hmem.1 (by unfold maxFileOpen at hmem ⊢; omega) ?_
      simpa using hfree

end BochsOs
