import BochsOs.Library.Bytes

/-!
# The page directory seen through itself

The last entry of every page directory names the directory, so that the top 4 MiB of an
address space hold its own page tables.  `kernel/memory.c` reaches all entries through this
window: `pde_ptr` and `pte_ptr` compute an address, and the processor translates that address
by the very tables it lies in.

Here addresses and entries are 32-bit words and the physical memory is a function on bytes, so
that the masks and shifts of the source stand as they are written.  `walk` is the two-level
translation of the processor.  Only the bit `PG_P_1` of an entry matters to it: the kernel runs
in ring 0 without write protection, and pages of 4 MiB are off.  A word is read and written at
an address that is a multiple of four, hence inside one page.
-/

namespace BochsOs.SelfMap

open ByteMemory

/-! ## The code -/

/-- `PDE_IDX`. -/
def pdeIdx (addr : BitVec 32) : BitVec 32 := (addr &&& 0xffc00000#32) >>> 22

/-- `PTE_IDX`. -/
def pteIdx (addr : BitVec 32) : BitVec 32 := (addr &&& 0x003ff000#32) >>> 12

/-- `pte_ptr`. -/
def ptePtr (vaddr : BitVec 32) : BitVec 32 :=
  0xffc00000#32 + ((vaddr &&& 0xffc00000#32) >>> 10) + pteIdx vaddr * 4#32

/-- `pde_ptr`. -/
def pdePtr (vaddr : BitVec 32) : BitVec 32 := 0xfffff000#32 + pdeIdx vaddr * 4#32

/-! ## The processor -/

/-- Bits 22 to 31 of an address. -/
def dirIndex (vaddr : BitVec 32) : BitVec 10 := vaddr.extractLsb' 22 10

/-- Bits 12 to 21 of an address. -/
def tableIndex (vaddr : BitVec 32) : BitVec 10 := vaddr.extractLsb' 12 10

/-- Bits 0 to 11 of an address. -/
def offset (vaddr : BitVec 32) : BitVec 12 := vaddr.extractLsb' 0 12

/-- The frame an entry names, or the one that `cr3` names. -/
def frameOf (entry : BitVec 32) : BitVec 20 := entry.extractLsb' 12 20

/-- The bit `PG_P_1` of an entry. -/
def present (entry : BitVec 32) : Bool := entry.getLsbD 0

/-- The byte at an offset of a frame. -/
def physical (frame : BitVec 20) (off : BitVec 12) : BitVec 32 := frame ++ off

/-- Entry `index` of the directory or table in a frame. -/
def entryAt (frame : BitVec 20) (index : BitVec 10) : BitVec 32 :=
  physical frame (index ++ 0#2)

/-- The word at a physical address. -/
def word (mem : Bytes) (p : BitVec 32) : BitVec 32 := BitVec.ofNat 32 (readU32 mem p.toNat)

variable (mem : Bytes) (cr3 : BitVec 32)

/-- Where the directory entry of an address lies. -/
def pdeAddr (vaddr : BitVec 32) : BitVec 32 := entryAt (frameOf cr3) (dirIndex vaddr)

/-- Where the page-table entry of an address lies. -/
def pteAddr (vaddr : BitVec 32) : BitVec 32 :=
  entryAt (frameOf (word mem (pdeAddr cr3 vaddr))) (tableIndex vaddr)

/-- The two-level walk; `none` is a page fault. -/
def walk (vaddr : BitVec 32) : Option (BitVec 32) :=
  if present (word mem (pdeAddr cr3 vaddr)) then
    if present (word mem (pteAddr mem cr3 vaddr)) then
      some (physical (frameOf (word mem (pteAddr mem cr3 vaddr))) (offset vaddr))
    else none
  else none

/-- `addr_v2p`: the word at `pte_ptr(vaddr)` is read through the walk. -/
def addrV2p (vaddr : BitVec 32) : Option (BitVec 32) :=
  (walk mem cr3 (ptePtr vaddr)).map fun p =>
    (word mem p &&& 0xfffff000#32) + (vaddr &&& 0x00000fff#32)

/-- The last entry of the page directory maps the directory itself. -/
structure SelfMapped : Prop where
  present : present (word mem (entryAt (frameOf cr3) (BitVec.allOnes 10))) = true
  frame : frameOf (word mem (entryAt (frameOf cr3) (BitVec.allOnes 10))) = frameOf cr3

/-! ## The address arithmetic -/

/-- Masking away the lowest `n` bits. -/
theorem toNat_and_high (v mask : BitVec 32) {n : ℕ} (hmask : mask = BitVec.allOnes 32 <<< n) :
    (v &&& mask).toNat = v.toNat / 2 ^ n * 2 ^ n := by
  have hshift : v &&& mask = v >>> n <<< n := by
    rw [hmask]
    apply BitVec.eq_of_getLsbD_eq
    intro i hi
    simp only [BitVec.getLsbD_and, BitVec.getLsbD_shiftLeft, BitVec.getLsbD_allOnes,
      BitVec.getLsbD_ushiftRight]
    grind
  have hlt : v.toNat / 2 ^ n * 2 ^ n < 2 ^ 32 :=
    lt_of_le_of_lt (Nat.div_mul_le_self _ _) v.isLt
  rw [hshift, BitVec.toNat_shiftLeft, BitVec.toNat_ushiftRight, Nat.shiftRight_eq_div_pow,
    Nat.shiftLeft_eq, Nat.mod_eq_of_lt hlt]

theorem toNat_pdeIdx (v : BitVec 32) : (pdeIdx v).toNat = v.toNat / 2 ^ 22 := by
  rw [pdeIdx, BitVec.toNat_ushiftRight, toNat_and_high v 0xffc00000#32 (n := 22) rfl,
    Nat.shiftRight_eq_div_pow]
  omega

theorem toNat_pteIdx (v : BitVec 32) : (pteIdx v).toNat = v.toNat / 2 ^ 12 % 2 ^ 10 := by
  have hmask : 0x003ff000#32 >>> 12 = 0x3ff#32 := by decide
  rw [pteIdx, BitVec.ushiftRight_and_distrib, hmask, BitVec.toNat_and, BitVec.toNat_ushiftRight,
    Nat.shiftRight_eq_div_pow]
  exact Nat.and_two_pow_sub_one_eq_mod _ 10

theorem toNat_pdePtr (v : BitVec 32) :
    (pdePtr v).toNat = 0xfffff000 + v.toNat / 2 ^ 22 * 4 := by
  have hidx := toNat_pdeIdx v
  have hlt := v.isLt
  unfold pdePtr
  bv_omega

theorem toNat_ptePtr (v : BitVec 32) :
    (ptePtr v).toNat =
      0xffc00000 + v.toNat / 2 ^ 22 * 2 ^ 12 + v.toNat / 2 ^ 12 % 2 ^ 10 * 4 := by
  have hidx := toNat_pteIdx v
  have hhigh := toNat_and_high v 0xffc00000#32 (n := 22) rfl
  have hlt := v.isLt
  unfold ptePtr
  bv_omega

theorem toNat_dirIndex (v : BitVec 32) : (dirIndex v).toNat = v.toNat / 2 ^ 22 := by
  have hlt := v.isLt
  rw [dirIndex, BitVec.extractLsb'_toNat, Nat.shiftRight_eq_div_pow]
  omega

theorem toNat_tableIndex (v : BitVec 32) :
    (tableIndex v).toNat = v.toNat / 2 ^ 12 % 2 ^ 10 := by
  rw [tableIndex, BitVec.extractLsb'_toNat, Nat.shiftRight_eq_div_pow]

theorem toNat_offset (v : BitVec 32) : (offset v).toNat = v.toNat % 2 ^ 12 := by
  rw [offset, BitVec.extractLsb'_toNat, Nat.shiftRight_zero]

theorem toNat_frameOf (e : BitVec 32) : (frameOf e).toNat = e.toNat / 2 ^ 12 := by
  have hlt := e.isLt
  rw [frameOf, BitVec.extractLsb'_toNat, Nat.shiftRight_eq_div_pow]
  omega

/-- An index into a table as an offset into its frame. -/
theorem toNat_index_append (i : BitVec 10) : (i ++ 0#2 : BitVec 12).toNat = i.toNat * 4 := by
  rw [BitVec.toNat_append, ← Nat.shiftLeft_add_eq_or_of_lt (0#2).isLt, Nat.shiftLeft_eq]
  rfl

theorem toNat_physical (f : BitVec 20) (o : BitVec 12) :
    (physical f o).toNat = f.toNat * 2 ^ 12 + o.toNat := by
  rw [physical, BitVec.toNat_append, ← Nat.shiftLeft_add_eq_or_of_lt o.isLt, Nat.shiftLeft_eq]

/-! ## The window in the top of an address space -/

theorem dirIndex_pdePtr (v : BitVec 32) : dirIndex (pdePtr v) = BitVec.allOnes 10 := by
  have hlt := v.isLt
  apply BitVec.eq_of_toNat_eq
  rw [toNat_dirIndex, toNat_pdePtr, BitVec.toNat_allOnes]
  omega

theorem tableIndex_pdePtr (v : BitVec 32) : tableIndex (pdePtr v) = BitVec.allOnes 10 := by
  have hlt := v.isLt
  apply BitVec.eq_of_toNat_eq
  rw [toNat_tableIndex, toNat_pdePtr, BitVec.toNat_allOnes]
  omega

theorem offset_pdePtr (v : BitVec 32) : offset (pdePtr v) = dirIndex v ++ 0#2 := by
  have hlt := v.isLt
  apply BitVec.eq_of_toNat_eq
  rw [toNat_offset, toNat_pdePtr, toNat_index_append, toNat_dirIndex]
  omega

theorem dirIndex_ptePtr (v : BitVec 32) : dirIndex (ptePtr v) = BitVec.allOnes 10 := by
  have hlt := v.isLt
  apply BitVec.eq_of_toNat_eq
  rw [toNat_dirIndex, toNat_ptePtr, BitVec.toNat_allOnes]
  omega

theorem tableIndex_ptePtr (v : BitVec 32) : tableIndex (ptePtr v) = dirIndex v := by
  have hlt := v.isLt
  apply BitVec.eq_of_toNat_eq
  rw [toNat_tableIndex, toNat_ptePtr, toNat_dirIndex]
  omega

theorem offset_ptePtr (v : BitVec 32) : offset (ptePtr v) = tableIndex v ++ 0#2 := by
  apply BitVec.eq_of_toNat_eq
  rw [toNat_offset, toNat_ptePtr, toNat_index_append, toNat_tableIndex]
  omega

/-- The two masks of `addr_v2p` put the frame of an entry and the offset of an address
together. -/
theorem mask_add_mask (e v : BitVec 32) :
    (e &&& 0xfffff000#32) + (v &&& 0x00000fff#32) = physical (frameOf e) (offset v) := by
  have hhigh := toNat_and_high e 0xfffff000#32 (n := 12) rfl
  have hlow : (v &&& 0x00000fff#32).toNat = v.toNat % 2 ^ 12 := by
    rw [BitVec.toNat_and]
    exact Nat.and_two_pow_sub_one_eq_mod _ 12
  have hlt := e.isLt
  apply BitVec.eq_of_toNat_eq
  rw [BitVec.toNat_add, hhigh, hlow, toNat_physical, toNat_frameOf, toNat_offset]
  omega

/-! ## Translation through the window -/

variable {mem cr3}

/-- In the window the directory takes the place of the page table. -/
theorem pteAddr_of_last (hself : SelfMapped mem cr3) {w : BitVec 32}
    (hw : dirIndex w = BitVec.allOnes 10) :
    pteAddr mem cr3 w = entryAt (frameOf cr3) (tableIndex w) := by
  rw [pteAddr, pdeAddr, hw, hself.frame]

theorem walk_of_last (hself : SelfMapped mem cr3) {w : BitVec 32}
    (hw : dirIndex w = BitVec.allOnes 10)
    (hpresent : present (word mem (entryAt (frameOf cr3) (tableIndex w))) = true) :
    walk mem cr3 w =
      some (physical (frameOf (word mem (entryAt (frameOf cr3) (tableIndex w)))) (offset w)) := by
  have hdir : present (word mem (pdeAddr cr3 w)) = true := by
    rw [pdeAddr, hw]
    exact hself.present
  rw [walk, if_pos hdir, pteAddr_of_last hself hw, if_pos hpresent]

/-- The last entry is used for both levels. -/
theorem walk_pdePtr (hself : SelfMapped mem cr3) (v : BitVec 32) :
    walk mem cr3 (pdePtr v) = some (pdeAddr cr3 v) := by
  rw [walk_of_last hself (dirIndex_pdePtr v), tableIndex_pdePtr, hself.frame, offset_pdePtr]
  · rfl
  · rw [tableIndex_pdePtr]
    exact hself.present

/-- The last entry is used once, then the entry of `v` itself. -/
theorem walk_ptePtr (hself : SelfMapped mem cr3) {v : BitVec 32}
    (hpresent : present (word mem (pdeAddr cr3 v)) = true) :
    walk mem cr3 (ptePtr v) = some (pteAddr mem cr3 v) := by
  rw [walk_of_last hself (dirIndex_ptePtr v), tableIndex_ptePtr, offset_ptePtr]
  · rfl
  · rw [tableIndex_ptePtr]
    exact hpresent

theorem walk_eq_some {v p : BitVec 32} :
    walk mem cr3 v = some p ↔
      present (word mem (pdeAddr cr3 v)) = true ∧ present (word mem (pteAddr mem cr3 v)) = true ∧
        physical (frameOf (word mem (pteAddr mem cr3 v))) (offset v) = p := by
  unfold walk
  split
  next hpde =>
    split
    next hpte => simp [hpde, hpte]
    next hpte => simp [hpte]
  next hpde => simp [hpde]

theorem addrV2p_of_walk (hself : SelfMapped mem cr3) {v p : BitVec 32}
    (hwalk : walk mem cr3 v = some p) : addrV2p mem cr3 v = some p := by
  obtain ⟨hpde, hpte, rfl⟩ := walk_eq_some.mp hwalk
  rw [addrV2p, walk_ptePtr hself hpde, Option.map_some, mask_add_mask]

/-! ## Making a page directory -/

/-- The loop of `memcpy`, between two addresses that the processor translates. -/
def memcpyLoop (cr3 : BitVec 32) : ℕ → Bytes → BitVec 32 → BitVec 32 → Option Bytes
  | 0, mem, _, _ => some mem
  | n + 1, mem, d, s => do
    let source ← walk mem cr3 s
    let target ← walk mem cr3 d
    memcpyLoop cr3 n (Function.update mem target.toNat (mem source.toNat)) (d + 1) (s + 1)

/-- `memcpy`. -/
def memcpy (cr3 : BitVec 32) (mem : Bytes) (dst src : BitVec 32) (n : ℕ) : Option Bytes :=
  if dst ≠ 0 ∧ src ≠ 0 then memcpyLoop cr3 n mem dst src else none

/-- `PG_P_1`. -/
def pgP1 : BitVec 32 := 1

/-- `PG_RW_W`. -/
def pgRwW : BitVec 32 := 2

/-- `PG_US_U`. -/
def pgUsU : BitVec 32 := 4

/-- `create_page_dir` with the page that `get_kernel_pages` found. -/
def createPageDir (mem : Bytes) (cr3 pageDirVaddr : BitVec 32) : Option Bytes := do
  let mem ← memcpy cr3 mem (pageDirVaddr + 0x300#32 * 4#32) (0xfffff000#32 + 0x300#32 * 4#32) 1024
  let newPageDirPhyAddr ← addrV2p mem cr3 pageDirVaddr
  let slot ← walk mem cr3 (pageDirVaddr + 1023#32 * 4#32)
  return writeU32 mem slot.toNat (newPageDirPhyAddr ||| pgUsU ||| pgRwW ||| pgP1).toNat

/-- The frame `f` is neither the directory nor a page table of the kernel half: the last entry
names the directory. -/
def Unused (mem : Bytes) (cr3 : BitVec 32) (f : BitVec 20) : Prop :=
  ∀ i : BitVec 10, 768 ≤ i.toNat → frameOf (word mem (entryAt (frameOf cr3) i)) ≠ f

theorem toNat_entryAt (f : BitVec 20) (i : BitVec 10) :
    (entryAt f i).toNat = f.toNat * 2 ^ 12 + i.toNat * 4 := by
  rw [entryAt, toNat_physical, toNat_index_append]

/-- An entry depends only on the frame it lies in. -/
theorem word_congr {mem' : Bytes} {f g : BitVec 20} (hne : g ≠ f)
    (h : ∀ a, a / 2 ^ 12 ≠ f.toNat → mem' a = mem a) (i : BitVec 10) :
    word mem' (entryAt g i) = word mem (entryAt g i) := by
  have hi := i.isLt
  have hne' : g.toNat ≠ f.toNat := fun heq => hne (BitVec.eq_of_toNat_eq heq)
  rw [word, word, toNat_entryAt]
  congr 1
  apply readU32_congr
  intro j hj
  apply h
  omega

/-- A translation does not see a change outside its two tables. -/
theorem walk_congr {mem' : Bytes} {f : BitVec 20} {v : BitVec 32} (hdir : frameOf cr3 ≠ f)
    (htable : frameOf (word mem (pdeAddr cr3 v)) ≠ f)
    (h : ∀ a, a / 2 ^ 12 ≠ f.toNat → mem' a = mem a) : walk mem' cr3 v = walk mem cr3 v := by
  have hpde : word mem' (pdeAddr cr3 v) = word mem (pdeAddr cr3 v) := word_congr hdir h _
  have hpteAddr : pteAddr mem' cr3 v = pteAddr mem cr3 v := by rw [pteAddr, pteAddr, hpde]
  have hpte : word mem' (pteAddr mem cr3 v) = word mem (pteAddr mem cr3 v) :=
    word_congr htable h _
  rw [walk, walk, hpde, hpteAddr, hpte]

theorem SelfMapped.congr {mem' : Bytes} {f : BitVec 20} (hself : SelfMapped mem cr3)
    (hdir : frameOf cr3 ≠ f) (h : ∀ a, a / 2 ^ 12 ≠ f.toNat → mem' a = mem a) :
    SelfMapped mem' cr3 := by
  have hword : word mem' (entryAt (frameOf cr3) (BitVec.allOnes 10)) =
      word mem (entryAt (frameOf cr3) (BitVec.allOnes 10)) := word_congr hdir h _
  exact ⟨hword ▸ hself.present, hword ▸ hself.frame⟩

/-- Inside a page addresses are translated alike. -/
theorem walk_add {v p : BitVec 32} (hv : offset v = 0) (hwalk : walk mem cr3 v = some p) {k : ℕ}
    (hk : k < 2 ^ 12) :
    ∃ q, walk mem cr3 (v + BitVec.ofNat 32 k) = some q ∧
      q.toNat = (frameOf p).toNat * 2 ^ 12 + k := by
  have hlt := v.isLt
  have hzero : v.toNat % 2 ^ 12 = 0 := by rw [← toNat_offset, hv]; rfl
  have hadd : (v + BitVec.ofNat 32 k).toNat = v.toNat + k := by
    rw [BitVec.toNat_add, BitVec.toNat_ofNat]
    omega
  have hdir : dirIndex (v + BitVec.ofNat 32 k) = dirIndex v := by
    apply BitVec.eq_of_toNat_eq
    rw [toNat_dirIndex, toNat_dirIndex, hadd]
    omega
  have htable : tableIndex (v + BitVec.ofNat 32 k) = tableIndex v := by
    apply BitVec.eq_of_toNat_eq
    rw [toNat_tableIndex, toNat_tableIndex, hadd]
    omega
  have hoff : (offset (v + BitVec.ofNat 32 k)).toNat = k := by
    rw [toNat_offset, hadd]
    omega
  have hpde : pdeAddr cr3 (v + BitVec.ofNat 32 k) = pdeAddr cr3 v := by rw [pdeAddr, pdeAddr, hdir]
  have hpte : pteAddr mem cr3 (v + BitVec.ofNat 32 k) = pteAddr mem cr3 v := by
    rw [pteAddr, pteAddr, hpde, htable]
  obtain ⟨hpdePresent, hptePresent, rfl⟩ := walk_eq_some.mp hwalk
  refine ⟨_, walk_eq_some.mpr ⟨hpde ▸ hpdePresent, hpte ▸ hptePresent, rfl⟩, ?_⟩
  rw [hpte, toNat_physical, hoff, toNat_frameOf (physical _ _), toNat_physical, hv]
  rw [show (0 : BitVec 12).toNat = 0 from rfl]
  omega

/-- The directory is its own last page. -/
theorem walk_directory (hself : SelfMapped mem cr3) :
    walk mem cr3 0xfffff000#32 = some (physical (frameOf cr3) 0) :=
  walk_pdePtr hself 0

theorem frameOf_physical (f : BitVec 20) (o : BitVec 12) : frameOf (physical f o) = f := by
  have ho := o.isLt
  apply BitVec.eq_of_toNat_eq
  rw [toNat_frameOf, toNat_physical]
  omega

/-- The copy of a part of the directory to a page whose frame takes part in no translation. -/
theorem memcpyLoop_eq {v p : BitVec 32} (hv : offset v = 0) (hdir : frameOf cr3 ≠ frameOf p)
    {n : ℕ} : ∀ {mem : Bytes} {k : ℕ}, SelfMapped mem cr3 → walk mem cr3 v = some p →
      frameOf (word mem (pdeAddr cr3 v)) ≠ frameOf p → k + n ≤ 2 ^ 12 →
      memcpyLoop cr3 n mem (v + BitVec.ofNat 32 k) (0xfffff000#32 + BitVec.ofNat 32 k) =
        some (copy mem ((frameOf p).toNat * 2 ^ 12 + k) mem ((frameOf cr3).toNat * 2 ^ 12 + k) n) := by
  induction n with
  | zero =>
      intro mem k _ _ _ _
      rw [memcpyLoop, copy_zero_len]
  | succ n ih =>
      intro mem k hself hwalk htable hk
      obtain ⟨source, hsource, hsourceNat⟩ :=
        walk_add (k := k) rfl (walk_directory hself) (by omega)
      obtain ⟨target, htarget, htargetNat⟩ := walk_add hv hwalk (k := k) (by omega)
      rw [frameOf_physical] at hsourceNat
      have hne : (frameOf cr3).toNat ≠ (frameOf p).toNat := fun heq =>
        hdir (BitVec.eq_of_toNat_eq heq)
      have hupdate : Function.update mem target.toNat (mem source.toNat) =
          copy mem ((frameOf p).toNat * 2 ^ 12 + k) mem ((frameOf cr3).toNat * 2 ^ 12 + k) 1 := by
        funext a
        by_cases ha : a = target.toNat
        · have hsame : (frameOf p).toNat * 2 ^ 12 + k - ((frameOf p).toNat * 2 ^ 12 + k) = 0 :=
            Nat.sub_self _
          rw [ha, Function.update_self, htargetNat, copy_inside le_rfl (Nat.lt_succ_self _), hsame,
            hsourceNat, Nat.add_zero]
        · rw [Function.update_of_ne ha, copy_outside (by omega)]
      have hframe : ∀ a, a / 2 ^ 12 ≠ (frameOf p).toNat →
          copy mem ((frameOf p).toNat * 2 ^ 12 + k) mem ((frameOf cr3).toNat * 2 ^ 12 + k) 1 a =
            mem a := fun a ha => copy_outside (by omega)
      rw [memcpyLoop, hsource, htarget]
      simp only [Option.bind_eq_bind, Option.bind_some]
      rw [hupdate, BitVec.add_assoc, BitVec.add_assoc]
      have hone : BitVec.ofNat 32 k + 1 = BitVec.ofNat 32 (k + 1) := (BitVec.ofNat_add _ _).symm
      rw [hone, ih (hself.congr hdir hframe) ((walk_congr hdir htable hframe).trans hwalk)
        ((word_congr hdir hframe _).symm ▸ htable) (by omega)]
      have hsource : ∀ dst : Bytes, copy dst ((frameOf p).toNat * 2 ^ 12 + (k + 1))
          (copy mem ((frameOf p).toNat * 2 ^ 12 + k) mem ((frameOf cr3).toNat * 2 ^ 12 + k) 1)
            ((frameOf cr3).toNat * 2 ^ 12 + (k + 1)) n =
          copy dst ((frameOf p).toNat * 2 ^ 12 + (k + 1)) mem
            ((frameOf cr3).toNat * 2 ^ 12 + (k + 1)) n :=
        fun dst => copy_congr fun i hi => hframe _ (by omega)
      rw [hsource]
      rw [← Nat.add_assoc, ← Nat.add_assoc, copy_copy_append, Nat.add_comm 1 n]

theorem present_flags (e : BitVec 32) : present (e ||| pgUsU ||| pgRwW ||| pgP1) = true := by
  simp [present, pgP1]

theorem frameOf_flags (e : BitVec 32) : frameOf (e ||| pgUsU ||| pgRwW ||| pgP1) = frameOf e := by
  have hflags : (pgUsU ||| pgRwW ||| pgP1).extractLsb' 12 20 = 0#20 := by decide
  rw [frameOf, BitVec.or_assoc, BitVec.or_assoc, ← BitVec.or_assoc pgUsU, BitVec.extractLsb'_or,
    hflags, BitVec.or_zero, frameOf]

/-- A frame made a directory: its kernel half is that of the directory in the frame `old`, its
last entry is `last`. -/
def newDirectory (mem : Bytes) (old new : BitVec 20) (last : BitVec 32) : Bytes :=
  writeU32 (copy mem (new.toNat * 2 ^ 12 + 0xc00) mem (old.toNat * 2 ^ 12 + 0xc00) 1024)
    (new.toNat * 2 ^ 12 + 4092) last.toNat

section NewDirectory

variable (mem : Bytes) (old new : BitVec 20) (last : BitVec 32)

theorem newDirectory_outside {a : ℕ} (ha : a / 2 ^ 12 ≠ new.toNat) :
    newDirectory mem old new last a = mem a := by
  rw [newDirectory, writeU32_outside (by omega), copy_outside (by omega)]

theorem word_newDirectory_last :
    word (newDirectory mem old new last) (entryAt new (BitVec.allOnes 10)) = last := by
  have hslot : (entryAt new (BitVec.allOnes 10)).toNat = new.toNat * 2 ^ 12 + 4092 := by
    rw [toNat_entryAt, BitVec.toNat_allOnes]
  rw [word, hslot, newDirectory, readU32_writeU32, Nat.mod_eq_of_lt last.isLt, BitVec.ofNat_toNat,
    BitVec.setWidth_eq]

theorem word_newDirectory {i : BitVec 10} (hkernel : 768 ≤ i.toNat) (hlast : i.toNat < 1023) :
    word (newDirectory mem old new last) (entryAt new i) = word mem (entryAt old i) := by
  have hsource : old.toNat * 2 ^ 12 + 0xc00 +
      (new.toNat * 2 ^ 12 + i.toNat * 4 - (new.toNat * 2 ^ 12 + 0xc00)) =
        old.toNat * 2 ^ 12 + i.toNat * 4 := by omega
  rw [word, word, toNat_entryAt, toNat_entryAt, newDirectory,
    readU32_writeU32_of_disjoint (by omega), readU32_copy_inside (by omega) (by omega), hsource]

end NewDirectory

/-- What `create_page_dir` leaves in the memory. -/
theorem createPageDir_eq (hself : SelfMapped mem cr3) {v p : BitVec 32} (hv : offset v = 0)
    (hwalk : walk mem cr3 v = some p) (hdir : frameOf cr3 ≠ frameOf p)
    (htable : frameOf (word mem (pdeAddr cr3 v)) ≠ frameOf p) :
    createPageDir mem cr3 v =
      some (newDirectory mem (frameOf cr3) (frameOf p) (p ||| pgUsU ||| pgRwW ||| pgP1)) := by
  have hzero : v.toNat % 2 ^ 12 = 0 := by rw [← toNat_offset, hv]; rfl
  have hnull : v + 0x300#32 * 4#32 ≠ 0 := by bv_omega
  have hframe : ∀ a, a / 2 ^ 12 ≠ (frameOf p).toNat →
      copy mem ((frameOf p).toNat * 2 ^ 12 + 0xc00) mem ((frameOf cr3).toNat * 2 ^ 12 + 0xc00)
        1024 a = mem a := fun a ha => copy_outside (by omega)
  have hcopied := (walk_congr hdir htable hframe).trans hwalk
  obtain ⟨slot, hslot, hslotNat⟩ := walk_add hv hcopied (k := 4092) (by omega)
  have hmemcpy := memcpyLoop_eq hv hdir (n := 1024) (k := 0xc00) hself hwalk htable (by omega)
  rw [createPageDir, memcpy, if_pos ⟨hnull, by decide⟩]
  rw [show v + 0x300#32 * 4#32 = v + BitVec.ofNat 32 0xc00 from rfl,
    show 0xfffff000#32 + 0x300#32 * 4#32 = 0xfffff000#32 + BitVec.ofNat 32 0xc00 from rfl, hmemcpy]
  simp only [Option.bind_eq_bind, Option.bind_some]
  rw [addrV2p_of_walk (hself.congr hdir hframe) hcopied]
  simp only [Option.bind_some]
  rw [show v + 1023#32 * 4#32 = v + BitVec.ofNat 32 4092 from rfl, hslot]
  rw [newDirectory, ← hslotNat]
  rfl

/-- The new directory maps itself, and above `0xc0000000`, its own window apart, it translates
as the directory it was made under. -/
theorem createPageDir_shares_kernel (hself : SelfMapped mem cr3) {v p : BitVec 32}
    (hkernel : 0xc0000000 ≤ v.toNat) (hv : offset v = 0) (hwalk : walk mem cr3 v = some p)
    (hunused : Unused mem cr3 (frameOf p)) :
    ∃ mem', createPageDir mem cr3 v = some mem' ∧ SelfMapped mem' p ∧
      ∀ w : BitVec 32, 0xc0000000 ≤ w.toNat → w.toNat < 0xffc00000 →
        walk mem' p w = walk mem cr3 w := by
  have hupper : ∀ w : BitVec 32, 0xc0000000 ≤ w.toNat → 768 ≤ (dirIndex w).toNat := by
    intro w hw
    rw [toNat_dirIndex]
    omega
  have hdir : frameOf cr3 ≠ frameOf p := by
    rw [← hself.frame]
    exact hunused _ (by decide)
  have htable := fun w hw => hunused (dirIndex w) (hupper w hw)
  refine ⟨_, createPageDir_eq hself hv hwalk hdir (htable v hkernel), ⟨?_, ?_⟩, ?_⟩
  · rw [word_newDirectory_last]
    exact present_flags p
  · rw [word_newDirectory_last]
    exact frameOf_flags p
  · intro w hw hwindow
    have hpde := word_newDirectory mem (frameOf cr3) (frameOf p)
      (p ||| pgUsU ||| pgRwW ||| pgP1) (hupper w hw) (by rw [toNat_dirIndex]; omega)
    have hpte := word_congr (htable w hw) (fun a => newDirectory_outside mem (frameOf cr3) (frameOf p)
      (p ||| pgUsU ||| pgRwW ||| pgP1)) (tableIndex w)
    simp only [walk, pteAddr, pdeAddr, hpde, hpte]
    rfl

/-! ## The directory of the boot loader -/

/-- A loop of `setup_page`: `n` entries from the address `a` on, for consecutive frames. -/
def writeEntries : ℕ → Bytes → ℕ → ℕ → Bytes
  | 0, mem, _, _ => mem
  | n + 1, mem, a, entry => writeEntries n (writeU32 mem a entry) (a + 4) (entry + 0x1000)

/-- `setup_page` of `boot/loader.S`, with `PAGE_DIR_TABLE_POS` as `0x100000`. -/
def setupPage (mem : Bytes) : Bytes :=
  let flags := 4 ||| 2 ||| 1
  let mem := fill mem 0x100000 4096 0
  let mem := writeU32 mem 0x100000 (0x101000 ||| flags)
  let mem := writeU32 mem 0x100c00 (0x101000 ||| flags)
  let mem := writeU32 mem (0x100000 + 4092) ((0x101000 ||| flags) - 0x1000)
  let mem := writeEntries 256 mem 0x101000 flags
  writeEntries 254 mem (0x100000 + 769 * 4) (0x102000 ||| flags)

theorem readU32_writeEntries_outside {n : ℕ} : ∀ {mem : Bytes} {a entry b : ℕ},
    b + 4 ≤ a ∨ a + 4 * n ≤ b → readU32 (writeEntries n mem a entry) b = readU32 mem b := by
  induction n with
  | zero =>
      intro mem a entry b _
      rfl
  | succ n ih =>
      intro mem a entry b hb
      rw [writeEntries, ih (by omega), readU32_writeU32_of_disjoint (by omega)]

theorem readU32_writeEntries {n : ℕ} : ∀ {mem : Bytes} {a entry i : ℕ}, i < n →
    readU32 (writeEntries n mem a entry) (a + 4 * i) = (entry + 0x1000 * i) % 2 ^ 32 := by
  induction n with
  | zero =>
      intro mem a entry i hi
      omega
  | succ n ih =>
      intro mem a entry i hi
      rw [writeEntries]
      cases i with
      | zero =>
          rw [readU32_writeEntries_outside (by omega), Nat.mul_zero, Nat.add_zero,
            readU32_writeU32]
          rfl
      | succ i =>
          have haddr : a + 4 * (i + 1) = a + 4 + 4 * i := by omega
          rw [haddr, ih (by omega)]
          congr 1
          omega

/-- The entries `setup_page` makes for the directory itself, for the lowest megabyte and for
its copy at `0xc0000000`. -/
theorem readU32_setupPage (mem : Bytes) :
    readU32 (setupPage mem) 0x100ffc = 0x100007 ∧ readU32 (setupPage mem) 0x100000 = 0x101007 ∧
      readU32 (setupPage mem) 0x100c00 = 0x101007 ∧
      ∀ i < 256, readU32 (setupPage mem) (0x101000 + 4 * i) = 7 + 0x1000 * i := by
  refine ⟨?_, ?_, ?_, ?_⟩
  · rw [setupPage, readU32_writeEntries_outside (by omega), readU32_writeEntries_outside (by omega)]
    exact readU32_writeU32 _ _ _
  · rw [setupPage, readU32_writeEntries_outside (by omega), readU32_writeEntries_outside (by omega),
      readU32_writeU32_of_disjoint (by omega), readU32_writeU32_of_disjoint (by omega)]
    exact readU32_writeU32 _ _ _
  · rw [setupPage, readU32_writeEntries_outside (by omega), readU32_writeEntries_outside (by omega),
      readU32_writeU32_of_disjoint (by omega)]
    exact readU32_writeU32 _ _ _
  · intro i hi
    rw [setupPage, readU32_writeEntries_outside (by omega), readU32_writeEntries hi]
    exact Nat.mod_eq_of_lt (show 7 + 0x1000 * i < 2 ^ 32 by omega)

/-- `PAGE_DIR_TABLE_POS`. -/
def pageDirTablePos : BitVec 32 := 0x100000

theorem setupPage_selfMapped (mem : Bytes) : SelfMapped (setupPage mem) pageDirTablePos := by
  have hword : word (setupPage mem) (entryAt (frameOf pageDirTablePos) (BitVec.allOnes 10)) =
      0x100007#32 := congrArg (BitVec.ofNat 32) (readU32_setupPage mem).1
  constructor
  · rw [hword]
    rfl
  · rw [hword]
    rfl

/-- The lowest megabyte is found at its own addresses and from `0xc0000000` on. -/
theorem setupPage_walk (mem : Bytes) {v p : BitVec 32} (hp : p.toNat < 0x100000)
    (hv : v.toNat = p.toNat ∨ v.toNat = 0xc0000000 + p.toNat) :
    walk (setupPage mem) pageDirTablePos v = some p := by
  obtain ⟨-, hlow, hhigh, htable⟩ := readU32_setupPage mem
  have hpde : word (setupPage mem) (pdeAddr pageDirTablePos v) = 0x101007#32 := by
    rw [word, pdeAddr, toNat_entryAt, toNat_dirIndex]
    rcases hv with hv | hv
    · have hzero : v.toNat / 2 ^ 22 = 0 := by omega
      rw [hzero]
      exact congrArg (BitVec.ofNat 32) hlow
    · have hkernel : v.toNat / 2 ^ 22 = 768 := by omega
      rw [hkernel]
      exact congrArg (BitVec.ofNat 32) hhigh
  have hindex : (tableIndex v).toNat = p.toNat / 2 ^ 12 := by
    rw [toNat_tableIndex]
    omega
  have hpte : word (setupPage mem) (pteAddr (setupPage mem) pageDirTablePos v) =
      BitVec.ofNat 32 (7 + 0x1000 * (p.toNat / 2 ^ 12)) := by
    rw [word, pteAddr, hpde, toNat_entryAt, hindex, Nat.mul_comm _ 4]
    exact congrArg (BitVec.ofNat 32) (htable _ (by omega))
  refine walk_eq_some.mpr ⟨by rw [hpde]; rfl, ?_, ?_⟩
  · rw [hpte, present, BitVec.getLsbD_ofNat, Nat.testBit_zero]
    simp
    omega
  · apply BitVec.eq_of_toNat_eq
    rw [hpte, toNat_physical, toNat_frameOf, BitVec.toNat_ofNat, toNat_offset]
    omega

/-- What the pointers of `pde_ptr` and `pte_ptr` reach and what `addr_v2p` returns. -/
theorem selfMap_reaches (hself : SelfMapped mem cr3) (vaddr : BitVec 32) :
    walk mem cr3 (pdePtr vaddr) = some (pdeAddr cr3 vaddr) ∧
      (present (word mem (pdeAddr cr3 vaddr)) = true →
        walk mem cr3 (ptePtr vaddr) = some (pteAddr mem cr3 vaddr)) ∧
      ∀ p, walk mem cr3 vaddr = some p → addrV2p mem cr3 vaddr = some p :=
  ⟨walk_pdePtr hself vaddr, walk_ptePtr hself, fun _ => addrV2p_of_walk hself⟩

/-- At the entry of the kernel, right after the boot. -/
theorem selfMap_reaches_entry :
    walk (setupPage fun _ => 0) pageDirTablePos (pdePtr 0xc0001500) = some 0x100c00 ∧
      walk (setupPage fun _ => 0) pageDirTablePos (ptePtr 0xc0001500) = some 0x101004 ∧
      addrV2p (setupPage fun _ => 0) pageDirTablePos 0xc0001500 = some 0x1500 := by
  obtain ⟨hpde, hpte, haddr⟩ :=
    selfMap_reaches (setupPage_selfMapped fun _ => 0) 0xc0001500
  have hentry := (readU32_setupPage fun _ => 0).2.2.1
  have hword : word (setupPage fun _ => 0) (pdeAddr pageDirTablePos 0xc0001500) = 0x101007#32 :=
    congrArg (BitVec.ofNat 32) hentry
  refine ⟨hpde, ?_, haddr _ (setupPage_walk _ (by decide) (Or.inr rfl))⟩
  rw [hpte (by rw [hword]; rfl), pteAddr, hword]
  rfl

end BochsOs.SelfMap
